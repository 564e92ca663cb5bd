import PhpSyntax.Proofs.Tokens
import PhpSyntax.Text.Boundary

/-!
The tokens of a text and their trivia lie in it side by side: none is empty but the end of file,
none overlap, nothing is left out, and no end of one falls inside a character.
-/
namespace PhpSyntax

namespace Range

/-- Ranges that cover the bytes from one offset to another, each beginning where the one before it
ends. -/
def Tile : (start : Nat) → List Range → (stop : Nat) → Prop
  | start, [], stop => start = stop
  | start, r :: rs, stop => r.start = start ∧ Tile r.stop rs stop

end Range

namespace TriviaPiece

/-- Pieces of trivia that take a text, each of them a character or more. -/
inductive Spans : List TriviaPiece → List Char → Prop where
  | nil : Spans [] []
  | cons {p ps front text} (wide : p.width = Text.width front) (taken : front ≠ [])
    (tail : Spans ps text) : Spans (p :: ps) (front ++ text)

variable {ps : List TriviaPiece} {text : List Char}

theorem Spans.width_pos (h : Spans ps text) : ∀ p ∈ ps, 0 < p.width := by
  induction h with
  | nil => simp
  | @cons p ps front text wide taken _ ih =>
    refine List.forall_mem_cons.mpr ⟨?_, ih⟩
    obtain ⟨c, cs, rfl⟩ := List.exists_cons_of_ne_nil taken
    rw [wide, Text.width_cons]
    exact Nat.lt_of_lt_of_le c.utf8Size_pos (Nat.le_add_right ..)

theorem Spans.width_eq (h : Spans ps text) : Text.width text = totalWidth ps := by
  induction h with
  | nil => rfl
  | cons wide _ _ ih => rw [totalWidth_cons, wide, Text.width_append, ih]

/-- Every piece ends at a character of the text. -/
theorem Spans.isBoundary (h : Spans ps text) (k : Nat) :
    Text.IsBoundary (totalWidth (ps.take k)) text := by
  induction h generalizing k with
  | nil =>
    rw [List.take_nil]
    exact Text.isBoundary_zero []
  | cons wide _ _ ih =>
    cases k with
    | zero => exact Text.isBoundary_zero _
    | succ k =>
      rw [List.take_succ_cons, totalWidth_cons, wide]
      exact (ih k).append_left _

end TriviaPiece

namespace Token

/-- A token lies in its text as it should: its trivia in pieces of a byte or more before it, every
end at a boundary, and it takes something itself unless it is the end of file. -/
structure Lies (text : List Char) (t : Token) : Prop where
  taken : t.kind ≠ .eof → t.range.start < t.range.stop
  empty : t.kind = .eof → t.range.start = t.range.stop
  pieces : ∀ piece ∈ t.leading, 1 ≤ piece.width
  leading : TriviaPiece.totalWidth t.leading = t.range.start - t.fullRange.start
  piece_boundary : ∀ k,
    Text.IsBoundary (t.fullRange.start + TriviaPiece.totalWidth (t.leading.take k)) text
  start_boundary : Text.IsBoundary t.range.start text
  stop_boundary : Text.IsBoundary t.range.stop text

end Token

namespace LeadingTrivia

/-- What is read takes the text before the rest, piece by piece. -/
theorem readFrom_spans (lead : LeadingTrivia) (skip : Nat) (cs : List Char) : ∃ more front,
    (readFrom lead skip cs).pieces = more.reverse ++ lead.pieces ∧
    cs.drop skip = front ++ (readFrom lead skip cs).rest ∧ TriviaPiece.Spans more front := by
  induction cs generalizing lead skip with
  | nil => exact ⟨[], [], by simp [readFrom], by simp [readFrom], .nil⟩
  | cons c cs ih =>
    cases skip with
    | succ skip =>
      rw [readFrom]
      exact ih lead skip
    | zero =>
      rw [readFrom]
      split
      · exact ⟨[], [], rfl, rfl, .nil⟩
      · next scan hs =>
        obtain ⟨n, hn⟩ := Nat.exists_eq_add_one.mpr (TriviaScan.first_length_pos hs)
        obtain ⟨more, front, hp, hr, hspans⟩ :=
          ih (lead.add scan ((c :: cs).take scan.length)) (scan.length - 1)
        refine ⟨⟨scan.kind, Text.width ((c :: cs).take scan.length)⟩ :: more,
          (c :: cs).take scan.length ++ front, ?_, ?_, .cons rfl ?_ hspans⟩
        · rw [hp, add]
          simp
        · rw [List.append_assoc, ← hr, hn, List.take_succ_cons, Nat.add_sub_cancel,
            List.cons_append, List.take_append_drop, List.drop_zero]
        · rw [hn, List.take_succ_cons]
          exact List.cons_ne_nil _ _

theorem read_spans (offset : Nat) (cs : List Char) : ∃ front,
    cs = front ++ (read offset cs).rest ∧ TriviaPiece.Spans (read offset cs).pieces front := by
  obtain ⟨more, front, hp, hr, hspans⟩ := readFrom_spans ⟨[], none, offset, []⟩ 0 cs
  refine ⟨front, hr, ?_⟩
  rw [read, hp, List.append_nil, List.reverse_reverse]
  exact hspans

end LeadingTrivia

namespace Place

variable {dialect : Dialect} {text : List Char} {p : Place}

/-- A place in a text: a boundary, and the characters behind it. -/
def Within (text : List Char) (p : Place) : Prop :=
  ∃ before, text = before ++ p.rest ∧ p.offset = Text.width before

/-- The trivia of the token at a place takes the text before the token, piece by piece. -/
theorem next_spans (dialect : Dialect) (p : Place) : ∃ lead,
    p.rest = lead ++ ((p.next dialect).1.text ++ (p.next dialect).2.rest) ∧
    TriviaPiece.Spans (p.next dialect).1.leading lead := by
  obtain ⟨offset, mode, rest⟩ := p
  cases mode with
  | html =>
    refine ⟨[], ?_, .nil⟩
    simp only [next, List.splitAt_eq, List.nil_append, List.take_append_drop]
  | code =>
    obtain ⟨front, hr, hspans⟩ := LeadingTrivia.read_spans offset rest
    refine ⟨front, ?_, hspans⟩
    simp only [next, List.splitAt_eq, List.take_append_drop]
    exact hr

/-- Reading a token leads from a place in a text to another one. -/
theorem Within.next (h : p.Within text) (dialect : Dialect) : (p.next dialect).2.Within text := by
  obtain ⟨before, htext, hoffset⟩ := h
  have hr := next_reads dialect p
  obtain ⟨lead, hrest, hwide⟩ := hr.text
  refine ⟨before ++ (lead ++ (p.next dialect).1.text), ?_, ?_⟩
  · rw [htext, hrest]
    simp
  · rw [hr.offset, Token.stop_range, hr.begins, hoffset, ← hwide, Text.width_append,
      Text.width_append, Nat.add_assoc]

theorem Within.lies (h : p.Within text) (dialect : Dialect) : (p.next dialect).1.Lies text := by
  obtain ⟨before, htext, hoffset⟩ := h
  have hr := next_reads dialect p
  obtain ⟨lead, hrest, hspans⟩ := next_spans dialect p
  generalize p.next dialect = r at hr hrest hspans
  obtain ⟨t, after⟩ := r
  dsimp only at hr hrest hspans
  have hpiece (k : Nat) :
      Text.IsBoundary (t.fullRange.start + TriviaPiece.totalWidth (t.leading.take k)) text := by
    show Text.IsBoundary (t.offset + _) text
    rw [htext, hrest, hr.begins, hoffset]
    exact ((hspans.isBoundary k).append_right _).append_left before
  have hstart : Text.IsBoundary t.range.start text := by
    have hall := hpiece t.leading.length
    rwa [List.take_length] at hall
  refine ⟨fun hk => ?_, fun hk => ?_, hspans.width_pos, ?_, hpiece, hstart, ?_⟩
  · obtain ⟨c, cs, hc⟩ := List.exists_cons_of_ne_nil (hr.taken hk)
    have hpos := c.utf8Size_pos
    show t.offset + t.leadingWidth < t.offset + t.leadingWidth + Text.width t.text
    rw [hc, Text.width_cons]
    omega
  · show t.offset + t.leadingWidth = t.offset + t.leadingWidth + Text.width t.text
    rw [(hr.last hk).1, Text.width_nil, Nat.add_zero]
  · show t.leadingWidth = t.offset + t.leadingWidth - t.offset
    rw [Nat.add_sub_cancel_left]
  · refine ⟨before ++ (lead ++ t.text), after.rest, by rw [htext, hrest]; simp, ?_⟩
    show _ = t.offset + TriviaPiece.totalWidth t.leading + Text.width t.text
    rw [hr.begins, hoffset, ← hspans.width_eq, Text.width_append, Text.width_append,
      Nat.add_assoc]

/-- The tokens that are read from a place in a text on are read at places in it. -/
theorem mem_tokensFrom (h : p.Within text) {before : Array Token} {count : Nat} {t : Token}
    (ht : t ∈ tokensFrom dialect before count p) :
    t ∈ before ∨ ∃ q : Place, q.Within text ∧ t = (q.next dialect).1 := by
  induction count generalizing p before with
  | zero => exact .inl ht
  | succ count ih =>
    rw [tokensFrom] at ht
    dsimp only at ht
    split at ht
    · exact (Array.mem_push.mp ht).imp_right fun he => ⟨p, h, he⟩
    · rcases ih (h.next dialect) ht with hb | hq
      · exact (Array.mem_push.mp hb).imp_right fun he => ⟨p, h, he⟩
      · exact .inr hq

/-- Once there are as many steps as characters, more of them make no difference. -/
theorem tokensFrom_congr {before : Array Token} {count count' : Nat}
    (hc : p.rest.length < count) (hc' : p.rest.length < count') :
    tokensFrom dialect before count p = tokensFrom dialect before count' p := by
  induction count generalizing p before count' with
  | zero => omega
  | succ count ih =>
    obtain ⟨n, rfl⟩ := Nat.exists_eq_add_one.mpr (Nat.zero_lt_of_lt hc')
    rw [tokensFrom, tokensFrom]
    dsimp only
    split
    · rfl
    · next hk =>
      have hlt := (next_reads dialect p).length_lt hk
      exact ih (by omega) (by omega)

end Place

/-- Every token of a text is read at a place in it. -/
theorem exists_place_of_mem_tokenize {dialect : Dialect} {text : List Char} {t : Token}
    (ht : t ∈ tokenize dialect text) : ∃ p : Place, p.Within text ∧ t = (p.next dialect).1 := by
  have hstart : Place.Within text ⟨0, .html, text⟩ := ⟨[], rfl, rfl⟩
  exact (Place.mem_tokensFrom hstart (Array.mem_toList_iff.mp ht)).resolve_left
    (Array.not_mem_empty t)

theorem Token.Tiles.tile {offset : Nat} {text rest : List Char} {ts : List Token}
    (h : Tiles offset text ts rest) :
    ∃ front, text = front ++ rest ∧
      Range.Tile offset (ts.map Token.fullRange) (offset + Text.width front) := by
  induction h with
  | nil => exact ⟨[], rfl, rfl⟩
  | @cons offset t ts rest lead text begins wide tail ih =>
    obtain ⟨front, rfl, htile⟩ := ih
    refine ⟨lead ++ (t.text ++ front), by simp, begins, ?_⟩
    have hstop : t.fullRange.stop = t.range.stop := by
      show t.offset + (t.leadingWidth + Text.width t.text) = _
      rw [Token.stop_range, Nat.add_assoc]
    have he : offset + Text.width (lead ++ (t.text ++ front)) =
        t.range.stop + Text.width front := by
      rw [Token.stop_range, begins, Text.width_append, Text.width_append, wide]
      omega
    rwa [hstop, he]

/-- Reading a text comes to an end: the steps that it is given are enough, and more of them change
nothing. The last token, and no other, is the end of file. The tokens with their trivia cover the
text from its beginning to its end, side by side, and each of them lies in it as it should. -/
theorem tokenize_covers (dialect : Dialect) (text : List Char) :
    (∀ count, text.length < count →
      (Place.tokensFrom dialect #[] count ⟨0, .html, text⟩).toList = tokenize dialect text) ∧
    (∃ before last, tokenize dialect text = before ++ [last] ∧ last.kind = .eof ∧
      ∀ t ∈ before, t.kind ≠ .eof) ∧
    Range.Tile 0 ((tokenize dialect text).map Token.fullRange) (Text.width text) ∧
    ∀ t ∈ tokenize dialect text, t.Lies text := by
  refine ⟨fun count hc => ?_, tokenize_ended dialect text, ?_, fun t ht => ?_⟩
  · exact congrArg Array.toList (Place.tokensFrom_congr hc (Nat.lt_succ_self _))
  · obtain ⟨front, hfront, htile⟩ := (tokenize_tiles dialect text).tile
    rw [List.append_nil] at hfront
    rwa [Nat.zero_add, ← hfront] at htile
  · obtain ⟨p, hp, rfl⟩ := exists_place_of_mem_tokenize ht
    exact hp.lies dialect

end PhpSyntax
