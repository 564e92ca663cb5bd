import Mathlib.Order.Bounds.Basic
import PhpSyntax.Proofs.Tiling
import PhpSyntax.Proofs.Writing

/-!
The regions of a text. Outside of code there is nothing but text and open tags, and text ends where
the next open tag begins; inside of code there is neither, and only a close tag leads out of it.
-/
namespace PhpSyntax

namespace Dialect

/-- An open tag begins here: `<?=`, or `<?php` in any letter case before white space or the end of
the text, or any `<?` if there are short tags. -/
def Opens (dialect : Dialect) (cs : List Char) : Prop :=
  ∃ tail, cs = '<' :: '?' :: tail ∧
    (tail.head? = some '=' ∨
      (∃ p h q rest, tail = p :: h :: q :: rest ∧ p ∈ ['p', 'P'] ∧ h ∈ ['h', 'H'] ∧
        q ∈ ['p', 'P'] ∧ ∀ c ∈ rest.head?, c ∈ [' ', '\t', '\n', '\x0c', '\r']) ∨
      dialect.shortOpenTag = true)

/-- An open tag begins at an offset of a text. -/
def OpensAt (dialect : Dialect) (text : List Char) (offset : Nat) : Prop :=
  ∃ before after, text = before ++ after ∧ Text.width before = offset ∧ dialect.Opens after

end Dialect

/-- Kinds of tokens outside of code: text and open tags. -/
def Kind.isOutside : Kind → Bool
  | .inlineHtml | .openTag | .openTagWithEcho => true
  | _ => false

namespace Mode

theorem after_of_code {mode : Mode} {k : Kind} (h : k.isOutside = false) (hk : k ≠ .closeTag) :
    mode.after k = mode := by
  unfold after
  split
  · cases h
  · cases h
  · exact absurd rfl hk
  · rfl

end Mode

namespace Token

/-- Tokens from a region on. Text and open tags have no trivia, two texts are never next to each
other, and a region of code lasts from an open tag to a close tag. -/
inductive Alternate : Mode → List Token → Prop where
  | last {mode t} (isEnd : t.kind = .eof) (bare : mode = .html → t.leading = []) :
    Alternate mode [t]
  | text {t ts} (isText : t.kind = .inlineHtml) (bare : t.leading = [])
    (alone : firstKind ts ≠ .inlineHtml) (tail : Alternate .html ts) : Alternate .html (t :: ts)
  | opening {t ts} (isTag : t.kind = .openTag ∨ t.kind = .openTagWithEcho) (bare : t.leading = [])
    (tail : Alternate .code ts) : Alternate .html (t :: ts)
  | inside {t ts} (isCode : t.kind.isOutside = false) (inner : t.kind ≠ .closeTag ∧ t.kind ≠ .eof)
    (tail : Alternate .code ts) : Alternate .code (t :: ts)
  | closing {t ts} (isTag : t.kind = .closeTag) (tail : Alternate .html ts) :
    Alternate .code (t :: ts)

end Token

namespace Text

/-- Of two beginnings of a text the narrower one begins the other. -/
theorem exists_between {a b c d : List Char} (h : a ++ b = c ++ d) (hw : width a < width c) :
    ∃ middle, middle ≠ [] ∧ c = a ++ middle ∧ b = middle ++ d := by
  obtain ⟨middle, rfl, hb⟩ := exists_append_of_width h (Nat.le_of_lt hw)
  refine ⟨middle, ?_, rfl, hb⟩
  rintro rfl
  rw [List.append_nil] at hw
  exact Nat.lt_irrefl _ hw

end Text

namespace Lexeme

variable {dialect : Dialect} {cs : List Char} {l : Lexeme}

theorem toLower_eq_iff (c : Char) :
    (c.toLower = 'p' ↔ c ∈ ['p', 'P']) ∧ (c.toLower = 'h' ↔ c ∈ ['h', 'H']) := by
  unfold Char.toLower
  simp only [List.mem_cons, List.not_mem_nil, or_false]
  split
  · next h =>
    simp [Char.ext_iff, UInt32.le_iff_toNat_le, ← UInt32.toNat_inj] at h ⊢
    constructor <;> omega
  · next h =>
    simp [Char.ext_iff, UInt32.le_iff_toNat_le, ← UInt32.toNat_inj] at h ⊢
    constructor <;> omega

theorem all_isAsciiWhitespace (o : Option Char) : o.all isAsciiWhitespace = true ↔
    ∀ c ∈ o, c ∈ [' ', '\t', '\n', '\x0c', '\r'] := by
  cases o <;> simp [isAsciiWhitespace, or_assoc]

/-- The name of the language in any letter case, before white space or the end. -/
theorem spells_php (tail : List Char) : ((tail.take 3).map Char.toLower == ['p', 'h', 'p'] &&
    (tail.drop 3).head?.all isAsciiWhitespace) = true ↔
      ∃ p h q rest, tail = p :: h :: q :: rest ∧ p ∈ ['p', 'P'] ∧ h ∈ ['h', 'H'] ∧
        q ∈ ['p', 'P'] ∧ ∀ c ∈ rest.head?, c ∈ [' ', '\t', '\n', '\x0c', '\r'] := by
  rw [Bool.and_eq_true_iff, all_isAsciiWhitespace, beq_iff_eq]
  constructor
  · rintro ⟨hname, hspace⟩
    match tail, hname with
    | [], hname | [_], hname | [_, _], hname => simp at hname
    | p :: h :: q :: rest, hname =>
      obtain ⟨hp, hh, hq⟩ : p.toLower = 'p' ∧ h.toLower = 'h' ∧ q.toLower = 'p' := by
        simpa using hname
      exact ⟨p, h, q, rest, rfl, (toLower_eq_iff p).1.mp hp, (toLower_eq_iff h).2.mp hh,
        (toLower_eq_iff q).1.mp hq, hspace⟩
  · rintro ⟨p, h, q, rest, rfl, hp, hh, hq, hspace⟩
    refine ⟨?_, hspace⟩
    simp [(toLower_eq_iff p).1.mpr hp, (toLower_eq_iff h).2.mpr hh, (toLower_eq_iff q).1.mpr hq]

theorem isSome_openTag_iff : (openTag? dialect cs).isSome = true ↔ dialect.Opens cs := by
  unfold openTag? Dialect.Opens
  split
  · next tail =>
    have htail (P : List Char → Prop) :
        (∃ tail', '<' :: '?' :: tail = '<' :: '?' :: tail' ∧ P tail') ↔ P tail := by simp
    rw [htail, ← spells_php]
    split
    · next hecho => exact iff_of_true rfl (.inl (beq_iff_eq.mp hecho))
    split
    · next hphp => exact iff_of_true rfl (.inr (.inl hphp))
    split
    · next hshort => exact iff_of_true rfl (.inr (.inr hshort))
    · next hecho hphp hshort =>
      refine iff_of_false Bool.false_ne_true ?_
      rintro (h | h | h)
      · exact hecho (beq_iff_eq.mpr h)
      · exact hphp h
      · exact hshort h
  · next hcs =>
    refine iff_of_false Bool.false_ne_true ?_
    rintro ⟨tail, rfl, -⟩
    exact hcs tail rfl

theorem kind_openTag (h : openTag? dialect cs = some l) :
    l.kind = .openTag ∨ l.kind = .openTagWithEcho := by
  unfold openTag? at h
  split at h
  · split at h
    · obtain rfl := Option.some.inj h
      exact .inr rfl
    split at h
    · obtain rfl := Option.some.inj h
      exact .inl rfl
    split at h
    · obtain rfl := Option.some.inj h
      exact .inl rfl
    · cases h
  · cases h

/-- The search for an open tag stops at the first one, or at the end. -/
theorem exists_htmlFrom (dialect : Dialect) (n : Nat) (cs : List Char) : ∃ front back,
    cs = front ++ back ∧ htmlFrom dialect n cs = n + front.length ∧
      (back = [] ∨ dialect.Opens back) ∧
      ∀ x y, front = x ++ y → y ≠ [] → ¬ dialect.Opens (y ++ back) := by
  induction cs generalizing n with
  | nil =>
    refine ⟨[], [], rfl, rfl, .inl rfl, fun x y h hy => ?_⟩
    exact absurd (List.append_eq_nil_iff.mp h.symm).2 hy
  | cons c cs ih =>
    rw [htmlFrom]
    split
    · next htag =>
      refine ⟨[], c :: cs, rfl, rfl, .inr (isSome_openTag_iff.mp htag), fun x y h hy => ?_⟩
      exact absurd (List.append_eq_nil_iff.mp h.symm).2 hy
    · next htag =>
      obtain ⟨front, back, rfl, hlength, hback, hfront⟩ := ih (n + 1)
      refine ⟨c :: front, back, rfl, ?_, hback, fun x y h hy => ?_⟩
      · rw [hlength, List.length_cons]
        omega
      · cases x with
        | nil =>
          obtain rfl : y = c :: front := h.symm
          exact fun hopens => htag (isSome_openTag_iff.mpr hopens)
        | cons d x => exact hfront x y (List.cons.inj h).2 hy

theorem other_of_isOutside {k : Kind} (h : k.isOutside = true) :
    isLiteral k = false ∧ k ∉ spellings.map Prod.snd ∧ k.isNameLike = false := by
  unfold Kind.isOutside at h
  split at h
  · exact ⟨rfl, by decide +kernel, rfl⟩
  · exact ⟨rfl, by decide +kernel, rfl⟩
  · exact ⟨rfl, by decide +kernel, rfl⟩
  · cases h

/-- In code there is neither text nor an open tag. -/
theorem kind_code (cs : List Char) : (code cs).kind.isOutside = false := by
  rw [Bool.eq_false_iff]
  intro houtside
  obtain ⟨hliteral, hspelling, hname⟩ := other_of_isOutside houtside
  rcases code_kinds cs with hk | hk | ⟨-, hk⟩ | ⟨hk, -⟩
  · rw [hliteral] at hk
    cases hk
  · obtain ⟨ds, -, -, hl⟩ := exists_dollarName hk
    rw [hl] at houtside
    cases houtside
  · exact hspelling hk
  · rw [hname] at hk
    cases hk

end Lexeme

namespace Place

variable {dialect : Dialect} {text : List Char} {p : Place}

theorem mode_next (dialect : Dialect) (p : Place) :
    (p.next dialect).2.mode = p.mode.after (p.next dialect).1.kind := by
  obtain ⟨offset, mode, rest⟩ := p
  rfl

/-- Outside of code a token has no trivia. -/
theorem leading_next (h : p.mode = .html) : (p.next dialect).1.leading = [] := by
  obtain ⟨offset, mode, rest⟩ := p
  obtain rfl : mode = .html := h
  rfl

/-- Outside of code there is nothing but open tags and text that lasts up to the next one. -/
theorem next_html (h : p.mode = .html) (hk : (p.next dialect).1.kind ≠ .eof) :
    ((p.next dialect).1.kind = .openTag ∨ (p.next dialect).1.kind = .openTagWithEcho) ∨
    (p.next dialect).1.kind = .inlineHtml ∧
      (p.next dialect).1.text = p.rest.take (Lexeme.htmlFrom dialect 0 p.rest) ∧
      (p.next dialect).2.rest = p.rest.drop (Lexeme.htmlFrom dialect 0 p.rest) := by
  obtain ⟨offset, mode, rest⟩ := p
  obtain rfl : mode = .html := h
  simp only [next, List.splitAt_eq] at hk ⊢
  unfold Lexeme.html at hk ⊢
  split
  · exact absurd rfl hk
  · next htag => exact .inl (Lexeme.kind_openTag htag)
  · exact .inr ⟨rfl, rfl, rfl⟩

/-- Where an open tag begins there is no text. -/
theorem next_opens (h : p.mode = .html) (hopens : p.rest = [] ∨ dialect.Opens p.rest) :
    (p.next dialect).1.kind ≠ .inlineHtml := by
  obtain ⟨offset, mode, rest⟩ := p
  obtain rfl : mode = .html := h
  show (Lexeme.html dialect rest).kind ≠ .inlineHtml
  rcases hopens with rfl | hopens
  · exact Kind.noConfusion
  obtain ⟨l, hl⟩ := Option.isSome_iff_exists.mp (Lexeme.isSome_openTag_iff.mpr hopens)
  unfold Lexeme.html
  split
  · exact Kind.noConfusion
  · next htag => rcases Lexeme.kind_openTag htag with hk | hk <;> simp [hk]
  · next hnone =>
    rw [hl] at hnone
    cases hnone

theorem next_code (h : p.mode = .code) : (p.next dialect).1.kind.isOutside = false := by
  obtain ⟨offset, mode, rest⟩ := p
  obtain rfl : mode = .code := h
  exact Lexeme.kind_code _

theorem firstKind_tokens (dialect : Dialect) (p : Place) :
    Token.firstKind (p.tokens dialect) = (p.next dialect).1.kind := by
  obtain ⟨ts, hfirst⟩ := exists_tokens_cons dialect p
  rw [hfirst]
  rfl

/-- What follows text is an open tag, or the end. -/
theorem next_text (h : p.mode = .html) (hk : (p.next dialect).1.kind = .inlineHtml) :
    ((p.next dialect).2.next dialect).1.kind ≠ .inlineHtml := by
  rcases next_html h (by rw [hk]; exact Kind.noConfusion) with htag | ⟨-, -, hrest⟩
  · simp [hk] at htag
  obtain ⟨front, back, hsplit, hlength, hback, -⟩ := Lexeme.exists_htmlFrom dialect 0 p.rest
  refine next_opens ?_ ?_
  · rw [mode_next, hk, h]
    rfl
  · rwa [hrest, hlength, hsplit, Nat.zero_add, List.drop_left]

/-- The tokens from a place on alternate between text and code. -/
theorem tokens_alternate (dialect : Dialect) (p : Place) :
    Token.Alternate p.mode (p.tokens dialect) := by
  induction hn : p.rest.length using Nat.strongRecOn generalizing p with
  | ind n ih =>
    by_cases hk : (p.next dialect).1.kind = .eof
    · rw [tokens_eof hk]
      exact .last hk leading_next
    have htail := ih _ (hn ▸ (next_reads dialect p).length_lt hk) _ rfl
    rw [mode_next] at htail
    rw [tokens_next hk]
    cases hmode : p.mode with
    | html =>
      have hbare : (p.next dialect).1.leading = [] := leading_next hmode
      rcases next_html hmode hk with htag | ⟨htext, -, -⟩
      · refine .opening htag hbare ?_
        rcases htag with htag | htag <;> rwa [htag] at htail
      · rw [hmode, htext] at htail
        refine .text htext hbare ?_ htail
        rw [firstKind_tokens]
        exact next_text hmode htext
    | code =>
      rw [hmode] at htail
      have hcode : (p.next dialect).1.kind.isOutside = false := next_code hmode
      by_cases hclose : (p.next dialect).1.kind = .closeTag
      · rw [hclose] at htail
        exact .closing hclose htail
      · refine .inside hcode ⟨hclose, hk⟩ ?_
        rwa [Mode.after_of_code hcode hclose] at htail

/-- Text ends at the first open tag behind its beginning, or at the end. -/
theorem Within.isLeast (h : p.Within text) (hk : (p.next dialect).1.kind = .inlineHtml) :
    IsLeast {e | (p.next dialect).1.range.start < e ∧
      (dialect.OpensAt text e ∨ e = Text.width text)} (p.next dialect).1.range.stop := by
  obtain ⟨before, htext, hoffset⟩ := h
  have hmode : p.mode = .html := by
    cases hmode : p.mode with
    | html => rfl
    | code =>
      have hcode : (p.next dialect).1.kind.isOutside = false := next_code hmode
      rw [hk] at hcode
      cases hcode
  obtain ⟨front, back, hsplit, hlength, hback, hfirst⟩ := Lexeme.exists_htmlFrom dialect 0 p.rest
  have hne : (p.next dialect).1.kind ≠ .eof := by
    rw [hk]
    exact Kind.noConfusion
  have hfront : (p.next dialect).1.text = front := by
    rcases next_html hmode hne with htag | ⟨-, hfront, -⟩
    · simp [hk] at htag
    · rw [hfront, hlength, hsplit, Nat.zero_add, List.take_left]
  have hstart : (p.next dialect).1.range.start = Text.width before := by
    show (p.next dialect).1.offset + TriviaPiece.totalWidth (p.next dialect).1.leading = _
    rw [leading_next hmode, (next_reads dialect p).begins, hoffset]
    rfl
  have hstop : (p.next dialect).1.range.stop = Text.width before + Text.width front := by
    rw [← hstart, ← hfront]
    rfl
  rw [hstart, hstop]
  constructor
  · obtain ⟨c, cs, rfl⟩ : ∃ c cs, front = c :: cs :=
      List.exists_cons_of_ne_nil (hfront ▸ (next_reads dialect p).taken hne)
    refine ⟨?_, hback.symm.imp (fun hopens => ?_) fun hnil => ?_⟩
    · have hpos := c.utf8Size_pos
      rw [Text.width_cons]
      omega
    · exact ⟨before ++ c :: cs, back, by rw [htext, hsplit, List.append_assoc],
        Text.width_append .., hopens⟩
    · rw [htext, hsplit, hnil, List.append_nil, Text.width_append]
  · -- an open tag further ahead would begin within the text, where there is none
    rintro e ⟨hlt, ⟨b, a, hba, rfl, hopens⟩ | rfl⟩
    · by_contra hge
      rw [htext, hsplit] at hba
      obtain ⟨x, -, rfl, hxa⟩ := Text.exists_between hba hlt
      rw [Text.width_append] at hge
      obtain ⟨y, hy, hfront, rfl⟩ := Text.exists_between hxa.symm (by omega)
      exact hfirst x y hfront hy hopens
    · rw [htext, hsplit, Text.width_append, Text.width_append]
      omega

end Place

/-- Outside of code there are text, open tags and the end of file, and all of them without trivia;
no text follows another one, and it lasts up to the first open tag behind its beginning or to the
end. An open tag begins code, a close tag and nothing else ends it, and within it there is neither
text nor an open tag. -/
theorem regions_alternate (dialect : Dialect) (text : List Char) :
    Token.Alternate .html (tokenize dialect text) ∧
    ∀ t ∈ tokenize dialect text, t.kind = .inlineHtml →
      IsLeast {e | t.range.start < e ∧ (dialect.OpensAt text e ∨ e = Text.width text)}
        t.range.stop := by
  refine ⟨Place.tokens_alternate dialect ⟨0, .html, text⟩, fun t ht hk => ?_⟩
  obtain ⟨p, hp, rfl⟩ := exists_place_of_mem_tokenize ht
  exact hp.isLeast hk

end PhpSyntax
