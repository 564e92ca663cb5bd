import PhpSyntax.Proofs.Lexemes
import PhpSyntax.Proofs.Stages

/-!
The tokens of a text tile it: each begins where the one before it ends, and what they and their
trivia take is the whole text. The end of file comes last and only there.
-/
namespace PhpSyntax

/-- Something that is wrong with a token alone. -/
def Diagnostic.IsLexical (d : Diagnostic) : Prop :=
  ∃ problem range, d = .of problem range ∧ problem.isLexical = true

namespace TriviaScan

theorem le_lineCommentFrom (n : Nat) (cs : List Char) : n ≤ lineCommentFrom n cs := by
  induction cs generalizing n with
  | nil => exact Nat.le_refl n
  | cons c cs ih =>
    rw [lineCommentFrom]
    split
    · exact Nat.le_refl n
    · exact Nat.le_of_succ_le (ih (n + 1))

theorem le_closingStar (n : Nat) (cs : List Char) : n ≤ (closingStar n cs).1 := by
  induction cs generalizing n with
  | nil => exact Nat.le_refl n
  | cons c cs ih =>
    rw [closingStar]
    split
    · show n ≤ n + 2
      omega
    · exact Nat.le_of_succ_le (ih (n + 1))

/-- Every piece of trivia takes a character. -/
theorem first_length_pos {cs : List Char} {scan : TriviaScan} (h : first? cs = some scan) :
    0 < scan.length := by
  cases cs with
  | nil => cases h
  | cons c cs =>
    rw [first?] at h
    split at h
    · next hc =>
      obtain rfl := Option.some.inj h
      simp [Lexeme.blankLength, hc]
    split at h
    · obtain rfl := Option.some.inj h
      simp
    split at h
    · obtain rfl := Option.some.inj h
      dsimp only
      split <;> omega
    split at h
    · next hn hr hc =>
      obtain rfl := Option.some.inj h
      have hne : (c == '\n' || c == '\r' || (c == '?' && cs.head? == some '>')) = false := by
        have hq : c ≠ '?' := by
          rintro rfl
          simp at hc
        simp_all
      rw [lineCommentFrom, hne]
      exact le_lineCommentFrom 1 cs
    split at h
    · obtain rfl := Option.some.inj h
      have hle := le_closingStar 2 ((c :: cs).drop 2)
      exact Nat.lt_of_lt_of_le (by decide) hle
    · cases h

end TriviaScan

namespace LeadingTrivia

theorem add_width (lead : LeadingTrivia) (scan : TriviaScan) (text : List Char) :
    TriviaPiece.totalWidth (lead.add scan text).pieces =
      Text.width text + TriviaPiece.totalWidth lead.pieces := rfl

theorem add_error {lead : LeadingTrivia} {scan : TriviaScan} {text : List Char} {d : Diagnostic}
    (h : (lead.add scan text).error = some d) : lead.error = some d ∨ d.IsLexical := by
  simp only [add] at h
  cases he : lead.error with
  | some e =>
    rw [he] at h
    exact .inl h
  | none =>
    rw [he] at h
    split at h
    · cases h
    · exact .inr ⟨_, _, (Option.some.inj h).symm, rfl⟩

theorem readFrom_skip {lead : LeadingTrivia} {skip : Nat} {cs : List Char} (h : cs.length ≤ skip) :
    readFrom lead skip cs = { lead with rest := [] } := by
  induction cs generalizing skip with
  | nil => rw [readFrom]
  | cons c cs ih =>
    obtain ⟨skip, rfl⟩ := Nat.exists_eq_add_one.mpr (Nat.lt_of_lt_of_le (Nat.succ_pos _) h)
    rw [readFrom]
    exact ih (Nat.le_of_succ_le_succ h)

theorem readFrom_none {lead : LeadingTrivia} {c : Char} {cs : List Char}
    (h : TriviaScan.first? (c :: cs) = none) :
    readFrom lead 0 (c :: cs) = { lead with rest := c :: cs } := by
  rw [readFrom, h]

theorem readFrom_some {lead : LeadingTrivia} {c : Char} {cs : List Char} {scan : TriviaScan}
    (h : TriviaScan.first? (c :: cs) = some scan) : readFrom lead 0 (c :: cs) =
      readFrom (lead.add scan ((c :: cs).take scan.length)) (scan.length - 1) cs := by
  rw [readFrom, h]

/-- The pieces that are read take what lies before the rest. -/
theorem readFrom_eq (lead : LeadingTrivia) (skip : Nat) (cs : List Char) :
    ∃ front, cs.drop skip = front ++ (readFrom lead skip cs).rest ∧
      (readFrom lead skip cs).offset = lead.offset + Text.width front ∧
      TriviaPiece.totalWidth (readFrom lead skip cs).pieces =
        TriviaPiece.totalWidth lead.pieces + Text.width front ∧
      ∀ d, (readFrom lead skip cs).error = some d → lead.error = some d ∨ d.IsLexical := by
  induction cs generalizing lead skip with
  | nil => exact ⟨[], by simp [readFrom], by simp [readFrom], by simp [readFrom],
      fun d hd => .inl (by simpa [readFrom] using hd)⟩
  | cons c cs ih =>
    cases skip with
    | succ skip =>
      obtain ⟨front, h₁, h₂, h₃, h₄⟩ := ih lead skip
      exact ⟨front, by rwa [readFrom, List.drop_succ_cons], by rwa [readFrom], by rwa [readFrom],
        fun d hd => h₄ d (by rwa [readFrom] at hd)⟩
    | zero =>
      cases hs : TriviaScan.first? (c :: cs) with
      | none => exact ⟨[], by simp [readFrom, hs], by simp [readFrom, hs], by simp [readFrom, hs],
          fun d hd => .inl (by simpa [readFrom, hs] using hd)⟩
      | some scan =>
        have hpos := TriviaScan.first_length_pos hs
        obtain ⟨n, hn⟩ := Nat.exists_eq_add_one.mpr hpos
        obtain ⟨front, h₁, h₂, h₃, h₄⟩ := ih (lead.add scan ((c :: cs).take scan.length)) n
        have hr : readFrom lead 0 (c :: cs) =
            readFrom (lead.add scan ((c :: cs).take scan.length)) n cs := by
          rw [readFrom, hs]
          show readFrom _ (scan.length - 1) cs = _
          rw [show scan.length - 1 = n by omega]
        rw [hr]
        refine ⟨(c :: cs).take scan.length ++ front, ?_, ?_, ?_, fun d hd => ?_⟩
        · rw [List.append_assoc, ← h₁, List.drop_zero, hn, List.take_succ_cons, List.cons_append,
            List.take_append_drop]
        · rw [h₂, add, Text.width_append, Nat.add_assoc]
        · rw [h₃, add_width, Text.width_append]
          omega
        · exact (h₄ d hd).elim add_error .inr

/-- The trivia takes the text between an offset and its rest. -/
def Precedes (lead : LeadingTrivia) (offset : Nat) (cs : List Char) : Prop :=
  ∃ front, cs = front ++ lead.rest ∧ lead.offset = offset + Text.width front ∧
    TriviaPiece.totalWidth lead.pieces = Text.width front ∧
    ∀ d, lead.error = some d → d.IsLexical

theorem none_precedes (offset : Nat) (cs : List Char) : Precedes ⟨[], none, offset, cs⟩ offset cs :=
  ⟨[], rfl, rfl, rfl, fun d hd => by cases hd⟩

theorem read_precedes (offset : Nat) (cs : List Char) : (read offset cs).Precedes offset cs := by
  obtain ⟨front, h₁, h₂, h₃, h₄⟩ := readFrom_eq ⟨[], none, offset, []⟩ 0 cs
  refine ⟨front, h₁, h₂, ?_, fun d hd => ?_⟩
  · rw [read, TriviaPiece.totalWidth_reverse, h₃]
    exact Nat.zero_add _
  · exact (h₄ d hd).elim (fun h => by cases h) id

end LeadingTrivia

namespace Token

/-- What holds of every token of a text. -/
structure Lawful (t : Token) : Prop where
  written : t.kind ≠ .eof → t.kind.isWritten = true
  reported : t.kind = .skipped → t.error.isSome = true
  lexical : ∀ d, t.error = some d → d.IsLexical

/-- The tokens with their trivia take a text up to `rest`; the text stands at an offset. -/
inductive Tiles : (offset : Nat) → (text : List Char) → List Token → (rest : List Char) → Prop where
  | nil {offset rest} : Tiles offset rest [] rest
  | cons {offset t ts rest} (lead : List Char) {text} (begins : t.offset = offset)
    (wide : Text.width lead = t.leadingWidth) (tail : Tiles t.range.stop text ts rest) :
    Tiles offset (lead ++ (t.text ++ text)) (t :: ts) rest

theorem stop_range (t : Token) : t.range.stop = t.offset + t.leadingWidth + Text.width t.text := rfl

end Token

namespace Place

variable {dialect : Dialect} {p after : Place} {t : Token} {ts : List Token}

/-- The token is what is read at a place, and `after` is the place behind it. -/
structure Reads (p : Place) (t : Token) (after : Place) : Prop where
  begins : t.offset = p.offset
  text : ∃ lead, p.rest = lead ++ (t.text ++ after.rest) ∧ Text.width lead = t.leadingWidth
  offset : after.offset = t.range.stop
  lawful : t.Lawful
  last : t.kind = .eof → t.text = [] ∧ after.rest = []
  taken : t.kind ≠ .eof → t.text ≠ []

/-- Trivia and a lexeme make a token. -/
theorem reads_token {offset : Nat} {mode mode' : Mode} {rest : List Char} {lead : LeadingTrivia}
    {l : Lexeme} (hlead : lead.Precedes offset rest) (hl : l.Begins lead.rest) :
    let text := lead.rest.take l.length
    Reads ⟨offset, mode, rest⟩
      ⟨offset, lead.pieces, l.kind, text,
        lead.error <|> l.problem.map (Diagnostic.of · (.ofLength lead.offset (Text.width text)))⟩
      ⟨lead.offset + Text.width text, mode', lead.rest.drop l.length⟩ := by
  obtain ⟨front, hrest, hoffset, hwidth, herror⟩ := hlead
  have hlexical : ∀ p, l.problem = some p → p.isLexical = true := by
    rcases hl with ⟨-, rfl⟩ | ⟨-, hv⟩
    · simp
    · exact hv.lexical
  refine ⟨rfl, ⟨front, ?_, hwidth.symm⟩, ?_, ⟨fun hk => ?_, fun hk => ?_, fun d hd => ?_⟩,
    fun hk => ?_, fun hk => ?_⟩
  · show rest = front ++ (lead.rest.take l.length ++ lead.rest.drop l.length)
    rw [List.take_append_drop, ← hrest]
  · rw [Token.stop_range, Token.leadingWidth, hwidth, hoffset]
  · rcases hl with ⟨-, rfl⟩ | ⟨-, hv⟩
    · exact absurd rfl hk
    · exact hv.written
  · rcases hl with ⟨-, rfl⟩ | ⟨-, hv⟩
    · cases hk
    · cases he : lead.error <;> simp [hv.reported hk]
  · cases he : lead.error with
    | some e => exact herror d (by rw [he]; simpa [he] using hd)
    | none =>
      cases hp : l.problem with
      | none => simp [he, hp] at hd
      | some p => exact ⟨p, _, by simpa [he, hp, eq_comm] using hd, hlexical p hp⟩
  · rcases hl with ⟨hnil, -⟩ | ⟨-, hv⟩
    · simp [hnil]
    · have hw := hv.written
      have hk : l.kind = .eof := hk
      rw [hk] at hw
      cases hw
  · rcases hl with ⟨-, rfl⟩ | ⟨hne, hv⟩
    · exact absurd rfl hk
    · have hpos := hv.length
      simpa [hne] using Nat.ne_of_gt hpos

theorem next_reads (dialect : Dialect) (p : Place) :
    p.Reads (p.next dialect).1 (p.next dialect).2 := by
  obtain ⟨offset, mode, rest⟩ := p
  cases mode with
  | html =>
    simp only [next, List.splitAt_eq]
    exact reads_token (LeadingTrivia.none_precedes offset rest) (Lexeme.html_begins dialect rest)
  | code =>
    simp only [next, List.splitAt_eq]
    exact reads_token (LeadingTrivia.read_precedes offset rest) (Lexeme.code_begins _)

theorem next_html_kind (h : p.mode = .html) : (p.next dialect).1.kind ≠ .skipped := by
  obtain ⟨offset, mode, rest⟩ := p
  subst h
  exact Lexeme.html_kind_ne_skipped dialect rest

/-- Every token but the end of file takes a character. -/
theorem Reads.length_lt (h : p.Reads t after) (hk : t.kind ≠ .eof) :
    after.rest.length < p.rest.length := by
  obtain ⟨lead, hr, -⟩ := h.text
  have hpos := List.length_pos_iff.mpr (h.taken hk)
  rw [hr, List.length_append, List.length_append]
  omega

/-- Reading on: the tokens from a place on tile the text that is left. -/
theorem tokensFrom_eq (dialect : Dialect) (p : Place) (before : Array Token) {count : Nat}
    (hc : p.rest.length < count) :
    ∃ ts, (tokensFrom dialect before count p).toList = before.toList ++ (p.next dialect).1 :: ts ∧
      Token.Tiles p.offset p.rest ((p.next dialect).1 :: ts) [] ∧
      Token.Ended ((p.next dialect).1 :: ts) ∧
      ∀ t ∈ (p.next dialect).1 :: ts, t.Lawful := by
  induction count generalizing p before with
  | zero => omega
  | succ count ih =>
    have hr := next_reads dialect p
    obtain ⟨lead, htext, hwidth⟩ := hr.text
    by_cases hk : (p.next dialect).1.kind = .eof
    · obtain ⟨-, hnil⟩ := hr.last hk
      refine ⟨[], ?_, ?_, ⟨[], _, rfl, hk, by simp⟩, ?_⟩
      · simp [tokensFrom, hk]
      · rw [htext, hnil]
        exact .cons lead hr.begins hwidth .nil
      · intro t ht
        rw [List.mem_singleton.mp ht]
        exact hr.lawful
    · have hlt := hr.length_lt hk
      obtain ⟨ts, hts, htiles, ⟨bs, last, he, hlast, hbs⟩, hlaw⟩ :=
        ih (p.next dialect).2 (before.push (p.next dialect).1) (by omega)
      refine ⟨((p.next dialect).2.next dialect).1 :: ts, ?_, ?_,
        ⟨(p.next dialect).1 :: bs, last, ?_, hlast, ?_⟩, ?_⟩
      · rw [tokensFrom]
        simp only [hk, if_false]
        rw [hts, Array.toList_push, List.append_assoc]
        rfl
      · rw [htext]
        exact .cons lead hr.begins hwidth (hr.offset ▸ htiles)
      · rw [he]
        rfl
      · intro t ht
        rcases List.mem_cons.mp ht with rfl | ht
        · exact hk
        · exact hbs t ht
      · intro t ht
        rcases List.mem_cons.mp ht with rfl | ht
        · exact hr.lawful
        · exact hlaw t ht

end Place

variable (dialect : Dialect) (text : List Char)

theorem tokenize_eq : ∃ t ts, tokenize dialect text = t :: ts ∧ t.kind ≠ .skipped ∧
    Token.Tiles 0 text (t :: ts) [] ∧ Token.Ended (t :: ts) ∧ ∀ u ∈ t :: ts, u.Lawful := by
  obtain ⟨ts, h, htiles, hended, hlaw⟩ := Place.tokensFrom_eq dialect ⟨0, .html, text⟩ #[]
    (Nat.lt_succ_self text.length)
  exact ⟨_, ts, h, Place.next_html_kind rfl, htiles, hended, hlaw⟩

/-- The tokens with their trivia are the whole text. -/
theorem tokenize_tiles : Token.Tiles 0 text (tokenize dialect text) [] := by
  obtain ⟨t, ts, h, -, htiles, -⟩ := tokenize_eq dialect text
  rwa [h]

theorem tokenize_ended : Token.Ended (tokenize dialect text) := by
  obtain ⟨t, ts, h, -, -, hended, -⟩ := tokenize_eq dialect text
  rwa [h]

theorem tokenize_lawful : ∀ t ∈ tokenize dialect text, t.Lawful := by
  obtain ⟨t, ts, h, -, -, -, hlaw⟩ := tokenize_eq dialect text
  rwa [h]

/-- A text begins outside of code, so it does not begin with unrecognized input. -/
theorem firstKind_tokenize : Token.firstKind (tokenize dialect text) ≠ .skipped := by
  obtain ⟨t, ts, h, hk, -⟩ := tokenize_eq dialect text
  rwa [h]

end PhpSyntax
