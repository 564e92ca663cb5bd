import PhpSyntax.Proofs.Operators
import PhpSyntax.Proofs.Regions

/-!
Trivia between tokens. A token does not end with a blank where another blank follows, so a run of
blanks behind it is as long as the text has it, and what stands before each token in code is a chain
of pieces of trivia, up to the place where none begins.
-/
namespace PhpSyntax

open Text (Apart)

/-- The mode behind some tokens. -/
def Mode.behind (mode : Mode) (ts : List Token) : Mode :=
  ts.foldl (fun mode t => mode.after t.kind) mode

namespace Lexeme

variable {c : Char} {cs text label : List Char} {l : Lexeme} {kind : Kind}

/-! ## Numbers without blanks -/

theorem Run.noBlanks {isDigit : Char → Bool} (hstop : isDigit ' ' = false ∧ isDigit '\t' = false)
    (h : Run isDigit cs) : ∀ c ∈ cs, isBlank c = false := by
  induction h with
  | nil => nofun
  | digit hc _ ih => exact List.forall_mem_cons.mpr ⟨isBlank_eq_false hstop hc, ih⟩
  | separated hc _ ih =>
    exact List.forall_mem_cons.mpr
      ⟨rfl, List.forall_mem_cons.mpr ⟨isBlank_eq_false hstop hc, ih⟩⟩

theorem Exponent.noBlanks (h : Exponent cs) : ∀ c ∈ cs, isBlank c = false := by
  have hletter {e : Char} (he : e = 'e' ∨ e = 'E') : isBlank e = false := by
    rcases he with rfl | rfl <;> rfl
  cases h with
  | plain letter digits =>
    exact List.forall_mem_cons.mpr ⟨hletter letter, digits.run.noBlanks ⟨rfl, rfl⟩⟩
  | signed letter sign digits =>
    refine List.forall_mem_cons.mpr ⟨hletter letter,
      List.forall_mem_cons.mpr ⟨?_, digits.run.noBlanks ⟨rfl, rfl⟩⟩⟩
    rcases sign with rfl | rfl <;> rfl

theorem Numeral.noBlanks (h : Numeral (Run Char.isDigit) kind cs) :
    ∀ c ∈ cs, isBlank c = false := by
  have hrun {ds : List Char} (h : Run Char.isDigit ds) := h.noBlanks ⟨rfl, rfl⟩
  have hexponent {es : List Char} (h : es = [] ∨ Exponent es) :
      ∀ c ∈ es, isBlank c = false := by
    rcases h with rfl | h
    · nofun
    · exact h.noBlanks
  cases h with
  | @radix r isDigit _ letter digits =>
    have hletter : isBlank r = false :=
      isBlank_eq_false (p := fun c => (radixDigit? c).isSome) ⟨rfl, rfl⟩
        (by rw [letter, Option.isSome_some])
    have hstop : isDigit ' ' = false ∧ isDigit '\t' = false := by
      rcases radixDigit_eq letter with rfl | rfl | rfl <;> exact ⟨rfl, rfl⟩
    exact List.forall_mem_cons.mpr ⟨rfl,
      List.forall_mem_cons.mpr ⟨hletter, digits.run.noBlanks hstop⟩⟩
  | whole digits => exact hrun digits.run
  | scaled digits exponent =>
    exact List.forall_mem_append.mpr ⟨hrun digits.run, exponent.noBlanks⟩
  | float digits tail exponent =>
    exact List.forall_mem_append.mpr ⟨hrun digits.run, List.forall_mem_cons.mpr ⟨rfl,
      List.forall_mem_append.mpr ⟨hrun tail, hexponent exponent⟩⟩⟩
  | point digits exponent =>
    exact List.forall_mem_cons.mpr ⟨rfl,
      List.forall_mem_append.mpr ⟨hrun digits.run, hexponent exponent⟩⟩

/-! ## The end of a lexeme -/

/-- A lexeme does not part a run of blanks. -/
def KeepsBlanks (l : Lexeme) (cs : List Char) : Prop := Apart (cs.take l.length) (cs.drop l.length)

theorem keepsBlanks_of_last (h : ∀ c ∈ (cs.take l.length).getLast?, isBlank c = false) :
    l.KeepsBlanks cs := .of_last h

theorem keepsBlanks_of_all (h : ∀ c ∈ cs.take l.length, isBlank c = false) : l.KeepsBlanks cs :=
  .of_last fun c hc => h c (List.mem_of_getLast? hc)

theorem keepsBlanks_of_length (h : cs.length ≤ l.length) : l.KeepsBlanks cs := by
  rw [KeepsBlanks, List.drop_eq_nil_of_le h]
  exact .of_head nofun

/-- A string does not part blanks if its end holds none. -/
theorem keepsBlanks_string {P : List Char → List Char → Prop} {hit : List Char → Nat}
    {opening body : List Char} {answer : Nat × Bool} (hlength : l.length = answer.1)
    (hseeks : Text.Seeks P hit opening.length body answer)
    (hends : ∀ b a, P b a → ∃ ending, ending ≠ [] ∧ (∀ c ∈ ending, isBlank c = false) ∧
      ∃ blanks, a.take (hit a) = blanks ++ ending) : l.KeepsBlanks (opening ++ body) := by
  obtain ⟨before, after, -, first, -, htake⟩ | ⟨-, rfl⟩ := hseeks.taken
  · obtain ⟨ending, hne, hending, blanks, hblanks⟩ := hends before after first.holds
    refine keepsBlanks_of_last ?_
    rw [hlength, htake, hblanks, ← List.append_assoc, ← List.append_assoc,
      List.getLast?_append_of_ne_nil _ hne]
    exact fun c hc => hending c (List.mem_of_getLast? hc)
  · exact keepsBlanks_of_length (Nat.le_of_eq hlength.symm)

theorem keepsBlanks_heredoc (h : heredoc? cs = some l) : l.KeepsBlanks cs := by
  simp only [heredoc?, Option.bind_eq_bind, Option.bind_eq_some_iff] at h
  obtain ⟨r, hr, h⟩ := h
  obtain ⟨header, body, rfl, hheader, hrlength⟩ := exists_header hr
  have hlabel := hheader.isName
  rw [hrlength, List.drop_left] at h
  have hlength : l.length = (closingLabel r.label true header.length body).1 := by
    split at h <;> next hclose =>
      obtain rfl := Option.some.inj h
      rw [hclose]
  refine keepsBlanks_string hlength (seeks_closingLabel hlabel _ [] body (by simp [BeginsLine])) ?_
  rintro b _ ⟨-, blanks, more, rfl, hblanks, -⟩
  refine ⟨r.label, hlabel.ne_nil, hlabel.noBlanks, blanks, ?_⟩
  rw [(blankLength_append hblanks (hlabel.head_isBlank more)).1, List.take_length_add_append,
    List.take_left]

theorem keepsBlanks_cast (h : cast? cs = some l) : l.KeepsBlanks cs := by
  obtain ⟨_, more, rfl, ⟨before, type, after, rfl, -⟩, rfl⟩ := exists_cast h
  refine keepsBlanks_of_last ?_
  rw [List.take_left]
  have hends : '(' :: (before ++ (type ++ (after ++ [')']))) =
      ('(' :: (before ++ (type ++ after))) ++ [')'] := by simp
  rw [hends, List.getLast?_concat]
  simp [isBlank]

theorem keepsBlanks_dollarName (h : dollarName? cs = some l) : l.KeepsBlanks cs := by
  obtain ⟨ds, rfl, hpos, rfl⟩ := exists_dollarName h
  obtain ⟨name, more, rfl, hname, hlength, -⟩ := exists_name hpos
  refine keepsBlanks_of_all ?_
  rw [hlength, List.take_succ_cons, List.take_left]
  exact List.forall_mem_cons.mpr ⟨rfl, hname.noBlanks⟩

theorem keepsBlanks_quotedString (h : quotedString? cs = some l) : l.KeepsBlanks cs := by
  unfold quotedString? at h
  split at h
  · cases h
  · next q cs =>
    rw [Option.ite_none_right_eq_some] at h
    obtain ⟨hq, h⟩ := h
    have hlength : l.length = (closingQuote q 1 cs).1 := by
      split at h <;> next hclose =>
        obtain rfl := Option.some.inj h
        rw [hclose]
    have hquote : q ≠ '\\' ∧ isBlank q = false := by
      simp only [isQuote, Bool.or_eq_true, beq_iff_eq] at hq
      rcases hq with (rfl | rfl) | rfl <;> exact ⟨by decide, rfl⟩
    have hkeeps : l.KeepsBlanks ([q] ++ cs) := by
      refine keepsBlanks_string hlength (seeks_closingQuote hquote.1 1 [] cs rfl) ?_
      rintro b a ⟨hhead, -⟩
      obtain ⟨more, rfl⟩ := List.head?_eq_some_iff.mp hhead
      exact ⟨[q], List.cons_ne_nil q [], by simpa using hquote.2, [], rfl⟩
    exact hkeeps

theorem keepsBlanks_number (h : BeginsNumber cs) : (code cs).KeepsBlanks cs :=
  keepsBlanks_of_all (longest_code h).matched.noBlanks

theorem keepsBlanks_name (hc : isNameStart c = true) (cs : List Char) :
    (name (c :: cs)).KeepsBlanks (c :: cs) := by
  have hpos : 0 < nameLength (c :: cs) := by
    rw [nameLength, if_pos hc]
    exact Nat.succ_pos _
  obtain ⟨word, more, hsplit, hword, hlength, -⟩ := exists_name hpos
  refine keepsBlanks_of_all ?_
  rw [name, hlength, hsplit, List.take_left]
  exact hword.noBlanks

theorem keepsBlanks_unrecognized (cs : List Char) : (unrecognized cs).KeepsBlanks cs := by
  have htake : cs.take (cs.takeWhile isUnrecognized).length = cs.takeWhile isUnrecognized :=
    (List.prefix_iff_eq_take.mp (List.takeWhile_prefix _)).symm
  refine keepsBlanks_of_all fun c hc => ?_
  rw [unrecognized, htake] at hc
  exact isBlank_eq_false ⟨rfl, rfl⟩ (List.all_eq_true.mp List.all_takeWhile c hc)

theorem spellings_solid : spellings.all (fun p => p.1.all (!isBlank ·)) = true := by
  decide +kernel

theorem Spelling.noBlanks (h : Spelling kind text) : ∀ c ∈ text, isBlank c = false := by
  have hsolid := List.all_eq_true.mp spellings_solid _ (spelling_iff.mp h)
  simpa using hsolid

theorem keepsBlanks_operator (hc : isBlank c = false) (cs : List Char) :
    (operator (c :: cs)).KeepsBlanks (c :: cs) := by
  cases hl : firstSpelling? (c :: cs) with
  | none =>
    rw [operator, hl]
    exact keepsBlanks_of_all (by simpa using hc)
  | some l =>
    have hreads := reads_operator hl
    refine keepsBlanks_of_last fun d hd => ?_
    generalize (c :: cs).take (operator (c :: cs)).length = text at hreads hd
    generalize (operator (c :: cs)).kind = kind at hreads
    cases hreads with
    | plain longest => exact longest.matched.noBlanks d (List.mem_of_getLast? hd)
    | closeTag longest _ breaks =>
      cases breaks with
      | crlf | lf =>
        rw [List.getLast?_append_of_ne_nil _ (List.cons_ne_nil _ _)] at hd
        obtain rfl := Option.some.inj hd
        rfl
      | none =>
        rw [List.append_nil] at hd
        exact longest.matched.noBlanks d (List.mem_of_getLast? hd)

/-- A token in code that does not begin with a blank does not part a run of blanks. -/
theorem keepsBlanks_code (hc : ∀ c ∈ cs.head?, isBlank c = false) : (code cs).KeepsBlanks cs := by
  cases cs with
  | nil => exact keepsBlanks_of_length (Nat.zero_le _)
  | cons c cs =>
    have hc : isBlank c = false := hc c rfl
    simp only [code]
    split
    · next hl => exact keepsBlanks_heredoc hl
    split
    · next hl => exact keepsBlanks_cast hl
    split
    · next hl => exact keepsBlanks_dollarName hl
    split
    · next hl => exact keepsBlanks_quotedString hl
    split
    · next hdigit =>
      rw [← code_number hdigit]
      exact keepsBlanks_number ⟨c, cs, hdigit, .inl rfl⟩
    split
    · next hl =>
      obtain ⟨d, more, hsplit, hdigit, hcode⟩ := exists_pointNumber hl
      rw [← hcode]
      exact keepsBlanks_number ⟨d, more, hdigit, .inr hsplit⟩
    split
    · next hname => exact keepsBlanks_name hname cs
    split
    · exact keepsBlanks_unrecognized _
    · exact keepsBlanks_operator hc cs

theorem keepsBlanks_openTag {dialect : Dialect} (h : openTag? dialect cs = some l) :
    l.KeepsBlanks cs := by
  unfold openTag? at h
  split at h
  · next tail =>
    split at h
    · next hecho =>
      obtain ⟨more, rfl⟩ := List.head?_eq_some_iff.mp (beq_iff_eq.mp hecho)
      obtain rfl := Option.some.inj h
      exact keepsBlanks_of_last (by simp [isBlank])
    split at h
    · next hphp =>
      obtain ⟨p, h', q, more, rfl, -, -, hq, -⟩ := (spells_php tail).mp hphp
      obtain rfl := Option.some.inj h
      have hblank : isBlank q = false := by
        rcases (by simpa using hq : q = 'p' ∨ q = 'P') with rfl | rfl <;> rfl
      exact keepsBlanks_of_last (by simpa using hblank)
    split at h
    · obtain rfl := Option.some.inj h
      exact keepsBlanks_of_last (by simp [isBlank])
    · cases h
  · cases h

end Lexeme

/-! ## Chains between tokens -/

theorem TriviaPiece.Chain.ended {before text rest : List Char} {pieces : List TriviaPiece}
    (h : Chain before pieces text rest) : ¬BeginsTrivia rest := by
  induction h with
  | nil ended => exact ended
  | cons _ _ ih => exact ih

namespace Place

variable {dialect : Dialect} {text : List Char} {p : Place}

/-- A token before code does not part a run of blanks. -/
theorem next_apart (h : (p.next dialect).2.mode = .code) :
    Apart (p.next dialect).1.text (p.next dialect).2.rest := by
  have hmode := mode_next dialect p
  obtain ⟨offset, mode, rest⟩ := p
  rw [h] at hmode
  cases mode with
  | html =>
    have hmode : Mode.code = Mode.html.after (Lexeme.html dialect rest).kind := hmode
    have hkeeps : (Lexeme.html dialect rest).KeepsBlanks rest := by
      revert hmode
      unfold Lexeme.html
      split
      · intro hmode
        cases hmode
      · next htag =>
        intro _
        exact Lexeme.keepsBlanks_openTag htag
      · intro hmode
        cases hmode
    simpa [next, Lexeme.KeepsBlanks] using hkeeps
  | code =>
    have hapart : Apart [] rest := .of_last (by simp)
    have hchain := LeadingTrivia.read_chain offset hapart
    have hkeeps : (Lexeme.code (LeadingTrivia.read offset rest).rest).KeepsBlanks
        (LeadingTrivia.read offset rest).rest := by
      refine Lexeme.keepsBlanks_code fun c hc => ?_
      rw [Bool.eq_false_iff]
      intro hblank
      refine hchain.ended (.inl ⟨c, hc, ?_⟩)
      rcases Lexeme.isBlank_cases hblank with rfl | rfl <;> simp
    simpa [next, Lexeme.KeepsBlanks] using hkeeps

/-- A place in a text. If it is in code, the token before it does not part a run of blanks. -/
def IsGap (text : List Char) (p : Place) : Prop :=
  ∃ before, text = before ++ p.rest ∧ p.offset = Text.width before ∧
    (p.mode = .code → Apart before p.rest)

theorem IsGap.next (h : p.IsGap text) (hk : (p.next dialect).1.kind ≠ .eof) :
    (p.next dialect).2.IsGap text := by
  obtain ⟨before, htext, hoffset, -⟩ := h
  have hreads := next_reads dialect p
  obtain ⟨lead, hrest, hwide⟩ := hreads.text
  refine ⟨before ++ lead ++ (p.next dialect).1.text, ?_, ?_, fun hmode => ?_⟩
  · rw [htext, hrest]
    simp
  · rw [hreads.offset, Token.stop_range, hreads.begins, hoffset, ← hwide, Text.width_append,
      Text.width_append]
  · exact (next_apart hmode).append_left (hreads.taken hk) (before ++ lead)

/-- What stands before a token in code is a chain of trivia. -/
theorem IsGap.chain (h : p.IsGap text) (hmode : p.mode = .code) : ∃ before rest after,
    text = before ++ rest ∧ (p.next dialect).1.offset = Text.width before ∧
      TriviaPiece.Chain before (p.next dialect).1.leading rest
        ((p.next dialect).1.text ++ after) := by
  obtain ⟨before, htext, hoffset, hapart⟩ := h
  refine ⟨before, p.rest, (p.next dialect).2.rest, htext,
    (next_reads dialect p).begins.trans hoffset, ?_⟩
  obtain ⟨offset, mode, rest⟩ := p
  obtain rfl : mode = .code := hmode
  have hchain := LeadingTrivia.read_chain offset (hapart rfl)
  simpa [Place.next] using hchain

/-- A token is read at a place in the text, in the mode that the tokens before it lead to. -/
theorem IsGap.exists_place (h : p.IsGap text) {front back : List Token} {t : Token}
    (hsplit : p.tokens dialect = front ++ t :: back) : ∃ q : Place, q.IsGap text ∧
      q.mode = p.mode.behind front ∧ t = (q.next dialect).1 := by
  -- the place moves on with the tokens before, and each of them leaves a gap behind it
  induction front generalizing p with
  | nil =>
    obtain ⟨ts, hfirst⟩ := exists_tokens_cons dialect p
    rw [hfirst] at hsplit
    obtain ⟨rfl, -⟩ := List.cons.inj hsplit
    exact ⟨p, h, rfl, rfl⟩
  | cons u front ih =>
    by_cases hk : (p.next dialect).1.kind = .eof
    · rw [tokens_eof hk] at hsplit
      simp at hsplit
    · rw [tokens_next hk] at hsplit
      obtain ⟨rfl, htail⟩ := List.cons.inj hsplit
      obtain ⟨q, hgap, hmode, ht⟩ := ih (h.next hk) htail
      refine ⟨q, hgap, ?_, ht⟩
      rw [hmode, mode_next]
      rfl

/-- The text around a token: what is outside of it and its trivia, the trivia, and what is behind. -/
theorem IsGap.exists_around (h : p.IsGap text) (dialect : Dialect) : ∃ outside lead,
    p.offset = Text.width outside ∧
    p.rest = lead ++ ((p.next dialect).1.text ++ (p.next dialect).2.rest) ∧
    text = outside ++ lead ++ ((p.next dialect).1.text ++ (p.next dialect).2.rest) ∧
    Text.width (outside ++ lead) = (p.next dialect).1.range.start := by
  obtain ⟨outside, htext, hoffset, -⟩ := h
  have hreads := next_reads dialect p
  obtain ⟨lead, hrest, hwide⟩ := hreads.text
  refine ⟨outside, lead, hoffset, hrest, by rw [htext, hrest, List.append_assoc], ?_⟩
  rw [Text.width_append, ← hoffset, hwide, ← hreads.begins]
  rfl

end Place

/-- A token of a text is read at a place in it, in the mode that the tokens before it lead to. -/
theorem exists_gap {dialect : Dialect} {text : List Char} {front back : List Token} {t : Token}
    (hsplit : tokenize dialect text = front ++ t :: back) : ∃ p : Place, p.IsGap text ∧
      p.mode = Mode.html.behind front ∧ t = (p.next dialect).1 := by
  have hstart : Place.IsGap text ⟨0, .html, text⟩ := ⟨[], rfl, rfl, nofun⟩
  exact hstart.exists_place hsplit

/-- Before a token that is read in code stands a chain of pieces of trivia: each of them is spelled
as its kind asks for, as long as it can be, and where the last one ends none begins. -/
theorem tokenize_leading {dialect : Dialect} {text : List Char} {front back : List Token}
    {t : Token} (hsplit : tokenize dialect text = front ++ t :: back)
    (hmode : Mode.html.behind front = .code) : ∃ before rest after, text = before ++ rest ∧
      t.offset = Text.width before ∧
      TriviaPiece.Chain before t.leading rest (t.text ++ after) := by
  obtain ⟨p, hgap, hp, rfl⟩ := exists_gap hsplit
  exact hgap.chain (hp.trans hmode)

/-- A blank, a comment up to the line break, and the line break stand before a number. -/
theorem tokenize_leading_comment : ∃ before rest after,
    ['<', '?', '=', ' ', '#', 'a', '\n', '1'] = before ++ rest ∧ 3 = Text.width before ∧
      TriviaPiece.Chain before [⟨.whitespace, 1⟩, ⟨.singleLineComment, 2⟩, ⟨.newline, 1⟩] rest
        (['1'] ++ after) := by
  have hsplit : tokenize {} ['<', '?', '=', ' ', '#', 'a', '\n', '1'] =
      [⟨0, [], .openTagWithEcho, ['<', '?', '='], none⟩] ++
        ⟨3, [⟨.whitespace, 1⟩, ⟨.singleLineComment, 2⟩, ⟨.newline, 1⟩], .intNumber, ['1'], none⟩ ::
          [⟨8, [], .eof, [], none⟩] := by
    decide +kernel
  exact tokenize_leading hsplit rfl

end PhpSyntax
