import PhpSyntax.Proofs.Gaps

/-!
What is wrong with single tokens. Control characters that code has no use for are one skipped token;
a string or a comment without an end takes the rest of the text. That is all that a lexer reports:
every other character begins a token, so none is left over for the operators to refuse.
-/
namespace PhpSyntax

open Text (First Nowhere)

/-! ## Comments without an end -/

namespace TriviaPiece

/-- The last of some pieces is a block comment without an end, which is reported. The pieces take a
text that stands at an offset. -/
def EndsOpen (offset : Nat) (pieces : List TriviaPiece) (cs : List Char) (d : Diagnostic) : Prop :=
  ∃ before kind text front, pieces = before ++ [⟨kind, Text.width text⟩] ∧ cs = front ++ text ∧
    Text.width front = totalWidth before ∧ kind.IsOpen text ∧
    d = .of .unterminatedComment (.ofLength (offset + Text.width front) (Text.width text))

variable {offset : Nat} {kind : TriviaKind} {pieces : List TriviaPiece} {text after : List Char}
  {d : Diagnostic}

theorem not_endsOpen_nil : ¬EndsOpen offset [] text d := by
  rintro ⟨before, kind, text, front, hpieces, -⟩
  simp at hpieces

/-- A first piece with an end only moves what comes behind it. -/
theorem endsOpen_cons (hend : after = [] → ¬kind.IsOpen text) :
    EndsOpen offset (⟨kind, Text.width text⟩ :: pieces) (text ++ after) d ↔
      EndsOpen (offset + Text.width text) pieces after d := by
  constructor
  · rintro ⟨before, kind', text', front, hpieces, hsplit, hfront, hopen, rfl⟩
    cases before with
    | nil =>
      obtain ⟨hpiece, -⟩ := List.cons.inj hpieces
      obtain ⟨rfl, hwidth⟩ := TriviaPiece.mk.inj hpiece
      obtain rfl : front = [] := Text.width_eq_zero_iff.mp hfront
      -- a comment at the place of the piece and as wide is the piece
      obtain ⟨more, rfl, hafter⟩ := Text.exists_append_of_width
        (hsplit.trans (List.append_nil text').symm) (Nat.le_of_eq hwidth)
      rw [Text.width_append] at hwidth
      obtain rfl : more = [] := Text.width_eq_zero_iff.mp (by omega)
      rw [List.append_nil] at hopen
      exact absurd hopen (hend hafter)
    | cons piece before =>
      obtain ⟨rfl, rfl⟩ := List.cons.inj hpieces
      have hwide : Text.width front = Text.width text + totalWidth before :=
        hfront.trans (totalWidth_cons _ _)
      obtain ⟨more, rfl, rfl⟩ := Text.exists_append_of_width hsplit (by omega)
      rw [Text.width_append] at hwide
      refine ⟨before, kind', text', more, rfl, rfl, by omega, hopen, ?_⟩
      rw [Text.width_append, Nat.add_assoc]
  · rintro ⟨before, kind', text', front, rfl, rfl, hfront, hopen, rfl⟩
    refine ⟨⟨kind, Text.width text⟩ :: before, kind', text', text ++ front, rfl, ?_, ?_, hopen, ?_⟩
    · rw [List.append_assoc]
    · rw [totalWidth_cons, Text.width_append, hfront]
    · rw [Text.width_append, Nat.add_assoc]

/-- A comment without an end that is the only piece. -/
theorem endsOpen_single (hopen : kind.IsOpen text) :
    EndsOpen offset [⟨kind, Text.width text⟩] text d ↔
      d = .of .unterminatedComment (.ofLength offset (Text.width text)) := by
  constructor
  · rintro ⟨before, kind', text', front, hpieces, -, hfront, -, rfl⟩
    obtain ⟨rfl, hpiece⟩ := List.append_inj' ((List.nil_append _).trans hpieces) rfl
    obtain ⟨rfl, hwidth⟩ := TriviaPiece.mk.inj (List.cons.inj hpiece).1
    rw [hfront, hwidth]
    rfl
  · rintro rfl
    exact ⟨[], kind, text, [], rfl, rfl, rfl, hopen, rfl⟩

end TriviaPiece

namespace LeadingTrivia

open TriviaPiece

/-- Something is wrong with trivia if and only if its last piece does not end. -/
theorem readFrom_error_iff {lead : LeadingTrivia} (hlead : lead.error = none) (skip : Nat)
    (cs : List Char) : ∃ pieces, (readFrom lead skip cs).pieces = pieces.reverse ++ lead.pieces ∧
      ∀ d, (readFrom lead skip cs).error = some d ↔
        EndsOpen lead.offset pieces (cs.drop skip) d := by
  induction cs generalizing lead skip with
  | nil => exact ⟨[], by rw [readFrom]; rfl, fun d => by simp [readFrom, hlead, not_endsOpen_nil]⟩
  | cons c cs ih =>
    cases skip with
    | succ skip =>
      rw [readFrom]
      exact ih hlead skip
    | zero =>
      cases hscan : TriviaScan.first? (c :: cs) with
      | none =>
        rw [readFrom_none hscan]
        exact ⟨[], rfl, fun d => by simp [hlead, not_endsOpen_nil]⟩
      | some scan =>
        have hapart : Text.Apart [] (c :: cs) := .of_last (by simp)
        obtain ⟨text, after, hsplit, htakes⟩ := TriviaScan.exists_takes hscan hapart
        obtain ⟨e, tail, rfl⟩ := List.exists_cons_of_ne_nil htakes.spells.ne_nil
        obtain ⟨rfl, rfl⟩ : c = e ∧ cs = tail ++ after := List.cons.inj hsplit
        have hlength : tail.length + 1 = scan.length := htakes.length
        have hdrop : (tail ++ after).drop (scan.length - 1) = after := by
          rw [← hlength, Nat.add_sub_cancel, List.drop_left]
        have htake : (c :: (tail ++ after)).take scan.length = c :: tail := by
          rw [← hlength, List.take_succ_cons, List.take_left]
        rw [readFrom_some hscan, htake, List.drop_zero, ← List.cons_append]
        cases hends : scan.terminated with
        | true =>
          have hadd : (lead.add scan (c :: tail)).error = none := by simp [add, hlead, hends]
          obtain ⟨pieces, hpieces, herror⟩ := ih hadd (scan.length - 1)
          refine ⟨⟨scan.kind, Text.width (c :: tail)⟩ :: pieces, ?_, fun d => ?_⟩
          · rw [hpieces, add]
            simp
          · rw [herror, hdrop]
            refine (endsOpen_cons fun _ hopen => ?_).symm
            rw [htakes.terminated.mpr hopen] at hends
            cases hends
        | false =>
          -- nothing is left behind a comment without an end
          have hwhole := TriviaScan.first_length_of_unterminated hscan hends
          obtain rfl : after = [] := by
            rw [← hlength, List.length_cons, List.length_append] at hwhole
            exact List.eq_nil_of_length_eq_zero (by omega)
          rw [readFrom_skip (by simp; omega), List.append_nil]
          refine ⟨[⟨scan.kind, Text.width (c :: tail)⟩], rfl, fun d => ?_⟩
          rw [endsOpen_single (htakes.terminated.mp hends)]
          simp [add, hlead, hends, eq_comm]

theorem read_error_iff (offset : Nat) (cs : List Char) (d : Diagnostic) :
    (read offset cs).error = some d ↔ EndsOpen offset (read offset cs).pieces cs d := by
  have hnone : (⟨[], none, offset, []⟩ : LeadingTrivia).error = none := rfl
  obtain ⟨pieces, hpieces, herror⟩ := readFrom_error_iff hnone 0 cs
  have hread : (read offset cs).pieces = pieces := by
    rw [read, hpieces, List.append_nil, List.reverse_reverse]
  rw [hread]
  exact herror d

end LeadingTrivia

/-! ## What begins a token -/

namespace Lexeme

variable {c : Char} {cs : List Char}

/-- A control character that is no white space. -/
def IsStray (c : Char) : Prop := (c.toNat < 0x20 ∨ c.toNat = 0x7f) ∧ c ∉ ['\t', '\n', '\r']

theorem isUnrecognized_iff (c : Char) : isUnrecognized c = true ↔ IsStray c := by
  simp [isUnrecognized, IsStray, and_assoc]

/-- What holds of the characters of ASCII, one after the other. -/
theorem forall_ascii {p : Char → Bool} (h : (List.range 128).all (fun n => p (.ofNat n)) = true)
    (hc : c.toNat < 128) : p c = true := by
  have hp := List.all_eq_true.mp h c.toNat (List.mem_range.mpr hc)
  rwa [Char.ofNat_toNat] at hp

/-- Every character of ASCII that begins no trivia begins a string, a number, a name or an operator,
or it is unrecognized. -/
theorem ascii_claimed : (List.range 128).all (fun n =>
    isQuote (.ofNat n) || (Char.ofNat n).isDigit || isNameStart (.ofNat n) ||
      isUnrecognized (.ofNat n) || TriviaScan.begins (.ofNat n) ||
      (continuations (.ofNat n)).any (·.1.isEmpty)) = true := by
  decide +kernel

theorem ascii_unrecognized : (List.range 128).all (fun n =>
    !isUnrecognized (.ofNat n) || !isNameContinue (.ofNat n)) = true := by
  decide +kernel

theorem isSome_firstSpelling_of_empty (h : (continuations c).any (·.1.isEmpty) = true)
    (cs : List Char) : (firstSpelling? (c :: cs)).isSome = true := by
  obtain ⟨p, hp, hempty⟩ := List.any_eq_true.mp h
  rw [firstSpelling?, Option.isSome_map, List.find?_isSome]
  refine ⟨p, hp, ?_⟩
  rw [List.isEmpty_iff.mp hempty]
  rfl

/-- What begins none of the other tokens and no trivia has a spelling among the operators. -/
theorem isSome_firstSpelling_of_others (htrivia : ¬BeginsTrivia (c :: cs))
    (hquote : isQuote c = false) (hdigit : c.isDigit = false) (hname : isNameStart c = false)
    (hother : isUnrecognized c = false) : (firstSpelling? (c :: cs)).isSome = true := by
  have hsmall : c.toNat < 128 := by
    by_contra hbig
    simp [isNameStart] at hname
    omega
  have hbegins : TriviaScan.begins c = false := by
    rw [beginsTrivia_iff, Option.not_isSome_iff_eq_none, TriviaScan.first_eq_none] at htrivia
    exact htrivia.1
  have hclaimed := forall_ascii (p := fun c => isQuote c || c.isDigit || isNameStart c ||
    isUnrecognized c || TriviaScan.begins c || (continuations c).any (·.1.isEmpty))
    ascii_claimed hsmall
  simp only [hquote, hdigit, hname, hother, hbegins, Bool.or_self, Bool.false_or] at hclaimed
  exact isSome_firstSpelling_of_empty hclaimed cs

theorem problem_number (cs : List Char) : (number cs).problem = none := by
  unfold number
  split <;> rfl

/-- What begins neither trivia nor a string, and with no character that is unrecognized, is read
without a problem. -/
theorem code_faultless (htrivia : ¬BeginsTrivia (c :: cs)) (hquote : isQuote c = false)
    (hother : isUnrecognized c = false)
    (hheader : ¬∃ label header body, IsHeader label header ∧ c :: cs = header ++ body) :
    (code (c :: cs)).problem = none := by
  by_cases hdigit : c.isDigit = true
  · rw [code_number hdigit]
    exact problem_number _
  by_cases hname : isNameStart c = true
  · rw [code_name hname]
    rfl
  rw [Bool.not_eq_true] at hdigit hname
  have hquoted : quotedString? (c :: cs) = none := by
    rw [quotedString?, hquote]
    rfl
  simp only [code, heredoc_none hheader, hquoted, hdigit, hname, hother, Bool.false_eq_true,
    if_false]
  split
  · next l hl =>
    obtain ⟨_, _, -, -, rfl⟩ := exists_cast hl
    rfl
  split
  · next l hl =>
    obtain ⟨_, -, -, rfl⟩ := exists_dollarName hl
    rfl
  split
  · next l hl =>
    unfold pointNumber? at hl
    split at hl
    · obtain ⟨-, hl⟩ := Option.ite_none_right_eq_some.mp hl
      obtain rfl := Option.some.inj hl
      rfl
    · cases hl
  have hspelled := isSome_firstSpelling_of_others htrivia hquote hdigit hname hother
  show (operator (c :: cs)).problem = none
  unfold operator
  split
  · rfl
  · next hl =>
    obtain ⟨p, -, -, rfl⟩ := exists_spelling hl
    rfl
  · next hnone =>
    rw [hnone] at hspelled
    cases hspelled

/-- A run of unrecognized characters is told by the first of them. -/
theorem code_unrecognized (hc : isUnrecognized c = true) (cs : List Char) :
    code (c :: cs) = unrecognized (c :: cs) := by
  have hspecial : c ∉ ['<', '(', '$', '\x27', '\x22', '\x60', '.'] := by
    intro hmem
    simp only [List.mem_cons, List.not_mem_nil, or_false] at hmem
    rcases hmem with rfl | rfl | rfl | rfl | rfl | rfl | rfl <;> cases hc
  have hsmall : c.toNat < 128 := by
    obtain ⟨hcontrol, -⟩ := (isUnrecognized_iff c).mp hc
    omega
  have hname : isNameContinue c = false := by
    simpa [hc] using forall_ascii (p := fun c => !isUnrecognized c || !isNameContinue c)
      ascii_unrecognized hsmall
  obtain ⟨h₁, h₂, h₃, h₄, h₅⟩ := others_none hspecial cs
  simp only [isNameContinue, Bool.or_eq_false_iff] at hname
  simp [code, h₁, h₂, h₃, h₄, h₅, hname, hc]

/-- No other rule takes what begins a text, so it is left to the operators. -/
def LeftToOperators (cs : List Char) : Prop :=
  heredoc? cs = none ∧ cast? cs = none ∧ dollarName? cs = none ∧ quotedString? cs = none ∧
    pointNumber? cs = none ∧
    ∃ c more, cs = c :: more ∧ c.isDigit = false ∧ isNameStart c = false ∧ isUnrecognized c = false

theorem LeftToOperators.isSome (h : LeftToOperators cs) (htrivia : ¬BeginsTrivia cs) :
    (firstSpelling? cs).isSome = true := by
  obtain ⟨-, -, -, hquoted, -, c, more, rfl, hdigit, hname, hother⟩ := h
  have hquote : isQuote c = false := by
    cases hq : isQuote c with
    | false => rfl
    | true =>
      rw [quotedString?, if_pos hq] at hquoted
      split at hquoted <;> cases hquoted
  exact isSome_firstSpelling_of_others htrivia hquote hdigit hname hother

end Lexeme

/-! ## Tokens -/

open Lexeme

/-- What is wrong with a token between the text before it, trivia included, and the text behind. -/
inductive Token.Faulty (before : List Char) (t : Token) (after : List Char) :
    Diagnostic → Prop where
  | unrecognized (skipped : t.kind = .skipped) :
    Faulty before t after ⟨.error, "unrecognized input", t.range⟩
  | openString {quote inner} (string : t.kind = .string) (opens : quote ∈ ['\x27', '\x22', '\x60'])
    (text : t.text = quote :: inner) (endless : Nowhere (Closes quote) inner) (last : after = []) :
    Faulty before t after ⟨.error, "unterminated string literal", t.range⟩
  | openHeredoc {label header body} (string : t.kind = .string) (opens : IsHeader label header)
    (text : t.text = header ++ body) (endless : Nowhere (ClosesLabel label) body)
    (last : after = []) : Faulty before t after ⟨.error, "unterminated heredoc", t.range⟩
  | openComment {front comment pieces kind} (eof : t.kind = .eof) (text : before = front ++ comment)
    (leading : t.leading = pieces ++ [⟨kind, Text.width comment⟩])
    (endless : TriviaKind.IsOpen kind comment) : Faulty before t after
      ⟨.warning, "unterminated comment", .ofLength (Text.width front) (Text.width comment)⟩

namespace Place

variable {dialect : Dialect} {p : Place} {before : List Char} {d : Diagnostic}

theorem read_rest (dialect : Dialect) (hmode : p.mode = .code) :
    (LeadingTrivia.read p.offset p.rest).rest =
      (p.next dialect).1.text ++ (p.next dialect).2.rest := by
  simp [next, hmode]

theorem read_ended (p : Place) : ¬BeginsTrivia (LeadingTrivia.read p.offset p.rest).rest := by
  have hapart : Text.Apart [] p.rest := .of_last (by simp)
  exact (LeadingTrivia.read_chain p.offset hapart).ended

/-- What is read in code is skipped, or it is a string, or nothing is wrong with it. The first
character tells whether it is skipped. -/
theorem next_cases (dialect : Dialect) (hmode : p.mode = .code) {c : Char} {cs : List Char}
    (hrest : (LeadingTrivia.read p.offset p.rest).rest = c :: cs) :
    (isUnrecognized c = true ∧ (p.next dialect).1.kind = .skipped) ∨
    ((isQuote c = true ∨ ∃ label header body, IsHeader label header ∧ c :: cs = header ++ body) ∧
      (p.next dialect).1.kind = .string) ∨
    (p.next dialect).1.error = none ∧ (p.next dialect).1.kind ≠ .skipped := by
  obtain ⟨hkind, -⟩ := next_lexeme dialect hmode
  have herror := next_code_error dialect hmode (by rw [hrest]; exact List.cons_ne_nil c cs)
  have htrivia := read_ended p
  rw [hrest] at hkind herror htrivia
  by_cases hother : isUnrecognized c = true
  · rw [code_unrecognized hother] at hkind
    exact .inl ⟨hother, hkind⟩
  by_cases hquote : isQuote c = true
  · rw [code_quote hquote] at hkind
    exact .inr (.inl ⟨.inl hquote, hkind⟩)
  by_cases hheader : ∃ label header body, IsHeader label header ∧ c :: cs = header ++ body
  · have hstring := hheader
    obtain ⟨label, header, body, hopens, hsplit⟩ := hstring
    rw [hsplit, code_header hopens] at hkind
    exact .inr (.inl ⟨.inr hheader, hkind⟩)
  rw [Bool.not_eq_true] at hother hquote
  have hproblem := code_faultless htrivia hquote hother hheader
  refine .inr (.inr ⟨by rw [herror, hproblem]; rfl, fun hskipped => ?_⟩)
  have hreported := (valid_code (List.cons_ne_nil c cs)).reported (hkind.symm.trans hskipped)
  rw [hproblem] at hreported
  cases hreported

/-- A skipped token is a run of characters that are unrecognized, as long as it can be. -/
theorem next_skipped (dialect : Dialect) (hmode : p.mode = .code)
    (h : (p.next dialect).1.kind = .skipped) : (p.next dialect).1.text ≠ [] ∧
      (∀ c ∈ (p.next dialect).1.text, isUnrecognized c = true) ∧
      (∀ c ∈ (p.next dialect).2.rest.head?, isUnrecognized c = false) ∧
      (p.next dialect).1.error = some ⟨.error, "unrecognized input", (p.next dialect).1.range⟩ := by
  have hne : (p.next dialect).1.text ≠ [] :=
    (next_reads dialect p).taken (by rw [h]; exact Kind.noConfusion)
  have hsplit := read_rest dialect hmode
  cases hrest : (LeadingTrivia.read p.offset p.rest).rest with
  | nil =>
    rw [hrest] at hsplit
    exact absurd (List.append_eq_nil_iff.mp hsplit.symm).1 hne
  | cons c cs =>
    have hc : isUnrecognized c = true := by
      rcases next_cases dialect hmode hrest with ⟨hc, -⟩ | ⟨-, hstring⟩ | ⟨-, hother⟩
      · exact hc
      · rw [h] at hstring
        cases hstring
      · exact absurd h hother
    have htext := (next_lexeme dialect hmode).2
    have herror := next_code_error dialect hmode (by rw [hrest]; exact List.cons_ne_nil c cs)
    rw [hrest, code_unrecognized hc] at htext herror
    have hrun : (p.next dialect).1.text = (c :: cs).takeWhile isUnrecognized :=
      htext.trans (List.prefix_iff_eq_take.mp (List.takeWhile_prefix _)).symm
    have hafter : (p.next dialect).2.rest = (c :: cs).dropWhile isUnrecognized := by
      rw [hrest, hrun] at hsplit
      exact List.append_cancel_left (hsplit.symm.trans List.takeWhile_append_dropWhile.symm)
    refine ⟨hne, ?_, fun d hd => ?_, herror⟩
    · rw [hrun]
      exact List.all_eq_true.mp List.all_takeWhile
    · rw [hafter] at hd
      have hstop := List.head?_dropWhile_not isUnrecognized (c :: cs)
      rwa [hd] at hstop

/-- What is wrong with a token that takes something is wrong with what it takes. -/
theorem faulty_of_error (hmode : p.mode = .code) (hne : (p.next dialect).1.text ≠ [])
    (h : (p.next dialect).1.error = some d) :
    Token.Faulty before (p.next dialect).1 (p.next dialect).2.rest d := by
  have hsplit := read_rest dialect hmode
  have hrest : (LeadingTrivia.read p.offset p.rest).rest ≠ [] := fun hnil =>
    hne (List.append_eq_nil_iff.mp (hsplit.symm.trans hnil)).1
  obtain ⟨c, cs, hrest⟩ := List.exists_cons_of_ne_nil hrest
  -- a string that takes all that is left leaves nothing
  have hlast {opening body : List Char} (hwhole : c :: cs = opening ++ body)
      (htext : (p.next dialect).1.text = opening ++ body) : (p.next dialect).2.rest = [] := by
    rw [hrest, htext, hwhole] at hsplit
    exact List.append_cancel_left (hsplit.symm.trans (List.append_nil _).symm)
  rcases next_cases dialect hmode hrest with ⟨-, hskipped⟩ | ⟨hopens, hstring⟩ | ⟨hnone, -⟩
  · obtain ⟨-, -, -, herror⟩ := next_skipped dialect hmode hskipped
    obtain rfl := Option.some.inj (herror.symm.trans h)
    exact .unrecognized hskipped
  · rcases hopens with hquote | ⟨label, header, body, hheader, hwhole⟩
    · have hq : c ∈ ['\x27', '\x22', '\x60'] := by
        simpa [isQuote, or_assoc] using hquote
      obtain ⟨-, inner, hinner, ⟨_, _, -, -, -, hnone⟩ | ⟨nowhere, htext, herror⟩⟩ :=
        next_quoted dialect hmode hq (.inr (by rw [hrest]; rfl))
      · rw [hnone] at h
        cases h
      · obtain rfl := Option.some.inj (herror.symm.trans h)
        have hwhole : c :: cs = [c] ++ inner := hrest.symm.trans hinner
        exact .openString hstring hq htext nowhere (hlast hwhole htext)
    · have hlabel := hheader.isName
      obtain ⟨-, ⟨_, _, -, -, -, hnone⟩ | ⟨nowhere, htext, herror⟩⟩ :=
        next_string dialect hmode (hrest.trans hwhole) hheader.ne_nil
          (code_header hheader body) (seeks_closingLabel hlabel _ [] body (by simp [BeginsLine]))
      · rw [hnone] at h
        cases h
      · obtain rfl := Option.some.inj (herror.symm.trans h)
        exact .openHeredoc hstring hheader htext nowhere (hlast hwhole htext)
  · rw [hnone] at h
    cases h

/-- A string with nothing behind its opening that ends it is reported. -/
theorem next_endless (hmode : p.mode = .code) {P : List Char → List Char → Prop}
    {hit : List Char → Nat} {opening body : List Char} {answer : Nat × Bool} {problem : Problem}
    (htext : (p.next dialect).1.text = opening ++ body) (hlast : (p.next dialect).2.rest = [])
    (hne : opening ≠ [])
    (hcode : code (opening ++ body) = ⟨.string, answer.1, if answer.2 then none else some problem⟩)
    (hseeks : Text.Seeks P hit opening.length body answer) (nowhere : Nowhere P body) :
    (p.next dialect).1.error = some (.of problem (p.next dialect).1.range) := by
  have hrest := read_rest dialect hmode
  rw [htext, hlast, List.append_nil] at hrest
  obtain ⟨-, ⟨before, after, rfl, first, -⟩ | ⟨-, -, herror⟩⟩ :=
    next_string dialect hmode hrest hne hcode hseeks
  · exact absurd first.holds (nowhere before after rfl)
  · exact herror

/-- What is wrong with the end of file is wrong with the trivia before it. -/
theorem next_eof_error (hmode : p.mode = .code) (hk : (p.next dialect).1.kind = .eof) :
    (p.next dialect).1.error = (LeadingTrivia.read p.offset p.rest).error := by
  have hrest := read_rest dialect hmode
  obtain ⟨htext, hlast⟩ := (next_reads dialect p).last hk
  rw [htext, hlast, List.append_nil] at hrest
  simp [next, hmode, hrest, code]

/-- What is reported of a token in code is what is wrong with it. The text between `outside` and the
token is the trivia before it. -/
theorem next_error_iff (hmode : p.mode = .code) {outside lead : List Char}
    (hoffset : p.offset = Text.width outside)
    (hlead : p.rest = lead ++ ((p.next dialect).1.text ++ (p.next dialect).2.rest)) :
    (p.next dialect).1.error = some d ↔
      Token.Faulty (outside ++ lead) (p.next dialect).1 (p.next dialect).2.rest d := by
  have hleading : (p.next dialect).1.leading = (LeadingTrivia.read p.offset p.rest).pieces := by
    simp [next, hmode]
  constructor
  · intro h
    by_cases hk : (p.next dialect).1.kind = .eof
    · obtain ⟨htext, hlast⟩ := (next_reads dialect p).last hk
      rw [next_eof_error hmode hk, LeadingTrivia.read_error_iff] at h
      obtain ⟨pieces, kind, comment, front, hpieces, hsplit, -, hopen, rfl⟩ := h
      rw [htext, hlast, List.append_nil, List.append_nil] at hlead
      rw [hoffset, ← Text.width_append]
      refine .openComment hk ?_ (hleading.trans hpieces) hopen
      rw [← hlead, hsplit, List.append_assoc]
    · exact faulty_of_error hmode ((next_reads dialect p).taken hk) h
  · intro h
    cases h with
    | unrecognized skipped => exact (next_skipped dialect hmode skipped).2.2.2
    | @openString quote inner _ opens text endless last =>
      have hquote : isQuote quote = true := by
        simpa [isQuote, or_assoc] using opens
      have hne : quote ≠ '\\' := by
        rintro rfl
        cases hquote
      have htext : (p.next dialect).1.text = [quote] ++ inner := text
      exact next_endless hmode htext last (List.cons_ne_nil quote [])
        (code_quote hquote inner) (seeks_closingQuote hne 1 [] inner rfl) endless
    | @openHeredoc label header body _ opens text endless last =>
      exact next_endless hmode text last opens.ne_nil (code_header opens body)
        (seeks_closingLabel opens.isName _ [] body (by simp [BeginsLine])) endless
    | @openComment front comment pieces kind eof text leading endless =>
      obtain ⟨lead', hlead', hwide⟩ := (next_reads dialect p).text
      obtain rfl : lead = lead' := List.append_cancel_right (hlead.symm.trans hlead')
      obtain ⟨htext, hlast⟩ := (next_reads dialect p).last eof
      rw [htext, hlast, List.append_nil, List.append_nil] at hlead
      rw [Token.leadingWidth, leading, TriviaPiece.totalWidth_append,
        TriviaPiece.totalWidth_cons] at hwide
      have hwidth := congrArg Text.width text
      rw [Text.width_append, Text.width_append, hwide] at hwidth
      have hlast : TriviaPiece.totalWidth [] = 0 := rfl
      dsimp only at hwide hwidth
      obtain ⟨more, rfl, hmore⟩ := Text.exists_append_of_width text (by omega)
      rw [Text.width_append] at hwidth
      rw [next_eof_error hmode eof, LeadingTrivia.read_error_iff]
      refine ⟨pieces, kind, comment, more, hleading.symm.trans leading, hlead.trans hmore,
        by omega, endless, ?_⟩
      rw [hoffset, ← Text.width_append]
      rfl

/-- Outside of code nothing is wrong. -/
theorem next_html_error (hmode : p.mode = .html) : (p.next dialect).1.error = none := by
  have htag {l : Lexeme} (h : openTag? dialect p.rest = some l) : l.problem = none := by
    unfold openTag? at h
    repeat' split at h
    all_goals cases h <;> rfl
  have hproblem : (Lexeme.html dialect p.rest).problem = none := by
    unfold Lexeme.html
    split
    · rfl
    · next hsome _ => exact htag hsome
    · rfl
  simp [next, hmode, hproblem]

theorem not_faulty_of_html (hmode : p.mode = .html) {after : List Char} :
    ¬Token.Faulty before (p.next dialect).1 after d := by
  have hkind : (p.next dialect).1.kind ≠ .skipped ∧ (p.next dialect).1.kind ≠ .string := by
    by_cases hk : (p.next dialect).1.kind = .eof
    · rw [hk]
      decide
    · rcases next_html hmode hk with (hk | hk) | ⟨hk, -⟩ <;> rw [hk] <;> decide
  intro h
  cases h with
  | unrecognized skipped => exact hkind.1 skipped
  | openString string => exact hkind.2 string
  | openHeredoc string => exact hkind.2 string
  | openComment _ _ leading =>
    rw [leading_next hmode] at leading
    simp at leading

/-- At the end of the text nothing is wrong. -/
theorem next_nil (dialect : Dialect) (h : p.rest = []) : (p.next dialect).1.kind = .eof ∧
    (p.next dialect).1.error = none := by
  cases hmode : p.mode <;>
    simp [next, hmode, h, LeadingTrivia.read, LeadingTrivia.readFrom, code, Lexeme.html]

/-- Behind a string or a comment without an end there is nothing that could be wrong. -/
theorem countP_open_le (dialect : Dialect) (p : Place) :
    (p.tokens dialect).countP (fun t => t.error.isSome && t.kind != .skipped) ≤ 1 := by
  induction hn : p.rest.length using Nat.strongRecOn generalizing p with
  | ind n ih =>
    by_cases hk : (p.next dialect).1.kind = .eof
    · rw [tokens_eof hk]
      exact List.countP_le_length
    · have htail := ih _ (hn ▸ (next_reads dialect p).length_lt hk) _ rfl
      rw [tokens_next hk, List.countP_cons]
      split
      · next hopen =>
        simp only [Bool.and_eq_true, bne_iff_ne, Option.isSome_iff_exists] at hopen
        obtain ⟨⟨d, hd⟩, hskipped⟩ := hopen
        have hmode : p.mode = .code := by
          cases hmode : p.mode with
          | code => rfl
          | html =>
            rw [next_html_error hmode] at hd
            cases hd
        have hlast : (p.next dialect).2.rest = [] := by
          have hfaulty : Token.Faulty [] (p.next dialect).1 (p.next dialect).2.rest d :=
            faulty_of_error hmode ((next_reads dialect p).taken hk) hd
          cases hfaulty with
          | unrecognized skipped => exact absurd skipped hskipped
          | openString _ _ _ _ last => exact last
          | openHeredoc _ _ _ _ last => exact last
          | openComment eof => exact absurd eof hk
        obtain ⟨heof, hnone⟩ := next_nil dialect hlast
        rw [tokens_eof heof]
        simp [hnone]
      · exact htail

end Place

/-- What is reported of tokens is exactly this: a run of control characters that are no white space
is skipped, as long as it can be, and nothing else begins with one of them; a string or a comment
without an end takes the rest of the text, so there is one of these at most. The operators refuse
nothing: what is left to them has a spelling. -/
theorem lexical_errors_exact (dialect : Dialect) (text : List Char) :
    (∀ front t back, tokenize dialect text = front ++ t :: back → ∃ before after,
      text = before ++ (t.text ++ after) ∧ Text.width before = t.range.start ∧
      (∀ d, t.error = some d ↔ t.Faulty before after d) ∧
      (t.kind = .skipped →
        t.text ≠ [] ∧ (∀ c ∈ t.text, IsStray c) ∧ ∀ c ∈ after.head?, ¬IsStray c) ∧
      (Mode.html.behind front = .code →
        (∀ c ∈ t.text.head?, IsStray c → t.kind = .skipped) ∧
        (LeftToOperators (t.text ++ after) → (firstSpelling? (t.text ++ after)).isSome = true))) ∧
    (tokenize dialect text).countP (fun t => t.error.isSome && t.kind != .skipped) ≤ 1 := by
  refine ⟨?_, Place.countP_open_le dialect _⟩
  intro front t back hsplit
  obtain ⟨p, hgap, hp, rfl⟩ := exists_gap hsplit
  obtain ⟨outside, lead, hoffset, hlead, htext, hwidth⟩ := hgap.exists_around dialect
  refine ⟨outside ++ lead, _, htext, hwidth, fun d => ?_, fun hskipped => ?_, fun hcode => ?_⟩
  · cases hmode : p.mode with
    | code => exact Place.next_error_iff hmode hoffset hlead
    | html =>
      rw [Place.next_html_error hmode]
      exact iff_of_false nofun (Place.not_faulty_of_html hmode)
  · have hmode : p.mode = .code := by
      cases hmode : p.mode with
      | code => rfl
      | html => exact absurd hskipped (Place.next_html_kind hmode)
    obtain ⟨hne, hrun, hstop, -⟩ := Place.next_skipped dialect hmode hskipped
    refine ⟨hne, fun c hc => (isUnrecognized_iff c).mp (hrun c hc), fun c hc hstray => ?_⟩
    exact Bool.false_ne_true ((hstop c hc).symm.trans ((isUnrecognized_iff c).mpr hstray))
  · have hmode := hp.trans hcode
    refine ⟨fun c hc hstray => ?_, fun hleft => hleft.isSome ?_⟩
    · rw [Option.mem_def, Place.head_next dialect hmode] at hc
      obtain ⟨cs, hrest⟩ := List.head?_eq_some_iff.mp hc
      rw [(Place.next_lexeme dialect hmode).1, hrest,
        code_unrecognized ((isUnrecognized_iff c).mpr hstray)]
      rfl
    · rw [← Place.read_rest dialect hmode]
      exact Place.read_ended p

/-- A control character is skipped, and a comment behind it has no end. -/
theorem lexical_errors_exact_comment : ∃ t before after,
    tokenize {} ['<', '?', '=', '\x01', '/', '*'] =
      [⟨0, [], .openTagWithEcho, ['<', '?', '='], none⟩,
        ⟨3, [], .skipped, ['\x01'], some ⟨.error, "unrecognized input", .ofLength 3 1⟩⟩, t] ∧
    ['<', '?', '=', '\x01', '/', '*'] = before ++ (t.text ++ after) ∧
    t.Faulty before after ⟨.warning, "unterminated comment", .ofLength 4 2⟩ := by
  have htokens : tokenize {} ['<', '?', '=', '\x01', '/', '*'] =
      [⟨0, [], .openTagWithEcho, ['<', '?', '='], none⟩,
        ⟨3, [], .skipped, ['\x01'], some ⟨.error, "unrecognized input", .ofLength 3 1⟩⟩] ++
      ⟨4, [⟨.multiLineComment, 2⟩], .eof, [],
        some ⟨.warning, "unterminated comment", .ofLength 4 2⟩⟩ :: [] := by
    decide +kernel
  obtain ⟨before, after, htext, -, herror, -⟩ := (lexical_errors_exact {} _).1 _ _ _ htokens
  exact ⟨_, before, after, htokens, htext, (herror _).mp rfl⟩

end PhpSyntax
