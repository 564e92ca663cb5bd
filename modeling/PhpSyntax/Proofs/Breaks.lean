import Mathlib.Data.List.Basic
import PhpSyntax.Proofs.Lexemes

/-!
Scanners stop at a blank and at a line break: what follows it does not change the token before it.
Heredocs, casts and close tags may take such characters along; they are set apart here.
-/
namespace PhpSyntax.Lexeme

/-- A blank or a line break. -/
def isBreak (c : Char) : Bool := c == ' ' || c == '\n'

section Break

variable {c : Char} (hc : isBreak c = true) (cs ds : List Char)

include hc

theorem eq_of_isBreak : c = ' ' ∨ c = '\n' := by
  simpa [isBreak] using hc

theorem isNameContinue_break : isNameContinue c = false := by
  rcases eq_of_isBreak hc with rfl | rfl <;> decide

theorem isNameStart_break : isNameStart c = false := by
  rcases eq_of_isBreak hc with rfl | rfl <;> decide

theorem isDigit_break : c.isDigit = false := by
  rcases eq_of_isBreak hc with rfl | rfl <;> decide

omit hc in
theorem takeWhile_break {p : Char → Bool} (h : p c = false) :
    (cs ++ c :: ds).takeWhile p = cs.takeWhile p := by
  induction cs with
  | nil => exact List.takeWhile_cons_of_neg (by simp [h])
  | cons d cs ih => rw [List.cons_append, List.takeWhile_cons, List.takeWhile_cons, ih]

omit hc in
theorem head?_any_break {p : Char → Bool} (h : p c = false) :
    (cs ++ c :: ds).head?.any p = cs.head?.any p := by
  cases cs with
  | nil => simpa using h
  | cons => rfl

/-! ## Names and variables -/

omit hc in
theorem nameLength_le : nameLength cs ≤ cs.length := by
  cases cs with
  | nil => exact Nat.le_refl 0
  | cons d cs =>
    rw [nameLength]
    split
    · exact Nat.succ_le_succ (List.takeWhile_sublist _).length_le
    · exact Nat.zero_le _

theorem nameLength_break : nameLength (cs ++ c :: ds) = nameLength cs := by
  cases cs with
  | nil => exact if_neg (by simp [isNameStart_break hc])
  | cons d cs =>
    rw [List.cons_append, nameLength, nameLength, takeWhile_break cs ds (isNameContinue_break hc)]

theorem name_break : name (cs ++ c :: ds) = name cs := by
  rw [name, name, nameLength_break hc, List.take_append_of_le_length (nameLength_le cs)]

theorem dollarName_break (h : cs ≠ []) : dollarName? (cs ++ c :: ds) = dollarName? cs := by
  obtain ⟨d, cs, rfl⟩ := List.exists_cons_of_ne_nil h
  by_cases hd : d = '$'
  · subst hd
    rw [List.cons_append, dollarName?, dollarName?, nameLength_break hc]
  · rw [List.cons_append, dollarName?, dollarName?]
    all_goals simp [hd]

/-! ## Numbers -/

omit hc in
theorem digitsFrom_le {isDigit : Char → Bool} (n : Nat) :
    digitsFrom isDigit n cs ≤ n + cs.length := by
  induction cs generalizing n with
  | nil => exact Nat.le_refl n
  | cons d cs ih =>
    rw [digitsFrom]
    split
    · have hle := ih (n + 1)
      rw [List.length_cons]
      omega
    · exact Nat.le_add_right ..

theorem digitsFrom_break {isDigit : Char → Bool} (h : isDigit c = false) (n : Nat) :
    digitsFrom isDigit n (cs ++ c :: ds) = digitsFrom isDigit n cs := by
  induction cs generalizing n with
  | nil =>
    have hu : (c == '_') = false := by rcases eq_of_isBreak hc with rfl | rfl <;> decide
    exact if_neg (by simp [h, hu])
  | cons d cs ih => rw [List.cons_append, digitsFrom, digitsFrom, ih, head?_any_break cs ds h]

theorem digitsLength_break {isDigit : Char → Bool} (h : isDigit c = false) :
    digitsLength isDigit (cs ++ c :: ds) = digitsLength isDigit cs := digitsFrom_break hc cs ds h 0

omit hc in
theorem digitsLength_le (isDigit : Char → Bool) : digitsLength isDigit cs ≤ cs.length :=
  Nat.le_trans (digitsFrom_le cs 0) (Nat.le_of_eq (Nat.zero_add _))

omit hc in
theorem radixDigit_eq {r : Char} {isDigit : Char → Bool} (h : radixDigit? r = some isDigit) :
    isDigit = isHexDigit ∨ isDigit = isBinaryDigit ∨ isDigit = isOctalDigit := by
  unfold radixDigit? at h
  split at h <;> simp_all

theorem isRadixDigit_break {r : Char} {isDigit : Char → Bool} (h : radixDigit? r = some isDigit) :
    isDigit c = false := by
  rcases eq_of_isBreak hc with rfl | rfl <;>
    rcases radixDigit_eq h with rfl | rfl | rfl <;> decide

theorem radixLength_break (h : cs ≠ []) : radixLength? (cs ++ c :: ds) = radixLength? cs := by
  match cs, h with
  | [d], _ =>
    by_cases hd : d = '0'
    · subst hd
      have hnone : radixDigit? c = none := by rcases eq_of_isBreak hc with rfl | rfl <;> rfl
      cases ds with
      | nil => rfl
      | cons e ds => simp [radixLength?, hnone]
    · unfold radixLength?
      split <;> simp_all
  | [d, r], _ =>
    by_cases hd : d = '0'
    · subst hd
      show (do let isDigit ← radixDigit? r; _) = none
      cases hr : radixDigit? r with
      | none => rfl
      | some isDigit => exact if_neg (by simp [isRadixDigit_break hc hr])
    · unfold radixLength?
      split <;> simp_all
  | d :: r :: e :: cs, _ =>
    by_cases hd : d = '0'
    · subst hd
      show (do let isDigit ← radixDigit? r; _) = (do let isDigit ← radixDigit? r; _)
      cases hr : radixDigit? r with
      | none => rfl
      | some isDigit =>
        have hlength := digitsLength_break hc (e :: cs) ds (isRadixDigit_break hc hr)
        show (if _ then some (digitsLength isDigit (e :: cs ++ c :: ds) + 2) else none) = _
        rw [hlength]
        rfl
    · unfold radixLength?
      split <;> simp_all

theorem fractionLength_break : fractionLength (cs ++ c :: ds) = fractionLength cs := by
  cases cs with
  | nil =>
    have hne : c ≠ '.' := by rcases eq_of_isBreak hc with rfl | rfl <;> decide
    unfold fractionLength
    split <;> simp_all
  | cons d cs =>
    by_cases hd : d = '.'
    · subst hd
      exact congrArg (· + 1) (digitsLength_break hc cs ds (isDigit_break hc))
    · unfold fractionLength
      split <;> simp_all

omit hc in
theorem fractionLength_le : fractionLength cs ≤ cs.length := by
  unfold fractionLength
  split
  · exact Nat.succ_le_succ (digitsLength_le _ _)
  · exact Nat.zero_le _

theorem exponentLength_break : exponentLength (cs ++ c :: ds) = exponentLength cs := by
  have hdigit := isDigit_break hc
  have hsign : (c == '+' || c == '-') = false := by
    rcases eq_of_isBreak hc with rfl | rfl <;> decide
  have hletter : (c == 'e' || c == 'E') = false := by
    rcases eq_of_isBreak hc with rfl | rfl <;> decide
  match cs with
  | [] =>
    cases ds with
    | nil => rfl
    | cons => simp only [List.nil_append, exponentLength, hletter]; rfl
  | [e] => simp [exponentLength, hsign, hdigit]
  | e :: d :: cs =>
    have hwhole := digitsLength_break hc (d :: cs) ds hdigit
    have htail := digitsLength_break hc cs ds hdigit
    rw [List.cons_append] at hwhole
    simp only [List.cons_append, exponentLength, head?_any_break cs ds hdigit, hwhole, htail]

theorem number_break (h : cs ≠ []) : number (cs ++ c :: ds) = number cs := by
  have hwhole := digitsLength_break hc cs ds (isDigit_break hc)
  have hle := digitsLength_le cs Char.isDigit
  simp only [number, radixLength_break hc cs ds h, hwhole, List.drop_append_of_le_length hle,
    fractionLength_break hc, List.drop_append_of_le_length (fractionLength_le _),
    exponentLength_break hc]

theorem pointNumber_break (h : cs ≠ []) : pointNumber? (cs ++ c :: ds) = pointNumber? cs := by
  obtain ⟨d, cs, rfl⟩ := List.exists_cons_of_ne_nil h
  by_cases hd : d = '.'
  · subst hd
    have hfraction := fractionLength_break hc ('.' :: cs) ds
    have hle : fractionLength ('.' :: cs) - 1 ≤ cs.length :=
      Nat.sub_le_of_le_add (fractionLength_le ('.' :: cs))
    rw [List.cons_append] at hfraction ⊢
    simp only [pointNumber?, head?_any_break cs ds (isDigit_break hc), hfraction,
      List.drop_append_of_le_length hle, exponentLength_break hc]
  · rw [List.cons_append]
    unfold pointNumber?
    split <;> simp_all

/-! ## Operators -/

omit hc in
theorem continuations_unbroken (d : Char) :
    (continuations d).all (fun p => !p.1.any isBreak) = true := by
  unfold continuations
  split <;> rfl

theorem isPrefixOf_break {s : List Char} (hs : s.any isBreak = false) :
    s.isPrefixOf (cs ++ c :: ds) = s.isPrefixOf cs := by
  induction s generalizing cs with
  | nil => simp
  | cons d s ih =>
    simp only [List.any_cons, Bool.or_eq_false_iff] at hs
    cases cs with
    | nil =>
      have hne : (d == c) = false := by
        rw [beq_eq_false_iff_ne]
        rintro rfl
        rw [hc] at hs
        cases hs.1
      simp [List.isPrefixOf, hne]
    | cons e cs => simp [List.isPrefixOf, ih cs hs.2]

theorem firstSpelling_break : firstSpelling? (cs ++ c :: ds) = firstSpelling? cs := by
  cases cs with
  | nil => rcases eq_of_isBreak hc with rfl | rfl <;> rfl
  | cons d cs =>
    have hfind : (continuations d).find? (fun p => p.1.isPrefixOf (cs ++ c :: ds)) =
        (continuations d).find? (fun p => p.1.isPrefixOf cs) := by
      rw [← List.head?_filter, ← List.head?_filter]
      refine congrArg List.head? (List.filter_congr fun p hp => ?_)
      have hs := List.all_eq_true.mp (continuations_unbroken d) p hp
      rw [isPrefixOf_break hc cs ds (by simpa using hs)]
    rw [List.cons_append, firstSpelling?, firstSpelling?, hfind]

theorem operator_break (htag : ∀ n p, firstSpelling? cs = some ⟨.closeTag, n, p⟩ →
    lineBreakLength ((cs ++ c :: ds).drop n) = lineBreakLength (cs.drop n)) :
    operator (cs ++ c :: ds) = operator cs := by
  rw [operator, operator, firstSpelling_break hc]
  split
  · next n p hl => rw [htag n p hl]
  · rfl
  · rfl

theorem unrecognized_break : unrecognized (cs ++ c :: ds) = unrecognized cs := by
  have hp : isUnrecognized c = false := by rcases eq_of_isBreak hc with rfl | rfl <;> decide
  rw [unrecognized, unrecognized, takeWhile_break cs ds hp]

/-- A token that cannot take a break along is the same before one. -/
theorem code_break (h : cs ≠ []) (hheredoc : heredoc? (cs ++ c :: ds) = heredoc? cs)
    (hcast : cast? (cs ++ c :: ds) = cast? cs)
    (hquoted : quotedString? (cs ++ c :: ds) = quotedString? cs)
    (htag : ∀ n p, firstSpelling? cs = some ⟨.closeTag, n, p⟩ →
      lineBreakLength ((cs ++ c :: ds).drop n) = lineBreakLength (cs.drop n)) :
    code (cs ++ c :: ds) = code cs := by
  have hvariable := dollarName_break hc cs ds h
  have hnumber := number_break hc cs ds h
  have hpoint := pointNumber_break hc cs ds h
  have hname := name_break hc cs ds
  have hother := unrecognized_break hc cs ds
  have hoperator := operator_break hc cs ds htag
  obtain ⟨d, cs, rfl⟩ := List.exists_cons_of_ne_nil h
  rw [List.cons_append] at *
  simp only [code, hheredoc, hcast, hvariable, hquoted, hnumber, hpoint, hname, hother, hoperator]

end Break
end PhpSyntax.Lexeme
