import PhpSyntax.Token.Stream

/-!
What every scanner answers: at least one character, of a kind that a token of the text can have, and
unrecognized input is always reported.
-/
namespace PhpSyntax

/-- Kinds of tokens that take characters of a text. -/
def Kind.isWritten (k : Kind) : Bool :=
  k.isToken && !k.isTrivia && k != .eof && k != .missing && k != .tombstone

/-- Punctuation and operators. -/
def Kind.isOperator (k : Kind) : Bool := k.index ≤ Kind.bang.index

/-- What is wrong with a token alone, wherever it stands. -/
def Problem.isLexical : Problem → Bool
  | unrecognizedInput | unterminatedString | unterminatedHeredoc | unterminatedComment => true
  | expected _ | unexpected _ => false

namespace Lexeme

variable {cs : List Char} {l : Lexeme}

/-- A lexeme that can stand in a text. -/
structure Valid (l : Lexeme) : Prop where
  written : l.kind.isWritten = true
  length : 0 < l.length
  reported : l.kind = .skipped → l.problem.isSome = true
  lexical : ∀ p, l.problem = some p → p.isLexical = true

/-- A lexeme without a problem. -/
theorem valid_plain {k : Kind} {n : Nat} (hk : k.isWritten = true) (hs : k ≠ .skipped)
    (hn : 0 < n) : Valid ⟨k, n, none⟩ :=
  ⟨hk, hn, fun h => absurd h hs, fun p h => by cases h⟩

theorem le_digitsFrom (isDigit : Char → Bool) (n : Nat) (cs : List Char) :
    n ≤ digitsFrom isDigit n cs := by
  induction cs generalizing n with
  | nil => exact Nat.le_refl n
  | cons c cs ih =>
    rw [digitsFrom]
    split
    · exact Nat.le_of_succ_le (ih (n + 1))
    · exact Nat.le_refl n

theorem digitsLength_pos {isDigit : Char → Bool} {c : Char} (cs : List Char)
    (h : isDigit c = true) :
    0 < digitsLength isDigit (c :: cs) := by
  rw [digitsLength, digitsFrom, if_pos (by simp [h])]
  exact le_digitsFrom isDigit 1 cs

theorem valid_number {c : Char} (h : c.isDigit = true) : Valid (number (c :: cs)) := by
  unfold number
  split
  · next n hn =>
    refine valid_plain rfl (by decide) ?_
    unfold radixLength? at hn
    split at hn
    · simp only [Option.bind_eq_bind, Option.bind_eq_some_iff, Option.ite_none_right_eq_some] at hn
      obtain ⟨isDigit, -, -, hn⟩ := hn
      have hs := Option.some.inj hn
      omega
    · cases hn
  · have hd := digitsLength_pos cs h
    refine valid_plain ?_ ?_ ?_
    · split <;> rfl
    · split <;> decide
    · omega

theorem valid_pointNumber (h : pointNumber? cs = some l) : l.Valid := by
  unfold pointNumber? at h
  split at h
  · simp only [Option.ite_none_right_eq_some] at h
    obtain ⟨-, h⟩ := h
    obtain rfl := Option.some.inj h
    exact valid_plain rfl (by decide) (by rw [fractionLength]; omega)
  · cases h

theorem le_closingQuote (quote : Char) (n : Nat) (cs : List Char) :
    n ≤ (closingQuote quote n cs).1 := by
  fun_induction closingQuote quote n cs <;> simp_all <;> omega

theorem valid_quotedString (h : quotedString? cs = some l) : l.Valid := by
  unfold quotedString? at h
  split at h
  · cases h
  · next q cs =>
    have hle := le_closingQuote q 1 cs
    simp only [Option.ite_none_right_eq_some] at h
    obtain ⟨-, h⟩ := h
    split at h
    · next n hn =>
      rw [hn] at hle
      obtain rfl := Option.some.inj h
      exact valid_plain rfl (by decide) hle
    · next n hn =>
      rw [hn] at hle
      obtain rfl := Option.some.inj h
      exact ⟨rfl, hle, by simp, by simp [Problem.isLexical]⟩

theorem le_closingLabel (label : List Char) (lineStart : Bool) (n : Nat) (cs : List Char) :
    n ≤ (closingLabel label lineStart n cs).1 := by
  induction cs generalizing lineStart n with
  | nil => exact Nat.le_refl n
  | cons c cs ih =>
    rw [closingLabel]
    split
    · show n ≤ n + blankLength (c :: cs) + label.length
      omega
    · exact Nat.le_of_succ_le (ih _ (n + 1))

theorem heredocHeader_length_pos {header : HeredocHeader} (h : heredocHeader? cs = some header) :
    0 < header.length := by
  unfold heredocHeader? at h
  split at h
  · simp only [Option.bind_eq_bind, Option.bind_eq_some_iff, Option.ite_none_right_eq_some] at h
    obtain ⟨⟨label, n⟩, -, -, h⟩ := h
    obtain rfl := Option.some.inj h
    show 0 < 3 + _ + n + _
    omega
  · cases h

theorem valid_heredoc (h : heredoc? cs = some l) : l.Valid := by
  simp only [heredoc?, Option.bind_eq_bind, Option.bind_eq_some_iff] at h
  obtain ⟨header, hh, h⟩ := h
  have hle := le_closingLabel header.label true header.length (cs.drop header.length)
  have hpos := heredocHeader_length_pos hh
  split at h
  · next n hn =>
    rw [hn] at hle
    obtain rfl := Option.some.inj h
    exact valid_plain rfl (by decide) (Nat.lt_of_lt_of_le hpos hle)
  · next n hn =>
    rw [hn] at hle
    obtain rfl := Option.some.inj h
    exact ⟨rfl, Nat.lt_of_lt_of_le hpos hle, by simp, by simp [Problem.isLexical]⟩

theorem valid_cast (h : cast? cs = some l) : l.Valid := by
  unfold cast? at h
  split at h
  · simp only [Option.ite_none_right_eq_some] at h
    obtain ⟨-, h⟩ := h
    obtain rfl := Option.some.inj h
    exact valid_plain rfl (by decide) (by omega)
  · cases h

theorem valid_dollarName (h : dollarName? cs = some l) : l.Valid := by
  unfold dollarName? at h
  split at h
  · simp only [Option.ite_none_right_eq_some] at h
    obtain ⟨-, h⟩ := h
    obtain rfl := Option.some.inj h
    exact valid_plain rfl (by decide) (by omega)
  · cases h

theorem keywords_written :
    Kind.keywords.all (fun p => p.2.isWritten && p.2 != .skipped) = true := by
  decide +kernel

theorem keyword_written {word : List Char} {k : Kind} (h : Kind.keyword? word = some k) :
    k.isWritten = true ∧ k ≠ .skipped := by
  have hk := List.all_eq_true.mp keywords_written _ (Kind.mem_keywords h)
  simpa using hk

theorem valid_name {c : Char} (h : isNameStart c = true) : Valid (name (c :: cs)) := by
  have hn : 0 < nameLength (c :: cs) := by
    rw [nameLength, if_pos h]
    omega
  show Valid ⟨(Kind.keyword? ((c :: cs).take (nameLength (c :: cs)))).getD .name,
    nameLength (c :: cs), none⟩
  cases hk : Kind.keyword? ((c :: cs).take (nameLength (c :: cs))) with
  | none => exact valid_plain rfl (by decide) hn
  | some k => exact valid_plain (keyword_written hk).1 (keyword_written hk).2 hn

theorem valid_unrecognized {c : Char} (h : isUnrecognized c = true) :
    Valid (unrecognized (c :: cs)) :=
  ⟨rfl, by simp [unrecognized, h], fun _ => rfl, by simp [unrecognized, Problem.isLexical]⟩

/-- The spellings of punctuation and operators, as diagnostics give them. Inequality has a second
one, and the close tag is read among them. -/
def spellings : List (List Char × Kind) :=
  ((Kind.all.filter Kind.isOperator).filterMap fun k =>
    k.spelling?.map (·.toList, k)) ++ [("<>".toList, .bangEq), ("?>".toList, .closeTag)]

theorem spellings_written : spellings.all
    (fun p => !p.1.isEmpty && p.2.isWritten && p.2 != .skipped) = true := by
  decide +kernel

theorem continuations_spelled (c : Char) :
    (continuations c).all (fun p => (c :: p.1, p.2) ∈ spellings) = true := by
  unfold continuations
  split <;> rfl

theorem exists_continuation (h : firstSpelling? cs = some l) : ∃ c tail p, cs = c :: tail ∧
    (continuations c).find? (fun p => p.1.isPrefixOf tail) = some p ∧
      l = ⟨p.2, p.1.length + 1, none⟩ := by
  cases cs with
  | nil => cases h
  | cons c tail =>
    obtain ⟨p, hp, hl⟩ := Option.map_eq_some_iff.mp h
    exact ⟨c, tail, p, rfl, hp, hl.symm⟩

/-- What is read as an operator is one of the spellings, and the text begins with it. -/
theorem exists_spelling (h : firstSpelling? cs = some l) :
    ∃ p ∈ spellings, p.1.isPrefixOf cs = true ∧ l = ⟨p.2, p.1.length, none⟩ := by
  obtain ⟨c, tail, p, rfl, hp, rfl⟩ := exists_continuation h
  have hspelled := List.all_eq_true.mp (continuations_spelled c) p (List.mem_of_find?_eq_some hp)
  have hprefix : p.1.isPrefixOf tail = true := (List.find?_eq_some_iff_append.mp hp).1
  refine ⟨(c :: p.1, p.2), of_decide_eq_true hspelled, ?_, rfl⟩
  rw [List.isPrefixOf_cons_cons, beq_self_eq_true, Bool.true_and]
  exact hprefix

theorem valid_firstSpelling (h : firstSpelling? cs = some l) : l.Valid := by
  obtain ⟨p, hp, -, rfl⟩ := exists_spelling h
  have hw := List.all_eq_true.mp spellings_written p hp
  simp only [Bool.and_eq_true, bne_iff_ne, ne_eq, Bool.not_eq_true', List.isEmpty_eq_false_iff]
    at hw
  exact valid_plain hw.1.2 hw.2 (List.length_pos_iff.mpr hw.1.1)

theorem valid_operator : Valid (operator cs) := by
  unfold operator
  split
  · next n _ h =>
    have hpos := (valid_firstSpelling h).length
    exact valid_plain rfl (by decide) (Nat.lt_add_right _ hpos)
  · next h => exact valid_firstSpelling h
  · exact ⟨rfl, by decide, fun _ => rfl, by simp [Problem.isLexical]⟩

/-- Inside code every text that is not empty begins with a valid lexeme. -/
theorem valid_code (h : cs ≠ []) : Valid (code cs) := by
  cases cs with
  | nil => exact absurd rfl h
  | cons c cs =>
    simp only [code]
    split
    · next l hl => exact valid_heredoc hl
    split
    · next l hl => exact valid_cast hl
    split
    · next l hl => exact valid_dollarName hl
    split
    · next l hl => exact valid_quotedString hl
    split
    · next hc => exact valid_number hc
    split
    · next l hl => exact valid_pointNumber hl
    split
    · next hc => exact valid_name hc
    split
    · next hc => exact valid_unrecognized hc
    · exact valid_operator

theorem valid_openTag {dialect : Dialect} (h : openTag? dialect cs = some l) :
    l.Valid ∧ l.kind ≠ .skipped := by
  unfold openTag? at h
  split at h
  · split at h
    · obtain rfl := Option.some.inj h
      exact ⟨valid_plain rfl (by decide) (by decide), by decide⟩
    split at h
    · obtain rfl := Option.some.inj h
      exact ⟨valid_plain rfl (by decide) (by decide), by decide⟩
    split at h
    · obtain rfl := Option.some.inj h
      exact ⟨valid_plain rfl (by decide) (by decide), by decide⟩
    · cases h
  · cases h

theorem le_htmlFrom (dialect : Dialect) (n : Nat) (cs : List Char) :
    n ≤ htmlFrom dialect n cs := by
  induction cs generalizing n with
  | nil => exact Nat.le_refl n
  | cons c cs ih =>
    rw [htmlFrom]
    split
    · exact Nat.le_refl n
    · exact Nat.le_of_succ_le (ih (n + 1))

theorem valid_html (dialect : Dialect) (h : cs ≠ []) :
    Valid (html dialect cs) ∧ (html dialect cs).kind ≠ .skipped := by
  unfold html
  split
  · exact absurd rfl h
  · next ht => exact valid_openTag ht
  · next hn ht =>
    refine ⟨valid_plain rfl (by simp) ?_, by simp⟩
    obtain ⟨c, ds, rfl⟩ := List.exists_cons_of_ne_nil h
    rw [htmlFrom, if_neg (by simp [ht])]
    exact le_htmlFrom dialect 1 ds

/-- The lexeme that a text begins with: the end of file if the text is empty, else a valid one. -/
def Begins (l : Lexeme) (cs : List Char) : Prop :=
  cs = [] ∧ l = ⟨.eof, 0, none⟩ ∨ cs ≠ [] ∧ l.Valid

theorem code_begins (cs : List Char) : (code cs).Begins cs := by
  by_cases h : cs = []
  · exact .inl ⟨h, by rw [h, code]⟩
  · exact .inr ⟨h, valid_code h⟩

theorem html_begins (dialect : Dialect) (cs : List Char) : (html dialect cs).Begins cs := by
  by_cases h : cs = []
  · exact .inl ⟨h, by rw [h, html]⟩
  · exact .inr ⟨h, (valid_html dialect h).1⟩

/-- Outside of code no input is unrecognized. -/
theorem html_kind_ne_skipped (dialect : Dialect) (cs : List Char) :
    (html dialect cs).kind ≠ .skipped := by
  by_cases h : cs = []
  · rw [h, html]
    simp
  · exact (valid_html dialect h).2

end Lexeme
end PhpSyntax
