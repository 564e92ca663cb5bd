import PhpSyntax.Proofs.Breaks
import PhpSyntax.Proofs.Gist

/-!
Words with single blanks between them are read as they are: a text that is one token alone is that
token between blanks too. Only a parenthesis may become part of a cast.
-/
namespace PhpSyntax

/-- A kind and a text. -/
abbrev Word := Kind × List Char

namespace TriviaScan

/-- Characters that begin trivia, whatever follows them. -/
def begins (c : Char) : Bool := Lexeme.isBlank c || c == '\n' || c == '\r' || c == '#'

/-- Whether trivia begins is said by the first two characters. -/
theorem first_eq_none {c : Char} {cs : List Char} : first? (c :: cs) = none ↔
    begins c = false ∧ (c = '/' → cs.head? ≠ some '/' ∧ cs.head? ≠ some '*') := by
  rw [first?]
  split
  · simp_all [begins]
  split
  · simp_all [begins]
  split
  · simp_all [begins]
  split
  · simp_all [begins]
    grind
  split
  · simp_all [begins]
  · simp_all [begins]

end TriviaScan

namespace Lexeme

/-- The text is read as one token of this kind, and nothing is wrong with it. Strings and casts are
no words, as they may hold blanks, and neither are close tags. -/
def IsWord (kind : Kind) (text : List Char) : Prop :=
  code text = ⟨kind, text.length, none⟩ ∧ (TriviaScan.first? text).isNone ∧ kind ≠ .eof ∧
    kind ≠ .string ∧ kind ≠ .cast ∧ kind ≠ .closeTag

instance (kind : Kind) (text : List Char) : Decidable (IsWord kind text) :=
  inferInstanceAs (Decidable (_ ∧ _))

variable {kind : Kind} {s rest : List Char} {c : Char} {cs ds : List Char}

/-- A character that begins an operator, or something that begins like one. -/
def beginsOperator (c : Char) : Bool :=
  c != '$' && !isQuote c && !c.isDigit && c != '.' && !isNameStart c && !isUnrecognized c

theorem code_operator (hc : beginsOperator c = true) (hheredoc : heredoc? (c :: cs) = none)
    (hcast : cast? (c :: cs) = none) : code (c :: cs) = operator (c :: cs) := by
  simp only [beginsOperator, Bool.and_eq_true, bne_iff_ne, Bool.not_eq_true'] at hc
  obtain ⟨⟨⟨⟨⟨hdollar, hquote⟩, hdigit⟩, hpoint⟩, hname⟩, hother⟩ := hc
  have hvariable : dollarName? (c :: cs) = none := by
    unfold dollarName?
    split <;> simp_all
  have hquoted : quotedString? (c :: cs) = none := by
    rw [quotedString?, hquote]
    rfl
  have hnumber : pointNumber? (c :: cs) = none := by
    unfold pointNumber?
    split <;> simp_all
  simp [code, hheredoc, hcast, hvariable, hquoted, hdigit, hnumber, hname, hother]

/-- What begins with a quote is nothing of what is read before strings. -/
theorem isQuote_others (hc : isQuote c = true) (cs : List Char) :
    heredoc? (c :: cs) = none ∧ cast? (c :: cs) = none ∧ dollarName? (c :: cs) = none := by
  simp only [isQuote, Bool.or_eq_true, beq_iff_eq] at hc
  rcases hc with (rfl | rfl) | rfl <;> exact ⟨rfl, rfl, rfl⟩

/-- A text is read as one token where it stands, right before `rest`. -/
structure Stands (kind : Kind) (s rest : List Char) : Prop where
  code : code (s ++ rest) = ⟨kind, s.length, none⟩
  first : TriviaScan.first? (s ++ rest) = none
  ne_eof : kind ≠ .eof
  ne_closeTag : kind ≠ .closeTag

namespace Stands

theorem exists_cons (h : Stands kind s rest) : ∃ c cs, s = c :: cs := by
  cases s with
  | cons c cs => exact ⟨c, cs, rfl⟩
  | nil =>
    -- a token that takes no character is the end of file
    have hcode : Lexeme.code rest = ⟨kind, 0, none⟩ := h.code
    have hnil : rest = [] := by
      by_contra hne
      have hpos := (valid_code hne).length
      rw [hcode] at hpos
      exact Nat.lt_irrefl 0 hpos
    subst hnil
    exact absurd (congrArg Lexeme.kind hcode).symm h.ne_eof

theorem ne_skipped (h : Stands kind s rest) : kind ≠ .skipped := by
  obtain ⟨c, cs, rfl⟩ := h.exists_cons
  have hreported := (valid_code (List.cons_ne_nil c (cs ++ rest))).reported
  rw [← List.cons_append, h.code] at hreported
  exact fun hk => Bool.false_ne_true (hreported hk)

/-- The trivia before a token is the blank before it, if there is one. -/
theorem read (h : Stands kind s rest) (blank : Bool) (offset : Nat) :
    LeadingTrivia.read offset (List.replicate blank.toNat ' ' ++ (s ++ rest)) =
      ⟨List.replicate blank.toNat ⟨.whitespace, 1⟩, none, offset + blank.toNat, s ++ rest⟩ := by
  have hfirst := h.first
  obtain ⟨c, cs, rfl⟩ := h.exists_cons
  rw [List.cons_append] at hfirst ⊢
  cases blank with
  | false => simp [LeadingTrivia.read, LeadingTrivia.readFrom, hfirst]
  | true =>
    have hblank : isBlank c = false := by
      have hc := (TriviaScan.first_eq_none.mp hfirst).1
      simp only [TriviaScan.begins, Bool.or_eq_false_iff] at hc
      exact hc.1.1.1
    have hone : TriviaScan.first? (' ' :: c :: (cs ++ rest)) = some ⟨.whitespace, 1, true⟩ := by
      have hlength : blankLength (' ' :: c :: (cs ++ rest)) = 1 := by
        rw [blankLength, List.takeWhile_cons_of_pos rfl,
          List.takeWhile_cons_of_neg (by simp [hblank])]
        rfl
      rw [TriviaScan.first?, hlength]
      rfl
    have hwidth : ' '.utf8Size = 1 := by decide
    simp [LeadingTrivia.read, LeadingTrivia.readFrom, hone, hfirst, LeadingTrivia.add, hwidth]

/-- A word and the blank before it, if there is one, are one token. -/
theorem next (h : Stands kind s rest) (blank : Bool) (dialect : Dialect) (offset : Nat) :
    Place.next dialect ⟨offset, .code, List.replicate blank.toNat ' ' ++ (s ++ rest)⟩ =
      (⟨offset, List.replicate blank.toNat ⟨.whitespace, 1⟩, kind, s, none⟩,
        ⟨offset + blank.toNat + Text.width s, .code, rest⟩) := by
  have hafter : Mode.after .code kind = .code := by
    unfold Mode.after
    split
    · rfl
    · rfl
    · exact absurd rfl h.ne_closeTag
    · rfl
  simp [Place.next, h.read, h.code, hafter]

end Stands

namespace IsWord

theorem ne_nil (h : IsWord kind s) : s ≠ [] := by
  rintro rfl
  obtain ⟨hcode, -, heof, -⟩ := h
  cases hcode
  exact heof rfl

theorem heredoc_none (h : IsWord kind s) : heredoc? s = none := by
  obtain ⟨c, s, rfl⟩ := List.exists_cons_of_ne_nil h.ne_nil
  obtain ⟨hcode, -, -, hstring, -⟩ := h
  refine Option.eq_none_iff_forall_ne_some.mpr fun l hl => hstring ?_
  have hl' : code (c :: s) = l := by simp only [code, hl]
  rw [hcode] at hl'
  subst hl'
  unfold heredoc? at hl
  simp only [Option.bind_eq_bind, Option.bind_eq_some_iff] at hl
  obtain ⟨header, -, hl⟩ := hl
  split at hl <;> exact (congrArg Lexeme.kind (Option.some.inj hl)).symm

theorem cast_none (h : IsWord kind s) : cast? s = none := by
  have hheredoc := h.heredoc_none
  obtain ⟨c, s, rfl⟩ := List.exists_cons_of_ne_nil h.ne_nil
  obtain ⟨hcode, -, -, -, hcast, -⟩ := h
  refine Option.eq_none_iff_forall_ne_some.mpr fun l hl => hcast ?_
  have hl' : code (c :: s) = l := by simp only [code, hheredoc, hl]
  rw [hcode] at hl'
  subst hl'
  unfold cast? at hl
  split at hl
  · simp only [Option.ite_none_right_eq_some] at hl
    exact (congrArg Lexeme.kind (Option.some.inj hl.2)).symm
  · cases hl

/-- A word that begins like an operator is one. -/
theorem eq_spelling (h : IsWord kind (c :: s)) (hc : beginsOperator c = true) :
    (c :: s, kind) ∈ spellings := by
  have hcode := code_operator hc h.heredoc_none h.cast_none
  rw [h.1, operator] at hcode
  split at hcode
  · exact absurd (congrArg Lexeme.kind hcode) h.2.2.2.2.2
  · next l _ hl =>
    obtain ⟨p, hp, hprefix, rfl⟩ := exists_spelling hl
    obtain ⟨hkind, hlength⟩ : kind = p.2 ∧ (c :: s).length = p.1.length := by
      simpa using hcode
    have heq := (List.isPrefixOf_iff_prefix.mp hprefix).eq_of_length hlength.symm
    rwa [← heq, hkind]
  · exact absurd (congrArg Lexeme.problem hcode) (by simp)

/-- A word does not begin with a quote. -/
theorem isQuote_head (h : IsWord kind (c :: s)) : isQuote c = false := by
  obtain ⟨hcode, -, -, hstring, -⟩ := h
  refine Bool.eq_false_iff.mpr fun hc => hstring ?_
  obtain ⟨hheredoc, hcast, hvariable⟩ := isQuote_others hc s
  have hl : ∃ l, quotedString? (c :: s) = some l ∧ l.kind = .string := by
    rw [quotedString?, if_pos hc]
    split <;> exact ⟨_, rfl, rfl⟩
  obtain ⟨l, hl, hk⟩ := hl
  have hl' : code (c :: s) = l := by simp only [code, hheredoc, hcast, hvariable, hl]
  rw [hcode] at hl'
  rw [← hk, ← hl']

theorem spellings_special : spellings.all (fun p =>
    p.1.take 3 != ['<', '<', '<'] && (p.1.head? != some '(' || p == (['('], .leftParen)) &&
      (p.1.take 2 != ['?', '>'] || p.2 == .closeTag) && (p.2 != .closeTag || p.1 == ['?', '>'])) =
    true := by
  decide +kernel

/-- Before a blank a word is the same token, where a parenthesis begins no cast. -/
theorem code_blank (h : IsWord kind s)
    (hcast : kind = .leftParen → cast? ('(' :: ' ' :: ds) = none) :
    code (s ++ ' ' :: ds) = ⟨kind, s.length, none⟩ := by
  obtain ⟨c, s, rfl⟩ := List.exists_cons_of_ne_nil h.ne_nil
  have hspecial (p : List Char × Kind) (hp : p ∈ spellings) :=
    List.all_eq_true.mp spellings_special p hp
  have hheader : heredocHeader? (c :: s ++ ' ' :: ds) = none := by
    unfold heredocHeader?
    split
    · next rest hrest =>
      match s, hrest with
      | [], hrest => simp at hrest
      | [d], hrest => simp at hrest
      | d :: e :: s, hrest =>
        simp only [List.cons_append, List.cons.injEq] at hrest
        obtain ⟨rfl, rfl, rfl, -⟩ := hrest
        have hp := hspecial _ (h.eq_spelling (by decide))
        simp at hp
    · rfl
  have hheredoc : heredoc? (c :: s ++ ' ' :: ds) = none := by
    rw [heredoc?, hheader]
    rfl
  have hcast' : cast? (c :: s ++ ' ' :: ds) = none := by
    by_cases hc : c = '('
    · subst hc
      have hp := hspecial _ (h.eq_spelling (by decide))
      simp only [Bool.and_eq_true, Bool.or_eq_true] at hp
      obtain ⟨rfl, rfl⟩ : s = [] ∧ kind = .leftParen := by simpa using hp.1.1.2
      exact hcast rfl
    · unfold cast?
      split <;> simp_all
  have hquoted : quotedString? (c :: s ++ ' ' :: ds) = quotedString? (c :: s) := by
    simp [quotedString?, h.isQuote_head]
  rw [← h.1, code_break rfl _ ds h.ne_nil (hheredoc.trans h.heredoc_none.symm)
    (hcast'.trans h.cast_none.symm) hquoted]
  -- no word begins with a close tag
  intro n p hl
  obtain ⟨q, hq, hprefix, hlq⟩ := exists_spelling hl
  have hclose := hspecial q hq
  have hkind : q.2 = .closeTag := (congrArg Lexeme.kind hlq).symm
  have htext : q.1 = ['?', '>'] := by
    simpa [hkind] using (Bool.and_eq_true_iff.mp hclose).2
  rw [htext] at hprefix
  obtain ⟨tail, htail⟩ := List.isPrefixOf_iff_prefix.mp hprefix
  simp only [List.cons_append, List.nil_append, List.cons.injEq] at htail
  obtain ⟨rfl, rfl⟩ := htail
  have hp := hspecial _ (h.eq_spelling (by decide))
  simp [h.2.2.2.2.2] at hp

theorem first_none (h : IsWord kind s) (hrest : rest = [] ∨ ∃ ds, rest = ' ' :: ds) :
    TriviaScan.first? (s ++ rest) = none := by
  have hfirst : TriviaScan.first? s = none := Option.isNone_iff_eq_none.mp h.2.1
  obtain ⟨c, s, rfl⟩ := List.exists_cons_of_ne_nil h.ne_nil
  rw [TriviaScan.first_eq_none] at hfirst
  rw [List.cons_append, TriviaScan.first_eq_none]
  refine ⟨hfirst.1, fun hc => ?_⟩
  cases s with
  | nil => rcases hrest with rfl | ⟨ds, rfl⟩ <;> simp
  | cons d s => exact hfirst.2 hc

theorem isBlank_head (h : IsWord kind (c :: s)) : isBlank c = false := by
  have hc := (TriviaScan.first_eq_none.mp (Option.isNone_iff_eq_none.mp h.2.1)).1
  simp only [TriviaScan.begins, Bool.or_eq_false_iff] at hc
  exact hc.1.1.1

/-- Before a blank or at the end a word stands as it is, where a parenthesis begins no cast. -/
theorem stands (h : IsWord kind s) (hrest : rest = [] ∨ ∃ ds, rest = ' ' :: ds)
    (hcast : kind = .leftParen → cast? ('(' :: rest) = none) : Stands kind s rest := by
  refine ⟨?_, h.first_none hrest, h.2.2.1, h.2.2.2.2.2⟩
  rcases hrest with rfl | ⟨ds, rfl⟩
  · rw [List.append_nil]
    exact h.1
  · exact h.code_blank hcast

theorem ne_skipped (h : IsWord kind s) : kind ≠ .skipped := by
  intro hk
  have hreported := (valid_code h.ne_nil).reported
  rw [h.1] at hreported
  cases hreported hk

end IsWord

/-! ## Variables, names and numbers -/

open TriviaScan (first? first_eq_none)

/-- A name: a character that begins one, and more that go on with it. -/
def IsName (cs : List Char) : Prop :=
  ∃ c more, cs = c :: more ∧ isNameStart c = true ∧ ∀ d ∈ more, isNameContinue d = true

theorem IsName.ne_nil (h : IsName s) : s ≠ [] := by
  obtain ⟨c, more, rfl, -⟩ := h
  exact List.cons_ne_nil c more

theorem IsName.continues (h : IsName s) : ∀ c ∈ s, isNameContinue c = true := by
  obtain ⟨c, more, rfl, hc, hmore⟩ := h
  exact List.forall_mem_cons.mpr ⟨by rw [isNameContinue, hc, Bool.true_or], hmore⟩

theorem IsName.nameLength_append (h : IsName s)
    (hrest : ∀ c ∈ rest.head?, isNameContinue c = false) :
    nameLength (s ++ rest) = s.length := by
  obtain ⟨c, more, rfl, hc, hmore⟩ := h
  have hnone : rest.takeWhile isNameContinue = [] := by
    cases rest with
    | nil => rfl
    | cons d ds => exact List.takeWhile_cons_of_neg (by simp [hrest d rfl])
  rw [List.cons_append, nameLength, if_pos hc, List.takeWhile_append_of_pos hmore, hnone,
    List.append_nil, List.length_cons]

/-- What is counted as a name is one, and no more of it follows. -/
theorem exists_name (h : 0 < nameLength cs) : ∃ name more, cs = name ++ more ∧ IsName name ∧
    nameLength cs = name.length ∧ ∀ c ∈ more.head?, isNameContinue c = false := by
  cases cs with
  | nil => cases h
  | cons c cs =>
    have hc : isNameStart c = true := by
      by_contra hc
      rw [nameLength, if_neg hc] at h
      exact Nat.lt_irrefl 0 h
    refine ⟨c :: cs.takeWhile isNameContinue, cs.dropWhile isNameContinue, ?_,
      ⟨c, _, rfl, hc, List.all_eq_true.mp List.all_takeWhile⟩, ?_, ?_⟩
    · rw [List.cons_append, List.takeWhile_append_dropWhile]
    · rw [nameLength, if_pos hc, List.length_cons]
    · intro d hd
      have hstop := List.head?_dropWhile_not isNameContinue cs
      rwa [hd] at hstop

theorem isName_of_nameLength (hs : s ≠ []) (h : nameLength s = s.length) : IsName s := by
  obtain ⟨name, more, rfl, hname, hlength, -⟩ := exists_name (h ▸ List.length_pos_iff.mpr hs)
  have hnil : more = [] := by
    rw [h, List.length_append] at hlength
    exact List.eq_nil_of_length_eq_zero (Nat.add_eq_left.mp hlength)
  rwa [hnil, List.append_nil]

/-- A dollar sign and a name are a word. -/
theorem isWord_variable (hs : s ≠ []) (h : nameLength s = s.length) :
    IsWord .variableName ('$' :: s) := by
  have hpos : 0 < nameLength s := h ▸ List.length_pos_iff.mpr hs
  have hvariable : dollarName? ('$' :: s) = some ⟨.variableName, s.length + 1, none⟩ := by
    rw [dollarName?, if_pos hpos, h]
  refine ⟨?_, rfl, by decide, by decide, by decide, by decide⟩
  simp [code, heredoc?, heredocHeader?, cast?, hvariable]

theorem isDigit_eq_false (h : isNameStart c = true) : c.isDigit = false := by
  have hstart : (65 ≤ c.toNat ∧ c.toNat ≤ 90) ∨ (97 ≤ c.toNat ∧ c.toNat ≤ 122) ∨ c = '_' ∨
      128 ≤ c.toNat := by
    have h : (decide (65 ≤ c.val ∧ c.val ≤ 90) || (97 ≤ c.val && c.val ≤ 122) || c == '_' ||
      128 ≤ c.toNat) = true := h
    simpa [UInt32.le_iff_toNat_le, or_assoc] using h
  rw [Bool.eq_false_iff]
  intro hdigit
  have hrange : 48 ≤ c.toNat ∧ c.toNat ≤ 57 := by
    simpa [Char.isDigit, UInt32.le_iff_toNat_le] using hdigit
  rcases hstart with hc | hc | rfl | hc
  · omega
  · omega
  · simp at hrange
  · omega

/-- What begins with none of these characters is nothing of what is told by its first one. -/
theorem others_none (hc : c ∉ ['<', '(', '$', '\x27', '\x22', '\x60', '.']) (s : List Char) :
    heredoc? (c :: s) = none ∧ cast? (c :: s) = none ∧ dollarName? (c :: s) = none ∧
      quotedString? (c :: s) = none ∧ pointNumber? (c :: s) = none := by
  simp only [List.mem_cons, List.not_mem_nil, or_false, not_or] at hc
  obtain ⟨hangle, hparen, hdollar, hsingle, hdouble, htick, hpoint⟩ := hc
  refine ⟨?_, ?_, ?_, ?_, ?_⟩
  · have hheader : heredocHeader? (c :: s) = none := by
      unfold heredocHeader?
      split
      · next h => exact absurd (List.cons.inj h).1 hangle
      · rfl
    rw [heredoc?, hheader]
    rfl
  · unfold cast?
    split
    · next h => exact absurd (List.cons.inj h).1 hparen
    · rfl
  · unfold dollarName?
    split
    · next h => exact absurd (List.cons.inj h).1 hdollar
    · rfl
  · simp [quotedString?, isQuote, hsingle, hdouble, htick]
  · unfold pointNumber?
    split
    · next h => exact absurd (List.cons.inj h).1 hpoint
    · rfl

/-- What may be in a name begins no trivia, and nothing that is read before numbers and names. -/
theorem isNameContinue_head (hc : isNameContinue c = true) (s : List Char) :
    first? (c :: s) = none ∧ heredoc? (c :: s) = none ∧ cast? (c :: s) = none ∧
      dollarName? (c :: s) = none ∧ quotedString? (c :: s) = none ∧
      pointNumber? (c :: s) = none := by
  have hne (d : Char) (hd : isNameContinue d = false) : c ≠ d := by
    rintro rfl
    rw [hc] at hd
    cases hd
  refine ⟨?_, others_none ?_ s⟩
  · simp [first_eq_none, TriviaScan.begins, isBlank, hne ' ' (by decide), hne '\t' (by decide),
      hne '\n' (by decide), hne '\r' (by decide), hne '#' (by decide), hne '/' (by decide)]
  · intro hspecial
    simp only [List.mem_cons, List.not_mem_nil, or_false] at hspecial
    rcases hspecial with rfl | rfl | rfl | rfl | rfl | rfl | rfl <;> cases hc

/-- What begins like a name is one. -/
theorem code_name (hc : isNameStart c = true) (cs : List Char) :
    code (c :: cs) = name (c :: cs) := by
  obtain ⟨-, h₂, h₃, h₄, h₅, h₆⟩ := isNameContinue_head (c := c) (by simp [isNameContinue, hc]) cs
  simp [code, h₂, h₃, h₄, h₅, h₆, hc, isDigit_eq_false hc]

theorem keywords_nameLike : Kind.keywords.all (fun p => p.2.isNameLike) = true := by
  decide +kernel

theorem isNameLike_keyword (word : List Char) :
    ((Kind.keyword? word).getD .name).isNameLike = true := by
  cases hk : Kind.keyword? word with
  | none => rfl
  | some k => exact List.all_eq_true.mp keywords_nameLike _ (Kind.mem_keywords hk)

/-- A name is a word, a keyword too. -/
theorem isWord_name (hs : s ≠ []) (h : nameLength s = s.length) :
    IsWord ((Kind.keyword? s).getD .name) s := by
  obtain ⟨c, s, rfl, hc, -⟩ := isName_of_nameLength hs h
  obtain ⟨hfirst, -⟩ := isNameContinue_head (c := c) (by simp [isNameContinue, hc]) s
  have hk : ((Kind.keyword? (c :: s)).getD .name).isNameLike = true := isNameLike_keyword _
  refine ⟨?_, Option.isNone_iff_eq_none.mpr hfirst, ?_, ?_, ?_, ?_⟩
  · rw [code_name hc, name, h, List.take_length]
  all_goals
    intro hkind
    rw [hkind] at hk
    cases hk

/-- Digits, single underscores between them allowed, are a word. -/
theorem isWord_number (hc : c.isDigit = true)
    (h : digitsLength Char.isDigit (c :: s) = s.length + 1) : IsWord .intNumber (c :: s) := by
  obtain ⟨h₁, h₂, h₃, h₄, h₅, -⟩ := isNameContinue_head (c := c) (by simp [isNameContinue, hc]) s
  have hcode : code (c :: s) = number (c :: s) := by
    simp [code, h₂, h₃, h₄, h₅, hc]
  have hradix : radixLength? (c :: s) = none := by
    cases s with
    | nil =>
      unfold radixLength?
      split <;> simp_all
    | cons r s =>
    cases s with
    | nil =>
      unfold radixLength?
      split <;> simp_all
    | cons d s =>
      have hr : r.isDigit = true ∨ r = '_' := by
        by_contra hr
        simp only [not_or, Bool.not_eq_true] at hr
        simp [digitsLength, digitsFrom, hc, hr.1, hr.2] at h
      have hnone : radixDigit? r = none := by
        unfold radixDigit?
        split <;> simp_all
      unfold radixLength?
      split
      · next he =>
        simp only [List.cons.injEq] at he
        obtain ⟨-, rfl, -⟩ := he
        rw [hnone]
        rfl
      · rfl
  refine ⟨?_, Option.isNone_iff_eq_none.mpr h₁, by decide, by decide, by decide, by decide⟩
  simp [hcode, number, hradix, h, fractionLength, exponentLength]

/-! ## Before other texts than blanks -/

theorem nameLength_append (hs : s ≠ []) (h : nameLength s = s.length)
    (hrest : ∀ c ∈ rest.head?, isNameContinue c = false) :
    nameLength (s ++ rest) = s.length ∧ ∃ c cs, s = c :: cs ∧ isNameStart c = true := by
  have hname := isName_of_nameLength hs h
  obtain ⟨c, cs, hcons, hc, -⟩ := id hname
  exact ⟨hname.nameLength_append hrest, c, cs, hcons, hc⟩

/-- A name stands before all that does not go on with it. -/
theorem stands_name (hs : s ≠ []) (h : nameLength s = s.length)
    (hrest : ∀ c ∈ rest.head?, isNameContinue c = false) :
    Stands ((Kind.keyword? s).getD .name) s rest := by
  obtain ⟨hlength, c, cs, rfl, hc⟩ := nameLength_append hs h hrest
  obtain ⟨hfirst, -⟩ := isNameContinue_head (c := c) (by simp [isNameContinue, hc]) (cs ++ rest)
  have hk := isNameLike_keyword (c :: cs)
  refine ⟨?_, hfirst, ?_, ?_⟩
  · rw [List.cons_append, code_name hc, name, ← List.cons_append, hlength, List.take_left]
  all_goals
    intro hkind
    rw [hkind] at hk
    cases hk

/-- A variable stands before all that does not go on with its name. -/
theorem stands_variable (hs : s ≠ []) (h : nameLength s = s.length)
    (hrest : ∀ c ∈ rest.head?, isNameContinue c = false) :
    Stands .variableName ('$' :: s) rest := by
  have hlength := (nameLength_append hs h hrest).1
  have hpos : 0 < s.length := List.length_pos_iff.mpr hs
  refine ⟨?_, rfl, nofun, nofun⟩
  rw [List.cons_append]
  simp [code, heredoc?, heredocHeader?, cast?, dollarName?, hlength, hpos]

/-- A parenthesis stands before all that makes no cast of it. -/
theorem stands_paren (h : cast? ('(' :: rest) = none) : Stands .leftParen ['('] rest := by
  refine ⟨?_, rfl, nofun, nofun⟩
  rw [List.singleton_append, code_operator rfl rfl h]
  rfl

/-! ## Kinds of tokens in code -/

/-- Kinds of tokens in code that are neither names nor variables nor operators. -/
def isLiteral : Kind → Bool
  | .string | .cast | .intNumber | .floatNumber | .skipped | .eof => true
  | _ => false

theorem isLiteral_kind {l : Lexeme} (hl : heredoc? cs = some l ∨ cast? cs = some l ∨
    quotedString? cs = some l ∨ pointNumber? cs = some l) : isLiteral l.kind = true := by
  rcases hl with hl | hl | hl | hl
  · simp only [heredoc?, Option.bind_eq_bind, Option.bind_eq_some_iff] at hl
    obtain ⟨header, -, hl⟩ := hl
    split at hl <;> cases hl <;> rfl
  · unfold cast? at hl
    split at hl
    · simp only [Option.ite_none_right_eq_some] at hl
      cases hl.2
      rfl
    · cases hl
  · unfold quotedString? at hl
    split at hl
    · cases hl
    · simp only [Option.ite_none_right_eq_some] at hl
      obtain ⟨-, hl⟩ := hl
      split at hl <;> cases hl <;> rfl
  · unfold pointNumber? at hl
    split at hl
    · simp only [Option.ite_none_right_eq_some] at hl
      cases hl.2
      rfl
    · cases hl

theorem isLiteral_number (cs : List Char) : isLiteral (number cs).kind = true := by
  unfold number
  split
  · rfl
  · dsimp only
    split <;> rfl

theorem operator_kinds (cs : List Char) :
    isLiteral (operator cs).kind = true ∨ (operator cs).kind ∈ spellings.map Prod.snd := by
  unfold operator
  split
  · exact .inr (show Kind.closeTag ∈ _ by decide)
  · next l _ hl =>
    obtain ⟨p, hp, -, rfl⟩ := exists_spelling hl
    exact .inr (List.mem_map_of_mem hp)
  · exact .inl rfl

/-- A token in code is a literal, a variable, an operator, or a name with a letter at its
beginning. -/
theorem code_kinds (cs : List Char) : isLiteral (code cs).kind = true ∨
    dollarName? cs = some (code cs) ∨
    (code cs = operator cs ∧ (code cs).kind ∈ spellings.map Prod.snd) ∨
    (code cs).kind.isNameLike = true ∧ ∃ c ds, cs = c :: ds ∧ isNameStart c = true := by
  cases cs with
  | nil => exact .inl rfl
  | cons c cs =>
    simp only [code]
    split
    · next l hl => exact .inl (isLiteral_kind (.inl hl))
    split
    · next l hl => exact .inl (isLiteral_kind (.inr (.inl hl)))
    split
    · next l hl => exact .inr (.inl hl)
    split
    · next l hl => exact .inl (isLiteral_kind (.inr (.inr (.inl hl))))
    split
    · exact .inl (isLiteral_number _)
    split
    · next l hl => exact .inl (isLiteral_kind (.inr (.inr (.inr hl))))
    split
    · next hc => exact .inr (.inr (.inr ⟨isNameLike_keyword _, c, cs, rfl, hc⟩))
    split
    · exact .inl rfl
    · exact (operator_kinds _).imp_right fun hk => .inr (.inl ⟨rfl, hk⟩)

/-- A variable is a dollar sign and a name. -/
theorem exists_dollarName {l : Lexeme} (h : dollarName? s = some l) : ∃ cs, s = '$' :: cs ∧
    0 < nameLength cs ∧ l = ⟨.variableName, nameLength cs + 1, none⟩ := by
  unfold dollarName? at h
  split at h
  · next cs =>
    rw [Option.ite_none_right_eq_some] at h
    exact ⟨cs, rfl, h.1, (Option.some.inj h.2).symm⟩
  · cases h

theorem spellings_operators : (spellings.map Prod.snd).all
    (fun k => !k.isNameLike && k != .variableName) = true := by
  decide +kernel

theorem IsWord.eq_variable (h : IsWord .variableName s) :
    ∃ cs, s = '$' :: cs ∧ cs ≠ [] ∧ nameLength cs = cs.length := by
  have hkinds := code_kinds s
  rw [h.1] at hkinds
  rcases hkinds with hk | hk | ⟨-, hk⟩ | ⟨hk, -⟩
  · cases hk
  · obtain ⟨cs, rfl, hpos, hl⟩ := exists_dollarName hk
    have hlength : cs.length = nameLength cs := Nat.succ.inj (congrArg Lexeme.length hl)
    refine ⟨cs, rfl, ?_, hlength.symm⟩
    rintro rfl
    exact Nat.lt_irrefl 0 hpos
  · simpa using List.all_eq_true.mp spellings_operators _ hk
  · cases hk

/-- A word of a kind that may be a name is one. -/
theorem IsWord.nameLength_eq (h : IsWord kind s) (hk : kind.isNameLike = true) :
    nameLength s = s.length ∧ (Kind.keyword? s).getD .name = kind := by
  have hkinds := code_kinds s
  rw [h.1] at hkinds
  rcases hkinds with hother | hother | ⟨-, hother⟩ | ⟨-, c, cs, rfl, hc⟩
  · dsimp only [isLiteral] at hother
    split at hother <;> first | cases hk | cases hother
  · obtain ⟨cs, -, -, hl⟩ := exists_dollarName hother
    rw [show kind = .variableName from congrArg Lexeme.kind hl] at hk
    cases hk
  · simpa [hk] using List.all_eq_true.mp spellings_operators _ hother
  · have hname := code_name hc cs
    rw [h.1, name] at hname
    have hlength : nameLength (c :: cs) = (c :: cs).length := (congrArg Lexeme.length hname).symm
    rw [hlength, List.take_length] at hname
    exact ⟨hlength, (congrArg Lexeme.kind hname).symm⟩

/-! ### Words before other texts -/

/-- A word of a kind that may be a name stands before all that does not go on with it. -/
theorem IsWord.stands_name (h : IsWord kind s) (hk : kind.isNameLike = true)
    (hrest : ∀ c ∈ rest.head?, isNameContinue c = false) : Stands kind s rest := by
  obtain ⟨hlength, hkind⟩ := h.nameLength_eq hk
  rw [← hkind]
  exact Lexeme.stands_name h.ne_nil hlength hrest

theorem IsWord.stands_variable (h : IsWord .variableName s)
    (hrest : ∀ c ∈ rest.head?, isNameContinue c = false) : Stands .variableName s rest := by
  obtain ⟨cs, rfl, hne, hlength⟩ := h.eq_variable
  exact Lexeme.stands_variable hne hlength hrest

/-! ## What is no cast -/

/-- A word that begins like a name is one. -/
theorem IsWord.eq_name (h : IsWord kind (c :: s)) (hc : isNameStart c = true) :
    kind.isNameLike = true ∧ nameLength (c :: s) = s.length + 1 := by
  have hcode := code_name hc s
  rw [h.1, name] at hcode
  have hkind : kind = _ := congrArg Lexeme.kind hcode
  exact ⟨hkind ▸ isNameLike_keyword _, (congrArg Lexeme.length hcode).symm⟩

/-- One blank stands before a word. -/
theorem IsWord.blankLength_eq (h : IsWord kind s) : blankLength (' ' :: (s ++ rest)) = 1 := by
  obtain ⟨c, s, rfl⟩ := List.exists_cons_of_ne_nil h.ne_nil
  rw [blankLength, List.takeWhile_cons_of_pos rfl, List.cons_append,
    List.takeWhile_cons_of_neg (by simp [h.isBlank_head])]
  rfl

/-- A parenthesis before a word that does not begin like a name begins no cast. -/
theorem IsWord.cast_other (h : IsWord kind (c :: s)) (hc : isNameStart c = false) :
    cast? ('(' :: ' ' :: (c :: s ++ rest)) = none := by
  have hname : nameLength ((' ' :: (c :: s ++ rest)).drop 1) = 0 := if_neg (by simp [hc])
  have htypes : castTypes.contains (String.ofList []) = false := by decide
  simp only [cast?, h.blankLength_eq, hname, List.take_zero, List.map_nil, htypes]
  rfl

/-- A parenthesis before something else than a name begins no cast. -/
theorem IsWord.cast_blank (h : IsWord kind s) (hk : kind.isNameLike = false) :
    cast? ('(' :: ' ' :: (s ++ rest)) = none := by
  obtain ⟨c, s, rfl⟩ := List.exists_cons_of_ne_nil h.ne_nil
  refine h.cast_other ?_
  rw [Bool.eq_false_iff]
  intro hc
  rw [(h.eq_name hc).1] at hk
  cases hk

theorem spellings_rightParen :
    spellings.all (fun p => p.1.head? != some ')' || p.2 == .rightParen) = true := by
  decide +kernel

/-- A parenthesis before two words begins no cast if the second one is not its partner. -/
theorem IsWord.cast_words {kind' : Kind} {s' : List Char} (h : IsWord kind s) (h' : IsWord kind' s')
    (hk : kind' ≠ .rightParen) : cast? ('(' :: ' ' :: (s ++ ' ' :: (s' ++ rest))) = none := by
  obtain ⟨c, s, rfl⟩ := List.exists_cons_of_ne_nil h.ne_nil
  obtain ⟨c', s', rfl⟩ := List.exists_cons_of_ne_nil h'.ne_nil
  have hblanks : blankLength (' ' :: (c' :: s' ++ rest)) = 1 := h'.blankLength_eq
  by_cases hc : isNameStart c = true
  · have hname : nameLength (c :: s ++ ' ' :: (c' :: s' ++ rest)) = (c :: s).length := by
      rw [nameLength_break rfl, (h.eq_name hc).2, List.length_cons]
    have hne : c' ≠ ')' := by
      rintro rfl
      have hp := List.all_eq_true.mp spellings_rightParen _ (h'.eq_spelling (by decide))
      simp [hk] at hp
    have hdrop : (' ' :: (c :: s ++ ' ' :: (c' :: s' ++ rest))).drop (1 + (c :: s).length) =
        ' ' :: (c' :: s' ++ rest) := by
      rw [Nat.add_comm, List.drop_succ_cons, List.drop_left]
    have hdrop' : (' ' :: (c :: s ++ ' ' :: (c' :: s' ++ rest))).drop (1 + (c :: s).length + 1) =
        c' :: s' ++ rest := by
      rw [← List.drop_drop, hdrop]
      rfl
    have hnone : ((c' :: s' ++ rest).head? == some ')') = false := by simpa using hne
    simp only [cast?, h.blankLength_eq, List.drop_one, List.tail_cons, hname, hdrop, hblanks,
      hdrop', hnone, Bool.and_false]
    rfl
  · exact h.cast_other (Bool.eq_false_iff.mpr hc)

/-- A parenthesis right before something that begins neither a name nor a blank begins no cast. -/
theorem cast_symbol (hc : isNameStart c = false) (hblank : isBlank c = false) (cs : List Char) :
    cast? ('(' :: c :: cs) = none := by
  have hblanks : blankLength (c :: cs) = 0 := by simp [blankLength, hblank]
  have hname : nameLength (c :: cs) = 0 := if_neg (by simp [hc])
  have htypes : castTypes.contains (String.ofList []) = false := by decide
  simp only [cast?, hblanks, List.drop_zero, hname, List.take_zero, List.map_nil, htypes]
  rfl

/-- A parenthesis right before a name and a colon begins no cast. -/
theorem IsWord.cast_label (h : IsWord kind s) (hk : kind.isNameLike = true) :
    cast? ('(' :: (s ++ ':' :: rest)) = none := by
  have hcolon : ∀ c ∈ (':' :: rest).head?, isNameContinue c = false := by
    simp only [List.head?_cons, Option.mem_some_iff]
    rintro _ rfl
    decide
  obtain ⟨hlength, c, cs, rfl, hc⟩ := nameLength_append h.ne_nil (h.nameLength_eq hk).1 hcolon
  have hblanks : blankLength (c :: cs ++ ':' :: rest) = 0 := by
    simp [blankLength, h.isBlank_head]
  have hdrop : (c :: cs ++ ':' :: rest).drop (c :: cs).length = ':' :: rest := List.drop_left
  have hafter : blankLength (':' :: rest) = 0 := rfl
  have hclose : ((':' :: rest).head? == some ')') = false := rfl
  simp only [cast?, hblanks, List.drop_zero, hlength, Nat.zero_add, hdrop, hafter, Nat.add_zero,
    hclose, Bool.and_false]
  rfl

end Lexeme
end PhpSyntax
