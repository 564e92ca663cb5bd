import PhpSyntax.Proofs.Gaps

/-!
Names and keywords. The table of reserved words, the order of kinds and the words of diagnostics
agree: a word is a keyword if and only if a diagnostic writes it in quotes for a kind that is one.
-/
namespace PhpSyntax

namespace Kind

variable {word : List Char} {k : Kind}

/-- Only ASCII letters change, and they stay ASCII. -/
theorem utf8Size_toLower (c : Char) : c.toLower.utf8Size = c.utf8Size := by
  unfold Char.toLower
  split
  · next h =>
    simp only [ge_iff_le, UInt32.le_iff_toNat_le] at h
    have hsmall : c.val ≤ 127 := UInt32.le_iff_toNat_le.mpr (Nat.le_trans h.2 (by decide))
    have hlower : c.val + ('a'.val - 'A'.val) ≤ 127 := by
      rw [UInt32.le_iff_toNat_le, UInt32.toNat_add]
      exact Nat.le_trans (Nat.mod_le ..) (Nat.le_trans (Nat.add_le_add_right h.2 _) (by decide))
    rw [Char.utf8Size_eq_one_iff.mpr hlower, Char.utf8Size_eq_one_iff.mpr hsmall]
  · rfl

theorem width_toLower (word : List Char) :
    Text.width (word.map Char.toLower) = Text.width word := by
  induction word with
  | nil => rfl
  | cons c word ih => rw [List.map_cons, Text.width_cons, Text.width_cons, ih, utf8Size_toLower]

/-- What the table of reserved words has is a keyword, and a diagnostic writes it in quotes. -/
theorem keywords_displayed : keywords.all (fun p =>
    p.2.isKeyword && p.2.display == "'" ++ p.1 ++ "'") = true := by
  decide +kernel

/-- Every keyword has a spelling. The table has it under that, and it fits into 16 bytes. -/
theorem keywords_complete : all.all (fun k => !k.isKeyword || k.spelling?.any fun s =>
    keywords.lookup s == some k && Text.width s.toList ≤ 16) = true := by
  decide +kernel

theorem exists_spelling_of_isKeyword (h : k.isKeyword = true) : ∃ s, k.spelling? = some s ∧
    keywords.lookup s = some k ∧ Text.width s.toList ≤ 16 := by
  have hk := List.all_eq_true.mp keywords_complete k (mem_all k)
  rw [h, Bool.not_true, Bool.false_or] at hk
  cases hs : k.spelling? with
  | none =>
    rw [hs] at hk
    cases hk
  | some s => exact ⟨s, rfl, by simpa [hs] using hk⟩

/-- A word is a keyword if and only if it is what a diagnostic writes in quotes for that keyword. -/
theorem keyword_iff : keyword? word = some k ↔ k.isKeyword = true ∧
    k.display = "'" ++ String.ofList (word.map Char.toLower) ++ "'" := by
  constructor
  · intro h
    have hk := List.all_eq_true.mp keywords_displayed _ (mem_keywords h)
    simpa only [Bool.and_eq_true, beq_iff_eq] using hk
  · rintro ⟨hkeyword, hdisplay⟩
    obtain ⟨s, hs, hlookup, hwidth⟩ := exists_spelling_of_isKeyword hkeyword
    obtain rfl := (display_eq_quoted_iff hs).mp hdisplay
    rw [String.toList_ofList, width_toLower] at hwidth
    rw [keyword?, if_pos hwidth, hlookup]

end Kind

namespace Place

open Lexeme

/-- Where a name begins in code, the token is all of it. -/
theorem next_name (dialect : Dialect) {p : Place} (hmode : p.mode = .code) {c : Char}
    (hhead : (p.next dialect).1.text.head? = some c) (hc : isNameStart c = true) :
    IsName (p.next dialect).1.text ∧
      (∀ d ∈ (p.next dialect).2.rest.head?, isNameContinue d = false) ∧
      (p.next dialect).1.kind = (Kind.keyword? (p.next dialect).1.text).getD .name := by
  rw [head_next dialect hmode] at hhead
  obtain ⟨cs, hrest⟩ := List.head?_eq_some_iff.mp hhead
  have hpos : 0 < nameLength (c :: cs) := by
    rw [nameLength, if_pos hc]
    exact Nat.succ_pos _
  obtain ⟨word, after, hsplit, hword, hlength, hstop⟩ := exists_name hpos
  have hcode : code (c :: cs) = ⟨(Kind.keyword? word).getD .name, word.length, none⟩ := by
    rw [code_name hc, name, hlength, hsplit, List.take_left]
  have htext : (p.next dialect).1.text = word := by
    rw [(next_lexeme dialect hmode).2, hrest, hcode, hsplit, List.take_left]
  have hafter : (p.next dialect).2.rest = after := by
    have hdrop : (p.next dialect).2.rest = (LeadingTrivia.read p.offset p.rest).rest.drop
        (code (LeadingTrivia.read p.offset p.rest).rest).length := by
      simp [next, hmode]
    rw [hdrop, hrest, hcode, hsplit, List.drop_left]
  rw [htext, hafter, (next_lexeme dialect hmode).1, hrest, hcode]
  exact ⟨hword, hstop, rfl⟩

end Place

/-- Looking up a keyword is the inverse of writing one in a diagnostic, in any letter case. So a
token in code that begins with the first character of a name is as much of the text as goes on with
a name, and it is the keyword that this spells, else a name. -/
theorem keyword_lookup_inverse :
    (∀ word k, Kind.keyword? word = some k ↔ k.isKeyword = true ∧
      k.display = "'" ++ String.ofList (word.map Char.toLower) ++ "'") ∧
    ∀ dialect text front t back c, tokenize dialect text = front ++ t :: back →
      Mode.html.behind front = .code → t.text.head? = some c → Lexeme.isNameStart c = true →
      ∃ before after, text = before ++ (t.text ++ after) ∧ Text.width before = t.range.start ∧
        (∀ d ∈ t.text, Lexeme.isNameContinue d = true) ∧
        (∀ d ∈ after.head?, Lexeme.isNameContinue d = false) ∧
        t.kind = (Kind.keyword? t.text).getD .name := by
  refine ⟨fun word k => Kind.keyword_iff, ?_⟩
  intro dialect text front t back c hsplit hmode hhead hc
  obtain ⟨p, hgap, hp, rfl⟩ := exists_gap hsplit
  obtain ⟨hname, hstop, hkind⟩ := Place.next_name dialect (hp.trans hmode) hhead hc
  obtain ⟨outside, lead, -, -, htext, hwidth⟩ := hgap.exists_around dialect
  exact ⟨outside ++ lead, _, htext, hwidth, hname.continues, hstop, hkind⟩

/-- A keyword in mixed letter case before a parenthesis, and a name that only begins with one. -/
theorem keyword_lookup_inverse_mixed :
    Kind.keyword? ['E', 'l', 's', 'e', 'I', 'f'] = some .elseifKw ∧
    ∃ before after, "<?=ElseIf(ifs".toList = before ++ (['E', 'l', 's', 'e', 'I', 'f'] ++ after) ∧
      Text.width before = 3 ∧ (∀ d ∈ after.head?, Lexeme.isNameContinue d = false) ∧
      Kind.elseifKw = (Kind.keyword? ['E', 'l', 's', 'e', 'I', 'f']).getD .name := by
  have hsplit : tokenize {} "<?=ElseIf(ifs".toList =
      [⟨0, [], .openTagWithEcho, ['<', '?', '='], none⟩] ++
        ⟨3, [], .elseifKw, ['E', 'l', 's', 'e', 'I', 'f'], none⟩ ::
          [⟨9, [], .leftParen, ['('], none⟩, ⟨10, [], .name, ['i', 'f', 's'], none⟩,
            ⟨13, [], .eof, [], none⟩] := by
    decide +kernel
  obtain ⟨hinverse, hnames⟩ := keyword_lookup_inverse
  obtain ⟨before, after, htext, hwidth, -, hstop, hkind⟩ :=
    hnames _ _ _ _ _ 'E' hsplit rfl rfl rfl
  exact ⟨(hinverse _ _).mpr ⟨rfl, by decide +kernel⟩, before, after, htext, hwidth, hstop, hkind⟩

end PhpSyntax
