import PhpSyntax.Proofs.Strings

/-!
Operators as the longest match. Diagnostics quote the spelling of every kind of punctuation and of
every operator; what is read is the longest of these spellings that the text begins with, though the
lexer only tries the ways to go on from a character one after the other.
-/
namespace PhpSyntax

/-- A diagnostic quotes the spelling of a kind, and nothing else. -/
theorem Kind.display_eq_quoted_iff {k : Kind} {s t : String} (h : k.spelling? = some t) :
    k.display = "'" ++ s ++ "'" ↔ t = s := by
  rw [display.eq_def, h]
  constructor
  · intro heq
    have hlist := congrArg String.toList heq
    simp only [String.toList_append] at hlist
    exact String.toList_inj.mp (List.append_cancel_left (List.append_cancel_right hlist))
  · rintro rfl
    rfl

namespace Lexeme

/-- The spellings that are told apart: what diagnostics quote for an operator or for the close tag,
and the second spelling of inequality. -/
inductive Spelling : Kind → List Char → Prop where
  | quoted {k s} (kind : k.isOperator = true ∨ k = .closeTag)
    (display : k.display = "'" ++ String.ofList s ++ "'") : Spelling k s
  | unequal : Spelling .bangEq ['<', '>']

variable {k : Kind} {s cs : List Char} {l : Lexeme}

theorem operators_spelled :
    Kind.all.all (fun k => !k.isOperator || k.spelling?.isSome) = true := by
  decide +kernel

theorem display_eq_iff (h : k.isOperator = true ∨ k = .closeTag) :
    k.display = "'" ++ String.ofList s ++ "'" ↔ k.spelling? = some (String.ofList s) := by
  have hspelled : k.spelling?.isSome = true := by
    rcases h with h | rfl
    · simpa [h] using List.all_eq_true.mp operators_spelled k (Kind.mem_all k)
    · rfl
  obtain ⟨t, ht⟩ := Option.isSome_iff_exists.mp hspelled
  rw [Kind.display_eq_quoted_iff ht, ht, Option.some_inj]

theorem spelling_iff : Spelling k s ↔ (s, k) ∈ spellings := by
  simp only [spellings, List.mem_append, List.mem_filterMap, List.mem_filter, Kind.mem_all,
    true_and, List.mem_cons, List.not_mem_nil, or_false]
  constructor
  · rintro (⟨hkind, hdisplay⟩ | _)
    · have hspelled := (display_eq_iff hkind).mp hdisplay
      rcases hkind with hkind | rfl
      · exact .inl ⟨k, hkind, by simp [hspelled]⟩
      · have hlist : "?>".toList = s :=
          (congrArg String.toList (Option.some.inj hspelled)).trans String.toList_ofList
        rw [hlist]
        exact .inr (.inr rfl)
    · exact .inr (.inl rfl)
  · rintro (⟨k', hkind, hspelled⟩ | h | h)
    · obtain ⟨t, ht, heq⟩ := Option.map_eq_some_iff.mp hspelled
      obtain ⟨rfl, rfl⟩ := Prod.mk.inj heq
      refine .quoted (.inl hkind) ((display_eq_iff (.inl hkind)).mpr ?_)
      rw [ht, String.ofList_toList]
    · obtain ⟨rfl, rfl⟩ := Prod.mk.inj h
      exact .unequal
    · obtain ⟨rfl, rfl⟩ := Prod.mk.inj h
      exact .quoted (.inr rfl) rfl

theorem spellings_continued : spellings.all (fun p =>
    p.1.head?.any fun c => (p.1.tail, p.2) ∈ continuations c) = true := by
  decide +kernel

/-- No spelling is tried behind one that it goes on from. -/
theorem continuations_pairwise (c : Char) :
    (continuations c).Pairwise fun p q => ¬p.1 <+: q.1 := by
  unfold continuations
  split <;> decide

theorem mem_continuations (h : Spelling k s) (hbegins : s <+: cs) : ∃ c more tail, s = c :: more ∧
    cs = c :: tail ∧ (more, k) ∈ continuations c ∧ more <+: tail := by
  have hcontinued := List.all_eq_true.mp spellings_continued _ (spelling_iff.mp h)
  cases s with
  | nil => cases hcontinued
  | cons c more =>
    obtain ⟨tail, rfl⟩ := hbegins
    exact ⟨c, more, more ++ tail, rfl, rfl, of_decide_eq_true hcontinued, List.prefix_append ..⟩

/-- The first spelling in the order in which they are tried is the longest one. -/
theorem longest_firstSpelling (h : firstSpelling? cs = some l) :
    Longest Spelling cs l.kind (cs.take l.length) := by
  obtain ⟨c, tail, p, rfl, hfind, rfl⟩ := exists_continuation h
  obtain ⟨hp, before, after, hsplit, hbefore⟩ := List.find?_eq_some_iff_append.mp hfind
  have hbegins : p.1 <+: tail := List.isPrefixOf_iff_prefix.mp hp
  have hspelled := List.all_eq_true.mp (continuations_spelled c) p (by simp [hsplit])
  have hmatched : Spelling p.2 (c :: p.1) := spelling_iff.mpr (of_decide_eq_true hspelled)
  have htake : (c :: tail).take (p.1.length + 1) = c :: p.1 := by
    rw [List.take_succ_cons, ← List.prefix_iff_eq_take.mp hbegins]
  rw [htake]
  refine ⟨(List.cons_prefix_cons.mpr ⟨rfl, hbegins⟩), hmatched, fun k other hother hwithin => ?_⟩
  obtain ⟨d, more, tail, rfl, hcons, hmem, hmore⟩ := mem_continuations hother hwithin
  obtain ⟨rfl, rfl⟩ := List.cons.inj hcons
  have hpairwise := continuations_pairwise c
  rw [hsplit] at hmem hpairwise
  obtain ⟨-, hlater, -⟩ := List.pairwise_append.mp hpairwise
  rcases List.mem_append.mp hmem with hmem | hmem
  · -- what is tried before it is not what the text begins with
    have hnot := hbefore _ hmem
    rw [List.isPrefixOf_iff_prefix.mpr hmore] at hnot
    cases hnot
  rcases List.mem_cons.mp hmem with rfl | hmem
  · exact .inr ⟨rfl, rfl⟩
  · -- what is tried behind it does not go on from it, so it is shorter
    refine .inl (Nat.succ_lt_succ (Nat.lt_of_not_le fun hle => ?_))
    have hpre := List.prefix_of_prefix_length_le hbegins hmore hle
    exact (List.pairwise_cons.mp hlater).1 _ hmem hpre

theorem isSome_firstSpelling (h : Spelling k s) (hbegins : s <+: cs) :
    (firstSpelling? cs).isSome = true := by
  obtain ⟨c, more, tail, rfl, rfl, hmem, hmore⟩ := mem_continuations h hbegins
  rw [firstSpelling?, Option.isSome_map, List.find?_isSome]
  exact ⟨_, hmem, List.isPrefixOf_iff_prefix.mpr hmore⟩

/-! ## What is read -/

/-- A token that is the longest spelling. A close tag takes one line break along. -/
inductive ReadsOperator (cs : List Char) : Kind → (text : List Char) → Prop where
  | plain {kind text} (longest : Longest Spelling cs kind text) (plain : kind ≠ .closeTag) :
    ReadsOperator cs kind text
  | closeTag {tag lineBreak after} (longest : Longest Spelling cs .closeTag tag)
    (split : cs = tag ++ (lineBreak ++ after)) (breaks : BreaksLine after lineBreak) :
    ReadsOperator cs .closeTag (tag ++ lineBreak)

theorem reads_operator (h : firstSpelling? cs = some l) :
    ReadsOperator cs (operator cs).kind (cs.take (operator cs).length) := by
  have hlongest := longest_firstSpelling h
  unfold operator
  split
  · next n _ hl =>
    obtain rfl := Option.some.inj (h.symm.trans hl)
    obtain ⟨lineBreak, after, hafter, hbreaks, hlength⟩ := exists_lineBreak (cs.drop n)
    have hsplit : cs = cs.take n ++ (lineBreak ++ after) := by
      rw [← hafter, List.take_append_drop]
    have htake : cs.take (n + lineBreakLength (cs.drop n)) = cs.take n ++ lineBreak := by
      rw [List.take_add, hlength, hafter, List.take_left]
    rw [htake]
    exact .closeTag hlongest hsplit hbreaks
  · next l' hclose hl =>
    obtain rfl := Option.some.inj (h.symm.trans hl)
    refine .plain hlongest fun hkind => ?_
    obtain ⟨kind, n, problem⟩ := l
    obtain rfl : kind = .closeTag := hkind
    exact hclose n problem rfl
  · next hnone =>
    rw [h] at hnone
    cases hnone

theorem ReadsOperator.longest (h : ReadsOperator cs k s) (hk : k ≠ .closeTag) :
    Longest Spelling cs k s := by
  cases h with
  | plain longest => exact longest
  | closeTag => exact absurd rfl hk

theorem operators_plain : Kind.all.all (fun k => !k.isOperator ||
    (!isLiteral k && !k.isNameLike && k != .variableName && k != .closeTag)) = true := by
  decide +kernel

/-- Only the operators that are tried give an operator. -/
theorem longest_code_operator (h : (code cs).kind.isOperator = true) :
    Longest Spelling cs (code cs).kind (cs.take (code cs).length) := by
  have hplain := List.all_eq_true.mp operators_plain _ (Kind.mem_all (code cs).kind)
  simp only [h, Bool.not_true, Bool.false_or, Bool.and_eq_true, Bool.not_eq_true',
    bne_iff_ne] at hplain
  obtain ⟨⟨⟨hliteral, hname⟩, hvariable⟩, hclose⟩ := hplain
  rcases code_kinds cs with hk | hk | ⟨hcode, -⟩ | ⟨hk, -⟩
  · rw [hliteral] at hk
    cases hk
  · obtain ⟨ds, -, -, hl⟩ := exists_dollarName hk
    exact absurd (congrArg Lexeme.kind hl) hvariable
  · rw [hcode] at h hclose ⊢
    cases hl : firstSpelling? cs with
    | none =>
      rw [operator, hl] at h
      cases h
    | some l => exact (reads_operator hl).longest hclose
  · rw [hname] at hk
    cases hk

/-- A cast: a type in parentheses, letter case ignored, blanks allowed around it. -/
def IsCast (text : List Char) : Prop :=
  ∃ before type after, text = '(' :: (before ++ (type ++ (after ++ [')']))) ∧
    (∀ c ∈ before, isBlank c = true) ∧ String.ofList (type.map Char.toLower) ∈ castTypes ∧
    ∀ c ∈ after, isBlank c = true

theorem exists_cast (h : cast? cs = some l) :
    ∃ text more, cs = text ++ more ∧ IsCast text ∧ l = ⟨.cast, text.length, none⟩ := by
  unfold cast? at h
  split at h
  · next cs =>
    simp only [Option.ite_none_right_eq_some, Bool.and_eq_true, beq_iff_eq] at h
    obtain ⟨⟨htype, hclose⟩, h⟩ := h
    obtain ⟨before, rest, rfl, hbefore, hlength, -⟩ := exists_blanks cs
    simp only [hlength, List.drop_left, Nat.add_assoc, List.drop_length_add_append]
      at htype hclose h
    obtain ⟨after, tail, htail, hafter, hblanks, -⟩ := exists_blanks (rest.drop (nameLength rest))
    rw [hblanks, ← List.drop_drop, htail, List.drop_left] at hclose
    obtain ⟨more, rfl⟩ := List.head?_eq_some_iff.mp hclose
    have hrest : rest = rest.take (nameLength rest) ++ (after ++ ')' :: more) := by
      rw [← htail, List.take_append_drop]
    have hname : (rest.take (nameLength rest)).length = nameLength rest :=
      List.length_take_of_le (nameLength_le rest)
    refine ⟨'(' :: (before ++ (rest.take (nameLength rest) ++ (after ++ [')']))), more, ?_,
      ⟨before, _, after, rfl, hbefore, List.contains_iff_mem.mp htype, hafter⟩, ?_⟩
    · nth_rewrite 1 [hrest]
      simp
    · rw [← Option.some.inj h, hblanks]
      simp [hname]
      omega
  · cases h

/-- The first line of a heredoc, a cast, a variable or a number: what begins like an operator and is
read before it. -/
def BeginsOther (cs : List Char) : Prop :=
  (∃ label header body, IsHeader label header ∧ cs = header ++ body) ∨
  (∃ text more, IsCast text ∧ cs = text ++ more) ∨
  (∃ c more, cs = '$' :: c :: more ∧ isNameStart c = true) ∨
  ∃ c more, cs = '.' :: c :: more ∧ c.isDigit = true

theorem spellings_heads : spellings.all (fun p => p.1.head?.all fun c =>
    !isQuote c && !c.isDigit && !isNameStart c && !isUnrecognized c) = true := by
  decide +kernel

theorem code_of_spelling (h : Spelling k s) (hbegins : s <+: cs) (hother : ¬BeginsOther cs) :
    code cs = operator cs := by
  obtain ⟨c, more, tail, rfl, rfl, -⟩ := mem_continuations h hbegins
  have hhead := List.all_eq_true.mp spellings_heads _ (spelling_iff.mp h)
  simp only [List.head?_cons, Option.all_some, Bool.and_eq_true, Bool.not_eq_true'] at hhead
  obtain ⟨⟨⟨hquote, hdigit⟩, hname⟩, hunrecognized⟩ := hhead
  have hheredoc : heredoc? (c :: tail) = none := heredoc_none fun hheader => hother (.inl hheader)
  have hcast : cast? (c :: tail) = none := by
    refine Option.eq_none_iff_forall_ne_some.mpr fun l hl => hother (.inr (.inl ?_))
    obtain ⟨text, more, hsplit, hcast, -⟩ := exists_cast hl
    exact ⟨text, more, hcast, hsplit⟩
  have hvariable : dollarName? (c :: tail) = none := by
    refine Option.eq_none_iff_forall_ne_some.mpr fun l hl => hother (.inr (.inr (.inl ?_)))
    obtain ⟨ds, hsplit, hpos, -⟩ := exists_dollarName hl
    obtain ⟨-, more, rfl, ⟨d, ds, rfl, hd, -⟩, -⟩ := exists_name hpos
    exact ⟨d, ds ++ more, hsplit, hd⟩
  have hpoint : pointNumber? (c :: tail) = none := by
    refine Option.eq_none_iff_forall_ne_some.mpr fun l hl => hother (.inr (.inr (.inr ?_)))
    obtain ⟨d, more, hsplit, hdigit, -⟩ := exists_pointNumber hl
    exact ⟨d, more, hsplit, hdigit⟩
  have hquoted : quotedString? (c :: tail) = none := by
    rw [quotedString?, hquote]
    rfl
  simp [code, hheredoc, hcast, hvariable, hquoted, hdigit, hpoint, hname, hunrecognized]

end Lexeme

namespace Place

open Lexeme

/-- A token in code that is punctuation or an operator is the longest spelling that the text begins
with, behind the trivia. And where the text begins with a spelling and with nothing that is read
before, that is what the token is. -/
theorem next_operator (dialect : Dialect) {p : Place} (hmode : p.mode = .code) :
    ((p.next dialect).1.kind.isOperator = true →
      Longest Spelling (LeadingTrivia.read p.offset p.rest).rest (p.next dialect).1.kind
        (p.next dialect).1.text) ∧
    ∀ k s, Spelling k s → s <+: (LeadingTrivia.read p.offset p.rest).rest →
      ¬BeginsOther (LeadingTrivia.read p.offset p.rest).rest →
      ReadsOperator (LeadingTrivia.read p.offset p.rest).rest (p.next dialect).1.kind
        (p.next dialect).1.text := by
  obtain ⟨hkind, htext⟩ := next_lexeme dialect hmode
  rw [hkind, htext]
  generalize (LeadingTrivia.read p.offset p.rest).rest = cs
  constructor
  · exact longest_code_operator
  · intro k s hspelling hbegins hother
    obtain ⟨l, hl⟩ := Option.isSome_iff_exists.mp (isSome_firstSpelling hspelling hbegins)
    rw [code_of_spelling hspelling hbegins hother]
    exact reads_operator hl

/-- A shift with an assignment is one operator, and a close tag has the line break behind it. -/
theorem next_operator_tag : (next {} ⟨5, .code, [' ', '<', '<', '=', '1']⟩).1 =
      ⟨5, [⟨.whitespace, 1⟩], .shlEq, ['<', '<', '='], none⟩ ∧
    Longest Spelling ['<', '<', '=', '1'] .shlEq ['<', '<', '='] ∧
    (next {} ⟨5, .code, ['?', '>', '\n', '<']⟩).1 = ⟨5, [], .closeTag, ['?', '>', '\n'], none⟩ ∧
    ReadsOperator ['?', '>', '\n', '<'] .closeTag ['?', '>', '\n'] := by
  have hbegins : ¬BeginsOther ['?', '>', '\n', '<'] := by
    rintro (⟨_, _, _, ⟨_, _, _, rfl, -⟩, hsplit⟩ | ⟨_, _, ⟨_, _, _, rfl, -⟩, hsplit⟩ |
      ⟨_, _, hsplit, -⟩ | ⟨_, _, hsplit, -⟩) <;>
    · obtain ⟨h, -⟩ := List.cons.inj hsplit
      cases h
  refine ⟨by decide +kernel, ?_, by decide +kernel, ?_⟩
  · exact (next_operator {} (p := ⟨5, .code, [' ', '<', '<', '=', '1']⟩) rfl).1 rfl
  · exact (next_operator {} (p := ⟨5, .code, ['?', '>', '\n', '<']⟩) rfl).2 .closeTag ['?', '>']
      (.quoted (.inr rfl) rfl) ⟨['\n', '<'], rfl⟩ hbegins

end Place
end PhpSyntax
