import PhpSyntax.Proofs.Words

/-!
Scanners before a line break. A token that nothing is wrong with and that a semicolon or a closing
brace comes after is the same whatever follows the line break: strings and heredocs have found their
end, and no heredoc, cast or close tag takes the line break along.
-/
namespace PhpSyntax

/-- A kind of token that ends a statement or a block. -/
def Kind.closes (k : Kind) : Bool := k == .semicolon || k == .rightBrace

theorem Kind.closes_cases {k : Kind} (h : k.closes = true) : k = .semicolon ∨ k = .rightBrace := by
  simpa [closes] using h

namespace Lexeme

/-- A character that ends a statement or a block. -/
def isCloser (c : Char) : Bool := c == ';' || c == '}'

variable {cs ds es : List Char} {label : List Char} {l : Lexeme}

theorem isCloser_cases {c : Char} (h : isCloser c = true) : c = ';' ∨ c = '}' := by
  simpa [isCloser] using h

theorem isNameContinue_closer {c : Char} (h : isCloser c = true) : isNameContinue c = false := by
  rcases isCloser_cases h with rfl | rfl <;> decide

theorem isBreak_newline : isBreak '\n' = true := by decide

/-! ## Heredocs -/

theorem dropWhile_blank_newline (cs ds : List Char) :
    (cs ++ '\n' :: ds).dropWhile isBlank = cs.dropWhile isBlank ++ '\n' :: ds := by
  induction cs with
  | nil => exact List.dropWhile_cons_of_neg (by decide)
  | cons c cs ih =>
    rw [List.cons_append, List.dropWhile_cons, List.dropWhile_cons, ih]
    split <;> rfl

theorem blankLength_newline (cs ds : List Char) :
    blankLength (cs ++ '\n' :: ds) = blankLength cs := by
  rw [blankLength, takeWhile_break cs ds (by decide), blankLength]

theorem blankLength_le (cs : List Char) : blankLength cs ≤ cs.length :=
  (List.takeWhile_sublist _).length_le

theorem closesHeredoc_newline (hl : label.any isBreak = false) (cs ds : List Char) :
    closesHeredoc label (cs ++ '\n' :: ds) = closesHeredoc label cs := by
  rw [closesHeredoc, closesHeredoc, dropWhile_blank_newline,
    isPrefixOf_break isBreak_newline _ ds hl]
  cases hp : label.isPrefixOf (cs.dropWhile isBlank) with
  | false => rfl
  | true =>
    have hle := (List.isPrefixOf_iff_prefix.mp hp).length_le
    rw [List.drop_append_of_le_length hle, head?_any_break _ ds (by decide)]

/-- A heredoc that ends before a line break ends there whatever follows. -/
theorem closingLabel_newline {lineStart : Bool} {n m : Nat} (hl : label.any isBreak = false)
    (h : closingLabel label lineStart n cs = (m, true)) (ds : List Char) :
    closingLabel label lineStart n (cs ++ '\n' :: ds) = (m, true) := by
  induction cs generalizing lineStart n with
  | nil => cases h
  | cons c cs ih =>
    have hcloses := closesHeredoc_newline hl (c :: cs) ds
    have hblank := blankLength_newline (c :: cs) ds
    rw [List.cons_append] at hcloses hblank ⊢
    rw [closingLabel] at h ⊢
    rw [hcloses, hblank]
    split
    · next hc => rwa [if_pos hc] at h
    · next hc =>
      rw [if_neg hc] at h
      exact ih h

theorem heredocLabel_newline (cs ds : List Char) :
    heredocLabel? (cs ++ '\n' :: ds) = heredocLabel? cs := by
  cases cs with
  | nil => rfl
  | cons q cs =>
    have hbare := nameLength_break isBreak_newline (q :: cs) ds
    have htake : (q :: cs ++ '\n' :: ds).take (nameLength (q :: cs)) = _ :=
      List.take_append_of_le_length (nameLength_le (q :: cs))
    rw [List.cons_append] at hbare htake ⊢
    simp only [heredocLabel?, hbare, htake, nameLength_break isBreak_newline,
      List.drop_append_of_le_length (nameLength_le cs),
      List.take_append_of_le_length (nameLength_le cs)]
    split
    · next hq =>
      have hne : '\n' ≠ q := by
        rintro rfl
        cases hq
      cases hdrop : cs.drop (nameLength cs) with
      | nil => simp [hne]
      | cons c rest => rfl
    · rfl

theorem isNameContinue_of_mem_take {c : Char} (h : c ∈ cs.take (nameLength cs)) :
    isNameContinue c = true := by
  have hpos : 0 < nameLength cs := by
    refine Nat.pos_of_ne_zero fun hzero => ?_
    rw [hzero] at h
    cases h
  obtain ⟨name, more, rfl, hname, hlength, -⟩ := exists_name hpos
  rw [hlength, List.take_left] at h
  exact hname.continues c h

/-- A label is a name, and what it takes holds no closer. -/
theorem heredocLabel_spec {n : Nat} (h : heredocLabel? cs = some (label, n)) :
    (∀ c ∈ label, isNameContinue c = true) ∧ ∀ c ∈ cs.take n, isCloser c = false := by
  have hname {ds : List Char} {c : Char} (hc : c ∈ ds.take (nameLength ds)) : isCloser c = false := by
    cases hcloser : isCloser c with
    | false => rfl
    | true =>
      have hcontinue := isNameContinue_of_mem_take hc
      rw [isNameContinue_closer hcloser] at hcontinue
      cases hcontinue
  cases cs with
  | nil => cases h
  | cons q cs =>
    rw [heredocLabel?] at h
    split at h
    · next hq =>
      simp only [Option.ite_none_right_eq_some, Bool.and_eq_true, beq_iff_eq] at h
      obtain ⟨⟨hhead, -⟩, h⟩ := h
      obtain ⟨rfl, rfl⟩ := Prod.mk.inj (Option.some.inj h)
      have hquote : isCloser q = false := by
        rw [Bool.or_eq_true, beq_iff_eq, beq_iff_eq] at hq
        rcases hq with rfl | rfl <;> decide
      refine ⟨fun c hc => isNameContinue_of_mem_take hc, fun c hc => ?_⟩
      obtain ⟨rest, hrest⟩ := List.head?_eq_some_iff.mp hhead
      have htake : cs.take (nameLength cs + 1) = cs.take (nameLength cs) ++ [q] := by
        rw [List.take_add, hrest]
        rfl
      rw [List.take_succ_cons, htake] at hc
      rcases List.mem_cons.mp hc with rfl | hc
      · exact hquote
      · rcases List.mem_append.mp hc with hc | hc
        · exact hname hc
        · rwa [List.mem_singleton.mp hc]
    · simp only [Option.ite_none_right_eq_some] at h
      obtain ⟨-, h⟩ := h
      obtain ⟨rfl, rfl⟩ := Prod.mk.inj (Option.some.inj h)
      exact ⟨fun c hc => isNameContinue_of_mem_take hc, fun c hc => hname hc⟩

theorem lineBreakLength_newline (h : cs.any isCloser = true) (ds : List Char) :
    lineBreakLength (cs ++ '\n' :: ds) = lineBreakLength cs := by
  match cs with
  | [] => cases h
  | [c] =>
    have hc : isCloser c = true := by simpa using h
    rcases isCloser_cases hc with rfl | rfl <;> rfl
  | c :: d :: cs =>
    simp only [List.cons_append]
    unfold lineBreakLength
    split <;> simp_all

/-- What is left of a text with a closer has it if what was taken has none. -/
theorem any_drop {n : Nat} (h : cs.any isCloser = true) (hn : ∀ c ∈ cs.take n, isCloser c = false) :
    (cs.drop n).any isCloser = true := by
  obtain ⟨c, hc, hcloser⟩ := List.any_eq_true.mp h
  rw [← List.take_append_drop n cs] at hc
  rcases List.mem_append.mp hc with hc | hc
  · rw [hn c hc] at hcloser
    cases hcloser
  · exact List.any_eq_true.mpr ⟨c, hc, hcloser⟩

theorem isCloser_of_mem_blanks {c : Char} (h : c ∈ cs.take (blankLength cs)) : isCloser c = false := by
  have hbegins : cs.take (blankLength cs) = cs.takeWhile isBlank :=
    (List.prefix_iff_eq_take.mp (List.takeWhile_prefix _)).symm
  rw [hbegins] at h
  have hblank : isBlank c = true := List.all_eq_true.mp List.all_takeWhile c h
  cases hcloser : isCloser c with
  | false => rfl
  | true => rcases isCloser_cases hcloser with rfl | rfl <;> cases hblank

/-- The first line of a heredoc is not made by a line break after a closer. -/
theorem heredocHeader_newline (h : cs.any isCloser = true) (ds : List Char) :
    heredocHeader? (cs ++ '\n' :: ds) = heredocHeader? cs := by
  by_cases hhead : ∃ rest, cs = '<' :: '<' :: '<' :: rest
  · obtain ⟨rest, rfl⟩ := hhead
    have hrest : rest.any isCloser = true := h
    have hblank := any_drop hrest fun c hc => isCloser_of_mem_blanks hc
    simp only [List.cons_append, heredocHeader?, blankLength_newline,
      List.drop_append_of_le_length (blankLength_le rest), heredocLabel_newline]
    cases hlabel : heredocLabel? (rest.drop (blankLength rest)) with
    | none => rfl
    | some p =>
      obtain ⟨label, n⟩ := p
      have hline := any_drop hblank (heredocLabel_spec hlabel).2
      rw [List.drop_drop] at hline
      have hle : blankLength rest + n ≤ rest.length := by
        refine Nat.le_of_not_lt fun hlt => ?_
        rw [List.drop_eq_nil_of_le (Nat.le_of_lt hlt)] at hline
        cases hline
      have hbreak := lineBreakLength_newline hline ds
      rw [← List.drop_append_of_le_length hle] at hbreak
      simp only [Option.bind_eq_bind, Option.bind_some, hbreak]
  · have hnone : heredocHeader? cs = none := by
      unfold heredocHeader?
      split
      · exact absurd ⟨_, rfl⟩ hhead
      · rfl
    rw [hnone]
    unfold heredocHeader?
    split
    · next rest heq =>
      refine absurd ?_ hhead
      rcases cs with _ | ⟨a, _ | ⟨b, _ | ⟨c, cs⟩⟩⟩
      · cases heq
      · cases heq
      · cases heq
      · simp only [List.cons_append, List.cons.injEq] at heq
        obtain ⟨rfl, rfl, rfl, -⟩ := heq
        exact ⟨cs, rfl⟩
    · rfl

theorem heredocHeader_spec {header : HeredocHeader} (h : heredocHeader? cs = some header) :
    header.label.any isBreak = false := by
  unfold heredocHeader? at h
  split at h
  · simp only [Option.bind_eq_bind, Option.bind_eq_some_iff, Option.ite_none_right_eq_some] at h
    obtain ⟨⟨label, n⟩, hlabel, -, h⟩ := h
    obtain rfl := Option.some.inj h
    rw [List.any_eq_false]
    intro c hc hbreak
    have hcontinue := (heredocLabel_spec hlabel).1 c hc
    rw [isNameContinue_break hbreak] at hcontinue
    cases hcontinue
  · cases h

/-- A heredoc that ends stays the same, and none comes into being. -/
theorem heredoc_newline (h : cs.any isCloser = true)
    (hp : ∀ l, heredoc? cs = some l → l.problem = none) (ds : List Char) :
    heredoc? (cs ++ '\n' :: ds) = heredoc? cs := by
  rw [heredoc?, heredoc?, heredocHeader_newline h]
  rw [heredoc?] at hp
  cases hheader : heredocHeader? cs with
  | none => rfl
  | some header =>
    rw [hheader] at hp
    simp only [Option.bind_eq_bind, Option.bind_some] at hp ⊢
    cases hclose : closingLabel header.label true header.length (cs.drop header.length) with
    | mk n ends =>
      cases ends with
      | false =>
        rw [hclose] at hp
        cases hp _ rfl
      | true =>
        have hne : cs.drop header.length ≠ [] := fun hnil => by
          rw [hnil] at hclose
          cases hclose
        have hle : header.length ≤ cs.length := by
          refine Nat.le_of_not_lt fun hlt => hne ?_
          exact List.drop_eq_nil_of_le (Nat.le_of_lt hlt)
        rw [List.drop_append_of_le_length hle,
          closingLabel_newline (heredocHeader_spec hheader) hclose]

/-! ## Strings and casts -/

theorem closingQuote_append {quote : Char} {n m : Nat} (h : closingQuote quote n cs = (m, true))
    (es : List Char) : closingQuote quote n (cs ++ es) = (m, true) := by
  fun_induction closingQuote quote n cs with
  | case1 => cases h
  | case2 => cases h
  | case3 n c hc d cs ih =>
    rw [List.cons_append, List.cons_append, closingQuote, if_pos hc]
    exact ih h
  | case4 n c cs hc hq =>
    rw [List.cons_append, closingQuote.eq_def]
    exact (if_neg hc).trans ((if_pos hq).trans h)
  | case5 n c cs hc hq ih =>
    rw [List.cons_append, closingQuote.eq_def]
    exact (if_neg hc).trans ((if_neg hq).trans (ih h))

theorem quotedString_append (h : cs ≠ []) (hp : ∀ l, quotedString? cs = some l → l.problem = none)
    (es : List Char) : quotedString? (cs ++ es) = quotedString? cs := by
  obtain ⟨q, cs, rfl⟩ := List.exists_cons_of_ne_nil h
  rw [List.cons_append, quotedString?, quotedString?]
  rw [quotedString?] at hp
  by_cases hq : isQuote q = true
  · rw [if_pos hq] at hp ⊢
    rw [if_pos hq]
    cases hclose : closingQuote q 1 cs with
    | mk n ends =>
      cases ends with
      | false =>
        rw [hclose] at hp
        cases hp _ rfl
      | true => rw [closingQuote_append hclose]
  · rw [if_neg hq, if_neg hq]

theorem cast_newline (h : cs ≠ []) (ds : List Char) : cast? (cs ++ '\n' :: ds) = cast? cs := by
  obtain ⟨c, cs, rfl⟩ := List.exists_cons_of_ne_nil h
  by_cases hc : c = '('
  · subst hc
    have hname := nameLength_le (cs.drop (blankLength cs))
    have hblanks := blankLength_le (cs.drop (blankLength cs + nameLength (cs.drop (blankLength cs))))
    have hle := blankLength_le cs
    rw [List.length_drop] at hname hblanks
    have hle₁ : blankLength cs + nameLength (cs.drop (blankLength cs)) ≤ cs.length := by omega
    have hle₂ : blankLength cs + nameLength (cs.drop (blankLength cs)) +
        blankLength (cs.drop (blankLength cs + nameLength (cs.drop (blankLength cs)))) ≤
          cs.length := by omega
    have hhead (rest : List Char) :
        ((rest ++ '\n' :: ds).head? == some ')') = (rest.head? == some ')') := by
      cases rest <;> rfl
    simp only [List.cons_append, cast?, blankLength_newline, List.drop_append_of_le_length hle,
      nameLength_break isBreak_newline, List.drop_append_of_le_length hle₁,
      List.drop_append_of_le_length hle₂, hhead,
      List.take_append_of_le_length (nameLength_le (cs.drop (blankLength cs)))]
  · rw [List.cons_append]
    unfold cast?
    split <;> simp_all

/-! ## Tokens in code -/

theorem spellings_closers : spellings.all (fun p =>
    (p.2 != .closeTag || p.1 == ['?', '>']) &&
      (!p.2.closes || p.1 == [';'] || p.1 == ['}'])) = true := by
  decide +kernel

/-- A token before a line break is the same whatever follows, if nothing is wrong with it and a
closer comes after its beginning. -/
theorem code_newline (h : cs.any isCloser = true) (hp : (code cs).problem = none) (ds : List Char) :
    code (cs ++ '\n' :: ds) = code cs := by
  have hne : cs ≠ [] := by
    rintro rfl
    cases h
  have hheredoc : ∀ l, heredoc? cs = some l → l.problem = none := by
    intro l hl
    obtain ⟨c, cs, rfl⟩ := List.exists_cons_of_ne_nil hne
    rwa [code, hl] at hp
  have hquoted : ∀ l, quotedString? cs = some l → l.problem = none := by
    intro l hl
    obtain ⟨c, cs, rfl⟩ := List.exists_cons_of_ne_nil hne
    have hq : isQuote c = true := by
      rw [quotedString?] at hl
      split at hl
      · assumption
      · cases hl
    simp only [code, isQuote_others hq cs, hl] at hp
    exact hp
  refine code_break isBreak_newline cs ds hne (heredoc_newline h hheredoc ds) (cast_newline hne ds)
    (quotedString_append hne hquoted _) fun n p hl => ?_
  -- a close tag is followed by the closer
  obtain ⟨q, hq, hbegins, heq⟩ := exists_spelling hl
  obtain ⟨hk, rfl, -⟩ := Lexeme.mk.inj heq
  have hspelling := List.all_eq_true.mp spellings_closers q hq
  rw [← hk] at hspelling
  have hq : q.1 = ['?', '>'] := by
    simp only [Bool.and_eq_true] at hspelling
    simpa using hspelling.1
  rw [hq] at hbegins ⊢
  obtain ⟨rest, rfl⟩ := List.isPrefixOf_iff_prefix.mp hbegins
  have hrest : rest.any isCloser = true := h
  exact lineBreakLength_newline hrest ds

/-- Only operators close. -/
theorem code_of_closes (h : (code cs).kind.closes = true) : code cs = operator cs := by
  rcases code_kinds cs with hk | hk | ⟨hcode, -⟩ | ⟨hk, -⟩
  · rcases Kind.closes_cases h with h | h <;>
      · rw [h] at hk
        cases hk
  · obtain ⟨ds, -, -, hl⟩ := exists_dollarName hk
    rw [hl] at h
    cases h
  · exact hcode
  · rcases Kind.closes_cases h with h | h <;>
      · rw [h] at hk
        cases hk

/-- A token that closes is a single closer. -/
theorem closes_code (h : (code cs).kind.closes = true) :
    cs.any isCloser = true ∧ (code cs).length = 1 := by
  cases cs with
  | nil => cases h
  | cons c cs =>
    have hcode := code_of_closes h
    rw [hcode] at h ⊢
    unfold operator at h ⊢
    split at h
    · cases h
    · next l hl =>
      obtain ⟨p, hp, hbegins, rfl⟩ := exists_spelling hl
      have hspelling := List.all_eq_true.mp spellings_closers p hp
      have h : p.2.closes = true := h
      rw [h] at hspelling
      simp only [Bool.and_eq_true, Bool.or_eq_true, beq_iff_eq, Bool.not_true] at hspelling
      obtain ⟨-, (hf | hp) | hp⟩ := hspelling
      · cases hf
      all_goals
        rw [hp] at hbegins
        obtain ⟨rest, hrest⟩ := List.isPrefixOf_iff_prefix.mp hbegins
        refine ⟨?_, by simp [hp]⟩
        rw [← hrest]
        rfl
    · cases h

/-! ## Outside of code -/

theorem openTag_newline (dialect : Dialect) (cs ds : List Char) :
    openTag? dialect (cs ++ '\n' :: ds) = openTag? dialect cs := by
  match cs with
  | [] => rfl
  | [c] =>
    by_cases hc : c = '<'
    · subst hc
      rfl
    · unfold openTag?
      split <;> simp_all
  | a :: b :: cs =>
    by_cases hhead : a = '<' ∧ b = '?'
    · obtain ⟨rfl, rfl⟩ := hhead
      -- what decides are the three characters after the question mark and the one behind them
      match cs with
      | [] => simp [openTag?]
      | [_] => simp [openTag?]
      | [_, _] => simp [openTag?]
      | [_, _, _] => simp [openTag?, isAsciiWhitespace]
      | _ :: _ :: _ :: _ :: _ => simp [openTag?]
    · unfold openTag?
      split <;> simp_all

/-- Text before an open tag ends there whatever follows. -/
theorem htmlFrom_newline {dialect : Dialect} {n : Nat}
    (h : htmlFrom dialect n cs < n + cs.length) (ds : List Char) :
    htmlFrom dialect n (cs ++ '\n' :: ds) = htmlFrom dialect n cs := by
  induction cs generalizing n with
  | nil => exact absurd h (Nat.lt_irrefl n)
  | cons c cs ih =>
    have htag := openTag_newline dialect (c :: cs) ds
    rw [List.cons_append] at htag ⊢
    rw [htmlFrom] at h ⊢
    rw [htmlFrom, htag]
    split
    · rfl
    · next hnone =>
      rw [if_neg hnone, List.length_cons] at h
      exact ih (by omega)

theorem html_newline {dialect : Dialect} (h : (html dialect cs).length < cs.length)
    (ds : List Char) : html dialect (cs ++ '\n' :: ds) = html dialect cs := by
  have htag := openTag_newline dialect cs ds
  cases cs with
  | nil => cases h
  | cons c cs =>
    rw [List.cons_append] at htag ⊢
    rw [html.eq_def] at h ⊢
    rw [html.eq_def]
    simp only [htag]
    cases htag' : openTag? dialect (c :: cs) with
    | some tag => rfl
    | none =>
      simp only [htag'] at h
      have hlt : htmlFrom dialect 0 (c :: cs) < 0 + (c :: cs).length := by rwa [Nat.zero_add]
      have hfrom := htmlFrom_newline hlt ds
      rw [List.cons_append] at hfrom
      simp only [hfrom]

theorem closes_html (dialect : Dialect) (cs : List Char) :
    (html dialect cs).kind.closes = false := by
  unfold html
  split
  · rfl
  · next tag ht =>
    unfold openTag? at ht
    split at ht
    · split at ht
      · cases ht
        rfl
      split at ht
      · cases ht
        rfl
      split at ht
      · cases ht
        rfl
      · cases ht
    · cases ht
  · rfl

end Lexeme
end PhpSyntax
