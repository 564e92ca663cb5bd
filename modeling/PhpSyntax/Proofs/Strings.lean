import PhpSyntax.Proofs.Numerals
import PhpSyntax.Proofs.Ordering
import PhpSyntax.Proofs.Pieces

/-!
Where strings end. A quoted string ends at the first quote with an even number of backslashes right
before it. A heredoc ends at the first line that holds blanks and its label and then no more of a
name. A string that has no end takes the rest of the text, which is reported.
-/
namespace PhpSyntax

open Text (First Nowhere Seeks)

namespace Lexeme

variable {quote c : Char} {cs before after label header body line more quotes : List Char}

/-! ## Quoted strings -/

/-- How many backslashes a text ends with. -/
def backslashes (cs : List Char) : Nat := (cs.reverse.takeWhile (· == '\\')).length

/-- A quote that is not escaped. -/
def Closes (quote : Char) (before after : List Char) : Prop :=
  after.head? = some quote ∧ backslashes before % 2 = 0

theorem backslashes_append_backslash (cs : List Char) :
    backslashes (cs ++ ['\\']) = backslashes cs + 1 := by
  simp [backslashes]

theorem backslashes_append_other (hc : c ≠ '\\') (cs : List Char) :
    backslashes (cs ++ [c]) = 0 := by
  simp [backslashes, hc]

/-- Two backslashes more, or none at all behind an escaped character. -/
theorem backslashes_append_escaped (heven : backslashes cs % 2 = 0) (c : Char) :
    backslashes (cs ++ ['\\', c]) % 2 = 0 := by
  rw [List.append_cons]
  by_cases hc : c = '\\'
  · subst hc
    rw [backslashes_append_backslash, backslashes_append_backslash]
    omega
  · rw [backslashes_append_other hc]

/-- The search for the closing quote, behind a part of the string in which every backslash has its
character. -/
theorem seeks_closingQuote (hq : quote ≠ '\\') (n : Nat) (before cs : List Char)
    (heven : backslashes before % 2 = 0) :
    Seeks (fun b => Closes quote (before ++ b)) (fun _ => 1) n cs (closingQuote quote n cs) := by
  have hhead {b cs : List Char} {c : Char} (hc : c ≠ quote) : ¬Closes quote b (c :: cs) :=
    fun h => hc (Option.some.inj h.1)
  have hempty {b : List Char} : ¬Closes quote b [] := fun h => nomatch h.1
  have hgoes (b : List Char) :
      (fun more => Closes quote (before ++ b ++ more)) =
        fun more => Closes quote (before ++ (b ++ more)) := by
    simp
  fun_induction closingQuote quote n cs generalizing before with
  | case1 n => exact .nil hempty
  | case2 n c hc =>
    obtain rfl : c = '\\' := beq_iff_eq.mp hc
    exact .cons (hhead hq.symm) (.nil hempty)
  | case3 n c hc d cs ih =>
    obtain rfl : c = '\\' := beq_iff_eq.mp hc
    have htail := ih (before ++ ['\\', d]) (backslashes_append_escaped heven d) (by simp)
    rw [hgoes] at htail
    refine .cons (hhead hq.symm) (.cons ?_ htail)
    -- the character behind the backslash is escaped
    rintro ⟨-, hodd⟩
    rw [backslashes_append_backslash] at hodd
    omega
  | case4 n c cs hc hquote =>
    obtain rfl : c = quote := beq_iff_eq.mp hquote
    exact .here ⟨rfl, by rwa [List.append_nil]⟩
  | case5 n c cs hc hquote ih =>
    have hc : c ≠ '\\' := fun h => hc (beq_iff_eq.mpr h)
    have htail := ih (before ++ [c]) (by rw [backslashes_append_other hc]) (by simp)
    rw [hgoes] at htail
    exact .cons (hhead fun h => hquote (beq_iff_eq.mpr h)) htail

/-! ## Blanks and line breaks -/

theorem isBlank_cases (hc : isBlank c = true) : c = ' ' ∨ c = '\t' := by
  simpa [isBlank] using hc

/-- What holds of neither blank holds of no blank. -/
theorem isBlank_eq_false {p : Char → Bool} (hp : p ' ' = false ∧ p '\t' = false)
    (hc : p c = true) : isBlank c = false := by
  rw [Bool.eq_false_iff]
  intro hblank
  rcases isBlank_cases hblank with rfl | rfl
  · exact Bool.false_ne_true (hp.1.symm.trans hc)
  · exact Bool.false_ne_true (hp.2.symm.trans hc)

theorem IsName.noBlanks (h : IsName label) : ∀ c ∈ label, isBlank c = false :=
  fun c hc => isBlank_eq_false ⟨rfl, rfl⟩ (h.continues c hc)

/-- Blanks before something else are all that is counted. -/
theorem blankLength_append (hblanks : ∀ c ∈ before, isBlank c = true)
    (hmore : ∀ c ∈ more.head?, isBlank c = false) :
    blankLength (before ++ more) = before.length ∧ (before ++ more).dropWhile isBlank = more := by
  have hnone : more.takeWhile isBlank = [] ∧ more.dropWhile isBlank = more := by
    cases more with
    | nil => exact ⟨rfl, rfl⟩
    | cons c more => simp [hmore c rfl]
  rw [blankLength, List.takeWhile_append_of_pos hblanks, List.dropWhile_append_of_pos hblanks,
    hnone.1, hnone.2, List.append_nil]
  exact ⟨rfl, rfl⟩

theorem exists_blanks (cs : List Char) : ∃ blanks more, cs = blanks ++ more ∧
    (∀ c ∈ blanks, isBlank c = true) ∧ blankLength cs = blanks.length ∧
      ∀ c ∈ more.head?, isBlank c = false := by
  refine ⟨cs.takeWhile isBlank, cs.dropWhile isBlank, List.takeWhile_append_dropWhile.symm,
    List.all_eq_true.mp List.all_takeWhile, rfl, fun c hc => ?_⟩
  have hstop := List.head?_dropWhile_not isBlank cs
  rwa [hc] at hstop

/-- A line break at the beginning of a text, or nothing if the text begins with none. -/
inductive BreaksLine (after : List Char) : (lineBreak : List Char) → Prop where
  | crlf : BreaksLine after ['\r', '\n']
  | lf : BreaksLine after ['\n']
  | none (crlf : ¬['\r', '\n'] <+: after) (lf : ¬['\n'] <+: after) : BreaksLine after []

theorem exists_lineBreak (cs : List Char) : ∃ lineBreak after, cs = lineBreak ++ after ∧
    BreaksLine after lineBreak ∧ lineBreakLength cs = lineBreak.length := by
  unfold lineBreakLength
  split
  · next after => exact ⟨['\r', '\n'], after, rfl, .crlf, rfl⟩
  · next after => exact ⟨['\n'], after, rfl, .lf, rfl⟩
  · next hcrlf hlf =>
    refine ⟨[], cs, rfl, .none ?_ ?_, rfl⟩
    · rintro ⟨after, rfl⟩
      exact hcrlf after rfl
    · rintro ⟨after, rfl⟩
      exact hlf after rfl

/-! ## Heredocs -/

/-- The first line of a heredoc: three angle brackets, blanks, the label, bare or in quotes, and a
line break. -/
def IsHeader (label header : List Char) : Prop :=
  ∃ blanks quote lineBreak,
    header = ['<', '<', '<'] ++ (blanks ++ (quote ++ (label ++ (quote ++ lineBreak)))) ∧
    (∀ c ∈ blanks, isBlank c = true) ∧ quote ∈ [[], ['\x27'], ['\x22']] ∧ IsName label ∧
    lineBreak ∈ [['\r', '\n'], ['\n']]

theorem IsHeader.isName (h : IsHeader label header) : IsName label := by
  obtain ⟨-, -, -, -, -, -, hlabel, -⟩ := h
  exact hlabel

theorem IsHeader.ne_nil (h : IsHeader label header) : header ≠ [] := by
  obtain ⟨blanks, quotes, lineBreak, rfl, -⟩ := h
  simp

/-- A line begins behind a text. -/
def BeginsLine (cs : List Char) : Prop := ∀ c ∈ cs.getLast?, c = '\n'

/-- A line begins here and holds blanks, the label, and then no more of a name. -/
def ClosesLabel (label before after : List Char) : Prop :=
  BeginsLine before ∧ ∃ blanks more, after = blanks ++ (label ++ more) ∧
    (∀ c ∈ blanks, isBlank c = true) ∧ ∀ c ∈ more.head?, isNameContinue c = false

theorem beginsLine_append (cs : List Char) (c : Char) : BeginsLine (cs ++ [c]) ↔ c = '\n' := by
  simp [BeginsLine]

theorem IsName.head_isBlank (h : IsName label) (more : List Char) :
    ∀ c ∈ (label ++ more).head?, isBlank c = false := by
  intro c hc
  rw [List.head?_append_of_ne_nil _ h.ne_nil] at hc
  exact h.noBlanks c (List.mem_of_head? hc)

theorem closesHeredoc_iff (hlabel : IsName label) : closesHeredoc label line = true ↔
    ∃ blanks more, line = blanks ++ (label ++ more) ∧ (∀ c ∈ blanks, isBlank c = true) ∧
      ∀ c ∈ more.head?, isNameContinue c = false := by
  have hany (cs : List Char) :
      (!cs.head?.any isNameContinue) = true ↔ ∀ c ∈ cs.head?, isNameContinue c = false := by
    cases cs <;> simp
  rw [closesHeredoc, Bool.and_eq_true, List.isPrefixOf_iff_prefix, hany]
  constructor
  · rintro ⟨⟨more, hmore⟩, hstop⟩
    obtain ⟨blanks, rest, rfl, hblanks, -, hrest⟩ := exists_blanks line
    rw [(blankLength_append hblanks hrest).2] at hmore hstop
    subst hmore
    rw [List.drop_left] at hstop
    exact ⟨blanks, more, rfl, hblanks, hstop⟩
  · rintro ⟨blanks, more, rfl, hblanks, hstop⟩
    rw [(blankLength_append hblanks (hlabel.head_isBlank more)).2, List.drop_left]
    exact ⟨List.prefix_append label more, hstop⟩

/-- The search for the closing label, behind a part of the text. -/
theorem seeks_closingLabel (hlabel : IsName label) {lineStart : Bool} (n : Nat)
    (before cs : List Char) (hstart : BeginsLine before ↔ lineStart = true) :
    Seeks (fun b => ClosesLabel label (before ++ b)) (fun a => blankLength a + label.length) n cs
      (closingLabel label lineStart n cs) := by
  induction cs generalizing lineStart n before with
  | nil =>
    refine .nil ?_
    rintro ⟨-, blanks, more, hnil, -⟩
    simp [hlabel.ne_nil] at hnil
  | cons c cs ih =>
    have hcloses : (lineStart && closesHeredoc label (c :: cs)) = true ↔
        ClosesLabel label (before ++ []) (c :: cs) := by
      rw [Bool.and_eq_true, closesHeredoc_iff hlabel, ← hstart, ClosesLabel, List.append_nil]
    rw [closingLabel]
    split
    · next h =>
      rw [Nat.add_assoc]
      exact .here (hcloses.mp h)
    · next h =>
      have htail := ih (n + 1) (before ++ [c]) ((beginsLine_append before c).trans beq_iff_eq.symm)
      simp only [List.append_assoc, List.singleton_append] at htail
      exact .cons (fun hstop => h (hcloses.mpr hstop)) htail

theorem heredocLabel_append (hlabel : IsName label) (hq : quotes ∈ [[], ['\x27'], ['\x22']])
    (hmore : ∀ c ∈ more.head?, isNameContinue c = false) :
    heredocLabel? (quotes ++ (label ++ (quotes ++ more))) =
      some (label, (quotes ++ (label ++ quotes)).length) := by
  have hquoted {q : Char} (hq : (q == '\x27' || q == '\x22') = true)
      (hstop : isNameContinue q = false) : heredocLabel? (q :: (label ++ q :: more)) =
        some (label, label.length + 2) := by
    have hlength : nameLength (label ++ q :: more) = label.length :=
      hlabel.nameLength_append (by simp [hstop])
    have hpos := List.length_pos_iff.mpr hlabel.ne_nil
    rw [heredocLabel?, if_pos hq]
    simp [hlength, hpos]
  simp only [List.mem_cons, List.not_mem_nil, or_false] at hq
  rcases hq with rfl | rfl | rfl
  · have hlength := hlabel.nameLength_append hmore
    have hpos := List.length_pos_iff.mpr hlabel.ne_nil
    obtain ⟨c, name, rfl, hc, -⟩ := hlabel
    have hne : ¬(c == '\x27' || c == '\x22') = true := by
      intro hquote
      rcases (by simpa using hquote : c = '\x27' ∨ c = '\x22') with rfl | rfl <;> cases hc
    rw [List.cons_append] at hlength
    rw [List.nil_append, List.nil_append, List.cons_append, heredocLabel?, if_neg hne]
    simp [hlength]
  · exact (hquoted rfl rfl).trans (by simp)
  · exact (hquoted rfl rfl).trans (by simp)

theorem exists_heredocLabel {n : Nat} (h : heredocLabel? cs = some (label, n)) :
    ∃ quotes more, cs = quotes ++ (label ++ (quotes ++ more)) ∧
      quotes ∈ [[], ['\x27'], ['\x22']] ∧ IsName label ∧
      n = (quotes ++ (label ++ quotes)).length := by
  unfold heredocLabel? at h
  split at h
  · cases h
  · next q cs =>
    split at h
    · next hq =>
      simp only [Option.ite_none_right_eq_some, Bool.and_eq_true, beq_iff_eq, decide_eq_true_eq]
        at h
      obtain ⟨⟨hclose, hpos⟩, h⟩ := h
      obtain ⟨name, more, rfl, hname, hlength, -⟩ := exists_name hpos
      rw [hlength, List.drop_left] at hclose
      rw [hlength, List.take_left] at h
      obtain ⟨rfl, rfl⟩ := Prod.mk.inj (Option.some.inj h)
      obtain ⟨more, rfl⟩ := List.head?_eq_some_iff.mp hclose
      refine ⟨[q], more, rfl, ?_, hname, by simp⟩
      rcases (by simpa using hq : q = '\x27' ∨ q = '\x22') with rfl | rfl <;> simp
    · rw [Option.ite_none_right_eq_some] at h
      obtain ⟨hpos, h⟩ := h
      obtain ⟨name, more, hsplit, hname, hlength, -⟩ := exists_name hpos
      rw [hlength, hsplit, List.take_left] at h
      obtain ⟨rfl, rfl⟩ := Prod.mk.inj (Option.some.inj h)
      exact ⟨[], more, hsplit, by simp, hname, by simp⟩

theorem heredocHeader_append (h : IsHeader label header) (body : List Char) :
    heredocHeader? (header ++ body) = some ⟨label, header.length⟩ := by
  obtain ⟨blanks, quotes, lineBreak, rfl, hblanks, hq, hlabel, hbreak⟩ := h
  have hlines : 0 < lineBreakLength (lineBreak ++ body) ∧
      lineBreakLength (lineBreak ++ body) = lineBreak.length ∧
      ∀ c ∈ (lineBreak ++ body).head?, isNameContinue c = false := by
    simp only [List.mem_cons, List.not_mem_nil, or_false] at hbreak
    rcases hbreak with rfl | rfl <;> simp [lineBreakLength] <;> rfl
  have hnext : ∀ c ∈ (quotes ++ (label ++ (quotes ++ (lineBreak ++ body)))).head?,
      isBlank c = false := by
    simp only [List.mem_cons, List.not_mem_nil, or_false] at hq
    rcases hq with rfl | rfl | rfl
    · exact hlabel.head_isBlank _
    · simp; rfl
    · simp; rfl
  have hread := heredocLabel_append hlabel hq hlines.2.2
  have hlength := (blankLength_append hblanks hnext).1
  have hdrop : (blanks ++ (quotes ++ (label ++ (quotes ++ (lineBreak ++ body))))).drop
      (blanks.length + (quotes ++ (label ++ quotes)).length) = lineBreak ++ body := by
    have hsplit : blanks ++ (quotes ++ (label ++ (quotes ++ (lineBreak ++ body)))) =
        blanks ++ (quotes ++ (label ++ quotes)) ++ (lineBreak ++ body) := by simp
    rw [hsplit, ← List.length_append, List.drop_left]
  have hshape :
      ['<', '<', '<'] ++ (blanks ++ (quotes ++ (label ++ (quotes ++ lineBreak)))) ++ body =
        '<' :: '<' :: '<' :: (blanks ++ (quotes ++ (label ++ (quotes ++ (lineBreak ++ body))))) := by
    simp
  rw [hshape, heredocHeader?]
  simp only [hlength, List.drop_left, hread, hdrop, Option.bind_eq_bind, Option.bind_some,
    hlines.2.1]
  simp
  omega

theorem exists_header {r : HeredocHeader} (h : heredocHeader? cs = some r) : ∃ header body,
    cs = header ++ body ∧ IsHeader r.label header ∧ r.length = header.length := by
  unfold heredocHeader? at h
  split at h
  · next cs =>
    obtain ⟨blanks, more, rfl, hblanks, hlength, -⟩ := exists_blanks cs
    simp only [hlength, List.drop_left, Option.bind_eq_bind, Option.bind_eq_some_iff] at h
    obtain ⟨⟨label, n⟩, hread, h⟩ := h
    obtain ⟨quotes, more, rfl, hq, hlabel, rfl⟩ := exists_heredocLabel hread
    have hsplit : blanks ++ (quotes ++ (label ++ (quotes ++ more))) =
        blanks ++ (quotes ++ (label ++ quotes)) ++ more := by simp
    rw [hsplit, ← List.length_append, List.drop_left] at h
    obtain ⟨lineBreak, body, rfl, hbreak, hlength⟩ := exists_lineBreak more
    rw [hlength, Option.ite_none_right_eq_some] at h
    obtain ⟨hpos, h⟩ := h
    obtain rfl := Option.some.inj h
    refine ⟨['<', '<', '<'] ++ (blanks ++ (quotes ++ (label ++ (quotes ++ lineBreak)))), body,
      by simp, ⟨blanks, quotes, lineBreak, rfl, hblanks, hq, hlabel, ?_⟩, ?_⟩
    · cases hbreak with
      | crlf | lf => simp
      | none => cases hpos
    · simp
      omega
  · cases h

/-! ## What is read -/

theorem code_of_heredoc {l : Lexeme} (h : heredoc? cs = some l) : code cs = l := by
  cases cs with
  | nil => cases h
  | cons c cs => rw [code, h]

theorem code_header (h : IsHeader label header) (body : List Char) :
    code (header ++ body) = ⟨.string, (closingLabel label true header.length body).1,
      if (closingLabel label true header.length body).2 then none
      else some .unterminatedHeredoc⟩ := by
  refine code_of_heredoc ?_
  simp only [heredoc?, heredocHeader_append h, Option.bind_eq_bind, Option.bind_some,
    List.drop_left]
  rcases closingLabel label true header.length body with ⟨n, _ | _⟩ <;> rfl

theorem heredoc_none (h : ¬∃ label header body, IsHeader label header ∧ cs = header ++ body) :
    heredoc? cs = none := by
  have hheader : heredocHeader? cs = none := by
    refine Option.eq_none_iff_forall_ne_some.mpr fun r hr => ?_
    obtain ⟨header, body, hsplit, hheader, -⟩ := exists_header hr
    exact h ⟨r.label, header, body, hheader, hsplit⟩
  rw [heredoc?, hheader]
  rfl

/-- Without a header the angle brackets are the shift operator. -/
theorem code_shift (h : heredoc? ('<' :: '<' :: '<' :: cs) = none) :
    code ('<' :: '<' :: '<' :: cs) = ⟨.shl, 2, none⟩ := by
  rw [code_operator rfl h rfl]
  rfl

theorem code_quote (hq : isQuote quote = true) (cs : List Char) :
    code (quote :: cs) = ⟨.string, (closingQuote quote 1 cs).1,
      if (closingQuote quote 1 cs).2 then none else some .unterminatedString⟩ := by
  simp only [code, isQuote_others hq cs, quotedString?, hq, if_true]
  rcases closingQuote quote 1 cs with ⟨n, _ | _⟩ <;> rfl

end Lexeme

namespace Place

open Lexeme

variable {p : Place}

/-- What is wrong with a token in code is wrong with the token alone, where it takes something. -/
theorem next_code_error (dialect : Dialect) (hmode : p.mode = .code)
    (h : (LeadingTrivia.read p.offset p.rest).rest ≠ []) : (p.next dialect).1.error =
      (code (LeadingTrivia.read p.offset p.rest).rest).problem.map
        (Diagnostic.of · (p.next dialect).1.range) := by
  obtain ⟨front, -, hoffset, hwidth, -⟩ := LeadingTrivia.read_precedes p.offset p.rest
  have herror : (LeadingTrivia.read p.offset p.rest).error = none := by
    by_contra hopen
    exact h (LeadingTrivia.readFrom_rest_eq_nil nofun (Option.isSome_iff_ne_none.mpr hopen))
  have hrange : (p.next dialect).1.range = .ofLength (LeadingTrivia.read p.offset p.rest).offset
      (Text.width (p.next dialect).1.text) := by
    rw [hoffset, ← hwidth]
    simp [next, hmode, Token.range, Token.leadingWidth]
  rw [hrange]
  simp [next, hmode, herror]

/-- A string behind its opening: it ends where the search for its end does, or it takes the rest of
the text, which is an error. -/
theorem next_string (dialect : Dialect) (hmode : p.mode = .code) {P : List Char → List Char → Prop}
    {hit : List Char → Nat} {opening body : List Char} {answer : Nat × Bool} {problem : Problem}
    (hrest : (LeadingTrivia.read p.offset p.rest).rest = opening ++ body) (hne : opening ≠ [])
    (hcode : code (opening ++ body) = ⟨.string, answer.1, if answer.2 then none else some problem⟩)
    (hseeks : Text.Seeks P hit opening.length body answer) : (p.next dialect).1.kind = .string ∧
      ((∃ before after, body = before ++ after ∧ First P before after ∧
          (p.next dialect).1.text = opening ++ (before ++ after.take (hit after)) ∧
          (p.next dialect).1.error = none) ∨
        Nowhere P body ∧ (p.next dialect).1.text = opening ++ body ∧
          (p.next dialect).1.error = some (.of problem (p.next dialect).1.range)) := by
  obtain ⟨hkind, htext⟩ := next_lexeme dialect hmode
  have herror := next_code_error dialect hmode (by simp [hrest, hne])
  rw [hrest, hcode] at hkind htext herror
  refine ⟨hkind, ?_⟩
  obtain ⟨before, after, hsplit, first, hfound, htake⟩ | ⟨nowhere, rfl⟩ := hseeks.taken
  · rw [htake] at htext
    rw [hfound] at herror
    exact .inl ⟨before, after, hsplit, first, htext, herror⟩
  · rw [List.take_length] at htext
    exact .inr ⟨nowhere, htext, herror⟩

/-- A token in code begins where its trivia ends. -/
theorem head_next (dialect : Dialect) (hmode : p.mode = .code) :
    (p.next dialect).1.text.head? = (LeadingTrivia.read p.offset p.rest).rest.head? := by
  obtain ⟨-, htext⟩ := next_lexeme dialect hmode
  rw [htext]
  cases hrest : (LeadingTrivia.read p.offset p.rest).rest with
  | nil => rw [List.take_nil]
  | cons c cs =>
    have hpos := (valid_code (List.cons_ne_nil c cs)).length
    obtain ⟨n, hn⟩ := Nat.exists_eq_add_one.mpr hpos
    rw [hn, List.take_succ_cons, List.head?_cons, List.head?_cons]

/-- A token in code that begins with a quote, or that is read where one stands, is a string, and it
ends with the first quote of its kind with an even number of backslashes right before it. If there
is none it takes the rest of the text, and that is reported. -/
theorem next_quoted (dialect : Dialect) (hmode : p.mode = .code) {q : Char}
    (hq : q ∈ ['\x27', '\x22', '\x60']) (hhead : (p.next dialect).1.text.head? = some q ∨
      (LeadingTrivia.read p.offset p.rest).rest.head? = some q) :
    (p.next dialect).1.kind = .string ∧
    ∃ inner, (LeadingTrivia.read p.offset p.rest).rest = q :: inner ∧
      ((∃ before after, inner = before ++ q :: after ∧ First (Closes q) before (q :: after) ∧
          (p.next dialect).1.text = q :: (before ++ [q]) ∧ (p.next dialect).1.error = none) ∨
        Nowhere (Closes q) inner ∧ (p.next dialect).1.text = q :: inner ∧
          (p.next dialect).1.error =
            some ⟨.error, "unterminated string literal", (p.next dialect).1.range⟩) := by
  rw [head_next dialect hmode, or_self] at hhead
  obtain ⟨inner, hrest⟩ := List.head?_eq_some_iff.mp hhead
  have hquote : isQuote q = true := by
    simp only [List.mem_cons, List.not_mem_nil, or_false] at hq
    rcases hq with rfl | rfl | rfl <;> rfl
  have hne : q ≠ '\\' := by
    rintro rfl
    cases hquote
  have hsplit : (LeadingTrivia.read p.offset p.rest).rest = [q] ++ inner := hrest
  obtain ⟨hkind, hends⟩ := next_string dialect hmode hsplit (List.cons_ne_nil q [])
    (code_quote hquote inner) (seeks_closingQuote hne 1 [] inner rfl)
  refine ⟨hkind, inner, hrest, hends.imp ?_ fun hopen => hopen⟩
  rintro ⟨before, after, rfl, first, htext, herror⟩
  obtain ⟨after, rfl⟩ := List.head?_eq_some_iff.mp first.holds.1
  exact ⟨before, after, rfl, first, htext, herror⟩

/-- An escaped quote does not end a string, and a quote behind an escaped backslash does. -/
theorem next_quoted_escaped :
    (next {} ⟨5, .code, [' ', '\x27', '\\', '\x27', '\\', '\\', '\x27', ';']⟩).1 =
      ⟨5, [⟨.whitespace, 1⟩], .string, ['\x27', '\\', '\x27', '\\', '\\', '\x27'], none⟩ ∧
    First (Closes '\x27') ['\\', '\x27', '\\', '\\'] ['\x27', ';'] := by
  have htoken : (next {} ⟨5, .code, [' ', '\x27', '\\', '\x27', '\\', '\\', '\x27', ';']⟩).1 =
      ⟨5, [⟨.whitespace, 1⟩], .string, ['\x27', '\\', '\x27', '\\', '\\', '\x27'], none⟩ := by
    decide +kernel
  refine ⟨htoken, ?_⟩
  obtain ⟨-, inner, hrest, hends⟩ := next_quoted {}
    (p := ⟨5, .code, [' ', '\x27', '\\', '\x27', '\\', '\\', '\x27', ';']⟩) (q := '\x27') rfl
    (by simp) (.inl (by rw [htoken]; rfl))
  obtain rfl : ['\\', '\x27', '\\', '\\', '\x27', ';'] = inner := (List.cons.inj hrest).2
  rw [htoken] at hends
  obtain ⟨before, after, hsplit, first, htext, -⟩ | ⟨-, htext, -⟩ := hends
  · have hbefore : ['\\', '\x27', '\\', '\\'] = before :=
      List.append_cancel_right (List.cons.inj htext).2
    subst hbefore
    obtain rfl : [';'] = after := by simpa using hsplit
    exact first
  · cases htext

/-- Where three angle brackets begin in code, the first line of a heredoc opens a string. It ends
behind the label on the first line that holds blanks, the label and then no more of a name. If there
is no such line it takes the rest of the text, and that is reported. Everything else that begins
like this is the shift operator. -/
theorem next_heredoc (dialect : Dialect) (hmode : p.mode = .code) {tail : List Char}
    (hrest : (LeadingTrivia.read p.offset p.rest).rest = '<' :: '<' :: '<' :: tail) :
    (∀ label header body, IsHeader label header → '<' :: '<' :: '<' :: tail = header ++ body →
      (p.next dialect).1.kind = .string ∧
      ((∃ lines blanks after, body = lines ++ (blanks ++ (label ++ after)) ∧
          First (ClosesLabel label) lines (blanks ++ (label ++ after)) ∧
          (∀ c ∈ blanks, isBlank c = true) ∧ (∀ c ∈ after.head?, isNameContinue c = false) ∧
          (p.next dialect).1.text = header ++ (lines ++ (blanks ++ label)) ∧
          (p.next dialect).1.error = none) ∨
        Nowhere (ClosesLabel label) body ∧ (p.next dialect).1.text = header ++ body ∧
          (p.next dialect).1.error =
            some ⟨.error, "unterminated heredoc", (p.next dialect).1.range⟩)) ∧
    ((¬∃ label header body, IsHeader label header ∧ '<' :: '<' :: '<' :: tail = header ++ body) →
      (p.next dialect).1.kind = .shl ∧ (p.next dialect).1.text = ['<', '<']) := by
  constructor
  · intro label header body hheader hsplit
    have hlabel := hheader.isName
    obtain ⟨hkind, hends⟩ := next_string dialect hmode (hrest.trans hsplit) hheader.ne_nil
      (code_header hheader body) (seeks_closingLabel hlabel _ [] body (by simp [BeginsLine]))
    refine ⟨hkind, hends.imp ?_ fun hopen => hopen⟩
    rintro ⟨lines, line, rfl, first, htext, herror⟩
    obtain ⟨-, blanks, after, rfl, hblanks, hstop⟩ := first.holds
    refine ⟨lines, blanks, after, rfl, first, hblanks, hstop, ?_, herror⟩
    rw [htext, (blankLength_append hblanks (hlabel.head_isBlank after)).1,
      List.take_length_add_append, List.take_left]
  · intro hnone
    have hlexeme := next_lexeme dialect hmode
    rw [hrest, code_shift (heredoc_none hnone)] at hlexeme
    exact hlexeme

/-- A line that goes on behind the label does not end a heredoc, and one that begins with a blank
does. -/
theorem next_heredoc_indented :
    (next {} ⟨5, .code, ['<', '<', '<', 'E', '\n', 'E', 's', '\n', ' ', 'E', ';']⟩).1 =
      ⟨5, [], .string, ['<', '<', '<', 'E', '\n', 'E', 's', '\n', ' ', 'E'], none⟩ ∧
    ∃ lines blanks, lines ++ blanks = ['E', 's', '\n', ' '] ∧ (∀ c ∈ blanks, isBlank c = true) ∧
      First (ClosesLabel ['E']) lines (blanks ++ ['E', ';']) := by
  have htoken : (next {} ⟨5, .code, ['<', '<', '<', 'E', '\n', 'E', 's', '\n', ' ', 'E', ';']⟩).1 =
      ⟨5, [], .string, ['<', '<', '<', 'E', '\n', 'E', 's', '\n', ' ', 'E'], none⟩ := by
    decide +kernel
  have hheader : IsHeader ['E'] ['<', '<', '<', 'E', '\n'] :=
    ⟨[], [], ['\n'], rfl, by simp, by simp, ⟨'E', [], rfl, rfl, by simp⟩, by simp⟩
  obtain ⟨hopens, -⟩ := next_heredoc {}
    (p := ⟨5, .code, ['<', '<', '<', 'E', '\n', 'E', 's', '\n', ' ', 'E', ';']⟩) rfl rfl
  obtain ⟨-, hends⟩ := hopens _ _ ['E', 's', '\n', ' ', 'E', ';'] hheader rfl
  refine ⟨htoken, ?_⟩
  rw [htoken] at hends
  obtain ⟨lines, blanks, after, hsplit, first, hblanks, -, htext, -⟩ | ⟨-, htext, -⟩ := hends
  · have htail : ['E', 's', '\n', ' '] ++ ['E'] = lines ++ blanks ++ ['E'] := by
      simpa using htext
    have hfront : ['E', 's', '\n', ' '] = lines ++ blanks := List.append_cancel_right htail
    rw [← List.append_assoc, ← hfront] at hsplit
    obtain rfl : [';'] = after := by simpa using hsplit
    exact ⟨lines, blanks, hfront.symm, hblanks, first⟩
  · cases htext

end Place
end PhpSyntax
