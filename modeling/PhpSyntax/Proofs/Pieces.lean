import PhpSyntax.Proofs.Words

/-!
The grammar of trivia. Before a token in code stands a chain of pieces: runs of blanks that cannot
be made longer, line breaks, and comments that end at the first place where they can end. The chain
goes on as long as there is a next piece.
-/
namespace PhpSyntax

namespace Text

/-- The first place in a text where something holds of what stands before and behind it. -/
structure First (P : List Char → List Char → Prop) (before after : List Char) : Prop where
  holds : P before after
  least : ∀ b a, b ++ a = before ++ after → P b a → before.length ≤ b.length

/-- There is no such place in a text. -/
def Nowhere (P : List Char → List Char → Prop) (cs : List Char) : Prop :=
  ∀ b a, b ++ a = cs → ¬P b a

variable {P : List Char → List Char → Prop} {c : Char} {cs before after : List Char}

theorem First.nil (h : P [] cs) : First P [] cs := ⟨h, fun _ _ _ _ => Nat.zero_le _⟩

theorem First.cons (hnot : ¬P [] (c :: (before ++ after)))
    (h : First (fun b => P (c :: b)) before after) : First P (c :: before) after := by
  refine ⟨h.holds, fun b a hsplit hP => ?_⟩
  cases b with
  | nil =>
    obtain rfl : a = c :: (before ++ after) := hsplit
    exact absurd hP hnot
  | cons d b =>
    obtain ⟨rfl, htail⟩ := List.cons.inj hsplit
    exact Nat.succ_le_succ (h.least b a htail hP)

theorem Nowhere.nil (h : ¬P [] []) : Nowhere P [] := by
  intro b a hsplit
  obtain ⟨rfl, rfl⟩ := List.append_eq_nil_iff.mp hsplit
  exact h

theorem Nowhere.cons (hnot : ¬P [] (c :: cs)) (h : Nowhere (fun b => P (c :: b)) cs) :
    Nowhere P (c :: cs) := by
  intro b a hsplit hP
  cases b with
  | nil =>
    obtain rfl : a = c :: cs := hsplit
    exact hnot hP
  | cons d b =>
    obtain ⟨rfl, htail⟩ := List.cons.inj hsplit
    exact h b a htail hP

/-- The answer of a search that has counted `n` characters: those up to the first place in a text
and `hit` more, or all of them, with `false`, if there is no such place. -/
inductive Seeks (P : List Char → List Char → Prop) (hit : List Char → Nat) (n : Nat)
    (cs : List Char) (answer : Nat × Bool) : Prop where
  | found {b a : List Char} (split : cs = b ++ a) (first : First P b a)
    (eq : answer = (n + b.length + hit a, true)) : Seeks P hit n cs answer
  | missed (nowhere : Nowhere P cs) (eq : answer = (n + cs.length, false)) : Seeks P hit n cs answer

section Seeks

variable {hit : List Char → Nat} {n : Nat} {answer : Nat × Bool}

theorem Seeks.nil (h : ¬P [] []) : Seeks P hit n [] (n, false) := .missed (.nil h) rfl

theorem Seeks.here (h : P [] cs) : Seeks P hit n cs (n + hit cs, true) := .found rfl (.nil h) rfl

theorem Seeks.cons (hnot : ¬P [] (c :: cs))
    (h : Seeks (fun b => P (c :: b)) hit (n + 1) cs answer) : Seeks P hit n (c :: cs) answer := by
  cases h with
  | @found before _ split first eq =>
    subst split
    refine .found rfl (first.cons hnot) ?_
    rw [eq, List.length_cons, Nat.add_right_comm n 1, Nat.add_assoc n]
  | missed nowhere eq =>
    refine .missed (nowhere.cons hnot) ?_
    rw [eq, List.length_cons, Nat.add_right_comm n 1, Nat.add_assoc n]

/-- What a search takes of a text behind its opening. -/
theorem Seeks.taken {opening body : List Char} (h : Seeks P hit opening.length body answer) :
    (∃ before after, body = before ++ after ∧ First P before after ∧ answer.2 = true ∧
      (opening ++ body).take answer.1 = opening ++ (before ++ after.take (hit after))) ∨
    Nowhere P body ∧ answer = ((opening ++ body).length, false) := by
  cases h with
  | @found before after split first eq =>
    subst split eq
    refine .inl ⟨before, after, rfl, first, rfl, ?_⟩
    rw [Nat.add_assoc, List.take_length_add_append, List.take_length_add_append]
  | missed nowhere eq => exact .inr ⟨nowhere, by rw [eq, List.length_append]⟩

end Seeks

/-- Blanks do not go on from one text to the other. -/
def Apart (before after : List Char) : Prop :=
  ∀ c ∈ before.getLast?, ∀ d ∈ after.head?, ¬(Lexeme.isBlank c = true ∧ Lexeme.isBlank d = true)

namespace Apart

theorem of_last (h : ∀ c ∈ before.getLast?, Lexeme.isBlank c = false) : Apart before after := by
  rintro c hc d - ⟨hblank, -⟩
  rw [h c hc] at hblank
  cases hblank

theorem of_head (h : ∀ c ∈ after.head?, Lexeme.isBlank c = false) : Apart before after := by
  rintro c - d hd ⟨-, hblank⟩
  rw [h d hd] at hblank
  cases hblank

/-- Only what stands right before a text matters. -/
theorem append_left (h : Apart before after) (hne : before ≠ []) (cs : List Char) :
    Apart (cs ++ before) after := by
  intro c hc
  rw [Option.mem_def, List.getLast?_append_of_ne_nil cs hne] at hc
  exact h c hc

end Apart

end Text

open Text (First Nowhere Seeks Apart)

/-! ## Pieces of trivia -/

namespace TriviaKind

/-- A line ends here, or a close tag begins. -/
def EndsLine (cs : List Char) : Prop :=
  cs.head? = some '\n' ∨ cs.head? = some '\r' ∨ ['?', '>'] <+: cs

/-- White space follows the two stars at the beginning of the comment. -/
def IsDoc (text : List Char) : Prop :=
  ∃ c more, text = '/' :: '*' :: '*' :: c :: more ∧ c ∈ [' ', '\t', '\n', '\x0c', '\r']

/-- The kind of a block comment. -/
def IsBlock (kind : TriviaKind) (text : List Char) : Prop :=
  kind = .docComment ∧ IsDoc text ∨ kind = .multiLineComment ∧ ¬IsDoc text

/-- A block comment that does not end. -/
def IsOpen (kind : TriviaKind) (text : List Char) : Prop :=
  (kind = .docComment ∨ kind = .multiLineComment) ∧
    ∃ inner, text = '/' :: '*' :: inner ∧ Nowhere (fun _ a => ['*', '/'] <+: a) inner

/-- The texts of a kind of trivia, between what stands before and behind them. -/
inductive Spells (before : List Char) : TriviaKind → (text after : List Char) → Prop where
  | blanks {text after} (taken : text ≠ []) (inside : ∀ c ∈ text, Lexeme.isBlank c = true)
    (start : ∀ c ∈ before.getLast?, Lexeme.isBlank c = false)
    (stop : ∀ c ∈ after.head?, Lexeme.isBlank c = false) : Spells before .whitespace text after
  | lineBreak {text after} (spelled : text = ['\r', '\n'] ∨ text = ['\n'] ∨
      text = ['\r'] ∧ after.head? ≠ some '\n') : Spells before .newline text after
  | line {text after} (begins : ['#'] <+: text ∨ ['/', '/'] <+: text)
    (stop : First (fun _ a => a = [] ∨ EndsLine a) text after) :
    Spells before .singleLineComment text after
  | block {kind inner after} (isBlock : IsBlock kind ('/' :: '*' :: (inner ++ ['*', '/'])))
    (stop : First (fun _ a => ['*', '/'] <+: a) inner ('*' :: '/' :: after)) :
    Spells before kind ('/' :: '*' :: (inner ++ ['*', '/'])) after
  | openBlock {kind inner} (isBlock : IsBlock kind ('/' :: '*' :: inner))
    (endless : Nowhere (fun _ a => ['*', '/'] <+: a) inner) :
    Spells before kind ('/' :: '*' :: inner) []

end TriviaKind

/-- A blank, a line break or a comment begins here. -/
def BeginsTrivia (cs : List Char) : Prop :=
  (∃ c, cs.head? = some c ∧ c ∈ [' ', '\t', '\r', '\n', '#']) ∨
    ['/', '/'] <+: cs ∨ ['/', '*'] <+: cs

/-- Pieces of trivia one after the other, from the beginning of a text up to its rest, where none
begins. -/
inductive TriviaPiece.Chain :
    (before : List Char) → List TriviaPiece → (text rest : List Char) → Prop where
  | nil {before rest} (ended : ¬BeginsTrivia rest) : Chain before [] rest rest
  | cons {before kind text after pieces rest} (spelled : kind.Spells before text after)
    (tail : Chain (before ++ text) pieces after rest) :
    Chain before (⟨kind, Text.width text⟩ :: pieces) (text ++ after) rest

namespace TriviaScan

variable {before cs : List Char} {scan : TriviaScan} {c : Char}

theorem lineCommentFrom_eq (n : Nat) (cs : List Char) : ∃ b a, cs = b ++ a ∧
    First (fun _ a => a = [] ∨ TriviaKind.EndsLine a) b a ∧
      lineCommentFrom n cs = n + b.length := by
  induction cs generalizing n with
  | nil => exact ⟨[], [], rfl, .nil (.inl rfl), rfl⟩
  | cons c cs ih =>
    have hends : (c == '\n' || c == '\r' || (c == '?' && cs.head? == some '>')) = true ↔
        TriviaKind.EndsLine (c :: cs) := by
      cases cs <;> simp [TriviaKind.EndsLine, or_assoc, eq_comm (a := '?'), eq_comm (a := '>')]
    rw [lineCommentFrom]
    split
    · next h => exact ⟨[], c :: cs, rfl, .nil (.inr (hends.mp h)), rfl⟩
    · next h =>
      obtain ⟨b, a, rfl, hfirst, hlength⟩ := ih (n + 1)
      refine ⟨c :: b, a, rfl, .cons ?_ hfirst, ?_⟩
      · rintro (hnil | hstop)
        · cases hnil
        · exact h (hends.mpr hstop)
      · rw [hlength, List.length_cons]
        omega

theorem seeks_closingStar (n : Nat) (cs : List Char) :
    Seeks (fun _ a => ['*', '/'] <+: a) (fun _ => 2) n cs (closingStar n cs) := by
  induction cs generalizing n with
  | nil => exact .nil (by simp)
  | cons c cs ih =>
    have hcloses : (c == '*' && cs.head? == some '/') = true ↔ ['*', '/'] <+: c :: cs := by
      cases cs <;> simp [eq_comm (a := '*'), eq_comm (a := '/')]
    rw [closingStar]
    split
    · next h => exact .here (hcloses.mp h)
    · next h => exact .cons (fun hstop => h (hcloses.mpr hstop)) (ih (n + 1))

/-- A line comment holds the characters that it begins with. -/
theorem begins_line {b a : List Char} (hc : (c == '#' || (c == '/' && cs.head? == some '/')) = true)
    (hsplit : c :: cs = b ++ a) (hstop : a = [] ∨ TriviaKind.EndsLine a) :
    ['#'] <+: b ∨ ['/', '/'] <+: b := by
  have hgoes {d : Char} {more : List Char} (hd : d = '#' ∨ d = '/') :
      ¬(d :: more = [] ∨ TriviaKind.EndsLine (d :: more)) := by
    rcases hd with rfl | rfl <;> simp [TriviaKind.EndsLine]
  simp only [Bool.or_eq_true, Bool.and_eq_true, beq_iff_eq] at hc
  rcases hc with rfl | ⟨rfl, hhead⟩
  · cases b with
    | nil =>
      obtain rfl : '#' :: cs = a := hsplit
      exact absurd hstop (hgoes (.inl rfl))
    | cons d b =>
      obtain ⟨rfl, -⟩ := List.cons.inj hsplit
      exact .inl (by simp)
  · obtain ⟨more, rfl⟩ := List.head?_eq_some_iff.mp hhead
    match b with
    | [] =>
      obtain rfl : '/' :: '/' :: more = a := hsplit
      exact absurd hstop (hgoes (.inr rfl))
    | [d] =>
      obtain rfl : '/' :: more = a := (List.cons.inj hsplit).2
      exact absurd hstop (hgoes (.inr rfl))
    | d :: e :: b =>
      obtain ⟨rfl, htail⟩ := List.cons.inj hsplit
      obtain ⟨rfl, -⟩ := List.cons.inj htail
      exact .inr (by simp)

/-- The characters behind the opening of a block comment tell whether it is a doc comment. -/
theorem isDoc_iff (more : List Char) : TriviaKind.IsDoc ('/' :: '*' :: more) ↔
    (more[0]? == some '*' && more[1]?.any Lexeme.isAsciiWhitespace) = true := by
  match more with
  | [] | [_] => simp [TriviaKind.IsDoc]
  | c :: d :: more =>
    simp [TriviaKind.IsDoc, Lexeme.isAsciiWhitespace, or_assoc]

theorem isBlock_of_doc {doc : Bool} {text : List Char} (h : TriviaKind.IsDoc text ↔ doc = true) :
    TriviaKind.IsBlock (if doc then .docComment else .multiLineComment) text := by
  cases doc with
  | true => exact .inl ⟨rfl, h.mpr rfl⟩
  | false => exact .inr ⟨rfl, fun hdoc => Bool.false_ne_true (h.mp hdoc)⟩

/-- What a scan takes of a text. -/
structure Takes (before : List Char) (scan : TriviaScan) (text after : List Char) : Prop where
  length : text.length = scan.length
  spells : scan.kind.Spells before text after
  terminated : scan.terminated = false ↔ scan.kind.IsOpen text

/-- Only a block comment can be without an end. -/
theorem terminated_iff {kind : TriviaKind} {n : Nat} {text : List Char}
    (h : kind ∈ [.whitespace, .newline, .singleLineComment]) :
    (⟨kind, n, true⟩ : TriviaScan).terminated = false ↔ kind.IsOpen text := by
  refine iff_of_false Bool.false_ne_true.symm ?_
  rintro ⟨rfl | rfl, -⟩ <;> simp at h

theorem takes_block (before more : List Char) : ∃ text after,
    '/' :: '*' :: more = text ++ after ∧
      Takes before (blockComment ('/' :: '*' :: more)) text after := by
  have hscan : blockComment ('/' :: '*' :: more) =
      ⟨if more[0]? == some '*' && more[1]?.any Lexeme.isAsciiWhitespace then .docComment
        else .multiLineComment, (closingStar 2 more).1, (closingStar 2 more).2⟩ := rfl
  rw [hscan]
  cases seeks_closingStar 2 more with
  | @found inner _ split first eq =>
    obtain ⟨after, rfl⟩ := first.holds
    have hdoc := isDoc_iff (inner ++ ['*', '/'])
    have hhead (k : Nat) (hk : k < 2) : more[k]? = (inner ++ ['*', '/'])[k]? := by
      have hlength : k < (inner ++ ['*', '/']).length := by simp; omega
      rw [split, ← List.append_assoc, List.getElem?_append_left hlength]
    rw [eq, hhead 0 (by decide), hhead 1 (by decide)]
    refine ⟨'/' :: '*' :: (inner ++ ['*', '/']), after, by simp [split], ?_, ?_, ?_⟩
    · simp
      omega
    · exact .block (isBlock_of_doc hdoc) first
    · refine iff_of_false Bool.false_ne_true.symm ?_
      rintro ⟨-, inner', heq, nowhere⟩
      obtain ⟨-, heq⟩ := List.cons.inj heq
      obtain ⟨-, rfl⟩ := List.cons.inj heq
      exact nowhere inner ['*', '/'] rfl (List.prefix_refl _)
  | missed nowhere eq =>
    rw [eq]
    refine ⟨'/' :: '*' :: more, [], by simp, ?_, ?_, ?_⟩
    · simp
      omega
    · exact .openBlock (isBlock_of_doc (isDoc_iff more)) nowhere
    · exact iff_of_true rfl ⟨(isBlock_of_doc (isDoc_iff more)).imp And.left And.left, more, rfl,
        nowhere⟩

/-- A piece that is read is spelled as its kind asks for. -/
theorem exists_takes (h : first? cs = some scan) (hapart : Apart before cs) :
    ∃ text after, cs = text ++ after ∧ Takes before scan text after := by
  cases cs with
  | nil => cases h
  | cons c cs =>
    rw [first?] at h
    split at h
    · next hc =>
      obtain rfl := Option.some.inj h
      refine ⟨(c :: cs).takeWhile Lexeme.isBlank, (c :: cs).dropWhile Lexeme.isBlank,
        List.takeWhile_append_dropWhile.symm, rfl, .blanks ?_ ?_ ?_ ?_, terminated_iff (by simp)⟩
      · simp [hc]
      · exact List.all_eq_true.mp List.all_takeWhile
      · intro d hd
        exact Bool.eq_false_iff.mpr fun hblank => hapart d hd c rfl ⟨hblank, hc⟩
      · intro d hd
        have hstop := List.head?_dropWhile_not Lexeme.isBlank (c :: cs)
        rwa [hd] at hstop
    split at h
    · next hc =>
      obtain rfl : c = '\n' := beq_iff_eq.mp hc
      obtain rfl := Option.some.inj h
      exact ⟨['\n'], cs, rfl, rfl, .lineBreak (.inr (.inl rfl)), terminated_iff (by simp)⟩
    split at h
    · next hc =>
      obtain rfl : c = '\r' := beq_iff_eq.mp hc
      obtain rfl := Option.some.inj h
      by_cases hn : cs.head? = some '\n'
      · obtain ⟨cs, rfl⟩ := List.head?_eq_some_iff.mp hn
        exact ⟨['\r', '\n'], cs, rfl, rfl, .lineBreak (.inl rfl), terminated_iff (by simp)⟩
      · exact ⟨['\r'], cs, rfl, by simp [hn], .lineBreak (.inr (.inr ⟨rfl, hn⟩)),
          terminated_iff (by simp)⟩
    split at h
    · next hc =>
      obtain rfl := Option.some.inj h
      obtain ⟨b, a, hsplit, hfirst, hlength⟩ := lineCommentFrom_eq 0 (c :: cs)
      refine ⟨b, a, hsplit, by simpa using hlength.symm, .line ?_ hfirst, terminated_iff (by simp)⟩
      exact begins_line hc hsplit hfirst.holds
    split at h
    · next hc =>
      obtain rfl := Option.some.inj h
      simp only [Bool.and_eq_true, beq_iff_eq] at hc
      obtain ⟨rfl, hhead⟩ := hc
      obtain ⟨more, rfl⟩ := List.head?_eq_some_iff.mp hhead
      exact takes_block before more
    · cases h

end TriviaScan

namespace TriviaKind

variable {kind : TriviaKind} {before text after : List Char}

theorem Spells.ne_nil (h : kind.Spells before text after) : text ≠ [] := by
  rintro rfl
  cases h with
  | blanks taken => exact taken rfl
  | lineBreak spelled => simp at spelled
  | line begins => simp at begins

/-- Behind a piece of trivia no blanks go on. -/
theorem Spells.apart (h : kind.Spells before text after) : Apart text after := by
  cases h with
  | blanks _ _ _ stop => exact .of_head stop
  | lineBreak spelled =>
    refine .of_last ?_
    rcases spelled with rfl | rfl | ⟨rfl, -⟩ <;> simp [Lexeme.isBlank]
  | line _ stop =>
    refine .of_head fun c hc => ?_
    rcases stop.holds with rfl | hends | hends | ⟨tail, rfl⟩
    · cases hc
    · rw [hends] at hc
      obtain rfl := Option.some.inj hc
      rfl
    · rw [hends] at hc
      obtain rfl := Option.some.inj hc
      rfl
    · obtain rfl := Option.some.inj hc
      rfl
  | @block _ inner =>
    refine .of_last ?_
    rw [← List.cons_append, ← List.cons_append, List.getLast?_append]
    simp [Lexeme.isBlank]
  | openBlock => exact .of_head (by simp)

end TriviaKind

theorem beginsTrivia_iff (cs : List Char) :
    BeginsTrivia cs ↔ (TriviaScan.first? cs).isSome = true := by
  cases cs with
  | nil => simp [BeginsTrivia, TriviaScan.first?]
  | cons c cs =>
    rw [Option.isSome_iff_ne_none, ne_eq, TriviaScan.first_eq_none]
    cases cs <;> simp [BeginsTrivia, TriviaScan.begins, Lexeme.isBlank] <;> grind

namespace LeadingTrivia

/-- What is read is a chain of pieces. -/
theorem readFrom_chain (lead : LeadingTrivia) (skip : Nat) (cs before : List Char)
    (hapart : Apart before (cs.drop skip)) : ∃ pieces,
    (readFrom lead skip cs).pieces = pieces.reverse ++ lead.pieces ∧
    TriviaPiece.Chain before pieces (cs.drop skip) (readFrom lead skip cs).rest := by
  induction cs generalizing lead skip before with
  | nil =>
    rw [List.drop_nil, readFrom]
    exact ⟨[], rfl, .nil (by simp [BeginsTrivia])⟩
  | cons c cs ih =>
    cases skip with
    | succ skip =>
      rw [readFrom]
      exact ih lead skip before hapart
    | zero =>
      rw [readFrom]
      split
      · next hnone =>
        refine ⟨[], rfl, .nil ?_⟩
        rw [List.drop_zero, beginsTrivia_iff, hnone]
        exact Bool.false_ne_true
      · next scan hscan =>
        obtain ⟨text, after, hsplit, htakes⟩ := TriviaScan.exists_takes hscan hapart
        obtain ⟨d, tail, rfl⟩ := List.exists_cons_of_ne_nil htakes.spells.ne_nil
        obtain ⟨rfl, rfl⟩ : c = d ∧ cs = tail ++ after := List.cons.inj hsplit
        have hlength : tail.length + 1 = scan.length := htakes.length
        have hdrop : (tail ++ after).drop (scan.length - 1) = after := by
          rw [← hlength, Nat.add_sub_cancel, List.drop_left]
        have htake : (c :: (tail ++ after)).take scan.length = c :: tail := by
          rw [← hlength, List.take_succ_cons, List.take_left]
        obtain ⟨pieces, hpieces, hchain⟩ := ih (lead.add scan (c :: tail)) (scan.length - 1)
          (before ++ c :: tail)
          (hdrop.symm ▸ htakes.spells.apart.append_left htakes.spells.ne_nil before)
        rw [hdrop] at hchain
        rw [htake]
        refine ⟨⟨scan.kind, Text.width (c :: tail)⟩ :: pieces, ?_, .cons htakes.spells hchain⟩
        rw [hpieces, add]
        simp

theorem read_chain (offset : Nat) {before cs : List Char} (hapart : Apart before cs) :
    TriviaPiece.Chain before (read offset cs).pieces cs (read offset cs).rest := by
  obtain ⟨pieces, hpieces, hchain⟩ := readFrom_chain ⟨[], none, offset, []⟩ 0 cs before hapart
  rw [read, hpieces, List.append_nil, List.reverse_reverse]
  exact hchain

end LeadingTrivia
end PhpSyntax
