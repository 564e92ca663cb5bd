import PhpSyntax.Proofs.Complaints
import PhpSyntax.Proofs.Expressions

/-!
Arguments of calls: variables by position, variables that are spread, and variables under a name. A
name is an argument's only if the list takes its first token for the beginning of an argument.
-/
namespace PhpSyntax

open Grammar (php postfixed postfixes postfixFirst)
open Word (mark written Legible)

/-- An argument that is a variable. -/
inductive Argument where
  | plain (value : Spelled .variableName)
  /-- `...$x` -/
  | spread (value : Spelled .variableName)
  /-- `name: $x`, where the name may be a reserved word. -/
  | named (name : MemberName) (value : Spelled .variableName)

namespace Argument

def value : Argument → Spelled .variableName
  | plain x | spread x | named _ x => x

/-- What stands before the value. -/
def label : Argument → List Word
  | plain _ => []
  | spread _ => [mark .ellipsis]
  | named name _ => [name.word, mark .colon]

def words (a : Argument) : List Word := a.label ++ [a.value.word]

def tree (a : Argument) : Sprout :=
  .branch .arg (a.label.map (.token ·.token) ++ [(Expr.var a.value).tree])

/-- How an argument is written. -/
def text : Argument → List Char
  | plain x => x.text
  | spread x => "...".toList ++ x.text
  | named name x => name.spelled.text ++ ": ".toList ++ x.text

/-- Whether the list takes the first token for the beginning of an argument. -/
def isWelcome (a : Argument) : Bool := Grammar.argumentFirst.contains (Word.first a.words)

/-- Arguments with commas between them. -/
def listWords : List Argument → List Word
  | [] => []
  | [a] => a.words
  | a :: a' :: as => a.words ++ mark .comma :: listWords (a' :: as)

def listTrees : List Argument → List Sprout
  | [] => []
  | [a] => [a.tree]
  | a :: a' :: as => a.tree :: .token (mark .comma).token :: listTrees (a' :: as)

/-- The function that is called. -/
def function : Word := (.name, ['f'])

/-- `f(a, b, …);` -/
def callWords (as : List Argument) : List Word :=
  function :: mark .leftParen :: (listWords as ++ [mark .rightParen, mark .semicolon])

/-- The text `<?php f(a, b, …);` -/
def callText (as : List Argument) : List Char :=
  "<?php f(".toList ++ ", ".toList.intercalate (as.map text) ++ ");".toList

/-! ## Texts of calls -/

/-- The words of an argument, with a blank after a colon. -/
def pieces (blank : Bool) : Argument → List (Bool × Word)
  | plain x => [(blank, x.word)]
  | spread x => [(blank, mark .ellipsis), (false, x.word)]
  | named name x => [(blank, name.word), (false, mark .colon), (true, x.word)]

def listPieces : Bool → List Argument → List (Bool × Word)
  | _, [] => []
  | blank, [a] => a.pieces blank
  | blank, a :: a' :: as => a.pieces blank ++ (false, mark .comma) :: listPieces true (a' :: as)

def callPieces (as : List Argument) : List (Bool × Word) :=
  (true, function) :: (false, mark .leftParen) ::
    (listPieces false as ++ [(false, mark .rightParen), (false, mark .semicolon)])

theorem words_pieces (a : Argument) (blank : Bool) : (a.pieces blank).map Prod.snd = a.words := by
  cases a <;> rfl

theorem words_listPieces (as : List Argument) (blank : Bool) :
    (listPieces blank as).map Prod.snd = listWords as := by
  match as with
  | [] => rfl
  | [a] => exact a.words_pieces blank
  | a :: a' :: as =>
    rw [listPieces, List.map_append, words_pieces, List.map_cons, words_listPieces (a' :: as)]
    rfl

theorem words_callPieces (as : List Argument) : (callPieces as).map Prod.snd = callWords as := by
  simp [callPieces, callWords, words_listPieces]

section Pieces

variable {ps : List (Bool × Word)}

theorem written_pieces (a : Argument) (blank : Bool) (ps : List (Bool × Word)) :
    written (a.pieces blank ++ ps) =
      List.replicate blank.toNat ' ' ++ (a.text ++ written ps) := by
  cases a with
  | plain x => rfl
  | spread x =>
    rw [text, List.append_assoc]
    rfl
  | named name x =>
    rw [text, List.append_assoc, List.append_assoc]
    rfl

theorem written_listPieces (a : Argument) (as : List Argument) (blank : Bool) :
    written (listPieces blank (a :: as) ++ ps) = List.replicate blank.toNat ' ' ++
      (", ".toList.intercalate ((a :: as).map text) ++ written ps) := by
  induction as generalizing a blank with
  | nil =>
    have hone : ", ".toList.intercalate ([a].map text) = a.text := List.append_nil _
    rw [hone]
    exact a.written_pieces blank ps
  | cons a' as ih =>
    have hmore : ", ".toList.intercalate ((a :: a' :: as).map text) =
        a.text ++ (", ".toList ++ ", ".toList.intercalate ((a' :: as).map text)) := rfl
    rw [listPieces, List.append_assoc, written_pieces, hmore, List.append_assoc, List.append_assoc,
      List.cons_append, written, ih]
    rfl

theorem written_callPieces (as : List Argument) :
    Word.openTag.2 ++ written (callPieces as) = callText as := by
  have hopen (xs ys : List Char) :
      "<?php f(".toList ++ xs ++ ys = Word.openTag.2 ++ ([' ', 'f', '('] ++ (xs ++ ys)) := by
    have hstart : "<?php f(".toList = Word.openTag.2 ++ [' ', 'f', '('] := by decide
    rw [hstart, List.append_assoc, List.append_assoc]
  have hclose : written [(false, mark .rightParen), (false, mark .semicolon)] = ");".toList := rfl
  have hlist : written
      (listPieces false as ++ [(false, mark .rightParen), (false, mark .semicolon)]) =
      ", ".toList.intercalate (as.map text) ++ ");".toList := by
    cases as with
    | nil =>
      rw [List.map_nil, List.intercalate_nil, List.nil_append]
      exact hclose
    | cons a as => exact written_listPieces a as false
  calc Word.openTag.2 ++ written (callPieces as)
      = Word.openTag.2 ++ ([' ', 'f', '('] ++
          (", ".toList.intercalate (as.map text) ++ ");".toList)) :=
        congrArg (fun cs => Word.openTag.2 ++ ([' ', 'f', '('] ++ cs)) hlist
    _ = callText as := (hopen _ _).symm

theorem legible_pieces (a : Argument) (blank : Bool) (h : Legible ps)
    (hps : ∀ c ∈ (written ps).head?, Lexeme.isNameContinue c = false) :
    Legible (a.pieces blank ++ ps) := by
  cases a with
  | plain x => exact ⟨x.isWord.stands_variable hps, h⟩
  | spread x => exact ⟨⟨rfl, rfl, nofun, nofun⟩, x.isWord.stands_variable hps, h⟩
  | named name x =>
    refine ⟨name.spelled.isWord.stands_name name.isNameLike ?_, ⟨rfl, rfl, nofun, nofun⟩,
      x.isWord.stands_variable hps, h⟩
    exact fun c hc => by
      obtain rfl : ':' = c := Option.some.inj hc
      decide

theorem legible_listPieces (as : List Argument) (blank : Bool) (h : Legible ps)
    (hps : ∀ c ∈ (written ps).head?, Lexeme.isNameContinue c = false) :
    Legible (listPieces blank as ++ ps) := by
  match as with
  | [] => exact h
  | [a] => exact a.legible_pieces blank h hps
  | a :: a' :: as =>
    rw [listPieces, List.append_assoc]
    refine a.legible_pieces blank ⟨⟨rfl, rfl, nofun, nofun⟩,
      legible_listPieces (a' :: as) true h hps⟩ ?_
    exact fun c hc => by
      obtain rfl : ',' = c := Option.some.inj hc
      decide

/-- No argument makes a cast of the parenthesis before it. -/
theorem cast_pieces (a : Argument) (ps : List (Bool × Word)) :
    Lexeme.cast? ('(' :: written (a.pieces false ++ ps)) = none := by
  rw [written_pieces]
  cases a with
  | plain x =>
    obtain ⟨cs, hx, -⟩ := x.isWord.eq_variable
    simp only [text, hx]
    exact Lexeme.cast_symbol rfl rfl _
  | spread x => exact Lexeme.cast_symbol rfl rfl _
  | named name x =>
    rw [text, List.append_assoc, List.append_assoc]
    exact name.spelled.isWord.cast_label name.isNameLike

theorem legible_callPieces (as : List Argument) : Legible (callPieces as) := by
  have hclose : Legible [(false, mark .rightParen), (false, mark .semicolon)] :=
    ⟨⟨rfl, rfl, nofun, nofun⟩, ⟨rfl, rfl, nofun, nofun⟩, trivial⟩
  have hcast : Lexeme.cast? ('(' :: written (listPieces false as ++
      [(false, mark .rightParen), (false, mark .semicolon)])) = none := by
    match as with
    | [] => exact Lexeme.cast_symbol rfl rfl _
    | [a] => exact a.cast_pieces _
    | a :: a' :: as =>
      rw [listPieces, List.append_assoc]
      exact a.cast_pieces _
  have hfunction : Lexeme.IsWord .name ['f'] := by decide
  refine ⟨hfunction.stands_name rfl ?_, Lexeme.stands_paren hcast,
    legible_listPieces as false hclose ?_⟩
  · exact fun c hc => by
      obtain rfl : '(' = c := Option.some.inj hc
      decide
  · exact fun c hc => by
      obtain rfl : ')' = c := Option.some.inj hc
      decide

end Pieces

/-- The tokens of a call. -/
theorem tokens_callText (as : List Argument) (dialect : Dialect) :
    Token.significant (tokenize dialect (callText as)) =
      Word.openTag :: callWords as ++ [Word.eof] ∧
    ∀ t ∈ tokenize dialect (callText as), t.error = none := by
  rw [← written_callPieces, ← words_callPieces]
  exact Word.tokens_opened (legible_callPieces as) rfl dialect

/-! ## What calls lead to -/

variable {rest : List Word} {cs : List Sprout} {f : Found}

theorem climbs_var (x : Spelled .variableName) : Expr.Climbs (.var x) := ((Expr.var x).climbs rfl).1

/-- An argument before a comma or a parenthesis, whatever its name is. -/
theorem leads (a : Argument) {k : Kind} (hc : Expr.closes k = true) :
    Leads php Grammar.argument ⟨a.words ++ mark k :: rest, cs, f⟩
      ⟨mark k :: rest, cs ++ [a.tree], .last⟩ := by
  cases a with
  | plain x => exact Expr.argument_leads (climbs_var x) hc
  | spread x =>
    have hname : Grammar.nameLike.contains .ellipsis = false := by decide
    refine .node ((Leads.no ?_ .done).andThen (.yes rfl ((Leads.mark (by decide)).andThen
      (.no rfl (Expr.Climbs.before (climbs_var x) hc)))))
    exact Bool.and_eq_false_iff.mpr (.inl hname)
  | named name x =>
    have hlabel : Spot.holds ⟨name.word :: mark .colon :: x.word :: mark k :: rest, [], f.bury⟩
        (.and (.kindIn Grammar.nameLike) (.aheadIn 1 (.single .colon))) = true := by
      have hname : Grammar.nameLike.contains name.kind = true := by
        rw [Grammar.nameLike, KindSet.contains_ofList, List.contains_iff_mem]
        exact List.mem_filter.mpr ⟨Kind.mem_all _, name.isNameLike⟩
      have hcolon : Token.kindAt 1 ([name.word, mark .colon, x.word, mark k].map Word.token ++
          rest.map Word.token) = .colon := by
        rw [List.map_cons, List.cons_append, Token.kindAt_cons_succ 0 (name.ne_of_other rfl)]
        rfl
      exact Bool.and_eq_true_iff.mpr ⟨hname, congrArg (KindSet.single .colon).contains hcolon⟩
    exact .node ((Leads.yes hlabel ((Leads.bump (name.ne_of_other rfl)).andThen
      (.mark (by decide)))).andThen (.no rfl (Expr.Climbs.before (climbs_var x) hc)))

theorem first_words (a : Argument) (rest : List Word) :
    Word.first (a.words ++ rest) = Word.first a.words := by
  cases a <;> rfl

/-- An argument that is not taken for one has a name that begins no expression. -/
theorem eq_named {a : Argument} (h : a.isWelcome = false) :
    (Word.first a.words).isNameLike = true := by
  have hother (k : Kind) (hk : Grammar.argumentFirst.contains k = true)
      (he : Word.first a.words = k) : (Word.first a.words).isNameLike = true := by
    rw [isWelcome, he, hk] at h
    cases h
  cases a with
  | plain => exact hother .variableName (by decide) rfl
  | spread => exact hother .ellipsis (by decide) rfl
  | named name => exact name.isNameLike

/-- Arguments that are taken for such lead the loop to the closing parenthesis. -/
theorem loop_leads (as : List Argument) (h : ∀ a ∈ as, a.isWelcome = true) (rest : List Word)
    (cs : List Sprout) (f : Found) :
    ∃ f', Leads php Expr.argumentLoop ⟨listWords as ++ mark .rightParen :: rest, cs, f⟩
      ⟨mark .rightParen :: rest, cs ++ listTrees as, f'⟩ := by
  have hstop (cs : List Sprout) (f : Found) : Leads php Expr.argumentLoop
      ⟨mark .rightParen :: rest, cs, f⟩ ⟨mark .rightParen :: rest, cs, f⟩ :=
    .stop (show KindSet.contains _ .rightParen = false by decide)
  match as with
  | [] =>
    rw [listTrees, List.append_nil]
    exact ⟨f, hstop cs f⟩
  | [a] =>
    have hfirst := h a (List.mem_cons_self ..)
    have hclose : Grammar.argumentFirst.contains .rightParen = false := by decide
    rw [isWelcome, ← a.first_words] at hfirst
    exact ⟨_, Expr.argumentLoop_step hfirst (a.leads (by decide)) (.no rfl (.no hclose .done))
      (hstop _ _)⟩
  | a :: a' :: as =>
    obtain ⟨hfirst, has⟩ := List.forall_mem_cons.mp h
    obtain ⟨f', hrest⟩ := loop_leads (a' :: as) has rest
      (cs ++ [a.tree] ++ [.token (mark .comma).token]) .earlier
    rw [isWelcome, ← a.first_words] at hfirst
    have hwords : listWords (a :: a' :: as) ++ mark .rightParen :: rest =
        a.words ++ mark .comma :: (listWords (a' :: as) ++ mark .rightParen :: rest) := by
      simp [listWords]
    have htrees : cs ++ listTrees (a :: a' :: as) = cs ++ [a.tree] ++
        [.token (mark .comma).token] ++ listTrees (a' :: as) := by
      simp [listTrees]
    rw [hwords, htrees]
    exact ⟨f', Expr.argumentLoop_step hfirst (a.leads (by decide)) (.yes rfl (.mark (by decide)))
      hrest⟩

/-- An argument that is not taken for one stops the loop before itself. -/
theorem loop_stops (as : List Argument) (h : ∃ a ∈ as, a.isWelcome = false) (rest : List Word)
    (cs : List Sprout) (f : Found) :
    ∃ s, s.kind ≠ .rightParen ∧
      Leads php Expr.argumentLoop ⟨listWords as ++ mark .rightParen :: rest, cs, f⟩ s := by
  have hstop (a : Argument) (ha : a.isWelcome = false) (ws : List Word) :
      ∃ s, s.kind ≠ .rightParen ∧ Leads php Expr.argumentLoop ⟨a.words ++ ws, cs, f⟩ s := by
    have hname := eq_named ha
    have hkind : Spot.kind ⟨a.words ++ ws, cs, f⟩ = Word.first a.words := a.first_words ws
    refine ⟨⟨a.words ++ ws, cs, f⟩, ?_, .stop ?_⟩
    · rw [hkind]
      intro hk
      rw [hk] at hname
      cases hname
    · show KindSet.contains _ (Spot.kind _) = false
      have hcomma : (Word.first a.words == .comma) = false := by
        rw [beq_eq_false_iff_ne]
        intro hk
        rw [hk] at hname
        cases hname
      rw [hkind, KindSet.contains_union, KindSet.contains_single, Bool.or_eq_false_iff]
      exact ⟨ha, hcomma⟩
  match as with
  | [] => simp at h
  | [a] =>
    obtain ⟨b, hb, hwelcome⟩ := h
    obtain rfl := List.mem_singleton.mp hb
    exact hstop b hwelcome _
  | a :: a' :: as =>
    rw [listWords, List.append_assoc, List.cons_append]
    cases hfirst : a.isWelcome with
    | false => exact hstop a hfirst _
    | true =>
      have has : ∃ b ∈ a' :: as, b.isWelcome = false := by
        obtain ⟨b, hb, hwelcome⟩ := h
        refine ⟨b, (List.mem_cons.mp hb).resolve_left ?_, hwelcome⟩
        rintro rfl
        rw [hfirst] at hwelcome
        cases hwelcome
      obtain ⟨s, hs, hrest⟩ := loop_stops (a' :: as) has rest
        (cs ++ [a.tree] ++ [.token (mark .comma).token]) .earlier
      rw [isWelcome, ← a.first_words] at hfirst
      exact ⟨s, hs, Expr.argumentLoop_step hfirst (a.leads (by decide))
        (.yes rfl (.mark (by decide))) hrest⟩

/-! ## Calls -/

/-- The tree of the function that is called. -/
def callee : Sprout := .branch .nameExpr [.branch .qualifiedName [.token function.token]]

/-- The tree of `(a, b, …)`. -/
def listTree (as : List Argument) : Sprout :=
  .branch .argList (.token (mark .leftParen).token ::
    (listTrees as ++ [.token (mark .rightParen).token]))

theorem callee_leads : Leads php Grammar.primary ⟨function :: mark .leftParen :: rest, cs, f⟩
    ⟨mark .leftParen :: rest, cs ++ [callee], .last⟩ :=
  .byKind (.node (.node ((Leads.no rfl (.expect rfl (by decide))).andThen (.stop rfl))))

theorem opening_leads : Leads php (.require (.kind .leftParen) ++ .bump)
    ⟨mark .leftParen :: rest, cs, f⟩
    ⟨rest, cs ++ [.token (mark .leftParen).token], f.bury⟩ :=
  (Leads.require rfl).andThen (.mark (by decide))

theorem list_leads (as : List Argument) (h : ∀ a ∈ as, a.isWelcome = true) :
    Leads php Grammar.argumentList
      ⟨mark .leftParen :: (listWords as ++ mark .rightParen :: rest), cs, f⟩
      ⟨rest, cs ++ [listTree as], .last⟩ := by
  obtain ⟨f', hloop⟩ := loop_leads as h rest [.token (mark .leftParen).token] f.bury.bury
  exact .node ((opening_leads.andThen hloop).andThen (.expect rfl (by decide)))

theorem list_complains (as : List Argument) (h : ∃ a ∈ as, a.isWelcome = false) :
    Complains php Grammar.argumentList
      ⟨mark .leftParen :: (listWords as ++ mark .rightParen :: rest), cs, f⟩ := by
  obtain ⟨s, hs, hloop⟩ := loop_stops as h rest [.token (mark .leftParen).token] f.bury.bury
  exact .node (.second (opening_leads.andThen hloop) (.expect hs))

/-- The tree of the statement. -/
def statementTree (as : List Argument) : Sprout :=
  .branch .exprStmt [.branch .callExpr [callee, listTree as], .token (mark .semicolon).token]

theorem statement_leads (as : List Argument) (h : ∀ a ∈ as, a.isWelcome = true) :
    Leads php (.call .statement) ⟨callWords as ++ rest, cs, f⟩
      ⟨rest, cs ++ [statementTree as], .last⟩ := by
  have hwords : callWords as ++ rest = function :: mark .leftParen ::
      (listWords as ++ mark .rightParen :: mark .semicolon :: rest) := by
    simp [callWords]
  have hpostfixed : Leads php postfixed ⟨callWords as ++ rest, [], f.bury⟩
      ⟨mark .semicolon :: rest, [.branch .callExpr [callee, listTree as]], .last⟩ := by
    rw [hwords]
    exact Expr.postfixed_leads callee_leads
      (.again (show postfixFirst.contains .leftParen = true by decide)
        (.byKind (.wrap (list_leads as h)))
        (.stop (show postfixFirst.contains .semicolon = false by decide)))
  have hexpression : Leads php Grammar.expression ⟨callWords as ++ rest, [], f.bury⟩
      ⟨mark .semicolon :: rest, [.branch .callExpr [callee, listTree as]], .last⟩ :=
    Expr.expressionAt (.call (Expr.climb_leads (.byKind hpostfixed)
      (Expr.operators_stop fun b hb => by cases hb)))
  have hnode : Leads php Grammar.expressionStatement ⟨callWords as ++ rest, cs, f⟩
      ⟨rest, cs ++ [statementTree as], .last⟩ :=
    .node (hexpression.andThen (.no rfl (.expect rfl (by decide))))
  refine .call (.byKind ?_)
  show Leads php (if Grammar.expressionFirst.contains .name then _ else _) _ _
  rw [if_pos (by decide)]
  exact hnode

theorem statement_complains (as : List Argument) (h : ∃ a ∈ as, a.isWelcome = false) :
    Complains php (.call .statement) ⟨callWords as ++ rest, cs, f⟩ := by
  have hwords : callWords as ++ rest = function :: mark .leftParen ::
      (listWords as ++ mark .rightParen :: mark .semicolon :: rest) := by
    simp [callWords]
  have hpostfixed : Complains php postfixed ⟨callWords as ++ rest, [], f.bury⟩ := by
    rw [hwords]
    exact .second callee_leads (.yes rfl (.call
      (.loop (show postfixFirst.contains .leftParen = true by decide)
        (.byKind (.wrap (list_complains as h))))))
  have hnode : Complains php Grammar.expressionStatement ⟨callWords as ++ rest, cs, f⟩ :=
    .node (.first (.first (.call (.first (.byKind hpostfixed)))))
  refine .call (.byKind ?_)
  show Complains php (if Grammar.expressionFirst.contains .name then _ else _) _
  rw [if_pos (by decide)]
  exact hnode

/-! ## Bare trees -/

/-- The bare tree of an argument. -/
def outline (a : Argument) : Outline :=
  .branch .arg (a.label.map (.leaf ·.1) ++ [.branch .variableExpr [.leaf .variableName]])

theorem bare_tree (a : Argument) : a.tree.bare = a.outline := by
  simp [tree, outline, Expr.tree, Sprout.bare, Spelled.word, Word.token, Function.comp_def]

theorem bare_listTrees (as : List Argument) :
    (listTrees as).map Sprout.bare = (as.map outline).intersperse (.leaf .comma) := by
  match as with
  | [] => rfl
  | [a] => exact congrArg (fun t => [t]) a.bare_tree
  | a :: a' :: as =>
    rw [listTrees, List.map_cons, List.map_cons, bare_tree, bare_listTrees (a' :: as), Sprout.bare]
    rfl

/-- The bare tree of a program of one call. -/
def callOutline (as : List Argument) : Outline :=
  .branch .sourceFile [.branch .inlineHtmlStmt [.leaf .openTag],
    .branch .exprStmt [.branch .callExpr [.branch .nameExpr [.branch .qualifiedName [.leaf .name]],
      .branch .argList (.leaf .leftParen ::
        ((as.map outline).intersperse (.leaf .comma) ++ [.leaf .rightParen]))],
      .leaf .semicolon],
    .leaf .eof]

theorem bare_statementTree (as : List Argument) :
    .branch .sourceFile (Word.opening.bare :: [statementTree as].map Sprout.bare ++ [.leaf .eof]) =
      callOutline as := by
  have hlist := bare_listTrees as
  simp [callOutline, statementTree, listTree, callee, Sprout.bare, hlist, Word.opening, Word.token,
    Word.openTag, function, mark]

/-- A call with an argument that is not taken for one has diagnostics. -/
theorem diagnostics_ne_nil {dialect : Dialect} {as : List Argument} {p : Parse}
    (h : ∃ a ∈ as, a.isWelcome = false) (hp : parse dialect (callText as) = .ok p) :
    p.diagnostics ≠ [] :=
  Word.diagnostics_ne_nil (tokens_callText as dialect).1 (statement_complains as h) nofun hp

end Argument

/-- A call is parsed with no diagnostics, and to its tree, if and only if the list takes every name
for the beginning of an argument. -/
theorem parse_arguments (dialect : Dialect) (as : List Argument) :
    ∃ p, parse dialect (Argument.callText as) = .ok p ∧
      (p.diagnostics = [] ↔ ∀ a ∈ as, a.isWelcome = true) ∧
      (p.diagnostics = [] → p.tree.root.outline = Argument.callOutline as ∧
        p.tree.tips.map (fun t => (t.kind, t.trimmedText)) =
          (Word.openTag :: Argument.callWords as ++ [Word.eof]).map fun w => (w.1, .ok w.2)) := by
  by_cases h : ∀ a ∈ as, a.isWelcome = true
  · obtain ⟨hts, he⟩ := Argument.tokens_callText as dialect
    have hprogram : Leads php Grammar.program ⟨Argument.callWords as ++ [Word.eof], [Word.opening],
        .last⟩ ⟨[Word.eof], Word.opening :: [Argument.statementTree as], .last⟩ :=
      .again rfl (Argument.statement_leads as h) (.stop rfl)
    obtain ⟨p, hp, hd, ho, ht⟩ := Word.parse_opened hts he hprogram
    exact ⟨p, hp, iff_of_true hd h, fun _ => ⟨ho.trans (Argument.bare_statementTree as), ht⟩⟩
  · obtain ⟨p, hp⟩ : ∃ p, parse dialect (Argument.callText as) = .ok p := by
      obtain ⟨-, p, -, -, -, -, hp, -⟩ := exists_parse dialect (Argument.callText as)
      exact ⟨p, hp⟩
    have hd : p.diagnostics ≠ [] := Argument.diagnostics_ne_nil (by simpa using h) hp
    exact ⟨p, hp, iff_of_false hd h, fun hnil => absurd hnil hd⟩

/-- `if` may be a name, but no argument begins with it. -/
theorem parse_argument_if : Kind.ifKw.isNameLike = true ∧
    ∃ p, parse ⟨true⟩ "<?php f(if: $x);".toList = .ok p ∧ p.diagnostics ≠ [] := by
  let a : Argument := .named ⟨.ifKw, ⟨"if".toList, by decide⟩, rfl⟩ ⟨"$x".toList, by decide⟩
  have hwelcome : a.isWelcome = false := by decide
  obtain ⟨-, p, -, -, -, -, hp, -⟩ := exists_parse ⟨true⟩ "<?php f(if: $x);".toList
  have hunwelcome : ∃ b ∈ [a], b.isWelcome = false := ⟨a, List.mem_singleton.mpr rfl, hwelcome⟩
  exact ⟨rfl, p, hp, Argument.diagnostics_ne_nil hunwelcome hp⟩

end PhpSyntax
