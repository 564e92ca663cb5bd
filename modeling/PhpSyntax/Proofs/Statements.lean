import PhpSyntax.Proofs.Expressions
import PhpSyntax.Proofs.Stmt

/-!
Statements in writing. What a statement is written with leads the rule for statements to its tree if
no branch and no handler follows that it would take as its own.
-/
namespace PhpSyntax

open Grammar (php)
open Word (mark)
open Sprout (block stmtList var condition caught)

variable {rest : List Word} {cs : List Sprout} {f : Found}

/-- What is known after branches for all of a list. -/
def Found.after {α : Type} (f : Found) : List α → Found
  | [] => f
  | _ :: _ => last

@[simp] theorem Found.last_after {α : Type} (as : List α) : last.after as = last := by
  cases as <;> rfl

/-- Kinds that go on with no statement. -/
def Kind.follows (k : Kind) : Bool :=
  !KindSet.contains (.ofList [.elseifKw, .elseKw, .catchKw, .finallyKw]) k

namespace Stmt

/-- The kind of the first word. -/
def first : Stmt → Kind
  | empty => .semicolon
  | expr _ => .variableName
  | ret _ => .returnKw
  | echo _ _ => .echoKw
  | block _ => .leftBrace
  | ifThen _ _ _ | ifColon _ _ => .ifKw
  | whileDo _ _ | whileColon _ _ => .whileKw
  | doWhile _ _ => .doKw
  | foreach _ _ _ _ => .foreachKw
  | choose _ _ => .switchKw
  | attempt _ _ => .tryKw

def firsts : List Kind := [.semicolon, .variableName, .returnKw, .echoKw, .leftBrace, .ifKw,
  .whileKw, .doKw, .foreachKw, .switchKw, .tryKw]

theorem first_mem (s : Stmt) : s.first ∈ firsts := by cases s <;> simp [first, firsts]

theorem first_words (s : Stmt) (rest : List Word) : Word.first (s.words ++ rest) = s.first := by
  cases s <;> rfl

/-- What holds of all kinds that begin statements. -/
theorem first_eq (s : Stmt) {p : Kind → Bool} {b : Bool} (h : firsts.all (p · == b) = true) :
    p s.first = b :=
  beq_iff_eq.mp (List.all_eq_true.mp h _ s.first_mem)

/-- The statement is read wherever it ends. -/
def Reads (s : Stmt) : Prop := ∀ rest cs f, (Word.first rest).follows = true →
  Leads php (.call .statement) ⟨s.words ++ rest, cs, f⟩ ⟨rest, cs ++ [s.tree], .last⟩

end Stmt

/-! ## Lists of statements -/

theorem follows_list (ss : List Stmt) (h : (Word.first rest).follows = true) :
    (Word.first (listWords ss ++ rest)).follows = true := by
  cases ss with
  | nil => exact h
  | cons s ss =>
    rw [listWords, List.append_assoc, s.first_words]
    exact s.first_eq (by decide)

/-- A token of this kind ends a list of statements that goes on up to one of the set `stop`. -/
def Kind.ends (stop : KindSet) (k : Kind) : Bool :=
  stop.contains k && k.follows && Stmt.firsts.all (stop.contains · == false)

/-- Statements one after the other, up to a word that ends them. -/
theorem list_leads {test : Test} {stop : KindSet} (ss : List Stmt) (h : ∀ s ∈ ss, s.Reads)
    (htest : ∀ s : Spot, s.holds test = !stop.contains s.kind)
    (hend : (Word.first rest).ends stop = true) :
    Leads php (.repeatWhile test (.call .statement))
      ⟨listWords ss ++ rest, cs, f⟩ ⟨rest, cs ++ listTrees ss, f.after ss⟩ := by
  simp only [Kind.ends, Bool.and_eq_true] at hend
  obtain ⟨⟨hstop, hnext⟩, hfirst⟩ := hend
  induction ss generalizing cs f with
  | nil =>
    rw [listTrees, List.append_nil]
    exact .stop ((htest _).trans (congrArg (!·) hstop))
  | cons s ss ih =>
    obtain ⟨hs, hss⟩ := List.forall_mem_cons.mp h
    have hrest : Leads php (.repeatWhile test (.call .statement))
        ⟨listWords ss ++ rest, cs ++ [s.tree], .last⟩
        ⟨rest, cs ++ [s.tree] ++ listTrees ss, Found.last.after ss⟩ := ih hss
    have hgo : stop.contains (Word.first (s.words ++ (listWords ss ++ rest))) = false := by
      rw [s.first_words]
      exact s.first_eq hfirst
    rw [Found.last_after] at hrest
    rw [listWords, List.append_assoc, listTrees, List.append_cons]
    exact .again ((htest _).trans (congrArg (!·) hgo)) (hs _ _ _ (follows_list ss hnext)) hrest

section Bodies

variable {body : List Stmt} (h : ∀ s ∈ body, s.Reads)

include h

/-- Statements in braces. -/
theorem compound_leads : Leads php Grammar.compound
    ⟨mark .leftBrace :: (listWords body ++ mark .rightBrace :: rest), cs, f⟩
    ⟨rest, cs ++ [block (listTrees body)], .last⟩ := by
  have hend : Kind.rightBrace.ends (.ofList [.rightBrace, .eof]) = true := by decide
  exact .andThen (.require rfl) (.node (.andThen (.andThen (.mark (by decide))
    (list_leads body h (fun _ => rfl) hend)) (.expect rfl (by decide))))

theorem block_leads : Leads php Grammar.block
    ⟨mark .leftBrace :: (listWords body ++ mark .rightBrace :: rest), cs, f⟩
    ⟨rest, cs ++ [block (listTrees body)], .last⟩ := .yes rfl (compound_leads h)

theorem embedded_leads : Leads php Grammar.embedded
    ⟨mark .leftBrace :: (listWords body ++ mark .rightBrace :: rest), cs, f⟩
    ⟨rest, cs ++ [block (listTrees body)], .last⟩ :=
  .yes (show Grammar.statementFirst.contains .leftBrace = true by decide)
    (.call (.byKind (compound_leads h)))

/-- Statements in a branch of their own, up to a word that ends them. -/
theorem statements_leads {stop : KindSet}
    (hend : (Word.first rest).ends (.single .eof ∪ stop) = true) :
    Leads php (Grammar.statements stop) ⟨listWords body ++ rest, cs, f⟩
      ⟨rest, cs ++ stmtList (listTrees body), Found.nothing.after body⟩ := by
  have hbody : Leads php (.repeatWhile (.not (.kindIn (.single .eof ∪ stop))) (.call .statement))
      ⟨listWords body ++ rest, [], f.bury⟩ ⟨rest, [] ++ listTrees body, f.bury.after body⟩ :=
    list_leads body h (fun _ => rfl) hend
  cases body with
  | nil =>
    rw [listTrees, stmtList, List.append_nil]
    exact .nodeIfNone hbody
  | cons s ss =>
    rw [listTrees, stmtList]
    exact .nodeIfAny hbody (by simp)

end Bodies

/-! ## Variables -/

/-- A variable before a word that goes on with no expression. -/
theorem var_leads (x : VariableName) (hc : Expr.closes (Word.first rest) = true) :
    Leads php Grammar.expression ⟨x.word :: rest, cs, f⟩ ⟨rest, cs ++ [var x], .last⟩ := by
  have hclimbs : (Expr.var x).Climbs := ((Expr.var x).climbs rfl).1
  exact hclimbs.whole hc

theorem var_before (x : VariableName) {k : Kind} (hc : Expr.closes k = true) :
    Leads php Grammar.expression ⟨x.word :: mark k :: rest, cs, f⟩
      ⟨mark k :: rest, cs ++ [var x], .last⟩ := var_leads x hc

theorem condition_leads (x : VariableName) : Leads php Grammar.condition
    ⟨mark .leftParen :: x.word :: mark .rightParen :: rest, cs, f⟩
    ⟨rest, cs ++ condition x, .earlier⟩ := by
  have hcs : cs ++ condition x = cs ++ [.mark .leftParen] ++ [var x] ++ [.mark .rightParen] := by
    simp [condition]
  rw [hcs]
  exact ((Leads.expect rfl (by decide)).andThen (var_before x (by decide))).andThen
    (.expect rfl (by decide))

theorem semicolon_leads : Leads php Grammar.statementEnd ⟨mark .semicolon :: rest, cs, f⟩
    ⟨rest, cs ++ [.mark .semicolon], f.bury⟩ := .no rfl (.expect rfl (by decide))

/-! ## Simple statements -/

namespace Stmt

theorem reads_empty : empty.Reads := fun _ _ _ _ => .call (.byKind (.node (.mark (by decide))))

theorem reads_expr (x : VariableName) : (expr x).Reads := fun _ _ _ _ =>
  Expr.statement_leads (e := .var x) rfl

theorem reads_ret (x : VariableName) : (ret x).Reads := by
  intro rest cs f _
  have hfirst : Grammar.expressionFirst.contains .variableName = true := by decide
  exact .call (.byKind (.node (.andThen (.andThen (.mark (by decide))
    (.yes hfirst (var_before x (by decide)))) semicolon_leads)))

theorem closes_commas (xs : List VariableName) (rest : List Word) : Expr.closes (Word.first
    (xs.flatMap (fun y => [mark .comma, y.word]) ++ mark .semicolon :: rest)) = true := by
  cases xs with
  | nil =>
    show Expr.closes .semicolon = true
    decide
  | cons =>
    show Expr.closes .comma = true
    decide

/-- Variables after commas, up to a semicolon. -/
theorem commas_lead (xs : List VariableName) :
    Leads php (.repeatWhile (.kind .comma) (.bump ++ Grammar.expression))
      ⟨xs.flatMap (fun y => [mark .comma, y.word]) ++ mark .semicolon :: rest, cs, f⟩
      ⟨mark .semicolon :: rest, cs ++ xs.flatMap fun y => [.mark .comma, var y], f.after xs⟩ := by
  induction xs generalizing cs f with
  | nil =>
    rw [List.flatMap_nil, List.flatMap_nil, List.append_nil]
    exact .stop rfl
  | cons x xs ih =>
    have hrest := @ih (cs ++ [.mark .comma] ++ [var x]) .last
    have hcs : cs ++ (x :: xs).flatMap (fun y => [.mark .comma, var y]) =
        cs ++ [.mark .comma] ++ [var x] ++ xs.flatMap fun y => [.mark .comma, var y] := by
      simp
    rw [Found.last_after] at hrest
    rw [hcs]
    exact .again rfl (.andThen (.mark (by decide)) (var_leads x (closes_commas xs rest))) hrest

theorem reads_echo (x : VariableName) (xs : List VariableName) : (echo x xs).Reads := by
  intro rest cs f _
  simp only [words, List.cons_append, List.append_assoc, List.nil_append]
  exact .call (.byKind (.node (.andThen (.andThen (.mark (by decide))
    (.node (.andThen (var_leads x (closes_commas xs rest)) (commas_lead xs)))) semicolon_leads)))

theorem reads_block {body : List Stmt} (h : ∀ s ∈ body, s.Reads) : (block body).Reads := by
  intro rest cs f _
  rw [words, List.cons_append, List.append_assoc]
  exact .call (.byKind (compound_leads h))

theorem reads_whileDo (x : VariableName) {body : List Stmt} (h : ∀ s ∈ body, s.Reads) :
    (whileDo x body).Reads := by
  intro rest cs f _
  simp only [words, List.cons_append, List.append_assoc]
  exact .call (.byKind (.node (.andThen (.andThen (.mark (by decide)) (condition_leads x))
    (.no rfl (embedded_leads h)))))

theorem reads_whileColon (x : VariableName) {body : List Stmt} (h : ∀ s ∈ body, s.Reads) :
    (whileColon x body).Reads := by
  intro rest cs f _
  have hend : Kind.endwhileKw.ends (.single .eof ∪ .single .endwhileKw) = true := by decide
  have htree : (whileColon x body).tree = .branch .whileStmt ([.mark .whileKw] ++ condition x ++
      [.mark .colon] ++ stmtList (listTrees body) ++ [.mark .endwhileKw] ++ [.mark .semicolon]) := by
    simp [tree]
  simp only [words, List.cons_append, List.append_assoc, List.nil_append]
  rw [htree]
  exact .call (.byKind (.node (.andThen (.andThen (.mark (by decide)) (condition_leads x))
    (.yes rfl (.andThen (.mark (by decide)) (.andThen (.andThen (statements_leads h hend)
      (.expect rfl (by decide))) semicolon_leads))))))

theorem reads_doWhile (x : VariableName) {body : List Stmt} (h : ∀ s ∈ body, s.Reads) :
    (doWhile body x).Reads := by
  intro rest cs f _
  simp only [words, List.cons_append, List.append_assoc, List.nil_append]
  exact .call (.byKind (.node (.andThen (.andThen (.andThen (.andThen (.mark (by decide))
    (embedded_leads h)) (.expect rfl (by decide))) (condition_leads x)) semicolon_leads)))

/-- A key and a value in a `foreach`. -/
theorem target_leads (key value : VariableName) : Leads php Grammar.foreachTarget
    ⟨key.word :: mark .fatArrow :: value.word :: mark .rightParen :: rest, cs, f⟩
    ⟨mark .rightParen :: rest, cs ++ [.branch .foreachKey [var key, .mark .fatArrow]] ++ [var value],
      .last⟩ := by
  have hclimbs : (Expr.var key).Climbs := ((Expr.var key).climbs rfl).1
  have hkey : Leads php (.call (.expression 0))
      ⟨key.word :: mark .fatArrow :: value.word :: mark .rightParen :: rest, cs, f⟩
      ⟨mark .fatArrow :: value.word :: mark .rightParen :: rest, cs ++ [var key], .last⟩ :=
    hclimbs.called (show Expr.closes .fatArrow = true by decide)
  exact .no rfl (.andThen hkey (.yes rfl (.yes rfl (.andThen (.andThen
    (.wrap (.mark (by decide))) (.no rfl .done)) (var_before value (by decide))))))

theorem reads_foreach (x key value : VariableName) {body : List Stmt} (h : ∀ s ∈ body, s.Reads) :
    (foreach x key value body).Reads := by
  intro rest cs f _
  simp only [words, List.cons_append, List.append_assoc, List.nil_append]
  exact .call (.byKind (.node (.andThen (.andThen (.andThen (.andThen (.andThen (.andThen
    (.mark (by decide)) (.expect rfl (by decide))) (var_before x (by decide)))
    (.expect rfl (by decide))) (target_leads key value)) (.expect rfl (by decide)))
    (.no rfl (embedded_leads h)))))

theorem reads_ifColon (x : VariableName) {body : List Stmt} (h : ∀ s ∈ body, s.Reads) :
    (ifColon x body).Reads := by
  intro rest cs f _
  have hend : Kind.endifKw.ends (.single .eof ∪ Grammar.branchEnd) = true := by decide
  have htree : (ifColon x body).tree = .branch .ifStmt ([.mark .ifKw] ++ condition x ++
      [.mark .colon] ++ stmtList (listTrees body) ++ [.mark .endifKw] ++ [.mark .semicolon]) := by
    simp [tree]
  simp only [words, List.cons_append, List.append_assoc, List.nil_append]
  rw [htree]
  exact .call (.byKind (.node (.andThen (.andThen (.mark (by decide)) (condition_leads x))
    (.yes rfl (.andThen (.mark (by decide)) (.andThen (.andThen (.andThen (statements_leads h hend)
      (.andThen (.stop rfl) (.no rfl .done))) (.expect rfl (by decide))) semicolon_leads))))))

end Stmt

/-! ## Branches, clauses and handlers -/

/-- The branches of an `if` are read, the ones with a condition first. -/
def Branches.Reads (b : Branches) : Prop := ∀ rest cs f, (Word.first rest).follows = true →
  ∃ t f', Leads php (.repeatWhile (.kind .elseifKw)
      (.node .elseIfClause (.bump ++ Grammar.condition ++ Grammar.embedded)))
      ⟨b.words ++ rest, cs, f⟩ t ∧
    Leads php (.when (.kind .elseKw) (.node .elseClause (.bump ++ Grammar.embedded)))
      t ⟨rest, cs ++ b.trees, f'⟩

theorem holds_of_follows {k : Kind} (h : (Word.first rest).follows = true)
    (hk : k.follows = false) : Spot.holds ⟨rest, cs, f⟩ (.kind k) = false := by
  refine beq_eq_false_iff_ne.mpr fun he => ?_
  rw [show Word.first rest = k from he, hk] at h
  cases h

namespace Branches

theorem reads_none : none.Reads := by
  intro rest cs f h
  have helseif : Spot.holds ⟨rest, cs, f⟩ (.kind .elseifKw) = false :=
    holds_of_follows h (by decide)
  have helse : Spot.holds ⟨rest, cs, f⟩ (.kind .elseKw) = false := holds_of_follows h (by decide)
  refine ⟨_, f, .stop helseif, ?_⟩
  rw [trees, List.append_nil]
  exact .no helse .done

theorem reads_otherwise {body : List Stmt} (h : ∀ s ∈ body, s.Reads) : (otherwise body).Reads := by
  intro rest cs f _
  simp only [words, List.cons_append, List.append_assoc, List.nil_append]
  exact ⟨_, _, .stop rfl, .yes rfl (.node (.andThen (.mark (by decide)) (embedded_leads h)))⟩

theorem reads_elseIf (x : VariableName) {body : List Stmt} {branches : Branches}
    (h : ∀ s ∈ body, s.Reads) (hb : branches.Reads) : (elseIf x body branches).Reads := by
  intro rest cs f hrest
  let clause : Sprout :=
    .branch .elseIfClause (.mark .elseifKw :: (condition x ++ [block (listTrees body)]))
  have htrees : cs ++ (elseIf x body branches).trees = cs ++ [clause] ++ branches.trees := by
    simp [trees, clause]
  obtain ⟨t, f', hloop, htail⟩ := hb rest (cs ++ [clause]) .last hrest
  simp only [words, List.cons_append, List.append_assoc]
  rw [htrees]
  exact ⟨t, f', .again rfl (.node (.andThen (.andThen (.mark (by decide)) (condition_leads x))
    (embedded_leads h))) hloop, htail⟩

end Branches

/-- The clauses of a `switch` are read up to the brace. -/
def Cases.Reads (c : Cases) : Prop := ∀ rest cs f, ∃ f',
  Leads php (.repeatWhile (.not (.kindIn (.ofList [.rightBrace, .eof])))
      (.branch (.kindIn (.ofList [.caseKw, .defaultKw])) Grammar.caseClause
        (.recover (fun _ => .expected "'case' or 'default'") Grammar.caseEnd)))
    ⟨c.words ++ mark .rightBrace :: rest, cs, f⟩ ⟨mark .rightBrace :: rest, cs ++ c.trees, f'⟩

namespace Cases

/-- What follows the statements of a clause ends them. -/
theorem ends_first (c : Cases) (rest : List Word) :
    (Word.first (c.words ++ mark .rightBrace :: rest)).ends (.single .eof ∪ Grammar.caseEnd) =
      true := by
  have hends : ∀ k ∈ [Kind.rightBrace, .caseKw, .defaultKw],
      k.ends (.single .eof ∪ Grammar.caseEnd) = true := by decide
  cases c <;> exact hends _ (by simp [words, Word.first, Word.token, Word.mark, Token.firstKind])

theorem reads_none : none.Reads := by
  intro rest cs f
  have hstop : KindSet.contains (.ofList [.rightBrace, .eof]) .rightBrace = true := by decide
  refine ⟨f, ?_⟩
  rw [trees, List.append_nil]
  exact .stop (congrArg (!·) hstop)

/-- The colon of a clause and its statements. -/
theorem body_leads {body : List Stmt} (h : ∀ s ∈ body, s.Reads) (c : Cases) :
    Leads php Grammar.caseBody
      ⟨mark .colon :: (listWords body ++ (c.words ++ mark .rightBrace :: rest)), cs, f⟩
      ⟨c.words ++ mark .rightBrace :: rest, cs ++ [.mark .colon] ++ stmtList (listTrees body),
        Found.nothing.after body⟩ :=
  .andThen (.yes (show KindSet.contains (.ofList [.colon, .semicolon]) .colon = true by decide)
    (.mark (by decide))) (statements_leads h (c.ends_first rest))

theorem reads_case (x : VariableName) {body : List Stmt} {c : Cases} (h : ∀ s ∈ body, s.Reads)
    (hc : c.Reads) : (case x body c).Reads := by
  intro rest cs f
  let clause : Sprout :=
    .branch .caseClause ([.mark .caseKw] ++ [var x] ++ [.mark .colon] ++ stmtList (listTrees body))
  have htrees : cs ++ (case x body c).trees = cs ++ [clause] ++ c.trees := by simp [trees, clause]
  obtain ⟨f', hrest⟩ := hc rest (cs ++ [clause]) .last
  have hgo : KindSet.contains (.ofList [.rightBrace, .eof]) .caseKw = false := by decide
  simp only [words, List.cons_append, List.append_assoc]
  rw [htrees]
  exact ⟨f', .again (congrArg (!·) hgo) (.yes
    (show KindSet.contains (.ofList [.caseKw, .defaultKw]) .caseKw = true by decide) (.yes rfl
      (.node (.andThen (.andThen (.mark (by decide)) (var_before x (by decide))) (body_leads h c)))))
    hrest⟩

theorem reads_default {body : List Stmt} {c : Cases} (h : ∀ s ∈ body, s.Reads) (hc : c.Reads) :
    (default body c).Reads := by
  intro rest cs f
  let clause : Sprout :=
    .branch .defaultClause ([.mark .defaultKw] ++ [.mark .colon] ++ stmtList (listTrees body))
  have htrees : cs ++ (default body c).trees = cs ++ [clause] ++ c.trees := by simp [trees, clause]
  obtain ⟨f', hrest⟩ := hc rest (cs ++ [clause]) .last
  have hgo : KindSet.contains (.ofList [.rightBrace, .eof]) .defaultKw = false := by decide
  simp only [words, List.cons_append, List.append_assoc]
  rw [htrees]
  exact ⟨f', .again (congrArg (!·) hgo) (.yes
    (show KindSet.contains (.ofList [.caseKw, .defaultKw]) .defaultKw = true by decide) (.no rfl
      (.node (.andThen (.mark (by decide)) (body_leads h c))))) hrest⟩

end Cases

/-- The handlers of a `try` are read, the ones with a type first. -/
def Handlers.Reads (g : Handlers) : Prop := ∀ rest cs f, (Word.first rest).follows = true →
  ∃ t f', Leads php (.repeatWhile (.kind .catchKw) Grammar.catchClause) ⟨g.words ++ rest, cs, f⟩ t ∧
    Leads php (.when (.kind .finallyKw) (.node .finallyClause (.bump ++ Grammar.block)))
      t ⟨rest, cs ++ g.trees, f'⟩

namespace Handlers

theorem reads_finish {body : List Stmt} (h : ∀ s ∈ body, s.Reads) : (finish body).Reads := by
  intro rest cs f _
  simp only [words, List.cons_append, List.append_assoc, List.nil_append]
  exact ⟨_, _, .stop rfl, .yes rfl (.node (.andThen (.mark (by decide)) (block_leads h)))⟩

/-- A type that is one name, before a variable. -/
theorem type_leads (type : ClassName) (e : VariableName) : Leads php (.call .type)
    ⟨type.word :: e.word :: rest, cs, f⟩ ⟨e.word :: rest,
      cs ++ [.branch .namedType [.branch .qualifiedName [.token type.word.token]]], .last⟩ := by
  have hname : Leads php Grammar.qualifiedName ⟨type.word :: e.word :: rest, [], f.bury⟩
      ⟨e.word :: rest, [.branch .qualifiedName [.token type.word.token]], .last⟩ :=
    .node (.andThen (.no rfl (.expect rfl (by decide))) (.stop rfl))
  exact .call (.no rfl (.andThen (.nodeIfAny (.byKind hname) (by simp)) (.yes rfl (.no rfl .done))))

/-- `catch`, what it catches, and its body. -/
theorem clause_leads (type : ClassName) (e : VariableName) {body : List Stmt}
    (h : ∀ s ∈ body, s.Reads) : Leads php Grammar.catchClause
      ⟨mark .catchKw :: mark .leftParen :: type.word :: e.word :: mark .rightParen ::
        mark .leftBrace :: (listWords body ++ mark .rightBrace :: rest), cs, f⟩
      ⟨rest, cs ++ [.branch .catchClause (caught type e ++ [block (listTrees body)])], .last⟩ := by
  have hfirst : Grammar.typeFirst.contains .name = true := by decide
  exact .node (.andThen (.andThen (.andThen (.andThen (.andThen (.mark (by decide))
    (.expect rfl (by decide))) (.yes hfirst (type_leads type e))) (.yes rfl (.bump nofun)))
    (.expect rfl (by decide))) (block_leads h))

theorem reads_one (type : ClassName) (e : VariableName) {body : List Stmt}
    (h : ∀ s ∈ body, s.Reads) : (one type e body).Reads := by
  intro rest cs f hrest
  have hcatch : Spot.holds ⟨rest, cs ++ (one type e body).trees, .last⟩ (.kind .catchKw) = false :=
    holds_of_follows hrest (by decide)
  have hfinally : Spot.holds ⟨rest, cs ++ (one type e body).trees, .last⟩ (.kind .finallyKw) =
    false := holds_of_follows hrest (by decide)
  simp only [words, List.cons_append, List.append_assoc, List.nil_append]
  exact ⟨_, _, .again rfl (clause_leads type e h) (.stop hcatch), .no hfinally .done⟩

theorem reads_more (type : ClassName) (e : VariableName) {body : List Stmt} {g : Handlers}
    (h : ∀ s ∈ body, s.Reads) (hg : g.Reads) : (more type e body g).Reads := by
  intro rest cs f hrest
  let clause : Sprout := .branch .catchClause (caught type e ++ [block (listTrees body)])
  have htrees : cs ++ (more type e body g).trees = cs ++ [clause] ++ g.trees := by
    simp [trees, clause]
  obtain ⟨t, f', hloop, htail⟩ := hg rest (cs ++ [clause]) .last hrest
  simp only [words, List.cons_append, List.append_assoc]
  rw [htrees]
  exact ⟨t, f', .again rfl (clause_leads type e h) hloop, htail⟩

end Handlers

namespace Stmt

theorem reads_ifThen (x : VariableName) {body : List Stmt} {branches : Branches}
    (h : ∀ s ∈ body, s.Reads) (hb : branches.Reads) : (ifThen x body branches).Reads := by
  intro rest cs f hrest
  have htree : (ifThen x body branches).tree = .branch .ifStmt ([.mark .ifKw] ++ condition x ++
      [Sprout.block (listTrees body)] ++ branches.trees) := by
    simp [tree]
  obtain ⟨t, f', hloop, htail⟩ := hb rest
    ([.mark .ifKw] ++ condition x ++ [Sprout.block (listTrees body)]) .last hrest
  simp only [words, List.cons_append, List.append_assoc]
  rw [htree]
  exact .call (.byKind (.node (.andThen (.andThen (.mark (by decide)) (condition_leads x))
    (.no rfl (.andThen (embedded_leads h) (.andThen hloop htail))))))

theorem reads_choose (x : VariableName) {c : Cases} (hc : c.Reads) : (choose x c).Reads := by
  intro rest cs f _
  obtain ⟨f', hclauses⟩ := hc rest [.mark .leftBrace] .earlier
  simp only [words, List.cons_append, List.append_assoc, List.nil_append]
  exact .call (.byKind (.node (.andThen (.andThen (.mark (by decide)) (condition_leads x))
    (.yes rfl (.node (.andThen (.andThen (.mark (by decide)) hclauses) (.expect rfl (by decide))))))))

theorem reads_attempt {body : List Stmt} {g : Handlers} (h : ∀ s ∈ body, s.Reads)
    (hg : g.Reads) : (attempt body g).Reads := by
  intro rest cs f hrest
  obtain ⟨t, f', hloop, htail⟩ := hg rest [.mark .tryKw, Sprout.block (listTrees body)] .last hrest
  have hhandled : Spot.holds ⟨g.words ++ rest, [.mark .tryKw, Sprout.block (listTrees body)], .last⟩
      (.kindIn (.ofList [.catchKw, .finallyKw])) = true := by
    have hkinds : ∀ k ∈ [Kind.catchKw, .finallyKw],
        KindSet.contains (.ofList [.catchKw, .finallyKw]) k = true := by decide
    cases g <;> exact hkinds _ (by simp [Handlers.words, Word.token, Word.mark, Token.firstKind])
  simp only [words, List.cons_append, List.append_assoc]
  exact .call (.byKind (.node (.andThen (.andThen (.mark (by decide)) (block_leads h))
    (.yes hhandled (.andThen hloop htail)))))

end Stmt

mutual

/-- All statements are read. -/
theorem Stmt.reads (s : Stmt) : s.Reads := by
  match s with
  | .empty => exact Stmt.reads_empty
  | .expr x => exact Stmt.reads_expr x
  | .ret x => exact Stmt.reads_ret x
  | .echo x xs => exact Stmt.reads_echo x xs
  | .block body => exact Stmt.reads_block (list_reads body)
  | .ifThen x body branches => exact Stmt.reads_ifThen x (list_reads body) branches.reads
  | .ifColon x body => exact Stmt.reads_ifColon x (list_reads body)
  | .whileDo x body => exact Stmt.reads_whileDo x (list_reads body)
  | .whileColon x body => exact Stmt.reads_whileColon x (list_reads body)
  | .doWhile body x => exact Stmt.reads_doWhile x (list_reads body)
  | .foreach x key value body => exact Stmt.reads_foreach x key value (list_reads body)
  | .choose x c => exact Stmt.reads_choose x c.reads
  | .attempt body g => exact Stmt.reads_attempt (list_reads body) g.reads

theorem list_reads (ss : List Stmt) : ∀ s ∈ ss, s.Reads := by
  match ss with
  | [] => exact nofun
  | s :: ss => exact List.forall_mem_cons.mpr ⟨s.reads, list_reads ss⟩

theorem Branches.reads (b : Branches) : b.Reads := by
  match b with
  | .none => exact Branches.reads_none
  | .otherwise body => exact Branches.reads_otherwise (list_reads body)
  | .elseIf x body branches => exact Branches.reads_elseIf x (list_reads body) branches.reads

theorem Cases.reads (c : Cases) : c.Reads := by
  match c with
  | .none => exact Cases.reads_none
  | .case x body c => exact Cases.reads_case x (list_reads body) c.reads
  | .default body c => exact Cases.reads_default (list_reads body) c.reads

theorem Handlers.reads (g : Handlers) : g.Reads := by
  match g with
  | .finish body => exact Handlers.reads_finish (list_reads body)
  | .one type e body => exact Handlers.reads_one type e (list_reads body)
  | .more type e body g => exact Handlers.reads_more type e (list_reads body) g.reads

end

/-! ## Programs -/

theorem listWords_eq_flatMap (ss : List Stmt) : listWords ss = ss.flatMap Stmt.words := by
  induction ss with
  | nil => rfl
  | cons s ss ih => rw [listWords, ih, List.flatMap_cons]

theorem listTrees_eq_map (ss : List Stmt) : listTrees ss = ss.map Stmt.tree := by
  induction ss with
  | nil => rfl
  | cons s ss ih => rw [listTrees, ih, List.map_cons]

end PhpSyntax
