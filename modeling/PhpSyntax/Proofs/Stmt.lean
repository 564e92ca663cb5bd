import PhpSyntax.Proofs.Expr

/-!
Statements over variables: how they are written, and their trees. Bodies are lists of statements, in
braces or between a colon and a keyword that ends them.
-/
namespace PhpSyntax

/-- The name of a variable, with the dollar sign. -/
abbrev VariableName := Spelled .variableName

abbrev ClassName := Spelled .name

mutual

inductive Stmt where
  | empty
  | expr (x : VariableName)
  | ret (x : VariableName)
  | echo (x : VariableName) (xs : List VariableName)
  | block (body : List Stmt)
  | ifThen (x : VariableName) (body : List Stmt) (branches : Branches)
  /-- `if ( $x ) : … endif ;` -/
  | ifColon (x : VariableName) (body : List Stmt)
  | whileDo (x : VariableName) (body : List Stmt)
  /-- `while ( $x ) : … endwhile ;` -/
  | whileColon (x : VariableName) (body : List Stmt)
  | doWhile (body : List Stmt) (x : VariableName)
  | foreach (x key value : VariableName) (body : List Stmt)
  | choose (x : VariableName) (cases : Cases)
  | attempt (body : List Stmt) (handlers : Handlers)

/-- What follows the body of an `if`. -/
inductive Branches where
  | none
  | otherwise (body : List Stmt)
  | elseIf (x : VariableName) (body : List Stmt) (branches : Branches)

/-- The clauses of a `switch`. -/
inductive Cases where
  | none
  | case (x : VariableName) (body : List Stmt) (cases : Cases)
  | default (body : List Stmt) (cases : Cases)

/-- What follows the body of a `try`; there is one handler at least. -/
inductive Handlers where
  | finish (body : List Stmt)
  | one (type : ClassName) (e : VariableName) (body : List Stmt)
  | more (type : ClassName) (e : VariableName) (body : List Stmt) (handlers : Handlers)

end

open Word (mark)

/-! ## How statements are written -/

mutual

def Stmt.words : Stmt → List Word
  | .empty => [mark .semicolon]
  | .expr x => [x.word, mark .semicolon]
  | .ret x => [mark .returnKw, x.word, mark .semicolon]
  | .echo x xs =>
    mark .echoKw :: x.word :: (xs.flatMap (fun y => [mark .comma, y.word]) ++ [mark .semicolon])
  | .block body => mark .leftBrace :: (listWords body ++ [mark .rightBrace])
  | .ifThen x body branches =>
    mark .ifKw :: mark .leftParen :: x.word :: mark .rightParen ::
      mark .leftBrace :: (listWords body ++ mark .rightBrace :: branches.words)
  | .ifColon x body =>
    mark .ifKw :: mark .leftParen :: x.word :: mark .rightParen ::
      mark .colon :: (listWords body ++ [mark .endifKw, mark .semicolon])
  | .whileDo x body =>
    mark .whileKw :: mark .leftParen :: x.word :: mark .rightParen ::
      mark .leftBrace :: (listWords body ++ [mark .rightBrace])
  | .whileColon x body =>
    mark .whileKw :: mark .leftParen :: x.word :: mark .rightParen ::
      mark .colon :: (listWords body ++ [mark .endwhileKw, mark .semicolon])
  | .doWhile body x =>
    mark .doKw :: mark .leftBrace :: (listWords body ++
      [mark .rightBrace, mark .whileKw, mark .leftParen, x.word, mark .rightParen, mark .semicolon])
  | .foreach x key value body =>
    mark .foreachKw :: mark .leftParen :: x.word :: mark .asKw :: key.word :: mark .fatArrow ::
      value.word :: mark .rightParen :: mark .leftBrace :: (listWords body ++ [mark .rightBrace])
  | .choose x cases =>
    mark .switchKw :: mark .leftParen :: x.word :: mark .rightParen ::
      mark .leftBrace :: (cases.words ++ [mark .rightBrace])
  | .attempt body handlers =>
    mark .tryKw :: mark .leftBrace :: (listWords body ++ mark .rightBrace :: handlers.words)

def listWords : List Stmt → List Word
  | [] => []
  | s :: ss => s.words ++ listWords ss

def Branches.words : Branches → List Word
  | .none => []
  | .otherwise body =>
    mark .elseKw :: mark .leftBrace :: (listWords body ++ [mark .rightBrace])
  | .elseIf x body branches =>
    mark .elseifKw :: mark .leftParen :: x.word :: mark .rightParen ::
      mark .leftBrace :: (listWords body ++ mark .rightBrace :: branches.words)

def Cases.words : Cases → List Word
  | .none => []
  | .case x body cases =>
    mark .caseKw :: x.word :: mark .colon :: (listWords body ++ cases.words)
  | .default body cases => mark .defaultKw :: mark .colon :: (listWords body ++ cases.words)

def Handlers.words : Handlers → List Word
  | .finish body =>
    mark .finallyKw :: mark .leftBrace :: (listWords body ++ [mark .rightBrace])
  | .one type e body =>
    mark .catchKw :: mark .leftParen :: type.word :: e.word :: mark .rightParen ::
      mark .leftBrace :: (listWords body ++ [mark .rightBrace])
  | .more type e body handlers =>
    mark .catchKw :: mark .leftParen :: type.word :: e.word :: mark .rightParen ::
      mark .leftBrace :: (listWords body ++ mark .rightBrace :: handlers.words)

end

/-! ## Their trees -/

namespace Sprout

/-- The leaf of a word with one spelling. -/
def mark (k : Kind) : Sprout := .token (Word.mark k).token

/-- Statements in braces. -/
def block (ss : List Sprout) : Sprout :=
  .branch .compoundStmt (mark .leftBrace :: (ss ++ [mark .rightBrace]))

/-- Statements in a branch of their own, if there are any. -/
def stmtList : List Sprout → List Sprout
  | [] => []
  | s :: ss => [.branch .stmtList (s :: ss)]

/-- The expression that a variable is. -/
def var (x : VariableName) : Sprout := .branch .variableExpr [.token x.word.token]

/-- A variable in parentheses. -/
def condition (x : VariableName) : List Sprout := [mark .leftParen, var x, mark .rightParen]

/-- `catch` and what it catches. -/
def caught (type : ClassName) (e : VariableName) : List Sprout :=
  [mark .catchKw, mark .leftParen, .branch .namedType [.branch .qualifiedName [.token type.word.token]],
    .token e.word.token, mark .rightParen]

end Sprout

open Sprout (block stmtList var condition caught)

mutual

def Stmt.tree : Stmt → Sprout
  | .empty => .branch .emptyStmt [.mark .semicolon]
  | .expr x => .branch .exprStmt [var x, .mark .semicolon]
  | .ret x => .branch .returnStmt [.mark .returnKw, var x, .mark .semicolon]
  | .echo x xs => .branch .echoStmt [.mark .echoKw,
    .branch .exprList (var x :: xs.flatMap fun y => [.mark .comma, var y]), .mark .semicolon]
  | .block body => block (listTrees body)
  | .ifThen x body branches => .branch .ifStmt
    (.mark .ifKw :: (condition x ++ block (listTrees body) :: branches.trees))
  | .ifColon x body => .branch .ifStmt (.mark .ifKw ::
    (condition x ++ .mark .colon :: (stmtList (listTrees body) ++ [.mark .endifKw, .mark .semicolon])))
  | .whileDo x body => .branch .whileStmt
    (.mark .whileKw :: (condition x ++ [block (listTrees body)]))
  | .whileColon x body => .branch .whileStmt (.mark .whileKw :: (condition x ++
    .mark .colon :: (stmtList (listTrees body) ++ [.mark .endwhileKw, .mark .semicolon])))
  | .doWhile body x => .branch .doStmt (.mark .doKw :: block (listTrees body) ::
    .mark .whileKw :: (condition x ++ [.mark .semicolon]))
  | .foreach x key value body => .branch .foreachStmt [.mark .foreachKw, .mark .leftParen, var x,
    .mark .asKw, .branch .foreachKey [var key, .mark .fatArrow], var value, .mark .rightParen,
    block (listTrees body)]
  | .choose x cases => .branch .switchStmt (.mark .switchKw :: (condition x ++
    [.branch .switchBlock (.mark .leftBrace :: (cases.trees ++ [.mark .rightBrace]))]))
  | .attempt body handlers =>
    .branch .tryStmt (.mark .tryKw :: block (listTrees body) :: handlers.trees)

def listTrees : List Stmt → List Sprout
  | [] => []
  | s :: ss => s.tree :: listTrees ss

def Branches.trees : Branches → List Sprout
  | .none => []
  | .otherwise body => [.branch .elseClause [.mark .elseKw, block (listTrees body)]]
  | .elseIf x body branches =>
    .branch .elseIfClause (.mark .elseifKw :: (condition x ++ [block (listTrees body)])) ::
      branches.trees

def Cases.trees : Cases → List Sprout
  | .none => []
  | .case x body cases => .branch .caseClause
      (.mark .caseKw :: var x :: .mark .colon :: stmtList (listTrees body)) :: cases.trees
  | .default body cases => .branch .defaultClause
      (.mark .defaultKw :: .mark .colon :: stmtList (listTrees body)) :: cases.trees

def Handlers.trees : Handlers → List Sprout
  | .finish body => [.branch .finallyClause [.mark .finallyKw, block (listTrees body)]]
  | .one type e body => [.branch .catchClause (caught type e ++ [block (listTrees body)])]
  | .more type e body handlers =>
    .branch .catchClause (caught type e ++ [block (listTrees body)]) :: handlers.trees

end

/-! ## Reading -/

open Word (Readable)

theorem readable_condition (x : VariableName) {rest : List Word} (h : Readable rest) :
    Readable (mark .leftParen :: x.word :: mark .rightParen :: rest) :=
  ((h.mark (k := .rightParen) (by decide)).spelled x (by decide)).paren_other rfl

theorem readable_caught (type : ClassName) (e : VariableName) {rest : List Word}
    (h : Readable rest) : Readable
      (mark .catchKw :: mark .leftParen :: type.word :: e.word :: mark .rightParen :: rest) :=
  have hwords := ((h.mark (k := .rightParen) (by decide)).spelled e (by decide)).spelled type
    (by decide)
  (hwords.paren_words nofun).mark (by decide)

theorem readable_echo (xs : List VariableName) {rest : List Word} (h : Readable rest) :
    Readable (xs.flatMap (fun y => [mark .comma, y.word]) ++ rest) := by
  induction xs with
  | nil => exact h
  | cons x xs ih => exact (ih.spelled x (by decide)).mark (k := .comma) (by decide)

mutual

/-- Statements are read as they are written. -/
theorem Stmt.readable (s : Stmt) {rest : List Word} (h : Readable rest) :
    Readable (s.words ++ rest) := by
  have hend (k : Kind) (hk : Readable.isMark k = true) : Readable (mark k :: rest) := h.mark hk
  have hsemicolon := hend .semicolon (by decide)
  have hbrace := hend .rightBrace (by decide)
  match s with
  | .empty => exact hsemicolon
  | .expr x => exact hsemicolon.spelled x (by decide)
  | .ret x => exact (hsemicolon.spelled x (by decide)).mark (k := .returnKw) (by decide)
  | .echo x xs =>
    simp only [Stmt.words, List.cons_append, List.append_assoc]
    exact ((readable_echo xs hsemicolon).spelled x (by decide)).mark (by decide)
  | .block body =>
    simp only [Stmt.words, List.cons_append, List.append_assoc]
    exact (list_readable body hbrace).mark (by decide)
  | .ifThen x body branches =>
    simp only [Stmt.words, List.cons_append, List.append_assoc]
    have hrest := (branches.readable h).mark (k := .rightBrace) (by decide)
    exact (readable_condition x ((list_readable body hrest).mark (by decide))).mark (by decide)
  | .ifColon x body =>
    simp only [Stmt.words, List.cons_append, List.append_assoc]
    have hbody := list_readable body (hsemicolon.mark (k := .endifKw) (by decide))
    exact (readable_condition x (hbody.mark (by decide))).mark (by decide)
  | .whileDo x body =>
    simp only [Stmt.words, List.cons_append, List.append_assoc]
    have hbody := list_readable body hbrace
    exact (readable_condition x (hbody.mark (by decide))).mark (by decide)
  | .whileColon x body =>
    simp only [Stmt.words, List.cons_append, List.append_assoc]
    have hbody := list_readable body (hsemicolon.mark (k := .endwhileKw) (by decide))
    exact (readable_condition x (hbody.mark (by decide))).mark (by decide)
  | .doWhile body x =>
    simp only [Stmt.words, List.cons_append, List.append_assoc]
    have htest := (readable_condition x hsemicolon).mark (k := .whileKw) (by decide)
    have hbody := list_readable body (htest.mark (k := .rightBrace) (by decide))
    exact (hbody.mark (by decide)).mark (by decide)
  | .foreach x key value body =>
    simp only [Stmt.words, List.cons_append, List.append_assoc]
    have hblock := (list_readable body hbrace).mark (k := .leftBrace) (by decide)
    have hvalue := (hblock.mark (k := .rightParen) (by decide)).spelled value (by decide)
    have hkey := (hvalue.mark (k := .fatArrow) (by decide)).spelled key (by decide)
    have hx := (hkey.mark (k := .asKw) (by decide)).spelled x (by decide)
    exact (hx.paren_other rfl).mark (by decide)
  | .choose x cases =>
    simp only [Stmt.words, List.cons_append, List.append_assoc]
    have hcases := cases.readable hbrace
    exact (readable_condition x (hcases.mark (by decide))).mark (by decide)
  | .attempt body handlers =>
    simp only [Stmt.words, List.cons_append, List.append_assoc]
    have hbody := list_readable body ((handlers.readable h).mark (k := .rightBrace) (by decide))
    exact (hbody.mark (by decide)).mark (by decide)

theorem list_readable (ss : List Stmt) {rest : List Word} (h : Readable rest) :
    Readable (listWords ss ++ rest) := by
  match ss with
  | [] => exact h
  | s :: ss =>
    rw [listWords, List.append_assoc]
    exact s.readable (list_readable ss h)

theorem Branches.readable (b : Branches) {rest : List Word} (h : Readable rest) :
    Readable (b.words ++ rest) := by
  match b with
  | .none => exact h
  | .otherwise body =>
    simp only [Branches.words, List.cons_append, List.append_assoc]
    have hbody := list_readable body (h.mark (k := .rightBrace) (by decide))
    exact (hbody.mark (by decide)).mark (by decide)
  | .elseIf x body branches =>
    simp only [Branches.words, List.cons_append, List.append_assoc]
    have hbody := list_readable body ((branches.readable h).mark (k := .rightBrace) (by decide))
    exact (readable_condition x (hbody.mark (by decide))).mark (by decide)

theorem Cases.readable (c : Cases) {rest : List Word} (h : Readable rest) :
    Readable (c.words ++ rest) := by
  match c with
  | .none => exact h
  | .case x body cases =>
    simp only [Cases.words, List.cons_append, List.append_assoc]
    have hbody := list_readable body (cases.readable h)
    exact ((hbody.mark (k := .colon) (by decide)).spelled x (by decide)).mark (by decide)
  | .default body cases =>
    simp only [Cases.words, List.cons_append, List.append_assoc]
    have hbody := list_readable body (cases.readable h)
    exact (hbody.mark (by decide)).mark (by decide)

theorem Handlers.readable (g : Handlers) {rest : List Word} (h : Readable rest) :
    Readable (g.words ++ rest) := by
  match g with
  | .finish body =>
    simp only [Handlers.words, List.cons_append, List.append_assoc]
    have hbody := list_readable body (h.mark (k := .rightBrace) (by decide))
    exact (hbody.mark (by decide)).mark (by decide)
  | .one type e body =>
    simp only [Handlers.words, List.cons_append, List.append_assoc]
    have hbody := list_readable body (h.mark (k := .rightBrace) (by decide))
    exact readable_caught type e (hbody.mark (by decide))
  | .more type e body handlers =>
    simp only [Handlers.words, List.cons_append, List.append_assoc]
    have hbody := list_readable body ((handlers.readable h).mark (k := .rightBrace) (by decide))
    exact readable_caught type e (hbody.mark (by decide))

end

end PhpSyntax
