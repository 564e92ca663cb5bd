import PhpSyntax.Parsing.Action

/-!
The rules of the grammar that are called by name, and the sets of tokens that begin what they look for.
-/
namespace PhpSyntax

/-- The rules that are called by name, the recursive ones among them. All others are made of
them. -/
inductive Rule where
  | statement
  /-- An expression whose operators bind at least as tightly as `power`. -/
  | expression (power : Nat)
  /-- The operators after an operand, and their right operands. -/
  | operators (power : Nat)
  /-- The subscripts, members, calls and step operators after an operand. -/
  | postfixes
  | variableExpr
  | useClause
  | type
  | member
  deriving DecidableEq

namespace Grammar

/-- The actions of this grammar. -/
abbrev Action := Act Rule

/-- Tokens that may stand where any name may, reserved words included. -/
def nameLike : KindSet := .ofList (Kind.all.filter Kind.isNameLike)

/-- Tokens that begin an expression. -/
def expressionFirst : KindSet := .ofList [
  .variableName, .dollar, .name, .backslash, .intNumber, .floatNumber, .string, .cast, .leftParen,
  .leftBracket, .bang, .minus, .plus, .tilde, .atSign, .plusPlus, .minusMinus, .arrayKw, .cloneKw,
  .emptyKw, .fnKw, .functionKw, .includeKw, .includeOnceKw, .issetKw, .listKw, .matchKw, .newKw,
  .printKw, .requireKw, .requireOnceKw, .staticKw, .yieldKw]

/-- Keywords that begin a statement and no expression. -/
def statementKeywords : KindSet := .ofList [
  .abstractKw, .breakKw, .classKw, .constKw, .continueKw, .declareKw, .doKw, .echoKw, .finalKw,
  .forKw, .foreachKw, .globalKw, .ifKw, .interfaceKw, .namespaceKw, .readonlyKw, .returnKw,
  .switchKw, .throwKw, .traitKw, .tryKw, .unsetKw, .useKw, .whileKw]

/-- Tokens that begin a statement. -/
def statementFirst : KindSet :=
  .ofList [.leftBrace, .semicolon, .closeTag, .inlineHtml, .openTag, .openTagWithEcho] ∪
    statementKeywords ∪ expressionFirst

/-- Tokens that end a run of unexpected input between statements. -/
def statementRecovery : KindSet :=
  .ofList [.rightBrace, .elseKw, .elseifKw, .endifKw, .endwhileKw, .endforKw, .endforeachKw,
    .caseKw, .defaultKw] ∪ statementFirst

/-- Tokens that end the statements of a branch of an `if` with a colon. -/
def branchEnd : KindSet := .ofList [.elseifKw, .elseKw, .endifKw]

/-- Tokens that end the statements of a `case`. -/
def caseEnd : KindSet := .ofList [.caseKw, .defaultKw, .rightBrace]

/-- An expression, which is missing if there is none. -/
def expressionAt (power : Nat) : Action :=
  .call (.expression power) ++ .branch .found .done (.missing "expression")

/-- An expression with any operators. -/
def expression : Action := expressionAt 0

/-- `expr, expr, …` -/
def expressionList : Action := .node .exprList (.separated expression)

/-- `{ … }` -/
def compound : Action :=
  .require (.kind .leftBrace) ++
  .node .compoundStmt (
    .bump ++
    .repeatWhile (.not (.kindIn (.ofList [.rightBrace, .eof]))) (.call .statement) ++
    .expect .rightBrace)

/-- A body in braces, which has to be there. -/
def block : Action := .branch (.kind .leftBrace) compound (.missingKind .leftBrace)

/-- `;`, or a close tag, which ends a statement without being part of it. -/
def statementEnd : Action := .branch (.kind .closeTag) .done (.expect .semicolon)

end Grammar
end PhpSyntax
