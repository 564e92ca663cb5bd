import PhpSyntax.Grammar.Expression

/-!
Statements.
-/
namespace PhpSyntax.Grammar

/-- A statement of one keyword, its operands and an end. -/
def simple (kind : Kind) (operands : Action) : Action :=
  .node kind (.bump ++ operands ++ statementEnd)

/-- The boundary between two regions of code: a close tag, text and an open tag, each if it is there.
`<?=` ends it with an echo of what follows. -/
def boundary : Action :=
  let echoes : Test :=
    let echo : KindSet := .single .openTagWithEcho
    .or (.kindIn echo) (.or
      (.and (.kindIn (.ofList [.closeTag, .inlineHtml])) (.aheadIn 1 echo))
      (.and (.and (.kind .closeTag) (.aheadIn 1 (.single .inlineHtml))) (.aheadIn 2 echo)))
  let upTo (tag : Kind) : Action :=
    .node .inlineHtmlStmt (.optional .closeTag ++ .optional .inlineHtml ++ .optional tag)
  .branch echoes
    (upTo .openTagWithEcho ++ .node .echoStmt (expressionList ++ statementEnd))
    (upTo .openTag)

/-- The body of a control structure. A token that begins no statement is left to the rule around. -/
def embedded : Action :=
  .branch (.kindIn statementFirst) (.call .statement) (.missing "statement")

/-- Statements up to a token of the set `stop`, in a branch of their own if there are any. -/
def statements (stop : KindSet) : Action :=
  .nodeIfAny .stmtList
    (.repeatWhile (.not (.kindIn (.single .eof ∪ stop))) (.call .statement))

/-- `(expr)` -/
def condition : Action := .expect .leftParen ++ expression ++ .expect .rightParen

/-- A single statement, or `: statements end;` -/
def loopBody (stop : Kind) : Action :=
  .eat .colon (statements (.single stop) ++ .expect stop ++ statementEnd) embedded

/-- The `elseif` and `else` parts of an `if`, whose bodies are given. -/
def alternatives (elseifBody elseBody : Action) : Action :=
  .repeatWhile (.kind .elseifKw) (.node .elseIfClause (.bump ++ condition ++ elseifBody)) ++
  .when (.kind .elseKw) (.node .elseClause (.bump ++ elseBody))

def ifStatement : Action :=
  let body : Action := .expect .colon ++ statements branchEnd
  .node .ifStmt (
    .bump ++ condition ++
    .eat .colon
      (statements branchEnd ++ alternatives body body ++ .expect .endifKw ++ statementEnd)
      (embedded ++ alternatives embedded embedded))

def whileStatement : Action := .node .whileStmt (.bump ++ condition ++ loopBody .endwhileKw)

def doStatement : Action :=
  .node .doStmt (.bump ++ embedded ++ .expect .whileKw ++ condition ++ statementEnd)

def forStatement : Action :=
  let part (stop : Kind) : Action :=
    .when (.kindIn expressionFirst) expressionList ++ .expect stop
  .node .forStmt (
    .bump ++ .expect .leftParen ++
    part .semicolon ++ part .semicolon ++ part .rightParen ++
    loopBody .endforKw)

/-- `[&] $value` or `$key => [&] $value` -/
def foreachTarget : Action :=
  .eat .amp expression
    (.call (.expression 0) ++
      .branch .found
        (.when (.kind .fatArrow) (.wrap .foreachKey .bump ++ .optional .amp ++ expression))
        (.missing "expression"))

def foreachStatement : Action :=
  .node .foreachStmt (
    .bump ++ .expect .leftParen ++ expression ++ .expect .asKw ++ foreachTarget ++
    .expect .rightParen ++
    loopBody .endforeachKw)

/-- What follows `case expr` or `default`. -/
def caseBody : Action :=
  .branch (.kindIn (.ofList [.colon, .semicolon])) .bump (.missingKind .colon) ++
  statements caseEnd

def caseClause : Action :=
  .branch (.kind .caseKw)
    (.node .caseClause (.bump ++ expression ++ caseBody))
    (.node .defaultClause (.bump ++ caseBody))

def switchStatement : Action :=
  .node .switchStmt (
    .bump ++ condition ++
    .branch (.kind .leftBrace)
      (.node .switchBlock (
        .bump ++
        .repeatWhile (.not (.kindIn (.ofList [.rightBrace, .eof])))
          (.branch (.kindIn (.ofList [.caseKw, .defaultKw])) caseClause
            (.recover (fun _ => .expected "'case' or 'default'") caseEnd)) ++
        .expect .rightBrace))
      (.missingKind .leftBrace))

/-- `break`, `continue` or `return`, with an operand if there is one. -/
def jump (kind : Kind) : Action := simple kind (.when (.kindIn expressionFirst) expression)

/-- `catch (type [$e]) { … }` -/
def catchClause : Action :=
  .node .catchClause (
    .bump ++ .expect .leftParen ++
    .branch (.kindIn typeFirst) (.call .type) (.missing "type") ++
    .optional .variableName ++
    .expect .rightParen ++
    block)

def tryStatement : Action :=
  .node .tryStmt (
    .bump ++ block ++
    .branch (.kindIn (.ofList [.catchKw, .finallyKw]))
      (.repeatWhile (.kind .catchKw) catchClause ++
        .when (.kind .finallyKw) (.node .finallyClause (.bump ++ block)))
      (.missingKind .catchKw))

def staticVariable : Action := .node .staticVar (.expect .variableName ++ initializer)

/-- `name = expr` -/
def directive : Action := .node .declareDirective (.bump ++ .expect .eq ++ expression)

def declareStatement : Action :=
  .node .declareStmt (
    .bump ++
    .branch (.kind .leftParen)
      (.delimited .leftParen .rightParen "declare directive" (.single .name) directive)
      (.missingKind .leftParen) ++
    .eat .semicolon .done (.whenNot (.kind .closeTag) embedded))

def expressionStatement : Action := .node .exprStmt (expression ++ statementEnd)

/-- A token that begins no statement starts a run of unexpected input. -/
def expressionOrError (k : Kind) : Action :=
  if expressionFirst.contains k then expressionStatement
  else .recover .unexpected statementRecovery

/-- `function name(` declares a function, `function (` begins an expression. -/
def declaresFunction : Test :=
  .or (.aheadIn 1 nameLike) (.and (.aheadIn 1 (.single .amp)) (.aheadIn 2 nameLike))

def statement : Action := .byKind fun
  | .closeTag | .inlineHtml | .openTag | .openTagWithEcho => boundary
  | .leftBrace => compound
  | .semicolon => .node .emptyStmt .bump
  | .echoKw => simple .echoStmt expressionList
  | .ifKw => ifStatement
  | .whileKw => whileStatement
  | .doKw => doStatement
  | .forKw => forStatement
  | .foreachKw => foreachStatement
  | .switchKw => switchStatement
  | .breakKw => jump .breakStmt
  | .continueKw => jump .continueStmt
  | .returnKw => jump .returnStmt
  | .throwKw => simple .throwStmt expression
  | .tryKw => tryStatement
  | .globalKw => simple .globalStmt (.separated (.expect .variableName))
  | .staticKw =>
    .branch (.aheadIn 1 (.single .variableName))
      (simple .staticVarStmt (.separated staticVariable)) expressionStatement
  | .unsetKw => simple .unsetStmt parenthesizedExpressions
  | .declareKw => declareStatement
  | .functionKw => .branch declaresFunction functionDeclaration expressionStatement
  | .abstractKw | .finalKw | .classKw => classDeclaration
  | .readonlyKw =>
    .branch (.aheadIn 1 (.ofList [.classKw, .abstractKw, .finalKw])) classDeclaration
      (.recover .unexpected statementRecovery)
  | .interfaceKw => interfaceDeclaration
  | .traitKw => traitDeclaration
  | .namespaceKw => namespaceDefinition
  | .useKw => namespaceUse
  | .constKw => constantDeclaration
  | k => expressionOrError k

end PhpSyntax.Grammar
