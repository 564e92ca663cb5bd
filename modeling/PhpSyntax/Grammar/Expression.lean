import PhpSyntax.Grammar.Declaration

/-!
Expressions. An operand is followed by operators that bind at least as tightly as asked for; each has
one power towards its left operand and one towards its right.
-/
namespace PhpSyntax.Grammar

/-- How tightly an operator binds its operands: the left one, and the right one. -/
structure Binding where
  left : Nat
  right : Nat
  deriving DecidableEq

/-- The power of operands of `print`, `yield`, `include` and of the bodies of arrow functions: all
operators but `and`, `or` and `xor`. -/
def lowPower : Nat := 7

/-- The power of the operand of `!`. -/
def notPower : Nat := 35

/-- The power of the operands of signs, casts and the like. -/
def unaryPower : Nat := 39

/-- Operators that assign. They bind to the operand right before them, whatever stands around: `!$a =
f()` is `!($a = f())`. -/
def isAssignment : Kind → Bool
  | .eq | .plusEq | .minusEq | .starEq | .slashEq | .dotEq | .percentEq | .starStarEq | .ampEq
  | .pipeEq | .caretEq | .shlEq | .shrEq | .questionQuestionEq => true
  | _ => false

/-- The binding of an operator between two operands; the question mark of a conditional counts as
one. -/
def binding? : Kind → Option Binding
  | .orKw => some ⟨1, 2⟩
  | .xorKw => some ⟨3, 4⟩
  | .andKw => some ⟨5, 6⟩
  | .question => some ⟨9, 10⟩
  | .questionQuestion => some ⟨12, 11⟩
  | .pipePipe => some ⟨13, 14⟩
  | .ampAmp => some ⟨15, 16⟩
  | .pipe => some ⟨17, 18⟩
  | .caret => some ⟨19, 20⟩
  | .amp => some ⟨21, 22⟩
  | .eqEq | .bangEq | .eqEqEq | .bangEqEq | .spaceship => some ⟨23, 24⟩
  | .lt | .ltEq | .gt | .gtEq => some ⟨25, 26⟩
  | .dot => some ⟨27, 28⟩
  | .shl | .shr => some ⟨29, 30⟩
  | .plus | .minus => some ⟨31, 32⟩
  | .star | .slash | .percent => some ⟨33, 34⟩
  | .instanceofKw => some ⟨37, 38⟩
  | .starStar => some ⟨42, 41⟩
  | k => if isAssignment k then some ⟨255, lowPower⟩ else none

/-- The branch that an operator makes of its operands. -/
def operatorNode (k : Kind) : Kind :=
  if k = .question then .ternaryExpr else if isAssignment k then .assignExpr else .binaryExpr

/-- An operator and all that follows its left operand. -/
def operation (k : Kind) (power : Nat) : Action :=
  match k with
  | .question =>
    .bump ++ .whenNot (.kind .colon) expression ++ .expect .colon ++ expressionAt power
  | .eq => .bump ++ .optional .amp ++ expressionAt power
  | _ => .bump ++ expressionAt power

/-- The operators after an operand that bind at least as tightly as `power`. -/
def operators (power : Nat) : Action := .byKind fun k =>
  match binding? k with
  | none => .done
  | some b =>
    if b.left < power then .done
    else .wrap (operatorNode k) (operation k b.right) ++ .call (.operators power)

/-! ## Names, variables and arguments -/

/-- `$name`, `$$name` or `${expr}` -/
def variableExpression : Action :=
  .node .variableExpr (
    .eat .dollar
      (.byKind fun
        | .leftBrace => .bump ++ expression ++ .expect .rightBrace
        | .variableName | .dollar => .call .variableExpr
        | _ => .missingKind .variableName)
      .bump)

def parenthesized : Action :=
  .node .parenExpr (.bump ++ expression ++ .expect .rightParen)

def argumentFirst : KindSet := .single .ellipsis ∪ expressionFirst

/-- `expr`, `name: expr`, `...expr`, or `...` alone, which makes a closure of a callable. -/
def argument : Action :=
  .node .arg (
    .when (.and (.kindIn nameLike) (.aheadIn 1 (.single .colon))) (.bump ++ .bump) ++
    .eat .ellipsis (.whenNot (.kind .rightParen) expression) expression)

/-- `(arg, …)` -/
def argumentList : Action :=
  .node .argList (.delimited .leftParen .rightParen "argument" argumentFirst argument)

/-- What stands after `->`, `?->` or `::`. -/
def memberName : Action := .byKind fun
  | .variableName => .bump
  | .dollar => .call .variableExpr
  | .leftBrace => .bump ++ expression ++ .expect .rightBrace
  | k => if k.isNameLike then .bump else .missingKind .name

/-! ## Arrays -/

def elementFirst : KindSet := .ofList [.amp, .ellipsis] ∪ expressionFirst

/-- `expr`, `key => [&] expr`, `...expr` or `&expr` -/
def arrayElement : Action :=
  .node .arrayElement (
    .branch (.kindIn (.ofList [.ellipsis, .amp]))
      (.bump ++ expression)
      (expression ++ .eat .fatArrow (.optional .amp ++ expression) .done))

/-- Elements up to a closing bracket. There may be nothing between two commas. -/
def arrayElements (opening close : Kind) : Action :=
  .require (.kind opening) ++
  .bump ++
  .repeatWhile (.kindIn (elementFirst ∪ .single .comma))
    (.branch (.kind .comma) .bump
      (arrayElement ++
        .branch (.kind .comma) .bump (.when (.kindIn elementFirst) (.missingKind .comma)))) ++
  .expect close

/-- Elements in parentheses, which have to be there. -/
def parenthesizedElements : Action :=
  .branch (.kind .leftParen) (arrayElements .leftParen .rightParen) (.missingKind .leftParen)

/-- `[…]` or `array(…)` -/
def array : Action :=
  .node .arrayExpr (.eat .arrayKw parenthesizedElements (arrayElements .leftBracket .rightBracket))

/-- `list(…)` -/
def list : Action := .node .listExpr (.bump ++ parenthesizedElements)

/-! ## Functions and matches -/

/-- `use ([&] $a, …)` -/
def closureUse : Action :=
  .node .closureUse (
    .bump ++
    .branch (.kind .leftParen)
      (.delimited .leftParen .rightParen "variable" (.ofList [.amp, .variableName])
        (.optional .amp ++ .expect .variableName))
      (.missingKind .leftParen))

/-- `[static] function [&] (…) [use (…)] [: type] { … }` -/
def closure : Action :=
  .node .closureExpr (
    .optional .staticKw ++ .expect .functionKw ++ .optional .amp ++ parameterList ++
    .when (.kind .useKw) closureUse ++ returnType ++ block)

/-- `[static] fn [&] (…) [: type] => expr` -/
def arrowFunction : Action :=
  .node .arrowFnExpr (
    .optional .staticKw ++ .expect .fnKw ++ .optional .amp ++ parameterList ++ returnType ++
    .expect .fatArrow ++ expressionAt lowPower)

def armFirst : KindSet := .single .defaultKw ∪ expressionFirst

/-- `expr, …` before the arrow of a match arm; a last comma is allowed. -/
def armConditions : Action :=
  .node .exprList (
    expression ++
    .repeatWhile (.and (.kind .comma) (.aheadIn 1 expressionFirst)) (.bump ++ expression) ++
    .when (.and (.kind .comma) (.aheadIn 1 (.single .fatArrow))) .bump)

/-- `default => expr` or `expr, … => expr` -/
def matchArm : Action :=
  .node .matchArm (
    .eat .defaultKw .done armConditions ++ .expect .fatArrow ++ expression)

/-- `match (expr) { arm, … }` -/
def matchExpression : Action :=
  .node .matchExpr (
    .bump ++ .expect .leftParen ++ expression ++ .expect .rightParen ++
    .branch (.kind .leftBrace)
      (.delimited .leftBrace .rightBrace "match arm" armFirst matchArm)
      (.missingKind .leftBrace))

/-! ## Operands -/

/-- `expr, …` in parentheses, which have to be there. -/
def parenthesizedExpressions : Action :=
  .branch (.kind .leftParen)
    (.delimited .leftParen .rightParen "expression" expressionFirst (.call (.expression 0)))
    (.missingKind .leftParen)

/-- An operand without operators before or after it. `static` and `match` can be mere names. -/
def primary : Action := .byKind fun
  | .intNumber | .floatNumber | .string => .node .literal .bump
  | .variableName | .dollar => .call .variableExpr
  | .name | .backslash => .node .nameExpr qualifiedName
  | .staticKw =>
    .branch (.aheadIn 1 (.single .functionKw)) closure
      (.branch (.aheadIn 1 (.single .fnKw)) arrowFunction (.node .nameExpr .bump))
  | .functionKw => closure
  | .fnKw => arrowFunction
  | .matchKw => .branch (.aheadIn 1 (.single .leftParen)) matchExpression (.node .nameExpr .bump)
  | .leftParen => parenthesized
  | .leftBracket | .arrayKw => array
  | .listKw => list
  | .issetKw => .node .issetExpr (.bump ++ parenthesizedExpressions)
  | .emptyKw =>
    .node .emptyExpr (.bump ++ .expect .leftParen ++ expression ++ .expect .rightParen)
  | _ => .decline

/-- Tokens that go on with an operand. -/
def postfixFirst : KindSet := .ofList [
  .leftBracket, .arrow, .questionArrow, .colonColon, .leftParen, .plusPlus, .minusMinus]

/-- A subscript, a member, a call or a step operator after an operand. -/
def postfixOperation : Action := .byKind fun
  | .leftBracket =>
    .wrap .subscriptExpr (
      .bump ++ .whenNot (.kind .rightBracket) expression ++ .expect .rightBracket)
  | .arrow | .questionArrow => .wrap .memberAccessExpr (.bump ++ memberName)
  | .colonColon => .wrap .scopedAccessExpr (.bump ++ memberName)
  | .leftParen => .wrap .callExpr argumentList
  | .plusPlus | .minusMinus => .wrap .postfixExpr .bump
  | _ => .done

def postfixes : Action := .repeatWhile (.kindIn postfixFirst) postfixOperation

/-- An operand with all that follows it, operators between operands apart. -/
def postfixed : Action := primary ++ .when .found (.call .postfixes)

/-- An operator before its operand. -/
def prefixed (kind : Kind) (power : Nat) : Action := .node kind (.bump ++ expressionAt power)

/-- `yield`, `yield expr`, `yield key => expr` or `yield from expr` -/
def yieldExpression : Action :=
  .node .yieldExpr (
    .bump ++
    .branch (.and (.and (.kind .name) (.word "from")) (.aheadIn 1 expressionFirst))
      (.bump ++ expressionAt lowPower)
      (.when (.kindIn expressionFirst)
        (expressionAt lowPower ++ .eat .fatArrow (expressionAt lowPower) .done)))

/-- What `new` makes an object of. -/
def className : Action := .byKind fun
  | .staticKw => .bump
  | .name | .backslash => qualifiedName
  | .variableName | .dollar => .call .variableExpr
  | .leftParen => parenthesized
  | _ => .missing "class name"

/-- `new Name(…)`, or `new class(…) { … }`, which declares a class without a name. -/
def newExpression : Action :=
  let arguments : Action := .when (.kind .leftParen) argumentList
  .node .newExpr (
    .bump ++
    .eat .classKw (arguments ++ classTail) (className ++ arguments))

/-- An operand with the operators before it. -/
def unary : Action := .byKind fun
  | .bang => prefixed .prefixExpr notPower
  | .minus | .plus | .tilde | .atSign | .plusPlus | .minusMinus => prefixed .prefixExpr unaryPower
  | .cast => prefixed .castExpr unaryPower
  | .cloneKw => prefixed .cloneExpr unaryPower
  | .printKw => prefixed .printExpr lowPower
  | .includeKw | .includeOnceKw | .requireKw | .requireOnceKw => prefixed .includeExpr lowPower
  | .yieldKw => yieldExpression
  | .newKw => newExpression
  | _ => postfixed

/-- An operand and the operators after it that bind at least as tightly as `power`. -/
def climb (power : Nat) : Action := unary ++ .when .found (.call (.operators power))

end PhpSyntax.Grammar
