/-!
Kinds of tokens, trivia and nodes. The order of the constructors is the order of the kinds, and the
classes of kinds below are intervals of it.
-/
namespace PhpSyntax

/-- What a token or a node of a syntax tree is. -/
inductive Kind where
  -- Brackets, separators and other punctuation.
  | leftParen | rightParen | leftBracket | rightBracket | leftBrace | rightBrace | semicolon
  | comma | colon | colonColon | arrow | questionArrow | fatArrow | question | questionQuestion
  | backslash | dollar | ellipsis | atSign
  -- Assignment operators.
  | eq | plusEq | minusEq | starEq | slashEq | dotEq | percentEq | starStarEq | ampEq | pipeEq
  | caretEq | shlEq | shrEq | questionQuestionEq
  -- Comparison operators.
  | eqEq | eqEqEq | bangEq | bangEqEq | lt | ltEq | gt | gtEq | spaceship
  -- Arithmetic, bit and logic operators.
  | plus | minus | star | slash | percent | starStar | dot | plusPlus | minusMinus | amp | pipe
  | caret | tilde | shl | shr | ampAmp | pipePipe | bang
  -- Tags and the text outside code.
  | openTag | openTagWithEcho | closeTag | inlineHtml
  -- Tokens with varying text.
  | variableName | name | intNumber | floatNumber | string | cast
  -- Keywords, in alphabetical order.
  | abstractKw | andKw | arrayKw | asKw | breakKw | caseKw | catchKw | classKw | cloneKw | constKw
  | continueKw | declareKw | defaultKw | doKw | echoKw | elseKw | elseifKw | emptyKw | endforKw
  | endforeachKw | endifKw | endwhileKw | extendsKw | finalKw | finallyKw | fnKw | forKw
  | foreachKw | functionKw | globalKw | ifKw | implementsKw | includeKw | includeOnceKw
  | instanceofKw | interfaceKw | issetKw | listKw | matchKw | namespaceKw | newKw | orKw | printKw
  | privateKw | protectedKw | publicKw | readonlyKw | requireKw | requireOnceKw | returnKw
  | staticKw | switchKw | throwKw | traitKw | tryKw | unsetKw | useKw | varKw | whileKw | xorKw
  | yieldKw
  -- Trivia.
  | whitespace | newline | lineComment | blockComment | docComment
  -- Special tokens: input no rule takes, an absent token, the end, a node without a kind.
  | skipped | missing | eof | tombstone
  -- The root and recovered input.
  | sourceFile | error
  -- Statements and their parts.
  | inlineHtmlStmt | compoundStmt | stmtList | emptyStmt | exprStmt | echoStmt | ifStmt
  | elseIfClause | elseClause | whileStmt | doStmt | forStmt | foreachStmt | foreachKey
  | switchStmt | switchBlock | caseClause | defaultClause | breakStmt | continueStmt | returnStmt
  | throwStmt | tryStmt | catchClause | finallyClause | globalStmt | staticVarStmt | staticVar
  | unsetStmt | declareStmt | declareDirective
  -- Declarations and their parts.
  | functionDecl | paramList | param | returnType | classDecl | interfaceDecl | traitDecl
  | modifierList | extendsClause | implementsClause | nameList | memberList | propertyDecl
  | propertyElement | methodDecl | classConstDecl | constElement | traitUse | namespaceDef
  | namespaceUse | useClause | useAlias | constDecl
  -- Types and names.
  | namedType | nullableType | unionType | qualifiedName
  -- Expressions and their parts.
  | exprList | literal | variableExpr | nameExpr | parenExpr | arrayExpr | arrayElement | listExpr
  | issetExpr | emptyExpr | binaryExpr | assignExpr | ternaryExpr | prefixExpr | postfixExpr
  | castExpr | newExpr | cloneExpr | printExpr | includeExpr | yieldExpr | callExpr | argList
  | arg | memberAccessExpr | scopedAccessExpr | subscriptExpr | closureExpr | closureUse
  | arrowFnExpr | matchExpr | matchArm
  deriving DecidableEq

namespace Kind

/-- All kinds, in order. -/
def all : List Kind := [
  .leftParen, .rightParen, .leftBracket, .rightBracket, .leftBrace, .rightBrace, .semicolon,
  .comma, .colon, .colonColon, .arrow, .questionArrow, .fatArrow, .question, .questionQuestion,
  .backslash, .dollar, .ellipsis, .atSign,
  .eq, .plusEq, .minusEq, .starEq, .slashEq, .dotEq, .percentEq, .starStarEq, .ampEq, .pipeEq,
  .caretEq, .shlEq, .shrEq, .questionQuestionEq,
  .eqEq, .eqEqEq, .bangEq, .bangEqEq, .lt, .ltEq, .gt, .gtEq, .spaceship,
  .plus, .minus, .star, .slash, .percent, .starStar, .dot, .plusPlus, .minusMinus, .amp, .pipe,
  .caret, .tilde, .shl, .shr, .ampAmp, .pipePipe, .bang,
  .openTag, .openTagWithEcho, .closeTag, .inlineHtml,
  .variableName, .name, .intNumber, .floatNumber, .string, .cast,
  .abstractKw, .andKw, .arrayKw, .asKw, .breakKw, .caseKw, .catchKw, .classKw, .cloneKw, .constKw,
  .continueKw, .declareKw, .defaultKw, .doKw, .echoKw, .elseKw, .elseifKw, .emptyKw, .endforKw,
  .endforeachKw, .endifKw, .endwhileKw, .extendsKw, .finalKw, .finallyKw, .fnKw, .forKw,
  .foreachKw, .functionKw, .globalKw, .ifKw, .implementsKw, .includeKw, .includeOnceKw,
  .instanceofKw, .interfaceKw, .issetKw, .listKw, .matchKw, .namespaceKw, .newKw, .orKw, .printKw,
  .privateKw, .protectedKw, .publicKw, .readonlyKw, .requireKw, .requireOnceKw, .returnKw,
  .staticKw, .switchKw, .throwKw, .traitKw, .tryKw, .unsetKw, .useKw, .varKw, .whileKw, .xorKw,
  .yieldKw,
  .whitespace, .newline, .lineComment, .blockComment, .docComment,
  .skipped, .missing, .eof, .tombstone,
  .sourceFile, .error,
  .inlineHtmlStmt, .compoundStmt, .stmtList, .emptyStmt, .exprStmt, .echoStmt, .ifStmt,
  .elseIfClause, .elseClause, .whileStmt, .doStmt, .forStmt, .foreachStmt, .foreachKey,
  .switchStmt, .switchBlock, .caseClause, .defaultClause, .breakStmt, .continueStmt, .returnStmt,
  .throwStmt, .tryStmt, .catchClause, .finallyClause, .globalStmt, .staticVarStmt, .staticVar,
  .unsetStmt, .declareStmt, .declareDirective,
  .functionDecl, .paramList, .param, .returnType, .classDecl, .interfaceDecl, .traitDecl,
  .modifierList, .extendsClause, .implementsClause, .nameList, .memberList, .propertyDecl,
  .propertyElement, .methodDecl, .classConstDecl, .constElement, .traitUse, .namespaceDef,
  .namespaceUse, .useClause, .useAlias, .constDecl,
  .namedType, .nullableType, .unionType, .qualifiedName,
  .exprList, .literal, .variableExpr, .nameExpr, .parenExpr, .arrayExpr, .arrayElement, .listExpr,
  .issetExpr, .emptyExpr, .binaryExpr, .assignExpr, .ternaryExpr, .prefixExpr, .postfixExpr,
  .castExpr, .newExpr, .cloneExpr, .printExpr, .includeExpr, .yieldExpr, .callExpr, .argList, .arg,
  .memberAccessExpr, .scopedAccessExpr, .subscriptExpr, .closureExpr, .closureUse, .arrowFnExpr,
  .matchExpr, .matchArm]

/-- The position of a kind in the order of kinds. -/
def index (k : Kind) : Nat := k.ctorIdx

theorem all_getElem?_index (k : Kind) : all[k.index]? = some k := by
  cases k <;> rfl

theorem index_injective {a b : Kind} (h : a.index = b.index) : a = b :=
  Option.some.inj ((all_getElem?_index a).symm.trans (h ▸ all_getElem?_index b))

theorem index_lt (k : Kind) : k.index < 232 := by
  cases k <;> decide

theorem mem_all (k : Kind) : k ∈ all :=
  List.mem_of_getElem? (all_getElem?_index k)

/-- Leaves: tokens, trivia and the special kinds. -/
def isToken (k : Kind) : Bool := k.index < sourceFile.index

/-- Inner nodes, which grammar rules make. -/
def isNode (k : Kind) : Bool := !k.isToken

/-- Reserved words. -/
def isKeyword (k : Kind) : Bool := abstractKw.index ≤ k.index && k.index ≤ yieldKw.index

/-- Blanks, line breaks and comments. -/
def isTrivia (k : Kind) : Bool := whitespace.index ≤ k.index && k.index ≤ docComment.index

/-- Tokens that stand for a name after `->`, `::`, `function` or `const`: there a reserved word
is a name too. -/
def isNameLike (k : Kind) : Bool := k == name || k.isKeyword

end Kind
end PhpSyntax
