import PhpSyntax.Grammar.Name

/-!
Declarations: functions, classes and their members, namespaces, imports and constants.
-/
namespace PhpSyntax.Grammar

def classModifiers : KindSet := .ofList [.abstractKw, .finalKw, .readonlyKw]

def memberModifiers : KindSet := .ofList [
  .abstractKw, .finalKw, .privateKw, .protectedKw, .publicKw, .readonlyKw, .staticKw, .varKw]

/-- Modifiers that make a parameter a property. -/
def promotionModifiers : KindSet := .ofList [.privateKw, .protectedKw, .publicKw, .readonlyKw]

def parameterFirst : KindSet :=
  .ofList [.amp, .ellipsis, .variableName] ∪ typeFirst ∪ promotionModifiers

/-- Tokens that end a run of unexpected input between members. -/
def memberRecovery : KindSet :=
  .ofList [.constKw, .functionKw, .useKw, .variableName, .rightBrace] ∪ memberModifiers

def useClauseFirst : KindSet := .ofList [.functionKw, .constKw] ∪ qualifiedNameFirst

/-- All modifiers of a set that follow. -/
def modifierList (modifiers : KindSet) : Action :=
  .node .modifierList (.repeatWhile (.kindIn modifiers) .bump)

/-- `= expr`, if it is there. -/
def initializer : Action := .eat .eq expression .done

def parameter : Action :=
  .node .param (
    .when (.kindIn promotionModifiers) (modifierList promotionModifiers) ++
    .when (.kindIn typeFirst) (.call .type) ++
    .optional .amp ++
    .optional .ellipsis ++
    .expect .variableName ++
    initializer)

/-- `(param, …)` -/
def parameterList : Action :=
  .branch (.kind .leftParen)
    (.node .paramList (.delimited .leftParen .rightParen "parameter" parameterFirst parameter))
    (.missingKind .leftParen)

/-- `: type` after a parameter list, if it is there. -/
def returnType : Action :=
  .when (.kind .colon)
    (.node .returnType (.bump ++ .branch (.kindIn typeFirst) (.call .type) (.missing "type")))

/-- `function [&] name(…) [: type] { … }` -/
def functionDeclaration : Action :=
  .node .functionDecl (
    .bump ++ .optional .amp ++ anyName ++ parameterList ++ returnType ++ block)

/-- `$a [= expr], …;` -/
def properties : Action :=
  .separated (.node .propertyElement (.expect .variableName ++ initializer)) ++ statementEnd

/-- `A = expr, …` -/
def constants : Action :=
  .separated (.node .constElement (anyName ++ .expect .eq ++ expression))

/-- `const A = expr, …;` after any modifiers. -/
def constantMember : Action := .bump ++ constants ++ statementEnd

/-- `function [&] name(…) [: type]` and a body or `;`, after any modifiers. -/
def methodMember : Action :=
  .bump ++ .optional .amp ++ anyName ++ parameterList ++ returnType ++
  .eat .semicolon .done block

/-- A member after its modifiers, which become part of it. -/
def modifiedMember : Action := .byKind fun
  | .constKw => .wrap .classConstDecl constantMember
  | .functionKw => .wrap .methodDecl methodMember
  | .variableName => .wrap .propertyDecl properties
  | k =>
    if typeFirst.contains k then .wrap .propertyDecl (.call .type ++ properties)
    else .wrap .error (.missing "property, method or constant")

/-- A member without modifiers. -/
def plainMember : Action := .byKind fun
  | .constKw => .node .classConstDecl constantMember
  | .functionKw => .node .methodDecl methodMember
  | .useKw => .node .traitUse (.bump ++ nameList ++ statementEnd)
  | .variableName => .node .propertyDecl properties
  | _ => .recover .unexpected memberRecovery

def member : Action :=
  .branch (.kindIn memberModifiers) (modifierList memberModifiers ++ modifiedMember) plainMember

/-- `{ member … }` -/
def memberList : Action :=
  .branch (.kind .leftBrace)
    (.node .memberList (
      .bump ++
      .repeatWhile (.not (.kindIn (.ofList [.rightBrace, .eof]))) (.call .member) ++
      .expect .rightBrace))
    (.missingKind .leftBrace)

/-- What follows the name of a class, or the word `class` if it has none. -/
def classTail : Action :=
  .when (.kind .extendsKw) (.node .extendsClause (.bump ++ requiredName)) ++
  .when (.kind .implementsKw) (.node .implementsClause (.bump ++ nameList)) ++
  memberList

def classDeclaration : Action :=
  .node .classDecl (
    .when (.kindIn classModifiers) (modifierList classModifiers) ++
    .expect .classKw ++
    name ++
    classTail)

def interfaceDeclaration : Action :=
  .node .interfaceDecl (
    .bump ++
    name ++
    .when (.kind .extendsKw) (.node .extendsClause (.bump ++ nameList)) ++
    memberList)

def traitDeclaration : Action := .node .traitDecl (.bump ++ name ++ memberList)

/-- `const A = expr, …;` -/
def constantDeclaration : Action := .node .constDecl (.bump ++ constants ++ statementEnd)

/-- `namespace Name;`, `namespace Name { … }` or `namespace { … }` -/
def namespaceDefinition : Action :=
  .node .namespaceDef (
    .bump ++
    .branch (.kindIn qualifiedNameFirst)
      (qualifiedName ++ .branch (.kind .leftBrace) compound statementEnd)
      block)

/-- `use clause, …;` -/
def namespaceUse : Action :=
  .node .namespaceUse (.bump ++ .separated (.call .useClause) ++ statementEnd)

/-- `[function|const] Name [as Alias]`, or a group `Prefix\{…}` of clauses. -/
def useClause : Action :=
  .node .useClause (
    .when (.kindIn (.ofList [.functionKw, .constKw])) .bump ++
    requiredName ++
    .branch (.and (.kind .backslash) (.aheadIn 1 (.single .leftBrace)))
      (.bump ++ .delimited .leftBrace .rightBrace "name" useClauseFirst (.call .useClause))
      (.when (.kind .asKw) (.node .useAlias (.bump ++ name))))

end PhpSyntax.Grammar
