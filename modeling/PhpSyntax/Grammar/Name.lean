import PhpSyntax.Grammar.Rule

/-!
Names and types.
-/
namespace PhpSyntax.Grammar

/-- A name; reserved words are none. -/
def name : Action := .expect .name

/-- A name in a place where reserved words are names too. -/
def anyName : Action := .branch (.kindIn nameLike) .bump (.missingKind .name)

def qualifiedNameFirst : KindSet := .ofList [.name, .backslash]

/-- `Foo`, `\Foo\Bar` or `Foo\Bar`. A backslash before a brace is left alone. -/
def qualifiedName : Action :=
  .node .qualifiedName (
    .eat .backslash anyName name ++
    .repeatWhile (.and (.kind .backslash) (.aheadIn 1 nameLike)) (.bump ++ .bump))

/-- A qualified name, which is missing if there is none. -/
def requiredName : Action :=
  .branch (.kindIn qualifiedNameFirst) qualifiedName (.missingKind .name)

/-- `Foo, \Bar, …` -/
def nameList : Action := .node .nameList (.separated requiredName)

def typeFirst : KindSet := .ofList [.question, .name, .backslash, .arrayKw, .staticKw]

/-- A type without operators. -/
def singleType : Action :=
  .nodeIfAny .namedType (.byKind fun
    | .name | .backslash => qualifiedName
    | .arrayKw | .staticKw => .bump
    | _ => .done)

/-- A type without operators, which is missing if there is none. -/
def requiredType : Action := singleType ++ .branch .found .done (.missing "type")

/-- `?T`, `T` or `T1|T2|…` -/
def type : Action :=
  .branch (.kind .question)
    (.node .nullableType (.bump ++ requiredType))
    (singleType ++
      .branch .found
        (.when (.kind .pipe)
          (.wrap .unionType (.repeatWhile (.kind .pipe) (.bump ++ requiredType))))
        (.missing "type"))

end PhpSyntax.Grammar
