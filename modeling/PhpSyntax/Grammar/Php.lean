import PhpSyntax.Grammar.Statement

/-!
The grammar as a whole: what each rule that is called by name does.
-/
namespace PhpSyntax.Grammar

def php : Rule → Action
  | .statement => statement
  | .expression power => climb power
  | .operators power => operators power
  | .postfixes => postfixes
  | .variableExpr => variableExpression
  | .useClause => useClause
  | .type => type
  | .member => member

/-- Statements up to the end of file. -/
def program : Action := .repeatWhile (.not (.kind .eof)) (.call .statement)

end PhpSyntax.Grammar
