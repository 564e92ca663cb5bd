import PhpSyntax.Diagnostic

/-!
The answer of a scanner: which kind of token begins here and how many characters it takes.
-/
namespace PhpSyntax

/-- The beginning of a text that forms one token. -/
structure Lexeme where
  kind : Kind
  /-- How many characters belong to it. -/
  length : Nat
  problem : Option Problem := none
  deriving DecidableEq

end PhpSyntax
