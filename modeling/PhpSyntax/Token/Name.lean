import PhpSyntax.Token.Lexeme

/-!
Names: a letter, an underscore or any character outside ASCII, then more of those or digits. A name
that spells a keyword is that keyword.
-/
namespace PhpSyntax.Lexeme

def isNameStart (c : Char) : Bool := c.isAlpha || c == '_' || 0x80 ≤ c.toNat

def isNameContinue (c : Char) : Bool := isNameStart c || c.isDigit

/-- How many characters of a text form a name; zero if it does not begin with one. -/
def nameLength : List Char → Nat
  | [] => 0
  | c :: cs => if isNameStart c then (cs.takeWhile isNameContinue).length + 1 else 0

/-- The name or keyword at the beginning of a text that begins with a name. -/
def name (cs : List Char) : Lexeme :=
  let n := nameLength cs
  ⟨(Kind.keyword? (cs.take n)).getD .name, n, none⟩

/-- A dollar sign and a name. -/
def dollarName? : List Char → Option Lexeme
  | '$' :: cs => if 0 < nameLength cs then some ⟨.variableName, nameLength cs + 1, none⟩ else none
  | _ => none

end PhpSyntax.Lexeme
