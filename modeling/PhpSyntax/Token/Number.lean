import PhpSyntax.Token.Lexeme

/-!
Integer and float literals. A single underscore may stand before any digit but the first.
-/
namespace PhpSyntax.Lexeme

def isHexDigit (c : Char) : Bool :=
  c.isDigit || ('a' ≤ c && c ≤ 'f') || ('A' ≤ c && c ≤ 'F')

def isOctalDigit (c : Char) : Bool := '0' ≤ c && c ≤ '7'

def isBinaryDigit (c : Char) : Bool := c == '0' || c == '1'

/-- `n` and the number of characters that are digits or an underscore before a digit. -/
def digitsFrom (isDigit : Char → Bool) (n : Nat) : List Char → Nat
  | [] => n
  | c :: cs =>
    if isDigit c || (c == '_' && cs.head?.any isDigit) then digitsFrom isDigit (n + 1) cs else n

def digitsLength (isDigit : Char → Bool) (cs : List Char) : Nat := digitsFrom isDigit 0 cs

/-- The digits that the letter after a leading zero calls for. -/
def radixDigit? : Char → Option (Char → Bool)
  | 'x' | 'X' => some isHexDigit
  | 'b' | 'B' => some isBinaryDigit
  | 'o' | 'O' => some isOctalDigit
  | _ => none

/-- The length of an integer with a radix: `0x`, `0b` or `0o` and at least one digit. -/
def radixLength? : List Char → Option Nat
  | '0' :: r :: d :: cs => do
    let isDigit ← radixDigit? r
    if isDigit d then some (digitsLength isDigit (d :: cs) + 2) else none
  | _ => none

/-- The length of an exponent: `e`, an optional sign and digits; zero if there is none. -/
def exponentLength : List Char → Nat
  | e :: c :: cs =>
    if e == 'e' || e == 'E' then
      if c == '+' || c == '-' then
        if cs.head?.any Char.isDigit then digitsLength Char.isDigit cs + 2 else 0
      else if c.isDigit then digitsLength Char.isDigit (c :: cs) + 1
      else 0
    else 0
  | _ => 0

/-- The length of a point and the digits after it, which may be absent; zero without a point. -/
def fractionLength : List Char → Nat
  | '.' :: cs => digitsLength Char.isDigit cs + 1
  | _ => 0

/-- The number at the beginning of a text that begins with a digit. -/
def number (cs : List Char) : Lexeme :=
  match radixLength? cs with
  | some n => ⟨.intNumber, n, none⟩
  | none =>
    let whole := digitsLength Char.isDigit cs
    let rest := cs.drop whole
    let fraction := fractionLength rest
    let exponent := exponentLength (rest.drop fraction)
    ⟨if fraction + exponent = 0 then .intNumber else .floatNumber, whole + fraction + exponent, none⟩

/-- A number that begins with a point before a digit. -/
def pointNumber? : List Char → Option Lexeme
  | '.' :: cs =>
    if cs.head?.any Char.isDigit then
      let fraction := fractionLength ('.' :: cs)
      some ⟨.floatNumber, fraction + exponentLength (cs.drop (fraction - 1)), none⟩
    else none
  | _ => none

end PhpSyntax.Lexeme
