import PhpSyntax.Token.Lexeme

/-!
Quoted strings. A backslash takes the character after it along, whatever it is.
-/
namespace PhpSyntax.Lexeme

/-- `n` and the number of characters up to and including the closing quote; up to the end of the
text, with `false`, if there is none. -/
def closingQuote (quote : Char) (n : Nat) : List Char → Nat × Bool
  | [] => (n, false)
  | c :: cs =>
    if c == '\\' then
      match cs with
      | [] => (n + 1, false)
      | _ :: cs => closingQuote quote (n + 2) cs
    else if c == quote then (n + 1, true)
    else closingQuote quote (n + 1) cs

def isQuote (c : Char) : Bool := c == '\x27' || c == '\x22' || c == '\x60'

/-- The string at the beginning of a text that begins with a quote. -/
def quotedString? : List Char → Option Lexeme
  | [] => none
  | q :: cs =>
    if isQuote q then
      match closingQuote q 1 cs with
      | (n, true) => some ⟨.string, n, none⟩
      | (n, false) => some ⟨.string, n, some .unterminatedString⟩
    else none

end PhpSyntax.Lexeme
