import PhpSyntax.Text.Printable

/-!
Quoted text: between double quotes, with escapes for the quote, the backslash and every character
that does not show as itself.
-/
namespace PhpSyntax.Text

/-- How one character is written inside quotes. -/
def escape (c : Char) : List Char :=
  match c with
  | '\x22' => ['\\', '\x22']
  | '\\' => ['\\', '\\']
  | '\n' => ['\\', 'n']
  | '\r' => ['\\', 'r']
  | '\t' => ['\\', 't']
  | '\x00' => ['\\', '0']
  | c =>
    if isPrintable c then [c]
    else ['\\', 'u', '\x7b'] ++ Nat.toDigits 16 c.toNat ++ ['\x7d']

/-- A text between double quotes. -/
def quoted (cs : List Char) : String :=
  String.ofList ('\x22' :: (cs.flatMap escape ++ ['\x22']))

end PhpSyntax.Text
