import PhpSyntax.Token
import PhpSyntax.Token.Lexeme

/-!
Open tags and the text between regions of code.
-/
namespace PhpSyntax.Lexeme

/-- Space, tab, line feed, form feed, carriage return. -/
def isAsciiWhitespace (c : Char) : Bool :=
  c == ' ' || c == '\t' || c == '\n' || c == '\x0c' || c == '\r'

/-- The open tag at the beginning of a text: `<?=`, or `<?php` in any letter case before white space
or the end, or `<?` if the dialect has it. -/
def openTag? (dialect : Dialect) : List Char → Option Lexeme
  | '<' :: '?' :: cs =>
    if cs.head? == some '=' then some ⟨.openTagWithEcho, 3, none⟩
    else if (cs.take 3).map Char.toLower == ['p', 'h', 'p'] &&
        (cs.drop 3).head?.all isAsciiWhitespace then
      some ⟨.openTag, 5, none⟩
    else if dialect.shortOpenTag then some ⟨.openTag, 2, none⟩
    else none
  | _ => none

/-- `n` and the number of characters before the first open tag, or before the end. -/
def htmlFrom (dialect : Dialect) (n : Nat) : List Char → Nat
  | [] => n
  | c :: cs => if (openTag? dialect (c :: cs)).isSome then n else htmlFrom dialect (n + 1) cs

/-- The token at the beginning of a text outside code. -/
def html (dialect : Dialect) (cs : List Char) : Lexeme :=
  match cs, openTag? dialect cs with
  | [], _ => ⟨.eof, 0, none⟩
  | _, some tag => tag
  | _, none => ⟨.inlineHtml, htmlFrom dialect 0 cs, none⟩

end PhpSyntax.Lexeme
