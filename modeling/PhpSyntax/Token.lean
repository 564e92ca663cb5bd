import PhpSyntax.Diagnostic
import PhpSyntax.Text.Width
import PhpSyntax.Trivia

/-!
Tokens as they are read from a text: each carries the trivia before it.
-/
namespace PhpSyntax

/-- The two kinds of region of a text. -/
inductive Mode where
  | html | code
  deriving DecidableEq

namespace Mode

/-- The mode after a token: open tags begin code, a close tag ends it. -/
def after (mode : Mode) (kind : Kind) : Mode :=
  match kind with
  | .openTag | .openTagWithEcho => code
  | .closeTag => html
  | _ => mode

end Mode

/-- What may vary in how a text is read. -/
structure Dialect where
  /-- Whether `<?` alone begins code. -/
  shortOpenTag : Bool := true
  deriving DecidableEq

/-- A token with the trivia before it. -/
structure Token where
  /-- Where the trivia begins. -/
  offset : Nat
  leading : List TriviaPiece
  kind : Kind
  /-- The token itself, without the trivia. -/
  text : List Char
  /-- What is wrong with the token or its trivia. -/
  error : Option Diagnostic
  deriving DecidableEq

namespace Token

def leadingWidth (t : Token) : Nat := TriviaPiece.totalWidth t.leading

/-- The bytes of the token without its trivia. -/
def range (t : Token) : Range := .ofLength (t.offset + t.leadingWidth) (Text.width t.text)

/-- The bytes of the token and its trivia. -/
def fullRange (t : Token) : Range := .ofLength t.offset (t.leadingWidth + Text.width t.text)

end Token
end PhpSyntax
