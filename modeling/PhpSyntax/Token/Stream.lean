import PhpSyntax.Token.Code
import PhpSyntax.Token.LeadingTrivia

/-!
The tokens of a text. Reading starts outside code, never fails and never looks back: a place in the
text is an offset, a mode and the characters still to come.
-/
namespace PhpSyntax

/-- A place between two tokens. -/
structure Place where
  offset : Nat
  mode : Mode
  rest : List Char
  deriving DecidableEq

namespace Place

/-- The token at a place, and the place after it. At the end of the text that is the end of file,
again and again. -/
def next (dialect : Dialect) (p : Place) : Token × Place :=
  let lead : LeadingTrivia := match p.mode with
    | .html => ⟨[], none, p.offset, p.rest⟩
    | .code => LeadingTrivia.read p.offset p.rest
  let lexeme := match p.mode with
    | .html => Lexeme.html dialect lead.rest
    | .code => Lexeme.code lead.rest
  let (text, rest) := lead.rest.splitAt lexeme.length
  let w := Text.width text
  let error := lexeme.problem.map (Diagnostic.of · (.ofLength lead.offset w))
  (⟨p.offset, lead.pieces, lexeme.kind, text, lead.error <|> error⟩,
   ⟨lead.offset + w, p.mode.after lexeme.kind, rest⟩)

/-- Up to `count` tokens from a place on, after those `before` it; the end of file is the last. -/
def tokensFrom (dialect : Dialect) (before : Array Token) : (count : Nat) → Place → Array Token
  | 0, _ => before
  | count + 1, p =>
    let (token, after) := p.next dialect
    if token.kind = .eof then before.push token
    else tokensFrom dialect (before.push token) count after

end Place

/-- All tokens of a text, the end of file last. Every other token takes a character, so there are no
more of them than characters. -/
def tokenize (dialect : Dialect) (text : List Char) : List Token :=
  (Place.tokensFrom dialect #[] (text.length + 1) ⟨0, .html, text⟩).toList

end PhpSyntax
