import PhpSyntax.Spelling
import PhpSyntax.Text.Quoted
import PhpSyntax.Token

/-!
Tokens in writing: the trivia first, each piece on a line of its own, then the token, then what is
wrong with it.
-/
namespace PhpSyntax

/-- The kind, the place and the text. -/
def placedLine (kind : Kind) (range : Range) (text : List Char) : String :=
  kind.label ++ "@" ++ range.render ++ " " ++ Text.quoted text

namespace TriviaPiece

/-- The lines of pieces that stand at an offset, at the beginning of a text, and the text after
them. -/
def lines (offset : Nat) (text : List Char) : List TriviaPiece → List String × List Char
  | [] => ([], text)
  | p :: ps =>
    let (front, rest) := (Text.splitBytes? p.width text).getD (text, [])
    let (more, rest) := lines (offset + p.width) rest ps
    (("  " ++ placedLine p.kind.kind (.ofLength offset p.width) front) :: more, rest)

end TriviaPiece

namespace Token

/-- The lines of a token at the beginning of a text, and the text after it. -/
def lines (t : Token) (text : List Char) : List String × List Char :=
  let (trivia, rest) := TriviaPiece.lines t.offset text t.leading
  let error := t.error.elim [] fun d => ["  ^ " ++ d.message]
  (trivia ++ placedLine t.kind t.range t.text :: error, rest.drop t.text.length)

/-- The lines of all tokens of a text. -/
def listing (text : List Char) (tokens : List Token) : List String :=
  (tokens.foldl (fun (lines, rest) t =>
    let (more, rest) := t.lines rest
    (lines ++ more.toArray, rest)) (#[], text)).1.toList

end Token
end PhpSyntax
