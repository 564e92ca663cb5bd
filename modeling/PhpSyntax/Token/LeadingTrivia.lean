import PhpSyntax.Token
import PhpSyntax.Token.Heredoc
import PhpSyntax.Token.Tag

/-!
The trivia before a token in code: runs of blanks, line breaks and comments, one after the other.
-/
namespace PhpSyntax

/-- The beginning of a text that forms one piece of trivia. -/
structure TriviaScan where
  kind : TriviaKind
  /-- How many characters belong to it. -/
  length : Nat
  /-- Whether a block comment found its end. -/
  terminated : Bool := true

namespace TriviaScan

/-- `n` and the number of characters of a line comment, which ends before a line break or a close
tag. -/
def lineCommentFrom (n : Nat) : List Char → Nat
  | [] => n
  | c :: cs =>
    if c == '\n' || c == '\r' || (c == '?' && cs.head? == some '>') then n
    else lineCommentFrom (n + 1) cs

/-- `n` and the number of characters up to and including `*/`; up to the end, with `false`, if there
is none. -/
def closingStar (n : Nat) : List Char → Nat × Bool
  | [] => (n, false)
  | c :: cs =>
    if c == '*' && cs.head? == some '/' then (n + 2, true) else closingStar (n + 1) cs

/-- A block comment is a doc comment if white space follows `/**`. -/
def blockComment (cs : List Char) : TriviaScan :=
  let (n, terminated) := closingStar 2 (cs.drop 2)
  let doc := cs[2]? == some '*' && cs[3]?.any Lexeme.isAsciiWhitespace
  ⟨if doc then .docComment else .multiLineComment, n, terminated⟩

/-- The piece of trivia at the beginning of a text. -/
def first? : List Char → Option TriviaScan
  | [] => none
  | c :: cs =>
    if Lexeme.isBlank c then some ⟨.whitespace, Lexeme.blankLength (c :: cs), true⟩
    else if c == '\n' then some ⟨.newline, 1, true⟩
    else if c == '\r' then some ⟨.newline, if cs.head? == some '\n' then 2 else 1, true⟩
    else if c == '#' || (c == '/' && cs.head? == some '/') then
      some ⟨.singleLineComment, lineCommentFrom 0 (c :: cs), true⟩
    else if c == '/' && cs.head? == some '*' then some (blockComment (c :: cs))
    else none

end TriviaScan

/-- The trivia before a token, and the text that follows it. -/
structure LeadingTrivia where
  pieces : List TriviaPiece
  error : Option Diagnostic
  /-- Where the token begins. -/
  offset : Nat
  rest : List Char

namespace LeadingTrivia

/-- Adds a piece of a given scan and text. -/
def add (lead : LeadingTrivia) (scan : TriviaScan) (text : List Char) : LeadingTrivia :=
  let w := Text.width text
  let error := if scan.terminated then none
    else some (.of .unterminatedComment (.ofLength lead.offset w))
  { lead with
    pieces := ⟨scan.kind, w⟩ :: lead.pieces
    error := lead.error <|> error
    offset := lead.offset + w }

/-- Reads pieces as long as there are any, the last first. The first `skip` characters belong to the
piece read before. -/
def readFrom (lead : LeadingTrivia) : (skip : Nat) → List Char → LeadingTrivia
  | _, [] => { lead with rest := [] }
  | skip + 1, _ :: cs => readFrom lead skip cs
  | 0, c :: cs =>
    match TriviaScan.first? (c :: cs) with
    | none => { lead with rest := c :: cs }
    | some scan => readFrom (lead.add scan ((c :: cs).take scan.length)) (scan.length - 1) cs

/-- The trivia at the beginning of a text that stands at a given offset. -/
def read (offset : Nat) (cs : List Char) : LeadingTrivia :=
  let lead := readFrom ⟨[], none, offset, []⟩ 0 cs
  { lead with pieces := lead.pieces.reverse }

end LeadingTrivia
end PhpSyntax
