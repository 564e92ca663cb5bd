import PhpSyntax.Token.Name

/-!
Heredoc strings: `<<<`, a label, a line break, and everything up to the first line that holds only
blanks, the label and then no more of a name.
-/
namespace PhpSyntax.Lexeme

def isBlank (c : Char) : Bool := c == ' ' || c == '\t'

/-- How many blanks a text begins with. -/
def blankLength (cs : List Char) : Nat := (cs.takeWhile isBlank).length

/-- The length of a line break at the beginning of a text; zero if there is none. -/
def lineBreakLength : List Char → Nat
  | '\r' :: '\n' :: _ => 2
  | '\n' :: _ => 1
  | _ => 0

/-- A heredoc's first line: its label and its length, line break included. -/
structure HeredocHeader where
  label : List Char
  length : Nat

/-- A label, bare or in a pair of single or double quotes, with its length, quotes included. -/
def heredocLabel? : List Char → Option (List Char × Nat)
  | [] => none
  | q :: cs =>
    if q == '\x27' || q == '\x22' then
      let n := nameLength cs
      if (cs.drop n).head? == some q && 0 < n then some (cs.take n, n + 2) else none
    else
      let n := nameLength (q :: cs)
      if 0 < n then some ((q :: cs).take n, n) else none

def heredocHeader? : List Char → Option HeredocHeader
  | '<' :: '<' :: '<' :: cs => do
    let blanks := blankLength cs
    let (label, n) ← heredocLabel? (cs.drop blanks)
    let lineBreak := lineBreakLength (cs.drop (blanks + n))
    if 0 < lineBreak then some ⟨label, 3 + blanks + n + lineBreak⟩ else none
  | _ => none

/-- Whether a line begins with blanks, the label and then no more of a name. -/
def closesHeredoc (label line : List Char) : Bool :=
  let candidate := line.dropWhile isBlank
  label.isPrefixOf candidate && !(candidate.drop label.length).head?.any isNameContinue

/-- `n` and the number of characters up to and including the closing label; up to the end of the
text, with `false`, if no line closes. `lineStart` says whether a line begins here. -/
def closingLabel (label : List Char) (lineStart : Bool) (n : Nat) : List Char → Nat × Bool
  | [] => (n, false)
  | c :: cs =>
    if lineStart && closesHeredoc label (c :: cs) then
      (n + blankLength (c :: cs) + label.length, true)
    else closingLabel label (c == '\n') (n + 1) cs

/-- The heredoc at the beginning of a text. -/
def heredoc? (cs : List Char) : Option Lexeme := do
  let header ← heredocHeader? cs
  match closingLabel header.label true header.length (cs.drop header.length) with
  | (n, true) => some ⟨.string, n, none⟩
  | (n, false) => some ⟨.string, n, some .unterminatedHeredoc⟩

end PhpSyntax.Lexeme
