import PhpSyntax.Spelling
import PhpSyntax.Tree.Walk

/-!
The text of the parts of a tree. A part that begins or ends inside a character has none: only trees
of tokens with trivia lengths chosen at will have such parts.
-/
namespace PhpSyntax

/-- A piece of trivia in its tree. -/
structure PlacedTrivia where
  kind : TriviaKind
  range : Range
  /-- Its text, or the end that lies inside a character. -/
  text : Except Text.MidCharacter (List Char)

namespace Text

/-- What follows the first `n` bytes of a text that stands at offset `start`. -/
def dropBytes (start n : Nat) (cs : List Char) : Except MidCharacter (List Char) :=
  match splitBytes? n cs with
  | some (_, rest) => .ok rest
  | none =>
    match midCharacter? .start (start + n) start cs with
    | some fault => .error fault
    | none => .ok []

/-- The first `n` bytes of a text that stands at offset `start`. -/
def takeBytes (start n : Nat) (cs : List Char) : Except MidCharacter (List Char) :=
  match splitBytes? n cs with
  | some (front, _) => .ok front
  | none =>
    match midCharacter? .stop (start + n) start cs with
    | some fault => .error fault
    | none => .ok cs

def Edge.label : Edge → String
  | .start => "start"
  | .stop => "end"

namespace MidCharacter

/-- What is said of an end inside a character. -/
def message (fault : MidCharacter) : String :=
  fault.edge.label ++ " byte index " ++ toString fault.offset ++
    " is not a char boundary; it is inside '" ++ String.ofList (escape fault.character) ++
    "' (bytes " ++ (Range.ofLength fault.start fault.character.utf8Size).render ++ " of string)"

end MidCharacter
end Text

namespace Tip

/-- The text without the trivia. -/
def trimmedText (t : Tip) : Except Text.MidCharacter (List Char) :=
  Text.dropBytes t.leaf.start t.leaf.leadingWidth t.leaf.text

/-- Pieces of trivia one after the other, the first of them at `offset`. At hand of the text is
`cs`, which stands at `start`: the last end so far that lies inside no character. -/
def place (start : Nat) (cs : List Char) (offset : Nat) : List TriviaPiece → List PlacedTrivia
  | [] => []
  | p :: ps =>
    let rest := Text.dropBytes start (offset - start) cs
    ⟨p.kind, .ofLength offset p.width, rest.bind (Text.takeBytes offset p.width)⟩ ::
      match rest with
      | .ok cs => place offset cs (offset + p.width) ps
      | .error _ => place start cs (offset + p.width) ps

/-- The trivia before the token. -/
def trivia (t : Tip) : List PlacedTrivia :=
  place t.leaf.start t.leaf.text t.leaf.start t.leaf.leading

/-- The kind, the place and the text without trivia. -/
def render (t : Tip) : Except Text.MidCharacter String := do
  return t.kind.label ++ "@" ++ t.range.render ++ " " ++ Text.quoted (← t.trimmedText)

end Tip

namespace PlacedTrivia

/-- The kind, the place and the text. -/
def render (p : PlacedTrivia) : Except Text.MidCharacter String := do
  return p.kind.kind.label ++ "@" ++ p.range.render ++ " " ++ Text.quoted (← p.text)

end PlacedTrivia

namespace Node

/-- The text of all leaves below. -/
def text (n : Node) : List Char := n.tips.flatMap (·.leaf.text)

/-- The bytes from the first token that is not missing, without its trivia, to the end. -/
def trimmedRange (n : Node) : Range :=
  let start := match n.tips.find? (!·.isMissing) with
    | some t => t.range.start
    | none => n.range.stop
  ⟨min start n.range.stop, n.range.stop, Nat.min_le_right ..⟩

def trimmedText (n : Node) : Except Text.MidCharacter (List Char) :=
  Text.dropBytes n.range.start (n.trimmedRange.start - n.range.start) n.text

/-- The kind and the place. -/
def render (n : Node) : String := n.kind.label ++ "@" ++ n.range.render

end Node

namespace Item

def render : Item → Except Text.MidCharacter String
  | node n => .ok n.render
  | tip t => t.render

/-- The text of the item, leading trivia included. -/
def text : Item → List Char
  | node n => n.text
  | tip t => t.leaf.text

end Item
end PhpSyntax
