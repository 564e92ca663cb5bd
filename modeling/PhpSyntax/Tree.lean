import PhpSyntax.Text.Quoted
import PhpSyntax.Text.Range
import PhpSyntax.Text.Width
import PhpSyntax.Trivia

/-!
Syntax trees. The leaves are tokens with the trivia before them, the branches are what grammar rules
make of them, and each knows its place in the text. A `Node` or a `Tip` is a branch or a leaf seen in
its tree: it remembers the branches above it.
-/
namespace PhpSyntax

/-- A token in a tree. -/
structure Leaf where
  kind : Kind
  /-- Its number among the leaves of the tree. -/
  index : Nat
  /-- Where its trivia begins. -/
  start : Nat
  leading : List TriviaPiece
  /-- The width of the token without its trivia. -/
  width : Nat
  /-- The text of the trivia and the token. -/
  text : List Char
  deriving DecidableEq

/-- What a branch is, apart from its children. -/
structure Branch where
  kind : Kind
  /-- Its number among the branches of the tree, each before those below it. -/
  index : Nat
  /-- The bytes of all its leaves. -/
  range : Range
  deriving DecidableEq

inductive Element where
  | leaf (leaf : Leaf)
  | branch (branch : Branch) (children : List Element)

/-- A branch in its tree. -/
structure Node where
  branch : Branch
  children : List Element
  /-- The branches above with their children, the nearest first. -/
  above : List (Branch × List Element)

/-- A leaf in its tree. -/
structure Tip where
  leaf : Leaf
  parent : Node

/-- A branch or a leaf in its tree. -/
inductive Item where
  | node (n : Node)
  | tip (t : Tip)

/-- A text and the tree that covers it. -/
structure Tree where
  text : List Char
  branch : Branch
  children : List Element

namespace Leaf

def leadingWidth (l : Leaf) : Nat := TriviaPiece.totalWidth l.leading

/-- The bytes of the token and its trivia. -/
def fullRange (l : Leaf) : Range := .ofLength l.start (l.leadingWidth + l.width)

/-- The bytes of the token without its trivia. -/
def range (l : Leaf) : Range := .ofLength (l.start + l.leadingWidth) l.width

/-- Whether the leaf stands for an absent token. -/
def isMissing (l : Leaf) : Bool := l.kind == .missing

end Leaf

namespace Tree

/-- The root in its tree. -/
def root (t : Tree) : Node := ⟨t.branch, t.children, []⟩

end Tree

namespace Node

def kind (n : Node) : Kind := n.branch.kind
def index (n : Node) : Nat := n.branch.index
def range (n : Node) : Range := n.branch.range

/-- The nearest branch above; only the root has none. -/
def parent? (n : Node) : Option Node :=
  match n.above with
  | [] => none
  | (b, cs) :: up => some ⟨b, cs, up⟩

def isRoot (n : Node) : Bool := n.above.isEmpty

/-- The branches of a list, the nearest first, as nodes. -/
def ofAbove : List (Branch × List Element) → List Node
  | [] => []
  | (b, cs) :: up => ⟨b, cs, up⟩ :: ofAbove up

/-- The node and all above it, the root last. -/
def ancestors (n : Node) : List Node := n :: ofAbove n.above

/-- A branch among the children of a node, as a node. -/
def child (n : Node) (b : Branch) (cs : List Element) : Node :=
  ⟨b, cs, (n.branch, n.children) :: n.above⟩

/-- A child of a node, as an item of the tree. -/
def item (n : Node) : Element → Item
  | .leaf l => .tip ⟨l, n⟩
  | .branch b cs => .node (n.child b cs)

/-- The children, in order. -/
def items (n : Node) : List Item := n.children.map n.item

end Node

namespace Tip

def kind (t : Tip) : Kind := t.leaf.kind
def index (t : Tip) : Nat := t.leaf.index
def isMissing (t : Tip) : Bool := t.leaf.isMissing
def fullRange (t : Tip) : Range := t.leaf.fullRange
def range (t : Tip) : Range := t.leaf.range

/-- The nodes above a leaf, the root last. -/
def ancestors (t : Tip) : List Node := t.parent.ancestors

end Tip

namespace Item

def kind : Item → Kind
  | node n => n.kind
  | tip t => t.kind

/-- The bytes of the item, leading trivia included. -/
def fullRange : Item → Range
  | node n => n.range
  | tip t => t.fullRange

def parent? : Item → Option Node
  | node n => n.parent?
  | tip t => some t.parent

def node? : Item → Option Node
  | node n => some n
  | tip _ => none

def tip? : Item → Option Tip
  | node _ => none
  | tip t => some t

end Item
end PhpSyntax
