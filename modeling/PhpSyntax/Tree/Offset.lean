import PhpSyntax.Tree.Walk

/-!
Finding parts of a tree by offsets: the tokens at an offset, the smallest element around a range, the
neighbours of a token.
-/
namespace PhpSyntax

/-- The tokens at an offset: none, one, or two that meet there. -/
inductive AtOffset (α : Type) where
  | none
  | single (t : α)
  | between (left right : α)
  deriving DecidableEq

namespace AtOffset

variable {α β : Type}

def map (f : α → β) : AtOffset α → AtOffset β
  | none => none
  | single t => single (f t)
  | between l r => between (f l) (f r)

/-- The token, the left one of two. -/
def left? : AtOffset α → Option α
  | none => .none
  | single t => some t
  | between l _ => some l

/-- The token, the right one of two. -/
def right? : AtOffset α → Option α
  | none => .none
  | single t => some t
  | between _ r => some r

end AtOffset

/-- The leaves at an offset. -/
abbrev TokensAt := AtOffset Tip

namespace Node

/-- The first of some leaves that ends after an offset. The leaf `before` it counts as well if it
ends at the offset and is not missing. -/
def locate (offset : Nat) (before : Option Tip) : List Tip → TokensAt
  | [] => .none
  | t :: ts =>
    if t.fullRange.stop ≤ offset then locate offset (some t) ts
    else match before with
      | some l => if l.fullRange.stop = offset && !l.isMissing then .between l t else .single t
      | none => .single t

/-- The tokens of a node at an offset; trivia counts as part of the token after it. -/
def tokensAt (n : Node) (offset : Nat) : TokensAt :=
  if n.range.touches offset then locate offset none n.tips else .none

/-- The element around a range: the token at its start if that holds all of it, else the nearest
node above that does. -/
def covering? (n : Node) (range : Range) : Option Item :=
  match (n.tokensAt range.start).right? with
  | none => none
  | some t =>
    if t.fullRange.containsRange range then some (.tip t)
    else (t.ancestors.find? (·.range.containsRange range)).map .node

end Node

namespace Tip

/-- The root of the tree. -/
def root (t : Tip) : Node := (t.ancestors.getLast?).getD t.parent

/-- The token before this one in the tree. -/
def prev? (t : Tip) : Option Tip := if t.index = 0 then none else t.root.tips[t.index - 1]?

/-- The token after this one in the tree. -/
def next? (t : Tip) : Option Tip := t.root.tips[t.index + 1]?

end Tip
end PhpSyntax
