import PhpSyntax.Tree.Offset
import PhpSyntax.Tree.Table

/-!
Finding tokens and elements by offsets in tables. The tokens of a node stand next to each other in
the order of the text, so they are searched by halving. From a token the parents lead to all that is
around it.
-/
namespace PhpSyntax

namespace Table

/-- How many entries pass a test, if those that do come first: `base` of them, and some of the
`size` behind that. At least one entry is left in question. -/
def partitionFrom (passes : Nat → Bool) (base size : Nat) : Nat :=
  if 1 < size then
    let half := size / 2
    partitionFrom passes (if passes (base + half) then base + half else base) (size - half)
  else base + (if passes base then 1 else 0)
termination_by size

/-- How many entries pass a test, if those that do come first. -/
def partitionPoint {α : Type} (passes : α → Bool) (entries : Array α) : Nat :=
  if entries.isEmpty then 0
  else partitionFrom (fun i => entries[i]?.any passes) 0 entries.size

/-- The token before another one. -/
def prevToken (id : Nat) : Option Nat := if id = 0 then none else some (id - 1)

def isMissing (t : Table) (id : Nat) : Except TableError Bool := do
  let e ← t.token id
  return e.kind == .missing

/-- The token `right` at an offset, and the one before it if that ends there and is not missing.
There are `index` tokens of the same node before `right`. -/
def joinLeft (t : Table) (offset index right : Nat) : Except TableError (AtOffset Nat) :=
  match prevToken right with
  | none => return .single right
  | some left => do
    if index = 0 then return .single right
    else if (← t.tokenRange left).stop == offset && !(← t.isMissing left) then
      return .between left right
    else return .single right

/-- The tokens of a node at an offset; trivia counts as part of the token after it. Right of the
offset is the first token that ends behind it. -/
def tokensAt (t : Table) (id offset : Nat) : Except TableError (AtOffset Nat) := do
  let range ← t.nodeRange id
  if !range.touches offset then return .none
  let n ← t.node id
  let tokens ← part t.tokens n.tokens
  let index := partitionPoint (fun e => decide (e.stop ≤ offset)) tokens.toArray
  if tokens.length ≤ index then return .none
  t.joinLeft offset index ((← t.firstToken id) + index)

/-- The first node that holds a range, from one node up; `count` is how many nodes there are at most
on the way to the root. -/
def coveringFrom (t : Table) (range : Range) : (count : Nat) → Nat → Except TableError (Option Nat)
  | 0, _ => .error .noEntry
  | count + 1, id => do
    if (← t.nodeRange id).containsRange range then return some id
    match ← t.parent (.node id) with
    | none => return none
    | some up => t.coveringFrom range count up

/-- The element around a range: the token at its start if that holds all of it, else the nearest
node above that does. -/
def covering (t : Table) (id : Nat) (range : Range) : Except TableError (Option Slot) := do
  match (← t.tokensAt id range.start).right? with
  | none => return none
  | some token => do
    if (← t.tokenRange token).containsRange range then return some (.token token)
    let e ← t.token token
    return (← t.coveringFrom range t.nodes.size e.parent).map .node

end Table
end PhpSyntax
