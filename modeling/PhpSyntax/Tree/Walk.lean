import PhpSyntax.Tree

/-!
Walks through a tree in preorder. A walk keeps the open nodes with the children still to come, so it
needs no recursion however deep the tree is, and a subtree can be left at any time.
-/
namespace PhpSyntax

/-- What a walk meets. -/
inductive Visit where
  | enter (n : Node)
  | leave (n : Node)
  | token (t : Tip)

/-- A walk in progress. -/
structure Walk where
  /-- The node to begin with, until it is entered. -/
  start : Option Node
  /-- The open nodes with the children still to come, the innermost first. -/
  opened : List (Node × List Element)

/-- A call on a walk. -/
inductive WalkCall where
  | next
  /-- The next visit to a node. -/
  | nextNode
  | skipSubtree
  deriving DecidableEq

/-- Why a walk refuses a call. -/
inductive WalkError where
  | noOpenNode
  deriving DecidableEq

def WalkError.message : WalkError → String
  | noOpenNode => "must have a subtree to skip"

mutual
/-- How many visits an element takes. -/
def Element.visitCount : Element → Nat
  | .leaf _ => 1
  | .branch _ cs => Element.visitCounts cs + 2

def Element.visitCounts : List Element → Nat
  | [] => 0
  | e :: es => e.visitCount + Element.visitCounts es
end

/-- A walk that comes to its end stays as it is. -/
def stepOr {α ω : Type} (w : ω) : Option (α × ω) → Option α × ω
  | some (v, w') => (some v, w')
  | none => (none, w)

namespace Walk

/-- How many visits are still to come. -/
def remaining (w : Walk) : Nat :=
  w.opened.foldr (fun o n => Element.visitCounts o.2 + 1 + n) 0 +
    match w.start with
    | none => 0
    | some n => Element.visitCounts n.children + 2

/-- The next visit. An ended walk stays ended. -/
def next (w : Walk) : Option (Visit × Walk) :=
  match w.opened with
  | [] =>
    match w.start with
    | none => none
    | some n => some (.enter n, ⟨none, [(n, n.children)]⟩)
  | (n, []) :: up => some (.leave n, { w with opened := up })
  | (n, .leaf l :: cs) :: up => some (.token ⟨l, n⟩, { w with opened := (n, cs) :: up })
  | (n, .branch b ds :: cs) :: up =>
    let child := n.child b ds
    some (.enter child, { w with opened := (child, ds) :: (n, cs) :: up })

/-- Leaves the innermost open node without a visit; `none` if no node is open. -/
def skipSubtree (w : Walk) : Option Walk :=
  match w.opened with
  | [] => none
  | _ :: up => some { w with opened := up }

/-- What a visit may be, and where it leads. -/
inductive Steps : Walk → Visit → Walk → Prop where
  | start {n} : Steps ⟨some n, []⟩ (.enter n) ⟨none, [(n, n.children)]⟩
  | leave {start n up} : Steps ⟨start, (n, []) :: up⟩ (.leave n) ⟨start, up⟩
  | token {start n l cs up} :
    Steps ⟨start, (n, .leaf l :: cs) :: up⟩ (.token ⟨l, n⟩) ⟨start, (n, cs) :: up⟩
  | enter {start n b ds cs up} : Steps ⟨start, (n, .branch b ds :: cs) :: up⟩
    (.enter (n.child b ds)) ⟨start, (n.child b ds, ds) :: (n, cs) :: up⟩

theorem steps_next {w w' : Walk} {v : Visit} (h : w.next = some (v, w')) : w.Steps v w' := by
  obtain ⟨start, opened⟩ := w
  match opened, start with
  | [], none => cases h
  | [], some n =>
    cases h
    exact .start
  | (n, []) :: up, start =>
    cases h
    exact .leave
  | (n, .leaf l :: cs) :: up, start =>
    cases h
    exact .token
  | (n, .branch b ds :: cs) :: up, start =>
    cases h
    exact .enter

theorem remaining_next {w w' : Walk} {v : Visit} (h : w.next = some (v, w')) :
    w'.remaining < w.remaining := by
  cases steps_next h with
  | start | leave => simp [remaining]
  | token => simp [remaining, Element.visitCount, Element.visitCounts]
  | enter =>
    simp [remaining, Node.child, Element.visitCount, Element.visitCounts]
    omega

/-- The next visit to a node; tokens are passed by. -/
def nextNode (w : Walk) : Option (Visit × Walk) :=
  match _h : w.next with
  | none => none
  | some (.token _, w') => nextNode w'
  | some (v, w') => some (v, w')
termination_by w.remaining
decreasing_by exact remaining_next _h

/-- All visits still to come, after those `before`. -/
def visitsFrom (before : Array Visit) (w : Walk) : Array Visit :=
  match _h : w.next with
  | none => before
  | some (v, w') => visitsFrom (before.push v) w'
termination_by w.remaining
decreasing_by exact remaining_next _h

/-- All visits still to come. -/
def visits (w : Walk) : List Visit := (visitsFrom #[] w).toList

/-- What comes of a call: the visit that is made, if any, and the walk after it. -/
def call (w : Walk) : WalkCall → Except WalkError (Option Visit × Walk)
  | .next => .ok (stepOr w w.next)
  | .nextNode => .ok (stepOr w w.nextNode)
  | .skipSubtree =>
    match w.skipSubtree with
    | none => .error .noOpenNode
    | some w' => .ok (none, w')

/-- The visits that calls make, one after the other, up to a call that is refused. -/
def answers (w : Walk) : List WalkCall → List (Except WalkError (Option Visit))
  | [] => []
  | c :: calls =>
    match w.call c with
    | .ok (v, w') => .ok v :: w'.answers calls
    | .error e => [.error e]

end Walk

namespace Visit

def entered? : Visit → Option Node
  | enter n => some n
  | _ => none

def tip? : Visit → Option Tip
  | token t => some t
  | _ => none

end Visit

namespace Node

/-- The walk through a node and all below it. -/
def walk (n : Node) : Walk := ⟨some n, []⟩

def visits (n : Node) : List Visit := n.walk.visits

/-- The node and all nodes below it, in preorder. -/
def descendants (n : Node) : List Node := n.visits.filterMap Visit.entered?

/-- The leaves below a node, in the order of the text. -/
def tips (n : Node) : List Tip := n.visits.filterMap Visit.tip?

/-- All nodes and leaves below a node, in preorder. -/
def itemsBelow (n : Node) : List Item :=
  n.visits.filterMap fun
    | .enter m => if m.index = n.index then none else some (.node m)
    | .leave _ => none
    | .token t => some (.tip t)

def firstTip? (n : Node) : Option Tip := n.tips.head?

def lastTip? (n : Node) : Option Tip := n.tips.getLast?

end Node

namespace Tree

/-- All leaves, in the order of the text. -/
def tips (t : Tree) : List Tip := t.root.tips

end Tree
end PhpSyntax
