import PhpSyntax.Text.Boundary
import PhpSyntax.Tree.Builder
import PhpSyntax.Tree.Walk

/-!
Trees in tables. The nodes, the tokens, the pieces of trivia and the children of all nodes stand in
one table each and name each other by their numbers, so a tree is four tables however deep it is.
A node stores no range: what it covers is read off its first and its last token.
-/
namespace PhpSyntax

/-- The entries of a table from `start` up to but not including `stop`. -/
structure Stretch where
  start : Nat
  stop : Nat
  deriving DecidableEq

/-- A child of a node, by its number: a node or a token. -/
inductive Slot where
  | node (id : Nat)
  | token (id : Nat)
  deriving DecidableEq

/-- A node in its table. -/
structure NodeEntry where
  kind : Kind
  /-- Only the root has none. -/
  parent : Option Nat
  /-- Where its children stand. -/
  children : Stretch
  /-- The tokens of the node and of all nodes below it. -/
  tokens : Stretch
  deriving DecidableEq

/-- A token in its table. -/
structure TokenEntry where
  kind : Kind
  parent : Nat
  /-- Where its trivia begins. -/
  start : Nat
  leadingWidth : Nat
  stop : Nat
  trivia : Stretch
  deriving DecidableEq

/-- A text and the tree that covers it. The root is the first node. -/
structure Table where
  text : List Char
  nodes : Array NodeEntry
  tokens : Array TokenEntry
  trivia : Array TriviaPiece
  /-- The children of the nodes, those of one node next to each other. -/
  slots : Array Slot

/-- Why there is no tree in tables, or no answer about one. -/
inductive TableError where
  /-- The session is none of a tree. -/
  | refused (error : BuildError)
  /-- An entry is asked for that is not there. -/
  | noEntry
  /-- A node is closed that has children and no token. -/
  | noToken
  /-- A range would end before it begins. -/
  | disorder
  /-- A part of the text would begin or end inside a character. -/
  | midCharacter
  deriving DecidableEq

namespace TableError

def message : TableError → String
  | refused e => e.message
  | noEntry => "index out of bounds"
  | noToken => "a node with children spans a token"
  | disorder => "assertion failed: start.raw <= end.raw"
  | midCharacter => "not a char boundary"

end TableError

namespace Table

/-- The entry of a given number. -/
def entry {α : Type} (entries : Array α) (id : Nat) : Except TableError α :=
  match entries[id]? with
  | some e => .ok e
  | none => .error .noEntry

/-- The entries of a stretch. -/
def part {α : Type} (entries : Array α) (s : Stretch) : Except TableError (List α) :=
  if s.start ≤ s.stop ∧ s.stop ≤ entries.size then .ok (entries.extract s.start s.stop).toList
  else .error .noEntry

/-- The range between two offsets, which must be in order. -/
def between (start stop : Nat) : Except TableError Range :=
  match Range.between? start stop with
  | some r => .ok r
  | none => .error .disorder

/-- Adds a node. Its children and its tokens are filled in when it is closed. -/
def addNode (t : Table) (kind : Kind) (parent : Option Nat) : Table :=
  { t with nodes := t.nodes.push ⟨kind, parent, ⟨0, 0⟩, ⟨0, 0⟩⟩ }

/-- Adds a token with its trivia. -/
def addToken (t : Table) (kind : Kind) (parent start : Nat) (leading : List TriviaPiece)
    (width : Nat) : Table :=
  let leadingWidth := TriviaPiece.totalWidth leading
  let trivia := t.trivia ++ leading.toArray
  { t with
    tokens := t.tokens.push ⟨kind, parent, start, leadingWidth, start + leadingWidth + width,
      ⟨t.trivia.size, trivia.size⟩⟩
    trivia := trivia }

/-- Fills in a node: its children, and its tokens, which are those from `first` on. -/
def fillNode (t : Table) (id : Nat) (n : NodeEntry) (children : Array Slot) (first : Nat) : Table :=
  let slots := t.slots ++ children
  { t with
    nodes := t.nodes.setIfInBounds id { n with
      children := ⟨t.slots.size, slots.size⟩
      tokens := ⟨first, t.tokens.size⟩ }
    slots := slots }

def root : Nat := 0

def node (t : Table) (id : Nat) : Except TableError NodeEntry := entry t.nodes id

def token (t : Table) (id : Nat) : Except TableError TokenEntry := entry t.tokens id

/-- The children of a node, in order. -/
def children (t : Table) (id : Nat) : Except TableError (List Slot) := do
  let n ← t.node id
  part t.slots n.children

def firstToken (t : Table) (id : Nat) : Except TableError Nat := do
  let n ← t.node id
  return n.tokens.start

def lastToken (t : Table) (id : Nat) : Except TableError Nat := do
  let n ← t.node id
  match n.tokens.stop with
  | 0 => .error .noEntry
  | last + 1 => .ok last

/-- The bytes of a token and its trivia. -/
def tokenRange (t : Table) (id : Nat) : Except TableError Range := do
  let e ← t.token id
  between e.start e.stop

/-- The bytes of a token without its trivia. -/
def trimmedRange (t : Table) (id : Nat) : Except TableError Range := do
  let e ← t.token id
  between (e.start + e.leadingWidth) e.stop

/-- The trivia before a token. -/
def leading (t : Table) (id : Nat) : Except TableError (List TriviaPiece) := do
  let e ← t.token id
  part t.trivia e.trivia

/-- The bytes of a node, from the beginning of its first token to the end of its last one. -/
def nodeRange (t : Table) (id : Nat) : Except TableError Range := do
  let first ← t.token (← t.firstToken id)
  let last ← t.token (← t.lastToken id)
  between first.start last.stop

/-- The bytes of a child. -/
def range (t : Table) : Slot → Except TableError Range
  | .node id => t.nodeRange id
  | .token id => t.tokenRange id

/-- The node that a node or token is a child of; only the root has none. -/
def parent (t : Table) : Slot → Except TableError (Option Nat)
  | .node id => do
    let n ← t.node id
    return n.parent
  | .token id => do
    let e ← t.token id
    return some e.parent

/-- The text of a range. -/
def slice (text : List Char) (r : Range) : Except TableError (List Char) := do
  let (_, rest) ← split r.start text
  let (front, _) ← split r.length rest
  return front
where
  split (n : Nat) (cs : List Char) : Except TableError (List Char × List Char) :=
    match Text.splitBytes? n cs with
    | some parts => .ok parts
    | none => .error .midCharacter

/-- A child with all that is below it; `depth` is how many nodes there are at most above each
other. -/
def element (t : Table) : (depth : Nat) → Slot → Except TableError Element
  | _, .token id => do
    let e ← t.token id
    let r ← t.tokenRange id
    let trimmed ← t.trimmedRange id
    return .leaf ⟨e.kind, id, r.start, ← t.leading id, trimmed.length, ← slice t.text r⟩
  | 0, .node _ => .error .noEntry
  | depth + 1, .node id => do
    let n ← t.node id
    let elements ← (← t.children id).mapM (t.element depth)
    return .branch ⟨n.kind, id, ← t.nodeRange id⟩ elements

/-- The tree that stands in the tables. -/
def tree (t : Table) : Except TableError Tree := do
  match ← t.element t.nodes.size (.node root) with
  | .leaf _ => .error .noEntry
  | .branch branch children => return ⟨t.text, branch, children⟩

end Table

/-- What a walk through tables meets. -/
inductive TableVisit where
  | enter (id : Nat)
  | leave (id : Nat)
  | token (id : Nat)
  deriving DecidableEq

/-- A walk through tables in preorder. -/
structure TableWalk where
  /-- The node to begin with, until it is entered. -/
  start : Option Nat
  /-- The open nodes with the children still to come, the innermost first. -/
  opened : List (Nat × List Slot)

namespace TableWalk

/-- The walk through a node and all below it. -/
def through (id : Nat) : TableWalk := ⟨some id, []⟩

/-- The next visit. An ended walk stays ended. -/
def next (t : Table) (w : TableWalk) : Except TableError (Option (TableVisit × TableWalk)) :=
  match w.opened with
  | [] =>
    match w.start with
    | none => .ok none
    | some id => do
      let slots ← t.children id
      return some (.enter id, ⟨none, [(id, slots)]⟩)
  | (id, []) :: up => .ok (some (.leave id, { w with opened := up }))
  | (id, .token child :: slots) :: up =>
    .ok (some (.token child, { w with opened := (id, slots) :: up }))
  | (id, .node child :: slots) :: up => do
    let inner ← t.children child
    return some (.enter child, { w with opened := (child, inner) :: (id, slots) :: up })

/-- Leaves the innermost open node without a visit; `none` if no node is open. -/
def skipSubtree (w : TableWalk) : Option TableWalk :=
  match w.opened with
  | [] => none
  | _ :: up => some { w with opened := up }

/-- How many children of the open nodes are still to come. -/
def pending (w : TableWalk) : Nat := (w.opened.flatMap (·.2)).length

theorem pending_next {t : Table} {w w' : TableWalk} {id : Nat}
    (h : w.next t = .ok (some (.token id, w'))) : w'.pending < w.pending := by
  obtain ⟨start, opened⟩ := w
  unfold next at h
  split at h
  · split at h
    · cases h
    · revert h
      cases t.children _ <;> exact nofun
  · cases h
  · cases h
    simp_all [pending]
  · revert h
    cases t.children _ <;> exact nofun

/-- The next visit to a node; tokens are passed by. -/
def nextNode (t : Table) (w : TableWalk) : Except TableError (Option (TableVisit × TableWalk)) :=
  match _h : w.next t with
  | .ok (some (.token _, w')) => nextNode t w'
  | found => found
termination_by w.pending
decreasing_by exact pending_next _h

/-- What comes of a call: the visit that is made, if any, and the walk after it. -/
def call (t : Table) (w : TableWalk) :
    WalkCall → Except TableError (Except WalkError (Option TableVisit × TableWalk))
  | .next => do return .ok (stepOr w (← w.next t))
  | .nextNode => do return .ok (stepOr w (← w.nextNode t))
  | .skipSubtree =>
    match w.skipSubtree with
    | none => return .error .noOpenNode
    | some w' => return .ok (none, w')

/-- The visits that calls make, one after the other, up to a call that is refused. -/
def answers (t : Table) (w : TableWalk) :
    List WalkCall → Except TableError (List (Except WalkError (Option TableVisit)))
  | [] => return []
  | c :: calls => do
    match ← w.call t c with
    | .ok (v, w') => return .ok v :: (← answers t w' calls)
    | .error e => return [.error e]

end TableWalk

/-- A node that is still open. -/
structure OpenNode where
  id : Nat
  /-- The children so far. -/
  children : Array Slot
  firstToken : Option Nat

/-- Tables in the making. -/
structure TableBuilder where
  table : Table
  /-- The open nodes, the innermost first. -/
  opened : List OpenNode
  /-- How many bytes the tokens cover. -/
  covered : Nat
  /-- Lists of children that are no longer in use. -/
  pool : List (Array Slot)

namespace TableBuilder

def start (text : List Char) : TableBuilder := ⟨⟨text, #[], #[], #[], #[]⟩, [], 0, []⟩

/-- Adds a child to the innermost of some open nodes. -/
def pushSlot (slot : Slot) : List OpenNode → List OpenNode
  | [] => []
  | top :: up => { top with children := top.children.push slot } :: up

/-- Opens a node. The first one becomes the root, and there is no second root. -/
def startNode (b : TableBuilder) (kind : Kind) : Except TableError TableBuilder :=
  if !kind.isNode then .error (.refused (.notANodeKind kind))
  else if b.opened.isEmpty && !b.table.nodes.isEmpty then .error (.refused .secondRoot)
  else
    let id := b.table.nodes.size
    .ok { b with
      table := b.table.addNode kind (b.opened.head?.map (·.id))
      opened := ⟨id, b.pool.head?.getD #[], none⟩ :: pushSlot (.node id) b.opened
      pool := b.pool.tail }

/-- Closes the innermost open node, which must have a child. -/
def finishNode (b : TableBuilder) : Except TableError TableBuilder :=
  match b.opened with
  | [] => .error (.refused .noOpenNode)
  | top :: up => do
    let n ← b.table.node top.id
    if top.children.isEmpty then .error (.refused (.noChild n.kind))
    else match top.firstToken with
      | none => .error .noToken
      | some first =>
        return { b with
          table := b.table.fillNode top.id n top.children first
          opened := up
          pool := #[] :: b.pool }

/-- Notes the first token of the nodes that have none yet. Where a node has one, so have those
around it. -/
def markFirst (id : Nat) : List OpenNode → List OpenNode
  | [] => []
  | top :: up =>
    if top.firstToken.isSome then top :: up
    else { top with firstToken := some id } :: markFirst id up

/-- Adds a token to the innermost open node. It must end within the text and not inside a
character. -/
def token (b : TableBuilder) (leading : List TriviaPiece) (kind : Kind) (width : Nat) :
    Except TableError TableBuilder :=
  if !kind.isToken || kind.isTrivia then .error (.refused (.notATokenKind kind))
  else match b.opened with
    | [] => .error (.refused .noOpenNode)
    | top :: up =>
      let stop := b.covered + TriviaPiece.totalWidth leading + width
      if ¬ Text.IsBoundary stop b.table.text then .error (.refused (.badTokenEnd kind stop))
      else
        let id := b.table.tokens.size
        .ok { b with
          table := b.table.addToken kind top.id b.covered leading width
          opened := pushSlot (.token id) (markFirst id (top :: up))
          covered := stop }

def missing (b : TableBuilder) : Except TableError TableBuilder := b.token [] .missing 0

def step (b : TableBuilder) : BuildStep → Except TableError TableBuilder
  | .startNode kind => b.startNode kind
  | .token leading kind width => b.token leading kind width
  | .missing => b.missing
  | .finishNode => b.finishNode

/-- Performs steps up to the first that is refused. -/
def run (b : TableBuilder) : List BuildStep → Except TableError TableBuilder
  | [] => .ok b
  | s :: steps =>
    match b.step s with
    | .ok b => run b steps
    | .error e => .error e

/-- The tables, if every node is closed, there is one, and the tokens cover the text. -/
def finish (b : TableBuilder) : Except TableError Table :=
  if !b.opened.isEmpty then .error (.refused .unfinishedNodes)
  else if b.table.nodes.isEmpty then .error (.refused .noRoot)
  else if b.covered ≠ Text.width b.table.text then
    .error (.refused (.uncovered b.covered (Text.width b.table.text)))
  else .ok b.table

/-- Gives the builder up, which is an error while a node is open. -/
def drop (b : TableBuilder) : Except TableError Unit :=
  if b.opened.isEmpty then .ok () else .error (.refused .dropped)

end TableBuilder

namespace Table

/-- The tables over a text that a whole session builds. -/
def build (text : List Char) (steps : List BuildStep) : Except TableError Table :=
  match (TableBuilder.start text).run steps with
  | .ok b => b.finish
  | .error e => .error e

end Table
end PhpSyntax
