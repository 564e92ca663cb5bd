import PhpSyntax.Spelling
import PhpSyntax.Tree

/-!
Building a tree step by step: branches are opened and closed, leaves are added in the order of the
text. The builder refuses what would be no tree over the text.
-/
namespace PhpSyntax

/-- A call on a builder. -/
inductive BuildStep where
  | startNode (kind : Kind)
  /-- A token of a given width without its trivia. -/
  | token (leading : List TriviaPiece) (kind : Kind) (width : Nat)
  /-- A token that is absent, of width zero. -/
  | missing
  | finishNode
  deriving DecidableEq

/-- Why a builder refuses a step, or the end. -/
inductive BuildError where
  | notANodeKind (kind : Kind)
  | notATokenKind (kind : Kind)
  | secondRoot
  | noOpenNode
  | noChild (kind : Kind)
  | badTokenEnd (kind : Kind) (stop : Nat)
  | unfinishedNodes
  | noRoot
  | uncovered (covered length : Nat)
  | dropped
  deriving DecidableEq

namespace BuildError

def message : BuildError → String
  | notANodeKind k => k.label ++ " is not a node kind"
  | notATokenKind k => k.label ++ " is not a token kind"
  | secondRoot => "the tree already has a root"
  | noOpenNode => "no opened nodes?"
  | noChild k => k.label ++ " node must have at least one child"
  | badTokenEnd k stop =>
    "token " ++ k.label ++ " ends at " ++ toString stop ++
      ", outside of the text or inside a character"
  | unfinishedNodes => "unfinished nodes remain"
  | noRoot => "the tree needs a root node"
  | uncovered covered length =>
    "assertion `left == right` failed: the tokens must cover the whole text\n  left: " ++
      toString covered ++ "\n right: " ++ toString length
  | dropped => "you should call `Builder::finish()`"

end BuildError

/-- A branch that is still open. -/
structure OpenBranch where
  kind : Kind
  index : Nat
  start : Nat
  /-- The children so far, the last first. -/
  children : List Element

/-- A tree in the making. -/
structure Builder where
  text : List Char
  /-- The text that no token covers yet. -/
  rest : List Char
  /-- How many bytes the tokens cover. -/
  covered : Nat
  /-- How many branches were started. -/
  branches : Nat
  /-- How many leaves were added. -/
  leaves : Nat
  /-- The open branches, the innermost first. -/
  opened : List OpenBranch
  root : Option (Branch × List Element)

namespace Builder

def start (text : List Char) : Builder := ⟨text, text, 0, 0, 0, [], none⟩

/-- Opens a branch. The first one becomes the root, and there is no second root. -/
def startNode (b : Builder) (kind : Kind) : Except BuildError Builder :=
  if !kind.isNode then .error (.notANodeKind kind)
  else if b.opened.isEmpty && 0 < b.branches then .error .secondRoot
  else .ok { b with
    opened := ⟨kind, b.branches, b.covered, []⟩ :: b.opened
    branches := b.branches + 1 }

/-- Adds a leaf to the innermost open branch. It must end within the text and not inside a
character. -/
def token (b : Builder) (leading : List TriviaPiece) (kind : Kind) (width : Nat) :
    Except BuildError Builder :=
  if !kind.isToken || kind.isTrivia then .error (.notATokenKind kind)
  else match b.opened with
    | [] => .error .noOpenNode
    | top :: up =>
      let full := TriviaPiece.totalWidth leading + width
      match Text.splitBytes? full b.rest with
      | none => .error (.badTokenEnd kind (b.covered + full))
      | some (text, rest) =>
        let leaf : Leaf := ⟨kind, b.leaves, b.covered, leading, width, text⟩
        .ok { b with
          opened := { top with children := .leaf leaf :: top.children } :: up
          rest := rest
          covered := b.covered + full
          leaves := b.leaves + 1 }

def missing (b : Builder) : Except BuildError Builder := b.token [] .missing 0

/-- Closes the innermost open branch, which must have a child. -/
def finishNode (b : Builder) : Except BuildError Builder :=
  match b.opened with
  | [] => .error .noOpenNode
  | top :: up =>
    if top.children.isEmpty then .error (.noChild top.kind)
    else
      let branch : Branch :=
        ⟨top.kind, top.index, .ofLength top.start (b.covered - top.start)⟩
      let children := top.children.reverse
      match up with
      | [] => .ok { b with opened := [], root := some (branch, children) }
      | next :: up =>
        let next := { next with children := .branch branch children :: next.children }
        .ok { b with opened := next :: up }

/-- The tree, if every branch is closed, there is one, and the tokens cover the text. -/
def finish (b : Builder) : Except BuildError Tree :=
  if !b.opened.isEmpty then .error .unfinishedNodes
  else match b.root with
    | none => .error .noRoot
    | some (branch, children) =>
      if b.rest.isEmpty then .ok ⟨b.text, branch, children⟩
      else .error (.uncovered b.covered (Text.width b.text))

/-- Gives the builder up, which is an error while a branch is open. -/
def drop (b : Builder) : Except BuildError Unit :=
  if b.opened.isEmpty then .ok () else .error .dropped

def step (b : Builder) : BuildStep → Except BuildError Builder
  | .startNode kind => b.startNode kind
  | .token leading kind width => b.token leading kind width
  | .missing => b.missing
  | .finishNode => b.finishNode

/-- Performs steps up to the first that is refused. -/
def run (b : Builder) : List BuildStep → Except BuildError Builder
  | [] => .ok b
  | s :: steps =>
    match b.step s with
    | .ok b => run b steps
    | .error e => .error e

end Builder

namespace Tree

/-- The tree over a text that a whole session builds. -/
def build (text : List Char) (steps : List BuildStep) : Except BuildError Tree :=
  match (Builder.start text).run steps with
  | .ok b => b.finish
  | .error e => .error e

end Tree
end PhpSyntax
