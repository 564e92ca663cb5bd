import PhpSyntax.Token
import PhpSyntax.Tree.Builder

/-!
The log of a parse: what was recorded, in order, and where branches begin and end. A branch gets its
kind only when it is complete, and a complete branch can still become the first child of another one,
which begins at the end of the log then; a pointer leads there. Replayed, the log is a session of the
builder.
-/
namespace PhpSyntax

/-- What goes wrong in a parser that was written badly, whatever the text. -/
inductive Fault where
  /-- More steps than the parser may take. -/
  | outOfSteps
  /-- A rule was entered at a token that it cannot stand at. -/
  | assertion
  /-- A marker or a pointer leads to something that is not the beginning of a branch. -/
  | strayMarker
  deriving DecidableEq

inductive Event where
  /-- A branch begins: its kind, once it has one, and how many events further on the branch begins
  that was put around it. -/
  | start (kind : Option Kind) (forward : Option Nat)
  | token (t : Token)
  | missing
  | finish

/-- An open branch: the event where it begins. -/
structure Marker where
  position : Nat
  deriving DecidableEq

/-- A complete branch: the event where it begins. -/
structure Completed where
  position : Nat
  deriving DecidableEq

abbrev Log := Array Event

namespace Event

/-- The beginning of a branch that has no kind, or that was opened already. -/
def tombstone : Event := start none none

end Event

namespace Log

/-- Opens a branch. -/
def start (log : Log) : Marker × Log := (⟨log.size⟩, log.push .tombstone)

/-- Closes an open branch and gives it a kind. -/
def complete (log : Log) (m : Marker) (kind : Kind) : Except Fault (Completed × Log) :=
  match log[m.position]? with
  | some (.start _ forward) =>
    .ok (⟨m.position⟩, (log.setIfInBounds m.position (.start (some kind) forward)).push .finish)
  | _ => .error .strayMarker

/-- Gives an open branch up: what was recorded in it belongs to the branch around it. -/
def abandon (log : Log) (m : Marker) : Except Fault Log :=
  if m.position + 1 = log.size then
    match log.back? with
    | some (.start none none) => .ok log.pop
    | _ => .error .strayMarker
  else .ok log

/-- Opens a branch around a complete one, which becomes its first child. -/
def precede (log : Log) (c : Completed) : Except Fault (Marker × Log) :=
  let (m, log) := log.start
  match log[c.position]? with
  | some (.start kind _) =>
    .ok (m, log.setIfInBounds c.position (.start kind (some (m.position - c.position))))
  | _ => .error .strayMarker

def token (log : Log) (t : Token) : Log := log.push (.token t)

def missing (log : Log) : Log := log.push .missing

/-- Follows the pointers from the beginning of a branch at `i` and collects the kinds of the branches
around it, the outermost first. They begin here, so their own beginnings are wiped out. -/
def follow (log : Log) (i : Nat) (kinds : List Kind) : Option Nat → Except Fault (Log × List Kind)
  | none => .ok (log, kinds)
  | some 0 => .ok (log, kinds)
  | some (d + 1) =>
    if h : i + (d + 1) < log.size then
      match log[i + (d + 1)] with
      | .start kind forward =>
        follow (log.set (i + (d + 1)) .tombstone) (i + (d + 1)) (kind.toList ++ kinds) forward
      | _ => .error .strayMarker
    else .error .strayMarker
termination_by log.size - i
decreasing_by simp only [Array.size_set]; omega

/-- Replays `count` events from `i` on. -/
def replayFrom : (count i : Nat) → Log → Array BuildStep → Except Fault (Array BuildStep)
  | 0, _, _, steps => .ok steps
  | count + 1, i, log, steps =>
    match log[i]? with
    | none => .error .strayMarker
    | some (.start none _) => replayFrom count (i + 1) log steps
    | some (.start (some kind) forward) =>
      match follow (log.setIfInBounds i .tombstone) i [kind] forward with
      | .error fault => .error fault
      | .ok (log, kinds) =>
        replayFrom count (i + 1) log (steps ++ (kinds.map BuildStep.startNode).toArray)
    | some (.token t) =>
      replayFrom count (i + 1) log (steps.push (.token t.leading t.kind (Text.width t.text)))
    | some .missing => replayFrom count (i + 1) log (steps.push .missing)
    | some .finish => replayFrom count (i + 1) log (steps.push .finishNode)

/-- The session of the builder that the log stands for. -/
def replay (log : Log) : Except Fault (List BuildStep) :=
  (replayFrom log.size 0 log #[]).map (·.toList)

end Log
end PhpSyntax
