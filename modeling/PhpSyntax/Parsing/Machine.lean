import PhpSyntax.Parsing.Action
import PhpSyntax.Parsing.Log

/-!
The machine that carries out the rules of a grammar. What is still to do lies on a stack, so nesting
in the text needs no recursion; all that is recorded goes into a log.
-/
namespace PhpSyntax

namespace Token

/-- The kind of the first of some tokens; the end of file if there is none. -/
def firstKind : List Token → Kind
  | [] => .eof
  | t :: _ => t.kind

/-- The kind of the `n`-th of some tokens, without unrecognized ones; the end of file if there are
not so many. -/
def kindAt : Nat → List Token → Kind
  | _, [] => .eof
  | n, t :: ts =>
    if t.kind = .skipped then kindAt n ts
    else match n with
      | 0 => t.kind
      | n + 1 => kindAt n ts

/-- Whether the first of some tokens reads like a given word. -/
def spells (tokens : List Token) (w : String) : Bool :=
  match tokens with
  | [] => w.isEmpty
  | t :: _ => t.text.map Char.toLower == w.toList.map Char.toLower

end Token

namespace Test

/-- The answer to a question about the tokens to come; `found` tells whether the rule called last
found what it looks for. -/
def holds (tokens : List Token) (found : Bool) : Test → Bool
  | kind k => Token.firstKind tokens == k
  | kindIn kinds => kinds.contains (Token.firstKind tokens)
  | aheadIn n kinds => kinds.contains (Token.kindAt n tokens)
  | word w => Token.spells tokens w
  | .found => found
  | not t => !t.holds tokens found
  | and a b => a.holds tokens found && b.holds tokens found
  | or a b => a.holds tokens found || b.holds tokens found

end Test

/-- Where a parse stands. -/
structure ParseState where
  /-- The tokens to come, the current one first and the end of file last. -/
  tokens : List Token
  log : Log
  diagnostics : Array Diagnostic
  /-- The end of the token taken last; missing tokens stand there. -/
  lastEnd : Nat
  /-- The branch that the rule called last found. -/
  found : Option Completed

namespace ParseState

def start (tokens : List Token) : ParseState := ⟨tokens, #[], #[], 0, none⟩

/-- The kind of the current token. -/
def kind (s : ParseState) : Kind := Token.firstKind s.tokens

/-- The kind of the token `n` places ahead. -/
def ahead (s : ParseState) (n : Nat) : Kind := Token.kindAt n s.tokens

def holds (s : ParseState) (t : Test) : Bool := t.holds s.tokens s.found.isSome

/-- Records a token, with the diagnostic it carries; `rest` are the tokens after it. -/
def record (s : ParseState) (t : Token) (rest : List Token) : ParseState :=
  { s with
    tokens := rest
    log := s.log.token t
    diagnostics := match t.error with
      | some d => s.diagnostics.push d
      | none => s.diagnostics
    lastEnd := t.range.stop }

/-- Records tokens as long as they are unrecognized. -/
def recordSkipped (s : ParseState) : List Token → ParseState
  | [] => s
  | t :: ts => if t.kind = .skipped then recordSkipped (s.record t ts) ts else s

/-- Opens a branch. -/
def openBranch (s : ParseState) : Marker × ParseState :=
  let (m, log) := s.log.start
  (m, { s with log := log })

/-- Closes a branch, which is what was found. -/
def closeBranch (s : ParseState) (m : Marker) (kind : Kind) : Except Fault ParseState :=
  match s.log.complete m kind with
  | .ok (c, log) => .ok { s with log := log, found := some c }
  | .error fault => .error fault

/-- Gives a branch up: nothing was found. -/
def abandonBranch (s : ParseState) (m : Marker) : Except Fault ParseState :=
  match s.log.abandon m with
  | .ok log => .ok { s with log := log, found := none }
  | .error fault => .error fault

/-- Opens a branch around a complete one. -/
def wrapBranch (s : ParseState) (c : Completed) : Except Fault (Marker × ParseState) :=
  match s.log.precede c with
  | .ok (m, log) => .ok (m, { s with log := log })
  | .error fault => .error fault

/-- Puts unrecognized input that comes next into an error branch of its own, so that rules never
meet it. -/
def setSkippedAside (s : ParseState) : ParseState :=
  if s.kind = .skipped then
    let s := { s with log := s.log.push (.start (some .error) none) }
    let s := s.recordSkipped s.tokens
    { s with log := s.log.push .finish }
  else s

/-- Takes the current token and the unrecognized input after it; the end of file stays. -/
def advance (s : ParseState) : ParseState :=
  match s.tokens with
  | [] => s
  | t :: rest => if t.kind = .eof then s else (s.record t rest).setSkippedAside

/-- Takes the end of file, which has to come next. -/
def takeEnd (s : ParseState) : Except Fault ParseState :=
  match s.tokens with
  | [] => .error .assertion
  | t :: rest => if t.kind = .eof then .ok (s.record t rest) else .error .assertion

/-- Reports that something is absent and records a missing token. -/
def missing (s : ParseState) (what : String) : ParseState :=
  { s with
    diagnostics := s.diagnostics.push (.of (.expected what) (.point s.lastEnd))
    log := s.log.missing }

/-- Reports a problem with the current token. -/
def report (s : ParseState) (problem : Kind → Problem) : ParseState :=
  match s.tokens with
  | [] => s
  | t :: _ => { s with diagnostics := s.diagnostics.push (.of (problem t.kind) t.range) }

end ParseState

/-- Something still to do: an action, or the end of a branch. -/
inductive Pending (ρ : Type) where
  | act (a : Act ρ)
  | close (m : Marker) (kind : Kind)
  /-- The end of a branch that is given up if nothing was recorded in it. -/
  | closeIfAny (m : Marker) (kind : Kind)

namespace Pending

variable {ρ : Type}

/-- Carries out what is on top: what is to be done before all else, and the state after it. -/
def perform (grammar : ρ → Act ρ) (s : ParseState) :
    Pending ρ → Except Fault (List (Pending ρ) × ParseState)
  | .close m kind => (s.closeBranch m kind).map ([], ·)
  | .closeIfAny m kind =>
    if m.position + 1 = s.log.size then (s.abandonBranch m).map ([], ·)
    else (s.closeBranch m kind).map ([], ·)
  | .act .done => .ok ([], s)
  | .act (.andThen a b) => .ok ([.act a, .act b], s)
  | .act (.require test) => if s.holds test then .ok ([], s) else .error .assertion
  | .act .bump => .ok ([], s.advance)
  | .act (.missing what) => .ok ([], s.missing what)
  | .act (.recover problem stop) =>
    if s.kind = .eof then .error .assertion
    else
      let (m, s) := s.openBranch
      .ok ([.act (.repeatWhile (.not (.kindIn (.single .eof ∪ stop))) .bump), .close m .error],
        (s.report problem).advance)
  | .act (.node kind body) =>
    let (m, s) := s.openBranch
    .ok ([.act body, .close m kind], s)
  | .act (.nodeIfAny kind body) =>
    let (m, s) := s.openBranch
    .ok ([.act body, .closeIfAny m kind], s)
  | .act (.wrap kind body) =>
    match s.found with
    | none => .ok ([.act (.node kind body)], s)
    | some c => (s.wrapBranch c).map fun (m, s) => ([.act body, .close m kind], s)
  | .act .decline => .ok ([], { s with found := none })
  | .act (.branch test yes no) => .ok ([.act (if s.holds test then yes else no)], s)
  | .act (.byKind choose) => .ok ([.act (choose s.kind)], s)
  | .act (.repeatWhile test body) =>
    .ok (if s.holds test then [.act body, .act (.repeatWhile test body)] else [], s)
  | .act (.call rule) => .ok ([.act (grammar rule)], s)

end Pending

namespace ParseState

variable {ρ : Type}

/-- Carries out all that is pending, in at most `steps` steps. -/
def run (grammar : ρ → Act ρ) :
    (steps : Nat) → List (Pending ρ) → ParseState → Except Fault ParseState
  | _, [], s => .ok s
  | 0, _ :: _, _ => .error .outOfSteps
  | steps + 1, p :: pending, s =>
    match p.perform grammar s with
    | .ok (first, s) => run grammar steps (first ++ pending) s
    | .error fault => .error fault

end ParseState
end PhpSyntax
