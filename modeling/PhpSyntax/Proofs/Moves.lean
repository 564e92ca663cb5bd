import Mathlib.Data.List.Forall2
import PhpSyntax.Proofs.Replay

/-!
What a parser does with a log, move by move, when these moves are in order, and what the log has to
stand for then: calls of the builder, each with the number of the branch that it opens or closes.
-/
namespace PhpSyntax

/-- A use of the log. Branches go by number: the first that is opened, in either way, has number 0,
the next one number 1. -/
inductive Move where
  | start
  | token (t : Token)
  | missing
  | complete (m : Nat) (kind : Kind)
  | abandon (m : Nat)
  | precede (c : Nat)
  deriving DecidableEq

namespace Move

/-- How many branches are opened. -/
def opened (moves : List Move) : Nat :=
  moves.countP fun
    | start | precede _ => true
    | _ => false

/-- What a move records that is no branch. -/
def leaf? : Move → Option BuildStep
  | token t => some (.token t.leading t.kind (Text.width t.text))
  | missing => some .missing
  | _ => none

variable {a : Move} {ms : List Move}

@[simp] theorem opened_nil : opened [] = 0 := rfl

@[simp] theorem opened_append (ms ms' : List Move) : opened (ms ++ ms') = opened ms + opened ms' :=
  List.countP_append

@[simp] theorem opened_start : opened (.start :: ms) = opened ms + 1 := List.countP_cons_of_pos rfl

@[simp] theorem opened_precede (c : Nat) : opened (.precede c :: ms) = opened ms + 1 :=
  List.countP_cons_of_pos rfl

@[simp] theorem opened_complete (m : Nat) (kind : Kind) :
    opened (.complete m kind :: ms) = opened ms :=
  List.countP_cons_of_neg Bool.false_ne_true

@[simp] theorem opened_abandon (m : Nat) : opened (.abandon m :: ms) = opened ms :=
  List.countP_cons_of_neg Bool.false_ne_true

theorem opened_leaf {step : BuildStep} (h : a.leaf? = some step) :
    opened (a :: ms) = opened ms := by
  cases a <;> first | exact List.countP_cons_of_neg Bool.false_ne_true | cases h

end Move

/-- A log, and the events where the branches begin, by number. -/
structure Recorder where
  log : Log
  positions : List Nat

namespace Recorder

def perform (r : Recorder) : Move → Except Fault Recorder
  | .start =>
    let (m, log) := r.log.start
    .ok ⟨log, r.positions ++ [m.position]⟩
  | .token t => .ok { r with log := r.log.token t }
  | .missing => .ok { r with log := r.log.missing }
  | .complete m kind =>
    match r.positions[m]? with
    | none => .error .strayMarker
    | some i => (r.log.complete ⟨i⟩ kind).map fun (_, log) => { r with log := log }
  | .abandon m =>
    match r.positions[m]? with
    | none => .error .strayMarker
    | some i => (r.log.abandon ⟨i⟩).map fun log => { r with log := log }
  | .precede c =>
    match r.positions[c]? with
    | none => .error .strayMarker
    | some i => (r.log.precede ⟨i⟩).map fun (m, log) => ⟨log, r.positions ++ [m.position]⟩

def start : Recorder := ⟨#[], []⟩

/-- The recorder after some moves. -/
def run (r : Recorder) (moves : List Move) : Except Fault Recorder := moves.foldlM perform r

theorem run_nil (r : Recorder) : r.run [] = .ok r := rfl

theorem run_cons {r r' : Recorder} {a : Move} (h : r.perform a = .ok r') (moves : List Move) :
    r.run (a :: moves) = r'.run moves := by
  rw [run, List.foldlM_cons, h]
  rfl

end Recorder

/-! ## When moves are in order -/

/-- An open branch. -/
structure Nesting.Entry where
  number : Nat
  /-- Whether it may be given up, which a branch that was put around another one may not. -/
  free : Bool
  /-- What is ready when it is closed. -/
  held : List Nat
  deriving DecidableEq

/-- What is open, and what may be preceded. -/
structure Nesting where
  /-- How many branches were opened. -/
  opened : Nat
  /-- The complete branches, the latest first, that were not preceded yet and right after the end of
  which the branch was innermost that is innermost now. -/
  ready : List Nat
  /-- The open branches, the innermost first. -/
  up : List Nesting.Entry
  deriving DecidableEq

namespace Nesting

/-- What of some branches, the latest first, is left after one of them is preceded. The later ones
come to lie within the new branch, and to be `strict` is to leave them alone from then on. -/
def left (strict : Bool) (ready : List Nat) (c : Nat) : List Nat :=
  if strict then (ready.dropWhile (· != c)).tail else ready.erase c

/-- A move, if it is in order. A branch is closed only if it is innermost, one around another is
not given up, and a complete branch is preceded at most once, while the same branch is innermost as
right after its end. -/
def perform (strict : Bool) (s : Nesting) : Move → Option Nesting
  | .start => some ⟨s.opened + 1, [], ⟨s.opened, true, s.ready⟩ :: s.up⟩
  | .token _ | .missing => some s
  | .complete m kind =>
    match s.up with
    | ⟨n, _, held⟩ :: up =>
      if n = m ∧ kind ≠ .tombstone then some ⟨s.opened, m :: held, up⟩ else none
    | [] => none
  | .abandon m =>
    match s.up with
    | ⟨n, true, held⟩ :: up => if n = m then some ⟨s.opened, held, up⟩ else none
    | _ => none
  | .precede c =>
    if c ∈ s.ready then
      some ⟨s.opened + 1, [], ⟨s.opened, false, left strict s.ready c⟩ :: s.up⟩
    else none

def start : Nesting := ⟨0, [], []⟩

def run (strict : Bool) (s : Nesting) (moves : List Move) : Option Nesting :=
  moves.foldlM (perform strict) s

end Nesting

/-- All moves are in order, and in the end nothing is open. -/
def Move.Ordered (strict : Bool) (moves : List Move) : Prop :=
  ((Nesting.start.run strict moves).any (·.up.isEmpty)) = true

instance (strict : Bool) (moves : List Move) : Decidable (Move.Ordered strict moves) :=
  inferInstanceAs (Decidable (_ = true))

namespace Nesting

variable {s s' t t' : Nesting} {a : Move} {c : Nat} {ready ready' : List Nat} {moves : List Move}

theorem left_append {later : List Nat} (hc : c ∉ later) (ready : List Nat) :
    left true (later ++ ready) c = left true ready c := by
  have hdrop : (later ++ ready).dropWhile (· != c) = ready.dropWhile (· != c) := by
    apply List.dropWhile_append_of_pos
    intro x hx
    have hne : x ≠ c := fun heq => hc (heq ▸ hx)
    simpa using hne
  simp only [left, if_true, hdrop]

theorem left_cons (earlier : List Nat) : left true (c :: earlier) c = earlier := by
  simp [left]

theorem left_sublist_left (hc : c ∈ ready) (h : ready.Sublist ready') :
    (left true ready c).Sublist (left false ready' c) := by
  obtain ⟨later, earlier, hlater, rfl, herase⟩ := List.exists_erase_eq hc
  rw [left_append hlater, left_cons]
  refine .trans ?_ (h.erase c)
  rw [herase]
  exact List.sublist_append_right ..

/-- Whatever may be done in the first nesting may be done in the second one. -/
structure Allows (s t : Nesting) : Prop where
  opened : s.opened = t.opened
  ready : s.ready.Sublist t.ready
  up : List.Forall₂ (fun x y => x.number = y.number ∧ x.free = y.free ∧ x.held.Sublist y.held)
    s.up t.up

theorem Allows.perform (h : s.Allows t) (ha : s.perform true a = some s') :
    ∃ t', t.perform false a = some t' ∧ s'.Allows t' := by
  obtain ⟨n, ready, up⟩ := s
  obtain ⟨n', ready', up'⟩ := t
  obtain ⟨rfl, hready, hup⟩ := h
  dsimp only at hready hup
  cases a with
  | start =>
    cases ha
    exact ⟨_, rfl, rfl, .slnil, .cons ⟨rfl, rfl, hready⟩ hup⟩
  | token | missing =>
    cases ha
    exact ⟨_, rfl, rfl, hready, hup⟩
  | complete m kind =>
    match up, up', hup with
    | ⟨_, _, held⟩ :: up, ⟨_, _, held'⟩ :: up', .cons ⟨rfl, rfl, hheld⟩ hup =>
      obtain ⟨hm, hs⟩ := Option.ite_none_right_eq_some.mp ha
      cases hs
      exact ⟨_, if_pos hm, rfl, hheld.cons_cons m, hup⟩
  | abandon m =>
    match up, up', hup with
    | ⟨_, true, held⟩ :: up, ⟨_, _, held'⟩ :: up', .cons ⟨rfl, rfl, hheld⟩ hup =>
      obtain ⟨hm, hs⟩ := Option.ite_none_right_eq_some.mp ha
      cases hs
      exact ⟨_, if_pos hm, rfl, hheld, hup⟩
  | precede c =>
    obtain ⟨hc, hs⟩ := Option.ite_none_right_eq_some.mp ha
    cases hs
    exact ⟨_, if_pos (hready.subset hc), rfl, .slnil,
      .cons ⟨rfl, rfl, left_sublist_left hc hready⟩ hup⟩

theorem Allows.run (h : s.Allows t) (hs : s.run true moves = some s') :
    ∃ t', t.run false moves = some t' ∧ s'.Allows t' := by
  induction moves generalizing s t with
  | nil =>
    cases hs
    exact ⟨t, rfl, h⟩
  | cons a moves ih =>
    obtain ⟨s₁, ha, hs⟩ := Option.bind_eq_some_iff.mp hs
    obtain ⟨t₁, ht₁, h₁⟩ := h.perform ha
    obtain ⟨t', ht', h'⟩ := ih h₁ hs
    refine ⟨t', ?_, h'⟩
    rw [Nesting.run, List.foldlM_cons, ht₁]
    exact ht'

end Nesting

/-- To be strict is to ask for more. -/
theorem Move.Ordered.loosen {moves : List Move} (h : Ordered true moves) : Ordered false moves := by
  obtain ⟨s, hs, hup⟩ := (Option.any_eq_true ..).mp h
  obtain ⟨t, ht, hallows⟩ := Nesting.Allows.run (t := Nesting.start) ⟨rfl, .slnil, .nil⟩ hs
  rw [List.isEmpty_iff] at hup
  have htup : t.up = [] := by
    have hall := hallows.up
    rw [hup] at hall
    exact List.forall₂_nil_left_iff.mp hall
  exact (Option.any_eq_true ..).mpr ⟨t, ht, List.isEmpty_iff.mpr htup⟩

/-! ## What a log stands for -/

/-- A call of the builder, of a branch with its number. -/
inductive Call where
  | opens (m : Nat) (kind : Kind)
  | closes (m : Nat)
  | leaf (step : BuildStep)
  deriving DecidableEq

namespace Call

def step : Call → BuildStep
  | opens _ kind => .startNode kind
  | closes _ => .finishNode
  | leaf step => step

def leaf? : Call → Option BuildStep
  | leaf step => some step
  | _ => none

/-- The number of the branch that is opened. -/
def opening? : Call → Option Nat
  | opens m _ => some m
  | _ => none

/-- The numbers of the branches that are opened. -/
def openings (calls : List Call) : List Nat := calls.filterMap opening?

/-- Every branch that is opened is closed, and what is opened in between is closed before. -/
inductive Nested : List Call → Prop where
  | nil : Nested []
  | leaf {step calls} (rest : Nested calls) : Nested (leaf step :: calls)
  | branch {m kind inside calls} (inner : Nested inside) (rest : Nested calls) :
    Nested (opens m kind :: (inside ++ closes m :: calls))

variable {cs ds : List Call} {m : Nat}

@[simp] theorem openings_append : openings (cs ++ ds) = openings cs ++ openings ds :=
  List.filterMap_append

@[simp] theorem openings_nil : openings [] = [] := rfl

@[simp] theorem openings_opens (kind : Kind) : openings (.opens m kind :: cs) = m :: openings cs :=
  rfl

@[simp] theorem openings_closes : openings (.closes m :: cs) = openings cs := rfl

theorem Nested.append (h : Nested cs) (h' : Nested ds) : Nested (cs ++ ds) := by
  induction h with
  | nil => exact h'
  | leaf _ ih => exact .leaf ih
  | branch inner _ _ ih =>
    rw [List.cons_append, List.append_assoc, List.cons_append]
    exact .branch inner ih

/-- The calls are what was recorded by the moves: the same leaves in the same order, and a branch
for each that was completed, with its kind. -/
structure Holds (calls : List Call) (moves : List Move) : Prop where
  nested : Nested calls
  leaves : calls.filterMap leaf? = moves.filterMap Move.leaf?
  branches : ∀ m kind, .opens m kind ∈ calls ↔ .complete m kind ∈ moves

/-- Where a branch that was completed begins and ends, in the moves and in the calls; `n` branches
were opened before. -/
inductive Spans (n : Nat) (moves : List Move) (calls : List Call) (m : Nat) (kind : Kind) :
    Prop where
  /-- Between its ends there is what was recorded between its start and its completion. -/
  | started (before between after : List Move) (pre inside post : List Call)
    (moves_eq : moves = before ++ .start :: (between ++ .complete m kind :: after))
    (number : m = n + Move.opened before)
    (calls_eq : calls = pre ++ .opens m kind :: (inside ++ .closes m :: post))
    (holds : Holds inside between)
  /-- Between its ends there is the whole of the branch it was put around, and what was recorded
  between the end of that and its own. -/
  | around {c k} (before since between after : List Move) (pre inner later post : List Call)
    (moves_eq : moves = before ++ .complete c k ::
      (since ++ .precede c :: (between ++ .complete m kind :: after)))
    (number : m = n + Move.opened (before ++ .complete c k :: since))
    (calls_eq : calls = pre ++ .opens m kind ::
      (.opens c k :: (inner ++ .closes c :: later) ++ .closes m :: post))
    (nested : Nested inner)
    (holds : Holds later (since ++ between))

/-- Calls realise moves: they are what was recorded; a branch that was completed is opened and
closed once and encloses what it should, and one that was given up is not opened. -/
structure Realises (moves : List Move) (calls : List Call) : Prop extends Holds calls moves where
  once : (openings calls).Nodup
  abandoned : ∀ m, .abandon m ∈ moves → m ∉ openings calls
  spans : ∀ m kind, .complete m kind ∈ moves → Spans 0 moves calls m kind

end Call
end PhpSyntax
