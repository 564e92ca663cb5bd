import PhpSyntax.Proofs.Making

/-!
What can be told of an action before it is carried out: where it can be entered, what is left after
it, and how many steps it takes. A forecast is what is known of a stage; of each action the
forecasts after it are computed from the forecast before it.
-/
namespace PhpSyntax

namespace KindSet

def inter (a b : KindSet) : KindSet := ⟨a.bits &&& b.bits⟩

def diff (a b : KindSet) : KindSet := ⟨a.bits ^^^ (a.bits &&& b.bits)⟩

def isEmpty (a : KindSet) : Bool := a.bits == 0

def subset (a b : KindSet) : Bool := (a.diff b).isEmpty

/-- The members; a single one is found at once. -/
def members (s : KindSet) : List Kind :=
  let k := Kind.ofNat s.bits.toNat.log2
  if s.bits == (single k).bits then [k] else s.toList

/-- What the current token can be: rules never meet unrecognized input. -/
def recognized : KindSet := all.diff (single .skipped)

variable {a b s : KindSet} {k : Kind}

@[simp] theorem contains_inter (a b : KindSet) (k : Kind) :
    (a.inter b).contains k = (a.contains k && b.contains k) := by
  simp [inter, contains]

@[simp] theorem contains_diff (a b : KindSet) (k : Kind) :
    (a.diff b).contains k = (a.contains k && !b.contains k) := by
  simp only [diff, contains, BitVec.getLsbD_xor, BitVec.getLsbD_and]
  cases a.bits.getLsbD k.index <;> cases b.bits.getLsbD k.index <;> rfl

@[simp] theorem contains_all (k : Kind) : all.contains k = true := by
  simp [all, Kind.mem_all k]

@[simp] theorem contains_recognized (k : Kind) : recognized.contains k = !(k == .skipped) := by
  simp [recognized]

theorem not_isEmpty (h : s.contains k = true) : s.isEmpty = false := by
  rw [isEmpty, beq_eq_false_iff_ne]
  intro h0
  have hs : s.bits.getLsbD k.index = true := h
  rw [h0, BitVec.ofNat_eq_ofNat, BitVec.getLsbD_zero] at hs
  cases hs

theorem contains_of_subset (h : a.subset b = true) (hk : a.contains k = true) :
    b.contains k = true := by
  cases hb : b.contains k with
  | true => rfl
  | false =>
    have hd : (a.diff b).contains k = true := by simp [hk, hb]
    rw [subset, not_isEmpty hd] at h
    cases h

theorem contains_of_mem_members (h : k ∈ s.members) : s.contains k = true := by
  by_cases hs : s.bits == (single (Kind.ofNat s.bits.toNat.log2)).bits
  · have hb : s = single (Kind.ofNat s.bits.toNat.log2) := congrArg KindSet.mk (eq_of_beq hs)
    rw [members, if_pos hs, List.mem_singleton] at h
    rw [hb, contains_single, ← h, beq_self_eq_true]
  · rw [members, if_neg hs] at h
    exact (List.mem_filter.mp h).2

theorem mem_members (h : s.contains k = true) : k ∈ s.members := by
  by_cases hs : s.bits == (single (Kind.ofNat s.bits.toNat.log2)).bits
  · have hb : s = single (Kind.ofNat s.bits.toNat.log2) := congrArg KindSet.mk (eq_of_beq hs)
    rw [members, if_pos hs, List.mem_singleton]
    rwa [hb, contains_single, beq_iff_eq] at h
  · rw [members, if_neg hs]
    exact List.mem_filter.mpr ⟨Kind.mem_all k, h⟩

end KindSet

/-- The kinds of the current token at which a test can have a given answer. -/
def Test.kinds (answer : Bool) : Test → KindSet
  | .kind k => if answer then .single k else KindSet.all.diff (.single k)
  | .kindIn s => if answer then s else KindSet.all.diff s
  | .aheadIn _ _ | .word _ | .found => .all
  | .not t => t.kinds (!answer)
  | .and a b =>
    if answer then (a.kinds true).inter (b.kinds true) else a.kinds false ∪ b.kinds false
  | .or a b => if answer then a.kinds true ∪ b.kinds true else (a.kinds false).inter (b.kinds false)

/-- The kinds of the token after the current one at which a test can have a given answer. -/
def Test.nextKinds (answer : Bool) : Test → KindSet
  | .aheadIn 1 s => if answer then s else KindSet.all.diff s
  | .kind _ | .kindIn _ | .aheadIn _ _ | .word _ | .found => .all
  | .not t => t.nextKinds (!answer)
  | .and a b =>
    if answer then (a.nextKinds true).inter (b.nextKinds true)
    else a.nextKinds false ∪ b.nextKinds false
  | .or a b =>
    if answer then a.nextKinds true ∪ b.nextKinds true
    else (a.nextKinds false).inter (b.nextKinds false)

namespace Test

variable {tokens : List Token} {found : Bool} {t : Test} {answer : Bool}

theorem contains_kinds (h : t.holds tokens found = answer) :
    (t.kinds answer).contains (Token.firstKind tokens) = true := by
  induction t generalizing answer with
  | kind k => subst h; cases hk : Token.firstKind tokens == k <;> simp_all [kinds, holds]
  | kindIn s => subst h; cases hk : s.contains (Token.firstKind tokens) <;> simp_all [kinds, holds]
  | aheadIn n s => exact KindSet.contains_all _
  | word w => exact KindSet.contains_all _
  | found => exact KindSet.contains_all _
  | not t ih => exact ih (by rw [← h, holds, Bool.not_not])
  | and a b iha ihb =>
    subst h
    have ha := iha rfl
    have hb := ihb rfl
    cases hha : a.holds tokens found <;> cases hhb : b.holds tokens found <;>
      simp_all [kinds, holds]
  | or a b iha ihb =>
    subst h
    have ha := iha rfl
    have hb := ihb rfl
    cases hha : a.holds tokens found <;> cases hhb : b.holds tokens found <;>
      simp_all [kinds, holds]

theorem contains_nextKinds (h : t.holds tokens found = answer) :
    (t.nextKinds answer).contains (Token.kindAt 1 tokens) = true := by
  induction t generalizing answer with
  | kind k => exact KindSet.contains_all _
  | kindIn s => exact KindSet.contains_all _
  | aheadIn n s =>
    unfold nextKinds
    split
    · subst h; cases hk : s.contains (Token.kindAt 1 tokens) <;> simp_all [holds]
    all_goals simp_all
  | word w => exact KindSet.contains_all _
  | found => exact KindSet.contains_all _
  | not t ih => exact ih (by rw [← h, holds, Bool.not_not])
  | and a b iha ihb =>
    subst h
    have ha := iha rfl
    have hb := ihb rfl
    cases hha : a.holds tokens found <;> cases hhb : b.holds tokens found <;>
      simp_all [nextKinds, holds]
  | or a b iha ihb =>
    subst h
    have ha := iha rfl
    have hb := ihb rfl
    cases hha : a.holds tokens found <;> cases hhb : b.holds tokens found <;>
      simp_all [nextKinds, holds]

end Test

/-- What is known of a stage. -/
structure Forecast where
  /-- The current token is of one of these kinds. -/
  kinds : KindSet
  /-- The token after it is of one of these kinds. -/
  next : KindSet
  /-- Whether the innermost open branch has a child. -/
  filled : Option Bool
  /-- Whether a branch was found, which is the last child then. -/
  found : Option Bool
  /-- How many steps were made at most, less `stepsPerToken` for each token taken. -/
  cost : Int
  deriving DecidableEq

namespace Forecast

/-- All that the second forecast tells, the first one does. -/
def le (o p : Forecast) : Bool :=
  o.kinds.subset p.kinds && o.next.subset p.next && (p.filled == none || o.filled == p.filled) &&
    (p.found == none || o.found == p.found) && decide (o.cost ≤ p.cost)

/-- After one more step. -/
def step (o : Forecast) : Forecast := { o with cost := o.cost + 1 }

/-- What is known if a test has a given answer; nothing if it cannot. -/
def assume (o : Forecast) (answer : Bool) : Test → List Forecast
  | .found => if o.found = some (!answer) then [] else [o]
  | t =>
    let kinds := o.kinds.inter (t.kinds answer)
    if kinds.isEmpty then []
    else [{ o with kinds := kinds, next := o.next.inter (t.nextKinds answer) }]

/-- A branch that was found is not the last child any more. -/
def buried (o : Forecast) : Option Bool := if o.found = some false then some false else none

/-- Adds a forecast to others. Two become one if they differ only in kinds and costs, and both say
that a token was taken after `base`, or neither. -/
def insert (base : Int) (o : Forecast) : List Forecast → List Forecast
  | [] => [o]
  | p :: ps =>
    if o.filled == p.filled && o.found == p.found &&
        decide (o.cost + 128 ≤ base) == decide (p.cost + 128 ≤ base) then
      { p with
        kinds := o.kinds ∪ p.kinds, next := o.next ∪ p.next, cost := max o.cost p.cost } :: ps
    else p :: insert base o ps

def merge (base : Int) (os ps : List Forecast) : List Forecast := os.foldr (insert base) ps

/-- The forecasts of all cases together, if there are some for every case. -/
def each {α : Type} (base : Int) (f : α → Option (List Forecast)) :
    List α → Option (List Forecast)
  | [] => some []
  | a :: as => (f a).bind fun os => (each base f as).map (merge base os)

/-- The highest cost of some forecasts. -/
def worst : List Forecast → Int
  | [] => 0
  | [o] => o.cost
  | o :: os => max o.cost (worst os)

/-- After a branch around what was recorded. -/
def closed (o : Forecast) : Forecast := { o.step with filled := some true, found := some true }

/-- In a new branch. -/
def inside (o : Forecast) : Forecast := { o.step with filled := some false, found := o.buried }

/-- In a branch around the branch found last. -/
def around (o : Forecast) : Forecast := { o.step with filled := some true, found := none }

/-- After the current token, unless it is the end of file. -/
def taken (rate : Int) (o : Forecast) : Forecast :=
  ⟨o.next.inter .recognized, .all, some true, o.buried, o.cost + 1 - rate⟩

/-- After the end of a branch that there may be; `o` is the forecast before it. -/
def closedIfAny (o p : Forecast) : List Forecast :=
  (if p.filled = some false then [] else [p.closed]) ++
  (if p.filled = some true then [] else [{ p.step with filled := o.filled, found := some false }])

/-- Before each round of a repetition, `found` being known all the time. -/
def round (o : Forecast) (test : Test) (found : Option Bool) : Forecast :=
  ⟨KindSet.recognized.inter (test.kinds true), test.nextKinds true,
    if o.filled = some true then some true else none, found, o.cost + 1⟩

/-- After a round nothing may be worse than before, or a repetition could go on for ever. -/
def advances (o : Forecast) (found : Option Bool) (p : Forecast) : Bool :=
  decide (p.cost ≤ o.cost) && p.filled == some true && (found == none || p.found == found)

/-- After a repetition of at least one round. -/
def repeated (test : Test) (found : Option Bool) (os : List Forecast) : Forecast :=
  ⟨KindSet.recognized.inter (test.kinds false), test.nextKinds false, some true, found,
    worst os + 1⟩

/-- After a repetition of any number of rounds. -/
def loop (o : Forecast) (test : Test) (body : Forecast → Option (List Forecast))
    (found : Option Bool) : Option (List Forecast) :=
  (body (o.round test found)).bind fun os =>
    if os.all (o.advances found) then
      some (merge o.cost (o.step.assume false test) [repeated test found os])
    else none

/-- After a branch that must not be empty. -/
def close (base : Int) (os : List Forecast) : Option (List Forecast) :=
  if os.all (·.filled == some true) then some (merge base (os.map closed) []) else none

end Forecast

open Forecast in
/-- The forecasts after an action; `calls` makes those after a call of a rule. There are none if a
requirement may fail, a branch may be empty, or a repetition may go on without a token. -/
def Act.forecasts {ρ : Type} (calls : ρ → Forecast → Option (List Forecast)) (rate : Int) :
    Act ρ → Forecast → Option (List Forecast)
  | done, o => some [o.step]
  | andThen a b, o => (a.forecasts calls rate o.step).bind (each o.cost (b.forecasts calls rate))
  | require test, o => if (o.assume false test).isEmpty then some [o.step] else none
  | bump, o => some (
    (if o.kinds.contains .eof then [{ o.step with kinds := .single .eof }] else []) ++
    (if (o.kinds.diff (.single .eof)).isEmpty then [] else [o.taken rate]))
  | missing _, o => some [{ o.step with filled := some true, found := o.buried }]
  | recover _ stop, o =>
    if o.kinds.contains .eof then none
    else some [⟨KindSet.recognized.inter (.single .eof ∪ stop), .all, some true, some true,
      o.cost + 3 - rate⟩]
  | node _ body, o => (body.forecasts calls rate o.inside).bind (close o.cost)
  | nodeIfAny _ body, o =>
    (body.forecasts calls rate o.inside).bind (each o.cost fun p => some (o.closedIfAny p))
  | wrap _ body, o =>
    if o.found = some true then (body.forecasts calls rate o.around).bind (close o.cost) else none
  | decline, o => some [{ o.step with found := some false }]
  | branch test yes no, o =>
    (each o.cost (yes.forecasts calls rate) (o.step.assume true test)).bind fun os =>
      (each o.cost (no.forecasts calls rate) (o.step.assume false test)).map (merge o.cost os)
  | byKind choose, o =>
    each o.cost (fun k => (choose k).forecasts calls rate { o.step with kinds := .single k })
      o.kinds.members
  | repeatWhile test body, o =>
    if (o.assume true test).isEmpty then some (o.step.assume false test)
    else
      let body := body.forecasts calls rate
      (o.loop test body (if o.found = some true then some true else none)).or
        (o.loop test body none)
  | call rule, o => calls rule o

end PhpSyntax
