import PhpSyntax.Proofs.Forecast
import PhpSyntax.Proofs.Invariant

/-!
What actions record, paid for by the tokens that they take. A token pays a fixed rate, whatever is
recorded costs one for each event, and what an action still owes in the end is computed from the
action. Two things make that work: an action that owes something cannot be repeated without a token,
and the kind of the current token tells which of its parts owe nothing.
-/
namespace PhpSyntax

namespace Sprout

/-- How many events it takes to record some sprouts. -/
def extent (cs : List Sprout) : Nat := (cs.flatMap listing).length

@[simp] theorem extent_nil : extent [] = 0 := rfl

@[simp] theorem extent_append (cs ds : List Sprout) :
    extent (cs ++ ds) = extent cs + extent ds := by
  rw [extent, List.flatMap_append, List.length_append]
  rfl

@[simp] theorem extent_token (t : Token) (cs : List Sprout) :
    extent (.token t :: cs) = extent cs + 1 := by
  rw [extent, List.flatMap_cons, listing]
  rfl

@[simp] theorem extent_missing (o : Nat) (cs : List Sprout) :
    extent (.missing o :: cs) = extent cs + 1 := by
  rw [extent, List.flatMap_cons, listing]
  rfl

@[simp] theorem extent_branch (kind : Kind) (children cs : List Sprout) :
    extent (.branch kind children :: cs) = extent children + 2 + extent cs := by
  rw [extent, List.flatMap_cons, listing_branch, List.length_append, List.length_append]
  rfl

theorem extent_tokens (ts : List Token) : extent (ts.map token) = ts.length := by
  induction ts with
  | nil => rfl
  | cons t ts ih => rw [List.map_cons, extent_token, ih, List.length_cons]

theorem extent_aside_le (ts : List Token) : extent (aside ts) ≤ 3 * ts.length := by
  cases ts with
  | nil => exact Nat.le_refl 0
  | cons t ts =>
    rw [aside, extent_branch, extent_tokens, extent_nil, List.length_cons]
    omega

end Sprout

namespace Stage

variable {rate : Int} {g g' : Stage}

/-- What is recorded in the innermost open branch, and what the tokens to come will pay. -/
def weight (rate : Int) (g : Stage) : Int := Sprout.extent g.children + rate * g.tokens.length

/-- A token pays for itself and for a branch of the unrecognized ones after it, which pay for
themselves. -/
theorem weight_take_le (hrate : 3 ≤ rate) (hk : g.kind ≠ .eof) :
    g.take.weight rate ≤ g.weight rate + (1 - rate) := by
  obtain ⟨tokens, children, diagnostics, lastEnd, found⟩ := g
  cases tokens with
  | nil => exact absurd rfl hk
  | cons t rest =>
    have ht : t.kind ≠ .eof := hk
    have hjunk := Sprout.extent_aside_le (rest.takeWhile Token.isSkipped)
    have hrest : (rest.takeWhile Token.isSkipped ++ rest.dropWhile Token.isSkipped).length =
        rest.length := congrArg List.length List.takeWhile_append_dropWhile
    rw [List.length_append] at hrest
    have hpay : 3 * ((rest.takeWhile Token.isSkipped).length : Int) ≤
        rate * (rest.takeWhile Token.isSkipped).length :=
      Int.mul_le_mul_of_nonneg_right hrate (Int.natCast_nonneg _)
    have hsum : rate * (rest.length : Int) = rate * (rest.takeWhile Token.isSkipped).length +
        rate * (rest.dropWhile Token.isSkipped).length := by
      rw [← Int.mul_add, ← hrest]
      push_cast
      rfl
    rw [take]
    dsimp only
    rw [if_neg ht]
    simp only [weight, Sprout.extent_append, Sprout.extent_token, List.length_cons]
    push_cast
    rw [Int.mul_add, Int.mul_one]
    omega

theorem weight_miss (what : String) : (g.miss what).weight rate = g.weight rate + 1 := by
  simp only [weight, miss, Sprout.extent_append, Sprout.extent_missing, Sprout.extent_nil]
  push_cast
  omega

theorem weight_report (problem : Kind → Problem) :
    (g.report problem).weight rate = g.weight rate := by
  rw [weight, report_children, report_tokens, weight]

/-- Closing a branch: what is in it was counted from nothing on. -/
theorem weight_leave (kind : Kind) :
    (g.leave kind g').weight rate = Sprout.extent g.children + g'.weight rate + 2 := by
  simp only [weight, leave, Sprout.extent_append, Sprout.extent_branch, Sprout.extent_nil]
  push_cast
  omega

theorem weight_enter (g : Stage) :
    g.weight rate = Sprout.extent g.children + g.enter.weight rate := by
  simp only [weight, enter, Sprout.extent_nil]
  push_cast
  omega

end Stage

/-- What is known after an action. -/
structure Charge where
  /-- The current token is of one of these kinds. -/
  kinds : KindSet
  /-- How much more was recorded than the tokens taken have paid for. -/
  due : Int
  deriving DecidableEq

namespace Charge

/-- With something else that is due. -/
def plus (due : Int) (c : Charge) : Charge := { c with due := c.due + due }

/-- All that the second charge tells, the first one does. -/
def le (c d : Charge) : Bool := c.kinds.subset d.kinds && decide (c.due ≤ d.due)

/-- Adds a charge to others. Two become one if tokens have paid more than is due in both, or in
neither. -/
def insert (c : Charge) : List Charge → List Charge
  | [] => [c]
  | d :: ds =>
    if decide (c.due < 0) == decide (d.due < 0) then ⟨c.kinds ∪ d.kinds, max c.due d.due⟩ :: ds
    else d :: insert c ds

def merge (cs ds : List Charge) : List Charge := cs.foldr insert ds

/-- The charges of all cases together, if there are some for every case. -/
def each {α : Type} (f : α → Option (List Charge)) : List α → Option (List Charge)
  | [] => some []
  | a :: as => (f a).bind fun cs => (each f as).map (merge cs)

/-- The kinds that are left if a test has a given answer; nothing if it cannot. -/
def assume (kinds : KindSet) (answer : Bool) (t : Test) : List KindSet :=
  let left := kinds.inter (t.kinds answer)
  if left.isEmpty then [] else [left]

/-- Nothing is due, and the kind of the current token is known. -/
def free (kinds : KindSet) : Charge := ⟨kinds, 0⟩

/-- The most that is due. -/
def worst : List Charge → Int
  | [] => 0
  | [c] => c.due
  | c :: cs => max c.due (worst cs)

/-- After a repetition of any number of rounds, if nothing is due after one of them. -/
def loop (kinds : KindSet) (test : Test) (round : List Charge) : Option (List Charge) :=
  if round.all (·.due ≤ 0) then
    some (merge ((assume kinds false test).map free)
      [⟨KindSet.recognized.inter (test.kinds false), worst round⟩])
  else none

end Charge

open Charge in
/-- What is due after an action; `calls` tells it for a call of a rule. A branch costs two
events. -/
def Act.charges {ρ : Type} (calls : ρ → KindSet → Option (List Charge)) (rate : Int) :
    Act ρ → KindSet → Option (List Charge)
  | done, kinds | decline, kinds => some [free kinds]
  | andThen a b, kinds => (a.charges calls rate kinds).bind
    (each fun c => (b.charges calls rate c.kinds).map (·.map (plus c.due)))
  | require test, kinds => some ((assume kinds true test).map free)
  | bump, kinds => some (
    (if kinds.contains .eof then [free (.single .eof)] else []) ++
    (if (kinds.diff (.single .eof)).isEmpty then [] else [⟨.recognized, 1 - rate⟩]))
  | missing _, kinds => some [⟨kinds, 1⟩]
  | recover _ stop, _ => some [⟨KindSet.recognized.inter (.single .eof ∪ stop), 3 - rate⟩]
  | node _ body, kinds | nodeIfAny _ body, kinds | wrap _ body, kinds =>
    (body.charges calls rate kinds).map (·.map (plus 2))
  | branch test yes no, kinds =>
    (each (yes.charges calls rate) (assume kinds true test)).bind fun cs =>
      (each (no.charges calls rate) (assume kinds false test)).map (merge cs)
  | byKind choose, kinds => each (fun k => (choose k).charges calls rate (.single k)) kinds.members
  | repeatWhile test body, kinds =>
    (body.charges calls rate (KindSet.recognized.inter (test.kinds true))).bind (loop kinds test)
  | call rule, kinds => calls rule kinds

namespace Charge

variable {c d q : Charge} {cs ds os : List Charge}

/-- What is charged is charged as well by a charge that tells less. -/
structure Within (c d : Charge) : Prop where
  kinds : ∀ k, c.kinds.contains k = true → d.kinds.contains k = true
  due : c.due ≤ d.due

theorem Within.refl (c : Charge) : Within c c := ⟨fun _ h => h, Int.le_refl _⟩

theorem Within.trans (h : Within c d) (h' : Within d q) : Within c q :=
  ⟨fun k hk => h'.kinds k (h.kinds k hk), Int.le_trans h.due h'.due⟩

theorem within_of_le (h : c.le d = true) : Within c d := by
  simp only [le, Bool.and_eq_true, decide_eq_true_eq] at h
  exact ⟨fun k => KindSet.contains_of_subset h.1, h.2⟩

/-- One of these charges tells no more than `c`. -/
def Covered (cs : List Charge) (c : Charge) : Prop := ∃ d ∈ cs, Within c d

theorem covered_of_mem (h : c ∈ cs) : Covered cs c := ⟨c, h, .refl c⟩

theorem Covered.trans (h : Covered cs c) (h' : ∀ d ∈ cs, Covered ds d) : Covered ds c := by
  obtain ⟨d, hd, hw⟩ := h
  obtain ⟨e, he, hw'⟩ := h' d hd
  exact ⟨e, he, hw.trans hw'⟩

theorem covered_insert (c : Charge) (ds : List Charge) :
    Covered (insert c ds) c ∧ ∀ d ∈ ds, Covered (insert c ds) d := by
  induction ds with
  | nil => exact ⟨covered_of_mem (List.mem_singleton_self c), by simp⟩
  | cons e es ih =>
    rw [insert]
    split
    · refine ⟨⟨_, List.mem_cons_self .., fun k hk => by simp [hk], Int.le_max_left ..⟩,
        fun d hd => ?_⟩
      rcases List.mem_cons.mp hd with rfl | hd
      · exact ⟨_, List.mem_cons_self .., fun k hk => by simp [hk], Int.le_max_right ..⟩
      · exact covered_of_mem (List.mem_cons_of_mem _ hd)
    · have htail : ∀ d, Covered (insert c es) d → Covered (e :: insert c es) d :=
        fun d ⟨r, hr, hw⟩ => ⟨r, List.mem_cons_of_mem _ hr, hw⟩
      exact ⟨htail c ih.1, List.forall_mem_cons.mpr
        ⟨covered_of_mem (List.mem_cons_self ..), fun d hd => htail d (ih.2 d hd)⟩⟩

theorem covered_merge (cs ds : List Charge) :
    (∀ c ∈ cs, Covered (merge cs ds) c) ∧ ∀ d ∈ ds, Covered (merge cs ds) d := by
  induction cs with
  | nil => exact ⟨by simp, fun d hd => covered_of_mem hd⟩
  | cons c cs ih =>
    have hi := covered_insert c (merge cs ds)
    exact ⟨List.forall_mem_cons.mpr ⟨hi.1, fun e he => (ih.1 e he).trans hi.2⟩,
      fun d hd => (ih.2 d hd).trans hi.2⟩

theorem within_insert (hc : Within c q) (hds : ∀ d ∈ ds, Within d q) :
    ∀ d ∈ insert c ds, Within d q := by
  induction ds with
  | nil => simpa [insert] using hc
  | cons e es ih =>
    obtain ⟨he, hes⟩ := List.forall_mem_cons.mp hds
    rw [insert]
    split
    · refine List.forall_mem_cons.mpr ⟨⟨fun k hk => ?_, Int.max_le.mpr ⟨hc.due, he.due⟩⟩, hes⟩
      rw [KindSet.contains_union, Bool.or_eq_true] at hk
      exact hk.elim (hc.kinds k) (he.kinds k)
    · exact List.forall_mem_cons.mpr ⟨he, ih hes⟩

theorem within_merge (hcs : ∀ c ∈ cs, Within c q) (hds : ∀ d ∈ ds, Within d q) :
    ∀ c ∈ merge cs ds, Within c q := by
  induction cs with
  | nil => exact hds
  | cons c cs ih =>
    obtain ⟨hc, hcs⟩ := List.forall_mem_cons.mp hcs
    exact within_insert hc (ih hcs)

/-- If there are charges for every case, those of one case are among them. -/
theorem covered_each {α : Type} {f : α → Option (List Charge)} {as : List α} {a : α}
    (h : each f as = some os) (ha : a ∈ as) : ∃ cs, f a = some cs ∧ ∀ c ∈ cs, Covered os c := by
  induction as generalizing os with
  | nil => cases ha
  | cons b bs ih =>
    simp only [each, Option.bind_eq_some_iff, Option.map_eq_some_iff] at h
    obtain ⟨cs, hcs, ds, hds, rfl⟩ := h
    have hm := covered_merge cs ds
    rcases List.mem_cons.mp ha with rfl | ha
    · exact ⟨cs, hcs, hm.1⟩
    · obtain ⟨es, hes, he⟩ := ih hds ha
      exact ⟨es, hes, fun c hc => (he c hc).trans hm.2⟩

/-- What is charged in no case is charged in none of them together. -/
theorem exists_each {α : Type} {f : α → Option (List Charge)} {as : List α}
    (h : ∀ a ∈ as, ∃ cs, f a = some cs ∧ ∀ c ∈ cs, Within c q) :
    ∃ os, each f as = some os ∧ ∀ c ∈ os, Within c q := by
  induction as with
  | nil => exact ⟨[], rfl, by simp⟩
  | cons a as ih =>
    obtain ⟨⟨cs, hcs, hc⟩, htail⟩ := List.forall_mem_cons.mp h
    obtain ⟨ds, hds, hd⟩ := ih htail
    exact ⟨merge cs ds, by simp [each, hcs, hds], within_merge hc hd⟩

theorem due_le_worst (h : c ∈ cs) : c.due ≤ worst cs := by
  induction cs with
  | nil => cases h
  | cons d ds ih =>
    cases ds with
    | nil => rw [List.mem_singleton.mp h]; exact Int.le_refl _
    | cons e es =>
      rcases List.mem_cons.mp h with rfl | h
      · exact Int.le_max_left ..
      · exact Int.le_trans (ih h) (Int.le_max_right ..)

theorem worst_nonpos (h : ∀ c ∈ cs, c.due ≤ 0) : worst cs ≤ 0 := by
  induction cs with
  | nil => exact Int.le_refl 0
  | cons c cs ih =>
    obtain ⟨hc, hcs⟩ := List.forall_mem_cons.mp h
    cases cs with
    | nil => exact hc
    | cons => exact Int.max_le.mpr ⟨hc, ih hcs⟩

theorem mem_assume {kinds : KindSet} {answer : Bool} {test : Test} {g : Stage}
    (hk : kinds.contains g.kind = true) (ht : g.holds test = answer) :
    ∃ left ∈ assume kinds answer test, left.contains g.kind = true := by
  have hleft : (kinds.inter (test.kinds answer)).contains g.kind = true := by
    rw [KindSet.contains_inter, hk, Stage.kind, Test.contains_kinds ht]
    rfl
  exact ⟨_, by simp [assume, KindSet.not_isEmpty hleft], hleft⟩

theorem loop_eq_some_iff {kinds : KindSet} {test : Test} : loop kinds test cs = some os ↔
    (∀ c ∈ cs, c.due ≤ 0) ∧ merge ((assume kinds false test).map free)
      [⟨KindSet.recognized.inter (test.kinds false), worst cs⟩] = os := by
  simp [loop]

/-- If nothing is due after a round, nothing is due after a repetition. -/
theorem within_loop {test : Test} (h : loop .recognized test cs = some os) :
    ∀ c ∈ os, Within c (free (KindSet.recognized.inter (test.kinds false))) := by
  obtain ⟨hround, rfl⟩ := loop_eq_some_iff.mp h
  refine within_merge (fun c hc => ?_)
    (List.forall_mem_singleton.mpr ⟨fun _ hk => hk, worst_nonpos hround⟩)
  obtain ⟨left, hl, rfl⟩ := List.mem_map.mp hc
  rw [assume] at hl
  split at hl
  · cases hl
  · rw [List.mem_singleton.mp hl]
    exact .refl _

end Charge

variable {ρ : Type} {grammar : ρ → Act ρ} {calls : ρ → KindSet → Option (List Charge)} {rate : Int}
  {a : Act ρ} {g g₁ g' : Stage} {n : Nat} {kinds : KindSet} {cs ds : List Charge}

open Charge

/-- What is charged covers all that was recorded between two stages. -/
structure Charge.Pays (rate : Int) (g g' : Stage) (c : Charge) : Prop where
  kinds : c.kinds.contains g'.kind = true
  due : g'.weight rate ≤ g.weight rate + c.due

/-- Where nothing was recorded, nothing is due. -/
theorem pays_free (hk : kinds.contains g.kind = true) : (free kinds).Pays rate g g :=
  ⟨hk, Int.le_of_eq (Int.add_zero _).symm⟩

/-- One of the charges does. -/
def Paid (rate : Int) (g : Stage) (cs : List Charge) (g' : Stage) : Prop :=
  ∃ c ∈ cs, c.Pays rate g g'

theorem Paid.covered (h : Paid rate g cs g') (hc : ∀ c ∈ cs, Covered ds c) : Paid rate g ds g' := by
  obtain ⟨c, hmem, hk, hd⟩ := h
  obtain ⟨d, hd', hw⟩ := hc c hmem
  refine ⟨d, hd', hw.kinds _ hk, ?_⟩
  have := hw.due
  omega

theorem Charge.Pays.paid {c : Charge} (h : c.Pays rate g g') : Paid rate g [c] g' :=
  ⟨c, List.mem_singleton_self c, h⟩

/-- What is due is due on top of what was due before. -/
theorem Paid.plus {due : Int} (h : Paid rate g₁ cs g')
    (hd : g₁.weight rate ≤ g.weight rate + due) : Paid rate g (cs.map (plus due)) g' := by
  obtain ⟨c, hmem, hk, hc⟩ := h
  refine ⟨_, List.mem_map_of_mem hmem, hk, ?_⟩
  simp only [Charge.plus]
  omega

/-- A call of a rule is charged what the actions of the rule are charged. -/
def Honest (grammar : ρ → Act ρ) (calls : ρ → KindSet → Option (List Charge)) (rate : Int) : Prop :=
  ∀ rule kinds cs k, calls rule kinds = some cs → kinds.contains k = true → k ≠ .skipped →
    ∃ kinds' ds, kinds'.contains k = true ∧ (grammar rule).charges calls rate kinds' = some ds ∧
      ∀ d ∈ ds, Covered cs d

/-- If nothing is due after a round, a repetition can be entered anywhere, and nothing is due after
it. -/
theorem charges_repeatWhile {test : Test} {body : Act ρ} {round : List Charge}
    (hround : body.charges calls rate (KindSet.recognized.inter (test.kinds true)) = some round)
    (hfree : ∀ c ∈ round, c.due ≤ 0) : ∃ cs,
      (Act.repeatWhile test body).charges calls rate .recognized = some cs ∧
      ∀ c ∈ cs, Within c (free (KindSet.recognized.inter (test.kinds false))) := by
  obtain ⟨cs, hcs⟩ : ∃ cs, loop .recognized test round = some cs :=
    ⟨_, loop_eq_some_iff.mpr ⟨hfree, rfl⟩⟩
  exact ⟨cs, Option.bind_eq_some_iff.mpr ⟨round, hround, hcs⟩, within_loop hcs⟩

theorem charges_takeUpTo (hrate : 3 ≤ rate) (stop : KindSet) : ∃ cs,
    (Act.takeUpTo stop).charges calls rate .recognized = some cs ∧
      ∀ c ∈ cs, Within c (free (KindSet.recognized.inter (.single .eof ∪ stop))) := by
  have hround : (Act.bump : Act ρ).charges calls rate
      (KindSet.recognized.inter (Test.kinds true (.not (.kindIn (.single .eof ∪ stop))))) =
        some _ := rfl
  refine charges_repeatWhile hround fun c hc => ?_
  rcases List.mem_append.mp hc with hc | hc
  · split at hc
    · rw [List.mem_singleton.mp hc]
      exact Int.le_refl 0
    · cases hc
  · split at hc
    · cases hc
    · rw [List.mem_singleton.mp hc]
      show 1 - rate ≤ 0
      omega

/-- Charges are enough: whatever an action makes of a stage, what is charged for it pays for what
was recorded. The induction is on what the action makes; calls are charged like the rules. -/
theorem Makes.paid (hrate : 3 ≤ rate) (hcalls : Honest grammar calls rate)
    (h : Makes grammar a g n g') (hg : g.kind ≠ .skipped) (hk : kinds.contains g.kind = true)
    (hc : a.charges calls rate kinds = some cs) : Paid rate g cs g' := by
  induction h generalizing kinds cs with
  | done =>
    obtain rfl := Option.some.inj hc
    exact (pays_free hk).paid
  | decline =>
    obtain rfl := Option.some.inj hc
    exact Pays.paid ⟨hk, (pays_free hk).due⟩
  | require ht =>
    obtain rfl := Option.some.inj hc
    obtain ⟨left, hl, hk⟩ := mem_assume hk ht
    exact ⟨_, List.mem_map_of_mem hl, pays_free hk⟩
  | @bump g =>
    obtain rfl := Option.some.inj hc
    by_cases he : g.kind = .eof
    · rw [Stage.take_eof he]
      refine ⟨free (.single .eof), ?_, pays_free (by simp [he])⟩
      rw [he] at hk
      simp [hk]
    · refine ⟨⟨.recognized, 1 - rate⟩, ?_, ?_, Stage.weight_take_le hrate he⟩
      · have hrest : (kinds.diff (.single .eof)).contains g.kind = true := by simp [hk, he]
        simp [KindSet.not_isEmpty hrest]
      · simpa using Stage.kind_take_ne_skipped hg
  | missing =>
    obtain rfl := Option.some.inj hc
    exact Pays.paid ⟨hk, Int.le_of_eq (Stage.weight_miss _)⟩
  | @recover problem stop g n g' he loop ih =>
    obtain rfl := Option.some.inj hc
    obtain ⟨ds, hds, hw⟩ : ∃ ds, (Act.takeUpTo stop).charges calls rate .recognized = some ds ∧ _ :=
      charges_takeUpTo hrate stop
    have hskip : (g.enter.report problem).take.kind ≠ .skipped := by
      refine Stage.kind_take_ne_skipped ?_
      rwa [Stage.report_kind]
    obtain ⟨d, hd, hkd, hdue⟩ := ih hskip (by simpa using hskip) hds
    have htake : (g.enter.report problem).take.weight rate ≤ _ :=
      Stage.weight_take_le hrate (by rwa [Stage.report_kind])
    refine Pays.paid ⟨(hw d hd).kinds _ hkd, ?_⟩
    have hfree := (hw d hd).due
    rw [Stage.weight_report] at htake
    rw [Stage.weight_leave, Stage.weight_enter g]
    simp only [free] at hfree ⊢
    omega
  | andThen first second ih₁ ih₂ =>
    obtain ⟨ca, hca, hcs⟩ := Option.bind_eq_some_iff.mp hc
    obtain ⟨c₁, hmem, hk₁, hd₁⟩ := ih₁ hg hk hca
    obtain ⟨os, hos, hcov⟩ := covered_each hcs hmem
    obtain ⟨cb, hcb, rfl⟩ := Option.map_eq_some_iff.mp hos
    exact ((ih₂ (first.recognized hg) hk₁ hcb).plus hd₁).covered hcov
  | @node kind body g n g' inner ih | @nodeIfAny kind body g n g' inner hne ih =>
    obtain ⟨cb, hcb, rfl⟩ := Option.map_eq_some_iff.mp hc
    obtain ⟨c, hmem, hkc, hdc⟩ := ih hg hk hcb
    refine ⟨_, List.mem_map_of_mem hmem, hkc, ?_⟩
    rw [Stage.weight_leave, Stage.weight_enter g]
    simp only [plus]
    omega
  | @nodeIfNone kind body g n g' inner hnil ih =>
    obtain ⟨cb, hcb, rfl⟩ := Option.map_eq_some_iff.mp hc
    obtain ⟨c, hmem, hkc, hdc⟩ := ih hg hk hcb
    refine ⟨_, List.mem_map_of_mem hmem, hkc, ?_⟩
    rw [Stage.weight_enter g]
    simp only [Stage.weight, hnil, Sprout.extent_nil, plus] at hdc ⊢
    push_cast at hdc ⊢
    omega
  | @wrap kind body g n g' before k children hf hl inner ih =>
    obtain ⟨cb, hcb, rfl⟩ := Option.map_eq_some_iff.mp hc
    obtain ⟨c, hmem, hkc, hdc⟩ := ih hg hk hcb
    refine ⟨_, List.mem_map_of_mem hmem, hkc, ?_⟩
    rw [Stage.weight_leave]
    simp only [Stage.weight, hl, Sprout.extent_append, plus] at hdc ⊢
    push_cast at hdc ⊢
    omega
  | @branch test yes no g n g' inner ih =>
    obtain ⟨cy, hcy, hrest⟩ := Option.bind_eq_some_iff.mp hc
    obtain ⟨cn, hcn, rfl⟩ := Option.map_eq_some_iff.mp hrest
    have hm := covered_merge cy cn
    cases ht : g.holds test with
    | true =>
      rw [ht, if_pos rfl] at ih
      obtain ⟨left, hl, hkl⟩ := mem_assume hk ht
      obtain ⟨os, hos, hcov⟩ := covered_each hcy hl
      exact (ih hg hkl hos).covered fun c hc => (hcov c hc).trans hm.1
    | false =>
      rw [ht, if_neg Bool.false_ne_true] at ih
      obtain ⟨left, hl, hkl⟩ := mem_assume hk ht
      obtain ⟨os, hos, hcov⟩ := covered_each hcn hl
      exact (ih hg hkl hos).covered fun c hc => (hcov c hc).trans hm.2
  | byKind inner ih =>
    obtain ⟨os, hos, hcov⟩ := covered_each hc (KindSet.mem_members hk)
    exact (ih hg (by simp) hos).covered hcov
  | @stop test body g ht =>
    obtain ⟨round, -, hloop⟩ := Option.bind_eq_some_iff.mp hc
    obtain ⟨-, rfl⟩ := loop_eq_some_iff.mp hloop
    obtain ⟨left, hl, hkl⟩ := mem_assume hk ht
    have hnow : Paid rate g ((assume kinds false test).map free) g :=
      ⟨_, List.mem_map_of_mem hl, pays_free hkl⟩
    exact hnow.covered (covered_merge _ _).1
  | @again test body g m g₁ n g₂ ht first rest ih₁ ih₂ =>
    obtain ⟨round, hround, hloop⟩ := Option.bind_eq_some_iff.mp hc
    obtain ⟨hfree, rfl⟩ := loop_eq_some_iff.mp hloop
    have hinside : (KindSet.recognized.inter (test.kinds true)).contains g.kind = true := by
      rw [KindSet.contains_inter, Stage.kind, Test.contains_kinds ht, ← Stage.kind]
      simpa using hg
    -- What the first round pays is all that counts: nothing is due after the others.
    obtain ⟨c₁, hc₁, -, hd₁⟩ := ih₁ hg hinside hround
    have hworst := due_le_worst hc₁
    have hg₁ := first.recognized hg
    obtain ⟨cs, hcs, hw⟩ := charges_repeatWhile hround hfree
    obtain ⟨c₂, hc₂, hk₂, hd₂⟩ := ih₂ hg₁ (by simpa using hg₁) hcs
    have hdue : c₂.due ≤ 0 := (hw c₂ hc₂).due
    have hlast : Paid rate g [⟨KindSet.recognized.inter (test.kinds false), worst round⟩] g₂ := by
      refine Pays.paid ⟨(hw c₂ hc₂).kinds _ hk₂, ?_⟩
      dsimp only
      omega
    exact hlast.covered (covered_merge _ _).2
  | call inner ih =>
    obtain ⟨kinds', ds, hk', hds, hcov⟩ := hcalls _ _ _ _ hc hk hg
    exact (ih hg hk' hds).covered hcov

end PhpSyntax
