import PhpSyntax.Grammar.Php
import PhpSyntax.Parse
import PhpSyntax.Proofs.Foresight

/-!
What the rules of the grammar promise to their callers. A rule may be entered in one of several
ways, and for each of them a forecast tells what is known after it. That the rules keep what they
promise is computed from their actions; calls in a rule may rely on promises if a token was taken
before or the rule called is of lower rank, so there is no circle.
-/
namespace PhpSyntax

open Forecast

/-- One way to enter a rule, and what is known after it. -/
structure Outlook where
  /-- The kinds of the current token. -/
  kinds : KindSet
  /-- Whether a branch was found, as far as it matters. -/
  found : Option Bool
  /-- The forecast after the rule; its cost is that of the rule alone. -/
  after : Forecast

namespace Outlook

def before (c : Outlook) : Forecast :=
  ⟨c.kinds, .all, if c.found = some true then some true else none, c.found, 1⟩

/-- After a call of the rule; what was recorded before it stays. -/
def afterCall (c : Outlook) (o : Forecast) : Forecast :=
  { c.after with
    filled := if o.filled = some true then some true else c.after.filled
    cost := o.cost + c.after.cost }

end Outlook

namespace Rule

/-- Tokens at which a rule takes at least one. -/
def first : Rule → KindSet
  | statement => KindSet.recognized.diff (.single .eof)
  | expression _ => Grammar.expressionFirst
  | operators _ | postfixes => .empty
  | variableExpr => .ofList [.variableName, .dollar]
  | useClause => Grammar.useClauseFirst
  | type => Grammar.typeFirst
  | member => KindSet.recognized.diff (.ofList [.eof, .rightBrace])

/-- A rule may call rules of lower rank before it takes a token. -/
def rank : Rule → Nat
  | statement => 2
  | expression _ => 1
  | _ => 0

/-- A rule that takes a token finds a branch. -/
def taking (r : Rule) : Outlook :=
  ⟨r.first, none, ⟨.recognized, .all, some true, some true, 256 * (r.rank - 3)⟩⟩

/-- An expression that does not begin here. -/
def declining : Outlook :=
  let rest := KindSet.recognized.diff Grammar.expressionFirst
  ⟨rest, none, ⟨rest, .all, none, some false, 16⟩⟩

/-- A clause whose name is missing. -/
def nameless : Outlook :=
  ⟨KindSet.recognized.diff Grammar.useClauseFirst, none,
    ⟨.recognized, .all, some true, some true, 64⟩⟩

/-- Operators and the like follow a branch that was found, and find one. -/
def following : Outlook := ⟨.recognized, some true, ⟨.recognized, .all, some true, some true, 16⟩⟩

/-- The ways to enter a rule. -/
def outlooks : Rule → List Outlook
  | expression p => [(expression p).taking, declining]
  | operators _ | postfixes => [following]
  | useClause => [useClause.taking, nameless]
  | r => [r.taking]

/-- The kinds at which a rule can be entered in one of several ways. -/
def entries (ways : List Outlook) : KindSet := ways.foldr (fun c s => c.kinds ∪ s) .empty

theorem exists_of_entries {ways : List Outlook} {k : Kind} (h : (entries ways).contains k = true) :
    ∃ c ∈ ways, c.kinds.contains k = true := by
  induction ways with
  | nil => simp [entries] at h
  | cons c cs ih =>
    rw [entries, List.foldr_cons, KindSet.contains_union, Bool.or_eq_true] at h
    rcases h with h | h
    · exact ⟨c, List.mem_cons_self .., h⟩
    · obtain ⟨d, hd, hk⟩ := ih h
      exact ⟨d, List.mem_cons_of_mem c hd, hk⟩

/-- The forecasts after a call of a rule. -/
def promise (r : Rule) (o : Forecast) : Option (List Forecast) :=
  let ways := r.outlooks.filter fun c => !(o.kinds.inter c.kinds).isEmpty
  if o.kinds.subset (entries ways) &&
      ways.all (fun c => c.found == none || c.found == o.found) then
    some (ways.map (·.afterCall o))
  else none

/-- What the rule may rely on in calls. -/
def trusts (self r : Rule) (o : Forecast) : Option (List Forecast) :=
  if decide (o.cost ≤ -1) || decide (r.rank < self.rank) then r.promise o else none

/-- The forecasts after an action of the rule tell what `after` does. -/
def keeps (self : Rule) (a : Grammar.Action) (before after : Forecast) : Bool :=
  match a.forecasts self.trusts Parse.stepsPerToken before with
  | some os => os.all (·.le after)
  | none => false

/-! ## Certificates

The power of an expression decides only which operators are taken, so what holds for power zero,
which takes them all, holds for every power.
-/

theorem keeps_outlooks :
    ([statement, expression 0, postfixes, variableExpr, useClause, type, member].all fun r =>
      r.outlooks.all fun c => r.keeps (Grammar.php r) c.before c.after) = true := by
  decide +kernel

/-- What is done at an operator that is taken. -/
def operatorStep (k : Kind) (right power : Nat) : Grammar.Action :=
  .wrap (Grammar.operatorNode k) (Grammar.operation k right) ++ .call (.operators power)

theorem operatorStep_keeps_zero :
    (KindSet.recognized.members.all fun k => match Grammar.binding? k with
      | none => true
      | some b => (operators 0).keeps (operatorStep k b.right 0)
        { following.before.step with kinds := .single k } following.after) = true := by
  decide +kernel

theorem exists_of_keeps {self : Rule} {a : Grammar.Action} {o p : Forecast}
    (h : self.keeps a o p = true) :
    ∃ os, a.forecasts self.trusts Parse.stepsPerToken o = some os ∧ ∀ q ∈ os, Within q p := by
  unfold keeps at h
  split at h
  · next os hos => exact ⟨os, hos, fun q hq => within_of_le (List.all_eq_true.mp h q hq)⟩
  · cases h

theorem forecasts_append (calls : Rule → Forecast → Option (List Forecast)) (rate : Int)
    (a b : Grammar.Action) (o : Forecast) : (a ++ b).forecasts calls rate o =
      (a.forecasts calls rate o.step).bind (each o.cost (b.forecasts calls rate)) := rfl

/-- Which operators are called makes no difference to a forecast. -/
theorem forecasts_call_operators (self : Rule) (power : Nat) :
    (Act.call (operators power)).forecasts self.trusts Parse.stepsPerToken =
      (Act.call (operators 0)).forecasts self.trusts Parse.stepsPerToken := by
  funext o
  rfl

theorem forecasts_climb (power : Nat) (o : Forecast) :
    (Grammar.climb power).forecasts (expression power).trusts Parse.stepsPerToken o =
      (Grammar.climb 0).forecasts (expression 0).trusts Parse.stepsPerToken o := by
  have ht : (expression power).trusts = (expression 0).trusts := rfl
  have hw : (Act.when .found (.call (operators power))).forecasts (expression 0).trusts
      Parse.stepsPerToken = (Act.when .found (.call (operators 0))).forecasts
        (expression 0).trusts Parse.stepsPerToken := by
    funext o
    rw [Act.when, Act.when, Act.forecasts, forecasts_call_operators, ← Act.forecasts]
  rw [ht, Grammar.climb, Grammar.climb, forecasts_append, forecasts_append, hw]

theorem forecasts_operatorStep (k : Kind) (right power : Nat) (o : Forecast) :
    (operatorStep k right power).forecasts (operators power).trusts Parse.stepsPerToken o =
      (operatorStep k right 0).forecasts (operators 0).trusts Parse.stepsPerToken o := by
  have ht : (operators power).trusts = (operators 0).trusts := rfl
  rw [ht, operatorStep, operatorStep, forecasts_append, forecasts_append,
    forecasts_call_operators]

theorem operators_keeps (power : Nat) :
    ∃ os, (Grammar.operators power).forecasts (operators power).trusts Parse.stepsPerToken
      following.before = some os ∧ ∀ o ∈ os, Within o following.after := by
  refine exists_each fun k hk => ?_
  have hstep := List.all_eq_true.mp operatorStep_keeps_zero k hk
  have hdone : ∃ os, (Act.done : Grammar.Action).forecasts (operators power).trusts
      Parse.stepsPerToken { following.before.step with kinds := .single k } = some os ∧
      ∀ o ∈ os, Within o following.after := by
    refine ⟨_, rfl, fun o ho => ?_⟩
    rw [List.mem_singleton.mp ho]
    refine ⟨fun j hj => ?_, fun _ h => h, fun _ h => h, fun _ h => h, ?_⟩
    · have hjk : j = k := by simpa [Forecast.step] using hj
      exact hjk ▸ KindSet.contains_of_mem_members hk
    · show (1 + 1 + 1 : Int) ≤ 16
      decide
  cases hb : Grammar.binding? k with
  | none =>
    simp only [hb]
    exact hdone
  | some b =>
    rw [hb] at hstep
    by_cases hl : b.left < power
    · simp only [hb, if_pos hl]
      exact hdone
    · simp only [hb, if_neg hl]
      have hs := exists_of_keeps hstep
      rw [← forecasts_operatorStep k b.right power] at hs
      exact hs

/-- Each rule keeps what it promises, if calls in it do. -/
theorem outlooks_keep (r : Rule) {c : Outlook} (h : c ∈ r.outlooks) :
    ∃ os, (Grammar.php r).forecasts r.trusts Parse.stepsPerToken c.before = some os ∧
      ∀ o ∈ os, Within o c.after := by
  have hall (q : Rule)
      (hq : q ∈ [statement, expression 0, postfixes, variableExpr, useClause, type, member])
      (hc : c ∈ q.outlooks) : ∃ os, (Grammar.php q).forecasts q.trusts Parse.stepsPerToken c.before =
        some os ∧ ∀ o ∈ os, Within o c.after :=
    exists_of_keeps (List.all_eq_true.mp (List.all_eq_true.mp keeps_outlooks q hq) c hc)
  cases r with
  | statement => exact hall statement (by simp) h
  | expression power =>
    obtain ⟨os, hos, hw⟩ := hall (expression 0) (by simp) h
    exact ⟨os, (forecasts_climb power _).trans hos, hw⟩
  | operators power => rw [List.mem_singleton.mp h]; exact operators_keeps power
  | postfixes => exact hall postfixes (by simp) h
  | variableExpr => exact hall variableExpr (by simp) h
  | useClause => exact hall useClause (by simp) h
  | type => exact hall type (by simp) h
  | member => exact hall member (by simp) h

/-- If the current token is of one of the kinds of a forecast, there is a way to enter the rule. -/
theorem exists_outlook {r : Rule} {o : Forecast} {outs : List Forecast} {k : Kind}
    (h : r.promise o = some outs) (hk : o.kinds.contains k = true) :
    ∃ c ∈ r.outlooks, c.kinds.contains k = true ∧ (c.found = none ∨ c.found = o.found) ∧
      c.afterCall o ∈ outs := by
  simp only [promise, Option.ite_none_right_eq_some, Bool.and_eq_true] at h
  obtain ⟨⟨he, hall⟩, h⟩ := h
  obtain rfl := Option.some.inj h
  obtain ⟨c, hc, hck⟩ := exists_of_entries (KindSet.contains_of_subset he hk)
  have hf := List.all_eq_true.mp hall c hc
  simp only [Bool.or_eq_true, beq_iff_eq] at hf
  exact ⟨c, (List.mem_filter.mp hc).1, hck, hf, List.mem_map_of_mem hc⟩

theorem rank_lt (r : Rule) : r.rank < 3 := by
  cases r <;> simp [rank]

variable {r : Rule} {o : Forecast} {outs : List Forecast} {g : Stage}

theorem before_fits {c : Outlook} (hf : o.Fits g) (hk : c.kinds.contains g.kind = true)
    (hfound : c.found = none ∨ c.found = o.found) : c.before.Fits g := by
  have hof {b : Bool} (h : c.found = some b) : o.found = some b := by
    rcases hfound with h0 | h0
    · rw [h0] at h
      cases h
    · rw [← h0, h]
  refine ⟨hf.proper, hk, KindSet.contains_all _, fun b hb => ?_, fun h => hf.located (hof h),
    fun h => hf.nothing (hof h)⟩
  simp only [Outlook.before] at hb
  split at hb
  · next h =>
    obtain rfl := Option.some.inj hb
    obtain ⟨-, before, kind, children, hc⟩ := hf.located (hof h)
    simp [hc]
  · cases hb

/-- Promises are kept: what a call of a rule is forecast to do, it does. The induction is on the
tokens to come, and on the rank of the rule as long as no token is taken. -/
theorem promise_kept (h : r.promise o = some outs) (hf : o.Fits g) :
    Delivers Grammar.php Parse.stepsPerToken (.call r) o outs g := by
  induction hm : 3 * g.tokens.length + r.rank using Nat.strongRecOn generalizing r o outs g with
  | ind m ih =>
    subst hm
    obtain ⟨c, hc, hck, hfound, hmem⟩ := exists_outlook h hf.kinds
    obtain ⟨os, hos, hw⟩ := r.outlooks_keep hc
    have ha : Affords Parse.stepsPerToken g.tokens.length c.before g := ⟨Nat.le_refl _, by
      show _ ≤ _ + (1 : Int)
      omega⟩
    have hcalls : ∀ rule p outs g', r.trusts rule p = some outs → p.Fits g' →
        Affords Parse.stepsPerToken g.tokens.length p g' →
        Delivers Grammar.php Parse.stepsPerToken (.call rule) p outs g' := by
      intro rule p outs g' ht hp hap
      simp only [trusts, Option.ite_none_right_eq_some, Bool.or_eq_true,
        decide_eq_true_eq] at ht
      obtain ⟨hlt, ht⟩ := ht
      refine ih _ ?_ ht hp rfl
      have hr := rule.rank_lt
      have hl := hap.tokens
      have hcost := hap.cost
      simp only [Parse.stepsPerToken] at hcost
      omega
    obtain ⟨n, g', p, hp, hmk, hpf, hl, hn⟩ :=
      (Grammar.php r).forecasts_sound (by decide) hcalls hos (before_fits hf hck hfound) ha
    have hwp := hw p hp
    have hcost := hwp.cost
    have hpf' := hpf.weaken hwp
    refine ⟨n + 1, g', c.afterCall o, hmem, .call hmk, ?_, hl, ?_⟩
    · refine ⟨hpf'.proper, hpf'.kinds, hpf'.next, fun b hb => ?_, hpf'.located, hpf'.nothing⟩
      simp only [Outlook.afterCall] at hb
      split at hb
      · next ho =>
        obtain rfl := Option.some.inj hb
        have hne : g.children ≠ [] := by simpa using hf.filled true ho
        simpa using hmk.children_ne_nil hne
      · exact hpf'.filled b hb
    · have hb : c.before.cost = 1 := rfl
      simp only [Outlook.afterCall]
      omega

end Rule

namespace Grammar

/-- Before the first statement. -/
def outset : Forecast := ⟨.recognized, .all, some false, some false, 0⟩

/-- At the end of file. -/
def finish : Forecast := ⟨.single .eof, .all, none, none, 2⟩

theorem program_finishes : (match program.forecasts Rule.promise Parse.stepsPerToken outset with
    | some os => os.all (·.le finish)
    | none => false) = true := by
  decide +kernel

/-- Whatever the tokens are, the program ends at the end of file, and in time. -/
theorem program_makes {g : Stage} (hp : g.Proper) (hc : g.children = []) (hf : g.found = .nothing) :
    ∃ n g', Makes php program g n g' ∧ g'.Proper ∧ g'.kind = .eof ∧
      n ≤ Parse.stepsPerToken * (g.tokens.length + 1) := by
  have hfit : outset.Fits g := by
    refine ⟨hp, ?_, KindSet.contains_all _, fun b hb => ?_, fun h => (by cases h), fun _ => hf⟩
    · simpa [outset] using hp.recognized
    · obtain rfl : false = b := Option.some.inj hb
      rw [hc]
      rfl
  have ha : Affords Parse.stepsPerToken g.tokens.length outset g := ⟨Nat.le_refl _, by
    show _ ≤ _ + (0 : Int)
    omega⟩
  have hk := program_finishes
  split at hk
  · next os hos =>
    obtain ⟨n, g', p, hmem, hm, hpf, -, hn⟩ := program.forecasts_sound (by decide)
      (fun _ _ _ _ h hf _ => Rule.promise_kept h hf) hos hfit ha
    have hw := within_of_le (List.all_eq_true.mp hk p hmem)
    have hcost := hw.cost
    have h0 : outset.cost = 0 := rfl
    have h2 : finish.cost = 2 := rfl
    refine ⟨n, g', hm, hpf.proper, ?_, ?_⟩
    · have he := hw.kinds _ hpf.kinds
      simpa [finish] using he
    · simp only [Parse.stepsPerToken] at hn ⊢
      omega
  · cases hk

end Grammar
end PhpSyntax
