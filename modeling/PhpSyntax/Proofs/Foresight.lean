import PhpSyntax.Proofs.Forecast
import PhpSyntax.Proofs.Stages

/-!
Forecasts come true: from a stage that a forecast fits, an action leads to a stage that one of the
forecasts after it fits, in as many steps as that one allows.
-/
namespace PhpSyntax

variable {ρ : Type} {grammar : ρ → Act ρ} {calls : ρ → Forecast → Option (List Forecast)}
  {rate bound : Nat} {o p : Forecast} {os ps outs : List Forecast} {g g' : Stage}

/-- The last child of the innermost open branch is the branch that was found. -/
def Stage.AtBranch (g : Stage) : Prop :=
  g.found = .last ∧ ∃ before kind children, g.children = before ++ [.branch kind children]

namespace Forecast

/-- All that is forecast holds of the stage. -/
structure Fits (o : Forecast) (g : Stage) : Prop where
  proper : g.Proper
  kinds : o.kinds.contains g.kind = true
  next : o.next.contains (Token.kindAt 1 g.tokens) = true
  filled : ∀ b, o.filled = some b → g.children.isEmpty = !b
  located : o.found = some true → g.AtBranch
  nothing : o.found = some false → g.found = .nothing

/-- What is forecast is forecast as well by a forecast that tells less. -/
structure Within (o p : Forecast) : Prop where
  kinds : ∀ k, o.kinds.contains k = true → p.kinds.contains k = true
  next : ∀ k, o.next.contains k = true → p.next.contains k = true
  filled : ∀ b, p.filled = some b → o.filled = some b
  found : ∀ b, p.found = some b → o.found = some b
  cost : o.cost ≤ p.cost

theorem Within.refl (o : Forecast) : Within o o :=
  ⟨fun _ h => h, fun _ h => h, fun _ h => h, fun _ h => h, Int.le_refl _⟩

theorem Within.trans {q : Forecast} (h : Within o p) (h' : Within p q) : Within o q where
  kinds k hk := h'.kinds k (h.kinds k hk)
  next k hk := h'.next k (h.next k hk)
  filled b hb := h.filled b (h'.filled b hb)
  found b hb := h.found b (h'.found b hb)
  cost := Int.le_trans h.cost h'.cost

theorem Fits.weaken (h : o.Fits g) (hw : Within o p) : p.Fits g where
  proper := h.proper
  kinds := hw.kinds _ h.kinds
  next := hw.next _ h.next
  filled b hb := h.filled b (hw.filled b hb)
  located hb := h.located (hw.found _ hb)
  nothing hb := h.nothing (hw.found _ hb)

theorem within_of_le (h : o.le p = true) : Within o p := by
  simp only [le, Bool.and_eq_true, Bool.or_eq_true, beq_iff_eq, decide_eq_true_eq] at h
  obtain ⟨⟨⟨⟨hk, hn⟩, hfi⟩, hfo⟩, hc⟩ := h
  refine ⟨fun k => KindSet.contains_of_subset hk, fun k => KindSet.contains_of_subset hn,
    fun b hb => ?_, fun b hb => ?_, hc⟩
  · rcases hfi with h0 | h0
    · rw [h0] at hb
      cases hb
    · rw [h0, hb]
  · rcases hfo with h0 | h0
    · rw [h0] at hb
      cases hb
    · rw [h0, hb]

/-- One of these forecasts tells no more than `o`. -/
def Covered (ps : List Forecast) (o : Forecast) : Prop := ∃ p ∈ ps, Within o p

theorem covered_of_mem (h : o ∈ ps) : Covered ps o := ⟨o, h, .refl o⟩

theorem Covered.trans (h : Covered ps o) (h' : ∀ p ∈ ps, Covered os p) : Covered os o := by
  obtain ⟨p, hp, hw⟩ := h
  obtain ⟨q, hq, hw'⟩ := h' p hp
  exact ⟨q, hq, hw.trans hw'⟩

theorem covered_insert (base : Int) (o : Forecast) (ps : List Forecast) :
    Covered (insert base o ps) o ∧ ∀ p ∈ ps, Covered (insert base o ps) p := by
  induction ps with
  | nil => exact ⟨covered_of_mem (List.mem_singleton.mpr rfl), by simp⟩
  | cons q qs ih =>
    by_cases h : (o.filled == q.filled && o.found == q.found &&
        decide (o.cost + 128 ≤ base) == decide (q.cost + 128 ≤ base)) = true
    · rw [insert, if_pos h]
      simp only [Bool.and_eq_true, beq_iff_eq] at h
      obtain ⟨⟨hfi, hfo⟩, -⟩ := h
      refine ⟨⟨_, List.mem_cons_self .., ⟨by simp_all, by simp_all, by simp_all, by simp_all,
        Int.le_max_left ..⟩⟩, fun p hp => ?_⟩
      rcases List.mem_cons.mp hp with rfl | hp
      · exact ⟨_, List.mem_cons_self .., ⟨by simp_all, by simp_all, by simp, by simp,
          Int.le_max_right ..⟩⟩
      · exact covered_of_mem (List.mem_cons_of_mem _ hp)
    · rw [insert, if_neg h]
      have hq : ∀ p, Covered (insert base o qs) p → Covered (q :: insert base o qs) p :=
        fun p ⟨r, hr, hw⟩ => ⟨r, List.mem_cons_of_mem _ hr, hw⟩
      refine ⟨hq o ih.1, fun p hp => ?_⟩
      rcases List.mem_cons.mp hp with rfl | hp
      · exact covered_of_mem (List.mem_cons_self ..)
      · exact hq p (ih.2 p hp)

theorem covered_merge (base : Int) (os ps : List Forecast) :
    (∀ o ∈ os, Covered (merge base os ps) o) ∧ ∀ p ∈ ps, Covered (merge base os ps) p := by
  induction os with
  | nil => exact ⟨by simp, fun p hp => covered_of_mem hp⟩
  | cons q qs ih =>
    have hi := covered_insert base q (merge base qs ps)
    refine ⟨fun o ho => ?_, fun p hp => (ih.2 p hp).trans hi.2⟩
    rcases List.mem_cons.mp ho with rfl | ho
    · exact hi.1
    · exact (ih.1 o ho).trans hi.2

/-- If there are forecasts for every case, those for one case are among them. -/
theorem covered_each {α : Type} {base : Int} {f : α → Option (List Forecast)} {as : List α} {a : α}
    (h : each base f as = some outs) (ha : a ∈ as) :
    ∃ os, f a = some os ∧ ∀ o ∈ os, Covered outs o := by
  induction as generalizing outs with
  | nil => cases ha
  | cons b bs ih =>
    simp only [each, Option.bind_eq_some_iff, Option.map_eq_some_iff] at h
    obtain ⟨os, hos, ps, hps, rfl⟩ := h
    have hm := covered_merge base os ps
    rcases List.mem_cons.mp ha with rfl | ha
    · exact ⟨os, hos, hm.1⟩
    · obtain ⟨qs, hqs, hq⟩ := ih hps ha
      exact ⟨qs, hqs, fun o ho => (hq o ho).trans hm.2⟩

theorem within_insert {base : Int} {q : Forecast} (ho : Within o q) (hps : ∀ p ∈ ps, Within p q) :
    ∀ p ∈ insert base o ps, Within p q := by
  induction ps with
  | nil =>
    intro p hp
    rw [List.mem_singleton.mp hp]
    exact ho
  | cons r rs ih =>
    intro p hp
    have hr := hps r (List.mem_cons_self ..)
    have hrs : ∀ p ∈ rs, Within p q := fun p hp => hps p (List.mem_cons_of_mem r hp)
    rw [insert] at hp
    split at hp
    · rcases List.mem_cons.mp hp with rfl | hp
      · have hcost := Int.max_le.mpr ⟨ho.cost, hr.cost⟩
        refine ⟨fun k hk => ?_, fun k hk => ?_, hr.filled, hr.found, hcost⟩
        · rw [KindSet.contains_union, Bool.or_eq_true] at hk
          exact hk.elim (ho.kinds k) (hr.kinds k)
        · rw [KindSet.contains_union, Bool.or_eq_true] at hk
          exact hk.elim (ho.next k) (hr.next k)
      · exact hrs p hp
    · rcases List.mem_cons.mp hp with rfl | hp
      · exact hr
      · exact ih hrs p hp

/-- What all cases tell, they tell together. -/
theorem exists_each {α : Type} {base : Int} {f : α → Option (List Forecast)} {as : List α}
    {q : Forecast} (h : ∀ a ∈ as, ∃ os, f a = some os ∧ ∀ o ∈ os, Within o q) :
    ∃ outs, each base f as = some outs ∧ ∀ o ∈ outs, Within o q := by
  induction as with
  | nil => exact ⟨[], rfl, by simp⟩
  | cons a as ih =>
    obtain ⟨os, hos, ho⟩ := h a (List.mem_cons_self ..)
    obtain ⟨ps, hps, hp⟩ := ih fun b hb => h b (List.mem_cons_of_mem a hb)
    refine ⟨merge base os ps, by simp [each, hos, hps], ?_⟩
    clear hos
    induction os with
    | nil => exact hp
    | cons o os ih' =>
      exact within_insert (ho o (List.mem_cons_self ..))
        (ih' fun r hr => ho r (List.mem_cons_of_mem o hr))

theorem cost_le_worst (h : o ∈ os) : o.cost ≤ worst os := by
  induction os with
  | nil => cases h
  | cons p ps ih =>
    cases ps with
    | nil => rw [List.mem_singleton.mp h]; exact Int.le_refl _
    | cons q qs =>
      simp only [worst]
      rcases List.mem_cons.mp h with rfl | h
      · exact Int.le_max_left ..
      · exact Int.le_trans (ih h) (Int.le_max_right ..)

namespace Fits

/-- A test that has an answer leaves a forecast. -/
theorem assume {t : Test} {answer : Bool} (h : o.Fits g) (ht : g.holds t = answer) :
    ∃ p ∈ o.assume answer t, p.Fits g ∧ p.cost = o.cost := by
  have hk₀ : (t.kinds answer).contains g.kind = true := Test.contains_kinds ht
  have hk : (o.kinds.inter (t.kinds answer)).contains g.kind = true := by
    rw [KindSet.contains_inter, h.kinds, hk₀]
    rfl
  have hn : (o.next.inter (t.nextKinds answer)).contains (Token.kindAt 1 g.tokens) = true := by
    rw [KindSet.contains_inter, h.next, Test.contains_nextKinds ht]
    rfl
  have hfit : Fits { o with
      kinds := o.kinds.inter (t.kinds answer), next := o.next.inter (t.nextKinds answer) } g :=
    ⟨h.proper, hk, hn, h.filled, h.located, h.nothing⟩
  cases t with
  | found =>
    have hf : o.found ≠ some !answer := by
      intro hf
      have ht : g.found.any = answer := ht
      cases answer with
      | true => rw [h.nothing hf] at ht; cases ht
      | false => rw [(h.located hf).1] at ht; cases ht
    exact ⟨o, by simp [Forecast.assume, hf], h, rfl⟩
  | _ =>
    refine ⟨_, ?_, hfit, rfl⟩
    rw [Forecast.assume]
    · simp [KindSet.not_isEmpty hk]
    · simp

theorem step (h : o.Fits g) : o.step.Fits g :=
  ⟨h.proper, h.kinds, h.next, h.filled, h.located, h.nothing⟩

theorem assume_step {t : Test} {answer : Bool} (h : o.Fits g) (ht : g.holds t = answer) :
    ∃ p ∈ o.step.assume answer t, p.Fits g ∧ p.cost = o.cost + 1 := h.step.assume ht

theorem bury (h : o.Fits g) : o.buried = some false → g.found.bury = .nothing := by
  unfold buried
  split
  · next ho => intro; rw [h.nothing ho]; rfl
  · simp

theorem buried_ne (o : Forecast) : o.buried ≠ some true := by
  unfold buried
  split <;> simp

theorem take (h : o.Fits g) (hk : g.kind ≠ .eof) : (o.taken rate).Fits g.take where
  proper := h.proper.take
  kinds := by
    rw [h.proper.kind_take hk, taken, KindSet.contains_inter, h.next, KindSet.contains_recognized]
    have hr := h.proper.take.recognized
    rw [h.proper.kind_take hk] at hr
    simpa using hr
  next := KindSet.contains_all _
  filled b hb := by
    obtain rfl : true = b := Option.some.inj hb
    simpa using Stage.take_children_ne_nil hk h.proper
  located hb := absurd hb (buried_ne o)
  nothing hb := by
    obtain ⟨t, rest, -, -, he⟩ := h.proper.take_eq hk
    rw [he]
    exact h.bury hb

theorem miss (h : o.Fits g) (what : String) :
    Fits { o.step with filled := some true, found := o.buried } (g.miss what) where
  proper := h.proper.miss what
  kinds := h.kinds
  next := h.next
  filled b hb := by
    obtain rfl : true = b := Option.some.inj hb
    simp [Stage.miss]
  located hb := absurd hb (buried_ne o)
  nothing hb := h.bury hb

theorem inside (h : o.Fits g) : o.inside.Fits g.enter where
  proper := h.proper.enter
  kinds := h.kinds
  next := h.next
  filled b hb := by
    obtain rfl : false = b := Option.some.inj hb
    rfl
  located hb := absurd hb (buried_ne o)
  nothing hb := h.bury hb

/-- A branch around the branch found last has that one as its first child. -/
theorem around {before children : List Sprout} {k : Kind} (h : o.Fits g)
    (hc : g.children = before ++ [.branch k children]) :
    o.around.Fits { g with children := [.branch k children], found := .earlier } where
  proper := by
    refine ⟨h.proper.ended, h.proper.recognized, fun c hmem => ?_⟩
    rw [List.mem_singleton.mp hmem]
    exact h.proper.full _ (by rw [hc]; simp)
  kinds := h.kinds
  next := h.next
  filled b hb := by
    obtain rfl : true = b := Option.some.inj hb
    rfl
  located hb := by cases hb
  nothing hb := by cases hb

theorem decline (h : o.Fits g) :
    Fits { o.step with found := some false } { g with found := .nothing } where
  proper := ⟨h.proper.ended, h.proper.recognized, h.proper.full⟩
  kinds := h.kinds
  next := h.next
  filled := h.filled
  located hb := by cases hb
  nothing _ := rfl

theorem ofKind (h : o.Fits g) : Fits { o.step with kinds := .single g.kind } g :=
  ⟨h.proper, by simp, h.next, h.filled, h.located, h.nothing⟩

/-- Where a repetition goes on. -/
theorem round {test : Test} {found : Option Bool} (hg : g.Proper) (ht : g.holds test = true)
    (hfill : o.filled = some true → g.children ≠ []) (hfound : found ≠ some false)
    (hloc : found = some true → g.AtBranch) : (o.round test found).Fits g where
  proper := hg
  kinds := by
    have hk : (test.kinds true).contains g.kind = true := Test.contains_kinds ht
    simpa [Forecast.round, hk] using hg.recognized
  next := Test.contains_nextKinds ht
  filled b hb := by
    simp only [Forecast.round] at hb
    split at hb
    · next hf =>
      obtain rfl := Option.some.inj hb
      simpa using hfill hf
    · cases hb
  located := hloc
  nothing hb := absurd hb hfound

/-- Where a repetition ends after some rounds. -/
theorem repeated {test : Test} {found : Option Bool} (os : List Forecast) (hg : g.Proper)
    (ht : g.holds test = false) (hfill : g.children ≠ []) (hfound : found ≠ some false)
    (hloc : found = some true → g.AtBranch) : (Forecast.repeated test found os).Fits g where
  proper := hg
  kinds := by
    have hk : (test.kinds false).contains g.kind = true := Test.contains_kinds ht
    simpa [Forecast.repeated, hk] using hg.recognized
  next := Test.contains_nextKinds ht
  filled b hb := by
    obtain rfl : true = b := Option.some.inj hb
    simpa using hfill
  located := hloc
  nothing hb := absurd hb hfound

/-- At the end of a branch that is not empty. -/
theorem closed (h : p.Fits g') (hg : ∀ c ∈ g.children, c.Full) (hn : g'.children ≠ [])
    (kind : Kind) : p.closed.Fits (g.leave kind g') where
  proper := Stage.Proper.leave hg h.proper hn kind
  kinds := h.kinds
  next := h.next
  filled b hb := by
    obtain rfl : true = b := Option.some.inj hb
    simp [Stage.leave]
  located _ := ⟨rfl, _, _, _, rfl⟩
  nothing hb := by cases hb

end Fits

theorem mem_close {base : Int} (h : close base os = some outs) (hp : p ∈ os) :
    p.filled = some true ∧ Covered outs p.closed := by
  unfold close at h
  split at h
  · next ha =>
    obtain rfl := Option.some.inj h
    have hf : p.filled = some true := by simpa using List.all_eq_true.mp ha p hp
    exact ⟨hf, (covered_merge base _ []).1 _ (List.mem_map_of_mem hp)⟩
  · cases h

end Forecast

open Forecast

/-- The action leads from the stage to one that fits a forecast of `outs`, in at most as many steps
as the costs tell. -/
def Delivers (grammar : ρ → Act ρ) (rate : Nat) (a : Act ρ) (o : Forecast) (outs : List Forecast)
    (g : Stage) : Prop :=
  ∃ n g', ∃ p ∈ outs, Makes grammar a g n g' ∧ p.Fits g' ∧
    g'.tokens.length ≤ g.tokens.length ∧
    (n : Int) + rate * g'.tokens.length + o.cost ≤ rate * g.tokens.length + p.cost

/-- So far no more was spent than the forecast tells. -/
structure Affords (rate bound : Nat) (o : Forecast) (g : Stage) : Prop where
  tokens : g.tokens.length ≤ bound
  cost : (rate : Int) * g.tokens.length ≤ rate * bound + o.cost

namespace Delivers

variable {a : Act ρ}

theorem covered (h : Delivers grammar rate a o os g) (hc : ∀ p ∈ os, Covered outs p) :
    Delivers grammar rate a o outs g := by
  obtain ⟨n, g', p, hp, hm, hf, hl, hn⟩ := h
  obtain ⟨q, hq, hw⟩ := hc p hp
  refine ⟨n, g', q, hq, hm, hf.weaken hw, hl, ?_⟩
  have := hw.cost
  omega

end Delivers

namespace Affords

theorem mono (h : Affords rate bound o g) (hl : g'.tokens.length ≤ g.tokens.length)
    (hc : (rate : Int) * g'.tokens.length + o.cost ≤ rate * g.tokens.length + p.cost) :
    Affords rate bound p g' :=
  ⟨Nat.le_trans hl h.tokens, by have := h.cost; omega⟩

theorem step (h : Affords rate bound o g) : Affords rate bound o.step g :=
  ⟨h.tokens, by have := h.cost; simp only [Forecast.step]; omega⟩

theorem of_cost (h : Affords rate bound o g) (hc : o.cost ≤ p.cost) : Affords rate bound p g :=
  ⟨h.tokens, by have := h.cost; omega⟩

end Affords

/-- A run of tokens up to one of a set is taken in two steps for each token. -/
theorem makes_takeUpTo (grammar : ρ → Act ρ) (stop : KindSet) (hg : g.Proper) :
    ∃ n g', Makes grammar (.takeUpTo stop) g n g' ∧ g'.Proper ∧
      (g.children ≠ [] → g'.children ≠ []) ∧ (.single .eof ∪ stop : KindSet).contains g'.kind ∧
      n + 2 * g'.tokens.length ≤ 2 * g.tokens.length + 1 := by
  induction hl : g.tokens.length using Nat.strongRecOn generalizing g with
  | ind l ih =>
    subst hl
    by_cases ht : (.single .eof ∪ stop : KindSet).contains g.kind = true
    · have hf : g.holds (.not (.kindIn (.single .eof ∪ stop))) = false := by
        rw [Stage.holds_outside, ht]
        rfl
      exact ⟨1, g, .stop hf, hg, id, ht, by omega⟩
    · have hf : g.holds (.not (.kindIn (.single .eof ∪ stop))) = true := by
        rw [Stage.holds_outside, eq_false_of_ne_true ht]
        rfl
      have hk : g.kind ≠ .eof := by
        intro hk
        simp [hk] at ht
      have hlen := hg.length_take hk
      obtain ⟨n, g', hm, hp, hc, hs, hn⟩ := ih _ (by omega) hg.take rfl
      refine ⟨1 + n + 1, g', .again hf .bump hm, hp, fun _ => ?_, hs, by omega⟩
      exact hc (Stage.take_children_ne_nil hk hg)

/-- If each round of a repetition advances, the repetition ends. -/
theorem makes_loop {test : Test} {body : Act ρ} {found : Option Bool}
    (hall : os.all (o.advances found) = true) (hfound : found ≠ some false)
    (hbody : ∀ g, (o.round test found).Fits g → Affords rate bound (o.round test found) g →
      Delivers grammar rate body (o.round test found) os g)
    (hg : g.Proper) (ha : Affords rate bound o g)
    (hfill : o.filled = some true → g.children ≠ []) (hloc : found = some true → g.AtBranch) :
    ∃ n g', Makes grammar (.repeatWhile test body) g n g' ∧
      g'.tokens.length ≤ g.tokens.length ∧ (g.holds test = false ∧ n = 1 ∧ g' = g ∨
        (repeated test found os).Fits g' ∧
        (n : Int) + rate * g'.tokens.length + o.cost ≤
          rate * g.tokens.length + (repeated test found os).cost) := by
  induction hl : g.tokens.length using Nat.strongRecOn generalizing g with
  | ind l ih =>
    subst hl
    cases ht : g.holds test with
    | false => exact ⟨1, g, .stop ht, by omega, .inl ⟨rfl, rfl, rfl⟩⟩
    | true =>
      have hround : (o.round test found).Fits g := .round hg ht hfill hfound hloc
      obtain ⟨n, g₁, p, hp, hm, hf, hlen, hn⟩ :=
        hbody g hround (ha.of_cost (by simp only [Forecast.round]; omega))
      have hadv := List.all_eq_true.mp hall p hp
      simp only [advances, Bool.and_eq_true, Bool.or_eq_true, decide_eq_true_eq,
        beq_iff_eq] at hadv
      obtain ⟨⟨hcost, hpf⟩, hpl⟩ := hadv
      have hfill₁ : g₁.children ≠ [] := by simpa using hf.filled true hpf
      have hloc₁ : found = some true → g₁.AtBranch := by
        intro h
        rcases hpl with h0 | h0
        · rw [h0] at h
          cases h
        · exact hf.located (h0.trans h)
      have hworst := cost_le_worst hp
      simp only [Forecast.round] at hn
      -- a round costs something, so a token was taken
      have hlt : g₁.tokens.length < g.tokens.length := by
        have h1 : (rate : Int) * g₁.tokens.length < rate * g.tokens.length := by omega
        have h2 : rate * g₁.tokens.length < rate * g.tokens.length := by exact_mod_cast h1
        exact Nat.lt_of_mul_lt_mul_left h2
      have ha₁ : Affords rate bound o g₁ := ha.mono hlen (by omega)
      obtain ⟨m, g', hm', hlen', hcase⟩ := ih _ hlt hf.proper ha₁ (fun _ => hfill₁) hloc₁ rfl
      refine ⟨n + m + 1, g', .again ht hm hm', by omega, .inr ?_⟩
      rcases hcase with ⟨hstop, rfl, rfl⟩ | ⟨hfit, hm''⟩
      · refine ⟨.repeated os hf.proper hstop hfill₁ hfound hloc₁, ?_⟩
        simp only [repeated]
        omega
      · refine ⟨hfit, ?_⟩
        omega

/-- What a token is worth. -/
theorem rate_mul_succ (rate : Nat) {x y : Nat} (h : x + 1 ≤ y) :
    (rate : Int) * x + rate ≤ rate * y := by
  have hm := Nat.mul_le_mul_left rate h
  rw [Nat.mul_add, Nat.mul_one] at hm
  exact_mod_cast hm

/-- Two steps for each token are not more than the tokens are worth. -/
theorem rate_mul_le {n x y : Nat} (hrate : 2 ≤ rate) (h : n + 2 * x ≤ 2 * y + 1) :
    (n : Int) + rate * x ≤ rate * y + 1 := by
  obtain ⟨d, rfl⟩ := Nat.exists_eq_add_of_le (show x ≤ y by omega)
  have hm := Nat.mul_le_mul_right d hrate
  have hd : n + rate * x ≤ rate * (x + d) + 1 := by
    rw [Nat.mul_add]
    omega
  exact_mod_cast hd

namespace Delivers

variable {a b body : Act ρ} {test : Test} {kind : Kind}

theorem andThen (h : Delivers grammar rate a o.step os g) (ha : Affords rate bound o g)
    (h' : ∀ p ∈ os, ∀ g', p.Fits g' → Affords rate bound p g' →
      Delivers grammar rate b p outs g') : Delivers grammar rate (.andThen a b) o outs g := by
  obtain ⟨m, g₁, p, hp, hm, hf, hl, hc⟩ := h
  simp only [Forecast.step] at hc
  obtain ⟨n, g₂, q, hq, hm', hf', hl', hc'⟩ := h' p hp g₁ hf (ha.mono hl (by omega))
  exact ⟨m + n + 1, g₂, q, hq, .andThen hm hm', hf', by omega, by omega⟩

theorem bump (hf : o.Fits g) :
    Delivers grammar rate .bump o
      ((if o.kinds.contains .eof then [{ o.step with kinds := .single .eof }] else []) ++
        (if (o.kinds.diff (.single .eof)).isEmpty then [] else [o.taken rate])) g := by
  by_cases hk : g.kind = .eof
  · have hkinds := hf.kinds
    rw [hk] at hkinds
    refine ⟨1, g.take, { o.step with kinds := .single .eof }, ?_, .bump, ?_, ?_, ?_⟩
    · simp [hkinds]
    · rw [Stage.take_eof hk]
      exact ⟨hf.proper, by simp [hk], hf.next, hf.filled, hf.located, hf.nothing⟩
    · exact Nat.le_of_eq (by rw [Stage.take_eof hk])
    · rw [Stage.take_eof hk]
      simp only [Forecast.step]
      omega
  · have hd : (o.kinds.diff (.single .eof)).contains g.kind = true := by
      simp [hf.kinds, hk]
    have hl := hf.proper.length_take hk
    have hr := rate_mul_succ rate hl
    refine ⟨1, g.take, o.taken rate, ?_, .bump, hf.take hk, by omega, ?_⟩
    · simp [KindSet.not_isEmpty hd]
    · simp only [Forecast.taken]
      omega

theorem recover {problem : Kind → Problem} {stop : KindSet} (hrate : 2 ≤ rate) (hf : o.Fits g)
    (hk : g.kind ≠ .eof) :
    Delivers grammar rate (.recover problem stop) o
      [⟨KindSet.recognized.inter (.single .eof ∪ stop), .all, some true, some true,
        o.cost + 3 - rate⟩] g := by
  have hp : (g.enter.report problem).Proper := hf.proper.enter.report problem
  have hk' : (g.enter.report problem).kind ≠ .eof := by rwa [Stage.report_kind]
  obtain ⟨n, g', hm, hp', hne, hs, hn⟩ := makes_takeUpTo grammar stop hp.take
  have hl := hp.length_take hk'
  rw [Stage.report_tokens, Stage.enter_tokens] at hl
  have h₁ := rate_mul_le hrate hn
  have h₂ := rate_mul_succ rate hl
  have hne' := hne (Stage.take_children_ne_nil hk' hp)
  refine ⟨n + 2, g.leave .error g', _, List.mem_singleton.mpr rfl, .recover hk hm, ?_, ?_, ?_⟩
  · refine ⟨Stage.Proper.leave hf.proper.full hp' hne' .error, ?_, KindSet.contains_all _,
      fun b hb => ?_, fun _ => ⟨rfl, _, _, _, rfl⟩, fun hb => by cases hb⟩
    · have hr := hp'.recognized
      rw [KindSet.contains_inter, KindSet.contains_recognized]
      exact Bool.and_eq_true_iff.mpr ⟨by simpa [Stage.leave, Stage.kind] using hr, hs⟩
    · obtain rfl : true = b := Option.some.inj hb
      simp [Stage.leave]
  · rw [Stage.leave_tokens]
    omega
  · rw [Stage.leave_tokens]
    show ((n + 2 : Nat) : Int) + rate * g'.tokens.length + o.cost ≤
      rate * g.tokens.length + (o.cost + 3 - rate)
    omega

theorem node (hf : o.Fits g) (h : Delivers grammar rate body o.inside os g.enter)
    (hc : close o.cost os = some outs) : Delivers grammar rate (.node kind body) o outs g := by
  obtain ⟨n, g', p, hp, hm, hf', hl, hn⟩ := h
  obtain ⟨hfill, q, hq, hw⟩ := mem_close hc hp
  have hne : g'.children ≠ [] := by simpa using hf'.filled true hfill
  have hcost := hw.cost
  simp only [Forecast.inside, Forecast.closed, Forecast.step] at hn hcost
  exact ⟨n + 2, g.leave kind g', q, hq, .node hm,
    (hf'.closed hf.proper.full hne kind).weaken hw, hl, by
      simp only [Stage.leave, Stage.enter] at hn ⊢; omega⟩

theorem nodeIfAny (hf : o.Fits g) (h : Delivers grammar rate body o.inside os g.enter)
    (hc : each o.cost (fun p => some (o.closedIfAny p)) os = some outs) :
    Delivers grammar rate (.nodeIfAny kind body) o outs g := by
  obtain ⟨n, g', p, hp, hm, hf', hl, hn⟩ := h
  obtain ⟨qs, hqs, hcov⟩ := covered_each hc hp
  obtain rfl := Option.some.inj hqs
  simp only [Forecast.inside, Forecast.step] at hn
  by_cases hne : g'.children = []
  · have hpf : p.filled ≠ some true := fun h0 => by
      have hb := hf'.filled true h0
      simp [hne] at hb
    refine .covered ⟨n + 2, _, { p.step with filled := o.filled, found := some false }, ?_,
      .nodeIfNone hm hne, ?_, hl, ?_⟩ hcov
    · simp [closedIfAny, hpf]
    · exact ⟨⟨hf'.proper.ended, hf'.proper.recognized, hf.proper.full⟩, hf'.kinds, hf'.next,
        hf.filled, by simp, fun _ => rfl⟩
    · simp only [Forecast.step, Stage.enter] at hn ⊢
      omega
  · have hpf : p.filled ≠ some false := fun h0 => by
      have hb := hf'.filled false h0
      simp [hne] at hb
    refine .covered ⟨n + 2, g.leave kind g', p.closed, ?_, .nodeIfAny hm hne,
      hf'.closed hf.proper.full hne kind, hl, ?_⟩ hcov
    · simp [closedIfAny, hpf]
    · simp only [Forecast.closed, Forecast.step, Stage.leave, Stage.enter] at hn ⊢
      omega

/-- A branch around the branch found last begins with it, so it is never empty. -/
theorem wrap {before children : List Sprout} {k : Kind} (hf : o.Fits g) (hlast : g.found = .last)
    (hc : g.children = before ++ [.branch k children])
    (h : Delivers grammar rate body o.around os
      { g with children := [.branch k children], found := .earlier })
    (hcl : close o.cost os = some outs) : Delivers grammar rate (.wrap kind body) o outs g := by
  obtain ⟨n, g', p, hp, hm, hf', hl, hn⟩ := h
  obtain ⟨hfill, q, hq, hw⟩ := mem_close hcl hp
  have hne : g'.children ≠ [] := by simpa using hf'.filled true hfill
  have hcost := hw.cost
  have hfull : ∀ c ∈ ({ g with children := before } : Stage).children, c.Full := fun c hmem =>
    hf.proper.full c (by rw [hc]; exact List.mem_append_left _ hmem)
  simp only [Forecast.around, Forecast.closed, Forecast.step] at hn hcost
  exact ⟨n + 2, _, q, hq, .wrap hlast hc hm, (hf'.closed hfull hne kind).weaken hw, hl, by
    simp only [Stage.leave] at hn ⊢; omega⟩

/-- A test has one answer, and the forecasts for the other one do not matter. -/
theorem branch {answer : Bool} {f : Forecast → Option (List Forecast)} (hf : o.Fits g)
    (ha : Affords rate bound o g) (ht : g.holds test = answer)
    (hos : each o.cost f (o.step.assume answer test) = some os)
    (h : ∀ p ps, f p = some ps → p.Fits g → Affords rate bound p g →
      Delivers grammar rate (if g.holds test then a else b) p ps g)
    (hcov : ∀ p ∈ os, Covered outs p) : Delivers grammar rate (.branch test a b) o outs g := by
  obtain ⟨p, hp, hpf, hpc⟩ := hf.assume_step ht
  obtain ⟨ps, hps, hc⟩ := covered_each hos hp
  obtain ⟨n, g', q, hq, hm, hqf, hl, hn⟩ := h p ps hps hpf (ha.of_cost (by omega))
  refine .covered ⟨n + 1, g', q, hq, .branch hm, hqf, hl, by omega⟩ fun r hr => ?_
  exact (hc r hr).trans hcov

theorem stop (hf : o.Fits g) (ht : g.holds test = false) :
    Delivers grammar rate (.repeatWhile test body) o (o.step.assume false test) g := by
  obtain ⟨p, hp, hpf, hpc⟩ := hf.assume_step ht
  exact ⟨1, g, p, hp, .stop ht, hpf, Nat.le_refl _, by omega⟩

/-- A repetition whose body advances in each round. -/
theorem loop {found : Option Bool} {f : Forecast → Option (List Forecast)} (hf : o.Fits g)
    (ha : Affords rate bound o g) (h : o.loop test f found = some outs)
    (hbody : ∀ p ps g, f p = some ps → p.Fits g → Affords rate bound p g →
      Delivers grammar rate body p ps g)
    (hfound : found ≠ some false) (hloc : found = some true → g.AtBranch) :
    Delivers grammar rate (.repeatWhile test body) o outs g := by
  simp only [Forecast.loop, Option.bind_eq_some_iff, Option.ite_none_right_eq_some] at h
  obtain ⟨os, hos, hall, h⟩ := h
  obtain rfl := Option.some.inj h
  have hm := covered_merge o.cost (o.step.assume false test) [repeated test found os]
  have hfill : o.filled = some true → g.children ≠ [] := fun hb => by
    simpa using hf.filled true hb
  obtain ⟨n, g', hmk, hl, hcase⟩ := makes_loop hall hfound
    (fun g hf ha => hbody _ _ g hos hf ha) hf.proper ha hfill hloc
  rcases hcase with ⟨ht, -, -⟩ | ⟨hfit, hn⟩
  · exact (stop hf ht).covered hm.1
  · exact .covered ⟨n, g', _, List.mem_singleton.mpr rfl, hmk, hfit, hl, hn⟩ hm.2

end Delivers

/-- Forecasts come true, if those of calls do. -/
theorem Act.forecasts_sound (a : Act ρ) (hrate : 2 ≤ rate)
    (hcalls : ∀ rule o outs g, calls rule o = some outs → o.Fits g → Affords rate bound o g →
      Delivers grammar rate (.call rule) o outs g)
    (h : a.forecasts calls rate o = some outs) (hf : o.Fits g) (ha : Affords rate bound o g) :
    Delivers grammar rate a o outs g := by
  induction a generalizing o outs g with
  | done =>
    obtain rfl := Option.some.inj h
    exact ⟨1, g, o.step, by simp, .done, hf.step, Nat.le_refl _, by simp only [step]; omega⟩
  | andThen a b iha ihb =>
    simp only [forecasts, Option.bind_eq_some_iff] at h
    obtain ⟨os, hos, hb⟩ := h
    refine (iha hos hf.step ha.step).andThen ha fun p hp g' hf' ha' => ?_
    obtain ⟨ps, hps, hcov⟩ := covered_each hb hp
    exact (ihb hps hf' ha').covered hcov
  | require test =>
    simp only [forecasts, Option.ite_none_right_eq_some] at h
    obtain ⟨he, h⟩ := h
    obtain rfl := Option.some.inj h
    cases ht : g.holds test with
    | true =>
      exact ⟨1, g, o.step, by simp, .require ht, hf.step, Nat.le_refl _, by simp only [step]; omega⟩
    | false =>
      obtain ⟨p, hp, -⟩ := hf.assume ht
      rw [List.isEmpty_iff.mp he] at hp
      cases hp
  | bump =>
    obtain rfl := Option.some.inj h
    exact .bump hf
  | missing what =>
    obtain rfl := Option.some.inj h
    exact ⟨1, g.miss what, _, List.mem_singleton.mpr rfl, .missing, hf.miss what, Nat.le_refl _,
      by simp only [step, Stage.miss]; omega⟩
  | recover problem stop =>
    simp only [forecasts, Option.ite_none_left_eq_some] at h
    obtain ⟨he, h⟩ := h
    obtain rfl := Option.some.inj h
    exact .recover hrate hf fun hk => he (hk ▸ hf.kinds)
  | node kind body ih =>
    simp only [forecasts, Option.bind_eq_some_iff] at h
    obtain ⟨os, hos, hc⟩ := h
    exact .node hf (ih hos hf.inside ⟨ha.tokens, ha.step.cost⟩) hc
  | nodeIfAny kind body ih =>
    simp only [forecasts, Option.bind_eq_some_iff] at h
    obtain ⟨os, hos, hc⟩ := h
    exact .nodeIfAny hf (ih hos hf.inside ⟨ha.tokens, ha.step.cost⟩) hc
  | wrap kind body ih =>
    simp only [forecasts, Option.ite_none_right_eq_some, Option.bind_eq_some_iff] at h
    obtain ⟨hfound, os, hos, hc⟩ := h
    obtain ⟨hlast, before, k, children, hcs⟩ := hf.located hfound
    exact .wrap hf hlast hcs (ih hos (hf.around hcs) ⟨ha.tokens, ha.step.cost⟩) hc
  | decline =>
    obtain rfl := Option.some.inj h
    exact ⟨1, { g with found := .nothing }, _, List.mem_singleton.mpr rfl, .decline, hf.decline,
      Nat.le_refl _, by simp only [step]; omega⟩
  | branch test yes no ihy ihn =>
    simp only [forecasts, Option.bind_eq_some_iff, Option.map_eq_some_iff] at h
    obtain ⟨os, hos, ps, hps, rfl⟩ := h
    have hm := covered_merge o.cost os ps
    cases ht : g.holds test with
    | true =>
      refine .branch hf ha ht hos (fun p qs hqs hpf hpa => ?_) hm.1
      rw [if_pos ht]
      exact ihy hqs hpf hpa
    | false =>
      refine .branch hf ha ht hps (fun p qs hqs hpf hpa => ?_) hm.2
      rw [if_neg (by simp [ht])]
      exact ihn hqs hpf hpa
  | byKind choose ih =>
    obtain ⟨os, hos, hcov⟩ := covered_each h (KindSet.mem_members hf.kinds)
    obtain ⟨n, g', q, hq, hmk, hqf, hl, hn⟩ := ih g.kind hos hf.ofKind ⟨ha.tokens, ha.step.cost⟩
    simp only [step] at hn
    exact .covered ⟨n + 1, g', q, hq, .byKind hmk, hqf, hl, by omega⟩ hcov
  | repeatWhile test body ih =>
    have hbody (p : Forecast) (ps : List Forecast) (g : Stage)
        (h : body.forecasts calls rate p = some ps) (hf : p.Fits g) (ha : Affords rate bound p g) :
        Delivers grammar rate body p ps g := ih h hf ha
    simp only [forecasts] at h
    split at h
    · next he =>
      -- the test cannot hold, so the repetition is over
      obtain rfl := Option.some.inj h
      cases ht : g.holds test with
      | false => exact .stop hf ht
      | true =>
        obtain ⟨p, hp, -⟩ := hf.assume ht
        rw [List.isEmpty_iff.mp he] at hp
        cases hp
    · -- first it is tried with what was found before, then without
      rcases Option.or_eq_some_iff.mp h with h | ⟨-, h⟩
      · refine .loop hf ha h hbody ?_ ?_
        · split <;> simp
        · split
          · next hb => exact fun _ => hf.located hb
          · simp
      · exact .loop hf ha h hbody (by simp) (by simp)
  | call rule => exact hcalls rule o outs g h hf ha

end PhpSyntax
