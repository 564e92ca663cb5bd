import PhpSyntax.Proofs.Stages

/-!
What an action does to the innermost open branch: it adds children behind those that are there, and
they may be any others. Only the branch found last is taken up again.
-/
namespace PhpSyntax

/-- Something was found in both cases or in none, and what is at hand in the first is in the second. -/
structure Found.Rises (f f' : Found) : Prop where
  bury : f'.bury = f.bury
  last : f = .last → f' = .last

theorem Found.Rises.refl (f : Found) : f.Rises f := ⟨rfl, id⟩

theorem Found.earlier_rises : earlier.Rises last := ⟨rfl, nofun⟩

namespace Stage

/-- The stage with the children `cs` in place of its own. -/
def on (g : Stage) (cs : List Sprout) : Stage := { g with children := cs }

/-- The children of the stage are `own` behind `base`, and the branch found last is among `own`. -/
structure Over (base own : List Sprout) (g : Stage) : Prop where
  children : g.children = base ++ own
  own_ne_nil : g.found = .last → own ≠ []

variable {base own cs : List Sprout} {g g' : Stage}

theorem over_nil (h : g.found ≠ .last) : g.Over g.children [] :=
  ⟨(List.append_nil _).symm, fun hf => absurd hf h⟩

@[simp] theorem on_children (g : Stage) (cs : List Sprout) : (g.on cs).children = cs := rfl

@[simp] theorem on_self (g : Stage) : g.on g.children = g := rfl

/-- The stage with `f` found. -/
def having (g : Stage) (f : Found) : Stage := { g with found := f }

theorem having_eq {f : Found} (h : g.found = f) : g.having f = g := by
  subst h
  rfl

section Rises

variable {f : Found} (h : g.found.Rises f)

include h

theorem holds_having (test : Test) : (g.having f).holds test = g.holds test := by
  have hany : f.any = g.found.any := by rw [← Found.any_bury, h.bury, Found.any_bury]
  show test.holds g.tokens f.any = _
  rw [hany]
  rfl

theorem enter_having : (g.having f).enter = g.enter := congrArg g.enter.having h.bury

theorem exists_take_having : ∃ f', g.take.found.Rises f' ∧ (g.having f).take = g.take.having f' := by
  obtain ⟨tokens, children, diagnostics, lastEnd, found⟩ := g
  cases tokens with
  | nil => exact ⟨f, h, rfl⟩
  | cons t rest =>
    by_cases ht : t.kind = .eof
    · have htake : ∀ f, (Stage.mk (t :: rest) children diagnostics lastEnd f).take =
          ⟨t :: rest, children, diagnostics, lastEnd, f⟩ := fun f => if_pos ht
      rw [having, htake, htake]
      exact ⟨f, h, rfl⟩
    · have htake : ∀ f, (Stage.mk (t :: rest) children diagnostics lastEnd f).take = _ :=
        fun f => if_neg ht
      rw [having, htake, htake, h.bury]
      exact ⟨_, .refl _, rfl⟩

end Rises

/-- Taking a token adds the same children behind any. -/
theorem exists_take (g : Stage) : ∃ more, (∀ cs, (g.on cs).take = g.take.on (cs ++ more)) ∧
    g.take.children = g.children ++ more ∧ (g.take.found = .last → g.found = .last) := by
  obtain ⟨tokens, children, diagnostics, lastEnd, found⟩ := g
  cases tokens with
  | nil =>
    have htake : ∀ cs, (on ⟨[], children, diagnostics, lastEnd, found⟩ cs).take =
        (Stage.take ⟨[], children, diagnostics, lastEnd, found⟩).on (cs ++ []) := fun cs => by
      rw [List.append_nil]
      rfl
    exact ⟨[], htake, (List.append_nil _).symm, id⟩
  | cons t rest =>
    by_cases ht : t.kind = .eof
    · have htake : ∀ cs, (Stage.mk (t :: rest) cs diagnostics lastEnd found).take =
          ⟨t :: rest, cs, diagnostics, lastEnd, found⟩ := fun cs => if_pos ht
      refine ⟨[], fun cs => ?_, ?_, ?_⟩
      · rw [htake, List.append_nil]
        exact htake cs
      · rw [htake, List.append_nil]
      · rw [htake]
        exact id
    · have htake : ∀ cs, (Stage.mk (t :: rest) cs diagnostics lastEnd found).take = _ :=
        fun cs => if_neg ht
      refine ⟨.token t :: Sprout.aside (rest.takeWhile Token.isSkipped), fun cs => ?_, ?_, ?_⟩
      · rw [htake]
        exact htake cs
      · rw [htake]
      · rw [htake]
        exact fun hf => absurd hf (Found.bury_ne_last _)

end Stage

variable {ρ : Type} {grammar : ρ → Act ρ} {a : Act ρ} {g g' : Stage} {n : Nat}
  {base own : List Sprout}

/-- The children before those an action works on stay, and could be any others. -/
theorem Makes.framed (h : Makes grammar a g n g') (hg : g.Over base own) :
    ∃ own', g'.Over base own' ∧
      ∀ base', Makes grammar a (g.on (base' ++ own)) n (g'.on (base' ++ own')) := by
  induction h generalizing base own with
  | done => exact ⟨own, hg, fun _ => .done⟩
  | require ht => exact ⟨own, hg, fun _ => .require ht⟩
  | stop ht => exact ⟨own, hg, fun _ => .stop ht⟩
  | decline => exact ⟨own, ⟨hg.children, nofun⟩, fun _ => .decline⟩
  | @bump g =>
    obtain ⟨more, htake, hc, hf⟩ := g.exists_take
    refine ⟨own ++ more, ⟨?_, fun hl => ?_⟩, fun base' => ?_⟩
    · rw [hc, hg.children, List.append_assoc]
    · exact List.append_ne_nil_of_left_ne_nil (hg.own_ne_nil (hf hl)) _
    · rw [← List.append_assoc, ← htake]
      exact .bump
  | @missing what g =>
    refine ⟨own ++ [.missing g.lastEnd], ⟨?_, by simp⟩, fun base' => ?_⟩
    · exact (congrArg (· ++ _) hg.children).trans (List.append_assoc ..)
    · rw [← List.append_assoc]
      exact .missing
  | andThen _ _ ih₁ ih₂ =>
    obtain ⟨own₁, h₁, hm₁⟩ := ih₁ hg
    obtain ⟨own₂, h₂, hm₂⟩ := ih₂ h₁
    exact ⟨own₂, h₂, fun base' => .andThen (hm₁ base') (hm₂ base')⟩
  | again ht _ _ ih₁ ih₂ =>
    obtain ⟨own₁, h₁, hm₁⟩ := ih₁ hg
    obtain ⟨own₂, h₂, hm₂⟩ := ih₂ h₁
    exact ⟨own₂, h₂, fun base' => .again ht (hm₁ base') (hm₂ base')⟩
  | @recover problem stop g n g' hk loop =>
    refine ⟨own ++ [.branch .error g'.children], ⟨?_, by simp⟩, fun base' => ?_⟩
    · exact (congrArg (· ++ _) hg.children).trans (List.append_assoc ..)
    · rw [← List.append_assoc]
      exact .recover (g := g.on (base' ++ own)) hk loop
  | @node kind body g n g' inner =>
    refine ⟨own ++ [.branch kind g'.children], ⟨?_, by simp⟩, fun base' => ?_⟩
    · exact (congrArg (· ++ _) hg.children).trans (List.append_assoc ..)
    · rw [← List.append_assoc]
      exact .node (g := g.on (base' ++ own)) inner
  | @nodeIfAny kind body g n g' inner hn =>
    refine ⟨own ++ [.branch kind g'.children], ⟨?_, by simp⟩, fun base' => ?_⟩
    · exact (congrArg (· ++ _) hg.children).trans (List.append_assoc ..)
    · rw [← List.append_assoc]
      exact .nodeIfAny (g := g.on (base' ++ own)) inner hn
  | @nodeIfNone kind body g n g' inner hn =>
    have hm : ∀ base', Makes grammar (.nodeIfAny kind body) (g.on (base' ++ own)) (n + 2)
        { g' with children := base' ++ own, found := .nothing } := fun base' =>
      Makes.nodeIfNone (g := g.on (base' ++ own)) (show Makes grammar body g.enter n g' from inner) hn
    exact ⟨own, ⟨hg.children, nofun⟩, hm⟩
  | @wrap kind body g n g' before k cs hf hl inner =>
    -- the branch that is wrapped is the last of `own`
    obtain ⟨front, c, rfl⟩ : ∃ front c, own = front ++ [c] :=
      ⟨_, _, (List.dropLast_concat_getLast (hg.own_ne_nil hf)).symm⟩
    have he := hl.symm.trans (hg.children.trans (List.append_assoc ..).symm)
    obtain ⟨hbefore, hc⟩ := List.append_inj' he rfl
    obtain rfl := List.singleton_inj.mp hc
    refine ⟨front ++ [.branch kind g'.children], ⟨?_, by simp⟩, fun base' => ?_⟩
    · rw [← List.append_assoc, ← hbefore]
      rfl
    · rw [← List.append_assoc, ← List.append_assoc]
      exact .wrap (g := g.on (base' ++ front ++ [.branch k cs])) hf rfl inner
  | branch _ ih =>
    obtain ⟨own', h', hm⟩ := ih hg
    exact ⟨own', h', fun base' => .branch (hm base')⟩
  | byKind _ ih =>
    obtain ⟨own', h', hm⟩ := ih hg
    exact ⟨own', h', fun base' => .byKind (hm base')⟩
  | call _ ih =>
    obtain ⟨own', h', hm⟩ := ih hg
    exact ⟨own', h', fun base' => .call (hm base')⟩

/-- What an action does with a branch out of reach, it does with that branch at hand. -/
theorem Makes.raise (h : Makes grammar a g n g') {f : Found} (hf : g.found.Rises f) :
    ∃ f', g'.found.Rises f' ∧ Makes grammar a (g.having f) n (g'.having f') := by
  induction h generalizing f with
  | done => exact ⟨f, hf, .done⟩
  | require ht => exact ⟨f, hf, .require ((Stage.holds_having hf _).trans ht)⟩
  | stop ht => exact ⟨f, hf, .stop ((Stage.holds_having hf _).trans ht)⟩
  | decline => exact ⟨.nothing, .refl _, .decline⟩
  | @bump g =>
    obtain ⟨f', hf', htake⟩ := Stage.exists_take_having hf
    exact ⟨f', hf', htake ▸ .bump⟩
  | @missing what g =>
    have hmiss : (g.having f).miss what = (g.miss what).having g.found.bury :=
      congrArg (g.miss what).having hf.bury
    exact ⟨_, .refl _, hmiss ▸ .missing⟩
  | andThen _ _ ih₁ ih₂ =>
    obtain ⟨f₁, h₁, hm₁⟩ := ih₁ hf
    obtain ⟨f₂, h₂, hm₂⟩ := ih₂ h₁
    exact ⟨f₂, h₂, .andThen hm₁ hm₂⟩
  | again ht _ _ ih₁ ih₂ =>
    obtain ⟨f₁, h₁, hm₁⟩ := ih₁ hf
    obtain ⟨f₂, h₂, hm₂⟩ := ih₂ h₁
    exact ⟨f₂, h₂, .again ((Stage.holds_having hf _).trans ht) hm₁ hm₂⟩
  | @recover problem stop g n g' hk loop =>
    rw [← Stage.enter_having hf] at loop
    exact ⟨.last, .refl _, Makes.recover (g := g.having f) hk loop⟩
  | @node kind body g n g' inner =>
    rw [← Stage.enter_having hf] at inner
    exact ⟨.last, .refl _, Makes.node (g := g.having f) inner⟩
  | @nodeIfAny kind body g n g' inner hn =>
    rw [← Stage.enter_having hf] at inner
    exact ⟨.last, .refl _, Makes.nodeIfAny (g := g.having f) inner hn⟩
  | @nodeIfNone kind body g n g' inner hn =>
    rw [← Stage.enter_having hf] at inner
    have hm : Makes grammar (.nodeIfAny kind body) (g.having f) (n + 2)
        { g' with children := g.children, found := .nothing } :=
      Makes.nodeIfNone (g := g.having f) inner hn
    exact ⟨.nothing, .refl _, hm⟩
  | @wrap kind body g n g' before k cs hlast hl inner =>
    obtain rfl : f = .last := hf.last hlast
    exact ⟨.last, .refl _, Makes.wrap (g := g.having .last) rfl hl inner⟩
  | @branch test yes no g n g' _ ih =>
    obtain ⟨f', h', hm⟩ := ih hf
    exact ⟨f', h', .branch (by rwa [Stage.holds_having hf])⟩
  | byKind _ ih =>
    obtain ⟨f', h', hm⟩ := ih hf
    exact ⟨f', h', .byKind hm⟩
  | call _ ih =>
    obtain ⟨f', h', hm⟩ := ih hf
    exact ⟨f', h', .call hm⟩

end PhpSyntax
