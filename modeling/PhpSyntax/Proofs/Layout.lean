import Mathlib.Logic.ExistsUnique
import PhpSyntax.Proofs.Plans
import PhpSyntax.Proofs.Visiting

/-!
What a builder makes of its steps: elements that are numbered in preorder and lie side by side in
the text, and whose plan the steps are. A builder accepts the steps of every plan that fits its text
and no others.
-/
namespace PhpSyntax

/-- How far a text and its tree have come: what is left of the text, how many bytes are covered, how
many branches and leaves there are. -/
structure Tally where
  rest : List Char
  covered : Nat
  branches : Nat
  leaves : Nat

namespace Tally

def start (text : List Char) : Tally := ⟨text, 0, 0, 0⟩

/-- The tally inside a new branch. -/
def enter (a : Tally) : Tally := { a with branches := a.branches + 1 }

end Tally

namespace Element

/-- What was planned when an element was built. -/
def plan : Element → Plan
  | leaf l => .leaf l.kind l.leading l.width
  | branch b es => .branch b.kind (es.map plan)

theorem plan_leaf (l : Leaf) : (leaf l).plan = .leaf l.kind l.leading l.width := by rw [plan]

theorem plan_branch (b : Branch) (es : List Element) :
    (branch b es).plan = .branch b.kind (es.map plan) := by rw [plan]

/-- Elements that a builder makes one after the other: from one tally to another. -/
inductive Laid : Tally → List Element → Tally → Prop where
  | nil {a} : Laid a [] a
  | leaf {kind leading width text rest covered branches leaves es b}
    (isToken : kind.isToken = true) (notTrivia : kind.isTrivia = false)
    (wide : Text.width text = TriviaPiece.totalWidth leading + width)
    (tail : Laid ⟨rest, covered + (TriviaPiece.totalWidth leading + width), branches, leaves + 1⟩
      es b) :
    Laid ⟨text ++ rest, covered, branches, leaves⟩
      (.leaf ⟨kind, leaves, covered, leading, width, text⟩ :: es) b
  | branch {kind a cs m es b} (isNode : kind.isNode = true) (nonempty : cs ≠ [])
    (inner : Laid a.enter cs m) (tail : Laid m es b) :
    Laid a (.branch ⟨kind, a.branches, .ofLength a.covered (m.covered - a.covered)⟩ cs :: es) b

variable {a b c : Tally} {es fs : List Element}

theorem Laid.append (h : Laid a es b) (h' : Laid b fs c) : Laid a (es ++ fs) c := by
  induction h with
  | nil => exact h'
  | leaf isToken notTrivia wide _ ih => exact .leaf isToken notTrivia wide (ih h')
  | branch isNode nonempty inner _ _ ih => exact .branch isNode nonempty inner (ih h')

theorem Laid.branches_le (h : Laid a es b) : a.branches ≤ b.branches := by
  induction h with
  | nil => exact Nat.le_refl _
  | leaf _ _ _ _ ih => exact ih
  | branch _ _ _ _ ihi iht => exact Nat.le_trans (Nat.le_of_succ_le ihi) iht

/-- The elements take what is no longer left of the text. -/
theorem Laid.covers (h : Laid a es b) : ∃ front, a.rest = front ++ b.rest ∧
    b.covered = a.covered + Text.width front ∧
    ((es.map plan).flatMap Plan.widths).sum = Text.width front := by
  induction h with
  | nil => exact ⟨[], rfl, rfl, rfl⟩
  | @leaf _ _ _ text _ _ _ _ _ _ _ _ wide _ ih =>
    obtain ⟨front, hrest, hcovered, hsum⟩ := ih
    dsimp only at hrest hcovered
    refine ⟨text ++ front, by rw [List.append_assoc, ← hrest], ?_, ?_⟩
    · rw [hcovered, Text.width_append, wide, Nat.add_assoc]
    · rw [List.map_cons, List.flatMap_cons, plan_leaf, Plan.widths_leaf, List.singleton_append,
        List.sum_cons, hsum, Text.width_append, wide]
  | branch _ _ _ _ ihi iht =>
    obtain ⟨front, hrest, hcovered, hsum⟩ := ihi
    obtain ⟨back, hrest', hcovered', hsum'⟩ := iht
    refine ⟨front ++ back, ?_, ?_, ?_⟩
    · rw [List.append_assoc, ← hrest']
      exact hrest
    · rw [hcovered', hcovered, Text.width_append, Nat.add_assoc]
      rfl
    · rw [List.map_cons, List.flatMap_cons, plan_branch, Plan.widths_branch, List.sum_append_nat,
        hsum, hsum', Text.width_append]

theorem Laid.proper (h : Laid a es b) : ∀ e ∈ es, e.plan.Proper := by
  induction h with
  | nil => simp
  | leaf isToken notTrivia _ _ ih =>
    refine List.forall_mem_cons.mpr ⟨?_, ih⟩
    rw [plan_leaf]
    exact .leaf isToken notTrivia
  | branch isNode nonempty _ _ ihi iht =>
    refine List.forall_mem_cons.mpr ⟨?_, iht⟩
    rw [plan_branch]
    refine .branch isNode (by simpa using nonempty) fun c hc => ?_
    obtain ⟨e, he, rfl⟩ := List.mem_map.mp hc
    exact ihi e he

/-- Every leaf ends at a boundary of the text. -/
theorem Laid.boundary (h : Laid a es b) (k : Nat) :
    Text.IsBoundary (((es.map plan).flatMap Plan.widths).take k).sum a.rest := by
  induction h generalizing k with
  | nil => simpa using Text.isBoundary_zero _
  | @leaf kind leading width text rest _ _ _ es _ _ _ wide _ ih =>
    cases k with
    | zero => exact Text.isBoundary_zero _
    | succ k =>
      rw [List.map_cons, List.flatMap_cons, plan_leaf, Plan.widths_leaf, List.singleton_append,
        List.take_succ_cons, List.sum_cons, ← wide]
      exact (ih k).append_left text
  | @branch kind a cs m es b _ _ inner _ ihi iht =>
    obtain ⟨front, hrest, -, hsum⟩ := inner.covers
    have hrest : a.rest = front ++ m.rest := hrest
    rw [List.map_cons, List.flatMap_cons, plan_branch, Plan.widths_branch, List.take_append,
      List.sum_append_nat]
    rcases Nat.le_total k ((cs.map plan).flatMap Plan.widths).length with hk | hk
    · rw [Nat.sub_eq_zero_of_le hk, List.take_zero, List.sum_nil, Nat.add_zero]
      exact ihi k
    · rw [List.take_of_length_le hk, hsum, hrest]
      exact (iht _).append_left front

/-- A list of plans that fits a text can be laid out in it. -/
theorem exists_laid_list {ps : List Plan}
    (hps : ∀ p ∈ ps, p.Proper → ∀ a : Tally,
      (∀ k, Text.IsBoundary (p.widths.take k).sum a.rest) → ∃ e b, Laid a [e] b ∧ e.plan = p)
    (hp : ∀ p ∈ ps, p.Proper) (a : Tally)
    (hb : ∀ k, Text.IsBoundary ((ps.flatMap Plan.widths).take k).sum a.rest) :
    ∃ es b, Laid a es b ∧ es.map plan = ps := by
  induction ps generalizing a with
  | nil => exact ⟨[], a, .nil, rfl⟩
  | cons p ps ih =>
    obtain ⟨hfirst, hps⟩ := List.forall_mem_cons.mp hps
    obtain ⟨hproper, hp⟩ := List.forall_mem_cons.mp hp
    rw [List.flatMap_cons] at hb
    have hbp (k : Nat) : Text.IsBoundary (p.widths.take k).sum a.rest := by
      rcases Nat.le_total k p.widths.length with hk | hk
      · have h := hb k
        rwa [List.take_append_of_le_length hk] at h
      · have h := hb p.widths.length
        rw [List.take_append_of_le_length (Nat.le_refl _)] at h
        rwa [List.take_of_length_le hk, ← List.take_length (l := p.widths)]
    obtain ⟨e, m, he, hplan⟩ := hfirst hproper a hbp
    obtain ⟨front, hrest, -, hsum⟩ := he.covers
    have hsum : p.widths.sum = Text.width front := by simpa [hplan] using hsum
    have hbps (k : Nat) : Text.IsBoundary ((ps.flatMap Plan.widths).take k).sum m.rest := by
      have h := hb (p.widths.length + k)
      rw [List.take_length_add_append, List.sum_append_nat, hsum, hrest] at h
      exact h.of_append_left
    obtain ⟨es, b, hes, hplans⟩ := ih hps hp m hbps
    exact ⟨e :: es, b, he.append hes, by rw [List.map_cons, hplan, hplans]⟩

theorem exists_laid (p : Plan) : p.Proper → ∀ a : Tally,
    (∀ k, Text.IsBoundary (p.widths.take k).sum a.rest) → ∃ e b, Laid a [e] b ∧ e.plan = p := by
  induction p using Plan.induct with
  | leaf kind leading width =>
    intro hp a hb
    cases hp with
    | leaf isToken notTrivia =>
      obtain ⟨rest, covered, branches, leaves⟩ := a
      obtain ⟨front, back, rfl, hw⟩ := hb 1
      rw [Plan.widths_leaf, List.take_succ_cons, List.take_zero, List.sum_cons, List.sum_nil,
        Nat.add_zero] at hw
      exact ⟨_, _, .leaf isToken notTrivia hw .nil, plan_leaf _⟩
  | branch kind children ih =>
    intro hp a hb
    cases hp with
    | branch isNode nonempty proper =>
      rw [Plan.widths_branch] at hb
      obtain ⟨es, m, hes, hplans⟩ := exists_laid_list ih proper a.enter hb
      have hne : es ≠ [] := by
        rintro rfl
        exact nonempty hplans.symm
      exact ⟨_, m, .branch isNode hne hes .nil, by rw [plan_branch, hplans]⟩

end Element

namespace Builder

open Element (Laid)

/-- How far a builder has come. -/
def tally (b : Builder) : Tally := ⟨b.rest, b.covered, b.branches, b.leaves⟩

/-- The open branches, the innermost first: each is numbered and begins where the children so far of
the one around it end. -/
inductive Stack (a : Tally) : List OpenBranch → Tally → Prop where
  | nil : Stack a [] a
  | cons {top up m b} (outer : Stack a up m) (isNode : top.kind.isNode = true)
    (index : top.index = m.branches) (start : top.start = m.covered)
    (inner : Laid m.enter top.children.reverse b) : Stack a (top :: up) b

/-- The steps that some elements are planned by. -/
def listing (es : List Element) : List BuildStep := (es.map Element.plan).flatMap Plan.steps

@[simp] theorem listing_nil : listing [] = [] := rfl

theorem listing_append (es fs : List Element) : listing (es ++ fs) = listing es ++ listing fs := by
  rw [listing, List.map_append, List.flatMap_append]
  rfl

theorem listing_leaf (l : Leaf) (es : List Element) :
    listing (.leaf l :: es) = .token l.leading l.kind l.width :: listing es := by
  rw [listing, List.map_cons, List.flatMap_cons, Element.plan_leaf, Plan.steps_leaf]
  rfl

theorem listing_branch (b : Branch) (es fs : List Element) : listing (.branch b es :: fs) =
    .startNode b.kind :: listing es ++ .finishNode :: listing fs := by
  rw [listing, List.map_cons, List.flatMap_cons, Element.plan_branch, Plan.steps_branch,
    List.append_assoc]
  rfl

/-- The steps that led into some open branches. -/
def trail : List OpenBranch → List BuildStep
  | [] => []
  | top :: up => trail up ++ .startNode top.kind :: listing top.children.reverse

/-- What a builder holds after some steps on a text: open branches that the steps led into, or a
whole tree that they list. -/
inductive Holds (text : List Char) (steps : List BuildStep) (b : Builder) : Prop where
  | growing (overText : b.text = text) (root : b.root = none)
    (stack : Stack (.start text) b.opened b.tally)
    (steps_eq : steps.map BuildStep.plain = trail b.opened)
  | grown {branch children} (overText : b.text = text) (root : b.root = some (branch, children))
    (opened : b.opened = []) (laid : Laid (.start text) [.branch branch children] b.tally)
    (steps_eq : steps.map BuildStep.plain = listing [.branch branch children])

variable {text : List Char} {steps : List BuildStep} {b b' : Builder}

theorem holds_start (text : List Char) : (start text).Holds text [] :=
  .growing rfl rfl .nil rfl

/-- What a builder holds tells nothing of a missing token but that it is one. -/
theorem Holds.congr {steps' : List BuildStep} (h : b.Holds text steps)
    (hs : steps'.map BuildStep.plain = steps.map BuildStep.plain) : b.Holds text steps' := by
  cases h with
  | growing overText root stack steps_eq => exact .growing overText root stack (hs.trans steps_eq)
  | grown overText root opened laid steps_eq =>
    exact .grown overText root opened laid (hs.trans steps_eq)

theorem Holds.startNode {kind : Kind} (h : b.Holds text steps)
    (hs : b.startNode kind = .ok b') : b'.Holds text (steps ++ [.startNode kind]) := by
  unfold Builder.startNode at hs
  split at hs
  · cases hs
  next hkind =>
  split at hs
  · cases hs
  next hroot =>
  obtain rfl := Except.ok.inj hs
  cases h with
  | growing overText root stack steps_eq =>
    refine .growing overText root (.cons stack (by simpa using hkind) rfl rfl .nil) ?_
    rw [List.map_append, steps_eq]
    rfl
  | grown overText root opened laid steps_eq =>
    cases laid with
    | branch _ _ inner tail =>
      have hpos : 0 < b.branches := Nat.lt_of_lt_of_le (Nat.zero_lt_succ _)
        (Nat.le_trans inner.branches_le tail.branches_le)
      simp [opened, hpos] at hroot

theorem Holds.token {leading : List TriviaPiece} {kind : Kind} {width : Nat}
    (h : b.Holds text steps) (hs : b.token leading kind width = .ok b') :
    b'.Holds text (steps ++ [.token leading kind width]) := by
  unfold Builder.token at hs
  split at hs
  · cases hs
  next hkind =>
  split at hs
  · cases hs
  next top up hopened =>
  dsimp only at hs
  split at hs
  · cases hs
  next front rest hsplit =>
  obtain rfl := Except.ok.inj hs
  obtain ⟨hrest, hwidth⟩ := Text.splitBytes_eq_some_iff.mp hsplit
  simp only [Bool.or_eq_true, Bool.not_eq_true', not_or, Bool.not_eq_false,
    Bool.not_eq_true] at hkind
  cases h with
  | growing overText root stack steps_eq =>
    rw [hopened] at stack steps_eq
    cases stack with
    | cons outer isNode index start inner =>
      refine .growing overText root (.cons outer isNode index start ?_) ?_
      · rw [List.reverse_cons]
        refine inner.append ?_
        rw [tally, hrest]
        exact .leaf hkind.1 hkind.2 hwidth .nil
      · rw [List.map_append, steps_eq]
        simp [trail, listing_append, listing_leaf, BuildStep.plain]
  | grown overText root opened laid steps_eq =>
    rw [hopened] at opened
    cases opened

theorem Holds.finishNode (h : b.Holds text steps) (hs : b.finishNode = .ok b') :
    b'.Holds text (steps ++ [.finishNode]) := by
  unfold Builder.finishNode at hs
  split at hs
  · cases hs
  next top up hopened =>
  split at hs
  · cases hs
  next hne =>
  cases h with
  | grown overText root opened laid steps_eq =>
    rw [hopened] at opened
    cases opened
  | growing overText root stack steps_eq =>
    rw [hopened] at stack steps_eq
    cases stack with
    | @cons _ _ m _ outer isNode index start inner =>
      -- the branch that is closed, laid out behind its elder siblings
      have hlaid : Laid m [.branch ⟨top.kind, top.index,
          .ofLength top.start (b.covered - top.start)⟩ top.children.reverse] b.tally := by
        rw [index, start]
        exact .branch isNode (by simpa using hne) inner .nil
      dsimp only at hs
      split at hs
      · obtain rfl := Except.ok.inj hs
        cases outer
        refine .grown overText rfl rfl hlaid ?_
        rw [List.map_append, steps_eq, listing_branch]
        rfl
      · next next up =>
        obtain rfl := Except.ok.inj hs
        cases outer with
        | cons outer' isNode' index' start' inner' =>
          refine .growing overText root (.cons outer' isNode' index' start' ?_) ?_
          · rw [List.reverse_cons]
            exact inner'.append hlaid
          · rw [List.map_append, steps_eq]
            simp [trail, listing_append, listing_branch, BuildStep.plain]

/-- Every step that is accepted keeps what a builder holds. -/
theorem Holds.step {s : BuildStep} (h : b.Holds text steps) (hs : b.step s = .ok b') :
    b'.Holds text (steps ++ [s]) := by
  cases s with
  | startNode kind => exact h.startNode hs
  | token leading kind width => exact h.token hs
  | missing =>
    have hs : b.token [] .missing 0 = .ok b' := hs
    exact (h.token hs).congr (by simp [BuildStep.plain])
  | finishNode => exact h.finishNode hs

theorem Holds.run {more : List BuildStep} (h : b.Holds text steps) (hr : b.run more = .ok b') :
    b'.Holds text (steps ++ more) := by
  induction more generalizing b steps with
  | nil =>
    obtain rfl : b = b' := Except.ok.inj hr
    rwa [List.append_nil]
  | cons s more ih =>
    rw [Builder.run] at hr
    split at hr
    · next b₁ hs =>
      have h' := ih (h.step hs) hr
      rwa [List.append_assoc] at h'
    · cases hr

/-! ## Sessions that are accepted -/

theorem run_append {s t : List BuildStep} (h : b.run s = .ok b') : b.run (s ++ t) = b'.run t := by
  induction s generalizing b with
  | nil =>
    obtain rfl : b = b' := Except.ok.inj h
    rfl
  | cons x s ih =>
    rw [Builder.run] at h
    rw [List.cons_append, Builder.run]
    cases hs : b.step x with
    | ok b₁ =>
      rw [hs] at h
      exact ih h
    | error e =>
      rw [hs] at h
      cases h

theorem run_cons {x : BuildStep} {s : List BuildStep} (h : b.step x = .ok b') :
    b.run (x :: s) = b'.run s := by
  rw [Builder.run, h]

theorem run_plain (b : Builder) (steps : List BuildStep) :
    b.run (steps.map BuildStep.plain) = b.run steps := by
  induction steps generalizing b with
  | nil => rfl
  | cons s steps ih =>
    have hs : b.step s.plain = b.step s := by cases s <;> rfl
    rw [List.map_cons, Builder.run, Builder.run, hs]
    split
    · exact ih _
    · rfl

/-- The builder that has come to a tally, with some open branches. -/
def reach (b : Builder) (a : Tally) (opened : List OpenBranch) : Builder :=
  ⟨b.text, a.rest, a.covered, a.branches, a.leaves, opened, b.root⟩

theorem step_startNode {kind : Kind} (a : Tally) (opened : List OpenBranch)
    (hk : kind.isNode = true) (ho : opened ≠ [] ∨ a.branches = 0) :
    (b.reach a opened).step (.startNode kind) =
      .ok (b.reach a.enter (⟨kind, a.branches, a.covered, []⟩ :: opened)) := by
  have hroot : (opened.isEmpty && decide (0 < a.branches)) = false := by
    rcases ho with h | h <;> simp [h]
  show Builder.startNode (b.reach a opened) kind = _
  rw [Builder.startNode, if_neg (by simp [hk]), if_neg (Bool.not_eq_true _ ▸ hroot)]
  rfl

/-- The steps of elements make these elements, in the innermost open branch. -/
theorem run_listing_laid {a c : Tally} {es : List Element} (h : Laid a es c) (top : OpenBranch)
    (up : List OpenBranch) : (b.reach a (top :: up)).run (listing es) =
      .ok (b.reach c ({ top with children := es.reverse ++ top.children } :: up)) := by
  induction h generalizing top up with
  | nil => rfl
  | @leaf kind leading width text rest covered branches leaves es c isToken notTrivia wide _ ih =>
    have hsplit := Text.splitBytes_append text rest
    rw [wide] at hsplit
    let leaf : Leaf := ⟨kind, leaves, covered, leading, width, text⟩
    let after : Tally :=
      ⟨rest, covered + (TriviaPiece.totalWidth leading + width), branches, leaves + 1⟩
    have hstep : (b.reach ⟨text ++ rest, covered, branches, leaves⟩ (top :: up)).step
        (.token leading kind width) =
        .ok (b.reach after ({ top with children := .leaf leaf :: top.children } :: up)) := by
      simp [step, Builder.token, reach, isToken, notTrivia, hsplit, after, leaf]
    rw [listing_leaf, run_cons hstep, ih]
    simp [leaf]
  | @branch kind a cs m es c isNode nonempty inner _ ihi iht =>
    have hstart := b.step_startNode a (top :: up) isNode (.inl (by simp))
    have hinner := ihi ⟨kind, a.branches, a.covered, []⟩ (top :: up)
    let branch : Branch := ⟨kind, a.branches, .ofLength a.covered (m.covered - a.covered)⟩
    have hfinish : (b.reach m (⟨kind, a.branches, a.covered, cs.reverse ++ []⟩ :: top :: up)).step
        .finishNode =
        .ok (b.reach m ({ top with children := .branch branch cs :: top.children } :: up)) := by
      simp [step, Builder.finishNode, reach, nonempty, branch]
    rw [listing_branch, List.cons_append, run_cons hstart, run_append hinner, run_cons hfinish,
      iht]
    simp [branch]

/-- A session is accepted if its steps are those of a tree laid out in the whole text; it makes that
tree and no other. -/
theorem build_eq_ok_iff {t : Tree} : Tree.build text steps = .ok t ↔
    t.text = text ∧ steps.map BuildStep.plain = listing [.branch t.branch t.children] ∧
    ∃ a : Tally, a.rest = [] ∧ Laid (.start text) [.branch t.branch t.children] a := by
  constructor
  · intro h
    unfold Tree.build at h
    split at h
    · next b hr =>
      have hb := (holds_start text).run hr
      rw [List.nil_append] at hb
      unfold Builder.finish at h
      split at h
      · cases h
      split at h
      · cases h
      next branch children hroot =>
      split at h
      · next hrest =>
        obtain rfl := Except.ok.inj h
        cases hb with
        | growing _ root => rw [hroot] at root; cases root
        | grown overText root opened laid steps_eq =>
          rw [hroot] at root
          obtain ⟨rfl, rfl⟩ := Prod.mk.inj (Option.some.inj root)
          exact ⟨overText, steps_eq, b.tally, by simpa [tally] using hrest, laid⟩
      · cases h
    · cases h
  · obtain ⟨text', branch, children⟩ := t
    rintro ⟨htext, hsteps, a, hrest, hlaid⟩
    dsimp only at htext hsteps hlaid
    subst htext
    cases hlaid with
    | @branch kind _ _ m _ _ isNode nonempty inner tail =>
      cases tail
      have hstart := (start text').step_startNode (.start text') [] isNode (.inr rfl)
      have hinner := (start text').run_listing_laid inner
        ⟨kind, (Tally.start text').branches, (Tally.start text').covered, []⟩ []
      rw [listing_branch] at hsteps
      rw [Tree.build, ← run_plain, hsteps, List.cons_append,
        run_cons (b := start text') hstart, run_append hinner]
      simp [run, step, Builder.finishNode, reach, nonempty, finish, hrest, Tally.start, start]

/-- The steps that a builder accepts are those of a plan that fits the text, and of only one. -/
theorem exists_build_iff : (∃ t, Tree.build text steps = .ok t) ↔
    ∃! p : Plan, p.Fits text ∧ p.steps = steps.map BuildStep.plain := by
  constructor
  · rintro ⟨t, ht⟩
    obtain ⟨-, hsteps, a, hrest, hlaid⟩ := build_eq_ok_iff.mp ht
    obtain ⟨front, htext, -, hsum⟩ := hlaid.covers
    rw [listing, List.map_singleton, List.flatMap_singleton] at hsteps
    refine ⟨(Element.branch t.branch t.children).plan, ⟨⟨⟨_, _, Element.plan_branch ..⟩,
      hlaid.proper _ (List.mem_singleton.mpr rfl), fun k => ?_, ?_⟩, hsteps.symm⟩, fun q hq => ?_⟩
    · show Text.IsBoundary _ (Tally.start text).rest
      simpa using hlaid.boundary k
    · rw [hrest, List.append_nil] at htext
      rw [show text = front from htext, ← hsum]
      simp
    · exact Plan.steps_injective (hq.2.trans hsteps)
  · rintro ⟨p, ⟨hfits, hsteps⟩, -⟩
    obtain ⟨e, a, hlaid, rfl⟩ := Element.exists_laid p hfits.proper (.start text) hfits.boundary
    obtain ⟨kind, children, hbranch⟩ := hfits.isBranch
    cases e with
    | leaf l =>
      rw [Element.plan_leaf] at hbranch
      cases hbranch
    | branch branch es =>
      obtain ⟨front, htext, -, hsum⟩ := hlaid.covers
      have hwhole := hfits.whole
      refine ⟨⟨text, branch, es⟩, build_eq_ok_iff.mpr ⟨rfl, ?_, a, ?_, hlaid⟩⟩
      · rw [← hsteps, listing, List.map_singleton, List.flatMap_singleton]
      · have htext : text = front ++ a.rest := htext
        rw [List.map_singleton, List.flatMap_singleton] at hsum
        rw [hsum, htext, Text.width_append] at hwhole
        exact Text.width_eq_zero_iff.mp (by omega)

end Builder
end PhpSyntax
