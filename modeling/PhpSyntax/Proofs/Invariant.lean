import PhpSyntax.Grammar.Php
import PhpSyntax.Proofs.Stages

/-!
Invariants of stages. A property that taking a token and recording a missing one keep, and that a
branch carries over from what is inside of it, holds after every action of an orderly grammar.
-/
namespace PhpSyntax

/-- All branches an action makes are of node kinds. Error branches hold recovered input, or a branch
that something is missing after; what recovery reports is an error. -/
def Act.orderly {ρ : Type} : Act ρ → Bool
  | done | require _ | bump | missing _ | decline | call _ => true
  | andThen a b | branch _ a b => a.orderly && b.orderly
  | recover problem _ => Kind.all.all fun k => (problem k).severity == .error
  | node kind body | nodeIfAny kind body => kind.isNode && kind != .error && body.orderly
  | wrap kind body =>
    kind.isNode && (kind != .error || match body with | missing _ => true | _ => false) &&
      body.orderly
  | repeatWhile _ body => body.orderly
  | byKind choose => Kind.all.all fun k => (choose k).orderly

namespace Grammar

theorem operation_orderly (k : Kind) (power : Nat) : (operation k power).orderly = true := by
  unfold operation
  split <;> rfl

theorem operators_orderly (power : Nat) : (operators power).orderly = true := by
  refine List.all_eq_true.mpr fun k _ => ?_
  dsimp only
  split
  · rfl
  · next b hb =>
    split
    · rfl
    · have hk : (operatorNode k).isNode = true ∧ operatorNode k ≠ .error := by
        unfold operatorNode
        split
        · decide
        · split <;> decide
      show ((_ && (operatorNode k != .error || _) && (operation k b.right).orderly) && true) = true
      rw [operation_orderly, hk.1, bne_iff_ne.mpr hk.2]
      rfl

theorem unary_orderly : unary.orderly = true := by decide +kernel

theorem php_orderly (r : Rule) : (php r).orderly = true := by
  cases r with
  | statement => show statement.orderly = true; decide +kernel
  | expression power =>
    show (unary.orderly && _) = true
    rw [unary_orderly]
    rfl
  | operators power => exact operators_orderly power
  | postfixes => show postfixes.orderly = true; decide +kernel
  | variableExpr => show variableExpression.orderly = true; decide +kernel
  | useClause => show useClause.orderly = true; decide +kernel
  | type => show type.orderly = true; decide +kernel
  | member => show member.orderly = true; decide +kernel

end Grammar

variable {ρ ι : Type} {grammar : ρ → Act ρ} {g g' : Stage} {a : Act ρ} {n : Nat}

/-- The stage after a run of tokens has the children from before it, and more: among them no token
that ends the run. It ends at one of those, or at the end of file. -/
theorem Makes.takeUpTo_children {stop : KindSet} (h : Makes grammar (.takeUpTo stop) g n g') :
    ∃ more, g'.children = g.children ++ more ∧
      (∀ t, .token t ∈ more → stop.contains t.kind = false) ∧
      (g'.kind = .eof ∨ stop.contains g'.kind = true) := by
  generalize hb : (Act.takeUpTo stop : Act ρ) = b at h
  induction h with
  | stop ht =>
    obtain ⟨rfl, rfl⟩ := Act.repeatWhile.inj hb
    refine ⟨[], (List.append_nil _).symm, nofun, Decidable.or_iff_not_imp_left.mpr ?_⟩
    simpa [Stage.holds_outside] using ht
  | @again _ _ g _ _ _ _ ht first _ _ ih =>
    obtain ⟨rfl, rfl⟩ := Act.repeatWhile.inj hb
    obtain ⟨more, hm, hout, hend⟩ := ih rfl
    cases first
    rcases Stage.take_cases g with he | ⟨t, rest, hg, -, he⟩
    · exact ⟨more, by rw [hm, he], hout, hend⟩
    · have ht : stop.contains t.kind = false := by
        have hboth : t.kind ≠ .eof ∧ stop.contains t.kind = false := by
          simpa [Stage.holds_outside, Stage.kind, hg, Token.firstKind] using ht
        exact hboth.2
      refine ⟨_, by rw [hm, he, List.append_assoc], fun u hu => ?_, hend⟩
      rcases List.mem_append.mp hu with hu | hu
      · rcases List.mem_cons.mp hu with hu | hu
        · rwa [Sprout.token.inj hu]
        · exact absurd hu Sprout.token_not_mem_aside
      · exact hout u hu
  | _ => cases hb

/-- Rules never meet unrecognized input. -/
theorem Makes.recognized (h : Makes grammar a g n g') (hg : g.kind ≠ .skipped) :
    g'.kind ≠ .skipped := by
  induction h with
  | done | missing | decline | require | stop => exact hg
  | bump => exact Stage.kind_take_ne_skipped hg
  | recover _ _ ih =>
    refine ih (Stage.kind_take_ne_skipped ?_)
    rwa [Stage.report_kind]
  | andThen _ _ ih₁ ih₂ | again _ _ _ ih₁ ih₂ => exact ih₂ (ih₁ hg)
  | node _ ih | nodeIfAny _ _ ih | nodeIfNone _ _ ih | wrap _ _ _ ih | branch _ ih | byKind _ ih
    | call _ ih => exact ih hg

/-- A property of stages that actions keep; `ι` is what it depends on in the innermost open
branch. -/
structure Steady (I : ι → Stage → Prop) : Prop where
  take {i g} : I i g → g.kind ≠ .skipped → I i g.take
  miss {i g} (what : String) : I i g → I i (g.miss what)
  decline {i g} : I i g → I i { g with found := .nothing }
  /-- A branch that is opened and closed. -/
  node {i g} : I i g → ∃ j, I j g.enter ∧ ∀ g', I j g' →
    (∀ kind, kind.isNode = true → kind ≠ .error → I i (g.leave kind g')) ∧
    (g'.children = [] → I i { g' with children := g.children, found := .nothing })
  /-- An error branch of a token that is reported and those after it. -/
  recover {i g t rest} {problem : Kind → Problem} : I i g → g.tokens = t :: rest →
    t.kind ≠ .eof → t.kind ≠ .skipped → (∀ k, (problem k).severity = .error) →
    ∃ j, I j (g.enter.report problem).take ∧ ∀ g' more,
      g'.children = (g.enter.report problem).take.children ++ more → I j g' →
      I i (g.leave .error g')
  /-- A branch around the branch found last. -/
  wrap {i g before k cs} : I i g → g.found = .last → g.children = before ++ [.branch k cs] →
    ∃ j, I j { g with children := [.branch k cs], found := .earlier } ∧
    (∀ g' kind, I j g' → kind.isNode = true → kind ≠ .error →
      I i ({ g with children := before }.leave kind g')) ∧
    ∀ what, I i ({ g with children := before }.leave .error
      ({ g with children := [.branch k cs], found := .earlier }.miss what))

/-- What taking a token and so on keep, every action does. -/
theorem Steady.makes {I : ι → Stage → Prop} (hI : Steady I)
    (hgrammar : ∀ rule, (grammar rule).orderly = true) (h : Makes grammar a g n g')
    (ha : a.orderly = true) (hg : g.kind ≠ .skipped) {i : ι} (hi : I i g) : I i g' := by
  induction h generalizing i with
  | done | require | stop => exact hi
  | bump => exact hI.take hi hg
  | missing => exact hI.miss _ hi
  | decline => exact hI.decline hi
  | andThen first _ ih₁ ih₂ =>
    have hab := Bool.and_eq_true_iff.mp ha
    exact ih₂ hab.2 (first.recognized hg) (ih₁ hab.1 hg hi)
  | @recover problem stop g n g' hk loop ih =>
    obtain ⟨t, rest, ht⟩ := Stage.exists_token hk
    have htk : g.kind = t.kind := by rw [Stage.kind, ht, Token.firstKind]
    obtain ⟨j, hj, hleave⟩ := hI.recover hi ht (htk ▸ hk) (htk ▸ hg) fun k =>
      beq_iff_eq.mp (List.all_eq_true.mp ha k (Kind.mem_all k))
    obtain ⟨more, hm, -⟩ := loop.takeUpTo_children
    refine hleave _ more hm (ih rfl (Stage.kind_take_ne_skipped ?_) hj)
    rwa [Stage.report_kind]
  | node _ ih =>
    simp only [Act.orderly, Bool.and_eq_true, bne_iff_ne] at ha
    obtain ⟨j, hj, hleave⟩ := hI.node hi
    exact (hleave _ (ih ha.2 hg hj)).1 _ ha.1.1 ha.1.2
  | nodeIfAny _ _ ih =>
    simp only [Act.orderly, Bool.and_eq_true, bne_iff_ne] at ha
    obtain ⟨j, hj, hleave⟩ := hI.node hi
    exact (hleave _ (ih ha.2 hg hj)).1 _ ha.1.1 ha.1.2
  | nodeIfNone _ hn ih =>
    simp only [Act.orderly, Bool.and_eq_true, bne_iff_ne] at ha
    obtain ⟨j, hj, hleave⟩ := hI.node hi
    exact (hleave _ (ih ha.2 hg hj)).2 hn
  | @wrap kind body g n g' before k cs hf hl inner ih =>
    simp only [Act.orderly, Bool.and_eq_true, Bool.or_eq_true, bne_iff_ne] at ha
    obtain ⟨⟨hk, hkind⟩, hbody⟩ := ha
    obtain ⟨j, hj, hleave, herror⟩ := hI.wrap hi hf hl
    by_cases he : kind = .error
    · subst he
      rcases hkind with h | h
      · exact absurd rfl h
      · split at h
        · cases inner
          exact herror _
        · cases h
    · exact hleave g' kind (ih hbody hg hj) hk he
  | branch _ ih =>
    have hab := Bool.and_eq_true_iff.mp ha
    refine ih ?_ hg hi
    split
    · exact hab.1
    · exact hab.2
  | byKind _ ih => exact ih (List.all_eq_true.mp ha _ (Kind.mem_all _)) hg hi
  | again _ first _ ih₁ ih₂ => exact ih₂ ha (first.recognized hg) (ih₁ ha hg hi)
  | call _ ih => exact ih (hgrammar _) hg hi

end PhpSyntax
