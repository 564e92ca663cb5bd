import Mathlib.Algebra.Ring.Nat
import PhpSyntax.Text.Boundary
import PhpSyntax.Tree.Builder

/-!
Plans: trees without a text. The steps of a plan are its listing in preorder, and no two plans have
the same one.
-/
namespace PhpSyntax

/-- A tree that was not built yet: the kinds of its branches, and what each leaf takes of a text. -/
inductive Plan where
  | leaf (kind : Kind) (leading : List TriviaPiece) (width : Nat)
  | branch (kind : Kind) (children : List Plan)

namespace Plan

/-- Induction over a plan: a branch has what all its children have. -/
@[elab_as_elim]
theorem induct {P : Plan → Prop} (leaf : ∀ kind leading width, P (leaf kind leading width))
    (branch : ∀ kind children, (∀ c ∈ children, P c) → P (branch kind children)) (p : Plan) :
    P p := by
  refine Plan.rec (motive_1 := P) (motive_2 := fun cs => ∀ c ∈ cs, P c) leaf branch ?_ ?_ p
  · intro c hc
    cases hc
  · intro c cs hc hcs d hd
    rcases List.mem_cons.mp hd with rfl | hd
    · exact hc
    · exact hcs d hd

/-- The steps that list a plan in preorder. -/
def steps : Plan → List BuildStep
  | leaf kind leading width => [.token leading kind width]
  | branch kind children => .startNode kind :: children.flatMap steps ++ [.finishNode]

/-- The bytes that the leaves take with their trivia, in order. -/
def widths : Plan → List Nat
  | leaf _ leading width => [TriviaPiece.totalWidth leading + width]
  | branch _ children => children.flatMap widths

/-- Branches have node kinds and children, leaves have kinds of tokens that are no trivia. -/
inductive Proper : Plan → Prop where
  | leaf {kind leading width} (isToken : kind.isToken = true)
    (notTrivia : kind.isTrivia = false) : Proper (leaf kind leading width)
  | branch {kind children} (isNode : kind.isNode = true) (nonempty : children ≠ [])
    (proper : ∀ c ∈ children, Proper c) : Proper (branch kind children)

theorem steps_leaf (kind : Kind) (leading : List TriviaPiece) (width : Nat) :
    (leaf kind leading width).steps = [.token leading kind width] := by
  rw [steps]

theorem steps_branch (kind : Kind) (children : List Plan) : (branch kind children).steps =
    .startNode kind :: children.flatMap steps ++ [.finishNode] := by
  rw [steps]

theorem widths_leaf (kind : Kind) (leading : List TriviaPiece) (width : Nat) :
    (leaf kind leading width).widths = [TriviaPiece.totalWidth leading + width] := by
  rw [widths]

theorem widths_branch (kind : Kind) (children : List Plan) :
    (branch kind children).widths = children.flatMap widths := by
  rw [widths]

/-- No plan begins with the end of a branch. -/
theorem exists_steps_cons (p : Plan) : ∃ x rest, p.steps = x :: rest ∧ x ≠ .finishNode := by
  cases p with
  | leaf kind leading width => exact ⟨_, _, steps_leaf .., by simp⟩
  | branch kind children => exact ⟨_, _, steps_branch .., by simp⟩

/-- Where a list of plans ends is seen from the steps alone, and so are the plans, if each of them
is. -/
theorem steps_list_inj {cs ds : List Plan} {r r' : List BuildStep}
    (hcs : ∀ c ∈ cs, ∀ d s s', c.steps ++ s = d.steps ++ s' → c = d ∧ s = s')
    (h : cs.flatMap steps ++ .finishNode :: r = ds.flatMap steps ++ .finishNode :: r') :
    cs = ds ∧ r = r' := by
  induction cs generalizing ds with
  | nil =>
    cases ds with
    | nil => exact ⟨rfl, (List.cons.inj h).2⟩
    | cons d ds =>
      obtain ⟨x, rest, hd, hx⟩ := d.exists_steps_cons
      rw [List.flatMap_cons, hd] at h
      exact absurd (List.cons.inj h).1.symm hx
  | cons c cs ih =>
    obtain ⟨hc, hcs⟩ := List.forall_mem_cons.mp hcs
    cases ds with
    | nil =>
      obtain ⟨x, rest, hd, hx⟩ := c.exists_steps_cons
      rw [List.flatMap_cons, hd] at h
      exact absurd (List.cons.inj h).1 hx
    | cons d ds =>
      rw [List.flatMap_cons, List.flatMap_cons, List.append_assoc, List.append_assoc] at h
      obtain ⟨rfl, htail⟩ := hc d _ _ h
      obtain ⟨rfl, hr⟩ := ih hcs htail
      exact ⟨rfl, hr⟩

/-- A plan is read off its steps, whatever comes after them. -/
theorem steps_append_inj (p : Plan) :
    ∀ q r r', p.steps ++ r = q.steps ++ r' → p = q ∧ r = r' := by
  induction p using Plan.induct with
  | leaf kind leading width =>
    intro q r r' h
    cases q with
    | leaf kind' leading' width' =>
      rw [steps_leaf, steps_leaf] at h
      obtain ⟨hx, hr⟩ := List.cons.inj h
      obtain ⟨rfl, rfl, rfl⟩ := BuildStep.token.inj hx
      exact ⟨rfl, hr⟩
    | branch kind' children =>
      rw [steps_leaf, steps_branch] at h
      cases (List.cons.inj h).1
  | branch kind children ih =>
    intro q r r' h
    cases q with
    | leaf kind' leading' width' =>
      rw [steps_leaf, steps_branch] at h
      cases (List.cons.inj h).1
    | branch kind' children' =>
      simp only [steps_branch, List.cons_append, List.append_assoc, List.nil_append] at h
      obtain ⟨hx, hchildren⟩ := List.cons.inj h
      obtain rfl := BuildStep.startNode.inj hx
      obtain ⟨rfl, hr⟩ := steps_list_inj ih hchildren
      exact ⟨rfl, hr⟩

theorem steps_injective {p q : Plan} (h : p.steps = q.steps) : p = q :=
  (p.steps_append_inj q [] [] (by rw [h])).1

end Plan

namespace BuildStep

/-- A missing token is a token like another one, without trivia and of width zero. -/
def plain : BuildStep → BuildStep
  | missing => token [] .missing 0
  | s => s

end BuildStep

namespace Plan

/-- A plan that can be carried out on a text: it is a branch, it is proper, after every leaf the
bytes that were taken end at a boundary of the text, and at last all of it is taken. -/
structure Fits (text : List Char) (p : Plan) : Prop where
  isBranch : ∃ kind children, p = branch kind children
  proper : p.Proper
  boundary : ∀ k, Text.IsBoundary (p.widths.take k).sum text
  whole : p.widths.sum = Text.width text

end Plan
end PhpSyntax
