import Mathlib.Data.List.Basic
import PhpSyntax.Proofs.Tabling

/-!
A walk through the tables that a session has built gives the session back, call by call.
-/
namespace PhpSyntax

/-- What a walk shows of a call on a builder. -/
inductive Mark where
  | enter (kind : Kind)
  | token (kind : Kind) (leading : List TriviaPiece) (full trimmed : Range)
  | leave

namespace BuildStep

/-- What a walk shows of a session, when `offset` bytes were covered before it. -/
def marks (offset : Nat) : List BuildStep → List Mark
  | [] => []
  | startNode kind :: steps => .enter kind :: marks offset steps
  | token leading kind width :: steps =>
    let leadingWidth := TriviaPiece.totalWidth leading
    .token kind leading (.ofLength offset (leadingWidth + width))
      (.ofLength (offset + leadingWidth) width) :: marks (offset + (leadingWidth + width)) steps
  | missing :: steps => .token .missing [] (.point offset) (.point offset) :: marks offset steps
  | finishNode :: steps => .leave :: marks offset steps

theorem marks_plain (offset : Nat) (steps : List BuildStep) :
    marks offset (steps.map plain) = marks offset steps := by
  induction steps generalizing offset with
  | nil => rfl
  | cons s steps ih => cases s <;> exact congrArg (_ :: ·) (ih _)

end BuildStep

namespace Table

/-- What is told of a visit by the entries of tables. -/
def mark (t : Table) : TableVisit → Except TableError Mark
  | .enter id => do
    let n ← t.node id
    return .enter n.kind
  | .leave _ => .ok .leave
  | .token id => do
    let e ← t.token id
    return .token e.kind (← t.leading id) (← t.tokenRange id) (← t.trimmedRange id)

theorem Shows.mark_eq {t : Table} {parent : Nat} {l : Leaf} (h : t.Shows parent l) :
    t.mark (.token l.index) = .ok (.token l.kind l.leading l.fullRange l.range) := by
  obtain ⟨e, he, hkind, -⟩ := h.token_eq
  rw [← hkind]
  exact (bind_ok he _).trans <| (bind_ok h.leading_eq _).trans <|
    (bind_ok h.tokenRange_eq _).trans (bind_ok h.trimmedRange_eq _)

theorem Stands.mark_eq {t : Table} {kind : Kind} {parent : Option Nat} {a b : Tally}
    {cs : List Element} (h : t.Stands kind parent a cs b) :
    t.mark (.enter a.branches) = .ok (.enter kind) := by
  obtain ⟨n, hn, rfl, -⟩ := h.node_eq
  exact bind_ok hn _

end Table

namespace TableWalk

/-- The visits of a walk, up to its end. -/
inductive Yields (t : Table) : TableWalk → List TableVisit → Prop where
  | done {w} (h : w.next t = .ok none) : Yields t w []
  | visit {w w' v vs} (h : w.next t = .ok (some (v, w'))) (tail : Yields t w' vs) :
    Yields t w (v :: vs)

end TableWalk

namespace Element

/-- What a walk shows of an element. -/
def marks : Element → List Mark
  | leaf l => [.token l.kind l.leading l.fullRange l.range]
  | branch b es => .enter b.kind :: es.flatMap marks ++ [.leave]

theorem marks_leaf (l : Leaf) :
    (leaf l).marks = [.token l.kind l.leading l.fullRange l.range] := by rw [marks]

theorem marks_branch (b : Branch) (es : List Element) :
    (branch b es).marks = .enter b.kind :: es.flatMap marks ++ [.leave] := by rw [marks]

/-- A walk shows of elements what it shows of the steps that they are listed by. -/
theorem Laid.marks_eq {a b : Tally} {es : List Element} (h : Laid a es b)
    (more : List BuildStep) : es.flatMap marks ++ BuildStep.marks b.covered more =
      BuildStep.marks a.covered (Builder.listing es ++ more) := by
  induction h generalizing more with
  | nil => rfl
  | leaf _ _ _ _ ih =>
    rw [List.flatMap_cons, marks_leaf, Builder.listing_leaf, List.append_assoc, ih]
    rfl
  | @branch _ _ _ _ es _ _ _ _ _ ihi iht =>
    have hinner := ihi (.finishNode :: (Builder.listing es ++ more))
    rw [BuildStep.marks, ← iht] at hinner
    rw [List.flatMap_cons, marks_branch, Builder.listing_branch]
    simp only [List.cons_append, List.append_assoc, List.nil_append]
    rw [hinner]
    rfl

/-- The visits to an element in tables. -/
def tour : Element → List TableVisit
  | leaf l => [.token l.index]
  | branch b es => .enter b.index :: es.flatMap tour ++ [.leave b.index]

theorem tour_leaf (l : Leaf) : (leaf l).tour = [.token l.index] := by rw [tour]

theorem tour_branch (b : Branch) (es : List Element) :
    (branch b es).tour = .enter b.index :: es.flatMap tour ++ [.leave b.index] := by rw [tour]

end Element

namespace Table

open TableWalk (Yields)

variable {t : Table} {parent : Option Nat} {a b : Tally} {es : List Element}

/-- The children still to come of the innermost open node are visited first. -/
theorem Lays.yields {id : Nat} {up : List (Nat × List Slot)} {visits : List TableVisit}
    (h : t.Lays parent a es b) (hrest : Yields t ⟨none, (id, []) :: up⟩ visits) :
    Yields t ⟨none, (id, es.map Element.slot) :: up⟩ (es.flatMap Element.tour ++ visits) := by
  induction h using Lays.induct generalizing id up visits with
  | nil => exact hrest
  | leaf _ _ _ ih =>
    rw [List.flatMap_cons, Element.tour_leaf, List.append_assoc]
    exact .visit rfl (ih hrest)
  | branch stands _ ihi iht =>
    simp only [List.flatMap_cons, Element.tour_branch, List.cons_append, List.append_assoc,
      List.nil_append]
    -- the node is left before its siblings are visited
    exact .visit (bind_ok stands.children_eq _) (ihi (.visit rfl (iht hrest)))

/-- The walk through a node enters it, visits all below it, and leaves it. -/
theorem Stands.yields {kind : Kind} {cs : List Element} (h : t.Stands kind parent a cs b) :
    Yields t (.through a.branches)
      (.enter a.branches :: cs.flatMap Element.tour ++ [.leave a.branches]) :=
  .visit (bind_ok h.children_eq _) (h.inner.yields (.visit rfl (.done rfl)))

/-- What the entries tell of the visits to some elements is what a walk shows of the elements. -/
theorem Lays.marks_eq (h : t.Lays parent a es b) :
    (es.flatMap Element.tour).map t.mark = (es.flatMap Element.marks).map .ok := by
  induction h using Lays.induct with
  | nil => rfl
  | leaf shown _ _ ih =>
    rw [List.flatMap_cons, List.flatMap_cons, List.map_append, List.map_append, ih,
      Element.tour_leaf, Element.marks_leaf, List.map_singleton, shown.mark_eq]
    rfl
  | branch stands _ ihi iht =>
    simp only [List.flatMap_cons, List.map_append, iht, Element.tour_branch, Element.marks_branch,
      List.map_cons, ihi, stands.mark_eq]
    rfl

end Table

/-- What a walk through a tree shows. -/
def Visit.mark : Visit → Mark
  | enter n => .enter n.kind
  | leave _ => .leave
  | token t => .token t.kind t.leaf.leading t.fullRange t.range

theorem Element.mark_visits (e : Element) (n : Node) : (e.visits n).map Visit.mark = e.marks := by
  induction e using Element.induct generalizing n with
  | leaf l =>
    rw [visits_leaf, marks_leaf]
    rfl
  | branch b es ih =>
    have hes : (es.flatMap (visits (n.child b es))).map Visit.mark = es.flatMap marks := by
      rw [List.map_flatMap]
      exact List.flatMap_congr fun e he => ih e he _
    rw [visits_branch, marks_branch, List.map_append, List.map_cons, hes]
    rfl

theorem Tree.mark_visits (tree : Tree) : tree.root.visits.map Visit.mark =
    (Element.branch tree.branch tree.children).marks := by
  have hes : (tree.children.flatMap (Element.visits tree.root)).map Visit.mark =
      tree.children.flatMap Element.marks := by
    rw [List.map_flatMap]
    exact List.flatMap_congr fun e _ => e.mark_visits tree.root
  rw [Node.visits_eq, Element.marks_branch, List.map_append, List.map_cons,
    show tree.root.children = tree.children from rfl, hes]
  rfl

/-- A tree that was built shows the session that built it. -/
theorem Builder.marks_eq {text : List Char} {steps : List BuildStep} {tree : Tree}
    (h : Tree.build text steps = .ok tree) :
    (Element.branch tree.branch tree.children).marks = BuildStep.marks 0 steps := by
  obtain ⟨-, hsteps, a, -, hlaid⟩ := Builder.build_eq_ok_iff.mp h
  have hmarks := hlaid.marks_eq []
  rw [List.flatMap_singleton, List.append_nil, ← hsteps, BuildStep.marks_plain] at hmarks
  exact (List.append_nil _).symm.trans hmarks

end PhpSyntax
