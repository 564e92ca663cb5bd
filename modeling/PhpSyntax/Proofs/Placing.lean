import PhpSyntax.Proofs.Kinship
import PhpSyntax.Proofs.Leaves
import PhpSyntax.Tree.Offset

/-!
The nodes and leaves of a tree in the tables that hold it. Both are numbered in the order in which a
walk meets them, the leaves of a node are a run of those of the tree, and they lie in the node side
by side.
-/
namespace PhpSyntax

/-- The tokens that a walk through tables meets below an element are its leaves. -/
theorem Element.tokens_tour (e : Element) :
    e.tour.filterMap TableVisit.token? = e.leaves.map (·.index) := by
  induction e using Element.induct with
  | leaf l =>
    rw [tour_leaf, leaves_leaf]
    rfl
  | branch b es ih =>
    rw [tour_branch, leaves_branch, TableVisit.tokens_node, List.filterMap_flatMap,
      List.map_flatMap]
    exact List.flatMap_congr ih

/-! ## Nodes and the nodes above them -/

namespace Node

theorem tips_child {n : Node} {b : Branch} {es : List Element}
    (h : .branch b es ∈ n.children) : (n.child b es).tips <:+: n.tips := by
  obtain ⟨elder, younger, hchildren⟩ := List.append_of_mem h
  refine ⟨elder.flatMap (Element.tips n), younger.flatMap (Element.tips n), ?_⟩
  rw [tips_eq n, hchildren, List.flatMap_append, List.flatMap_cons, Element.tips_branch,
    tips_eq (n.child b es), List.append_assoc]
  rfl

/-- The leaves below a node are a run of those below any node above it. -/
theorem tips_infix {n m : Node} (h : m ∈ n.descendants) : m.tips <:+: n.tips :=
  forall_descendants (P := fun m => m.tips <:+: n.tips)
    (fun _ _ _ hm hb => (tips_child hb).trans hm) List.infix_rfl m h

theorem getLast_ancestors_child (n : Node) (b : Branch) (es : List Element) :
    (n.child b es).ancestors.getLast? = n.ancestors.getLast? := by
  show (n.child b es :: n.ancestors).getLast? = _
  rw [List.getLast?_cons, ancestors, List.getLast?_cons]
  rfl

end Node

/-- Every leaf of a tree finds the root above it. -/
theorem Tree.root_eq {tree : Tree} {t : Tip} (h : t ∈ tree.tips) : t.root = tree.root := by
  have hroot := Node.forall_tips (P := fun m => m.ancestors.getLast? = some tree.root)
    (fun n b es hn _ => (n.getLast_ancestors_child b es).trans hn) (n := tree.root) rfl t h
  rw [Tip.root, Tip.ancestors, hroot]
  rfl

namespace Table

variable {t : Table} {parent : Option Nat} {a b : Tally} {es : List Element}

/-! ## Elements that are held -/

theorem Lays.index_leaves (h : t.Lays parent a es b) :
    (es.flatMap Element.leaves).map (·.index) = List.range' a.leaves (b.leaves - a.leaves) := by
  rw [← h.tour_tokens, List.map_flatMap, List.filterMap_flatMap]
  exact List.flatMap_congr fun e _ => e.tokens_tour.symm

theorem Lays.index_nodes (h : t.Lays parent a es b) (n : Node) :
    (es.flatMap (Element.nodes n)).map Node.index =
      List.range' a.branches (b.branches - a.branches) := by
  induction h using Lays.induct generalizing n with
  | nil =>
    rw [Nat.sub_self]
    rfl
  | leaf _ _ _ ih =>
    rw [List.flatMap_cons, Element.nodes_leaf]
    exact ih n
  | @branch _ kind a cs m _ b stands tail ihi iht =>
    have hlt := stands.branches_lt
    have hle := tail.branches_le
    have hsplit : b.branches - a.branches = (m.branches - (a.branches + 1) + 1) +
        (b.branches - m.branches) := by omega
    have hend : a.branches + (m.branches - (a.branches + 1) + 1) = m.branches := by omega
    have hinner := ihi (n.child
      ⟨kind, a.branches, .ofLength a.covered (m.covered - a.covered)⟩ cs)
    rw [List.flatMap_cons, Element.nodes_branch, List.map_append, List.map_cons, hinner, iht n,
      hsplit, ← List.range'_append_1, hend, List.range'_succ]
    rfl

/-- The leaves lie side by side. -/
theorem Lays.tile_leaves (h : t.Lays parent a es b) :
    Range.Tile a.covered ((es.flatMap Element.leaves).map (·.fullRange)) b.covered := by
  induction h using Lays.induct with
  | nil => rfl
  | leaf _ _ _ ih =>
    rw [List.flatMap_cons, Element.leaves_leaf]
    exact ⟨rfl, ih⟩
  | branch _ _ ihi iht =>
    rw [List.flatMap_cons, Element.leaves_branch, List.map_append]
    exact ihi.append iht

theorem Lays.shows_leaves (h : t.Lays parent a es b) :
    ∀ l ∈ es.flatMap Element.leaves, ∃ up, t.Shows up l := by
  induction h using Lays.induct with
  | nil => simp
  | leaf shown _ _ ih =>
    rw [List.flatMap_cons, Element.leaves_leaf]
    exact List.forall_mem_cons.mpr ⟨⟨_, shown⟩, ih⟩
  | branch _ _ ihi iht =>
    rw [List.flatMap_cons, Element.leaves_branch]
    exact List.forall_mem_append.mpr ⟨ihi, iht⟩

theorem Lays.stands_of_mem (h : t.Lays parent a es b) {br : Branch} {cs : List Element}
    (hmem : .branch br cs ∈ es) : ∃ c m,
      br = ⟨br.kind, c.branches, .ofLength c.covered (m.covered - c.covered)⟩ ∧
        t.Stands br.kind parent c cs m := by
  induction h using Lays.induct with
  | nil => cases hmem
  | leaf _ _ _ ih => exact ih ((List.mem_cons.mp hmem).resolve_left nofun)
  | @branch _ _ a _ m _ _ stands _ _ ih =>
    rcases List.mem_cons.mp hmem with heq | hmem
    · obtain ⟨rfl, rfl⟩ := Element.branch.inj heq
      exact ⟨a, m, rfl, stands⟩
    · exact ih hmem

/-! ## Nodes of a tree that is held -/

/-- Tables hold a node of a tree, with all below it, from one tally to another. -/
structure Places (t : Table) (n : Node) (a b : Tally) : Prop where
  branch : n.branch = ⟨n.kind, a.branches, .ofLength a.covered (b.covered - a.covered)⟩
  stands : ∃ up, t.Stands n.kind up a n.children b

namespace Places

variable {n : Node}

theorem index_eq (h : t.Places n a b) : n.index = a.branches := congrArg Branch.index h.branch

theorem start_eq (h : t.Places n a b) : n.range.start = a.covered :=
  congrArg (·.range.start) h.branch

theorem stop_eq (h : t.Places n a b) : n.range.stop = b.covered := by
  obtain ⟨up, hstands⟩ := h.stands
  have hle := hstands.covered_le
  have hstop : n.range.stop = a.covered + (b.covered - a.covered) :=
    congrArg (·.range.stop) h.branch
  omega

theorem nodeRange_eq (h : t.Places n a b) : t.nodeRange n.index = .ok n.range := by
  obtain ⟨up, hstands⟩ := h.stands
  rw [h.index_eq, hstands.nodeRange_eq]
  exact congrArg (fun br => Except.ok (Branch.range br)) h.branch.symm

/-- The leaves of a node lie in it side by side. -/
theorem tile (h : t.Places n a b) :
    Range.Tile n.range.start (n.tips.map (·.fullRange)) n.range.stop := by
  obtain ⟨up, hstands⟩ := h.stands
  have htile := hstands.inner.tile_leaves
  rw [← n.map_leaf_tips, List.map_map] at htile
  rw [h.start_eq, h.stop_eq]
  exact htile

theorem index_tips (h : t.Places n a b) :
    n.tips.map (·.index) = List.range' a.leaves (b.leaves - a.leaves) := by
  obtain ⟨up, hstands⟩ := h.stands
  have hindex := hstands.inner.index_leaves
  rw [← n.map_leaf_tips, List.map_map] at hindex
  exact hindex

theorem index_tip (h : t.Places n a b) {i : Nat} {x : Tip} (hx : n.tips[i]? = some x) :
    x.index = a.leaves + i := by
  have hi : (n.tips.map (·.index))[i]? = some x.index := by
    rw [List.getElem?_map, hx, Option.map_some]
  rw [h.index_tips] at hi
  obtain ⟨_, hi⟩ := List.getElem?_eq_some_iff.mp hi
  rw [← hi, List.getElem_range', Nat.one_mul]

theorem shows_tips (h : t.Places n a b) : ∀ x ∈ n.tips, ∃ up, t.Shows up x.leaf := by
  obtain ⟨up, hstands⟩ := h.stands
  intro x hx
  apply hstands.inner.shows_leaves
  rw [← n.map_leaf_tips]
  exact List.mem_map_of_mem hx

theorem child (h : t.Places n a b) {br : Branch} {cs : List Element}
    (hmem : .branch br cs ∈ n.children) : ∃ c m, t.Places (n.child br cs) c m := by
  obtain ⟨up, hstands⟩ := h.stands
  obtain ⟨c, m, hbranch, hstands'⟩ := hstands.inner.stands_of_mem hmem
  exact ⟨c, m, hbranch, _, hstands'⟩

end Places

namespace Holds

variable {tree : Tree}

/-- The root stands at the beginning of the text, and behind it nothing is left. -/
theorem places_root (h : t.Holds tree) : ∃ a,
    (a.rest = [] ∧ a.branches = t.nodes.size ∧ a.leaves = t.tokens.size) ∧
      t.Places tree.root (.start t.text) a := by
  obtain ⟨a, hrest, hbranches, hleaves, hlays⟩ := h.lays
  obtain ⟨hbranch, hstands⟩ := Stands.of_lays hlays
  exact ⟨a, ⟨hrest, hbranches, hleaves⟩, hbranch, _, hstands⟩

theorem places (h : t.Holds tree) : ∀ n ∈ tree.root.descendants, ∃ a b, t.Places n a b := by
  obtain ⟨a, -, hroot⟩ := h.places_root
  refine Node.forall_descendants (fun n br cs hn hmem => ?_) ⟨_, a, hroot⟩
  obtain ⟨_, _, hn⟩ := hn
  exact hn.child hmem

/-- The nodes of a tree are numbered in preorder. -/
theorem index_descendants (h : t.Holds tree) :
    tree.root.descendants.map Node.index = List.range t.nodes.size := by
  obtain ⟨a, ⟨-, hbranches, -⟩, hroot⟩ := h.places_root
  obtain ⟨up, hstands⟩ := hroot.stands
  have hlt : 0 < a.branches := hstands.branches_lt
  have hsize : t.nodes.size = a.branches - 1 + 1 := by omega
  rw [Node.descendants_eq, List.map_cons, hstands.inner.index_nodes, hroot.index_eq, hsize,
    List.range_eq_range', List.range'_succ]
  rfl

/-- The leaves of a tree are numbered in the order of the text. -/
theorem index_tips (h : t.Holds tree) : tree.tips.map Tip.index = List.range t.tokens.size := by
  obtain ⟨a, ⟨-, -, hleaves⟩, hroot⟩ := h.places_root
  refine hroot.index_tips.trans ?_
  rw [hleaves, List.range_eq_range']
  rfl

theorem index_tip (h : t.Holds tree) {i : Nat} {x : Tip} (hx : tree.tips[i]? = some x) :
    x.index = i := by
  obtain ⟨a, -, hroot⟩ := h.places_root
  exact (hroot.index_tip hx).trans (Nat.zero_add i)

/-- Of two leaves next to each other in a node, the left one is the one before the other. -/
theorem prev_eq (h : t.Holds tree) {n : Node} (hn : n ∈ tree.root.descendants) {l r : Tip}
    {before after : List Tip} (htips : n.tips = before ++ l :: r :: after) : r.prev? = some l := by
  obtain ⟨front, back, hinfix⟩ := Node.tips_infix hn
  have htree : tree.tips = (front ++ before) ++ l :: r :: (after ++ back) := by
    rw [Tree.tips, ← hinfix, htips]
    simp
  generalize front ++ before = elder at htree
  have hl : tree.tips[elder.length]? = some l := by simp [htree]
  have hr : tree.tips[elder.length + 1]? = some r := by simp [htree]
  rw [Tip.prev?, h.index_tip hr, if_neg (Nat.succ_ne_zero _),
    Tree.root_eq (List.mem_of_getElem? hr), Nat.add_sub_cancel]
  exact hl

end Holds
end Table
end PhpSyntax
