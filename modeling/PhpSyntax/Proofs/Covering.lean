import PhpSyntax.Proofs.Lookups

/-!
The smallest element around a range. One leaf is over the first byte of the range, and whatever
holds the range is that leaf or a node above it; so the nearest of them that does is the smallest of
all.
-/
namespace PhpSyntax

namespace Item

/-- The nodes above an item, the nearest first. -/
def above : Item → List Node
  | node n => Node.ofAbove n.above
  | tip t => t.ancestors

/-- How an item is named in tables. -/
def slot : Item → Slot
  | node n => .node n.index
  | tip t => .token t.index

end Item

namespace Tree

/-- A node or a leaf of a tree. -/
def Contains (tree : Tree) : Item → Prop
  | .node n => n ∈ tree.root.descendants
  | .tip t => t ∈ tree.tips

end Tree

/-! ## What is above and below -/

namespace Node

variable {n m : Node}

/-- Behind a node among its own ancestors come those above it. -/
theorem eq_ofAbove {before after : List Node} (h : n.ancestors = before ++ m :: after) :
    after = ofAbove m.above := by
  induction before generalizing n with
  | nil =>
    obtain ⟨rfl, rfl⟩ := List.cons.inj h
    rfl
  | cons k before ih =>
    obtain ⟨-, htail⟩ := List.cons.inj h
    cases habove : n.above with
    | nil =>
      rw [habove] at htail
      cases before <;> cases htail
    | cons up above =>
      rw [habove] at htail
      exact ih (n := ⟨up.1, up.2, above⟩) htail

theorem mem_descendants_self (n : Node) : n ∈ n.descendants := by
  rw [descendants_eq]
  exact List.mem_cons_self

theorem descendants_child {b : Branch} {es : List Element} (h : .branch b es ∈ n.children) :
    (n.child b es).descendants ⊆ n.descendants := by
  intro k hk
  rw [descendants_eq] at hk ⊢
  refine List.mem_cons_of_mem _ (List.mem_flatMap.mpr ⟨_, h, ?_⟩)
  rwa [Element.nodes_branch]

/-- A child of a node below is below. -/
theorem child_mem_descendants (h : m ∈ n.descendants) {b : Branch} {es : List Element}
    (hb : .branch b es ∈ m.children) : m.child b es ∈ n.descendants := by
  have hsub : m.descendants ⊆ n.descendants :=
    forall_descendants (P := fun m => m.descendants ⊆ n.descendants)
      (fun _ _ _ hm hc => List.Subset.trans (descendants_child hc) hm) (List.Subset.refl _) m h
  exact hsub (descendants_child hb (mem_descendants_self _))

end Node

/-- A leaf is a child of the node above it. -/
theorem Element.leaf_mem_of_tips (e : Element) {n : Node} (he : e ∈ n.children) :
    ∀ x ∈ e.tips n, .leaf x.leaf ∈ x.parent.children := by
  induction e using Element.induct generalizing n with
  | leaf l =>
    intro x hx
    rw [tips_leaf, List.mem_singleton] at hx
    rw [hx]
    exact he
  | branch b es ih =>
    intro x hx
    rw [tips_branch, List.mem_flatMap] at hx
    obtain ⟨d, hd, hx⟩ := hx
    exact ih d hd hd x hx

namespace Node

variable {n : Node} {x : Tip}

theorem leaf_mem_of_tips (hx : x ∈ n.tips) : .leaf x.leaf ∈ x.parent.children := by
  rw [tips_eq, List.mem_flatMap] at hx
  obtain ⟨e, he, hx⟩ := hx
  exact e.leaf_mem_of_tips he x hx

/-- A node is above all its leaves. -/
theorem mem_ancestors_of_tips (hx : x ∈ n.tips) : n ∈ x.ancestors :=
  forall_tips (P := fun m => n ∈ m.ancestors)
    (fun _ _ _ hm _ => List.mem_cons_of_mem _ hm) List.mem_cons_self x hx

/-- All nodes above a leaf, up to a node that it is below, are below that one. -/
theorem ancestors_subset_of_tips (hx : x ∈ n.tips) (hn : n.above = []) :
    x.ancestors ⊆ n.descendants := by
  have hself : n.ancestors ⊆ n.descendants := by
    rw [ancestors, hn]
    exact List.cons_subset.mpr ⟨mem_descendants_self n, List.nil_subset _⟩
  have hstep : ∀ (m : Node) b es, m.ancestors ⊆ n.descendants → .branch b es ∈ m.children →
      (m.child b es).ancestors ⊆ n.descendants := fun m b es hm hb =>
    List.cons_subset.mpr ⟨child_mem_descendants (hm List.mem_cons_self) hb, hm⟩
  exact forall_tips hstep hself x hx

end Node

/-! ## The leaf over the first byte -/

theorem AtOffset.right_map {α β : Type} (f : α → β) (found : AtOffset α) :
    (found.map f).right? = found.right?.map f := by
  cases found <;> rfl

namespace Range

variable {r inner : Range}

theorem containsRange_iff :
    r.containsRange inner = true ↔ r.start ≤ inner.start ∧ inner.stop ≤ r.stop := by
  rw [containsRange, Bool.and_eq_true, decide_eq_true_eq, decide_eq_true_eq]

/-- What holds a range that is not empty is over its first byte. -/
theorem over_of_containsRange (h : r.containsRange inner = true) (hr : inner.start < inner.stop) :
    r.start ≤ inner.start ∧ inner.start < r.stop := by
  obtain ⟨hstart, hstop⟩ := containsRange_iff.mp h
  exact ⟨hstart, Nat.lt_of_lt_of_le hr hstop⟩

end Range

/-- Of leaves around an offset only one is over it. -/
theorem Around.eq_of_over {offset : Nat} {ts before after : List Tip} {r x : Tip}
    (h : Around offset ts before r after) (hx : x ∈ ts) (hstart : x.fullRange.start ≤ offset)
    (hstop : offset < x.fullRange.stop) : x = r := by
  have hmem : x ∈ ts.filter
      (fun t => t.fullRange.start ≤ offset ∧ offset < t.fullRange.stop) :=
    List.mem_filter.mpr ⟨hx, decide_eq_true ⟨hstart, hstop⟩⟩
  rw [h.filter_eq] at hmem
  exact List.mem_singleton.mp hmem

/-- The right leaf at an offset is a leaf of the node. -/
theorem Node.mem_tips_of_right {n : Node} {offset : Nat} {x : Tip}
    (h : Range.Tile n.range.start (n.tips.map Tip.fullRange) n.range.stop)
    (hx : (n.tokensAt offset).right? = some x) : x ∈ n.tips := by
  obtain ⟨hstart, hstop⟩ := inside_of_tokensAt h fun hnone => by
    rw [hnone] at hx
    cases hx
  obtain ⟨before, y, after, hy⟩ := exists_around h hstart hstop
  rw [tokensAt_inside hstart (Nat.le_of_lt hstop), right_locate_around hy] at hx
  obtain rfl := Option.some.inj hx
  exact hy.mem

namespace Tree

variable {tree : Tree} {n : Node} {r : Range}

/-- The leaves of every node of a tree lie in it side by side. -/
def Tiled (tree : Tree) : Prop :=
  ∀ n ∈ tree.root.descendants, Range.Tile n.range.start (n.tips.map Tip.fullRange) n.range.stop

/-- Whatever is over an offset is the leaf over it or above that leaf. -/
theorem Tiled.over_cases (h : tree.Tiled) {offset : Nat} {x : Tip} (hx : x ∈ tree.tips)
    (hstart : x.fullRange.start ≤ offset) (hstop : offset < x.fullRange.stop) {i : Item}
    (hi : tree.Contains i) (hi₁ : i.fullRange.start ≤ offset) (hi₂ : offset < i.fullRange.stop) :
    i = .tip x ∨ ∃ m ∈ x.ancestors, i = .node m := by
  have htile := h tree.root tree.root.mem_descendants_self
  obtain ⟨hfirst, hlast⟩ := htile.bounds _ (List.mem_map_of_mem hx)
  obtain ⟨before, y, after, hy⟩ := exists_around htile (Nat.le_trans hfirst hstart)
    (Nat.lt_of_lt_of_le hstop hlast)
  obtain rfl := hy.eq_of_over hx hstart hstop
  cases i with
  | tip t => exact .inl (congrArg Item.tip (hy.eq_of_over hi hi₁ hi₂))
  | node m =>
    -- the leaf of that node that is over the offset is the only one in the tree
    obtain ⟨_, z, _, hz⟩ := exists_around (h m hi) hi₁ hi₂
    obtain rfl := hy.eq_of_over ((Node.tips_infix hi).subset hz.mem) hz.start_le hz.lt_stop
    exact .inr ⟨m, Node.mem_ancestors_of_tips hz.mem, rfl⟩

/-- What is found around a range that is not empty and lies in a node: it holds the range, and all
else in the tree that holds it is above. -/
theorem Tiled.covering (h : tree.Tiled) (hn : n ∈ tree.root.descendants) (hr : r.start < r.stop)
    (hin : n.range.containsRange r = true) : ∃ e, n.covering? r = some e ∧ tree.Contains e ∧
      e.fullRange.containsRange r = true ∧ ∀ i, tree.Contains i →
        i.fullRange.containsRange r = true → i = e ∨ ∃ m ∈ e.above, i = .node m := by
  obtain ⟨hstart, hstop⟩ := Range.over_of_containsRange hin hr
  obtain ⟨before, x, after, hx⟩ := exists_around (h n hn) hstart hstop
  have hright : (n.tokensAt r.start).right? = some x := by
    rw [Node.tokensAt_inside hstart (Nat.le_of_lt hstop)]
    exact Node.right_locate_around hx
  have htips : x ∈ tree.tips := (Node.tips_infix hn).subset hx.mem
  have hcases : ∀ i, tree.Contains i → i.fullRange.containsRange r = true →
      i = .tip x ∨ ∃ m ∈ x.ancestors, i = .node m := fun i hi hir =>
    have hover := Range.over_of_containsRange hir hr
    h.over_cases htips hx.start_le hx.lt_stop hi hover.1 hover.2
  by_cases hleaf : x.fullRange.containsRange r = true
  · refine ⟨.tip x, ?_, htips, hleaf, hcases⟩
    rw [Node.covering?, hright]
    exact if_pos hleaf
  -- the node itself is above the leaf and holds the range
  obtain ⟨e, he⟩ : ∃ e, x.ancestors.find? (·.range.containsRange r) = some e :=
    Option.isSome_iff_exists.mp <|
      List.find?_isSome.mpr ⟨n, Node.mem_ancestors_of_tips hx.mem, hin⟩
  obtain ⟨her, nearer, farther, heq, hnearer⟩ := List.find?_eq_some_iff_append.mp he
  refine ⟨.node e, ?_, ?_, her, fun i hi hir => ?_⟩
  · rw [Node.covering?, hright]
    exact (if_neg hleaf).trans (congrArg (Option.map Item.node) he)
  · exact Node.ancestors_subset_of_tips htips rfl (heq ▸ by simp)
  · rcases hcases i hi hir with rfl | ⟨m, hm, rfl⟩
    · exact absurd hir hleaf
    · rw [heq, List.mem_append, List.mem_cons] at hm
      rcases hm with hm | rfl | hm
      · have hnot : m.range.containsRange r = false := by simpa using hnearer m hm
        exact absurd hir (Bool.not_eq_true _ ▸ hnot)
      · exact .inl rfl
      · have habove : m ∈ Node.ofAbove e.above := Node.eq_ofAbove heq ▸ hm
        exact .inr ⟨m, habove, rfl⟩

end Tree

/-! ## The way up in tables -/

namespace Table

variable {t : Table}

/-- Tables hold a node of a tree and lead from it to all that is above. -/
structure Rooted (t : Table) (n : Node) : Prop where
  places : ∃ a b, t.Places n a b
  ascends : t.Ascends (.node n.index) ((Node.ofAbove n.above).map Node.index)
  ranges : ∀ m ∈ n.ancestors, t.nodeRange m.index = .ok m.range
  /-- A node has the smaller number than those below it. -/
  length_le : n.ancestors.length ≤ n.index + 1

namespace Rooted

variable {n : Node}

theorem index_lt (h : t.Rooted n) : n.index < t.nodes.size := by
  obtain ⟨a, b, hplace⟩ := h.places
  obtain ⟨up, hstands⟩ := hplace.stands
  rw [hplace.index_eq]
  exact has_of_parent (s := .node a.branches) hstands.parent_eq

/-- The children of a node have it as their parent, and greater numbers. -/
theorem child (h : t.Rooted n) {b : Branch} {es : List Element}
    (hmem : .branch b es ∈ n.children) : t.Rooted (n.child b es) := by
  obtain ⟨c, d, hplace⟩ := h.places
  obtain ⟨up, hstands⟩ := hplace.stands
  have hslot : Element.slot (.branch b es) ∈ n.children.map Element.slot := List.mem_map_of_mem hmem
  have hparent := hstands.inner.parent_eq _ hslot
  have hlt : c.branches + 1 ≤ b.index := (hstands.inner.between _ hslot).1
  rw [← hplace.index_eq] at hparent hlt
  obtain ⟨c', d', hplace'⟩ := hplace.child hmem
  have hlength := h.length_le
  refine ⟨⟨c', d', hplace'⟩, .up hparent h.ascends, ?_, ?_⟩
  · exact List.forall_mem_cons.mpr ⟨hplace'.nodeRange_eq, h.ranges⟩
  · show n.ancestors.length + 1 ≤ b.index + 1
    omega

end Rooted

theorem Holds.rooted_root {tree : Tree} (h : t.Holds tree) : t.Rooted tree.root := by
  obtain ⟨a, -, hplace⟩ := h.places_root
  refine ⟨⟨_, a, hplace⟩, .top ?_, ?_, Nat.le_add_left ..⟩
  · rw [hplace.index_eq]
    exact h.root_eq.2
  · exact List.forall_mem_singleton.mpr hplace.nodeRange_eq

theorem coveringFrom_here {r q : Range} {id : Nat} (count : Nat) (h : t.nodeRange id = .ok q)
    (hq : q.containsRange r = true) : t.coveringFrom r (count + 1) id = .ok (some id) := by
  rw [coveringFrom]
  exact (bind_ok h _).trans (if_pos hq)

theorem coveringFrom_top {r q : Range} {id : Nat} (count : Nat) (h : t.nodeRange id = .ok q)
    (hq : ¬ q.containsRange r = true) (htop : t.parent (.node id) = .ok none) :
    t.coveringFrom r (count + 1) id = .ok none := by
  rw [coveringFrom]
  exact (bind_ok h _).trans <| (if_neg hq).trans (bind_ok htop _)

theorem coveringFrom_up {r q : Range} {id up : Nat} (count : Nat) (h : t.nodeRange id = .ok q)
    (hq : ¬ q.containsRange r = true) (hup : t.parent (.node id) = .ok (some up)) :
    t.coveringFrom r (count + 1) id = t.coveringFrom r count up := by
  rw [coveringFrom]
  exact (bind_ok h _).trans <| (if_neg hq).trans (bind_ok hup _)

/-- From a node up the tables are searched as the nodes of the tree are. -/
theorem coveringFrom_eq {r : Range} {m : Node} {ms : List Node} {count : Nat}
    (h : t.Ascends (.node m.index) (ms.map Node.index))
    (hranges : ∀ k ∈ m :: ms, t.nodeRange k.index = .ok k.range) (hcount : ms.length < count) :
    t.coveringFrom r count m.index =
      .ok (((m :: ms).find? (·.range.containsRange r)).map Node.index) := by
  induction ms generalizing m count with
  | nil =>
    obtain ⟨count, rfl⟩ := Nat.exists_eq_add_one.mpr (Nat.zero_lt_of_lt hcount)
    have hm := hranges m List.mem_cons_self
    by_cases hr : m.range.containsRange r = true
    · rw [coveringFrom_here count hm hr]
      simp [hr]
    · cases h with
      | top htop =>
      rw [coveringFrom_top count hm hr htop]
      simp [hr]
  | cons k ms ih =>
    obtain ⟨count, rfl⟩ := Nat.exists_eq_add_one.mpr (Nat.zero_lt_of_lt hcount)
    obtain ⟨hm, hms⟩ := List.forall_mem_cons.mp hranges
    by_cases hr : m.range.containsRange r = true
    · rw [coveringFrom_here count hm hr]
      simp [hr]
    · cases h with
      | up hup tail =>
      rw [coveringFrom_up count hm hr hup, ih tail hms (Nat.lt_of_succ_lt_succ hcount)]
      simp [List.find?_cons, hr]

variable {tree : Tree} {n : Node} {x : Tip}

/-- From a node up to the root the search takes no more steps than there are nodes. -/
theorem Rooted.coveringFrom_eq (h : t.Rooted n) (r : Range) :
    t.coveringFrom r t.nodes.size n.index =
      .ok ((n.ancestors.find? (·.range.containsRange r)).map Node.index) := by
  have hlt := h.index_lt
  have hlength := h.length_le
  rw [Node.ancestors, List.length_cons] at hlength
  exact Table.coveringFrom_eq h.ascends h.ranges (by omega)

/-- From a token the tables lead to the node above it, and on to the root. -/
theorem Holds.exists_token (h : t.Holds tree) (hx : x ∈ tree.tips) :
    ∃ e, t.token x.index = .ok e ∧ e.parent = x.parent.index ∧ t.Rooted x.parent := by
  obtain ⟨_, -, hroot⟩ := h.places_root
  obtain ⟨up, hshows⟩ := hroot.shows_tips x hx
  obtain ⟨e, he, -, hparent, -⟩ := hshows.token_eq
  have hrooted : t.Rooted x.parent :=
    Node.forall_tips (fun _ _ _ hm hb => hm.child hb) h.rooted_root x hx
  refine ⟨e, he, ?_, hrooted⟩
  -- the node that holds the token is the one that the token names
  obtain ⟨c, d, hplace⟩ := hrooted.places
  obtain ⟨above, hstands⟩ := hplace.stands
  have hslot : Element.slot (.leaf x.leaf) ∈ x.parent.children.map Element.slot :=
    List.mem_map_of_mem (Node.leaf_mem_of_tips hx)
  have hboth := hshows.parent_eq.symm.trans (hstands.inner.parent_eq _ hslot)
  rw [hparent, hplace.index_eq]
  exact Option.some.inj (Except.ok.inj hboth)

/-- The element around a range is found in tables as it is in the tree. -/
theorem Holds.covering_eq (h : t.Holds tree) (hn : n ∈ tree.root.descendants) (r : Range) :
    t.covering n.index r = .ok ((n.covering? r).map Item.slot) := by
  obtain ⟨a, b, hplace⟩ := h.places n hn
  rw [covering, Node.covering?]
  refine (bind_ok (hplace.tokensAt_eq r.start) _).trans ?_
  rw [AtOffset.right_map]
  cases hat : (n.tokensAt r.start).right? with
  | none => rfl
  | some x =>
    have hx : x ∈ n.tips := Node.mem_tips_of_right hplace.tile hat
    obtain ⟨up, hshows⟩ := hplace.shows_tips x hx
    obtain ⟨e, he, hparent, hrooted⟩ := h.exists_token ((Node.tips_infix hn).subset hx)
    refine (bind_ok hshows.tokenRange_eq _).trans ?_
    dsimp only
    by_cases hleaf : x.fullRange.containsRange r = true
    · rw [if_pos hleaf]
      exact if_pos hleaf
    · rw [if_neg hleaf]
      refine (if_neg hleaf).trans <| (bind_ok he _).trans ?_
      rw [hparent]
      refine (bind_ok (hrooted.coveringFrom_eq r) _).trans (congrArg Except.ok ?_)
      rw [Option.map_map, Option.map_map]
      rfl

/-- What tables find around a range from a node: an element of the tree that holds the range, found
as it is in the tree, such that all else in the whole tree that holds the range is above it. -/
structure Covers (t : Table) (tree : Tree) (n : Node) (r : Range) (e : Item) : Prop where
  found : n.covering? r = some e
  searched : t.covering n.index r = .ok (some e.slot)
  mem : tree.Contains e
  holds : e.fullRange.containsRange r = true
  smallest : ∀ i, tree.Contains i → i.fullRange.containsRange r = true →
    i = e ∨ ∃ m ∈ e.above, i = .node m

theorem Holds.tiled (h : t.Holds tree) : tree.Tiled := by
  intro n hn
  obtain ⟨a, b, hplace⟩ := h.places n hn
  exact hplace.tile

/-- In the tree of every session, for every node and every range in it that is not empty, the
smallest element around the range is found. -/
theorem build_covers {text : List Char} {steps : List BuildStep} (h : build text steps = .ok t) :
    ∃ tree, t.tree = .ok tree ∧
      tree.root.descendants.map Node.index = List.range t.nodes.size ∧
      tree.tips.map Tip.index = List.range t.tokens.size ∧
      ∀ n ∈ tree.root.descendants, ∀ r : Range, r.start < r.stop →
        n.range.containsRange r = true → ∃ e, t.Covers tree n r e := by
  obtain ⟨tree, -, hholds⟩ := exists_tree h
  refine ⟨tree, hholds.tree_eq, hholds.index_descendants, hholds.index_tips, ?_⟩
  intro n hn r hr hin
  obtain ⟨e, hfound, hmem, hheld, hsmallest⟩ := hholds.tiled.covering hn hr hin
  refine ⟨e, hfound, ?_, hmem, hheld, hsmallest⟩
  rw [hholds.covering_eq hn, hfound, Option.map_some]

/-- What a look at the tables of a session and at the tree in them shows. -/
theorem exists_build_of_check (text : List Char) (steps : List BuildStep)
    (check : Table → Tree → Bool)
    (h : ((build text steps).toOption.any fun t => t.tree.toOption.any (check t)) = true) :
    ∃ t tree, build text steps = .ok t ∧ t.tree = .ok tree ∧ check t tree = true := by
  obtain ⟨t, ht, h⟩ := exists_ok_of_check _ h
  obtain ⟨tree, htree, h⟩ := exists_ok_of_check _ h
  exact ⟨t, tree, ht, htree, h⟩

/-- A range in the trivia of a token: the token and both nodes above it are over the same bytes, and
the token is the smallest. -/
theorem build_covers_trivia : ∃ t tree e, build [' ', 'a']
    [.startNode .sourceFile, .startNode .exprStmt, .token [⟨.whitespace, 1⟩] .inlineHtml 1,
      .missing, .finishNode, .token [] .eof 0, .finishNode] = .ok t ∧ t.tree = .ok tree ∧
    t.Covers tree tree.root (.ofLength 0 1) e ∧ e.slot = .token 0 := by
  obtain ⟨t, tree, ht, htree, hcheck⟩ := exists_build_of_check [' ', 'a']
    [.startNode .sourceFile, .startNode .exprStmt, .token [⟨.whitespace, 1⟩] .inlineHtml 1,
      .missing, .finishNode, .token [] .eof 0, .finishNode]
    (fun t tree => tree.root.range = .ofLength 0 2 ∧
      (t.covering tree.root.index (.ofLength 0 1)).toOption = some (some (.token 0)))
    (by decide +kernel)
  obtain ⟨hrange, hsearch⟩ := of_decide_eq_true hcheck
  obtain ⟨tree', htree', -, -, hcovers⟩ := build_covers ht
  obtain rfl : tree = tree' := Except.ok.inj (htree.symm.trans htree')
  obtain ⟨e, he⟩ := hcovers tree.root tree.root.mem_descendants_self (.ofLength 0 1) (by decide)
    (by rw [hrange]; decide)
  rw [he.searched] at hsearch
  exact ⟨t, tree, e, ht, htree, he, Option.some.inj (Option.some.inj hsearch)⟩

end Table
end PhpSyntax
