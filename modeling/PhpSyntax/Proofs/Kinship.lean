import Mathlib.Data.List.Nodup
import PhpSyntax.Proofs.Parsed
import PhpSyntax.Proofs.Tiling
import PhpSyntax.Proofs.Touring

/-!
How the tables of a tree agree with each other: the children of a node have it as their parent and
lie in it side by side, its first and its last token are those that a walk meets, and from every
token the parents lead to the root.
-/
namespace PhpSyntax

namespace TableVisit

def token? : TableVisit → Option Nat
  | token id => some id
  | _ => none

theorem tokens_node (id : Nat) (visits : List TableVisit) :
    (enter id :: visits ++ [leave id]).filterMap token? = visits.filterMap token? := by
  rw [List.cons_append, List.filterMap_cons_none rfl, List.filterMap_append]
  exact List.append_nil _

end TableVisit

namespace Slot

/-- A node or a token whose number is given out between two tallies. -/
def Between (a b : Tally) : Slot → Prop
  | node id => a.branches ≤ id ∧ id < b.branches
  | token id => a.leaves ≤ id ∧ id < b.leaves

theorem Between.mono {a b c d : Tally} {s : Slot} (h : s.Between b c)
    (hb : a.branches ≤ b.branches) (hl : a.leaves ≤ b.leaves) (hb' : c.branches ≤ d.branches)
    (hl' : c.leaves ≤ d.leaves) : s.Between a d := by
  cases s with
  | node id => exact ⟨Nat.le_trans hb h.1, Nat.lt_of_lt_of_le h.2 hb'⟩
  | token id => exact ⟨Nat.le_trans hl h.1, Nat.lt_of_lt_of_le h.2 hl'⟩

/-- What is between two tallies, but is not the node that is entered first, comes before or after a
third one. -/
theorem Between.enter_or {a b : Tally} {s : Slot} (h : s.Between a b) (hs : s ≠ .node a.branches)
    (m : Tally) : s.Between a.enter m ∨ s.Between m b := by
  cases s with
  | node id =>
    have hne : id ≠ a.branches := fun he => hs (congrArg node he)
    rcases Nat.lt_or_ge id m.branches with hm | hm
    · exact .inl ⟨Nat.lt_of_le_of_ne h.1 hne.symm, hm⟩
    · exact .inr ⟨hm, h.2⟩
  | token id =>
    rcases Nat.lt_or_ge id m.leaves with hm | hm
    · exact .inl ⟨h.1, hm⟩
    · exact .inr ⟨hm, h.2⟩

end Slot

namespace Range

variable {start stop : Nat} {rs : List Range}

/-- Ranges that tile a stretch are together as long as it. -/
theorem Tile.sum_length (h : Tile start rs stop) :
    start + (rs.map length).sum = stop := by
  induction rs generalizing start with
  | nil => exact h
  | cons r rs ih =>
    obtain ⟨rfl, htail⟩ := h
    have hr := r.start_le_stop
    have := ih htail
    rw [List.map_cons, List.sum_cons, length]
    omega

theorem Tile.append {middle : Nat} {rs' : List Range} (h : Tile start rs middle)
    (h' : Tile middle rs' stop) : Tile start (rs ++ rs') stop := by
  induction rs generalizing start with
  | nil =>
    obtain rfl : start = middle := h
    exact h'
  | cons r rs ih => exact ⟨h.1, ih h.2⟩

end Range

namespace Table

variable {t : Table} {parent : Option Nat} {a b : Tally} {es : List Element}

theorem Lays.between (h : t.Lays parent a es b) : ∀ s ∈ es.map Element.slot, s.Between a b := by
  induction h with
  | nil => simp
  | leaf _ _ tail ih =>
    refine List.forall_mem_cons.mpr ⟨⟨Nat.le_refl _, tail.leaves_le⟩, fun s hs => ?_⟩
    exact (ih s hs).mono (Nat.le_refl _) (Nat.le_succ _) (Nat.le_refl _) (Nat.le_refl _)
  | branch _ _ _ inner tail _ ih =>
    refine List.forall_mem_cons.mpr
      ⟨⟨Nat.le_refl _, Nat.lt_of_lt_of_le inner.branches_le tail.branches_le⟩, fun s hs => ?_⟩
    exact (ih s hs).mono (Nat.le_of_succ_le inner.branches_le) inner.leaves_le (Nat.le_refl _)
      (Nat.le_refl _)

/-- No node or token is twice among the children of a node. -/
theorem Lays.nodup (h : t.Lays parent a es b) : (es.map Element.slot).Nodup := by
  induction h with
  | nil => exact List.nodup_nil
  | leaf _ _ tail ih =>
    -- what comes later has larger numbers
    refine List.nodup_cons.mpr ⟨?_, ih⟩
    intro hs
    exact Nat.not_succ_le_self _ (tail.between _ hs).1
  | branch _ _ _ inner tail _ ih =>
    refine List.nodup_cons.mpr ⟨?_, ih⟩
    intro hs
    exact Nat.not_succ_le_self _ (Nat.le_trans inner.branches_le (tail.between _ hs).1)

theorem Lays.parent_eq (h : t.Lays parent a es b) :
    ∀ s ∈ es.map Element.slot, t.parent s = .ok parent := by
  induction h using Lays.induct with
  | nil => simp
  | leaf shown _ _ ih => exact List.forall_mem_cons.mpr ⟨shown.parent_eq, ih⟩
  | branch stands _ _ ih => exact List.forall_mem_cons.mpr ⟨stands.parent_eq, ih⟩

/-- Every number that is given out to a node is that of one that stands in the tables. -/
theorem Lays.exists_stands (h : t.Lays parent a es b) {id : Nat} (ha : a.branches ≤ id)
    (hb : id < b.branches) :
    ∃ kind up c cs m, c.branches = id ∧ t.Stands kind up c cs m := by
  induction h using Lays.induct with
  | nil => exact absurd ha (Nat.not_le_of_lt hb)
  | leaf _ _ _ ih => exact ih ha hb
  | @branch parent kind a cs m _ _ stands _ ihi iht =>
    rcases Nat.lt_or_ge id m.branches with hm | hm
    · rcases Nat.eq_or_lt_of_le ha with rfl | ha
      · exact ⟨kind, parent, a, cs, m, rfl, stands⟩
      · exact ihi ha hm
    · exact iht hm hb

/-- Every node and every token is at the top or a child of a node. -/
theorem Lays.mem_or_exists (h : t.Lays parent a es b) {s : Slot} (hs : s.Between a b) :
    s ∈ es.map Element.slot ∨ ∃ kind up c cs m, c.branches < b.branches ∧
      t.Stands kind up c cs m ∧ s ∈ cs.map Element.slot := by
  induction h using Lays.induct with
  | nil => cases s <;> exact absurd hs.1 (Nat.not_le_of_lt hs.2)
  | @leaf _ _ _ _ _ _ _ _ leaves _ _ _ _ _ ih =>
    by_cases he : s = .token leaves
    · exact .inl (he ▸ List.mem_cons_self)
    · refine (ih ?_).imp_left (List.mem_cons_of_mem _)
      cases s with
      | node id => exact hs
      | token id => exact ⟨Nat.lt_of_le_of_ne hs.1 fun hi => he (hi ▸ rfl), hs.2⟩
  | @branch parent kind a cs m es b stands tail ihi iht =>
    by_cases he : s = .node a.branches
    · exact .inl (he ▸ List.mem_cons_self)
    rcases hs.enter_or he m with hi | ht
    · have hle := tail.branches_le
      refine .inr ?_
      rcases ihi hi with hmem | ⟨kind, up, c, cs, k, hc, hstands, hmem⟩
      · exact ⟨kind, parent, a, cs, m, Nat.lt_of_lt_of_le stands.branches_lt hle, stands, hmem⟩
      · exact ⟨kind, up, c, cs, k, Nat.lt_of_lt_of_le hc hle, hstands, hmem⟩
    · exact (iht ht).imp_left (List.mem_cons_of_mem _)

/-- The ranges of elements that are held lie side by side. -/
theorem Lays.ranges_eq (h : t.Lays parent a es b) : ∃ ranges,
    (es.map Element.slot).mapM t.range = .ok ranges ∧ Range.Tile a.covered ranges b.covered := by
  induction h using Lays.induct with
  | nil => exact ⟨[], rfl, rfl⟩
  | @leaf _ _ leading width _ _ covered _ _ _ _ shown _ _ ih =>
    obtain ⟨ranges, hranges, htile⟩ := ih
    refine ⟨.ofLength covered (TriviaPiece.totalWidth leading + width) :: ranges, ?_, rfl, htile⟩
    rw [List.map_cons, List.mapM_cons]
    exact (bind_ok shown.tokenRange_eq _).trans (bind_ok hranges _)
  | @branch _ _ a _ m _ _ stands _ _ ih =>
    obtain ⟨ranges, hranges, htile⟩ := ih
    refine ⟨.ofLength a.covered (m.covered - a.covered) :: ranges, ?_, rfl, ?_⟩
    · rw [List.map_cons, List.mapM_cons]
      exact (bind_ok stands.nodeRange_eq _).trans (bind_ok hranges _)
    · show Range.Tile (a.covered + (m.covered - a.covered)) ranges _
      rwa [Nat.add_sub_cancel' stands.covered_le]

/-- The tokens that are met in a walk through some elements, in order. -/
theorem Lays.tour_tokens (h : t.Lays parent a es b) :
    (es.flatMap Element.tour).filterMap TableVisit.token? =
      List.range' a.leaves (b.leaves - a.leaves) := by
  induction h using Lays.induct with
  | nil =>
    rw [Nat.sub_self]
    rfl
  | @leaf _ _ _ _ _ _ _ _ leaves _ b _ _ tail ih =>
    obtain ⟨k, hk⟩ := Nat.exists_eq_add_of_le (show leaves + 1 ≤ b.leaves from tail.leaves_le)
    have hsub : b.leaves - leaves = k + 1 := by omega
    have hsub' : b.leaves - (leaves + 1) = k := by omega
    rw [List.flatMap_cons, Element.tour_leaf, List.filterMap_append, ih, hsub, hsub',
      List.range'_succ]
    rfl
  | @branch _ _ a cs m _ b stands tail ihi iht =>
    have hle := Nat.le_of_lt stands.leaves_lt
    have hle' := tail.leaves_le
    have hsplit : b.leaves - a.leaves = m.leaves - a.leaves + (b.leaves - m.leaves) := by omega
    rw [List.flatMap_cons, Element.tour_branch, List.filterMap_append, TableVisit.tokens_node, ihi,
      iht, hsplit, ← List.range'_append_1, Nat.add_sub_cancel' hle]
    rfl

/-- There is an entry for a node or a token. -/
def Has (t : Table) : Slot → Prop
  | .node id => id < t.nodes.size
  | .token id => id < t.tokens.size

/-- The number of a node; every token comes after the nodes. -/
def rank (t : Table) : Slot → Nat
  | .node id => id
  | .token _ => t.nodes.size

/-- The nodes above a node or a token, the nearest first, up to one that has no parent. -/
inductive Ascends (t : Table) : Slot → List Nat → Prop where
  | top {s} (h : t.parent s = .ok none) : Ascends t s []
  | up {s p above} (h : t.parent s = .ok (some p)) (tail : Ascends t (.node p) above) :
    Ascends t s (p :: above)

/-- Tables that agree with each other. Every node has children, and the parent of a node or token
is the one node that it is a child of, once; only the root has none. The children of a node lie in
it side by side. The first and the last token of a node are those that a walk meets. From everywhere
the parents lead to the root. -/
structure Coherent (t : Table) : Prop where
  root : t.Has (.node root) ∧ t.parent (.node root) = .ok none
  parent : ∀ s, t.Has s → s ≠ .node Table.root →
    ∃ p, p < t.nodes.size ∧ t.parent s = .ok (some p)
  children : ∀ id < t.nodes.size, ∃ slots, t.children id = .ok slots ∧ slots ≠ [] ∧
    ∀ s, slots.count s = if t.parent s = .ok (some id) then 1 else 0
  ranges : ∀ id < t.nodes.size, ∃ slots ranges r, t.children id = .ok slots ∧
    slots.mapM t.range = .ok ranges ∧ t.nodeRange id = .ok r ∧
    Range.Tile r.start ranges r.stop ∧ r.length = (ranges.map Range.length).sum
  ends : ∀ id < t.nodes.size, ∃ visits first last, TableWalk.Yields t (.through id) visits ∧
    t.firstToken id = .ok first ∧ (visits.filterMap TableVisit.token?).head? = some first ∧
    t.lastToken id = .ok last ∧ (visits.filterMap TableVisit.token?).getLast? = some last
  ascends : ∀ s, t.Has s → ∃ above, t.Ascends s above ∧
    (s :: above.map Slot.node).getLast? = some (.node Table.root)

/-- Only what has an entry has a parent. -/
theorem has_of_parent {s : Slot} {up : Option Nat} (h : t.parent s = .ok up) : t.Has s := by
  cases s with
  | node id =>
    cases hn : t.node id with
    | error e =>
      rw [Table.parent, hn] at h
      cases h
    | ok n => exact (Array.getElem?_eq_some_iff.mp (entry_eq_ok_iff.mp hn)).1
  | token id =>
    cases he : t.token id with
    | error e =>
      rw [Table.parent, he] at h
      cases h
    | ok e => exact (Array.getElem?_eq_some_iff.mp (entry_eq_ok_iff.mp he)).1

namespace Holds

variable {tree : Tree}

theorem exists_stands (h : t.Holds tree) {id : Nat} (hid : id < t.nodes.size) :
    ∃ kind up a cs b, a.branches = id ∧ t.Stands kind up a cs b := by
  obtain ⟨a, -, hbranches, -, hlays⟩ := h.lays
  exact hlays.exists_stands (Nat.zero_le id) (hbranches ▸ hid)

theorem root_eq (h : t.Holds tree) :
    t.Has (.node root) ∧ t.parent (.node root) = .ok none := by
  obtain ⟨a, -, hbranches, -, hlays⟩ := h.lays
  obtain ⟨-, hstands⟩ := Stands.of_lays hlays
  exact ⟨(hbranches ▸ hstands.branches_lt : 0 < t.nodes.size), hstands.parent_eq⟩

/-- Everything but the root is a child of a node. -/
theorem exists_mem (h : t.Holds tree) {s : Slot} (hs : t.Has s) (hroot : s ≠ .node root) :
    ∃ kind up a cs b, a.branches < t.nodes.size ∧ t.Stands kind up a cs b ∧
      s ∈ cs.map Element.slot := by
  obtain ⟨a, -, hbranches, hleaves, hlays⟩ := h.lays
  have hbetween : s.Between (.start t.text) a := by
    cases s with
    | node id => exact ⟨Nat.zero_le id, hbranches ▸ hs⟩
    | token id => exact ⟨Nat.zero_le id, hleaves ▸ hs⟩
  obtain ⟨hbranch, -⟩ := Stands.of_lays hlays
  rw [← hbranches]
  apply (hlays.mem_or_exists hbetween).resolve_left
  intro hmem
  apply hroot
  rw [List.mem_singleton.mp hmem, Element.slot, congrArg Branch.index hbranch]
  rfl

/-- A node or token is a child of its parent, once, and of no other node. -/
theorem count_eq (h : t.Holds tree) {kind : Kind} {up : Option Nat} {cs : List Element}
    (hstands : t.Stands kind up a cs b) (s : Slot) :
    (cs.map Element.slot).count s = if t.parent s = .ok (some a.branches) then 1 else 0 := by
  split
  · next hparent =>
    -- it is among the children of some node, and that one is its parent too
    have hroot : s ≠ .node root := by
      rintro rfl
      rw [h.root_eq.2] at hparent
      cases hparent
    obtain ⟨_, _, c, ds, _, -, hstands', hmem⟩ := h.exists_mem (has_of_parent hparent) hroot
    have hc : c.branches = a.branches := by
      have hp := (hstands'.inner.parent_eq s hmem).symm.trans hparent
      exact Option.some.inj (Except.ok.inj hp)
    have hslots : ds.map Element.slot = cs.map Element.slot := by
      have hp := hstands'.children_eq
      rw [hc, hstands.children_eq] at hp
      exact (Except.ok.inj hp).symm
    exact List.nodup_iff_count_eq_one.mp hstands.inner.nodup s (hslots ▸ hmem)
  · next hparent =>
    apply List.count_eq_zero.mpr
    intro hmem
    exact hparent (hstands.inner.parent_eq s hmem)

/-- From everywhere the parents lead to the root: a parent has the smaller number. -/
theorem ascends_eq (h : t.Holds tree) {s : Slot} (hs : t.Has s) : ∃ above,
    t.Ascends s above ∧ (s :: above.map Slot.node).getLast? = some (.node root) := by
  induction hr : t.rank s using Nat.strongRecOn generalizing s with
  | ind r ih =>
  subst hr
  by_cases hroot : s = .node root
  · exact ⟨[], .top (hroot ▸ h.root_eq.2), hroot ▸ rfl⟩
  · obtain ⟨_, _, a, cs, _, ha, hstands, hmem⟩ := h.exists_mem hs hroot
    have hlt : t.rank (.node a.branches) < t.rank s := by
      cases s with
      | node id => exact (hstands.inner.between _ hmem).1
      | token id => exact ha
    have hhas : t.Has (.node a.branches) := ha
    obtain ⟨above, habove, hlast⟩ := ih _ hlt hhas rfl
    exact ⟨a.branches :: above, .up (hstands.inner.parent_eq _ hmem) habove, hlast⟩

/-- The tables of a tree agree with each other. -/
theorem coherent (h : t.Holds tree) : t.Coherent where
  root := h.root_eq
  parent s hs hroot := by
    obtain ⟨_, _, c, cs, _, hc, hstands, hmem⟩ := h.exists_mem hs hroot
    exact ⟨c.branches, hc, hstands.inner.parent_eq _ hmem⟩
  children id hid := by
    obtain ⟨_, _, c, cs, _, rfl, hstands⟩ := h.exists_stands hid
    exact ⟨_, hstands.children_eq, by simpa using hstands.nonempty, h.count_eq hstands⟩
  ranges id hid := by
    obtain ⟨_, _, c, cs, b, rfl, hstands⟩ := h.exists_stands hid
    obtain ⟨ranges, hranges, htile⟩ := hstands.inner.ranges_eq
    have htile : Range.Tile c.covered ranges b.covered := htile
    have hsum := htile.sum_length
    refine ⟨_, ranges, _, hstands.children_eq, hranges, hstands.nodeRange_eq, ?_, ?_⟩
    · show Range.Tile c.covered ranges (c.covered + (b.covered - c.covered))
      rwa [Nat.add_sub_cancel' hstands.covered_le]
    · show c.covered + (b.covered - c.covered) - c.covered = _
      omega
  ends id hid := by
    obtain ⟨_, _, c, cs, b, rfl, hstands⟩ := h.exists_stands hid
    have hlt := hstands.leaves_lt
    have hne : b.leaves - c.leaves ≠ 0 := Nat.sub_ne_zero_of_lt hlt
    refine ⟨_, _, _, hstands.yields, hstands.firstToken_eq, ?_, hstands.lastToken_eq, ?_⟩
    · rw [TableVisit.tokens_node, hstands.inner.tour_tokens]
      exact List.head?_range'.trans (if_neg hne)
    · rw [TableVisit.tokens_node, hstands.inner.tour_tokens]
      refine List.getLast?_range'.trans ((if_neg hne).trans (congrArg some ?_))
      show c.leaves + (b.leaves - c.leaves) - 1 = b.leaves - 1
      rw [Nat.add_sub_cancel' (Nat.le_of_lt hlt)]
  ascends s hs := h.ascends_eq hs

end Holds

/-- The tree of a parse is built by a session. -/
theorem exists_steps {dialect : Dialect} {text : List Char} {p : Parse}
    (h : parse dialect text = .ok p) : ∃ steps, Tree.build text steps = .ok p.tree := by
  unfold parse at h
  split at h
  · cases h
  split at h
  · cases h
  next steps _ =>
  split at h
  · next tree htree =>
    obtain rfl := Except.ok.inj h
    exact ⟨steps, htree⟩
  · cases h

/-- The tables that a session builds agree with each other, and so do those of the tree that a text
is parsed to. -/
theorem build_coherent :
    (∀ text steps t, Table.build text steps = .ok t → t.Coherent) ∧
    ∀ dialect text, ∃ p steps t, parse dialect text = .ok p ∧ Table.build text steps = .ok t ∧
      t.tree = .ok p.tree ∧ t.Coherent := by
  have hbuild : ∀ text steps t, Table.build text steps = .ok t → t.Coherent := by
    intro text steps t h
    obtain ⟨tree, -, hholds⟩ := exists_tree h
    exact hholds.coherent
  refine ⟨hbuild, ?_⟩
  intro dialect text
  obtain ⟨_, p, _, _, -, -, hp, -⟩ := exists_parse dialect text
  obtain ⟨steps, hsteps⟩ := exists_steps hp
  obtain ⟨t, ht, hholds⟩ := exists_table hsteps
  exact ⟨p, steps, t, hp, ht, hholds.tree_eq, hbuild text steps t ht⟩

/-- A node that is made of a missing token alone, between two tokens. -/
theorem build_coherent_missing : ∃ t, Table.build [' ', 'a']
    [.startNode .sourceFile, .token [⟨.whitespace, 1⟩] .inlineHtml 1, .startNode .exprStmt,
      .missing, .finishNode, .token [] .eof 0, .finishNode] = .ok t ∧ t.Coherent :=
  Exists.imp (fun t h => ⟨h, build_coherent.1 _ _ t h⟩) ⟨_, rfl⟩

end Table
end PhpSyntax
