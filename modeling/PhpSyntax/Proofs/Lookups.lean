import PhpSyntax.Proofs.Offsets
import PhpSyntax.Proofs.Placing
import PhpSyntax.Tree.Lookup

/-!
Tokens looked up in tables by offsets. The search by halving finds in the tables of a tree what a
look at one leaf after the other finds in the tree. In the tree of a text it finds the leaf at the
left of an offset only if no missing leaf hides it and the node goes on.
-/
namespace PhpSyntax

namespace Table

section Halving

variable {passes : Nat → Bool} {base size count : Nat}

/-- The search ends where the entries cease to pass the test: they do so nowhere but between `base`
and `base + size`. -/
theorem partitionFrom_eq (hsize : 0 < size) (hbase : base ≤ count) (hcount : count ≤ base + size)
    (h : ∀ i, i < base + size → (passes i = true ↔ i < count)) :
    partitionFrom passes base size = count := by
  induction size using Nat.strongRecOn generalizing base with
  | ind size ih =>
  rw [partitionFrom]
  split
  · next hlt =>
    have hmid := h (base + size / 2) (by omega)
    dsimp only
    by_cases hpass : passes (base + size / 2) = true
    · have hle := hmid.mp hpass
      rw [if_pos hpass]
      exact ih _ (by omega) (by omega) (by omega) (by omega) fun i hi => h i (by omega)
    · have hle : count ≤ base + size / 2 := Nat.le_of_not_lt (mt hmid.mpr hpass)
      rw [if_neg hpass]
      exact ih _ (by omega) (by omega) hbase (by omega) fun i hi => h i (by omega)
  · have hlast := h base (by omega)
    by_cases hpass : passes base = true
    · have hlt := hlast.mp hpass
      rw [if_pos hpass]
      omega
    · have hge := mt hlast.mpr hpass
      rw [if_neg hpass]
      omega

/-- Where some entries pass a test and all behind them do not, as many pass as there are. -/
theorem partitionPoint_eq {α : Type} {passes : α → Bool} {front back : List α}
    (hfront : ∀ e ∈ front, passes e = true) (hback : ∀ e ∈ back, passes e = false) :
    partitionPoint passes (front ++ back).toArray = front.length := by
  rw [partitionPoint]
  split
  · next hempty =>
    have hnil : front ++ back = [] := by simpa using hempty
    rw [(List.append_eq_nil_iff.mp hnil).1]
    rfl
  · next hempty =>
    have hpos : 0 < (front ++ back).length := by
      refine List.length_pos_iff.mpr fun hnil => hempty ?_
      simp [hnil]
    refine partitionFrom_eq (by simpa using hpos) (Nat.zero_le _) (by simp) fun i hi => ?_
    rw [List.getElem?_toArray]
    by_cases hlt : i < front.length
    · rw [List.getElem?_append_left hlt, List.getElem?_eq_getElem hlt]
      simpa [hlt] using hfront _ (List.getElem_mem hlt)
    · have hle := Nat.le_of_not_lt hlt
      have hi : i - front.length < back.length := by simp at hi; omega
      rw [List.getElem?_append_right hle, List.getElem?_eq_getElem hi]
      simpa [hlt] using hback _ (List.getElem_mem hi)

end Halving

variable {t : Table} {n : Node} {a b : Tally}

/-- The tokens of a node stand next to each other, and end where its leaves do. -/
theorem Places.part_tokens (h : t.Places n a b) : ∃ entries,
    part t.tokens ⟨a.leaves, b.leaves⟩ = .ok entries ∧
    entries.map (·.stop) = n.tips.map (·.fullRange.stop) := by
  obtain ⟨up, hstands⟩ := h.stands
  have hlt := hstands.leaves_lt
  obtain ⟨-, -, last, hlast, -⟩ := hstands.inner.ends hstands.nonempty
  obtain ⟨hsize, -⟩ := Array.getElem?_eq_some_iff.mp hlast
  have hsize : b.leaves ≤ t.tokens.size := by omega
  have hlength : n.tips.length = b.leaves - a.leaves := by
    rw [← List.length_map (f := (·.index)), h.index_tips, List.length_range']
  refine ⟨_, if_pos ⟨Nat.le_of_lt hlt, hsize⟩, List.ext_getElem? fun i => ?_⟩
  rw [List.getElem?_map, List.getElem?_map, Array.getElem?_toList, Array.getElem?_extract,
    Nat.min_eq_left hsize, ← hlength]
  by_cases hi : i < n.tips.length
  · have htip : n.tips[i]? = some n.tips[i] := List.getElem?_eq_getElem hi
    obtain ⟨_, _, hentry, -⟩ := h.shows_tips _ (List.getElem_mem hi)
    rw [if_pos hi, htip, ← h.index_tip htip, Tip.index, hentry]
    exact congrArg some (Nat.add_assoc ..)
  · rw [if_neg hi, List.getElem?_eq_none (Nat.le_of_not_lt hi)]
    rfl

/-- The search in the table finds how many leaves end up to an offset. -/
theorem Places.search_tokens (h : t.Places n a b) {offset : Nat} {before after : List Tip}
    (htips : n.tips = before ++ after) (hbefore : ∀ x ∈ before, x.fullRange.stop ≤ offset)
    (hafter : ∀ x ∈ after, offset < x.fullRange.stop) : ∃ tokens,
    part t.tokens ⟨a.leaves, b.leaves⟩ = .ok tokens ∧
    tokens.length = before.length + after.length ∧
    partitionPoint (fun e => decide (e.stop ≤ offset)) tokens.toArray = before.length := by
  obtain ⟨tokens, hpart, hstops⟩ := h.part_tokens
  have hlength := congrArg List.length hstops
  rw [List.length_map, List.length_map, htips, List.length_append] at hlength
  rw [htips, List.map_append] at hstops
  obtain ⟨front, back, rfl, hfront, hback⟩ := List.map_eq_append_iff.mp hstops
  have hcount : front.length = before.length := by
    simpa using congrArg List.length hfront
  refine ⟨_, hpart, hlength, hcount ▸ partitionPoint_eq (fun e he => ?_) fun e he => ?_⟩
  · have hstop : e.stop ∈ before.map (·.fullRange.stop) := hfront ▸ List.mem_map_of_mem he
    obtain ⟨x, hx, hstop⟩ := List.mem_map.mp hstop
    exact decide_eq_true (hstop ▸ hbefore x hx)
  · have hstop : e.stop ∈ after.map (·.fullRange.stop) := hback ▸ List.mem_map_of_mem he
    obtain ⟨x, hx, hstop⟩ := List.mem_map.mp hstop
    exact decide_eq_false (Nat.not_le_of_lt (hstop ▸ hafter x hx))

theorem Shows.isMissing_eq {up : Nat} {l : Leaf} (h : t.Shows up l) :
    t.isMissing l.index = .ok l.isMissing := by
  obtain ⟨e, he, hkind, -⟩ := h.token_eq
  rw [Leaf.isMissing, ← hkind]
  exact bind_ok he _

/-- The token before the first one that ends behind an offset is looked at as the leaf before it
is. -/
theorem Places.joinLeft_eq (h : t.Places n a b) {offset : Nat} {before after : List Tip} {r : Tip}
    (hr : Around offset n.tips before r after) :
    t.joinLeft offset before.length (a.leaves + before.length) =
      .ok ((Node.locate offset none n.tips).map Tip.index) := by
  have hindex : r.index = a.leaves + before.length := h.index_tip (by simp [hr.eq])
  rw [Node.locate_around hr, ← hindex, joinLeft]
  cases hlast : before.getLast? with
  | none =>
    obtain rfl := List.getLast?_eq_none_iff.mp hlast
    cases prevToken r.index <;> rfl
  | some l =>
    obtain ⟨elder, rfl⟩ := List.getLast?_eq_some_iff.mp hlast
    have hleft : l.index = a.leaves + elder.length := h.index_tip (by simp [hr.eq])
    rw [List.length_append, List.length_singleton, ← Nat.add_assoc, ← hleft] at hindex
    obtain ⟨up, hshows⟩ := h.shows_tips l (by simp [hr.eq])
    rw [hindex, prevToken, if_neg (Nat.succ_ne_zero _), Nat.add_sub_cancel]
    dsimp only
    rw [if_neg (by simp)]
    refine (bind_ok hshows.tokenRange_eq _).trans <| (bind_ok hshows.isMissing_eq _).trans ?_
    by_cases hjoin : (decide (l.fullRange.stop = offset) && !l.isMissing) = true
    · rw [if_pos hjoin, AtOffset.map, hindex]
      exact if_pos hjoin
    · rw [if_neg hjoin, AtOffset.map, hindex]
      exact if_neg hjoin

/-- The search by halving in the tables finds what the search of one leaf after the other finds. -/
theorem Places.tokensAt_eq (h : t.Places n a b) (offset : Nat) :
    t.tokensAt n.index offset = .ok ((n.tokensAt offset).map Tip.index) := by
  obtain ⟨up, hstands⟩ := h.stands
  obtain ⟨entry, hnode, -, -, -, htokens⟩ := hstands.node_eq
  have hnode : t.node n.index = .ok entry := h.index_eq ▸ hnode
  have hfirst : t.firstToken n.index = .ok a.leaves := h.index_eq ▸ hstands.firstToken_eq
  rw [tokensAt, Node.tokensAt]
  refine (bind_ok h.nodeRange_eq _).trans ?_
  by_cases ho : n.range.touches offset = true
  · rw [if_neg (by simp [ho]), if_pos ho]
    refine (bind_ok hnode _).trans ?_
    rw [htokens]
    obtain ⟨before, after, middle, htips, htile, htile', hbefore, hafter⟩ := h.tile.parted offset
    obtain ⟨tokens, hpart, hlength, hcount⟩ := h.search_tokens htips hbefore hafter
    refine (bind_ok hpart _).trans ?_
    dsimp only
    rw [hcount, hlength]
    cases after with
    | nil =>
      rw [if_pos (by simp), htips, Node.locate_append none hbefore]
      rfl
    | cons r after =>
      rw [if_neg (by simp)]
      have hmiddle : middle ≤ offset := by
        refine htile.stop_le ?_ (by simpa using hbefore)
        simp only [Range.touches, Bool.and_eq_true, decide_eq_true_eq] at ho
        exact ho.1
      have hr := Around.of_tile htile htile' hbefore hmiddle (hafter r List.mem_cons_self)
      exact (bind_ok hfirst _).trans (h.joinLeft_eq (htips ▸ hr))
  · rw [if_neg ho, if_pos (by simp [ho])]
    rfl

/-- What tables find at an offset in a node: the same as a search of all leaves of the node, one
after the other. Within the node the right token is the only leaf of the node over the offset, and
outside of it there is none. Two tokens meet there, both of the node, the left one right before the
other in the tree. -/
structure Finds (t : Table) (n : Node) (offset : Nat) : Prop where
  range : t.nodeRange n.index = .ok n.range
  searched : t.tokensAt n.index offset = .ok ((n.tokensAt offset).map Tip.index)
  right : n.range.start ≤ offset → offset < n.range.stop → ∃ r,
    (n.tokensAt offset).right? = some r ∧
    n.tips.filter (fun x => x.fullRange.start ≤ offset ∧ offset < x.fullRange.stop) = [r]
  outside : offset < n.range.start ∨ n.range.stop < offset → n.tokensAt offset = .none
  between : ∀ l r, n.tokensAt offset = .between l r → r.prev? = some l ∧ l ∈ n.tips ∧ r ∈ n.tips ∧
    l.fullRange.stop = offset ∧ r.fullRange.start = offset

theorem Holds.finds {tree : Tree} (h : t.Holds tree) (hn : n ∈ tree.root.descendants)
    (offset : Nat) : t.Finds n offset := by
  obtain ⟨a, b, hplace⟩ := h.places n hn
  refine ⟨hplace.nodeRange_eq, hplace.tokensAt_eq offset, fun hstart hstop => ?_,
    Node.tokensAt_outside, fun l r hb => ?_⟩
  · obtain ⟨before, r, after, hr⟩ := exists_around hplace.tile hstart hstop
    rw [Node.tokensAt_inside hstart (Nat.le_of_lt hstop)]
    exact ⟨r, Node.right_locate_around hr, hr.filter_eq⟩
  · obtain ⟨hstart, hstop⟩ := Node.inside_of_tokensAt hplace.tile (by rw [hb]; nofun)
    obtain ⟨before, r', after, hr⟩ := exists_around hplace.tile hstart hstop
    rw [Node.tokensAt_inside hstart (Nat.le_of_lt hstop)] at hb
    obtain ⟨rfl, hlast, hl, hjoined⟩ := Node.locate_around_eq_between hr hb
    obtain ⟨elder, rfl⟩ := List.getLast?_eq_some_iff.mp hlast
    have htips : n.tips = elder ++ l :: r :: after := by simp [hr.eq]
    exact ⟨h.prev_eq hn htips, by simp [htips], hr.mem, hl, hjoined⟩

/-- In the tables of every session all nodes are those of the tree that is read off them, in
preorder, and at every offset they are searched as the tree is. -/
theorem build_finds {text : List Char} {steps : List BuildStep} (h : build text steps = .ok t) :
    ∃ tree, t.tree = .ok tree ∧
      tree.root.descendants.map Node.index = List.range t.nodes.size ∧
      ∀ n ∈ tree.root.descendants, ∀ offset, t.Finds n offset := by
  obtain ⟨tree, -, hholds⟩ := exists_tree h
  exact ⟨tree, hholds.tree_eq, hholds.index_descendants, fun n hn => hholds.finds hn⟩

/-- A node that is made of a missing token alone, between two tokens. -/
theorem build_finds_missing : ∃ t tree, build [' ', 'a']
    [.startNode .sourceFile, .token [⟨.whitespace, 1⟩] .inlineHtml 1, .startNode .exprStmt,
      .missing, .finishNode, .token [] .eof 0, .finishNode] = .ok t ∧
    t.tree = .ok tree ∧ ∀ n ∈ tree.root.descendants, ∀ offset, t.Finds n offset := by
  obtain ⟨t, ht⟩ : ∃ t, build [' ', 'a']
    [.startNode .sourceFile, .token [⟨.whitespace, 1⟩] .inlineHtml 1, .startNode .exprStmt,
      .missing, .finishNode, .token [] .eof 0, .finishNode] = .ok t := ⟨_, rfl⟩
  obtain ⟨tree, htree, -, hfinds⟩ := build_finds ht
  exact ⟨t, tree, ht, htree, hfinds⟩

end Table

/-! ## Parsed trees -/

namespace ParsedAs

variable {dialect : Dialect} {text : List Char} {g : Stage} {last : Token} {p : Parse}

/-- A leaf of a parse shows a token of the text, or it is missing and takes nothing of it. -/
theorem tip_cases (h : ParsedAs dialect text g last p) {x : Tip} (hx : x ∈ p.tree.tips) :
    (∃ u ∈ tokenize dialect text, x.leaf.aspect = u.aspect) ∨
      x.isMissing = true ∧ x.fullRange.start = x.fullRange.stop := by
  have hleaf : x.leaf ∈ p.tree.children.flatMap Element.leaves := by
    rw [← p.tree.map_leaf_tips]
    exact List.mem_map_of_mem hx
  rcases h.shows.leaf_cases x.leaf hleaf with hshown | ⟨hkind, hempty, -⟩
  · rw [h.tokens_shown] at hshown
    exact .inl hshown
  · exact .inr ⟨beq_iff_eq.mpr hkind, hempty⟩

theorem empty_of_missing (h : ParsedAs dialect text g last p) {x : Tip} (hx : x ∈ p.tree.tips)
    (hmissing : x.isMissing = true) : x.fullRange.start = x.fullRange.stop := by
  rcases h.tip_cases hx with ⟨u, hu, haspect⟩ | ⟨-, hempty⟩
  · have hkind : u.kind = .missing :=
      (congrArg Prod.fst haspect).symm.trans (beq_iff_eq.mp hmissing)
    exact absurd hkind (tokenize_lawful dialect text u hu).kind_ne_missing
  · exact hempty

/-- Only the last leaf is the end of file. -/
theorem stop_eof (h : ParsedAs dialect text g last p)
    (htile : Range.Tile p.tree.root.range.start (p.tree.tips.map Tip.fullRange)
      p.tree.root.range.stop) {x : Tip} (hx : x ∈ p.tree.tips) (hk : x.kind = .eof) :
    x.fullRange.stop = p.tree.root.range.stop := by
  obtain ⟨l, hfilter, hlast⟩ := h.eof_tips
  obtain ⟨elder, hchildren⟩ := List.getLast?_eq_some_iff.mp hlast
  have htips : p.tree.tips = elder.flatMap (Element.tips p.tree.root) ++ [⟨l, p.tree.root⟩] := by
    rw [Tree.tips, Node.tips_eq, hchildren, List.flatMap_append, List.flatMap_singleton,
      Element.tips_leaf]
  have hmem : x ∈ p.tree.tips.filter (·.kind == .eof) :=
    List.mem_filter.mpr ⟨hx, beq_iff_eq.mpr hk⟩
  rw [hfilter, List.mem_singleton] at hmem
  rw [htips, List.map_append, List.map_singleton] at htile
  rw [hmem]
  exact htile.stop_eq

/-- A leaf before the end of the text that takes nothing of it is missing. -/
theorem missing_of_empty (h : ParsedAs dialect text g last p)
    (htile : Range.Tile p.tree.root.range.start (p.tree.tips.map Tip.fullRange)
      p.tree.root.range.stop) {x : Tip} (hx : x ∈ p.tree.tips)
    (hempty : x.fullRange.start = x.fullRange.stop)
    (hlt : x.fullRange.stop < p.tree.root.range.stop) : x.isMissing = true := by
  rcases h.tip_cases hx with ⟨u, hu, haspect⟩ | ⟨hmissing, -⟩
  · exfalso
    by_cases hk : u.kind = .eof
    · have hkind : x.kind = .eof := (congrArg Prod.fst haspect).trans hk
      exact Nat.ne_of_lt hlt (h.stop_eof htile hx hkind)
    · obtain ⟨place, hwithin, rfl⟩ := exists_place_of_mem_tokenize hu
      have htaken := (hwithin.lies dialect).taken hk
      have hrange : x.leaf.range = (place.next dialect).1.range :=
        congrArg (fun a => a.2.1) haspect
      rw [← hrange] at htaken
      have hempty : x.leaf.start = x.leaf.start + (x.leaf.leadingWidth + x.leaf.width) := hempty
      have htaken : x.leaf.start + x.leaf.leadingWidth <
        x.leaf.start + x.leaf.leadingWidth + x.leaf.width := htaken
      omega
  · exact hmissing

/-- At an offset before the end of the text the leaves that take nothing are the missing ones. -/
theorem point_iff (h : ParsedAs dialect text g last p)
    (htile : Range.Tile p.tree.root.range.start (p.tree.tips.map Tip.fullRange)
      p.tree.root.range.stop) {x : Tip} (hx : x ∈ p.tree.tips) {offset : Nat}
    (hlt : offset < p.tree.root.range.stop) :
    x.fullRange = .point offset ↔ x.isMissing = true ∧ x.fullRange.start = offset := by
  constructor
  · intro hpoint
    have hstart : x.fullRange.start = offset := congrArg Range.start hpoint
    have hstop : x.fullRange.stop = offset := congrArg Range.stop hpoint
    exact ⟨h.missing_of_empty htile hx (hstart.trans hstop.symm) (hstop ▸ hlt), hstart⟩
  · rintro ⟨hmissing, hstart⟩
    have hstop := (h.empty_of_missing hx hmissing).symm.trans hstart
    exact Range.eq_point (Nat.le_of_eq hstart.symm) (Nat.le_of_eq hstop)

end ParsedAs

/-- In the tree of a text every offset in a node, up to its end, has one leaf at its left: the one
that ends there or goes on. It is found as the left one if and only if the offset is not the end of
the node and no missing leaf of the node stands there. -/
theorem parse_left (dialect : Dialect) (text : List Char) : ∃ p steps t,
    parse dialect text = .ok p ∧ Table.build text steps = .ok t ∧ t.tree = .ok p.tree ∧
    ∀ n ∈ p.tree.root.descendants, ∀ offset, n.range.start < offset → offset ≤ n.range.stop →
      t.tokensAt n.index offset = .ok ((n.tokensAt offset).map Tip.index) ∧
      ∃ l, n.tips.filter (fun x => x.fullRange.start < offset ∧ offset ≤ x.fullRange.stop) = [l] ∧
        ((n.tokensAt offset).left? = some l ↔ offset < n.range.stop ∧
          ∀ x ∈ n.tips, x.isMissing = true → x.fullRange.start ≠ offset) := by
  obtain ⟨-, p, g, last, -, -, hp, h⟩ := exists_parse dialect text
  obtain ⟨steps, hsteps⟩ := Table.exists_steps hp
  obtain ⟨t, ht, hholds⟩ := Table.exists_table hsteps
  obtain ⟨_, _, hroot⟩ := hholds.places_root
  refine ⟨p, steps, t, hp, ht, hholds.tree_eq, fun n hn offset hstart hstop => ?_⟩
  obtain ⟨_, _, hplace⟩ := hholds.places n hn
  have hsub : ∀ x ∈ n.tips, x ∈ p.tree.tips := (Node.tips_infix hn).subset
  -- the leaf at the left of an offset is the one over the byte before it
  obtain ⟨offset, rfl⟩ := Nat.exists_eq_add_one.mpr (Nat.zero_lt_of_lt hstart)
  obtain ⟨before, l, after, hl⟩ := exists_around hplace.tile (Nat.le_of_lt_succ hstart) hstop
  have hmissing : l.isMissing = false := by
    refine Bool.not_eq_true _ ▸ fun hm => ?_
    have hempty := h.empty_of_missing (hsub l hl.mem) hm
    have hlt := Nat.lt_of_le_of_lt hl.start_le hl.lt_stop
    exact Nat.ne_of_lt hlt hempty
  refine ⟨hplace.tokensAt_eq _, l, ?_, ?_⟩
  · simp only [Nat.lt_succ_iff, Nat.succ_le_iff]
    exact hl.filter_eq
  · rw [Node.left_tokensAt_succ_iff hplace.tile hl hmissing]
    refine and_congr_right fun hlt => forall₂_congr fun x hx => ?_
    -- the node does not reach beyond the end of the text
    obtain ⟨_, r, _, hr⟩ := exists_around hplace.tile (Nat.le_of_lt hstart) hlt
    have hend := (hroot.tile.bounds _ (List.mem_map_of_mem (hsub r hr.mem))).2
    rw [ne_eq, h.point_iff hroot.tile (hsub x hx) (Nat.lt_of_lt_of_le hr.lt_stop hend), not_and]

/-- What a look at an answer shows. -/
theorem exists_ok_of_check {ε α : Type} {x : Except ε α} (check : α → Bool)
    (h : x.toOption.any check = true) : ∃ a, x = .ok a ∧ check a = true := by
  cases x with
  | ok a => exact ⟨a, rfl, h⟩
  | error e => cases h

theorem exists_parse_of_check {dialect : Dialect} {text : List Char} (check : Parse → Bool)
    (h : (parse dialect text).toOption.any check = true) :
    ∃ p, parse dialect text = .ok p ∧ check p = true :=
  exists_ok_of_check check h

/-- At the end of a text nothing is found, though its last leaf ends there; and where a missing leaf
stands, what is found at the left is the leaf after it. -/
theorem parse_left_missed :
    (∃ p l, parse {} "<?php $a;".toList = .ok p ∧ p.tree.root.range = .ofLength 0 9 ∧
      p.tree.root.tips.filter (fun x => x.fullRange.start < 9 ∧ 9 ≤ x.fullRange.stop) = [l] ∧
      (p.tree.root.tokensAt 9).left? = none) ∧
    ∃ p l r, parse {} "<?php $a \x7d".toList = .ok p ∧ p.tree.root.range = .ofLength 0 10 ∧
      p.tree.root.tips.filter (fun x => x.fullRange.start < 8 ∧ 8 ≤ x.fullRange.stop) = [l] ∧
      (p.tree.root.tokensAt 8).left? = some r ∧ l.kind = .variableName ∧
      r.kind = .rightBrace := by
  constructor
  · obtain ⟨p, hp, hcheck⟩ := exists_parse_of_check (fun p =>
      p.tree.root.range = .ofLength 0 9 ∧
      (p.tree.root.tips.filter
        (fun x => x.fullRange.start < 9 ∧ 9 ≤ x.fullRange.stop)).length = 1 ∧
      (p.tree.root.tokensAt 9).left?.isNone)
      (show (parse {} "<?php $a;".toList).toOption.any _ = true by decide +kernel)
    obtain ⟨hrange, hfilter, hleft⟩ := of_decide_eq_true hcheck
    obtain ⟨l, hl⟩ := List.length_eq_one_iff.mp hfilter
    exact ⟨p, l, hp, hrange, hl, Option.isNone_iff_eq_none.mp hleft⟩
  · obtain ⟨p, hp, hcheck⟩ := exists_parse_of_check (fun p =>
      p.tree.root.range = .ofLength 0 10 ∧
      (p.tree.root.tips.filter
        (fun x => x.fullRange.start < 8 ∧ 8 ≤ x.fullRange.stop)).map Tip.kind =
          [.variableName] ∧
      (p.tree.root.tokensAt 8).left?.map Tip.kind = some .rightBrace)
      (show (parse {} "<?php $a \x7d".toList).toOption.any _ = true by decide +kernel)
    obtain ⟨hrange, hfilter, hleft⟩ := of_decide_eq_true hcheck
    obtain ⟨l, hl, hkind⟩ := List.map_eq_singleton_iff.mp hfilter
    obtain ⟨r, hr, hkind'⟩ := Option.map_eq_some_iff.mp hleft
    exact ⟨p, l, r, hp, hrange, hl, hr, hkind, hkind'⟩

end PhpSyntax
