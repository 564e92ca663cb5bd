import PhpSyntax.Proofs.Entries

/-!
Two builders that are given the same steps: one makes a tree, the other one fills tables. They
refuse the same steps for the same reasons, and the tables hold the tree.
-/
namespace PhpSyntax

namespace TableBuilder

/-- How two sessions end that agree: both with an outcome, or with the same refusal. -/
inductive Agrees {α β : Type} (R : α → β → Prop) :
    Except TableError α → Except BuildError β → Prop where
  | ok {x : α} {y : β} (related : R x y) : Agrees R (.ok x) (.ok y)
  | refused (e : BuildError) : Agrees R (.error (.refused e)) (.error e)

/-- Open nodes that stand for open branches, when there are `count` tokens. The tally before a node
tells its number and its first token, if it has one; `pending` are children of the innermost node
that are not complete yet. -/
inductive Opens (t : Table) (count : Nat) (a : Tally) :
    (pending : List Slot) → List OpenBranch → List OpenNode → Tally → Prop where
  | nil {pending} : Opens t count a pending [] [] a
  | cons {pending top up node nodes m b}
    (outer : Opens t count a [.node m.branches] up nodes m)
    (index : top.index = m.branches) (start : top.start = m.covered) (id : node.id = m.branches)
    (entry : ∃ slots tokens,
      t.nodes[m.branches]? = some ⟨top.kind, nodes.head?.map (·.id), slots, tokens⟩)
    (first : node.firstToken = if m.leaves < count then some m.leaves else none)
    (children : node.children.toList = top.children.reverse.map Element.slot ++ pending)
    (inner : t.Lays (some m.branches) m.enter top.children.reverse b) :
    Opens t count a pending (top :: up) (node :: nodes) b

theorem head_pushSlot (s : Slot) (nodes : List OpenNode) :
    (pushSlot s nodes).head?.map (·.id) = nodes.head?.map (·.id) := by
  cases nodes <;> rfl

theorem head_markFirst (n : Nat) (nodes : List OpenNode) :
    (markFirst n nodes).head?.map (·.id) = nodes.head?.map (·.id) := by
  cases nodes with
  | nil => rfl
  | cons node nodes =>
    rw [markFirst]
    split <;> rfl

namespace Opens

variable {t t' : Table} {kept : Nat → Prop} {n n' : Nat} {a b b' : Tally} {pending : List Slot}
  {opened up : List OpenBranch} {nodes : List OpenNode} {top : OpenBranch}

theorem isEmpty_eq (h : Opens t n a pending opened nodes b) : nodes.isEmpty = opened.isEmpty := by
  cases h <;> rfl

theorem eq_of_nil (h : Opens t n a pending [] nodes b) : nodes = [] ∧ b = a := by
  cases h
  exact ⟨rfl, rfl⟩

/-- Open nodes stay in tables if all nodes so far do. -/
theorem keeps (k : t.Keeps t' kept) (h : Opens t n a pending opened nodes b)
    (hk : ∀ id < b.branches, kept id) : Opens t' n a pending opened nodes b := by
  induction h with
  | nil => exact .nil
  | cons outer index start id entry first children inner ih =>
    have hle := inner.branches_le
    have hlt := Nat.le_of_succ_le hle
    obtain ⟨slots, tokens, hentry⟩ := entry
    refine .cons (ih fun i hi => hk i (Nat.lt_of_lt_of_le hi hlt)) index start id ?_ first children
      (k.lays inner fun i _ hi => hk i hi)
    exact ⟨slots, tokens, (k.nodes _ (hk _ hle)).trans hentry⟩

/-- A child is added that is not complete yet. -/
theorem pushSlot (h : Opens t n a pending opened nodes b) (s : Slot) :
    Opens t n a (pending ++ [s]) opened (pushSlot s nodes) b := by
  cases h with
  | nil => exact .nil
  | cons outer index start id entry first children inner =>
    exact .cons outer index start id entry first (by simp [children]) inner

/-- The child is complete. -/
theorem adopt {e : Element} (h : Opens t n a [e.slot] (top :: up) nodes b)
    (hl : t.Lays (nodes.head?.map (·.id)) b [e] b') :
    Opens t n a [] ({ top with children := e :: top.children } :: up) nodes b' := by
  cases h with
  | cons outer index start id entry first children inner =>
    rw [List.head?_cons, Option.map_some, id] at hl
    refine .cons outer index start id entry first (by simp [children]) ?_
    rw [List.reverse_cons]
    exact inner.append hl

/-- Nodes that have a first token keep it. -/
theorem recount (h : Opens t n a pending opened nodes b) (hb : b.leaves < n) (hn : n ≤ n') :
    Opens t n' a pending opened nodes b := by
  induction h with
  | nil => exact .nil
  | @cons pending top up node nodes m b outer index start id entry first children inner ih =>
    have hle : m.leaves ≤ b.leaves := inner.leaves_le
    have hm := Nat.lt_of_le_of_lt hle hb
    refine .cons (ih hm) index start id entry ?_ children inner
    rw [first, if_pos hm, if_pos (Nat.lt_of_lt_of_le hm hn)]

/-- The next token is the first one of the nodes that have none yet. -/
theorem markFirst (h : Opens t n a pending opened nodes b) (hb : b.leaves = n) :
    Opens t (n + 1) a pending opened (markFirst n nodes) b := by
  induction h with
  | nil => exact .nil
  | @cons pending top up node nodes m b outer index start id entry first children inner ih =>
    have hle : m.leaves ≤ b.leaves := inner.leaves_le
    rw [TableBuilder.markFirst]
    -- a node that has a first token began before it, and so did the nodes around it
    by_cases hm : m.leaves < n
    · rw [if_pos hm] at first
      rw [if_pos (by rw [first]; rfl)]
      refine .cons (outer.recount hm (Nat.le_succ n)) index start id entry ?_ children inner
      rw [first, if_pos (Nat.lt_succ_of_lt hm)]
    · have hmn : m.leaves = n := by omega
      rw [if_neg hm] at first
      rw [if_neg (by rw [first]; exact Bool.false_ne_true)]
      refine .cons (ih hmn) index start id ?_ ?_ children inner
      · rwa [head_markFirst]
      · rw [if_pos (by omega), hmn]

end Opens

/-- A builder of tables that is as far as one of trees. -/
structure Mirrors (c : TableBuilder) (b : Builder) : Prop where
  text : c.table.text = b.text
  rest : ∃ front, b.text = front ++ b.rest ∧ Text.width front = b.covered
  covered : c.covered = b.covered
  nodes : c.table.nodes.size = b.branches
  tokens : c.table.tokens.size = b.leaves
  pool : ∀ spare ∈ c.pool, spare = #[]
  growing : b.root = none →
    Opens c.table b.leaves (.start b.text) [] b.opened c.opened b.tally
  grown : ∀ branch children, b.root = some (branch, children) → b.opened = [] ∧ c.opened = [] ∧
    c.table.Lays none (.start b.text) [.branch branch children] b.tally

namespace Mirrors

variable {c : TableBuilder} {b : Builder}

theorem start (text : List Char) : (start text).Mirrors (.start text) :=
  ⟨rfl, ⟨[], rfl, rfl⟩, rfl, rfl, rfl, by simp [TableBuilder.start], fun _ => .nil,
    fun _ _ h => by cases h⟩

theorem isEmpty_eq (h : c.Mirrors b) : c.opened.isEmpty = b.opened.isEmpty := by
  cases hr : b.root with
  | none => exact (h.growing hr).isEmpty_eq
  | some r =>
    obtain ⟨hb, hc, -⟩ := h.grown r.1 r.2 hr
    rw [hb, hc]
    rfl

theorem branches_pos {root : Branch × List Element} (h : c.Mirrors b) (hr : b.root = some root) :
    0 < b.branches := by
  obtain ⟨-, -, hl⟩ := h.grown root.1 root.2 hr
  exact (Table.Stands.of_lays hl).2.branches_lt

/-- There is a root once there is a node and none is open. -/
theorem nodes_isEmpty_eq (h : c.Mirrors b) (hopened : b.opened = []) :
    c.table.nodes.isEmpty = b.root.isNone := by
  have hsize : c.table.nodes.isEmpty = decide (b.branches = 0) := by
    rw [Array.isEmpty, h.nodes]
  rw [hsize]
  cases hr : b.root with
  | none =>
    have hg := h.growing hr
    rw [hopened] at hg
    exact decide_eq_true (congrArg Tally.branches hg.eq_of_nil.2)
  | some r => exact decide_eq_false (Nat.ne_of_gt (h.branches_pos hr))

theorem startNode (h : c.Mirrors b) (kind : Kind) :
    Agrees Mirrors (c.startNode kind) (b.startNode kind) := by
  rw [TableBuilder.startNode, Builder.startNode]
  by_cases hk : (!kind.isNode) = true
  · rw [if_pos hk, if_pos hk]
    exact .refused _
  rw [if_neg hk, if_neg hk]
  have hsecond : (c.opened.isEmpty && !c.table.nodes.isEmpty) =
      (b.opened.isEmpty && decide (0 < b.branches)) := by
    simp [h.isEmpty_eq, Array.isEmpty, h.nodes, Nat.pos_iff_ne_zero]
  rw [hsecond]
  by_cases hr : (b.opened.isEmpty && decide (0 < b.branches)) = true
  · rw [if_pos hr, if_pos hr]
    exact .refused _
  rw [if_neg hr, if_neg hr]
  have hroot : b.root = none := by
    cases hroot : b.root with
    | none => rfl
    | some r =>
      obtain ⟨hopened, -⟩ := h.grown r.1 r.2 hroot
      simp [hopened, h.branches_pos hroot] at hr
  have hbuffer : c.pool.head?.getD #[] = #[] := by
    cases hp : c.pool with
    | nil => rfl
    | cons spare pool => exact h.pool spare (hp ▸ List.mem_cons_self)
  have hkeeps : c.table.Keeps (c.table.addNode kind (c.opened.head?.map (·.id)))
      (· < b.branches) :=
    (c.table.keeps_addNode kind _).mono fun id hid => h.nodes ▸ hid
  have hopens := ((h.growing hroot).keeps hkeeps fun id hid => hid).pushSlot (.node b.branches)
  refine .ok ⟨h.text, h.rest, h.covered, ?_, h.tokens, fun spare hs => h.pool spare
    (List.mem_of_mem_tail hs), fun _ => ?_, fun branch children hb => ?_⟩
  · simp [Table.addNode, h.nodes]
  · dsimp only
    rw [h.nodes, hbuffer]
    refine .cons (m := b.tally) hopens rfl rfl rfl ⟨⟨0, 0⟩, ⟨0, 0⟩, ?_⟩ ?_ rfl .nil
    · rw [head_pushSlot]
      show (c.table.nodes.push _)[b.branches]? = _
      rw [← h.nodes]
      exact Array.getElem?_push_size
    · exact (if_neg (Nat.lt_irrefl b.leaves)).symm
  · rw [hroot] at hb
    cases hb

/-- Either no node is open, or there is no root yet. -/
theorem opened_cases (h : c.Mirrors b) : c.opened = [] ∧ b.opened = [] ∨
    ∃ node nodes top up, c.opened = node :: nodes ∧ b.opened = top :: up ∧ b.root = none ∧
      Opens c.table b.leaves (.start b.text) [] (top :: up) (node :: nodes) b.tally := by
  cases hr : b.root with
  | some r =>
    obtain ⟨hb, hc, -⟩ := h.grown r.1 r.2 hr
    exact .inl ⟨hc, hb⟩
  | none =>
    have hopens := h.growing hr
    revert hopens
    generalize c.opened = nodes, b.opened = opened
    intro hopens
    cases opened with
    | nil => exact .inl ⟨hopens.eq_of_nil.1, rfl⟩
    | cons top up =>
      cases nodes with
      | nil => cases hopens.isEmpty_eq
      | cons node nodes => exact .inr ⟨node, nodes, top, up, rfl, rfl, rfl, hopens⟩

/-- A token that ends at a boundary of the whole text ends at one of what is left of it. -/
theorem isBoundary_iff (h : c.Mirrors b) (full : Nat) :
    Text.IsBoundary (c.covered + full) c.table.text ↔
      (Text.splitBytes? full b.rest).isSome = true := by
  obtain ⟨front, hrest, hcovered⟩ := h.rest
  rw [h.text, hrest, h.covered, ← hcovered, Text.isSome_splitBytes_iff]
  exact ⟨Text.IsBoundary.of_append_left, fun hb => hb.append_left front⟩

theorem token (h : c.Mirrors b) (leading : List TriviaPiece) (kind : Kind) (width : Nat) :
    Agrees Mirrors (c.token leading kind width) (b.token leading kind width) := by
  rw [TableBuilder.token, Builder.token]
  by_cases hk : (!kind.isToken || kind.isTrivia) = true
  · rw [if_pos hk, if_pos hk]
    exact .refused _
  rw [if_neg hk, if_neg hk]
  obtain ⟨hc, hb⟩ | ⟨node, nodes, top, up, hc, hb, hroot, hopens⟩ := h.opened_cases
  · rw [hc, hb]
    exact .refused _
  rw [hc, hb]
  have hboundary := h.isBoundary_iff (TriviaPiece.totalWidth leading + width)
  dsimp only
  rw [Nat.add_assoc]
  cases hs : Text.splitBytes? (TriviaPiece.totalWidth leading + width) b.rest with
  | none =>
    rw [hs] at hboundary
    rw [if_pos (mt hboundary.mp Bool.false_ne_true), h.covered]
    exact .refused _
  | some parts =>
    obtain ⟨text, rest⟩ := parts
    rw [hs] at hboundary
    rw [if_neg (not_not_intro (hboundary.mpr rfl))]
    obtain ⟨hrest, hwide⟩ := Text.splitBytes_eq_some_iff.mp hs
    let leaf : Leaf := ⟨kind, b.leaves, b.covered, leading, width, text⟩
    have hlays : (c.table.addToken kind node.id c.covered leading width).Lays (some node.id) b.tally
        [.leaf leaf] ⟨rest, b.covered + (TriviaPiece.totalWidth leading + width), b.branches,
          b.leaves + 1⟩ := by
      rw [Builder.tally, hrest, h.covered]
      exact .leaf (c.table.shows_addToken node.id leaf h.tokens.symm) hwide .nil
    have hopens' := ((hopens.keeps (c.table.keeps_addToken kind node.id c.covered leading width)
      fun _ _ => trivial).markFirst rfl).pushSlot (.token b.leaves)
    obtain ⟨front, hfront, hcovered⟩ := h.rest
    refine .ok ⟨h.text, ⟨front ++ text, ?_, ?_⟩, ?_, h.nodes, ?_, h.pool, fun _ => ?_,
      fun branch children hgrown => ?_⟩
    · rw [hfront, hrest, List.append_assoc]
    · rw [Text.width_append, hwide, hcovered]
    · exact congrArg (· + _) h.covered
    · simp [Table.addToken, h.tokens]
    · dsimp only
      rw [h.tokens]
      refine Opens.adopt (b := b.tally) hopens' ?_
      rw [head_pushSlot, head_markFirst]
      exact hlays
    · rw [hroot] at hgrown
      cases hgrown

theorem finishNode (h : c.Mirrors b) : Agrees Mirrors c.finishNode b.finishNode := by
  rw [TableBuilder.finishNode, Builder.finishNode]
  obtain ⟨hc, hb⟩ | ⟨node, nodes, top, up, hc, hb, hroot, hopens⟩ := h.opened_cases
  · rw [hc, hb]
    exact .refused _
  rw [hc, hb]
  dsimp only
  generalize hlast : b.tally = last at hopens
  cases hopens with
  | @cons _ _ _ _ _ m _ outer index start id entry first children inner =>
  subst hlast
  obtain ⟨slots, tokens, entry⟩ := entry
  rw [List.append_nil] at children
  rw [id, show c.table.node m.branches = _ from Table.entry_eq_ok_iff.mpr entry]
  have hempty : node.children.isEmpty = top.children.isEmpty := by
    rw [← Array.isEmpty_toList, children]
    cases top.children <;> simp
  by_cases hne : top.children.isEmpty = true
  · show Agrees Mirrors (if node.children.isEmpty = true then _ else _) _
    rw [if_pos (hempty.trans hne), if_pos hne]
    exact .refused _
  -- below the children there is a token, so the node has a first one
  have hcs : top.children.reverse ≠ [] := by simpa using hne
  have hlt : m.leaves < b.leaves := (inner.ends hcs).1
  rw [if_pos hlt] at first
  show Agrees Mirrors (if node.children.isEmpty = true then _ else _) _
  rw [if_neg (hempty ▸ hne), if_neg hne, first]
  -- of the nodes only the one that is closed is changed
  have hkeeps := c.table.keeps_fillNode m.branches
    ⟨top.kind, nodes.head?.map (·.id), slots, tokens⟩ node.children m.leaves
  have houter := outer.keeps hkeeps fun i hi => Nat.ne_of_lt hi
  have hlays := (Table.stands_fillNode entry rfl rfl children hcs h.tokens inner).lays_cons .nil
  have hpool : ∀ spare ∈ #[] :: c.pool, spare = #[] := List.forall_mem_cons.mpr ⟨rfl, h.pool⟩
  have hnodes : (c.table.fillNode m.branches ⟨top.kind, nodes.head?.map (·.id), slots, tokens⟩
      node.children m.leaves).nodes.size = b.branches := by
    simp [Table.fillNode, h.nodes]
  rw [index, start]
  cases up with
  | nil =>
    obtain ⟨rfl, rfl⟩ := houter.eq_of_nil
    refine .ok ⟨h.text, h.rest, h.covered, hnodes, h.tokens, hpool, (fun hr => by cases hr),
      fun branch children hr => ?_⟩
    obtain ⟨rfl, rfl⟩ := Prod.mk.inj (Option.some.inj hr)
    exact ⟨rfl, rfl, hlays⟩
  | cons next up =>
    refine .ok ⟨h.text, h.rest, h.covered, hnodes, h.tokens, hpool, fun _ => ?_,
      fun branch children hr => ?_⟩
    · exact houter.adopt (e := .branch _ _) hlays
    · rw [hroot] at hr
      cases hr

/-- Every step is taken by both or refused by both. -/
theorem step (h : c.Mirrors b) (s : BuildStep) : Agrees Mirrors (c.step s) (b.step s) := by
  cases s with
  | startNode kind => exact h.startNode kind
  | token leading kind width => exact h.token leading kind width
  | missing => exact h.token [] .missing 0
  | finishNode => exact h.finishNode

theorem run (h : c.Mirrors b) (steps : List BuildStep) :
    Agrees Mirrors (c.run steps) (b.run steps) := by
  induction steps generalizing c b with
  | nil => exact .ok h
  | cons s steps ih =>
    have hs := h.step s
    rw [TableBuilder.run, Builder.run]
    revert hs
    generalize c.step s = x, b.step s = y
    intro hs
    cases hs with
    | ok h' => exact ih h'
    | refused e => exact .refused e

/-- The tables at the end hold the tree. -/
theorem finish (h : c.Mirrors b) : Agrees Table.Holds c.finish b.finish := by
  rw [TableBuilder.finish, Builder.finish, h.isEmpty_eq]
  cases hopened : b.opened with
  | cons top up => exact .refused _
  | nil =>
  rw [h.nodes_isEmpty_eq hopened]
  cases hr : b.root with
  | none => exact .refused _
  | some root =>
  obtain ⟨branch, children⟩ := root
  obtain ⟨-, -, hlays⟩ := h.grown branch children hr
  obtain ⟨front, hrest, hcovered⟩ := h.rest
  have hall : c.covered ≠ Text.width c.table.text ↔ b.rest ≠ [] := by
    rw [h.covered, h.text, hrest, Text.width_append, hcovered, ne_eq, ne_eq,
      ← Text.width_eq_zero_iff]
    omega
  show Agrees _ (if c.covered ≠ Text.width c.table.text then _ else _)
    (if b.rest.isEmpty = true then _ else _)
  by_cases hb : b.rest = []
  · rw [if_neg (by rw [hall]; exact not_not_intro hb), if_pos (List.isEmpty_iff.mpr hb)]
    refine .ok ⟨h.text, b.tally, hb, h.nodes.symm, h.tokens.symm, ?_⟩
    rw [h.text]
    exact hlays
  · rw [if_pos (hall.mpr hb), if_neg (mt List.isEmpty_iff.mp hb), h.covered, h.text]
    exact .refused _

end Mirrors
end TableBuilder

/-- The tables that a session builds hold the tree that it builds, and a session that builds no
tables builds no tree, for the same reason. -/
theorem Table.build_agrees (text : List Char) (steps : List BuildStep) :
    TableBuilder.Agrees Table.Holds (Table.build text steps) (Tree.build text steps) := by
  have hr := (TableBuilder.Mirrors.start text).run steps
  rw [Table.build, Tree.build]
  revert hr
  generalize (TableBuilder.start text).run steps = x, (Builder.start text).run steps = y
  intro hr
  cases hr with
  | ok h => exact h.finish
  | refused e => exact .refused e

/-- Tables that a session builds hold the tree that it builds. -/
theorem Table.exists_tree {text : List Char} {steps : List BuildStep} {t : Table}
    (h : Table.build text steps = .ok t) :
    ∃ tree, Tree.build text steps = .ok tree ∧ t.Holds tree := by
  have ha := Table.build_agrees text steps
  rw [h] at ha
  generalize hy : Tree.build text steps = y at ha
  cases ha with
  | ok hholds => exact ⟨_, rfl, hholds⟩

theorem Table.exists_table {text : List Char} {steps : List BuildStep} {tree : Tree}
    (h : Tree.build text steps = .ok tree) :
    ∃ t, Table.build text steps = .ok t ∧ t.Holds tree := by
  have ha := Table.build_agrees text steps
  rw [h] at ha
  generalize hx : Table.build text steps = x at ha
  cases ha with
  | ok hholds => exact ⟨_, rfl, hholds⟩

/-- Tables read back are the tree that is built directly. -/
theorem Table.build_tree_eq (text : List Char) (steps : List BuildStep) :
    (Table.build text steps).bind Table.tree =
      (Tree.build text steps).mapError TableError.refused := by
  have h := Table.build_agrees text steps
  revert h
  generalize Table.build text steps = x, Tree.build text steps = y
  intro h
  cases h with
  | ok h => exact h.tree_eq
  | refused e => rfl

end PhpSyntax
