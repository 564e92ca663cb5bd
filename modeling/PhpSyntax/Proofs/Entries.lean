import PhpSyntax.Proofs.Layout
import PhpSyntax.Tree.Table

/-!
What the entries of tables stand for: elements that were laid out in a text, each under its number,
the children of a node next to each other. What is read off the entries is what the elements say.
-/
namespace PhpSyntax

namespace Element

/-- How an element is named among the children of a node. -/
def slot : Element → Slot
  | leaf l => .token l.index
  | branch b _ => .node b.index

end Element

namespace Table

/-- A look-up goes on with what it found. -/
theorem bind_ok {α β : Type} {x : Except TableError α} {a : α} (h : x = .ok a)
    (f : α → Except TableError β) : x >>= f = f a := by
  rw [h]
  rfl

section Stretches

variable {α : Type} {entries : Array α} {s : Stretch} {es : List α}

theorem entry_eq_ok_iff {id : Nat} {e : α} : entry entries id = .ok e ↔ entries[id]? = some e := by
  unfold entry
  split <;> simp_all

/-- A stretch of a table stands between what is before it and what is behind it. -/
theorem part_eq_ok_iff : part entries s = .ok es ↔ ∃ before after,
    entries.toList = before ++ es ++ after ∧ before.length = s.start ∧
      before.length + es.length = s.stop := by
  have hpart : (entries.extract s.start s.stop).toList =
      (entries.toList.drop s.start).take (s.stop - s.start) := by
    rw [Array.toList_extract, List.extract_eq_take_drop]
  unfold part
  rw [hpart]
  constructor
  · intro h
    split at h
    · next hs =>
      obtain rfl := Except.ok.inj h
      refine ⟨entries.toList.take s.start, (entries.toList.drop s.start).drop (s.stop - s.start),
        ?_, ?_, ?_⟩
      · rw [List.append_assoc, List.take_append_drop, List.take_append_drop]
      · simp only [List.length_take, Array.length_toList]
        omega
      · simp only [List.length_take, List.length_drop, Array.length_toList]
        omega
    · cases h
  · rintro ⟨before, after, hentries, hstart, hstop⟩
    have hsize : entries.size = before.length + (es.length + after.length) := by
      rw [← Array.length_toList, hentries, List.append_assoc, List.length_append,
        List.length_append]
    rw [if_pos (by omega), hentries, ← hstart, ← hstop, Nat.add_sub_cancel_left, List.append_assoc,
      List.drop_left, List.take_left]

/-- What is added to a table does not change the stretches that were there. -/
theorem part_append (more : Array α) (h : part entries s = .ok es) :
    part (entries ++ more) s = .ok es := by
  obtain ⟨before, after, hentries, hs⟩ := part_eq_ok_iff.mp h
  exact part_eq_ok_iff.mpr ⟨before, after ++ more.toList, by simp [hentries], hs⟩

theorem part_of_append (entries more : Array α) :
    part (entries ++ more) ⟨entries.size, (entries ++ more).size⟩ = .ok more.toList :=
  part_eq_ok_iff.mpr ⟨entries.toList, [], by simp, by simp, by simp⟩

end Stretches

theorem between_add (start length : Nat) :
    between start (start + length) = .ok (.ofLength start length) := by
  simp [between, Range.between?, Range.ofLength]

/-- Tables hold a leaf below a node. -/
structure Shows (t : Table) (parent : Nat) (l : Leaf) : Prop where
  entry : ∃ trivia, t.tokens[l.index]? = some ⟨l.kind, parent, l.start, l.leadingWidth,
    l.start + l.leadingWidth + l.width, trivia⟩ ∧ part t.trivia trivia = .ok l.leading

namespace Shows

variable {t : Table} {parent : Nat} {l : Leaf}

theorem token_eq (h : t.Shows parent l) : ∃ e, t.token l.index = .ok e ∧ e.kind = l.kind ∧
    e.parent = parent ∧ e.start = l.start ∧ e.leadingWidth = l.leadingWidth ∧
    e.stop = l.start + l.leadingWidth + l.width ∧ part t.trivia e.trivia = .ok l.leading := by
  obtain ⟨trivia, hentry, hpart⟩ := h.entry
  exact ⟨_, entry_eq_ok_iff.mpr hentry, rfl, rfl, rfl, rfl, rfl, hpart⟩

theorem leading_eq (h : t.Shows parent l) : t.leading l.index = .ok l.leading := by
  obtain ⟨e, he, -, -, -, -, -, hpart⟩ := h.token_eq
  exact (bind_ok he _).trans hpart

theorem tokenRange_eq (h : t.Shows parent l) : t.tokenRange l.index = .ok l.fullRange := by
  obtain ⟨e, he, -, -, hstart, -, hstop, -⟩ := h.token_eq
  apply (bind_ok he _).trans
  rw [hstart, hstop, Nat.add_assoc, between_add]
  rfl

theorem trimmedRange_eq (h : t.Shows parent l) : t.trimmedRange l.index = .ok l.range := by
  obtain ⟨e, he, -, -, hstart, hwidth, hstop, -⟩ := h.token_eq
  apply (bind_ok he _).trans
  rw [hstart, hwidth, hstop, between_add]
  rfl

theorem parent_eq (h : t.Shows parent l) : t.parent (.token l.index) = .ok (some parent) := by
  obtain ⟨e, he, -, rfl, -⟩ := h.token_eq
  exact bind_ok he _

end Shows

/-- Tables hold some elements that were laid out one after the other, from one tally to another:
each has its entry and is below a given node, and so is all that is below it. -/
inductive Lays (t : Table) : (parent : Option Nat) → Tally → List Element → Tally → Prop where
  | nil {parent a} : Lays t parent a [] a
  | leaf {parent kind leading width text rest covered branches leaves es b}
    (shown : t.Shows parent ⟨kind, leaves, covered, leading, width, text⟩)
    (wide : Text.width text = TriviaPiece.totalWidth leading + width)
    (tail : Lays t (some parent)
      ⟨rest, covered + (TriviaPiece.totalWidth leading + width), branches, leaves + 1⟩ es b) :
    Lays t (some parent) ⟨text ++ rest, covered, branches, leaves⟩
      (.leaf ⟨kind, leaves, covered, leading, width, text⟩ :: es) b
  | branch {parent kind slots a cs m es b}
    (entry : t.nodes[a.branches]? = some ⟨kind, parent, slots, ⟨a.leaves, m.leaves⟩⟩)
    (children : part t.slots slots = .ok (cs.map Element.slot))
    (nonempty : cs ≠ [])
    (inner : Lays t (some a.branches) a.enter cs m)
    (tail : Lays t parent m es b) :
    Lays t parent a
      (.branch ⟨kind, a.branches, .ofLength a.covered (m.covered - a.covered)⟩ cs :: es) b

variable {t : Table} {parent : Option Nat} {a b c : Tally} {es fs : List Element}

theorem Lays.append (h : t.Lays parent a es b) (h' : t.Lays parent b fs c) :
    t.Lays parent a (es ++ fs) c := by
  induction h with
  | nil => exact h'
  | leaf shown wide _ ih => exact .leaf shown wide (ih h')
  | branch entry children nonempty inner _ _ ih =>
    exact .branch entry children nonempty inner (ih h')

theorem Lays.branches_le (h : t.Lays parent a es b) : a.branches ≤ b.branches := by
  induction h with
  | nil => exact Nat.le_refl _
  | leaf _ _ _ ih => exact ih
  | branch _ _ _ _ _ ihi iht => exact Nat.le_trans (Nat.le_of_succ_le ihi) iht

theorem Lays.leaves_le (h : t.Lays parent a es b) : a.leaves ≤ b.leaves := by
  induction h with
  | nil => exact Nat.le_refl _
  | leaf _ _ _ ih => exact Nat.le_of_succ_le ih
  | branch _ _ _ _ _ ihi iht => exact Nat.le_trans ihi iht

/-- The elements take what is no longer left of the text. -/
theorem Lays.covers (h : t.Lays parent a es b) : ∃ front, a.rest = front ++ b.rest ∧
    b.covered = a.covered + Text.width front := by
  induction h with
  | nil => exact ⟨[], rfl, rfl⟩
  | @leaf _ _ _ _ text _ _ _ _ _ _ _ wide _ ih =>
    obtain ⟨front, hrest, hcovered⟩ := ih
    dsimp only at hrest hcovered
    refine ⟨text ++ front, by rw [List.append_assoc, ← hrest], ?_⟩
    rw [hcovered, Text.width_append, wide, Nat.add_assoc]
  | branch _ _ _ _ _ ihi iht =>
    obtain ⟨front, hrest, hcovered⟩ := ihi
    obtain ⟨back, hrest', hcovered'⟩ := iht
    refine ⟨front ++ back, ?_, ?_⟩
    · rw [List.append_assoc, ← hrest']
      exact hrest
    · rw [hcovered', hcovered, Text.width_append, Nat.add_assoc]
      rfl

theorem Lays.covered_le (h : t.Lays parent a es b) : a.covered ≤ b.covered := by
  obtain ⟨front, -, hcovered⟩ := h.covers
  rw [hcovered]
  exact Nat.le_add_right ..

/-- There is a token where elements begin, and one where they end. -/
theorem Lays.ends (h : t.Lays parent a es b) (hes : es ≠ []) : a.leaves < b.leaves ∧
    (∃ e, t.tokens[a.leaves]? = some e ∧ e.start = a.covered) ∧
    ∃ e, t.tokens[b.leaves - 1]? = some e ∧ e.stop = b.covered := by
  induction h with
  | nil => exact absurd rfl hes
  | @leaf _ _ _ _ _ _ _ _ _ es _ shown _ tail ih =>
    obtain ⟨trivia, entry, -⟩ := shown.entry
    refine ⟨tail.leaves_le, ⟨_, entry, rfl⟩, ?_⟩
    -- the last token is this one, or the last one of what follows
    by_cases he : es = []
    · subst he
      cases tail
      exact ⟨_, entry, Nat.add_assoc ..⟩
    · exact (ih he).2.2
  | @branch _ _ _ _ _ _ es _ _ _ nonempty _ tail ihi iht =>
    obtain ⟨hlt, hfirst, hlast⟩ := ihi nonempty
    refine ⟨Nat.lt_of_lt_of_le hlt tail.leaves_le, hfirst, ?_⟩
    by_cases he : es = []
    · subst he
      cases tail
      exact hlast
    · exact (iht he).2.2

/-- Tables hold a node with its children: its number and its first token are those of the tally
before it. -/
structure Stands (t : Table) (kind : Kind) (parent : Option Nat) (a : Tally) (cs : List Element)
    (b : Tally) : Prop where
  entry : ∃ slots, t.nodes[a.branches]? = some ⟨kind, parent, slots, ⟨a.leaves, b.leaves⟩⟩ ∧
    part t.slots slots = .ok (cs.map Element.slot)
  nonempty : cs ≠ []
  inner : t.Lays (some a.branches) a.enter cs b

/-- A node that stands in tables is held there, and its younger siblings behind it. -/
theorem Stands.lays_cons {kind : Kind} {cs : List Element} (h : t.Stands kind parent a cs b)
    (tail : t.Lays parent b es c) : t.Lays parent a
      (.branch ⟨kind, a.branches, .ofLength a.covered (b.covered - a.covered)⟩ cs :: es) c := by
  obtain ⟨slots, hentry, hpart⟩ := h.entry
  exact .branch hentry hpart h.nonempty h.inner tail

/-- Induction over the elements that tables hold: what is a branch among them stands there. -/
@[elab_as_elim]
theorem Lays.induct {P : ∀ {parent a b es}, t.Lays parent a es b → Prop}
    (nil : ∀ {parent a}, P (@Lays.nil t parent a))
    (leaf : ∀ {parent kind leading width text rest covered branches leaves es b}
      (shown : t.Shows parent ⟨kind, leaves, covered, leading, width, text⟩)
      (wide : Text.width text = TriviaPiece.totalWidth leading + width)
      (tail : t.Lays (some parent)
        ⟨rest, covered + (TriviaPiece.totalWidth leading + width), branches, leaves + 1⟩ es b),
      P tail → P (.leaf shown wide tail))
    (branch : ∀ {parent kind a cs m es b} (stands : t.Stands kind parent a cs m)
      (tail : t.Lays parent m es b), P stands.inner → P tail → P (stands.lays_cons tail))
    (h : t.Lays parent a es b) : P h := by
  induction h with
  | nil => exact nil
  | leaf shown wide tail ih => exact leaf shown wide tail ih
  | branch entry children nonempty inner tail ihi iht =>
    exact branch ⟨⟨_, entry, children⟩, nonempty, inner⟩ tail ihi iht

namespace Stands

variable {kind : Kind} {cs : List Element}

/-- A single branch that tables hold stands there with its children. -/
theorem of_lays {branch : Branch} (h : t.Lays parent a [.branch branch cs] b) :
    branch = ⟨branch.kind, a.branches, .ofLength a.covered (b.covered - a.covered)⟩ ∧
      t.Stands branch.kind parent a cs b := by
  cases h with
  | branch entry children nonempty inner tail =>
    cases tail
    exact ⟨rfl, ⟨_, entry, children⟩, nonempty, inner⟩

theorem branches_lt (h : t.Stands kind parent a cs b) : a.branches < b.branches :=
  h.inner.branches_le

theorem leaves_lt (h : t.Stands kind parent a cs b) : a.leaves < b.leaves :=
  (h.inner.ends h.nonempty).1

theorem covered_le (h : t.Stands kind parent a cs b) : a.covered ≤ b.covered :=
  h.inner.covered_le

theorem node_eq (h : t.Stands kind parent a cs b) :
    ∃ n, t.node a.branches = .ok n ∧ n.kind = kind ∧ n.parent = parent ∧
      part t.slots n.children = .ok (cs.map Element.slot) ∧ n.tokens = ⟨a.leaves, b.leaves⟩ := by
  obtain ⟨slots, hentry, hpart⟩ := h.entry
  exact ⟨_, entry_eq_ok_iff.mpr hentry, rfl, rfl, hpart, rfl⟩

theorem children_eq (h : t.Stands kind parent a cs b) :
    t.children a.branches = .ok (cs.map Element.slot) := by
  obtain ⟨n, hn, -, -, hpart, -⟩ := h.node_eq
  exact (bind_ok hn _).trans hpart

theorem parent_eq (h : t.Stands kind parent a cs b) :
    t.parent (.node a.branches) = .ok parent := by
  obtain ⟨n, hn, -, rfl, -⟩ := h.node_eq
  exact bind_ok hn _

theorem firstToken_eq (h : t.Stands kind parent a cs b) :
    t.firstToken a.branches = .ok a.leaves := by
  obtain ⟨n, hn, -, -, -, htokens⟩ := h.node_eq
  apply (bind_ok hn _).trans
  rw [htokens]
  rfl

theorem lastToken_eq (h : t.Stands kind parent a cs b) :
    t.lastToken a.branches = .ok (b.leaves - 1) := by
  obtain ⟨n, hn, -, -, -, htokens⟩ := h.node_eq
  obtain ⟨k, hk⟩ := Nat.exists_eq_add_one.mpr (Nat.zero_lt_of_lt h.leaves_lt)
  apply (bind_ok hn _).trans
  rw [htokens, hk]
  rfl

/-- The range of a node, read off its first and its last token, is what its children cover. -/
theorem nodeRange_eq (h : t.Stands kind parent a cs b) :
    t.nodeRange a.branches = .ok (.ofLength a.covered (b.covered - a.covered)) := by
  obtain ⟨-, ⟨first, hfirst, hstart⟩, last, hlast, hstop⟩ := h.inner.ends h.nonempty
  obtain ⟨front, -, hcovered⟩ := h.inner.covers
  have hstop : last.stop = a.covered + Text.width front := hstop.trans hcovered
  have hcovered : b.covered = a.covered + Text.width front := hcovered
  refine (bind_ok h.firstToken_eq _).trans <|
    (bind_ok (entry_eq_ok_iff.mpr hfirst) _).trans <|
    (bind_ok h.lastToken_eq _).trans <| (bind_ok (entry_eq_ok_iff.mpr hlast) _).trans ?_
  rw [hstop, show first.start = a.covered from hstart, between_add, hcovered,
    Nat.add_sub_cancel_left]

end Stands

/-! ## Tables that grow -/

/-- What is in some tables is in other ones too: all tokens, pieces of trivia and children, and some
of the nodes. -/
structure Keeps (t t' : Table) (kept : Nat → Prop) : Prop where
  nodes : ∀ id, kept id → t'.nodes[id]? = t.nodes[id]?
  tokens : ∃ more, t'.tokens = t.tokens ++ more
  trivia : ∃ more, t'.trivia = t.trivia ++ more
  slots : ∃ more, t'.slots = t.slots ++ more

variable {t' : Table} {kept : Nat → Prop}

theorem Keeps.mono {fewer : Nat → Prop} (k : t.Keeps t' kept) (h : ∀ id, fewer id → kept id) :
    t.Keeps t' fewer :=
  ⟨fun id hid => k.nodes id (h id hid), k.tokens, k.trivia, k.slots⟩

theorem Keeps.shows {p : Nat} {l : Leaf} (k : t.Keeps t' kept) (h : t.Shows p l) :
    t'.Shows p l := by
  obtain ⟨trivia, hentry, hpart⟩ := h.entry
  obtain ⟨tokens, htokens⟩ := k.tokens
  obtain ⟨pieces, hpieces⟩ := k.trivia
  obtain ⟨hlt, -⟩ := Array.getElem?_eq_some_iff.mp hentry
  refine ⟨trivia, ?_, ?_⟩
  · rw [htokens, Array.getElem?_append_left hlt, hentry]
  · rw [hpieces]
    exact part_append pieces hpart

/-- Elements stay in tables if the nodes among them and below them do. -/
theorem Keeps.lays (k : t.Keeps t' kept) (h : t.Lays parent a es b)
    (hk : ∀ id, a.branches ≤ id → id < b.branches → kept id) : t'.Lays parent a es b := by
  induction h with
  | nil => exact .nil
  | leaf shown wide _ ih => exact .leaf (k.shows shown) wide (ih hk)
  | @branch _ _ _ a _ m _ b entry children nonempty inner tail ihi iht =>
    obtain ⟨slots, hslots⟩ := k.slots
    have hle : a.branches < m.branches := inner.branches_le
    have hle' : m.branches ≤ b.branches := tail.branches_le
    have hentry := k.nodes a.branches (hk _ (Nat.le_refl _) (by omega))
    refine .branch (hentry.trans entry) ?_ nonempty (ihi fun id h₁ h₂ => hk id ?_ (by omega))
      (iht fun id h₁ h₂ => hk id (by omega) h₂)
    · rw [hslots]
      exact part_append slots children
    · exact Nat.le_of_succ_le h₁

theorem keeps_addNode (t : Table) (kind : Kind) (parent : Option Nat) :
    t.Keeps (t.addNode kind parent) (· < t.nodes.size) := by
  refine ⟨fun id hid => ?_, ⟨#[], by simp [addNode]⟩, ⟨#[], by simp [addNode]⟩,
    ⟨#[], by simp [addNode]⟩⟩
  rw [addNode, Array.getElem?_push_lt hid, Array.getElem?_eq_getElem hid]

theorem keeps_addToken (t : Table) (kind : Kind) (parent start : Nat) (leading : List TriviaPiece)
    (width : Nat) : t.Keeps (t.addToken kind parent start leading width) (fun _ => True) :=
  ⟨fun _ _ => rfl, ⟨_, Array.push_eq_append⟩, ⟨leading.toArray, rfl⟩, ⟨#[], by simp [addToken]⟩⟩

theorem keeps_fillNode (t : Table) (id : Nat) (n : NodeEntry) (children : Array Slot)
    (first : Nat) : t.Keeps (t.fillNode id n children first) (· ≠ id) :=
  ⟨fun _ hi => Array.getElem?_setIfInBounds_ne hi.symm, ⟨#[], by simp [fillNode]⟩,
    ⟨#[], by simp [fillNode]⟩, ⟨children, rfl⟩⟩

/-- A token that is added is the leaf that it was made for. -/
theorem shows_addToken (t : Table) (parent : Nat) (l : Leaf) (hl : l.index = t.tokens.size) :
    (t.addToken l.kind parent l.start l.leading l.width).Shows parent l := by
  refine ⟨⟨_, ?_, part_of_append t.trivia l.leading.toArray⟩⟩
  rw [hl]
  exact Array.getElem?_push_size

/-- A node that is filled in stands with its children. -/
theorem stands_fillNode {kind : Kind} {n : NodeEntry} {children : Array Slot} {cs : List Element}
    (entry : t.nodes[a.branches]? = some n) (hkind : n.kind = kind) (hparent : n.parent = parent)
    (hchildren : children.toList = cs.map Element.slot) (nonempty : cs ≠ [])
    (htokens : t.tokens.size = b.leaves)
    (inner : t.Lays (some a.branches) a.enter cs b) :
    (t.fillNode a.branches n children a.leaves).Stands kind parent a cs b := by
  obtain ⟨hlt, -⟩ := Array.getElem?_eq_some_iff.mp entry
  refine ⟨⟨_, ?_, (part_of_append t.slots children).trans (congrArg _ hchildren)⟩, nonempty,
    (t.keeps_fillNode a.branches n children a.leaves).lays inner fun id h _ => Nat.ne_of_gt h⟩
  rw [← hkind, ← hparent, ← htokens]
  exact Array.getElem?_setIfInBounds_self_of_lt hlt

/-! ## What is read back -/

theorem slice_eq (before front rest : List Char) :
    slice (before ++ (front ++ rest)) (.ofLength (Text.width before) (Text.width front)) =
      .ok front := by
  have hstart : slice.split (Text.width before) (before ++ (front ++ rest)) =
      .ok (before, front ++ rest) := by
    rw [slice.split, Text.splitBytes_append]
  have hlength : slice.split (Range.ofLength (Text.width before) (Text.width front)).length
      (front ++ rest) = .ok (front, rest) := by
    rw [Range.ofLength, Range.length, Nat.add_sub_cancel_left, slice.split, Text.splitBytes_append]
  exact (bind_ok hstart _).trans (bind_ok hlength _)

theorem Shows.element_eq {p : Nat} {l : Leaf} {before rest : List Char} (depth : Nat)
    (h : t.Shows p l) (wide : Text.width l.text = l.leadingWidth + l.width)
    (htext : t.text = before ++ (l.text ++ rest)) (hbefore : Text.width before = l.start) :
    t.element depth (.token l.index) = .ok (.leaf l) := by
  obtain ⟨e, he, hkind, -⟩ := h.token_eq
  have hslice : slice t.text l.fullRange = .ok l.text := by
    rw [htext, Leaf.fullRange, ← wide, ← hbefore, slice_eq]
  have hwidth : l.range.length = l.width := Nat.add_sub_cancel_left ..
  rw [element]
  refine (bind_ok he _).trans <| (bind_ok h.tokenRange_eq _).trans <|
    (bind_ok h.trimmedRange_eq _).trans <| (bind_ok h.leading_eq _).trans <|
    (bind_ok hslice _).trans ?_
  rw [hkind, hwidth]
  rfl

theorem Stands.element_eq {kind : Kind} {cs : List Element} {depth : Nat}
    (h : t.Stands kind parent a cs b)
    (hinner : (cs.map Element.slot).mapM (t.element depth) = .ok cs) :
    t.element (depth + 1) (.node a.branches) =
      .ok (.branch ⟨kind, a.branches, .ofLength a.covered (b.covered - a.covered)⟩ cs) := by
  obtain ⟨n, hn, hkind, -⟩ := h.node_eq
  rw [element, ← hkind]
  exact (bind_ok hn _).trans <| (bind_ok h.children_eq _).trans <|
    (bind_ok hinner _).trans (bind_ok h.nodeRange_eq _)

/-- From tables the elements are read back that they hold. -/
theorem Lays.elements_eq (before : List Char) (depth : Nat) (h : t.Lays parent a es b)
    (htext : t.text = before ++ a.rest) (hbefore : Text.width before = a.covered)
    (hdepth : b.branches ≤ a.branches + depth) :
    (es.map Element.slot).mapM (t.element depth) = .ok es := by
  induction h using Lays.induct generalizing before depth with
  | nil => rfl
  | @leaf _ _ _ _ text _ _ _ _ _ _ shown wide _ ih =>
    have hleaf := shown.element_eq depth wide htext hbefore
    have htail := ih (before ++ text) depth (by simp [htext])
      (by rw [Text.width_append, hbefore, wide]) hdepth
    rw [List.map_cons, List.mapM_cons]
    exact (bind_ok hleaf _).trans (bind_ok htail _)
  | @branch _ _ a cs m _ b stands tail ihi iht =>
    have hle := stands.branches_lt
    have hle' := tail.branches_le
    obtain ⟨depth, rfl⟩ := Nat.exists_eq_add_one.mpr (show 0 < depth by omega)
    obtain ⟨front, hrest, hcovered⟩ := stands.inner.covers
    -- a node takes one of the depth, its siblings are as deep as it is
    have hinner := ihi before depth htext hbefore
      (show m.branches ≤ a.branches + 1 + depth by omega)
    have htail := iht (before ++ front) (depth + 1)
      (by rw [List.append_assoc, ← hrest]; exact htext)
      (by rw [Text.width_append, hbefore, hcovered]; rfl) (by omega)
    rw [List.map_cons, List.mapM_cons]
    exact (bind_ok (stands.element_eq hinner) _).trans (bind_ok htail _)

/-- Tables hold a tree: its root, which takes the whole text, and nothing else. -/
structure Holds (t : Table) (tree : Tree) : Prop where
  text : t.text = tree.text
  lays : ∃ a : Tally, a.rest = [] ∧ a.branches = t.nodes.size ∧ a.leaves = t.tokens.size ∧
    t.Lays none (.start t.text) [.branch tree.branch tree.children] a

theorem Holds.tree_eq {tree : Tree} (h : t.Holds tree) : t.tree = .ok tree := by
  obtain ⟨a, -, hbranches, -, hlays⟩ := h.lays
  obtain ⟨hbranch, hstands⟩ := Stands.of_lays hlays
  obtain ⟨depth, hdepth⟩ :=
    Nat.exists_eq_add_one.mpr (hbranches ▸ Nat.zero_lt_of_lt hstands.branches_lt)
  have hinner := hstands.inner.elements_eq [] depth rfl rfl
    (show a.branches ≤ 1 + depth by omega)
  have hroot := hstands.element_eq hinner
  rw [← hbranch, ← hdepth] at hroot
  apply (bind_ok hroot _).trans
  rw [h.text]
  rfl

end Table
end PhpSyntax
