import PhpSyntax.Proofs.Replay
import PhpSyntax.Proofs.Tabling

/-!
How much is recorded, and how large the tables become. A replay makes one step of an event, a node
takes two steps and a token one, and every node but the root and every token is the child of one
node.
-/
namespace PhpSyntax

namespace Log

/-- A replay makes a step of every event but the beginning of a branch without a kind. -/
def isLive : Event → Bool
  | .start none _ => false
  | _ => true

/-- How many of some events a replay makes steps of. -/
def live (events : List Event) : Nat := events.countP isLive

variable {log log' : Log} {i : Nat}

/-- A beginning that is wiped out no longer counts. -/
theorem live_wipe {events : List Event} {j k : Nat} (hj : j < events.length) (hk : k ≤ j) :
    live ((events.set j .tombstone).drop k) + (if isLive events[j] then 1 else 0) =
      live (events.drop k) := by
  have hlt : j - k < (events.drop k).length := by
    rw [List.length_drop]
    omega
  have hget : (events.drop k)[j - k] = events[j] := by
    rw [List.getElem_drop]
    simp only [Nat.add_sub_cancel' hk]
  have hle := List.boole_getElem_le_countP (p := isLive) hlt
  rw [hget] at hle
  rw [List.drop_set, if_neg (Nat.not_lt.mpr hk), live, List.countP_set hlt, hget]
  exact Nat.sub_add_cancel hle

/-- Where a pointer is followed, a kind is collected for each live beginning that is wiped out. -/
theorem follow_live {kinds kinds' : List Kind} {forward : Option Nat} {k : Nat}
    (h : follow log i kinds forward = .ok (log', kinds')) (hk : k ≤ i + 1) :
    log'.size = log.size ∧
      kinds'.length + live (log'.toList.drop k) = kinds.length + live (log.toList.drop k) := by
  fun_induction follow log i kinds forward with
  | case1 | case2 =>
    obtain ⟨rfl, rfl⟩ := Prod.mk.inj (Except.ok.inj h)
    exact ⟨rfl, rfl⟩
  | case3 log i kinds d hd kind forward hget ih =>
    obtain ⟨hsize, hlive⟩ := ih h (by omega)
    have hlt : i + (d + 1) < log.toList.length := hd
    have hwipe := live_wipe hlt (show k ≤ i + (d + 1) by omega)
    have hkind : kind.toList.length = if isLive (.start kind forward) then 1 else 0 := by
      cases kind <;> rfl
    rw [Array.getElem_toList, hget] at hwipe
    rw [Array.toList_set, List.length_append] at hlive
    exact ⟨hsize.trans (Array.size_set _), by omega⟩
  | case4 | case5 => cases h

/-- A replay makes one step of each live event that is still to come. -/
theorem replayFrom_size {count : Nat} {out steps : Array BuildStep}
    (h : replayFrom count i log out = .ok steps) (hi : i + count = log.size) :
    steps.size = out.size + live (log.toList.drop i) := by
  induction count generalizing i log out with
  | zero =>
    obtain rfl := Except.ok.inj h
    have hnil : log.toList.drop i = [] := List.drop_of_length_le (Nat.le_of_eq hi.symm)
    rw [hnil]
    rfl
  | succ count ih =>
    have hlt : i < log.toList.length := by
      rw [Array.length_toList]
      omega
    have hget : log[i]? = some log.toList[i] := Array.getElem?_eq_getElem hlt
    have hlive : live (log.toList.drop i) =
        live (log.toList.drop (i + 1)) + if isLive log.toList[i] then 1 else 0 := by
      rw [List.drop_eq_getElem_cons hlt, live, List.countP_cons]
      rfl
    have hi' : i + 1 + count = log.size := by omega
    have hsingle {s : BuildStep} (h : replayFrom count (i + 1) log (out.push s) = .ok steps) :
        steps.size = out.size + (live (log.toList.drop (i + 1)) + 1) := by
      rw [ih h hi', Array.size_push]
      omega
    rw [replayFrom, hget] at h
    generalize log.toList[i] = x at h hlive
    rw [hlive]
    cases x with
    | token | missing | finish => exact hsingle h
    | start kind forward =>
      cases kind with
      | none => exact ih h hi'
      | some kind =>
        dsimp only at h
        split at h
        · cases h
        next log' kinds hf =>
        obtain ⟨hsize, hcount⟩ := follow_live hf (Nat.le_refl (i + 1))
        rw [Array.size_setIfInBounds] at hsize
        rw [Array.toList_setIfInBounds, List.drop_set_of_lt (Nat.lt_succ_self i),
          List.length_singleton] at hcount
        have hkinds : (kinds.map BuildStep.startNode).toArray.size = kinds.length := by simp
        have hone : isLive (.start (some kind) forward) = true := rfl
        rw [ih h (hi'.trans hsize.symm), Array.size_append, hkinds, if_pos hone, Nat.add_assoc,
          hcount, Nat.add_comm 1]

/-- A settled log has as many events as its session has steps. -/
theorem Settled.length_replay {steps : List BuildStep} (hs : Settled log.toList)
    (h : log.replay = .ok steps) : steps.length = log.size := by
  have hall : live log.toList = log.toList.length := by
    refine List.countP_eq_length.mpr fun x hx => ?_
    cases x with
    | start kind forward =>
      cases kind with
      | none => exact absurd rfl (hs _ hx forward)
      | some => rfl
    | token | missing | finish => rfl
  unfold replay at h
  cases hr : replayFrom log.size 0 log #[] with
  | error fault =>
    rw [hr] at h
    cases h
  | ok out =>
    rw [hr] at h
    obtain rfl := Except.ok.inj h
    rw [Array.length_toList, replayFrom_size hr (Nat.zero_add _), List.drop_zero, hall,
      Array.length_toList]
    exact Nat.zero_add _

end Log

/-- The pieces of trivia that a step of a builder brings in. -/
def BuildStep.trivia : BuildStep → List TriviaPiece
  | token leading _ _ => leading
  | _ => []

namespace TableBuilder

/-- How many children the open nodes have so far. -/
def pending (nodes : List OpenNode) : Nat := (nodes.map (·.children.size)).sum

theorem pending_cons (top : OpenNode) (up : List OpenNode) :
    pending (top :: up) = top.children.size + pending up := rfl

theorem pending_pushSlot (s : Slot) {nodes : List OpenNode} (h : nodes ≠ []) :
    pending (pushSlot s nodes) = pending nodes + 1 := by
  cases nodes with
  | nil => exact absurd rfl h
  | cons top up =>
    rw [pushSlot, pending_cons, pending_cons, Array.size_push, Nat.add_right_comm]

theorem length_pushSlot (s : Slot) (nodes : List OpenNode) :
    (pushSlot s nodes).length = nodes.length := by
  cases nodes <;> rfl

theorem pending_markFirst (id : Nat) (nodes : List OpenNode) :
    pending (markFirst id nodes) = pending nodes := by
  induction nodes with
  | nil => rfl
  | cons top up ih =>
    rw [markFirst]
    split
    · rfl
    · rw [pending_cons, pending_cons, ih]

theorem length_markFirst (id : Nat) (nodes : List OpenNode) :
    (markFirst id nodes).length = nodes.length := by
  induction nodes with
  | nil => rfl
  | cons top up ih =>
    rw [markFirst]
    split
    · rfl
    · rw [List.length_cons, List.length_cons, ih]

/-- How many entries there are in the tables after some steps. Every node is started and, unless it
is open, finished; every node but the first one and every token is a child. -/
structure Counted (steps : List BuildStep) (b : TableBuilder) : Prop where
  rooted : b.opened ≠ [] → 0 < b.table.nodes.size
  pool : ∀ spare ∈ b.pool, spare = #[]
  length_eq : steps.length + b.opened.length = 2 * b.table.nodes.size + b.table.tokens.size
  slots_eq : b.table.slots.size + pending b.opened + min 1 b.table.nodes.size =
    b.table.nodes.size + b.table.tokens.size
  trivia_eq : b.table.trivia.size = (steps.flatMap BuildStep.trivia).length

variable {text : List Char} {steps : List BuildStep} {b b' : TableBuilder}

theorem counted_start (text : List Char) : (start text).Counted [] :=
  ⟨fun h => absurd rfl h, nofun, rfl, rfl, rfl⟩

theorem Counted.startNode {kind : Kind} (h : b.Counted steps) (hs : b.startNode kind = .ok b') :
    b'.Counted (steps ++ [.startNode kind]) := by
  unfold TableBuilder.startNode at hs
  split at hs
  · cases hs
  split at hs
  · cases hs
  next hroot =>
  obtain rfl := Except.ok.inj hs
  have hnodes : (b.table.addNode kind (b.opened.head?.map (·.id))).nodes.size =
      b.table.nodes.size + 1 := Array.size_push _
  have hspare : (b.pool.head?.getD #[]).size = 0 := by
    cases hp : b.pool with
    | nil => rfl
    | cons spare pool =>
      rw [List.head?_cons, Option.getD_some, h.pool spare (by simp [hp])]
      rfl
  have hlength := h.length_eq
  have hslots := h.slots_eq
  have hpool : ∀ spare ∈ b.pool.tail, spare = #[] :=
    fun spare hs => h.pool spare (List.mem_of_mem_tail hs)
  refine ⟨fun _ => ?_, hpool, ?_, ?_, ?_⟩
  · rw [hnodes]
    exact Nat.succ_pos _
  · simp only [hnodes, List.length_append, List.length_cons, List.length_nil, length_pushSlot]
    simp only [Table.addNode]
    omega
  · rw [hnodes, pending_cons, hspare]
    cases hopened : b.opened with
    | nil =>
      -- the root is nobody's child
      have hempty : b.table.nodes.size = 0 := by simpa [hopened] using hroot
      rw [hopened] at hslots
      rw [pushSlot]
      simp only [Table.addNode]
      omega
    | cons top up =>
      have hpos := h.rooted (by simp [hopened])
      rw [hopened] at hslots
      rw [pending_pushSlot _ (List.cons_ne_nil top up)]
      simp only [Table.addNode]
      omega
  · rw [List.flatMap_append, List.length_append]
    exact h.trivia_eq

theorem Counted.token {leading : List TriviaPiece} {kind : Kind} {width : Nat} {s : BuildStep}
    (h : b.Counted steps) (hs : b.token leading kind width = .ok b') (hl : s.trivia = leading) :
    b'.Counted (steps ++ [s]) := by
  unfold TableBuilder.token at hs
  split at hs
  · cases hs
  split at hs
  · cases hs
  next top up hopened =>
  dsimp only at hs
  split at hs
  · cases hs
  obtain rfl := Except.ok.inj hs
  have htokens : (b.table.addToken kind top.id b.covered leading width).tokens.size =
      b.table.tokens.size + 1 := Array.size_push _
  have hmarked := length_markFirst b.table.tokens.size (top :: up)
  have hne : markFirst b.table.tokens.size (top :: up) ≠ [] :=
    List.length_pos_iff.mp (hmarked ▸ Nat.succ_pos _)
  have hpos := h.rooted (by simp [hopened])
  have hlength := h.length_eq
  have hslots := h.slots_eq
  rw [hopened] at hlength hslots
  refine ⟨fun _ => hpos, h.pool, ?_, ?_, ?_⟩
  · rw [htokens, length_pushSlot, hmarked, List.length_append, List.length_singleton]
    simp only [Table.addToken]
    omega
  · rw [htokens, pending_pushSlot _ hne, pending_markFirst]
    simp only [Table.addToken]
    omega
  · rw [List.flatMap_append, List.length_append, List.flatMap_singleton, hl, ← h.trivia_eq]
    exact Array.size_append.trans (by simp)

theorem Counted.finishNode (h : b.Counted steps) (hs : b.finishNode = .ok b') :
    b'.Counted (steps ++ [.finishNode]) := by
  unfold TableBuilder.finishNode at hs
  split at hs
  · cases hs
  next top up hopened =>
  cases hn : b.table.node top.id with
  | error e =>
    rw [hn] at hs
    cases hs
  | ok n =>
  rw [Table.bind_ok hn] at hs
  split at hs
  · cases hs
  split at hs
  · cases hs
  next first _ =>
  obtain rfl := Except.ok.inj hs
  have hpos := h.rooted (by simp [hopened])
  have hlength := h.length_eq
  have hslots := h.slots_eq
  rw [hopened] at hlength hslots
  rw [List.length_cons] at hlength
  rw [pending_cons] at hslots
  have hnodes : (b.table.fillNode top.id n top.children first).nodes.size = b.table.nodes.size :=
    Array.size_setIfInBounds
  have hchildren : (b.table.fillNode top.id n top.children first).slots.size =
      b.table.slots.size + top.children.size := Array.size_append
  refine ⟨fun _ => hnodes ▸ hpos, List.forall_mem_cons.mpr ⟨rfl, h.pool⟩, ?_, ?_, ?_⟩
  · rw [hnodes, List.length_append, List.length_singleton]
    simp only [Table.fillNode]
    omega
  · rw [hnodes, hchildren]
    simp only [Table.fillNode]
    omega
  · rw [List.flatMap_append, List.length_append]
    exact h.trivia_eq

/-- Every step that is accepted is counted. -/
theorem Counted.step {s : BuildStep} (h : b.Counted steps) (hs : b.step s = .ok b') :
    b'.Counted (steps ++ [s]) := by
  cases s with
  | startNode kind => exact h.startNode hs
  | token leading kind width => exact h.token hs rfl
  | missing =>
    have hs : b.token [] .missing 0 = .ok b' := hs
    exact h.token hs rfl
  | finishNode => exact h.finishNode hs

theorem Counted.run {more : List BuildStep} (h : b.Counted steps) (hr : b.run more = .ok b') :
    b'.Counted (steps ++ more) := by
  induction more generalizing b steps with
  | nil =>
    obtain rfl : b = b' := Except.ok.inj hr
    rwa [List.append_nil]
  | cons s more ih =>
    rw [TableBuilder.run] at hr
    split at hr
    · next b₁ hs =>
      have h' := ih (h.step hs) hr
      rwa [List.append_assoc] at h'
    · cases hr

end TableBuilder

/-- How many entries there are in the tables that a session builds: a node takes two steps and a
token one, every node but the root and every token is a child, and the pieces of trivia are those of
the tokens. -/
theorem Table.build_sizes {text : List Char} {steps : List BuildStep} {t : Table}
    (h : Table.build text steps = .ok t) :
    steps.length = 2 * t.nodes.size + t.tokens.size ∧
    t.slots.size + 1 = t.nodes.size + t.tokens.size ∧
    t.trivia.size = (steps.flatMap BuildStep.trivia).length := by
  unfold Table.build at h
  split at h
  · next b hr =>
    have hb := (TableBuilder.counted_start text).run hr
    rw [List.nil_append] at hb
    unfold TableBuilder.finish at h
    split at h
    · cases h
    next hopened =>
    split at h
    · cases h
    next hnodes =>
    split at h
    · cases h
    obtain rfl := Except.ok.inj h
    have hopened : b.opened = [] := by simpa using hopened
    have hpos : 0 < b.table.nodes.size := Array.size_pos_iff.mpr (by simpa using hnodes)
    have hlength := hb.length_eq
    have hslots := hb.slots_eq
    rw [hopened] at hlength hslots
    refine ⟨hlength, ?_, hb.trivia_eq⟩
    rw [Nat.min_eq_left hpos] at hslots
    exact hslots
  · cases h

end PhpSyntax
