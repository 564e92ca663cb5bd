import PhpSyntax.Parsing.Log

/-!
Replaying a log. A segment is a list of events that stands for the same steps wherever it lies in a
log; a twig is a segment of one complete branch that can still be wrapped into another one.
-/
namespace PhpSyntax.Log

variable {e f : List Event} {s t u : List BuildStep}

/-- Every branch that begins among these events has a kind. -/
def Settled (e : List Event) : Prop := ∀ x ∈ e, ∀ forward, x ≠ .start none forward

/-- Replayed, these events make these steps and change nothing of the log around them. -/
def Replays (e : List Event) (s : List BuildStep) : Prop :=
  ∃ e' : List Event, e'.length = e.length ∧ ∀ pre post count out,
    replayFrom (e.length + count) pre.length (pre ++ e ++ post).toArray out =
      replayFrom count (pre.length + e.length) (pre ++ e' ++ post).toArray (out ++ s.toArray)

structure Segment (e : List Event) (s : List BuildStep) : Prop where
  settled : Settled e
  replays : Replays e s

theorem settled_append : Settled (e ++ f) ↔ Settled e ∧ Settled f := by
  simp only [Settled, List.mem_append, or_imp, forall_and]

theorem getElem?_middle (pre post : List Event) (x : Event) :
    (pre ++ [x] ++ post).toArray[pre.length]? = some x := by
  simp

/-- Closing a branch that has no kind yet. -/
theorem complete_eq (front : List Event) (kind : Kind) :
    complete (front ++ .tombstone :: e).toArray ⟨front.length⟩ kind =
      .ok (⟨front.length⟩,
        (front ++ Event.start (some kind) none :: e ++ [Event.finish]).toArray) := by
  simp [complete, Event.tombstone]

theorem replays_nil : Replays [] [] := ⟨[], rfl, fun pre post count out => by simp⟩

theorem replays_append (he : Replays e s) (hf : Replays f t) : Replays (e ++ f) (s ++ t) := by
  obtain ⟨e', hel, he⟩ := he
  obtain ⟨f', hfl, hf⟩ := hf
  refine ⟨e' ++ f', by simp [hel, hfl], fun pre post count out => ?_⟩
  have h₁ := he pre (f ++ post) (f.length + count) out
  have h₂ := hf (pre ++ e') post count (out ++ s.toArray)
  simp only [List.length_append, List.append_assoc, hel, Nat.add_assoc] at h₁ h₂ ⊢
  rw [h₁, h₂]
  simp

/-- An event that is no beginning stands for one step. -/
theorem replays_single {x : Event} {step : BuildStep}
    (h : ∀ count i log out, log[i]? = some x →
      replayFrom (count + 1) i log out = replayFrom count (i + 1) log (out.push step)) :
    Replays [x] [step] := by
  refine ⟨[x], rfl, fun pre post count out => ?_⟩
  rw [List.length_singleton, Nat.add_comm, h count _ _ out (getElem?_middle pre post x)]
  rfl

theorem replays_token (t : Token) :
    Replays [.token t] [.token t.leading t.kind (Text.width t.text)] :=
  replays_single fun count i log out h => by rw [replayFrom, h]

theorem replays_missing : Replays [.missing] [.missing] :=
  replays_single fun count i log out h => by rw [replayFrom, h]

theorem replays_finish : Replays [.finish] [.finishNode] :=
  replays_single fun count i log out h => by rw [replayFrom, h]

theorem replayFrom_tombstone {count i : Nat} {log : Log} (out : Array BuildStep)
    (h : log[i]? = some .tombstone) :
    replayFrom (count + 1) i log out = replayFrom count (i + 1) log out := by
  rw [replayFrom, h, Event.tombstone]

theorem replays_tombstone : Replays [.tombstone] [] := by
  refine ⟨[.tombstone], rfl, fun pre post count out => ?_⟩
  rw [List.length_singleton, Nat.add_comm, replayFrom_tombstone out (getElem?_middle ..)]
  rw [show out ++ ([] : List BuildStep).toArray = out from Array.append_empty]

theorem segment_nil : Segment [] [] := ⟨by simp [Settled], replays_nil⟩

theorem segment_append (he : Segment e s) (hf : Segment f t) : Segment (e ++ f) (s ++ t) :=
  ⟨settled_append.mpr ⟨he.settled, hf.settled⟩, replays_append he.replays hf.replays⟩

theorem segment_token (t : Token) :
    Segment [.token t] [.token t.leading t.kind (Text.width t.text)] :=
  ⟨by simp [Settled], replays_token t⟩

theorem segment_missing : Segment [.missing] [.missing] := ⟨by simp [Settled], replays_missing⟩

/-- Following a pointer wipes out the beginning it leads to. -/
theorem follow_pointer {front : List Event} {i d : Nat} (post : List Event) (kind : Option Kind)
    (kinds : List Kind) (forward : Option Nat) (hd : 0 < d) (hf : front.length = i + d) :
    follow (front ++ .start kind forward :: post).toArray i kinds (some d) =
      follow (front ++ .tombstone :: post).toArray (i + d) (kind.toList ++ kinds) forward := by
  obtain ⟨d, rfl⟩ := Nat.exists_eq_add_one.mpr hd
  have hlt : i + (d + 1) < (front ++ .start kind forward :: post).toArray.size := by
    simp [hf]
  have hget : (front ++ .start kind forward :: post).toArray[i + (d + 1)] =
      .start kind forward := by
    simp [← hf]
  rw [follow, dif_pos hlt, hget]
  simp only [List.set_toArray]
  congr 2
  simp [← hf]

theorem replayFrom_start {count i : Nat} {log log' : Log} {kind : Kind} {kinds : List Kind}
    {forward : Option Nat} (out : Array BuildStep)
    (h : log[i]? = some (.start (some kind) forward))
    (hf : follow (log.setIfInBounds i .tombstone) i [kind] forward = .ok (log', kinds)) :
    replayFrom (count + 1) i log out =
      replayFrom count (i + 1) log' (out ++ (kinds.map BuildStep.startNode).toArray) := by
  rw [replayFrom, h]
  simp only [hf]

/-- Replayed from its beginning to its end, a log makes the steps that its events stand for. -/
theorem Replays.replay (h : Replays e s) : Log.replay e.toArray = .ok s := by
  obtain ⟨e', -, he⟩ := h
  have h := he [] [] 0 #[]
  simp only [Nat.add_zero, List.length_nil, List.nil_append, List.append_nil] at h
  rw [Log.replay, List.size_toArray, h, replayFrom]
  simp [Except.map]

/-- The events of a complete branch, given the pointer at its own beginning, which stands at `own`.
The kinds of all branches that begin with the first event are read there, the outermost first; what
is left of the events then makes the steps after the beginnings. -/
structure Stem (events : Option Nat → List Event) (own : Nat) (s : List BuildStep) : Prop where
  beginning : ∃ kind, ∀ forward, (events forward)[own]? = some (.start (some kind) forward) ∧
    ∀ forward', (events forward).set own (.start (some kind) forward') = events forward'
  opens : ∃ first kinds left body, s = kinds.map .startNode ++ body ∧
    Replays (.tombstone :: left) body ∧
    ∀ forward, ∃ tail pointer, events forward = .start (some first) pointer :: tail ∧
      tail.length = left.length ∧ ∀ pre post,
        follow (pre ++ .tombstone :: tail ++ post).toArray pre.length [first] pointer =
          follow (pre ++ .tombstone :: left ++ post).toArray (pre.length + own) kinds forward

variable {events : Option Nat → List Event} {own : Nat}

namespace Stem

theorem length_eq (h : Stem events own s) (forward : Option Nat) :
    (events forward).length = (events none).length := by
  obtain ⟨kind, hk⟩ := h.beginning
  rw [← (hk none).2 forward, List.length_set]

theorem own_lt (h : Stem events own s) : own < (events none).length := by
  obtain ⟨kind, hk⟩ := h.beginning
  exact (List.getElem?_eq_some_iff.mp (hk none).1).1

/-- The events of a branch that is not wrapped stand for the steps of the branch. -/
theorem replays (h : Stem events own s) : Replays (events none) s := by
  obtain ⟨first, kinds, left, body, rfl, ⟨rest, hl, hrest⟩, hall⟩ := h.opens
  obtain ⟨tail, pointer, he, hlen, hfollow⟩ := hall none
  refine ⟨rest, by rw [hl, he]; simp [hlen], fun pre post count out => ?_⟩
  have hget : (pre ++ events none ++ post).toArray[pre.length]? =
      some (.start (some first) pointer) := by
    simp [he]
  have hset : (pre ++ events none ++ post).toArray.setIfInBounds pre.length .tombstone =
      (pre ++ .tombstone :: tail ++ post).toArray := by
    simp [he]
  have hleft : (pre ++ .tombstone :: left ++ post).toArray[pre.length]? = some .tombstone := by
    simp
  have hopen := hfollow pre post
  rw [follow] at hopen
  calc
    _ = replayFrom (left.length + count + 1) pre.length
        (pre ++ events none ++ post).toArray out := by
      rw [he, List.length_cons, hlen, Nat.add_right_comm]
    _ = replayFrom (left.length + count) (pre.length + 1)
        (pre ++ .tombstone :: left ++ post).toArray
        (out ++ (kinds.map BuildStep.startNode).toArray) :=
      replayFrom_start out hget (hset ▸ hopen)
    _ = replayFrom (left.length + count + 1) pre.length (pre ++ .tombstone :: left ++ post).toArray
        (out ++ (kinds.map BuildStep.startNode).toArray) := (replayFrom_tombstone _ hleft).symm
    _ = _ := by
      have h := hrest pre post count (out ++ (kinds.map BuildStep.startNode).toArray)
      rw [List.length_cons, Nat.add_right_comm] at h
      rw [h, he, List.length_cons, hlen]
      simp

/-- Putting a branch around a complete one, behind which something was recorded since. -/
theorem precede_eq (h : Stem events own s) (front : List Event) :
    precede (front ++ events none ++ f).toArray ⟨front.length + own⟩ =
      .ok (⟨(front ++ events none ++ f).length⟩,
        (front ++ events (some ((events none ++ f).length - own)) ++ f ++
          [Event.tombstone]).toArray) := by
  obtain ⟨kind, hk⟩ := h.beginning
  have hown := h.own_lt
  have hget : (front ++ events none ++ f ++ [Event.tombstone])[front.length + own]? =
      some (Event.start (some kind) none) := by
    rw [List.append_assoc, List.append_assoc, List.getElem?_append_right (Nat.le_add_right ..),
      Nat.add_sub_cancel_left, List.getElem?_append_left hown, (hk none).1]
  have hset (d : Nat) : (front ++ events none ++ f ++ [Event.tombstone]).set (front.length + own)
      (.start (some kind) (some d)) = front ++ events (some d) ++ f ++ [.tombstone] := by
    rw [List.append_assoc, List.append_assoc, List.set_append_right _ _ (Nat.le_add_right ..),
      Nat.add_sub_cancel_left, List.set_append_left _ _ hown, (hk none).2]
    simp
  have hd : (front ++ events none ++ f).length - (front.length + own) =
      (events none ++ f).length - own := by
    simp only [List.length_append]
    omega
  simp only [precede, start, List.push_toArray, List.getElem?_toArray, hget, List.size_toArray, hd,
    List.setIfInBounds_toArray, hset]

/-- A new branch. -/
theorem node (kind : Kind) (h : Replays e s) :
    Stem (fun forward => .start (some kind) forward :: e ++ [.finish]) 0
      (.startNode kind :: s ++ [.finishNode]) where
  beginning := ⟨kind, fun forward => by simp⟩
  opens := by
    refine ⟨kind, [kind], e ++ [.finish], s ++ [.finishNode], by simp, ?_, fun forward => ?_⟩
    · have h' := replays_append replays_tombstone (replays_append h replays_finish)
      simpa using h'
    · exact ⟨e ++ [.finish], forward, by simp, rfl, fun pre post => by simp⟩

/-- A branch around a complete one, which gets a pointer to the new beginning, and what was recorded
since. -/
theorem wrap (kind : Kind) (h : Stem events own s) (hf : Replays f u) (he : Replays e t) :
    Stem (fun forward => events (some ((events none ++ f).length - own)) ++ f ++
        .start (some kind) forward :: e ++ [.finish]) (events none ++ f).length
      (.startNode kind :: s ++ u ++ t ++ [.finishNode]) where
  beginning := ⟨kind, fun forward => by
    have hlen := h.length_eq (some ((events none ++ f).length - own))
    generalize events (some _) = front at hlen
    rw [List.length_append, ← hlen, ← List.length_append]
    simp⟩
  opens := by
    obtain ⟨first, kinds, left, body, rfl, hleft, hall⟩ := h.opens
    have hown := h.own_lt
    obtain ⟨tail, pointer, htail, hlen, hfollow⟩ :=
      hall (some ((events none ++ f).length - own))
    have hlen' : (events none).length = left.length + 1 := by
      rw [← h.length_eq, htail, List.length_cons, hlen]
    refine ⟨first, kind :: kinds, left ++ f ++ .tombstone :: e ++ [.finish],
      body ++ u ++ t ++ [.finishNode], by simp, ?_, fun forward => ?_⟩
    · have h' := replays_append hleft (replays_append hf (replays_append replays_tombstone
        (replays_append he replays_finish)))
      simpa using h'
    · refine ⟨tail ++ f ++ .start (some kind) forward :: e ++ [.finish], pointer,
        by rw [htail]; simp, by simp [hlen], fun pre post => ?_⟩
      have hfront : (pre ++ .tombstone :: left ++ f).length =
          pre.length + own + ((events none ++ f).length - own) := by
        simp only [List.length_append, List.length_cons]
        omega
      have h₁ := hfollow pre (f ++ .start (some kind) forward :: e ++ [.finish] ++ post)
      have h₂ := follow_pointer (e ++ [.finish] ++ post) (some kind) kinds forward
        (Nat.sub_pos_of_lt (Nat.lt_of_lt_of_le hown (by simp))) hfront
      simp only [List.append_assoc, List.cons_append, Option.toList_some, List.nil_append]
        at h₁ h₂ ⊢
      -- the pointer of the inner branch leads to the new beginning, and that one's leads on
      rw [h₁, h₂]
      congr 1
      simp only [List.length_append]
      omega

end Stem

/-- The events of a complete branch in which every branch has a kind. -/
structure Twig (events : Option Nat → List Event) (own : Nat) (s : List BuildStep) : Prop
    extends Stem events own s where
  settled : ∀ forward, Settled (events forward)

/-- A branch that is not wrapped is a segment. -/
theorem Twig.segment (h : Twig events own s) : Segment (events none) s :=
  ⟨h.settled none, h.replays⟩

/-- A new branch around a segment. -/
theorem twig_node (kind : Kind) (h : Segment e s) :
    Twig (fun forward => .start (some kind) forward :: e ++ [.finish]) 0
      (.startNode kind :: s ++ [.finishNode]) where
  toStem := .node kind h.replays
  settled forward := by
    intro x hx
    simp only [List.cons_append, List.mem_cons, List.mem_append, List.not_mem_nil,
      or_false] at hx
    rcases hx with rfl | hx | rfl
    · simp
    · exact h.settled x hx
    · simp

/-- A branch around a complete one, which gets a pointer to the new beginning. -/
theorem twig_wrap (kind : Kind) (h : Twig events own s) (hs : Segment e t) :
    Twig (fun forward => events (some ((events none).length - own)) ++
        .start (some kind) forward :: e ++ [.finish]) (events none).length
      (.startNode kind :: s ++ t ++ [.finishNode]) where
  toStem := by
    have hstem := h.wrap kind replays_nil hs.replays
    simpa only [List.append_nil] using hstem
  settled forward := by
    intro x hx
    simp only [List.append_assoc, List.cons_append, List.mem_cons, List.mem_append,
      List.not_mem_nil, or_false] at hx
    rcases hx with hx | rfl | hx | rfl
    · exact h.settled _ x hx
    · simp
    · exact hs.settled x hx
    · simp

/-- A log of one branch replays to the steps of the branch. -/
theorem Twig.replay (h : Twig events own s) : Log.replay (events none).toArray = .ok s :=
  h.replays.replay

end PhpSyntax.Log
