import Mathlib.Data.List.Perm.Basic
import PhpSyntax.Proofs.Covering

/-!
Walks under any calls. A walk stands at a place in the list of all its visits, which is made by
recursion over the tree: a call for the next visit goes one place on, and to leave a subtree goes to
the place behind the visit that leaves the innermost open node.
-/
namespace PhpSyntax

namespace Visit

def isToken : Visit → Bool
  | token _ => true
  | _ => false

def left? : Visit → Option Node
  | leave n => some n
  | _ => none

/-- Whether a visit leaves a node. -/
def leaves (n : Node) : Visit → Bool
  | leave m => m.index == n.index
  | _ => false

/-- The nodes that are open after some visits, the innermost first; those of `opened` were open
before. -/
def openedAfter (opened : List Node) : List Visit → List Node
  | [] => opened
  | enter n :: vs => openedAfter (n :: opened) vs
  | leave _ :: vs => openedAfter opened.tail vs
  | token _ :: vs => openedAfter opened vs

/-- Where the first visit to a node stands that is not among the `past` first ones. -/
def nodePlace (visits : List Visit) (past : Nat) : Nat :=
  past + ((visits.drop past).takeWhile isToken).length

/-- What comes of a call on a walk that makes some visits and has `past` of them behind it: the
visit that is made, if any, and how many are behind it then. -/
def serve (visits : List Visit) (past : Nat) : WalkCall → Except WalkError (Option Visit × Nat)
  | .next => .ok (visits[past]?, min (past + 1) visits.length)
  | .nextNode =>
    .ok (visits[nodePlace visits past]?, min (nodePlace visits past + 1) visits.length)
  | .skipSubtree =>
    match openedAfter [] (visits.take past) with
    | [] => .error .noOpenNode
    | n :: _ => .ok (none, visits.findIdx (leaves n) + 1)

/-- What comes of calls one after the other, up to one that is refused. -/
def served (visits : List Visit) (past : Nat) :
    List WalkCall → List (Except WalkError (Option Visit))
  | [] => []
  | c :: calls =>
    match serve visits past c with
    | .ok (v, past) => .ok v :: served visits past calls
    | .error e => [.error e]

variable {opened : List Node} {n : Node}

theorem nodePlace_token {visits : List Visit} {past : Nat} {t : Tip}
    (h : visits[past]? = some (token t)) : nodePlace visits past = nodePlace visits (past + 1) := by
  obtain ⟨hlt, hget⟩ := List.getElem?_eq_some_iff.mp h
  rw [nodePlace, nodePlace, List.drop_eq_getElem_cons hlt, hget, List.takeWhile_cons_of_pos rfl,
    List.length_cons]
  omega

theorem nodePlace_node {visits : List Visit} {past : Nat} {v : Visit}
    (h : visits[past]? = some v) (hv : v.isToken = false) : nodePlace visits past = past := by
  obtain ⟨hlt, hget⟩ := List.getElem?_eq_some_iff.mp h
  rw [nodePlace, List.drop_eq_getElem_cons hlt, hget, List.takeWhile_cons_of_neg (by simp [hv])]
  rfl

theorem nodePlace_length (visits : List Visit) :
    nodePlace visits visits.length = visits.length := by
  rw [nodePlace, List.drop_length]
  rfl

theorem openedAfter_append (opened : List Node) (vs ws : List Visit) :
    openedAfter opened (vs ++ ws) = openedAfter (openedAfter opened vs) ws := by
  induction vs generalizing opened with
  | nil => rfl
  | cons v vs ih => cases v <;> exact ih _

theorem openedAfter_flatMap {es : List Element} (opened : List Node)
    (h : ∀ e ∈ es, ∀ opened, openedAfter opened (e.visits n) = opened) :
    openedAfter opened (es.flatMap (Element.visits n)) = opened := by
  induction es with
  | nil => rfl
  | cons e es ih =>
    obtain ⟨he, hes⟩ := List.forall_mem_cons.mp h
    rw [List.flatMap_cons, openedAfter_append, he, ih hes]

/-- The visits to an element leave all nodes that they enter, and no others. -/
theorem openedAfter_visits (e : Element) (n : Node) (opened : List Node) :
    openedAfter opened (e.visits n) = opened := by
  induction e using Element.induct generalizing n opened with
  | leaf l =>
    rw [Element.visits_leaf]
    rfl
  | branch b es ih =>
    rw [Element.visits_branch, openedAfter_append, openedAfter,
      openedAfter_flatMap _ fun e he => ih e he (n.child b es)]
    rfl

/-- Where no two visits leave nodes of one number, the place of a visit that leaves a node is the
first one with such a visit. -/
theorem findIdx_leaves {before after : List Visit}
    (h : (((before ++ leave n :: after).filterMap left?).map Node.index).Nodup) :
    (before ++ leave n :: after).findIdx (leaves n) = before.length := by
  have hbefore : ∀ v ∈ before, leaves n v = false := by
    intro v hv
    cases v with
    | enter _ | token _ => rfl
    | leave m =>
      have hm : m.index ∈ (before.filterMap left?).map Node.index :=
        List.mem_map_of_mem (List.mem_filterMap.mpr ⟨_, hv, rfl⟩)
      rw [List.filterMap_append, List.map_append, List.nodup_append] at h
      exact beq_eq_false_iff_ne.mpr (h.2.2 _ hm n.index List.mem_cons_self)
  have hself : leaves n (leave n) = true := beq_self_eq_true _
  rw [List.findIdx_append, if_neg]
  · rw [List.findIdx_cons, hself]
    exact Nat.zero_add _
  · rw [List.findIdx_eq_length.mpr hbefore]
    exact Nat.lt_irrefl _

end Visit

/-! ## Every node is left once -/

theorem Element.left_perm (e : Element) (n : Node) :
    ((e.visits n).filterMap Visit.left?).Perm (e.nodes n) := by
  induction e using Element.induct generalizing n with
  | leaf l =>
    rw [visits_leaf, nodes_leaf]
    exact .nil
  | branch b es ih =>
    rw [visits_branch, nodes_branch, List.cons_append, List.filterMap_cons_none rfl,
      List.filterMap_append, List.filterMap_flatMap]
    refine (List.perm_append_singleton _ _).trans (List.Perm.cons _ ?_)
    exact List.Perm.flatMap_left _ fun e he => ih e he _

/-- The nodes that a walk leaves are those that it enters. -/
theorem Node.left_perm (n : Node) : (n.visits.filterMap Visit.left?).Perm n.descendants := by
  rw [descendants_eq, visits_eq, List.cons_append, List.filterMap_cons_none rfl,
    List.filterMap_append, List.filterMap_flatMap]
  refine (List.perm_append_singleton _ _).trans (List.Perm.cons _ ?_)
  exact List.Perm.flatMap_left _ fun e _ => e.left_perm n

/-! ## The place of a walk -/

namespace Walk

/-- The visits still to come, by recursion over what is to come of the tree. -/
def ahead (w : Walk) : List Visit :=
  w.opened.flatMap (fun o => o.2.flatMap (Element.visits o.1) ++ [.leave o.1]) ++
    match w.start with
    | none => []
    | some n => .enter n :: n.children.flatMap (Element.visits n) ++ [.leave n]

/-- A walk has some of its visits behind it: what is to come are the others, and what they opened
and did not leave is open. -/
structure At (w : Walk) (visits : List Visit) (past : Nat) : Prop where
  past_le : past ≤ visits.length
  ahead : visits.drop past = w.ahead
  opened : Visit.openedAfter [] (visits.take past) = w.opened.map (·.1)

variable {w w' : Walk} {v : Visit} {visits : List Visit} {past : Nat}

theorem ahead_next (h : w.next = some (v, w')) : w.ahead = v :: w'.ahead := by
  cases steps_next h with
  | start | leave => simp [ahead]
  | token => simp [ahead, Element.visits_leaf]
  | enter => simp [ahead, Element.visits_branch]

theorem ahead_eq_nil (h : w.next = none) : w.ahead = [] := by
  obtain ⟨start, opened⟩ := w
  match opened, start with
  | [], none => rfl
  | [], some n => cases h
  | (n, []) :: up, start => cases h
  | (n, .leaf l :: es) :: up, start => cases h
  | (n, .branch b ds :: es) :: up, start => cases h

/-- What a visit opens or leaves is what a walk opens or leaves with it. -/
theorem opened_next (h : w.next = some (v, w')) :
    Visit.openedAfter (w.opened.map (·.1)) [v] = w'.opened.map (·.1) := by
  cases steps_next h <;> rfl

/-- The next visit of a walk is the one at its place, and the walk goes one place on. -/
theorem At.next (h : w.At visits past) (hn : w.next = some (v, w')) :
    visits[past]? = some v ∧ w'.At visits (past + 1) := by
  have hahead := h.ahead.trans (ahead_next hn)
  have hv : visits[past]? = some v := by
    rw [← List.head?_drop, hahead]
    rfl
  obtain ⟨hlt, -⟩ := List.getElem?_eq_some_iff.mp hv
  refine ⟨hv, hlt, ?_, ?_⟩
  · rw [← List.tail_drop, hahead, List.tail_cons]
  · rw [List.take_add_one, hv, Visit.openedAfter_append, h.opened]
    exact opened_next hn

theorem At.ended (h : w.At visits past) (hn : w.next = none) : past = visits.length := by
  have hdrop := h.ahead.trans (ahead_eq_nil hn)
  exact Nat.le_antisymm h.past_le (List.drop_eq_nil_iff.mp hdrop)

theorem nextNode_token {t : Tip} (h : w.next = some (.token t, w')) :
    w.nextNode = w'.nextNode := by
  rw [nextNode]
  split
  · next hn =>
    rw [hn] at h
    cases h
  · next hn =>
    rw [hn] at h
    cases h
    rfl
  · next hother hn =>
    rw [hn] at h
    cases h
    exact absurd rfl (hother t)

theorem nextNode_other (h : ∀ t w', w.next ≠ some (.token t, w')) : w.nextNode = w.next := by
  rw [nextNode]
  split
  · next hn => exact hn.symm
  · next hn => exact absurd hn (h _ _)
  · next hn => exact hn.symm

/-- Behind a token something is to come: the node that it is in is left at least. -/
theorem next_ne_none_of_token {t : Tip} (h : w.next = some (.token t, w')) : w'.next ≠ none := by
  intro hend
  have hahead := ahead_eq_nil hend
  cases steps_next h with
  | token => simp [ahead] at hahead

/-- The tokens at the place of a walk are passed by, up to the next visit to a node. -/
theorem At.nextNode (h : w.At visits past) (hn : w.next ≠ none) : ∃ v w',
    w.nextNode = some (v, w') ∧ visits[Visit.nodePlace visits past]? = some v ∧
      w'.At visits (Visit.nodePlace visits past + 1) := by
  induction hc : w.remaining using Nat.strongRecOn generalizing w past with
  | ind count ih =>
  subst hc
  obtain ⟨⟨v, w'⟩, hnext⟩ := Option.ne_none_iff_exists'.mp hn
  obtain ⟨hv, hat⟩ := h.next hnext
  by_cases htoken : v.isToken = true
  · cases v with
    | enter _ | leave _ => cases htoken
    | token t =>
    rw [nextNode_token hnext, Visit.nodePlace_token hv]
    exact ih _ (remaining_next hnext) hat (next_ne_none_of_token hnext) rfl
  · have hother : ∀ t w'', w.next ≠ some (.token t, w'') := by
      intro t w'' ht
      rw [hnext] at ht
      cases ht
      exact htoken rfl
    rw [nextNode_other hother, Visit.nodePlace_node hv (Bool.not_eq_true _ ▸ htoken)]
    exact ⟨v, w', hnext, hv, hat⟩

/-- To leave a subtree leads behind the visit that leaves the innermost open node. -/
theorem At.skipSubtree (h : w.At visits past) {n : Node} {es : List Element}
    {up : List (Node × List Element)} (hopened : w.opened = (n, es) :: up)
    (hleaves : ((visits.filterMap Visit.left?).map Node.index).Nodup) :
    ({ w with opened := up } : Walk).At visits (visits.findIdx (Visit.leaves n) + 1) := by
  -- what is left over of the open node is balanced, then comes the visit that leaves it
  obtain ⟨before, hvisits, hbefore⟩ : ∃ before,
      visits = before ++ .leave n :: ({ w with opened := up } : Walk).ahead ∧
        Visit.openedAfter [] before = n :: up.map (·.1) := by
    refine ⟨visits.take past ++ es.flatMap (Element.visits n), ?_, ?_⟩
    · have hahead : w.ahead = es.flatMap (Element.visits n) ++
          .leave n :: ({ w with opened := up } : Walk).ahead := by
        simp [Walk.ahead, hopened]
      rw [List.append_assoc, ← hahead, ← h.ahead, List.take_append_drop]
    · rw [Visit.openedAfter_append, h.opened, hopened,
        Visit.openedAfter_flatMap _ fun e _ => Visit.openedAfter_visits e n]
      rfl
  rw [hvisits] at hleaves ⊢
  rw [Visit.findIdx_leaves hleaves]
  have hlength : (before ++ [Visit.leave n]).length = before.length + 1 := by simp
  refine ⟨?_, ?_, ?_⟩
  · rw [List.length_append, List.length_cons]
    omega
  · rw [List.append_cons, ← hlength, List.drop_left]
  · rw [List.append_cons, ← hlength, List.take_left, Visit.openedAfter_append, hbefore]
    rfl

/-- A walk answers a call as the list of its visits does, and both go on together. -/
inductive Serves (visits : List Visit) : Except WalkError (Option Visit × Walk) →
    Except WalkError (Option Visit × Nat) → Prop where
  | ok {v : Option Visit} {w : Walk} {past : Nat} (h : w.At visits past) :
    Serves visits (.ok (v, w)) (.ok (v, past))
  | refused (e : WalkError) : Serves visits (.error e) (.error e)

theorem At.serves_visit {found : Option (Visit × Walk)} {place : Nat}
    (hfound : found = some (v, w')) (hv : visits[place]? = some v)
    (h : w'.At visits (place + 1)) :
    Serves visits (.ok (stepOr w found)) (.ok (visits[place]?, min (place + 1) visits.length)) := by
  rw [hfound, hv, Nat.min_eq_left h.past_le]
  exact .ok h

theorem At.serves_end {found : Option (Visit × Walk)} (hfound : found = none)
    (h : w.At visits visits.length) : Serves visits (.ok (stepOr w found))
      (.ok (visits[visits.length]?, min (visits.length + 1) visits.length)) := by
  rw [hfound, List.getElem?_eq_none (Nat.le_refl _), Nat.min_eq_right (Nat.le_succ _)]
  exact .ok h

/-- Every call on a walk is served from the list of its visits. -/
theorem At.serves (h : w.At visits past)
    (hleaves : ((visits.filterMap Visit.left?).map Node.index).Nodup) (c : WalkCall) :
    Serves visits (w.call c) (Visit.serve visits past c) := by
  cases c with
  | next =>
    cases hn : w.next with
    | none =>
      obtain rfl := h.ended hn
      exact serves_end hn h
    | some p =>
      obtain ⟨v, w'⟩ := p
      obtain ⟨hv, hat⟩ := h.next hn
      exact serves_visit hn hv hat
  | nextNode =>
    by_cases hn : w.next = none
    · obtain rfl := h.ended hn
      have hnode : w.nextNode = none := (nextNode_other (by simp [hn])).trans hn
      rw [Visit.serve, Visit.nodePlace_length]
      exact serves_end hnode h
    · obtain ⟨v, w', hnode, hv, hat⟩ := h.nextNode hn
      exact serves_visit hnode hv hat
  | skipSubtree =>
    have hnow := h.opened
    cases hopened : w.opened with
    | nil =>
      rw [hopened] at hnow
      rw [Walk.call, Walk.skipSubtree, hopened, Visit.serve, hnow]
      exact .refused _
    | cons o up =>
      rw [hopened] at hnow
      rw [Walk.call, Walk.skipSubtree, hopened, Visit.serve, hnow]
      exact .ok (h.skipSubtree hopened hleaves)

/-- So are calls one after the other. -/
theorem At.answers_eq (h : w.At visits past)
    (hleaves : ((visits.filterMap Visit.left?).map Node.index).Nodup) (calls : List WalkCall) :
    w.answers calls = Visit.served visits past calls := by
  induction calls generalizing w past with
  | nil => rfl
  | cons c calls ih =>
    have hserves := h.serves hleaves c
    rw [Walk.answers, Visit.served]
    revert hserves
    generalize w.call c = x, Visit.serve visits past c = y
    intro hserves
    cases hserves with
    | ok hat => exact congrArg _ (ih hat)
    | refused e => rfl

theorem at_start (n : Node) : n.walk.At n.visits 0 :=
  ⟨Nat.zero_le _, n.visits_eq, rfl⟩

end Walk

/-! ## Walks through tables -/

/-- A visit by the number of what is visited. -/
def Visit.number : Visit → TableVisit
  | enter n => .enter n.index
  | leave n => .leave n.index
  | token t => .token t.index

namespace TableWalk

variable {t : Table} {w : TableWalk}

theorem nextNode_token {w' : TableWalk} {id : Nat} (h : w.next t = .ok (some (.token id, w'))) :
    w.nextNode t = w'.nextNode t := by
  rw [nextNode]
  split
  · next hn =>
    rw [hn] at h
    cases h
    rfl
  · next hother =>
    exact absurd h (hother id w')

theorem nextNode_other (h : ∀ id w', w.next t ≠ .ok (some (.token id, w'))) :
    w.nextNode t = w.next t := by
  rw [nextNode]
  split
  · next hn => exact absurd hn (h _ _)
  · rfl

end TableWalk

namespace Walk

/-- The walk through tables that stands where a walk through the tree does. -/
def number (w : Walk) : TableWalk :=
  ⟨w.start.map Node.index, w.opened.map fun o => (o.1.index, o.2.map Element.slot)⟩

/-- A walk keeps to the nodes below one node, and to their children. -/
structure Within (w : Walk) (root : Node) : Prop where
  start : ∀ n, w.start = some n → n ∈ root.descendants
  opened : ∀ o ∈ w.opened, o.1 ∈ root.descendants ∧ o.2 ⊆ o.1.children

variable {w w' : Walk} {v : Visit} {root : Node} {t : Table}

theorem Within.next (h : w.Within root) (hn : w.next = some (v, w')) : w'.Within root := by
  cases steps_next hn with
  | start =>
    exact ⟨nofun, List.forall_mem_singleton.mpr ⟨h.start _ rfl, List.Subset.refl _⟩⟩
  | leave =>
    obtain ⟨-, hup⟩ := List.forall_mem_cons.mp h.opened
    exact ⟨h.start, hup⟩
  | token =>
    obtain ⟨⟨hopen, hes⟩, hup⟩ := List.forall_mem_cons.mp h.opened
    obtain ⟨-, hes⟩ := List.cons_subset.mp hes
    exact ⟨h.start, List.forall_mem_cons.mpr ⟨⟨hopen, hes⟩, hup⟩⟩
  | enter =>
    obtain ⟨⟨hopen, hes⟩, hup⟩ := List.forall_mem_cons.mp h.opened
    obtain ⟨hb, hes⟩ := List.cons_subset.mp hes
    have hchild := Node.child_mem_descendants hopen hb
    exact ⟨h.start, List.forall_mem_cons.mpr ⟨⟨hchild, List.Subset.refl _⟩,
      List.forall_mem_cons.mpr ⟨⟨hopen, hes⟩, hup⟩⟩⟩

theorem Within.nextNode (h : w.Within root) (hn : w.nextNode = some (v, w')) :
    w'.Within root := by
  induction hc : w.remaining using Nat.strongRecOn generalizing w with
  | ind count ih =>
  subst hc
  by_cases htoken : ∃ x w'', w.next = some (.token x, w'')
  · obtain ⟨x, w'', hx⟩ := htoken
    rw [nextNode_token hx] at hn
    exact ih _ (remaining_next hx) (h.next hx) hn rfl
  · rw [nextNode_other fun x w'' hx => htoken ⟨x, w'', hx⟩] at hn
    exact h.next hn

theorem Within.call (h : w.Within root) {c : WalkCall} {found : Option Visit}
    (hc : w.call c = .ok (found, w')) : w'.Within root := by
  have hstep {next : Option (Visit × Walk)} (hnext : ∀ v w', next = some (v, w') → w'.Within root)
      (hfound : stepOr w next = (found, w')) : w'.Within root := by
    cases next with
    | none =>
      cases hfound
      exact h
    | some p =>
      cases hfound
      exact hnext _ _ rfl
  cases c with
  | next => exact hstep (fun _ _ => h.next) (Except.ok.inj hc)
  | nextNode => exact hstep (fun _ _ => h.nextNode) (Except.ok.inj hc)
  | skipSubtree =>
    obtain ⟨start, opened⟩ := w
    cases opened with
    | nil => cases hc
    | cons o up =>
      cases hc
      obtain ⟨-, hup⟩ := List.forall_mem_cons.mp h.opened
      exact ⟨h.start, hup⟩

theorem number_stepOr (w : Walk) (found : Option (Visit × Walk)) :
    stepOr w.number (found.map fun p => (p.1.number, p.2.number)) =
      ((stepOr w found).1.map Visit.number, (stepOr w found).2.number) := by
  cases found <;> rfl

variable (ht : ∀ n ∈ root.descendants, t.children n.index = .ok (n.children.map Element.slot))

include ht

/-- A walk through the tables of a tree takes the steps of one through the tree. -/
theorem Within.next_number (h : w.Within root) :
    w.number.next t = .ok (w.next.map fun p => (p.1.number, p.2.number)) := by
  obtain ⟨start, opened⟩ := w
  match opened, start with
  | [], none => rfl
  | [], some n => exact Table.bind_ok (ht n (h.start n rfl)) _
  | (n, []) :: up, start => rfl
  | (n, .leaf l :: es) :: up, start => rfl
  | (n, .branch b ds :: es) :: up, start =>
    obtain ⟨⟨hopen, hes⟩, -⟩ := List.forall_mem_cons.mp h.opened
    obtain ⟨hb, -⟩ := List.cons_subset.mp hes
    exact Table.bind_ok (ht _ (Node.child_mem_descendants hopen hb)) _

theorem Within.nextNode_number (h : w.Within root) :
    w.number.nextNode t = .ok (w.nextNode.map fun p => (p.1.number, p.2.number)) := by
  induction hc : w.remaining using Nat.strongRecOn generalizing w with
  | ind count ih =>
  subst hc
  have hnext := h.next_number ht
  by_cases htoken : ∃ x w', w.next = some (.token x, w')
  · obtain ⟨x, w', hx⟩ := htoken
    rw [hx] at hnext
    rw [TableWalk.nextNode_token hnext, Walk.nextNode_token hx]
    exact ih _ (remaining_next hx) (h.next hx) rfl
  · have hother : ∀ x w', w.next ≠ some (.token x, w') := fun x w' hx => htoken ⟨x, w', hx⟩
    rw [Walk.nextNode_other hother, TableWalk.nextNode_other, hnext]
    intro id w' hid
    rw [hnext] at hid
    obtain ⟨⟨v, w''⟩, hv, hp⟩ := Option.map_eq_some_iff.mp (Except.ok.inj hid)
    cases v with
    | token x => exact hother x w'' hv
    | enter _ | leave _ => cases hp

theorem Within.call_number (h : w.Within root) (c : WalkCall) :
    w.number.call t c =
      .ok ((w.call c).map fun p => (p.1.map Visit.number, p.2.number)) := by
  cases c with
  | next =>
    refine (Table.bind_ok (h.next_number ht) _).trans ?_
    rw [number_stepOr]
    rfl
  | nextNode =>
    refine (Table.bind_ok (h.nextNode_number ht) _).trans ?_
    rw [number_stepOr]
    rfl
  | skipSubtree =>
    obtain ⟨start, opened⟩ := w
    cases opened <;> rfl

/-- A walk through the tables of a tree answers as one through the tree does. -/
theorem Within.answers_number (h : w.Within root) (calls : List WalkCall) :
    w.number.answers t calls =
      .ok ((w.answers calls).map (Except.map (Option.map Visit.number))) := by
  induction calls generalizing w with
  | nil => rfl
  | cons c calls ih =>
    rw [TableWalk.answers, Walk.answers]
    refine (Table.bind_ok (h.call_number ht c) _).trans ?_
    cases hc : w.call c with
    | error e => rfl
    | ok p => exact Table.bind_ok (ih (h.call hc)) _

end Walk

namespace Table

variable {t : Table} {tree : Tree} {n : Node}

/-- What a walk from a node of a tree does. Left to itself it makes the visits that recursion over
the tree gives, and ends; it leaves no node twice, and it meets the tokens of the node, a run of all
tokens. Whatever the calls, each is served from the list of these visits, and in the tables the
same comes of them. -/
structure Walks (t : Table) (n : Node) : Prop where
  visits : n.visits = .enter n :: n.children.flatMap (Element.visits n) ++ [.leave n]
  leaves : ((n.visits.filterMap Visit.left?).map Node.index).Nodup
  tokens : n.tips.map Tip.index <:+: List.range t.tokens.size
  answers : ∀ calls, n.walk.answers calls = Visit.served n.visits 0 calls
  searched : ∀ calls, (TableWalk.through n.index).answers t calls =
    .ok ((n.walk.answers calls).map (Except.map (Option.map Visit.number)))

theorem Places.nodup_leaves {a b : Tally} (h : t.Places n a b) :
    ((n.visits.filterMap Visit.left?).map Node.index).Nodup := by
  obtain ⟨up, hstands⟩ := h.stands
  have hbelow := hstands.inner.index_nodes n
  rw [(n.left_perm.map Node.index).nodup_iff, Node.descendants_eq, List.map_cons, hbelow,
    h.index_eq, List.nodup_cons]
  refine ⟨fun hmem => ?_, List.nodup_range'⟩
  exact Nat.not_succ_le_self _ (List.mem_range'_1.mp hmem).1

theorem Holds.walks (h : t.Holds tree) (hn : n ∈ tree.root.descendants) : t.Walks n := by
  obtain ⟨a, b, hplace⟩ := h.places n hn
  have hleaves := hplace.nodup_leaves
  have hchildren : ∀ m ∈ tree.root.descendants,
      t.children m.index = .ok (m.children.map Element.slot) := by
    intro m hm
    obtain ⟨_, _, hm⟩ := h.places m hm
    obtain ⟨up, hstands⟩ := hm.stands
    exact hm.index_eq ▸ hstands.children_eq
  have hwithin : n.walk.Within tree.root :=
    ⟨fun m hm => Option.some.inj hm ▸ hn, fun o ho => nomatch ho⟩
  refine ⟨n.visits_eq, hleaves, ?_, (Walk.at_start n).answers_eq hleaves,
    hwithin.answers_number hchildren⟩
  rw [← h.index_tips]
  exact (Node.tips_infix hn).map _

/-- In the tree of every session a walk may begin at every node. From the root it meets all
tokens. -/
theorem build_walks {text : List Char} {steps : List BuildStep} (h : build text steps = .ok t) :
    ∃ tree, t.tree = .ok tree ∧
      tree.root.descendants.map Node.index = List.range t.nodes.size ∧
      tree.tips.map Tip.index = List.range t.tokens.size ∧
      ∀ n ∈ tree.root.descendants, t.Walks n := by
  obtain ⟨tree, -, hholds⟩ := exists_tree h
  exact ⟨tree, hholds.tree_eq, hholds.index_descendants, hholds.index_tips,
    fun n hn => hholds.walks hn⟩

/-- A statement is left before its tokens come, and its root is left by a visit; from then on a walk
stays at its end, and there is nothing to leave. -/
theorem build_walks_skips : ∃ t tree, build [' ', 'a']
    [.startNode .sourceFile, .startNode .exprStmt, .token [⟨.whitespace, 1⟩] .inlineHtml 1,
      .missing, .finishNode, .token [] .eof 0, .finishNode] = .ok t ∧ t.tree = .ok tree ∧
    t.Walks tree.root ∧
    (tree.root.walk.answers [.next, .nextNode, .skipSubtree, .next, .nextNode, .next,
        .skipSubtree, .next]).map (Except.map (Option.map Visit.number)) =
      [.ok (some (.enter 0)), .ok (some (.enter 1)), .ok none, .ok (some (.token 2)),
        .ok (some (.leave 0)), .ok none, .error .noOpenNode] := by
  obtain ⟨t, tree, ht, htree, hcheck⟩ := exists_build_of_check [' ', 'a']
    [.startNode .sourceFile, .startNode .exprStmt, .token [⟨.whitespace, 1⟩] .inlineHtml 1,
      .missing, .finishNode, .token [] .eof 0, .finishNode]
    (fun t tree => tree.root.index = 0 ∧
      ((TableWalk.through 0).answers t [.next, .nextNode, .skipSubtree, .next, .nextNode, .next,
        .skipSubtree, .next]).toOption = some
      [.ok (some (.enter 0)), .ok (some (.enter 1)), .ok none, .ok (some (.token 2)),
        .ok (some (.leave 0)), .ok none, .error .noOpenNode])
    (by decide +kernel)
  obtain ⟨hroot, hanswers⟩ := of_decide_eq_true hcheck
  obtain ⟨tree', htree', -, -, hwalks⟩ := build_walks ht
  obtain rfl : tree = tree' := Except.ok.inj (htree.symm.trans htree')
  have hwalk := hwalks tree.root tree.root.mem_descendants_self
  refine ⟨t, tree, ht, htree, hwalk, ?_⟩
  have hsearched := hwalk.searched [.next, .nextNode, .skipSubtree, .next, .nextNode, .next,
    .skipSubtree, .next]
  rw [hroot] at hsearched
  rw [hsearched] at hanswers
  exact Option.some.inj hanswers

end Table
end PhpSyntax
