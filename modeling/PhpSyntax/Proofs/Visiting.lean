import PhpSyntax.Tree.Walk

/-!
A walk meets the elements of a tree in preorder, each with the node above it.
-/
namespace PhpSyntax

namespace Element

/-- Induction over an element: a branch has what all its children have. -/
@[elab_as_elim]
theorem induct {P : Element → Prop} (leaf : ∀ l, P (leaf l))
    (branch : ∀ b es, (∀ e ∈ es, P e) → P (branch b es)) (e : Element) : P e := by
  refine Element.rec (motive_1 := P) (motive_2 := fun es => ∀ e ∈ es, P e) leaf branch ?_ ?_ e
  · intro e he
    cases he
  · intro e es he hes d hd
    rcases List.mem_cons.mp hd with rfl | hd
    · exact he
    · exact hes d hd

/-- The visits to an element below a node. -/
def visits (n : Node) : Element → List Visit
  | leaf l => [.token ⟨l, n⟩]
  | branch b es =>
    .enter (n.child b es) :: es.flatMap (fun e => visits (n.child b es) e) ++
      [.leave (n.child b es)]

/-- The leaves of an element, in the order of the text. -/
def leaves : Element → List Leaf
  | leaf l => [l]
  | branch _ es => es.flatMap leaves

theorem visits_leaf (n : Node) (l : Leaf) : visits n (leaf l) = [.token ⟨l, n⟩] := by rw [visits]

theorem visits_branch (n : Node) (b : Branch) (es : List Element) : visits n (branch b es) =
    .enter (n.child b es) :: es.flatMap (visits (n.child b es)) ++ [.leave (n.child b es)] := by
  rw [visits]

theorem leaves_leaf (l : Leaf) : (leaf l).leaves = [l] := by rw [leaves]

theorem leaves_branch (b : Branch) (es : List Element) :
    (branch b es).leaves = es.flatMap leaves := by rw [leaves]

end Element

namespace Walk

theorem visitsFrom_eq (before : Array Visit) {w : Walk} (v : Visit) (w' : Walk)
    (h : w.next = some (v, w')) : visitsFrom before w = visitsFrom (before.push v) w' := by
  rw [visitsFrom]
  split
  · next hn =>
    rw [hn] at h
    cases h
  · next hn =>
    rw [hn] at h
    cases h
    rfl

/-- The children still to come of the innermost open node are visited first, then it is left. -/
theorem visitsFrom_opened (before : Array Visit) (n : Node) (es : List Element)
    (up : List (Node × List Element)) : visitsFrom before ⟨none, (n, es) :: up⟩ =
      visitsFrom (before ++ (es.flatMap (Element.visits n) ++ [Visit.leave n]).toArray)
        ⟨none, up⟩ := by
  induction hc : Element.visitCounts es using Nat.strongRecOn generalizing before n es up with
  | ind count ih =>
    subst hc
    match es with
    | [] =>
      rw [visitsFrom_eq before (.leave n) ⟨none, up⟩ rfl]
      simp
    | .leaf l :: es =>
      rw [visitsFrom_eq before (.token ⟨l, n⟩) ⟨none, (n, es) :: up⟩ rfl,
        ih _ (by simp [Element.visitCounts, Element.visitCount]) _ n es up rfl]
      simp [Element.visits_leaf]
    | .branch b ds :: es =>
      -- the branch is left before its siblings are visited, and both are less than all of it
      have hds : Element.visitCounts ds < Element.visitCounts (.branch b ds :: es) := by
        simp only [Element.visitCounts, Element.visitCount]
        omega
      have hes : Element.visitCounts es < Element.visitCounts (.branch b ds :: es) := by
        simp only [Element.visitCounts, Element.visitCount]
        omega
      rw [visitsFrom_eq before (.enter (n.child b ds))
          ⟨none, (n.child b ds, ds) :: (n, es) :: up⟩ rfl,
        ih _ hds _ (n.child b ds) ds _ rfl, ih _ hes _ n es up rfl]
      simp [Element.visits_branch]

end Walk

namespace Node

/-- A node is entered, then all below it is visited, then it is left. -/
theorem visits_eq (n : Node) :
    n.visits = .enter n :: n.children.flatMap (Element.visits n) ++ [.leave n] := by
  rw [visits, Walk.visits, walk,
    Walk.visitsFrom_eq #[] (.enter n) ⟨none, [(n, n.children)]⟩ rfl,
    Walk.visitsFrom_opened, Walk.visitsFrom]
  simp [Walk.next]

end Node

namespace Element

/-- The nodes that an element brings in below a node. -/
def nodes (n : Node) (e : Element) : List Node := (e.visits n).filterMap Visit.entered?

theorem nodes_leaf (n : Node) (l : Leaf) : (leaf l).nodes n = [] := by
  rw [nodes, visits_leaf]
  rfl

theorem nodes_branch (n : Node) (b : Branch) (es : List Element) :
    (branch b es).nodes n = n.child b es :: es.flatMap (nodes (n.child b es)) := by
  rw [nodes, visits_branch, List.cons_append, List.filterMap_cons, List.filterMap_append,
    List.filterMap_flatMap, List.filterMap_cons_none rfl, List.filterMap_nil, List.append_nil]
  rfl

end Element

theorem Node.descendants_eq (n : Node) :
    n.descendants = n :: n.children.flatMap (Element.nodes n) := by
  rw [descendants, visits_eq, List.cons_append, List.filterMap_cons, List.filterMap_append,
    List.filterMap_flatMap, List.filterMap_cons_none rfl, List.filterMap_nil, List.append_nil]
  rfl

/-! ## What is handed on from a node to its children -/

/-- The node that a visit is to, or the one above the leaf that it is to. -/
def Visit.node : Visit → Node
  | enter n => n
  | leave n => n
  | token t => t.parent

section Descent

variable {P : Node → Prop}
  (step : ∀ n b es, P n → .branch b es ∈ n.children → P (n.child b es))

include step

theorem Element.forall_visits (e : Element) {n : Node} (hn : P n) (he : e ∈ n.children) :
    ∀ v ∈ e.visits n, P v.node := by
  induction e using Element.induct generalizing n with
  | leaf l =>
    intro v hv
    rw [visits_leaf, List.mem_singleton] at hv
    rw [hv]
    exact hn
  | branch b es ih =>
    have hchild := step n b es hn he
    intro v hv
    rw [visits_branch, List.mem_append, List.mem_cons, List.mem_singleton, List.mem_flatMap] at hv
    rcases hv with (rfl | ⟨d, hd, hv⟩) | rfl
    · exact hchild
    · exact ih d hd hchild hd v hv
    · exact hchild

namespace Node

/-- What every node hands on to its children holds wherever a walk comes. -/
theorem forall_visits {n : Node} (hn : P n) : ∀ v ∈ n.visits, P v.node := by
  intro v hv
  rw [visits_eq, List.mem_append, List.mem_cons, List.mem_singleton, List.mem_flatMap] at hv
  rcases hv with (rfl | ⟨e, he, hv⟩) | rfl
  · exact hn
  · exact e.forall_visits step hn he v hv
  · exact hn

theorem forall_descendants {n : Node} (hn : P n) : ∀ m ∈ n.descendants, P m := by
  intro m hm
  obtain ⟨v, hv, hentered⟩ := List.mem_filterMap.mp hm
  cases v with
  | enter m' =>
    obtain rfl := Option.some.inj hentered
    exact forall_visits step hn _ hv
  | leave _ | token _ => cases hentered

theorem forall_tips {n : Node} (hn : P n) : ∀ t ∈ n.tips, P t.parent := by
  intro t ht
  obtain ⟨v, hv, htip⟩ := List.mem_filterMap.mp ht
  cases v with
  | token t' =>
    obtain rfl := Option.some.inj htip
    exact forall_visits step hn _ hv
  | enter _ | leave _ => cases htip

end Node

end Descent
end PhpSyntax
