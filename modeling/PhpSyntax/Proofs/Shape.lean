import PhpSyntax.Proofs.Gist
import PhpSyntax.Proofs.Leaves
import PhpSyntax.Tree.Dump

/-!
The shape of a tree depends on the significant tokens alone: unrecognized input, trivia and places
change nothing in it but for the error nodes that unrecognized input is put into.
-/
namespace PhpSyntax

namespace Element

/-- Whether this is a token that was not recognized. -/
def isSkipped : Element → Bool
  | leaf l => l.kind == .skipped
  | branch _ _ => false

/-- Whether this is an error node of unrecognized tokens only. -/
def isAside : Element → Bool
  | leaf _ => false
  | branch b es => b.kind == .error && es.all isSkipped

/-- The element without the error nodes of unrecognized tokens. -/
def pruned : Element → List Element
  | leaf l => [leaf l]
  | branch b es => if (branch b es).isAside then [] else [branch b (es.flatMap pruned)]

def outline : Element → Outline
  | leaf l => .leaf l.kind
  | branch b es => .branch b.kind (es.map outline)

variable {b : Branch} {es : List Element}

theorem pruned_leaf (l : Leaf) : (leaf l).pruned = [leaf l] := by rw [pruned]

theorem pruned_branch (b : Branch) (es : List Element) : (branch b es).pruned =
    if (branch b es).isAside then [] else [branch b (es.flatMap pruned)] := by rw [pruned]

theorem outline_leaf (l : Leaf) : (leaf l).outline = .leaf l.kind := by rw [outline]

theorem outline_branch (b : Branch) (es : List Element) :
    (branch b es).outline = .branch b.kind (es.map outline) := by rw [outline]

end Element

/-- What the node is: its kind and its children. -/
def Node.outline (n : Node) : Outline := .branch n.kind (n.children.map Element.outline)

/-- The node without the error nodes of unrecognized tokens below it. -/
def Node.pruned (n : Node) : Node := { n with children := n.children.flatMap Element.pruned }

namespace Outline

/-- How an outline is written, in parts. -/
def parts : Outline → List String
  | leaf k => [" " ++ k.label]
  | branch k os => (" (" ++ k.label) :: os.flatMap parts ++ [")"]

theorem parts_leaf (k : Kind) : (leaf k).parts = [" " ++ k.label] := by rw [parts]

theorem parts_branch (k : Kind) (os : List Outline) :
    (branch k os).parts = (" (" ++ k.label) :: os.flatMap parts ++ [")"] := by rw [parts]

end Outline

/-- A walk through an element writes its outline. -/
theorem Element.map_shape_visits (n : Node) (e : Element) :
    (e.visits n).map (Visit.shape false) = e.outline.parts := by
  induction e using Element.induct generalizing n with
  | leaf l =>
    rw [visits_leaf, outline_leaf, Outline.parts_leaf]
    rfl
  | branch b es ih =>
    have hes : es.flatMap (fun e => (e.visits (n.child b es)).map (Visit.shape false)) =
        es.flatMap (fun e => e.outline.parts) := List.flatMap_congr fun e he => ih e he _
    rw [visits_branch, outline_branch, Outline.parts_branch, List.map_append, List.map_cons,
      List.map_flatMap, List.flatMap_map, hes]
    rfl

namespace Node

/-- What is written of visits comes one after the other. -/
theorem foldl_shape (vs : List Visit) (s : String) :
    (vs.foldl (fun (s, first) v => (s ++ v.shape first, false)) (s, false)).1 =
      (vs.map (Visit.shape false)).foldl (· ++ ·) s := by
  induction vs generalizing s with
  | nil => rfl
  | cons v vs ih => exact ih (s ++ v.shape false)

/-- The shape of a node depends on its kind and on the outlines of its children. -/
theorem shape_eq (n : Node) : n.shape =
    ((n.children.map Element.outline).flatMap Outline.parts ++ [")"]).foldl (· ++ ·)
      ("" ++ ("(" ++ n.kind.label)) := by
  have hes : n.children.flatMap (fun e => (e.visits n).map (Visit.shape false)) =
      n.children.flatMap (fun e => e.outline.parts) :=
    List.flatMap_congr fun e _ => e.map_shape_visits n
  rw [shape, visits_eq, List.cons_append, List.foldl_cons, foldl_shape, List.map_append,
    List.map_flatMap, List.flatMap_map, hes]
  rfl

theorem shape_congr {m n : Node} (hk : m.kind = n.kind)
    (hc : m.children.map Element.outline = n.children.map Element.outline) : m.shape = n.shape := by
  rw [shape_eq, shape_eq, hk, hc]

end Node

namespace Sprout

/-- The outline of a sprout, unrecognized input included. -/
def bare : Sprout → Outline
  | token t => .leaf t.kind
  | missing _ => .leaf .missing
  | branch kind children => .branch kind (children.map bare)

theorem bare_branch (kind : Kind) (cs : List Sprout) :
    (branch kind cs).bare = .branch kind (cs.map bare) := by rw [bare]

end Sprout

namespace Sprout.Shows

variable {offset : Nat} {text : List Char} {cs : List Sprout} {es : List Element}

/-- Elements have the outlines of the sprouts that they show. -/
theorem map_outline (h : Shows offset text cs es) : es.map Element.outline = cs.map Sprout.bare := by
  induction h with
  | nil => rfl
  | token _ _ _ ih => rw [List.map_cons, List.map_cons, ih, Element.outline_leaf, Sprout.bare]
  | missing _ ih => rw [List.map_cons, List.map_cons, ih, Element.outline_leaf, Sprout.bare]
  | branch _ _ ihi iht =>
    rw [List.map_cons, List.map_cons, iht, Element.outline_branch, ihi, Sprout.bare_branch]

/-- What rules make of more than unrecognized input is shown by a node that is not pruned away. -/
theorem isAside_eq_false (h : Shows offset text cs es) {b : Branch}
    (recovered : b.kind = .error → Recovered cs) : (Element.branch b es).isAside = false := by
  by_cases hk : b.kind = .error
  · rcases recovered hk with ⟨t, rest, ht, rfl⟩ | ⟨k, ds, o, rfl⟩
    · cases h
      simp [Element.isAside, Element.isSkipped, ht]
    · cases h
      simp [Element.isAside, Element.isSkipped]
  · simp [Element.isAside, hk]

/-- What is left of elements has the outlines of the sprouts that they show. -/
theorem map_outline_pruned (h : Shows offset text cs es) (hc : ∀ c ∈ cs, c.Made) :
    (es.flatMap Element.pruned).map Element.outline = cs.flatMap Sprout.outlines := by
  induction h with
  | nil => rfl
  | token _ _ _ ih =>
    obtain ⟨-, hcs⟩ := List.forall_mem_cons.mp hc
    rw [List.flatMap_cons, List.flatMap_cons, List.map_append, ih hcs, Element.pruned_leaf,
      List.map_singleton, Element.outline_leaf, Sprout.outlines]
  | missing _ ih =>
    obtain ⟨-, hcs⟩ := List.forall_mem_cons.mp hc
    rw [List.flatMap_cons, List.flatMap_cons, List.map_append, ih hcs, Element.pruned_leaf,
      List.map_singleton, Element.outline_leaf, Sprout.outlines]
  | @branch offset kind index ds fs front text cs es inner _ ihi iht =>
    obtain ⟨hd, hcs⟩ := List.forall_mem_cons.mp hc
    rw [List.flatMap_cons, List.flatMap_cons, List.map_append, iht hcs, Element.pruned_branch]
    congr 1
    cases hd with
    | aside skipped =>
      have hall : fs.all Element.isSkipped = true := List.all_eq_true.mpr fun e he => by
        obtain ⟨l, rfl, hl⟩ := inner.skipped_leaves skipped e he
        exact beq_iff_eq.mpr hl
      have houtlines := Sprout.flatMap_outlines_aside skipped
      rw [Sprout.aside, List.flatMap_singleton] at houtlines
      rw [houtlines, Element.isAside, hall]
      rfl
    | branch _ recovered _ made =>
      rw [if_neg (by rw [inner.isAside_eq_false recovered]; decide), List.map_singleton,
        Element.outline_branch, ihi made, Sprout.outlines_branch (Sprout.isAside_branch recovered)]

end Sprout.Shows

namespace ParsedAs

variable {dialect : Dialect} {text : List Char} {g : Stage} {last : Token} {p : Parse}

theorem outlines_pruned (h : ParsedAs dialect text g last p) :
    p.tree.root.pruned.children.map Element.outline =
      g.children.flatMap Sprout.outlines ++ [.leaf .eof] := by
  have hshows := h.shows.map_outline_pruned h.made
  rw [List.flatMap_append, List.flatMap_singleton, Sprout.outlines, h.isEnd] at hshows
  exact hshows

theorem ruleMessages_diagnostics (h : ParsedAs dialect text g last p) :
    Diagnostic.ruleMessages p.diagnostics = Diagnostic.ruleMessages g.diagnostics := by
  have hlast : Diagnostic.ruleMessages last.error.toList = [] :=
    Diagnostic.ruleMessages_lexical fun d hd => h.lawful.lexical d (Option.mem_toList.mp hd)
  rw [h.diagnostics, Diagnostic.ruleMessages_append, hlast, List.append_nil]

end ParsedAs

theorem start_regular (dialect : Dialect) (text : List Char) :
    (Stage.start (tokenize dialect text)).Regular :=
  ⟨⟨by simp [Stage.start], by simp [Stage.start], by simp [Stage.start],
    tokenize_lawful dialect text⟩, firstKind_tokenize dialect text⟩

/-- The shape of a tree depends only on the significant tokens. If two texts have the same tokens,
apart from unrecognized input, trivia and places, then their trees have the same shape without the
error nodes of unrecognized input, and rules report the same of both. -/
theorem shape_of_significant {d₁ d₂ : Dialect} {text₁ text₂ : List Char}
    (h : Token.significant (tokenize d₁ text₁) = Token.significant (tokenize d₂ text₂)) :
    ∃ p₁ p₂, parse d₁ text₁ = .ok p₁ ∧ parse d₂ text₂ = .ok p₂ ∧
      p₁.tree.root.pruned.shape = p₂.tree.root.pruned.shape ∧
      Diagnostic.ruleMessages p₁.diagnostics = Diagnostic.ruleMessages p₂.diagnostics := by
  obtain ⟨-, p₁, g₁, last₁, -, -, hp₁, h₁⟩ := exists_parse d₁ text₁
  obtain ⟨-, p₂, g₂, last₂, -, -, hp₂, h₂⟩ := exists_parse d₂ text₂
  obtain ⟨n₁, hm₁⟩ := h₁.makes
  obtain ⟨n₂, hm₂⟩ := h₂.makes
  have hstart :
      (Stage.start (tokenize d₂ text₂)).gist = (Stage.start (tokenize d₁ text₁)).gist := by
    rw [Stage.gist, Stage.gist]
    simp only [Stage.start, h]
  obtain ⟨g, hm, hg⟩ := hm₁.sameGist Grammar.php_orderly rfl (start_regular d₁ text₁)
    (start_regular d₂ text₂) hstart
  -- the program makes only one thing of the second text
  obtain ⟨-, rfl⟩ := hm.unique hm₂
  have houtlines : g.children.flatMap Sprout.outlines = g₁.children.flatMap Sprout.outlines :=
    congrArg Gist.outlines hg
  have hmessages : Diagnostic.ruleMessages g.diagnostics = Diagnostic.ruleMessages g₁.diagnostics :=
    congrArg Gist.messages hg
  refine ⟨p₁, p₂, hp₁, hp₂, Node.shape_congr ?_ ?_, ?_⟩
  · exact h₁.kind.trans h₂.kind.symm
  · rw [h₁.outlines_pruned, h₂.outlines_pruned, houtlines]
  · rw [h₁.ruleMessages_diagnostics, h₂.ruleMessages_diagnostics, hmessages]

/-- A call that is not closed, once with unrecognized input at three places and a comment without an
end, once without. -/
theorem shape_of_significant_call :
    let noisy := "<?php f(\x01 1, $a \x02/\x03 2 /* c".toList
    let plain := "<?php f ( 1,$a/2".toList
    Token.significant (tokenize ⟨true⟩ noisy) = Token.significant (tokenize ⟨false⟩ plain) ∧
    ∃ p₁ p₂, parse ⟨true⟩ noisy = .ok p₁ ∧ parse ⟨false⟩ plain = .ok p₂ ∧
      p₁.tree.root.pruned.shape = p₂.tree.root.pruned.shape ∧
      Diagnostic.ruleMessages p₁.diagnostics = Diagnostic.ruleMessages p₂.diagnostics := by
  intro noisy plain
  have h : Token.significant (tokenize ⟨true⟩ noisy) =
      Token.significant (tokenize ⟨false⟩ plain) := by
    decide +kernel
  exact ⟨h, shape_of_significant h⟩

end PhpSyntax
