import Mathlib.Data.List.Basic
import PhpSyntax.Proofs.Parsed

/-!
The leaves of a parse. Every text is parsed, the texts of the leaves give it back, and the leaves
that are not missing are the tokens of the text, each at its place.
-/
namespace PhpSyntax

namespace Element

/-- The leaves below a node that an element brings in. -/
def tips (n : Node) (e : Element) : List Tip := (e.visits n).filterMap Visit.tip?

theorem tips_leaf (n : Node) (l : Leaf) : (leaf l).tips n = [⟨l, n⟩] := by
  rw [tips, visits_leaf]
  rfl

theorem tips_branch (n : Node) (b : Branch) (es : List Element) :
    (branch b es).tips n = es.flatMap (tips (n.child b es)) := by
  rw [tips, visits_branch, List.cons_append, List.filterMap_cons_none rfl, List.filterMap_append,
    List.filterMap_flatMap, List.filterMap_cons_none rfl, List.filterMap_nil, List.append_nil]
  rfl

theorem map_leaf_tips (n : Node) (e : Element) : (e.tips n).map (·.leaf) = e.leaves := by
  induction e using Element.induct generalizing n with
  | leaf l => rw [tips_leaf, leaves_leaf, List.map_singleton]
  | branch b es ih =>
    rw [tips_branch, leaves_branch, List.map_flatMap]
    exact List.flatMap_congr fun e he => ih e he _

end Element

namespace Node

theorem tips_eq (n : Node) : n.tips = n.children.flatMap (Element.tips n) := by
  rw [tips, visits_eq, List.cons_append, List.filterMap_cons_none rfl, List.filterMap_append,
    List.filterMap_flatMap, List.filterMap_cons_none rfl, List.filterMap_nil, List.append_nil]
  rfl

theorem map_leaf_tips (n : Node) : n.tips.map (·.leaf) = n.children.flatMap Element.leaves := by
  rw [tips_eq, List.map_flatMap]
  exact List.flatMap_congr fun e _ => e.map_leaf_tips n

end Node

theorem Tree.map_leaf_tips (t : Tree) : t.tips.map (·.leaf) = t.children.flatMap Element.leaves :=
  t.root.map_leaf_tips

namespace Leaf

/-- What is seen of a leaf beside its text: its kind, where it is, and the trivia before it. -/
def aspect (l : Leaf) : Kind × Range × Range × List TriviaPiece :=
  (l.kind, l.range, l.fullRange, l.leading)

end Leaf

namespace Token

/-- What a leaf that shows the token looks like. -/
def aspect (t : Token) : Kind × Range × Range × List TriviaPiece :=
  (t.kind, t.range, t.fullRange, t.leading)

theorem Lawful.kind_ne_missing {t : Token} (h : t.Lawful) : t.kind ≠ .missing := by
  intro hk
  have hw := h.written (by rw [hk]; decide)
  rw [hk] at hw
  revert hw
  decide

end Token

namespace Sprout.Shows

variable {offset : Nat} {text : List Char} {cs ds : List Sprout} {es : List Element}

/-- The leaves take the whole text, and nothing twice. -/
theorem text_leaves (h : Shows offset text cs es) :
    (es.flatMap Element.leaves).flatMap (·.text) = text := by
  induction h with
  | nil => rfl
  | token _ _ _ ih => simp [Element.leaves_leaf, ih]
  | missing _ ih => simp [Element.leaves_leaf, ih]
  | branch _ _ ihi iht => simp [Element.leaves_branch, ihi, iht]

theorem split (h : Shows offset text (cs ++ ds) es) : ∃ front back es₁ es₂ middle,
    text = front ++ back ∧ es = es₁ ++ es₂ ∧ Shows offset front cs es₁ ∧
      Shows middle back ds es₂ := by
  induction cs generalizing offset text es with
  | nil => exact ⟨[], text, [], es, offset, rfl, rfl, .nil, h⟩
  | cons c cs ih =>
    cases h with
    | token begins wide tail =>
      obtain ⟨front, back, es₁, es₂, m, rfl, rfl, h₁, h₂⟩ := ih tail
      exact ⟨_, back, _, es₂, m, by simp, rfl, .token begins wide h₁, h₂⟩
    | missing tail =>
      obtain ⟨front, back, es₁, es₂, m, rfl, rfl, h₁, h₂⟩ := ih tail
      exact ⟨front, back, _, es₂, m, rfl, rfl, .missing h₁, h₂⟩
    | branch inner tail =>
      obtain ⟨front, back, es₁, es₂, m, rfl, rfl, h₁, h₂⟩ := ih tail
      exact ⟨_, back, _, es₂, m, by simp, rfl, .branch inner h₁, h₂⟩

/-- A leaf that shows a token has the aspect of the token. -/
theorem aspect_leaf (t : Token) (index : Nat) (text : List Char) :
    (Leaf.mk t.kind index t.offset t.leading (Text.width t.text) text).aspect = t.aspect := rfl

/-- The leaves that are not missing look like the tokens, one by one. -/
theorem aspect_leaves (h : Shows offset text cs es)
    (hk : ∀ t ∈ cs.flatMap Sprout.tokens, t.kind ≠ .missing) :
    ((es.flatMap Element.leaves).filter (!·.isMissing)).map Leaf.aspect =
      (cs.flatMap Sprout.tokens).map Token.aspect := by
  induction h with
  | nil => rfl
  | @token offset t index lead text cs es begins wide tail ih =>
    subst begins
    simp only [List.flatMap_cons, Sprout.tokens, Element.leaves_leaf, List.singleton_append] at hk ⊢
    obtain ⟨ht, hts⟩ := List.forall_mem_cons.mp hk
    rw [List.filter_cons_of_pos (by simpa [Leaf.isMissing] using ht), List.map_cons, List.map_cons,
      ih hts, aspect_leaf]
  | missing tail ih =>
    simp only [List.flatMap_cons, Sprout.tokens, Element.leaves_leaf, List.singleton_append,
      List.nil_append] at hk ⊢
    rw [List.filter_cons_of_neg (by simp [Leaf.isMissing]), ih hk]
  | branch inner tail ihi iht =>
    simp only [List.flatMap_cons, Sprout.tokens_branch, Element.leaves_branch, List.filter_append,
      List.map_append] at hk ⊢
    rw [ihi fun t ht => hk t (List.mem_append_left _ ht),
      iht fun t ht => hk t (List.mem_append_right _ ht)]

/-- A leaf shows a token, or it is missing: then it takes nothing of the text. -/
theorem leaf_cases (h : Shows offset text cs es) : ∀ l ∈ es.flatMap Element.leaves,
    (∃ t ∈ cs.flatMap Sprout.tokens, l.aspect = t.aspect) ∨
      l.kind = .missing ∧ l.fullRange.start = l.fullRange.stop ∧ l.leading = [] := by
  induction h with
  | nil => simp
  | token begins _ _ ih =>
    subst begins
    rw [List.flatMap_cons, List.flatMap_cons, Element.leaves_leaf, Sprout.tokens]
    refine List.forall_mem_cons.mpr ⟨.inl ⟨_, List.mem_cons_self .., rfl⟩, fun l hl => ?_⟩
    rcases ih l hl with ⟨t, ht, ha⟩ | hm
    · exact .inl ⟨t, List.mem_cons_of_mem _ ht, ha⟩
    · exact .inr hm
  | missing _ ih =>
    rw [List.flatMap_cons, List.flatMap_cons, Element.leaves_leaf, Sprout.tokens]
    exact List.forall_mem_cons.mpr ⟨.inr ⟨rfl, rfl, rfl⟩, ih⟩
  | branch _ _ ihi iht =>
    rw [List.flatMap_cons, List.flatMap_cons, Element.leaves_branch, Sprout.tokens_branch]
    intro l hl
    rcases List.mem_append.mp hl with hl | hl
    · rcases ihi l hl with ⟨t, ht, ha⟩ | hm
      · exact .inl ⟨t, List.mem_append_left _ ht, ha⟩
      · exact .inr hm
    · rcases iht l hl with ⟨t, ht, ha⟩ | hm
      · exact .inl ⟨t, List.mem_append_right _ ht, ha⟩
      · exact .inr hm

/-- Elements that show unrecognized input are leaves for it. -/
theorem skipped_leaves {ts : List Token} (hs : ∀ t ∈ ts, t.kind = .skipped)
    (h : Shows offset text (ts.map Sprout.token) es) :
    ∀ e ∈ es, ∃ l, e = .leaf l ∧ l.kind = .skipped := by
  induction ts generalizing offset text es with
  | nil =>
    cases h
    simp
  | cons t ts ih =>
    obtain ⟨ht, hts⟩ := List.forall_mem_cons.mp hs
    cases h with
    | token _ _ tail => exact List.forall_mem_cons.mpr ⟨⟨_, rfl, ht⟩, ih hts tail⟩

end Sprout.Shows

namespace ParsedAs

variable {dialect : Dialect} {text : List Char} {g : Stage} {last : Token} {p : Parse}

theorem made (h : ParsedAs dialect text g last p) : ∀ c ∈ g.children ++ [.token last], c.Made := by
  intro c hc
  rcases List.mem_append.mp hc with hc | hc
  · exact h.wellMade.made c hc
  · rw [List.mem_singleton.mp hc]
    exact .token (by rw [h.isEnd]; decide) h.lawful

/-- The elements under the root show the tokens of the text. -/
theorem tokens_shown (h : ParsedAs dialect text g last p) :
    (g.children ++ [Sprout.token last]).flatMap Sprout.tokens = tokenize dialect text := by
  rw [List.flatMap_append, List.flatMap_singleton, Sprout.tokens, h.tokens]

theorem kind_ne_missing (h : ParsedAs dialect text g last p) :
    ∀ t ∈ (g.children ++ [Sprout.token last]).flatMap Sprout.tokens, t.kind ≠ .missing := by
  rw [h.tokens_shown]
  exact fun t ht => (tokenize_lawful dialect text t ht).kind_ne_missing

/-- The end of file is the last child of the root and the only one. -/
theorem eof_tips (h : ParsedAs dialect text g last p) : ∃ l,
    p.tree.tips.filter (·.kind == .eof) = [⟨l, p.tree.root⟩] ∧
      p.tree.root.children.getLast? = some (.leaf l) := by
  obtain ⟨front, back, es₁, es₂, m, -, hes, h₁, h₂⟩ := h.shows.split
  obtain ⟨l, hl, rfl⟩ : ∃ l : Leaf, l.kind = .eof ∧ es₂ = [.leaf l] := by
    cases h₂ with
    | token _ _ tail =>
      cases tail
      exact ⟨_, h.isEnd, rfl⟩
  have hroot : p.tree.root.children = es₁ ++ [.leaf l] := hes
  -- all tokens before the last one are other ones
  have hother : ∀ l ∈ es₁.flatMap Element.leaves, l.kind ≠ .eof := by
    intro l hl hk
    rcases h₁.leaf_cases l hl with ⟨t, ht, ha⟩ | ⟨hm, -⟩
    · obtain ⟨ts, u, hts, -, hne⟩ := tokenize_ended dialect text
      have he := (h.tokens.trans hts)
      obtain ⟨rfl, -⟩ := List.append_inj' he rfl
      exact hne t ht ((congrArg Prod.fst ha).symm.trans hk)
    · rw [hk] at hm
      cases hm
  have hfront : (es₁.flatMap (Element.tips p.tree.root)).filter (·.kind == .eof) = [] := by
    refine List.filter_eq_nil_iff.mpr fun t ht hk => ?_
    obtain ⟨e, he, hte⟩ := List.mem_flatMap.mp ht
    refine hother t.leaf (List.mem_flatMap.mpr ⟨e, he, ?_⟩) (beq_iff_eq.mp hk)
    rw [← e.map_leaf_tips p.tree.root]
    exact List.mem_map_of_mem hte
  refine ⟨l, ?_, by rw [hroot, List.getLast?_concat]⟩
  rw [Tree.tips, Node.tips_eq, hroot, List.flatMap_append, List.filter_append, hfront,
    List.flatMap_singleton, Element.tips_leaf, List.nil_append]
  exact List.filter_cons_of_pos (beq_iff_eq.mpr hl)

end ParsedAs

/-- Parsing is total and loses nothing. Every text has a parse: the machine ends within its steps,
without a fault, and leaves no branch without a kind, and the builder refuses nothing of its log.
The root is a source file over the whole text, the end of file is its last child and nowhere else,
and the texts of the leaves are the text. -/
theorem parse_total (dialect : Dialect) (text : List Char) : ∃ s p,
    Parse.complete (tokenize dialect text) = .ok s ∧
    (∀ e ∈ s.log.toList, ∀ forward, e ≠ .start none forward) ∧
    parse dialect text = .ok p ∧
    p.tree.root.kind = .sourceFile ∧
    p.tree.root.range = .ofLength 0 (Text.width text) ∧
    (∃ l, p.tree.tips.filter (·.kind == .eof) = [⟨l, p.tree.root⟩] ∧
      p.tree.root.children.getLast? = some (.leaf l)) ∧
    p.tree.tips.flatMap (·.leaf.text) = text := by
  obtain ⟨s, p, g, last, hs, hsettled, hp, h⟩ := exists_parse dialect text
  refine ⟨s, p, hs, hsettled, hp, h.kind, h.range, h.eof_tips, ?_⟩
  have htext := h.shows.text_leaves
  rwa [← p.tree.map_leaf_tips, List.flatMap_map] at htext

/-- The leaves of a parse are the tokens of the text, in their order and at their places, and leaves
for missing tokens, which take nothing of the text. -/
theorem tips_are_tokens (dialect : Dialect) (text : List Char) : ∃ p,
    parse dialect text = .ok p ∧
    (p.tree.tips.filter (!·.isMissing)).map
        (fun t => (t.kind, t.range, t.fullRange, t.leaf.leading)) =
      (tokenize dialect text).map (fun t => (t.kind, t.range, t.fullRange, t.leading)) ∧
    ∀ t ∈ p.tree.tips, t.isMissing = true →
      t.fullRange.start = t.fullRange.stop ∧ t.leaf.leading = [] := by
  obtain ⟨s, p, g, last, -, -, hp, h⟩ := exists_parse dialect text
  refine ⟨p, hp, ?_, fun t ht hm => ?_⟩
  · have haspects := h.shows.aspect_leaves h.kind_ne_missing
    rw [h.tokens_shown, ← p.tree.map_leaf_tips, List.filter_map, List.map_map] at haspects
    exact haspects
  · have hl : t.leaf ∈ p.tree.children.flatMap Element.leaves := by
      rw [← p.tree.map_leaf_tips]
      exact List.mem_map_of_mem ht
    rcases h.shows.leaf_cases t.leaf hl with ⟨u, hu, ha⟩ | ⟨-, hempty⟩
    · have hk : u.kind = .missing := (congrArg Prod.fst ha).symm.trans (beq_iff_eq.mp hm)
      exact absurd hk (h.kind_ne_missing u hu)
    · exact hempty

end PhpSyntax
