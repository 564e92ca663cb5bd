import PhpSyntax.Proofs.Leaves

/-!
The diagnostics of a parse and its tree account for each other: a walk through the tree finds all
that is reported, in the same order, and unrecognized input is alone in its error nodes.
-/
namespace PhpSyntax

/-- The report of recovered input: where the first token of an error node is, unless it is
unrecognized. -/
def Node.heading (n : Node) : List (Severity × Range) :=
  match n.kind, n.children with
  | .error, .leaf l :: _ => if l.kind = .skipped then [] else [(.error, l.range)]
  | _, _ => []

/-- Only unrecognized input is below the node. -/
def Node.IsAside (n : Node) : Prop :=
  n.kind = .error ∧ ∀ e ∈ n.children, ∃ l, e = .leaf l ∧ l.kind = .skipped

namespace Token

/-- The report that the token carries. -/
def report (t : Token) : List (Severity × Range) :=
  (t.error.map fun d => (d.severity, d.range)).toList

end Token

namespace Visit

/-- What a walk finds to be wrong. It meets the tokens of the text in their order and reports what
is wrong with each; missing tokens and the beginnings of recovered input are reported beside. -/
def reports : List Token → List Visit → List (Severity × Range)
  | _, [] => []
  | ts, enter n :: vs => n.heading ++ reports ts vs
  | ts, leave _ :: vs => reports ts vs
  | ts, token tip :: vs =>
    if tip.isMissing then (.error, .point tip.range.start) :: reports ts vs
    else match ts with
      | [] => reports [] vs
      | t :: ts => t.report ++ reports ts vs

end Visit

/-- Kinds of what stands for something wrong in a tree. -/
def Kind.isAmiss (k : Kind) : Bool := k == .error || k == .missing || k == .skipped

theorem Kind.isAmiss_eq_false {k : Kind} :
    k.isAmiss = false ↔ k ≠ .error ∧ k ≠ .missing ∧ k ≠ .skipped := by
  simp [isAmiss, and_assoc]

namespace Token

variable {t : Token}

/-- A token is amiss only where it is unrecognized. -/
theorem Lawful.isAmiss (h : t.Lawful) (hs : t.kind ≠ .skipped) : t.kind.isAmiss = false := by
  refine Kind.isAmiss_eq_false.mpr ⟨fun hk => ?_, h.kind_ne_missing, hs⟩
  have hw := h.written (by rw [hk]; decide)
  rw [hk] at hw
  revert hw
  decide

theorem Lawful.report_ne_nil (h : t.Lawful) (hs : t.kind = .skipped) : t.report ≠ [] := by
  obtain ⟨d, hd⟩ := Option.isSome_iff_exists.mp (h.reported hs)
  simp [report, hd]

end Token

namespace Sprout

/-- All kinds in a sprout, in preorder. -/
def kinds : Sprout → List Kind
  | token t => [t.kind]
  | missing _ => [.missing]
  | branch kind children => kind :: children.flatMap kinds

theorem kinds_branch (kind : Kind) (cs : List Sprout) :
    (branch kind cs).kinds = kind :: cs.flatMap kinds := by rw [kinds]

/-- Sprouts in which no error branch begins with something missing. -/
inductive Headed : Sprout → Prop where
  | token {t : Token} (present : t.kind ≠ .missing) : Headed (token t)
  | missing (o : Nat) : Headed (missing o)
  | branch {kind : Kind} {children : List Sprout}
    (first : kind = .error → ∀ o, children.head? ≠ some (missing o))
    (headed : ∀ c ∈ children, Headed c) : Headed (branch kind children)

variable {c : Sprout}

theorem Made.headed (h : c.Made) : c.Headed := by
  induction h with
  | token _ lawful => exact .token lawful.kind_ne_missing
  | missing o => exact .missing o
  | aside skipped lawful =>
    refine .branch (fun _ o => by simp) fun c hc => ?_
    obtain ⟨u, hu, rfl⟩ := List.mem_map.mp hc
    exact .token (lawful u hu).kind_ne_missing
  | branch _ recovered _ _ ih =>
    refine .branch (fun hk o => ?_) ih
    rcases recovered hk with ⟨t, rest, -, rfl⟩ | ⟨k, ds, o', rfl⟩ <;> simp

/-- Where nothing is reported, nothing is amiss. -/
theorem Made.sound (h : c.Made) (hr : c.reports = []) : ∀ k ∈ c.kinds, k.isAmiss = false := by
  induction h with
  | token recognized lawful =>
    intro k hk
    obtain rfl : k = _ := List.mem_singleton.mp (by rwa [kinds] at hk)
    exact lawful.isAmiss recognized
  | missing o =>
    rw [reports] at hr
    cases hr
  | @aside t ts skipped lawful =>
    -- unrecognized input carries reports of its own
    have ht := (lawful t (List.mem_cons_self ..)).report_ne_nil (skipped t (List.mem_cons_self ..))
    rw [List.map_cons, reports, List.append_eq_nil_iff, List.flatMap_cons, List.append_eq_nil_iff,
      reports] at hr
    exact absurd hr.2.1 ht
  | @branch kind cs isNode recovered first made ih =>
    rw [reports, List.append_eq_nil_iff, List.flatMap_eq_nil_iff] at hr
    obtain ⟨hheading, hcs⟩ := hr
    -- an error branch begins with a reported token, or something is missing in it
    have hkind : kind ≠ .error := by
      rintro rfl
      rcases recovered rfl with ⟨t, rest, ht, rfl⟩ | ⟨k, ds, o, rfl⟩
      · simp [heading, ht] at hheading
      · have ho := hcs (Sprout.missing o) (by simp)
        rw [reports] at ho
        cases ho
    rw [kinds_branch]
    refine List.forall_mem_cons.mpr ⟨Kind.isAmiss_eq_false.mpr ⟨hkind, ?_, ?_⟩, fun k hk => ?_⟩
    · rintro rfl
      cases isNode
    · rintro rfl
      cases isNode
    · obtain ⟨c, hc, hk⟩ := List.mem_flatMap.mp hk
      exact ih c hc (hcs c hc) k hk

end Sprout

namespace Element

/-- All kinds in an element, in preorder. -/
def kinds : Element → List Kind
  | leaf l => [l.kind]
  | branch b es => b.kind :: es.flatMap kinds

theorem kinds_leaf (l : Leaf) : (leaf l).kinds = [l.kind] := by rw [kinds]

theorem kinds_branch (b : Branch) (es : List Element) :
    (branch b es).kinds = b.kind :: es.flatMap kinds := by rw [kinds]

/-- A walk meets only kinds that are there. -/
theorem kind_visits (n : Node) (e : Element) : ∀ v ∈ e.visits n,
    (∀ m ∈ v.entered?, m.kind ∈ e.kinds) ∧ ∀ t ∈ v.tip?, t.kind ∈ e.kinds := by
  induction e using Element.induct generalizing n with
  | leaf l =>
    rw [visits_leaf, kinds_leaf]
    simp [Visit.entered?, Visit.tip?, Tip.kind]
  | branch b es ih =>
    rw [visits_branch, kinds_branch]
    intro v hv
    simp only [List.mem_append, List.mem_cons, List.mem_flatMap, List.not_mem_nil, or_false] at hv
    rcases hv with (rfl | ⟨e, he, hv⟩) | rfl
    · exact ⟨fun m hm => by cases hm; exact List.mem_cons_self .., by simp [Visit.tip?]⟩
    · obtain ⟨h₁, h₂⟩ := ih e he _ v hv
      exact ⟨fun m hm => List.mem_cons_of_mem _ (List.mem_flatMap.mpr ⟨e, he, h₁ m hm⟩),
        fun t ht => List.mem_cons_of_mem _ (List.mem_flatMap.mpr ⟨e, he, h₂ t ht⟩)⟩
    · simp [Visit.entered?, Visit.tip?]

end Element

namespace Node

variable {n : Node}

theorem kind_descendants {m : Node} (h : m ∈ n.descendants) :
    m.kind = n.kind ∨ m.kind ∈ n.children.flatMap Element.kinds := by
  obtain ⟨v, hv, hm⟩ := List.mem_filterMap.mp h
  rw [visits_eq] at hv
  simp only [List.mem_append, List.mem_cons, List.mem_flatMap, List.not_mem_nil, or_false] at hv
  rcases hv with (rfl | ⟨e, he, hv⟩) | rfl
  · cases hm
    exact .inl rfl
  · exact .inr (List.mem_flatMap.mpr ⟨e, he, (e.kind_visits n v hv).1 m hm⟩)
  · cases hm

theorem kind_tips {t : Tip} (h : t ∈ n.tips) : t.kind ∈ n.children.flatMap Element.kinds := by
  rw [tips_eq] at h
  obtain ⟨e, he, ht⟩ := List.mem_flatMap.mp h
  obtain ⟨v, hv, htip⟩ := List.mem_filterMap.mp ht
  exact List.mem_flatMap.mpr ⟨e, he, (e.kind_visits n v hv).2 t htip⟩

end Node

namespace Sprout.Shows

variable {offset : Nat} {text : List Char} {cs : List Sprout} {es : List Element}

theorem kinds_eq (h : Shows offset text cs es) :
    es.flatMap Element.kinds = cs.flatMap Sprout.kinds := by
  induction h with
  | nil => rfl
  | token _ _ _ ih => simp only [List.flatMap_cons, Element.kinds_leaf, Sprout.kinds, ih]
  | missing _ ih => simp only [List.flatMap_cons, Element.kinds_leaf, Sprout.kinds, ih]
  | branch _ _ ihi iht =>
    simp only [List.flatMap_cons, Element.kinds_branch, Sprout.kinds_branch, ihi, iht]

/-- Entering a node reports what its branch reports. -/
theorem heading_eq (h : Shows offset text cs es) {b : Branch} {above : List (Branch × List Element)}
    (first : b.kind = .error → ∀ o, cs.head? ≠ some (.missing o)) :
    Node.heading ⟨b, es, above⟩ = Sprout.heading b.kind cs := by
  unfold Node.heading
  by_cases he : b.kind = .error
  · simp only [Node.kind, he]
    cases h with
    | nil => rfl
    | token begins =>
      subst begins
      rfl
    | missing => exact absurd rfl (first he _)
    | branch => rfl
  · rw [Sprout.heading_of_ne_error he]
    split
    · next hk _ => exact absurd hk he
    · rfl

/-- A walk through elements finds what is reported of the sprouts that they show. -/
theorem reports_visits (h : Shows offset text cs es) (hc : ∀ c ∈ cs, c.Headed) (n : Node)
    (ts : List Token) (vs : List Visit) :
    Visit.reports (cs.flatMap Sprout.tokens ++ ts) (es.flatMap (Element.visits n) ++ vs) =
      cs.flatMap Sprout.reports ++ Visit.reports ts vs := by
  induction h generalizing n ts vs with
  | nil => rfl
  | @token offset t index lead text cs es begins wide tail ih =>
    obtain ⟨ht, hcs⟩ := List.forall_mem_cons.mp hc
    cases ht with
    | token present =>
      have hpresent : ¬t.kind = .missing := present
      simp only [List.flatMap_cons, Sprout.tokens, Element.visits_leaf, List.nil_append,
        List.cons_append, Visit.reports, Tip.isMissing, Leaf.isMissing, beq_iff_eq, hpresent,
        if_false, ih hcs, Sprout.reports, Token.report, List.append_assoc]
  | missing tail ih =>
    obtain ⟨-, hcs⟩ := List.forall_mem_cons.mp hc
    simp only [List.flatMap_cons, Sprout.tokens, Element.visits_leaf, List.nil_append,
      List.cons_append, Visit.reports, Tip.isMissing, Leaf.isMissing,
      beq_self_eq_true, if_true, ih hcs, Sprout.reports]
    rfl
  | @branch offset kind index ds fs front text cs es inner tail ihi iht =>
    obtain ⟨hd, hcs⟩ := List.forall_mem_cons.mp hc
    cases hd with
    | branch first headed =>
      have hheading : (n.child ⟨kind, index, .ofLength offset (Text.width front)⟩ fs).heading =
          Sprout.heading kind ds := inner.heading_eq first
      simp only [List.flatMap_cons, Sprout.tokens_branch, Element.visits_branch, List.append_assoc,
        List.cons_append, Visit.reports, hheading, ihi headed, List.nil_append, iht hcs,
        Sprout.reports]

/-- Unrecognized input is alone in the node that it is in. -/
theorem parent_isAside (h : Shows offset text cs es) (hc : ∀ c ∈ cs, c.Made) (n : Node) :
    ∀ t ∈ es.flatMap (Element.tips n), t.kind = .skipped → t.parent.IsAside := by
  induction h generalizing n with
  | nil => simp
  | token _ _ _ ih =>
    obtain ⟨ht, hcs⟩ := List.forall_mem_cons.mp hc
    cases ht with
    | token recognized =>
      rw [List.flatMap_cons, Element.tips_leaf]
      exact List.forall_mem_cons.mpr ⟨fun hk => absurd hk recognized, ih hcs n⟩
  | missing _ ih =>
    obtain ⟨-, hcs⟩ := List.forall_mem_cons.mp hc
    rw [List.flatMap_cons, Element.tips_leaf]
    exact List.forall_mem_cons.mpr ⟨(fun hk => by cases hk), ih hcs n⟩
  | @branch offset kind index ds fs front text cs es inner _ ihi iht =>
    obtain ⟨hd, hcs⟩ := List.forall_mem_cons.mp hc
    rw [List.flatMap_cons, Element.tips_branch]
    intro t ht hk
    rcases List.mem_append.mp ht with ht | ht
    · cases hd with
      | aside skipped =>
        have hleaves := inner.skipped_leaves skipped
        obtain ⟨e, he, hte⟩ := List.mem_flatMap.mp ht
        obtain ⟨l, rfl, -⟩ := hleaves e he
        rw [Element.tips_leaf] at hte
        rw [List.mem_singleton.mp hte]
        exact ⟨rfl, hleaves⟩
      | branch _ _ _ made => exact ihi made _ t ht hk
    · exact iht hcs n t ht hk

end Sprout.Shows

namespace ParsedAs

variable {dialect : Dialect} {text : List Char} {g : Stage} {last : Token} {p : Parse}

/-- The diagnostics are those of the sprouts under the root. -/
theorem reported (h : ParsedAs dialect text g last p) :
    p.diagnostics.map (fun d => (d.severity, d.range)) =
      (g.children ++ [Sprout.token last]).flatMap Sprout.reports := by
  obtain ⟨n, hm⟩ := h.makes
  have hr : g.Reported [] := Stage.reported_steady.program hm rfl
  rw [h.diagnostics, List.map_append, hr, List.nil_append, List.flatMap_append,
    List.flatMap_singleton, Sprout.reports]
  cases last.error <;> rfl

end ParsedAs

/-- Diagnostics and tree account for each other: a walk through the tree reports the diagnostics one
by one. Where there are none, the tree has no error node and no missing or unrecognized token, and
unrecognized input is always alone in an error node. -/
theorem diagnostics_accounted (dialect : Dialect) (text : List Char) : ∃ p,
    parse dialect text = .ok p ∧
    p.diagnostics.map (fun d => (d.severity, d.range)) =
      Visit.reports (tokenize dialect text) p.tree.root.visits ∧
    (p.diagnostics = [] → (∀ n ∈ p.tree.root.descendants, n.kind ≠ .error) ∧
      ∀ t ∈ p.tree.tips, t.kind ≠ .missing ∧ t.kind ≠ .skipped) ∧
    ∀ t ∈ p.tree.tips, t.kind = .skipped → t.parent.kind = .error ∧
      ∀ e ∈ t.parent.children, ∃ l, e = .leaf l ∧ l.kind = .skipped := by
  obtain ⟨s, p, g, last, -, -, hp, h⟩ := exists_parse dialect text
  have hreported := h.reported
  refine ⟨p, hp, ?_, fun hnone => ?_, fun t ht => ?_⟩
  · have hwalk := h.shows.reports_visits (fun c hc => (h.made c hc).headed) p.tree.root []
      [.leave p.tree.root]
    have hroot : p.tree.root.heading = [] := by
      rw [Node.heading, h.kind]
    rw [h.tokens_shown, List.append_nil] at hwalk
    rw [Node.visits_eq, List.cons_append, Visit.reports, hroot, List.nil_append, hreported]
    exact (hwalk.trans (List.append_nil _)).symm
  · rw [hnone, List.map_nil, eq_comm, List.flatMap_eq_nil_iff] at hreported
    have hsound : ∀ k ∈ p.tree.children.flatMap Element.kinds, k.isAmiss = false := by
      rw [h.shows.kinds_eq]
      intro k hk
      obtain ⟨c, hc, hk⟩ := List.mem_flatMap.mp hk
      exact (h.made c hc).sound (hreported c hc) k hk
    refine ⟨fun n hn => ?_, fun t ht => ?_⟩
    · rcases Node.kind_descendants hn with hk | hk
      · rw [hk, h.kind]
        decide
      · exact (Kind.isAmiss_eq_false.mp (hsound _ hk)).1
    · exact (Kind.isAmiss_eq_false.mp (hsound _ (Node.kind_tips ht))).2
  · rw [Tree.tips, Node.tips_eq] at ht
    exact h.shows.parent_isAside h.made p.tree.root t ht

end PhpSyntax
