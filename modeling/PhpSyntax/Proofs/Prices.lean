import PhpSyntax.Proofs.Charges
import PhpSyntax.Proofs.Leaves
import PhpSyntax.Proofs.Outlook

/-!
What the rules of the grammar owe. Every rule has a price, which a caller may rely on, and what its
actions are charged shows that it keeps to it. So a whole parse owes nothing: the tree of a text is
at most a fixed number of times as large as the text has tokens, whatever is missing in it.
-/
namespace PhpSyntax

open Charge

theorem KindSet.diff_empty (s : KindSet) : s.diff .empty = s := by
  simp [diff, empty]

/-- How many events a token pays for. -/
def eventsPerToken : Nat := 15

namespace Rule

/-- What is due after a rule that begins at one of its first tokens. Where it is less than nothing,
tokens pay for what callers may record around the rule. -/
def price : Rule → Int
  | statement | member => 0
  | _ => -8

/-- What is due after a rule that begins at another token, if it may. -/
def elsewhere : Rule → Option Int
  | expression _ | operators _ | postfixes => some 0
  | useClause => some 3
  | _ => none

/-- What is due after a call of a rule. -/
def bill (r : Rule) (kinds : KindSet) : Option (List Charge) :=
  let here : List Charge :=
    if (kinds.inter r.first).isEmpty then [] else [⟨.recognized, r.price⟩]
  if (kinds.diff r.first).isEmpty then some here
  else r.elsewhere.map fun due => here ++ [⟨.recognized, due⟩]

/-- After an action no more is due than is told. -/
def keepsTo (a : Grammar.Action) (kinds : KindSet) (due : Int) : Bool :=
  match a.charges bill eventsPerToken kinds with
  | some cs => cs.all (·.le ⟨.recognized, due⟩)
  | none => false

/-! ## Certificates

The power of an expression decides only which operators are taken, so what is due at power zero,
which takes them all, is due at every power.
-/

theorem keepsTo_price : ([statement, expression 0, variableExpr, useClause, type, member].all
    fun r => keepsTo (Grammar.php r) r.first r.price) = true := by
  decide +kernel

theorem keepsTo_elsewhere : ([expression 0, postfixes, useClause].all fun r =>
    match r.elsewhere with
    | some due => keepsTo (Grammar.php r) (KindSet.recognized.diff r.first) due
    | none => false) = true := by
  decide +kernel

theorem operatorStep_keepsTo_zero :
    (KindSet.recognized.members.all fun k => match Grammar.binding? k with
      | none => true
      | some b => keepsTo (operatorStep k b.right 0) (.single k) 0) = true := by
  decide +kernel

theorem charges_append (calls : Rule → KindSet → Option (List Charge)) (rate : Int)
    (a b : Grammar.Action) (kinds : KindSet) : (a ++ b).charges calls rate kinds =
      (a.charges calls rate kinds).bind
        (each fun c => (b.charges calls rate c.kinds).map (·.map (plus c.due))) := rfl

/-- Which operators are called makes no difference to what is due. -/
theorem charges_call_operators (power : Nat) :
    (Act.call (operators power)).charges bill eventsPerToken =
      (Act.call (operators 0)).charges bill eventsPerToken := by
  funext kinds
  rfl

theorem charges_climb (power : Nat) (kinds : KindSet) :
    (Grammar.climb power).charges bill eventsPerToken kinds =
      (Grammar.climb 0).charges bill eventsPerToken kinds := by
  have hw : (Act.when .found (.call (operators power))).charges bill eventsPerToken =
      (Act.when .found (.call (operators 0))).charges bill eventsPerToken := by
    funext kinds
    rw [Act.when, Act.when, Act.charges, charges_call_operators, ← Act.charges]
  rw [Grammar.climb, Grammar.climb, charges_append, charges_append, hw]

theorem charges_operatorStep (k : Kind) (right power : Nat) (kinds : KindSet) :
    (operatorStep k right power).charges bill eventsPerToken kinds =
      (operatorStep k right 0).charges bill eventsPerToken kinds := by
  rw [operatorStep, operatorStep, charges_append, charges_append, charges_call_operators]

/-! ## Rules -/

/-- An action is charged at most what is told. -/
def Keeps (a : Grammar.Action) (kinds : KindSet) (due : Int) : Prop :=
  ∃ cs, a.charges bill eventsPerToken kinds = some cs ∧ ∀ c ∈ cs, Within c ⟨.recognized, due⟩

theorem keeps_of_keepsTo {a : Grammar.Action} {kinds : KindSet} {due : Int}
    (h : keepsTo a kinds due = true) : Keeps a kinds due := by
  unfold keepsTo at h
  split at h
  · next cs hcs => exact ⟨cs, hcs, fun c hc => within_of_le (List.all_eq_true.mp h c hc)⟩
  · cases h

theorem operators_keeps_price (power : Nat) : Keeps (Grammar.operators power) .recognized 0 := by
  refine exists_each fun k hk => ?_
  have hdone : Keeps .done (.single k) 0 := by
    refine ⟨_, rfl, List.forall_mem_singleton.mpr ⟨fun j hj => ?_, Int.le_refl 0⟩⟩
    obtain rfl : j = k := by simpa [free] using hj
    exact KindSet.contains_of_mem_members hk
  have hstep := List.all_eq_true.mp operatorStep_keepsTo_zero k hk
  dsimp only
  cases hb : Grammar.binding? k with
  | none => exact hdone
  | some b =>
    rw [hb] at hstep
    by_cases hl : b.left < power
    · simp only [if_pos hl]
      exact hdone
    · simp only [if_neg hl]
      obtain ⟨cs, hcs, hw⟩ := keeps_of_keepsTo hstep
      exact ⟨cs, (charges_operatorStep k b.right power _).trans hcs, hw⟩

/-- At its first tokens a rule keeps to its price. -/
theorem keeps_price (r : Rule) {k : Kind} (hk : r.first.contains k = true) :
    Keeps (Grammar.php r) r.first r.price := by
  have hall (q : Rule) (hq : q ∈ [statement, expression 0, variableExpr, useClause, type, member]) :
      Keeps (Grammar.php q) q.first q.price :=
    keeps_of_keepsTo (List.all_eq_true.mp keepsTo_price q hq)
  cases r with
  | expression power =>
    obtain ⟨cs, hcs, hw⟩ := hall (expression 0) (by simp)
    exact ⟨cs, (charges_climb power _).trans hcs, hw⟩
  | operators power | postfixes => simp [first] at hk
  | statement => exact hall statement (by simp)
  | variableExpr => exact hall variableExpr (by simp)
  | useClause => exact hall useClause (by simp)
  | type => exact hall type (by simp)
  | member => exact hall member (by simp)

/-- At other tokens, where it may begin there, a rule owes what it tells. -/
theorem keeps_elsewhere (r : Rule) {due : Int} (h : r.elsewhere = some due) :
    Keeps (Grammar.php r) (KindSet.recognized.diff r.first) due := by
  have hall (q : Rule) (hq : q ∈ [expression 0, postfixes, useClause])
      (hsome : q.elsewhere = some due) :
      Keeps (Grammar.php q) (KindSet.recognized.diff q.first) due := by
    have hkeeps := List.all_eq_true.mp keepsTo_elsewhere q hq
    rw [hsome] at hkeeps
    exact keeps_of_keepsTo hkeeps
  cases r with
  | expression power =>
    obtain ⟨cs, hcs, hw⟩ := hall (expression 0) (by simp) h
    exact ⟨cs, (charges_climb power _).trans hcs, hw⟩
  | operators power =>
    obtain rfl := Option.some.inj h
    rw [first, KindSet.diff_empty]
    exact operators_keeps_price power
  | postfixes => exact hall postfixes (by simp) h
  | useClause => exact hall useClause (by simp) h
  | statement | variableExpr | type | member => cases h

/-- The bill of a rule covers what its actions owe. -/
theorem bill_honest : Honest Grammar.php bill eventsPerToken := by
  intro r kinds cs k hbill hk hskip
  unfold bill at hbill
  by_cases hf : r.first.contains k = true
  · have hinter : (kinds.inter r.first).contains k = true := by simp [hk, hf]
    simp only [KindSet.not_isEmpty hinter, if_neg Bool.false_ne_true] at hbill
    have hmem : ⟨.recognized, r.price⟩ ∈ cs := by
      split at hbill
      · obtain rfl := Option.some.inj hbill
        exact List.mem_singleton_self _
      · obtain ⟨due, -, rfl⟩ := Option.map_eq_some_iff.mp hbill
        exact List.mem_append_left _ (List.mem_singleton_self _)
    obtain ⟨ds, hds, hw⟩ := r.keeps_price hf
    exact ⟨r.first, ds, hf, hds, fun d hd => ⟨_, hmem, hw d hd⟩⟩
  · have hdiff : (kinds.diff r.first).contains k = true := by simp [hk, hf]
    simp only [KindSet.not_isEmpty hdiff, if_neg Bool.false_ne_true] at hbill
    obtain ⟨due, hdue, rfl⟩ := Option.map_eq_some_iff.mp hbill
    obtain ⟨ds, hds, hw⟩ := r.keeps_elsewhere hdue
    refine ⟨_, ds, by simp [hskip, hf], hds, fun d hd => ⟨_, ?_, hw d hd⟩⟩
    exact List.mem_append_right _ (List.mem_singleton_self _)

theorem program_keepsTo : keepsTo Grammar.program .recognized 0 = true := by
  decide +kernel

end Rule

/-- What the program records is paid for by the tokens that it takes. -/
theorem Makes.program_extent_le {tokens : List Token} {n : Nat} {g : Stage}
    (hm : Makes Grammar.php Grammar.program (Stage.start tokens) n g)
    (hfirst : Token.firstKind tokens ≠ .skipped) :
    Sprout.extent g.children + eventsPerToken * g.tokens.length ≤
      eventsPerToken * tokens.length := by
  obtain ⟨cs, hcs, hw⟩ := Rule.keeps_of_keepsTo Rule.program_keepsTo
  have hk : KindSet.recognized.contains (Stage.start tokens).kind = true := by
    simpa [Stage.start, Stage.kind] using hfirst
  obtain ⟨c, hmem, -, hdue⟩ := hm.paid (by decide) Rule.bill_honest hfirst hk hcs
  have hfree := (hw c hmem).due
  simp only [Stage.weight, Stage.start, Sprout.extent_nil] at hdue
  push_cast at hdue
  dsimp only at hfree
  omega

namespace Sprout.Shows

variable {offset : Nat} {text : List Char} {cs : List Sprout} {es : List Element}

/-- Two events stand for a branch, and one for a leaf. -/
theorem extent_eq (h : Shows offset text cs es) (n : Node) :
    extent cs = 2 * (es.flatMap (Element.nodes n)).length + (es.flatMap Element.leaves).length := by
  induction h generalizing n with
  | nil => rfl
  | token _ _ _ ih | missing _ ih =>
    rw [List.flatMap_cons, List.flatMap_cons, Element.nodes_leaf, Element.leaves_leaf]
    simp [ih n]
    omega
  | @branch offset kind index ds fs front text cs es _ _ ihi iht =>
    have hinner := ihi (n.child ⟨kind, index, .ofLength offset (Text.width front)⟩ fs)
    rw [List.flatMap_cons, List.flatMap_cons, Element.nodes_branch, Element.leaves_branch,
      extent_branch, hinner, iht n]
    simp only [List.length_append, List.length_cons]
    omega

/-- The leaves are the tokens and those that are missing. -/
theorem length_leaves (h : Shows offset text cs es)
    (hk : ∀ t ∈ cs.flatMap Sprout.tokens, t.kind ≠ .missing) :
    (es.flatMap Element.leaves).length = (cs.flatMap Sprout.tokens).length +
      ((es.flatMap Element.leaves).filter (·.isMissing)).length := by
  have htokens := congrArg List.length (h.aspect_leaves hk)
  rw [List.length_map, List.length_map] at htokens
  rw [← htokens, Nat.add_comm]
  exact List.length_eq_length_filter_add _

end Sprout.Shows

namespace ParsedAs

variable {dialect : Dialect} {text : List Char} {g : Stage} {last : Token} {p : Parse}

/-- What a whole parse records: its root, the end of file, and what the other tokens pay for. -/
theorem extent_le (h : ParsedAs dialect text g last p) :
    Sprout.extent (g.children ++ [.token last]) + eventsPerToken ≤
      eventsPerToken * (tokenize dialect text).length + 1 := by
  obtain ⟨n, hm⟩ := h.makes
  have hle := hm.program_extent_le (firstKind_tokenize dialect text)
  rw [ParsedAs.tokens_left hm h, List.length_singleton] at hle
  rw [Sprout.extent_append, Sprout.extent_token, Sprout.extent_nil]
  omega

theorem extent_eq (h : ParsedAs dialect text g last p) :
    Sprout.extent (g.children ++ [.token last]) + 2 = 2 * p.tree.root.descendants.length +
      (tokenize dialect text).length + (p.tree.tips.filter (·.isMissing)).length := by
  have hmissing : ((p.tree.children.flatMap Element.leaves).filter (·.isMissing)).length =
      (p.tree.tips.filter (·.isMissing)).length := by
    rw [← p.tree.map_leaf_tips, List.filter_map, List.length_map]
    rfl
  have hleaves := h.shows.length_leaves h.kind_ne_missing
  rw [h.tokens_shown, hmissing] at hleaves
  have hnodes : p.tree.root.descendants.length =
      (p.tree.children.flatMap (Element.nodes p.tree.root)).length + 1 :=
    congrArg List.length p.tree.root.descendants_eq
  have hextent := h.shows.extent_eq p.tree.root
  omega

end ParsedAs

/-- However much is missing in a text and however deep it is nested, its tree is no larger than a
fixed multiple of its tokens: every text has a parse, and its nodes and the tokens missing in it are
at most fourteen times as many as the tokens of the text. -/
theorem parse_proportional (dialect : Dialect) (text : List Char) :
    ∃ p, parse dialect text = .ok p ∧
      p.tree.root.descendants.length + (p.tree.tips.filter (·.isMissing)).length ≤
        14 * (tokenize dialect text).length := by
  obtain ⟨_, p, _, _, -, -, hp, h⟩ := exists_parse dialect text
  have hle := h.extent_le
  have heq := h.extent_eq
  rw [eventsPerToken] at hle
  exact ⟨p, hp, by omega⟩

end PhpSyntax
