import PhpSyntax.Proofs.Framing
import PhpSyntax.Proofs.Operand

/-!
Every tree keeps precedence. The rules of expressions make operands that are tight, all other rules
put what they are given into closed nodes; both by induction on the steps that a rule takes.
-/
namespace PhpSyntax

open Grammar (Action php expressionAt)

/-- Whether a rule looks for something that is whole, rather than going on with an operand. -/
def Rule.isWhole : Rule → Bool
  | operators _ | postfixes => false
  | _ => true

namespace Act

/-- An action that makes closed nodes only and goes on with no operand. -/
def isPlain : Action → Bool
  | done | require _ | bump | missing _ | recover _ _ | decline => true
  | andThen a b | branch _ a b => a.isPlain && b.isPlain
  | node kind body | nodeIfAny kind body | wrap kind body => !kind.isOpen && body.isPlain
  | repeatWhile _ body => body.isPlain
  | byKind choose => Kind.all.all fun k => (choose k).isPlain
  | call rule => rule.isWhole

/-- Whether the first thing an action does is to take a token. -/
def takesFirst : Action → Bool
  | bump => true
  | andThen a _ => a.takesFirst
  | _ => false

/-- Whether an open node of this kind is made of what the action does and an operand of this power,
where the current token is of kind `k`. -/
def fits (lead : Action) (kind k : Kind) (power : Nat) : Bool :=
  lead.isPlain && match kind with
  | .prefixExpr => lead.takesFirst && k != .eof && power == if k = .bang then 35 else 39
  | .castExpr | .cloneExpr => power == 39
  | .printExpr | .includeExpr | .arrowFnExpr => power == 7
  | _ => false

/-- An operand that binds at least as tightly as `power`, which is missing if there is none. -/
def operandAt (power : Nat) (what : String) : Action :=
  call (.expression power) ++ branch .found done (missing what)

/-- Whether an open node of this kind is made of an action, where the current token is of kind
`k`. -/
def fillsOpen (kind k : Kind) : Action → Bool
  | andThen lead (andThen (call (.expression power)) (branch .found done (missing _))) =>
    lead.fits kind k power
  | _ => false

/-- Whether an action goes on with an operand, if there is one. -/
def isContinued : Action → Bool
  | branch .found (call .postfixes) done => true
  | _ => false

/-- Whether an action makes an operand or declines, where the current token is of kind `k`. -/
def isOperand (k : Kind) : Action → Bool
  | decline | call .variableExpr => true
  | branch _ a b => a.isOperand k && b.isOperand k
  | byKind choose => (choose k).isOperand k
  | andThen a b => a.isOperand k && b.isContinued
  | node kind body => Kind.operands.contains kind &&
    if kind.isOpen then body.fillsOpen kind k else body.isPlain
  | _ => false

/-- Whether an action puts an operand into closed nodes, one around the other. -/
def isPostfix : Action → Bool
  | done => true
  | repeatWhile _ body => body.isPostfix
  | byKind choose => Kind.all.all fun k => (choose k).isPostfix
  | wrap kind body => Kind.operands.contains kind && !kind.isOpen && body.isPlain
  | _ => false

end Act

namespace Stage

/-- Nothing was found, and nothing was recorded. -/
def Declines (g g' : Stage) : Prop := g'.found = .nothing ∧ g'.children = g.children

end Stage

/-- What a rule makes of sound stages. -/
def Rule.Meets (rule : Rule) (g g' : Stage) : Prop :=
  match rule with
  | .expression power => g.Sound →
    g.Declines g' ∨ g'.AtOperand g.children power ∧ Outline.Stops power g'.kind
  | .operators power => ∀ before, (∀ c ∈ before, c.bare.Sound) → g.AtOperand before power →
    g'.AtOperand before power ∧ Outline.Stops power g'.kind
  | .postfixes => ∀ before, (∀ c ∈ before, c.bare.Sound) → (∀ power, g.AtOperand before power) →
    ∀ power, g'.AtOperand before power
  | .variableExpr => g.Sound → ∀ power, g'.AtOperand g.children power
  | _ => g.Sound → g'.Sound

/-- All rules meet their specifications in less than `n` steps. -/
def MeetBelow (n : Nat) : Prop :=
  ∀ m < n, ∀ (rule : Rule) (g g' : Stage), Makes php (php rule) g m g' → rule.Meets g g'

variable {a : Action} {g g' : Stage} {n m power : Nat} {before : List Sprout}

theorem MeetBelow.mono (h : MeetBelow n) (hm : m ≤ n) : MeetBelow m :=
  fun i hi => h i (Nat.lt_of_lt_of_le hi hm)

theorem Rule.Meets.sound {rule : Rule} (h : rule.Meets g g') (hr : rule.isWhole = true)
    (hg : g.Sound) : g'.Sound := by
  cases rule with
  | operators | postfixes => cases hr
  | expression power =>
    rcases h hg with ⟨-, hc⟩ | ⟨hat, -⟩
    · rwa [Stage.Sound, hc]
    · exact hat.sound hg
  | variableExpr => exact (h hg 0).sound hg
  | statement | useClause | type | member => exact h hg

/-- Plain actions keep stages sound. -/
theorem Makes.sound_plain (h : Makes php a g n g') (ha : a.isPlain = true) (hn : MeetBelow n)
    (hg : g.Sound) : g'.Sound := by
  induction h with
  | done | require | decline | stop => exact hg
  | bump => exact hg.take
  | missing => exact hg.miss _
  | andThen _ _ ih₁ ih₂ =>
    obtain ⟨ha₁, ha₂⟩ := Bool.and_eq_true_iff.mp ha
    exact ih₂ ha₂ (hn.mono (by omega)) (ih₁ ha₁ (hn.mono (by omega)) hg)
  | again _ _ _ ih₁ ih₂ =>
    exact ih₂ ha (hn.mono (by omega)) (ih₁ ha (hn.mono (by omega)) hg)
  | @recover problem stop g n g' hk loop ih =>
    refine hg.leave (ih rfl (hn.mono (by omega)) (Stage.Sound.take ?_)) rfl
    rw [Stage.Sound, Stage.report_children]
    exact List.forall_mem_nil _
  | @node kind body g n g' inner ih =>
    simp only [Act.isPlain, Bool.and_eq_true, Bool.not_eq_true'] at ha
    exact hg.leave (ih ha.2 (hn.mono (by omega)) (List.forall_mem_nil _)) ha.1
  | @nodeIfAny kind body g n g' inner hc ih =>
    simp only [Act.isPlain, Bool.and_eq_true, Bool.not_eq_true'] at ha
    exact hg.leave (ih ha.2 (hn.mono (by omega)) (List.forall_mem_nil _)) ha.1
  | nodeIfNone => exact hg
  | @wrap kind body g n g' before k cs hf hl inner ih =>
    simp only [Act.isPlain, Bool.and_eq_true, Bool.not_eq_true'] at ha
    rw [Stage.Sound, hl] at hg
    have hbefore : Stage.Sound { g with children := before } := fun c hc =>
      hg c (List.mem_append_left _ hc)
    refine hbefore.leave (ih ha.2 (hn.mono (by omega)) fun c hc => ?_) ha.1
    exact hg c (List.mem_append_right _ hc)
  | branch _ ih =>
    obtain ⟨ha₁, ha₂⟩ := Bool.and_eq_true_iff.mp ha
    refine ih ?_ (hn.mono (by omega)) hg
    split <;> assumption
  | byKind _ ih =>
    exact ih (List.all_eq_true.mp ha _ (Kind.mem_all _)) (hn.mono (by omega)) hg
  | call h _ => exact (hn _ (by omega) _ _ _ h).sound ha hg

/-- The first token taken is the current one. -/
theorem Makes.takes_first (h : Makes php a g n g') (ha : a.takesFirst = true) (hk : g.kind ≠ .eof) :
    ∃ t own, t.kind = g.kind ∧ g'.Over (g.children ++ [.token t]) own := by
  induction h with
  | @bump g =>
    rcases g.take_cases with he | ⟨t, rest, ht, -, he⟩
    · obtain ⟨t, rest, ht⟩ := Stage.exists_token hk
      obtain ⟨junk, hj⟩ := Stage.take_children ht (by rwa [Stage.kind, ht] at hk)
      rw [he] at hj
      simp at hj
    · refine ⟨t, Sprout.aside (rest.takeWhile Token.isSkipped), ?_, ?_⟩
      · rw [Stage.kind, ht, Token.firstKind]
      · rw [he]
        exact ⟨List.append_cons .., fun hf => absurd hf (Found.bury_ne_last _)⟩
  | andThen _ second ih =>
    obtain ⟨t, own, ht, ho⟩ := ih ha hk
    obtain ⟨own', ho', -⟩ := second.framed ho
    exact ⟨t, own', ht, ho'⟩
  | _ => cases ha

/-- An operand that is called for is there or missing. -/
theorem Makes.fills {r : Nat} {what : String} (h : Makes php (.operandAt r what) g n g') (hn : MeetBelow n)
    (hg : g.Sound) : ∃ c, g'.children = g.children ++ [c] ∧ c.bare.Fills r g'.kind := by
  cases h with
  | andThen first second =>
    cases first with
    | call first =>
      cases second with
      | branch second =>
        rcases hn _ (by omega) _ _ _ first hg with ⟨hf, hc⟩ | ⟨⟨hf, kind, cs, hc, ht⟩, hs⟩
        · rw [if_neg (by simp [Stage.holds, Test.holds, hf, Found.any])] at second
          cases second
          refine ⟨_, congrArg (· ++ _) hc, .inl ?_⟩
          rw [Sprout.bare]
        · rw [if_pos (by simp [Stage.holds, Test.holds, hf, Found.any])] at second
          cases second
          exact ⟨_, hc, .inr ⟨ht, hs⟩⟩

theorem Outline.rightPower_of_fits {kind k : Kind} {lead : Action} {os : List Outline}
    (h : lead.fits kind k power = true)
    (hos : lead.takesFirst = true → k ≠ .eof → ∃ rest, os = .leaf k :: rest) :
    (branch kind os).rightPower? = some power := by
  simp only [Act.fits, Bool.and_eq_true] at h
  obtain ⟨-, h⟩ := h
  split at h
  · simp only [Bool.and_eq_true, bne_iff_ne, beq_iff_eq] at h
    obtain ⟨⟨hfirst, hk⟩, rfl⟩ := h
    obtain ⟨rest, rfl⟩ := hos hfirst hk
    simp [rightPower?, Outline.kind, Outline.children]
  · rw [beq_iff_eq.mp h]
    rfl
  · rw [beq_iff_eq.mp h]
    rfl
  · rw [beq_iff_eq.mp h]
    rfl
  · rw [beq_iff_eq.mp h]
    rfl
  · rw [beq_iff_eq.mp h]
    rfl
  · cases h

theorem Act.isOperation_of_fits {kind k : Kind} {lead : Action}
    (h : lead.fits kind k power = true) : kind.isOperation = false := by
  simp only [fits, Bool.and_eq_true] at h
  obtain ⟨-, h⟩ := h
  split at h
  all_goals first | rfl | cases h

/-- A node that begins with no operand and ends with one is tight. -/
theorem Makes.tight_last {lead : Action} {r : Nat} {what : String} {kind : Kind}
    (h : Makes php (lead ++ .operandAt r what) g.enter n g') (ha : lead.fits kind g.kind r = true)
    (hk : Kind.operands.contains kind = true) (hn : MeetBelow n) (power : Nat) :
    (g.leave kind g').AtOperand g.children power := by
  have hplain : lead.isPlain = true := (Bool.and_eq_true_iff.mp ha).1
  have hkind : kind.isOperation = false := Act.isOperation_of_fits ha
  cases h with
  | @andThen _ _ _ m g₁ _ _ first second =>
    have hg₁ : g₁.Sound := first.sound_plain hplain (hn.mono (by omega)) (List.forall_mem_nil _)
    obtain ⟨c, hc, hfills⟩ := second.fills (hn.mono (by omega)) hg₁
    have hos : g'.children.map Sprout.bare = g₁.children.map Sprout.bare ++ [c.bare] := by
      rw [hc, List.map_append, List.map_singleton]
    refine ⟨rfl, kind, g'.children, rfl, ?_⟩
    rw [Sprout.bare_branch, hos]
    refine Outline.tight_open hk ?_ List.getLast?_concat ?_ hfills ?_ ?_
    · intro o ho
      rcases List.mem_append.mp ho with ho | ho
      · exact hg₁.map_bare o ho
      · rw [List.mem_singleton.mp ho]
        exact hfills.sound
    · refine Outline.rightPower_of_fits ha fun hfirst hne => ?_
      obtain ⟨t, own, ht, ho⟩ := first.takes_first hfirst hne
      have hchildren : g₁.children = .token t :: own := ho.children
      rw [hchildren, List.map_cons, Sprout.bare, ht]
      exact ⟨_, rfl⟩
    · rw [hkind]
      exact Bool.noConfusion
    · intro b hb
      rw [Outline.binding?, if_neg (by rw [Outline.kind, hkind]; decide)] at hb
      cases hb

/-- Going on with an operand, if there is one. -/
theorem Makes.continued {g₁ : Stage} (h : Makes php a g₁ n g') (ha : a.isContinued = true)
    (hn : MeetBelow n) (hg : g.Sound)
    (hg₁ : g.Declines g₁ ∨ ∀ power, g₁.AtOperand g.children power) :
    g.Declines g' ∨ ∀ power, g'.AtOperand g.children power := by
  unfold Act.isContinued at ha
  split at ha
  · cases h with
    | branch h =>
      rcases hg₁ with ⟨hf, hc⟩ | hat
      · rw [if_neg (by simp [Stage.holds, Test.holds, hf, Found.any])] at h
        cases h
        exact .inl ⟨hf, hc⟩
      · rw [if_pos (by simp [Stage.holds, Test.holds, (hat 0).1, Found.any])] at h
        cases h with
        | call h => exact .inr (hn _ (by omega) _ _ _ h _ hg hat)
  · cases ha

/-- An action that looks for an operand makes one that is tight in any place, or declines. -/
theorem Makes.operand (h : Makes php a g n g') (ha : a.isOperand g.kind = true) (hn : MeetBelow n)
    (hg : g.Sound) : g.Declines g' ∨ ∀ power, g'.AtOperand g.children power := by
  induction h with
  | decline => exact .inl ⟨rfl, rfl⟩
  | branch _ ih =>
    obtain ⟨ha₁, ha₂⟩ := Bool.and_eq_true_iff.mp ha
    refine ih ?_ (hn.mono (by omega)) hg
    split <;> assumption
  | byKind _ ih => exact ih ha (hn.mono (by omega)) hg
  | @call rule g n g' h _ =>
    cases rule with
    | variableExpr => exact .inr (hn _ (by omega) _ _ _ h hg)
    | _ => cases ha
  | @andThen a b g m g₁ n g₂ first second ih =>
    obtain ⟨ha₁, ha₂⟩ := Bool.and_eq_true_iff.mp ha
    exact second.continued ha₂ (hn.mono (by omega)) hg (ih ha₁ (hn.mono (by omega)) hg)
  | @node kind body g n g' inner ih =>
    simp only [Act.isOperand, Bool.and_eq_true] at ha
    obtain ⟨hk, ha⟩ := ha
    split at ha
    · unfold Act.fillsOpen at ha
      split at ha
      · exact .inr (inner.tight_last ha hk (hn.mono (Nat.le_add_right n 2)))
      · cases ha
    · next ho =>
      have hsound := inner.sound_plain ha (hn.mono (Nat.le_add_right n 2)) nofun
      exact .inr (Stage.atOperand_leave hsound hk (Bool.eq_false_iff.mpr ho))
  | _ => cases ha

/-- An operand that is put into a closed node is one. -/
theorem Makes.goesOn (h : Makes php a g n g') (ha : a.isPostfix = true) (hn : MeetBelow n)
    (hb : ∀ c ∈ before, c.bare.Sound) (hg : ∀ power, g.AtOperand before power) :
    ∀ power, g'.AtOperand before power := by
  induction h with
  | done | stop => exact hg
  | byKind _ ih =>
    exact ih (List.all_eq_true.mp ha _ (Kind.mem_all _)) (hn.mono (by omega)) hg
  | again _ _ _ ih₁ ih₂ =>
    exact ih₂ ha (hn.mono (by omega)) (ih₁ ha (hn.mono (by omega)) hg)
  | @wrap kind body g n g' front k cs hf hl inner ih =>
    simp only [Act.isPostfix, Bool.and_eq_true, Bool.not_eq_true'] at ha
    obtain ⟨⟨hk, ho⟩, hbody⟩ := ha
    obtain ⟨-, k', cs', hc, ht⟩ := hg 0
    obtain ⟨rfl, he⟩ := List.append_inj' (hl.symm.trans hc) rfl
    have hinside : ∀ c ∈ [Sprout.branch k cs], c.bare.Sound := by
      rw [he]
      exact List.forall_mem_singleton.mpr ht.sound
    have hsound := inner.sound_plain hbody (hn.mono (Nat.le_add_right n 2)) hinside
    exact Stage.atOperand_leave (g := { g with children := front }) hsound hk ho
  | _ => cases ha

namespace Grammar

/-- An operator and what stands between it and its right operand. -/
def operator (k : Kind) : Action :=
  match k with
  | .question => .bump ++ .whenNot (.kind .colon) expression ++ .expect .colon
  | .eq => .bump ++ .optional .amp
  | _ => .bump

theorem operation_eq (k : Kind) (power : Nat) :
    operation k power = operator k ++ expressionAt power := by
  unfold operation operator
  split <;> simp_all

theorem operator_isPlain (k : Kind) : (operator k).isPlain = true := by
  unfold operator
  split <;> rfl

theorem operator_takesFirst (k : Kind) : (operator k).takesFirst = true := by
  unfold operator
  split <;> rfl

theorem isOperation_operatorNode (k : Kind) : (operatorNode k).isOperation = true := by
  unfold operatorNode
  split
  · rfl
  · split <;> rfl

theorem operands_operatorNode (k : Kind) : Kind.operands.contains (operatorNode k) = true := by
  unfold operatorNode
  split
  · decide
  · split <;> decide

end Grammar

namespace Outline

variable {kind op : Kind} {left : Outline} {rest : List Outline}

theorem binding_operation (h : kind.isOperation = true) :
    (branch kind (left :: leaf op :: rest)).binding? = Grammar.binding? op := if_pos h

theorem rightPower_operation (h : kind.isOperation = true) :
    (branch kind (left :: leaf op :: rest)).rightPower? =
      (Grammar.binding? op).map (·.right) := by
  have hb : (branch kind (left :: leaf op :: rest)).binding? = Grammar.binding? op :=
    binding_operation h
  rw [← hb]
  unfold rightPower?
  split <;> simp_all [Outline.kind, Kind.isOperation]

end Outline

/-- An operator between a tight operand and what fills the place behind it. -/
theorem Makes.operation (before : List Sprout) {k : Kind} {cs : List Sprout} {b : Grammar.Binding}
    (hb : Grammar.binding? g.kind = some b) (hp : power ≤ b.left)
    (ht : (Sprout.branch k cs).bare.Tight power g.kind)
    (h : Makes php (Grammar.operation g.kind b.right)
      { g with children := [.branch k cs], found := .earlier } n g')
    (hn : MeetBelow n) :
    ({ g with children := before }.leave (Grammar.operatorNode g.kind) g').AtOperand before
      power := by
  have hkind := Grammar.isOperation_operatorNode g.kind
  have hne : g.kind ≠ .eof := by
    intro he
    rw [he] at hb
    cases hb
  rw [Grammar.operation_eq] at h
  cases h with
  | @andThen _ _ _ m g₁ _ _ first second =>
    have hg₁ : g₁.Sound := first.sound_plain (Grammar.operator_isPlain _) (hn.mono (by omega))
      (List.forall_mem_singleton.mpr ht.sound)
    obtain ⟨t, own, htk, ho⟩ := first.takes_first (Grammar.operator_takesFirst _) hne
    obtain ⟨c, hc, hfills⟩ := second.fills (hn.mono (by omega)) hg₁
    have hos : g'.children.map Sprout.bare = (Sprout.branch k cs).bare :: .leaf g.kind ::
        (own.map Sprout.bare ++ [c.bare]) := by
      have htk' : t.kind = g.kind := htk
      rw [hc, ho.children]
      simp [Sprout.bare, htk']
    refine ⟨rfl, Grammar.operatorNode g.kind, g'.children, rfl, ?_⟩
    rw [Sprout.bare_branch]
    refine Outline.tight_open (Grammar.operands_operatorNode _) ?_ (c := c.bare) ?_ (r := b.right)
      ?_ hfills ?_ ?_
    · intro o ho
      rw [hc, List.map_append] at ho
      rcases List.mem_append.mp ho with ho | ho
      · exact hg₁.map_bare o ho
      · rw [List.mem_singleton.mp ho]
        exact hfills.sound
    · rw [hc, List.map_append]
      exact List.getLast?_concat
    · rw [hos, Outline.rightPower_operation hkind, hb]
      rfl
    · exact fun _ => ⟨_, _, _, _, b, hos, rfl, hb, ht.operand, hfills.isOperand,
        fun y hy => ht.edge y hy b hb⟩
    · intro b' hb'
      rw [hos, Outline.binding_operation hkind, hb] at hb'
      obtain rfl := Option.some.inj hb'
      exact hp

theorem Rule.operators_meets (h : Makes php (Grammar.operators power) g n g') (hn : MeetBelow n) :
    (operators power).Meets g g' := by
  intro before hbefore hat
  cases h with
  | byKind h =>
    dsimp only at h
    split at h
    · next hb =>
      cases h
      exact ⟨hat, fun b hb' => by simp [hb] at hb'⟩
    · next b hb =>
      split at h
      · next hp =>
        cases h
        refine ⟨hat, fun b' hb' => ?_⟩
        obtain rfl := Option.some.inj (hb.symm.trans hb')
        exact hp
      · next hp =>
        obtain ⟨hf, k, cs, hc, ht⟩ := hat
        cases h with
        | andThen first second =>
          cases first with
          | @wrap _ _ _ _ _ front _ _ _ hl inner =>
            obtain ⟨rfl, he⟩ := List.append_inj' (hl.symm.trans hc) rfl
            rw [← List.singleton_inj.mp he] at ht
            have hat' := inner.operation front hb (Nat.le_of_not_lt hp) ht (hn.mono (by omega))
            cases second with
            | call second => exact hn _ (by omega) _ _ _ second _ hbefore hat'

namespace Grammar

theorem statement_isPlain : statement.isPlain = true := by decide +kernel

theorem useClause_isPlain : useClause.isPlain = true := by decide +kernel

theorem type_isPlain : type.isPlain = true := by decide +kernel

theorem member_isPlain : member.isPlain = true := by decide +kernel

theorem postfixes_isPostfix : postfixes.isPostfix = true := by decide +kernel

theorem unary_isOperand : Kind.all.all (fun k => unary.isOperand k) = true := by decide +kernel

theorem variableExpression_isOperand :
    Kind.all.all (fun k => variableExpression.isOperand k) = true := by decide +kernel

end Grammar

/-- All rules meet their specifications. -/
theorem meetBelow (n : Nat) : MeetBelow n := by
  induction n with
  | zero => exact nofun
  | succ n ih =>
    intro m hm rule g g' h
    have hn : MeetBelow m := ih.mono (Nat.le_of_lt_succ hm)
    cases rule with
    | statement => exact h.sound_plain Grammar.statement_isPlain hn
    | useClause => exact h.sound_plain Grammar.useClause_isPlain hn
    | type => exact h.sound_plain Grammar.type_isPlain hn
    | member => exact h.sound_plain Grammar.member_isPlain hn
    | postfixes => exact fun _ hb => h.goesOn Grammar.postfixes_isPostfix hn hb
    | operators power => exact Rule.operators_meets h hn
    | variableExpr =>
      intro hg
      have ha := List.all_eq_true.mp Grammar.variableExpression_isOperand _ (Kind.mem_all g.kind)
      refine (h.operand ha hn hg).resolve_left fun hd => ?_
      cases h
      exact Found.noConfusion hd.1
    | expression power =>
      intro hg
      cases h with
      | andThen first second =>
        have ha := List.all_eq_true.mp Grammar.unary_isOperand _ (Kind.mem_all g.kind)
        cases second with
        | branch second =>
          rcases first.operand ha (hn.mono (by omega)) hg with ⟨hf, hc⟩ | hat
          · rw [if_neg (by simp [Stage.holds, Test.holds, hf, Found.any])] at second
            cases second
            exact .inl ⟨hf, hc⟩
          · rw [if_pos (by simp [Stage.holds, Test.holds, (hat 0).1, Found.any])] at second
            cases second with
            | call second => exact .inr (hn _ (by omega) _ _ _ second _ hg (hat power))

/-- All that a program makes is sound. -/
theorem Makes.sound_program (h : Makes php Grammar.program g n g') (hg : g.Sound) : g'.Sound :=
  h.sound_plain rfl (meetBelow n) hg

/-- Where precedence holds everywhere below a node, it holds in all nodes there. -/
theorem Node.ordered_descendants {n m : Node} (h : n.outline.Sound) (hm : m ∈ n.descendants) :
    m.outline.Ordered := by
  have hsound : m.outline.Sound := by
    refine forall_descendants (P := fun m => m.outline.Sound) (fun n b es hn he => ?_) h m hm
    cases hn with
    | branch _ sound =>
      have hchild := sound _ (List.mem_map_of_mem he)
      rwa [Element.outline_branch] at hchild
  cases hsound with
  | branch ordered _ => exact ordered

/-- Precedence and associativity hold in every tree, whatever the text. -/
theorem precedence_holds (dialect : Dialect) (text : List Char) : ∃ p, parse dialect text = .ok p ∧
    ∀ n ∈ p.tree.root.descendants, n.outline.Ordered := by
  obtain ⟨-, p, g, last, -, -, hp, h⟩ := exists_parse dialect text
  obtain ⟨n, hm⟩ := h.makes
  have hsound : g.Sound := hm.sound_program nofun
  refine ⟨p, hp, fun m hm => Node.ordered_descendants ?_ hm⟩
  have houtline : p.tree.root.outline =
      .branch .sourceFile ((g.children ++ [Sprout.token last]).map Sprout.bare) := by
    rw [Node.outline, h.kind, ← h.shows.map_outline]
    rfl
  rw [houtline]
  refine Outline.sound_closed rfl fun o ho => ?_
  obtain ⟨c, hc, rfl⟩ := List.mem_map.mp ho
  rcases List.mem_append.mp hc with hc | hc
  · exact hsound c hc
  · rw [List.mem_singleton.mp hc, Sprout.bare]
    exact .leaf _

end PhpSyntax
