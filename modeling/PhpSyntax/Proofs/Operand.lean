import PhpSyntax.Proofs.Shape

/-!
Operators and their operands in a tree. Each operator has a power towards either side; an operand
whose right edge binds less tightly than the next operator would have taken it.
-/
namespace PhpSyntax

namespace Kind

/-- Nodes that expressions are. -/
def operands : KindSet := .ofList [
  .literal, .variableExpr, .nameExpr, .parenExpr, .arrayExpr, .listExpr, .issetExpr, .emptyExpr,
  .binaryExpr, .assignExpr, .ternaryExpr, .prefixExpr, .postfixExpr, .castExpr, .newExpr,
  .cloneExpr, .printExpr, .includeExpr, .yieldExpr, .callExpr, .memberAccessExpr,
  .scopedAccessExpr, .subscriptExpr, .closureExpr, .arrowFnExpr, .matchExpr]

/-- Nodes of an operator between operands. -/
def isOperation : Kind → Bool
  | binaryExpr | assignExpr | ternaryExpr => true
  | _ => false

/-- Nodes that end with an operand: those of operators, between operands or before one. -/
def isOpen : Kind → Bool
  | prefixExpr | castExpr | cloneExpr | printExpr | includeExpr | arrowFnExpr => true
  | k => k.isOperation

end Kind

namespace Outline

def kind : Outline → Kind
  | leaf k | branch k _ => k

def children : Outline → List Outline
  | leaf _ => []
  | branch _ os => os

/-- A node of an expression. -/
def IsOperand (o : Outline) : Prop :=
  ∃ kind os, o = branch kind os ∧ Kind.operands.contains kind = true

/-- The binding of the operator of an operation, which is its second child. -/
def binding? (o : Outline) : Option Grammar.Binding :=
  if o.kind.isOperation then o.children[1]?.bind fun op => Grammar.binding? op.kind else none

/-- How tightly an open node binds its last child. -/
def rightPower? (o : Outline) : Option Nat :=
  match o.kind with
  | .binaryExpr | .assignExpr | .ternaryExpr => o.binding?.map (·.right)
  | .prefixExpr => some (if o.children.head?.map kind = some .bang then 35 else 39)
  | .castExpr | .cloneExpr => some 39
  | .printExpr | .includeExpr | .arrowFnExpr => some 7
  | _ => none

/-- `Edge o y`: the open node `y` is on the way from `o` along last children through open nodes. -/
inductive Edge : Outline → Outline → Prop where
  | here {o} (isOpen : o.kind.isOpen = true) : Edge o o
  | last {o c y} (isOpen : o.kind.isOpen = true) (last : o.children.getLast? = some c)
    (edge : Edge c y) : Edge o y

/-- The node is incomplete, or binds its last child more tightly than an operator of this power
binds its left operand. -/
def Outbinds (y : Outline) (power : Nat) : Prop :=
  y.children.getLast? = some (leaf .missing) ∨ ∃ r, y.rightPower? = some r ∧ power < r

/-- What precedence demands of a node: an operation has two operands around its operator, what ends
the left one binds more tightly than the operator does, and so does what begins the last child of
an open node. -/
structure Ordered (o : Outline) : Prop where
  operation : o.kind.isOperation = true → ∃ left op middle right b,
    o.children = left :: leaf op :: (middle ++ [right]) ∧
    Grammar.operatorNode op = o.kind ∧ Grammar.binding? op = some b ∧
    left.IsOperand ∧ (right.IsOperand ∨ right = leaf .missing) ∧
    ∀ y, left.Edge y → y.Outbinds b.left
  right : ∀ r last, o.rightPower? = some r → o.children.getLast? = some last →
    last.kind.isOperation = true → ∃ b, last.binding? = some b ∧ r ≤ b.left

/-- Precedence holds in the node and everywhere below it. -/
inductive Sound : Outline → Prop where
  | leaf (kind : Kind) : Sound (leaf kind)
  | branch {kind os} (ordered : Ordered (branch kind os)) (sound : ∀ o ∈ os, Sound o) :
    Sound (branch kind os)

/-- No operator of this kind binds an operand as tightly as this. -/
def Stops (power : Nat) (k : Kind) : Prop := ∀ b, Grammar.binding? k = some b → b.left < power

/-- An operand that begins with operators of at least this power, before a token of kind `k`: where
that is an operator, its right edge binds more tightly. -/
structure Tight (power : Nat) (k : Kind) (o : Outline) : Prop where
  operand : o.IsOperand
  sound : o.Sound
  above : ∀ b, o.binding? = some b → power ≤ b.left
  edge : ∀ y, o.Edge y → ∀ b, Grammar.binding? k = some b → y.Outbinds b.left

variable {o c y : Outline} {kind k : Kind} {os : List Outline} {power : Nat}

theorem isOpen_of_isOperation (h : kind.isOperation = true) : kind.isOpen = true := by
  unfold Kind.isOpen
  split <;> simp_all [Kind.isOperation]

theorem binding_eq_none (h : o.kind.isOpen = false) : o.binding? = none := by
  refine if_neg fun ho => ?_
  rw [isOpen_of_isOperation ho] at h
  cases h

theorem rightPower_eq_none (h : o.kind.isOpen = false) : o.rightPower? = none := by
  unfold rightPower?
  split <;> simp_all [Kind.isOpen, Kind.isOperation]

theorem not_edge (h : o.kind.isOpen = false) : ¬o.Edge y := by
  intro he
  cases he with
  | here ho | last ho => simp [h] at ho

/-- In a node that is not open there is nothing to order. -/
theorem sound_closed (h : kind.isOpen = false) (hos : ∀ o ∈ os, o.Sound) :
    (branch kind os).Sound := by
  refine .branch ⟨fun ho => ?_, fun r last hr => ?_⟩ hos
  · have hopen : kind.isOpen = true := isOpen_of_isOperation ho
    rw [h] at hopen
    cases hopen
  · rw [rightPower_eq_none (o := branch kind os) h] at hr
    cases hr

/-- A closed node ends with no operator, so it is tight in any place. -/
theorem tight_closed (hk : Kind.operands.contains kind = true) (h : kind.isOpen = false)
    (hos : ∀ o ∈ os, o.Sound) (power : Nat) (k : Kind) : (branch kind os).Tight power k where
  operand := ⟨kind, os, rfl, hk⟩
  sound := sound_closed h hos
  above b hb := by
    rw [binding_eq_none (o := branch kind os) h] at hb
    cases hb
  edge y hy := absurd hy (not_edge h)

/-- What stands at the end of an open node of this power, before a token of kind `k`. -/
def Fills (power : Nat) (k : Kind) (o : Outline) : Prop :=
  o = leaf .missing ∨ o.Tight power k ∧ Stops power k

theorem Fills.isOperand (h : o.Fills power k) : o.IsOperand ∨ o = leaf .missing :=
  h.elim .inr fun ht => .inl ht.1.operand

theorem Fills.sound (h : o.Fills power k) : o.Sound := by
  rcases h with rfl | ⟨ht, -⟩
  · exact .leaf _
  · exact ht.sound

/-- An operation that fills the end of a node binds its left operand as tightly as the node. -/
theorem Fills.above (h : o.Fills power k) (ho : o.kind.isOperation = true) :
    ∃ b, o.binding? = some b ∧ power ≤ b.left := by
  rcases h with rfl | ⟨ht, -⟩
  · cases ho
  · obtain ⟨kind, os, rfl, -⟩ := ht.operand
    cases ht.sound with
    | branch ordered =>
      obtain ⟨left, op, middle, right, b, hos, -, hb, -⟩ := ordered.operation ho
      have hbinding : (branch kind os).binding? = some b := by
        rw [binding?, if_pos ho, hos]
        exact hb
      exact ⟨b, hbinding, ht.above b hbinding⟩

/-- The right edge of an open node is the node and the right edge of what fills its end. -/
theorem Fills.outbinds {r : Nat} (h : c.Fills r k) (hlast : o.children.getLast? = some c)
    (hr : o.rightPower? = some r) (hy : o.Edge y) {b : Grammar.Binding}
    (hb : Grammar.binding? k = some b) : y.Outbinds b.left := by
  cases hy with
  | here =>
    rcases h with rfl | ⟨-, hstops⟩
    · exact .inl hlast
    · exact .inr ⟨r, hr, hstops b hb⟩
  | last _ hc hy =>
    obtain rfl := Option.some.inj (hlast.symm.trans hc)
    rcases h with rfl | ⟨ht, -⟩
    · exact absurd hy (not_edge rfl)
    · exact ht.edge y hy b hb

/-- An open node whose end is filled as its right power demands. -/
theorem tight_open {r : Nat} (hk : Kind.operands.contains kind = true)
    (hos : ∀ o ∈ os, o.Sound) (hlast : os.getLast? = some c)
    (hr : (branch kind os).rightPower? = some r) (hc : c.Fills r k)
    (operation : kind.isOperation = true → ∃ left op middle right b,
      os = left :: leaf op :: (middle ++ [right]) ∧
      Grammar.operatorNode op = kind ∧ Grammar.binding? op = some b ∧
      left.IsOperand ∧ (right.IsOperand ∨ right = leaf .missing) ∧
      ∀ y, left.Edge y → y.Outbinds b.left)
    (above : ∀ b, (branch kind os).binding? = some b → power ≤ b.left) :
    (branch kind os).Tight power k := by
  refine ⟨⟨kind, os, rfl, hk⟩, .branch ⟨operation, fun r' last hr' hlast' ho => ?_⟩ hos, above,
    fun y hy b hb => hc.outbinds (o := branch kind os) hlast hr hy hb⟩
  obtain rfl := Option.some.inj (hr.symm.trans hr')
  obtain rfl := Option.some.inj (hlast.symm.trans hlast')
  exact hc.above ho

end Outline

namespace Sprout

theorem sound_aside (junk : List Token) : ∀ c ∈ aside junk, c.bare.Sound := by
  cases junk with
  | nil => simp [aside]
  | cons t ts =>
    simp only [aside, List.mem_singleton, forall_eq, bare_branch]
    refine Outline.sound_closed rfl fun o ho => ?_
    obtain ⟨c, hc, rfl⟩ := List.mem_map.mp ho
    obtain ⟨u, -, rfl⟩ := List.mem_map.mp hc
    rw [bare]
    exact .leaf _

end Sprout

namespace Stage

variable {g g' : Stage} {before : List Sprout} {power : Nat}

/-- Precedence holds in all children. -/
def Sound (g : Stage) : Prop := ∀ c ∈ g.children, c.bare.Sound

/-- The branch found last is an operand behind the children `before`. -/
def AtOperand (before : List Sprout) (power : Nat) (g : Stage) : Prop :=
  g.found = .last ∧ ∃ kind cs, g.children = before ++ [.branch kind cs] ∧
    (Sprout.branch kind cs).bare.Tight power g.kind

theorem Sound.take (h : g.Sound) : g.take.Sound := by
  rcases take_cases g with he | ⟨t, rest, -, -, he⟩
  · rwa [he]
  · rw [he]
    intro c hc
    simp only [List.mem_append, List.mem_cons] at hc
    rcases hc with hc | rfl | hc
    · exact h c hc
    · rw [Sprout.bare]
      exact .leaf _
    · exact Sprout.sound_aside _ c hc

theorem Sound.miss (h : g.Sound) (what : String) : (g.miss what).Sound := by
  intro c hc
  rcases List.mem_append.mp hc with hc | hc
  · exact h c hc
  · rw [List.mem_singleton.mp hc, Sprout.bare]
    exact .leaf _

theorem Sound.map_bare (h : g.Sound) : ∀ o ∈ g.children.map Sprout.bare, o.Sound := by
  intro o ho
  obtain ⟨c, hc, rfl⟩ := List.mem_map.mp ho
  exact h c hc

theorem Sound.leave (h : g.Sound) (h' : g'.Sound) {kind : Kind} (hk : kind.isOpen = false) :
    (g.leave kind g').Sound := by
  intro c hc
  rcases List.mem_append.mp hc with hc | hc
  · exact h c hc
  · rw [List.mem_singleton.mp hc, Sprout.bare_branch]
    exact Outline.sound_closed hk h'.map_bare

theorem AtOperand.sound (h : g.AtOperand before power) (hb : ∀ c ∈ before, c.bare.Sound) :
    g.Sound := by
  obtain ⟨-, kind, cs, hc, ht⟩ := h
  rw [Sound, hc]
  intro c hmem
  rcases List.mem_append.mp hmem with hmem | hmem
  · exact hb c hmem
  · rw [List.mem_singleton.mp hmem]
    exact ht.sound

/-- A closed node that was just made is an operand for every operator. -/
theorem atOperand_leave (h' : g'.Sound) {kind : Kind}
    (ho : Kind.operands.contains kind = true) (hk : kind.isOpen = false) (power : Nat) :
    (g.leave kind g').AtOperand g.children power := by
  refine ⟨rfl, kind, g'.children, rfl, ?_⟩
  rw [Sprout.bare_branch]
  exact Outline.tight_closed ho hk h'.map_bare power _

end Stage

end PhpSyntax
