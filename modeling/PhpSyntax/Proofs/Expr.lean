import PhpSyntax.Proofs.Writing
import PhpSyntax.Proofs.Precedence

/-!
Expressions of variables, integers and operators: how they are written, their trees, and what it
means that precedence is kept in them.
-/
namespace PhpSyntax

open Grammar (Binding php binding? operatorNode climb postfixed postfixes postfixFirst)

/-- A text that is one token of a kind. -/
structure Spelled (kind : Kind) where
  text : List Char
  isWord : Lexeme.IsWord kind text

def Spelled.word {kind : Kind} (s : Spelled kind) : Word := (kind, s.text)

theorem Word.Readable.spelled {kind : Kind} {ws : List Word} (h : Readable ws) (s : Spelled kind)
    (hk : kind ≠ .leftParen) : Readable (s.word :: ws) := h.cons s.isWord hk

/-- An operator between two operands, the question mark apart. -/
structure BinaryOperator where
  kind : Kind
  spelled : Spelled kind
  binding : Binding
  binds : binding? kind = some binding
  ne_question : kind ≠ .question

/-- `!`, a sign, `~` or `@` before an operand. -/
structure UnaryOperator where
  kind : Kind
  spelled : Spelled kind
  isUnary : kind ∈ [.bang, .minus, .plus, .tilde, .atSign]

/-- What stands after an arrow: a name, or a reserved word. -/
structure MemberName where
  kind : Kind
  spelled : Spelled kind
  isNameLike : kind.isNameLike = true

/-- Expressions of variables, integers and operators. -/
inductive Expr where
  | var (name : Spelled .variableName)
  | integer (digits : Spelled .intNumber)
  | paren (e : Expr)
  | unary (op : UnaryOperator) (e : Expr)
  | binary (op : BinaryOperator) (left right : Expr)
  /-- `test ? yes : no` -/
  | ternary (test yes no : Expr)
  /-- `test ?: no` -/
  | elvis (test no : Expr)
  | subscript (base index : Expr)
  | call (base : Expr) (arguments : List Expr)
  | member (base : Expr) (name : MemberName)

def UnaryOperator.word (op : UnaryOperator) : Word := op.spelled.word

def BinaryOperator.word (op : BinaryOperator) : Word := op.spelled.word

def MemberName.word (name : MemberName) : Word := name.spelled.word

/-- How tightly an operator binds the operand after it. -/
def UnaryOperator.power (op : UnaryOperator) : Nat :=
  if op.kind = .bang then Grammar.notPower else Grammar.unaryPower

theorem binding_right_le : Kind.all.all (fun k =>
    (binding? k).all fun b => b.right ≤ b.left + 1 ∧ postfixFirst.contains k = false) = true := by
  decide +kernel

theorem BinaryOperator.right_le (op : BinaryOperator) : op.binding.right ≤ op.binding.left + 1 := by
  have h := List.all_eq_true.mp binding_right_le _ (Kind.mem_all op.kind)
  rw [op.binds] at h
  exact (of_decide_eq_true h).1

theorem BinaryOperator.not_postfix (op : BinaryOperator) : postfixFirst.contains op.kind = false := by
  have h := List.all_eq_true.mp binding_right_le _ (Kind.mem_all op.kind)
  rw [op.binds] at h
  exact (of_decide_eq_true h).2

theorem BinaryOperator.ne_of_none (op : BinaryOperator) {k : Kind} (h : binding? k = none) :
    op.kind ≠ k := by
  rintro rfl
  have hb := op.binds
  rw [h] at hb
  cases hb

theorem BinaryOperator.ne_eof (op : BinaryOperator) : op.kind ≠ .eof := op.ne_of_none rfl

theorem BinaryOperator.ne_leftParen (op : BinaryOperator) : op.kind ≠ .leftParen :=
  op.ne_of_none rfl

theorem UnaryOperator.ne_eof (op : UnaryOperator) : op.kind ≠ .eof :=
  ne_of_mem_of_not_mem op.isUnary (by decide)

theorem UnaryOperator.ne_leftParen (op : UnaryOperator) : op.kind ≠ .leftParen :=
  ne_of_mem_of_not_mem op.isUnary (by decide)

theorem MemberName.ne_of_other (name : MemberName) {k : Kind} (h : k.isNameLike = false) :
    name.kind ≠ k := by
  rintro rfl
  have hname := name.isNameLike
  rw [h] at hname
  cases hname

theorem MemberName.ne_leftParen (name : MemberName) : name.kind ≠ .leftParen :=
  name.ne_of_other rfl

/-- The rule for an operand sees the operator before it. -/
theorem UnaryOperator.chosen (op : UnaryOperator) : ∃ choose, Grammar.unary = .byKind choose ∧
    choose op.kind = Grammar.prefixed .prefixExpr op.power := by
  obtain ⟨kind, spelled, h⟩ := op
  simp only [List.mem_cons, List.not_mem_nil, or_false] at h
  refine ⟨_, rfl, ?_⟩
  rcases h with rfl | rfl | rfl | rfl | rfl <;> rfl

namespace Expr

open Word (mark)

mutual

/-- How an expression is written. -/
def words : Expr → List Word
  | var name => [name.word]
  | integer digits => [digits.word]
  | paren e => mark .leftParen :: (e.words ++ [mark .rightParen])
  | unary op e => op.word :: e.words
  | binary op l r => l.words ++ op.word :: r.words
  | ternary c t e => c.words ++ mark .question :: (t.words ++ mark .colon :: e.words)
  | elvis c e => c.words ++ mark .question :: mark .colon :: e.words
  | subscript b i => b.words ++ mark .leftBracket :: (i.words ++ [mark .rightBracket])
  | call b es => b.words ++ mark .leftParen :: (listWords es ++ [mark .rightParen])
  | member b name => b.words ++ [mark .arrow, name.word]

/-- Expressions with commas between them. -/
def listWords : List Expr → List Word
  | [] => []
  | [e] => e.words
  | e :: e' :: es => e.words ++ mark .comma :: listWords (e' :: es)

end

mutual

/-- The tree of an expression. -/
def tree : Expr → Sprout
  | var name => .branch .variableExpr [.token name.word.token]
  | integer digits => .branch .literal [.token digits.word.token]
  | paren e => .branch .parenExpr
    [.token (mark .leftParen).token, e.tree, .token (mark .rightParen).token]
  | unary op e => .branch .prefixExpr [.token op.word.token, e.tree]
  | binary op l r => .branch (operatorNode op.kind) [l.tree, .token op.word.token, r.tree]
  | ternary c t e => .branch .ternaryExpr [c.tree, .token (mark .question).token, t.tree,
    .token (mark .colon).token, e.tree]
  | elvis c e => .branch .ternaryExpr [c.tree, .token (mark .question).token,
    .token (mark .colon).token, e.tree]
  | subscript b i => .branch .subscriptExpr [b.tree, .token (mark .leftBracket).token, i.tree,
    .token (mark .rightBracket).token]
  | call b es => .branch .callExpr [b.tree, .branch .argList
    (.token (mark .leftParen).token :: (listTrees es ++ [.token (mark .rightParen).token]))]
  | member b name =>
    .branch .memberAccessExpr [b.tree, .token (mark .arrow).token, .token name.word.token]

/-- The trees of arguments, with the commas between them. -/
def listTrees : List Expr → List Sprout
  | [] => []
  | [e] => [.branch .arg [e.tree]]
  | e :: e' :: es => .branch .arg [e.tree] :: .token (mark .comma).token :: listTrees (e' :: es)

end

/-- What a subscript, a call or a member may follow. -/
def isPostfix : Expr → Bool
  | var _ | integer _ | paren _ | subscript _ _ | call _ _ | member _ _ => true
  | _ => false

/-- How tightly the operator of an operation binds its left operand. -/
def leftPower? : Expr → Option Nat
  | binary op _ _ => some op.binding.left
  | ternary _ _ _ | elvis _ _ => some 9
  | _ => none

/-- How tightly the operators on the right edge of an expression bind what ends with it. -/
def edge : Expr → List Nat
  | unary op e => op.power :: e.edge
  | binary op _ r => op.binding.right :: r.edge
  | ternary _ _ e | elvis _ e => 10 :: e.edge
  | _ => []

/-- The expression may stand where an operand of this power is asked for. -/
def standsAt (power : Nat) (e : Expr) : Bool := e.leftPower?.all (power ≤ ·)

/-- The expression may stand before an operator that binds it like this. -/
def standsBefore (power : Nat) (e : Expr) : Bool := e.edge.all (power < ·)

mutual

/-- Precedence is kept everywhere, so that no more parentheses are needed. -/
def isOrdered : Expr → Bool
  | var _ | integer _ => true
  | paren e => e.isOrdered
  | unary op e => e.isOrdered && e.standsAt op.power
  | binary op l r => l.isOrdered && r.isOrdered && l.standsBefore op.binding.left &&
    r.standsAt op.binding.right
  | ternary c t e => c.isOrdered && t.isOrdered && e.isOrdered && c.standsBefore 9 && e.standsAt 10
  | elvis c e => c.isOrdered && e.isOrdered && c.standsBefore 9 && e.standsAt 10
  | subscript b i => b.isPostfix && b.isOrdered && i.isOrdered
  | call b es => b.isPostfix && b.isOrdered && areOrdered es
  | member b _ => b.isPostfix && b.isOrdered

def areOrdered : List Expr → Bool
  | [] => true
  | e :: es => e.isOrdered && areOrdered es

end

/-- Induction over an expression: a call has what its base and all its arguments have. -/
@[elab_as_elim]
theorem induct {P : Expr → Prop} (var : ∀ name, P (var name))
    (integer : ∀ digits, P (integer digits)) (paren : ∀ e, P e → P (paren e))
    (unary : ∀ op e, P e → P (unary op e)) (binary : ∀ op l r, P l → P r → P (binary op l r))
    (ternary : ∀ c t e, P c → P t → P e → P (ternary c t e))
    (elvis : ∀ c e, P c → P e → P (elvis c e))
    (subscript : ∀ b i, P b → P i → P (subscript b i))
    (call : ∀ b es, P b → (∀ e ∈ es, P e) → P (call b es))
    (member : ∀ b name, P b → P (member b name)) (e : Expr) : P e := by
  refine Expr.rec (motive_1 := P) (motive_2 := fun es => ∀ e ∈ es, P e) var integer paren
    unary binary ternary elvis subscript call member ?_ ?_ e
  · intro e he
    cases he
  · intro e es he hes d hd
    rcases List.mem_cons.mp hd with rfl | hd
    · exact he
    · exact hes d hd

/-- The kind of the first word. -/
def first : Expr → Kind
  | var _ => .variableName
  | integer _ => .intNumber
  | paren _ => .leftParen
  | unary op _ => op.kind
  | binary _ e _ | ternary e _ _ | elvis e _ | subscript e _ | call e _ | member e _ => e.first

theorem first_words (e : Expr) (rest : List Word) : Word.first (e.words ++ rest) = e.first := by
  induction e using induct generalizing rest with
  | var | integer | paren | unary => rfl
  | binary _ l _ ih => rw [words, List.append_assoc, ih, first]
  | ternary c _ _ ih => rw [words, List.append_assoc, ih, first]
  | elvis c _ ih => rw [words, List.append_assoc, ih, first]
  | subscript b _ ih => rw [words, List.append_assoc, ih, first]
  | call b _ ih => rw [words, List.append_assoc, ih, first]
  | member b _ ih => rw [words, List.append_assoc, ih, first]

theorem first_mem (e : Expr) : e.first ∈ [.variableName, .intNumber, .leftParen, .bang, .minus,
    .plus, .tilde, .atSign] := by
  induction e using induct with
  | var | integer | paren => simp [first]
  | unary op _ _ =>
    have h := op.isUnary
    simp only [first, List.mem_cons, List.not_mem_nil, or_false] at h ⊢
    tauto
  | binary _ _ _ ih | ternary _ _ _ ih | elvis _ _ ih | subscript _ _ ih | call _ _ ih
    | member _ _ ih => exact ih

theorem first_mem_of_isPostfix {e : Expr} (h : e.isPostfix = true) (ho : e.isOrdered = true) :
    e.first ∈ [.variableName, .intNumber, .leftParen] := by
  induction e using induct with
  | var | integer | paren => simp [first]
  | unary | binary | ternary | elvis => cases h
  | subscript _ _ ih =>
    simp only [isOrdered, Bool.and_eq_true] at ho
    exact ih ho.1.1 ho.1.2
  | call _ _ ih =>
    simp only [isOrdered, Bool.and_eq_true] at ho
    exact ih ho.1.1 ho.1.2
  | member _ _ ih =>
    simp only [isOrdered, Bool.and_eq_true] at ho
    exact ih ho.1 ho.2

theorem isOrdered_of_mem {es : List Expr} (h : areOrdered es = true) {e : Expr} (he : e ∈ es) :
    e.isOrdered = true := by
  induction es with
  | nil => cases he
  | cons d es ih =>
    obtain ⟨hd, hes⟩ := Bool.and_eq_true_iff.mp h
    rcases List.mem_cons.mp he with rfl | he
    · exact hd
    · exact ih hes he

theorem exists_branch (e : Expr) : ∃ k cs, e.tree = .branch k cs := by
  cases e <;> exact ⟨_, _, rfl⟩

/-- What holds of all kinds that begin expressions. -/
theorem first_eq (e : Expr) {p : Kind → Bool} {b : Bool} (h : [Kind.variableName, .intNumber,
    .leftParen, .bang, .minus, .plus, .tilde, .atSign].all (p · == b) = true) : p e.first = b :=
  beq_iff_eq.mp (List.all_eq_true.mp h _ e.first_mem)

/-! ## Writing -/

variable {rest : List Word}

open Word (Readable)

theorem first_listWords {es : List Expr} (hr : (Word.first rest).isNameLike = false) :
    (Word.first (listWords es ++ rest)).isNameLike = false := by
  have hfirst (e : Expr) : e.first.isNameLike = false := e.first_eq rfl
  match es with
  | [] => exact hr
  | [e] => rw [listWords, first_words, hfirst]
  | e :: e' :: es => rw [listWords, List.append_assoc, first_words, hfirst]

theorem readable_list {es : List Expr}
    (h : ∀ e ∈ es, ∀ rest, Readable rest → Readable (e.words ++ rest)) (hr : Readable rest) : Readable (listWords es ++ rest) := by
  match es with
  | [] => exact hr
  | [e] => exact h e (by simp) rest hr
  | e :: e' :: es =>
    have hes : Readable (listWords (e' :: es) ++ rest) :=
      readable_list (fun e he => h e (List.mem_cons_of_mem _ he)) hr
    rw [listWords, List.append_assoc]
    exact h e (by simp) _ (hes.mark (k := .comma) (by decide))

/-- Expressions are read as they are written. -/
theorem readable (e : Expr) (h : Readable rest) : Readable (e.words ++ rest) := by
  have hfirst (e : Expr) (rest : List Word) : (Word.first (e.words ++ rest)).isNameLike = false := by
    rw [first_words]
    exact e.first_eq rfl
  induction e using induct generalizing rest with
  | var name => exact h.spelled name (by decide)
  | integer digits => exact h.spelled digits (by decide)
  | paren e ih =>
    rw [words, List.cons_append, List.append_assoc]
    exact (ih (h.mark (by decide))).paren_other (hfirst e _)
  | unary op e ih => exact (ih h).spelled op.spelled op.ne_leftParen
  | binary op l r ihl ihr =>
    simp only [words, List.cons_append, List.append_assoc]
    exact ihl ((ihr h).spelled op.spelled op.ne_leftParen)
  | ternary c t e ihc iht ihe =>
    simp only [words, List.cons_append, List.append_assoc]
    exact ihc ((iht ((ihe h).mark (by decide))).mark (by decide))
  | elvis c e ihc ihe =>
    simp only [words, List.cons_append, List.append_assoc]
    exact ihc (((ihe h).mark (by decide)).mark (by decide))
  | subscript b i ihb ihi =>
    simp only [words, List.cons_append, List.append_assoc]
    exact ihb ((ihi (h.mark (by decide))).mark (by decide))
  | call b es ihb ihes =>
    have hclose : Readable (Word.mark .rightParen :: rest) := h.mark (by decide)
    simp only [words, List.cons_append, List.append_assoc]
    exact ihb ((readable_list (fun e he _ => ihes e he) hclose).paren_other (first_listWords rfl))
  | member b name ihb =>
    have hname : Readable (name.word :: rest) := h.spelled name.spelled name.ne_leftParen
    simp only [words, List.append_assoc]
    exact ihb (hname.mark (k := .arrow) (by decide))

end Expr
end PhpSyntax
