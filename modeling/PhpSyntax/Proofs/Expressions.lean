import PhpSyntax.Proofs.Clean
import PhpSyntax.Proofs.Expr

/-!
Expressions in writing. What an expression is written with leads the rules to its tree, whatever
stands behind it, as long as precedence is kept: that no operator that follows belongs into it.
-/

namespace PhpSyntax

open Grammar (Binding php binding? operatorNode climb postfixed postfixes postfixFirst)

/-- A member name is taken as it is. -/
theorem MemberName.leads (name : MemberName) {rest : List Word} {cs : List Sprout} {f : Found} :
    Leads php Grammar.memberName ⟨name.word :: rest, cs, f⟩
      ⟨rest, cs ++ [.token name.word.token], f.bury⟩ := by
  have hname : name.kind.isNameLike = true := name.isNameLike
  refine .byKind ?_
  rw [show Spot.kind ⟨name.word :: rest, cs, f⟩ = name.kind from rfl]
  split
  · next hk => exact absurd hk (name.ne_of_other rfl)
  · next hk => exact absurd hk (name.ne_of_other rfl)
  · next hk => exact absurd hk (name.ne_of_other rfl)
  · rw [if_pos hname]
    exact .bump (name.ne_of_other rfl)

namespace Expr

open Word (mark)

/-! ## Powers -/

/-- An operator after an expression tells how tightly the expression is bound at least. -/
theorem standsAt_of_standsBefore {e : Expr} {power : Nat} (h : e.standsBefore power = true) :
    e.standsAt power = true := by
  cases e with
  | binary op l r =>
    have hle := op.right_le
    have hlt : power < op.binding.right := by
      simp only [standsBefore, edge, List.all_cons, Bool.and_eq_true, decide_eq_true_eq] at h
      exact h.1
    exact decide_eq_true (Nat.le_of_lt_succ (Nat.lt_of_lt_of_le hlt hle))
  | ternary | elvis =>
    simp only [standsBefore, edge, List.all_cons, Bool.and_eq_true, decide_eq_true_eq] at h
    exact decide_eq_true (Nat.le_of_lt_succ h.1)
  | _ => rfl

theorem standsAt_mono {e : Expr} {p q : Nat} (h : e.standsAt q = true) (hp : p ≤ q) :
    e.standsAt p = true := by
  unfold standsAt at h ⊢
  cases he : e.leftPower? with
  | none => rfl
  | some l =>
    rw [he] at h
    exact decide_eq_true (Nat.le_trans hp (of_decide_eq_true h))

/-! ## What expressions lead to -/

variable {rest : List Word} {cs : List Sprout} {f : Found} {s s' : Spot} {power : Nat}

/-- Behind the expression the rules go on with what may follow a postfix. -/
def Continues (e : Expr) : Prop := ∀ {rest cs f s'},
  Leads php postfixes ⟨rest, cs ++ [e.tree], .last⟩ s' →
  Leads php postfixed ⟨e.words ++ rest, cs, f⟩ s'

/-- No word that goes on with the expression follows it. -/
structure Ends (e : Expr) (rest : List Word) : Prop where
  noPostfix : postfixFirst.contains (Word.first rest) = false
  noOperator : ∀ b, binding? (Word.first rest) = some b → e.standsBefore b.left = true

/-- Behind the expression the rules go on with operators. -/
def Climbs (e : Expr) : Prop := ∀ {power rest cs f s'}, e.standsAt power = true → e.Ends rest →
  Leads php (.call (.operators power)) ⟨rest, cs ++ [e.tree], .last⟩ s' →
  Leads php (climb power) ⟨e.words ++ rest, cs, f⟩ s'

/-- Operators that bind less tightly are left alone. -/
theorem operators_stop (h : ∀ b, binding? (Word.first rest) = some b → b.left < power) :
    Leads php (.call (.operators power)) ⟨rest, cs, f⟩ ⟨rest, cs, f⟩ := by
  refine .call (.byKind ?_)
  rw [show Spot.kind ⟨rest, cs, f⟩ = Word.first rest from rfl]
  cases hb : binding? (Word.first rest) with
  | none => exact .done
  | some b =>
    dsimp only
    rw [if_pos (h b hb)]
    exact .done

theorem Climbs.expression {e : Expr} (h : e.Climbs) (hp : e.standsAt power = true)
    (he : e.Ends rest) (hb : ∀ b, binding? (Word.first rest) = some b → b.left < power) :
    Leads php (.call (.expression power)) ⟨e.words ++ rest, cs, f⟩ ⟨rest, cs ++ [e.tree], .last⟩ :=
  .call (h hp he (operators_stop hb))

theorem expressionAt {ws : List Word}
    (h : Leads php (.call (.expression power)) s ⟨ws, cs, .last⟩) :
    Leads php (Grammar.expressionAt power) s ⟨ws, cs, .last⟩ :=
  h.andThen (.yes rfl .done)

/-- A node around an expression that was just found. -/
theorem wrap (e : Expr) {kind : Kind} {body : Grammar.Action} {ws ws' : List Word}
    {cs' : List Sprout} {f' : Found}
    (h : Leads php body ⟨ws, [e.tree], .earlier⟩ ⟨ws', cs', f'⟩) :
    Leads php (.wrap kind body) ⟨ws, cs ++ [e.tree], .last⟩
      ⟨ws', cs ++ [.branch kind cs'], .last⟩ := by
  obtain ⟨k, ks, he⟩ := e.exists_branch
  rw [he] at h ⊢
  exact .wrap h

/-- An operator between an expression and the words of another one. -/
theorem operators_step {e : Expr} {b : Binding} {w : Word} {ws ws' : List Word} {cs' : List Sprout}
    {f' : Found} (hb : binding? w.1 = some b) (hp : power ≤ b.left)
    (h : Leads php (Grammar.operation w.1 b.right) ⟨w :: ws, [e.tree], .earlier⟩ ⟨ws', cs', f'⟩)
    (h' : Leads php (.call (.operators power))
      ⟨ws', cs ++ [.branch (operatorNode w.1) cs'], .last⟩ s') :
    Leads php (.call (.operators power)) ⟨w :: ws, cs ++ [e.tree], .last⟩ s' := by
  refine .call (.byKind ?_)
  rw [show Spot.kind ⟨w :: ws, cs ++ [e.tree], .last⟩ = w.1 from rfl, hb]
  dsimp only
  rw [if_neg (Nat.not_lt.mpr hp)]
  exact (wrap e h).andThen h'

/-- A word that goes on with no expression ends every expression. -/
theorem ends_of_none (e : Expr) (hp : postfixFirst.contains (Word.first rest) = false)
    (hb : binding? (Word.first rest) = none) : e.Ends rest :=
  ⟨hp, fun b h => by rw [hb] at h; cases h⟩

theorem standsAt_zero (e : Expr) : e.standsAt 0 = true := by
  unfold standsAt
  cases e.leftPower? <;> rfl

/-- Kinds that go on with no expression. -/
def closes (k : Kind) : Bool := !postfixFirst.contains k && (binding? k).isNone

/-- An expression with any operators, before a word that goes on with none. -/
theorem Climbs.called {e : Expr} (h : e.Climbs) (hc : closes (Word.first rest) = true) :
    Leads php (.call (.expression 0)) ⟨e.words ++ rest, cs, f⟩ ⟨rest, cs ++ [e.tree], .last⟩ := by
  simp only [closes, Bool.and_eq_true, Bool.not_eq_true', Option.isNone_iff_eq_none] at hc
  refine h.expression e.standsAt_zero (e.ends_of_none hc.1 hc.2) fun b hb => ?_
  rw [hc.2] at hb
  cases hb

theorem Climbs.whole {e : Expr} (h : e.Climbs) (hc : closes (Word.first rest) = true) :
    Leads php Grammar.expression ⟨e.words ++ rest, cs, f⟩ ⟨rest, cs ++ [e.tree], .last⟩ :=
  expressionAt (h.called hc)

/-- An expression before a word with one spelling. -/
theorem Climbs.before {e : Expr} (h : e.Climbs) {k : Kind} (hc : closes k = true) :
    Leads php Grammar.expression ⟨e.words ++ mark k :: rest, cs, f⟩
      ⟨mark k :: rest, cs ++ [e.tree], .last⟩ := h.whole hc

theorem holds_kind (e : Expr) (k : Kind) :
    Spot.holds ⟨e.words ++ rest, cs, f⟩ (.kind k) = (e.first == k) :=
  congrArg (· == k) (e.first_words rest)

theorem holds_kindIn (e : Expr) (kinds : KindSet) :
    Spot.holds ⟨e.words ++ rest, cs, f⟩ (.kindIn kinds) = kinds.contains e.first :=
  congrArg kinds.contains (e.first_words rest)

theorem postfixed_leads {ws : List Word} (h : Leads php Grammar.primary s ⟨ws, cs, .last⟩)
    (h' : Leads php postfixes ⟨ws, cs, .last⟩ s') : Leads php postfixed s s' :=
  h.andThen (.yes rfl (.call h'))

theorem continues_var (name : Spelled .variableName) : (var name).Continues := fun h =>
  postfixed_leads (.byKind (.call (.node (.no rfl (.bump nofun))))) h

theorem continues_integer (digits : Spelled .intNumber) : (integer digits).Continues := fun h =>
  postfixed_leads (.byKind (.node (.bump nofun))) h

theorem continues_paren {e : Expr} (he : e.Climbs) : (paren e).Continues := by
  intro rest cs f s' h
  have hwords : (paren e).words ++ rest =
      mark .leftParen :: (e.words ++ mark .rightParen :: rest) := by
    simp [words]
  rw [hwords]
  exact postfixed_leads (.byKind (.node (((Leads.mark (by decide)).andThen
    (he.before (by decide))).andThen (.expect rfl (by decide))))) h

theorem continues_subscript {b i : Expr} (hb : b.Continues) (hi : i.Climbs) :
    (subscript b i).Continues := by
  intro rest cs f s' h
  have hwords : (subscript b i).words ++ rest =
      b.words ++ mark .leftBracket :: (i.words ++ mark .rightBracket :: rest) := by
    simp [words]
  have hindex : (i.first == .rightBracket) = false := i.first_eq (p := (· == _)) rfl
  rw [hwords]
  exact hb (.again (show postfixFirst.contains .leftBracket = true by decide) (.byKind (wrap b
    (((Leads.mark (by decide)).andThen (.no ((i.holds_kind _).trans hindex)
      (hi.before (by decide)))).andThen (.expect rfl (by decide))))) h)

theorem continues_member {b : Expr} {name : MemberName} (hb : b.Continues) :
    (member b name).Continues := by
  intro rest cs f s' h
  have hwords : (member b name).words ++ rest = b.words ++ mark .arrow :: name.word :: rest := by
    simp [words]
  rw [hwords]
  exact hb (.again (show postfixFirst.contains .arrow = true by decide) (.byKind (wrap b
    ((Leads.mark (by decide)).andThen name.leads))) h)

/-- An argument before a comma or a parenthesis. -/
theorem argument_leads {e : Expr} (he : e.Climbs) {k : Kind} (hc : closes k = true) :
    Leads php Grammar.argument ⟨e.words ++ mark k :: rest, cs, f⟩
      ⟨mark k :: rest, cs ++ [.branch .arg [e.tree]], .last⟩ := by
  have hname : Grammar.nameLike.contains e.first = false := e.first_eq (by decide)
  have hellipsis : (e.first == .ellipsis) = false := e.first_eq (p := (· == _)) rfl
  refine .node ((Leads.no ?_ .done).andThen (.no ((e.holds_kind _).trans hellipsis) (he.before hc)))
  exact Bool.and_eq_false_iff.mpr (.inl ((e.holds_kindIn _).trans hname))

/-- The elements of a list, which begin with tokens of the set `first`, with commas between them. A
comma where an element should stand is taken by `alone`. -/
def listLoop (first : KindSet) (alone element : Grammar.Action) : Grammar.Action :=
  .repeatWhile (.kindIn (first ∪ .single .comma))
    (.branch (.kind .comma) alone
      (element ++ .branch (.kind .comma) .bump (.when (.kindIn first) (.missingKind .comma))))

/-- An element that begins with a token of the set is taken, and then the loop goes on. -/
theorem listLoop_step {first : KindSet} {alone element : Grammar.Action} {ws ws' : List Word}
    {cs' : List Sprout} {f' : Found} (hcomma : first.contains .comma = false)
    (hfirst : first.contains (Word.first ws) = true)
    (he : Leads php element ⟨ws, cs, f⟩ ⟨ws', cs', f'⟩)
    (h : Leads php (.branch (.kind .comma) .bump
      (.when (.kindIn first) (.missingKind .comma))) ⟨ws', cs', f'⟩ s)
    (h' : Leads php (listLoop first alone element) s s') :
    Leads php (listLoop first alone element) ⟨ws, cs, f⟩ s' := by
  have hloop : (first ∪ .single .comma).contains (Word.first ws) = true := by
    rw [KindSet.contains_union, hfirst, Bool.true_or]
  have hother : (Word.first ws == .comma) = false := by
    rw [beq_eq_false_iff_ne]
    intro hk
    rw [hk, hcomma] at hfirst
    cases hfirst
  exact .again hloop (.no hother (he.andThen h)) h'

/-- The elements of an argument list. -/
def argumentLoop : Grammar.Action :=
  .repeatWhile (.kindIn (Grammar.argumentFirst ∪ .single .comma))
    (.branch (.kind .comma) (.recover (fun _ => .expected "argument") .all)
      (Grammar.argument ++
        .branch (.kind .comma) .bump (.when (.kindIn Grammar.argumentFirst) (.missingKind .comma))))

/-- An argument that begins with a token of the set is taken, and then the loop goes on. -/
theorem argumentLoop_step {ws ws' : List Word} {cs' : List Sprout} {f' : Found}
    (hfirst : Grammar.argumentFirst.contains (Word.first ws) = true)
    (ha : Leads php Grammar.argument ⟨ws, cs, f⟩ ⟨ws', cs', f'⟩)
    (h : Leads php (.branch (.kind .comma) .bump
      (.when (.kindIn Grammar.argumentFirst) (.missingKind .comma))) ⟨ws', cs', f'⟩ s)
    (h' : Leads php argumentLoop s s') : Leads php argumentLoop ⟨ws, cs, f⟩ s' :=
  listLoop_step (by decide) hfirst ha h h'

theorem arguments_lead {es : List Expr} (h : ∀ e ∈ es, e.Climbs) (rest : List Word)
    (cs : List Sprout) (f : Found) :
    ∃ f', Leads php argumentLoop ⟨listWords es ++ mark .rightParen :: rest, cs, f⟩
      ⟨mark .rightParen :: rest, cs ++ listTrees es, f'⟩ := by
  have hstop (cs : List Sprout) (f : Found) : Leads php argumentLoop
      ⟨mark .rightParen :: rest, cs, f⟩ ⟨mark .rightParen :: rest, cs, f⟩ :=
    .stop (show KindSet.contains _ .rightParen = false by decide)
  have hfirst (e : Expr) (rest : List Word) :
      Grammar.argumentFirst.contains (Word.first (e.words ++ rest)) = true := by
    rw [e.first_words]
    exact e.first_eq (by decide)
  match es with
  | [] =>
    rw [listTrees, List.append_nil]
    exact ⟨f, hstop cs f⟩
  | [e] =>
    have hclose : Grammar.argumentFirst.contains .rightParen = false := by decide
    exact ⟨_, argumentLoop_step (hfirst e _) (argument_leads (h e (by simp)) (by decide))
      (.no rfl (.no hclose .done)) (hstop _ _)⟩
  | e :: e' :: es =>
    obtain ⟨f', hrest⟩ := arguments_lead (fun e he => h e (List.mem_cons_of_mem _ he)) rest
      (cs ++ [.branch .arg [e.tree]] ++ [.token (mark .comma).token]) .earlier
    have hwords : listWords (e :: e' :: es) ++ mark .rightParen :: rest =
        e.words ++ mark .comma :: (listWords (e' :: es) ++ mark .rightParen :: rest) := by
      simp [listWords]
    have htrees : cs ++ listTrees (e :: e' :: es) = cs ++ [.branch .arg [e.tree]] ++
        [.token (mark .comma).token] ++ listTrees (e' :: es) := by
      simp [listTrees]
    rw [hwords, htrees]
    exact ⟨f', argumentLoop_step (hfirst e _) (argument_leads (h e (by simp)) (by decide))
      (.yes rfl (.mark (by decide))) hrest⟩

theorem continues_call {b : Expr} {es : List Expr} (hb : b.Continues) (hes : ∀ e ∈ es, e.Climbs) :
    (call b es).Continues := by
  intro rest cs f s' h
  have hwords : (call b es).words ++ rest =
      b.words ++ mark .leftParen :: (listWords es ++ mark .rightParen :: rest) := by
    simp [words]
  rw [hwords]
  obtain ⟨f', hloop⟩ := arguments_lead hes rest [.token (mark .leftParen).token] .earlier
  have hlist : Leads php Grammar.argumentList
      ⟨mark .leftParen :: (listWords es ++ mark .rightParen :: rest), [b.tree], .earlier⟩
      ⟨rest, [b.tree] ++ [.branch .argList (.token (mark .leftParen).token ::
        (listTrees es ++ [.token (mark .rightParen).token]))], .last⟩ :=
    .node ((((Leads.require rfl).andThen (.mark (by decide))).andThen hloop).andThen
      (.expect rfl (by decide)))
  exact hb (.again (show postfixFirst.contains .leftParen = true by decide)
    (.byKind (wrap b hlist)) h)

/-- An operand, and the operators that follow it. -/
theorem climb_leads {ws : List Word} (h : Leads php Grammar.unary s ⟨ws, cs, .last⟩)
    (h' : Leads php (.call (.operators power)) ⟨ws, cs, .last⟩ s') :
    Leads php (climb power) s s' := h.andThen (.yes rfl h')

theorem climbs_of_continues {e : Expr} (hp : e.isPostfix = true) (ho : e.isOrdered = true)
    (h : e.Continues) : e.Climbs := by
  intro power rest cs f s' _ hends h'
  have hpostfixed : Leads php postfixed ⟨e.words ++ rest, cs, f⟩ ⟨rest, cs ++ [e.tree], .last⟩ :=
    h (.stop hends.noPostfix)
  refine climb_leads (.byKind ?_) h'
  rw [show Spot.kind ⟨e.words ++ rest, cs, f⟩ = e.first from e.first_words rest]
  have hfirst := first_mem_of_isPostfix hp ho
  simp only [List.mem_cons, List.not_mem_nil, or_false] at hfirst
  rcases hfirst with hk | hk | hk <;> rw [hk] <;> exact hpostfixed

/-- What ends an operation ends its last operand, and binds less tightly than its operator. -/
theorem Ends.last {e e' : Expr} {r : Nat} (h : e.Ends rest) (he : e.edge = r :: e'.edge) :
    e'.Ends rest ∧ ∀ b, binding? (Word.first rest) = some b → b.left < r := by
  have hedge (b : Binding) (hb : binding? (Word.first rest) = some b) :
      b.left < r ∧ e'.standsBefore b.left = true := by
    simpa [standsBefore, he] using h.noOperator b hb
  exact ⟨⟨h.noPostfix, fun b hb => (hedge b hb).2⟩, fun b hb => (hedge b hb).1⟩

theorem climbs_unary {op : UnaryOperator} {e : Expr} (h : e.Climbs)
    (hp : e.standsAt op.power = true) : (unary op e).Climbs := by
  intro power rest cs f s' _ hends h'
  obtain ⟨hlast, hb⟩ : e.Ends rest ∧ ∀ b, binding? (Word.first rest) = some b →
    b.left < op.power := hends.last rfl
  obtain ⟨choose, hunary, hchoose⟩ := op.chosen
  have hnode : Leads php (Grammar.prefixed .prefixExpr op.power)
      ⟨op.word :: (e.words ++ rest), cs, f⟩ ⟨rest, cs ++ [(unary op e).tree], .last⟩ :=
    .node ((Leads.bump op.ne_eof).andThen (expressionAt (h.expression hp hlast hb)))
  refine climb_leads ?_ h'
  rw [hunary]
  exact .byKind (hchoose ▸ hnode)

/-- The operator and what stands before the second operand. -/
theorem operator_leads (op : BinaryOperator) {ws : List Word} (hws : Word.first ws ≠ .amp) :
    Leads php (Grammar.operator op.kind) ⟨op.word :: ws, cs, f⟩
      ⟨ws, cs ++ [.token op.word.token], f.bury⟩ := by
  have hbump : Leads php .bump ⟨op.word :: ws, cs, f⟩
      ⟨ws, cs ++ [.token op.word.token], f.bury⟩ := .bump op.ne_eof
  unfold Grammar.operator
  split
  · next hk => exact absurd hk op.ne_question
  · exact hbump.andThen (.no (beq_eq_false_iff_ne.mpr hws) .done)
  · exact hbump

theorem climbs_binary {op : BinaryOperator} {l r : Expr} (hl : l.Climbs) (hr : r.Climbs)
    (hleft : l.standsBefore op.binding.left = true) (hright : r.standsAt op.binding.right = true) :
    (binary op l r).Climbs := by
  intro power rest cs f s' hp hends h'
  have hpower : power ≤ op.binding.left := of_decide_eq_true hp
  obtain ⟨hlast, hb⟩ : r.Ends rest ∧ ∀ b, binding? (Word.first rest) = some b →
    b.left < op.binding.right := hends.last rfl
  have hwords : (binary op l r).words ++ rest = l.words ++ op.word :: (r.words ++ rest) := by
    simp [words]
  have hamp : Word.first (r.words ++ rest) ≠ .amp := by
    rw [r.first_words]
    exact bne_iff_ne.mp (r.first_eq (p := (· != .amp)) rfl)
  have hoperation : Leads php (Grammar.operation op.kind op.binding.right)
      ⟨op.word :: (r.words ++ rest), [l.tree], .earlier⟩
      ⟨rest, [l.tree] ++ [.token op.word.token] ++ [r.tree], .last⟩ := by
    rw [Grammar.operation_eq]
    exact (operator_leads op hamp).andThen (expressionAt (hr.expression hright hlast hb))
  rw [hwords]
  refine hl (standsAt_mono (standsAt_of_standsBefore hleft) hpower) ⟨op.not_postfix, ?_⟩
    (operators_step op.binds hpower hoperation h')
  intro b hb
  obtain rfl := Option.some.inj (op.binds.symm.trans hb)
  exact hleft

theorem climbs_ternary {c t e : Expr} (hc : c.Climbs) (ht : t.Climbs) (he : e.Climbs)
    (hleft : c.standsBefore 9 = true) (hright : e.standsAt 10 = true) :
    (ternary c t e).Climbs := by
  intro power rest cs f s' hp hends h'
  have hpower : power ≤ 9 := of_decide_eq_true hp
  obtain ⟨hlast, hb⟩ : e.Ends rest ∧ ∀ b, binding? (Word.first rest) = some b → b.left < 10 :=
    hends.last rfl
  have hwords : (ternary c t e).words ++ rest =
      c.words ++ mark .question :: (t.words ++ mark .colon :: (e.words ++ rest)) := by
    simp [words]
  have hcolon : (t.first == .colon) = false := t.first_eq (p := (· == _)) rfl
  have hoperation : Leads php (Grammar.operation .question 10)
      ⟨mark .question :: (t.words ++ mark .colon :: (e.words ++ rest)), [c.tree], .earlier⟩
      ⟨rest, [c.tree] ++ [.token (mark .question).token] ++ [t.tree] ++
        [.token (mark .colon).token] ++ [e.tree], .last⟩ :=
    (((Leads.mark (by decide)).andThen (.no ((t.holds_kind _).trans hcolon)
      (ht.before (by decide)))).andThen (.expect rfl (by decide))).andThen
        (expressionAt (he.expression hright hlast hb))
  rw [hwords]
  refine hc (standsAt_mono (standsAt_of_standsBefore hleft) hpower) ⟨?_, ?_⟩
    (operators_step (b := ⟨9, 10⟩) rfl hpower hoperation h')
  · show postfixFirst.contains .question = false
    decide
  · intro b hb
    cases hb
    exact hleft

theorem climbs_elvis {c e : Expr} (hc : c.Climbs) (he : e.Climbs)
    (hleft : c.standsBefore 9 = true) (hright : e.standsAt 10 = true) : (elvis c e).Climbs := by
  intro power rest cs f s' hp hends h'
  have hpower : power ≤ 9 := of_decide_eq_true hp
  obtain ⟨hlast, hb⟩ : e.Ends rest ∧ ∀ b, binding? (Word.first rest) = some b → b.left < 10 :=
    hends.last rfl
  have hwords : (elvis c e).words ++ rest =
      c.words ++ mark .question :: mark .colon :: (e.words ++ rest) := by
    simp [words]
  have hoperation : Leads php (Grammar.operation .question 10)
      ⟨mark .question :: mark .colon :: (e.words ++ rest), [c.tree], .earlier⟩
      ⟨rest, [c.tree] ++ [.token (mark .question).token] ++ [.token (mark .colon).token] ++
        [e.tree], .last⟩ :=
    (((Leads.mark (by decide)).andThen (.yes rfl .done)).andThen
      (.expect rfl (by decide))).andThen (expressionAt (he.expression hright hlast hb))
  rw [hwords]
  refine hc (standsAt_mono (standsAt_of_standsBefore hleft) hpower) ⟨?_, ?_⟩
    (operators_step (b := ⟨9, 10⟩) rfl hpower hoperation h')
  · show postfixFirst.contains .question = false
    decide
  · intro b hb
    cases hb
    exact hleft

/-- Ordered expressions lead to their trees. -/
theorem climbs (e : Expr) (h : e.isOrdered = true) :
    e.Climbs ∧ (e.isPostfix = true → e.Continues) := by
  have hpostfix (e : Expr) (h : e.isOrdered = true) (hp : e.isPostfix = true) (hc : e.Continues) :
      e.Climbs ∧ (e.isPostfix = true → e.Continues) :=
    ⟨climbs_of_continues hp h hc, fun _ => hc⟩
  induction e using induct with
  | var name => exact hpostfix _ h rfl (continues_var name)
  | integer digits => exact hpostfix _ h rfl (continues_integer digits)
  | paren e ih => exact hpostfix _ h rfl (continues_paren (ih h).1)
  | unary op e ih =>
    obtain ⟨he, hp⟩ := Bool.and_eq_true_iff.mp h
    exact ⟨climbs_unary (ih he).1 hp, Bool.noConfusion⟩
  | binary op l r ihl ihr =>
    have ho := h
    simp only [isOrdered, Bool.and_eq_true] at ho
    exact ⟨climbs_binary (ihl ho.1.1.1).1 (ihr ho.1.1.2).1 ho.1.2 ho.2, Bool.noConfusion⟩
  | ternary c t e ihc iht ihe =>
    have ho := h
    simp only [isOrdered, Bool.and_eq_true] at ho
    exact ⟨climbs_ternary (ihc ho.1.1.1.1).1 (iht ho.1.1.1.2).1 (ihe ho.1.1.2).1 ho.1.2 ho.2,
      Bool.noConfusion⟩
  | elvis c e ihc ihe =>
    have ho := h
    simp only [isOrdered, Bool.and_eq_true] at ho
    exact ⟨climbs_elvis (ihc ho.1.1.1).1 (ihe ho.1.1.2).1 ho.1.2 ho.2, Bool.noConfusion⟩
  | subscript b i ihb ihi =>
    have ho := h
    simp only [isOrdered, Bool.and_eq_true] at ho
    exact hpostfix _ h rfl (continues_subscript ((ihb ho.1.2).2 ho.1.1) (ihi ho.2).1)
  | call b es ihb ihes =>
    have ho := h
    simp only [isOrdered, Bool.and_eq_true] at ho
    refine hpostfix _ h rfl (continues_call ((ihb ho.1.2).2 ho.1.1) fun e he => (ihes e he ?_).1)
    exact isOrdered_of_mem ho.2 he
  | member b name ihb =>
    have ho := h
    simp only [isOrdered, Bool.and_eq_true] at ho
    exact hpostfix _ h rfl (continues_member ((ihb ho.2).2 ho.1))

/-- What begins an expression begins a statement of it. -/
theorem statement_choose (e : Expr) : ∃ choose, Grammar.statement = .byKind choose ∧
    choose e.first = Grammar.expressionStatement := by
  have hfirst := e.first_mem
  simp only [List.mem_cons, List.not_mem_nil, or_false] at hfirst
  refine ⟨_, rfl, ?_⟩
  rcases hfirst with h | h | h | h | h | h | h | h <;> rw [h] <;> exact if_pos (by decide)

/-- An expression before a semicolon is a statement. -/
theorem statement_leads {e : Expr} (h : e.isOrdered = true) :
    Leads php (.call .statement) ⟨e.words ++ mark .semicolon :: rest, cs, f⟩
      ⟨rest, cs ++ [.branch .exprStmt [e.tree, .token (mark .semicolon).token]], .last⟩ := by
  obtain ⟨choose, hstatement, hchoose⟩ := e.statement_choose
  have hclimbs : e.Climbs := (e.climbs h).1
  have hend : Leads php Grammar.statementEnd ⟨mark .semicolon :: rest, [e.tree], .last⟩
      ⟨rest, [e.tree] ++ [.token (mark .semicolon).token], .earlier⟩ :=
    .no rfl (.expect rfl (by decide))
  have hnode : Leads php Grammar.expressionStatement ⟨e.words ++ mark .semicolon :: rest, cs, f⟩
      ⟨rest, cs ++ [.branch .exprStmt [e.tree, .token (mark .semicolon).token]], .last⟩ :=
    .node ((hclimbs.before (by decide)).andThen hend)
  refine .call ?_
  show Leads php Grammar.statement _ _
  rw [hstatement]
  refine .byKind ?_
  rw [show Spot.kind ⟨e.words ++ mark .semicolon :: rest, cs, f⟩ = e.first from e.first_words _,
    hchoose]
  exact hnode

end Expr

/-- `$a = ! $b -> Class [ 0 ] ( - $a , $b ? : 1_0 ) && ( $a XOR $b )` -/
def Expr.sample : Expr :=
  let a : Expr := .var ⟨"$a".toList, by decide⟩
  let b : Expr := .var ⟨"$b".toList, by decide⟩
  let element := Expr.subscript (.member b ⟨.classKw, ⟨"Class".toList, by decide⟩, rfl⟩)
    (.integer ⟨"0".toList, by decide⟩)
  let negative := Expr.unary ⟨.minus, ⟨"-".toList, by decide⟩, by decide⟩ a
  let result := Expr.call element [negative, .elvis b (.integer ⟨"1_0".toList, by decide⟩)]
  let either := Expr.binary ⟨.xorKw, ⟨"XOR".toList, by decide⟩, ⟨3, 4⟩, rfl, by decide⟩ a b
  .binary ⟨.eq, ⟨"=".toList, by decide⟩, ⟨255, Grammar.lowPower⟩, rfl, by decide⟩ a
    (.binary ⟨.ampAmp, ⟨"&&".toList, by decide⟩, ⟨15, 16⟩, rfl, by decide⟩
      (.unary ⟨.bang, ⟨"!".toList, by decide⟩, by decide⟩ result) (.paren either))

end PhpSyntax
