import PhpSyntax.Proofs.Meeting
import PhpSyntax.Proofs.Outlook
import PhpSyntax.Proofs.Recovery

/-!
Rules get on. Where a rule is entered in a parse, it takes a token if the current one begins what it
looks for: an expression exactly at the tokens that begin expressions, a statement and a member at
every token but the end of file, an element of a list where the list goes on. Where an expression or
an element does not begin, nothing is done.
-/
namespace PhpSyntax

open Grammar (Action php)

/-- Before an action that is entered at one of some kinds. -/
def Forecast.entry (kinds : KindSet) : Forecast := ⟨kinds, .all, none, none, 0⟩

namespace Act

variable {a : Action} {kinds : KindSet} {g : Stage}

/-- Whether an action takes a token wherever it is entered at one of some kinds, as far as the
forecasts tell. -/
def takes (a : Action) (kinds : KindSet) : Bool :=
  match a.forecasts Rule.promise Parse.stepsPerToken (.entry kinds) with
  | some os => os.all fun o => decide (o.cost < 0)
  | none => false

/-- Whether it finds a branch there. -/
def finds (a : Action) (kinds : KindSet) : Bool :=
  match a.forecasts Rule.promise Parse.stepsPerToken (.entry kinds) with
  | some os => os.all (·.found == some true)
  | none => false

/-- Steps cost nothing only if a token is taken for them. -/
theorem makes_of_takes (h : a.takes kinds = true) (hg : g.Proper)
    (hk : kinds.contains g.kind = true) :
    ∃ n g', Makes php a g n g' ∧ g'.tokens.length < g.tokens.length ∧
      (a.finds kinds = true → g'.found = .last) := by
  have hfit : (Forecast.entry kinds).Fits g :=
    ⟨hg, hk, KindSet.contains_all _, nofun, nofun, nofun⟩
  have ha : Affords Parse.stepsPerToken g.tokens.length (.entry kinds) g :=
    ⟨Nat.le_refl _, by show _ ≤ _ + (0 : Int); omega⟩
  unfold takes at h
  split at h
  · next os hos =>
    obtain ⟨n, g', p, hp, hm, hpf, -, hn⟩ := a.forecasts_sound (by decide)
      (fun _ _ _ _ h hf _ => Rule.promise_kept h hf) hos hfit ha
    have hcost : p.cost < 0 := of_decide_eq_true (List.all_eq_true.mp h p hp)
    have h0 : (Forecast.entry kinds).cost = 0 := rfl
    refine ⟨n, g', hm, ?_, fun hfinds => ?_⟩
    · simp only [Parse.stepsPerToken] at hn
      omega
    · rw [finds, hos] at hfinds
      exact (hpf.located (beq_iff_eq.mp (List.all_eq_true.mp hfinds p hp))).1
  · cases h

/-- Whether an action is over if nothing was found before. -/
def awaits : Action → Bool
  | .branch .found _ .done => true
  | _ => false

/-- Whether an action does nothing at tokens of a kind but tell that it found nothing. -/
def declines (k : Kind) : Action → Bool
  | .decline => true
  | .byKind choose => (choose k).declines k
  | .andThen a b => a.declines k && b.awaits
  | _ => false

theorem makes_of_awaits (h : a.awaits = true) (hg : g.found = .nothing) :
    ∃ n, Makes php a g n g := by
  unfold awaits at h
  split at h
  · refine ⟨2, .branch ?_⟩
    rw [if_neg (by rw [Stage.holds, Test.holds, hg]; exact Bool.false_ne_true)]
    exact .done
  · cases h

theorem makes_of_declines (h : a.declines g.kind = true) :
    ∃ n, Makes php a g n { g with found := .nothing } := by
  induction a generalizing g with
  | decline => exact ⟨1, .decline⟩
  | byKind choose ih =>
    obtain ⟨n, hm⟩ := ih g.kind h
    exact ⟨n + 1, .byKind hm⟩
  | andThen a b iha _ =>
    have hab := Bool.and_eq_true_iff.mp h
    obtain ⟨m, hm⟩ := iha hab.1
    obtain ⟨n, hn⟩ := makes_of_awaits (g := { g with found := .nothing }) hab.2 rfl
    exact ⟨m + n + 1, .andThen hm hn⟩
  | _ => cases h

end Act

namespace Grammar

/-- An expression declines at all tokens but those of its set. -/
theorem unary_declines : (Kind.all.all fun k =>
    expressionFirst.contains k || unary.declines k) = true := by
  decide +kernel

theorem climb_declines {k : Kind} (h : expressionFirst.contains k = false) (power : Nat) :
    (climb power).declines k = true := by
  have hk := List.all_eq_true.mp unary_declines k (Kind.mem_all k)
  rw [h, Bool.false_or] at hk
  show (unary.declines k && true) = true
  rw [hk, Bool.and_true]

/-- How tightly operators bind makes no difference to what an expression promises. -/
theorem promise_expression (power : Nat) :
    (Rule.expression power).promise = (Rule.expression 0).promise := by
  funext o
  rfl

theorem expression_takes (power : Nat) :
    (Act.call (.expression power)).takes expressionFirst = true := by
  rw [Act.takes, Act.forecasts, promise_expression]
  decide +kernel

theorem expression_finds (power : Nat) :
    (Act.call (.expression power)).finds expressionFirst = true := by
  rw [Act.finds, Act.forecasts, promise_expression]
  decide +kernel

theorem statement_takes :
    (Act.call .statement).takes (KindSet.recognized.diff (.single .eof)) = true := by
  decide +kernel

/-- Also at a brace, where the members of a class are over and none is looked for. -/
theorem member_takes : member.takes (KindSet.recognized.diff (.single .eof)) = true := by
  decide +kernel

/-! ## Lists in brackets -/

/-- What lists in brackets are made of. -/
inductive Listed where
  | argument
  | parameter
  | matchArm
  | directive
  /-- A variable that a closure takes over. -/
  | captured
  /-- An operand of `isset` or `unset`. -/
  | operand
  /-- A clause of a group of imports. -/
  | clause
  deriving DecidableEq

namespace Listed

/-- Tokens at which the list goes on. -/
def first : Listed → KindSet
  | argument => argumentFirst
  | parameter => parameterFirst
  | matchArm => armFirst
  | directive => .single .name
  | captured => .ofList [.amp, .variableName]
  | operand => expressionFirst
  | clause => useClauseFirst

def body : Listed → Action
  | argument => Grammar.argument
  | parameter => Grammar.parameter
  | matchArm => Grammar.matchArm
  | directive => Grammar.directive
  | captured => .optional .amp ++ .expect .variableName
  | operand => .call (.expression 0)
  | clause => .call .useClause

/-- How a list calls its element where one is absent. -/
def what : Listed → String
  | argument => "argument"
  | parameter => "parameter"
  | matchArm => "match arm"
  | directive => "declare directive"
  | captured => "variable"
  | operand => "expression"
  | clause => "name"

def list (e : Listed) : Action :=
  match e with
  | matchArm | clause => .delimited .leftBrace .rightBrace e.what e.first e.body
  | _ => .delimited .leftParen .rightParen e.what e.first e.body

/-- The rule in which the list stands. -/
def rule : Listed → Action
  | argument => argumentList
  | parameter => parameterList
  | matchArm => matchExpression
  | directive => declareStatement
  | captured => closureUse
  | operand => parenthesizedExpressions
  | clause => useClause

/-- That rule, with something else in place of the list. -/
def rule' (list : Action) : Listed → Action
  | argument => .node .argList list
  | parameter => .branch (.kind .leftParen) (.node .paramList list) (.missingKind .leftParen)
  | matchArm =>
    .node .matchExpr (
      .bump ++ .expect .leftParen ++ expression ++ .expect .rightParen ++
      .branch (.kind .leftBrace) list (.missingKind .leftBrace))
  | directive =>
    .node .declareStmt (
      .bump ++ .branch (.kind .leftParen) list (.missingKind .leftParen) ++
      .eat .semicolon .done (.whenNot (.kind .closeTag) embedded))
  | captured =>
    .node .closureUse (.bump ++ .branch (.kind .leftParen) list (.missingKind .leftParen))
  | operand => .branch (.kind .leftParen) list (.missingKind .leftParen)
  | clause =>
    .node .useClause (
      .when (.kindIn (.ofList [.functionKw, .constKw])) .bump ++
      requiredName ++
      .branch (.and (.kind .backslash) (.aheadIn 1 (.single .leftBrace)))
        (.bump ++ list)
        (.when (.kind .asKw) (.node .useAlias (.bump ++ name))))

theorem rule_eq (e : Listed) : e.rule = e.rule' e.list := by
  cases e <;> rfl

/-- What a list does where an element may stand. An operand is looked for whatever comes, all else
only at its first tokens. -/
def attempt : Listed → Action
  | operand => operand.body
  | e => .when (.kindIn e.first) e.body

/-- Whether there was an element, from the states before and after. -/
def answer (s s' : ParseState) : Listed → Bool
  | operand => s'.found.isSome
  | e => e.first.contains s.kind

theorem body_takes (e : Listed) : e.body.takes e.first = true := by
  cases e <;> decide +kernel

theorem body_orderly (e : Listed) : e.body.orderly = true := by
  cases e <;> decide +kernel

end Listed
end Grammar

namespace ParseState

variable {s s' : ParseState} {a : Action} {kinds : KindSet}

/-- A state as the stage of a branch in which nothing was recorded yet. -/
def stage (s : ParseState) : Stage :=
  ⟨s.tokens, [], s.diagnostics.toList, s.lastEnd, if s.found.isSome then .earlier else .nothing⟩

theorem records_stage (s : ParseState) : Records s.log.toList [] s s.stage where
  tokens := rfl
  diagnostics := rfl
  lastEnd := rfl
  found := by rw [stage]; cases s.found <;> rfl
  log := ⟨[], [], (List.append_nil _).symm, rfl, grown_nil⟩
  last h := by rw [stage] at h; cases hf : s.found <;> simp [hf] at h

theorem Sound.proper (h : s.Sound) : s.stage.Proper := ⟨h.ended, h.recognized, nofun⟩

/-- At least one token was taken between two states. -/
def Consumes (s s' : ParseState) : Prop := ∃ taken, taken ≠ [] ∧ s.tokens = taken ++ s'.tokens

/-- Nothing was taken, recorded or reported between two states. -/
def Keeps (s s' : ParseState) : Prop := s' = { s with found := s'.found }

/-- An action that is forecast to take a token does. -/
theorem Sound.consumes (h : s.Sound) (ha : a.takes kinds = true) (ho : a.orderly = true)
    (hk : kinds.contains s.kind = true) :
    ∃ n s', Reaches php n [.act a] s s' ∧ s.Consumes s' ∧
      (a.finds kinds = true → s'.found.isSome = true) := by
  obtain ⟨n, g', hm, hlt, hfinds⟩ := Act.makes_of_takes ha h.proper hk
  obtain ⟨s', hr, hreaches⟩ := hm.reaches s.records_stage
  have hall : g'.Conserves s.tokens [] := hm.conserves ho h.recognized rfl
  refine ⟨n, s', hreaches, ⟨g'.children.flatMap Sprout.tokens, fun hnil => ?_, ?_⟩, fun hf => ?_⟩
  · rw [Stage.Conserves, hnil] at hall
    exact absurd (congrArg List.length hall) (Nat.ne_of_lt hlt)
  · rw [hr.tokens]
    exact hall.symm
  · rw [hr.found, hfinds hf]
    rfl

/-- An action that declines does nothing else. -/
theorem keeps_of_declines (h : a.declines s.kind = true) :
    ∃ n s', Reaches php n [.act a] s s' ∧ s.Keeps s' ∧ s'.found = none := by
  obtain ⟨n, hm⟩ := Act.makes_of_declines (g := s.stage) h
  obtain ⟨s', hr, hreaches⟩ := hm.reaches s.records_stage
  obtain ⟨e, cs, hlog, hcs, hgrown⟩ := hr.log
  obtain rfl : [] = cs := hcs
  obtain rfl : e = [] := hgrown.nil_iff.mpr rfl
  have hfound : s'.found = none := Option.not_isSome_iff_eq_none.mp
    (by rw [hr.found]; exact Bool.false_ne_true)
  refine ⟨n, s', hreaches, ?_, hfound⟩
  obtain ⟨tokens, log, diagnostics, lastEnd, found⟩ := s'
  have htokens : tokens = s.tokens := hr.tokens
  have hdiagnostics : diagnostics = s.diagnostics := Array.toList_inj.mp hr.diagnostics
  have hlastEnd : lastEnd = s.lastEnd := hr.lastEnd
  have hlog : log = s.log := Array.toList_inj.mp (hlog.trans (List.append_nil _))
  rw [Keeps, htokens, hdiagnostics, hlastEnd, hlog]

/-- An expression is found exactly at the tokens that begin one, and takes one of them then. -/
theorem Sound.expression (h : s.Sound) (power : Nat) :
    ∃ n s', Reaches php n [.act (.call (.expression power))] s s' ∧
      s'.found.isSome = Grammar.expressionFirst.contains s.kind ∧
      if s'.found.isSome then s.Consumes s' else s.Keeps s' := by
  cases hk : Grammar.expressionFirst.contains s.kind with
  | true =>
    obtain ⟨n, s', hreaches, hconsumes, hfound⟩ :=
      h.consumes (Grammar.expression_takes power) rfl hk
    have hsome := hfound (Grammar.expression_finds power)
    exact ⟨n, s', hreaches, hsome, by rwa [if_pos hsome]⟩
  | false =>
    obtain ⟨n, s', hreaches, hkeeps, hnone⟩ :=
      keeps_of_declines (Grammar.climb_declines hk power)
    refine ⟨n + 1, s', .replace rfl hreaches, by rw [hnone]; rfl, ?_⟩
    rwa [hnone]

theorem Sound.contains (h : s.Sound) (hk : s.kind ≠ .eof) :
    (KindSet.recognized.diff (.single .eof)).contains s.kind = true := by
  have hskipped := h.recognized
  simp [hk, hskipped]

/-- An element of a list is found exactly at its first tokens, and takes one of them then. -/
theorem Sound.listed (h : s.Sound) (e : Grammar.Listed) :
    ∃ n s', Reaches php n [.act e.attempt] s s' ∧ e.answer s s' = e.first.contains s.kind ∧
      if e.answer s s' then s.Consumes s' else s.Keeps s' := by
  by_cases he : e = .operand
  · subst he
    exact h.expression 0
  have hattempt : e.attempt = .when (.kindIn e.first) e.body := by
    cases e <;> first | rfl | cases he rfl
  have hanswer (s' : ParseState) : e.answer s s' = e.first.contains s.kind := by
    cases e <;> first | rfl | cases he rfl
  have hholds : s.holds (.kindIn e.first) = e.first.contains s.kind := rfl
  cases hk : e.first.contains s.kind with
  | true =>
    obtain ⟨n, s', hreaches, hconsumes, -⟩ := h.consumes e.body_takes e.body_orderly hk
    refine ⟨n + 1, s', .replace ?_ hreaches, (hanswer s').trans hk, ?_⟩
    · rw [hattempt, Act.when, Pending.perform, hholds, hk]
      rfl
    · rwa [hanswer, if_pos hk]
  | false =>
    have hdone : Reaches php 1 [.act .done] s s := .single rfl
    refine ⟨2, s, .replace ?_ hdone, (hanswer s).trans hk, ?_⟩
    · rw [hattempt, Act.when, Pending.perform, hholds, hk]
      rfl
    · rw [hanswer, hk]
      rfl

end ParseState

variable {dialect : Dialect} {text : List Char} {todo : List (Pending Rule)} {s : ParseState}

/-- In every state of a parse the current token is not unrecognized input, and whatever rule is
entered there gets on. An expression, however tight, is found if and only if the token begins one;
it takes tokens then, and does nothing else. A statement and a member take tokens but at the end of
file. An element of a list in brackets takes tokens if it is found, and does nothing if not. -/
theorem Meets.gets_on (h : Meets (tokenize dialect text) todo s) :
    s.kind ≠ .skipped ∧
    (∀ power, ∃ n s', Reaches php n [.act (.call (.expression power))] s s' ∧
      s'.found.isSome = Grammar.expressionFirst.contains s.kind ∧
      if s'.found.isSome then s.Consumes s' else s.Keeps s') ∧
    (s.kind ≠ .eof → ∀ rule ∈ [Rule.statement, .member],
      ∃ n s', Reaches php n [.act (.call rule)] s s' ∧ s.Consumes s') ∧
    ∀ e : Grammar.Listed, e.rule = e.rule' e.list ∧
      ∃ n s', Reaches php n [.act e.attempt] s s' ∧
        s.holds (.kindIn (e.first ∪ .single .comma)) = (e.answer s s' || s.kind == .comma) ∧
        if e.answer s s' then s.Consumes s' else s.Keeps s' := by
  have hs := h.sound_tokenize
  refine ⟨hs.recognized, hs.expression,
    fun hk => List.forall_mem_cons.mpr ⟨?_, List.forall_mem_singleton.mpr ?_⟩,
    fun e => ⟨e.rule_eq, ?_⟩⟩
  · obtain ⟨n, s', hreaches, hconsumes, -⟩ :=
      hs.consumes Grammar.statement_takes rfl (hs.contains hk)
    exact ⟨n, s', hreaches, hconsumes⟩
  · obtain ⟨n, s', hreaches, hconsumes, -⟩ :=
      hs.consumes Grammar.member_takes (Grammar.php_orderly .member) (hs.contains hk)
    exact ⟨n + 1, s', .replace rfl hreaches, hconsumes⟩
  · obtain ⟨n, s', hreaches, hanswer, hresult⟩ := hs.listed e
    refine ⟨n, s', hreaches, ?_, hresult⟩
    rw [hanswer, ← KindSet.contains_single, ← KindSet.contains_union]
    rfl

/-- Whether a rule is to be entered next. -/
def Pending.enters (rule : Rule) : Pending Rule → Bool
  | .act (.call r) => r == rule
  | _ => false

theorem Pending.eq_of_enters {p : Pending Rule} {rule : Rule} (h : p.enters rule = true) :
    p = .act (.call rule) := by
  unfold enters at h
  split at h
  · rw [beq_iff_eq.mp h]
  · cases h

/-- Where the machine enters an expression that begins with a sign. -/
theorem gets_on_sign :
    ∃ todo s, Meets (tokenize {} "<?php -1;".toList) (.act (.call (.expression 0)) :: todo) s ∧
      s.kind = .minus ∧ ∃ n s', Reaches php n [.act (.call (.expression 0))] s s' ∧
        s'.found.isSome = true ∧ s.Consumes s' := by
  have hwalk : (Meets.walk 20 [.act Grammar.program]
      (ParseState.start (tokenize {} "<?php -1;".toList)).openBranch.2).any (fun x =>
        x.1.head?.any (·.enters (.expression 0)) && x.2.kind == .minus) = true := by
    decide +kernel
  obtain ⟨⟨todo, s⟩, hsome, htest⟩ := (Option.any_eq_true ..).mp hwalk
  obtain ⟨hhead, hkind⟩ := Bool.and_eq_true_iff.mp htest
  have hminus : s.kind = .minus := beq_iff_eq.mp hkind
  obtain ⟨p, hp, henters⟩ := (Option.any_eq_true ..).mp hhead
  obtain ⟨todo, rfl⟩ := List.head?_eq_some_iff.mp hp
  obtain rfl := Pending.eq_of_enters henters
  have hmeets := Meets.start.of_walk hsome
  obtain ⟨-, hexpression, -⟩ := hmeets.gets_on
  obtain ⟨n, s', hreaches, hfound, hresult⟩ := hexpression 0
  have hsome : s'.found.isSome = true := hfound.trans (by rw [hminus]; decide +kernel)
  exact ⟨todo, s, hmeets, hminus, n, s', hreaches, hsome, by rwa [if_pos hsome] at hresult⟩

end PhpSyntax
