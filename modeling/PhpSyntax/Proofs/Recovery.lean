import PhpSyntax.Proofs.Framing
import PhpSyntax.Proofs.Leaves

/-!
Recovery comes to an end where the rule around it can go on. A run of unexpected input has, behind
its first token, none that the rule around it stops at; the token after the run is one of those, or
the end of file.
-/
namespace PhpSyntax

/-- The tokens that end a run of unexpected input among the children of such a branch. -/
def Kind.resync? : Kind → Option KindSet
  | .sourceFile | .compoundStmt | .stmtList => some Grammar.statementRecovery
  | .switchBlock => some Grammar.caseEnd
  | .memberList => some Grammar.memberRecovery
  | _ => none

theorem Kind.resync_missing {k : Kind} {stop : KindSet} (h : k.resync? = some stop) :
    stop.contains .missing = false := by
  unfold resync? at h
  split at h
  all_goals cases h
  all_goals decide

/-! ## What the grammar recovers to -/

/-- Whether all that the rule recovers in the innermost open branch ends at the tokens `stop`; where
there are no such tokens, it may end anywhere. -/
def Rule.resumes (stop : Option KindSet) : Rule → Bool
  | statement => stop.all (· == Grammar.statementRecovery)
  | member => stop.all (· == Grammar.memberRecovery)
  | _ => stop.isNone

/-- Whether all that the action recovers in the innermost open branch ends at the tokens `stop`, and
at those of their kinds in the branches that it makes. -/
def Act.resumes (stop : Option KindSet) : Act Rule → Bool
  | done | require _ | bump | missing _ | decline => true
  | andThen a b | branch _ a b => a.resumes stop && b.resumes stop
  | recover _ set => stop.all (· == set)
  | node kind body | nodeIfAny kind body => kind != .error && body.resumes kind.resync?
  | wrap kind body => kind.resync?.isNone && body.resumes none
  | repeatWhile _ body => body.resumes stop
  | byKind choose => Kind.all.all fun k => (choose k).resumes stop
  | call rule => rule.resumes stop

namespace Grammar

theorem operation_resumes (k : Kind) (power : Nat) : (operation k power).resumes none = true := by
  unfold operation
  split <;> rfl

theorem operators_resumes (power : Nat) : (operators power).resumes none = true := by
  apply List.all_eq_true.mpr
  intro k _
  dsimp only
  split
  · rfl
  · next b hb =>
    split
    · rfl
    · have hk : (operatorNode k).resync? = none := by
        unfold operatorNode
        split
        · rfl
        · split <;> rfl
      show ((_ && (operation k b.right).resumes none) && true) = true
      rw [operation_resumes, hk]
      rfl

theorem unary_resumes : unary.resumes none = true := by decide +kernel

/-- In the branches that the rules make, runs of unexpected input end as they should. -/
theorem php_resumes_none (rule : Rule) : (php rule).resumes none = true := by
  cases rule with
  | statement => show statement.resumes none = true; decide +kernel
  | expression power =>
    show (unary.resumes none && _) = true
    rw [unary_resumes]
    rfl
  | operators power => exact operators_resumes power
  | postfixes => show postfixes.resumes none = true; decide +kernel
  | variableExpr => show variableExpression.resumes none = true; decide +kernel
  | useClause => show useClause.resumes none = true; decide +kernel
  | type => show type.resumes none = true; decide +kernel
  | member => show member.resumes none = true; decide +kernel

/-- Only statements and members recover in the branch that they are called in. -/
theorem php_resumes {stop : Option KindSet} {rule : Rule} (h : rule.resumes stop = true) :
    (php rule).resumes stop = true := by
  cases stop with
  | none => exact php_resumes_none rule
  | some set =>
    cases rule with
    | statement =>
      obtain rfl : set = statementRecovery := beq_iff_eq.mp h
      show statement.resumes (some statementRecovery) = true
      decide +kernel
    | member =>
      obtain rfl : set = memberRecovery := beq_iff_eq.mp h
      show member.resumes (some memberRecovery) = true
      decide +kernel
    | _ => cases h

end Grammar

/-! ## Sprouts -/

namespace Sprout

/-- The children of an error branch, with the tokens `rest` to come: unrecognized input, or a run of
unexpected input that ends at the tokens `stop`, or no run at all. -/
def Recovers (stop : KindSet) (rest : List Token) : List Sprout → Prop
  | token t :: more => t.kind = .skipped ∨
    (∀ u, token u ∈ more → stop.contains u.kind = false) ∧
      ∃ k, (rest.map (·.kind)).find? (· != .skipped) = some k ∧
        (k = .eof ∨ stop.contains k = true)
  | missing _ :: _ => False
  | _ => True

/-- The children of a branch whose runs of unexpected input end at the tokens `stop`; `rest` comes
after them. In the branches among them runs end as their kinds say. -/
inductive Synced : Option KindSet → List Token → List Sprout → Prop where
  | nil {stop rest} : Synced stop rest []
  | token {stop rest t cs} (tail : Synced stop rest cs) : Synced stop rest (token t :: cs)
  | missing {stop rest o cs} (tail : Synced stop rest cs) : Synced stop rest (missing o :: cs)
  | branch {stop rest kind ds cs} (inner : Synced kind.resync? (cs.flatMap tokens ++ rest) ds)
    (recovers : kind = .error → ∀ set ∈ stop, Recovers set (cs.flatMap tokens ++ rest) ds)
    (tail : Synced stop rest cs) : Synced stop rest (branch kind ds :: cs)

variable {stop : Option KindSet} {rest : List Token} {cs ds : List Sprout} {kind : Kind}

theorem Synced.append (h : Synced stop (ds.flatMap tokens ++ rest) cs) (h' : Synced stop rest ds) :
    Synced stop rest (cs ++ ds) := by
  generalize hr : ds.flatMap tokens ++ rest = ahead at h
  induction h with
  | nil => exact h'
  | token _ ih => exact .token (ih h' hr)
  | missing _ ih => exact .missing (ih h' hr)
  | branch inner recovers _ _ ih =>
    subst hr
    rw [← List.append_assoc, ← List.flatMap_append] at inner recovers
    exact .branch inner recovers (ih h' rfl)

theorem Synced.split (h : Synced stop rest (cs ++ ds)) :
    Synced stop (ds.flatMap tokens ++ rest) cs ∧ Synced stop rest ds := by
  induction cs with
  | nil => exact ⟨.nil, h⟩
  | cons c cs ih =>
    cases h with
    | token tail => exact ⟨.token (ih tail).1, (ih tail).2⟩
    | missing tail => exact ⟨.missing (ih tail).1, (ih tail).2⟩
    | branch inner recovers tail =>
      simp only [List.append_eq, List.flatMap_append, List.append_assoc] at inner recovers
      exact ⟨.branch inner recovers (ih tail).1, (ih tail).2⟩

/-- Where runs may end anywhere, nothing is asked of them. -/
theorem Synced.free (h : Synced stop rest cs) : Synced none rest cs := by
  induction h with
  | nil => exact .nil
  | token _ ih => exact .token ih
  | missing _ ih => exact .missing ih
  | branch inner _ _ _ ih => exact .branch inner nofun ih

theorem synced_tokens (stop : Option KindSet) (rest ts : List Token) :
    Synced stop rest (ts.map token) := by
  induction ts with
  | nil => exact .nil
  | cons t ts ih => exact .token ih

theorem synced_aside {ts : List Token} (h : ∀ t ∈ ts, t.kind = .skipped) :
    Synced stop rest (aside ts) := by
  cases ts with
  | nil => exact .nil
  | cons t ts =>
    exact .branch (synced_tokens ..) (fun _ _ _ => .inl (h t (List.mem_cons_self ..))) .nil

end Sprout

/-! ## Stages -/

namespace Stage

open Sprout (Synced Recovers)

/-- A stage in a branch whose runs of unexpected input end at the tokens `stop`. -/
structure Resumes (stop : Option KindSet) (g : Stage) : Prop where
  ended : Token.Ended g.tokens
  recognized : g.kind ≠ .skipped
  synced : Synced stop g.tokens g.children

variable {stop : Option KindSet} {g g' : Stage}

theorem Resumes.take (h : g.Resumes stop) : g.take.Resumes stop := by
  rcases take_cases g with he | ⟨t, rest, ht, hk, he⟩
  · rwa [he]
  · refine ⟨?_, kind_take_ne_skipped h.recognized, ?_⟩
    · rw [he]
      exact ((ht ▸ h.ended).tail hk).dropSkipped
    · have hs := h.synced
      rw [ht] at hs
      rw [he]
      refine .append ?_ (.token (Sprout.synced_aside fun u hu => (Token.mem_takeSkipped hu).2))
      simpa [Sprout.tokens, Sprout.flatMap_tokens_aside] using hs

theorem Resumes.miss (h : g.Resumes stop) (what : String) : (g.miss what).Resumes stop :=
  ⟨h.ended, h.recognized, .append (by simpa [Stage.miss, Sprout.tokens] using h.synced)
    (.missing .nil)⟩

theorem Resumes.enter (h : g.Resumes stop) {stop' : Option KindSet} : g.enter.Resumes stop' :=
  ⟨h.ended, h.recognized, .nil⟩

theorem Resumes.report (h : g.Resumes stop) (problem : Kind → Problem) :
    (g.report problem).Resumes stop := by
  refine ⟨?_, ?_, ?_⟩
  · rw [report_tokens]
    exact h.ended
  · rw [report_kind]
    exact h.recognized
  · rw [report_tokens, report_children]
    exact h.synced

/-- A branch is closed behind some children. -/
theorem Resumes.leave {all : List Token} {before : List Sprout} {kind : Kind}
    (hb : Synced stop all before) (hall : Conserves all [] g') (h' : g'.Resumes kind.resync?)
    (hr : kind = .error → ∀ set ∈ stop, Recovers set g'.tokens g'.children) :
    ({ g with children := before }.leave kind g').Resumes stop := by
  refine ⟨h'.ended, h'.recognized, .append ?_ (.branch h'.synced hr .nil)⟩
  rw [Conserves, List.nil_append] at hall
  rwa [List.flatMap_singleton, Sprout.tokens_branch, leave_tokens, hall]

/-- A run that was begun with a reported token ends as it should. -/
theorem recovers_run {set : KindSet} {t : Token} {junk : List Token} {more : List Sprout}
    (hc : g.children = .token t :: Sprout.aside junk ++ more)
    (hout : ∀ u, .token u ∈ more → set.contains u.kind = false) (he : Token.Ended g.tokens)
    (hg : g.kind ≠ .skipped) (hend : g.kind = .eof ∨ set.contains g.kind = true) :
    Recovers set g.tokens g.children := by
  rw [hc]
  refine .inr ⟨fun u hu => ?_, g.kind, ?_, hend⟩
  · exact hout u ((List.mem_append.mp hu).resolve_left Sprout.token_not_mem_aside)
  · obtain ⟨u, rest, hu⟩ := List.exists_cons_of_ne_nil he.ne_nil
    rw [kind, hu] at hg ⊢
    exact List.find?_cons_of_pos (bne_iff_ne.mpr hg)

end Stage

section Makes

variable {a body : Act Rule} {g g' : Stage} {n : Nat} {stop : Option KindSet} {kind : Kind}

/-- Actions lose no token. -/
theorem Makes.conserves {all : List Token} (h : Makes Grammar.php a g n g')
    (ha : a.orderly = true) (hg : g.kind ≠ .skipped) (hall : g.Conserves all []) :
    g'.Conserves all [] :=
  (Stage.conserves_steady all).makes Grammar.php_orderly h ha hg hall

/-- A branch that a rule makes is no run of unexpected input. -/
theorem Makes.resumes_node (inner : Makes Grammar.php body g.enter n g')
    (ha : body.orderly = true) (hk : kind ≠ .error) (hg : g.Resumes stop)
    (hg' : g'.Resumes kind.resync?) : (g.leave kind g').Resumes stop := by
  have hall : g'.Conserves g.tokens [] := inner.conserves ha hg.recognized rfl
  apply Stage.Resumes.leave hg.synced hall hg'
  intro he
  exact absurd he hk

/-- Where no branch is made of what was recorded, no token was taken. -/
theorem Makes.resumes_nothing (inner : Makes Grammar.php body g.enter n g')
    (ha : body.orderly = true) (hn : g'.children = []) (hg : g.Resumes stop) :
    Stage.Resumes stop { g' with children := g.children, found := .nothing } := by
  have hall : g'.Conserves g.tokens [] := inner.conserves ha hg.recognized rfl
  have htokens : g'.tokens = g.tokens := by
    rwa [Stage.Conserves, hn] at hall
  constructor
  · exact htokens ▸ hg.ended
  · show Token.firstKind g'.tokens ≠ .skipped
    rw [htokens]
    exact hg.recognized
  · exact htokens ▸ hg.synced

/-- A run of unexpected input ends as it should. -/
theorem Makes.resumes_run {problem : Kind → Problem} {set : KindSet} (hk : g.kind ≠ .eof)
    (loop : Makes Grammar.php (.takeUpTo set) (g.enter.report problem).take n g')
    (hset : ∀ set' ∈ stop, set' = set) (hg : g.Resumes stop)
    (hg' : g'.Resumes Kind.error.resync?) : (g.leave .error g').Resumes stop := by
  obtain ⟨t, rest, ht⟩ := Stage.exists_token hk
  have htk : t.kind ≠ .eof := by rwa [Stage.kind, ht] at hk
  have htokens : (g.enter.report problem).tokens = t :: rest := (Stage.report_tokens ..).trans ht
  have hreported : (g.enter.report problem).Resumes none := hg.enter.report problem
  have hall : g'.Conserves g.tokens [] := by
    apply loop.conserves rfl hreported.take.recognized
    apply Stage.Conserves.take
    simp [Stage.Conserves, Stage.enter]
  obtain ⟨more, hm, hout, hend⟩ := loop.takeUpTo_children
  rw [Stage.take_children_eq htokens htk, Stage.report_children] at hm
  apply Stage.Resumes.leave hg.synced hall hg'
  intro _ set' hset'
  obtain rfl := hset set' hset'
  exact Stage.recovers_run hm hout hg'.ended hg'.recognized hend

/-- What is wrapped is a branch, so that no run begins with it. -/
theorem Makes.resumes_wrapped {before cs : List Sprout} {k : Kind}
    (hl : g.children = before ++ [.branch k cs])
    (inner : Makes Grammar.php body { g with children := [.branch k cs], found := .earlier } n g')
    (ha : body.orderly = true) (hg : g.Resumes stop) (hg' : g'.Resumes kind.resync?) :
    ({ g with children := before }.leave kind g').Resumes stop := by
  have hs := hg.synced
  rw [hl] at hs
  have hall : g'.Conserves ([Sprout.branch k cs].flatMap Sprout.tokens ++ g.tokens) [] :=
    inner.conserves ha hg.recognized rfl
  apply Stage.Resumes.leave hs.split.1 hall hg'
  intro _ set _
  obtain ⟨own, hown, -⟩ := inner.framed (Stage.over_nil (by simp))
  rw [hown.children]
  trivial

/-- Whatever an action recovers, it recovers to the tokens that it is asked to. -/
theorem Makes.resumes (h : Makes Grammar.php a g n g') (ha : a.orderly = true)
    (hr : a.resumes stop = true) (hg : g.Resumes stop) : g'.Resumes stop := by
  induction h generalizing stop with
  | done | require | stop => exact hg
  | decline => exact ⟨hg.ended, hg.recognized, hg.synced⟩
  | bump => exact hg.take
  | missing => exact hg.miss _
  | andThen _ _ ih₁ ih₂ =>
    have ha := Bool.and_eq_true_iff.mp ha
    have hr := Bool.and_eq_true_iff.mp hr
    exact ih₂ ha.2 hr.2 (ih₁ ha.1 hr.1 hg)
  | @recover problem set g n g' hk loop ih =>
    have hset : ∀ set' ∈ stop, set' = set := by
      intro set' hset'
      exact beq_iff_eq.mp ((Option.all_eq_true _ _).mp hr set' hset')
    exact loop.resumes_run hk hset hg (ih rfl rfl (hg.enter.report problem).take)
  | node inner ih | nodeIfAny inner _ ih =>
    simp only [Act.orderly, Bool.and_eq_true] at ha
    simp only [Act.resumes, Bool.and_eq_true, bne_iff_ne] at hr
    exact inner.resumes_node ha.2 hr.1 hg (ih ha.2 hr.2 hg.enter)
  | nodeIfNone inner hn _ =>
    simp only [Act.orderly, Bool.and_eq_true] at ha
    exact inner.resumes_nothing ha.2 hn hg
  | @wrap kind body g n g' before k cs _ hl inner ih =>
    simp only [Act.orderly, Bool.and_eq_true] at ha
    simp only [Act.resumes, Bool.and_eq_true, Option.isNone_iff_eq_none] at hr
    have hs := hg.synced
    rw [hl] at hs
    have hg' : g'.Resumes none := ih ha.2 hr.2 ⟨hg.ended, hg.recognized, hs.split.2.free⟩
    exact inner.resumes_wrapped hl ha.2 hg (hr.1 ▸ hg')
  | branch _ ih =>
    have ha := Bool.and_eq_true_iff.mp ha
    have hr := Bool.and_eq_true_iff.mp hr
    split at ih
    · exact ih ha.1 hr.1 hg
    · exact ih ha.2 hr.2 hg
  | byKind _ ih =>
    apply ih
    · exact List.all_eq_true.mp ha _ (Kind.mem_all _)
    · exact List.all_eq_true.mp hr _ (Kind.mem_all _)
    · exact hg
  | again _ _ _ ih₁ ih₂ => exact ih₂ ha hr (ih₁ ha hr hg)
  | call _ ih => exact ih (Grammar.php_orderly _) (Grammar.php_resumes hr) hg

end Makes

/-! ## Trees -/

namespace Visit

/-- The kinds of the tokens of the text that some visits meet. -/
def tokenKinds (vs : List Visit) : List Kind :=
  ((vs.filterMap tip?).filter (·.kind != .missing)).map (·.kind)

theorem tokenKinds_append (vs vs' : List Visit) :
    tokenKinds (vs ++ vs') = tokenKinds vs ++ tokenKinds vs' := by
  simp [tokenKinds]

@[simp] theorem tokenKinds_enter (n : Node) (vs : List Visit) :
    tokenKinds (enter n :: vs) = tokenKinds vs := rfl

@[simp] theorem tokenKinds_leave (n : Node) (vs : List Visit) :
    tokenKinds (leave n :: vs) = tokenKinds vs := rfl

/-- The first token of the text that is not unrecognized is the first leaf of such a kind. -/
theorem exists_first {vs : List Visit} {k : Kind}
    (h : (tokenKinds vs).find? (· != .skipped) = some k) :
    ∃ t, (vs.filterMap tip?).find? (fun t => t.kind != .skipped && t.kind != .missing) = some t ∧
      t.kind = k := by
  rw [tokenKinds, List.find?_map, List.find?_filter, Option.map_eq_some_iff] at h
  obtain ⟨t, ht, hk⟩ := h
  refine ⟨t, ?_, hk⟩
  rw [← ht]
  congr 1
  funext t
  exact Bool.eq_iff_iff.mpr (by simp [and_comm])

end Visit

/-- Where the node is a run of unexpected input, and `after` is what a walk goes on with behind it:
of the tokens that the branch around stops at, none is in the run behind its first token, and the
first token after the run is one of them or the end of file. -/
def Node.Resyncs (e : Node) (after : List Visit) : Prop :=
  ∀ parent stop first more, e.kind = .error → e.parent? = some parent →
    parent.kind.resync? = some stop → e.children = .leaf first :: more → first.kind ≠ .skipped →
    (∀ l, .leaf l ∈ more → stop.contains l.kind = false) ∧
    ∃ t, (after.filterMap Visit.tip?).find?
        (fun t => t.kind != .skipped && t.kind != .missing) = some t ∧
      (t.kind = .eof ∨ stop.contains t.kind = true)

namespace Sprout.Shows

variable {offset : Nat} {text : List Char} {cs : List Sprout} {es : List Element}
  {rest : List Token} {stop : KindSet}

/-- A leaf among some elements shows a token among the sprouts, unless it is missing. -/
theorem leaf_mem (h : Shows offset text cs es) {l : Leaf} (hl : .leaf l ∈ es) :
    (∃ t, .token t ∈ cs ∧ l.kind = t.kind) ∨ l.kind = .missing := by
  induction h with
  | nil => cases hl
  | token _ _ _ ih =>
    rcases List.mem_cons.mp hl with hl | hl
    · cases hl
      exact .inl ⟨_, List.mem_cons_self .., rfl⟩
    · exact (ih hl).imp_left fun ⟨t, ht, hk⟩ => ⟨t, List.mem_cons_of_mem _ ht, hk⟩
  | missing _ ih =>
    rcases List.mem_cons.mp hl with hl | hl
    · cases hl
      exact .inr rfl
    · exact (ih hl).imp_left fun ⟨t, ht, hk⟩ => ⟨t, List.mem_cons_of_mem _ ht, hk⟩
  | branch _ _ _ ih =>
    rcases List.mem_cons.mp hl with hl | hl
    · cases hl
    · exact (ih hl).imp_left fun ⟨t, ht, hk⟩ => ⟨t, List.mem_cons_of_mem _ ht, hk⟩

theorem tokenKinds_visits (h : Shows offset text cs es)
    (hk : ∀ t ∈ cs.flatMap Sprout.tokens, t.kind ≠ .missing) (n : Node) :
    Visit.tokenKinds (es.flatMap (Element.visits n)) =
      (cs.flatMap Sprout.tokens).map (·.kind) := by
  induction h generalizing n with
  | nil => rfl
  | @token offset t index lead text cs es begins wide tail ih =>
    simp only [List.flatMap_cons, Sprout.tokens, Element.visits_leaf, List.singleton_append] at hk ⊢
    obtain ⟨ht, hts⟩ := List.forall_mem_cons.mp hk
    rw [List.map_cons, ← ih hts n]
    simp [Visit.tokenKinds, Visit.tip?, Tip.kind, ht]
  | missing _ ih =>
    simp only [List.flatMap_cons, Sprout.tokens, Element.visits_leaf, List.singleton_append,
      List.nil_append] at hk ⊢
    rw [← ih hk n]
    simp [Visit.tokenKinds, Visit.tip?, Tip.kind]
  | branch _ _ ihi iht =>
    simp only [List.flatMap_cons, Sprout.tokens_branch, Element.visits_branch] at hk ⊢
    rw [Visit.tokenKinds_append, List.cons_append, Visit.tokenKinds_enter, Visit.tokenKinds_append,
      List.map_append, ihi fun t ht => hk t (List.mem_append_left _ ht),
      iht fun t ht => hk t (List.mem_append_right _ ht), Visit.tokenKinds_leave]
    exact congrArg (· ++ _) (List.append_nil _)

/-- A node that shows an error branch is a run that ends where the branch does. -/
theorem resyncs_node (h : Shows offset text cs es) {e : Node} {after : List Visit}
    (he : e.children = es) (hr : e.kind = .error → ∀ parent stop, e.parent? = some parent →
      parent.kind.resync? = some stop → Recovers stop rest cs)
    (ha : Visit.tokenKinds after = rest.map (·.kind)) : e.Resyncs after := by
  intro parent stop first more hk hparent hstop hchildren hfirst
  have hrun := hr hk parent stop hparent hstop
  rw [he] at hchildren
  subst hchildren
  cases h with
  | token _ _ tail =>
    obtain ⟨hout, k, hnext, hend⟩ := hrun.resolve_left hfirst
    constructor
    · intro l hl
      rcases tail.leaf_mem hl with ⟨t, ht, hkind⟩ | hmissing
      · rw [hkind]
        exact hout t ht
      · rw [hmissing]
        exact Kind.resync_missing hstop
    · obtain ⟨t, ht, rfl⟩ := Visit.exists_first (ha ▸ hnext)
      exact ⟨t, ht, hend⟩
  | missing => exact hrun.elim

/-- What holds of sprouts holds of the nodes below one that shows them. -/
theorem resyncs (h : Shows offset text cs es) {n : Node}
    (hs : Synced n.kind.resync? rest cs) (hk : ∀ t ∈ cs.flatMap Sprout.tokens, t.kind ≠ .missing)
    {vs : List Visit} (hv : Visit.tokenKinds vs = rest.map (·.kind)) :
    ∀ e ∈ es.flatMap (Element.nodes n), ∃ before after,
      es.flatMap (Element.visits n) ++ vs = before ++ .leave e :: after ∧ e.Resyncs after := by
  induction h generalizing n rest vs with
  | nil => nofun
  | token _ _ _ ih =>
    cases hs with
    | token hs =>
      simp only [List.flatMap_cons, Sprout.tokens, Element.nodes_leaf, Element.visits_leaf,
        List.nil_append, List.singleton_append] at hk ⊢
      intro e he
      obtain ⟨before, after, hsplit, hafter⟩ := ih hs (List.forall_mem_cons.mp hk).2 hv e he
      exact ⟨_ :: before, after, congrArg _ hsplit, hafter⟩
  | missing _ ih =>
    cases hs with
    | missing hs =>
      simp only [List.flatMap_cons, Sprout.tokens, Element.nodes_leaf, Element.visits_leaf,
        List.nil_append, List.singleton_append] at hk ⊢
      intro e he
      obtain ⟨before, after, hsplit, hafter⟩ := ih hs hk hv e he
      exact ⟨_ :: before, after, congrArg _ hsplit, hafter⟩
  | @branch offset kind index ds fs front text cs es inner tail ihi iht =>
    cases hs with
    | branch hinner hrecovers htail =>
      simp only [List.flatMap_cons, Sprout.tokens_branch] at hk
      obtain ⟨hkd, hkc⟩ := List.forall_mem_append.mp hk
      let b : Branch := ⟨kind, index, .ofLength offset (Text.width front)⟩
      let after := es.flatMap (Element.visits n) ++ vs
      have hafter : Visit.tokenKinds after = (cs.flatMap Sprout.tokens ++ rest).map (·.kind) := by
        rw [Visit.tokenKinds_append, tail.tokenKinds_visits hkc, hv, List.map_append]
      have hvisits : (Element.branch b fs :: es).flatMap (Element.visits n) ++ vs =
          .enter (n.child b fs) ::
            (fs.flatMap (Element.visits (n.child b fs)) ++ .leave (n.child b fs) :: after) := by
        simp [Element.visits_branch, after]
      rw [List.flatMap_cons, Element.nodes_branch, hvisits, List.cons_append]
      have hbranch : (n.child b fs).Resyncs after := by
        apply inner.resyncs_node rfl _ hafter
        intro hkind parent stop hparent hstop
        obtain rfl := Option.some.inj hparent
        exact hrecovers hkind stop hstop
      intro e he
      rcases List.mem_cons.mp he with rfl | he
      · exact ⟨.enter _ :: fs.flatMap _, after, rfl, hbranch⟩
      rcases List.mem_append.mp he with he | he
      · have hleave : Visit.tokenKinds (.leave (n.child b fs) :: after) = _ := hafter
        obtain ⟨before, after', hsplit, hresyncs⟩ := ihi (n := n.child b fs) hinner hkd hleave e he
        exact ⟨_ :: before, after', congrArg _ hsplit, hresyncs⟩
      · obtain ⟨before, after', hsplit, hresyncs⟩ := iht htail hkc hv e he
        refine ⟨.enter (n.child b fs) :: (fs.flatMap (Element.visits (n.child b fs)) ++
          .leave (n.child b fs) :: before), after', ?_, hresyncs⟩
        simp [after, hsplit]

end Sprout.Shows

/-- Recovery resynchronises. Wherever in a tree a node is left, what a walk meets after that tells
that the node is no run of unexpected input, or one that ends where the branch around goes on. -/
theorem recovery_resynchronises (dialect : Dialect) (text : List Char) : ∃ p,
    parse dialect text = .ok p ∧
    ∀ e ∈ p.tree.root.descendants, ∃ before after,
      p.tree.root.visits = before ++ .leave e :: after ∧ e.Resyncs after := by
  obtain ⟨-, p, g, last, -, -, hp, h⟩ := exists_parse dialect text
  obtain ⟨n, hm⟩ := h.makes
  have hstart : (Stage.start (tokenize dialect text)).Resumes (some Grammar.statementRecovery) :=
    ⟨tokenize_ended dialect text, firstKind_tokenize dialect text, .nil⟩
  have hg : g.Resumes (some Grammar.statementRecovery) := hm.resumes rfl rfl hstart
  have hsynced : Sprout.Synced p.tree.root.kind.resync? [] (g.children ++ [.token last]) := by
    rw [h.kind]
    have hs := hg.synced
    rw [h.tokens_left hm] at hs
    refine .append ?_ (.token .nil)
    rwa [List.append_nil, List.flatMap_singleton, Sprout.tokens]
  have hend : Visit.tokenKinds [.leave p.tree.root] = ([] : List Token).map (·.kind) := rfl
  have hbelow := h.shows.resyncs hsynced h.kind_ne_missing hend
  have hroot : p.tree.root.Resyncs [] := by
    intro parent stop first more hk
    rw [h.kind] at hk
    cases hk
  refine ⟨p, hp, ?_⟩
  intro e he
  rw [Node.descendants_eq] at he
  rw [Node.visits_eq]
  rcases List.mem_cons.mp he with rfl | he
  · exact ⟨_, [], rfl, hroot⟩
  · obtain ⟨before, after, hsplit, hafter⟩ := hbelow e he
    exact ⟨.enter p.tree.root :: before, after, congrArg _ hsplit, hafter⟩

end PhpSyntax
