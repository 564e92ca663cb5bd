import PhpSyntax.Proofs.Making
import PhpSyntax.Proofs.Replay

/-!
The machine realises the making of stages: its log holds the children of the innermost open branch
behind all that was recorded before that branch, and a run carries an action out in as many steps as
the relation says, without a fault.
-/
namespace PhpSyntax

open Log

variable {ρ : Type} {grammar : ρ → Act ρ} {pre e e' : List Event} {held cs cs' : List Sprout}
  {s s' : ParseState} {g g' : Stage}

/-- These events are what was recorded of some sprouts. -/
structure Grown (e : List Event) (cs : List Sprout) : Prop where
  segment : Segment e (cs.flatMap Sprout.listing)
  nil_iff : e = [] ↔ cs = []

theorem grown_nil : Grown [] [] := ⟨segment_nil, by simp⟩

theorem Grown.append (h : Grown e cs) (h' : Grown e' cs') : Grown (e ++ e') (cs ++ cs') where
  segment := by
    rw [List.flatMap_append]
    exact segment_append h.segment h'.segment
  nil_iff := by simp only [List.append_eq_nil_iff, h.nil_iff, h'.nil_iff]

theorem grown_token (t : Token) : Grown [.token t] [.token t] := by
  refine ⟨?_, by simp⟩
  rw [List.flatMap_singleton, Sprout.listing]
  exact segment_token t

theorem grown_missing (offset : Nat) : Grown [.missing] [.missing offset] := by
  refine ⟨?_, by simp⟩
  rw [List.flatMap_singleton, Sprout.listing]
  exact segment_missing

theorem grown_branch {events : Option Nat → List Event} {own : Nat} {c : Sprout}
    (h : Twig events own c.listing) : Grown (events none) [c] := by
  refine ⟨by rw [List.flatMap_singleton]; exact h.segment, ?_⟩
  have hl := List.length_pos_iff.mp (Nat.zero_lt_of_lt h.own_lt)
  simp [hl]

/-- `s` is a state of the machine at stage `g`. The log is `pre` and the events of the children but
those `held`, which lie in `pre`. A branch that was found last can still be wrapped. -/
structure Records (pre : List Event) (held : List Sprout) (s : ParseState) (g : Stage) : Prop where
  tokens : s.tokens = g.tokens
  diagnostics : s.diagnostics.toList = g.diagnostics
  lastEnd : s.lastEnd = g.lastEnd
  found : s.found.isSome = g.found.any
  log : ∃ e cs, s.log.toList = pre ++ e ∧ g.children = held ++ cs ∧ Grown e cs
  last : g.found = .last → ∃ e events own cs c, s.log.toList = pre ++ e ++ events none ∧
    g.children = held ++ cs ++ [c] ∧ Grown e cs ∧ Twig events own c.listing ∧
    s.found = some ⟨pre.length + e.length + own⟩

namespace Records

theorem kind (h : Records pre held s g) : s.kind = g.kind := by
  rw [ParseState.kind, Stage.kind, h.tokens]

theorem holds (h : Records pre held s g) (t : Test) : s.holds t = g.holds t := by
  rw [ParseState.holds, Stage.holds, h.tokens, h.found]

end Records

namespace ParseState

/-- The state after some tokens were recorded. -/
theorem recordSkipped_eq (s : ParseState) (ts : List Token) (h : s.tokens = ts) :
    s.recordSkipped ts =
      { tokens := ts.dropWhile Token.isSkipped
        log := s.log ++ ((ts.takeWhile Token.isSkipped).map Event.token).toArray
        diagnostics := s.diagnostics ++
          ((ts.takeWhile Token.isSkipped).filterMap (·.error)).toArray
        lastEnd := Token.endFrom s.lastEnd (ts.takeWhile Token.isSkipped)
        found := s.found } := by
  induction ts generalizing s with
  | nil =>
    obtain ⟨tokens, log, diagnostics, lastEnd, found⟩ := s
    subst h
    simp [recordSkipped, Token.endFrom]
  | cons t ts ih =>
    by_cases ht : t.kind = .skipped
    · rw [recordSkipped, if_pos ht, ih _ rfl]
      have hs : t.isSkipped = true := by simp [Token.isSkipped, ht]
      cases he : t.error <;> simp [record, hs, he, Log.token, Token.endFrom]
    · have hs : t.isSkipped = false := by simp [Token.isSkipped, ht]
      obtain ⟨tokens, log, diagnostics, lastEnd, found⟩ := s
      subst h
      rw [recordSkipped, if_neg ht]
      simp [hs, Token.endFrom]

/-- The events of unrecognized tokens in an error branch of their own. -/
def asideEvents : List Token → List Event
  | [] => []
  | t :: ts => .start (some .error) none :: (t :: ts).map .token ++ [.finish]

/-- Unrecognized input that comes next makes an error branch; all else stays. -/
theorem setSkippedAside_eq (s : ParseState) :
    s.setSkippedAside =
      { tokens := s.tokens.dropWhile Token.isSkipped
        log := s.log ++ (asideEvents (s.tokens.takeWhile Token.isSkipped)).toArray
        diagnostics := s.diagnostics ++
          ((s.tokens.takeWhile Token.isSkipped).filterMap (·.error)).toArray
        lastEnd := Token.endFrom s.lastEnd (s.tokens.takeWhile Token.isSkipped)
        found := s.found } := by
  obtain ⟨tokens, log, diagnostics, lastEnd, found⟩ := s
  cases tokens with
  | nil => simp [setSkippedAside, kind, Token.firstKind, asideEvents, Token.endFrom]
  | cons t ts =>
    by_cases ht : t.kind = .skipped
    · have hs : t.isSkipped = true := by simp [Token.isSkipped, ht]
      rw [setSkippedAside, if_pos (by simpa [kind, Token.firstKind] using ht)]
      simp only []
      rw [recordSkipped_eq _ _ rfl]
      simp [hs, asideEvents]
    · have hs : t.isSkipped = false := by simp [Token.isSkipped, ht]
      rw [setSkippedAside, if_neg (by simpa [kind, Token.firstKind] using ht)]
      simp [hs, asideEvents, Token.endFrom]

theorem grown_tokens (ts : List Token) : Grown (ts.map .token) (ts.map .token) := by
  induction ts with
  | nil => exact grown_nil
  | cons t ts ih => exact (grown_token t).append ih

theorem grown_asideEvents (junk : List Token) : Grown (asideEvents junk) (Sprout.aside junk) := by
  cases junk with
  | nil => exact grown_nil
  | cons t ts =>
    have h := twig_node .error (grown_tokens (t :: ts)).segment
    rw [← Sprout.listing_branch] at h
    exact grown_branch h

end ParseState

namespace Records

/-- Recording something behind the children. -/
theorem log_append (h : Records pre held s g) (he : Grown e cs) :
    ∃ e' cs', s.log.toList ++ e = pre ++ e' ∧ g.children ++ cs = held ++ cs' ∧ Grown e' cs' := by
  obtain ⟨e', cs', hl, hc, hs⟩ := h.log
  exact ⟨e' ++ e, cs' ++ cs, by rw [hl, List.append_assoc], by rw [hc, List.append_assoc],
    hs.append he⟩

/-- Taking a token of the machine takes one of the stage. -/
theorem advance (h : Records pre held s g) : Records pre held s.advance g.take := by
  obtain ⟨tokens, children, diagnostics, lastEnd, found⟩ := g
  obtain ⟨tokens', log, diagnostics', lastEnd', found'⟩ := s
  obtain rfl : tokens' = tokens := h.tokens
  cases tokens' with
  | nil => exact h
  | cons t rest =>
    by_cases ht : t.kind = .eof
    · simpa [ParseState.advance, Stage.take, ht] using h
    · have hlog := h.log_append ((grown_token t).append
        (ParseState.grown_asideEvents (rest.takeWhile Token.isSkipped)))
      simp only [ParseState.advance, Stage.take, ht, if_false, ParseState.setSkippedAside_eq]
      refine ⟨rfl, ?_, rfl, ?_, ?_, ?_⟩
      · have hd : diagnostics'.toList = diagnostics := h.diagnostics
        cases he : t.error <;> simp [ParseState.record, he, hd]
      · simpa [ParseState.record] using h.found
      · simpa [ParseState.record, Log.token] using hlog
      · simp

/-- Reporting an absent token. -/
theorem missing (h : Records pre held s g) (what : String) :
    Records pre held (s.missing what) (g.miss what) where
  tokens := h.tokens
  diagnostics := by simp [ParseState.missing, Stage.miss, h.diagnostics, h.lastEnd]
  lastEnd := h.lastEnd
  found := by simpa [Stage.miss, ParseState.missing] using h.found
  log := by
    have hl := h.log_append (grown_missing g.lastEnd)
    simpa [ParseState.missing, Stage.miss, Log.missing] using hl
  last := by simp [Stage.miss]

/-- Reporting a problem. -/
theorem report (h : Records pre held s g) (problem : Kind → Problem) :
    Records pre held (s.report problem) (g.report problem) := by
  obtain ⟨tokens, children, diagnostics, lastEnd, found⟩ := g
  obtain ⟨tokens', log, diagnostics', lastEnd', found'⟩ := s
  obtain rfl : tokens' = tokens := h.tokens
  cases tokens' with
  | nil => exact h
  | cons t rest =>
    have hd : diagnostics'.toList = diagnostics := h.diagnostics
    exact ⟨rfl, by simp [ParseState.report, Stage.report, hd], h.lastEnd, h.found, h.log, h.last⟩

/-- In a new branch nothing is recorded yet. -/
theorem openBranch (h : Records pre held s g) :
    Records (s.log.toList ++ [.tombstone]) [] s.openBranch.2 g.enter where
  tokens := h.tokens
  diagnostics := h.diagnostics
  lastEnd := h.lastEnd
  found := by simpa [Stage.enter, ParseState.openBranch] using h.found
  log := ⟨[], [], by simp [ParseState.openBranch, Log.start], rfl, grown_nil⟩
  last := by simp [Stage.enter]

theorem decline (h : Records pre held s g) :
    Records pre held { s with found := none } { g with found := .nothing } :=
  ⟨h.tokens, h.diagnostics, h.lastEnd, rfl, h.log, by simp⟩

/-- Closing a branch that begins behind `front`. -/
theorem closeBranch_eq {front : List Event} (kind : Kind)
    (h : s.log.toList = front ++ .tombstone :: e) :
    s.closeBranch ⟨front.length⟩ kind = .ok { s with
      log := (front ++ Event.start (some kind) none :: e ++ [Event.finish]).toArray
      found := some ⟨front.length⟩ } := by
  obtain ⟨tokens, log, diagnostics, lastEnd, found⟩ := s
  obtain rfl : log = (front ++ .tombstone :: e).toArray := by rw [← h]
  rw [ParseState.closeBranch, Log.complete_eq]

/-- Wrapping the branch at the end of a log. -/
theorem wrapBranch_eq {front : List Event} {events : Option Nat → List Event} {own : Nat}
    {t : List BuildStep} (h : s.log.toList = front ++ events none) (ht : Twig events own t) :
    s.wrapBranch ⟨front.length + own⟩ = .ok (⟨s.log.size⟩, { s with
      log := (front ++ events (some ((events none).length - own)) ++
        [Event.tombstone]).toArray }) := by
  obtain ⟨tokens, log, diagnostics, lastEnd, found⟩ := s
  obtain rfl : log = (front ++ events none).toArray := by rw [← h]
  have hprecede := ht.toStem.precede_eq (f := []) front
  rw [List.append_nil, List.append_nil, List.append_nil] at hprecede
  rw [ParseState.wrapBranch, hprecede, List.size_toArray]

/-- In a branch around the child `c` nothing else is recorded yet. -/
theorem wrapped {f : List Event} (h : Records pre held s g) (hf : g.found.any = true)
    (c : Sprout) :
    Records (f ++ [.tombstone]) [c] { s with log := (f ++ [Event.tombstone]).toArray }
      { g with children := [c], found := .earlier } where
  tokens := h.tokens
  diagnostics := h.diagnostics
  lastEnd := h.lastEnd
  found := h.found.trans hf
  log := ⟨[], [], by simp, rfl, grown_nil⟩
  last := by simp

/-- The end of a branch that was opened behind the children. -/
theorem close (h : Records pre held s g)
    (h' : Records (s.log.toList ++ [.tombstone]) [] s' g') (kind : Kind) :
    ∃ s'', s'.closeBranch ⟨s.log.size⟩ kind = .ok s'' ∧ Records pre held s'' (g.leave kind g') := by
  obtain ⟨e, cs, hl, hc, hs⟩ := h.log
  obtain ⟨e', cs', hl', hc', hs'⟩ := h'.log
  obtain rfl : g'.children = cs' := hc'
  have ht := twig_node kind hs'.segment
  rw [← Sprout.listing_branch] at ht
  refine ⟨_, closeBranch_eq (e := e') kind (by simpa using hl'), h'.tokens, h'.diagnostics,
    h'.lastEnd, rfl, ?_, fun _ => ?_⟩
  · exact ⟨_, _, by simp [hl], by simp [Stage.leave, hc], hs.append (grown_branch ht)⟩
  · refine ⟨e, _, 0, cs, .branch kind g'.children, ?_, by simp [Stage.leave, hc], hs, ht, ?_⟩
    · simp [hl]
    · simp [hl]

/-- The end of a branch around the child `c` that was last before. -/
theorem closeWrapped {front : List Event} {events : Option Nat → List Event} {own : Nat}
    {c : Sprout} (hs : Grown e cs) (ht : Twig events own c.listing)
    (hfront : front = pre ++ e ++ events (some ((events none).length - own)))
    (h' : Records (front ++ [.tombstone]) [c] s' g') (kind : Kind) :
    ∃ s'', s'.closeBranch ⟨front.length⟩ kind = .ok s'' ∧
      Records pre held s'' ({ g with children := held ++ cs }.leave kind g') := by
  obtain ⟨e', cs', hl', hc', hs'⟩ := h'.log
  have htw := twig_wrap kind ht hs'.segment
  have hlist : .startNode kind :: c.listing ++ cs'.flatMap Sprout.listing ++ [.finishNode] =
      (Sprout.branch kind g'.children).listing := by
    rw [Sprout.listing_branch, hc']
    simp
  rw [hlist] at htw
  have hlen := ht.length_eq (some ((events none).length - own))
  refine ⟨_, closeBranch_eq (e := e') kind (by simpa using hl'), h'.tokens, h'.diagnostics,
    h'.lastEnd, rfl, ?_, fun _ => ?_⟩
  · exact ⟨_, _, by simp [hfront], by simp [Stage.leave], hs.append (grown_branch htw)⟩
  · refine ⟨e, _, _, cs, .branch kind g'.children, ?_, by simp [Stage.leave], hs, htw, ?_⟩
    · simp [hfront]
    · simp [hfront, hlen, Nat.add_assoc]

/-- A branch in which nothing was recorded ends with its beginning. -/
theorem size_eq_iff (h' : Records (s.log.toList ++ [.tombstone]) [] s' g') :
    s.log.size + 1 = s'.log.size ↔ g'.children = [] := by
  obtain ⟨e', cs', hl', hc', hs'⟩ := h'.log
  obtain rfl : g'.children = cs' := hc'
  rw [← hs'.nil_iff, ← Array.length_toList, ← Array.length_toList, hl', ← List.length_eq_zero_iff]
  simp only [List.length_append, List.length_singleton]
  omega

/-- Giving up a branch in which nothing was recorded. -/
theorem abandon (h : Records pre held s g)
    (h' : Records (s.log.toList ++ [.tombstone]) [] s' g') (hn : g'.children = []) :
    ∃ s'', s'.abandonBranch ⟨s.log.size⟩ = .ok s'' ∧
      Records pre held s'' { g' with children := g.children, found := .nothing } := by
  have hsize := h'.size_eq_iff.mpr hn
  obtain ⟨tokens, log, diagnostics, lastEnd, found⟩ := s'
  obtain ⟨e', cs', hl', hc', hs'⟩ := h'.log
  obtain rfl : g'.children = cs' := hc'
  obtain rfl : e' = [] := hs'.nil_iff.mpr hn
  obtain rfl : log = (s.log.toList ++ [Event.tombstone]).toArray := by
    rw [← List.append_nil (_ ++ _), ← hl']
  refine ⟨⟨tokens, s.log, diagnostics, lastEnd, none⟩, ?_, h'.tokens, h'.diagnostics, h'.lastEnd,
    rfl, h.log, by simp⟩
  simp [ParseState.abandonBranch, Log.abandon, Event.tombstone]

end Records

/-- From `s` the machine carries `todo` out in `n` steps and is at `s'`, whatever else is
pending. -/
def Reaches (grammar : ρ → Act ρ) (n : Nat) (todo : List (Pending ρ)) (s s' : ParseState) : Prop :=
  ∀ count pending,
    s.run grammar (n + count) (todo ++ pending) = s'.run grammar count pending

namespace Reaches

variable {n m : Nat} {p : Pending ρ} {first todo rest : List (Pending ρ)} {s₁ s₂ : ParseState}

theorem refl : Reaches grammar 0 [] s s := fun count pending => by
  rw [Nat.zero_add, List.nil_append]

theorem step (h : p.perform grammar s = .ok (first, s₁))
    (h' : Reaches grammar n (first ++ rest) s₁ s') : Reaches grammar (n + 1) (p :: rest) s s' := by
  intro count pending
  rw [Nat.add_right_comm, List.cons_append, ParseState.run, h, ← h' count pending]
  rw [List.append_assoc]

theorem append (h : Reaches grammar m todo s s₁) (h' : Reaches grammar n rest s₁ s₂) :
    Reaches grammar (m + n) (todo ++ rest) s s₂ := by
  intro count pending
  rw [Nat.add_assoc, List.append_assoc, h, h']

/-- A step that leaves nothing to do. -/
theorem single (h : p.perform grammar s = .ok ([], s')) : Reaches grammar 1 [p] s s' :=
  step h refl

/-- An action that is replaced by others. -/
theorem replace (h : p.perform grammar s = .ok (first, s₁)) (h' : Reaches grammar n first s₁ s') :
    Reaches grammar (n + 1) [p] s s' :=
  step h (by rwa [List.append_nil])

/-- A branch: an action that opens it, the actions in it and its end. -/
theorem branch {c : Pending ρ} (h : p.perform grammar s = .ok (todo ++ [c], s₁))
    (h' : Reaches grammar n todo s₁ s₂) (hc : c.perform grammar s₂ = .ok ([], s')) :
    Reaches grammar (n + 2) [p] s s' :=
  replace h (h'.append (single hc))

end Reaches

/-- The machine carries an action out as the relation says, without a fault. -/
theorem Makes.reaches {a : Act ρ} {n : Nat} (h : Makes grammar a g n g')
    (hs : Records pre held s g) :
    ∃ s', Records pre held s' g' ∧ Reaches grammar n [.act a] s s' := by
  induction h generalizing pre held s with
  | done => exact ⟨s, hs, .single rfl⟩
  | require ht => exact ⟨s, hs, .single (by rw [Pending.perform, hs.holds, if_pos ht])⟩
  | bump => exact ⟨_, hs.advance, .single rfl⟩
  | missing => exact ⟨_, hs.missing _, .single rfl⟩
  | decline => exact ⟨_, hs.decline, .single rfl⟩
  | andThen _ _ ih₁ ih₂ =>
    obtain ⟨s₁, hs₁, hr₁⟩ := ih₁ hs
    obtain ⟨s₂, hs₂, hr₂⟩ := ih₂ hs₁
    exact ⟨s₂, hs₂, .replace rfl (hr₁.append hr₂)⟩
  | @recover problem stop g n g' hk _ ih =>
    obtain ⟨s₁, hs₁, hr₁⟩ := ih (hs.openBranch.report problem).advance
    obtain ⟨s₂, hc, hs₂⟩ := hs.close hs₁ .error
    refine ⟨s₂, hs₂, .branch (c := .close ⟨s.log.size⟩ .error) ?_ hr₁ ?_⟩
    · rw [Pending.perform, if_neg (by rwa [hs.kind])]
      rfl
    · rw [Pending.perform, hc]
      rfl
  | @node kind _ _ _ _ _ ih =>
    obtain ⟨s₁, hs₁, hr₁⟩ := ih hs.openBranch
    obtain ⟨s₂, hc, hs₂⟩ := hs.close hs₁ kind
    refine ⟨s₂, hs₂, .branch (c := .close ⟨s.log.size⟩ kind) rfl hr₁ ?_⟩
    rw [Pending.perform, hc]
    rfl
  | @nodeIfAny kind _ _ _ _ _ hn ih =>
    obtain ⟨s₁, hs₁, hr₁⟩ := ih hs.openBranch
    obtain ⟨s₂, hc, hs₂⟩ := hs.close hs₁ kind
    refine ⟨s₂, hs₂, .branch (c := .closeIfAny ⟨s.log.size⟩ kind) rfl hr₁ ?_⟩
    rw [Pending.perform, if_neg (mt hs₁.size_eq_iff.mp hn), hc]
    rfl
  | @nodeIfNone kind _ _ _ _ _ hn ih =>
    obtain ⟨s₁, hs₁, hr₁⟩ := ih hs.openBranch
    obtain ⟨s₂, hc, hs₂⟩ := hs.abandon hs₁ hn
    refine ⟨s₂, hs₂, .branch (c := .closeIfAny ⟨s.log.size⟩ kind) rfl hr₁ ?_⟩
    rw [Pending.perform, if_pos (hs₁.size_eq_iff.mpr hn), hc]
    rfl
  | @wrap kind body g n g' before k cs hf hl _ ih =>
    obtain ⟨e, events, own, cs', c, hlog, hc, he, ht, hfound⟩ := hs.last hf
    obtain ⟨rfl, hb⟩ := List.append_inj' (hl.symm.trans hc) rfl
    obtain rfl : .branch k cs = c := List.singleton_inj.mp hb
    have hw := Records.wrapBranch_eq hlog ht
    have hopen := Records.wrapped (f := pre ++ e ++ events (some ((events none).length - own)))
      hs (by rw [hf]; rfl) (.branch k cs)
    obtain ⟨s₁, hs₁, hr₁⟩ := ih hopen
    obtain ⟨s₂, hclose, hs₂⟩ := Records.closeWrapped (g := g) he ht rfl hs₁ kind
    have hsize : s.log.size = (pre ++ e ++ events (some ((events none).length - own))).length := by
      have hlen := ht.length_eq (some ((events none).length - own))
      rw [← Array.length_toList, hlog]
      simp only [List.length_append, hlen]
    rw [List.length_append] at hw
    refine ⟨s₂, hs₂, .branch (c := .close ⟨s.log.size⟩ kind) ?_ hr₁ ?_⟩
    · rw [Pending.perform, hfound]
      dsimp only
      rw [hw, hfound]
      rfl
    · rw [Pending.perform, hsize, hclose]
      rfl
  | branch _ ih =>
    obtain ⟨s₁, hs₁, hr₁⟩ := ih hs
    exact ⟨s₁, hs₁, .replace (by rw [Pending.perform, hs.holds]) hr₁⟩
  | byKind _ ih =>
    obtain ⟨s₁, hs₁, hr₁⟩ := ih hs
    exact ⟨s₁, hs₁, .replace (by rw [Pending.perform, hs.kind]) hr₁⟩
  | stop ht => exact ⟨s, hs, .single (by rw [Pending.perform, hs.holds, ht]; rfl)⟩
  | again ht _ _ ih₁ ih₂ =>
    obtain ⟨s₁, hs₁, hr₁⟩ := ih₁ hs
    obtain ⟨s₂, hs₂, hr₂⟩ := ih₂ hs₁
    refine ⟨s₂, hs₂, .replace ?_ (hr₁.append hr₂)⟩
    rw [Pending.perform, hs.holds, if_pos ht]
    rfl
  | call _ ih =>
    obtain ⟨s₁, hs₁, hr₁⟩ := ih hs
    exact ⟨s₁, hs₁, .replace rfl hr₁⟩

end PhpSyntax
