import PhpSyntax.Proofs.Invariant
import PhpSyntax.Proofs.Tokens

/-!
What holds of the children that a stage has: together with the tokens to come they are all tokens,
each child begins where the one before it ends, the diagnostics are those that the children account
for, and unrecognized input lies in error branches of its own.
-/
namespace PhpSyntax

namespace Token

/-- Each token begins where the one before it ends, the first one at an offset. -/
def Chained : (offset : Nat) → List Token → Prop
  | _, [] => True
  | offset, t :: ts => t.offset = offset ∧ Chained t.range.stop ts

variable {offset : Nat} {t : Token} {ts : List Token} {text rest : List Char}

theorem Tiles.chained (h : Tiles offset text ts rest) : Chained offset ts := by
  induction h with
  | nil => trivial
  | cons _ begins _ _ ih => exact ⟨begins, ih⟩

theorem Chained.dropSkipped (h : Chained offset ts) :
    Chained (endFrom offset (ts.takeWhile isSkipped)) (ts.dropWhile isSkipped) := by
  induction ts generalizing offset with
  | nil => trivial
  | cons t ts ih =>
    by_cases ht : t.isSkipped = true
    · rw [List.takeWhile_cons_of_pos ht, List.dropWhile_cons_of_pos ht]
      exact ih h.2
    · rw [List.takeWhile_cons_of_neg ht, List.dropWhile_cons_of_neg ht]
      exact h

theorem Chained.takeSkipped (h : Chained offset ts) : Chained offset (ts.takeWhile isSkipped) := by
  induction ts generalizing offset with
  | nil => trivial
  | cons t ts ih =>
    by_cases ht : t.isSkipped = true
    · rw [List.takeWhile_cons_of_pos ht]
      exact ⟨h.1, ih h.2⟩
    · rw [List.takeWhile_cons_of_neg ht]
      trivial

theorem isSkipped_iff : t.isSkipped = true ↔ t.kind = .skipped := beq_iff_eq

/-- What is taken along with a token is unrecognized. -/
theorem mem_takeSkipped (h : t ∈ ts.takeWhile isSkipped) : t ∈ ts ∧ t.kind = .skipped :=
  ⟨(List.takeWhile_sublist _).subset h,
    isSkipped_iff.mp (List.all_eq_true.mp List.all_takeWhile t h)⟩

end Token

namespace Sprout

/-! ## Places -/

/-- Sprouts that stand one after the other from one offset to another. -/
inductive Stands : (start : Nat) → List Sprout → (stop : Nat) → Prop where
  | nil {o} : Stands o [] o
  | token {o t cs e} (begins : t.offset = o) (tail : Stands t.range.stop cs e) :
    Stands o (token t :: cs) e
  | missing {o cs e} (tail : Stands o cs e) : Stands o (missing o :: cs) e
  | branch {o kind ds m cs e} (inner : Stands o ds m) (tail : Stands m cs e) :
    Stands o (branch kind ds :: cs) e

variable {o o' e : Nat} {cs ds : List Sprout} {kind : Kind}

theorem Stands.append (h : Stands o cs o') (h' : Stands o' ds e) : Stands o (cs ++ ds) e := by
  induction h with
  | nil => exact h'
  | token begins _ ih => exact .token begins (ih h')
  | missing _ ih => exact .missing (ih h')
  | branch inner _ _ ih => exact .branch inner (ih h')

theorem Stands.eq (h : Stands o [] e) : o = e := by
  cases h
  rfl

theorem Stands.split (h : Stands o (cs ++ ds) e) : ∃ m, Stands o cs m ∧ Stands m ds e := by
  induction cs generalizing o with
  | nil => exact ⟨o, .nil, h⟩
  | cons c cs ih =>
    cases h with
    | token begins tail =>
      obtain ⟨m, h₁, h₂⟩ := ih tail
      exact ⟨m, .token begins h₁, h₂⟩
    | missing tail =>
      obtain ⟨m, h₁, h₂⟩ := ih tail
      exact ⟨m, .missing h₁, h₂⟩
    | branch inner tail =>
      obtain ⟨m, h₁, h₂⟩ := ih tail
      exact ⟨m, .branch inner h₁, h₂⟩

theorem Stands.node (h : Stands o cs o') (h' : Stands o' ds e) (kind : Kind) :
    Stands o (cs ++ [Sprout.branch kind ds]) e :=
  h.append (.branch h' .nil)

theorem stands_tokens {ts : List Token} (h : Token.Chained o ts) :
    Stands o (ts.map Sprout.token) (Token.endFrom o ts) := by
  induction ts generalizing o with
  | nil => exact .nil
  | cons t ts ih => exact .token h.1 (ih h.2)

theorem stands_aside {ts : List Token} (h : Token.Chained o ts) :
    Stands o (aside ts) (Token.endFrom o ts) := by
  cases ts with
  | nil => exact .nil
  | cons t ts => exact .branch (stands_tokens h) .nil

theorem flatMap_tokens_map (ts : List Token) : (ts.map Sprout.token).flatMap tokens = ts := by
  induction ts with
  | nil => rfl
  | cons t ts ih => rw [List.map_cons, List.flatMap_cons, ih, tokens, List.singleton_append]

theorem flatMap_tokens_aside (ts : List Token) : (aside ts).flatMap tokens = ts := by
  cases ts with
  | nil => rfl
  | cons t ts =>
    rw [aside, List.flatMap_singleton, tokens_branch, flatMap_tokens_map]

/-! ## Reports -/

/-- The report of recovered input: where its first token is. -/
def heading (kind : Kind) (children : List Sprout) : List (Severity × Range) :=
  match kind, children with
  | .error, token t :: _ => if t.kind = .skipped then [] else [(.error, t.range)]
  | _, _ => []

/-- What the diagnostics say of a sprout: how bad something is, and where. -/
def reports : Sprout → List (Severity × Range)
  | token t => (t.error.map fun d => (d.severity, d.range)).toList
  | missing o => [(.error, .point o)]
  | branch kind children => heading kind children ++ children.flatMap reports

theorem heading_of_ne_error (h : kind ≠ .error) (cs : List Sprout) : heading kind cs = [] := by
  unfold heading
  split
  · exact absurd rfl h
  · rfl

theorem reports_branch (h : kind ≠ .error) (cs : List Sprout) :
    (branch kind cs).reports = cs.flatMap reports := by
  rw [reports, heading_of_ne_error h, List.nil_append]

theorem flatMap_reports_map (ts : List Token) : (ts.map Sprout.token).flatMap reports =
    (ts.filterMap (·.error)).map fun d => (d.severity, d.range) := by
  induction ts with
  | nil => rfl
  | cons t ts ih =>
    rw [List.map_cons, List.flatMap_cons, ih, reports]
    cases ht : t.error <;> simp [ht]

theorem flatMap_reports_aside {ts : List Token} (h : ∀ t ∈ ts, t.kind = .skipped) :
    (aside ts).flatMap reports =
      (ts.filterMap (·.error)).map fun d => (d.severity, d.range) := by
  cases ts with
  | nil => rfl
  | cons t ts =>
    have ht := h t (List.mem_cons_self ..)
    rw [aside, List.flatMap_singleton, reports, ← flatMap_reports_map, List.map_cons, heading,
      if_pos ht, List.nil_append]

/-! ## Unrecognized input -/

/-- An error branch that begins with unrecognized input. -/
def isAside : Sprout → Bool
  | branch .error (token t :: _) => t.kind == .skipped
  | _ => false

/-- The children of an error branch that holds more than unrecognized input: recovered input, which
begins with a token that was reported, or a branch that something is missing after. -/
def Recovered (children : List Sprout) : Prop :=
  (∃ t rest, t.kind ≠ .skipped ∧ children = token t :: rest) ∨
    ∃ k ds o, children = [branch k ds, missing o]

/-- Sprouts that rules make: unrecognized input lies in error branches of its own, and none of them
is the first child of a branch. -/
inductive Made : Sprout → Prop where
  | token {t : Token} (recognized : t.kind ≠ .skipped) (lawful : t.Lawful) : Made (token t)
  | missing (o : Nat) : Made (missing o)
  | aside {t : Token} {ts : List Token} (skipped : ∀ u ∈ t :: ts, u.kind = .skipped)
    (lawful : ∀ u ∈ t :: ts, u.Lawful) : Made (branch .error ((t :: ts).map Sprout.token))
  | branch {kind : Kind} {children : List Sprout} (isNode : kind.isNode = true)
    (recovered : kind = .error → Recovered children)
    (first : ∀ c ∈ children.head?, c.isAside = false) (made : ∀ c ∈ children, Made c) :
    Made (branch kind children)

/-- Only unrecognized input is put aside. -/
theorem isAside_branch (h : kind = .error → Recovered cs) : (branch kind cs).isAside = false := by
  unfold isAside
  split
  · next t ts heq =>
    obtain ⟨rfl, rfl⟩ := Sprout.branch.inj heq
    rcases h rfl with ⟨u, us, hu, he⟩ | ⟨k, ds, o, he⟩
    · obtain ⟨ht, -⟩ := List.cons.inj he
      obtain rfl := Sprout.token.inj ht
      exact beq_eq_false_iff_ne.mpr hu
    · cases he
  · rfl

theorem made_aside {ts : List Token} (hs : ∀ t ∈ ts, t.kind = .skipped)
    (hl : ∀ t ∈ ts, t.Lawful) : ∀ c ∈ aside ts, c.Made := by
  cases ts with
  | nil => simp [aside]
  | cons t ts =>
    simp only [aside, List.mem_singleton, forall_eq]
    exact .aside hs hl

end Sprout

namespace Stage

variable {g g' : Stage}

/-- The children and the tokens to come are all tokens. -/
def Conserves (all before : List Token) (g : Stage) : Prop :=
  before ++ g.children.flatMap Sprout.tokens ++ g.tokens = all

/-- The children stand between an offset and the end of the token taken last, where the tokens to
come begin. -/
def Placed (start : Nat) (g : Stage) : Prop :=
  Sprout.Stands start g.children g.lastEnd ∧ Token.Chained g.lastEnd g.tokens

/-- The diagnostics are some earlier ones and those of the children. -/
def Reported (earlier : List (Severity × Range)) (g : Stage) : Prop :=
  g.diagnostics.map (fun d => (d.severity, d.range)) =
    earlier ++ g.children.flatMap Sprout.reports

/-- The children are made by rules, and a branch that was found is none of unrecognized input. -/
structure WellMade (g : Stage) : Prop where
  made : ∀ c ∈ g.children, c.Made
  first : ∀ c ∈ g.children.head?, c.isAside = false
  last : g.found = .last → ∃ before kind cs, g.children = before ++ [.branch kind cs] ∧
    (Sprout.branch kind cs).isAside = false
  lawful : ∀ t ∈ g.tokens, t.Lawful

section Conserves

variable {all before : List Token}

theorem Conserves.take (h : Conserves all before g) : Conserves all before g.take := by
  rcases take_cases g with he | ⟨t, rest, ht, -, he⟩
  · rwa [he]
  · rw [Conserves, ht] at h
    rw [he, ← h]
    simp [Conserves, Sprout.tokens, Sprout.flatMap_tokens_aside]

theorem conserves_steady (all : List Token) : Steady (Conserves all) where
  take h _ := h.take
  miss what h := by simpa [Conserves, miss, Sprout.tokens] using h
  decline h := h
  node {before g} h := by
    refine ⟨before ++ g.children.flatMap Sprout.tokens, by simpa [Conserves, enter] using h,
      fun g' h' => ⟨fun kind _ _ => ?_, fun hn => ?_⟩⟩
    · simpa [Conserves, leave, Sprout.tokens] using h'
    · simpa [Conserves, hn] using h'
  recover {before g t rest problem} h _ _ _ _ := by
    refine ⟨before ++ g.children.flatMap Sprout.tokens, ?_, fun g' more _ h' => ?_⟩
    · refine Conserves.take ?_
      simpa [Conserves, enter] using h
    · simpa [Conserves, leave, Sprout.tokens] using h'
  wrap {before g bs k cs} h _ hc := by
    refine ⟨before ++ bs.flatMap Sprout.tokens, ?_, fun g' kind h' _ _ => ?_, fun what => ?_⟩
    · simpa [Conserves, hc] using h
    · simpa [Conserves, leave, Sprout.tokens] using h'
    · simpa [Conserves, leave, miss, hc, Sprout.tokens] using h

end Conserves

section Placed

variable {start : Nat}

theorem Placed.take (h : Placed start g) : Placed start g.take := by
  rcases take_cases g with he | ⟨t, rest, ht, -, he⟩
  · rwa [he]
  · obtain ⟨hs, hc⟩ := h
    rw [ht] at hc
    rw [he]
    obtain ⟨hstop, hrest⟩ := hc
    have hd := hrest.dropSkipped
    refine ⟨hs.append (.token hstop (Sprout.stands_aside ?_)), hd⟩
    exact hrest.takeSkipped

theorem placed_steady : Steady Placed where
  take h _ := h.take
  miss what h := ⟨h.1.append (.missing .nil), h.2⟩
  decline h := h
  node {start g} h :=
    ⟨g.lastEnd, ⟨.nil, h.2⟩, fun g' h' => ⟨fun kind _ _ => ⟨h.1.node h'.1 kind, h'.2⟩, fun hn =>
      ⟨(hn ▸ h'.1).eq ▸ h.1, h'.2⟩⟩⟩
  recover {start g t rest problem} h _ _ _ _ := by
    refine ⟨g.lastEnd, Placed.take ?_, fun g' more _ h' => ⟨h.1.node h'.1 .error, h'.2⟩⟩
    rw [Placed, report_children, report_lastEnd, report_tokens]
    exact ⟨.nil, h.2⟩
  wrap {start g bs k cs} h _ hc := by
    have hs := h.1
    rw [hc] at hs
    obtain ⟨m, h₁, h₂⟩ := hs.split
    exact ⟨m, ⟨h₂, h.2⟩, fun g' kind h' _ _ => ⟨h₁.node h'.1 kind, h'.2⟩,
      fun what => ⟨h₁.node (h₂.append (.missing .nil)) .error, h.2⟩⟩

end Placed

section Reported

variable {earlier : List (Severity × Range)}

theorem Reported.take (h : Reported earlier g) : Reported earlier g.take := by
  rcases take_cases g with he | ⟨t, rest, ht, -, he⟩
  · rwa [he]
  · have hs : ∀ u ∈ rest.takeWhile Token.isSkipped, u.kind = .skipped := fun u hu =>
      (Token.mem_takeSkipped hu).2
    rw [Reported] at h
    rw [he]
    simp only [Reported, List.map_append, h, List.flatMap_append, List.flatMap_cons,
      Sprout.flatMap_reports_aside hs, List.filterMap_cons, Sprout.reports]
    cases t.error <;> simp

theorem reported_steady : Steady Reported where
  take h _ := h.take
  miss what h := by
    rw [Reported] at h
    simp [Reported, miss, h, Sprout.reports, Diagnostic.of, Problem.severity]
  decline h := h
  node {earlier g} h := by
    refine ⟨earlier ++ g.children.flatMap Sprout.reports, by simpa [Reported, enter] using h,
      fun g' h' => ⟨fun kind _ hk => ?_, fun hn => ?_⟩⟩
    · simpa [Reported, leave, Sprout.reports_branch hk] using h'
    · simpa [Reported, hn] using h'
  recover {earlier g t rest problem} h ht he hk hs := by
    have hr := report_eq (g := g.enter) problem ht
    obtain ⟨junk, hj⟩ := take_children (g := g.enter.report problem)
      ((report_tokens ..).trans ht) he
    refine ⟨earlier ++ g.children.flatMap Sprout.reports ++ [(.error, t.range)], Reported.take ?_,
      fun g' more hm h' => ?_⟩
    · rw [hr]
      rw [Reported] at h
      simp [Reported, enter, h, Diagnostic.of, hs]
    · rw [hj, report_children] at hm
      replace hm : g'.children = .token t :: (junk ++ more) := hm
      rw [Reported, hm] at h'
      simp [Reported, leave, h', hm, Sprout.reports, Sprout.heading, hk]
  wrap {earlier g bs k cs} h _ hc := by
    refine ⟨earlier ++ bs.flatMap Sprout.reports, ?_, fun g' kind h' _ hk => ?_, fun what => ?_⟩
    · simpa [Reported, hc] using h
    · simpa [Reported, leave, Sprout.reports_branch hk] using h'
    · rw [Reported, hc] at h
      simp [Reported, leave, miss, h, Sprout.reports, Sprout.heading, Diagnostic.of,
        Problem.severity]

end Reported

section WellMade

theorem WellMade.take (h : WellMade g) (hg : g.kind ≠ .skipped) : WellMade g.take := by
  rcases take_cases g with he | ⟨t, rest, ht, -, he⟩
  · rwa [he]
  · have hk : t.kind ≠ .skipped := by rwa [kind, ht] at hg
    have hl := h.lawful
    rw [ht] at hl
    rw [he]
    refine ⟨fun c hc => ?_, fun c hc => ?_, by simp, fun u hu => ?_⟩
    · simp only [List.mem_append, List.mem_cons] at hc
      rcases hc with hc | rfl | hc
      · exact h.made c hc
      · exact .token hk (hl t (List.mem_cons_self ..))
      · refine Sprout.made_aside (fun u hu => (Token.mem_takeSkipped hu).2) (fun u hu => ?_) c hc
        exact hl u (List.mem_cons_of_mem t (Token.mem_takeSkipped hu).1)
    · cases hcs : g.children with
      | nil =>
        obtain rfl : Sprout.token t = c := by simpa [hcs] using hc
        rfl
      | cons d ds => exact h.first c (by simpa [hcs] using hc)
    · exact hl u (List.mem_cons_of_mem t ((List.dropWhile_sublist _).subset hu))

theorem WellMade.miss (h : WellMade g) (what : String) : WellMade (g.miss what) := by
  refine ⟨fun c hc => ?_, fun c hc => ?_, by simp [Stage.miss], h.lawful⟩
  · rcases List.mem_append.mp hc with hc | hc
    · exact h.made c hc
    · rw [List.mem_singleton.mp hc]
      exact .missing _
  · cases hcs : g.children with
    | nil =>
      obtain rfl : Sprout.missing g.lastEnd = c := by simpa [Stage.miss, hcs] using hc
      rfl
    | cons d ds => exact h.first c (by simpa [Stage.miss, hcs] using hc)

/-- Behind the children a branch is closed that is none of unrecognized input. -/
theorem WellMade.leave {before : List Sprout} (hb : ∀ c ∈ before, c.Made)
    (hf : ∀ c ∈ before.head?, c.isAside = false) (h' : WellMade g') {kind : Kind}
    (hn : kind.isNode = true) (hr : kind = .error → Sprout.Recovered g'.children) :
    WellMade ({ g with children := before }.leave kind g') := by
  have ha := Sprout.isAside_branch hr
  refine ⟨fun c hc => ?_, fun c hc => ?_, fun _ => ⟨_, _, _, rfl, ha⟩, h'.lawful⟩
  · rcases List.mem_append.mp hc with hc | hc
    · exact hb c hc
    · rw [List.mem_singleton.mp hc]
      exact .branch hn hr h'.first h'.made
  · cases before with
    | nil =>
      obtain rfl : Sprout.branch kind g'.children = c := by simpa [Stage.leave] using hc
      exact ha
    | cons d ds => exact hf c (by simpa [Stage.leave] using hc)

theorem wellMade_steady : Steady fun (_ : Unit) => WellMade where
  take := WellMade.take
  miss what h := h.miss what
  decline h := ⟨h.made, h.first, by simp, h.lawful⟩
  node {_ g} h := by
    refine ⟨(), ⟨by simp [enter], by simp [enter], by simp [enter], h.lawful⟩,
      fun g' h' => ⟨fun kind hn hk => ?_, fun _ => ⟨h.made, h.first, by simp, h'.lawful⟩⟩⟩
    exact .leave h.made h.first h' hn fun he => absurd he hk
  recover {_ g t rest problem} h ht he hk _ := by
    have hi : WellMade (g.enter.report problem) := by
      rw [report_eq problem ((enter_tokens g).trans ht)]
      exact ⟨by simp [enter], by simp [enter], by simp [enter], h.lawful⟩
    have hg : (g.enter.report problem).kind ≠ .skipped := by
      rw [kind, report_tokens, enter_tokens, ht]
      exact hk
    obtain ⟨junk, hj⟩ := take_children (g := g.enter.report problem)
      ((report_tokens ..).trans ht) he
    refine ⟨(), hi.take hg, fun g' more hm h' => .leave h.made h.first h' rfl fun _ => .inl ?_⟩
    rw [hm, hj, report_children]
    exact ⟨t, junk ++ more, hk, rfl⟩
  wrap {_ g bs k cs} h hf hc := by
    obtain ⟨before, kind, ds, hds, ha⟩ := h.last hf
    obtain ⟨rfl, hb⟩ := List.append_inj' (hc.symm.trans hds) rfl
    obtain ⟨rfl, rfl⟩ := Sprout.branch.inj (List.singleton_inj.mp hb)
    have hm := h.made
    have hfirst := h.first
    rw [hc] at hm hfirst
    have hinner : WellMade { g with children := [.branch k cs], found := .earlier } := by
      refine ⟨fun c hc => hm c (List.mem_append_right _ hc), fun c hc => ?_, by simp, h.lawful⟩
      obtain rfl : Sprout.branch k cs = c := by simpa using hc
      exact ha
    have hmade : ∀ c ∈ bs, c.Made := fun c hc => hm c (List.mem_append_left _ hc)
    have hhead : ∀ c ∈ bs.head?, c.isAside = false := fun c hc => hfirst c (by
      cases bs with
      | nil => cases hc
      | cons b bs => exact hc)
    exact ⟨(), hinner, fun g' kind h' hn hk => .leave hmade hhead h' hn fun he => absurd he hk,
      fun what => .leave hmade hhead (hinner.miss what) rfl fun _ => .inr ⟨k, cs, g.lastEnd, rfl⟩⟩

end WellMade

end Stage
end PhpSyntax
