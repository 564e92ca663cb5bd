import PhpSyntax.Proofs.Growth

/-!
The gist of a stage: what is left of it without unrecognized input, trivia and places. Rules see
nothing else, so from stages of one gist an action leads to stages of one gist.
-/
namespace PhpSyntax

/-- The bare form of a tree: its kinds. -/
inductive Outline where
  | leaf (kind : Kind)
  | branch (kind : Kind) (children : List Outline)

namespace Token

/-- Kinds and texts of tokens, without unrecognized ones. -/
def significant (ts : List Token) : List (Kind × List Char) :=
  (ts.filter (!·.isSkipped)).map fun t => (t.kind, t.text)

variable {t : Token} {ts us : List Token}

theorem significant_skipped (h : t.kind = .skipped) : significant (t :: ts) = significant ts := by
  rw [significant, List.filter_cons_of_neg (by simp [isSkipped, h]), significant]

theorem significant_cons (h : t.kind ≠ .skipped) :
    significant (t :: ts) = (t.kind, t.text) :: significant ts := by
  rw [significant, List.filter_cons_of_pos (by simp [isSkipped, h]), List.map_cons, significant]

theorem significant_dropSkipped (ts : List Token) :
    significant (ts.dropWhile isSkipped) = significant ts := by
  induction ts with
  | nil => rfl
  | cons t ts ih =>
    by_cases ht : t.isSkipped = true
    · rw [List.dropWhile_cons_of_pos ht, ih, significant_skipped (isSkipped_iff.mp ht)]
    · rw [List.dropWhile_cons_of_neg ht]

/-- Looking ahead sees only significant tokens. -/
theorem kindAt_eq (n : Nat) (ts : List Token) :
    kindAt n ts = ((significant ts)[n]?.map Prod.fst).getD .eof := by
  induction ts generalizing n with
  | nil => cases n <;> rfl
  | cons t ts ih =>
    by_cases ht : t.kind = .skipped
    · rw [kindAt_skipped n ht, significant_skipped ht, ih]
    · rw [significant_cons ht]
      cases n with
      | zero => rw [kindAt_cons_zero ht]; rfl
      | succ n => rw [kindAt_cons_succ n ht, ih, List.getElem?_cons_succ]

variable (hts : firstKind ts ≠ .skipped) (hus : firstKind us ≠ .skipped)
  (h : significant ts = significant us)

include hts hus h

theorem firstKind_congr : firstKind ts = firstKind us := by
  rw [← kindAt_zero hts, ← kindAt_zero hus, kindAt_eq, kindAt_eq, h]

theorem spells_congr (w : String) : spells ts w = spells us w := by
  cases ts with
  | nil =>
    cases us with
    | nil => rfl
    | cons u us =>
      rw [significant_cons hus] at h
      cases h
  | cons t ts =>
    rw [significant_cons hts] at h
    cases us with
    | nil => cases h
    | cons u us =>
      rw [significant_cons hus] at h
      have htext : t.text = u.text := congrArg Prod.snd (List.cons.inj h).1
      rw [spells, spells, htext]

/-- A test sees only significant tokens, where the current one is significant. -/
theorem holds_congr (found : Bool) (test : Test) : test.holds ts found = test.holds us found := by
  have hfirst := firstKind_congr hts hus h
  induction test with
  | kind k => rw [Test.holds, Test.holds, hfirst]
  | kindIn kinds => rw [Test.holds, Test.holds, hfirst]
  | aheadIn n kinds => rw [Test.holds, Test.holds, kindAt_eq, kindAt_eq, h]
  | word w => exact spells_congr hts hus h w
  | found => rfl
  | not a ih => rw [Test.holds, Test.holds, ih]
  | and a b iha ihb => rw [Test.holds, Test.holds, iha, ihb]
  | or a b iha ihb => rw [Test.holds, Test.holds, iha, ihb]

end Token

namespace Sprout

/-- The outline of a sprout; there is none of unrecognized input. -/
def outlines : Sprout → List Outline
  | token t => [.leaf t.kind]
  | missing _ => [.leaf .missing]
  | branch kind children =>
    if (branch kind children).isAside then [] else [.branch kind (children.flatMap outlines)]

variable {kind : Kind} {cs : List Sprout} {c : Sprout}

theorem outlines_branch (h : (branch kind cs).isAside = false) :
    (branch kind cs).outlines = [.branch kind (cs.flatMap outlines)] := by
  rw [outlines, h]
  rfl

theorem outlines_ne_nil (h : c.isAside = false) : c.outlines ≠ [] := by
  cases c with
  | token t => simp [outlines]
  | missing o => simp [outlines]
  | branch kind cs => simp [outlines_branch h]

theorem flatMap_outlines_aside {ts : List Token} (h : ∀ t ∈ ts, t.kind = .skipped) :
    (aside ts).flatMap outlines = [] := by
  cases ts with
  | nil => rfl
  | cons t ts =>
    have ht : (branch .error ((t :: ts).map token)).isAside = true :=
      beq_iff_eq.mpr (h t (List.mem_cons_self ..))
    rw [aside, List.flatMap_singleton, outlines, ht]
    rfl

end Sprout

namespace Diagnostic

/-- What can be said of a token alone. -/
def lexicalMessages : List String :=
  ["unrecognized input", "unterminated string literal", "unterminated heredoc",
    "unterminated comment"]

/-- The messages of rules, without those about a token alone. -/
def ruleMessages (ds : List Diagnostic) : List String :=
  (ds.map (·.message)).filter fun m => !lexicalMessages.contains m

theorem ruleMessages_append (ds es : List Diagnostic) :
    ruleMessages (ds ++ es) = ruleMessages ds ++ ruleMessages es := by
  rw [ruleMessages, List.map_append, List.filter_append, ruleMessages, ruleMessages]

theorem ruleMessages_lexical {ds : List Diagnostic} (h : ∀ d ∈ ds, d.IsLexical) :
    ruleMessages ds = [] := by
  refine List.filter_eq_nil_iff.mpr fun m hm => ?_
  obtain ⟨d, hd, rfl⟩ := List.mem_map.mp hm
  obtain ⟨problem, range, rfl, hp⟩ := h d hd
  have hmessage : lexicalMessages.contains (of problem range).message = true := by
    show lexicalMessages.contains problem.message = true
    cases problem with
    | expected | unexpected => cases hp
    | _ => decide
  rw [hmessage]
  decide

end Diagnostic

/-- What rules see of a stage, and what they add to it. -/
structure Gist where
  words : List (Kind × List Char)
  outlines : List Outline
  messages : List String
  found : Found

namespace Gist

def take (v : Gist) : Gist :=
  match v.words with
  | [] => v
  | (k, _) :: rest =>
    if k = .eof then v
    else { v with words := rest, outlines := v.outlines ++ [.leaf k], found := v.found.bury }

def miss (v : Gist) (what : String) : Gist :=
  { v with
    outlines := v.outlines ++ [.leaf .missing]
    messages := v.messages ++ Diagnostic.ruleMessages [.of (.expected what) (.point 0)]
    found := v.found.bury }

def report (v : Gist) (problem : Kind → Problem) : Gist :=
  match v.words with
  | [] => v
  | (k, _) :: _ =>
    { v with messages := v.messages ++ Diagnostic.ruleMessages [.of (problem k) (.point 0)] }

def enter (v : Gist) : Gist := { v with outlines := [], found := v.found.bury }

def leave (v : Gist) (kind : Kind) (inner : Gist) : Gist :=
  { inner with outlines := v.outlines ++ [.branch kind inner.outlines], found := .last }

end Gist

namespace Stage

def gist (g : Stage) : Gist where
  words := Token.significant g.tokens
  outlines := g.children.flatMap Sprout.outlines
  messages := Diagnostic.ruleMessages g.diagnostics
  found := g.found

/-- A stage at a significant token whose children rules made. -/
structure Regular (g : Stage) : Prop where
  wellMade : g.WellMade
  recognized : g.kind ≠ .skipped

variable {g g' f : Stage}

theorem Regular.take (h : g.Regular) : g.take.Regular :=
  ⟨h.wellMade.take h.recognized, kind_take_ne_skipped h.recognized⟩

theorem Regular.enter (h : g.Regular) : g.enter.Regular := by
  obtain ⟨_, hw, -⟩ := wellMade_steady.node (i := ()) h.wellMade
  exact ⟨hw, h.recognized⟩

theorem Regular.report (h : g.Regular) (problem : Kind → Problem) : (g.report problem).Regular := by
  obtain ⟨tokens, children, diagnostics, lastEnd, found⟩ := g
  cases tokens with
  | nil => exact h
  | cons t rest =>
    have hw := h.wellMade
    exact ⟨⟨hw.made, hw.first, hw.last, hw.lawful⟩, h.recognized⟩

theorem Regular.inside (h : g.Regular) {before : List Sprout} {k : Kind} {cs : List Sprout}
    (hf : g.found = .last) (hc : g.children = before ++ [.branch k cs]) :
    Regular { g with children := [.branch k cs], found := .earlier } := by
  obtain ⟨_, hw, -⟩ := wellMade_steady.wrap (i := ()) h.wellMade hf hc
  exact ⟨hw, h.recognized⟩

/-- The branch that is closed last is none of unrecognized input. -/
theorem WellMade.isAside_leave {kind : Kind} (h : (g.leave kind g').WellMade) :
    (Sprout.branch kind g'.children).isAside = false := by
  obtain ⟨before, k, cs, hc, ha⟩ := h.last rfl
  obtain ⟨-, hb⟩ := List.append_inj' (show g.children ++ [_] = before ++ [_] from hc) rfl
  rwa [List.singleton_inj.mp hb]

/-- Children have an outline, or there are none. -/
theorem WellMade.outlines_eq_nil (h : g.WellMade) : g.gist.outlines = [] ↔ g.children = [] := by
  refine ⟨fun ho => ?_, fun hc => by rw [gist, hc]; rfl⟩
  cases hc : g.children with
  | nil => rfl
  | cons c cs =>
    have hfirst := h.first c (by rw [hc]; rfl)
    rw [gist, hc, List.flatMap_cons] at ho
    exact absurd (List.append_eq_nil_iff.mp ho).1 (Sprout.outlines_ne_nil hfirst)

theorem kind_congr (hg : g.Regular) (hf : f.Regular) (he : f.gist = g.gist) : f.kind = g.kind :=
  Token.firstKind_congr hf.recognized hg.recognized (congrArg Gist.words he)

theorem holds_congr (hg : g.Regular) (hf : f.Regular) (he : f.gist = g.gist) (test : Test) :
    f.holds test = g.holds test := by
  have hfound : f.found = g.found := congrArg Gist.found he
  rw [holds, holds, hfound]
  exact Token.holds_congr hf.recognized hg.recognized (congrArg Gist.words he) _ test

/-! ## Gists of what actions do -/

theorem gist_take (h : g.Regular) : g.take.gist = g.gist.take := by
  obtain ⟨tokens, children, diagnostics, lastEnd, found⟩ := g
  cases tokens with
  | nil => rfl
  | cons t rest =>
    have hk : t.kind ≠ .skipped := h.recognized
    have hwords : Token.significant (t :: rest) = _ := Token.significant_cons hk
    by_cases ht : t.kind = .eof
    · simp [Stage.take, gist, Gist.take, hwords, ht]
    have houtlines : (Sprout.aside (rest.takeWhile Token.isSkipped)).flatMap Sprout.outlines = [] :=
      Sprout.flatMap_outlines_aside fun u hu => (Token.mem_takeSkipped hu).2
    have hmessages : Diagnostic.ruleMessages
        ((t :: rest.takeWhile Token.isSkipped).filterMap (·.error)) = [] := by
      refine Diagnostic.ruleMessages_lexical fun d hd => ?_
      obtain ⟨u, hu, hd⟩ := List.mem_filterMap.mp hd
      have hmem : u ∈ t :: rest := by
        rcases List.mem_cons.mp hu with rfl | hu
        · exact List.mem_cons_self ..
        · exact List.mem_cons_of_mem t (Token.mem_takeSkipped hu).1
      exact (h.wellMade.lawful u hmem).lexical d hd
    simp [Stage.take, gist, Gist.take, hwords, ht, Token.significant_dropSkipped,
      Sprout.outlines, houtlines, Diagnostic.ruleMessages_append, hmessages]

theorem gist_miss (g : Stage) (what : String) : (g.miss what).gist = g.gist.miss what := by
  simp [miss, gist, Gist.miss, Sprout.outlines, Diagnostic.ruleMessages, Diagnostic.of]

theorem gist_report (h : g.Regular) (problem : Kind → Problem) :
    (g.report problem).gist = g.gist.report problem := by
  obtain ⟨tokens, children, diagnostics, lastEnd, found⟩ := g
  cases tokens with
  | nil => rfl
  | cons t rest =>
    have hwords : Token.significant (t :: rest) = _ := Token.significant_cons h.recognized
    simp [report, gist, Gist.report, hwords, Diagnostic.ruleMessages, Diagnostic.of]

theorem gist_enter (g : Stage) : g.enter.gist = g.gist.enter := rfl

theorem gist_leave {kind : Kind} (h : (g.leave kind g').WellMade) :
    (g.leave kind g').gist = g.gist.leave kind g'.gist := by
  simp [leave, gist, Gist.leave, Sprout.outlines_branch h.isAside_leave]

/-- Stages of one gist are left in stages of one gist. -/
theorem gist_leave_congr {f' : Stage} {kind : Kind} (hg : (g.leave kind g').WellMade)
    (hf : (f.leave kind f').WellMade) (he : f.gist = g.gist) (he' : f'.gist = g'.gist) :
    (f.leave kind f').gist = (g.leave kind g').gist := by
  rw [gist_leave hf, gist_leave hg, he, he']

/-- A branch is given up: nothing was recorded in it. -/
theorem gist_giveUp (g g' : Stage) :
    gist { g' with children := g.children, found := .nothing } =
      { g'.gist with outlines := g.gist.outlines, found := .nothing } := rfl

/-- The branch found last is found last in all stages of one gist. -/
theorem exists_last (hf : f.WellMade) (hg : g.WellMade) (he : f.gist = g.gist)
    (hfound : g.found = .last) {before : List Sprout} {k : Kind} {cs : List Sprout}
    (hc : g.children = before ++ [.branch k cs]) :
    ∃ before' cs', f.found = .last ∧ f.children = before' ++ [.branch k cs'] ∧
      before'.flatMap Sprout.outlines = before.flatMap Sprout.outlines ∧
      [Sprout.branch k cs'].flatMap Sprout.outlines =
        [Sprout.branch k cs].flatMap Sprout.outlines := by
  have hfound' : f.found = .last := (congrArg Gist.found he).trans hfound
  obtain ⟨before₁, k₁, cs₁, hc₁, ha₁⟩ := hg.last hfound
  obtain ⟨-, hb₁⟩ := List.append_inj' (hc.symm.trans hc₁) rfl
  obtain ⟨rfl, rfl⟩ := Sprout.branch.inj (List.singleton_inj.mp hb₁)
  obtain ⟨before', k', cs', hc', ha'⟩ := hf.last hfound'
  have ho : f.children.flatMap Sprout.outlines = g.children.flatMap Sprout.outlines :=
    congrArg Gist.outlines he
  rw [hc, hc', List.flatMap_append, List.flatMap_append, List.flatMap_singleton,
    List.flatMap_singleton, Sprout.outlines_branch ha₁, Sprout.outlines_branch ha'] at ho
  obtain ⟨hbefore, hlast⟩ := List.append_inj' ho rfl
  obtain ⟨rfl, hcs⟩ := Outline.branch.inj (List.singleton_inj.mp hlast)
  refine ⟨before', cs', hfound', hc', hbefore, ?_⟩
  rw [List.flatMap_singleton, List.flatMap_singleton, Sprout.outlines_branch ha₁,
    Sprout.outlines_branch ha', hcs]

end Stage

section Simulation

open Stage (Regular)

variable {ρ : Type} {grammar : ρ → Act ρ} {a : Act ρ} {g g' : Stage} {n : Nat}
  (hgrammar : ∀ rule, (grammar rule).orderly = true)

include hgrammar

theorem Makes.regular (h : Makes grammar a g n g') (ha : a.orderly = true) (hg : g.Regular) :
    g'.Regular :=
  ⟨Stage.wellMade_steady.makes hgrammar h ha hg.recognized (i := ()) hg.wellMade,
    h.recognized hg.recognized⟩

/-- An action leads from stages of one gist to stages of one gist, in as many steps. The induction
is over what it makes of one of them; the other one takes the same way. -/
theorem Makes.sameGist (h : Makes grammar a g n g') (ha : a.orderly = true) (hg : g.Regular)
    {f : Stage} (hf : f.Regular) (he : f.gist = g.gist) :
    ∃ f', Makes grammar a f n f' ∧ f'.gist = g'.gist := by
  induction h generalizing f with
  | done => exact ⟨f, .done, he⟩
  | require ht => exact ⟨f, .require ((Stage.holds_congr hg hf he _).trans ht), he⟩
  | bump => exact ⟨f.take, .bump, by rw [Stage.gist_take hf, Stage.gist_take hg, he]⟩
  | @missing what g => exact ⟨f.miss what, .missing, by rw [Stage.gist_miss, Stage.gist_miss, he]⟩
  | @decline g =>
    exact ⟨{ f with found := .nothing }, .decline, congrArg ({ · with found := Found.nothing }) he⟩
  | andThen first _ ih₁ ih₂ =>
    obtain ⟨ha₁, ha₂⟩ := Bool.and_eq_true_iff.mp ha
    obtain ⟨f₁, h₁, he₁⟩ := ih₁ ha₁ hg hf he
    have hg₁ := first.regular hgrammar ha₁ hg
    obtain ⟨f₂, h₂, he₂⟩ := ih₂ ha₂ hg₁ (h₁.regular hgrammar ha₁ hf) he₁
    exact ⟨f₂, .andThen h₁ h₂, he₂⟩
  | @recover problem stop g n g' hk loop ih =>
    have hfirst : (f.enter.report problem).take.gist = (g.enter.report problem).take.gist := by
      rw [Stage.gist_take (hf.enter.report problem), Stage.gist_take (hg.enter.report problem),
        Stage.gist_report hf.enter, Stage.gist_report hg.enter, Stage.gist_enter, Stage.gist_enter,
        he]
    obtain ⟨f', hloop, he'⟩ := ih rfl (hg.enter.report problem).take (hf.enter.report problem).take
      hfirst
    have hg' := (Makes.recover hk loop).regular hgrammar ha hg
    have hkind : f.kind ≠ .eof := by rwa [Stage.kind_congr hg hf he]
    have hm := Makes.recover hkind hloop
    have hf' := hm.regular hgrammar ha hf
    exact ⟨_, hm, Stage.gist_leave_congr hg'.wellMade hf'.wellMade he he'⟩
  | @node kind body g n g' inner ih =>
    have hbody := (Bool.and_eq_true_iff.mp ha).2
    obtain ⟨f', hinner, he'⟩ := ih hbody hg.enter hf.enter (congrArg Gist.enter he)
    have hg' := (Makes.node inner).regular hgrammar ha hg
    have hm : Makes grammar (.node kind body) f (n + 2) (f.leave kind f') := .node hinner
    have hf' := hm.regular hgrammar ha hf
    exact ⟨_, hm, Stage.gist_leave_congr hg'.wellMade hf'.wellMade he he'⟩
  | @nodeIfAny kind body g n g' inner hc ih =>
    have hbody := (Bool.and_eq_true_iff.mp ha).2
    obtain ⟨f', hinner, he'⟩ := ih hbody hg.enter hf.enter (congrArg Gist.enter he)
    have hgi := (inner.regular hgrammar hbody hg.enter).wellMade
    have hfi := (hinner.regular hgrammar hbody hf.enter).wellMade
    -- unrecognized input is never the first child, so there are outlines if there are children
    have hc' : f'.children ≠ [] := by
      intro h
      rw [← hfi.outlines_eq_nil, he'] at h
      exact hc (hgi.outlines_eq_nil.mp h)
    have hg' := (Makes.nodeIfAny inner hc).regular hgrammar ha hg
    have hm : Makes grammar (.nodeIfAny kind body) f (n + 2) (f.leave kind f') :=
      .nodeIfAny hinner hc'
    have hf' := hm.regular hgrammar ha hf
    exact ⟨_, hm, Stage.gist_leave_congr hg'.wellMade hf'.wellMade he he'⟩
  | @nodeIfNone kind body g n g' inner hc ih =>
    have hbody := (Bool.and_eq_true_iff.mp ha).2
    obtain ⟨f', hinner, he'⟩ := ih hbody hg.enter hf.enter (congrArg Gist.enter he)
    have hgi := (inner.regular hgrammar hbody hg.enter).wellMade
    have hfi := (hinner.regular hgrammar hbody hf.enter).wellMade
    have hc' : f'.children = [] := by
      rw [← hfi.outlines_eq_nil, he']
      exact hgi.outlines_eq_nil.mpr hc
    exact ⟨_, .nodeIfNone hinner hc', by rw [Stage.gist_giveUp, Stage.gist_giveUp, he, he']⟩
  | @wrap kind body g n g' before k cs hfound hc inner ih =>
    have hbody := (Bool.and_eq_true_iff.mp ha).2
    obtain ⟨before', cs', hfound', hc', hbefore, hlast⟩ :=
      Stage.exists_last hf.wellMade hg.wellMade he hfound hc
    -- the gists agree on the branch that is wrapped and on what lies before it
    have hinside : Stage.gist { f with children := [.branch k cs'], found := .earlier } =
        Stage.gist { g with children := [.branch k cs], found := .earlier } := by
      simp only [Stage.gist, Gist.mk.injEq] at he ⊢
      exact ⟨he.1, hlast, he.2.2.1, trivial⟩
    obtain ⟨f', hinner, he'⟩ := ih hbody (hg.inside hfound hc) (hf.inside hfound' hc') hinside
    have hbehind : Stage.gist { f with children := before' } =
        Stage.gist { g with children := before } := by
      simp only [Stage.gist, Gist.mk.injEq] at he ⊢
      exact ⟨he.1, hbefore, he.2.2⟩
    have hg' := (Makes.wrap hfound hc inner).regular hgrammar ha hg
    have hm : Makes grammar (.wrap kind body) f (n + 2) _ := .wrap hfound' hc' hinner
    have hf' := hm.regular hgrammar ha hf
    exact ⟨_, hm, Stage.gist_leave_congr hg'.wellMade hf'.wellMade hbehind he'⟩
  | @branch test yes no g n g' _ ih =>
    obtain ⟨hyes, hno⟩ := Bool.and_eq_true_iff.mp ha
    have ht := Stage.holds_congr hg hf he test
    obtain ⟨f', h', he'⟩ := ih (by split <;> assumption) hg hf he
    exact ⟨f', .branch (ht ▸ h'), he'⟩
  | @byKind choose g n g' _ ih =>
    have hk := Stage.kind_congr hg hf he
    obtain ⟨f', h', he'⟩ := ih (List.all_eq_true.mp ha _ (Kind.mem_all _)) hg hf he
    exact ⟨f', .byKind (hk ▸ h'), he'⟩
  | stop ht => exact ⟨f, .stop ((Stage.holds_congr hg hf he _).trans ht), he⟩
  | again ht first _ ih₁ ih₂ =>
    obtain ⟨f₁, h₁, he₁⟩ := ih₁ ha hg hf he
    have hg₁ := first.regular hgrammar ha hg
    obtain ⟨f₂, h₂, he₂⟩ := ih₂ ha hg₁ (h₁.regular hgrammar ha hf) he₁
    exact ⟨f₂, .again ((Stage.holds_congr hg hf he _).trans ht) h₁ h₂, he₂⟩
  | call _ ih =>
    obtain ⟨f', h', he'⟩ := ih (hgrammar _) hg hf he
    exact ⟨f', .call h', he'⟩

end Simulation
end PhpSyntax
