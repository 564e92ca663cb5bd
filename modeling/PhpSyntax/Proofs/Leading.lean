import PhpSyntax.Proofs.Making
import PhpSyntax.Proofs.Writing

/-!
Actions that find all they look for. They report nothing, so nothing hangs on where the tokens
stand, and what they make is told by the words to come and by the innermost open branch.
-/
namespace PhpSyntax

/-- A stage without places and without reports. -/
structure Spot where
  /-- The words to come, the end of file last. -/
  words : List Word
  children : List Sprout
  found : Found

namespace Spot

def kind (s : Spot) : Kind := Word.first s.words

def holds (s : Spot) (test : Test) : Bool := test.holds (s.words.map Word.token) s.found.any

/-- The stage at a spot after some reports. -/
def stage (s : Spot) (diagnostics : List Diagnostic) (lastEnd : Nat) : Stage :=
  ⟨s.words.map Word.token, s.children, diagnostics, lastEnd, s.found⟩

theorem stage_holds (s : Spot) (diagnostics : List Diagnostic) (lastEnd : Nat) (test : Test) :
    (s.stage diagnostics lastEnd).holds test = s.holds test := rfl

/-- No word to come is unrecognized input. -/
def Recognized (s : Spot) : Prop := ∀ w ∈ s.words, w.1 ≠ .skipped

/-- A word is taken alone where no unrecognized input follows it. -/
theorem take_stage {w : Word} {ws : List Word} {cs : List Sprout} {f : Found} (h : w.1 ≠ .eof)
    (hws : ∀ v ∈ ws, v.1 ≠ .skipped) (diagnostics : List Diagnostic) (lastEnd : Nat) :
    (stage ⟨w :: ws, cs, f⟩ diagnostics lastEnd).take =
      stage ⟨ws, cs ++ [.token w.token], f.bury⟩ diagnostics w.token.range.stop := by
  have hnone : (ws.map Word.token).takeWhile Token.isSkipped = [] ∧
      (ws.map Word.token).dropWhile Token.isSkipped = ws.map Word.token := by
    cases ws with
    | nil => exact ⟨rfl, rfl⟩
    | cons v ws =>
      have hv : ¬v.token.isSkipped = true := by
        simpa [Token.isSkipped, Word.token] using hws v (List.mem_cons_self ..)
      exact ⟨List.takeWhile_cons_of_neg hv, List.dropWhile_cons_of_neg hv⟩
  refine (if_neg h).trans ?_
  simp only [hnone, Sprout.aside, stage]
  simp [Word.token, Token.endFrom]

end Spot

variable {ρ : Type} {grammar : ρ → Act ρ} {a b body : Act ρ} {s s₁ s' : Spot}

/-- The action leads from one spot to the other and reports nothing, whatever was reported before
and wherever the tokens stand. -/
def Leads (grammar : ρ → Act ρ) (a : Act ρ) (s s' : Spot) : Prop :=
  s.Recognized → s'.Recognized ∧ ∀ diagnostics lastEnd, ∃ n lastEnd',
    Makes grammar a (s.stage diagnostics lastEnd) n (s'.stage diagnostics lastEnd')

namespace Leads

variable {w : Word} {ws ws' : List Word} {before cs cs' : List Sprout} {f f' : Found} {kind k : Kind}
  {test : Test} {choose : Kind → Act ρ} {rule : ρ} {t t' : Spot}

theorem done : Leads grammar .done s s := fun hs => ⟨hs, fun _ e => ⟨_, e, .done⟩⟩

theorem andThen (h : Leads grammar a s s₁) (h' : Leads grammar b s₁ s') :
    Leads grammar (.andThen a b) s s' := by
  intro hs
  obtain ⟨hs₁, hm₁⟩ := h hs
  obtain ⟨hs', hm₂⟩ := h' hs₁
  refine ⟨hs', fun ds e => ?_⟩
  obtain ⟨m, e₁, hm⟩ := hm₁ ds e
  obtain ⟨n, e₂, hn⟩ := hm₂ ds e₁
  exact ⟨_, e₂, .andThen hm hn⟩

theorem require (h : s.holds test = true) : Leads grammar (.require test) s s :=
  fun hs => ⟨hs, fun _ e => ⟨_, e, .require h⟩⟩

theorem bump (h : w.1 ≠ .eof) : Leads grammar .bump ⟨w :: ws, cs, f⟩
    ⟨ws, cs ++ [.token w.token], f.bury⟩ := by
  intro hs
  have hws : ∀ v ∈ ws, v.1 ≠ .skipped := fun v hv => hs v (List.mem_cons_of_mem _ hv)
  refine ⟨hws, fun ds e => ⟨1, w.token.range.stop, ?_⟩⟩
  rw [← Spot.take_stage h hws]
  exact .bump

theorem decline : Leads grammar .decline ⟨ws, cs, f⟩ ⟨ws, cs, .nothing⟩ :=
  fun hs => ⟨hs, fun _ e => ⟨_, e, .decline⟩⟩

/-- An action that carries out another one at a spot with the same words. -/
theorem lift (h : Leads grammar a s s') (hs : t.words = s.words) (hs' : t'.words = s'.words)
    (hstep : ∀ ds e n e', Makes grammar a (s.stage ds e) n (s'.stage ds e') →
      ∃ m, Makes grammar b (t.stage ds e) m (t'.stage ds e')) : Leads grammar b t t' := by
  intro ht
  obtain ⟨hr, hm⟩ := h (by rwa [Spot.Recognized, ← hs])
  refine ⟨by rwa [Spot.Recognized, hs'], fun ds e => ?_⟩
  obtain ⟨n, e', hn⟩ := hm ds e
  obtain ⟨m, hb⟩ := hstep ds e n e' hn
  exact ⟨m, e', hb⟩

theorem mark (hk : k ≠ .eof) : Leads grammar .bump ⟨Word.mark k :: ws, cs, f⟩
    ⟨ws, cs ++ [.token (Word.mark k).token], f.bury⟩ := bump hk

theorem node (h : Leads grammar body ⟨ws, [], f.bury⟩ ⟨ws', cs', f'⟩) :
    Leads grammar (.node kind body) ⟨ws, cs, f⟩ ⟨ws', cs ++ [.branch kind cs'], .last⟩ :=
  h.lift rfl rfl fun ds e n _ hm => ⟨n + 2, .node (g := Spot.stage ⟨ws, cs, f⟩ ds e) hm⟩

theorem nodeIfAny (h : Leads grammar body ⟨ws, [], f.bury⟩ ⟨ws', cs', f'⟩) (hne : cs' ≠ []) :
    Leads grammar (.nodeIfAny kind body) ⟨ws, cs, f⟩ ⟨ws', cs ++ [.branch kind cs'], .last⟩ :=
  h.lift rfl rfl fun ds e n _ hm => ⟨n + 2, .nodeIfAny (g := Spot.stage ⟨ws, cs, f⟩ ds e) hm hne⟩

theorem nodeIfNone (h : Leads grammar body ⟨ws, [], f.bury⟩ ⟨ws', [], f'⟩) :
    Leads grammar (.nodeIfAny kind body) ⟨ws, cs, f⟩ ⟨ws', cs, .nothing⟩ :=
  h.lift rfl rfl fun ds e n _ hm => ⟨n + 2, .nodeIfNone (g := Spot.stage ⟨ws, cs, f⟩ ds e) hm rfl⟩

theorem wrap (h : Leads grammar body ⟨ws, [.branch k cs], .earlier⟩ ⟨ws', cs', f'⟩) :
    Leads grammar (.wrap kind body) ⟨ws, before ++ [.branch k cs], .last⟩
      ⟨ws', before ++ [.branch kind cs'], .last⟩ :=
  h.lift rfl rfl fun ds e n _ hm =>
    ⟨n + 2, .wrap (g := Spot.stage ⟨ws, before ++ [.branch k cs], .last⟩ ds e) rfl rfl hm⟩

theorem yes (ht : s.holds test = true) (h : Leads grammar a s s') :
    Leads grammar (.branch test a b) s s' :=
  h.lift rfl rfl fun _ _ n _ hm => ⟨n + 1, .branch (by rwa [Spot.stage_holds, if_pos ht])⟩

theorem no (ht : s.holds test = false) (h : Leads grammar b s s') :
    Leads grammar (.branch test a b) s s' :=
  h.lift rfl rfl fun _ _ n _ hm =>
    ⟨n + 1, .branch (by rwa [Spot.stage_holds, if_neg (Bool.eq_false_iff.mp ht)])⟩

theorem byKind (h : Leads grammar (choose s.kind) s s') : Leads grammar (.byKind choose) s s' :=
  h.lift rfl rfl fun _ _ n _ hm => ⟨n + 1, .byKind hm⟩

theorem call (h : Leads grammar (grammar rule) s s') : Leads grammar (.call rule) s s' :=
  h.lift rfl rfl fun _ _ n _ hm => ⟨n + 1, .call hm⟩

theorem stop (ht : s.holds test = false) : Leads grammar (.repeatWhile test body) s s :=
  fun hs => ⟨hs, fun _ e => ⟨_, e, .stop ht⟩⟩

theorem again (ht : s.holds test = true) (h : Leads grammar body s s₁)
    (h' : Leads grammar (.repeatWhile test body) s₁ s') :
    Leads grammar (.repeatWhile test body) s s' := by
  intro hs
  obtain ⟨hs₁, hm₁⟩ := h hs
  obtain ⟨hs', hm₂⟩ := h' hs₁
  refine ⟨hs', fun ds e => ?_⟩
  obtain ⟨m, e₁, hm⟩ := hm₁ ds e
  obtain ⟨n, e₂, hn⟩ := hm₂ ds e₁
  exact ⟨_, e₂, .again ht hm hn⟩

/-- A token that is expected and there. -/
theorem expect (hw : w.1 = k) (hk : k ≠ .eof) : Leads grammar (.expect k) ⟨w :: ws, cs, f⟩
    ⟨ws, cs ++ [.token w.token], f.bury⟩ :=
  yes (by simp [Spot.holds, Test.holds, Token.firstKind, Word.token, hw]) (bump (hw ▸ hk))

end Leads
end PhpSyntax
