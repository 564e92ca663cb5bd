import PhpSyntax.Proofs.Clean
import PhpSyntax.Proofs.Endings

/-!
Actions that cannot come to an end without a report. They are told by the words to come, as actions
that report nothing are.
-/
namespace PhpSyntax

variable {ρ : Type} {grammar : ρ → Act ρ} {a b body : Act ρ} {s s₁ : Spot}

/-- Whatever the action makes from the spot on, something is reported. -/
def Complains (grammar : ρ → Act ρ) (a : Act ρ) (s : Spot) : Prop :=
  s.Recognized → ∀ {diagnostics lastEnd n g},
    Makes grammar a (s.stage diagnostics lastEnd) n g → g.diagnostics ≠ diagnostics

namespace Complains

variable {ws : List Word} {before cs : List Sprout} {f : Found} {kind k : Kind} {test : Test}
  {choose : Kind → Act ρ} {rule : ρ} {what : String} {t : Spot}

theorem missing : Complains grammar (.missing what) s := by
  intro _ ds e n g h
  cases h
  simp [Stage.miss, Spot.stage]

/-- An action whose parts are carried out at a spot with the same words. -/
theorem lift (h : Complains grammar a s) (hs : t.words = s.words)
    (hstep : ∀ {ds e n g}, Makes grammar b (t.stage ds e) n g →
      ∃ m g', Makes grammar a (s.stage ds e) m g' ∧ g'.diagnostics = g.diagnostics) :
    Complains grammar b t := by
  intro ht ds e n g hb
  obtain ⟨m, g', ha, hd⟩ := hstep hb
  rw [← hd]
  exact h (by rwa [Spot.Recognized, ← hs]) ha

theorem first (h : Complains grammar a s) : Complains grammar (.andThen a b) s := by
  intro hs ds e n g hm
  cases hm with
  | andThen hfirst hsecond => exact fun hd => h hs hfirst (hfirst.quiet hsecond hd).1

theorem second (h : Leads grammar a s s₁) (h' : Complains grammar b s₁) :
    Complains grammar (.andThen a b) s := by
  intro hs ds e n g hm
  obtain ⟨hs₁, hleads⟩ := h hs
  obtain ⟨m, e', hmakes⟩ := hleads ds e
  cases hm with
  | andThen hfirst hsecond =>
    obtain ⟨-, rfl⟩ := hmakes.unique hfirst
    exact h' hs₁ hsecond

theorem node (h : Complains grammar body ⟨ws, [], f.bury⟩) :
    Complains grammar (.node kind body) ⟨ws, cs, f⟩ :=
  h.lift rfl fun hm => by
    cases hm with
    | node inner => exact ⟨_, _, inner, rfl⟩

theorem wrap (h : Complains grammar body ⟨ws, [.branch k cs], .earlier⟩) :
    Complains grammar (.wrap kind body) ⟨ws, before ++ [.branch k cs], .last⟩ :=
  h.lift rfl fun hm => by
    cases hm with
    | wrap _ hlast inner =>
      obtain ⟨rfl, hb⟩ := List.append_inj' hlast rfl
      cases hb
      exact ⟨_, _, inner, rfl⟩

theorem yes (ht : s.holds test = true) (h : Complains grammar a s) :
    Complains grammar (.branch test a b) s :=
  h.lift rfl fun hm => by
    cases hm with
    | branch hbody =>
      rw [Spot.stage_holds, if_pos ht] at hbody
      exact ⟨_, _, hbody, rfl⟩

theorem no (ht : s.holds test = false) (h : Complains grammar b s) :
    Complains grammar (.branch test a b) s :=
  h.lift rfl fun hm => by
    cases hm with
    | branch hbody =>
      rw [Spot.stage_holds, if_neg (Bool.eq_false_iff.mp ht)] at hbody
      exact ⟨_, _, hbody, rfl⟩

theorem byKind (h : Complains grammar (choose s.kind) s) : Complains grammar (.byKind choose) s :=
  h.lift rfl fun hm => by
    cases hm with
    | byKind hbody => exact ⟨_, _, hbody, rfl⟩

theorem call (h : Complains grammar (grammar rule) s) : Complains grammar (.call rule) s :=
  h.lift rfl fun hm => by
    cases hm with
    | call hbody => exact ⟨_, _, hbody, rfl⟩

/-- The body of a loop, where it is carried out. -/
theorem loop (ht : s.holds test = true) (h : Complains grammar body s) :
    Complains grammar (.repeatWhile test body) s := by
  intro hs ds e n g hm
  cases hm with
  | stop hstop =>
    rw [Spot.stage_holds, ht] at hstop
    cases hstop
  | again _ hbody hrest => exact fun hd => h hs hbody (hbody.quiet hrest hd).1

/-- A token that is expected and not there. -/
theorem expect (hk : s.kind ≠ k) : Complains grammar (.expect k) s :=
  no (beq_eq_false_iff_ne.mpr hk) missing

end Complains

namespace Word

/-- A text of an open tag and words at which the program complains has diagnostics. -/
theorem diagnostics_ne_nil {dialect : Dialect} {text : List Char} {ws : List Word} {p : Parse}
    (hts : Token.significant (tokenize dialect text) = openTag :: ws ++ [eof])
    (h : Complains Grammar.php (.call .statement) ⟨ws ++ [eof], [opening], .last⟩)
    (hne : first (ws ++ [eof]) ≠ .eof) (hp : parse dialect text = .ok p) : p.diagnostics ≠ [] := by
  intro hd
  obtain ⟨us, cs, hus, -, -, ⟨n, e, f, hmakes⟩, -⟩ := exists_makes hp hd
  obtain rfl := List.append_cancel_right (hts.symm.trans hus)
  have hrecognized : Spot.Recognized ⟨openTag :: ws ++ [eof], [], .nothing⟩ :=
    fun w hw => (lawful_of_mem (hts ▸ hw)).1
  have hgo : Spot.holds ⟨ws ++ [eof], [opening], .last⟩ (.not (.kind .eof)) = true :=
    congrArg (!·) (beq_eq_false_iff_ne.mpr hne)
  -- the open tag is the first round of the loop, and the second round complains
  cases hmakes with
  | again _ htag hrest =>
    obtain ⟨hopened, hleads⟩ := opening_leads hrecognized
    obtain ⟨m, e', htag'⟩ := hleads [] 0
    obtain ⟨-, rfl⟩ := htag'.unique htag
    exact Complains.loop hgo h hopened hrest rfl

end Word

end PhpSyntax
