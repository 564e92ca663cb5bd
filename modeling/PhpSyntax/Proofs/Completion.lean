import PhpSyntax.Proofs.Growth
import PhpSyntax.Proofs.Outlook
import PhpSyntax.Proofs.Recording

/-!
A whole parse: the machine carries out the program without a fault and in time, and its log replays
to the listing of one sprout, which holds all tokens.
-/
namespace PhpSyntax

namespace Stage

/-- Before the first token. -/
def start (tokens : List Token) : Stage := ⟨tokens, [], [], 0, .nothing⟩

/-- The sprout of a whole text: what the program made, and the end of file. -/
def root (g : Stage) (last : Token) : Sprout := .branch .sourceFile (g.children ++ [.token last])

variable {tokens : List Token} {g : Stage} {last : Token}

theorem start_proper (hended : Token.Ended tokens) (hfirst : Token.firstKind tokens ≠ .skipped) :
    (start tokens).Proper :=
  ⟨hended, hfirst, by simp [start]⟩

/-- The program ends in time, and only the end of file is left. -/
theorem exists_program (hended : Token.Ended tokens)
    (hfirst : Token.firstKind tokens ≠ .skipped) :
    ∃ n g last, Makes Grammar.php Grammar.program (start tokens) n g ∧ g.Proper ∧
      g.tokens = [last] ∧ last.kind = .eof ∧ n ≤ Parse.stepsPerToken * (tokens.length + 1) := by
  obtain ⟨n, g, hm, hp, hk, hn⟩ := Grammar.program_makes (start_proper hended hfirst) rfl rfl
  obtain ⟨last, rest, ht⟩ := List.exists_cons_of_ne_nil hp.ended.ne_nil
  have hlast : last.kind = .eof := by rwa [kind, ht] at hk
  have hrest := (ht ▸ hp.ended).eq_singleton hlast
  exact ⟨n, g, last, hm, hp, by rw [ht, hrest], hlast, hn⟩

end Stage

open Log

namespace Records

variable {pre : List Event} {held : List Sprout} {s : ParseState} {g : Stage} {last : Token}

/-- Recording the end of file, which is no token that a rule takes. -/
theorem takeEnd (h : Records pre held s g) (ht : g.tokens = [last]) (hk : last.kind = .eof) :
    s.takeEnd = .ok (s.record last []) ∧ Records pre held (s.record last [])
      { tokens := [], children := g.children ++ [.token last],
        diagnostics := g.diagnostics ++ last.error.toList, lastEnd := last.range.stop,
        found := g.found.bury } := by
  obtain ⟨tokens, log, diagnostics, lastEnd, found⟩ := s
  obtain rfl : tokens = [last] := h.tokens.trans ht
  have hlog := h.log_append (grown_token last)
  have hd : diagnostics.toList = g.diagnostics := h.diagnostics
  refine ⟨if_pos hk, rfl, ?_, rfl, ?_, ?_, by simp⟩
  · cases he : last.error <;> simp [ParseState.record, he, hd]
  · simpa [ParseState.record] using h.found
  · simpa [ParseState.record, Log.token] using hlog

end Records

/-- The machine completes what the program makes of the tokens. -/
theorem Parse.complete_eq {tokens : List Token} {n : Nat} {g : Stage} {last : Token}
    (hm : Makes Grammar.php Grammar.program (Stage.start tokens) n g)
    (hn : n ≤ stepsPerToken * (tokens.length + 1)) (ht : g.tokens = [last])
    (hk : last.kind = .eof) :
    ∃ s, complete tokens = .ok s ∧ Settled s.log.toList ∧
      s.log.replay = .ok (g.root last).listing ∧
      s.diagnostics.toList = g.diagnostics ++ last.error.toList := by
  have h₀ : Records [] [] (ParseState.start tokens) (Stage.start tokens) :=
    ⟨rfl, rfl, rfl, rfl, ⟨[], [], rfl, rfl, grown_nil⟩, by simp [Stage.start]⟩
  have h₁ : Records [.tombstone] [] (ParseState.start tokens).openBranch.2 (Stage.start tokens) :=
    h₀.openBranch
  obtain ⟨s₁, h₁, hr⟩ := hm.reaches h₁
  obtain ⟨count, hcount⟩ := Nat.exists_eq_add_of_le hn
  have hrun : (ParseState.start tokens).openBranch.2.run Grammar.php
      (stepsPerToken * (tokens.length + 1)) [.act Grammar.program] = .ok s₁ := by
    rw [hcount]
    have hrc := hr count []
    rw [List.append_nil] at hrc
    rw [hrc]
    cases count <;> rfl
  obtain ⟨hend, h₂⟩ := h₁.takeEnd ht hk
  obtain ⟨s, hclose, h₃⟩ := h₀.close h₂ .sourceFile
  obtain ⟨e, events, own, cs, c, hlog, hc, he, htwig, -⟩ := h₃.last rfl
  obtain ⟨hcs, hroot⟩ := List.append_inj' (show [] ++ [g.root last] = cs ++ [c] from hc) rfl
  obtain rfl : e = [] := he.nil_iff.mpr hcs.symm
  obtain rfl : g.root last = c := List.singleton_inj.mp hroot
  have hevents : s.log = (events none).toArray := by
    have hl : s.log.toList = events none := hlog
    rw [← hl]
  refine ⟨s, ?_, ?_, ?_, h₃.diagnostics⟩
  · unfold complete
    dsimp only
    rw [hrun]
    dsimp only
    rw [hend]
    exact hclose
  · rw [hevents]
    exact htwig.settled none
  · rw [hevents]
    exact htwig.replay

end PhpSyntax
