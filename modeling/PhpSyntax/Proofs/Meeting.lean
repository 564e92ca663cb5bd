import PhpSyntax.Grammar.Php
import PhpSyntax.Proofs.Recording
import PhpSyntax.Proofs.Stages
import PhpSyntax.Proofs.Tokens

/-!
The states that a parse comes to, step by step. Of the tokens to come there is always the end of
file, and the current one is never unrecognized input: no step but taking a token moves on, and what
comes after a token and is not recognized is taken with it.
-/
namespace PhpSyntax

namespace ParseState

/-- What the current token and those after it are in every state of a parse. -/
structure Sound (s : ParseState) : Prop where
  ended : Token.Ended s.tokens
  recognized : s.kind ≠ .skipped

variable {s : ParseState} {t : Token} {rest : List Token}

/-- Behind a token that is taken, unrecognized input is taken as well. -/
theorem advance_tokens (h : s.tokens = t :: rest) (hk : t.kind ≠ .eof) :
    s.advance.tokens = rest.dropWhile Token.isSkipped := by
  rw [advance, h]
  dsimp only
  rw [if_neg hk, setSkippedAside_eq]
  rfl

theorem exists_token (h : s.kind ≠ .eof) : ∃ t rest, s.tokens = t :: rest ∧ t.kind = s.kind := by
  cases ht : s.tokens with
  | nil => rw [kind, ht] at h; exact absurd rfl h
  | cons t rest => exact ⟨t, rest, rfl, by rw [kind, ht, Token.firstKind]⟩

theorem advance_eof (h : s.kind = .eof) : s.advance = s := by
  obtain ⟨tokens, log, diagnostics, lastEnd, found⟩ := s
  cases tokens with
  | nil => rfl
  | cons t rest => exact if_pos h

/-- What comes after a token depends on the tokens alone. -/
theorem advance_congr {s' : ParseState} (h : s'.tokens = s.tokens) :
    s'.advance.tokens = s.advance.tokens := by
  have hkind : s'.kind = s.kind := by rw [kind, h, kind]
  by_cases hk : s.kind = .eof
  · rw [advance_eof hk, advance_eof (hkind.trans hk), h]
  · obtain ⟨t, rest, ht, htk⟩ := exists_token hk
    rw [advance_tokens ht (htk ▸ hk), advance_tokens (h.trans ht) (htk ▸ hk)]

theorem Sound.advance (h : s.Sound) : s.advance.Sound := by
  by_cases hk : s.kind = .eof
  · rwa [advance_eof hk]
  obtain ⟨t, rest, ht, htk⟩ := exists_token hk
  have htokens := advance_tokens ht (htk ▸ hk)
  refine ⟨htokens ▸ ((ht ▸ h.ended).tail (htk ▸ hk)).dropSkipped, ?_⟩
  rw [kind, htokens]
  exact Token.firstKind_dropSkipped rest

theorem Sound.congr {s' : ParseState} (h : s.Sound) (ht : s'.tokens = s.tokens) : s'.Sound :=
  ⟨ht ▸ h.ended, by rw [kind, ht]; exact h.recognized⟩

@[simp] theorem report_tokens (s : ParseState) (problem : Kind → Problem) :
    (s.report problem).tokens = s.tokens := by
  unfold report
  split <;> simp [*]

theorem closeBranch_tokens {s' : ParseState} {m : Marker} {kind : Kind}
    (h : s.closeBranch m kind = .ok s') : s'.tokens = s.tokens := by
  unfold closeBranch at h
  split at h
  · exact (Except.ok.inj h) ▸ rfl
  · cases h

theorem abandonBranch_tokens {s' : ParseState} {m : Marker} (h : s.abandonBranch m = .ok s') :
    s'.tokens = s.tokens := by
  unfold abandonBranch at h
  split at h
  · exact (Except.ok.inj h) ▸ rfl
  · cases h

theorem wrapBranch_tokens {s' : ParseState} {c : Completed} {m : Marker}
    (h : s.wrapBranch c = .ok (m, s')) : s'.tokens = s.tokens := by
  unfold wrapBranch at h
  split at h
  · exact (Prod.mk.inj (Except.ok.inj h)).2 ▸ rfl
  · cases h

end ParseState

namespace Pending

variable {ρ : Type} {grammar : ρ → Act ρ} {p : Pending ρ} {first : List (Pending ρ)}
  {s s' : ParseState}

/-- A step leaves the tokens to come as they are, or takes one. -/
theorem perform_tokens (h : p.perform grammar s = .ok (first, s')) :
    s'.tokens = s.tokens ∨ s'.tokens = s.advance.tokens := by
  have hmap {α : Type} {x : Except Fault α} {f : α → List (Pending ρ) × ParseState}
      (h : x.map f = .ok (first, s')) : ∃ a, x = .ok a ∧ f a = (first, s') := by
    cases x with
    | error fault => cases h
    | ok a => exact ⟨a, rfl, Except.ok.inj h⟩
  have hsame {todo : List (Pending ρ)} {s₁ : ParseState}
      (h : (Except.ok (todo, s₁) : Except Fault _) = .ok (first, s')) : s' = s₁ :=
    (Prod.mk.inj (Except.ok.inj h)).2.symm
  cases p with
  | close m kind =>
    obtain ⟨s₁, hclose, hs⟩ := hmap h
    obtain rfl : s₁ = s' := (Prod.mk.inj hs).2
    exact .inl (ParseState.closeBranch_tokens hclose)
  | closeIfAny m kind =>
    rw [perform] at h
    split at h
    · obtain ⟨s₁, habandon, hs⟩ := hmap h
      obtain rfl : s₁ = s' := (Prod.mk.inj hs).2
      exact .inl (ParseState.abandonBranch_tokens habandon)
    · obtain ⟨s₁, hclose, hs⟩ := hmap h
      obtain rfl : s₁ = s' := (Prod.mk.inj hs).2
      exact .inl (ParseState.closeBranch_tokens hclose)
  | act a =>
    cases a with
    | done | andThen | missing | node | nodeIfAny | decline | branch | byKind | repeatWhile
      | call => exact .inl (hsame h ▸ rfl)
    | require test =>
      rw [perform] at h
      split at h
      · exact .inl (hsame h ▸ rfl)
      · cases h
    | bump => exact .inr (hsame h ▸ rfl)
    | recover problem stop =>
      rw [perform] at h
      split at h
      · cases h
      · refine .inr (hsame h ▸ ParseState.advance_congr ?_)
        rw [ParseState.report_tokens]
    | wrap kind body =>
      rw [perform] at h
      split at h
      · exact .inl (hsame h ▸ rfl)
      · obtain ⟨⟨m, s₁⟩, hwrap, hs⟩ := hmap h
        obtain rfl : s₁ = s' := (Prod.mk.inj hs).2
        exact .inl (ParseState.wrapBranch_tokens hwrap)

/-- Every step keeps a state sound. -/
theorem perform_sound (h : p.perform grammar s = .ok (first, s')) (hs : s.Sound) : s'.Sound := by
  rcases perform_tokens h with ht | ht
  · exact hs.congr ht
  · exact hs.advance.congr ht

end Pending

/-- What a parse of some tokens comes to: what is still to be done, first things first, and the
state that it is done in. -/
inductive Meets (tokens : List Token) : List (Pending Rule) → ParseState → Prop where
  | start : Meets tokens [.act Grammar.program] (ParseState.start tokens).openBranch.2
  | step {p todo first s s'} (h : Meets tokens (p :: todo) s)
    (hp : p.perform Grammar.php s = .ok (first, s')) : Meets tokens (first ++ todo) s'

namespace Meets

variable {tokens : List Token} {todo : List (Pending Rule)} {s : ParseState}

/-- The run of the parser passes every state that it comes to. -/
theorem run (h : Meets tokens todo s) : ∃ n, ∀ count,
    (ParseState.start tokens).openBranch.2.run Grammar.php (n + count) [.act Grammar.program] =
      s.run Grammar.php count todo := by
  induction h with
  | start => exact ⟨0, fun count => by rw [Nat.zero_add]⟩
  | @step p todo first s s' _ hp ih =>
    obtain ⟨n, hn⟩ := ih
    refine ⟨n + 1, fun count => ?_⟩
    rw [Nat.add_right_comm, Nat.add_assoc, hn, ParseState.run, hp]

/-- All states of a parse are sound. -/
theorem sound (h : Meets tokens todo s) (hended : Token.Ended tokens)
    (hfirst : Token.firstKind tokens ≠ .skipped) : s.Sound := by
  induction h with
  | start => exact ⟨hended, hfirst⟩
  | step _ hp ih => exact Pending.perform_sound hp ih

/-- The tokens to come are the last ones of all. -/
theorem suffix (h : Meets tokens todo s) : s.tokens <:+ tokens := by
  induction h with
  | start => exact List.suffix_refl tokens
  | @step p todo first s s' _ hp ih =>
    rcases Pending.perform_tokens hp with ht | ht
    · rwa [ht]
    rw [ht]
    by_cases hk : s.kind = .eof
    · rwa [ParseState.advance_eof hk]
    · obtain ⟨t, rest, hs, htk⟩ := ParseState.exists_token hk
      rw [ParseState.advance_tokens hs (htk ▸ hk)]
      exact (List.dropWhile_suffix _).trans ((hs ▸ List.suffix_cons t rest).trans ih)

/-- What is to be done and the state after some steps, if no fault stops them. -/
def walk : (steps : Nat) → List (Pending Rule) → ParseState →
    Option (List (Pending Rule) × ParseState)
  | 0, todo, s => some (todo, s)
  | _ + 1, [], _ => none
  | steps + 1, p :: todo, s =>
    match p.perform Grammar.php s with
    | .ok (first, s') => walk steps (first ++ todo) s'
    | .error _ => none

theorem of_walk {steps : Nat} {todo' : List (Pending Rule)} {s' : ParseState}
    (h : Meets tokens todo s) (hwalk : walk steps todo s = some (todo', s')) :
    Meets tokens todo' s' := by
  induction steps generalizing todo s with
  | zero => cases hwalk; exact h
  | succ steps ih =>
    cases todo with
    | nil => cases hwalk
    | cons p todo =>
      rw [walk] at hwalk
      split at hwalk
      · next hp => exact ih (h.step hp) hwalk
      · cases hwalk

theorem sound_tokenize {dialect : Dialect} {text : List Char}
    (h : Meets (tokenize dialect text) todo s) : s.Sound :=
  h.sound (tokenize_ended dialect text) (firstKind_tokenize dialect text)

end Meets
end PhpSyntax
