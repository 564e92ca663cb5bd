import Mathlib.Logic.Function.Iterate
import PhpSyntax.Proofs.Meeting
import PhpSyntax.Proofs.Shifting
import PhpSyntax.Proofs.Writing

/-!
Looking ahead. What a rule sees `n` places ahead is the token that it comes to when it takes `n`
tokens, however much unrecognized input lies between them; and a loop that counts recognized tokens
on a copy of the lexer sees the same.
-/
namespace PhpSyntax

namespace ParseState

variable {s : ParseState}

/-- At the end of file there is nothing else ahead. -/
theorem Sound.ahead_eof (h : s.Sound) (hk : s.kind = .eof) (n : Nat) : s.ahead n = .eof := by
  obtain ⟨t, rest, ht⟩ := List.exists_cons_of_ne_nil h.ended.ne_nil
  have htk : t.kind = .eof := by rwa [kind, ht] at hk
  obtain rfl := (ht ▸ h.ended).eq_singleton htk
  rw [ahead, ht]
  cases n <;> simp [Token.kindAt, htk]

/-- Where a token can be taken, it is the one less that is ahead. -/
theorem Sound.ahead_succ (h : s.Sound) (hk : s.kind ≠ .eof) (n : Nat) :
    s.ahead (n + 1) = s.advance.ahead n := by
  obtain ⟨t, rest, ht, htk⟩ := exists_token hk
  rw [ahead, ahead, advance_tokens ht (htk ▸ hk), Token.kindAt_dropSkipped, ht,
    Token.kindAt_cons_succ n (htk ▸ h.recognized)]

/-- To look ahead is to see what the current token will be. -/
theorem Sound.ahead_eq (h : s.Sound) (n : Nat) : s.ahead n = (ParseState.advance^[n] s).kind := by
  induction n generalizing s with
  | zero => exact Token.kindAt_zero h.recognized
  | succ n ih =>
    rw [Function.iterate_succ_apply, ← ih h.advance]
    by_cases hk : s.kind = .eof
    · rw [advance_eof hk, h.ahead_eof hk, h.ahead_eof hk]
    · exact h.ahead_succ hk n

end ParseState

namespace Session

/-- How much of the text there is behind the token to come. -/
def toCome (s : Session) : Nat := if s.peek.kind = .eof then 0 else s.following.rest.length + 1

variable {s : Session} {ts rest : List Token} {n seen : Nat}

theorem toCome_next (h : s.peek.kind ≠ .eof) : s.next.2.toCome < s.toCome := by
  rw [toCome, toCome, if_neg h]
  split
  · exact Nat.succ_pos _
  · next hk => exact Nat.succ_lt_succ ((Place.next_reads _ s.following).length_lt hk)

/-- The kind of the `n`-th recognized token, of which `seen` were passed by, on a copy of a session;
the end of file is never passed by. -/
def lookFrom (n seen : Nat) (copy : Session) : Kind :=
  if copy.peek.kind = .eof then .eof
  else if copy.peek.kind = .skipped then copy.next.2.lookFrom n seen
  else if seen = n then copy.peek.kind
  else copy.next.2.lookFrom n (seen + 1)
termination_by copy.toCome
decreasing_by all_goals exact toCome_next ‹_›

/-- The kind of the recognized token `n` places ahead; the token to come is at 0. -/
def lookAhead (s : Session) (n : Nat) : Kind :=
  if n = 0 ∧ s.peek.kind ≠ .skipped then s.peek.kind else s.lookFrom n 0

/-- The loop sees what counting sees in the tokens that the session has to come. -/
theorem Gives.lookFrom_eq (h : s.Gives ts) (hseen : seen ≤ n) :
    s.lookFrom n seen = Token.kindAt (n - seen) ts := by
  induction h generalizing seen with
  | @last s hk =>
    have hk : s.peek.kind = .eof := hk
    rw [lookFrom, if_pos hk]
    cases n - seen <;> simp [Token.kindAt, show s.next.1.kind = .eof from hk]
  | @more s ts hk _ ih =>
    have hk : s.peek.kind ≠ .eof := hk
    rw [lookFrom, if_neg hk]
    split
    · next hskipped => rw [ih hseen, Token.kindAt_skipped (t := s.next.1) _ hskipped]
    · next hkind =>
      split
      · next heq => rw [heq, Nat.sub_self, Token.kindAt_cons_zero (t := s.next.1) hkind]; rfl
      · next hne =>
        obtain ⟨d, hd⟩ := Nat.exists_eq_add_one.mpr (Nat.sub_pos_of_lt (by omega : seen < n))
        rw [ih (by omega), hd, Token.kindAt_cons_succ (t := s.next.1) _ hkind]
        congr 1
        omega

theorem Gives.lookAhead_eq (h : s.Gives ts) (n : Nat) : s.lookAhead n = Token.kindAt n ts := by
  rw [lookAhead]
  split
  · next hzero =>
    obtain ⟨rfl, hk⟩ := hzero
    cases h with
    | last | more => exact (Token.kindAt_cons_zero hk).symm
  · exact h.lookFrom_eq (Nat.zero_le n)

theorem Gives.peek_kind (h : s.Gives ts) : s.peek.kind = Token.firstKind ts := by
  cases h <;> rfl

/-- After some tokens a session has those to come that are left. -/
theorem Gives.skip {taken : List Token} (h : s.Gives (taken ++ rest)) (hrest : rest ≠ []) :
    (s.skip taken.length).Gives rest := by
  induction taken generalizing s with
  | nil => exact h
  | cons t taken ih =>
    rw [List.cons_append] at h
    generalize hts : taken ++ rest = ts at h
    cases h with
    | last => exact absurd (List.append_eq_nil_iff.mp hts).2 hrest
    | more _ tail => exact ih (hts ▸ tail)

/-- A session that reads at a place has the tokens from there on to come. -/
theorem gives_read (hpending : s.pending = none) :
    s.read.Gives (s.following.tokens s.dialect) := by
  induction hn : s.following.rest.length using Nat.strongRecOn generalizing s with
  | ind l ih =>
    subst hn
    have hpeek : s.read.next.1 = (s.following.next s.dialect).1 := by
      rw [next, read, hpending]
      dsimp only
      obtain ⟨offset, leading, kind, text, error⟩ := (s.following.next s.dialect).1
      cases error <;> rfl
    by_cases hk : (s.following.next s.dialect).1.kind = .eof
    · rw [Place.tokens_eof hk, ← hpeek]
      exact .last (hpeek ▸ hk)
    · have hlt := (Place.next_reads s.dialect s.following).length_lt hk
      rw [Place.tokens_next hk, ← hpeek]
      exact .more (hpeek ▸ hk) (ih _ hlt rfl rfl)

theorem gives_tokenize (dialect : Dialect) (text : List Char) :
    (start dialect text {}).Gives (tokenize dialect text) := by
  have hplace : LexState.place text {} = ⟨0, .html, text⟩ :=
    LexState.place_eq (p := ⟨0, .html, text⟩) ⟨[], rfl, rfl⟩
  rw [tokenize_eq_tokens, ← hplace]
  exact gives_read rfl

end Session

variable {dialect : Dialect} {text : List Char} {todo : List (Pending Rule)} {s : ParseState}

/-- In every state of a parse, what is seen `n` places ahead is the kind of the token that is the
current one after taking `n` tokens. The lexer, from which as many tokens were taken as lie behind,
has the same tokens to come, and its own loop sees the same ahead. Steps that ask what comes, ahead
or not, change nothing. -/
theorem Meets.ahead_advances (h : Meets (tokenize dialect text) todo s) :
    (∀ n, s.ahead n = (ParseState.advance^[n] s).kind) ∧
    (∃ taken, tokenize dialect text = taken ++ s.tokens ∧
      let lexer := (Session.start dialect text {}).skip taken.length
      lexer.peek.kind = s.kind ∧ ∀ n, lexer.lookAhead n = (ParseState.advance^[n] s).kind) ∧
    ∀ test yes no body,
      (Pending.act (.branch test yes no)).perform Grammar.php s =
        .ok ([.act (if s.holds test then yes else no)], s) ∧
      (Pending.act (.repeatWhile test body)).perform Grammar.php s =
        .ok (if s.holds test then [.act body, .act (.repeatWhile test body)] else [], s) := by
  have hs := h.sound_tokenize
  refine ⟨hs.ahead_eq, ?_, fun test yes no body => ⟨rfl, rfl⟩⟩
  obtain ⟨taken, htaken⟩ := h.suffix
  have hgives := Session.gives_tokenize dialect text
  rw [← htaken] at hgives
  have hleft := hgives.skip hs.ended.ne_nil
  refine ⟨taken, htaken.symm, hleft.peek_kind, fun n => ?_⟩
  rw [hleft.lookAhead_eq, ← hs.ahead_eq, ParseState.ahead]

/-- Unrecognized input between two tokens is seen by none of the two loops. -/
theorem ahead_advances_unrecognized :
    let tokens := tokenize {} "<?php 1 \x01 \x02 + 2;".toList
    let s := (ParseState.start tokens).openBranch.2
    Meets tokens [.act Grammar.program] s ∧ (tokens.map (·.kind)).count .skipped = 2 ∧
      s.ahead 2 = .plus ∧ (ParseState.advance^[2] s).kind = .plus ∧
      ((Session.start {} "<?php 1 \x01 \x02 + 2;".toList {}).skip 0).lookAhead 2 = .plus := by
  intro tokens s
  have hs : Meets tokens [.act Grammar.program] s := .start
  have hplus : s.ahead 2 = .plus := by decide +kernel
  obtain ⟨hahead, ⟨taken, htaken, -, hlook⟩, -⟩ := hs.ahead_advances
  obtain rfl : taken = [] := List.self_eq_append_left.mp htaken
  exact ⟨hs, by decide +kernel, hplus, (hahead 2).symm.trans hplus,
    ((hlook 2).trans (hahead 2).symm).trans hplus⟩

end PhpSyntax
