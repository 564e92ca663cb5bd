import PhpSyntax.Proofs.Making

/-!
What holds of every stage of a parse: the end of file comes last and only there, the current token
is never unrecognized input, and no branch is empty.
-/
namespace PhpSyntax

namespace Token

/-- These tokens end with the end of file, which is at no other place. -/
def Ended (tokens : List Token) : Prop :=
  ∃ before last, tokens = before ++ [last] ∧ last.kind = .eof ∧ ∀ t ∈ before, t.kind ≠ .eof

variable {t : Token} {tokens rest : List Token}

theorem Ended.ne_nil (h : Ended tokens) : tokens ≠ [] := by
  obtain ⟨before, last, rfl, -⟩ := h
  simp

/-- If the current token is the end of file, there is no other. -/
theorem Ended.eq_singleton (h : Ended (t :: rest)) (ht : t.kind = .eof) : rest = [] := by
  obtain ⟨before, last, he, -, hb⟩ := h
  cases before with
  | nil => exact (List.cons.inj he).2
  | cons b before =>
    have hbt : t = b := (List.cons.inj he).1
    exact absurd ht (hbt ▸ hb b (List.mem_cons_self ..))

theorem Ended.tail (h : Ended (t :: rest)) (ht : t.kind ≠ .eof) : Ended rest := by
  obtain ⟨before, last, he, hl, hb⟩ := h
  cases before with
  | nil =>
    have hlt : t = last := (List.cons.inj he).1
    exact absurd (hlt ▸ hl) ht
  | cons b before =>
    exact ⟨before, last, (List.cons.inj he).2, hl, fun t ht => hb t (List.mem_cons_of_mem b ht)⟩

/-- Unrecognized tokens are not the last ones. -/
theorem Ended.dropSkipped (h : Ended tokens) : Ended (tokens.dropWhile isSkipped) := by
  induction tokens with
  | nil => exact h
  | cons t rest ih =>
    by_cases ht : t.isSkipped = true
    · have hk : t.kind ≠ .eof := by
        intro he
        simp [isSkipped, he] at ht
      rw [List.dropWhile_cons_of_pos ht]
      exact ih (h.tail hk)
    · rwa [List.dropWhile_cons_of_neg ht]

theorem kindAt_skipped (n : Nat) (h : t.kind = .skipped) :
    kindAt n (t :: rest) = kindAt n rest := by
  cases n <;> simp [kindAt, h]

theorem kindAt_cons_zero (h : t.kind ≠ .skipped) : kindAt 0 (t :: rest) = t.kind := by
  simp [kindAt, h]

theorem kindAt_cons_succ (n : Nat) (h : t.kind ≠ .skipped) :
    kindAt (n + 1) (t :: rest) = kindAt n rest := by
  simp [kindAt, h]

/-- Counting passes unrecognized tokens by. -/
theorem kindAt_dropSkipped (n : Nat) (tokens : List Token) :
    kindAt n (tokens.dropWhile isSkipped) = kindAt n tokens := by
  induction tokens with
  | nil => rfl
  | cons t rest ih =>
    by_cases ht : t.kind = .skipped
    · rw [List.dropWhile_cons_of_pos (by simp [isSkipped, ht]), ih, kindAt_skipped n ht]
    · rw [List.dropWhile_cons_of_neg (by simp [isSkipped, ht])]

theorem kindAt_zero (h : firstKind tokens ≠ .skipped) : kindAt 0 tokens = firstKind tokens := by
  cases tokens with
  | nil => rfl
  | cons t rest => exact kindAt_cons_zero h

theorem firstKind_dropSkipped (tokens : List Token) :
    firstKind (tokens.dropWhile isSkipped) ≠ .skipped := by
  induction tokens with
  | nil => simp [firstKind]
  | cons t rest ih =>
    by_cases ht : t.isSkipped = true
    · rwa [List.dropWhile_cons_of_pos ht]
    · rw [List.dropWhile_cons_of_neg ht]
      simpa [isSkipped, firstKind] using ht

end Token

namespace Sprout

/-- Every branch has a child. -/
inductive Full : Sprout → Prop where
  | token (t : Token) : Full (token t)
  | missing (offset : Nat) : Full (missing offset)
  | branch {kind : Kind} {children : List Sprout} (nonempty : children ≠ [])
    (full : ∀ c ∈ children, Full c) : Full (branch kind children)

/-- Tokens that are put aside are one branch down. -/
theorem token_not_mem_aside {t : Token} {junk : List Token} : token t ∉ aside junk := by
  cases junk <;> simp [aside]

theorem full_aside {junk : List Token} : ∀ c ∈ aside junk, c.Full := by
  cases junk with
  | nil => simp [aside]
  | cons t ts =>
    simp only [aside, List.mem_singleton, forall_eq]
    refine .branch (by simp) fun c hc => ?_
    obtain ⟨t, -, rfl⟩ := List.mem_map.mp hc
    exact .token t

end Sprout

namespace Stage

theorem holds_outside (g : Stage) (stop : KindSet) :
    g.holds (.not (.kindIn stop)) = !stop.contains g.kind := rfl

/-- A stage that a parse can be at. -/
structure Proper (g : Stage) : Prop where
  ended : Token.Ended g.tokens
  recognized : g.kind ≠ .skipped
  full : ∀ c ∈ g.children, c.Full

variable {g g' : Stage}

/-- Taking a token that is not the end of file. -/
theorem Proper.take_eq (h : g.Proper) (hk : g.kind ≠ .eof) :
    ∃ t rest, g.tokens = t :: rest ∧ t.kind = g.kind ∧ g.take =
      { tokens := rest.dropWhile Token.isSkipped
        children := g.children ++ .token t :: Sprout.aside (rest.takeWhile Token.isSkipped)
        diagnostics := g.diagnostics ++
          (t :: rest.takeWhile Token.isSkipped).filterMap (·.error)
        lastEnd := Token.endFrom t.range.stop (rest.takeWhile Token.isSkipped)
        found := g.found.bury } := by
  obtain ⟨tokens, children, diagnostics, lastEnd, found⟩ := g
  cases tokens with
  | nil => exact absurd rfl hk
  | cons t rest => exact ⟨t, rest, rfl, rfl, if_neg hk⟩

theorem exists_token (h : g.kind ≠ .eof) : ∃ t rest, g.tokens = t :: rest := by
  obtain ⟨tokens, children, diagnostics, lastEnd, found⟩ := g
  cases tokens with
  | nil => exact absurd rfl h
  | cons t rest => exact ⟨t, rest, rfl⟩

/-- Taking a token, in the two cases that there are. -/
theorem take_cases (g : Stage) : g.take = g ∨ ∃ t rest, g.tokens = t :: rest ∧ t.kind ≠ .eof ∧
    g.take =
      { tokens := rest.dropWhile Token.isSkipped
        children := g.children ++ .token t :: Sprout.aside (rest.takeWhile Token.isSkipped)
        diagnostics := g.diagnostics ++
          (t :: rest.takeWhile Token.isSkipped).filterMap (·.error)
        lastEnd := Token.endFrom t.range.stop (rest.takeWhile Token.isSkipped)
        found := g.found.bury } := by
  obtain ⟨tokens, children, diagnostics, lastEnd, found⟩ := g
  cases tokens with
  | nil => exact .inl rfl
  | cons t rest =>
    by_cases ht : t.kind = .eof
    · exact .inl (if_pos ht)
    · exact .inr ⟨t, rest, rfl, ht, if_neg ht⟩

theorem kind_take_ne_skipped (h : g.kind ≠ .skipped) : g.take.kind ≠ .skipped := by
  rcases take_cases g with he | ⟨t, rest, -, -, he⟩
  · rwa [he]
  · rw [he]
    exact Token.firstKind_dropSkipped rest

theorem take_eof (h : g.kind = .eof) : g.take = g := by
  obtain ⟨tokens, children, diagnostics, lastEnd, found⟩ := g
  cases tokens with
  | nil => rfl
  | cons t rest => exact if_pos h

theorem Proper.take (h : g.Proper) : g.take.Proper := by
  by_cases hk : g.kind = .eof
  · rwa [take_eof hk]
  obtain ⟨t, rest, hg, ht, he⟩ := h.take_eq hk
  rw [he]
  refine ⟨((hg ▸ h.ended).tail (ht ▸ hk)).dropSkipped, Token.firstKind_dropSkipped rest, ?_⟩
  intro c hc
  simp only [List.mem_append, List.mem_cons] at hc
  rcases hc with hc | rfl | hc
  · exact h.full c hc
  · exact .token t
  · exact Sprout.full_aside c hc

/-- The token after the current one becomes the current one. -/
theorem Proper.kind_take (h : g.Proper) (hk : g.kind ≠ .eof) :
    g.take.kind = Token.kindAt 1 g.tokens := by
  obtain ⟨t, rest, hg, ht, he⟩ := h.take_eq hk
  rw [he, Stage.kind, ← Token.kindAt_zero (Token.firstKind_dropSkipped rest),
    Token.kindAt_dropSkipped, hg, Token.kindAt_cons_succ 0 (ht ▸ h.recognized)]

theorem Proper.length_take (h : g.Proper) (hk : g.kind ≠ .eof) :
    g.take.tokens.length + 1 ≤ g.tokens.length := by
  obtain ⟨t, rest, hg, -, he⟩ := h.take_eq hk
  rw [he, hg, List.length_cons]
  exact Nat.succ_le_succ (List.dropWhile_sublist _).length_le

theorem Proper.enter (h : g.Proper) : g.enter.Proper :=
  ⟨h.ended, h.recognized, by simp [Stage.enter]⟩

theorem Proper.report (h : g.Proper) (problem : Kind → Problem) : (g.report problem).Proper := by
  obtain ⟨tokens, children, diagnostics, lastEnd, found⟩ := g
  cases tokens with
  | nil => exact h
  | cons t rest => exact ⟨h.ended, h.recognized, h.full⟩

theorem Proper.miss (h : g.Proper) (what : String) : (g.miss what).Proper := by
  refine ⟨h.ended, h.recognized, fun c hc => ?_⟩
  rcases List.mem_append.mp hc with hc | hc
  · exact h.full c hc
  · rw [List.mem_singleton.mp hc]
    exact .missing _

/-- A branch with a child is put behind the children that are all full. -/
theorem Proper.leave (h : ∀ c ∈ g.children, c.Full) (h' : g'.Proper) (hn : g'.children ≠ [])
    (kind : Kind) : (g.leave kind g').Proper := by
  refine ⟨h'.ended, h'.recognized, fun c hc => ?_⟩
  rcases List.mem_append.mp hc with hc | hc
  · exact h c hc
  · rw [List.mem_singleton.mp hc]
    exact .branch hn h'.full

@[simp] theorem enter_tokens (g : Stage) : g.enter.tokens = g.tokens := rfl

@[simp] theorem leave_tokens (g g' : Stage) (kind : Kind) :
    (g.leave kind g').tokens = g'.tokens := rfl

@[simp] theorem report_tokens (g : Stage) (problem : Kind → Problem) :
    (g.report problem).tokens = g.tokens := by
  unfold report
  split <;> simp [*]

@[simp] theorem report_children (g : Stage) (problem : Kind → Problem) :
    (g.report problem).children = g.children := by
  unfold report
  split <;> rfl

@[simp] theorem report_lastEnd (g : Stage) (problem : Kind → Problem) :
    (g.report problem).lastEnd = g.lastEnd := by
  unfold report
  split <;> rfl

@[simp] theorem report_kind (g : Stage) (problem : Kind → Problem) :
    (g.report problem).kind = g.kind := by
  rw [kind, report_tokens, kind]

theorem report_eq {t : Token} {rest : List Token} (problem : Kind → Problem)
    (h : g.tokens = t :: rest) : g.report problem =
      { g with diagnostics := g.diagnostics ++ [.of (problem t.kind) t.range] } := by
  obtain ⟨tokens, children, diagnostics, lastEnd, found⟩ := g
  subst h
  rfl

theorem take_children_eq {t : Token} {rest : List Token} (h : g.tokens = t :: rest)
    (ht : t.kind ≠ .eof) : g.take.children =
      g.children ++ .token t :: Sprout.aside (rest.takeWhile Token.isSkipped) := by
  obtain ⟨tokens, children, diagnostics, lastEnd, found⟩ := g
  subst h
  exact congrArg Stage.children (if_neg ht)

theorem take_children {t : Token} {rest : List Token} (h : g.tokens = t :: rest)
    (ht : t.kind ≠ .eof) : ∃ junk, g.take.children = g.children ++ .token t :: junk :=
  ⟨_, take_children_eq h ht⟩

theorem take_children_ne_nil (h : g.kind ≠ .eof) (hp : g.Proper) : g.take.children ≠ [] := by
  obtain ⟨t, rest, -, -, he⟩ := hp.take_eq h
  rw [he]
  simp

end Stage

/-- Something that was recorded is not lost. -/
theorem Makes.children_ne_nil {ρ : Type} {grammar : ρ → Act ρ} {a : Act ρ} {g g' : Stage} {n : Nat}
    (h : Makes grammar a g n g') (hg : g.children ≠ []) : g'.children ≠ [] := by
  induction h with
  | done | decline | require => exact hg
  | bump =>
    unfold Stage.take
    split
    · exact hg
    · split
      · exact hg
      · simp
  | missing => simp [Stage.miss]
  | recover | node | nodeIfAny | wrap => simp [Stage.leave]
  | nodeIfNone => exact hg
  | andThen _ _ ih₁ ih₂ | again _ _ _ ih₁ ih₂ => exact ih₂ (ih₁ hg)
  | branch _ ih | byKind _ ih | call _ ih => exact ih hg
  | stop => exact hg

end PhpSyntax
