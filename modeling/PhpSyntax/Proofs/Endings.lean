import PhpSyntax.Proofs.Leading
import PhpSyntax.Proofs.Seams
import PhpSyntax.Proofs.Statements

/-!
What an action that reports nothing would make of the same words if others came after them instead of
the end of file. The last word before the seam ends a statement or a block, so no test looks across
it, and what is still to do behind it is nothing, unless something is missing. Both are computed from
the actions.
-/
namespace PhpSyntax

/-! ## Tests -/

/-- What is known of the tokens to come: the kinds of the first and the second one, if they are. -/
structure Glimpse where
  now : Option Kind
  next : Option Kind

/-- The tokens are as they are known to be. -/
structure Glimpse.Of (v : Glimpse) (tokens : List Token) : Prop where
  now : ∀ k, v.now = some k → Token.firstKind tokens = k
  next : ∀ k, v.next = some k → Token.kindAt 1 tokens = k

theorem Glimpse.Of.of_now {c : Option Kind} {tokens : List Token}
    (h : ∀ k, c = some k → Token.firstKind tokens = k) : Glimpse.Of ⟨c, none⟩ tokens :=
  ⟨h, fun _ hk => by cases hk⟩

namespace Test

/-- The answer to a question, as far as it is known. -/
def answer (v : Glimpse) : Test → Option Bool
  | kind k => v.now.map (· == k)
  | kindIn s => v.now.map s.contains
  | aheadIn n s => if n = 1 then v.next.map s.contains else none
  | word _ | found => none
  | not t => (t.answer v).map (!·)
  | and a b =>
    if a.answer v = some false ∨ b.answer v = some false then some false
    else if a.answer v = some true ∧ b.answer v = some true then some true
    else none
  | or a b =>
    if a.answer v = some true ∨ b.answer v = some true then some true
    else if a.answer v = some false ∧ b.answer v = some false then some false
    else none

/-- The answer hangs on no more than the first `shared` tokens. -/
def settled (v : Glimpse) (shared : Nat) : Test → Bool
  | kind _ | kindIn _ | word _ | found => true
  | aheadIn n _ => decide (n < shared)
  | not t => t.settled v shared
  | and a b =>
    a.settled v shared && b.settled v shared ||
      a.answer v == some false || b.answer v == some false
  | or a b =>
    a.settled v shared && b.settled v shared || a.answer v == some true || b.answer v == some true

/-- The answer does not hang on what is behind a token that closes, wherever that one is. The kind of
the current token is `c`, if it is known. -/
def near (c : Option Kind) (t : Test) : Bool :=
  [Kind.semicolon, .rightBrace].all fun k =>
    (c.any (· != k) || t.settled ⟨some k, none⟩ 1) && t.settled ⟨c, some k⟩ 2 &&
      t.settled ⟨c, none⟩ 3

/-- The answer is no at every token that can follow a statement, and at the end of file. -/
def hushed (t : Test) : Bool :=
  Kind.all.all fun k => !k.follows || t.answer ⟨some k, none⟩ == some false

variable {v : Glimpse} {ts us : List Token} {t : Test} {b f : Bool} {shared : Nat}

theorem holds_of_answer (hv : v.Of ts) (h : t.answer v = some b) : t.holds ts f = b := by
  induction t generalizing b with
  | kind k =>
    obtain ⟨j, hj, rfl⟩ := Option.map_eq_some_iff.mp h
    rw [holds, hv.now j hj]
  | kindIn s =>
    obtain ⟨j, hj, rfl⟩ := Option.map_eq_some_iff.mp h
    rw [holds, hv.now j hj]
  | aheadIn n s =>
    obtain ⟨rfl, h⟩ := Option.ite_none_right_eq_some.mp h
    obtain ⟨j, hj, rfl⟩ := Option.map_eq_some_iff.mp h
    rw [holds, hv.next j hj]
  | word w => cases h
  | found => cases h
  | not t ih =>
    obtain ⟨x, hx, rfl⟩ := Option.map_eq_some_iff.mp h
    rw [holds, ih hx]
  | and p q ihp ihq =>
    rw [answer] at h
    split at h
    · next hf =>
      rw [holds, ← Option.some.inj h]
      rcases hf with hp | hq
      · rw [ihp hp, Bool.false_and]
      · rw [ihq hq, Bool.and_false]
    · obtain ⟨⟨hp, hq⟩, h⟩ := Option.ite_none_right_eq_some.mp h
      rw [holds, ihp hp, ihq hq, ← Option.some.inj h]
      rfl
  | or p q ihp ihq =>
    rw [answer] at h
    split at h
    · next ht =>
      rw [holds, ← Option.some.inj h]
      rcases ht with hp | hq
      · rw [ihp hp, Bool.true_or]
      · rw [ihq hq, Bool.or_true]
    · obtain ⟨⟨hp, hq⟩, h⟩ := Option.ite_none_right_eq_some.mp h
      rw [holds, ihp hp, ihq hq, ← Option.some.inj h]
      rfl

/-- Tokens that agree as far as the answer hangs on them. -/
theorem holds_of_settled (hts : v.Of ts) (hus : v.Of us)
    (hfirst : Token.firstKind ts = Token.firstKind us)
    (hword : ∀ w, Token.spells ts w = Token.spells us w)
    (hkinds : ∀ n < shared, Token.kindAt n ts = Token.kindAt n us)
    (h : t.settled v shared = true) : t.holds ts f = t.holds us f := by
  induction t with
  | kind k => rw [holds, holds, hfirst]
  | kindIn s => rw [holds, holds, hfirst]
  | aheadIn n s => rw [holds, holds, hkinds n (of_decide_eq_true h)]
  | word w => exact hword w
  | found => rfl
  | not t ih => rw [holds, holds, ih h]
  | and p q ihp ihq =>
    simp only [settled, Bool.or_eq_true, Bool.and_eq_true, beq_iff_eq] at h
    rcases h with (⟨hp, hq⟩ | hp) | hq
    · rw [holds, holds, ihp hp, ihq hq]
    · rw [holds, holds, holds_of_answer hts hp, holds_of_answer hus hp]
      rfl
    · rw [holds, holds, holds_of_answer hts hq, holds_of_answer hus hq, Bool.and_false,
        Bool.and_false]
  | or p q ihp ihq =>
    simp only [settled, Bool.or_eq_true, Bool.and_eq_true, beq_iff_eq] at h
    rcases h with (⟨hp, hq⟩ | hp) | hq
    · rw [holds, holds, ihp hp, ihq hq]
    · rw [holds, holds, holds_of_answer hts hp, holds_of_answer hus hp]
      rfl
    · rw [holds, holds, holds_of_answer hts hq, holds_of_answer hus hq, Bool.or_true,
        Bool.or_true]

theorem holds_of_hushed (h : t.hushed = true) (hk : (Token.firstKind ts).follows = true) :
    t.holds ts f = false := by
  have hfirst := List.all_eq_true.mp h _ (Kind.mem_all (Token.firstKind ts))
  rw [hk, Bool.not_true, Bool.false_or, beq_iff_eq] at hfirst
  exact holds_of_answer (.of_now fun _ => Option.some.inj) hfirst

end Test

namespace Word

/-- Words of a text, the last of which closes. -/
structure Sealed (ws : List Word) : Prop where
  inner : ∀ w ∈ ws, w.1 ≠ .eof ∧ w.1 ≠ .skipped
  last : ∀ w ∈ ws.getLast?, w.1.closes = true

variable {ws us vs : List Word} {w : Word}

theorem Sealed.suffix (h : Sealed ws) (hs : us <:+ ws) : Sealed us := by
  refine ⟨fun w hw => h.inner w (hs.subset hw), fun w hw => h.last w ?_⟩
  obtain ⟨front, rfl⟩ := hs
  rw [List.getLast?_append, hw]
  rfl

theorem kindAt_append (h : ∀ w ∈ ws, w.1 ≠ .skipped) {n : Nat} (hn : n < ws.length) :
    Token.kindAt n ((ws ++ us).map token) = ws[n].1 := by
  induction ws generalizing n with
  | nil => cases hn
  | cons w ws ih =>
    obtain ⟨hw, hws⟩ := List.forall_mem_cons.mp h
    rw [List.cons_append, List.map_cons]
    cases n with
    | zero => exact Token.kindAt_cons_zero hw
    | succ n =>
      rw [Token.kindAt_cons_succ n hw]
      exact ih hws (Nat.lt_of_succ_lt_succ hn)

/-- Before a token that closes no test that is near sees what is behind it. -/
theorem Sealed.holds_near (h : Sealed ws) (hne : ws ≠ []) {t : Test} {c : Option Kind}
    (hc : ∀ k, c = some k → first ws = k) (ht : t.near c = true) (us vs : List Word) (f : Bool) :
    t.holds ((ws ++ us).map token) f = t.holds ((ws ++ vs).map token) f := by
  have hskipped : ∀ w ∈ ws, w.1 ≠ .skipped := fun w hw => (h.inner w hw).2
  have hmem {k : Kind} (hk : k.closes = true) : k ∈ [Kind.semicolon, .rightBrace] := by
    simpa using Kind.closes_cases hk
  have hkinds (n : Nat) (hn : n < ws.length) :
      Token.kindAt n ((ws ++ us).map token) = Token.kindAt n ((ws ++ vs).map token) := by
    rw [kindAt_append hskipped hn, kindAt_append hskipped hn]
  match ws, hne with
  | [w], _ =>
    -- the current token closes
    have hk := List.all_eq_true.mp ht _ (hmem (h.last w rfl))
    simp only [Bool.and_eq_true, Bool.or_eq_true] at hk
    rcases hk.1.1 with hother | hsettled
    · cases c with
      | none => cases hother
      | some j =>
        have hj : w.1 = j := hc j rfl
        rw [hj] at hother
        simp at hother
    · exact Test.holds_of_settled (.of_now fun _ => Option.some.inj)
        (.of_now fun _ => Option.some.inj) rfl (fun _ => rfl) hkinds hsettled
  | [w, w'], _ =>
    -- the next one closes
    have hk := List.all_eq_true.mp ht _ (hmem (h.last w' rfl))
    simp only [Bool.and_eq_true] at hk
    have hnext (us : List Word) (k : Kind) (hk : some w'.1 = some k) :
        Token.kindAt 1 (([w, w'] ++ us).map token) = k :=
      (kindAt_append hskipped Nat.one_lt_two).trans (Option.some.inj hk)
    exact Test.holds_of_settled ⟨hc, hnext us⟩ ⟨hc, hnext vs⟩ rfl (fun _ => rfl) hkinds hk.1.2
  | w :: w' :: w'' :: rest, _ =>
    -- no test looks as far as the one that closes
    have hk := List.all_eq_true.mp ht _ (List.mem_cons_self ..)
    simp only [Bool.and_eq_true] at hk
    refine Test.holds_of_settled (.of_now hc) (.of_now hc) rfl (fun _ => rfl) (fun n hn => ?_) hk.2
    exact hkinds n (Nat.lt_of_lt_of_le hn (by simp))

end Word

/-! ## Actions -/

namespace Act

variable {ρ : Type}

/-- No test of the action sees what is behind a token that closes. The kind of the current token is
`c`, if it is known. -/
def near : Act ρ → Option Kind → Bool
  | done, _ | bump, _ | missing _, _ | decline, _ | call _, _ | recover _ _, _ => true
  | require test, c => test.near c
  | andThen a b, c => a.near c && b.near none
  | node _ body, c | nodeIfAny _ body, c | wrap _ body, c => body.near c
  | branch test a b, c => test.near c && a.near c && b.near c
  | byKind choose, _ => Kind.all.all fun k => (choose k).near (some k)
  | repeatWhile test body, _ => test.near none && body.near none

/-- At the end of file the action reports something. -/
def complains : Act ρ → Bool
  | missing _ | recover _ _ => true
  | done | require _ | bump | decline | call _ | repeatWhile _ _ => false
  | andThen a b => a.complains || b.complains
  | node _ body | nodeIfAny _ body | wrap _ body => body.complains
  | branch test a b =>
    match test.answer ⟨some .eof, none⟩ with
    | some true => a.complains
    | some false => b.complains
    | none => a.complains && b.complains
  | byKind choose => (choose .eof).complains

/-- The action does nothing at tokens that can follow a statement, and at the end of file. -/
def rests : Act ρ → Bool
  | done => true
  | andThen a b => a.rests && b.rests
  | branch test _ b => test.hushed && b.rests
  | repeatWhile test _ => test.hushed
  | _ => false

/-- The action takes no token that closes. -/
def spares : Act ρ → Bool
  | branch (.kind k) bump done => !k.closes
  | andThen a b => a.spares && b.spares
  | _ => false

/-- If the action is over at the end of file, behind a token that closes, it is over there whatever
follows. Calls of some rules are known to have this property. -/
def closes (known : ρ → Bool) : Act ρ → Bool
  | done | require _ | bump | missing _ | recover _ _ | decline => true
  | andThen a b => b.closes known && (b.complains || a.spares || a.closes known && b.rests)
  | node _ body | nodeIfAny _ body | wrap _ body => body.closes known
  | branch _ a b => a.closes known && b.closes known
  | byKind choose => Kind.all.all fun k => (choose k).closes known
  | repeatWhile test body => test.hushed && body.closes known
  | call rule => known rule

end Act

section Quiet

variable {ρ : Type} {grammar : ρ → Act ρ} {a b : Act ρ} {g g₁ g' : Stage} {m n : Nat}

theorem Stage.take_grows (g : Stage) : ∃ more, g.take.diagnostics = g.diagnostics ++ more := by
  rcases g.take_cases with he | ⟨t, rest, -, -, he⟩
  · exact ⟨[], by rw [he, List.append_nil]⟩
  · exact ⟨_, congrArg Stage.diagnostics he⟩

theorem Stage.report_grows (g : Stage) (problem : Kind → Problem) (h : g.kind ≠ .eof) :
    ∃ d, (g.report problem).diagnostics = g.diagnostics ++ [d] := by
  obtain ⟨t, rest, ht⟩ := Stage.exists_token h
  exact ⟨_, congrArg Stage.diagnostics (Stage.report_eq problem ht)⟩

/-- What was reported stays reported. -/
theorem Makes.diagnostics_grow (h : Makes grammar a g n g') :
    ∃ more, g'.diagnostics = g.diagnostics ++ more := by
  have hsame (g : Stage) : ∃ more, g.diagnostics = g.diagnostics ++ more :=
    ⟨[], (List.append_nil _).symm⟩
  induction h with
  | done | require | decline | stop => exact hsame _
  | bump => exact Stage.take_grows _
  | missing => exact ⟨_, rfl⟩
  | andThen _ _ ih₁ ih₂ | again _ _ _ ih₁ ih₂ =>
    obtain ⟨more₁, h₁⟩ := ih₁
    obtain ⟨more₂, h₂⟩ := ih₂
    exact ⟨more₁ ++ more₂, by rw [h₂, h₁, List.append_assoc]⟩
  | @recover problem stop g n g' hk _ ih =>
    obtain ⟨more, hm⟩ := ih
    obtain ⟨more', hm'⟩ := (g.enter.report problem).take_grows
    obtain ⟨d, hd⟩ := g.enter.report_grows problem hk
    refine ⟨d :: (more' ++ more), ?_⟩
    show g'.diagnostics = _
    rw [hm, hm', hd]
    simp [Stage.enter]
  | node _ ih | nodeIfAny _ _ ih | nodeIfNone _ _ ih | wrap _ _ _ ih | branch _ ih | byKind _ ih
    | call _ ih => exact ih

/-- Two actions one after the other report nothing only if neither of them does. -/
theorem Makes.quiet (h : Makes grammar a g m g₁) (h' : Makes grammar b g₁ n g')
    (hd : g'.diagnostics = g.diagnostics) :
    g₁.diagnostics = g.diagnostics ∧ g'.diagnostics = g₁.diagnostics := by
  obtain ⟨more, hm⟩ := h.diagnostics_grow
  obtain ⟨more', hm'⟩ := h'.diagnostics_grow
  rw [hm, List.append_assoc] at hm'
  have hnil := List.append_eq_nil_iff.mp (List.append_right_eq_self.mp (hm'.symm.trans hd))
  rw [hnil.1, List.append_nil] at hm
  exact ⟨hm, hd.trans hm.symm⟩

/-- Recovery always reports something. -/
theorem Makes.recover_reports {problem : Kind → Problem} {stop : KindSet}
    (h : Makes grammar (.recover problem stop) g n g') : g'.diagnostics ≠ g.diagnostics := by
  cases h with
  | @recover _ _ _ n g' hk loop =>
    obtain ⟨more, hm⟩ := loop.diagnostics_grow
    obtain ⟨more', hm'⟩ := (g.enter.report problem).take_grows
    obtain ⟨d, hd⟩ := g.enter.report_grows problem hk
    show g'.diagnostics ≠ g.diagnostics
    rw [hm, hm', hd]
    simp [Stage.enter]

/-- At the end of file no token is taken. -/
theorem Makes.tokens_at_end (h : Makes grammar a g n g') (hk : g.kind = .eof) :
    g'.tokens = g.tokens := by
  induction h with
  | done | require | decline | stop | missing => rfl
  | bump => rw [Stage.take_eof hk]
  | recover hne => exact absurd hk hne
  | andThen _ _ ih₁ ih₂ | again _ _ _ ih₁ ih₂ =>
    have h₁ := ih₁ hk
    have hk₁ : Stage.kind _ = .eof := (congrArg Token.firstKind h₁).trans hk
    exact (ih₂ hk₁).trans h₁
  | node _ ih | nodeIfAny _ _ ih | nodeIfNone _ _ ih | wrap _ _ _ ih | branch _ ih | byKind _ ih
    | call _ ih => exact ih hk

theorem Makes.complains (h : Makes grammar a g n g') (ha : a.complains = true)
    (hk : g.kind = .eof) : g'.diagnostics ≠ g.diagnostics := by
  induction h with
  | done | require | decline | bump | stop | again | call => cases ha
  | missing => simp [Stage.miss]
  | recover hne => exact absurd hk hne
  | andThen first second ih₁ ih₂ =>
    intro hd
    obtain ⟨hd₁, hd₂⟩ := first.quiet second hd
    rcases Bool.or_eq_true_iff.mp ha with ha | ha
    · exact ih₁ ha hk hd₁
    · exact ih₂ ha ((congrArg Token.firstKind (first.tokens_at_end hk)).trans hk) hd₂
  | node _ ih | nodeIfAny _ _ ih | nodeIfNone _ _ ih | wrap _ _ _ ih => exact ih ha hk
  | @branch test yes no g n g' _ ih =>
    have hv : Glimpse.Of ⟨some .eof, none⟩ g.tokens :=
      .of_now fun k hk' => hk.trans (Option.some.inj hk')
    refine ih ?_ hk
    rw [Act.complains] at ha
    split at ha
    · next hanswer => rwa [if_pos (show g.holds test = true from Test.holds_of_answer hv hanswer)]
    · next hanswer =>
      rwa [if_neg (Bool.eq_false_iff.mp (show g.holds test = false from
        Test.holds_of_answer hv hanswer))]
    · obtain ⟨hyes, hno⟩ := Bool.and_eq_true_iff.mp ha
      split <;> assumption
  | byKind _ ih => exact ih (by rw [hk]; exact ha) hk

theorem Makes.rests (h : Makes grammar a g n g') (ha : a.rests = true)
    (hk : g.kind.follows = true) : g' = g := by
  induction h with
  | done | stop => rfl
  | andThen _ _ ih₁ ih₂ =>
    obtain ⟨ha₁, ha₂⟩ := Bool.and_eq_true_iff.mp ha
    have h₁ := ih₁ ha₁ hk
    subst h₁
    exact ih₂ ha₂ hk
  | @branch test yes no g n g' _ ih =>
    obtain ⟨ht, hno⟩ := Bool.and_eq_true_iff.mp ha
    have hfalse : g.holds test = false := Test.holds_of_hushed ht hk
    exact ih (by rwa [if_neg (Bool.eq_false_iff.mp hfalse)]) hk
  | @again test body g m g₁ n g₂ hgo =>
    have hfalse : g.holds test = false := Test.holds_of_hushed ha hk
    rw [hgo] at hfalse
    cases hfalse
  | _ => cases ha

theorem Leads.rests {s : Spot} (ha : a.rests = true) (hk : s.kind.follows = true) :
    Leads grammar a s s := by
  induction a with
  | done => exact .done
  | andThen a b iha ihb =>
    obtain ⟨ha, hb⟩ := Bool.and_eq_true_iff.mp ha
    exact (iha ha).andThen (ihb hb)
  | branch test a b _ ihb =>
    obtain ⟨ht, hb⟩ := Bool.and_eq_true_iff.mp ha
    exact .no (Test.holds_of_hushed ht hk) (ihb hb)
  | repeatWhile test body => exact .stop (Test.holds_of_hushed ha hk)
  | _ => cases ha

/-- At the end of file no token is taken. -/
theorem Leads.bump_end {s : Spot} (hk : s.kind = .eof) : Leads grammar .bump s s := by
  refine fun hs => ⟨hs, fun ds e => ⟨1, e, ?_⟩⟩
  have hmade : Makes grammar .bump (s.stage ds e) 1 (s.stage ds e).take := .bump
  rwa [Stage.take_eof (g := s.stage ds e) hk] at hmade

/-- A word is taken, or nothing at the end of file. -/
theorem Leads.take {ws : List Word} (hg : g.tokens = ws.map Word.token)
    (hs : ∀ w ∈ ws, w.1 ≠ .skipped) : ∃ ws', g.take.tokens = ws'.map Word.token ∧
      Leads grammar .bump ⟨ws, g.children, g.found⟩ ⟨ws', g.take.children, g.take.found⟩ := by
  obtain ⟨tokens, children, diagnostics, lastEnd, found⟩ := g
  obtain rfl : tokens = ws.map Word.token := hg
  by_cases hk : Word.first ws = .eof
  · rw [Stage.take_eof (show Stage.kind ⟨ws.map Word.token, _, _, _, _⟩ = .eof from hk)]
    exact ⟨ws, rfl, .bump_end hk⟩
  · cases ws with
    | nil => exact absurd rfl hk
    | cons w ws =>
      have htake : (Stage.mk ((w :: ws).map Word.token) children diagnostics lastEnd found).take =
          Spot.stage ⟨ws, children ++ [.token w.token], found.bury⟩ diagnostics
            w.token.range.stop :=
        Spot.take_stage hk (fun v hv => hs v (List.mem_cons_of_mem w hv)) diagnostics lastEnd
      rw [htake]
      exact ⟨ws, rfl, .bump hk⟩

/-- An action that reports nothing does the same whatever was reported before, and wherever the
tokens stand. -/
theorem Makes.leads (h : Makes grammar a g n g') (hd : g'.diagnostics = g.diagnostics)
    {ws : List Word} (hg : g.tokens = ws.map Word.token) (hs : ∀ w ∈ ws, w.1 ≠ .skipped) :
    ∃ ws', g'.tokens = ws'.map Word.token ∧
      Leads grammar a ⟨ws, g.children, g.found⟩ ⟨ws', g'.children, g'.found⟩ := by
  have hholds {g : Stage} {ws : List Word} (hg : g.tokens = ws.map Word.token) (test : Test) :
      Spot.holds ⟨ws, g.children, g.found⟩ test = g.holds test := by rw [Stage.holds, hg]; rfl
  induction h generalizing ws with
  | done => exact ⟨ws, hg, .done⟩
  | require ht => exact ⟨ws, hg, .require ((hholds hg _).trans ht)⟩
  | stop ht => exact ⟨ws, hg, .stop ((hholds hg _).trans ht)⟩
  | decline => exact ⟨ws, hg, .decline⟩
  | bump => exact Leads.take hg hs
  | missing => simp [Stage.miss] at hd
  | recover hk loop => exact absurd hd (Makes.recover hk loop).recover_reports
  | andThen first second ih₁ ih₂ =>
    obtain ⟨hd₁, hd₂⟩ := first.quiet second hd
    obtain ⟨ws₁, hg₁, h₁⟩ := ih₁ hd₁ hg hs
    obtain ⟨ws₂, hg₂, h₂⟩ := ih₂ hd₂ hg₁ (h₁ hs).1
    exact ⟨ws₂, hg₂, h₁.andThen h₂⟩
  | again ht first rest ih₁ ih₂ =>
    obtain ⟨hd₁, hd₂⟩ := first.quiet rest hd
    obtain ⟨ws₁, hg₁, h₁⟩ := ih₁ hd₁ hg hs
    obtain ⟨ws₂, hg₂, h₂⟩ := ih₂ hd₂ hg₁ (h₁ hs).1
    exact ⟨ws₂, hg₂, .again ((hholds hg _).trans ht) h₁ h₂⟩
  | node _ ih =>
    obtain ⟨ws', hg', h'⟩ := ih hd hg hs
    exact ⟨ws', hg', .node h'⟩
  | nodeIfAny _ hn ih =>
    obtain ⟨ws', hg', h'⟩ := ih hd hg hs
    exact ⟨ws', hg', .nodeIfAny h' hn⟩
  | nodeIfNone _ hn ih =>
    obtain ⟨ws', hg', h'⟩ := ih hd hg hs
    exact ⟨ws', hg', .nodeIfNone (by rwa [hn] at h')⟩
  | wrap hf hl _ ih =>
    obtain ⟨ws', hg', h'⟩ := ih hd hg hs
    exact ⟨ws', hg', by rw [hf, hl]; exact .wrap h'⟩
  | @branch test yes no g n g' _ ih =>
    obtain ⟨ws', hg', h'⟩ := ih hd hg hs
    refine ⟨ws', hg', ?_⟩
    cases ht : g.holds test with
    | true => exact .yes ((hholds hg _).trans ht) (by rwa [if_pos ht] at h')
    | false => exact .no ((hholds hg _).trans ht) (by rwa [if_neg (Bool.eq_false_iff.mp ht)] at h')
  | @byKind choose g n g' _ ih =>
    obtain ⟨ws', hg', h'⟩ := ih hd hg hs
    have hk : Spot.kind ⟨ws, g.children, g.found⟩ = g.kind := by
      rw [Stage.kind, hg]
      cases ws <;> rfl
    exact ⟨ws', hg', .byKind (by rwa [hk])⟩
  | call _ ih =>
    obtain ⟨ws', hg', h'⟩ := ih hd hg hs
    exact ⟨ws', hg', .call h'⟩

end Quiet

/-! ## Other words instead of the end of file -/

open Word (eof token Sealed)

section Extending

variable {ρ : Type} {grammar : ρ → Act ρ} {known : ρ → Bool} {us ws ws₁ ws' : List Word}
  {a b : Act ρ} {g g₁ g' : Stage} {m n : Nat} {test : Test}

/-- An action leads from words before the end of file to others. If some are left, or the action
closes, it does the same where the words `us` follow instead. -/
structure Extends (grammar : ρ → Act ρ) (known : ρ → Bool) (us : List Word) (a : Act ρ)
    (g : Stage) (ws : List Word) (g' : Stage) (ws' : List Word) : Prop where
  tokens : g'.tokens = (ws' ++ [eof]).map token
  left : ws' <:+ ws
  spared : a.spares = true → ws' ≠ []
  leads : ws' ≠ [] ∨ a.closes known = true →
    Leads grammar a ⟨ws ++ us, g.children, g.found⟩ ⟨ws' ++ us, g'.children, g'.found⟩

namespace Extends

/-- An action that takes nothing. -/
theorem idle (hg : g.tokens = (ws ++ [eof]).map token) (hne : ws ≠ []) (ht : g'.tokens = g.tokens)
    (h : Leads grammar a ⟨ws ++ us, g.children, g.found⟩ ⟨ws ++ us, g'.children, g'.found⟩) :
    Extends grammar known us a g ws g' ws :=
  ⟨ht.trans hg, List.suffix_refl ws, fun _ => hne, fun _ => h⟩

theorem bump (hg : g.tokens = (ws ++ [eof]).map token) (hs : Sealed ws) (hne : ws ≠ []) :
    Extends grammar known us .bump g ws g.take ws.tail := by
  obtain ⟨w, ws, rfl⟩ := List.exists_cons_of_ne_nil hne
  obtain ⟨tokens, children, diagnostics, lastEnd, found⟩ := g
  subst hg
  have hw := hs.inner w (List.mem_cons_self ..)
  have hws : ∀ v ∈ ws ++ [eof], v.1 ≠ .skipped := by
    intro v hv
    rcases List.mem_append.mp hv with hv | hv
    · exact (hs.inner v (List.mem_cons_of_mem w hv)).2
    · rw [List.mem_singleton.mp hv]
      exact nofun
  have htake : (Spot.stage ⟨w :: (ws ++ [eof]), children, found⟩ diagnostics lastEnd).take = _ :=
    Spot.take_stage hw.1 hws diagnostics lastEnd
  have hleads : Leads grammar .bump ⟨w :: (ws ++ us), children, found⟩
      ⟨ws ++ us, children ++ [.token w.token], found.bury⟩ := .bump hw.1
  change Extends grammar known us .bump (Spot.stage ⟨w :: (ws ++ [eof]), children, found⟩
    diagnostics lastEnd) (w :: ws) (Spot.stage ⟨w :: (ws ++ [eof]), children, found⟩
    diagnostics lastEnd).take ws
  rw [htake]
  exact ⟨rfl, List.suffix_cons w ws, (fun h => by cases h), fun _ => hleads⟩

theorem andThen (h : Extends grammar known us a g ws g₁ ws₁) (hne : ws₁ ≠ [])
    (h' : Extends grammar known us b g₁ ws₁ g' ws') :
    Extends grammar known us (.andThen a b) g ws g' ws' where
  tokens := h'.tokens
  left := h'.left.trans h.left
  spared ha := h'.spared (Bool.and_eq_true_iff.mp ha).2
  leads hc := (h.leads (.inl hne)).andThen
    (h'.leads (hc.imp_right fun ha => (Bool.and_eq_true_iff.mp ha).1))

theorem tokens_nil (h : Extends grammar known us a g ws g₁ []) : g₁.kind = .eof := by
  rw [Stage.kind, h.tokens]
  rfl

/-- The second of two actions is carried out at the end of file: it has nothing to do. -/
theorem andThen_end (hus : (Word.first us).follows = true)
    (h : Extends grammar known us a g ws g₁ []) (second : Makes grammar b g₁ n g')
    (hd : g'.diagnostics = g₁.diagnostics) :
    Extends grammar known us (.andThen a b) g ws g' [] where
  tokens := (second.tokens_at_end h.tokens_nil).trans h.tokens
  left := List.nil_suffix
  spared ha := h.spared (Bool.and_eq_true_iff.mp ha).1
  leads hc := by
    rcases hc with hc | hc
    · exact absurd rfl hc
    obtain ⟨-, hc⟩ := Bool.and_eq_true_iff.mp hc
    simp only [Bool.or_eq_true, Bool.and_eq_true] at hc
    -- the second action would report something, the first cannot end here, or both are over
    rcases hc with (hb | ha) | ⟨ha, hb⟩
    · exact absurd hd (second.complains hb h.tokens_nil)
    · exact absurd rfl (h.spared ha)
    · have hrest : g' = g₁ := second.rests hb (by rw [h.tokens_nil]; decide)
      subst hrest
      exact (h.leads (.inr ha)).andThen (.rests hb hus)

theorem again (ht : Test.holds ((ws ++ us).map token) g.found.any test = true)
    (h : Extends grammar known us a g ws g₁ ws₁) (hne : ws₁ ≠ [])
    (h' : Extends grammar known us (.repeatWhile test a) g₁ ws₁ g' ws') :
    Extends grammar known us (.repeatWhile test a) g ws g' ws' where
  tokens := h'.tokens
  left := h'.left.trans h.left
  spared ha := by cases ha
  leads hc := .again ht (h.leads (.inl hne)) (h'.leads hc)

/-- A repetition comes to the end of file: there it is over. -/
theorem again_end (hus : (Word.first us).follows = true)
    (ht : Test.holds ((ws ++ us).map token) g.found.any test = true)
    (h : Extends grammar known us a g ws g₁ [])
    (rest : Makes grammar (.repeatWhile test a) g₁ n g') :
    Extends grammar known us (.repeatWhile test a) g ws g' [] where
  tokens := (rest.tokens_at_end h.tokens_nil).trans h.tokens
  left := List.nil_suffix
  spared ha := by cases ha
  leads hc := by
    rcases hc with hc | hc
    · exact absurd rfl hc
    obtain ⟨hhushed, ha⟩ := Bool.and_eq_true_iff.mp hc
    have hrest : g' = g₁ := rest.rests hhushed (by rw [h.tokens_nil]; decide)
    subst hrest
    exact .again ht (h.leads (.inr ha)) (.stop (Test.holds_of_hushed hhushed hus))

theorem branch (ht : Test.holds ((ws ++ us).map token) g.found.any test = g.holds test)
    (h : Extends grammar known us (if g.holds test then a else b) g ws g' ws')
    (hs : (Act.branch test a b).spares = true → ws' ≠ []) :
    Extends grammar known us (.branch test a b) g ws g' ws' where
  tokens := h.tokens
  left := h.left
  spared := hs
  leads hc := by
    have hleads := h.leads (hc.imp_right fun hc => by
      obtain ⟨ha, hb⟩ := Bool.and_eq_true_iff.mp hc
      split <;> assumption)
    cases hg : g.holds test with
    | true => exact .yes (ht.trans hg) (by rwa [if_pos hg] at hleads)
    | false => exact .no (ht.trans hg) (by rwa [if_neg (Bool.eq_false_iff.mp hg)] at hleads)

/-- An action around another one. -/
theorem around {f f' : Stage} (h : Extends grammar known us a f ws f' ws')
    (ht : g'.tokens = f'.tokens) (hs : b.spares = false)
    (hc : b.closes known = true → a.closes known = true)
    (hleads : Leads grammar a ⟨ws ++ us, f.children, f.found⟩ ⟨ws' ++ us, f'.children, f'.found⟩ →
      Leads grammar b ⟨ws ++ us, g.children, g.found⟩ ⟨ws' ++ us, g'.children, g'.found⟩) :
    Extends grammar known us b g ws g' ws' where
  tokens := ht.trans h.tokens
  left := h.left
  spared hb := by
    rw [hs] at hb
    cases hb
  leads hb := hleads (h.leads (hb.imp_right hc))

end Extends

theorem Act.spares_branch (h : (Act.branch test a b).spares = true) :
    ∃ k, test = .kind k ∧ a = .bump ∧ b = .done ∧ k.closes = false := by
  unfold Act.spares at h
  split at h
  · next k heq =>
    obtain ⟨rfl, rfl, rfl⟩ := Act.branch.inj heq
    exact ⟨k, rfl, rfl, rfl, by simpa using h⟩
  · next heq => cases heq
  · cases h

/-- A token that does not close is not the last one. -/
theorem ne_nil_of_spared (hs : Sealed ws) (hg : g.tokens = (ws ++ [eof]).map token) {k : Kind}
    (hk : k.closes = false) (hne : ws ≠ [])
    (h : Makes grammar (if g.holds (.kind k) then .bump else .done) g n g')
    (hg' : g'.tokens = (ws' ++ [eof]).map token) : ws' ≠ [] := by
  rintro rfl
  split at h
  · next hholds =>
    cases h
    have htake : Extends grammar (fun _ => false) [] .bump g ws g.take ws.tail := .bump hg hs hne
    have hlength := congrArg List.length (htake.tokens.symm.trans hg')
    obtain ⟨w, ws, rfl⟩ := List.exists_cons_of_ne_nil hne
    obtain rfl : ws = [] := by simpa using hlength
    have hw : w.1 = k := by
      rw [Stage.holds, hg] at hholds
      exact beq_iff_eq.mp hholds
    have hclose := hs.last w rfl
    rw [hw, hk] at hclose
    cases hclose
  · cases h
    have hlength := congrArg List.length (hg.symm.trans hg')
    exact hne (by simpa using hlength)

/-- A test that is near has the same answer where other words follow. -/
theorem Word.Sealed.holds_stage (hs : Sealed ws) (hne : ws ≠ [])
    (hg : g.tokens = (ws ++ [eof]).map token) {c : Option Kind}
    (hc : ∀ k, c = some k → Word.first ws = k) (ht : test.near c = true) (us : List Word) :
    Test.holds ((ws ++ us).map token) g.found.any test = g.holds test := by
  rw [Stage.holds, hg]
  exact hs.holds_near hne hc ht us [eof] _

variable (hus : (Word.first us).follows = true) (hnear : ∀ rule, (grammar rule).near none = true)
  (hknown : ∀ rule, known rule = true → (grammar rule).closes known = true)

include hus hnear hknown

/-- An action that reports nothing does the same where other words follow instead of the end of
file: the induction is over what it makes of the words before the seam. -/
theorem Makes.exists_extends (h : Makes grammar a g n g') (hd : g'.diagnostics = g.diagnostics)
    (hg : g.tokens = (ws ++ [eof]).map token) (hs : Sealed ws) (hne : ws ≠ []) {c : Option Kind}
    (hc : ∀ k, c = some k → Word.first ws = k) (ha : a.near c = true) :
    ∃ ws', Extends grammar known us a g ws g' ws' := by
  induction h generalizing ws c with
  | done => exact ⟨ws, .idle hg hne rfl .done⟩
  | require ht =>
    exact ⟨ws, .idle hg hne rfl (.require ((hs.holds_stage hne hg hc ha us).trans ht))⟩
  | decline => exact ⟨ws, .idle hg hne rfl .decline⟩
  | bump => exact ⟨ws.tail, .bump hg hs hne⟩
  | missing => simp [Stage.miss] at hd
  | recover hk loop => exact absurd hd (Makes.recover hk loop).recover_reports
  | andThen first second ih₁ ih₂ =>
    obtain ⟨hd₁, hd₂⟩ := first.quiet second hd
    obtain ⟨ha₁, ha₂⟩ := Bool.and_eq_true_iff.mp ha
    obtain ⟨ws₁, h₁⟩ := ih₁ hd₁ hg hs hne hc ha₁
    -- the second action begins before the seam or at it
    by_cases hne₁ : ws₁ = []
    · subst hne₁
      exact ⟨[], h₁.andThen_end hus second hd₂⟩
    · obtain ⟨ws', h₂⟩ := ih₂ hd₂ h₁.tokens (hs.suffix h₁.left) hne₁ (fun _ h => by cases h) ha₂
      exact ⟨ws', h₁.andThen hne₁ h₂⟩
  | node _ ih =>
    obtain ⟨ws', h'⟩ := ih hd hg hs hne hc ha
    exact ⟨ws', h'.around rfl rfl id .node⟩
  | nodeIfAny _ hn ih =>
    obtain ⟨ws', h'⟩ := ih hd hg hs hne hc ha
    exact ⟨ws', h'.around rfl rfl id (.nodeIfAny · hn)⟩
  | nodeIfNone _ hn ih =>
    obtain ⟨ws', h'⟩ := ih hd hg hs hne hc ha
    exact ⟨ws', h'.around rfl rfl id fun h => .nodeIfNone (by rwa [hn] at h)⟩
  | wrap hf hl _ ih =>
    obtain ⟨ws', h'⟩ := ih hd hg hs hne hc ha
    exact ⟨ws', h'.around rfl rfl id fun h => by rw [hf, hl]; exact .wrap h⟩
  | @branch test yes no g n g' inner ih =>
    simp only [Act.near, Bool.and_eq_true] at ha
    obtain ⟨⟨ht, hyes⟩, hno⟩ := ha
    obtain ⟨ws', h'⟩ := ih hd hg hs hne hc (by split <;> assumption)
    refine ⟨ws', h'.branch (hs.holds_stage hne hg hc ht us) fun hspares => ?_⟩
    obtain ⟨k, rfl, rfl, rfl, hk⟩ := Act.spares_branch hspares
    exact ne_nil_of_spared hs hg hk hne inner h'.tokens
  | @byKind choose g n g' _ ih =>
    have hk : Word.first ws = g.kind := by
      rw [Stage.kind, hg]
      cases ws with
      | nil => exact absurd rfl hne
      | cons => rfl
    have hall {p : Kind → Bool} (h : Kind.all.all p = true) : p g.kind = true :=
      List.all_eq_true.mp h _ (Kind.mem_all _)
    obtain ⟨ws', h'⟩ := ih hd hg hs hne (fun k h => hk.trans (Option.some.inj h)) (hall ha)
    refine ⟨ws', h'.around rfl rfl hall fun h => .byKind ?_⟩
    have hfirst : Spot.kind ⟨ws ++ us, g.children, g.found⟩ = g.kind := by
      rw [← hk]
      cases ws with
      | nil => exact absurd rfl hne
      | cons => rfl
    rwa [hfirst]
  | stop ht =>
    have ha := (Bool.and_eq_true_iff.mp ha).1
    have hno := hs.holds_stage hne hg (fun _ h => by cases h) ha us
    exact ⟨ws, .idle hg hne rfl (.stop (hno.trans ht))⟩
  | @again test body g m g₁ n g₂ ht first rest ih₁ ih₂ =>
    obtain ⟨hd₁, hd₂⟩ := first.quiet rest hd
    obtain ⟨ha₁, ha₂⟩ := Bool.and_eq_true_iff.mp ha
    have hyes := (hs.holds_stage hne hg (fun _ h => by cases h) ha₁ us).trans ht
    obtain ⟨ws₁, h₁⟩ := ih₁ hd₁ hg hs hne (fun _ h => by cases h) ha₂
    by_cases hne₁ : ws₁ = []
    · subst hne₁
      exact ⟨[], h₁.again_end hus hyes rest⟩
    · have hloop : (Act.repeatWhile test body).near none = true := Bool.and_eq_true_iff.mpr ⟨ha₁, ha₂⟩
      obtain ⟨ws', h₂⟩ := ih₂ hd₂ h₁.tokens (hs.suffix h₁.left) hne₁ (fun _ h => by cases h) hloop
      exact ⟨ws', .again hyes h₁ hne₁ h₂⟩
  | call _ ih =>
    -- a rule is near whatever the current token is
    obtain ⟨ws', h'⟩ := ih hd hg hs hne (fun _ h => by cases h) (hnear _)
    exact ⟨ws', h'.around rfl rfl (hknown _) .call⟩

end Extending
end PhpSyntax
