import PhpSyntax.Proofs.Clean
import PhpSyntax.Proofs.Endings
import PhpSyntax.Proofs.Framing
import PhpSyntax.Proofs.Joining

/-!
Programs one after the other. If there is nothing wrong with either of two programs, and the first
ends with a semicolon or a closing brace, there is nothing wrong with both of them together: the
statements of the first are read as before, since none of them looks behind its end, and those of the
second as well, since none of them hangs on the statements before it.
-/
namespace PhpSyntax

open Grammar (php program)
open Word (eof token openTag opening Sealed)

namespace Grammar

/-! ## What the grammar looks at -/

theorem operation_near (k : Kind) (power : Nat) : (operation k power).near (some k) = true := by
  unfold operation
  split <;> rfl

theorem operators_near (power : Nat) : (operators power).near none = true := by
  refine List.all_eq_true.mpr fun k _ => ?_
  dsimp only
  split
  · rfl
  · next b hb =>
    split
    · rfl
    · show (operation k b.right).near (some k) && true = true
      rw [operation_near]
      rfl

theorem unary_near : unary.near none = true := by decide +kernel

/-- No rule looks behind a token that closes. -/
theorem php_near (r : Rule) : (php r).near none = true := by
  cases r with
  | statement => show statement.near none = true; decide +kernel
  | expression power =>
    show (unary.near none && _) = true
    rw [unary_near]
    rfl
  | operators power => exact operators_near power
  | postfixes => show postfixes.near none = true; decide +kernel
  | variableExpr => show variableExpression.near none = true; decide +kernel
  | useClause => show useClause.near none = true; decide +kernel
  | type => show type.near none = true; decide +kernel
  | member => show member.near none = true; decide +kernel

/-- Whether a call of the rule that is over at the end of file, behind a token that closes, is over
there whatever follows. -/
def endsAlone : Rule → Bool
  | .statement => true
  | _ => false

/-- A statement goes on behind a token that closes only if something is missing there, or with a
word that no statement can begin with. -/
theorem statement_closes : statement.closes endsAlone = true := by decide +kernel

theorem endsAlone_closes (r : Rule) (h : endsAlone r = true) : (php r).closes endsAlone = true := by
  cases r with
  | statement => exact statement_closes
  | _ => cases h

end Grammar

variable {g g' : Stage} {n : Nat} {ws us : List Word} {cs ds : List Sprout}

/-! ## Statements -/

/-- Before a statement. -/
def ahead : Forecast := ⟨Rule.statement.first, .all, none, none, 0⟩

theorem ahead_promise :
    Rule.statement.promise ahead = some [Rule.statement.taking.afterCall ahead] := by
  decide +kernel

/-- A statement takes a token and finds a branch. -/
theorem statement_makes (hg : g.Proper) (hk : g.kind ≠ .eof) :
    ∃ n g', Makes php (.call .statement) g n g' ∧ g'.Proper ∧ g'.found = .last := by
  have hkinds : Rule.statement.first.contains g.kind = true := by
    have hskipped := hg.recognized
    simp [Rule.first, hk, hskipped]
  have hfit : ahead.Fits g :=
    ⟨hg, hkinds, KindSet.contains_all _, fun _ h => (by cases h), fun h => (by cases h),
      fun h => (by cases h)⟩
  obtain ⟨n, g', p, hp, hm, hf, -⟩ := Rule.promise_kept ahead_promise hfit
  obtain rfl := List.mem_singleton.mp hp
  exact ⟨n, g', hm, hf.proper, (hf.located rfl).1⟩

/-- What is after a statement that was made. -/
theorem statement_found (hg : g.Proper) (hk : g.kind ≠ .eof)
    (h : Makes php (.call .statement) g n g') : g'.Proper ∧ g'.found = .last := by
  obtain ⟨m, f, hf, hproper, hfound⟩ := statement_makes hg hk
  obtain ⟨-, rfl⟩ := h.unique hf
  exact ⟨hproper, hfound⟩

/-- A statement leaves those before it alone, and they could be any others. -/
theorem statement_framed (hg : g.Proper) (hk : g.kind ≠ .eof)
    (h : Makes php (.call .statement) g n g') :
    ∃ own, g'.Over g.children own ∧
      ∀ base, Makes php (.call .statement) (g.on base) n (g'.on (base ++ own)) := by
  by_cases hf : g.found = .last
  · -- the branch found last is not taken up: the statement is the same where it is out of reach
    obtain ⟨m, f, hm, -, hlast⟩ := statement_makes (g := g.having .earlier)
      ⟨hg.ended, hg.recognized, hg.full⟩ hk
    obtain ⟨own, hown, hbase⟩ := hm.framed (Stage.over_nil nofun)
    have hraise : ∀ base, Makes php (.call .statement) (g.on base) m (f.on (base ++ own)) := by
      intro base
      obtain ⟨f', hrises, hmade⟩ := (hbase base).raise Found.earlier_rises
      obtain rfl : f' = .last := hrises.last hlast
      have hg' : ((g.having .earlier).on base).having .last = g.on base :=
        Stage.having_eq (g := g.on base) hf
      rwa [List.append_nil, hg', Stage.having_eq (g := f.on (base ++ own)) hlast] at hmade
    obtain ⟨rfl, hsame⟩ := h.unique (hraise g.children)
    have hchildren : f.children = g.children ++ own := hown.children
    rw [← hchildren, Stage.on_self] at hsame
    subst hsame
    exact ⟨own, hown, hraise⟩
  · obtain ⟨own, hown, hbase⟩ := h.framed (Stage.over_nil hf)
    refine ⟨own, hown, fun base => ?_⟩
    have hmade := hbase base
    rwa [List.append_nil] at hmade

/-- No statement begins with a word that goes on with another one. -/
theorem statement_follows (h : Makes php (.call .statement) g n g')
    (hd : g'.diagnostics = g.diagnostics) : g.kind.follows = true := by
  by_contra hk
  have hkinds : g.kind = .elseifKw ∨ g.kind = .elseKw ∨ g.kind = .catchKw ∨ g.kind = .finallyKw := by
    simpa [Kind.follows, or_iff_not_imp_left] using hk
  cases h with
  | call h =>
    cases h with
    | byKind h =>
      -- at each of them the statement is a run of unexpected input
      rcases hkinds with hk | hk | hk | hk <;>
        · rw [hk] at h
          exact absurd hd (Makes.recover_reports h)

/-! ## Programs -/

theorem Stage.kind_ne_eof (h : g.holds (.not (.kind .eof)) = true) : g.kind ≠ .eof := by
  simpa [Stage.holds, Test.holds, Stage.kind] using h

theorem Stage.kind_eq_eof (h : g.holds (.not (.kind .eof)) = false) : g.kind = .eof := by
  simpa [Stage.holds, Test.holds, Stage.kind] using h

theorem program_follows (h : Makes php program g n g') (hd : g'.diagnostics = g.diagnostics) :
    g.kind.follows = true := by
  cases h with
  | stop ht =>
    rw [Stage.kind_eq_eof ht]
    decide
  | again _ first rest => exact statement_follows first (first.quiet rest hd).1

/-- A program leaves the statements before it alone, and they could be any others. -/
theorem program_framed (hg : g.Proper) (h : Makes php program g n g') :
    ∃ own, g'.children = g.children ++ own ∧
      ∀ base, Makes php program (g.on base) n (g'.on (base ++ own)) := by
  cases h with
  | stop ht =>
    refine ⟨[], (List.append_nil _).symm, fun base => ?_⟩
    rw [List.append_nil]
    exact .stop ht
  | again ht first rest =>
    obtain ⟨own, hown, hfirst⟩ := statement_framed hg (Stage.kind_ne_eof ht) first
    obtain ⟨own', hown', hrest⟩ := rest.framed hown
    exact ⟨own', hown'.children, fun base => .again ht (hfirst base) (hrest base)⟩

/-- A program that ends with a token that closes, where other words follow: it makes its statements as
before, and then what is made of these words. -/
theorem program_extends (hus : (Word.first us).follows = true) (h : Makes php program g n g')
    (hd : g'.diagnostics = g.diagnostics) (hp : g.Proper) (hg : g.tokens = (ws ++ [eof]).map token)
    (hs : Sealed ws) (hne : ws ≠ []) {s : Spot}
    (hrest : Leads php program ⟨us, g'.children, .last⟩ s) :
    Leads php program ⟨ws ++ us, g.children, g.found⟩ s := by
  -- the induction is over the statements
  generalize hb : program = b at h
  induction h generalizing ws with
  | @stop test body g ht =>
    obtain ⟨rfl, rfl⟩ := Act.repeatWhile.inj hb
    obtain ⟨w, ws, rfl⟩ := List.exists_cons_of_ne_nil hne
    have hk := Stage.kind_eq_eof ht
    rw [Stage.kind, hg] at hk
    exact absurd hk (hs.inner w (List.mem_cons_self ..)).1
  | @again test body g m g₁ n g₂ ht first rest _ ih =>
    obtain ⟨rfl, rfl⟩ := Act.repeatWhile.inj hb
    have hnone : ∀ k, (none : Option Kind) = some k → Word.first ws = k := fun _ h => by cases h
    obtain ⟨hd₁, hd₂⟩ := first.quiet rest hd
    obtain ⟨ws₁, h₁⟩ := first.exists_extends hus Grammar.php_near Grammar.endsAlone_closes hd₁ hg hs
      hne hnone rfl
    obtain ⟨hp₁, hfound⟩ := statement_found hp (Stage.kind_ne_eof ht) first
    refine .again ((hs.holds_stage hne hg hnone rfl us).trans ht) (h₁.leads (.inr rfl)) ?_
    by_cases hne₁ : ws₁ = []
    · -- it was the last statement, and the other words come after it
      subst hne₁
      cases rest with
      | stop => rwa [hfound]
      | again ht₁ => exact absurd h₁.tokens_nil (Stage.kind_ne_eof ht₁)
    · exact ih hd₂ hp₁ h₁.tokens (hs.suffix h₁.left) hne₁ hrest rfl
  | _ => cases hb

namespace Word

variable {es : List Sprout}

theorem token_injective : Function.Injective token := fun _ _ h =>
  Prod.ext (congrArg Token.kind h) (congrArg Token.text h)

theorem recognized_words (h : ∀ w ∈ ws, w.1 ≠ .skipped) : ∀ w ∈ ws ++ [eof], w.1 ≠ .skipped := by
  intro w hw
  rcases List.mem_append.mp hw with hw | hw
  · exact h w hw
  · rw [List.mem_singleton.mp hw]
    exact nofun

theorem start_proper (h : ∀ w ∈ ws, w.1 ≠ .eof ∧ w.1 ≠ .skipped) :
    (Stage.start ((ws ++ [eof]).map token)).Proper := by
  refine Stage.start_proper (ended_words fun w hw => (h w hw).1) ?_
  cases ws with
  | nil => exact nofun
  | cons w ws => exact (h w (List.mem_cons_self ..)).2

/-- What the program makes of words after the open tag hangs on no statement before them, and the words
go on with none. -/
theorem Makes.behind (h : Makes (openTag :: us) ds) (hus : ∀ w ∈ us, w.1 ≠ .eof ∧ w.1 ≠ .skipped)
    (cs : List Sprout) : (first (us ++ [eof])).follows = true ∧ ∃ es f, ds = opening :: es ∧
      Leads php Grammar.program ⟨us ++ [eof], cs, .last⟩ ⟨[eof], cs ++ es, f⟩ := by
  obtain ⟨n, e, f, h⟩ := h
  have hwords : ∀ w ∈ openTag :: us, w.1 ≠ .eof ∧ w.1 ≠ .skipped :=
    List.forall_mem_cons.mpr ⟨by decide, hus⟩
  have hrecognized := recognized_words fun w hw => (hus w hw).2
  cases h with
  | again ht first rest =>
    have hopening : Spot.Recognized ⟨openTag :: (us ++ [eof]), [], .nothing⟩ :=
      List.forall_mem_cons.mpr ⟨nofun, hrecognized⟩
    -- the first statement is the open tag, and what is made after it is made behind any others
    obtain ⟨m, e₁, hm⟩ := (opening_leads hopening).2 [] 0
    obtain ⟨-, rfl⟩ := first.unique hm
    obtain ⟨hproper, -⟩ := statement_found (start_proper hwords) (Stage.kind_ne_eof ht) first
    obtain ⟨es, hes, hbase⟩ := program_framed hproper rest
    obtain ⟨us', hus', hleads⟩ := (hbase cs).leads rfl rfl hrecognized
    obtain rfl : [eof] = us' := token_injective.list_map hus'
    exact ⟨program_follows rest rfl, es, f, hes, hleads⟩

/-- What the program makes of the words of two programs, the first of which ends with a token that
closes. -/
theorem Makes.joined (hP : Makes ws cs) (hs : Sealed ws) (hne : ws ≠ [])
    (hQ : Makes (openTag :: us) ds) (hus : ∀ w ∈ us, w.1 ≠ .eof ∧ w.1 ≠ .skipped) :
    ∃ es, ds = opening :: es ∧ Makes (ws ++ us) (cs ++ es) := by
  obtain ⟨hfollows, es, f, hes, hrest⟩ := hQ.behind hus cs
  obtain ⟨n, e, f₁, h⟩ := hP
  have hleads := program_extends hfollows h rfl (start_proper hs.inner) rfl hs hne hrest
  rw [← List.append_assoc] at hleads
  have hrecognized : Spot.Recognized ⟨ws ++ us ++ [eof], [], .nothing⟩ :=
    recognized_words fun w hw => (List.mem_append.mp hw).elim (fun hw => (hs.inner w hw).2)
      fun hw => (hus w hw).2
  obtain ⟨m, e', hm⟩ := (hleads hrecognized).2 [] 0
  exact ⟨es, hes, m, e', f, hm⟩

end Word

/-! ## Texts -/

variable {dialect : Dialect} {P Q text : List Char} {p q : Parse} {before : List Kind} {k : Kind}
  {ts : List Token} {t e : Token}

/-- Words of a text whose last token closes. -/
theorem Word.sealed_of_tokens (hws : Token.significant (tokenize dialect text) = ws ++ [eof])
    (hinner : ∀ w ∈ ws, w.1 ≠ .eof) (hts : tokenize dialect text = ts ++ [t, e])
    (ht : t.kind.closes = true) (he : e.kind = .eof) :
    Token.significant (ts ++ [t]) = ws ∧ Sealed ws ∧ ws ≠ [] := by
  have hkind : t.kind ≠ .skipped := by
    rintro hk
    rw [hk] at ht
    cases ht
  have hlast : Token.significant (ts ++ [t]) = Token.significant ts ++ [(t.kind, t.text)] := by
    rw [Token.significant_append, Token.significant_cons hkind]
    rfl
  have hend : Token.significant [e] = [(e.kind, e.text)] := Token.significant_cons (he ▸ nofun)
  have hsplit : Token.significant (ts ++ [t]) ++ [(e.kind, e.text)] = ws ++ [eof] := by
    rw [← hend, ← Token.significant_append, List.append_assoc, ← hws, hts]
    rfl
  obtain ⟨hwords, -⟩ := List.append_inj' hsplit rfl
  refine ⟨hwords, ⟨fun w hw => ⟨hinner w hw, ?_⟩, ?_⟩, ?_⟩
  · exact (lawful_of_mem (hws ▸ List.mem_append_left _ hw)).1
  · rw [← hwords, hlast, List.getLast?_concat]
    rintro w ⟨⟩
    exact ht
  · rw [← hwords, hlast]
    simp

end PhpSyntax
