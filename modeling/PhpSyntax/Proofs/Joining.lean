import PhpSyntax.Proofs.Seams
import PhpSyntax.Proofs.Writing

/-!
Two texts with a line break between them. If nothing is wrong with the tokens of the first one, and
the last of them is a semicolon or a closing brace, they are not touched by what follows, and the
second text is read as it is after an open tag.
-/
namespace PhpSyntax

open Lexeme (isCloser)

namespace TriviaScan

variable {n m : Nat} {cs : List Char} {scan : TriviaScan}

theorem lineCommentFrom_newline (n : Nat) (cs ds : List Char) :
    lineCommentFrom n (cs ++ '\n' :: ds) = lineCommentFrom n cs := by
  induction cs generalizing n with
  | nil => rfl
  | cons c cs ih =>
    have hhead : ((cs ++ '\n' :: ds).head? == some '>') = (cs.head? == some '>') := by
      cases cs <;> rfl
    rw [List.cons_append, lineCommentFrom, lineCommentFrom, hhead, ih]

theorem lineCommentFrom_le (n : Nat) (cs : List Char) : lineCommentFrom n cs ≤ n + cs.length := by
  induction cs generalizing n with
  | nil => exact Nat.le_refl n
  | cons c cs ih =>
    rw [lineCommentFrom]
    split
    · exact Nat.le_add_right ..
    · have hle := ih (n + 1)
      rw [List.length_cons]
      omega

theorem closingStar_append (h : closingStar n cs = (m, true)) (es : List Char) :
    closingStar n (cs ++ es) = (m, true) := by
  induction cs generalizing n with
  | nil => cases h
  | cons c cs ih =>
    cases cs with
    | nil =>
      rw [closingStar, if_neg (by simp)] at h
      cases h
    | cons d cs =>
      have hhead : (d :: cs ++ es).head? = (d :: cs).head? := rfl
      rw [List.cons_append, closingStar, hhead]
      rw [closingStar] at h
      split
      · next hc => rwa [if_pos hc] at h
      · next hc =>
        rw [if_neg hc] at h
        exact ih h

/-- A comment ends after its beginning, or it takes the whole text. -/
theorem closingStar_bounds (n : Nat) (cs : List Char) :
    closingStar n cs = (n + cs.length, false) ∨
      ∃ m, closingStar n cs = (m, true) ∧ n + 2 ≤ m ∧ m ≤ n + cs.length := by
  induction cs generalizing n with
  | nil => exact .inl rfl
  | cons c cs ih =>
    rw [closingStar]
    split
    · next hc =>
      have hcs : 1 ≤ cs.length := by
        cases cs with
        | nil => simp at hc
        | cons => exact Nat.succ_le_succ (Nat.zero_le _)
      exact .inr ⟨n + 2, rfl, Nat.le_refl _, by rw [List.length_cons]; omega⟩
    · rcases ih (n + 1) with h | ⟨m, h, hm, hm'⟩
      · refine .inl ?_
        rw [h, List.length_cons, Nat.add_assoc, Nat.add_comm 1]
      · exact .inr ⟨m, h, by omega, by rw [List.length_cons]; omega⟩

theorem blockComment_bounds (h : 2 ≤ cs.length) : (blockComment cs).length ≤ cs.length ∧
    ((blockComment cs).terminated = false → (blockComment cs).length = cs.length) := by
  have hdrop : 2 + (cs.drop 2).length = cs.length := by
    rw [List.length_drop]
    omega
  rcases closingStar_bounds 2 (cs.drop 2) with hs | ⟨m, hs, -, hm⟩
  · rw [hdrop] at hs
    simp [blockComment, hs]
  · rw [hdrop] at hm
    simpa [blockComment, hs] using hm

/-- A piece of trivia lies within the text, and it takes all of it if it finds no end. -/
theorem first_bounds (h : first? cs = some scan) :
    scan.length ≤ cs.length ∧ (scan.terminated = false → scan.length = cs.length) := by
  cases cs with
  | nil => cases h
  | cons c cs =>
    rw [first?] at h
    split at h
    · cases h
      exact ⟨Lexeme.blankLength_le _, Bool.noConfusion⟩
    split at h
    · cases h
      exact ⟨Nat.succ_le_succ (Nat.zero_le _), Bool.noConfusion⟩
    split at h
    · cases h
      refine ⟨?_, Bool.noConfusion⟩
      cases cs with
      | nil => exact Nat.le_refl 1
      | cons d cs =>
        show (if _ then 2 else 1) ≤ cs.length + 2
        split <;> omega
    split at h
    · cases h
      have hle := lineCommentFrom_le 0 (c :: cs)
      rw [Nat.zero_add] at hle
      exact ⟨hle, Bool.noConfusion⟩
    split at h
    · next hc =>
      cases h
      refine blockComment_bounds ?_
      cases cs with
      | nil => simp at hc
      | cons => exact Nat.succ_le_succ (Nat.succ_le_succ (Nat.zero_le _))
    · cases h

theorem blockComment_newline (h : (blockComment cs).terminated = true) (ds : List Char) :
    blockComment (cs ++ '\n' :: ds) = blockComment cs := by
  rcases closingStar_bounds 2 (cs.drop 2) with hs | ⟨m, hs, hm, hm'⟩
  · simp [blockComment, hs] at h
  · rw [List.length_drop] at hm'
    have happend := closingStar_append hs ('\n' :: ds)
    rw [← List.drop_append_of_le_length (by omega)] at happend
    have hget (i : Nat) (hi : i < 4) : (cs ++ '\n' :: ds)[i]? = cs[i]? :=
      List.getElem?_append_left (by omega)
    simp only [blockComment, hs, happend, hget 2 (by decide), hget 3 (by decide)]

/-- Trivia that has found its end is not touched by a line break. A carriage return takes it
along. -/
theorem first_newline (h : first? cs = some scan) (ht : scan.terminated = true)
    (hcr : cs ≠ ['\r']) (ds : List Char) : first? (cs ++ '\n' :: ds) = some scan := by
  cases cs with
  | nil => cases h
  | cons c cs =>
    have hblank := Lexeme.blankLength_newline (c :: cs) ds
    have hline := lineCommentFrom_newline 0 (c :: cs) ds
    rw [List.cons_append] at hblank hline ⊢
    have hslash : ((cs ++ '\n' :: ds).head? == some '/') = (cs.head? == some '/') := by
      cases cs <;> rfl
    have hstar : ((cs ++ '\n' :: ds).head? == some '*') = (cs.head? == some '*') := by
      cases cs <;> rfl
    rw [first?] at h ⊢
    rw [hblank, hline, hslash, hstar]
    split
    · next hc => rwa [if_pos hc] at h
    next hc =>
    rw [if_neg hc] at h
    split
    · next hn => rwa [if_pos hn] at h
    next hn =>
    rw [if_neg hn] at h
    split
    · next hr =>
      rw [if_pos hr] at h
      have hcs : cs ≠ [] := by
        rintro rfl
        obtain rfl : c = '\r' := by simpa using hr
        exact hcr rfl
      obtain ⟨d, cs, rfl⟩ := List.exists_cons_of_ne_nil hcs
      exact h
    next hr =>
    rw [if_neg hr] at h
    split
    · next hl => rwa [if_pos hl] at h
    next hl =>
    rw [if_neg hl] at h
    split
    · next hb =>
      rw [if_pos hb] at h
      obtain rfl := Option.some.inj h
      exact congrArg some (blockComment_newline ht ds)
    · next hb => rwa [if_neg hb] at h

theorem first_none_newline {c : Char} (h : first? (c :: cs) = none) (ds : List Char) :
    first? (c :: (cs ++ '\n' :: ds)) = none := by
  obtain ⟨hc, hslash⟩ := first_eq_none.mp h
  refine first_eq_none.mpr ⟨hc, fun hs => ?_⟩
  cases cs with
  | nil => simp
  | cons d cs => exact hslash hs

end TriviaScan

namespace LeadingTrivia

variable {lead : LeadingTrivia} {skip : Nat} {cs : List Char}

/-- What was read before makes no difference to what is left. -/
theorem readFrom_congr (lead lead' : LeadingTrivia) (skip : Nat) (cs : List Char) :
    (readFrom lead skip cs).rest = (readFrom lead' skip cs).rest ∧
      (lead.error.isSome = lead'.error.isSome →
        (readFrom lead skip cs).error.isSome = (readFrom lead' skip cs).error.isSome) := by
  induction cs generalizing lead lead' skip with
  | nil => simp [readFrom]
  | cons c cs ih =>
    cases skip with
    | succ skip =>
      rw [readFrom, readFrom]
      exact ih lead lead' skip
    | zero =>
      rw [readFrom, readFrom]
      split
      · exact ⟨rfl, id⟩
      · next scan hs =>
        obtain ⟨hrest, herror⟩ := ih (lead.add scan ((c :: cs).take scan.length))
          (lead'.add scan ((c :: cs).take scan.length)) (scan.length - 1)
        refine ⟨hrest, fun he => herror ?_⟩
        simp only [add]
        cases hl : lead.error <;> cases hl' : lead'.error <;> simp_all
        split <;> rfl

theorem add_eq_none {scan : TriviaScan} {text : List Char} :
    (lead.add scan text).error = none ↔ lead.error = none ∧ scan.terminated = true := by
  cases hl : lead.error <;> cases ht : scan.terminated <;> simp [add, hl, ht]

/-- Something is wrong with trivia as soon as something is wrong with a piece of it. -/
theorem error_eq_none (h : (readFrom lead skip cs).error = none) : lead.error = none := by
  induction cs generalizing lead skip with
  | nil => simpa [readFrom] using h
  | cons c cs ih =>
    cases skip with
    | succ skip => exact ih (by rwa [readFrom] at h)
    | zero =>
      cases hs : TriviaScan.first? (c :: cs) with
      | none => rwa [readFrom_none hs] at h
      | some scan =>
        rw [readFrom_some hs] at h
        exact (add_eq_none.mp (ih h)).1

/-- Trivia before something else is not touched by what follows. -/
theorem readFrom_newline (h : (readFrom lead skip cs).rest ≠ []) (ds : List Char) :
    readFrom lead skip (cs ++ '\n' :: ds) =
      { readFrom lead skip cs with rest := (readFrom lead skip cs).rest ++ '\n' :: ds } := by
  induction cs generalizing lead skip with
  | nil => exact absurd (by rw [readFrom]) h
  | cons c cs ih =>
    cases skip with
    | succ skip =>
      rw [readFrom] at h ⊢
      exact ih h
    | zero =>
      cases hs : TriviaScan.first? (c :: cs) with
      | none =>
        rw [List.cons_append, readFrom_none hs, readFrom_none (TriviaScan.first_none_newline hs ds)]
        rfl
      | some scan =>
        obtain ⟨hle, hwhole⟩ := TriviaScan.first_bounds hs
        rw [readFrom_some hs] at h ⊢
        have hlt : scan.length ≠ (c :: cs).length := fun heq => by
          have hskip : cs.length ≤ scan.length - 1 := by
            rw [heq, List.length_cons]
            exact Nat.le_refl _
          rw [readFrom_skip hskip] at h
          exact h rfl
        have ht : scan.terminated = true := by
          rw [← Bool.not_eq_false]
          exact fun hf => hlt (hwhole hf)
        have hcr : c :: cs ≠ ['\r'] := by
          intro heq
          obtain ⟨rfl, rfl⟩ := List.cons.inj heq
          cases hs
          exact hlt rfl
        have hs' := TriviaScan.first_newline hs ht hcr ds
        have htake : (c :: cs ++ '\n' :: ds).take scan.length = _ :=
          List.take_append_of_le_length hle
        rw [List.cons_append] at hs' htake ⊢
        rw [readFrom_some hs', htake]
        exact ih h

/-- Trivia at the end of a text and a line break: what follows is read from its beginning. -/
theorem readFrom_seam (hs : skip ≤ cs.length) (h : (readFrom lead skip cs).rest = [])
    (he : (readFrom lead skip cs).error = none) (ds : List Char) :
    ∃ lead', lead'.error = none ∧ readFrom lead skip (cs ++ '\n' :: ds) = readFrom lead' 0 ds := by
  induction cs generalizing lead skip with
  | nil =>
    obtain rfl : skip = 0 := Nat.le_zero.mp hs
    have hnewline : TriviaScan.first? ('\n' :: ds) = some ⟨.newline, 1, true⟩ := rfl
    exact ⟨_, add_eq_none.mpr ⟨error_eq_none he, rfl⟩, readFrom_some hnewline⟩
  | cons c cs ih =>
    cases skip with
    | succ skip =>
      rw [readFrom] at h he
      rw [List.cons_append, readFrom]
      exact ih (Nat.le_of_succ_le_succ hs) h he
    | zero =>
      cases hscan : TriviaScan.first? (c :: cs) with
      | none =>
        rw [readFrom_none hscan] at h
        cases h
      | some scan =>
        rw [readFrom_some hscan] at h he
        obtain ⟨hlead, ht⟩ := add_eq_none.mp (error_eq_none he)
        by_cases hcr : c :: cs = ['\r']
        · -- the carriage return and the line break are one piece
          obtain ⟨rfl, rfl⟩ := List.cons.inj hcr
          have hpair : TriviaScan.first? ('\r' :: '\n' :: ds) = some ⟨.newline, 2, true⟩ := rfl
          exact ⟨_, add_eq_none.mpr ⟨hlead, rfl⟩, readFrom_some hpair⟩
        · obtain ⟨hle, -⟩ := TriviaScan.first_bounds hscan
          have hscan' := TriviaScan.first_newline hscan ht hcr ds
          have htake : (c :: cs ++ '\n' :: ds).take scan.length = _ :=
            List.take_append_of_le_length hle
          rw [List.cons_append] at hscan' htake ⊢
          rw [readFrom_some hscan', htake]
          rw [List.length_cons] at hle
          exact ih (by omega) h he

theorem read_newline {offset : Nat} (h : (read offset cs).rest ≠ []) (ds : List Char) :
    read offset (cs ++ '\n' :: ds) =
      { read offset cs with rest := (read offset cs).rest ++ '\n' :: ds } := by
  rw [read, readFrom_newline h]
  rfl

theorem any_rest {offset : Nat} (h : (read offset cs).rest.any isCloser = true) :
    cs.any isCloser = true := by
  obtain ⟨front, hcs, -⟩ := read_precedes offset cs
  rw [hcs, List.any_append, h, Bool.or_true]

end LeadingTrivia

/-- What is read, wherever it stands: the kind, the text, and whether something is wrong. -/
def Token.reading (t : Token) : Kind × List Char × Bool := (t.kind, t.text, t.error.isSome)

namespace Token

variable {ts us : List Token}

theorem significant_append (ts us : List Token) :
    significant (ts ++ us) = significant ts ++ significant us := by
  rw [significant, List.filter_append, List.map_append, significant, significant]

theorem significant_congr (h : ts.map reading = us.map reading) :
    significant ts = significant us := by
  have hfilter (ts : List Token) : significant ts =
      ((ts.map reading).filter fun r => r.1 != .skipped).map fun r => (r.1, r.2.1) := by
    rw [significant, List.filter_map, List.map_map]
    rfl
  rw [hfilter, h, ← hfilter]

theorem errors_congr (h : ts.map reading = us.map reading) (he : ∀ t ∈ us, t.error = none) :
    ∀ t ∈ ts, t.error = none := by
  intro t ht
  have hmem : t.reading ∈ us.map reading := h ▸ List.mem_map_of_mem ht
  obtain ⟨u, hu, heq⟩ := List.mem_map.mp hmem
  have hsome : u.error.isSome = t.error.isSome := congrArg (·.2.2) heq
  rw [he u hu] at hsome
  simpa using hsome.symm

end Token

namespace Place

variable {dialect : Dialect} {p q : Place} {ts : List Token} {t e : Token}

/-- The place in the text with a line break and more behind it. -/
def followed (p : Place) (ds : List Char) : Place := { p with rest := p.rest ++ '\n' :: ds }

/-- The trivia before the token at a place. -/
def lead (p : Place) : LeadingTrivia :=
  match p.mode with
  | .html => ⟨[], none, p.offset, p.rest⟩
  | .code => LeadingTrivia.read p.offset p.rest

/-- The token at a place, without its trivia. -/
def lexeme (dialect : Dialect) (p : Place) : Lexeme :=
  match p.mode with
  | .html => Lexeme.html dialect p.lead.rest
  | .code => Lexeme.code p.lead.rest

theorem next_eq (dialect : Dialect) (p : Place) : p.next dialect =
    let text := p.lead.rest.take (p.lexeme dialect).length
    (⟨p.offset, p.lead.pieces, (p.lexeme dialect).kind, text,
      p.lead.error <|> (p.lexeme dialect).problem.map
        (Diagnostic.of · (.ofLength p.lead.offset (Text.width text)))⟩,
      ⟨p.lead.offset + Text.width text, p.mode.after (p.lexeme dialect).kind,
        p.lead.rest.drop (p.lexeme dialect).length⟩) := by
  rw [next, List.splitAt_eq]
  rfl

theorem length_lt_of_any {n : Nat} {cs : List Char} (h : (cs.drop n).any isCloser = true) :
    n < cs.length := by
  refine Nat.lt_of_not_le fun hle => ?_
  rw [List.drop_eq_nil_of_le hle] at h
  cases h

/-- The token at a place is read within the text there, and it is the same with a line break and more
behind it. -/
structure Settled (dialect : Dialect) (ds : List Char) (p : Place) : Prop where
  lead : (p.followed ds).lead = { p.lead with rest := p.lead.rest ++ '\n' :: ds }
  lexeme : (p.followed ds).lexeme dialect = p.lexeme dialect
  within : (p.lexeme dialect).length ≤ p.lead.rest.length

theorem settled_html {offset : Nat} {cs : List Char}
    (h : (Lexeme.html dialect cs).length < cs.length) (ds : List Char) :
    Settled dialect ds ⟨offset, .html, cs⟩ :=
  ⟨rfl, Lexeme.html_newline h ds, Nat.le_of_lt h⟩

theorem settled_code {offset : Nat} {cs : List Char}
    (hp : (Lexeme.code (LeadingTrivia.read offset cs).rest).problem = none)
    (hcloser : (LeadingTrivia.read offset cs).rest.any isCloser = true)
    (hle : (Lexeme.code (LeadingTrivia.read offset cs).rest).length ≤
      (LeadingTrivia.read offset cs).rest.length) (ds : List Char) :
    Settled dialect ds ⟨offset, .code, cs⟩ := by
  have hne : (LeadingTrivia.read offset cs).rest ≠ [] := fun hnil => by
    rw [hnil] at hcloser
    cases hcloser
  have hread := LeadingTrivia.read_newline hne ds
  refine ⟨hread, ?_, hle⟩
  show Lexeme.code (LeadingTrivia.read offset (cs ++ '\n' :: ds)).rest = _
  rw [hread]
  exact Lexeme.code_newline hcloser hp ds

/-- A token that nothing is wrong with, and that is a closer or has one behind it. -/
theorem settled_next (he : (p.next dialect).1.error = none)
    (h : (p.next dialect).1.kind.closes = true ∨ (p.next dialect).2.rest.any isCloser = true)
    (ds : List Char) : Settled dialect ds p := by
  rw [next_eq] at he h
  obtain ⟨offset, mode, cs⟩ := p
  cases mode with
  | html =>
    refine settled_html ?_ ds
    rcases h with h | h
    · exact absurd h (by simp [lexeme, lead, Lexeme.closes_html])
    · exact length_lt_of_any h
  | code =>
    have hproblem : (Lexeme.code (LeadingTrivia.read offset cs).rest).problem = none := by
      cases hp : (Lexeme.code (LeadingTrivia.read offset cs).rest).problem with
      | none => rfl
      | some problem =>
        have he : (_ <|> Option.map _ (Lexeme.code (LeadingTrivia.read offset cs).rest).problem)
          = none := he
        rw [hp] at he
        cases hl : (lead ⟨offset, .code, cs⟩).error <;> simp [hl] at he
    rcases h with h | h
    · obtain ⟨hany, hlength⟩ := Lexeme.closes_code h
      exact settled_code hproblem hany (hlength ▸ length_lt_of_any (n := 0) hany) ds
    · obtain ⟨c, hc, hcloser⟩ := List.any_eq_true.mp h
      exact settled_code hproblem (List.any_eq_true.mpr ⟨c, List.mem_of_mem_drop hc, hcloser⟩)
        (Nat.le_of_lt (length_lt_of_any h)) ds

/-- Before a closer the token at a place, and the place after it, do not depend on what is behind the
line break. -/
theorem next_followed (he : (p.next dialect).1.error = none)
    (h : (p.next dialect).1.kind.closes = true ∨ (p.next dialect).2.rest.any isCloser = true)
    (ds : List Char) :
    (p.followed ds).next dialect = ((p.next dialect).1, (p.next dialect).2.followed ds) := by
  obtain ⟨hlead, hlexeme, hle⟩ := settled_next he h ds
  rw [next_eq, next_eq, hlexeme, hlead]
  simp only [List.take_append_of_le_length hle, List.drop_append_of_le_length hle]
  rfl

/-- Tokens from a place on: if there are two, the first one is read there. -/
theorem tokens_cons (h : p.tokens dialect = t :: e :: ts) :
    t = (p.next dialect).1 ∧ (p.next dialect).1.kind ≠ .eof ∧
      (p.next dialect).2.tokens dialect = e :: ts := by
  have hk : (p.next dialect).1.kind ≠ .eof := by
    intro hk
    rw [tokens_eof hk] at h
    cases h
  rw [tokens_next hk] at h
  obtain ⟨rfl, htail⟩ := List.cons.inj h
  exact ⟨rfl, hk, htail⟩

/-- A token that closes is read in code, and its text is a closer. -/
theorem closes_next (h : (p.next dialect).1.kind.closes = true) :
    p.mode = .code ∧ p.rest.any isCloser = true := by
  rw [next_eq] at h
  obtain ⟨offset, mode, cs⟩ := p
  cases mode with
  | html => exact absurd h (by simp [lexeme, Lexeme.closes_html])
  | code => exact ⟨rfl, LeadingTrivia.any_rest (Lexeme.closes_code h).1⟩

/-- If the last token closes, there is a closer before it. -/
theorem any_closer (h : p.tokens dialect = ts ++ [t, e]) (ht : t.kind.closes = true) :
    p.rest.any isCloser = true := by
  induction ts generalizing p with
  | nil =>
    obtain ⟨rfl, -⟩ := tokens_cons h
    exact (closes_next ht).2
  | cons u us ih =>
    obtain ⟨v, vs, hv⟩ := List.exists_cons_of_ne_nil (l := us ++ [t, e]) (by simp)
    rw [List.cons_append, hv] at h
    obtain ⟨rfl, -, htail⟩ := tokens_cons h
    obtain ⟨front, htext, -⟩ := (next_reads dialect p).text
    rw [htext, List.any_append, List.any_append, ih (htail.trans hv.symm), Bool.or_true,
      Bool.or_true]

/-- Tokens that nothing is wrong with, the last of which closes, do not depend on what is behind a
line break. What follows them is read after the trivia at the end. -/
theorem tokens_followed (h : p.tokens dialect = ts ++ [t, e]) (ht : t.kind.closes = true)
    (he : ∀ u ∈ ts ++ [t], u.error = none) (ds : List Char) :
    ∃ q : Place, q.mode = .code ∧ q.tokens dialect = [e] ∧
      (p.followed ds).tokens dialect = ts ++ t :: (q.followed ds).tokens dialect := by
  induction ts generalizing p with
  | nil =>
    obtain ⟨rfl, hk, htail⟩ := tokens_cons h
    have hnext := next_followed (he _ (by simp)) (.inl ht) ds
    refine ⟨(p.next dialect).2, ?_, htail, ?_⟩
    · have hmode := (closes_next ht).1
      rw [next_eq] at ht ⊢
      show p.mode.after (p.lexeme dialect).kind = .code
      have hcloses : (p.lexeme dialect).kind.closes = true := ht
      rw [hmode]
      rcases Kind.closes_cases hcloses with hk' | hk' <;> rw [hk'] <;> rfl
    · rw [tokens_next (by rwa [hnext]), hnext]
      rfl
  | cons u us ih =>
    obtain ⟨v, vs, hv⟩ := List.exists_cons_of_ne_nil (l := us ++ [t, e]) (by simp)
    rw [List.cons_append, hv] at h
    obtain ⟨rfl, hk, htail⟩ := tokens_cons h
    rw [← hv] at htail
    have hnext := next_followed (he _ (by simp)) (.inr (any_closer htail ht)) ds
    obtain ⟨q, hmode, hq, hts⟩ := ih htail fun u hu => he u (by simp_all)
    refine ⟨q, hmode, hq, ?_⟩
    rw [tokens_next (by rwa [hnext]), hnext, hts]
    rfl

/-- Places in the same mode before the same text are read alike. -/
theorem tokens_congr (h : p.mode = q.mode)
    (hrest : p.lead.rest = q.lead.rest) (herror : p.lead.error.isSome = q.lead.error.isSome) :
    (p.tokens dialect).map Token.reading = (q.tokens dialect).map Token.reading := by
  induction hn : p.rest.length using Nat.strongRecOn generalizing p q with
  | ind n ih =>
    have hlexeme : p.lexeme dialect = q.lexeme dialect := by
      simp only [lexeme, h, hrest]
    have hreading : (p.next dialect).1.reading = (q.next dialect).1.reading := by
      rw [next_eq, next_eq, hlexeme, hrest]
      simp only [Token.reading]
      cases hp : p.lead.error <;> cases hq : q.lead.error <;>
        cases (q.lexeme dialect).problem <;> simp_all
    have hkind : (p.next dialect).1.kind = (q.next dialect).1.kind := congrArg (·.1) hreading
    by_cases hk : (p.next dialect).1.kind = .eof
    · rw [tokens_eof hk, tokens_eof (hkind ▸ hk), List.map_singleton, List.map_singleton, hreading]
    · have hk' : (q.next dialect).1.kind ≠ .eof := hkind ▸ hk
      rw [tokens_next hk, tokens_next hk', List.map_cons, List.map_cons, hreading]
      have hlt := (next_reads dialect p).length_lt hk
      have hafter : (p.next dialect).2.mode = (q.next dialect).2.mode ∧
          (p.next dialect).2.rest = (q.next dialect).2.rest := by
        rw [next_eq, next_eq, hlexeme, hrest, h]
        exact ⟨rfl, rfl⟩
      have hlead : (p.next dialect).2.lead.rest = (q.next dialect).2.lead.rest ∧
          (p.next dialect).2.lead.error.isSome = (q.next dialect).2.lead.error.isSome := by
        simp only [lead, hafter.1, hafter.2]
        cases (q.next dialect).2.mode with
        | html => exact ⟨rfl, rfl⟩
        | code =>
          have hc := LeadingTrivia.readFrom_congr ⟨[], none, (p.next dialect).2.offset, []⟩
            ⟨[], none, (q.next dialect).2.offset, []⟩ 0 (q.next dialect).2.rest
          exact ⟨hc.1, hc.2 rfl⟩
      exact congrArg _ (ih _ (hn ▸ hlt) hafter.1 hlead.1 hlead.2 rfl)

/-- After the trivia at the end of a text and a line break the rest is read as after a line break
alone. -/
theorem tokens_seam (hm : q.mode = .code) (hq : q.tokens dialect = [e]) (he : e.error = none)
    (offset : Nat) (ds : List Char) :
    ((q.followed ds).tokens dialect).map Token.reading =
      (tokens dialect ⟨offset, .code, '\n' :: ds⟩).map Token.reading := by
  have hk : (q.next dialect).1.kind = .eof := by
    by_cases hk : (q.next dialect).1.kind = .eof
    · exact hk
    · obtain ⟨ts, e', hts, -⟩ := exists_tokens dialect (q.next dialect).2
      rw [tokens_next hk, hts] at hq
      simp at hq
  rw [tokens_eof hk] at hq
  obtain rfl := List.singleton_inj.mp hq
  obtain ⟨o, mode, cs⟩ := q
  obtain rfl : mode = .code := hm
  have hrest : (LeadingTrivia.read o cs).rest = [] := by
    rw [next_eq] at hk
    rcases Lexeme.code_begins (LeadingTrivia.read o cs).rest with ⟨hnil, -⟩ | ⟨-, hv⟩
    · exact hnil
    · have hw := hv.written
      have hk : (Lexeme.code (LeadingTrivia.read o cs).rest).kind = .eof := hk
      rw [hk] at hw
      cases hw
  have herror : (LeadingTrivia.read o cs).error = none := by
    rw [next_eq] at he
    have he : ((LeadingTrivia.read o cs).error <|> _) = none := he
    cases hl : (LeadingTrivia.read o cs).error with
    | none => rfl
    | some d => simp [hl] at he
  obtain ⟨l, hl, hread⟩ := LeadingTrivia.readFrom_seam (Nat.zero_le _) hrest herror ds
  have hnewline : TriviaScan.first? ('\n' :: ds) = some ⟨.newline, 1, true⟩ := rfl
  have halone : LeadingTrivia.readFrom ⟨[], none, offset, []⟩ 0 ('\n' :: ds) = _ :=
    LeadingTrivia.readFrom_some hnewline
  have hrest' := congrArg LeadingTrivia.rest hread
  have herror' := congrArg (·.error.isSome) hread
  refine tokens_congr rfl (hrest'.trans ?_) (herror'.trans ?_)
  · exact (LeadingTrivia.readFrom_congr ..).1.trans (congrArg LeadingTrivia.rest halone).symm
  · exact ((LeadingTrivia.readFrom_congr ..).2 (by rw [hl]; rfl)).trans
      (congrArg (·.error.isSome) halone).symm

end Place

/-- The text with an open tag on a line before it. -/
def opened (text : List Char) : List Char := "<?php\n".toList ++ text

variable {dialect : Dialect} {P Q : List Char} {ts : List Token} {t e : Token}

/-- The open tag is the first token, and then code begins. -/
theorem tokenize_opened (dialect : Dialect) (text : List Char) :
    tokenize dialect (opened text) = Word.openTag.token ::
      Place.tokens dialect ⟨5, .code, '\n' :: text⟩ := by
  have hhtml : Lexeme.html dialect (opened text) = ⟨.openTag, 5, none⟩ := rfl
  have hnext : Place.next dialect ⟨0, .html, opened text⟩ =
      (Word.openTag.token, ⟨5, .code, '\n' :: text⟩) := by
    have hwidth : Text.width "<?php".toList = 5 := by decide
    have htake : (opened text).take 5 = "<?php".toList := rfl
    have hdrop : (opened text).drop 5 = '\n' :: text := rfl
    simp only [Place.next, hhtml, List.splitAt_eq, htake, hdrop, hwidth]
    rfl
  have hkind : Word.openTag.token.kind ≠ .eof := by decide
  rw [tokenize_eq_tokens, Place.tokens_next (by rw [hnext]; exact hkind), hnext]

/-- Two texts that nothing is wrong with, the first of which ends with a token that closes: the
tokens of both of them together are those of the first and those of the second. -/
theorem tokenize_joined (hP : tokenize dialect (opened P) = ts ++ [t, e])
    (ht : t.kind.closes = true) (heP : ∀ u ∈ tokenize dialect (opened P), u.error = none)
    (heQ : ∀ u ∈ tokenize dialect (opened Q), u.error = none) :
    ∃ ws, Token.significant (tokenize dialect (opened Q)) = Word.openTag :: ws ∧
      Token.significant (tokenize dialect (opened (P ++ '\n' :: Q))) =
        Token.significant (ts ++ [t]) ++ ws ∧
      ∀ u ∈ tokenize dialect (opened (P ++ '\n' :: Q)), u.error = none := by
  rw [tokenize_opened] at heQ ⊢
  obtain ⟨-, heQ⟩ := List.forall_mem_cons.mp heQ
  have heP : ∀ u ∈ ts ++ [t, e], u.error = none := hP ▸ heP
  obtain ⟨q, hmode, hq, hts⟩ := Place.tokens_followed ((tokenize_eq_tokens ..).symm.trans hP) ht
    (fun u hu => heP u (by simp only [List.mem_append, List.mem_cons] at hu ⊢; tauto)) Q
  have hreading := Place.tokens_seam hmode hq (heP e (by simp)) 5 Q
  have hwhole : tokenize dialect (opened (P ++ '\n' :: Q)) =
      (ts ++ [t]) ++ (q.followed Q).tokens dialect := by
    have htext : opened (P ++ '\n' :: Q) = opened P ++ '\n' :: Q := (List.append_assoc ..).symm
    rw [List.append_assoc, List.singleton_append, ← hts, tokenize_eq_tokens, htext]
    rfl
  refine ⟨Token.significant (Place.tokens dialect ⟨5, .code, '\n' :: Q⟩),
    Token.significant_cons nofun, ?_, ?_⟩
  · rw [hwhole, Token.significant_append, Token.significant_congr hreading]
  · rw [hwhole]
    intro u hu
    rcases List.mem_append.mp hu with hu | hu
    · exact heP u (by simp only [List.mem_append, List.mem_cons] at hu ⊢; tauto)
    · exact Token.errors_congr hreading heQ u hu

end PhpSyntax
