import PhpSyntax.Proofs.Words

/-!
Numbers as the longest match of a grammar. In front of every number that is read stands a digit, or
a point before a digit; what is read is the longest numeral that the text begins with. Behind the
point of a whole part the digits may begin with an underscore. That is no numeral of the grammar in
which underscores stand between digits only, and it is the one way to leave that grammar.
-/
namespace PhpSyntax

/-- A beginning of a text that a grammar has under some kind, and the only one as long as it is or
longer. -/
structure Longest (grammar : Kind → List Char → Prop) (cs : List Char) (kind : Kind)
    (text : List Char) : Prop where
  begins : text <+: cs
  matched : grammar kind text
  longest : ∀ k other, grammar k other → other <+: cs →
    other.length < text.length ∨ k = kind ∧ other = text

namespace Lexeme

/-! ## Grammars of numerals -/

/-- Digits, each of them with or without an underscore before it. -/
inductive Run (isDigit : Char → Bool) : List Char → Prop where
  | nil : Run isDigit []
  | digit {c cs} (h : isDigit c = true) (tail : Run isDigit cs) : Run isDigit (c :: cs)
  | separated {c cs} (h : isDigit c = true) (tail : Run isDigit cs) : Run isDigit ('_' :: c :: cs)

/-- A digit and more of them; an underscore stands between two digits only. -/
inductive Digits (isDigit : Char → Bool) : List Char → Prop where
  | cons {c cs} (h : isDigit c = true) (tail : Run isDigit cs) : Digits isDigit (c :: cs)

/-- A letter, a sign or none, and digits. -/
inductive Exponent : List Char → Prop where
  | plain {e ds} (letter : e = 'e' ∨ e = 'E') (digits : Digits Char.isDigit ds) : Exponent (e :: ds)
  | signed {e s ds} (letter : e = 'e' ∨ e = 'E') (sign : s = '+' ∨ s = '-')
    (digits : Digits Char.isDigit ds) : Exponent (e :: s :: ds)

/-- Numerals: an integer with a radix or a decimal one, and what has a point or an exponent. Behind
the point of a whole part stands a `fraction`. -/
inductive Numeral (fraction : List Char → Prop) : Kind → List Char → Prop where
  | radix {r isDigit ds} (letter : radixDigit? r = some isDigit) (digits : Digits isDigit ds) :
    Numeral fraction .intNumber ('0' :: r :: ds)
  | whole {ds} (digits : Digits Char.isDigit ds) : Numeral fraction .intNumber ds
  | scaled {ds es} (digits : Digits Char.isDigit ds) (exponent : Exponent es) :
    Numeral fraction .floatNumber (ds ++ es)
  | float {ds fs es} (digits : Digits Char.isDigit ds) (tail : fraction fs)
    (exponent : es = [] ∨ Exponent es) : Numeral fraction .floatNumber (ds ++ '.' :: (fs ++ es))
  | point {fs es} (digits : Digits Char.isDigit fs) (exponent : es = [] ∨ Exponent es) :
    Numeral fraction .floatNumber ('.' :: (fs ++ es))

/-- A fraction with underscores between digits only; it may be absent. -/
def IsFraction (fs : List Char) : Prop := fs = [] ∨ Digits Char.isDigit fs

variable {isDigit : Char → Bool} {c : Char} {cs ds es fs more more' text : List Char}

theorem Digits.run (h : Digits isDigit ds) : Run isDigit ds := by
  cases h with
  | cons h tail => exact .digit h tail

theorem Run.separate (h : Run isDigit (c :: cs)) (hc : isDigit c = true) :
    Run isDigit ('_' :: c :: cs) := by
  cases h with
  | digit _ tail => exact .separated hc tail
  | separated h tail => exact .separated hc (.digit h tail)

theorem Run.digits (h : Run isDigit (c :: cs)) (hc : isDigit c = true) :
    Digits isDigit (c :: cs) := by
  cases h with
  | digit _ tail => exact .cons hc tail
  | separated h tail => exact .cons hc (.digit h tail)

theorem IsFraction.run (h : IsFraction fs) : Run Char.isDigit fs := by
  rcases h with rfl | h
  · exact .nil
  · exact h.run

theorem Exponent.exists_cons (h : Exponent es) :
    ∃ e more, es = e :: more ∧ (e = 'e' ∨ e = 'E') := by
  cases h with
  | plain letter | signed letter => exact ⟨_, _, rfl, letter⟩

/-! ## The lengths of the parts -/

theorem digitsFrom_eq (isDigit : Char → Bool) (n : Nat) (cs : List Char) :
    digitsFrom isDigit n cs = n + digitsLength isDigit cs := by
  induction cs generalizing n with
  | nil => rfl
  | cons c cs ih =>
    rw [digitsLength, digitsFrom, digitsFrom, ih (n + 1), ih (0 + 1)]
    split
    · omega
    · rfl

theorem digitsLength_cons (isDigit : Char → Bool) (c : Char) (cs : List Char) :
    digitsLength isDigit (c :: cs) =
      if isDigit c || (c == '_' && cs.head?.any isDigit) then digitsLength isDigit cs + 1
      else 0 := by
  rw [digitsLength, digitsFrom, digitsFrom_eq, Nat.zero_add, Nat.add_comm]

/-- A run of digits goes on with what follows it. -/
theorem Run.digitsLength_append (h : Run isDigit ds) (more : List Char) :
    digitsLength isDigit (ds ++ more) = ds.length + digitsLength isDigit more := by
  induction h with
  | nil => exact (Nat.zero_add _).symm
  | @digit c cs hc _ ih =>
    rw [List.cons_append, digitsLength_cons, if_pos (by simp [hc]), ih, List.length_cons]
    omega
  | @separated c cs hc _ ih =>
    rw [List.cons_append, digitsLength_cons, if_pos (by simp [hc]), List.cons_append,
      digitsLength_cons, if_pos (by simp [hc]), ih, List.length_cons, List.length_cons]
    omega

/-- A run of digits is there behind which no digits follow. -/
theorem exists_run (isDigit : Char → Bool) (cs : List Char) : ∃ ds more,
    cs = ds ++ more ∧ Run isDigit ds ∧ digitsLength isDigit more = 0 := by
  induction cs with
  | nil => exact ⟨[], [], rfl, .nil, rfl⟩
  | cons c cs ih =>
    by_cases hcond : (isDigit c || (c == '_' && cs.head?.any isDigit)) = true
    · obtain ⟨ds, more, rfl, hds, hmore⟩ := ih
      refine ⟨c :: ds, more, rfl, ?_, hmore⟩
      rcases Bool.or_eq_true _ _ ▸ hcond with hc | hc
      · exact .digit hc hds
      · simp only [Bool.and_eq_true, beq_iff_eq] at hc
        obtain ⟨rfl, hnext⟩ := hc
        cases ds with
        | nil =>
          -- the digit behind the underscore would be left over
          cases more with
          | nil => cases hnext
          | cons d more =>
            have hd : isDigit d = true := hnext
            have hpos := digitsLength_pos more hd
            exact absurd hmore (Nat.ne_of_gt hpos)
        | cons d ds => exact hds.separate hnext
    · exact ⟨[], c :: cs, rfl, .nil, by rw [digitsLength_cons, if_neg hcond]⟩

theorem exists_digits (h : cs.head?.any isDigit = true) : ∃ ds more,
    cs = ds ++ more ∧ Digits isDigit ds ∧ digitsLength isDigit more = 0 := by
  obtain ⟨ds, more, rfl, hds, hmore⟩ := exists_run isDigit cs
  cases ds with
  | cons c ds => exact ⟨_, more, rfl, hds.digits h, hmore⟩
  | nil =>
    cases more with
    | nil => cases h
    | cons c more =>
      have hc : isDigit c = true := h
      have hpos := digitsLength_pos more hc
      exact absurd hmore (Nat.ne_of_gt hpos)

/-- A text splits in one way only into a run of digits and something behind which no digits
follow. -/
theorem Run.append_inj (h : Run isDigit ds) (h' : Run isDigit fs)
    (hmore : digitsLength isDigit more = 0) (hmore' : digitsLength isDigit more' = 0)
    (happend : ds ++ more = fs ++ more') : ds = fs ∧ more = more' := by
  have hlength := h.digitsLength_append more
  rw [happend, h'.digitsLength_append, hmore, hmore'] at hlength
  exact List.append_inj happend (by omega)

theorem digitsLength_stop (hc : isDigit c = false) (hne : c ≠ '_') (more : List Char) :
    digitsLength isDigit (c :: more) = 0 := by
  rw [digitsLength_cons, if_neg (by simp [hc, hne])]

theorem Exponent.digitsLength_eq (h : Exponent es) (more : List Char) :
    digitsLength Char.isDigit (es ++ more) = 0 := by
  obtain ⟨e, tail, rfl, rfl | rfl⟩ := h.exists_cons
  · exact digitsLength_stop (by decide) (by decide) _
  · exact digitsLength_stop (by decide) (by decide) _

theorem Exponent.exponentLength_append (h : Exponent es) (more : List Char) :
    exponentLength (es ++ more) = es.length + digitsLength Char.isDigit more := by
  have hletter {e : Char} (he : e = 'e' ∨ e = 'E') : (e == 'e' || e == 'E') = true := by
    rcases he with rfl | rfl <;> rfl
  cases h with
  | @plain e ds letter digits =>
    have hlength := digits.run.digitsLength_append more
    cases digits with
    | @cons c cs hc tail =>
      have hsign : (c == '+' || c == '-') = false := by
        rw [Bool.eq_false_iff]
        intro hsign
        rcases (by simpa using hsign : c = '+' ∨ c = '-') with rfl | rfl <;> cases hc
      rw [List.cons_append] at hlength
      simp only [List.cons_append, exponentLength, hletter letter, hsign, hc, hlength,
        List.length_cons]
      simp only [if_true, Bool.false_eq_true, if_false]
      omega
  | @signed e s ds letter sign digits =>
    have hlength := digits.run.digitsLength_append more
    have hsign : (s == '+' || s == '-') = true := by rcases sign with rfl | rfl <;> rfl
    cases digits with
    | @cons c cs hc tail =>
      rw [List.cons_append] at hlength
      simp only [List.cons_append, exponentLength, hletter letter, hsign, List.head?_cons,
        Option.any_some, hc, hlength, List.length_cons]
      simp only [if_true]
      omega

/-- An exponent is there behind which no digits follow, unless there is none. -/
theorem exists_exponent (cs : List Char) : exponentLength cs = 0 ∨
    ∃ es more, cs = es ++ more ∧ Exponent es ∧ digitsLength Char.isDigit more = 0 := by
  unfold exponentLength
  split
  · next e c cs =>
    split
    · next he =>
      have he : e = 'e' ∨ e = 'E' := by simpa using he
      split
      · next hs =>
        have hs : c = '+' ∨ c = '-' := by simpa using hs
        split
        · next hd =>
          obtain ⟨ds, more, rfl, hds, hmore⟩ := exists_digits hd
          exact .inr ⟨e :: c :: ds, more, rfl, .signed he hs hds, hmore⟩
        · exact .inl rfl
      · split
        · next hc =>
          have hhead : (c :: cs).head?.any Char.isDigit = true := hc
          obtain ⟨ds, more, hcs, hds, hmore⟩ := exists_digits hhead
          exact .inr ⟨e :: ds, more, by rw [hcs, List.cons_append], .plain he hds, hmore⟩
        · exact .inl rfl
    · exact .inl rfl
  · exact .inl rfl

/-- The length of a fraction and an exponent behind a whole part. -/
def tailLength (cs : List Char) : Nat :=
  fractionLength cs + exponentLength (cs.drop (fractionLength cs))

theorem fractionLength_point (cs : List Char) :
    fractionLength ('.' :: cs) = digitsLength Char.isDigit cs + 1 := rfl

theorem fractionLength_other (h : cs.head? ≠ some '.') : fractionLength cs = 0 := by
  unfold fractionLength
  split
  · exact absurd rfl h
  · rfl

/-- An exponent that a text begins with is no longer than what is read. -/
theorem Exponent.length_le (h : Exponent es) (more : List Char) :
    es.length ≤ tailLength (es ++ more) := by
  have hpoint : (es ++ more).head? ≠ some '.' := by
    obtain ⟨e, tail, rfl, rfl | rfl⟩ := h.exists_cons <;> simp
  rw [tailLength, fractionLength_other hpoint, List.drop_zero, h.exponentLength_append]
  omega

/-- Neither is a fraction with or without an exponent. -/
theorem Run.length_le (h : Run Char.isDigit fs) (he : es = [] ∨ Exponent es) (more : List Char) :
    ('.' :: (fs ++ es)).length ≤ tailLength ('.' :: (fs ++ es) ++ more) := by
  have hlength := h.digitsLength_append (es ++ more)
  rw [tailLength, List.cons_append, List.append_assoc, fractionLength_point, hlength,
    List.length_cons, List.length_append]
  rcases he with rfl | he
  · rw [List.length_nil]
    omega
  · have hdrop : ('.' :: (fs ++ (es ++ more))).drop (fs.length + 0 + 1) = es ++ more := by
      simp
    rw [he.digitsLength_eq, hdrop, he.exponentLength_append]
    omega

theorem tailLength_point (h : Run Char.isDigit fs) (hmore : digitsLength Char.isDigit more = 0) :
    tailLength ('.' :: (fs ++ more)) = fs.length + 1 + exponentLength more := by
  have hdrop : ('.' :: (fs ++ more)).drop (fs.length + 1) = more := by simp
  rw [tailLength, fractionLength_point, h.digitsLength_append, hmore, Nat.add_zero, hdrop]

/-- An exponent or none is there that takes its length. -/
theorem exists_optional (cs : List Char) : ∃ es more, cs = es ++ more ∧
    (es = [] ∨ Exponent es) ∧ es.length = exponentLength cs := by
  rcases exists_exponent cs with hzero | ⟨es, more, rfl, hes, hmore⟩
  · exact ⟨[], cs, rfl, .inl rfl, hzero.symm⟩
  · exact ⟨es, more, rfl, .inr hes, by rw [hes.exponentLength_append, hmore, Nat.add_zero]⟩

/-- A fraction or an exponent is there that takes the length of the tail, unless it is empty. -/
theorem exists_tail (cs : List Char) : ∃ ts more, cs = ts ++ more ∧ ts.length = tailLength cs ∧
    (ts = [] ∨ Exponent ts ∨ ∃ fs es, ts = '.' :: (fs ++ es) ∧ Run Char.isDigit fs ∧
      (es = [] ∨ Exponent es)) := by
  by_cases hpoint : cs.head? = some '.'
  · obtain ⟨cs, rfl⟩ : ∃ tail, cs = '.' :: tail := List.head?_eq_some_iff.mp hpoint
    obtain ⟨fs, rest, rfl, hfs, hrest⟩ := exists_run Char.isDigit cs
    rw [tailLength_point hfs hrest]
    obtain ⟨es, more, rfl, hes, hlength⟩ := exists_optional rest
    refine ⟨'.' :: (fs ++ es), more, by simp, ?_, .inr (.inr ⟨fs, es, rfl, hfs, hes⟩)⟩
    rw [← hlength, List.length_cons, List.length_append]
    omega
  · rw [tailLength, fractionLength_other hpoint, List.drop_zero, Nat.zero_add]
    obtain ⟨es, more, rfl, hes, hlength⟩ := exists_optional cs
    exact ⟨es, more, rfl, hlength, hes.imp_right .inl⟩

/-! ## What is read -/

theorem radixLength_append {r : Char} (hr : radixDigit? r = some isDigit) (h : Digits isDigit ds)
    (more : List Char) : radixLength? ('0' :: r :: (ds ++ more)) =
      some (ds.length + digitsLength isDigit more + 2) := by
  have hlength := h.run.digitsLength_append more
  cases h with
  | @cons c cs hc tail =>
    rw [List.cons_append] at hlength
    rw [List.cons_append, radixLength?, hr, ← hlength]
    exact if_pos hc

theorem exists_radix {n : Nat} (h : radixLength? cs = some n) : ∃ r isDigit ds more,
    cs = '0' :: r :: (ds ++ more) ∧ radixDigit? r = some isDigit ∧ Digits isDigit ds ∧
      digitsLength isDigit more = 0 := by
  unfold radixLength? at h
  split at h
  · next r d cs =>
    simp only [Option.bind_eq_bind, Option.bind_eq_some_iff, Option.ite_none_right_eq_some] at h
    obtain ⟨isDigit, hr, hd, -⟩ := h
    have hhead : (d :: cs).head?.any isDigit = true := hd
    obtain ⟨ds, more, hcs, hds, hmore⟩ := exists_digits hhead
    exact ⟨r, isDigit, ds, more, by rw [hcs], hr, hds, hmore⟩
  · cases h

/-- A number without a radix is a whole part, and a tail if there is one. -/
theorem number_of_digits (h : Digits Char.isDigit ds) (hmore : digitsLength Char.isDigit more = 0)
    (hradix : radixLength? (ds ++ more) = none) : number (ds ++ more) =
      ⟨if tailLength more = 0 then .intNumber else .floatNumber, ds.length + tailLength more,
        none⟩ := by
  have hwhole := h.run.digitsLength_append more
  rw [hmore, Nat.add_zero] at hwhole
  simp only [number, hradix, hwhole, List.drop_left, Nat.add_assoc]
  rfl

/-- The letter behind a leading zero is no part of a decimal number. -/
theorem radixDigit_stop {r : Char} (hr : radixDigit? r = some isDigit) (more : List Char) :
    digitsLength Char.isDigit (r :: more) = 0 ∧ r ≠ 'e' ∧ r ≠ 'E' ∧ r ≠ '.' := by
  unfold radixDigit? at hr
  split at hr
  all_goals first
    | exact ⟨digitsLength_stop (by decide) (by decide) _, by decide, by decide, by decide⟩
    | cases hr

end Lexeme

theorem Longest.of_length {grammar : Kind → List Char → Prop} {cs text : List Char} {kind : Kind}
    (begins : text <+: cs) (matched : grammar kind text)
    (h : ∀ k other, grammar k other → other <+: cs →
      other.length < text.length ∨ k = kind ∧ other.length = text.length) :
    Longest grammar cs kind text := by
  refine ⟨begins, matched, fun k other hother hbegins => (h k other hother hbegins).imp_right ?_⟩
  rintro ⟨hkind, hlength⟩
  have hwithin := List.prefix_of_prefix_length_le hbegins begins (Nat.le_of_eq hlength)
  exact ⟨hkind, hwithin.eq_of_length hlength⟩

namespace Lexeme

variable {isDigit : Char → Bool} {c : Char} {cs ds es fs more text : List Char} {kind : Kind}

/-- A numeral at the beginning of a text that begins with a digit: one with a radix, a part of the
whole part, or the whole part with an exponent or a fraction behind it. -/
theorem Numeral.cases_of_digits {fraction : List Char → Prop} {k : Kind} {other rest : List Char}
    (h : Numeral fraction k other) (hds : Digits Char.isDigit ds)
    (hmore : digitsLength Char.isDigit more = 0) (happend : other ++ rest = ds ++ more) :
    (k = .intNumber ∧ ∃ r isDigit ds', other = '0' :: r :: ds' ∧ radixDigit? r = some isDigit ∧
      Digits isDigit ds') ∨
    (k = .intNumber ∧ other.length ≤ ds.length) ∨
    (k = .floatNumber ∧ ∃ es, other = ds ++ es ∧ es ++ rest = more ∧ Exponent es) ∨
    k = .floatNumber ∧ ∃ fs es, other = ds ++ '.' :: (fs ++ es) ∧
      '.' :: (fs ++ (es ++ rest)) = more ∧ fraction fs ∧ (es = [] ∨ Exponent es) := by
  cases h with
  | radix letter digits => exact .inl ⟨rfl, _, _, _, rfl, letter, digits⟩
  | whole digits =>
    have hlength := digits.run.digitsLength_append rest
    rw [happend, hds.run.digitsLength_append, hmore] at hlength
    exact .inr (.inl ⟨rfl, by omega⟩)
  | @scaled ds' es digits exponent =>
    rw [List.append_assoc] at happend
    obtain ⟨rfl, hrest⟩ := digits.run.append_inj hds.run (exponent.digitsLength_eq rest) hmore
      happend
    exact .inr (.inr (.inl ⟨rfl, es, rfl, hrest, exponent⟩))
  | @float ds' fs es digits tail exponent =>
    rw [List.append_assoc, List.cons_append, List.append_assoc] at happend
    obtain ⟨rfl, hrest⟩ := digits.run.append_inj hds.run
      (digitsLength_stop (by decide) (by decide) _) hmore happend
    exact .inr (.inr (.inr ⟨rfl, fs, es, rfl, hrest, tail, exponent⟩))
  | point digits exponent =>
    cases hds with
    | cons hc _ =>
      obtain ⟨rfl, -⟩ := List.cons.inj happend
      cases hc

theorem longest_radix {r : Char} (hr : radixDigit? r = some isDigit) (h : Digits isDigit ds)
    (hmore : digitsLength isDigit more = 0) :
    Longest (Numeral (Run Char.isDigit)) ('0' :: r :: (ds ++ more)) .intNumber
      ('0' :: r :: ds) := by
  obtain ⟨hstop, he, hE, hpoint⟩ := radixDigit_stop hr (ds ++ more)
  have hzero : Digits Char.isDigit ['0'] := .cons rfl .nil
  refine .of_length ⟨more, rfl⟩ (.radix hr h) fun k other hother ⟨rest, hrest⟩ => ?_
  obtain ⟨rfl, r', isDigit', ds', rfl, hr', digits⟩ | ⟨rfl, hle⟩ | ⟨-, es, -, htail, hes⟩ |
    ⟨-, fs, es, -, htail, -⟩ := hother.cases_of_digits hzero hstop hrest
  · obtain ⟨rfl, htail⟩ := List.cons.inj (List.cons.inj hrest).2
    obtain rfl := Option.some.inj (hr'.symm.trans hr)
    have htail : ds' ++ rest = ds ++ more := htail
    have hlength := digits.run.digitsLength_append rest
    rw [htail, h.run.digitsLength_append, hmore] at hlength
    simp only [List.length_cons, true_and]
    omega
  · have hle : other.length ≤ 1 := hle
    refine .inl ?_
    simp only [List.length_cons]
    omega
  · obtain ⟨e, tail, rfl, hletter⟩ := hes.exists_cons
    obtain ⟨rfl, -⟩ := List.cons.inj htail
    exact absurd hletter (not_or.mpr ⟨he, hE⟩)
  · exact absurd (List.cons.inj htail).1.symm hpoint

/-- Where there is no radix no numeral goes beyond the whole part and its tail, and one that goes so
far is of the kind that is read. -/
theorem Numeral.length_le_tail {k : Kind} {other : List Char}
    (h : Numeral (Run Char.isDigit) k other) (hds : Digits Char.isDigit ds)
    (hmore : digitsLength Char.isDigit more = 0) (hradix : radixLength? (ds ++ more) = none)
    (hbegins : other <+: ds ++ more) : other.length < ds.length + tailLength more ∨
      k = (if tailLength more = 0 then .intNumber else .floatNumber) ∧
        other.length = ds.length + tailLength more := by
  obtain ⟨after, hafter⟩ := hbegins
  obtain ⟨rfl, r, isDigit, ds', rfl, hr, digits⟩ | ⟨rfl, hle⟩ | ⟨rfl, es, rfl, htail, hes⟩ |
    ⟨rfl, fs, es, rfl, htail, hfs, hes⟩ := h.cases_of_digits hds hmore hafter
  · rw [← hafter] at hradix
    have hsome := radixLength_append hr digits after
    exact nomatch hsome.symm.trans hradix
  · by_cases hempty : tailLength more = 0
    · rw [if_pos hempty]
      simp only [true_and]
      omega
    · exact .inl (by omega)
  · have hle := hes.length_le after
    obtain ⟨e, tail, rfl, -⟩ := hes.exists_cons
    rw [htail, List.length_cons] at hle
    rw [if_neg (by omega), List.length_append, List.length_cons]
    simp only [true_and]
    omega
  · have hle := hfs.length_le hes after
    rw [List.cons_append, List.append_assoc, htail] at hle
    have hpos : 0 < ('.' :: (fs ++ es)).length := Nat.zero_lt_succ _
    rw [if_neg (by omega), List.length_append]
    simp only [true_and]
    omega

/-- Where there is no radix the whole part is read, and its tail. -/
theorem longest_digits (h : Digits Char.isDigit ds) (hmore : digitsLength Char.isDigit more = 0)
    (hradix : radixLength? (ds ++ more) = none) :
    Longest (Numeral (Run Char.isDigit)) (ds ++ more) (number (ds ++ more)).kind
      ((ds ++ more).take (number (ds ++ more)).length) := by
  have hle (k : Kind) (other : List Char) (hother : Numeral (Run Char.isDigit) k other) :=
    hother.length_le_tail h hmore hradix
  rw [number_of_digits h hmore hradix]
  obtain ⟨ts, rest, rfl, hlength, hts⟩ := exists_tail more
  rw [← hlength, ← List.length_append] at hle ⊢
  rw [← List.append_assoc, List.take_left]
  refine .of_length ⟨rest, rfl⟩ ?_ (by rwa [← List.append_assoc] at hle)
  obtain rfl | hes | ⟨fs, es, rfl, hfs, hes⟩ := hts
  · simpa using .whole h
  · obtain ⟨e, tail, rfl, -⟩ := hes.exists_cons
    exact .scaled h hes
  · exact .float h hfs hes

/-- A number that begins with its point has an exponent behind its digits, or none. -/
theorem longest_point (h : Digits Char.isDigit fs) (hmore : digitsLength Char.isDigit more = 0) :
    Longest (Numeral (Run Char.isDigit)) ('.' :: (fs ++ more)) .floatNumber
      (('.' :: (fs ++ more)).take (tailLength ('.' :: (fs ++ more)))) := by
  obtain ⟨es, rest, rfl, hes, hlength⟩ := exists_optional more
  have htail : tailLength ('.' :: (fs ++ (es ++ rest))) = ('.' :: (fs ++ es)).length := by
    rw [tailLength_point h.run hmore, ← hlength, List.length_cons, List.length_append]
    omega
  have happend : '.' :: (fs ++ (es ++ rest)) = '.' :: (fs ++ es) ++ rest := by simp
  rw [htail, happend, List.take_left]
  refine .of_length ⟨rest, rfl⟩ (.point h hes) fun k other hother ⟨after, hafter⟩ => ?_
  have hdigit {ds cs : List Char} (digits : Digits Char.isDigit ds)
      (hds : ds ++ cs = '.' :: (fs ++ es) ++ rest) : False := by
    cases digits with
    | cons hc _ =>
      obtain ⟨rfl, -⟩ := List.cons.inj hds
      cases hc
  cases hother with
  | radix =>
    obtain ⟨h, -⟩ := List.cons.inj hafter
    cases h
  | whole digits => exact (hdigit digits hafter).elim
  | scaled digits | float digits =>
    rw [List.append_assoc] at hafter
    exact (hdigit digits hafter).elim
  | point digits exponent =>
    have hle := digits.run.length_le exponent after
    rw [hafter, ← happend, htail] at hle
    simp only [true_and]
    omega

/-! ## Numbers in code -/

/-- A number begins with a digit, or with a point before a digit. -/
def BeginsNumber (cs : List Char) : Prop :=
  ∃ c more, c.isDigit = true ∧ (cs = c :: more ∨ cs = '.' :: c :: more)

theorem code_number (hc : c.isDigit = true) (cs : List Char) :
    code (c :: cs) = number (c :: cs) := by
  obtain ⟨-, h₂, h₃, h₄, h₅, -⟩ := isNameContinue_head (c := c) (by simp [isNameContinue, hc]) cs
  simp [code, h₂, h₃, h₄, h₅, hc]

/-- A point that begins a number stands before a digit. -/
theorem exists_pointNumber {l : Lexeme} (h : pointNumber? cs = some l) :
    ∃ c more, cs = '.' :: c :: more ∧ c.isDigit = true ∧ code cs = l := by
  have hnumber := h
  unfold pointNumber? at h
  split at h
  · next ds =>
    rw [Option.ite_none_right_eq_some] at h
    cases ds with
    | nil => cases h.1
    | cons c more =>
      refine ⟨c, more, rfl, h.1, ?_⟩
      simp [code, heredoc?, heredocHeader?, cast?, dollarName?, quotedString?, isQuote, hnumber]
  · cases h

theorem code_point (hc : c.isDigit = true) (cs : List Char) :
    code ('.' :: c :: cs) = ⟨.floatNumber, tailLength ('.' :: c :: cs), none⟩ := by
  have hpoint : pointNumber? ('.' :: c :: cs) =
      some ⟨.floatNumber, tailLength ('.' :: c :: cs), none⟩ := if_pos hc
  obtain ⟨-, -, -, -, hcode⟩ := exists_pointNumber hpoint
  exact hcode

/-- In code the longest numeral is read that a text begins with. -/
theorem longest_code (h : BeginsNumber cs) : Longest (Numeral (Run Char.isDigit)) cs (code cs).kind
    (cs.take (code cs).length) := by
  obtain ⟨c, tail, hc, rfl | rfl⟩ := h
  · rw [code_number hc]
    have hhead : (c :: tail).head?.any Char.isDigit = true := hc
    cases hradix : radixLength? (c :: tail) with
    | none =>
      obtain ⟨ds, more, hcs, hds, hmore⟩ := exists_digits hhead
      rw [hcs] at hradix ⊢
      exact longest_digits hds hmore hradix
    | some n =>
      obtain ⟨r, isDigit, ds, more, hcs, hr, hds, hmore⟩ := exists_radix hradix
      have hlength := radixLength_append hr hds more
      have htake : ('0' :: r :: (ds ++ more)).take (ds.length + 0 + 2) = '0' :: r :: ds := by simp
      rw [hcs, number, hlength, hmore, htake]
      exact longest_radix hr hds hmore
  · rw [code_point hc]
    have hhead : (c :: tail).head?.any Char.isDigit = true := hc
    obtain ⟨fs, more, hcs, hfs, hmore⟩ := exists_digits hhead
    rw [hcs]
    exact longest_point hfs hmore

/-! ## Underscores behind a point -/

/-- Behind the whole part at the beginning of a text there is a point, and behind that an underscore
before a digit. -/
def Strays (cs : List Char) : Prop :=
  ∃ ds c more, Digits Char.isDigit ds ∧ c.isDigit = true ∧ cs = ds ++ '.' :: '_' :: c :: more

theorem Numeral.mono {fraction fraction' : List Char → Prop} {k : Kind}
    (hf : ∀ fs, fraction fs → fraction' fs) (h : Numeral fraction k text) :
    Numeral fraction' k text := by
  cases h with
  | radix letter digits => exact .radix letter digits
  | whole digits => exact .whole digits
  | scaled digits exponent => exact .scaled digits exponent
  | float digits tail exponent => exact .float digits (hf _ tail) exponent
  | point digits exponent => exact .point digits exponent

/-- A numeral with an underscore in another place than between two digits has it behind the
point. -/
theorem Numeral.strict_or {k : Kind} (h : Numeral (Run Char.isDigit) k text) :
    Numeral IsFraction k text ∨ Strays text := by
  cases h with
  | radix letter digits => exact .inl (.radix letter digits)
  | whole digits => exact .inl (.whole digits)
  | scaled digits exponent => exact .inl (.scaled digits exponent)
  | point digits exponent => exact .inl (.point digits exponent)
  | @float ds _ es digits tail exponent =>
    cases tail with
    | nil => exact .inl (.float digits (.inl rfl) exponent)
    | digit hc tail => exact .inl (.float digits (.inr (.cons hc tail)) exponent)
    | @separated c cs hc tail => exact .inr ⟨ds, c, cs ++ es, digits, hc, rfl⟩

theorem Strays.append (h : Strays cs) (more : List Char) : Strays (cs ++ more) := by
  obtain ⟨ds, c, rest, hds, hc, rfl⟩ := h
  exact ⟨ds, c, rest ++ more, hds, hc, by simp⟩

/-- Where such an underscore stands, a numeral with underscores between digits only ends before
it. -/
theorem Numeral.length_le {k : Kind} {other : List Char} (h : Numeral IsFraction k other)
    (hds : Digits Char.isDigit ds) (hbegins : other <+: ds ++ '.' :: '_' :: more) :
    other.length ≤ ds.length + 1 := by
  obtain ⟨rest, hrest⟩ := hbegins
  have hmore : digitsLength Char.isDigit ('.' :: '_' :: more) = 0 :=
    digitsLength_stop (by decide) (by decide) _
  obtain ⟨-, r, isDigit, ds', rfl, hr, -⟩ | ⟨-, hle⟩ | ⟨-, es, rfl, htail, hes⟩ |
    ⟨-, fs, es, rfl, htail, hfs, hes⟩ := h.cases_of_digits hds hmore hrest
  · have hzero : Run Char.isDigit ['0'] := .digit rfl .nil
    obtain ⟨hstop, -, -, hpoint⟩ := radixDigit_stop hr (ds' ++ rest)
    obtain ⟨-, hletter⟩ := hzero.append_inj hds.run hstop hmore hrest
    exact absurd (List.cons.inj hletter).1 hpoint
  · exact Nat.le_succ_of_le hle
  · obtain ⟨e, tail, rfl, rfl | rfl⟩ := hes.exists_cons <;>
      · obtain ⟨h, -⟩ := List.cons.inj htail
        cases h
  · obtain ⟨-, htail⟩ := List.cons.inj htail
    rcases hfs with rfl | hfs
    · rcases hes with rfl | hes
      · simp
      · obtain ⟨e, tail, rfl, rfl | rfl⟩ := hes.exists_cons <;>
          · obtain ⟨h, -⟩ := List.cons.inj htail
            cases h
    · cases hfs with
      | cons hc _ =>
        obtain ⟨rfl, -⟩ := List.cons.inj htail
        cases hc

/-- What is read is the longest numeral with underscores between digits only, unless one stands
behind the point of a whole part. -/
theorem strict_iff (h : Longest (Numeral (Run Char.isDigit)) cs kind text) :
    Longest (Numeral IsFraction) cs kind text ↔ ¬Strays cs := by
  constructor
  · rintro hstrict ⟨ds, c, more, hds, hc, rfl⟩
    -- what is read goes on beyond the underscore
    have hloose : Numeral (Run Char.isDigit) .floatNumber (ds ++ '.' :: (['_', c] ++ [])) :=
      .float hds (.separated hc .nil) (.inl rfl)
    have hshort := hstrict.matched.length_le hds hstrict.begins
    have hlength : (ds ++ '.' :: (['_', c] ++ [])).length = ds.length + 3 := by simp
    rcases h.longest _ _ hloose ⟨more, by simp⟩ with hlt | ⟨-, rfl⟩ <;> omega
  · intro hstrays
    refine ⟨h.begins, h.matched.strict_or.resolve_right fun hstray => hstrays ?_,
      fun k other hother => h.longest k other (hother.mono fun fs => IsFraction.run)⟩
    obtain ⟨rest, rfl⟩ := h.begins
    exact hstray.append rest

end Lexeme

namespace Place

open Lexeme

theorem next_lexeme (dialect : Dialect) {p : Place} (h : p.mode = .code) :
    (p.next dialect).1.kind = (code (LeadingTrivia.read p.offset p.rest).rest).kind ∧
      (p.next dialect).1.text = (LeadingTrivia.read p.offset p.rest).rest.take
        (code (LeadingTrivia.read p.offset p.rest).rest).length := by
  simp [next, h]

/-- Where a number begins in code, behind the trivia, the token is the longest numeral if digits may
begin with an underscore behind the point of a whole part. It is the longest numeral with
underscores between digits only if and only if there is no such underscore. -/
theorem next_numeral (dialect : Dialect) {p : Place} (hmode : p.mode = .code)
    (h : BeginsNumber (LeadingTrivia.read p.offset p.rest).rest) :
    Longest (Numeral (Run Char.isDigit)) (LeadingTrivia.read p.offset p.rest).rest
      (p.next dialect).1.kind (p.next dialect).1.text ∧
    (Longest (Numeral IsFraction) (LeadingTrivia.read p.offset p.rest).rest
      (p.next dialect).1.kind (p.next dialect).1.text ↔
        ¬Strays (LeadingTrivia.read p.offset p.rest).rest) := by
  obtain ⟨hkind, htext⟩ := next_lexeme dialect hmode
  have hlongest := longest_code h
  rw [← hkind, ← htext] at hlongest
  exact ⟨hlongest, strict_iff hlongest⟩

/-- A float with all its parts, behind a blank and before a semicolon. -/
theorem next_numeral_parts : (next {} ⟨5, .code, " 1_0.5e-3;".toList⟩).1 =
      ⟨5, [⟨.whitespace, 1⟩], .floatNumber, "1_0.5e-3".toList, none⟩ ∧
    BeginsNumber "1_0.5e-3;".toList ∧ ¬Strays "1_0.5e-3;".toList ∧
    Longest (Numeral IsFraction) "1_0.5e-3;".toList .floatNumber "1_0.5e-3".toList := by
  have hbegins : BeginsNumber "1_0.5e-3;".toList := ⟨'1', "_0.5e-3;".toList, rfl, .inl rfl⟩
  have hstrays : ¬Strays "1_0.5e-3;".toList := by
    rintro ⟨ds, c, more, hds, hc, hsplit⟩
    have hwhole : Run Char.isDigit ['1', '_', '0'] := .digit rfl (.separated rfl .nil)
    have hpoint : digitsLength Char.isDigit ".5e-3;".toList = 0 := rfl
    obtain ⟨-, hmore⟩ := hwhole.append_inj hds.run hpoint
      (digitsLength_stop (by decide) (by decide) _) hsplit
    cases hmore
  have h := next_numeral {} (p := ⟨5, .code, " 1_0.5e-3;".toList⟩) rfl hbegins
  exact ⟨rfl, hbegins, hstrays, h.2.mpr hstrays⟩

/-- Of `1._5` all is read, though the underscore does not stand between two digits: a numeral of
the stricter grammar ends at the point. -/
theorem next_numeral_stray :
    (tokenize {} "<?php 1._5;".toList).map (fun t => (t.kind, t.text)) =
      [(.openTag, "<?php".toList), (.floatNumber, "1._5".toList), (.semicolon, ";".toList),
        (.eof, [])] ∧
    Numeral IsFraction .floatNumber "1.".toList ∧
    ¬Numeral IsFraction .floatNumber "1._5".toList := by
  have hone : Digits Char.isDigit ['1'] := .cons rfl .nil
  have hfloat : Numeral IsFraction .floatNumber (['1'] ++ '.' :: ([] ++ [])) :=
    .float hone (.inl rfl) (.inl rfl)
  refine ⟨by decide +kernel, hfloat, fun h => ?_⟩
  have hbegins : "1._5".toList <+: ['1'] ++ '.' :: '_' :: ['5'] := List.prefix_refl _
  have hle := h.length_le hone hbegins
  revert hle
  decide

end Place
end PhpSyntax
