import PhpSyntax.Proofs.Parsed
import PhpSyntax.Proofs.Tiling

/-!
Diagnostics come in the order of the text and point into it. What is wrong with a token is reported
where the token is, what is missing where the last token ends, and what is unexpected is taken as
soon as it is reported. Only the end of file can have something wrong with the trivia before it, and
nothing comes after that.
-/
namespace PhpSyntax

namespace Text

theorem IsBoundary.le_width {n : Nat} {cs : List Char} (h : IsBoundary n cs) : n ≤ width cs := by
  obtain ⟨front, rest, rfl, rfl⟩ := h
  rw [width_append]
  exact Nat.le_add_right ..

end Text

namespace Diagnostic

/-- Both ends of the range are at characters of the text. -/
structure PointsInto (text : List Char) (d : Diagnostic) : Prop where
  start : Text.IsBoundary d.range.start text
  stop : Text.IsBoundary d.range.stop text

/-- Diagnostics that point into a text, one after the other and between two offsets. -/
inductive InOrder (text : List Char) : (start : Nat) → List Diagnostic → (stop : Nat) → Prop where
  | nil {o e} (le : o ≤ e) : InOrder text o [] e
  | cons {o d ds e} (begins : o ≤ d.range.start) (points : d.PointsInto text)
    (tail : InOrder text d.range.start ds e) : InOrder text o (d :: ds) e

variable {text : List Char} {o o' m e : Nat} {ds ds' : List Diagnostic} {d : Diagnostic}

theorem InOrder.le (h : InOrder text o ds e) : o ≤ e := by
  induction h with
  | nil le => exact le
  | cons begins _ _ ih => exact Nat.le_trans begins ih

theorem InOrder.weaken (h : InOrder text o ds e) (ho : o' ≤ o) : InOrder text o' ds e := by
  cases h with
  | nil le => exact .nil (Nat.le_trans ho le)
  | cons begins points tail => exact .cons (Nat.le_trans ho begins) points tail

theorem InOrder.append (h : InOrder text o ds m) (h' : InOrder text m ds' e) :
    InOrder text o (ds ++ ds') e := by
  induction h with
  | nil le => exact h'.weaken le
  | cons begins points _ ih => exact .cons begins points (ih h')

theorem inOrder_singleton (hd : d.PointsInto text) (ho : o ≤ d.range.start)
    (he : d.range.start ≤ e) : InOrder text o [d] e :=
  .cons ho hd (.nil he)

theorem InOrder.le_start (h : InOrder text o ds e) : ∀ d ∈ ds, o ≤ d.range.start := by
  induction h with
  | nil => simp
  | cons begins _ _ ih =>
    exact List.forall_mem_cons.mpr ⟨begins, fun d hd => Nat.le_trans begins (ih d hd)⟩

theorem InOrder.pairwise (h : InOrder text o ds e) :
    ds.Pairwise fun d d' => d.range.start ≤ d'.range.start := by
  induction h with
  | nil => exact .nil
  | cons _ _ tail ih => exact .cons tail.le_start ih

theorem InOrder.pointsInto (h : InOrder text o ds e) : ∀ d ∈ ds, d.PointsInto text := by
  induction h with
  | nil => simp
  | cons _ points _ ih => exact List.forall_mem_cons.mpr ⟨points, ih⟩

end Diagnostic

namespace TriviaScan

theorem closingStar_of_unterminated {n : Nat} {cs : List Char} (h : (closingStar n cs).2 = false) :
    (closingStar n cs).1 = n + cs.length := by
  induction cs generalizing n with
  | nil => rfl
  | cons c cs ih =>
    rw [closingStar] at h ⊢
    split at h
    · cases h
    · rw [if_neg ‹_›, ih h, List.length_cons]
      omega

/-- A comment without an end takes all that is left. -/
theorem first_length_of_unterminated {cs : List Char} {scan : TriviaScan}
    (h : first? cs = some scan) (hs : scan.terminated = false) : scan.length = cs.length := by
  cases cs with
  | nil => cases h
  | cons c cs =>
    rw [first?] at h
    split at h
    · obtain rfl := Option.some.inj h
      cases hs
    split at h
    · obtain rfl := Option.some.inj h
      cases hs
    split at h
    · obtain rfl := Option.some.inj h
      cases hs
    split at h
    · obtain rfl := Option.some.inj h
      cases hs
    split at h
    · next hc =>
      obtain rfl := Option.some.inj h
      have hlen : 2 ≤ (c :: cs).length := by
        cases cs with
        | nil => simp at hc
        | cons => simp
      have hstar : (closingStar 2 ((c :: cs).drop 2)).1 = 2 + ((c :: cs).drop 2).length :=
        closingStar_of_unterminated hs
      rw [List.length_drop] at hstar
      exact hstar.trans (by omega)
    · cases h

end TriviaScan

namespace LeadingTrivia

/-- Nothing follows a comment without an end. -/
theorem readFrom_rest_eq_nil {lead : LeadingTrivia} {skip : Nat} {cs : List Char}
    (hlead : lead.error.isSome = true → cs.length ≤ skip)
    (h : (readFrom lead skip cs).error.isSome = true) : (readFrom lead skip cs).rest = [] := by
  induction cs generalizing lead skip with
  | nil => cases skip <;> rfl
  | cons c cs ih =>
    cases skip with
    | succ skip =>
      rw [readFrom] at h ⊢
      exact ih (fun he => Nat.le_of_succ_le_succ (hlead he)) h
    | zero =>
      have hnone : lead.error = none := by
        cases he : lead.error with
        | none => rfl
        | some d => exact absurd (hlead (by simp [he])) (Nat.not_succ_le_zero _)
      rw [readFrom] at h ⊢
      split at h
      · rw [hnone] at h
        cases h
      · next scan hs =>
        refine ih (fun he => ?_) h
        have hopen : scan.terminated = false := by
          cases ht : scan.terminated with
          | false => rfl
          | true => simp [add, hnone, ht] at he
        rw [TriviaScan.first_length_of_unterminated hs hopen, List.length_cons]
        exact Nat.le_refl _

/-- What is wrong with trivia is a part of it. -/
theorem readFrom_error {lead : LeadingTrivia} {skip : Nat} {cs : List Char} {d : Diagnostic}
    (h : (readFrom lead skip cs).error = some d) : lead.error = some d ∨
      ∃ front part rest, cs.drop skip = front ++ (part ++ rest) ∧
        d.range = .ofLength (lead.offset + Text.width front) (Text.width part) := by
  induction cs generalizing lead skip with
  | nil => exact .inl (by cases skip <;> exact h)
  | cons c cs ih =>
    cases skip with
    | succ skip =>
      rw [readFrom] at h
      exact ih h
    | zero =>
      rw [readFrom] at h
      split at h
      · exact .inl h
      · next scan hs =>
        obtain ⟨n, hn⟩ := Nat.exists_eq_add_one.mpr (TriviaScan.first_length_pos hs)
        have htext : c :: cs = (c :: cs).take scan.length ++ cs.drop (scan.length - 1) := by
          rw [hn, List.take_succ_cons, Nat.add_sub_cancel, List.cons_append,
            List.take_append_drop]
        rcases ih h with he | ⟨front, part, rest, hcs, hr⟩
        · cases hl : lead.error with
          | some e =>
            rw [add, hl] at he
            exact .inl he
          | none =>
            simp only [add, hl] at he
            split at he
            · cases he
            · obtain rfl := Option.some.inj he
              exact .inr ⟨[], _, _, htext, rfl⟩
        · refine .inr ⟨(c :: cs).take scan.length ++ front, part, rest, ?_, ?_⟩
          · rw [List.append_assoc, ← hcs]
            exact htext
          · rw [hr, add, Text.width_append, Nat.add_assoc]

end LeadingTrivia

namespace Token

/-- What is wrong with a token points at it. For the end of file it can be the trivia before it. -/
structure Points (text : List Char) (t : Token) : Prop where
  own : t.kind ≠ .eof → ∀ d ∈ t.error, d.range = t.range
  behind : ∀ d ∈ t.error, t.offset ≤ d.range.start
  into : ∀ d ∈ t.error, d.PointsInto text

end Token

namespace Place

variable {dialect : Dialect} {text : List Char} {p : Place}

/-- Something is wrong with the token itself, or there is nothing but trivia with something wrong in
it. -/
theorem next_error {d : Diagnostic} (h : (p.next dialect).1.error = some d) :
    d.range = (p.next dialect).1.range ∨ (p.next dialect).1.kind = .eof ∧
      ∃ front part rest, p.rest = front ++ (part ++ rest) ∧
        d.range = .ofLength (p.offset + Text.width front) (Text.width part) := by
  obtain ⟨offset, mode, rest⟩ := p
  cases mode with
  | html =>
    refine .inl ?_
    simp only [next, List.splitAt_eq] at h ⊢
    cases hp : (Lexeme.html dialect rest).problem with
    | none => simp [hp] at h
    | some problem =>
      simp only [hp, Option.map_some] at h
      obtain rfl := Option.some.inj h
      rfl
  | code =>
    obtain ⟨front, -, hoffset, hwidth, -⟩ := LeadingTrivia.read_precedes offset rest
    simp only [next, List.splitAt_eq] at h ⊢
    cases he : (LeadingTrivia.read offset rest).error with
    | some e =>
      rw [he] at h
      obtain rfl := Option.some.inj h
      have hsome : (LeadingTrivia.readFrom ⟨[], none, offset, []⟩ 0 rest).error.isSome = true := by
        rw [show (LeadingTrivia.readFrom _ _ _).error = some e from he]
        rfl
      have hnil : (LeadingTrivia.read offset rest).rest = [] :=
        LeadingTrivia.readFrom_rest_eq_nil (fun hl => by cases hl) hsome
      refine .inr ⟨?_, ?_⟩
      · rw [hnil, Lexeme.code]
      · exact (LeadingTrivia.readFrom_error he).resolve_left (by simp)
    | none =>
      rw [he] at h
      refine .inl ?_
      cases hp : (Lexeme.code (LeadingTrivia.read offset rest).rest).problem with
      | none => simp [hp] at h
      | some problem =>
        simp only [hp, Option.map_some] at h
        obtain rfl := Option.some.inj h
        rw [Token.range, Token.leadingWidth, hwidth, ← hoffset]
        rfl

theorem Within.points (h : p.Within text) (dialect : Dialect) :
    (p.next dialect).1.Points text := by
  have hlies := h.lies dialect
  obtain ⟨before, htext, hoffset⟩ := h
  have hbegins := (next_reads dialect p).begins
  refine ⟨fun hk d hd => (next_error hd).resolve_right fun hr => hk hr.1, fun d hd => ?_,
    fun d hd => ?_⟩
  · rcases next_error hd with hr | ⟨-, front, part, rest, -, hr⟩
    · rw [hr]
      exact Nat.le_add_right ..
    · rw [hr, hbegins]
      exact Nat.le_add_right ..
  · rcases next_error hd with hr | ⟨-, front, part, rest, hrest, hr⟩
    · exact ⟨hr ▸ hlies.start_boundary, hr ▸ hlies.stop_boundary⟩
    · rw [hrest] at htext
      refine ⟨⟨before ++ front, part ++ rest, by rw [htext, List.append_assoc], ?_⟩,
        ⟨before ++ (front ++ part), rest, by simp [htext], ?_⟩⟩
      · rw [hr, hoffset, Text.width_append]
        rfl
      · rw [hr, hoffset, Text.width_append, Text.width_append, ← Nat.add_assoc]
        rfl

end Place

namespace Token

variable {text : List Char} {o : Nat} {t : Token} {ts : List Token}

theorem Points.inOrder (h : t.Points text) (ht : t.kind ≠ .eof) :
    Diagnostic.InOrder text t.range.start t.error.toList t.range.stop := by
  cases he : t.error with
  | none => exact .nil t.range.start_le_stop
  | some d =>
    have hr := h.own ht d he
    exact Diagnostic.inOrder_singleton (h.into d he) (hr ▸ Nat.le_refl _)
      (hr ▸ t.range.start_le_stop)

theorem Points.inOrder_cons {e : Nat} (h : t.Points text) (ht : t.kind ≠ .eof)
    (hts : Diagnostic.InOrder text t.range.stop (ts.filterMap (·.error)) e) :
    Diagnostic.InOrder text t.range.start ((t :: ts).filterMap (·.error)) e := by
  have happend := (h.inOrder ht).append hts
  cases he : t.error with
  | none => simpa [he] using happend
  | some d => simpa [he] using happend

theorem Chained.le_start (h : Chained o (t :: ts)) : o ≤ t.range.start :=
  h.1 ▸ Nat.le_add_right ..

/-- What is wrong with tokens that stand one after the other is in order, too. -/
theorem Chained.inOrder (h : Chained o ts) (hp : ∀ t ∈ ts, t.Points text)
    (hk : ∀ t ∈ ts, t.kind ≠ .eof) :
    Diagnostic.InOrder text o (ts.filterMap (·.error)) (endFrom o ts) := by
  induction ts generalizing o with
  | nil => exact .nil (Nat.le_refl o)
  | cons t ts ih =>
    obtain ⟨hpt, hpts⟩ := List.forall_mem_cons.mp hp
    obtain ⟨hkt, hkts⟩ := List.forall_mem_cons.mp hk
    exact (hpt.inOrder_cons hkt (ih h.2 hpts hkts)).weaken h.le_start

theorem isBoundary_endFrom (h : Text.IsBoundary o text) (ht : ∀ t ∈ ts, t.Lies text) :
    Text.IsBoundary (endFrom o ts) text := by
  induction ts generalizing o with
  | nil => exact h
  | cons t ts ih =>
    obtain ⟨hlies, hts⟩ := List.forall_mem_cons.mp ht
    exact ih hlies.stop_boundary hts

end Token

namespace Stage

variable {text : List Char} {g g' : Stage}

/-- The diagnostics are in order, and what is to come is behind them. -/
structure Ordered (text : List Char) (g : Stage) : Prop where
  reported : Diagnostic.InOrder text 0 g.diagnostics g.lastEnd
  chained : Token.Chained g.lastEnd g.tokens
  boundary : Text.IsBoundary g.lastEnd text
  lies : ∀ t ∈ g.tokens, t.Lies text
  points : ∀ t ∈ g.tokens, t.Points text

/-- To take a token keeps the order, also if something was reported at it right before. -/
theorem Ordered.take_reported {t : Token} {rest : List Token} {ds : List Diagnostic}
    (h : Ordered text g) (ht : g.tokens = t :: rest) (hk : t.kind ≠ .eof)
    (hds : Diagnostic.InOrder text g.lastEnd ds t.range.start) :
    Ordered text { g with diagnostics := g.diagnostics ++ ds }.take := by
  obtain ⟨tokens, children, diagnostics, lastEnd, found⟩ := g
  dsimp only at ht hds
  subst ht
  obtain ⟨hreported, ⟨-, hchained⟩, hboundary, hlies, hpoints⟩ := h
  dsimp only at hreported
  obtain ⟨hlie, hlies⟩ := List.forall_mem_cons.mp hlies
  obtain ⟨hpoint, hpoints⟩ := List.forall_mem_cons.mp hpoints
  have hjunk : ∀ u ∈ rest.takeWhile Token.isSkipped, u ∈ rest ∧ u.kind ≠ .eof := fun u hu =>
    (Token.mem_takeSkipped hu).imp_right fun hs he => by simp [he] at hs
  have hrest : rest.dropWhile Token.isSkipped ⊆ rest := (List.dropWhile_sublist _).subset
  have hlast := hchained.takeSkipped.inOrder (fun u hu => hpoints u (hjunk u hu).1)
    fun u hu => (hjunk u hu).2
  rw [take]
  dsimp only
  rw [if_neg hk]
  exact {
    reported := (hreported.append hds).append (hpoint.inOrder_cons hk hlast)
    chained := hchained.dropSkipped
    boundary := Token.isBoundary_endFrom hlie.stop_boundary fun u hu => hlies u (hjunk u hu).1
    lies := fun u hu => hlies u (hrest hu)
    points := fun u hu => hpoints u (hrest hu) }

theorem Ordered.take (h : Ordered text g) : Ordered text g.take := by
  rcases take_cases g with he | ⟨t, rest, ht, hk, -⟩
  · rwa [he]
  · have hle : g.lastEnd ≤ t.range.start := (ht ▸ h.chained).le_start
    have ht := h.take_reported ht hk (.nil hle)
    rwa [List.append_nil] at ht

theorem Ordered.miss (h : Ordered text g) (what : String) : Ordered text (g.miss what) where
  reported := h.reported.append <| Diagnostic.inOrder_singleton
    ⟨h.boundary, h.boundary⟩ (Nat.le_refl _) (Nat.le_refl _)
  chained := h.chained
  boundary := h.boundary
  lies := h.lies
  points := h.points

/-- What matters for the order. -/
theorem Ordered.congr (h : Ordered text g) (ht : g'.tokens = g.tokens)
    (hd : g'.diagnostics = g.diagnostics) (he : g'.lastEnd = g.lastEnd) : Ordered text g' :=
  ⟨hd ▸ he ▸ h.reported, ht ▸ he ▸ h.chained, he ▸ h.boundary, ht ▸ h.lies, ht ▸ h.points⟩

theorem ordered_steady (text : List Char) : Steady fun (_ : Unit) => Ordered text where
  take h _ := h.take
  miss what h := h.miss what
  decline h := h.congr rfl rfl rfl
  node h := ⟨(), h.congr rfl rfl rfl, fun _ h' =>
    ⟨fun _ _ _ => h'.congr rfl rfl rfl, fun _ => h'.congr rfl rfl rfl⟩⟩
  recover {_ g t rest problem} h ht hk _ _ := by
    -- The report is ahead of the end of what was taken, until its token is taken, too.
    refine ⟨(), ?_, fun _ _ _ h' => h'.congr rfl rfl rfl⟩
    have henter : Ordered text g.enter := h.congr rfl rfl rfl
    have hle : g.lastEnd ≤ t.range.start := (ht ▸ h.chained).le_start
    have hlies := h.lies t (ht ▸ List.mem_cons_self ..)
    rw [report_eq problem (show g.enter.tokens = t :: rest from ht)]
    exact henter.take_reported ht hk <| Diagnostic.inOrder_singleton
      ⟨hlies.start_boundary, hlies.stop_boundary⟩ hle (Nat.le_refl _)
  wrap h _ _ := ⟨(), h.congr rfl rfl rfl, fun _ _ h' _ _ => h'.congr rfl rfl rfl, fun what =>
    (Ordered.miss (h.congr rfl rfl rfl) what).congr rfl rfl rfl⟩

theorem start_ordered (dialect : Dialect) (text : List Char) :
    Ordered text (start (tokenize dialect text)) where
  reported := .nil (Nat.le_refl 0)
  chained := (tokenize_tiles dialect text).chained
  boundary := Text.isBoundary_zero text
  lies t ht := by
    obtain ⟨p, hp, rfl⟩ := exists_place_of_mem_tokenize ht
    exact hp.lies dialect
  points t ht := by
    obtain ⟨p, hp, rfl⟩ := exists_place_of_mem_tokenize ht
    exact hp.points dialect

end Stage

/-- What a parse reports comes in the order of the text. -/
theorem ParsedAs.inOrder {dialect : Dialect} {text : List Char} {g : Stage} {last : Token}
    {p : Parse} (h : ParsedAs dialect text g last p) :
    ∃ stop, Diagnostic.InOrder text 0 p.diagnostics stop := by
  obtain ⟨n, hm⟩ := h.makes
  have hg : g.Ordered text :=
    (Stage.ordered_steady text).program hm (i := ())
      (Stage.start_ordered dialect text)
  have ht : g.tokens = [last] := ParsedAs.tokens_left hm h
  have hmem : last ∈ g.tokens := ht ▸ List.mem_singleton_self last
  have hoffset : last.offset = g.lastEnd := (ht ▸ hg.chained).1
  rw [h.diagnostics]
  cases he : last.error with
  | none => exact ⟨_, hg.reported.append (.nil (Nat.le_refl _))⟩
  | some d =>
    have hpoints := hg.points last hmem
    exact ⟨_, hg.reported.append <| Diagnostic.inOrder_singleton (hpoints.into d he)
      (hoffset ▸ hpoints.behind d he) (Nat.le_refl _)⟩

/-- Every text has a parse whose diagnostics come in the order of the text: they begin one after the
other. Each of them points into the text, and both its ends are at a character or at the end. -/
theorem diagnostics_ordered (dialect : Dialect) (text : List Char) :
    ∃ p, parse dialect text = .ok p ∧
      p.diagnostics.Pairwise (fun d d' => d.range.start ≤ d'.range.start) ∧
      ∀ d ∈ p.diagnostics, d.range.start ≤ d.range.stop ∧ d.range.stop ≤ Text.width text ∧
        Text.IsBoundary d.range.start text ∧ Text.IsBoundary d.range.stop text := by
  obtain ⟨_, p, _, _, -, -, hp, hparsed⟩ := exists_parse dialect text
  obtain ⟨stop, horder⟩ := hparsed.inOrder
  refine ⟨p, hp, horder.pairwise, fun d hd => ?_⟩
  have hinto := horder.pointsInto d hd
  exact ⟨d.range.start_le_stop, hinto.stop.le_width, hinto.start, hinto.stop⟩

end PhpSyntax
