import PhpSyntax.Proofs.Covering
import PhpSyntax.Tree.Dump

/-!
The text of the parts of a tree. A builder looks at the ends of the tokens only, so between them a
piece of trivia may end inside a character. That piece has no text then, and neither has what comes
right after it. A tree prints if and only if no piece of its trivia ends so.
-/
namespace PhpSyntax

namespace Text

variable {n start : Nat} {cs front rest : List Char}

/-- Where a text cannot be split, a character holds the offset in its inside. -/
theorem exists_midCharacter (edge : Edge) (hn : n ≤ width cs) (h : ¬IsBoundary n cs) :
    ∃ fault, midCharacter? edge (start + n) start cs = some fault := by
  induction cs generalizing n start with
  | nil =>
    obtain rfl : n = 0 := Nat.le_zero.mp hn
    exact absurd (isBoundary_zero []) h
  | cons c cs ih =>
    rw [width_cons] at hn
    rw [midCharacter?]
    by_cases hlt : n < c.utf8Size
    · have hpos : n ≠ 0 := fun hzero => h (hzero ▸ isBoundary_zero _)
      rw [if_pos (by omega), if_pos (by omega)]
      exact ⟨_, rfl⟩
    · obtain ⟨n, rfl⟩ := Nat.exists_eq_add_of_le (Nat.le_of_not_lt hlt)
      have hrest : ¬IsBoundary n cs := fun hb => h (by simpa using hb.append_left [c])
      rw [if_neg (by omega), ← Nat.add_assoc]
      exact ih (by omega) hrest

theorem exists_fault_of_splitBytes (edge : Edge) (start : Nat) (hn : n ≤ width cs)
    (h : splitBytes? n cs = none) :
    ∃ fault, midCharacter? edge (start + n) start cs = some fault := by
  refine exists_midCharacter edge hn fun hb => ?_
  rw [← isSome_splitBytes_iff, h] at hb
  cases hb

theorem dropBytes_eq_ok_iff (hn : n ≤ width cs) :
    dropBytes start n cs = .ok rest ↔ ∃ front, cs = front ++ rest ∧ width front = n := by
  simp only [← splitBytes_eq_some_iff]
  rw [dropBytes]
  cases hs : splitBytes? n cs with
  | some parts => simp [Prod.ext_iff]
  | none =>
    obtain ⟨fault, hfault⟩ := exists_fault_of_splitBytes .start start hn hs
    simp [hfault]

theorem takeBytes_eq_ok_iff (hn : n ≤ width cs) :
    takeBytes start n cs = .ok front ↔ ∃ rest, cs = front ++ rest ∧ width front = n := by
  simp only [← splitBytes_eq_some_iff]
  rw [takeBytes]
  cases hs : splitBytes? n cs with
  | some parts => simp [Prod.ext_iff]
  | none =>
    obtain ⟨fault, hfault⟩ := exists_fault_of_splitBytes .stop start hn hs
    simp [hfault]

end Text

/-! ## Parts of a text -/

section Answers

variable {ε α β : Type} {x : Except ε α}

theorem bind_eq_ok_iff {f : α → Except ε β} {b : β} :
    x.bind f = .ok b ↔ ∃ a, x = .ok a ∧ f a = .ok b := by
  cases x <;> simp [Except.bind]

theorem exists_bind_ok_iff {f : α → Except ε β} (h : ∀ a, x = .ok a → ∃ b, f a = .ok b) :
    (∃ b, x.bind f = .ok b) ↔ ∃ a, x = .ok a := by
  simp only [bind_eq_ok_iff]
  constructor
  · rintro ⟨_, a, ha, -⟩
    exact ⟨a, ha⟩
  · rintro ⟨a, ha⟩
    obtain ⟨b, hb⟩ := h a ha
    exact ⟨b, a, ha, hb⟩

theorem exists_mapM_ok_iff {f : α → Except ε β} {xs : List α} :
    (∃ ys, xs.mapM f = .ok ys) ↔ ∀ x ∈ xs, ∃ y, f x = .ok y := by
  induction xs with
  | nil => simp [pure, Except.pure]
  | cons x xs ih =>
    rw [List.mapM_cons, List.forall_mem_cons, ← ih]
    cases f x with
    | error e => simp [bind, Except.bind]
    | ok y => cases xs.mapM f <;> simp [bind, Except.bind, pure, Except.pure]

end Answers

namespace Range

theorem eq_ofLength_iff {r : Range} {start length : Nat} :
    r = .ofLength start length ↔ r.start = start ∧ r.length = length := by
  have hle := r.start_le_stop
  cases r
  simp only [ofLength, Range.length, mk.injEq] at *
  omega

/-- What holds where the first of some ranges begins and where each of them ends holds where they
begin and where all of them end. -/
theorem Tile.of_stops {P : Nat → Prop} {start stop : Nat} {rs : List Range}
    (h : Tile start rs stop) (hstart : P start) (hstops : ∀ r ∈ rs, P r.stop) :
    P stop ∧ ∀ r ∈ rs, P r.start := by
  induction rs generalizing start with
  | nil => exact ⟨h ▸ hstart, nofun⟩
  | cons r rs ih =>
    obtain ⟨hr, hrs⟩ := List.forall_mem_cons.mp hstops
    obtain ⟨hlast, hstarts⟩ := ih h.2 hr hrs
    exact ⟨hlast, List.forall_mem_cons.mpr ⟨h.1 ▸ hstart, hstarts⟩⟩

end Range

namespace Table

variable {text cs : List Char} {r : Range}

theorem split_eq_ok_iff {n : Nat} {parts : List Char × List Char} :
    slice.split n text = .ok parts ↔ text = parts.1 ++ parts.2 ∧ Text.width parts.1 = n := by
  rw [← Text.splitBytes_eq_some_iff, slice.split]
  cases Text.splitBytes? n text <;> simp

/-- A part of a text stands between what is before it and what is behind it. -/
theorem slice_eq_ok_iff : slice text r = .ok cs ↔ ∃ before after,
    text = before ++ (cs ++ after) ∧ Text.width before = r.start ∧ Text.width cs = r.length := by
  constructor
  · intro h
    obtain ⟨⟨before, rest⟩, hstart, hrest⟩ := bind_eq_ok_iff.mp h
    obtain ⟨⟨front, after⟩, hlength, hfound⟩ := bind_eq_ok_iff.mp hrest
    obtain ⟨rfl, hbefore⟩ := split_eq_ok_iff.mp hstart
    obtain ⟨rfl, hfront⟩ := split_eq_ok_iff.mp hlength
    obtain rfl := Except.ok.inj hfound
    exact ⟨before, after, rfl, hbefore, hfront⟩
  · rintro ⟨before, after, rfl, hstart, hlength⟩
    rw [Range.eq_ofLength_iff.mpr ⟨hstart.symm, hlength.symm⟩, slice_eq]

/-- A range has a text if and only if none of its ends lies inside a character. -/
theorem exists_slice_iff : (∃ cs, slice text r = .ok cs) ↔
    Text.IsBoundary r.start text ∧ Text.IsBoundary r.stop text := by
  have hlength : r.start + r.length = r.stop := Nat.add_sub_cancel' r.start_le_stop
  simp only [slice_eq_ok_iff]
  constructor
  · rintro ⟨cs, before, after, rfl, hstart, hcs⟩
    refine ⟨⟨before, _, rfl, hstart⟩, before ++ cs, after, by simp, ?_⟩
    rw [Text.width_append, hstart, hcs, hlength]
  · rintro ⟨⟨before, rest, rfl, hstart⟩, hstop⟩
    rw [← hlength, ← hstart] at hstop
    obtain ⟨cs, after, rfl, hcs⟩ := hstop.of_append_left
    exact ⟨cs, before, after, rfl, hstart, hcs⟩

variable {before own after : List Char} {start offset width : Nat}

/-- Within a part of a text a range has what stands there in that part. -/
theorem slice_within_iff (hbefore : Text.width before = start) (hstart : start ≤ r.start)
    (hstop : r.stop ≤ start + Text.width own) :
    slice (before ++ (own ++ after)) r = .ok cs ↔ ∃ passed more, own = passed ++ (cs ++ more) ∧
      start + Text.width passed = r.start ∧ Text.width cs = r.length := by
  have hlength : r.start + r.length = r.stop := Nat.add_sub_cancel' r.start_le_stop
  rw [slice_eq_ok_iff]
  constructor
  · rintro ⟨front, rest, htext, hfront, hcs⟩
    obtain ⟨passed, rfl, hown⟩ := Text.exists_append_of_width htext (by omega)
    rw [Text.width_append, hbefore] at hfront
    rw [← List.append_assoc] at hown
    obtain ⟨more, rfl, -⟩ := Text.exists_append_of_width hown.symm (by
      rw [Text.width_append]
      omega)
    exact ⟨passed, more, List.append_assoc .., hfront, hcs⟩
  · rintro ⟨passed, more, rfl, hpassed, hcs⟩
    refine ⟨before ++ passed, more ++ after, by simp, ?_, hcs⟩
    rw [Text.width_append, hbefore, hpassed]

/-- To go to the beginning of a range and to take what is in it is to read its text. -/
theorem read_eq_ok_iff (hbefore : Text.width before = start) (hstart : start ≤ offset)
    (hstop : offset + width ≤ start + Text.width own) :
    (Text.dropBytes start (offset - start) own).bind (Text.takeBytes offset width) = .ok cs ↔
      slice (before ++ (own ++ after)) (.ofLength offset width) = .ok cs := by
  have hlength : (Range.ofLength offset width).length = width := Nat.add_sub_cancel_left ..
  rw [bind_eq_ok_iff, slice_within_iff hbefore hstart hstop, hlength]
  constructor
  · rintro ⟨rest, hdrop, htake⟩
    obtain ⟨passed, rfl, hpassed⟩ := (Text.dropBytes_eq_ok_iff (by omega)).mp hdrop
    rw [Text.width_append] at hstop
    obtain ⟨more, rfl, hcs⟩ := (Text.takeBytes_eq_ok_iff (by omega)).mp htake
    exact ⟨passed, more, rfl, hpassed ▸ Nat.add_sub_cancel' hstart, hcs⟩
  · rintro ⟨passed, more, rfl, hpassed, hcs⟩
    have hpassed : start + Text.width passed = offset := hpassed
    refine ⟨cs ++ more, (Text.dropBytes_eq_ok_iff ?_).mpr ⟨passed, rfl, by omega⟩,
      (Text.takeBytes_eq_ok_iff ?_).mpr ⟨more, rfl, hcs⟩⟩
    · rw [Text.width_append]
      omega
    · rw [Text.width_append]
      omega

end Table

/-! ## The parts of a token -/

namespace Tip

/-- The pieces of trivia lie side by side. -/
theorem tile_place (start : Nat) (cs : List Char) (offset : Nat) (ps : List TriviaPiece) :
    Range.Tile offset ((place start cs offset ps).map (·.range))
      (offset + TriviaPiece.totalWidth ps) := by
  induction ps generalizing start cs offset with
  | nil => rfl
  | cons p ps ih =>
    rw [TriviaPiece.totalWidth_cons, ← Nat.add_assoc, place]
    refine ⟨rfl, ?_⟩
    cases Text.dropBytes start (offset - start) cs <;> exact ih ..

theorem leading_place (start : Nat) (cs : List Char) (offset : Nat) (ps : List TriviaPiece) :
    (place start cs offset ps).map (fun p => ⟨p.kind, p.range.length⟩) = ps := by
  induction ps generalizing start cs offset with
  | nil => rfl
  | cons p ps ih =>
    have hlength : (Range.ofLength offset p.width).length = p.width := Nat.add_sub_cancel_left ..
    rw [place, List.map_cons, hlength]
    cases Text.dropBytes start (offset - start) cs <;> exact congrArg _ (ih ..)

/-- What is read of the pieces is what their ranges have in the whole text. -/
theorem place_text {before own after : List Char} {start offset : Nat} {ps : List TriviaPiece}
    (hbefore : Text.width before = start) (hstart : start ≤ offset)
    (hstop : offset + TriviaPiece.totalWidth ps ≤ start + Text.width own) :
    ∀ p ∈ place start own offset ps, ∀ cs,
      p.text = .ok cs ↔ Table.slice (before ++ (own ++ after)) p.range = .ok cs := by
  induction ps generalizing before own start offset with
  | nil => exact nofun
  | cons p ps ih =>
    rw [TriviaPiece.totalWidth_cons] at hstop
    rw [place]
    refine List.forall_mem_cons.mpr ⟨fun cs => Table.read_eq_ok_iff hbefore hstart (by omega), ?_⟩
    cases hrest : Text.dropBytes start (offset - start) own with
    | error fault => exact ih hbefore (by omega) (by omega)
    | ok rest =>
      -- the text is split at the offset, so it is read on from there
      obtain ⟨front, rfl, hfront⟩ := (Text.dropBytes_eq_ok_iff (by omega)).mp hrest
      rw [Text.width_append] at hstop
      have htext : before ++ ((front ++ rest) ++ after) = (before ++ front) ++ (rest ++ after) := by
        simp
      rw [htext]
      exact ih (by rw [Text.width_append]; omega) (by omega) (by omega)

/-- What is read behind the trivia is what the range of the token has in the whole text. -/
theorem trimmedText_eq_ok_iff {x : Tip} {before after cs : List Char}
    (hbefore : Text.width before = x.leaf.start)
    (hwidth : Text.width x.leaf.text = x.leaf.leadingWidth + x.leaf.width) :
    x.trimmedText = .ok cs ↔
      Table.slice (before ++ (x.leaf.text ++ after)) x.range = .ok cs := by
  have hlength : x.range.length = x.leaf.width := Nat.add_sub_cancel_left ..
  have hbegin : x.range.start = x.leaf.start + x.leaf.leadingWidth := rfl
  have hend : x.range.stop = x.leaf.start + x.leaf.leadingWidth + x.leaf.width := rfl
  rw [Table.slice_within_iff hbefore (by omega) (by omega), hlength, hbegin, trimmedText,
    Text.dropBytes_eq_ok_iff (by omega)]
  constructor
  · rintro ⟨front, hown, hfront⟩
    rw [hown, Text.width_append] at hwidth
    exact ⟨front, [], by simp [hown], by omega, by omega⟩
  · rintro ⟨passed, more, hown, hpassed, hcs⟩
    rw [hown, Text.width_append, Text.width_append] at hwidth
    obtain rfl : more = [] := Text.width_eq_zero_iff.mp (by omega)
    exact ⟨passed, by simp [hown], by omega⟩

/-- A token and all pieces of its trivia have a text. -/
def HasText (x : Tip) : Prop :=
  (∀ p ∈ x.trivia, ∃ cs, p.text = .ok cs) ∧ ∃ cs, x.trimmedText = .ok cs

end Tip

/-! ## Listings -/

/-- A visit has its lines unless it is to a token without a text. -/
theorem Visit.exists_lines_iff (v : Visit) (depth : Nat) :
    (∃ shown, v.lines depth = .ok shown) ↔ ∀ x, v.tip? = some x → x.HasText := by
  cases v with
  | enter n | leave n => simp [Visit.lines, Visit.tip?]
  | token x =>
    have hpieces : (∃ trivia, x.trivia.mapM PlacedTrivia.render = .ok trivia) ↔
        ∀ p ∈ x.trivia, ∃ cs, p.text = .ok cs := by
      rw [exists_mapM_ok_iff]
      exact forall₂_congr fun p _ => exists_bind_ok_iff fun _ _ => ⟨_, rfl⟩
    have htoken : (∃ s, x.render = .ok s) ↔ ∃ cs, x.trimmedText = .ok cs :=
      exists_bind_ok_iff fun _ _ => ⟨_, rfl⟩
    simp only [Visit.tip?, Option.some.injEq, forall_eq']
    rw [Tip.HasText, ← hpieces, ← htoken, Visit.lines]
    cases x.trivia.mapM PlacedTrivia.render <;> cases x.render <;>
      simp [bind, Except.bind, pure, Except.pure]

namespace Tree

theorem exists_linesFrom_iff (before : Array String) (depth : Nat) (vs : List Visit) :
    (∃ lines, linesFrom before depth vs = .ok lines) ↔
      ∀ x ∈ vs.filterMap Visit.tip?, x.HasText := by
  induction vs generalizing before depth with
  | nil => simp [linesFrom]
  | cons v vs ih =>
    have hmem : (∀ x ∈ (v :: vs).filterMap Visit.tip?, x.HasText) ↔
        (∀ x, v.tip? = some x → x.HasText) ∧ ∀ x ∈ vs.filterMap Visit.tip?, x.HasText := by
      rw [List.filterMap_cons]
      cases v.tip? <;> simp
    rw [hmem, ← v.exists_lines_iff depth, linesFrom]
    cases v.lines depth with
    | error fault => simp
    | ok shown => simp [ih]

/-- A tree prints if and only if all its tokens have a text. -/
theorem exists_dump_iff (t : Tree) :
    (∃ lines, t.dump = .ok lines) ↔ ∀ x ∈ t.tips, x.HasText := by
  have h := exists_linesFrom_iff #[] 0 t.root.visits
  rw [dump]
  refine Iff.trans ?_ h
  cases linesFrom #[] 0 t.root.visits <;> simp [Except.map]

end Tree

/-! ## Trees of sessions -/

namespace Table

/-- A token of a tree. It begins and ends at boundaries of the text, and in between lie the pieces
of its trivia, side by side, and the token itself. Of each the text is read that its range has, if
its ends are boundaries too. -/
structure Reads (t : Table) (x : Tip) : Prop where
  start : Text.IsBoundary x.fullRange.start t.text
  stop : Text.IsBoundary x.fullRange.stop t.text
  tile : Range.Tile x.fullRange.start (x.trivia.map (·.range) ++ [x.range]) x.fullRange.stop
  range : t.trimmedRange x.index = .ok x.range
  leading : t.leading x.index = .ok (x.trivia.map fun p => ⟨p.kind, p.range.length⟩)
  trimmed : ∀ cs, x.trimmedText = .ok cs ↔ slice t.text x.range = .ok cs
  trivia : ∀ p ∈ x.trivia, ∀ cs, p.text = .ok cs ↔ slice t.text p.range = .ok cs

variable {t : Table} {tree : Tree} {x : Tip} {parent : Option Nat} {a b : Tally}
  {es : List Element}

/-- The text of a leaf that is held stands where the leaf does. -/
theorem Lays.exists_text (h : t.Lays parent a es b) : ∀ l ∈ es.flatMap Element.leaves,
    ∃ before after, a.rest = before ++ (l.text ++ after) ∧
      a.covered + Text.width before = l.start ∧ Text.width l.text = l.leadingWidth + l.width := by
  induction h using Lays.induct with
  | nil => exact nofun
  | @leaf _ _ _ _ text rest _ _ _ _ _ _ wide _ ih =>
    rw [List.flatMap_cons, Element.leaves_leaf]
    refine List.forall_mem_cons.mpr ⟨⟨[], rest, rfl, rfl, wide⟩, fun l hl => ?_⟩
    obtain ⟨before, after, hrest, hstart, hwidth⟩ := ih l hl
    have hrest : rest = before ++ (l.text ++ after) := hrest
    refine ⟨text ++ before, after, ?_, ?_, hwidth⟩
    · rw [hrest, List.append_assoc]
    · rw [Text.width_append, wide, ← Nat.add_assoc]
      exact hstart
  | @branch _ _ a _ m _ _ stands _ ihi iht =>
    rw [List.flatMap_cons, Element.leaves_branch]
    refine List.forall_mem_append.mpr ⟨ihi, fun l hl => ?_⟩
    obtain ⟨front, hfront, hcovered⟩ := stands.inner.covers
    obtain ⟨before, after, hrest, hstart, hwidth⟩ := iht l hl
    have hfront : a.rest = front ++ m.rest := hfront
    have hcovered : m.covered = a.covered + Text.width front := hcovered
    refine ⟨front ++ before, after, ?_, ?_, hwidth⟩
    · rw [hfront, hrest, List.append_assoc]
    · rw [Text.width_append, ← Nat.add_assoc, ← hcovered, hstart]

theorem Holds.reads (h : t.Holds tree) (hx : x ∈ tree.tips) : t.Reads x := by
  obtain ⟨a, -, hplace⟩ := h.places_root
  obtain ⟨up, hstands⟩ := hplace.stands
  obtain ⟨_, hshows⟩ := hplace.shows_tips x hx
  have hleaf : x.leaf ∈ tree.root.children.flatMap Element.leaves := by
    rw [← tree.root.map_leaf_tips]
    exact List.mem_map_of_mem hx
  obtain ⟨before, after, htext, hstart, hwidth⟩ := hstands.inner.exists_text x.leaf hleaf
  have htext : t.text = before ++ (x.leaf.text ++ after) := htext
  have hstart : Text.width before = x.leaf.start := (Nat.zero_add _).symm.trans hstart
  have htile := Tip.tile_place x.leaf.start x.leaf.text x.leaf.start x.leaf.leading
  refine ⟨⟨before, _, htext, hstart⟩, ⟨before ++ x.leaf.text, after, by simp [htext], ?_⟩,
    htile.append ⟨rfl, Nat.add_assoc ..⟩, hshows.trimmedRange_eq, ?_, fun cs => ?_,
    fun p hp cs => ?_⟩
  · rw [Text.width_append, hstart, hwidth]
    rfl
  · rw [Tip.trivia, Tip.leading_place]
    exact hshows.leading_eq
  · rw [htext]
    exact Tip.trimmedText_eq_ok_iff hstart hwidth
  · rw [htext]
    have hle : TriviaPiece.totalWidth x.leaf.leading ≤ Text.width x.leaf.text :=
      hwidth ▸ Nat.le_add_right ..
    exact Tip.place_text hstart (Nat.le_refl _) (by omega) p hp cs

/-- A token whose pieces of trivia all end at boundaries has a text, and so have the pieces. -/
theorem Reads.hasText_iff (h : t.Reads x) :
    x.HasText ↔ ∀ p ∈ x.trivia, Text.IsBoundary p.range.stop t.text := by
  have htext : x.HasText ↔ (∀ p ∈ x.trivia, Text.IsBoundary p.range.start t.text ∧
      Text.IsBoundary p.range.stop t.text) ∧ Text.IsBoundary x.range.start t.text ∧
      Text.IsBoundary x.range.stop t.text := by
    rw [Tip.HasText, ← exists_slice_iff]
    refine and_congr (forall₂_congr fun p hp => ?_) (exists_congr h.trimmed)
    rw [← exists_slice_iff]
    exact exists_congr (h.trivia p hp)
  rw [htext]
  constructor
  · rintro ⟨hpieces, -⟩ p hp
    exact (hpieces p hp).2
  · intro hstops
    have hstop : x.range.stop = x.fullRange.stop := h.tile.stop_eq
    have hall : ∀ r ∈ x.trivia.map (·.range) ++ [x.range], Text.IsBoundary r.stop t.text := by
      rw [List.forall_mem_append, List.forall_mem_map, List.forall_mem_singleton, hstop]
      exact ⟨hstops, h.stop⟩
    obtain ⟨-, hstarts⟩ := h.tile.of_stops (P := (Text.IsBoundary · t.text)) h.start hall
    rw [List.forall_mem_append, List.forall_mem_map, List.forall_mem_singleton] at hstarts
    exact ⟨fun p hp => ⟨hstarts.1 p hp, hstops p hp⟩, hstarts.2, hstop ▸ h.stop⟩

theorem Holds.exists_dump_iff (h : t.Holds tree) : (∃ lines, tree.dump = .ok lines) ↔
    ∀ x ∈ tree.tips, ∀ p ∈ x.trivia, Text.IsBoundary p.range.stop t.text := by
  rw [Tree.exists_dump_iff]
  exact forall₂_congr fun x hx => (h.reads hx).hasText_iff

/-- The leaves of a tree lie side by side in the text, and take all of it. -/
theorem Holds.tile_tips (h : t.Holds tree) :
    Range.Tile 0 (tree.tips.map Tip.fullRange) (Text.width t.text) := by
  obtain ⟨a, ⟨hrest, -⟩, hroot⟩ := h.places_root
  obtain ⟨up, hstands⟩ := hroot.stands
  obtain ⟨front, hfront, hcovered⟩ := hstands.inner.covers
  have htext : t.text = front := by rwa [hrest, List.append_nil] at hfront
  have hstop : tree.root.range.stop = Text.width t.text := by
    rw [hroot.stop_eq, hcovered, htext]
    exact Nat.zero_add _
  have htile := hroot.tile
  rwa [hroot.start_eq, hstop] at htile

end Table

/-! ## Parsed trees -/

/-- Of the pieces of trivia each ends where so many of them have been passed by. -/
theorem Tip.exists_stop_place (start : Nat) (cs : List Char) (offset : Nat)
    (ps : List TriviaPiece) : ∀ p ∈ place start cs offset ps,
      ∃ k, p.range.stop = offset + TriviaPiece.totalWidth (ps.take k) := by
  induction ps generalizing start cs offset with
  | nil => exact nofun
  | cons p ps ih =>
    rw [place]
    refine List.forall_mem_cons.mpr ⟨⟨1, rfl⟩, ?_⟩
    have hlater (start : Nat) (cs : List Char) : ∀ q ∈ place start cs (offset + p.width) ps,
        ∃ k, q.range.stop = offset + TriviaPiece.totalWidth ((p :: ps).take k) := by
      intro q hq
      obtain ⟨k, hk⟩ := ih start cs (offset + p.width) q hq
      exact ⟨k + 1, by rw [hk, List.take_succ_cons, TriviaPiece.totalWidth_cons, Nat.add_assoc]⟩
    cases Text.dropBytes start (offset - start) cs with
    | ok rest => exact hlater offset rest
    | error fault => exact hlater start cs

/-- The tree of a text prints: where the parser ends a piece of trivia, a character begins. -/
theorem parse_prints (dialect : Dialect) (text : List Char) :
    ∃ p lines, parse dialect text = .ok p ∧ p.tree.dump = .ok lines := by
  obtain ⟨_, p, g, last, -, -, hp, h⟩ := exists_parse dialect text
  obtain ⟨steps, hsteps⟩ := Table.exists_steps hp
  obtain ⟨hover, -⟩ := Builder.build_eq_ok_iff.mp hsteps
  obtain ⟨t, -, hholds⟩ := Table.exists_table hsteps
  have htext : t.text = text := hholds.text.trans hover
  suffices ∀ x ∈ p.tree.tips, ∀ q ∈ x.trivia, Text.IsBoundary q.range.stop text by
    obtain ⟨lines, hlines⟩ := hholds.exists_dump_iff.mpr (htext ▸ this)
    exact ⟨p, lines, hp, hlines⟩
  intro x hx q hq
  obtain ⟨k, hk⟩ := Tip.exists_stop_place x.leaf.start x.leaf.text x.leaf.start x.leaf.leading q hq
  have hleaf : x.leaf ∈ p.tree.children.flatMap Element.leaves := by
    rw [← p.tree.map_leaf_tips]
    exact List.mem_map_of_mem hx
  rw [hk]
  rcases h.shows.leaf_cases x.leaf hleaf with ⟨u, hu, haspect⟩ | ⟨-, -, hempty⟩
  · rw [h.tokens_shown] at hu
    obtain ⟨place, hwithin, rfl⟩ := exists_place_of_mem_tokenize hu
    have hleading : x.leaf.leading = _ := congrArg (·.2.2.2) haspect
    have hstart : x.leaf.start = _ := congrArg (·.2.2.1.start) haspect
    rw [hleading, hstart]
    exact (hwithin.lies dialect).piece_boundary k
  · rw [Tip.trivia, hempty] at hq
    cases hq

end PhpSyntax
