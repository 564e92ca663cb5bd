import PhpSyntax.Proofs.Kinship
import PhpSyntax.Tree.Offset

/-!
The leaves at an offset. Leaves lie in a node side by side, so one of them is over every offset in
the node, and those before it end up to the offset.
-/
namespace PhpSyntax

namespace Range

variable {start stop : Nat} {rs : List Range}

theorem Tile.bounds (h : Tile start rs stop) : ∀ r ∈ rs, start ≤ r.start ∧ r.stop ≤ stop := by
  induction rs generalizing start with
  | nil => simp
  | cons r rs ih =>
    obtain ⟨rfl, htail⟩ := h
    have hlength := htail.sum_length
    refine List.forall_mem_cons.mpr ⟨⟨Nat.le_refl _, by omega⟩, fun q hq => ?_⟩
    exact (ih htail q hq).imp_left (Nat.le_trans r.start_le_stop)

/-- Ranges that end up to an offset cover nothing behind it. -/
theorem Tile.stop_le (h : Tile start rs stop) {offset : Nat} (hstart : start ≤ offset)
    (hrs : ∀ r ∈ rs, r.stop ≤ offset) : stop ≤ offset := by
  induction rs generalizing start with
  | nil =>
    obtain rfl : start = stop := h
    exact hstart
  | cons r rs ih =>
    obtain ⟨hr, hrs⟩ := List.forall_mem_cons.mp hrs
    exact ih h.2 hr hrs

theorem Tile.of_append {rs' : List Range} (h : Tile start (rs ++ rs') stop) :
    ∃ middle, Tile start rs middle ∧ Tile middle rs' stop := by
  induction rs generalizing start with
  | nil => exact ⟨start, rfl, h⟩
  | cons r rs ih =>
    obtain ⟨middle, htile, htile'⟩ := ih h.2
    exact ⟨middle, ⟨h.1, htile⟩, htile'⟩

theorem eq_point {r : Range} {offset : Nat} (hstart : offset ≤ r.start) (hstop : r.stop ≤ offset) :
    r = .point offset := by
  obtain ⟨start, stop, hle⟩ := r
  dsimp only at hstart hstop
  obtain rfl : start = offset := by omega
  obtain rfl : stop = start := by omega
  rfl

theorem Tile.stop_eq {r : Range} (h : Tile start (rs ++ [r]) stop) : r.stop = stop := by
  induction rs generalizing start with
  | nil => exact h.2
  | cons q rs ih => exact ih h.2

/-- An offset parts what lies side by side: some of it ends up to there, and all the rest behind. -/
theorem Tile.parted {α : Type} {f : α → Range} {xs : List α} (h : Tile start (xs.map f) stop)
    (offset : Nat) : ∃ before after middle, xs = before ++ after ∧
      Tile start (before.map f) middle ∧ Tile middle (after.map f) stop ∧
      (∀ x ∈ before, (f x).stop ≤ offset) ∧ ∀ x ∈ after, offset < (f x).stop := by
  induction xs generalizing start with
  | nil => exact ⟨[], [], start, rfl, rfl, h, by simp, by simp⟩
  | cons x xs ih =>
    by_cases hx : (f x).stop ≤ offset
    · obtain ⟨before, after, middle, rfl, htile, htile', hbefore, hafter⟩ := ih h.2
      exact ⟨x :: before, after, middle, rfl, ⟨h.1, htile⟩, htile',
        List.forall_mem_cons.mpr ⟨hx, hbefore⟩, hafter⟩
    · have hx : offset < (f x).stop := Nat.lt_of_not_le hx
      refine ⟨[], x :: xs, start, rfl, rfl, h, by simp, List.forall_mem_cons.mpr ⟨hx, ?_⟩⟩
      intro y hy
      have hstart := (h.2.bounds _ (List.mem_map_of_mem hy)).1
      exact Nat.lt_of_lt_of_le hx (Nat.le_trans hstart (f y).start_le_stop)

end Range

/-- Leaves around an offset: `r` is over it, the leaves before end up to it and up to `r`, and those
after begin behind `r`. -/
structure Around (offset : Nat) (ts before : List Tip) (r : Tip) (after : List Tip) : Prop where
  eq : ts = before ++ r :: after
  stop_le : ∀ t ∈ before, t.fullRange.stop ≤ offset
  start_le : r.fullRange.start ≤ offset
  lt_stop : offset < r.fullRange.stop
  behind : ∀ t ∈ after, r.fullRange.stop ≤ t.fullRange.start
  joined : ∀ l, before.getLast? = some l → l.fullRange.stop = r.fullRange.start

variable {offset start stop : Nat} {ts before after : List Tip} {r : Tip}

theorem Around.of_tile {middle : Nat} (h : Range.Tile start (before.map Tip.fullRange) middle)
    (h' : Range.Tile middle ((r :: after).map Tip.fullRange) stop)
    (hbefore : ∀ t ∈ before, t.fullRange.stop ≤ offset) (hmiddle : middle ≤ offset)
    (hlt : offset < r.fullRange.stop) : Around offset (before ++ r :: after) before r after := by
  obtain ⟨hr, htail⟩ := h'
  refine ⟨rfl, hbefore, Nat.le_trans (Nat.le_of_eq hr) hmiddle, hlt,
    fun t ht => (htail.bounds _ (List.mem_map_of_mem ht)).1, fun l hl => ?_⟩
  obtain ⟨elder, rfl⟩ := List.getLast?_eq_some_iff.mp hl
  rw [List.map_append, List.map_singleton] at h
  exact h.stop_eq.trans hr.symm

/-- Of leaves side by side one is over every offset that they cover. -/
theorem exists_around (h : Range.Tile start (ts.map Tip.fullRange) stop) (hstart : start ≤ offset)
    (hstop : offset < stop) : ∃ before r after, Around offset ts before r after := by
  obtain ⟨before, after, middle, rfl, htile, htile', hbefore, hafter⟩ := h.parted offset
  have hmiddle : middle ≤ offset := htile.stop_le hstart (by simpa using hbefore)
  cases after with
  | nil =>
    obtain rfl : middle = stop := htile'
    exact absurd hmiddle (Nat.not_le_of_lt hstop)
  | cons r after =>
    exact ⟨before, r, after, .of_tile htile htile' hbefore hmiddle (hafter r List.mem_cons_self)⟩

/-- Between a leaf that ends right behind an offset and the next one that goes on there stand only
leaves that take nothing. -/
theorem exists_next {l : Tip} (h : Range.Tile start (ts.map Tip.fullRange) stop)
    (hl : Around offset ts before l after) (heq : l.fullRange.stop = offset + 1)
    (hlt : offset + 1 < stop) : ∃ empty r rest, after = empty ++ r :: rest ∧
      Around (offset + 1) ts (before ++ l :: empty) r rest ∧
      ∀ t ∈ empty, t.fullRange = .point (offset + 1) := by
  obtain rfl := hl.eq
  rw [List.map_append, List.map_cons] at h
  obtain ⟨middle, htile, hstart, htail⟩ := h.of_append
  obtain ⟨empty, rest, middle', rfl, htile', hrest, hempty, hstop⟩ := htail.parted (offset + 1)
  have hmiddle : middle' ≤ offset + 1 :=
    htile'.stop_le (Nat.le_of_eq heq) (by simpa using hempty)
  cases rest with
  | nil =>
    obtain rfl : middle' = stop := hrest
    exact absurd hmiddle (Nat.not_le_of_lt hlt)
  | cons r rest =>
    have hfront : Range.Tile start ((before ++ l :: empty).map Tip.fullRange) middle' := by
      rw [List.map_append, List.map_cons]
      exact htile.append ⟨hstart, htile'⟩
    have hbefore : ∀ t ∈ before ++ l :: empty, t.fullRange.stop ≤ offset + 1 :=
      List.forall_mem_append.mpr ⟨fun t ht => Nat.le_succ_of_le (hl.stop_le t ht),
        List.forall_mem_cons.mpr ⟨Nat.le_of_eq heq, hempty⟩⟩
    have hr := Around.of_tile hfront hrest hbefore hmiddle (hstop r List.mem_cons_self)
    refine ⟨empty, r, rest, rfl, by simpa using hr, fun t ht => Range.eq_point ?_ (hempty t ht)⟩
    rw [← heq]
    exact (htile'.bounds _ (List.mem_map_of_mem ht)).1

namespace Around

variable (h : Around offset ts before r after)

include h

theorem mem : r ∈ ts := by
  rw [h.eq]
  exact List.mem_append_right _ List.mem_cons_self

theorem mem_after {t : Tip} (ht : t ∈ ts) (hstart : offset < t.fullRange.start) : t ∈ after := by
  rw [h.eq, List.mem_append, List.mem_cons] at ht
  rcases ht with ht | rfl | ht
  · have hle := Nat.le_trans t.fullRange.start_le_stop (h.stop_le t ht)
    exact absurd hle (Nat.not_le_of_lt hstart)
  · exact absurd h.start_le (Nat.not_le_of_lt hstart)
  · exact ht

/-- To search all leaves for those over an offset finds one. -/
theorem filter_eq :
    ts.filter (fun t => t.fullRange.start ≤ offset ∧ offset < t.fullRange.stop) = [r] := by
  have hbefore : before.filter
      (fun t => t.fullRange.start ≤ offset ∧ offset < t.fullRange.stop) = [] := by
    refine List.filter_eq_nil_iff.mpr fun t ht => ?_
    have hstop := h.stop_le t ht
    simp only [decide_eq_true_eq]
    omega
  have hafter : after.filter
      (fun t => t.fullRange.start ≤ offset ∧ offset < t.fullRange.stop) = [] := by
    refine List.filter_eq_nil_iff.mpr fun t ht => ?_
    have hstart := h.behind t ht
    have hlt := h.lt_stop
    simp only [decide_eq_true_eq]
    omega
  rw [h.eq, List.filter_append, hbefore, List.nil_append,
    List.filter_cons_of_pos (by simp [h.start_le, h.lt_stop]), hafter]

end Around

namespace Node

theorem locate_cons (before : Option Tip) (t : Tip) (ts : List Tip) :
    locate offset before (t :: ts) = if t.fullRange.stop ≤ offset then locate offset (some t) ts
      else match before with
        | some l => if l.fullRange.stop = offset && !l.isMissing then .between l t else .single t
        | none => .single t := rfl

/-- Leaves that end up to the offset are passed by. -/
theorem locate_append {xs ys : List Tip} (before : Option Tip)
    (h : ∀ t ∈ xs, t.fullRange.stop ≤ offset) :
    locate offset before (xs ++ ys) = locate offset (xs.getLast?.or before) ys := by
  induction xs generalizing before with
  | nil => rfl
  | cons t xs ih =>
    obtain ⟨ht, hxs⟩ := List.forall_mem_cons.mp h
    rw [List.cons_append, locate_cons, if_pos ht, ih _ hxs, List.getLast?_cons]
    cases xs.getLast? <;> rfl

theorem locate_around (h : Around offset ts before r after) : locate offset none ts =
    match before.getLast? with
    | some l => if l.fullRange.stop = offset && !l.isMissing then .between l r else .single r
    | none => .single r := by
  rw [h.eq, locate_append none h.stop_le, locate_cons, if_neg (Nat.not_le_of_lt h.lt_stop),
    Option.or_none]

variable {n : Node}

theorem tokensAt_outside (h : offset < n.range.start ∨ n.range.stop < offset) :
    n.tokensAt offset = .none := by
  refine if_neg ?_
  simp only [Range.touches, Bool.and_eq_true, decide_eq_true_eq]
  omega

theorem tokensAt_inside (hstart : n.range.start ≤ offset) (hstop : offset ≤ n.range.stop) :
    n.tokensAt offset = locate offset none n.tips := by
  refine if_pos ?_
  simp [Range.touches, hstart, hstop]

/-- There is nothing at the end of a node. -/
theorem tokensAt_stop (h : Range.Tile n.range.start (n.tips.map Tip.fullRange) n.range.stop) :
    n.tokensAt n.range.stop = .none := by
  have hstop : ∀ t ∈ n.tips, t.fullRange.stop ≤ n.range.stop := fun t ht =>
    (h.bounds _ (List.mem_map_of_mem ht)).2
  rw [tokensAt_inside n.range.start_le_stop (Nat.le_refl _), ← List.append_nil n.tips,
    locate_append none hstop]
  rfl

/-- Where something is found, the offset is in the node and not its end. -/
theorem inside_of_tokensAt (h : Range.Tile n.range.start (n.tips.map Tip.fullRange) n.range.stop)
    (hne : n.tokensAt offset ≠ .none) : n.range.start ≤ offset ∧ offset < n.range.stop := by
  constructor
  · exact Nat.le_of_not_lt fun hlt => hne (tokensAt_outside (.inl hlt))
  · refine Nat.lt_of_not_le fun hle => hne ?_
    rcases Nat.eq_or_lt_of_le hle with rfl | hlt
    · exact tokensAt_stop h
    · exact tokensAt_outside (.inr hlt)

/-- The right one of the leaves that are found is the one over the offset. -/
theorem right_locate_around (h : Around offset ts before r after) :
    (locate offset none ts).right? = some r := by
  rw [locate_around h]
  split
  · split <;> rfl
  · rfl

/-- Two leaves are found where they meet, the left one right before the other. -/
theorem locate_around_eq_between {l r' : Tip} (h : Around offset ts before r after)
    (hb : locate offset none ts = .between l r') : r' = r ∧ before.getLast? = some l ∧
      l.fullRange.stop = offset ∧ r.fullRange.start = offset := by
  rw [locate_around h] at hb
  split at hb
  · next l' hl =>
    split at hb
    · next hjoin =>
      obtain ⟨rfl, rfl⟩ := AtOffset.between.inj hb
      have hstop : l'.fullRange.stop = offset := by
        simp only [Bool.and_eq_true, decide_eq_true_eq] at hjoin
        exact hjoin.1
      exact ⟨rfl, hl, hstop, (h.joined l' hl).symm.trans hstop⟩
    · cases hb
  · cases hb

/-- A leaf that goes on behind an offset is the only one there. -/
theorem tokensAt_succ_of_lt {l : Tip} (h : Around offset n.tips before l after)
    (hstart : n.range.start ≤ offset) (hstop : l.fullRange.stop ≤ n.range.stop)
    (hlt : offset + 1 < l.fullRange.stop) : n.tokensAt (offset + 1) = .single l := by
  have hnext : Around (offset + 1) n.tips before l after :=
    ⟨h.eq, fun t ht => Nat.le_succ_of_le (h.stop_le t ht), Nat.le_succ_of_le h.start_le, hlt,
      h.behind, h.joined⟩
  rw [tokensAt_inside (by omega) (by omega), locate_around hnext]
  split
  · next p hp =>
    have hp := h.stop_le p (List.mem_of_getLast? hp)
    have hne : p.fullRange.stop ≠ offset + 1 := by omega
    simp [hne]
  · rfl

/-- Two leaves meet where the left one ends, if nothing stands between them. -/
theorem tokensAt_succ_of_eq {l : Tip} (hr : Around (offset + 1) n.tips (before ++ [l]) r after)
    (hstart : n.range.start ≤ offset + 1) (hstop : offset + 1 ≤ n.range.stop)
    (heq : l.fullRange.stop = offset + 1) (hmissing : l.isMissing = false) :
    n.tokensAt (offset + 1) = .between l r := by
  rw [tokensAt_inside hstart hstop, locate_around hr, List.getLast?_concat]
  simp [heq, hmissing]

/-- Whatever stands right before the leaf that is over an offset, a leaf that begins before the
offset is found at its left only if it is that. -/
theorem left_locate_around_ne {l z : Tip} (hr : Around (offset + 1) ts before r after)
    (hz : before.getLast? = some z) (hpoint : z.fullRange = .point (offset + 1))
    (hl : l.fullRange.start ≤ offset) : (locate (offset + 1) none ts).left? ≠ some l := by
  have hstart : z.fullRange.start = offset + 1 := congrArg Range.start hpoint
  have hstop : z.fullRange.stop = offset + 1 := congrArg Range.stop hpoint
  have hjoined : r.fullRange.start = offset + 1 := (hr.joined z hz).symm.trans hstop
  have hzl : z ≠ l := by
    rintro rfl
    omega
  have hrl : r ≠ l := by
    rintro rfl
    omega
  rw [locate_around hr, hz]
  dsimp only
  split
  · simpa [AtOffset.left?] using hzl
  · simpa [AtOffset.left?] using hrl

/-- The left one of the leaves at an offset is the one that covers the byte before it, unless the
node ends there or a leaf that takes nothing stands between it and the next one. -/
theorem left_tokensAt_succ_iff {l : Tip}
    (h : Range.Tile n.range.start (n.tips.map Tip.fullRange) n.range.stop)
    (hl : Around offset n.tips before l after) (hmissing : l.isMissing = false) :
    (n.tokensAt (offset + 1)).left? = some l ↔
      offset + 1 < n.range.stop ∧ ∀ t ∈ n.tips, t.fullRange ≠ .point (offset + 1) := by
  obtain ⟨hstart, hstop⟩ := h.bounds _ (List.mem_map_of_mem hl.mem)
  have hstart : n.range.start ≤ offset := Nat.le_trans hstart hl.start_le
  have hle : offset + 1 ≤ n.range.stop := Nat.le_trans hl.lt_stop hstop
  -- the leaf goes on, or the next one begins, or there is none
  by_cases hlt : offset + 1 < l.fullRange.stop
  · rw [tokensAt_succ_of_lt hl hstart hstop hlt]
    refine iff_of_true rfl ⟨Nat.lt_of_lt_of_le hlt hstop, fun t ht hpoint => ?_⟩
    have hbehind := hl.behind t (hl.mem_after ht (hpoint ▸ Nat.lt_succ_self offset))
    rw [hpoint] at hbehind
    exact Nat.not_le_of_lt hlt hbehind
  have heq : l.fullRange.stop = offset + 1 :=
    Nat.le_antisymm (Nat.le_of_not_lt hlt) hl.lt_stop
  by_cases hend : offset + 1 = n.range.stop
  · rw [hend, tokensAt_stop h]
    exact iff_of_false nofun fun hp => Nat.lt_irrefl _ hp.1
  have hlt : offset + 1 < n.range.stop := Nat.lt_of_le_of_ne hle hend
  obtain ⟨empty, r, rest, hafter, hr, hempty⟩ := exists_next h hl heq hlt
  cases hlast : empty.getLast? with
  | none =>
    obtain rfl := List.getLast?_eq_none_iff.mp hlast
    rw [tokensAt_succ_of_eq hr (by omega) hle heq hmissing]
    refine iff_of_true rfl ⟨hlt, fun t ht hpoint => ?_⟩
    -- such a leaf would be the next one or stand behind it
    have ht := hl.mem_after ht (hpoint ▸ Nat.lt_succ_self offset)
    have hgo := hr.lt_stop
    rw [hafter, List.nil_append] at ht
    rcases List.mem_cons.mp ht with rfl | ht
    · rw [hpoint] at hgo
      exact Nat.lt_irrefl _ hgo
    · have hbehind := hr.behind t ht
      rw [hpoint] at hbehind
      exact Nat.not_le_of_lt hgo hbehind
  | some z =>
    have hz := List.mem_of_getLast? hlast
    have hlast' : (before ++ l :: empty).getLast? = some z := by
      simp [List.getLast?_cons, hlast]
    rw [tokensAt_inside (by omega) hle]
    refine iff_of_false (left_locate_around_ne hr hlast' (hempty z hz) hl.start_le) fun hp => ?_
    exact hp.2 z (by simp [hr.eq, hz]) (hempty z hz)

end Node
end PhpSyntax
