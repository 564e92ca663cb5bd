import PhpSyntax.Text.Width

/-!
Boundaries: the offsets at which a character of a text begins, and the end of the text. A text can
be split at a boundary and nowhere else.
-/
namespace PhpSyntax.Text

theorem width_eq_zero_iff {cs : List Char} : width cs = 0 ↔ cs = [] := by
  cases cs with
  | nil => simp
  | cons c cs =>
    have hpos := c.utf8Size_pos
    simp only [width_cons, reduceCtorEq, iff_false]
    omega

/-- Of two beginnings of a text the one that is not wider begins the other. -/
theorem exists_append_of_width {as bs cs ds : List Char} (h : as ++ bs = cs ++ ds)
    (hw : width as ≤ width cs) : ∃ ms, cs = as ++ ms ∧ bs = ms ++ ds := by
  rcases List.append_eq_append_iff.mp h with ⟨ms, hcs, hbs⟩ | ⟨ms, rfl, rfl⟩
  · exact ⟨ms, hcs, hbs⟩
  · rw [width_append] at hw
    obtain rfl : ms = [] := width_eq_zero_iff.mp (by omega)
    exact ⟨[], by simp, rfl⟩

/-- A character begins `n` bytes behind the beginning of a text, or the text ends there. -/
def IsBoundary (n : Nat) (cs : List Char) : Prop :=
  ∃ front rest, cs = front ++ rest ∧ width front = n

theorem splitBytesFrom_append (before front rest : List Char) :
    splitBytesFrom? before (width front) (front ++ rest) =
      some (before.reverse ++ front, rest) := by
  induction front generalizing before with
  | nil => cases rest <;> simp [splitBytesFrom?]
  | cons c front ih =>
    have hpos := c.utf8Size_pos
    obtain ⟨n, hn⟩ : ∃ n, width (c :: front) = n + 1 := ⟨c.utf8Size + width front - 1, by
      rw [width_cons]
      omega⟩
    have hle : c.utf8Size ≤ n + 1 := by
      rw [← hn, width_cons]
      omega
    have hsub : n + 1 - c.utf8Size = width front := by
      rw [← hn, width_cons, Nat.add_sub_cancel_left]
    rw [hn, List.cons_append, splitBytesFrom?, if_pos hle, hsub, ih]
    simp

theorem splitBytes_append (front rest : List Char) :
    splitBytes? (width front) (front ++ rest) = some (front, rest) :=
  splitBytesFrom_append [] front rest

theorem splitBytesFrom_eq_some {before : List Char} {n : Nat} {cs front rest : List Char}
    (h : splitBytesFrom? before n cs = some (front, rest)) :
    ∃ taken, front = before.reverse ++ taken ∧ cs = taken ++ rest ∧ width taken = n := by
  induction cs generalizing before n with
  | nil =>
    cases n with
    | zero =>
      obtain ⟨rfl, rfl⟩ := Prod.mk.inj (Option.some.inj h)
      exact ⟨[], (List.append_nil _).symm, rfl, rfl⟩
    | succ n => cases h
  | cons c cs ih =>
    cases n with
    | zero =>
      obtain ⟨rfl, rfl⟩ := Prod.mk.inj (Option.some.inj h)
      exact ⟨[], (List.append_nil _).symm, rfl, rfl⟩
    | succ n =>
      rw [splitBytesFrom?] at h
      split at h
      · next hle =>
        obtain ⟨taken, hf, rfl, hw⟩ := ih h
        refine ⟨c :: taken, by simp [hf], rfl, ?_⟩
        rw [width_cons, hw]
        omega
      · cases h

/-- A split gives back the text, and its first part is as wide as was asked for. -/
theorem splitBytes_eq_some_iff {n : Nat} {cs front rest : List Char} :
    splitBytes? n cs = some (front, rest) ↔ cs = front ++ rest ∧ width front = n := by
  refine ⟨fun h => ?_, ?_⟩
  · obtain ⟨taken, hf, hcs, hw⟩ := splitBytesFrom_eq_some h
    obtain rfl : front = taken := hf
    exact ⟨hcs, hw⟩
  · rintro ⟨rfl, rfl⟩
    exact splitBytes_append front rest

theorem isSome_splitBytes_iff {n : Nat} {cs : List Char} :
    (splitBytes? n cs).isSome = true ↔ IsBoundary n cs := by
  refine ⟨fun h => ?_, fun ⟨front, rest, hcs, hw⟩ => ?_⟩
  · obtain ⟨⟨front, rest⟩, hs⟩ := Option.isSome_iff_exists.mp h
    exact ⟨front, rest, splitBytes_eq_some_iff.mp hs⟩
  · rw [splitBytes_eq_some_iff.mpr ⟨hcs, hw⟩]
    rfl

instance (n : Nat) (cs : List Char) : Decidable (IsBoundary n cs) :=
  decidable_of_iff _ isSome_splitBytes_iff

theorem isBoundary_zero (cs : List Char) : IsBoundary 0 cs := ⟨[], cs, rfl, rfl⟩

/-- A boundary of a part of a text is one of the text. -/
theorem IsBoundary.append_left {n : Nat} {cs : List Char} (h : IsBoundary n cs)
    (before : List Char) : IsBoundary (width before + n) (before ++ cs) := by
  obtain ⟨front, rest, rfl, rfl⟩ := h
  exact ⟨before ++ front, rest, by simp, width_append ..⟩

theorem IsBoundary.of_append_left {n : Nat} {before cs : List Char}
    (h : IsBoundary (width before + n) (before ++ cs)) : IsBoundary n cs := by
  obtain ⟨front, rest, happend, hw⟩ := h
  obtain ⟨middle, rfl, hcs⟩ := exists_append_of_width happend (by omega)
  rw [width_append] at hw
  exact ⟨middle, rest, hcs, by omega⟩

theorem IsBoundary.append_right {n : Nat} {cs : List Char} (h : IsBoundary n cs)
    (after : List Char) : IsBoundary n (cs ++ after) := by
  obtain ⟨front, rest, rfl, rfl⟩ := h
  exact ⟨front, rest ++ after, by simp, rfl⟩

end PhpSyntax.Text
