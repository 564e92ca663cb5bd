import PhpSyntax.KindSet.Words

/-!
A set of kinds in words is the set of its members: it has the kinds that were put into it and no
others, and two sets are the same words if and only if they have the same members. It is read off
the bits, of which every kind has one of its own.
-/
namespace PhpSyntax

/-- No kind has its bit behind the last word. -/
theorem Kind.index_lt_bits (k : Kind) : k.index < 4 * 64 := Nat.lt_trans k.index_lt (by decide)

theorem Kind.index_mod_lt (k : Kind) : k.index % 64 < 64 := Nat.mod_lt _ (by decide)

/-- The mask of a kind is the power of two at its place. -/
theorem Kind.getLsbD_mask (k : Kind) (n : Nat) : k.mask.getLsbD n = decide (k.index % 64 = n) := by
  rw [mask, ← BitVec.twoPow_eq, BitVec.getLsbD_twoPow, decide_eq_true k.index_mod_lt, Bool.true_and]

namespace KindWords

variable {a b : KindWords}

/-- The bits of all words, those of the first word first. -/
def bit (s : KindWords) (n : Fin (4 * 64)) : Bool := s.words[n.val / 64].getLsbD (n.val % 64)

/-- The bit of a kind. -/
def place (k : Kind) : Fin (4 * 64) := ⟨k.index, k.index_lt_bits⟩

theorem place_injective {j k : Kind} (h : place j = place k) : j = k :=
  Kind.index_injective (Fin.mk.inj h)

/-- Sets with the same bits have the same words. -/
theorem eq_of_bit_eq (h : ∀ n, a.bit n = b.bit n) : a = b := by
  obtain ⟨as⟩ := a
  obtain ⟨bs⟩ := b
  congr 1
  refine Vector.ext fun i hi => BitVec.eq_of_getLsbD_eq fun j hj => ?_
  have hdiv : (64 * i + j) / 64 = i := by omega
  have hmod : (64 * i + j) % 64 = j := by omega
  have hbit := h ⟨64 * i + j, by omega⟩
  simpa only [bit, hdiv, hmod] using hbit

/-- To ask for a kind is to read its bit: the mask leaves the bit where it stands and clears the
others. -/
theorem contains_eq_bit (s : KindWords) (k : Kind) : s.contains k = s.bit (place k) := by
  have hmask : k.mask ≠ 0#64 := fun h => by
    have hbit := k.getLsbD_mask (k.index % 64)
    rw [h, BitVec.getLsbD_zero, decide_eq_true rfl] at hbit
    exact Bool.noConfusion hbit
  have hslot := k.slot_lt
  have hand : s.words[k.slot] &&& k.mask =
      if s.words[k.slot].getLsbD (k.index % 64) then k.mask else 0#64 := by
    rw [Kind.mask, ← BitVec.twoPow_eq, BitVec.and_twoPow]
  change (s.words[k.slot] &&& k.mask != 0#64) = s.words[k.slot].getLsbD (k.index % 64)
  rw [hand]
  cases s.words[k.slot].getLsbD (k.index % 64) with
  | false => rfl
  | true => exact bne_iff_ne.mpr hmask

@[simp] theorem bit_empty (n : Fin (4 * 64)) : empty.bit n = false := by
  simp [bit, empty]

@[simp] theorem bit_single (k : Kind) (n : Fin (4 * 64)) :
    (single k).bit n = decide (place k = n) := by
  have hn : place k = n ↔ k.index / 64 = n.val / 64 ∧ k.index % 64 = n.val % 64 := by
    rw [Fin.ext_iff]
    change k.index = n.val ↔ _
    omega
  by_cases hslot : k.slot = n.val / 64
  · have hword : (single k).words[n.val / 64] = k.mask := by simp [single, hslot]
    rw [bit, hword, Kind.getLsbD_mask]
    exact decide_eq_decide.mpr (by rw [hn]; exact (and_iff_right hslot).symm)
  · have hword : (single k).words[n.val / 64] = 0#64 := by
      simp [single, empty, hslot]
    rw [bit, hword, BitVec.getLsbD_zero]
    exact (decide_eq_false fun h => hslot (hn.mp h).1).symm

@[simp] theorem bit_union (a b : KindWords) (n : Fin (4 * 64)) :
    (a.union b).bit n = (a.bit n || b.bit n) := by
  simp [bit, union]

/-- A bit is set if and only if it is the bit of a kind that was put into the set. -/
theorem bit_ofList (kinds : List Kind) (n : Fin (4 * 64)) :
    (ofList kinds).bit n = kinds.any (fun k => decide (place k = n)) := by
  -- The kinds already added stay; it is this that the induction carries.
  have hfrom (s : KindWords) : (kinds.foldl (fun s k => s.union (single k)) s).bit n =
      (s.bit n || kinds.any fun k => decide (place k = n)) := by
    induction kinds generalizing s with
    | nil => rw [List.foldl_nil, List.any_nil, Bool.or_false]
    | cons k kinds ih =>
      rw [List.foldl_cons, ih, bit_union, bit_single, List.any_cons, Bool.or_assoc]
  rw [ofList, hfrom, bit_empty, Bool.false_or]

theorem contains_union (a b : KindWords) (k : Kind) :
    (a.union b).contains k = (a.contains k || b.contains k) := by
  rw [contains_eq_bit, contains_eq_bit, contains_eq_bit, bit_union]

theorem contains_ofList_iff (kinds : List Kind) (k : Kind) :
    (ofList kinds).contains k = true ↔ k ∈ kinds := by
  rw [contains_eq_bit, bit_ofList, List.any_eq_true]
  constructor
  · rintro ⟨j, hj, hplace⟩
    exact place_injective (of_decide_eq_true hplace) ▸ hj
  · exact fun hk => ⟨k, hk, decide_eq_true rfl⟩

/-- The words of a list say no more than its members: bits that no kind has stay clear. -/
theorem ofList_eq_iff (a b : List Kind) : ofList a = ofList b ↔ ∀ k, k ∈ a ↔ k ∈ b := by
  constructor
  · intro h k
    rw [← contains_ofList_iff, h, contains_ofList_iff]
  · intro h
    refine eq_of_bit_eq fun n => ?_
    rw [bit_ofList, bit_ofList, Bool.eq_iff_iff, List.any_eq_true, List.any_eq_true]
    exact exists_congr fun k => and_congr_left' (h k)

theorem bit_words (s : KindSet) (n : Fin (4 * 64)) : s.words.bit n = s.bits.getLsbD n := by
  have hn : 64 * (n.val / 64) + n.val % 64 = n.val := Nat.div_add_mod _ _
  simp [bit, KindSet.words, hn, Nat.mod_lt]

/-- A set in one piece is determined by its words. -/
theorem words_injective {s t : KindSet} (h : s.words = t.words) : s = t := by
  obtain ⟨x⟩ := s
  obtain ⟨y⟩ := t
  congr 1
  refine BitVec.eq_of_getLsbD_eq fun n hn => ?_
  have hbit := congrArg (bit · ⟨n, hn⟩) h
  simpa only [bit_words] using hbit

theorem words_empty : KindSet.empty.words = empty :=
  eq_of_bit_eq fun n => by simp [bit_words, KindSet.empty]

theorem words_single (k : Kind) : (KindSet.single k).words = single k :=
  eq_of_bit_eq fun n => by
    rw [bit_words, bit_single, KindSet.single, BitVec.getLsbD_twoPow,
      decide_eq_true k.index_lt_bits, Bool.true_and]
    exact decide_eq_decide.mpr (Fin.ext_iff (a := place k)).symm

theorem words_union (s t : KindSet) : (s ∪ t).words = s.words.union t.words :=
  eq_of_bit_eq fun n => by
    rw [bit_words, bit_union, bit_words, bit_words]
    exact BitVec.getLsbD_or

theorem contains_words (s : KindSet) (k : Kind) : s.words.contains k = s.contains k := by
  rw [contains_eq_bit, bit_words]
  rfl

/-- The two orders in which the kinds of a list are added give the same words. -/
theorem words_ofList (kinds : List Kind) : (KindSet.ofList kinds).words = ofList kinds := by
  have hbits (n : Fin (4 * 64)) : (KindSet.ofList kinds).words.bit n =
      kinds.any (fun k => decide (place k = n)) := by
    induction kinds with
    | nil => rw [KindSet.ofList, List.foldr_nil, words_empty, bit_empty, List.any_nil]
    | cons k kinds ih =>
      change (KindSet.single k ∪ KindSet.ofList kinds).words.bit n = _
      rw [words_union, bit_union, words_single, bit_single, ih, List.any_cons]
  exact eq_of_bit_eq fun n => by rw [hbits, bit_ofList]

/-- A set of kinds in four words is the finite set of the kinds that were put into it, and the set
in one piece that the grammar asks is the same set: it has the same words, so the same members and
the same equality. -/
theorem words_are_members :
    (∀ k : Kind, k.slot < 4 ∧ k.index % 64 < 64 ∧ 64 * k.slot + k.index % 64 = k.index) ∧
    (∀ (a : List Kind) (k : Kind), (ofList a).contains k = true ↔ k ∈ a) ∧
    (∀ (a b : List Kind) (k : Kind),
      ((ofList a).union (ofList b)).contains k = true ↔ k ∈ a ∨ k ∈ b) ∧
    (∀ a b : List Kind, ofList a = ofList b ↔ ∀ k, k ∈ a ↔ k ∈ b) ∧
    (∀ a : List Kind, ofList a = empty ↔ a = []) ∧
    (∀ (a b : List Kind) (k : Kind),
      (KindSet.ofList a).words = ofList a ∧
      (KindSet.ofList a ∪ KindSet.ofList b).words = (ofList a).union (ofList b) ∧
      (KindSet.ofList a).contains k = (ofList a).contains k ∧
      (KindSet.ofList a = KindSet.ofList b ↔ ofList a = ofList b)) := by
  refine ⟨fun k => ⟨k.slot_lt, k.index_mod_lt, Nat.div_add_mod _ _⟩, contains_ofList_iff, ?_,
    ofList_eq_iff, ?_, ?_⟩
  · intro a b k
    rw [contains_union, Bool.or_eq_true, contains_ofList_iff, contains_ofList_iff]
  · intro a
    have hempty := ofList_eq_iff a []
    rw [show ofList [] = empty from rfl] at hempty
    simpa only [List.not_mem_nil, iff_false, List.eq_nil_iff_forall_not_mem] using hempty
  · intro a b k
    refine ⟨words_ofList a, ?_, ?_, ?_⟩
    · rw [words_union, words_ofList, words_ofList]
    · rw [← words_ofList, contains_words]
    · rw [← words_ofList a, ← words_ofList b]
      exact ⟨congrArg _, words_injective⟩

end KindWords
end PhpSyntax
