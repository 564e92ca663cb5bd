import PhpSyntax.Kind

/-!
Finite sets of kinds, one bit per kind. Two sets with the same members have the same bits, so
equality of the words is equality of the sets.
-/
namespace PhpSyntax

/-- A set of kinds: bit `k.index` says whether `k` is a member. Four 64-bit words hold them all. -/
structure KindSet where
  bits : BitVec 256
  deriving DecidableEq

namespace KindSet

def empty : KindSet := ⟨0⟩

def single (k : Kind) : KindSet := ⟨BitVec.twoPow 256 k.index⟩

def union (a b : KindSet) : KindSet := ⟨a.bits ||| b.bits⟩

instance : Union KindSet := ⟨union⟩

def ofList (kinds : List Kind) : KindSet := kinds.foldr (fun k s => single k ∪ s) empty

/-- The set of all kinds. -/
def all : KindSet := ofList Kind.all

def contains (s : KindSet) (k : Kind) : Bool := s.bits.getLsbD k.index

/-- The members in the order of kinds. -/
def toList (s : KindSet) : List Kind := Kind.all.filter s.contains

@[simp] theorem contains_empty (k : Kind) : empty.contains k = false := by
  simp [empty, contains]

@[simp] theorem contains_single (k j : Kind) : (single j).contains k = (k == j) := by
  have hj : j.index < 256 := Nat.lt_trans j.index_lt (by decide)
  by_cases h : k = j
  · subst h; simp [single, contains, hj]
  · have : j.index ≠ k.index := fun e => h (Kind.index_injective e).symm
    simp [single, contains, BitVec.getLsbD_twoPow, h, this]

@[simp] theorem contains_union (a b : KindSet) (k : Kind) :
    (a ∪ b).contains k = (a.contains k || b.contains k) := by
  change (union a b).contains k = _
  simp [union, contains]

@[simp] theorem contains_ofList (kinds : List Kind) (k : Kind) :
    (ofList kinds).contains k = kinds.contains k := by
  induction kinds with
  | nil => simp [ofList]
  | cons j js ih =>
    change (single j ∪ ofList js).contains k = _
    rw [contains_union, contains_single, ih, List.contains_cons]

end KindSet
end PhpSyntax
