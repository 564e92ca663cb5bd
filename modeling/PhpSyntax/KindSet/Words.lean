import PhpSyntax.KindSet

/-!
Sets of kinds as they are stored: four words of 64 bits. The bit of a kind lies in the word that the
quotient of its index by 64 tells, at the place that the remainder tells.
-/
namespace PhpSyntax

namespace Kind

/-- The word that has the bit of a kind. -/
def slot (k : Kind) : Nat := k.index / 64

/-- The bit of a kind in its word. -/
def mask (k : Kind) : BitVec 64 := 1#64 <<< (k.index % 64)

theorem slot_lt (k : Kind) : k.slot < 4 :=
  Nat.div_lt_of_lt_mul (Nat.lt_trans k.index_lt (by decide))

end Kind

/-- A set of kinds in four words. Two sets are compared word by word. -/
structure KindWords where
  words : Vector (BitVec 64) 4
  deriving DecidableEq

namespace KindWords

def empty : KindWords := ⟨.replicate 4 0#64⟩

def single (k : Kind) : KindWords := ⟨empty.words.set k.slot k.mask k.slot_lt⟩

def union (a b : KindWords) : KindWords := ⟨a.words.zipWith (· ||| ·) b.words⟩

/-- The kinds are added one after the other. -/
def ofList (kinds : List Kind) : KindWords := kinds.foldl (fun s k => s.union (single k)) empty

def contains (s : KindWords) (k : Kind) : Bool :=
  have := k.slot_lt
  s.words[k.slot] &&& k.mask != 0#64

end KindWords

/-- The words of a set. -/
def KindSet.words (s : KindSet) : KindWords :=
  ⟨.ofFn fun i : Fin 4 => s.bits.extractLsb' (64 * i) 64⟩

end PhpSyntax
