/-!
Ranges of byte offsets.
-/
namespace PhpSyntax

/-- The bytes from `start` up to but not including `stop`. -/
structure Range where
  start : Nat
  stop : Nat
  start_le_stop : start ≤ stop := by omega
  deriving DecidableEq

namespace Range

/-- The range of `length` bytes from `start`. -/
def ofLength (start length : Nat) : Range := ⟨start, start + length, Nat.le_add_right ..⟩

/-- The empty range at an offset. -/
def point (offset : Nat) : Range := ofLength offset 0

/-- The range between two offsets, which must be in order. -/
def between? (start stop : Nat) : Option Range :=
  if h : start ≤ stop then some ⟨start, stop, h⟩ else none

def length (r : Range) : Nat := r.stop - r.start

/-- Every byte of `inner` is in `r`, and an empty `inner` does not stick out. -/
def containsRange (r inner : Range) : Bool := r.start ≤ inner.start && inner.stop ≤ r.stop

/-- The offset is in the range or at its end. -/
def touches (r : Range) (offset : Nat) : Bool := r.start ≤ offset && offset ≤ r.stop

def render (r : Range) : String := toString r.start ++ ".." ++ toString r.stop

end Range
end PhpSyntax
