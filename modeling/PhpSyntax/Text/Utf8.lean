/-!
Reading bytes as UTF-8. Shortest forms only, no surrogates, nothing above U+10FFFF.
-/
namespace PhpSyntax.Text

/-- Reads characters from byte `i` on, after those of `before` (last first). A failure tells how
many bytes were read well. Each character takes a byte, so `fuel` of the bytes left is enough. -/
def decodeFrom (bytes : ByteArray) : (fuel i : Nat) → (before : List Char) → Except Nat (List Char)
  | 0, _, before => .ok before.reverse
  | fuel + 1, i, before =>
    if i < bytes.size then
      match bytes.utf8DecodeChar? i with
      | some c => decodeFrom bytes fuel (i + c.utf8Size) (c :: before)
      | none => .error i
    else .ok before.reverse

/-- The characters of a UTF-8 byte sequence, or the length of its longest valid beginning. -/
def decode (bytes : ByteArray) : Except Nat (List Char) := decodeFrom bytes (bytes.size + 1) 0 []

end PhpSyntax.Text
