import Surface.Text.Bytes

/-!
# Bytes as text

The longest start of a sequence of bytes that is a text in UTF-8.
-/

namespace Surface.Text

/-- The characters that start at byte `i`, behind those in `done`, up to the first byte that no
character starts with. -/
def decodeFrom (bytes : ByteArray) (done : Array Char) (i : Nat) : Array Char :=
  if i < bytes.size then
    match bytes.utf8DecodeChar? i with
    | some c => decodeFrom bytes (done.push c) (i + c.utf8Size)
    | none => done
  else done
termination_by bytes.size - i
decreasing_by have := c.utf8Size_pos; omega

/-- The longest start of the bytes that is a text. -/
def decode (bytes : ByteArray) : List Char := (decodeFrom bytes #[] 0).toList

end Surface.Text
