/-!
# Text from bytes

Bytes are a text when they are well-formed UTF-8. If they are not, the answer is the number of
bytes before the first ill-formed sequence.
-/

namespace MarkupQuery.Text.Utf8

/-- The offset at which decoding from `i` on first fails, or at which the bytes end. The fuel bounds
the number of characters. -/
def validUpTo (bytes : ByteArray) : Nat → Nat → Nat
  | 0, i => i
  | fuel + 1, i =>
    match bytes.utf8DecodeChar? i with
    | some c => validUpTo bytes fuel (i + c.utf8Size)
    | none => i

/-- The text that the bytes encode, or the number of bytes before the first that is wrong. -/
def decode (bytes : ByteArray) : Except Nat String :=
  match String.fromUTF8? bytes with
  | some text => .ok text
  | none => .error (validUpTo bytes bytes.size 0)

end MarkupQuery.Text.Utf8
