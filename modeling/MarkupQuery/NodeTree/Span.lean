/-!
# Spans of a text buffer

The texts of a document share one buffer of UTF-8 bytes. A span says where one of them lies in the
buffer; offset and length are words of 32 bits. Bytes that are out of range, or that cut a character
in two, are no text, and a span over them reads as the empty text.
-/

namespace MarkupQuery.NodeTree

/-- The text that the bytes from `first` up to `last` encode, or the empty text if they encode
none. -/
def textBetween (buffer : ByteArray) (first last : Nat) : String :=
  if last ≤ buffer.size then (String.fromUTF8? (buffer.extract first last)).getD "" else ""

/-- A run of bytes of a buffer. -/
structure Span where
  /-- Where the run begins. -/
  offset : UInt32
  /-- How many bytes it has. -/
  length : UInt32
  deriving DecidableEq, Repr, Inhabited

namespace Span

/-- The span of no text. -/
def empty : Span :=
  ⟨0, 0⟩

/-- The span has no bytes. -/
def isEmpty (s : Span) : Bool :=
  s.length == 0

/-- The offset behind the run, or the greatest word if it is greater than that. -/
def stop (s : Span) : UInt32 :=
  (min (s.offset.toNat + s.length.toNat) (UInt32.size - 1)).toUInt32

/-- The text that lies in the span. -/
def slice (s : Span) (buffer : ByteArray) : String :=
  textBetween buffer s.offset.toNat s.stop.toNat

/-- The buffer with a text behind its end, and the span in which the text then lies. -/
def append (buffer : ByteArray) (text : String) : Span × ByteArray :=
  let bytes := text.toUTF8
  (⟨buffer.size.toUInt32, bytes.size.toUInt32⟩, buffer ++ bytes)

end Span

end MarkupQuery.NodeTree
