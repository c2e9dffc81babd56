import MarkupQuery.NodeTree.Span
import Std.Data.HashMap

/-!
# The string pool

Names, namespaces and attribute values are kept once each and named by a number. Number 0 is the
empty string; the others are handed out in the order in which the strings first come. The strings
lie one behind the other in one buffer. An index from hash values to numbers finds a string that is
already there; which hash function is taken makes no difference to any answer, because a hit is
compared with the string itself.
-/

namespace MarkupQuery.NodeTree

/-- Strings that are kept once each. -/
structure StringPool where
  /-- Where the string of each number lies. -/
  entries : Array Span
  /-- The strings, one behind the other. -/
  data : ByteArray
  /-- The numbers of the strings with a given hash value. -/
  index : Std.HashMap UInt64 (List UInt32)

namespace StringPool

/-- The pool of the empty string alone. -/
def empty : StringPool :=
  ⟨#[Span.empty], ByteArray.empty, ∅⟩

/-- The string of a number; a number that was never handed out has the empty string. -/
def get (p : StringPool) (id : UInt32) : String :=
  match p.entries[id.toNat]? with
  | some entry => textBetween p.data entry.offset.toNat (entry.offset.toNat + entry.length.toNat)
  | none => ""

/-- The number of a string, which is added to the pool unless it is there, with `hash` as the hash
function. -/
def internBy (hash : String → UInt64) (p : StringPool) (s : String) : UInt32 × StringPool :=
  if s.isEmpty then (0, p)
  else
    let key := hash s
    let candidates := p.index.getD key []
    match candidates.find? fun id => p.get id == s with
    | some id => (id, p)
    | none =>
      let id := p.entries.size.toUInt32
      let ⟨entries, data, index⟩ := p
      let (entry, data) := Span.append data s
      (id, ⟨entries.push entry, data, index.insert key (candidates ++ [id])⟩)

/-- The hash value of a string: the characters are mixed in one by one, each by an exclusive or and
a multiplication by a prime. -/
def hashOf (s : String) : UInt64 :=
  s.toList.foldl (fun h c => (h ^^^ c.val.toUInt64) * 0x100000001b3) 0xcbf29ce484222325

/-- The number of a string, which is added to the pool unless it is there. -/
def intern (p : StringPool) (s : String) : UInt32 × StringPool :=
  p.internBy hashOf s

/-- How many numbers are in use, the one of the empty string included. -/
def size (p : StringPool) : Nat :=
  p.entries.size

/-- No string but the empty one is in the pool. -/
def isEmpty (p : StringPool) : Bool :=
  p.entries.size ≤ 1

/-- The number of bytes that the strings take. -/
def bytesUsed (p : StringPool) : Nat :=
  p.data.size

/-- The pool without its index: its strings can still be read, but are no longer found. -/
def freeze (p : StringPool) : StringPool :=
  { p with index := ∅ }

end StringPool

end MarkupQuery.NodeTree
