import MarkupQuery.Text.Place

/-!
# A scanner with a movable position

A scanner keeps a whole text and a place in it. It looks ahead from the place without moving, reads
names, and can be moved to any byte offset that falls between two characters. All offsets in its
answers count bytes from the start of the text.
-/

namespace MarkupQuery.Text

/-- A text and a place in it. -/
structure Scanner where
  /-- The whole text. -/
  text : List Char
  /-- Where the scanner stands. -/
  place : Place
  deriving Repr

namespace Scanner

/-- A scanner at the start of a text. -/
def ofString (text : String) : Scanner :=
  ⟨text.toList, Place.start text⟩

/-- The offset at which the scanner stands. -/
def position (s : Scanner) : Nat :=
  s.place.offset

/-- The length of the whole text in bytes. -/
def length (s : Scanner) : Nat :=
  byteLength s.text

/-- The text is empty. -/
def isEmpty (s : Scanner) : Bool :=
  s.text.isEmpty

/-- Nothing lies ahead. -/
def atEnd (s : Scanner) : Bool :=
  s.place.atEnd

/-- Move to an offset. -/
def moveTo (s : Scanner) (offset : Nat) : Scanner :=
  { s with place := ⟨offset, dropBytes offset s.text⟩ }

/-- Move on by a number of bytes. -/
def advance (s : Scanner) (bytes : Nat) : Scanner :=
  s.moveTo (s.position + bytes)

/-- The byte ahead, if there is one. -/
def peek (s : Scanner) : Option UInt8 :=
  s.place.rest.head?.bind fun c => (String.utf8EncodeChar c).head?

/-- Move behind the white space ahead. -/
def skipBlank (s : Scanner) : Scanner :=
  { s with place := s.place.skipBlank }

/-- Where the next occurrence of `needle` begins. -/
def find? (s : Scanner) (needle : String) : Option Nat :=
  (s.place.upTo? needle.toList).map fun found => found.2.offset

/-- Where the next `<` is. -/
def tagStart? (s : Scanner) : Option Nat :=
  (s.place.upTo? ['<']).map fun found => found.2.offset

/-- Where the next `>` outside quotation marks is. -/
def tagEnd? (s : Scanner) : Option Nat :=
  s.place.upToTagEnd?.map fun found => found.2.offset

/-- The text ahead begins with `word`. -/
def startsWith (s : Scanner) (word : String) : Bool :=
  s.place.startsWith word.toList

/-- Read the name ahead; the scanner moves only if there is one. -/
def readName (s : Scanner) : Option String × Scanner :=
  match s.place.name? with
  | some (name, place) => (some name, { s with place })
  | none => (none, s)

/-- The text between two offsets. -/
def slice (s : Scanner) (first last : Nat) : String :=
  String.ofList (takeBytes (last - first) (dropBytes first s.text))

end Scanner

end MarkupQuery.Text
