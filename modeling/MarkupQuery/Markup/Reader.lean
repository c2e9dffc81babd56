import MarkupQuery.Markup.Lexeme
import MarkupQuery.Markup.Scopes
import MarkupQuery.Markup.Token

/-!
# The reader

A reader turns a text into tokens, one at a time. It expands the names of each lexeme in the scopes
that are open, and a tag that closes itself gives two tokens. A strict reader also refuses an end
tag that does not name the element it closes, and a tag with two attributes of one name.

`Reader.read` gives the next token and goes on after an error from the place that the failed read
left. `Reader.next` is the sequence of items: after an error it gives nothing more. `Reader.items`
is all of that sequence.
-/

namespace MarkupQuery.Markup

open Text

/-- A text that is being read. -/
structure Reader where
  /-- Tags have to match and attributes of one tag to differ. -/
  strict : Bool
  /-- Where reading goes on. -/
  place : Place
  /-- The namespaces in force. -/
  scopes : Scopes
  /-- The names of the open elements as they are written, innermost first. -/
  openTags : List String
  /-- The last tag closed itself, and its end is still to be given. -/
  owesEnd : Bool
  /-- The sequence of items has ended with an error. -/
  failed : Bool
  deriving DecidableEq, Repr

/-! ## Expanding names -/

/-- A name as it is written, split at its first colon into label and base. A name with nothing in
front of the colon or nothing behind it is all base. -/
def splitLabel (name : String) : Option String × String :=
  let label := name.toList.takeWhile (· != ':')
  let base := (name.toList.dropWhile (· != ':')).tail
  if label.isEmpty || base.isEmpty then (none, name)
  else (some (String.ofList label), String.ofList base)

namespace Scopes

/-- The namespace of a label; one that is not bound stands for itself. -/
def spaceOf (s : Scopes) (label : String) : String :=
  (s.resolve? label).getD label

/-- The name of an element, expanded: without a label it is in the default namespace. -/
def elementName (s : Scopes) (name : String) : ExpandedName :=
  match splitLabel name with
  | (some label, base) => ⟨some (s.spaceOf label), base⟩
  | (none, base) => ⟨s.default?, base⟩

/-- The name of an attribute, expanded: without a label it is in no namespace. -/
def attributeName (s : Scopes) (name : String) : ExpandedName :=
  match splitLabel name with
  | (some label, base) => ⟨some (s.spaceOf label), base⟩
  | (none, base) => ⟨none, base⟩

/-- The label that an attribute of this name declares: the empty one for `xmlns`, and the rest of
the name behind `xmlns:`. -/
def declared? (name : String) : Option String :=
  if name == "xmlns" then some ""
  else if ['x', 'm', 'l', 'n', 's', ':'].isPrefixOf name.toList then
    some (String.ofList (name.toList.drop 6))
  else none

/-- The scopes with the declarations made that stand among the attributes of a tag. -/
def declareAll (s : Scopes) (attributes : List RawAttribute) : Scopes :=
  attributes.foldl (fun s a =>
    match declared? a.name with
    | some label => s.declare label a.value
    | none => s) s

end Scopes

namespace Reader

/-- A reader at the start of a text. -/
def start (strict : Bool) (text : String) : Reader where
  strict
  place := Place.start text
  scopes := Scopes.base
  openTags := []
  owesEnd := false
  failed := false

/-- The byte offset at which reading goes on. -/
def position (r : Reader) : Nat :=
  r.place.offset

/-! ## Open elements -/

/-- Close the innermost element, if one is open. -/
def closeElement (r : Reader) : Reader :=
  match r.openTags with
  | [] => r
  | _ :: outer => { r with openTags := outer, scopes := r.scopes.leave }

/-- Open an element: its scope, with the declarations among its attributes. -/
def openElement (r : Reader) (name : String) (attributes : List RawAttribute) : Reader :=
  { r with openTags := name :: r.openTags, scopes := r.scopes.enter.declareAll attributes }

/-- The start tag of the element just opened. -/
def startToken (s : Scopes) (name : String) (attributes : List RawAttribute) : Token :=
  .startTag (s.elementName name) (attributes.map fun a => ⟨s.attributeName a.name, a.value⟩)

/-- The name of the innermost open element, if a strict reader refuses an end tag of the given name
because of it. -/
def mismatch? (r : Reader) (name : String) : Option String :=
  if r.strict then r.openTags.head?.filter (· != name) else none

/-- The name for which a strict reader refuses a list of attributes. -/
def repeated? (r : Reader) (attributes : List RawAttribute) : Option String :=
  if r.strict then RawAttribute.repeated? attributes else none

/-! ## Reading -/

/-- Take in a lexeme that ends at a place. -/
def accept (r : Reader) (lexeme : Lexeme) (next : Place) : Except ReadError Token × Reader :=
  match lexeme with
  | .text content => (.ok (.text content), { r with place := next })
  | .comment content => (.ok (.comment content), { r with place := next })
  | .instruction target content => (.ok (.instruction target content), { r with place := next })
  | .endTag name offset =>
    match r.mismatch? name with
    | some opened => (.error (.tagMismatch opened name offset), { r with place := next })
    | none => (.ok .endTag, closeElement { r with place := next })
  | .startTag name attributes closes afterName =>
    match r.repeated? attributes with
    | some twice =>
      (.error (.duplicateAttribute twice afterName.offset), { r with place := afterName })
    | none =>
      let opened := openElement { r with place := next, owesEnd := closes } name attributes
      (.ok (startToken opened.scopes name attributes), opened)

/-- Read the next token, if there is one. -/
def read (r : Reader) : Except ReadError (Option Token) × Reader :=
  if r.owesEnd then (.ok (some .endTag), closeElement { r with owesEnd := false })
  else
    match Lexeme.next r.place with
    | (.error e, place) => (.error e, { r with place })
    | (.ok none, place) => (.ok none, { r with place })
    | (.ok (some lexeme), place) =>
      match r.accept lexeme place with
      | (.error e, r) => (.error e, r)
      | (.ok token, r) => (.ok (some token), r)

/-- The next item of the sequence, if it has not ended. An error ends it. -/
def next (r : Reader) : Option (Except ReadError Token) × Reader :=
  if r.failed then (none, r)
  else
    match r.read with
    | (.error e, r) => (some (.error e), { r with failed := true })
    | (.ok none, r) => (none, r)
    | (.ok (some token), r) => (some (.ok token), r)

/-- At most `fuel` further items, behind those already taken, which stand reversed. -/
def itemsOnto (done : List (Except ReadError Token)) :
    Nat → Reader → List (Except ReadError Token)
  | 0, _ => done.reverse
  | fuel + 1, r =>
    match r.next with
    | (none, _) => done.reverse
    | (some item, r) => itemsOnto (item :: done) fuel r

/-- A bound for the number of items still to come: each takes a character, apart from the end that a
tag which closed itself still owes, and from the error that ends the sequence. -/
def itemBound (r : Reader) : Nat :=
  2 * r.place.rest.length + 2

/-- All items still to come. -/
def items (r : Reader) : List (Except ReadError Token) :=
  itemsOnto [] r.itemBound r

end Reader

end MarkupQuery.Markup
