import MarkupQuery.Markup.Token
import MarkupQuery.NodeTree.Document

/-!
# Building a document from tokens

A builder takes tokens one by one and keeps the tables of the document that they have made so far.
A start tag adds a record for its element and one for each attribute, every other token adds one
record. When an element closes, its children are collected from the records behind it: from each
child element the walk jumps to the end of that element's subtree. An end tag is refused when no
element is open.
-/

namespace MarkupQuery.NodeTree

open Markup

/-- The tables of a document that is not finished. -/
structure Builder where
  /-- The node table so far. -/
  records : Array Record
  /-- The children of the elements closed so far. -/
  children : Array NodeId
  /-- The text buffer so far. -/
  text : ByteArray
  /-- The string pool so far. -/
  strings : StringPool
  /-- The open elements, innermost first. The root is not among them. -/
  openElements : List NodeId

namespace Builder

/-- A builder that has taken no token. -/
def empty : Builder :=
  ⟨#[Record.root], #[], ByteArray.empty, StringPool.empty, []⟩

/-- The number of open elements. -/
def depth (b : Builder) : Nat :=
  b.openElements.length

/-- The number of the next record. -/
def nextId (b : Builder) : NodeId :=
  b.records.size.toUInt32

/-- The element in which the next record lies. -/
def current (b : Builder) : NodeId :=
  b.openElements.headD 0

/-! ## Adding records -/

/-- The number of a string, which is added to the pool unless it is there. -/
def intern (b : Builder) (s : String) : UInt32 × Builder :=
  let ⟨records, children, text, strings, openElements⟩ := b
  let (id, strings) := strings.intern s
  (id, ⟨records, children, text, strings, openElements⟩)

/-- The number of a namespace, which is 0 if there is none. -/
def internSpace (b : Builder) (space : Option String) : UInt32 × Builder :=
  match space with
  | some s => b.intern s
  | none => (0, b)

/-- Add a record. -/
def addRecord (b : Builder) (r : Record) : Builder :=
  { b with records := b.records.push r }

/-- Add an attribute of an element. -/
def addAttribute (b : Builder) (element : NodeId) (a : Attribute) : Builder :=
  let id := b.nextId
  let (nameId, b) := b.intern a.name.base
  let (spaceId, b) := b.internSpace a.name.space
  let (valueId, b) := b.intern a.value
  b.addRecord (Record.attributeOf nameId spaceId valueId element id)

/-- Open an element with its attributes. -/
def startElement (b : Builder) (name : ExpandedName) (attributes : List Attribute) : Builder :=
  let parent := b.current
  let id := b.nextId
  let (nameId, b) := b.intern name.base
  let (spaceId, b) := b.internSpace name.space
  let b := b.addRecord (Record.elementOf nameId spaceId parent id)
  let b := attributes.foldl (fun b a => b.addAttribute id a) b
  { b with openElements := id :: b.openElements }

/-- Add a text, a comment or an instruction. -/
def leaf (b : Builder) (kind : NodeKind) (target content : String) : Builder :=
  let parent := b.current
  let id := b.nextId
  let (nameId, b) := b.intern target
  let ⟨records, children, text, strings, openElements⟩ := b
  let (span, text) := Span.append text content
  ⟨records.push (Record.leaf kind nameId span parent id), children, text, strings, openElements⟩

/-! ## Closing elements -/

/-- The children among the records from `next` up to `last`, behind those in `found`: attributes
are none, and from an element the walk goes on behind its end mark. The fuel bounds the number of
records that it visits. -/
def collectChildren (records : Array Record) (last : Nat) :
    Nat → Nat → Array NodeId → Array NodeId
  | 0, _, found => found
  | fuel + 1, next, found =>
    if next < last then
      match records[next]? with
      | none => found
      | some r =>
        match r.kind with
        | .attribute => collectChildren records last fuel (next + 1) found
        | .element =>
          collectChildren records last fuel (r.stop.toNat + 1) (found.push next.toUInt32)
        | _ => collectChildren records last fuel (next + 1) (found.push next.toUInt32)
    else found

/-- Add the end mark of an element, and give the element its end and its children. -/
def close (b : Builder) (element : NodeId) : Builder :=
  let ⟨records, children, text, strings, openElements⟩ := b
  let stop := records.size.toUInt32
  let records := records.push (Record.endOf element stop)
  let first := children.size
  let children :=
    collectChildren records stop.toNat (stop.toNat - element.toNat) (element.toNat + 1) children
  let run : ChildRun := ⟨first.toUInt32, (children.size - first).toUInt32⟩
  let records := records.modify element.toNat fun r => { r with stop, children := run }
  ⟨records, children, text, strings, openElements⟩

/-- Close the innermost element. The answer is false, and nothing changes, if none is open. -/
def endElement (b : Builder) : Bool × Builder :=
  match b.openElements with
  | [] => (false, b)
  | element :: outer => (true, { b with openElements := outer }.close element)

/-- Take a token. The answer is false, and nothing changes, for an end tag when no element is
open. -/
def push (b : Builder) (token : Token) : Bool × Builder :=
  match token with
  | .startTag name attributes => (true, b.startElement name attributes)
  | .endTag => b.endElement
  | .text content => (true, b.leaf .text "" content)
  | .comment content => (true, b.leaf .comment "" content)
  | .instruction target content => (true, b.leaf .instruction target content)

/-- The finished document, or the number of elements that are still open. -/
def finish (b : Builder) : Except Nat Document :=
  match b.openElements with
  | [] =>
    let closed := b.close 0
    .ok ⟨closed.records, closed.children, closed.text, closed.strings.freeze⟩
  | _ :: _ => .error b.depth

end Builder

end MarkupQuery.NodeTree
