import MarkupQuery.NodeTree.Span

/-!
# Records of the node table

A document is a table of records in the order of its text. Every node has a record, and every
element one more, which marks where its subtree ends. The number of a record is its place in the
table, a word of 32 bits. All records have the same fields; those that a kind of node does not use
are zero.
-/

namespace MarkupQuery.NodeTree

/-- The number of a record in the node table. -/
abbrev NodeId := UInt32

/-- The kinds of records. -/
inductive NodeKind
  /-- An element, or the root of a document. -/
  | element
  /-- An attribute of the element in front of it. -/
  | attribute
  /-- Text. -/
  | text
  /-- A comment. -/
  | comment
  /-- A processing instruction. -/
  | instruction
  /-- The mark behind the subtree of an element, which is no node. -/
  | endMark
  deriving DecidableEq, Repr, Inhabited

namespace NodeKind

/-- Nodes of this kind are children of the element around them. -/
def isChild : NodeKind → Bool
  | .attribute | .endMark => false
  | .element | .text | .comment | .instruction => true

/-- Nodes of this kind have a text of their own in the text buffer. -/
def hasText : NodeKind → Bool
  | .text | .comment | .instruction => true
  | .element | .attribute | .endMark => false

end NodeKind

/-- A run of the list of children. -/
structure ChildRun where
  /-- Where the run begins. -/
  first : UInt32
  /-- How many children it has. -/
  length : UInt32
  deriving DecidableEq, Repr, Inhabited

/-- A record of the node table. -/
structure Record where
  /-- What the record stands for. -/
  kind : NodeKind
  /-- The element around the node; the root has none. -/
  parent : Option NodeId
  /-- For an element the number of its end mark, otherwise the number behind its own. -/
  stop : NodeId
  /-- The string of the local name, or of the target of an instruction. -/
  nameId : UInt32
  /-- The string of the namespace, or 0. -/
  spaceId : UInt32
  /-- The string of the value of an attribute, or 0. -/
  valueId : UInt32
  /-- Where the text of the node lies. -/
  text : Span
  /-- The children of an element, once it is closed. -/
  children : ChildRun
  deriving DecidableEq, Repr, Inhabited

namespace Record

/-- A record of a kind with all other fields zero. -/
def blank (kind : NodeKind) (parent : Option NodeId) (stop : NodeId) : Record :=
  ⟨kind, parent, stop, 0, 0, 0, Span.empty, ⟨0, 0⟩⟩

/-- The root of a document, which is record 0. -/
def root : Record :=
  blank .element none 0

/-- An element inside the element `parent` that is still open. -/
def elementOf (nameId spaceId : UInt32) (parent id : NodeId) : Record :=
  { blank .element (some parent) id with nameId, spaceId }

/-- An attribute of the element `parent`. -/
def attributeOf (nameId spaceId valueId : UInt32) (parent id : NodeId) : Record :=
  { blank .attribute (some parent) (id + 1) with nameId, spaceId, valueId }

/-- A text, a comment or a processing instruction inside the element `parent`. -/
def leaf (kind : NodeKind) (nameId : UInt32) (text : Span) (parent id : NodeId) : Record :=
  { blank kind (some parent) (id + 1) with nameId, text }

/-- The end mark of an element. -/
def endOf (element id : NodeId) : Record :=
  blank .endMark (some element) (id + 1)

/-- The record is that of an element. -/
def isElement (r : Record) : Bool :=
  r.kind == .element

/-- The record is that of an attribute. -/
def isAttribute (r : Record) : Bool :=
  r.kind == .attribute

end Record

end MarkupQuery.NodeTree
