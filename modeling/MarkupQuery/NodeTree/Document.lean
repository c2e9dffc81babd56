import MarkupQuery.NodeTree.Record
import MarkupQuery.NodeTree.StringPool

/-!
# Documents

A document is the node table, the list of children, in which the children of each element are one
run, the text buffer and the string pool. Nodes are named by the numbers of their records. Questions
about a number that is in no table have the answer "nothing".
-/

namespace MarkupQuery.NodeTree

/-- A document as tables. -/
structure Document where
  /-- The node table, in the order of the text. -/
  records : Array Record
  /-- The children of all elements, those of one element in one run. -/
  children : Array NodeId
  /-- The contents of all texts, comments and instructions. -/
  text : ByteArray
  /-- The names, namespaces and values. -/
  strings : StringPool

namespace Document

/-! ## Records -/

/-- The record of a number. -/
def record? (d : Document) (id : NodeId) : Option Record :=
  d.records[id.toNat]?

/-- The number of records, end marks included. -/
def recordCount (d : Document) : Nat :=
  d.records.size

/-- The number of children of all elements. -/
def childCount (d : Document) : Nat :=
  d.children.size

/-- The number of bytes in the text buffer. -/
def textLength (d : Document) : Nat :=
  d.text.size

/-- The number names a node: its record is in the table and is no end mark. -/
def isNode (d : Document) (id : NodeId) : Bool :=
  (d.record? id).any fun r => r.kind != .endMark

/-- All nodes, in the order of the table. -/
def nodes (d : Document) : List NodeId :=
  ((List.range d.recordCount).map Nat.toUInt32).filter d.isNode

/-! ## Nodes -/

/-- The kind of a record. -/
def kind? (d : Document) (id : NodeId) : Option NodeKind :=
  (d.record? id).map Record.kind

/-- The element around a node. -/
def parent? (d : Document) (id : NodeId) : Option NodeId :=
  (d.record? id).bind Record.parent

/-- The node has no element around it, so it is the root. -/
def isRoot (d : Document) (id : NodeId) : Bool :=
  (d.record? id).any fun r => r.parent.isNone

/-- The number at which the subtree of a node ends. -/
def stop? (d : Document) (id : NodeId) : Option NodeId :=
  (d.record? id).map Record.stop

/-- The local name of an element or attribute, or the target of an instruction. Other nodes have an
empty name. -/
def localName (d : Document) (id : NodeId) : String :=
  ((d.record? id).map fun r => d.strings.get r.nameId).getD ""

/-- The namespace of an element or attribute. -/
def space? (d : Document) (id : NodeId) : Option String :=
  (d.record? id).bind fun r => if r.spaceId == 0 then none else some (d.strings.get r.spaceId)

/-- The value of an attribute. -/
def value? (d : Document) (id : NodeId) : Option String :=
  (d.record? id).bind fun r => if r.isAttribute then some (d.strings.get r.valueId) else none

/-- The content of a record that is a text, a comment or an instruction. -/
def recordText? (d : Document) (r : Record) : Option String :=
  if r.kind.hasText then some (r.text.slice d.text) else none

/-- The content of a text, a comment or an instruction. -/
def text? (d : Document) (id : NodeId) : Option String :=
  (d.record? id).bind d.recordText?

/-- The children of a node, in the order of the text. -/
def childrenOf (d : Document) (id : NodeId) : List NodeId :=
  match d.record? id with
  | some r =>
    (d.children.extract r.children.first.toNat
      (r.children.first.toNat + r.children.length.toNat)).toList
  | none => []

/-- The attributes among the `left` records from `next` on, up to the first that is none. -/
def attributeRun (d : Document) (next : Nat) : Nat → List NodeId
  | 0 => []
  | left + 1 =>
    if (d.record? next.toUInt32).any Record.isAttribute then
      next.toUInt32 :: d.attributeRun (next + 1) left
    else []

/-- The attributes of a node, in the order of the text. -/
def attributesOf (d : Document) (id : NodeId) : List NodeId :=
  match d.record? id with
  | some r => d.attributeRun (id.toNat + 1) (r.stop.toNat - (id.toNat + 1))
  | none => []

/-- The value of the first attribute of a node with the given local name. -/
def attribute? (d : Document) (id : NodeId) (name : String) : Option String :=
  ((d.attributesOf id).find? fun a => d.localName a == name).bind d.value?

/-! ## String values -/

/-- The contents in the `left` records from `next` on, behind `done`. -/
def gatherText (d : Document) (done : String) (next : Nat) : Nat → String
  | 0 => done
  | left + 1 => d.gatherText (done ++ (d.text? next.toUInt32).getD "") (next + 1) left

/-- The string value of a node: the value of an attribute, and for any other node the contents of
all texts, comments and instructions in its subtree, itself included, in the order of the text. -/
def stringValue (d : Document) (id : NodeId) : String :=
  match d.value? id with
  | some value => value
  | none =>
    match d.record? id with
    | some r => d.gatherText "" id.toNat (r.stop.toNat - id.toNat)
    | none => ""

end Document

end MarkupQuery.NodeTree
