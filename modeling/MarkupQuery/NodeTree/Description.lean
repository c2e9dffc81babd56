import MarkupQuery.Text.Quoted
import MarkupQuery.NodeTree.Document

/-!
# Documents and nodes in a few words

One line that says how large a document is, and one that says which node a number names. Both write
fields by name within braces.
-/

namespace MarkupQuery.NodeTree

/-- What a kind of record is called in descriptions. -/
def NodeKind.title : NodeKind → String
  | .element => "Element"
  | .attribute => "Attribute"
  | .text => "Text"
  | .comment => "Comment"
  | .instruction => "ProcessingInstruction"
  | .endMark => "End"

namespace Document

/-- The sizes of a document. -/
def describe (d : Document) : String :=
  "Document \x7b nodes: " ++ toString d.recordCount ++ ", children: " ++ toString d.childCount ++
    ", text_bytes: " ++ toString d.textLength ++ " \x7d"

/-- The number, kind and name of a node. -/
def describeNode (d : Document) (id : NodeId) : String :=
  "NodeRef \x7b id: " ++ toString id.toNat ++ ", kind: " ++
    ((d.kind? id).map NodeKind.title).getD "" ++ ", name: " ++ Text.Quoted.text (d.localName id) ++
    " \x7d"

end Document

end MarkupQuery.NodeTree
