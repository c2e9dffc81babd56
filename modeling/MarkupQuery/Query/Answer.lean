import MarkupQuery.Query.Walk

/-!
# Answers of a path

What a path says about a document from a start node: the nodes that it selects, in the order in
which a walk finds them, whether there is one, and the string values of the first and of all.
-/

namespace MarkupQuery.Query

open NodeTree Location

/-- The nodes that a path selects, unless the search goes astray. -/
def select? (d : Document) (path : Path) (id : NodeId) : Option (List NodeId) :=
  (Walk.start d path id).rest?.map Prod.fst

/-- The nodes that a path selects. -/
def select (d : Document) (path : Path) (id : NodeId) : List NodeId :=
  (select? d path id).getD []

/-- The first node that a path selects. -/
def first? (d : Document) (path : Path) (id : NodeId) : Option NodeId :=
  (Walk.start d path id).advance.bind Walk.current

/-- A path selects at least one node. -/
def selects (d : Document) (path : Path) (id : NodeId) : Bool :=
  (first? d path id).isSome

/-- The string value of the first node that a path selects. -/
def firstValue? (d : Document) (path : Path) (id : NodeId) : Option String :=
  (first? d path id).map d.stringValue

/-- The string values of all nodes that a path selects. -/
def values (d : Document) (path : Path) (id : NodeId) : List String :=
  (select d path id).map d.stringValue

end MarkupQuery.Query
