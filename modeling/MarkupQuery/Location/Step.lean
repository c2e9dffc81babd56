import MarkupQuery.NodeTree.Record

/-!
# Location steps

A location path is a sequence of steps. A step goes along an axis from each node that the steps
before it reach, and keeps the nodes that pass its two tests: one of the kind of the node, one of
its local name. The first step of a path may start from the root instead.
-/

namespace MarkupQuery.Location

open NodeTree

/-- The directions in which a step can go from a node. -/
inductive Axis
  /-- The children of the node. -/
  | child
  /-- The nodes below the node. -/
  | descendant
  /-- The node, then the nodes below it. -/
  | descendantOrSelf
  /-- The element around the node. -/
  | parent
  /-- The elements around the node, nearest first. -/
  | ancestor
  /-- The node, then the elements around it. -/
  | ancestorOrSelf
  /-- The later children of the same element. -/
  | followingSibling
  /-- The earlier children of the same element, nearest first. -/
  | precedingSibling
  /-- The nodes behind the subtree of the node. -/
  | following
  /-- The nodes in front of the node that are not around it, nearest first. -/
  | preceding
  /-- The node itself. -/
  | self
  /-- The attributes of the node. -/
  | attribute
  deriving DecidableEq, Repr, Inhabited

namespace Axis

/-- How an axis is called in a path. -/
def name : Axis → String
  | .child => "child"
  | .descendant => "descendant"
  | .descendantOrSelf => "descendant-or-self"
  | .parent => "parent"
  | .ancestor => "ancestor"
  | .ancestorOrSelf => "ancestor-or-self"
  | .followingSibling => "following-sibling"
  | .precedingSibling => "preceding-sibling"
  | .following => "following"
  | .preceding => "preceding"
  | .self => "self"
  | .attribute => "attribute"

/-- The axis that a path calls by a given name. -/
def ofName? (s : String) : Option Axis :=
  match s with
  | "child" => some .child
  | "descendant" => some .descendant
  | "descendant-or-self" => some .descendantOrSelf
  | "parent" => some .parent
  | "ancestor" => some .ancestor
  | "ancestor-or-self" => some .ancestorOrSelf
  | "following-sibling" => some .followingSibling
  | "preceding-sibling" => some .precedingSibling
  | "following" => some .following
  | "preceding" => some .preceding
  | "self" => some .self
  | "attribute" => some .attribute
  | _ => none

/-- The kind of node that a name alone selects on an axis. -/
def principalKind : Axis → NodeKind
  | .attribute => .attribute
  | _ => .element

end Axis

/-- A test of the local name of a node. -/
inductive NameTest
  /-- Every name passes. -/
  | any
  /-- Only this name passes. -/
  | name (s : String)
  deriving DecidableEq, Repr, Inhabited

namespace NameTest

/-- The test that a word in a path stands for: the star lets every name pass. -/
def ofWord (s : String) : NameTest :=
  if s == "*" then .any else .name s

end NameTest

/-- A step of a location path. -/
structure Step where
  /-- Where the step goes. -/
  axis : Axis
  /-- The names that it keeps. -/
  name : NameTest
  /-- The kind of node that it keeps; if there is none, every kind. -/
  kind : Option NodeKind
  /-- The step starts from the root, whatever node it is given. -/
  fromRoot : Bool
  deriving DecidableEq, Repr, Inhabited

/-- A location path: the text in which it was written, and its steps. -/
structure Path where
  /-- The text of the path. -/
  text : String
  /-- The steps, in order. -/
  steps : List Step
  deriving DecidableEq, Repr, Inhabited

end MarkupQuery.Location
