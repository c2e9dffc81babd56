/-!
# Namespace scopes

A label in front of a colon stands for a namespace URI where a declaration binds it. Declarations
hold in the element in which they stand and in those inside it, unless shadowed. The scopes are kept
as one list of bindings, innermost first, each with the depth at which it was made. The depth is a
counter of sixteen bits that stays at its greatest value once it gets there.

The labels `xml` and `xmlns` cannot be declared; `xml` is bound from the start. The empty label is
the default namespace, and binding it to the empty URI takes the default away.
-/

namespace MarkupQuery.Markup

/-- A label bound to a URI. -/
structure Binding where
  /-- The part of names in front of the colon; empty for the default namespace. -/
  label : String
  /-- The namespace for which the label stands. -/
  uri : String
  /-- The depth at which the binding was made. -/
  depth : Nat
  deriving DecidableEq, Repr

/-- The bindings in force, innermost first, and the depth of the current scope. -/
structure Scopes where
  /-- The bindings, innermost and latest first. -/
  bindings : List Binding
  /-- The number of scopes that are open, as far as the counter reaches. -/
  depth : Nat
  deriving DecidableEq, Repr

namespace Scopes

/-- The URI to which the label `xml` is always bound. -/
def xmlUri : String :=
  "http://www.w3.org/XML/1998/namespace"

/-- The greatest value of the depth counter. -/
def maxDepth : Nat :=
  65535

/-- The base scope, in which only `xml` is bound. -/
def base : Scopes :=
  ⟨[⟨"xml", xmlUri, 0⟩], 0⟩

/-- Open a scope. -/
def enter (s : Scopes) : Scopes :=
  { s with depth := min (s.depth + 1) maxDepth }

/-- Close the current scope: the bindings made at its depth or below go, those of depth zero
stay. -/
def leave (s : Scopes) : Scopes :=
  ⟨s.bindings.dropWhile fun b => s.depth ≤ b.depth && b.depth != 0, s.depth - 1⟩

/-- Labels that no declaration can bind. -/
def isFixed (label : String) : Bool :=
  label == "xml" || label == "xmlns"

/-- Bind a label in the current scope. -/
def declare (s : Scopes) (label uri : String) : Scopes :=
  if isFixed label then s else { s with bindings := ⟨label, uri, s.depth⟩ :: s.bindings }

/-- Bind the default namespace in the current scope. -/
def declareDefault (s : Scopes) (uri : String) : Scopes :=
  s.declare "" uri

/-- The URI to which a label is bound. -/
def resolve? (s : Scopes) (label : String) : Option String :=
  (s.bindings.find? fun b => b.label == label).map Binding.uri

/-- The default namespace, if there is one. -/
def default? (s : Scopes) : Option String :=
  (s.resolve? "").filter fun uri => uri != ""

end Scopes

end MarkupQuery.Markup
