/-!
# Tokens

What a reader of markup delivers and what a document is built from: start tags with their
attributes, end tags, text, comments and processing instructions. Names are expanded: a local part,
and the namespace in which it stands, if any. Values and texts are decoded.
-/

namespace MarkupQuery.Markup

/-- A name within a namespace, or outside of all. -/
structure ExpandedName where
  /-- The namespace: a URI, or a label that is bound to none. -/
  space : Option String
  /-- The part behind the colon. -/
  base : String
  deriving DecidableEq, Repr

/-- An attribute of a start tag. -/
structure Attribute where
  /-- The expanded name. -/
  name : ExpandedName
  /-- The decoded value. -/
  value : String
  deriving DecidableEq, Repr

/-- One event of a document, in the order of the text. -/
inductive Token
  /-- An element opens, with its attributes in the order of the text. -/
  | startTag (name : ExpandedName) (attributes : List Attribute)
  /-- The innermost open element closes. -/
  | endTag
  /-- Text, decoded. -/
  | text (content : String)
  /-- The content of a comment, without the marks around it. -/
  | comment (content : String)
  /-- A processing instruction. -/
  | instruction (target content : String)
  deriving DecidableEq, Repr

end MarkupQuery.Markup
