import MarkupQuery.Text.Quoted

/-!
# Why markup cannot be read

The causes for which reading markup stops, each with the byte offset that it is about, and the words
in which it is reported.
-/

namespace MarkupQuery.Markup

/-- The constructs of markup. -/
inductive Construct
  /-- Text between tags. -/
  | characterData
  /-- `<!--` up to `-->`. -/
  | comment
  /-- `<![CDATA[` up to `]]>`. -/
  | cdata
  /-- A document type declaration. -/
  | doctype
  /-- `<?` up to `?>`. -/
  | instruction
  /-- `</`, a name and `>`. -/
  | endTag
  /-- Any other declaration, which opens with `<!`. -/
  | declaration
  /-- `<`, a name, attributes, and `>` or `/>`. -/
  | startTag
  deriving DecidableEq, Repr

/-- What a construct is called in messages. -/
def Construct.title : Construct → String
  | .characterData => "character data"
  | .comment => "comment"
  | .cdata => "CDATA section"
  | .doctype => "DOCTYPE"
  | .instruction => "processing instruction"
  | .endTag => "end tag"
  | .declaration => "markup declaration"
  | .startTag => "start tag"

/-- What can be wrong with a list of attributes. -/
inductive AttributeFault
  /-- No white space in front of an attribute. -/
  | unseparated
  /-- A character that opens no name. -/
  | unnamed
  /-- A name without an equals sign behind it. -/
  | unassigned
  /-- A value that opens with no quotation mark. -/
  | unquoted
  /-- A `<` in a value. -/
  | angle
  /-- A value whose quotation mark is never closed. -/
  | unterminated
  deriving DecidableEq, Repr

/-- What a message says about the fault. -/
def AttributeFault.reason : AttributeFault → String
  | .unseparated => "missing whitespace between attributes"
  | .unnamed => "attribute name must start with a letter, underscore, or colon"
  | .unassigned => "expected '=' after attribute name"
  | .unquoted => "attribute value must be quoted"
  | .angle => "'<' not allowed in attribute value"
  | .unterminated => "unterminated attribute value"

/-- Why markup could not be read. -/
inductive ReadError
  /-- The bytes are no UTF-8 from the offset on. -/
  | invalidUtf8 (offset : Nat)
  /-- The text ends inside the construct that begins at the offset. -/
  | unexpectedEnd (construct : Construct) (offset : Nat)
  /-- The construct that begins at the offset is not well-formed. -/
  | malformed (construct : Construct) (offset : Nat)
  /-- An attribute is not well-formed at the offset. -/
  | attribute (fault : AttributeFault) (offset : Nat)
  /-- The tag whose name ends at the offset has two attributes of one name. -/
  | duplicateAttribute (name : String) (offset : Nat)
  /-- The end tag at the offset does not name the element that it closes. -/
  | tagMismatch (opened closed : String) (offset : Nat)
  deriving DecidableEq, Repr

namespace ReadError

/-- The byte offset that an error is about. -/
def position : ReadError → Nat
  | .invalidUtf8 offset => offset
  | .unexpectedEnd _ offset => offset
  | .malformed _ offset => offset
  | .attribute _ offset => offset
  | .duplicateAttribute _ offset => offset
  | .tagMismatch _ _ offset => offset

/-- The words in which an error is reported. -/
def message : ReadError → String
  | .invalidUtf8 offset => s!"invalid UTF-8 at byte {offset}"
  | .unexpectedEnd construct offset =>
    s!"unexpected end of input in {construct.title} starting at byte {offset}"
  | .malformed construct offset => s!"malformed {construct.title} at byte {offset}"
  | .attribute fault offset => s!"malformed attribute at byte {offset}: {fault.reason}"
  | .duplicateAttribute name offset =>
    s!"duplicate attribute {Text.Quoted.text name} at byte {offset}"
  | .tagMismatch opened closed offset =>
    s!"element <{opened}> closed by </{closed}> at byte {offset}"

end ReadError

end MarkupQuery.Markup
