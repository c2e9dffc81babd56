/-!
# Character classes of markup

The three classes that every reader of markup text asks about: white space, characters that may
open a name, and characters that may continue one. All classes are decided on ASCII; every
character beyond ASCII may stand anywhere in a name, so a name never ends inside a character that
takes several bytes.
-/

namespace MarkupQuery.Text

/-- White space of markup: space, tab, line feed and carriage return. -/
def isBlank (c : Char) : Bool :=
  c == ' ' || c == '\t' || c == '\n' || c == '\r'

/-- A character that may open a name: an ASCII letter, underscore, colon, or anything beyond
ASCII. -/
def isNameStart (c : Char) : Bool :=
  c.isAlpha || c == '_' || c == ':' || 0x80 ≤ c.toNat

/-- A character that may continue a name: one that may open it, an ASCII digit, a hyphen or a
full stop. -/
def isNameChar (c : Char) : Bool :=
  isNameStart c || c.isDigit || c == '-' || c == '.'

/-- Either quotation mark. -/
def isQuote (c : Char) : Bool :=
  c == '"' || c == '\''

theorem isNameChar_of_isNameStart {c : Char} (h : isNameStart c = true) : isNameChar c = true := by
  simp [isNameChar, h]

end MarkupQuery.Text
