import MarkupQuery.Text.Hidden

/-!
# Quoted text in messages

Messages quote names and characters so that everything in them shows. The enclosing quotation mark
and the backslash are escaped by a backslash; NUL, tab, line feed and carriage return have a letter;
any other character that does not show is written as its number in lower-case hexadecimal; all other
characters stand for themselves.
-/

namespace MarkupQuery.Text.Quoted

/-- A character as its number: a backslash, the letter u, and the hexadecimal digits in braces. -/
def escapeNumber (c : Char) : List Char :=
  ['\\', 'u', '\x7b'] ++ Nat.toDigits 16 c.toNat ++ ['\x7d']

/-- A character inside the quotation marks `quote`. -/
def escapeChar (quote : Char) (c : Char) : List Char :=
  if c == quote || c == '\\' then ['\\', c]
  else if c == '\x00' then ['\\', '0']
  else if c == '\t' then ['\\', 't']
  else if c == '\n' then ['\\', 'n']
  else if c == '\r' then ['\\', 'r']
  else if Hidden.isHidden c then escapeNumber c
  else [c]

/-- A text between quotation marks. -/
def text (s : String) : String :=
  String.ofList ('"' :: s.toList.flatMap (escapeChar '"') ++ ['"'])

/-- A single character between apostrophes. -/
def char (c : Char) : String :=
  String.ofList ('\'' :: escapeChar '\'' c ++ ['\''])

end MarkupQuery.Text.Quoted
