import MarkupQuery.Location.Step
import MarkupQuery.Text.Quoted

/-!
# Why a path cannot be compiled

The causes for which a text is no location path, each found at a byte offset of the text, and the
words in which it is reported.
-/

namespace MarkupQuery.Location

open Text

/-- What can be wrong with the text of a path. -/
inductive PathFault
  /-- A step without a name. -/
  | missingName
  /-- An at sign without a name behind it. -/
  | missingAttributeName
  /-- A single colon. -/
  | missingColon
  /-- A word in front of two colons that names no axis. -/
  | unknownAxis (word : String)
  /-- A word in front of a bracket that is no kind test. -/
  | unknownTest (word : String)
  /-- A kind test on an axis that has no nodes of that kind. -/
  | impossibleTest (word : String) (axis : Axis)
  /-- A quoted argument of a kind test that takes none. -/
  | unexpectedArgument (word : String)
  /-- An argument whose quotation mark is not closed. -/
  | missingQuote
  /-- A kind test whose bracket is not closed. -/
  | missingBracket
  /-- A character behind a step that is no slash. -/
  | missingSlash (found : Char)
  deriving DecidableEq, Repr

/-- What a message says about the fault. -/
def PathFault.cause : PathFault → String
  | .missingName => "missing name"
  | .missingAttributeName => "missing name after @"
  | .missingColon => "missing ':'"
  | .unknownAxis word => s!"unsupported axis: {Quoted.text word}"
  | .unknownTest word => s!"unsupported expression: {word}()"
  | .impossibleTest word axis => s!"{word}() cannot succeed on axis {Quoted.text axis.name}"
  | .unexpectedArgument word => s!"{word}() has no arguments"
  | .missingQuote => "missing \""
  | .missingBracket => "missing )"
  | .missingSlash found => s!"expected '/' but got {Quoted.char found}"

/-- A text that is no path. -/
structure CompileError where
  /-- The text. -/
  path : String
  /-- The byte offset at which reading it stopped. -/
  offset : Nat
  /-- Why it stopped there. -/
  fault : PathFault
  deriving DecidableEq, Repr

/-- The words in which an error is reported. -/
def CompileError.message (e : CompileError) : String :=
  s!"compiling path {Quoted.text e.path}: {e.offset}: {e.fault.cause}"

end MarkupQuery.Location
