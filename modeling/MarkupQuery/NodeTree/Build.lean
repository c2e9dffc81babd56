import MarkupQuery.Markup.Reader
import MarkupQuery.Text.Utf8
import MarkupQuery.NodeTree.Builder

/-!
# Documents from tokens and from text

A document is built from any sequence of items, each a token or a failure of the source. Building
stops at the first failure and at the first end tag that closes nothing; if there is none, every
element has to be closed at the end. `Document.parse` builds from the items of a reader, and
`Document.parseBytes` first decodes the text.
-/

namespace MarkupQuery.NodeTree

open Markup

/-- Why no document was built; `ε` is what a failure of the source carries. -/
inductive BuildError (ε : Type)
  /-- The source failed. -/
  | source (failure : ε)
  /-- The token with this number, counted from zero, is an end tag that closes nothing. -/
  | unexpectedEndTag (token : Nat)
  /-- This many elements are still open behind the last token. -/
  | unclosedElements (count : Nat)
  deriving DecidableEq, Repr

namespace BuildError

/-- The tags do not balance; the source did not fail. -/
def isUnbalanced {ε : Type} : BuildError ε → Bool
  | .source _ => false
  | .unexpectedEndTag _ | .unclosedElements _ => true

/-- The words in which an error is reported; a failure of the source is reported as by `describe`.
-/
def message {ε : Type} (describe : ε → String) : BuildError ε → String
  | .source failure => describe failure
  | .unexpectedEndTag token =>
    s!"unbalanced input: end tag without a matching start tag (token {token})"
  | .unclosedElements count =>
    s!"unbalanced input: {count} element(s) still open at end of input"

end BuildError

namespace Builder

/-- Take all items, where `token` of them were taken before. -/
def takeAll {ε : Type} (b : Builder) (token : Nat) :
    List (Except ε Token) → Except (BuildError ε) Builder
  | [] => .ok b
  | .error failure :: _ => .error (.source failure)
  | .ok t :: rest =>
    match b.push t with
    | (true, b) => takeAll b (token + 1) rest
    | (false, _) => .error (.unexpectedEndTag token)

end Builder

namespace Document

/-- The document that a sequence of items describes. -/
def ofItems {ε : Type} (items : List (Except ε Token)) : Except (BuildError ε) Document :=
  match Builder.empty.takeAll 0 items with
  | .error e => .error e
  | .ok b =>
    match b.finish with
    | .ok d => .ok d
    | .error count => .error (.unclosedElements count)

/-- The document that a text describes, with a strict reader or a lenient one. -/
def parse (strict : Bool) (text : String) : Except (BuildError ReadError) Document :=
  ofItems (Reader.start strict text).items

/-- The document that the bytes of a text describe, with a lenient reader. -/
def parseBytes (bytes : ByteArray) : Except (BuildError ReadError) Document :=
  match Text.Utf8.decode bytes with
  | .ok text => parse false text
  | .error offset => .error (.source (.invalidUtf8 offset))

end Document

end MarkupQuery.NodeTree
