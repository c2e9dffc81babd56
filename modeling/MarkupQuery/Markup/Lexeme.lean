import MarkupQuery.Markup.RawAttribute

/-!
# Lexemes: markup as it is written

A lexeme is one construct of the text before names are expanded and tags are matched. `Lexeme.next`
reads the lexeme at a place, behind any document type declarations, and gives the place where
reading goes on. A failed read also gives a place, which lies as far on as the construct could be
followed. Nothing here depends on what was read before.
-/

namespace MarkupQuery.Markup

open Text

/-! ## Telling constructs apart -/

namespace Construct

/-- The characters with which a construct opens. -/
def opener : Construct → List Char
  | .characterData => []
  | .comment => ['<', '!', '-', '-']
  | .cdata => ['<', '!', '[', 'C', 'D', 'A', 'T', 'A', '[']
  | .doctype => ['<', '!', 'D', 'O', 'C', 'T', 'Y', 'P', 'E']
  | .instruction => ['<', '?']
  | .endTag => ['<', '/']
  | .declaration => ['<', '!']
  | .startTag => ['<']

/-- The constructs that have an opener, each before those whose opener begins its own. -/
def ordered : List Construct :=
  [.comment, .cdata, .doctype, .instruction, .endTag, .declaration, .startTag]

/-- The construct that begins a text: the first whose opener does, or text up to the next tag. -/
def starting (cs : List Char) : Construct :=
  (ordered.find? fun construct => construct.opener.isPrefixOf cs).getD .characterData

end Construct

/-! ## Document type declarations -/

/-- The number of characters before the `>` that ends a document type declaration, counted on from
`n`: the first one outside quotation marks and outside brackets. `quote` is the mark that is open
and `depth` the number of open brackets. -/
def doctypeEndFrom (quote : Option Char) (depth n : Nat) : List Char → Option Nat
  | [] => none
  | c :: cs =>
    match quote with
    | some q => doctypeEndFrom (if c == q then none else some q) depth (n + 1) cs
    | none =>
      if isQuote c then doctypeEndFrom (some c) depth (n + 1) cs
      else if c == '[' then doctypeEndFrom none (depth + 1) (n + 1) cs
      else if c == ']' then doctypeEndFrom none (depth - 1) (n + 1) cs
      else if c == '>' && depth == 0 then some n
      else doctypeEndFrom none depth (n + 1) cs

/-- The place behind the document type declaration that begins here. -/
def doctypeEnd? (p : Place) : Option Place :=
  let body := p.forward Construct.doctype.opener.length
  (doctypeEndFrom none 0 0 body.rest).map fun n => body.forward (n + 1)

/-! ## Lexemes -/

/-- One construct of markup, with names as they are written. -/
inductive Lexeme
  /-- A start tag; `closes` if it ends with `/>`. Reading goes back to `afterName` if the tag is
  refused. -/
  | startTag (name : String) (attributes : List RawAttribute) (closes : Bool) (afterName : Place)
  /-- An end tag that begins at an offset. -/
  | endTag (name : String) (offset : Nat)
  /-- Text, decoded, or the content of a CDATA section as it is written. -/
  | text (content : String)
  /-- The content of a comment. -/
  | comment (content : String)
  /-- A processing instruction. -/
  | instruction (target content : String)
  deriving DecidableEq, Repr

namespace Lexeme

/-- Text up to the next tag, or up to the end. -/
def readText (p : Place) : Except ReadError Lexeme × Place :=
  let (content, stop) := p.span fun c => c != '<'
  (.ok (.text (String.ofList (Reference.decodeChars content))), stop)

/-- A comment. -/
def readComment (p : Place) : Except ReadError Lexeme × Place :=
  let body := p.forward Construct.comment.opener.length
  match body.upTo? ['-', '-', '>'] with
  | none => (.error (.unexpectedEnd .comment p.offset), body)
  | some (content, stop) => (.ok (.comment (String.ofList content)), stop.forward 3)

/-- A CDATA section. -/
def readCdata (p : Place) : Except ReadError Lexeme × Place :=
  let body := p.forward Construct.cdata.opener.length
  match body.upTo? [']', ']', '>'] with
  | none => (.error (.unexpectedEnd .cdata p.offset), body)
  | some (content, stop) => (.ok (.text (String.ofList content)), stop.forward 3)

/-- A processing instruction: a target, and behind white space its content. -/
def readInstruction (p : Place) : Except ReadError Lexeme × Place :=
  let body := p.forward Construct.instruction.opener.length
  match body.name? with
  | none => (.error (.malformed .instruction p.offset), body)
  | some (target, afterName) =>
    match afterName.upTo? ['?', '>'] with
    | none => (.error (.unexpectedEnd .instruction p.offset), afterName)
    | some (content, stop) =>
      if content.head?.all isBlank then
        (.ok (.instruction target (String.ofList (content.dropWhile isBlank))), stop.forward 2)
      else (.error (.malformed .instruction p.offset), stop.forward 2)

/-- An end tag: a name, and behind white space its end. -/
def readEndTag (p : Place) : Except ReadError Lexeme × Place :=
  let body := p.forward Construct.endTag.opener.length
  match body.name? with
  | none => (.error (.malformed .endTag p.offset), body)
  | some (name, afterName) =>
    let stop := afterName.skipBlank
    if stop.sees '>' then (.ok (.endTag name p.offset), stop.forward 1)
    else if stop.atEnd then (.error (.unexpectedEnd .endTag p.offset), stop)
    else (.error (.malformed .endTag p.offset), stop)

/-- The text between the name and the end of a start tag without the slash that may end it, and
whether there was one. -/
def splitSlash (inner : List Char) : List Char × Bool :=
  if inner.getLast? == some '/' then (inner.dropLast, true) else (inner, false)

/-- A start tag: a name, then attributes up to the first `>` outside quotation marks, or up to a
slash in front of it. -/
def readStartTag (p : Place) : Except ReadError Lexeme × Place :=
  let body := p.forward Construct.startTag.opener.length
  match body.name? with
  | none => (.error (.malformed .startTag p.offset), body)
  | some (name, afterName) =>
    match afterName.upToTagEnd? with
    | none => (.error (.unexpectedEnd .startTag p.offset), afterName)
    | some (inner, stop) =>
      let (list, closes) := splitSlash inner
      match RawAttribute.parse afterName.offset list with
      | .error e => (.error e, afterName)
      | .ok attributes => (.ok (.startTag name attributes closes afterName), stop.forward 1)

/-- The lexeme that begins at a place with text ahead, document type declarations apart. -/
def read (construct : Construct) (p : Place) : Except ReadError Lexeme × Place :=
  match construct with
  | .characterData => readText p
  | .comment => readComment p
  | .cdata => readCdata p
  | .instruction => readInstruction p
  | .endTag => readEndTag p
  | .startTag => readStartTag p
  | .declaration | .doctype => (.error (.malformed construct p.offset), p)

theorem length_rest_of_doctypeEnd? {p q : Place} (hp : p.atEnd = false)
    (h : doctypeEnd? p = some q) : q.rest.length < p.rest.length := by
  unfold doctypeEnd? at h
  obtain ⟨n, -, rfl⟩ := Option.map_eq_some_iff.1 h
  have : p.rest ≠ [] := by simpa [Place.atEnd] using hp
  have := List.length_pos_iff.2 this
  simp only [Place.length_rest_forward]
  omega

/-- The next lexeme, if the text has one. Document type declarations are passed over. -/
def next (p : Place) : Except ReadError (Option Lexeme) × Place :=
  match _hp : p.atEnd with
  | true => (.ok none, p)
  | false =>
    match Construct.starting p.rest with
    | .doctype =>
      match _hq : doctypeEnd? p with
      | none => (.error (.unexpectedEnd .doctype p.offset), p)
      | some q => next q
    | construct =>
      match read construct p with
      | (.error e, q) => (.error e, q)
      | (.ok lexeme, q) => (.ok (some lexeme), q)
termination_by p.rest.length
decreasing_by exact length_rest_of_doctypeEnd? _hp _hq

end Lexeme

end MarkupQuery.Markup
