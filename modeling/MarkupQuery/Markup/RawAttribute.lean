import MarkupQuery.Markup.Error
import MarkupQuery.Text.Reference

/-!
# Attributes as they are written

The text between the name of a start tag and its end is a list of attributes. Each is a name, an
equals sign with or without white space around it, and a value between quotation marks of one kind
that holds neither that mark nor `<`. White space stands between two attributes. References in
values are decoded. Names are kept as they are written, and repeated names are kept too.
-/

namespace MarkupQuery.Markup

open Text

/-- An attribute with its name as it is written and its value decoded. -/
structure RawAttribute where
  /-- The name, with the colon that may be in it. -/
  name : String
  /-- The value, with its references decoded. -/
  value : String
  deriving DecidableEq, Repr

namespace RawAttribute

/-- The value that begins at a quotation mark, and the place behind the mark that closes it. -/
def readValue (p : Place) : Except ReadError (String × Place) :=
  match p.rest with
  | quote :: _ =>
    if isQuote quote then
      let (value, stop) := (p.forward 1).span fun c => !(c == quote || c == '<')
      match stop.rest with
      | [] => .error (.attribute .unterminated p.offset)
      | c :: _ =>
        if c == quote then .ok (String.ofList (Reference.decodeChars value), stop.forward 1)
        else .error (.attribute .angle stop.offset)
    else .error (.attribute .unquoted p.offset)
  | [] => .error (.attribute .unquoted p.offset)

/-- The attribute that begins at a place, and the place behind it. -/
def read (p : Place) : Except ReadError (RawAttribute × Place) :=
  match p.name? with
  | none => .error (.attribute .unnamed p.offset)
  | some (name, afterName) =>
    let sign := afterName.skipBlank
    if sign.sees '=' then
      match readValue (sign.forward 1).skipBlank with
      | .error e => .error e
      | .ok (value, next) => .ok (⟨name, value⟩, next)
    else .error (.attribute .unassigned sign.offset)

theorem length_rest_of_readValue {p q : Place} {value : String}
    (h : readValue p = .ok (value, q)) : q.rest.length ≤ p.rest.length := by
  unfold readValue at h
  split at h
  · rename_i quote _ _
    split at h
    · dsimp only at h
      split at h
      · cases h
      · split at h
        · simp only [Except.ok.injEq, Prod.mk.injEq] at h
          obtain ⟨-, rfl⟩ := h
          have h₁ := (p.forward 1).length_rest_span fun c => !(c == quote || c == '<')
          have h₂ := p.length_rest_forward 1
          rw [Place.length_rest_forward]
          omega
        · cases h
    · cases h
  · cases h

/-- An attribute takes at least one character. -/
theorem length_rest_of_read {p q : Place} {a : RawAttribute} (h : read p = .ok (a, q)) :
    q.rest.length < p.rest.length := by
  unfold read at h
  split at h
  · cases h
  · rename_i name afterName hname
    dsimp only at h
    split at h
    · split at h
      · cases h
      · rename_i value next hvalue
        simp only [Except.ok.injEq, Prod.mk.injEq] at h
        obtain ⟨-, rfl⟩ := h
        have h₁ := Place.length_rest_of_name? hname
        have h₂ := afterName.length_rest_skipBlank
        have h₃ := (afterName.skipBlank.forward 1).length_rest_skipBlank
        have h₄ := length_rest_of_readValue hvalue
        have h₅ := afterName.skipBlank.length_rest_forward 1
        omega
    · cases h

/-- The attributes from a place on, behind those already read, which stand reversed. -/
def readList (done : List RawAttribute) (p : Place) : Except ReadError (List RawAttribute) :=
  if p.skipBlank.atEnd then .ok done.reverse
  else if !done.isEmpty && !p.rest.head?.any isBlank then
    .error (.attribute .unseparated p.offset)
  else
    match _h : read p.skipBlank with
    | .error e => .error e
    | .ok (a, next) => readList (a :: done) next
termination_by p.rest.length
decreasing_by
  exact Nat.lt_of_lt_of_le (length_rest_of_read _h) p.length_rest_skipBlank

/-- The attributes that a text lists, where `base` bytes lie before the text. -/
def parse (base : Nat) (text : List Char) : Except ReadError (List RawAttribute) :=
  readList [] ⟨base, text⟩

/-- The first name that an attribute shares with one before it. -/
def repeated? : List RawAttribute → Option String :=
  go []
where
  /-- The first name that is among `seen` or shared with one before it. -/
  go (seen : List String) : List RawAttribute → Option String
    | [] => none
    | a :: rest => if seen.contains a.name then some a.name else go (a.name :: seen) rest

end RawAttribute

end MarkupQuery.Markup
