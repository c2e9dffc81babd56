import MarkupQuery.Text.CharClass

/-!
# Places in a text

A place is a point between two characters of a text: it knows how many bytes of UTF-8 lie behind it
and which characters lie ahead. Readers of markup and of paths move from place to place, so every
offset that they report counts bytes and always falls between two characters.

Scans give the number of characters up to what they look for; `Place.forward` then moves there.
The main facts are that a place reached by reading further has no more text ahead than before
(`Place.length_rest_forward`, `Place.length_rest_span`).
-/

namespace MarkupQuery.Text

/-! ## Byte lengths -/

/-- The number of bytes that the characters take in UTF-8. -/
def byteLength (cs : List Char) : Nat :=
  cs.foldl (fun n c => n + c.utf8Size) 0

theorem foldl_utf8Size (cs : List Char) (n : Nat) :
    cs.foldl (fun n c => n + c.utf8Size) n = n + byteLength cs := by
  induction cs generalizing n with
  | nil => rfl
  | cons c cs ih =>
    rw [byteLength, List.foldl_cons, List.foldl_cons, ih, ih (0 + c.utf8Size)]
    omega

@[simp]
theorem byteLength_nil : byteLength [] = 0 := rfl

@[simp]
theorem byteLength_cons (c : Char) (cs : List Char) :
    byteLength (c :: cs) = c.utf8Size + byteLength cs := by
  rw [byteLength, List.foldl_cons, foldl_utf8Size, Nat.zero_add]

@[simp]
theorem byteLength_append (as bs : List Char) :
    byteLength (as ++ bs) = byteLength as + byteLength bs := by
  rw [byteLength, List.foldl_append, foldl_utf8Size, foldl_utf8Size, Nat.zero_add]

/-- What is left of a text once the given number of bytes has been passed. -/
def dropBytes : Nat → List Char → List Char
  | 0, cs => cs
  | _, [] => []
  | n + 1, c :: cs => dropBytes (n + 1 - c.utf8Size) cs

/-- The characters of a text that lie within the given number of bytes. -/
def takeBytes (n : Nat) (cs : List Char) : List Char :=
  cs.take (cs.length - (dropBytes n cs).length)

/-! ## Scans -/

/-- The number of characters before the first occurrence of `needle`, counted on from `n`. -/
def distanceFrom (needle : List Char) (n : Nat) : List Char → Option Nat
  | [] => if needle.isEmpty then some n else none
  | c :: cs => if needle.isPrefixOf (c :: cs) then some n else distanceFrom needle (n + 1) cs

/-- The number of characters before the first occurrence of `needle`. -/
def distanceTo? (needle cs : List Char) : Option Nat :=
  distanceFrom needle 0 cs

/-- The number of characters before the first `>` outside quotation marks, counted on from `n`.
`quote` is the mark that is open at the start, if any. -/
def tagEndFrom (quote : Option Char) (n : Nat) : List Char → Option Nat
  | [] => none
  | c :: cs =>
    match quote with
    | some q => tagEndFrom (if c == q then none else some q) (n + 1) cs
    | none =>
      if c == '>' then some n
      else tagEndFrom (if isQuote c then some c else none) (n + 1) cs

/-- The number of characters before the `>` that ends a tag: the first one that is not inside a
quoted literal. -/
def tagEnd? (cs : List Char) : Option Nat :=
  tagEndFrom none 0 cs

/-! ## Places -/

/-- A point in a text. -/
structure Place where
  /-- The number of bytes behind. -/
  offset : Nat
  /-- The characters ahead. -/
  rest : List Char
  deriving DecidableEq, Repr

namespace Place

/-- The place at the start of a text. -/
def start (text : String) : Place :=
  ⟨0, text.toList⟩

/-- Nothing lies ahead. -/
def atEnd (p : Place) : Bool :=
  p.rest.isEmpty

/-- The place `n` characters on, or the end of the text if it has fewer. -/
def forward (p : Place) (n : Nat) : Place :=
  ⟨p.offset + byteLength (p.rest.take n), p.rest.drop n⟩

/-- The longest run of characters of one class, and the place behind it. -/
def span (p : Place) (within : Char → Bool) : List Char × Place :=
  (p.rest.takeWhile within,
    ⟨p.offset + byteLength (p.rest.takeWhile within), p.rest.dropWhile within⟩)

/-- The text before the first occurrence of `needle`, and the place where it begins. -/
def upTo? (p : Place) (needle : List Char) : Option (List Char × Place) :=
  (distanceTo? needle p.rest).map fun n => (p.rest.take n, p.forward n)

/-- The text up to the end of a tag, and the place of the `>` that ends it. -/
def upToTagEnd? (p : Place) : Option (List Char × Place) :=
  (tagEnd? p.rest).map fun n => (p.rest.take n, p.forward n)

/-- The text ahead begins with `word`. -/
def startsWith (p : Place) (word : List Char) : Bool :=
  word.isPrefixOf p.rest

/-- The character ahead is `c`. -/
def sees (p : Place) (c : Char) : Bool :=
  p.rest.head? == some c

/-- The place behind the white space ahead. -/
def skipBlank (p : Place) : Place :=
  (p.span isBlank).2

/-- The name that begins here, and the place behind it. -/
def name? (p : Place) : Option (String × Place) :=
  if p.rest.head?.any isNameStart then
    some (String.ofList (p.span isNameChar).1, (p.span isNameChar).2)
  else
    none

/-! ## Reading further leaves less ahead -/

@[simp]
theorem rest_forward (p : Place) (n : Nat) : (p.forward n).rest = p.rest.drop n := rfl

@[simp]
theorem rest_span (p : Place) (within : Char → Bool) :
    (p.span within).2.rest = p.rest.dropWhile within := rfl

theorem length_rest_forward (p : Place) (n : Nat) :
    (p.forward n).rest.length = p.rest.length - n := by
  simp

theorem length_rest_span (p : Place) (within : Char → Bool) :
    (p.span within).2.rest.length ≤ p.rest.length := by
  rw [rest_span]
  exact (List.dropWhile_suffix within).length_le

theorem length_rest_skipBlank (p : Place) : p.skipBlank.rest.length ≤ p.rest.length :=
  p.length_rest_span isBlank

/-- A name takes at least one character. -/
theorem length_rest_of_name? {p q : Place} {name : String} (h : p.name? = some (name, q)) :
    q.rest.length < p.rest.length := by
  unfold name? at h
  split at h
  · rename_i hstart
    simp only [Option.some.injEq, Prod.mk.injEq] at h
    obtain ⟨-, rfl⟩ := h
    rw [rest_span]
    cases hrest : p.rest with
    | nil => simp [hrest] at hstart
    | cons c cs =>
      simp only [hrest, List.head?_cons, Option.any_some] at hstart
      rw [List.dropWhile_cons_of_pos (isNameChar_of_isNameStart hstart), List.length_cons]
      exact Nat.lt_succ_of_le (List.dropWhile_suffix isNameChar).length_le
  · cases h

end Place

end MarkupQuery.Text
