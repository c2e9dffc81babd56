import MarkupQuery.Text.Place

/-!
# Character references

A reference stands for one character: `&lt;`, `&gt;`, `&amp;`, `&quot;` and `&apos;` by name, or a
number between `&#` and `;`, decimal or, after `x` or `X`, hexadecimal. A number may carry a plus
sign and must be a Unicode scalar value. `decode` replaces the references of a text from left to
right. An ampersand that opens none is kept, and reading goes on right behind it, so unknown and
malformed references stay as they are written.
-/

namespace MarkupQuery.Text.Reference

/-- The five characters that have a name. -/
def named? : List Char → Option Char
  | ['l', 't'] => some '<'
  | ['g', 't'] => some '>'
  | ['a', 'm', 'p'] => some '&'
  | ['q', 'u', 'o', 't'] => some '"'
  | ['a', 'p', 'o', 's'] => some '\''
  | _ => none

/-- The value of a digit in the given radix, which is at most sixteen. -/
def digit? (radix : Nat) (c : Char) : Option Nat :=
  let value? :=
    if c.isDigit then some (c.toNat - '0'.toNat)
    else if 'a' ≤ c ∧ c ≤ 'f' then some (c.toNat - 'a'.toNat + 10)
    else if 'A' ≤ c ∧ c ≤ 'F' then some (c.toNat - 'A'.toNat + 10)
    else none
  value?.filter (· < radix)

/-- The number that a run of digits writes, carried on from `n`. -/
def numberFrom (radix : Nat) (n : Nat) : List Char → Option Nat
  | [] => some n
  | c :: cs => (digit? radix c).bind fun d => numberFrom radix (n * radix + d) cs

/-- The number that one or more digits write, after an optional plus sign. -/
def number? (radix : Nat) : List Char → Option Nat
  | [] => none
  | ['+'] => none
  | '+' :: digits => numberFrom radix 0 digits
  | digits => numberFrom radix 0 digits

/-- The character with the given number, which has to be a Unicode scalar value. -/
def scalar? (n : Nat) : Option Char :=
  if n.isValidChar then some (Char.ofNat n) else none

/-- The character that the text between `&` and `;` stands for. -/
def value? : List Char → Option Char
  | '#' :: 'x' :: digits => (number? 16 digits).bind scalar?
  | '#' :: 'X' :: digits => (number? 16 digits).bind scalar?
  | '#' :: digits => (number? 10 digits).bind scalar?
  | name => named? name

/-- The characters of which references are made: letters, digits, the number sign and the plus
sign. -/
def isBody (c : Char) : Bool :=
  c.isAlphanum || c == '#' || c == '+'

/-- The character for which the text behind an ampersand stands, and the text behind the
reference. -/
def read? (cs : List Char) : Option (Char × List Char) :=
  match cs.dropWhile isBody with
  | ';' :: rest => (value? (cs.takeWhile isBody)).map fun c => (c, rest)
  | _ => none

theorem length_of_read? {cs rest : List Char} {c : Char} (h : read? cs = some (c, rest)) :
    rest.length < cs.length := by
  unfold read? at h
  split at h
  · rename_i tail hdrop
    obtain ⟨_, -, hpair⟩ := Option.map_eq_some_iff.1 h
    simp only [Prod.mk.injEq] at hpair
    obtain ⟨-, rfl⟩ := hpair
    have hle := (List.dropWhile_suffix isBody (l := cs)).length_le
    rw [hdrop, List.length_cons] at hle
    omega
  · cases h

/-- Decode what is left of a text behind the part already decoded, which stands reversed. -/
def decodeOnto (done : List Char) : List Char → List Char
  | [] => done.reverse
  | c :: cs =>
    if c == '&' then
      match _h : read? cs with
      | some (r, rest) => decodeOnto (r :: done) rest
      | none => decodeOnto ('&' :: done) cs
    else
      decodeOnto (c :: done) cs
termination_by cs => cs.length
decreasing_by
  · have := length_of_read? _h
    simp only [List.length_cons]
    omega
  · simp
  · simp

/-- The text has no ampersand, so that it stands for itself. -/
def isPlain (cs : List Char) : Bool :=
  cs.all (· != '&')

/-- The characters of a text with every reference replaced by the character for which it stands.
A plain text is handed back as it is. -/
def decodeChars (cs : List Char) : List Char :=
  if isPlain cs then cs else decodeOnto [] cs

/-- The text with every reference replaced. -/
def decode (text : String) : String :=
  String.ofList (decodeChars text.toList)

end MarkupQuery.Text.Reference
