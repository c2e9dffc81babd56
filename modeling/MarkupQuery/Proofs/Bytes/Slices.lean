import MarkupQuery.Proofs.Bytes.Encoding

/-!
# Slices of a text

Access to a text by byte offsets can go wrong: a slice has no meaning if its ends are out of order,
out of range or inside a character, and neither has a byte beyond the end. Here each access has an
answer only if it is in place, and `none` stands for all that is not.

`Stands text base i p` ties an offset `i` to a place `p`: the text ahead of the place is what is
left of the text behind `i` bytes. From an offset that stands at a place every slice up to a place
further on is in place (`Stands.slice?_eq`), and so are the bytes ahead (`Stands.bytesFrom?_eq`).
-/

namespace MarkupQuery.Text

/-! ## Access by offsets -/

/-- The text in front of a byte offset and the text behind it, if the offset is in range and not
inside a character. -/
def cutAt? : Nat → List Char → Option (List Char × List Char)
  | 0, cs => some ([], cs)
  | _ + 1, [] => none
  | i + 1, c :: cs =>
    if c.utf8Size ≤ i + 1 then
      (cutAt? (i + 1 - c.utf8Size) cs).map fun (before, after) => (c :: before, after)
    else none

/-- The text between two byte offsets, if they are in order, in range and not inside characters. -/
def slice? (first last : Nat) (text : List Char) : Option (List Char) :=
  if first ≤ last then
    (cutAt? last text).bind fun (front, _) => (cutAt? first front).map Prod.snd
  else none

/-- The bytes from an offset on, if it is in range. -/
def bytesFrom? (i : Nat) (text : List Char) : Option (List UInt8) :=
  if i ≤ (encode text).length then some ((encode text).drop i) else none

/-- The place at an offset. -/
def placeAt (text : List Char) (i : Nat) : Place :=
  ⟨i, dropBytes i text⟩

/-- The offset behind the bytes of a class that lie ahead. -/
def skipWhile (onBytes : UInt8 → Bool) (text : List Char) (i : Nat) : Nat :=
  i + (((encode text).drop i).takeWhile onBytes).length

variable {text before after cs : List Char} {first last i base : Nat} {p q : Place}

theorem cutAt?_eq_some_iff :
    cutAt? i text = some (before, after) ↔ text = before ++ after ∧ byteLength before = i := by
  fun_induction cutAt? i text generalizing before with
  | case1 text =>
    constructor
    · intro h
      obtain ⟨rfl, rfl⟩ := Prod.mk.inj (Option.some.inj h)
      exact ⟨rfl, rfl⟩
    · rintro ⟨rfl, hbefore⟩
      have := length_le_byteLength before
      obtain rfl : before = [] := List.length_eq_zero_iff.1 (by omega)
      rfl
  | case2 i =>
    refine ⟨nofun, fun ⟨htext, hbefore⟩ => ?_⟩
    obtain ⟨rfl, -⟩ := List.append_eq_nil_iff.1 htext.symm
    cases hbefore
  | case3 i c cs hc ih =>
    constructor
    · intro h
      obtain ⟨⟨front, rest⟩, hcut, hpair⟩ := Option.map_eq_some_iff.1 h
      obtain ⟨rfl, rfl⟩ := Prod.mk.inj hpair
      obtain ⟨rfl, hbytes⟩ := ih.1 hcut
      exact ⟨rfl, by rw [byteLength_cons, hbytes]; omega⟩
    · rintro ⟨htext, hbefore⟩
      cases before with
      | nil => cases hbefore
      | cons d front =>
        obtain ⟨rfl, rfl⟩ := List.cons.inj htext
        rw [byteLength_cons] at hbefore
        rw [ih.2 ⟨rfl, by omega⟩]
        rfl
  | case4 i c cs hc =>
    refine ⟨nofun, fun ⟨htext, hbefore⟩ => ?_⟩
    cases before with
    | nil => cases hbefore
    | cons d front =>
      obtain ⟨rfl, rfl⟩ := List.cons.inj htext
      rw [byteLength_cons] at hbefore
      omega

/-- A slice is in place if the text falls into three parts at its ends. -/
theorem slice?_eq_some_iff : slice? first last text = some cs ↔
    ∃ before after, text = before ++ cs ++ after ∧ byteLength before = first ∧
      byteLength (before ++ cs) = last := by
  unfold slice?
  constructor
  · intro h
    split at h
    · obtain ⟨⟨front, after⟩, hlast, h⟩ := Option.bind_eq_some_iff.1 h
      obtain ⟨⟨before, cs⟩, hfirst, rfl⟩ := Option.map_eq_some_iff.1 h
      obtain ⟨rfl, hlastBytes⟩ := cutAt?_eq_some_iff.1 hlast
      obtain ⟨rfl, hfirstBytes⟩ := cutAt?_eq_some_iff.1 hfirst
      exact ⟨before, after, rfl, hfirstBytes, hlastBytes⟩
    · cases h
  · rintro ⟨before, after, rfl, rfl, rfl⟩
    have hle : byteLength before ≤ byteLength (before ++ cs) := by
      rw [byteLength_append]
      exact Nat.le_add_right _ _
    rw [if_pos hle, cutAt?_eq_some_iff.2 ⟨rfl, rfl⟩, Option.bind_some]
    dsimp only
    rw [cutAt?_eq_some_iff.2 ⟨rfl, rfl⟩]
    rfl

theorem length_of_bytesFrom? {ahead : List UInt8} (h : bytesFrom? i text = some ahead) :
    ahead.length = (encode text).length - i := by
  unfold bytesFrom? at h
  split at h
  · rw [← Option.some.inj h, List.length_drop]
  · cases h

theorem drop_encode (before after : List Char) :
    (encode (before ++ after)).drop (byteLength before) = encode after := by
  rw [encode_append, ← length_encode, List.drop_left]

theorem dropBytes_append (before after : List Char) :
    dropBytes (byteLength before) (before ++ after) = after := by
  induction before with
  | nil => cases after <;> rfl
  | cons c before ih =>
    obtain ⟨n, hn⟩ := Nat.exists_eq_add_of_lt c.utf8Size_pos
    have hsucc : c.utf8Size + byteLength before = (n + byteLength before) + 1 := by omega
    rw [byteLength_cons, List.cons_append, hsucc, dropBytes, ← hsucc, Nat.add_sub_cancel_left, ih]

/-! ## Offsets at places -/

/-- The place `p` is where `i` bytes of the text, which itself begins at the offset `base`, lie
behind. -/
structure Stands (text : List Char) (base i : Nat) (p : Place) : Prop where
  exists_before : ∃ before, text = before ++ p.rest ∧ byteLength before = i
  offset_eq : p.offset = base + i

theorem stands_start (base : Nat) (text : List Char) : Stands text base 0 ⟨base, text⟩ :=
  ⟨⟨[], rfl, rfl⟩, rfl⟩

namespace Stands

theorem passes (h : Stands text base i p) (hpass : p.Passes cs q) :
    Stands text base (i + byteLength cs) q := by
  obtain ⟨before, rfl, rfl⟩ := h.exists_before
  refine ⟨⟨before ++ cs, ?_, byteLength_append ..⟩, ?_⟩
  · rw [hpass.rest_eq, List.append_assoc]
  · rw [hpass.offset_eq, h.offset_eq, Nat.add_assoc]

/-- An ASCII character is one byte further on. -/
theorem step {c : Char} (h : Stands text base i p) (hc : IsAscii c) (hsees : p.sees c = true) :
    Stands text base (i + 1) (p.forward 1) := by
  have hone : byteLength [c] = 1 := by
    rw [byteLength_cons, utf8Size_of_isAscii hc, byteLength_nil]
  have hq := h.passes (Place.passes_forward hsees)
  rwa [hone] at hq

theorem add_byteLength (h : Stands text base i p) :
    i + byteLength p.rest = (encode text).length := by
  obtain ⟨before, htext, rfl⟩ := h.exists_before
  rw [length_encode, htext, byteLength_append]

theorem drop_eq (h : Stands text base i p) : (encode text).drop i = encode p.rest := by
  obtain ⟨before, htext, rfl⟩ := h.exists_before
  rw [htext, drop_encode]

theorem bytesFrom?_eq (h : Stands text base i p) : bytesFrom? i text = some (encode p.rest) := by
  rw [bytesFrom?, if_pos (h.add_byteLength ▸ Nat.le_add_right _ _), h.drop_eq]

theorem getElem?_eq (h : Stands text base i p) : (encode text)[i]? = (encode p.rest).head? := by
  rw [← h.drop_eq, List.head?_drop]

theorem slice?_eq (h : Stands text base i p) (hpass : p.Passes cs q) :
    slice? i (i + byteLength cs) text = some cs := by
  obtain ⟨before, htext, rfl⟩ := h.exists_before
  refine slice?_eq_some_iff.2 ⟨before, q.rest, ?_, rfl, byteLength_append ..⟩
  rw [htext, hpass.rest_eq, List.append_assoc]

/-- Nothing lies ahead of an offset that is not less than the length. -/
theorem atEnd_iff (h : Stands text base i p) :
    (encode text).length ≤ i ↔ p.atEnd = true := by
  have hlength := h.add_byteLength
  rw [Place.atEnd, List.isEmpty_iff]
  constructor
  · intro hle
    have := length_le_byteLength p.rest
    exact List.length_eq_zero_iff.1 (by omega)
  · intro hnil
    rw [hnil, byteLength_nil] at hlength
    omega

theorem skipWhile_eq {onBytes : UInt8 → Bool} {onChars : Char → Bool}
    (h : Stands text base i p) (hagrees : Agrees onBytes onChars) :
    skipWhile onBytes text i = i + byteLength (p.span onChars).1 := by
  rw [skipWhile, h.drop_eq, hagrees.takeWhile_encode, length_encode]
  rfl

/-- The offset behind a run of bytes stands at the place behind the run of characters. -/
theorem skipWhile {onBytes : UInt8 → Bool} {onChars : Char → Bool} (h : Stands text base i p)
    (hagrees : Agrees onBytes onChars) :
    Stands text base (skipWhile onBytes text i) (p.span onChars).2 := by
  rw [h.skipWhile_eq hagrees]
  exact h.passes (p.passes_span onChars)

/-- The offset stays where it is if nothing of the class lies ahead. -/
theorem skipWhile_beq {onBytes : UInt8 → Bool} {onChars : Char → Bool} (h : Stands text base i p)
    (hagrees : Agrees onBytes onChars) :
    (Text.skipWhile onBytes text i == i) = !p.rest.head?.any onChars := by
  rw [h.skipWhile_eq hagrees, Place.span]
  cases hp : p.rest with
  | nil => simp
  | cons c cs =>
    have hpos := c.utf8Size_pos
    by_cases hc : onChars c = true
    · simp only [List.takeWhile_cons_of_pos hc, byteLength_cons, List.head?_cons, Option.any_some,
        hc, Bool.not_true, beq_eq_false_iff_ne]
      omega
    · simp [List.takeWhile_cons_of_neg hc, hc]

theorem slice?_skipWhile {onBytes : UInt8 → Bool} {onChars : Char → Bool}
    (h : Stands text base i p) (hagrees : Agrees onBytes onChars) :
    slice? i (Text.skipWhile onBytes text i) text = some (p.span onChars).1 := by
  rw [h.skipWhile_eq hagrees]
  exact h.slice?_eq (p.passes_span onChars)

theorem offset (h : Stands text 0 i p) : p.offset = i :=
  h.offset_eq.trans (Nat.zero_add i)

/-- An offset stands at one place only. -/
theorem eq_placeAt (h : Stands text 0 i p) : p = placeAt text i := by
  obtain ⟨before, rfl, rfl⟩ := h.exists_before
  rw [placeAt, dropBytes_append]
  exact congrArg (Place.mk · p.rest) h.offset

end Stands

end MarkupQuery.Text
