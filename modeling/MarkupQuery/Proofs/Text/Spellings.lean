import MarkupQuery.Proofs.Text.ByteCounts
import MarkupQuery.Proofs.Text.ReferenceSyntax

/-!
# Spellings of a text

A character can be written in many ways: as it is, unless it is an ampersand, by its name if it has
one, or by its number, in decimal or hexadecimal digits, with capitals or without, behind any number
of zeros (`Spells`). A text is spelled character by character, each in a way of its own (`Spelled`).

Whatever the spelling, decoding gives the text back, for every reference ends at its own semicolon
and what it stands for is not read again (`decode_of_spelled`). Texts that spell nothing are decoded
too, and decoding never makes a text longer.
-/

namespace MarkupQuery.Text.Reference

variable {cs written part : List Char} {c : Char}

/-- A way to write a character in a text. -/
inductive Spells : Char → List Char → Prop
  | literal {c : Char} (hc : c ≠ '&') : Spells c [c]
  | named {name : List Char} {c : Char} (h : (name, c) ∈ predefined) :
      Spells c ('&' :: name ++ [';'])
  | decimal (c : Char) (zeros : Nat) :
      Spells c ('&' :: '#' :: (List.replicate zeros '0' ++ Nat.toDigits 10 c.toNat) ++ [';'])
  | hexadecimal (c : Char) {x : Char} (hx : x = 'x' ∨ x = 'X') (zeros : Nat) {ds : List Char}
      (hds : List.Forall₂ EitherCase (Nat.toDigits 16 c.toNat) ds) :
      Spells c ('&' :: '#' :: x :: (List.replicate zeros '0' ++ ds) ++ [';'])

/-- A way to write a text: one for each of its characters. -/
inductive Spelled : List Char → List Char → Prop
  | nil : Spelled [] []
  | cons {c : Char} {cs part written : List Char} (hc : Spells c part) (hcs : Spelled cs written) :
      Spelled (c :: cs) (part ++ written)

/-- A character is spelled as it is, or by a well-formed reference. -/
theorem Spells.literal_or_wellFormed (h : Spells c part) :
    c ≠ '&' ∧ part = [c] ∨ ∃ body, part = '&' :: body ++ [';'] ∧ WellFormed body c := by
  have hvalid : c.toNat.isValidChar := c.valid
  cases h with
  | literal hc => exact .inl ⟨hc, rfl⟩
  | named h => exact .inr ⟨_, rfl, .named h⟩
  | decimal _ zeros =>
    have hdigits : List.Forall₂ EitherCase (Nat.toDigits 10 c.toNat) (Nat.toDigits 10 c.toNat) :=
      List.forall₂_same.2 fun _ _ => .inl rfl
    have hbody := WellFormed.decimal (numeral_of_toDigits (by decide) zeros hdigits) hvalid
    rw [Char.ofNat_toNat] at hbody
    exact .inr ⟨_, rfl, hbody⟩
  | hexadecimal _ hx zeros hds =>
    have hbody := WellFormed.hexadecimal hx (numeral_of_toDigits (by decide) zeros hds) hvalid
    rw [Char.ofNat_toNat] at hbody
    exact .inr ⟨_, rfl, hbody⟩

/-- What spells a character is decoded to it, whatever follows. -/
theorem Spells.decodeChars_append (h : Spells c part) (rest : List Char) :
    decodeChars (part ++ rest) = c :: decodeChars rest := by
  obtain ⟨hc, rfl⟩ | ⟨body, rfl, hbody⟩ := h.literal_or_wellFormed
  · exact decodeChars_plain hc rest
  · simpa using decodeChars_reference (read?_of_value? (value?_of_wellFormed hbody) rest)

theorem Spelled.decodeChars_eq (h : Spelled cs written) : decodeChars written = cs := by
  induction h with
  | nil => rfl
  | cons hc _ ih => rw [hc.decodeChars_append, ih]

/-- **Decoding undoes every spelling.** Whichever way each character of a text is written, decoding
gives the text back; and no text takes more bytes when it is decoded. -/
theorem decode_of_spelled :
    (∀ text written : String, Spelled text.toList written.toList → decode written = text) ∧
    ∀ text : String, (decode text).utf8ByteSize ≤ text.utf8ByteSize := by
  constructor
  · intro text written h
    rw [decode, h.decodeChars_eq, String.ofList_toList]
  · intro text
    rw [decode, utf8ByteSize_ofList, ← byteLength_toList text]
    exact byteLength_decodeChars_le text.toList

/-- What is decoded is not read again: the ampersand is spelled by its number, and what follows it
looks like a reference only when it is decoded. -/
theorem decode_of_spelled_ampersand :
    Spelled "&#65;é".toList "&#038;#6&#x035;;&#X0E9;".toList ∧
    decode "&#038;#6&#x035;;&#X0E9;" = "&#65;é" ∧
    (decode "&#038;#6&#x035;;&#X0E9;").utf8ByteSize ≤ "&#038;#6&#x035;;&#X0E9;".utf8ByteSize := by
  have hfive : List.Forall₂ EitherCase (Nat.toDigits 16 '5'.toNat) "35".toList :=
    .cons (.inl rfl) (.cons (.inl rfl) .nil)
  have haccent : List.Forall₂ EitherCase (Nat.toDigits 16 'é'.toNat) "E9".toList :=
    .cons (.inr rfl) (.cons (.inl rfl) .nil)
  have h : Spelled "&#65;é".toList "&#038;#6&#x035;;&#X0E9;".toList :=
    .cons (.decimal '&' 1) (.cons (.literal (by decide)) (.cons (.literal (by decide))
      (.cons (.hexadecimal '5' (.inl rfl) 1 hfive) (.cons (.literal (by decide))
        (.cons (.hexadecimal 'é' (.inr rfl) 1 haccent) .nil)))))
  exact ⟨h, decode_of_spelled.1 _ _ h, decode_of_spelled.2 _⟩

end MarkupQuery.Text.Reference
