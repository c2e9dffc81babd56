import MarkupQuery.Proofs.Text.Decoding
import Mathlib.Tactic.SplitIfs

/-!
# Escaping

A text is escaped by writing references in place of the characters that markup would take for
something else: ampersands and `<`, and between quotation marks also `"`. Escaping leaves none of
these characters but the ampersands of its own references (`angle_not_mem_escape`,
`quote_not_mem_escape`), and decoding the references gives the text back (`decodeChars_escape`).
-/

namespace MarkupQuery.Text.Reference

/-- What is written for a character in a text, or in a value between quotation marks. -/
def escapeChar (quoted : Bool) (c : Char) : List Char :=
  if c = '&' then ['&', 'a', 'm', 'p', ';']
  else if c = '<' then ['&', 'l', 't', ';']
  else if quoted ∧ c = '"' then ['&', 'q', 'u', 'o', 't', ';']
  else [c]

/-- What is written for a text, or for a value between quotation marks. -/
def escape (quoted : Bool) (cs : List Char) : List Char :=
  cs.flatMap (escapeChar quoted)

variable {quoted : Bool} {cs : List Char}

theorem escape_cons (quoted : Bool) (c : Char) (cs : List Char) :
    escape quoted (c :: cs) = escapeChar quoted c ++ escape quoted cs :=
  List.flatMap_cons ..

/-- A text without marks is written as it is. -/
theorem escape_eq_self (h : ∀ c ∈ cs, c ≠ '&' ∧ c ≠ '<' ∧ c ≠ '"') : escape quoted cs = cs := by
  induction cs with
  | nil => rfl
  | cons c cs ih =>
    obtain ⟨hamp, hangle, hquote⟩ := h c (List.mem_cons_self ..)
    rw [escape_cons, escapeChar, if_neg hamp, if_neg hangle, if_neg fun hc => hquote hc.2,
      ih fun c hc => h c (List.mem_cons_of_mem _ hc), List.singleton_append]

/-! ## Decoding what was escaped -/

theorem decodeChars_escapeChar (quoted : Bool) (c : Char) (rest : List Char) :
    decodeChars (escapeChar quoted c ++ rest) = c :: decodeChars rest := by
  unfold escapeChar
  split_ifs with hamp hangle hquote
  · rw [hamp]
    exact decodeChars_reference rfl
  · rw [hangle]
    exact decodeChars_reference rfl
  · rw [hquote.2]
    exact decodeChars_reference rfl
  · exact decodeChars_plain hamp rest

/-- Decoding undoes escaping. -/
theorem decodeChars_escape (quoted : Bool) (cs : List Char) :
    decodeChars (escape quoted cs) = cs := by
  induction cs with
  | nil => rfl
  | cons c cs ih => rw [escape_cons, decodeChars_escapeChar, ih]

/-! ## What is written -/

theorem angle_not_mem_escape (quoted : Bool) (cs : List Char) : '<' ∉ escape quoted cs := by
  intro h
  obtain ⟨c, -, h⟩ := List.mem_flatMap.1 h
  unfold escapeChar at h
  split_ifs at h with hamp hangle
  · exact absurd h (by decide)
  · exact absurd h (by decide)
  · exact absurd h (by decide)
  · exact hangle (List.mem_singleton.1 h).symm

theorem quote_not_mem_escape (cs : List Char) : '"' ∉ escape true cs := by
  intro h
  obtain ⟨c, -, h⟩ := List.mem_flatMap.1 h
  unfold escapeChar at h
  split_ifs at h with hamp hangle hquote
  · exact absurd h (by decide)
  · exact absurd h (by decide)
  · exact absurd h (by decide)
  · exact hquote ⟨rfl, (List.mem_singleton.1 h).symm⟩

theorem utf8Size_le_byteLength_escapeChar (quoted : Bool) (c : Char) :
    c.utf8Size ≤ byteLength (escapeChar quoted c) := by
  unfold escapeChar
  split_ifs with hamp hangle hquote
  · rw [hamp]
    decide
  · rw [hangle]
    decide
  · rw [hquote.2]
    decide
  · simp

/-- Escaping takes no bytes away. -/
theorem byteLength_le_escape (quoted : Bool) (cs : List Char) :
    byteLength cs ≤ byteLength (escape quoted cs) := by
  induction cs with
  | nil => exact Nat.le_refl _
  | cons c cs ih =>
    have := utf8Size_le_byteLength_escapeChar quoted c
    rw [escape_cons, byteLength_cons, byteLength_append]
    omega

theorem escape_ne_nil (h : cs ≠ []) : escape quoted cs ≠ [] := by
  intro hnil
  have hle := byteLength_le_escape quoted cs
  obtain ⟨c, cs, rfl⟩ := List.exists_cons_of_ne_nil h
  have := c.utf8Size_pos
  rw [hnil, byteLength_cons, byteLength_nil] at hle
  omega

end MarkupQuery.Text.Reference
