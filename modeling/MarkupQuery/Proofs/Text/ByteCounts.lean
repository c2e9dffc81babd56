import Mathlib.Algebra.BigOperators.Group.List.Basic
import Mathlib.Algebra.GroupWithZero.Nat
import MarkupQuery.Proofs.Text.Decoding
import MarkupQuery.Proofs.Text.Passing

/-!
# Counting bytes

What texts take in UTF-8, one by one and together (`bytesOf`). A reference is written with at least
four characters, and no character takes more than four bytes, so a text never gets longer when its
references are replaced (`byteLength_decodeChars_le`).
-/

namespace MarkupQuery.Text

theorem byteLength_reverse (cs : List Char) : byteLength cs.reverse = byteLength cs := by
  induction cs with
  | nil => rfl
  | cons c cs ih =>
    rw [List.reverse_cons, byteLength_append, ih, byteLength_cons, byteLength_cons, byteLength_nil]
    omega

/-! ## Many strings -/

/-- The number of bytes of some strings. -/
def bytesOf (strings : List String) : Nat :=
  (strings.map String.utf8ByteSize).sum

section BytesOf

variable {strings rest : List String} {s : String}

@[simp]
theorem bytesOf_nil : bytesOf [] = 0 := rfl

@[simp]
theorem bytesOf_cons (s : String) (strings : List String) :
    bytesOf (s :: strings) = s.utf8ByteSize + bytesOf strings :=
  List.sum_cons

@[simp]
theorem bytesOf_append (as bs : List String) : bytesOf (as ++ bs) = bytesOf as + bytesOf bs := by
  rw [bytesOf, List.map_append, List.sum_append]
  rfl

theorem utf8ByteSize_pos (hs : s ≠ "") : 0 < s.utf8ByteSize :=
  Nat.pos_of_ne_zero fun hzero => hs (String.utf8ByteSize_eq_zero_iff.1 hzero)

/-- Strings that are not empty take a byte each. -/
theorem length_le_bytesOf (h : "" ∉ strings) : strings.length ≤ bytesOf strings := by
  induction strings with
  | nil => exact Nat.le_refl 0
  | cons s strings ih =>
    rw [List.mem_cons, not_or] at h
    have := utf8ByteSize_pos (Ne.symm h.1)
    have := ih h.2
    rw [List.length_cons, bytesOf_cons]
    omega

theorem bytesOf_le_of_sublist (h : strings.Sublist rest) : bytesOf strings ≤ bytesOf rest := by
  induction h with
  | slnil => exact Nat.le_refl 0
  | cons s _ ih => exact Nat.le_trans ih (Nat.le_add_left _ _)
  | cons_cons s _ ih => exact Nat.add_le_add_left ih _

/-- Strings without repetitions that are all among others take no more bytes than those. -/
theorem bytesOf_le_of_subset (hnodup : strings.Nodup) (h : strings ⊆ rest) :
    bytesOf strings ≤ bytesOf rest := by
  obtain ⟨middle, hperm, hsub⟩ := List.subperm_of_subset hnodup h
  calc bytesOf strings = bytesOf middle := ((hperm.map _).sum_eq).symm
    _ ≤ bytesOf rest := bytesOf_le_of_sublist hsub

end BytesOf

/-! ## Decoding -/

namespace Reference

variable {cs rest : List Char} {c : Char}

/-- Between the ampersand and the semicolon there are two characters at least. -/
theorem two_le_length_of_value? (h : value? cs = some c) : 2 ≤ cs.length := by
  match cs with
  | [] => cases h
  | [a] =>
    rw [value?.eq_def] at h
    split at h
    · rename_i heq
      cases heq
    · rename_i heq
      cases heq
    · rename_i heq
      obtain ⟨-, rfl⟩ := List.cons.inj heq
      cases h
    · rw [named?.eq_def] at h
      split at h <;> simp_all
  | _ :: _ :: rest => exact Nat.le_add_left 2 rest.length

/-- A reference has the characters of its body, a semicolon, and what comes behind it. -/
theorem read?_eq_some_iff : read? cs = some (c, rest) ↔
    cs.dropWhile isBody = ';' :: rest ∧ value? (cs.takeWhile isBody) = some c := by
  rw [read?]
  split
  · rename_i tail hdrop
    rw [hdrop, Option.map_eq_some_iff]
    constructor
    · rintro ⟨r, hr, heq⟩
      obtain ⟨rfl, rfl⟩ := Prod.mk.inj heq
      exact ⟨rfl, hr⟩
    · rintro ⟨htail, hc⟩
      exact ⟨c, hc, by rw [(List.cons.inj htail).2]⟩
  · rename_i hne
    exact ⟨nofun, fun h => absurd h.1 (hne rest)⟩

theorem byteLength_of_read? (h : read? cs = some (c, rest)) :
    c.utf8Size + byteLength rest ≤ byteLength ('&' :: cs) := by
  obtain ⟨hdrop, hvalue⟩ := read?_eq_some_iff.1 h
  have hbody := length_le_byteLength (cs.takeWhile isBody)
  have htwo := two_le_length_of_value? hvalue
  have hfour := c.utf8Size_le_four
  have hamp : '&'.utf8Size = 1 := rfl
  have hsemicolon : ';'.utf8Size = 1 := rfl
  rw [← List.takeWhile_append_dropWhile (p := isBody) (l := cs), hdrop, byteLength_cons,
    byteLength_append, byteLength_cons, hamp, hsemicolon]
  omega

theorem byteLength_decodeOnto_le (done cs : List Char) :
    byteLength (decodeOnto done cs) ≤ byteLength done + byteLength cs := by
  fun_induction decodeOnto done cs with
  | case1 done =>
    rw [byteLength_reverse]
    exact Nat.le_add_right _ _
  | case2 done c cs hc r rest hread ih =>
    have := byteLength_of_read? hread
    rw [beq_iff_eq.1 hc]
    rw [byteLength_cons] at ih
    omega
  | case3 done c cs hc hread ih =>
    rw [beq_iff_eq.1 hc]
    rw [byteLength_cons] at ih ⊢
    omega
  | case4 done c cs hc ih =>
    rw [byteLength_cons] at ih ⊢
    omega

/-- Decoding adds no bytes. -/
theorem byteLength_decodeChars_le (cs : List Char) :
    byteLength (decodeChars cs) ≤ byteLength cs := by
  rw [decodeChars_eq]
  simpa using byteLength_decodeOnto_le [] cs

end Reference

end MarkupQuery.Text
