import Mathlib.Data.Nat.Basic
import MarkupQuery.NodeTree.StringPool

/-!
# Strings that stay

The text buffer and the buffer of the string pool only grow at their ends, so a text that lies in
one of them lies there for good. `Span.Holds` says that a span covers a text, and `StringPool.Names`
that a number stands for a string.

The main statement, `StringPool.names_internBy`, is that interning a string gives a number which
names it, and that all numbers keep the strings they name. It holds for every hash function, as long
as the buffer is short enough for offsets of 32 bits.
-/

namespace MarkupQuery.NodeTree

/-! ## Texts in a buffer -/

/-- The bytes of a text lie in a buffer from `first` on. -/
def LiesAt (buffer : ByteArray) (first : Nat) (s : String) : Prop :=
  ∃ before after, buffer = before ++ s.toUTF8 ++ after ∧ before.size = first

section LiesAt

variable {buffer : ByteArray} {first last : Nat} {s : String}

theorem liesAt_append (buffer : ByteArray) (s : String) :
    LiesAt (buffer ++ s.toUTF8) buffer.size s :=
  ⟨buffer, ByteArray.empty, by simp, rfl⟩

theorem LiesAt.append (h : LiesAt buffer first s) (more : ByteArray) :
    LiesAt (buffer ++ more) first s := by
  obtain ⟨before, after, rfl, hfirst⟩ := h
  exact ⟨before, after ++ more, by simp only [ByteArray.append_assoc], hfirst⟩

theorem LiesAt.le_size (h : LiesAt buffer first s) : first + s.utf8ByteSize ≤ buffer.size := by
  obtain ⟨before, after, rfl, rfl⟩ := h
  simp only [ByteArray.size_append, String.toUTF8_eq_toByteArray, String.size_toByteArray]
  omega

theorem fromUTF8?_toUTF8 (s : String) : String.fromUTF8? s.toUTF8 = some s := by
  unfold String.fromUTF8?
  rw [String.toUTF8_eq_toByteArray, dif_pos s.isValidUTF8]
  rfl

theorem toUTF8_of_fromUTF8? (h : String.fromUTF8? buffer = some s) : s.toUTF8 = buffer := by
  unfold String.fromUTF8? at h
  split at h
  · rw [← Option.some.inj h]
    rfl
  · cases h

theorem LiesAt.textBetween_eq (h : LiesAt buffer first s) :
    textBetween buffer first (first + s.utf8ByteSize) = s := by
  rw [textBetween, if_pos h.le_size]
  obtain ⟨before, after, rfl, rfl⟩ := h
  have hextract : (before ++ s.toUTF8 ++ after).extract before.size
      (before.size + s.utf8ByteSize) = s.toUTF8 := by
    have hskip := ByteArray.extract_append_size_add (a := before) (b := s.toUTF8 ++ after)
      (i := 0) (j := s.utf8ByteSize)
    rw [Nat.add_zero] at hskip
    rw [ByteArray.append_assoc, hskip]
    exact ByteArray.extract_append_eq_left rfl
  rw [hextract, fromUTF8?_toUTF8]
  rfl

/-- A text that is not empty is read only where its bytes lie. -/
theorem liesAt_of_textBetween (h : textBetween buffer first last = s) (hs : s ≠ "") :
    LiesAt buffer first s ∧ last = first + s.utf8ByteSize := by
  unfold textBetween at h
  split at h
  · rename_i hlast
    cases hread : String.fromUTF8? (buffer.extract first last) with
    | none => exact absurd (by rw [← h, hread]; rfl) hs
    | some t =>
      obtain rfl : t = s := by rw [← h, hread]; rfl
      have hbytes := toUTF8_of_fromUTF8? hread
      have hsize : t.utf8ByteSize = last - first := by
        rw [← String.size_toByteArray, ← String.toUTF8_eq_toByteArray, hbytes,
          ByteArray.size_extract]
        omega
      have hpos : t.utf8ByteSize ≠ 0 := fun hzero => hs (String.utf8ByteSize_eq_zero_iff.1 hzero)
      refine ⟨⟨buffer.extract 0 first, buffer.extract last buffer.size, ?_, ?_⟩, by omega⟩
      · rw [hbytes, ← ByteArray.extract_eq_extract_append_extract first (by omega) (by omega),
          ← ByteArray.extract_eq_extract_append_extract last (by omega) hlast,
          ByteArray.extract_zero_size]
      · rw [ByteArray.size_extract]
        omega
  · exact absurd h.symm hs

end LiesAt

/-! ## Spans -/

namespace Span

/-- A span covers a text of a buffer. -/
structure Holds (span : Span) (buffer : ByteArray) (s : String) : Prop where
  lies : LiesAt buffer span.offset.toNat s
  length_eq : span.length.toNat = s.utf8ByteSize

variable {span : Span} {buffer : ByteArray} {s : String}

theorem Holds.append (h : span.Holds buffer s) (more : ByteArray) :
    span.Holds (buffer ++ more) s :=
  ⟨h.lies.append more, h.length_eq⟩

theorem holds_empty (buffer : ByteArray) : Span.empty.Holds buffer "" :=
  ⟨⟨ByteArray.empty, buffer, by simp, rfl⟩, rfl⟩

/-- The span of a text that is put behind a buffer covers it, if the offsets are exact. -/
theorem holds_append (buffer : ByteArray) (s : String)
    (hsize : (Span.append buffer s).2.size < UInt32.size) :
    (Span.append buffer s).1.Holds (Span.append buffer s).2 s := by
  simp only [Span.append, ByteArray.size_append, String.toUTF8_eq_toByteArray,
    String.size_toByteArray] at hsize
  have hoffset : buffer.size.toUInt32.toNat = buffer.size :=
    UInt32.toNat_ofNat_of_lt' (by omega)
  have hlength : s.utf8ByteSize.toUInt32.toNat = s.utf8ByteSize :=
    UInt32.toNat_ofNat_of_lt' (by omega)
  exact ⟨hoffset.symm ▸ liesAt_append buffer s, hlength⟩

theorem Holds.slice_eq (h : span.Holds buffer s) (hsize : buffer.size < UInt32.size) :
    span.slice buffer = s := by
  have hle := h.lies.le_size
  have hlength := h.length_eq
  have hstop : span.stop.toNat = span.offset.toNat + s.utf8ByteSize := by
    rw [stop, hlength, Nat.min_eq_left (by omega)]
    exact UInt32.toNat_ofNat_of_lt' (by omega)
  rw [slice, hstop]
  exact h.lies.textBetween_eq

theorem append_snd (buffer : ByteArray) (s : String) :
    (Span.append buffer s).2 = buffer ++ s.toUTF8 :=
  rfl

end Span

/-! ## Numbers of strings -/

namespace StringPool

/-- A number of the pool stands for a string. -/
def Names (p : StringPool) (id : UInt32) (s : String) : Prop :=
  ∃ entry, p.entries[id.toNat]? = some entry ∧ entry.Holds p.data s

/-- The strings of a pool that was made by interning: number 0 is the empty string, and no other
number came without a byte. -/
structure Sound (p : StringPool) : Prop where
  names_zero : p.Names 0 ""
  size_le : p.entries.size ≤ p.data.size + 1

/-- Every string keeps its number. -/
def Extends (p q : StringPool) : Prop :=
  ∀ ⦃id : UInt32⦄ ⦃s : String⦄, p.Names id s → q.Names id s

variable {p : StringPool} {id : UInt32} {s : String}

theorem Extends.refl (p : StringPool) : p.Extends p :=
  fun _ _ h => h

theorem Names.get_eq (h : p.Names id s) : p.get id = s := by
  obtain ⟨entry, hentry, hholds⟩ := h
  rw [get, hentry]
  dsimp only
  rw [hholds.length_eq]
  exact hholds.lies.textBetween_eq

/-- A number that reads as a string which is not empty names it. -/
theorem names_of_get_eq (h : p.get id = s) (hs : s ≠ "") : p.Names id s := by
  unfold get at h
  split at h
  · rename_i entry hentry
    obtain ⟨hlies, hlast⟩ := liesAt_of_textBetween h hs
    exact ⟨entry, hentry, hlies, by omega⟩
  · exact absurd h.symm hs

theorem Sound.eq_zero_iff (h : p.Sound) (hid : p.Names id s) (hs : s = "" → id = 0) :
    id = 0 ↔ s = "" := by
  refine ⟨?_, hs⟩
  rintro rfl
  rw [← hid.get_eq, h.names_zero.get_eq]

/-- A pool without its index reads as before. -/
theorem extends_freeze (p : StringPool) : p.Extends p.freeze :=
  fun _ _ h => h

theorem Sound.freeze (h : p.Sound) : p.freeze.Sound :=
  ⟨h.names_zero, h.size_le⟩

theorem sound_empty : StringPool.empty.Sound :=
  ⟨⟨Span.empty, rfl, Span.holds_empty _⟩, by simp [empty]⟩

/-- Interning adds at most the bytes of the string. -/
theorem size_data_internBy (hash : String → UInt64) (p : StringPool) (s : String) :
    p.data.size ≤ (p.internBy hash s).2.data.size ∧
      (p.internBy hash s).2.data.size ≤ p.data.size + s.utf8ByteSize := by
  unfold internBy
  split
  · exact ⟨Nat.le_refl _, Nat.le_add_right _ _⟩
  · dsimp only
    split
    · exact ⟨Nat.le_refl _, Nat.le_add_right _ _⟩
    · simp [Span.append]

/-- What interning makes of a pool: the number names the string, and it is 0 for the empty string
only; the pool stays sound, and every string keeps its number. -/
structure Interned (p : StringPool) (s : String) (id : UInt32) (q : StringPool) : Prop where
  sound : q.Sound
  names : q.Names id s
  eq_zero : s = "" → id = 0
  extend : p.Extends q

theorem names_internBy (hash : String → UInt64) (h : p.Sound) (s : String)
    (hsize : (p.internBy hash s).2.data.size < UInt32.size) :
    p.Interned s (p.internBy hash s).1 (p.internBy hash s).2 := by
  unfold internBy at hsize ⊢
  split
  · rename_i hempty
    obtain rfl := String.isEmpty_iff.1 hempty
    exact ⟨h, h.names_zero, fun _ => rfl, .refl p⟩
  · rename_i hempty
    have hs : s ≠ "" := fun heq => hempty (String.isEmpty_iff.2 heq)
    rw [if_neg hempty] at hsize
    dsimp only at hsize ⊢
    cases hfind : (p.index.getD (hash s) []).find? fun id => p.get id == s with
    | some id =>
      have hget : p.get id = s := by simpa using List.find?_some hfind
      exact ⟨h, names_of_get_eq hget hs, fun heq => absurd heq hs, .refl p⟩
    | none =>
      rw [hfind] at hsize
      dsimp only at hsize ⊢
      have hnew := Span.holds_append p.data s hsize
      rw [Span.append_snd, ByteArray.size_append, String.toUTF8_eq_toByteArray,
        String.size_toByteArray] at hsize
      have hpos : s.utf8ByteSize ≠ 0 := fun hzero => hs (String.utf8ByteSize_eq_zero_iff.1 hzero)
      have hle := h.size_le
      have hid : p.entries.size.toUInt32.toNat = p.entries.size :=
        UInt32.toNat_ofNat_of_lt' (by omega)
      -- a number that was handed out before has its entry in front of the new one
      have hextend : ∀ ⦃id : UInt32⦄ ⦃t : String⦄, p.Names id t →
          ∃ entry, (p.entries.push (Span.append p.data s).1)[id.toNat]? = some entry ∧
            entry.Holds (Span.append p.data s).2 t := by
        rintro id t ⟨entry, hentry, hholds⟩
        have hlt := (Array.getElem?_eq_some_iff.1 hentry).1
        refine ⟨entry, ?_, hholds.append _⟩
        rw [Array.getElem?_push, if_neg (by omega), hentry]
      refine ⟨⟨hextend h.names_zero, ?_⟩, ⟨_, ?_, hnew⟩, fun heq => absurd heq hs, hextend⟩
      · rw [Span.append_snd]
        simp only [Array.size_push, ByteArray.size_append, String.toUTF8_eq_toByteArray,
          String.size_toByteArray]
        omega
      · rw [hid, Array.getElem?_push, if_pos rfl]

end StringPool

end MarkupQuery.NodeTree
