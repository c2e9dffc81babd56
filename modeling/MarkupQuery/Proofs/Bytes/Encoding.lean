import MarkupQuery.Proofs.Text.Covering

/-!
# Texts as bytes

A scan over the bytes of a text finds the same places as a scan over its characters, because all
that scans stop at is ASCII: no byte of a longer character is an ASCII byte. `Agrees` says that a
class of bytes tells whole characters apart, so that taking bytes of the class is taking characters
(`Agrees.takeWhile_encode`, `Agrees.findIdx?_encode`). A sequence of ASCII bytes begins only where
the characters do (`findSeq_encode`).
-/

namespace MarkupQuery.Text

/-- The bytes of a text in UTF-8. -/
def encode (cs : List Char) : List UInt8 :=
  cs.flatMap String.utf8EncodeChar

variable {c : Char} {cs as bs needle : List Char} {b : UInt8}

@[simp]
theorem encode_nil : encode [] = [] := rfl

@[simp]
theorem encode_cons (c : Char) (cs : List Char) :
    encode (c :: cs) = String.utf8EncodeChar c ++ encode cs :=
  List.flatMap_cons

@[simp]
theorem encode_append (as bs : List Char) : encode (as ++ bs) = encode as ++ encode bs :=
  List.flatMap_append

theorem length_encode (cs : List Char) : (encode cs).length = byteLength cs := by
  induction cs with
  | nil => rfl
  | cons c cs ih =>
    rw [encode_cons, List.length_append, String.length_utf8EncodeChar, ih, byteLength_cons]

/-! ## ASCII -/

/-- The character takes one byte. -/
def IsAscii (c : Char) : Prop :=
  c.toNat < 0x80

instance (c : Char) : Decidable (IsAscii c) :=
  inferInstanceAs (Decidable (c.toNat < 0x80))

theorem isAscii_of_all (h : cs.all (fun c => decide (IsAscii c)) = true) : ∀ c ∈ cs, IsAscii c :=
  fun c hc => of_decide_eq_true (List.all_eq_true.1 h c hc)

theorem toNat_toUInt8 (h : IsAscii c) : c.toUInt8.toNat = c.toNat :=
  Nat.mod_eq_of_lt (Nat.lt_trans h (by decide))

theorem toUInt8_inj {d : Char} (hc : IsAscii c) (hd : IsAscii d) :
    c.toUInt8 = d.toUInt8 ↔ c = d := by
  rw [← UInt8.toNat_inj, toNat_toUInt8 hc, toNat_toUInt8 hd, Char.toNat_inj]

theorem toUInt8_beq {d : Char} (hc : IsAscii c) (hd : IsAscii d) :
    (c.toUInt8 == d.toUInt8) = (c == d) := by
  rw [Bool.eq_iff_iff, beq_iff_eq, beq_iff_eq, toUInt8_inj hc hd]

theorem utf8EncodeChar_of_isAscii (h : IsAscii c) : String.utf8EncodeChar c = [c.toUInt8] := by
  have hval : c.val.toNat ≤ 127 := Nat.le_of_lt_succ h
  rw [String.utf8EncodeChar.eq_1, if_pos hval]
  rfl

theorem utf8Size_of_isAscii (h : IsAscii c) : c.utf8Size = 1 := by
  rw [← String.length_utf8EncodeChar, utf8EncodeChar_of_isAscii h, List.length_singleton]

/-- No byte of a longer character is an ASCII byte. -/
theorem le_of_mem_utf8EncodeChar (h : ¬ IsAscii c) (hb : b ∈ String.utf8EncodeChar c) :
    0x80 ≤ b.toNat := by
  have hval : ¬ c.val.toNat ≤ 127 := fun hle => h (Nat.lt_succ_of_le hle)
  have hlead {n k m : Nat} (hlt : n < m) (hle : 0x80 ≤ k) (hsum : m + k ≤ 256) :
      0x80 ≤ (UInt8.ofNat (n + k)).toNat := by
    rw [UInt8.toNat_ofNat']
    omega
  rw [String.utf8EncodeChar.eq_1, if_neg hval] at hb
  split at hb
  · rcases List.mem_cons.1 hb with rfl | hb
    · exact hlead (Nat.mod_lt _ (by decide : 0 < 32)) (by decide) (by decide)
    · rw [List.mem_singleton.1 hb]
      exact hlead (Nat.mod_lt _ (by decide : 0 < 64)) (by decide) (by decide)
  · split at hb
    · rcases List.mem_cons.1 hb with rfl | hb
      · exact hlead (Nat.mod_lt _ (by decide : 0 < 16)) (by decide) (by decide)
      · simp only [List.mem_cons, List.not_mem_nil, or_false] at hb
        rcases hb with rfl | rfl <;>
          exact hlead (Nat.mod_lt _ (by decide : 0 < 64)) (by decide) (by decide)
    · rcases List.mem_cons.1 hb with rfl | hb
      · exact hlead (Nat.mod_lt _ (by decide : 0 < 8)) (by decide) (by decide)
      · simp only [List.mem_cons, List.not_mem_nil, or_false] at hb
        rcases hb with rfl | rfl | rfl <;>
          exact hlead (Nat.mod_lt _ (by decide : 0 < 64)) (by decide) (by decide)

/-! ## Classes of bytes -/

/-- The bytes of a character are in a class if the character is in another. -/
def Agrees (onBytes : UInt8 → Bool) (onChars : Char → Bool) : Prop :=
  ∀ c, ∀ b ∈ String.utf8EncodeChar c, onBytes b = onChars c

namespace Agrees

variable {onBytes onBytes' : UInt8 → Bool} {onChars onChars' : Char → Bool}

/-- Classes agree if they do so on ASCII and each has all or nothing of the rest. -/
theorem of_ascii (onRest : Bool) (hascii : ∀ n < 0x80, onBytes n.toUInt8 = onChars (Char.ofNat n))
    (hbytes : ∀ n < 0x100, 0x80 ≤ n → onBytes n.toUInt8 = onRest)
    (hchars : ∀ c, 0x80 ≤ Char.toNat c → onChars c = onRest) : Agrees onBytes onChars := by
  intro c b hb
  by_cases hc : IsAscii c
  · rw [utf8EncodeChar_of_isAscii hc, List.mem_singleton] at hb
    rw [hb]
    have h := hascii c.toNat hc
    rwa [Char.ofNat_toNat] at h
  · have h := hbytes b.toNat b.toNat_lt (le_of_mem_utf8EncodeChar hc hb)
    rw [hchars c (Nat.le_of_not_lt hc), ← h]
    congr 1
    exact (UInt8.ofNat_toNat).symm

/-- An ASCII character is told by its byte. -/
theorem beq {x : Char} (hx : IsAscii x) : Agrees (· == x.toUInt8) (· == x) := by
  intro c b hb
  rw [Bool.eq_iff_iff, beq_iff_eq, beq_iff_eq]
  by_cases hc : IsAscii c
  · rw [utf8EncodeChar_of_isAscii hc, List.mem_singleton] at hb
    rw [hb, toUInt8_inj hc hx]
  · have hle := le_of_mem_utf8EncodeChar hc hb
    have hlt : x.toUInt8.toNat < 0x80 := (toNat_toUInt8 hx).symm ▸ hx
    constructor
    · rintro rfl
      omega
    · rintro rfl
      exact absurd hx hc

theorem or (h : Agrees onBytes onChars) (h' : Agrees onBytes' onChars') :
    Agrees (fun b => onBytes b || onBytes' b) (fun c => onChars c || onChars' c) := by
  intro c b hb
  dsimp only
  rw [h c b hb, h' c b hb]

/-- The first byte of a character is in the class if the character is. -/
theorem exists_cons (h : Agrees onBytes onChars) (c : Char) :
    ∃ b bs, String.utf8EncodeChar c = b :: bs ∧ onBytes b = onChars c := by
  obtain ⟨b, bs, hbs⟩ := List.exists_cons_of_ne_nil (String.utf8EncodeChar_ne_nil (c := c))
  exact ⟨b, bs, hbs, h c b (hbs ▸ List.mem_cons_self ..)⟩

theorem takeWhile_encode (h : Agrees onBytes onChars) (cs : List Char) :
    (encode cs).takeWhile onBytes = encode (cs.takeWhile onChars) := by
  induction cs with
  | nil => rfl
  | cons c cs ih =>
    by_cases hc : onChars c = true
    · rw [List.takeWhile_cons_of_pos hc, encode_cons, encode_cons, ← ih]
      exact List.takeWhile_append_of_pos fun b hb => (h c b hb).trans hc
    · obtain ⟨b, bs, hbs, hb⟩ := h.exists_cons c
      rw [List.takeWhile_cons_of_neg hc, encode_cons, hbs, List.cons_append,
        List.takeWhile_cons_of_neg (hb ▸ hc), encode_nil]

theorem findIdx?_encode_of_forall (h : Agrees onBytes onChars)
    (hcs : ∀ c ∈ cs, onChars c = false) : (encode cs).findIdx? onBytes = none := by
  refine List.findIdx?_eq_none_iff.2 fun b hb => ?_
  obtain ⟨c, hc, hb⟩ := List.mem_flatMap.1 hb
  exact (h c b hb).trans (hcs c hc)

/-- The first byte of a class is the first byte of the first character of the class. -/
theorem findIdx?_encode (h : Agrees onBytes onChars) (hcs : ∀ c ∈ cs, onChars c = false)
    (hc : onChars c = true) (rest : List Char) :
    (encode (cs ++ c :: rest)).findIdx? onBytes = some (byteLength cs) := by
  obtain ⟨b, bs, hbs, hb⟩ := h.exists_cons c
  rw [encode_append, encode_cons, hbs, List.cons_append, List.findIdx?_append,
    h.findIdx?_encode_of_forall hcs, Option.none_or, List.findIdx?_cons, if_pos (hb.trans hc),
    Option.map_some, length_encode, Nat.zero_add]

end Agrees

theorem forall_beq_eq_false {x : Char} (h : x ∉ cs) : ∀ c ∈ cs, (c == x) = false :=
  fun _ hc => beq_false_of_ne (ne_of_mem_of_not_mem hc h)

/-- A text is cut at the first character of a class. -/
theorem exists_first {onChars : Char → Bool} (h : ¬ ∀ c ∈ cs, onChars c = false) :
    ∃ as c bs, cs = as ++ c :: bs ∧ (∀ a ∈ as, onChars a = false) ∧ onChars c = true := by
  induction cs with
  | nil => simp at h
  | cons c cs ih =>
    by_cases hc : onChars c = true
    · exact ⟨[], c, cs, rfl, by simp, hc⟩
    · have hc : onChars c = false := by simpa using hc
      obtain ⟨as, d, bs, rfl, has, hd⟩ := ih fun hcs => h (List.forall_mem_cons.2 ⟨hc, hcs⟩)
      exact ⟨c :: as, d, bs, rfl, List.forall_mem_cons.2 ⟨hc, has⟩, hd⟩

/-! ## Sequences of bytes -/

/-- The bytes of a sequence of ASCII characters. -/
def asciiBytes (needle : List Char) : List UInt8 :=
  needle.map Char.toUInt8

/-- Where a sequence of bytes first occurs. -/
def findSeq (needle : List UInt8) : List UInt8 → Option Nat
  | [] => if needle.isEmpty then some 0 else none
  | b :: bs => if needle.isPrefixOf (b :: bs) then some 0 else (findSeq needle bs).map (· + 1)

theorem isPrefixOf_encode (hneedle : ∀ c ∈ needle, IsAscii c) (cs : List Char) :
    (asciiBytes needle).isPrefixOf (encode cs) = needle.isPrefixOf cs := by
  induction needle generalizing cs with
  | nil => cases h : encode cs <;> cases cs <;> rfl
  | cons x needle ih =>
    obtain ⟨hx, hneedle⟩ := List.forall_mem_cons.1 hneedle
    cases cs with
    | nil => rfl
    | cons c cs =>
      rw [asciiBytes, List.map_cons, List.isPrefixOf, encode_cons]
      by_cases hc : IsAscii c
      · rw [utf8EncodeChar_of_isAscii hc, List.singleton_append, List.isPrefixOf]
        congr 1
        · exact toUInt8_beq hx hc
        · exact ih hneedle cs
      · obtain ⟨b, bs, hbs⟩ := List.exists_cons_of_ne_nil (String.utf8EncodeChar_ne_nil (c := c))
        have hle := le_of_mem_utf8EncodeChar hc (hbs ▸ List.mem_cons_self ..)
        have hne : ¬ x.toUInt8 = b := by
          rintro rfl
          exact Nat.lt_irrefl _ (Nat.lt_of_le_of_lt hle ((toNat_toUInt8 hx).symm ▸ hx))
        have hne' : ¬ x = c := by
          rintro rfl
          exact hc hx
        rw [hbs, List.cons_append, List.isPrefixOf, beq_false_of_ne hne, beq_false_of_ne hne',
          Bool.false_and, Bool.false_and]

/-- A sequence that begins with an ASCII byte does not begin inside a longer character. -/
theorem findSeq_append {bytes rest tail : List UInt8} {first : UInt8}
    (hbytes : ∀ b ∈ bytes, b ≠ first) :
    findSeq (first :: tail) (bytes ++ rest) =
      (findSeq (first :: tail) rest).map (· + bytes.length) := by
  induction bytes with
  | nil => simp
  | cons b bytes ih =>
    obtain ⟨hb, hbytes⟩ := List.forall_mem_cons.1 hbytes
    have hnot : ¬ (first :: tail).isPrefixOf (b :: (bytes ++ rest)) = true := by
      rw [List.isPrefixOf, beq_false_of_ne (Ne.symm hb), Bool.false_and]
      exact Bool.false_ne_true
    rw [List.cons_append, findSeq, if_neg hnot, ih hbytes, Option.map_map, List.length_cons]
    rfl

/-- Where the needle does not begin, its bytes do not begin in the first character. -/
theorem findSeq_encode_cons {x : Char} (hneedle : ∀ c ∈ x :: needle, IsAscii c)
    (hnot : ¬ (x :: needle).isPrefixOf (c :: cs) = true) :
    findSeq (asciiBytes (x :: needle)) (encode (c :: cs)) =
      (findSeq (asciiBytes (x :: needle)) (encode cs)).map (· + c.utf8Size) := by
  have hbegins := isPrefixOf_encode hneedle (c :: cs)
  rw [encode_cons] at hbegins ⊢
  by_cases hc : IsAscii c
  · rw [utf8EncodeChar_of_isAscii hc, List.singleton_append] at hbegins ⊢
    rw [findSeq, if_neg (hbegins ▸ hnot), utf8Size_of_isAscii hc]
  · obtain ⟨hx, -⟩ := List.forall_mem_cons.1 hneedle
    have hne : ∀ b ∈ String.utf8EncodeChar c, b ≠ x.toUInt8 := by
      rintro b hb rfl
      have hle := le_of_mem_utf8EncodeChar hc hb
      exact Nat.lt_irrefl _ (Nat.lt_of_le_of_lt hle ((toNat_toUInt8 hx).symm ▸ hx))
    rw [asciiBytes, List.map_cons, findSeq_append hne, String.length_utf8EncodeChar]

/-- Where the bytes of a needle first occur is where the needle does. -/
theorem findSeq_encode {x : Char} (hneedle : ∀ c ∈ x :: needle, IsAscii c) (before cs : List Char) :
    (findSeq (asciiBytes (x :: needle)) (encode cs)).map (byteLength before + ·) =
      (distanceFrom (x :: needle) before.length cs).map fun n =>
        byteLength ((before ++ cs).take n) := by
  induction cs generalizing before with
  | nil => rfl
  | cons c cs ih =>
    by_cases hprefix : (x :: needle).isPrefixOf (c :: cs) = true
    · have hfind : findSeq (asciiBytes (x :: needle)) (encode (c :: cs)) = some 0 := by
        have hbegins := isPrefixOf_encode hneedle (c :: cs)
        obtain ⟨b, bs, hbs⟩ := List.exists_cons_of_ne_nil (String.utf8EncodeChar_ne_nil (c := c))
        rw [encode_cons, hbs, List.cons_append] at hbegins ⊢
        rw [findSeq, if_pos (hbegins.trans hprefix)]
      rw [hfind, distanceFrom, if_pos hprefix, Option.map_some, Option.map_some, List.take_left,
        Nat.add_zero]
    · have hrest := ih (before ++ [c])
      rw [List.length_append, List.length_singleton, List.append_assoc, List.singleton_append,
        byteLength_append, byteLength_cons, byteLength_nil, Nat.add_zero] at hrest
      rw [distanceFrom, if_neg hprefix, ← hrest, findSeq_encode_cons hneedle hprefix,
        Option.map_map]
      congr 1
      funext n
      simp only [Function.comp_apply]
      omega

end MarkupQuery.Text
