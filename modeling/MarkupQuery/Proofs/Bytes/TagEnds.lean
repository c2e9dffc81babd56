import MarkupQuery.Proofs.Bytes.Attributes
import MarkupQuery.Proofs.Text.Finding

/-!
# Ends of tags by bytes

The tokenizer finds the end of a tag by jumps from one quotation mark to the next, and the end of a
document type declaration byte by byte. Both ends are where the scans over characters find them: a
jump passes just the characters at which those scans change nothing (`tagEndAt?_eq`), and no byte of
a longer character changes what is looked for (`doctypeEndBytes_eq`).
-/

namespace MarkupQuery

namespace Text

variable {text cs needle before rest : List Char} {i : Nat} {p q : Place}

/-! ## Ends of tags -/

/-- The offset of the `>` that ends a tag, looked for from an offset on. `quote` is the mark that is
open there, if any. -/
def tagEndAt? (text : List Char) (quote : Option UInt8) (i : Nat) : Option (Option Nat) :=
  if _h : i < (encode text).length then
    (bytesFrom? i text).bind fun ahead =>
      match quote with
      | some q =>
        match ahead.findIdx? (· == q) with
        | none => some none
        | some k => tagEndAt? text none (i + k + 1)
      | none =>
        match ahead.findIdx? fun b => b == '>'.toUInt8 || isQuoteByte b with
        | none => some none
        | some k => (encode text)[i + k]?.bind fun b =>
          if b == '>'.toUInt8 then some (some (i + k)) else tagEndAt? text (some b) (i + k + 1)
  else some none
termination_by (encode text).length - i

theorem tagEndFrom_of_not_mem {quote : Char} (h : quote ∉ cs) (n : Nat) :
    tagEndFrom (some quote) n cs = none := by
  induction cs generalizing n with
  | nil => rfl
  | cons c cs ih =>
    rw [List.mem_cons, not_or] at h
    rw [tagEndFrom, if_neg (by simpa using Ne.symm h.1), ih h.2]

theorem tagEndFrom_add (quote : Option Char) (k n : Nat) (cs : List Char) :
    tagEndFrom quote (k + n) cs = (tagEndFrom quote n cs).map (k + ·) := by
  induction cs generalizing quote n with
  | nil => cases quote <;> rfl
  | cons c cs ih =>
    cases quote with
    | some q => rw [tagEndFrom, tagEndFrom, Nat.add_assoc, ih]
    | none =>
      rw [tagEndFrom, tagEndFrom]
      split
      · rfl
      · rw [Nat.add_assoc, ih]

section Jumps

variable {as bs : List Char} {c mark : Char}

/-- A character at which a scan over a tag stops, outside quotation marks. -/
def stopsInTag (c : Char) : Bool :=
  c == '>' || isQuote c

theorem agrees_stopsInTag : Agrees (fun b => b == '>'.toUInt8 || isQuoteByte b) stopsInTag :=
  (Agrees.beq (by decide)).or agrees_isQuote

theorem isAscii_of_stopsInTag (h : stopsInTag c = true) : IsAscii c := by
  rcases Bool.or_eq_true_iff.1 h with h | h
  · rw [beq_iff_eq.1 h]
    decide
  · exact isAscii_of_isQuote h

theorem skippedInTag_of_forall (h : ∀ c ∈ as, stopsInTag c = false) : SkippedInTag as :=
  .of_forall fun c hc => by simpa [stopsInTag] using h c hc

/-- An offset with nothing ahead is at the end. -/
theorem Stands.lt_of_ne_nil (h : Stands text 0 i p) (hp : p.rest ≠ []) :
    i < (encode text).length := by
  refine Nat.lt_of_not_le fun hle => hp ?_
  simpa [Place.atEnd] using h.atEnd_iff.1 hle

/-- Inside quotation marks the scan jumps behind the mark that closes them. -/
theorem tagEndAt?_of_mem (h : Stands text 0 i p) (hmark : IsAscii mark)
    (hp : p.rest = as ++ mark :: bs) (has : mark ∉ as) :
    tagEndAt? text (some mark.toUInt8) i = tagEndAt? text none (i + byteLength as + 1) := by
  have hfind := (Agrees.beq hmark).findIdx?_encode (forall_beq_eq_false has)
    (beq_self_eq_true mark) bs
  rw [tagEndAt?, dif_pos (h.lt_of_ne_nil (by simp [hp])), h.bytesFrom?_eq, hp, Option.bind_some]
  dsimp only
  rw [hfind]

theorem tagEndAt?_of_not_mem (h : Stands text 0 i p) (hmark : IsAscii mark)
    (hp : mark ∉ p.rest) : tagEndAt? text (some mark.toUInt8) i = some none := by
  have hfind := (Agrees.beq hmark).findIdx?_encode_of_forall (forall_beq_eq_false hp)
  rw [tagEndAt?, h.bytesFrom?_eq]
  split
  · rw [Option.bind_some]
    dsimp only
    rw [hfind]
  · rfl

/-- Outside quotation marks the scan ends at a `>` and jumps behind a mark that opens. -/
theorem tagEndAt?_of_stop (h : Stands text 0 i p) (hp : p.rest = as ++ c :: bs)
    (has : ∀ c ∈ as, stopsInTag c = false) (hc : stopsInTag c = true) :
    tagEndAt? text none i =
      if c == '>' then some (some (i + byteLength as))
      else tagEndAt? text (some c.toUInt8) (i + byteLength as + 1) := by
  have hascii := isAscii_of_stopsInTag hc
  have hfind := agrees_stopsInTag.findIdx?_encode has hc bs
  have hat := (h.passes (Place.passes_of_rest_eq hp)).getElem?_of_isAscii hascii rfl
  have hangle : (c.toUInt8 == '>'.toUInt8) = (c == '>') := toUInt8_beq hascii (by decide)
  rw [tagEndAt?, dif_pos (h.lt_of_ne_nil (by simp [hp])), h.bytesFrom?_eq, hp, Option.bind_some]
  dsimp only
  rw [hfind]
  dsimp only
  rw [hat, Option.bind_some, hangle]

theorem tagEndAt?_of_no_stop (h : Stands text 0 i p) (hp : ∀ c ∈ p.rest, stopsInTag c = false) :
    tagEndAt? text none i = some none := by
  have hfind := agrees_stopsInTag.findIdx?_encode_of_forall hp
  rw [tagEndAt?, h.bytesFrom?_eq]
  split
  · rw [Option.bind_some]
    dsimp only
    rw [hfind]
  · rfl

theorem Place.forward_forward (p : Place) (m n : Nat) :
    (p.forward m).forward n = p.forward (m + n) := by
  simp only [Place.forward, List.drop_drop, List.take_add, byteLength_append, Nat.add_assoc]

end Jumps

/-- The jumps lead to the end of the tag, if the place has one. -/
theorem tagEndAt?_eq (h : Stands text 0 i p) (quote : Option Char)
    (hquote : ∀ q ∈ quote, IsAscii q) :
    tagEndAt? text (quote.map Char.toUInt8) i =
      some ((tagEndFrom quote 0 p.rest).map fun n => (p.forward n).offset) := by
  -- on the number of characters ahead: each jump passes a quotation mark
  induction hn : p.rest.length using Nat.strongRecOn generalizing i p quote with
  | ind n ih =>
    have behind {as bs : List Char} {c : Char} (hp : p.rest = as ++ c :: bs) (hc : IsAscii c)
        (quote : Option Char) (hquote : ∀ q ∈ quote, IsAscii q) :
        tagEndAt? text (quote.map Char.toUInt8) (i + byteLength as + 1) =
          some ((tagEndFrom quote (as.length + 1) bs).map fun n => (p.forward n).offset) := by
      have hpass : p.Passes (as ++ [c]) (p.forward (as ++ [c]).length) :=
        Place.passes_forward_length (by rw [hp, List.append_assoc]; rfl)
      have hstands := h.passes hpass
      have hrest : (p.forward (as ++ [c]).length).rest = bs :=
        List.append_cancel_left (hpass.rest_eq.symm.trans (hp.trans (List.append_cons as c bs)))
      have hlength := congrArg List.length hp
      rw [List.length_append, List.length_cons] at hlength
      rw [byteLength_append, byteLength_cons, utf8Size_of_isAscii hc, byteLength_nil, Nat.add_zero,
        ← Nat.add_assoc] at hstands
      rw [ih bs.length (by omega) hstands quote hquote (congrArg List.length hrest), hrest,
        ← Nat.add_zero (as.length + 1), tagEndFrom_add, Option.map_map, List.length_append]
      congr 2
      funext n
      rw [Place.forward_forward]
      rfl
    cases quote with
    | some mark =>
      have hmark := hquote mark rfl
      by_cases hmem : mark ∈ p.rest
      · obtain ⟨as, bs, hp, has⟩ := List.eq_append_cons_of_mem hmem
        have hinside := SkippedInTag.tagEndFrom_inside has 0 bs
        rw [Option.map_some, tagEndAt?_of_mem h hmark hp has, hp, hinside, Nat.zero_add]
        exact behind hp hmark none nofun
      · rw [Option.map_some, tagEndAt?_of_not_mem h hmark hmem, tagEndFrom_of_not_mem hmem]
        rfl
    | none =>
      by_cases hall : ∀ c ∈ p.rest, stopsInTag c = false
      · have hnone := skippedInTag_of_forall hall 0 []
        rw [List.append_nil] at hnone
        rw [Option.map_none, tagEndAt?_of_no_stop h hall, hnone]
        rfl
      · obtain ⟨as, c, bs, hp, has, hc⟩ := exists_first hall
        have hascii := isAscii_of_stopsInTag hc
        rw [Option.map_none, tagEndAt?_of_stop h hp has hc, hp,
          skippedInTag_of_forall has 0 (c :: bs), Nat.zero_add, tagEndFrom]
        split
        · have hpass : p.Passes as (p.forward as.length) := Place.passes_forward_length hp
          rw [Option.map_some, (h.passes hpass).offset]
        · rename_i hne
          have hopens : isQuote c = true := by simpa [stopsInTag, hne] using hc
          rw [if_pos hopens]
          exact behind hp hascii (some c) fun q hq => Option.mem_some.1 hq ▸ hascii

/-- From an offset at a place, the end of a tag is where the place has it. -/
theorem Stands.tagEndAt?_eq (h : Stands text 0 i p) :
    tagEndAt? text none i = some (p.upToTagEnd?.map fun found => found.2.offset) := by
  rw [← Option.map_none, Text.tagEndAt?_eq h none nofun, Place.upToTagEnd?, tagEnd?, Option.map_map]
  rfl

end Text

namespace Markup

open Text

/-! ## Ends of document type declarations -/

/-- The number of bytes before the `>` that ends a document type declaration, counted on from
`i`. -/
def doctypeEndBytes (quote : Option UInt8) (depth i : Nat) : List UInt8 → Option Nat
  | [] => none
  | b :: bs =>
    match quote with
    | some q => doctypeEndBytes (if b == q then none else some q) depth (i + 1) bs
    | none =>
      if isQuoteByte b then doctypeEndBytes (some b) depth (i + 1) bs
      else if b == '['.toUInt8 then doctypeEndBytes none (depth + 1) (i + 1) bs
      else if b == ']'.toUInt8 then doctypeEndBytes none (depth - 1) (i + 1) bs
      else if b == '>'.toUInt8 && depth == 0 then some i
      else doctypeEndBytes none depth (i + 1) bs

/-- No byte of a longer character changes what is looked for. -/
theorem doctypeEndBytes_append {quote : Option UInt8} (hquote : ∀ q ∈ quote, q.toNat < 0x80)
    {bytes : List UInt8} (hbytes : ∀ b ∈ bytes, 0x80 ≤ b.toNat) (depth i : Nat)
    (rest : List UInt8) :
    doctypeEndBytes quote depth i (bytes ++ rest) =
      doctypeEndBytes quote depth (i + bytes.length) rest := by
  induction bytes generalizing i with
  | nil => rfl
  | cons b bytes ih =>
    obtain ⟨hb, hbytes⟩ := List.forall_mem_cons.1 hbytes
    have hne {x : UInt8} (hx : x.toNat < 0x80) : (b == x) = false :=
      beq_false_of_ne (by rintro rfl; omega)
    have hrest := ih hbytes (i + 1)
    rw [Nat.add_assoc, Nat.add_comm 1] at hrest
    rw [List.cons_append, List.length_cons, ← hrest]
    cases quote with
    | some q => rw [doctypeEndBytes, hne (hquote q rfl), if_neg Bool.false_ne_true]
    | none =>
      have hmark : isQuoteByte b = false := by
        rw [isQuoteByte, hne (by decide), hne (by decide)]
        rfl
      rw [doctypeEndBytes, hmark, hne (by decide), hne (by decide), hne (by decide), Bool.false_and]
      rfl

/-- No longer character does either. -/
theorem doctypeEndFrom_cons_of_not_isAscii {c : Char} {quote : Option Char}
    (hquote : ∀ q ∈ quote, IsAscii q) (hc : ¬ IsAscii c) (depth n : Nat) (cs : List Char) :
    doctypeEndFrom quote depth n (c :: cs) = doctypeEndFrom quote depth (n + 1) cs := by
  have hne {x : Char} (hx : IsAscii x) : (c == x) = false :=
    beq_false_of_ne (by rintro rfl; exact hc hx)
  cases quote with
  | some q => rw [doctypeEndFrom, hne (hquote q rfl), if_neg Bool.false_ne_true]
  | none =>
    have hmark : isQuote c = false := by
      rw [isQuote, hne (by decide), hne (by decide)]
      rfl
    rw [doctypeEndFrom, hmark, hne (by decide), hne (by decide), hne (by decide), Bool.false_and]
    rfl

/-- The end of a declaration is found by bytes as by characters. -/
theorem doctypeEndBytes_eq (before rest : List Char) (quote : Option Char)
    (hquote : ∀ q ∈ quote, IsAscii q) (depth : Nat) :
    doctypeEndBytes (quote.map Char.toUInt8) depth (byteLength before) (encode rest) =
      (doctypeEndFrom quote depth before.length rest).map fun n =>
        byteLength ((before ++ rest).take n) := by
  induction rest generalizing before quote depth with
  | nil => cases quote <;> rfl
  | cons c rest ih =>
    have hlength : (before ++ [c]).length = before.length + 1 := by simp
    have hwhole : before ++ [c] ++ rest = before ++ c :: rest := by simp
    by_cases hc : IsAscii c
    · have hbytes : byteLength (before ++ [c]) = byteLength before + 1 := by
        simp [utf8Size_of_isAscii hc]
      have behind (quote : Option Char) (hquote : ∀ q ∈ quote, IsAscii q) (depth : Nat) :=
        ih (before ++ [c]) quote hquote depth
      rw [hlength, hbytes, hwhole] at behind
      have hbeq {x : Char} (hx : IsAscii x) : (c.toUInt8 == x.toUInt8) = (c == x) :=
        toUInt8_beq hc hx
      have hmark : isQuoteByte c.toUInt8 = isQuote c :=
        agrees_isQuote c _ (by rw [utf8EncodeChar_of_isAscii hc]; exact List.mem_singleton_self _)
      have hnone : ∀ q ∈ (none : Option Char), IsAscii q := nofun
      rw [encode_cons, utf8EncodeChar_of_isAscii hc, List.singleton_append]
      cases quote with
      | some q =>
        have hq := hquote q rfl
        rw [Option.map_some, doctypeEndBytes, doctypeEndFrom, hbeq hq]
        split
        · exact behind none hnone depth
        · exact behind (some q) hquote depth
      | none =>
        rw [Option.map_none, doctypeEndBytes, doctypeEndFrom, hmark, hbeq (by decide),
          hbeq (by decide), hbeq (by decide)]
        split
        · exact behind (some c) (fun q hq => Option.mem_some.1 hq ▸ hc) depth
        · split
          · exact behind none hnone (depth + 1)
          · split
            · exact behind none hnone (depth - 1)
            · split
              · rw [Option.map_some, List.take_left]
              · exact behind none hnone depth
    · -- a longer character is passed, byte by byte
      have hquote' : ∀ q ∈ quote.map Char.toUInt8, q.toNat < 0x80 := by
        intro b hb
        obtain ⟨q, hq, rfl⟩ := Option.map_eq_some_iff.1 hb
        exact (toNat_toUInt8 (hquote q hq)).symm ▸ hquote q hq
      have hbehind := ih (before ++ [c]) quote hquote depth
      rw [hlength, hwhole, byteLength_append, byteLength_cons, byteLength_nil, Nat.add_zero]
        at hbehind
      rw [encode_cons, doctypeEndBytes_append hquote' fun b hb => le_of_mem_utf8EncodeChar hc hb,
        String.length_utf8EncodeChar, doctypeEndFrom_cons_of_not_isAscii hquote hc]
      exact hbehind

/-- A `>` stands where the count ends, and what lies behind it does not matter. -/
theorem exists_of_doctypeEndFrom {quote : Option Char} {depth n m : Nat} {cs : List Char}
    (h : doctypeEndFrom quote depth n cs = some m) :
    ∃ as bs, cs = as ++ '>' :: bs ∧ m = n + as.length ∧
      ∀ bs', doctypeEndFrom quote depth n (as ++ '>' :: bs') = some m := by
  induction cs generalizing quote depth n with
  | nil => cases h
  | cons c cs ih =>
    have behind {quote' : Option Char} {depth' : Nat}
        (hstep : ∀ cs, doctypeEndFrom quote depth n (c :: cs) =
          doctypeEndFrom quote' depth' (n + 1) cs) :
        ∃ as bs, c :: cs = as ++ '>' :: bs ∧ m = n + as.length ∧
          ∀ bs', doctypeEndFrom quote depth n (as ++ '>' :: bs') = some m := by
      obtain ⟨as, bs, rfl, rfl, hlocal⟩ := ih ((hstep cs).symm.trans h)
      exact ⟨c :: as, bs, rfl, by rw [List.length_cons]; omega,
        fun bs' => (hstep _).trans (hlocal bs')⟩
    cases quote with
    | some q => exact behind fun _ => rfl
    | none =>
      by_cases hquote : isQuote c = true
      · exact behind fun cs => by rw [doctypeEndFrom, if_pos hquote]
      by_cases hopens : (c == '[') = true
      · exact behind fun cs => by rw [doctypeEndFrom, if_neg hquote, if_pos hopens]
      by_cases hcloses : (c == ']') = true
      · exact behind fun cs => by rw [doctypeEndFrom, if_neg hquote, if_neg hopens, if_pos hcloses]
      by_cases hends : (c == '>' && depth == 0) = true
      · have hends' (cs : List Char) : doctypeEndFrom none depth n (c :: cs) = some n := by
          rw [doctypeEndFrom, if_neg hquote, if_neg hopens, if_neg hcloses, if_pos hends]
        obtain rfl := Option.some.inj ((hends' cs).symm.trans h)
        obtain rfl : c = '>' := by simpa using (Bool.and_eq_true_iff.1 hends).1
        exact ⟨[], cs, rfl, rfl, hends'⟩
      · exact behind fun cs => by
          rw [doctypeEndFrom, if_neg hquote, if_neg hopens, if_neg hcloses, if_neg hends]

end Markup

end MarkupQuery
