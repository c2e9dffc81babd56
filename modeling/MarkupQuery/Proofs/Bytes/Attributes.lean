import MarkupQuery.Proofs.Bytes.References
import MarkupQuery.Proofs.Markup.Extent

/-!
# Attributes by bytes

The loop over the attributes of a tag, on byte offsets into the text between the name of the tag and
its end. It tests bytes, looks for the byte of a quotation mark, and cuts out names and values;
`base` is where that text begins. All bytes and slices are in place, and the attributes, or the
error and its position, are those that `RawAttribute.parse` gives (`RawAttribute.parseAt?_eq`).
-/

namespace MarkupQuery

namespace Text

/-! ## Classes of bytes -/

/-- The byte of a white space. -/
def isBlankByte (b : UInt8) : Bool :=
  b == ' '.toUInt8 || b == '\t'.toUInt8 || b == '\n'.toUInt8 || b == '\r'.toUInt8

/-- A byte that may open a name: the bytes of longer characters all may. -/
def isNameStartByte (b : UInt8) : Bool :=
  'A'.toUInt8 ≤ b && b ≤ 'Z'.toUInt8 || 'a'.toUInt8 ≤ b && b ≤ 'z'.toUInt8 ||
    b == '_'.toUInt8 || b == ':'.toUInt8 || 0x80 ≤ b

/-- A byte that may continue a name. -/
def isNameByte (b : UInt8) : Bool :=
  'A'.toUInt8 ≤ b && b ≤ 'Z'.toUInt8 || 'a'.toUInt8 ≤ b && b ≤ 'z'.toUInt8 ||
    '0'.toUInt8 ≤ b && b ≤ '9'.toUInt8 || b == '_'.toUInt8 || b == '-'.toUInt8 ||
    b == '.'.toUInt8 || b == ':'.toUInt8 || 0x80 ≤ b

/-- The byte of a quotation mark. -/
def isQuoteByte (b : UInt8) : Bool :=
  b == '"'.toUInt8 || b == '\''.toUInt8

theorem agrees_isBlank : Agrees isBlankByte isBlank :=
  (((Agrees.beq (by decide)).or (.beq (by decide))).or (.beq (by decide))).or (.beq (by decide))

theorem agrees_isQuote : Agrees isQuoteByte isQuote :=
  (Agrees.beq (by decide)).or (.beq (by decide))

theorem agrees_isNameStart : Agrees isNameStartByte isNameStart := by
  refine .of_ascii true (by decide) (by decide +kernel) fun c hc => ?_
  simp [isNameStart, hc]

theorem agrees_isNameChar : Agrees isNameByte isNameChar := by
  refine .of_ascii true (by decide) (by decide +kernel) fun c hc => ?_
  simp [isNameChar, isNameStart, hc]

theorem Stands.skipBlank {text : List Char} {base i : Nat} {p : Place}
    (h : Stands text base i p) : Stands text base (Text.skipWhile isBlankByte text i) p.skipBlank :=
  h.skipWhile agrees_isBlank

theorem isAscii_of_isQuote {c : Char} (h : isQuote c = true) : IsAscii c := by
  rw [isQuote, Bool.or_eq_true, beq_iff_eq, beq_iff_eq] at h
  rcases h with rfl | rfl <;> decide

namespace Stands

variable {text cs : List Char} {base i n : Nat} {p q : Place} {c : Char}
  {onBytes : UInt8 → Bool} {onChars : Char → Bool}

/-- A place further on stands at its distance from the start. -/
theorem of_covers (h : Stands text base i p) (hcovers : p.Covers n q) :
    Stands text base (q.offset - base) q := by
  obtain ⟨cs, hpass, -⟩ := hcovers
  have hq := h.passes hpass
  rw [hq.offset_eq, Nat.add_sub_cancel_left]
  exact hq

theorem sub_eq (h : Stands text base i p) : p.offset - base = i := by
  rw [h.offset_eq, Nat.add_sub_cancel_left]

/-- There is a byte ahead if there is a character, and it tells the class of the character. -/
theorem exists_getElem? (h : Stands text base i p) (hagrees : Agrees onBytes onChars)
    (hp : p.rest = c :: cs) : ∃ b, (encode text)[i]? = some b ∧ onBytes b = onChars c := by
  obtain ⟨b, bs, hbs, hb⟩ := hagrees.exists_cons c
  exact ⟨b, by rw [h.getElem?_eq, hp, encode_cons, hbs]; rfl, hb⟩

theorem getElem?_of_isAscii (h : Stands text base i p) (hc : IsAscii c) (hp : p.rest = c :: cs) :
    (encode text)[i]? = some c.toUInt8 := by
  rw [h.getElem?_eq, hp, encode_cons, utf8EncodeChar_of_isAscii hc]
  rfl

theorem getElem?_of_nil (h : Stands text base i p) (hp : p.rest = []) :
    (encode text)[i]? = none := by
  rw [h.getElem?_eq, hp]
  rfl

/-- The byte ahead is that of an ASCII character if the place sees the character. -/
theorem getElem?_beq (h : Stands text base i p) (hc : IsAscii c) :
    ((encode text)[i]? == some c.toUInt8) = p.sees c := by
  cases hp : p.rest with
  | nil =>
    rw [h.getElem?_of_nil hp, Place.sees, hp]
    rfl
  | cons d ds =>
    obtain ⟨b, hb, hbeq⟩ := h.exists_getElem? (Agrees.beq hc) hp
    rw [hb, Place.sees, hp]
    exact hbeq

end Stands

end Text

namespace Markup.RawAttribute

open Text
open String (ofList)

/-! ## The loop -/

/-- The value whose quotation mark is expected at an offset, and the offset behind it. -/
def valueAt? (text : List Char) (base i : Nat) : Option (Except ReadError (String × Nat)) :=
  match (encode text)[i]? with
  | none => some (.error (.attribute .unquoted (base + i)))
  | some quote =>
    if isQuoteByte quote then
      (bytesFrom? (i + 1) text).bind fun ahead =>
        match ahead.findIdx? fun b => b == quote || b == '<'.toUInt8 with
        | none => some (.error (.attribute .unterminated (base + (i + 1) - 1)))
        | some k => (encode text)[i + 1 + k]?.bind fun b =>
          if b == quote then
            (slice? (i + 1) (i + 1 + k) text).bind fun value =>
              (Reference.decodeText? value).map fun decoded =>
                .ok (ofList decoded, i + 1 + k + 1)
          else some (.error (.attribute .angle (base + (i + 1) + k)))
    else some (.error (.attribute .unquoted (base + i)))

/-- The attribute at an offset, and the offset behind it. -/
def attributeAt? (text : List Char) (base i : Nat) :
    Option (Except ReadError (RawAttribute × Nat)) :=
  (encode text)[i]?.bind fun b =>
    if isNameStartByte b then
      let afterName := skipWhile isNameByte text i
      (slice? i afterName text).bind fun name =>
        let sign := skipWhile isBlankByte text afterName
        if (encode text)[sign]? == some '='.toUInt8 then
          (valueAt? text base (skipWhile isBlankByte text (sign + 1))).map fun result =>
            result.map fun (value, next) => (⟨ofList name, value⟩, next)
        else some (.error (.attribute .unassigned (base + sign)))
    else some (.error (.attribute .unnamed (base + i)))

variable {text : List Char} {base i : Nat} {p q : Place}

/-- The value at a quotation mark. -/
theorem quotedAt?_eq {quote : Char} {rest : List Char} (h : Stands text base i p)
    (hquote : isQuote quote = true) (hp : p.rest = quote :: rest) :
    valueAt? text base i =
      some ((readValue p).map fun (value, q) => (value, q.offset - base)) := by
  have hascii := isAscii_of_isQuote hquote
  have hagrees := (Agrees.beq hascii).or (Agrees.beq (x := '<') (by decide))
  have hfirst := h.step hascii (Place.sees_iff.2 ⟨rest, hp⟩)
  have hbyte := h.getElem?_of_isAscii hascii hp
  obtain ⟨b, hb, hisQuote⟩ := h.exists_getElem? agrees_isQuote hp
  obtain rfl := Option.some.inj (hb.symm.trans hbyte)
  rw [valueAt?, hbyte, readValue, hp]
  dsimp only
  rw [if_pos (hisQuote.trans hquote), if_pos hquote, hfirst.bytesFrom?_eq, Option.bind_some]
  cases hspan : (p.forward 1).span fun c => !(c == quote || c == '<') with
  | mk value stop =>
    obtain ⟨hpass, hvalue, hstop⟩ := Place.span_eq_iff.1 hspan
    have hnone : ∀ c ∈ value, (c == quote || c == '<') = false := fun c hc => by
      simpa using hvalue c hc
    have hlast := hfirst.passes hpass
    dsimp only
    rw [hpass.rest_eq]
    cases hrest : stop.rest with
    | nil =>
      rw [List.append_nil, hagrees.findIdx?_encode_of_forall hnone]
      dsimp only
      rw [h.offset_eq]
      rfl
    | cons c cs =>
      have hc : (c == quote || c == '<') = true := by
        simpa [hrest, or_iff_not_imp_left] using hstop
      rw [hagrees.findIdx?_encode hnone hc]
      obtain ⟨d, hd, hdc⟩ := hlast.exists_getElem? (Agrees.beq hascii) hrest
      dsimp only
      rw [hd, Option.bind_some, hdc]
      split
      · rename_i heq
        have hclose := hlast.step hascii (Place.sees_iff.2 ⟨cs, beq_iff_eq.1 heq ▸ hrest⟩)
        rw [hfirst.slice?_eq hpass, Option.bind_some, Reference.decodeText?_eq, Option.map_some]
        dsimp only [Except.map]
        rw [hclose.sub_eq]
      · rw [hlast.offset_eq, Nat.add_assoc base]
        rfl

theorem valueAt?_eq (h : Stands text base i p) :
    valueAt? text base i =
      some ((readValue p).map fun (value, q) => (value, q.offset - base)) := by
  cases hp : p.rest with
  | nil =>
    rw [valueAt?, h.getElem?_of_nil hp, readValue, hp, ← h.offset_eq]
    rfl
  | cons quote rest =>
    by_cases hquote : isQuote quote = true
    · exact quotedAt?_eq h hquote hp
    · obtain ⟨b, hb, hisQuote⟩ := h.exists_getElem? agrees_isQuote hp
      rw [valueAt?, hb, readValue, hp]
      dsimp only
      rw [hisQuote, if_neg hquote, if_neg hquote, ← h.offset_eq]
      rfl

theorem attributeAt?_eq (h : Stands text base i p) (hp : p.rest ≠ []) :
    attributeAt? text base i =
      some ((read p).map fun (a, q) => (a, q.offset - base)) := by
  obtain ⟨c, cs, hcs⟩ := List.exists_cons_of_ne_nil hp
  obtain ⟨b, hb, hstart⟩ := h.exists_getElem? agrees_isNameStart hcs
  have hhead : p.rest.head?.any isNameStart = isNameStart c := by rw [hcs]; rfl
  rw [attributeAt?, hb, Option.bind_some, hstart, read, Place.name?, hhead]
  split
  · have hname := h.skipWhile agrees_isNameChar
    have hsign := hname.skipBlank
    dsimp only
    rw [h.slice?_skipWhile agrees_isNameChar, Option.bind_some, hsign.getElem?_beq (by decide)]
    split
    · rename_i hsees
      have hbehind := hsign.step (by decide) hsees
      rw [valueAt?_eq hbehind.skipBlank]
      cases readValue (((p.span isNameChar).2.skipBlank.forward 1).skipBlank) <;> rfl
    · rw [← hsign.offset_eq]
      rfl
  · rw [← h.offset_eq]
    rfl

theorem le_skipWhile (onBytes : UInt8 → Bool) (text : List Char) (i : Nat) :
    i ≤ skipWhile onBytes text i :=
  Nat.le_add_right _ _

theorem lt_of_valueAt? {value : String} {next : Nat}
    (h : valueAt? text base i = some (.ok (value, next))) : i < next := by
  unfold valueAt? at h
  split at h
  · cases h
  · split at h
    · obtain ⟨ahead, -, h⟩ := Option.bind_eq_some_iff.1 h
      split at h
      · cases h
      · obtain ⟨b, -, h⟩ := Option.bind_eq_some_iff.1 h
        split at h
        · obtain ⟨raw, -, h⟩ := Option.bind_eq_some_iff.1 h
          obtain ⟨decoded, -, h⟩ := Option.map_eq_some_iff.1 h
          obtain ⟨-, rfl⟩ := Prod.mk.inj (Except.ok.inj h)
          omega
        · cases h
    · cases h

/-- Reading goes on behind where it began. -/
theorem lt_of_attributeAt? {a : RawAttribute} {next : Nat}
    (h : attributeAt? text base i = some (.ok (a, next))) : i < next := by
  obtain ⟨b, -, h⟩ := Option.bind_eq_some_iff.1 h
  split at h
  · obtain ⟨name, -, h⟩ := Option.bind_eq_some_iff.1 h
    dsimp only at h
    split at h
    · obtain ⟨result, hvalue, h⟩ := Option.map_eq_some_iff.1 h
      cases result with
      | error e => cases h
      | ok pair =>
        obtain ⟨-, rfl⟩ := Prod.mk.inj (Except.ok.inj h)
        have := lt_of_valueAt? hvalue
        have := le_skipWhile isNameByte text i
        have := le_skipWhile isBlankByte text (skipWhile isNameByte text i)
        have := le_skipWhile isBlankByte text
          (skipWhile isBlankByte text (skipWhile isNameByte text i) + 1)
        omega
    · cases h
  · cases h

/-- The attributes from an offset on, behind those already read, which stand reversed. -/
def attributesAt? (text : List Char) (base : Nat) (done : List RawAttribute) (i : Nat) :
    Option (Except ReadError (List RawAttribute)) :=
  let start := skipWhile isBlankByte text i
  if (encode text).length ≤ start then some (.ok done.reverse)
  else if start == i && i != 0 then some (.error (.attribute .unseparated (base + start)))
  else
    match _h : attributeAt? text base start with
    | none => none
    | some (.error e) => some (.error e)
    | some (.ok (a, next)) => attributesAt? text base (a :: done) next
termination_by (encode text).length - i
decreasing_by
  have := lt_of_attributeAt? _h
  have : i ≤ start := Nat.le_add_right _ _
  omega

/-- The attributes that a text lists, where `base` bytes lie before the text. -/
def parseAt? (base : Nat) (text : List Char) : Option (Except ReadError (List RawAttribute)) :=
  attributesAt? text base [] 0

theorem attributesAt?_eq (h : Stands text base i p) {done : List RawAttribute}
    (hdone : done.isEmpty = (i == 0)) :
    attributesAt? text base done i = some (readList done p) := by
  fun_induction readList done p generalizing i with
  | case1 done p hend => rw [attributesAt?, if_pos (h.skipBlank.atEnd_iff.2 hend)]
  | case2 done p hend hblank =>
    rw [hdone, ← h.skipWhile_beq agrees_isBlank, Bool.and_comm, Bool.and_eq_true,
      beq_iff_eq] at hblank
    rw [attributesAt?, if_neg (mt h.skipBlank.atEnd_iff.1 hend), if_pos (by simpa using hblank),
      hblank.1, h.offset_eq]
  | case3 done p hend hblank e hread =>
    have hne : p.skipBlank.rest ≠ [] := by simpa [Place.atEnd] using hend
    have hat := attributeAt?_eq h.skipBlank hne
    rw [hread] at hat
    rw [hdone, ← h.skipWhile_beq agrees_isBlank, Bool.and_comm, ← bne] at hblank
    rw [attributesAt?, if_neg (mt h.skipBlank.atEnd_iff.1 hend), if_neg hblank]
    split <;> simp_all [Except.map]
  | case4 done p hend hblank a next hread ih =>
    have hne : p.skipBlank.rest ≠ [] := by simpa [Place.atEnd] using hend
    have hat := attributeAt?_eq h.skipBlank hne
    rw [hread] at hat
    rw [hdone, ← h.skipWhile_beq agrees_isBlank, Bool.and_comm, ← bne] at hblank
    have hlt := lt_of_attributeAt? hat
    have hrest := ih (h.skipBlank.of_covers (covers_of_read hread))
      (by simpa using Nat.ne_of_gt (Nat.zero_lt_of_lt hlt))
    rw [attributesAt?, if_neg (mt h.skipBlank.atEnd_iff.1 hend), if_neg hblank]
    split
    · simp_all
    · simp_all [Except.map]
    · rename_i hat'
      obtain ⟨rfl, rfl⟩ := Prod.mk.inj (Except.ok.inj (Option.some.inj (hat.symm.trans hat')))
      exact hrest

/-- The attributes are found by bytes as by characters, and no slice is out of place. -/
theorem parseAt?_eq (base : Nat) (text : List Char) :
    parseAt? base text = some (parse base text) :=
  attributesAt?_eq (stands_start base text) rfl

end Markup.RawAttribute

end MarkupQuery
