import MarkupQuery.Proofs.Bytes.TagEnds

/-!
# Lexemes by bytes

The tokenizer on byte offsets: it looks for the bytes that end a construct, moves by fixed amounts
over those that open it, and cuts out what is in between. `Lexeme.nextAt?` reads the lexeme at an
offset, and is `none` if a slice or a byte is out of place. The main statement is
`Lexeme.nextAt?_eq`: from an offset that stands at a place nothing is out of place, and the lexeme
or error, and the offset where reading goes on, are those of `Lexeme.next`.
-/

namespace MarkupQuery

namespace Text

variable {text cs needle : List Char} {base i : Nat} {p q : Place}

theorem byteLength_of_isAscii (h : ∀ c ∈ cs, IsAscii c) : byteLength cs = cs.length := by
  induction cs with
  | nil => rfl
  | cons c cs ih =>
    obtain ⟨hc, hcs⟩ := List.forall_mem_cons.1 h
    rw [byteLength_cons, utf8Size_of_isAscii hc, ih hcs, List.length_cons, Nat.add_comm]

/-- The name at an offset, if one begins there, and the offset behind it. -/
def nameAt? (text : List Char) (i : Nat) : Option (Option (String × Nat)) :=
  match (encode text)[i]? with
  | none => some none
  | some b =>
    if isNameStartByte b then
      let stop := skipWhile isNameByte text (i + 1)
      (slice? i stop text).map fun name => some (String.ofList name, stop)
    else some none

/-- A byte of a class may be passed first. -/
theorem skipWhile_succ {onBytes : UInt8 → Bool} {b : UInt8} (hb : (encode text)[i]? = some b)
    (hclass : onBytes b = true) : skipWhile onBytes text (i + 1) = skipWhile onBytes text i := by
  obtain ⟨hi, hget⟩ := List.getElem?_eq_some_iff.1 hb
  rw [skipWhile, skipWhile, List.drop_eq_getElem_cons hi, hget, List.takeWhile_cons_of_pos hclass,
    List.length_cons]
  omega

theorem isNameByte_of_isNameStartByte {b : UInt8} (h : isNameStartByte b = true) :
    isNameByte b = true := by
  simp only [isNameStartByte, isNameByte, Bool.or_eq_true] at h ⊢
  tauto

theorem nameAt?_eq (h : Stands text 0 i p) :
    nameAt? text i = some (p.name?.map fun (name, q) => (name, q.offset)) := by
  unfold nameAt?
  cases hp : p.rest with
  | nil =>
    have hname : p.name? = none := by
      rw [Place.name?, hp]
      rfl
    rw [h.getElem?_of_nil hp, hname]
    rfl
  | cons c cs =>
    obtain ⟨b, hb, hstart⟩ := h.exists_getElem? agrees_isNameStart hp
    have hhead : p.rest.head?.any isNameStart = isNameStart c := by rw [hp]; rfl
    rw [hb, Place.name?, hhead, ← hstart]
    dsimp only
    split
    · rename_i hb'
      rw [skipWhile_succ hb (isNameByte_of_isNameStartByte hb'),
        h.slice?_skipWhile agrees_isNameChar, ← (h.skipWhile agrees_isNameChar).offset]
      rfl
    · rfl

/-- A sequence of bytes is found where the place finds the needle. -/
theorem findSeq_encode_rest {x : Char} (hneedle : ∀ c ∈ x :: needle, IsAscii c) (p : Place) :
    findSeq (asciiBytes (x :: needle)) (encode p.rest) =
      (p.upTo? (x :: needle)).map fun found => byteLength found.1 := by
  have hfind := findSeq_encode hneedle [] p.rest
  simp only [byteLength_nil, Nat.zero_add, Option.map_id', List.length_nil,
    List.nil_append] at hfind
  rw [hfind, Place.upTo?, distanceTo?, Option.map_map]
  rfl

namespace Stands

/-- A place further on in the whole text stands at its offset. -/
theorem ahead {n : Nat} (h : Stands text 0 i p) (hcovers : p.Covers n q) :
    Stands text 0 q.offset q :=
  h.of_covers hcovers

/-- What opens a construct is passed by a fixed amount. -/
theorem opener (h : Stands text base i p) (hascii : ∀ c ∈ cs, IsAscii c) (hcs : cs <+: p.rest) :
    Stands text base (i + cs.length) (p.forward cs.length) := by
  have hq := h.passes (Place.passes_of_isPrefix hcs)
  rwa [byteLength_of_isAscii hascii] at hq

end Stands

end Text

namespace Markup

open Text
open String (ofList)

/-- The construct that begins with some bytes. -/
def Construct.startingBytes (bytes : List UInt8) : Construct :=
  (ordered.find? fun construct => (asciiBytes construct.opener).isPrefixOf bytes).getD
    .characterData

theorem Construct.isAscii_opener (construct : Construct) : ∀ c ∈ construct.opener, IsAscii c := by
  cases construct <;> exact isAscii_of_all rfl

theorem Construct.startingBytes_encode (cs : List Char) :
    startingBytes (encode cs) = starting cs := by
  have hbegins : (fun construct : Construct =>
      (asciiBytes construct.opener).isPrefixOf (encode cs)) =
        fun construct => construct.opener.isPrefixOf cs :=
    funext fun construct => isPrefixOf_encode construct.isAscii_opener cs
  rw [startingBytes, hbegins]
  rfl

namespace Lexeme

/-! ## Constructs -/

/-- Text up to the next tag, or up to the end. -/
def textAt? (text : List Char) (start : Nat) : Option (Except ReadError Lexeme × Nat) :=
  (bytesFrom? start text).bind fun ahead =>
    let stop :=
      match ahead.findIdx? (· == '<'.toUInt8) with
      | some k => start + k
      | none => (encode text).length
    (slice? start stop text).bind fun content =>
      (Reference.decodeText? content).map fun decoded => (.ok (.text (ofList decoded)), stop)

/-- A construct that is taken as it is written, up to what closes it. -/
def enclosedAt? (construct : Construct) (needle : List Char) (make : String → Lexeme)
    (text : List Char) (start : Nat) : Option (Except ReadError Lexeme × Nat) :=
  let body := start + construct.opener.length
  (bytesFrom? body text).bind fun ahead =>
    match findSeq (asciiBytes needle) ahead with
    | none => some (.error (.unexpectedEnd construct start), body)
    | some k => (slice? body (body + k) text).map fun content =>
      (.ok (make (ofList content)), body + k + needle.length)

/-- A processing instruction. The first byte behind its target decides whether it is well-formed. -/
def instructionAt? (text : List Char) (start : Nat) : Option (Except ReadError Lexeme × Nat) :=
  let body := start + Construct.instruction.opener.length
  (nameAt? text body).bind fun name? =>
    match name? with
    | none => some (.error (.malformed .instruction start), body)
    | some (target, afterName) => (bytesFrom? afterName text).bind fun ahead =>
      match findSeq (asciiBytes ['?', '>']) ahead with
      | none => some (.error (.unexpectedEnd .instruction start), afterName)
      | some k => (slice? afterName (afterName + k) text).bind fun content =>
        if content.isEmpty then some (.ok (.instruction target ""), afterName + k + 2)
        else (encode content)[0]?.map fun b =>
          if isBlankByte b then
            (.ok (.instruction target (ofList (content.dropWhile isBlank))), afterName + k + 2)
          else (.error (.malformed .instruction start), afterName + k + 2)

/-- An end tag. -/
def endTagAt? (text : List Char) (start : Nat) : Option (Except ReadError Lexeme × Nat) :=
  let body := start + Construct.endTag.opener.length
  (nameAt? text body).map fun name? =>
    match name? with
    | none => (.error (.malformed .endTag start), body)
    | some (name, afterName) =>
      let stop := skipWhile isBlankByte text afterName
      match (encode text)[stop]? with
      | none => (.error (.unexpectedEnd .endTag start), stop)
      | some b =>
        if b == '>'.toUInt8 then (.ok (.endTag name start), stop + 1)
        else (.error (.malformed .endTag start), stop)

/-- The text of a start tag without the slash that may end it, and whether there was one. -/
def splitSlashAt? (inner : List Char) : Option (List Char × Bool) :=
  if inner.getLast? == some '/' then
    (slice? 0 ((encode inner).length - 1) inner).map fun list => (list, true)
  else some (inner, false)

/-- A start tag. -/
def startTagAt? (text : List Char) (start : Nat) : Option (Except ReadError Lexeme × Nat) :=
  let body := start + Construct.startTag.opener.length
  (nameAt? text body).bind fun name? =>
    match name? with
    | none => some (.error (.malformed .startTag start), body)
    | some (name, afterName) => (tagEndAt? text none afterName).bind fun stop? =>
      match stop? with
      | none => some (.error (.unexpectedEnd .startTag start), afterName)
      | some stop => (slice? afterName stop text).bind fun inner =>
        (splitSlashAt? inner).bind fun (list, closes) =>
          (RawAttribute.parseAt? afterName list).map fun result =>
            match result with
            | .error e => (.error e, afterName)
            | .ok attributes =>
              (.ok (.startTag name attributes closes (placeAt text afterName)), stop + 1)

/-- The construct that begins at an offset, document type declarations apart. -/
def readAt? (construct : Construct) (text : List Char) (start : Nat) :
    Option (Except ReadError Lexeme × Nat) :=
  match construct with
  | .characterData => textAt? text start
  | .comment => enclosedAt? .comment ['-', '-', '>'] .comment text start
  | .cdata => enclosedAt? .cdata [']', ']', '>'] .text text start
  | .instruction => instructionAt? text start
  | .endTag => endTagAt? text start
  | .startTag => startTagAt? text start
  | .declaration | .doctype => some (.error (.malformed construct start), start)

/-- The offset behind the document type declaration at an offset. -/
def doctypeEndAt? (text : List Char) (start : Nat) : Option (Option Nat) :=
  (slice? (start + Construct.doctype.opener.length) (encode text).length text).map fun rest =>
    (doctypeEndBytes none 0 0 (encode rest)).map fun i =>
      start + Construct.doctype.opener.length + i + 1

theorem lt_of_doctypeEndAt? {text : List Char} {start next : Nat}
    (h : doctypeEndAt? text start = some (some next)) : start < next := by
  obtain ⟨rest, -, h⟩ := Option.map_eq_some_iff.1 h
  obtain ⟨i, -, rfl⟩ := Option.map_eq_some_iff.1 h
  omega

/-- The next lexeme from an offset on, if the text has one. -/
def nextAt? (text : List Char) (start : Nat) : Option (Except ReadError (Option Lexeme) × Nat) :=
  if (encode text).length ≤ start then some (.ok none, start)
  else
    match bytesFrom? start text with
    | none => none
    | some ahead =>
      match Construct.startingBytes ahead with
      | .doctype =>
        match _h : doctypeEndAt? text start with
        | none => none
        | some none => some (.error (.unexpectedEnd .doctype start), start)
        | some (some next) => nextAt? text next
      | construct => (readAt? construct text start).map fun (result, next) =>
        (result.map some, next)
termination_by (encode text).length - start
decreasing_by
  have := lt_of_doctypeEndAt? _h
  omega

/-! ## Agreement -/

variable {text : List Char} {i : Nat} {p : Place}

theorem textAt?_eq (h : Stands text 0 i p) :
    textAt? text i = some ((readText p).1, (readText p).2.offset) := by
  have hagrees := Agrees.beq (x := '<') (by decide)
  rw [textAt?, h.bytesFrom?_eq, Option.bind_some, readText]
  cases hspan : p.span fun c => c != '<' with
  | mk content stop =>
    obtain ⟨hpass, hcontent, hstop⟩ := Place.span_eq_iff.1 hspan
    have hnone : ∀ c ∈ content, (c == '<') = false := fun c hc => by simpa using hcontent c hc
    have hbehind := h.passes hpass
    -- the text ends at the tag, or where everything ends
    have hend : (match (encode p.rest).findIdx? (· == '<'.toUInt8) with
        | some k => i + k
        | none => (encode text).length) = stop.offset := by
      rw [hpass.rest_eq]
      cases hrest : stop.rest with
      | nil =>
        rw [List.append_nil, hagrees.findIdx?_encode_of_forall hnone, hbehind.offset]
        have hlength := hbehind.add_byteLength
        rw [hrest] at hlength
        exact hlength.symm
      | cons c cs =>
        obtain rfl : c = '<' := by simpa [hrest] using hstop
        rw [hagrees.findIdx?_encode hnone (beq_self_eq_true '<'), hbehind.offset]
    dsimp only
    rw [hend, hbehind.offset, h.slice?_eq hpass, Option.bind_some, Reference.decodeText?_eq]
    rfl

theorem enclosedAt?_eq {construct : Construct} {x : Char} {needle : List Char}
    (make : String → Lexeme) (h : Stands text 0 i p) (hopener : construct.opener <+: p.rest)
    (hneedle : ∀ c ∈ x :: needle, IsAscii c) :
    enclosedAt? construct (x :: needle) make text i =
      some (match (p.forward construct.opener.length).upTo? (x :: needle) with
        | none => (.error (.unexpectedEnd construct p.offset),
            (p.forward construct.opener.length).offset)
        | some (content, stop) =>
          (.ok (make (ofList content)), (stop.forward (x :: needle).length).offset)) := by
  have hbody := h.opener construct.isAscii_opener hopener
  rw [enclosedAt?, hbody.bytesFrom?_eq, Option.bind_some, findSeq_encode_rest hneedle]
  cases hfind : (p.forward construct.opener.length).upTo? (x :: needle) with
  | none =>
    rw [h.offset, hbody.offset]
    rfl
  | some found =>
    obtain ⟨content, stop⟩ := found
    obtain ⟨hpass, hends⟩ := Place.passes_of_upTo? hfind
    have hclose := (hbody.passes hpass).opener hneedle hends
    rw [Option.map_some]
    dsimp only
    rw [hbody.slice?_eq hpass, hclose.offset]
    rfl

theorem instructionAt?_eq (h : Stands text 0 i p)
    (hopener : Construct.instruction.opener <+: p.rest) :
    instructionAt? text i = some ((readInstruction p).1, (readInstruction p).2.offset) := by
  have hbody := h.opener (Construct.isAscii_opener _) hopener
  rw [instructionAt?, readInstruction, nameAt?_eq hbody, Option.bind_some]
  cases hname : (p.forward Construct.instruction.opener.length).name? with
  | none =>
    rw [Option.map_none, ← h.offset]
    dsimp only
    rw [hbody.offset, h.offset]
  | some found =>
    obtain ⟨target, afterName⟩ := found
    have hafter := hbody.ahead (Place.covers_of_name? hname)
    rw [Option.map_some]
    dsimp only
    rw [hafter.bytesFrom?_eq, Option.bind_some, findSeq_encode_rest (isAscii_of_all rfl)]
    cases hfind : afterName.upTo? ['?', '>'] with
    | none =>
      rw [h.offset]
      rfl
    | some found =>
      obtain ⟨content, stop⟩ := found
      obtain ⟨hpass, hends⟩ := Place.passes_of_upTo? hfind
      have hclose := (hafter.passes hpass).opener (isAscii_of_all rfl) hends
      rw [Option.map_some]
      dsimp only
      have hoffset : (stop.forward 2).offset = afterName.offset + byteLength content + 2 :=
        hclose.offset
      rw [hafter.slice?_eq hpass, Option.bind_some, ← hoffset]
      cases content with
      | nil => rfl
      | cons c cs =>
        obtain ⟨b, bs, hbs, hb⟩ := agrees_isBlank.exists_cons c
        have hbyte : (encode (c :: cs))[0]? = some b := by
          rw [encode_cons, hbs]
          rfl
        rw [if_neg (by simp), hbyte, Option.map_some, hb, List.head?_cons, Option.all_some]
        split
        · rfl
        · rw [h.offset]

theorem endTagAt?_eq (h : Stands text 0 i p) (hopener : Construct.endTag.opener <+: p.rest) :
    endTagAt? text i = some ((readEndTag p).1, (readEndTag p).2.offset) := by
  have hbody := h.opener (Construct.isAscii_opener _) hopener
  rw [endTagAt?, readEndTag, nameAt?_eq hbody, Option.map_some, h.offset]
  cases hname : (p.forward Construct.endTag.opener.length).name? with
  | none =>
    rw [Option.map_none]
    dsimp only
    rw [hbody.offset]
  | some found =>
    obtain ⟨name, afterName⟩ := found
    have hstop := (hbody.ahead (Place.covers_of_name? hname)).skipBlank
    rw [Option.map_some]
    dsimp only
    cases hrest : afterName.skipBlank.rest with
    | nil =>
      have hsees : afterName.skipBlank.sees '>' = false := by rw [Place.sees, hrest]; rfl
      have hend : afterName.skipBlank.atEnd = true := by rw [Place.atEnd, hrest]; rfl
      rw [hstop.getElem?_of_nil hrest, hsees, hend, ← hstop.offset]
      rfl
    | cons c cs =>
      obtain ⟨b, hb, hangle⟩ := hstop.exists_getElem? (Agrees.beq (x := '>') (by decide)) hrest
      have hsees : afterName.skipBlank.sees '>' = (c == '>') := by rw [Place.sees, hrest]; rfl
      have hend : afterName.skipBlank.atEnd = false := by rw [Place.atEnd, hrest]; rfl
      rw [hb, hsees, hend, ← hangle]
      dsimp only
      split
      · rename_i hb'
        rw [(hstop.step (by decide) (hsees.trans (hangle ▸ hb'))).offset]
      · rw [← hstop.offset]
        rfl

theorem splitSlashAt?_eq (inner : List Char) : splitSlashAt? inner = some (splitSlash inner) := by
  unfold splitSlashAt? splitSlash
  split
  · rename_i hlast
    obtain ⟨list, rfl⟩ := List.getLast?_eq_some_iff.1 (beq_iff_eq.1 hlast)
    have hbytes : (encode (list ++ ['/'])).length - 1 = byteLength list := by
      rw [encode_append, List.length_append, length_encode]
      rfl
    have hslice : slice? 0 (byteLength list) (list ++ ['/']) = some list :=
      slice?_eq_some_iff.2 ⟨[], ['/'], rfl, rfl, rfl⟩
    rw [hbytes, hslice, List.dropLast_concat]
    rfl
  · rfl

theorem startTagAt?_eq (h : Stands text 0 i p) (hopener : Construct.startTag.opener <+: p.rest) :
    startTagAt? text i = some ((readStartTag p).1, (readStartTag p).2.offset) := by
  have hbody := h.opener (Construct.isAscii_opener _) hopener
  rw [startTagAt?, readStartTag, nameAt?_eq hbody, Option.bind_some, h.offset]
  cases hname : (p.forward Construct.startTag.opener.length).name? with
  | none =>
    rw [Option.map_none]
    dsimp only
    rw [hbody.offset]
  | some found =>
    obtain ⟨name, afterName⟩ := found
    have hafter := hbody.ahead (Place.covers_of_name? hname)
    rw [Option.map_some]
    dsimp only
    rw [hafter.tagEndAt?_eq, Option.bind_some]
    cases hend : afterName.upToTagEnd? with
    | none => rfl
    | some found =>
      obtain ⟨inner, stop⟩ := found
      obtain ⟨hpass, hsees⟩ := Place.passes_of_upToTagEnd? hend
      have hstop := hafter.passes hpass
      have hclose := hstop.step (by decide) hsees
      rw [Option.map_some]
      dsimp only
      rw [hstop.offset, hafter.slice?_eq hpass, Option.bind_some, splitSlashAt?_eq,
        Option.bind_some, RawAttribute.parseAt?_eq, Option.map_some]
      cases RawAttribute.parse afterName.offset (splitSlash inner).1 with
      | error e => rfl
      | ok attributes =>
        dsimp only
        rw [hclose.offset, ← hafter.eq_placeAt]

theorem readAt?_eq {construct : Construct} (h : Stands text 0 i p)
    (hstarting : Construct.starting p.rest = construct) :
    readAt? construct text i = some ((read construct p).1, (read construct p).2.offset) := by
  have hopener : construct.opener <+: p.rest := hstarting ▸ Construct.opener_isPrefix p.rest
  cases construct with
  | characterData => exact textAt?_eq h
  | comment =>
    rw [readAt?, enclosedAt?_eq _ h hopener (isAscii_of_all rfl), read, readComment]
    cases (p.forward Construct.comment.opener.length).upTo? ['-', '-', '>'] <;> rfl
  | cdata =>
    rw [readAt?, enclosedAt?_eq _ h hopener (isAscii_of_all rfl), read, readCdata]
    cases (p.forward Construct.cdata.opener.length).upTo? [']', ']', '>'] <;> rfl
  | instruction => exact instructionAt?_eq h hopener
  | endTag => exact endTagAt?_eq h hopener
  | startTag => exact startTagAt?_eq h hopener
  | declaration => rw [readAt?, read, h.offset]
  | doctype => rw [readAt?, read, h.offset]

theorem doctypeEndAt?_eq (h : Stands text 0 i p) (hopener : Construct.doctype.opener <+: p.rest) :
    doctypeEndAt? text i = some ((doctypeEnd? p).map Place.offset) := by
  have hbody := h.opener (Construct.isAscii_opener _) hopener
  have hend := doctypeEndBytes_eq [] (p.forward Construct.doctype.opener.length).rest none nofun 0
  have hslice := hbody.slice?_eq (Place.passes_forward_length (List.append_nil _).symm)
  rw [hbody.add_byteLength] at hslice
  rw [doctypeEndAt?, hslice, Option.map_some, doctypeEnd?, Option.map_map]
  rw [byteLength_nil, List.length_nil, List.nil_append, Option.map_none] at hend
  rw [hend, Option.map_map]
  cases hfind : doctypeEndFrom none 0 0 (p.forward Construct.doctype.opener.length).rest with
  | none => rfl
  | some n =>
    obtain ⟨as, bs, hrest, hn, -⟩ := exists_of_doctypeEndFrom hfind
    obtain rfl : n = as.length := hn.trans (Nat.zero_add _)
    have hpass : (p.forward Construct.doctype.opener.length).Passes (as ++ ['>'])
        ((p.forward Construct.doctype.opener.length).forward (as ++ ['>']).length) :=
      Place.passes_forward_length (by rw [hrest, List.append_assoc]; rfl)
    have hbehind := (hbody.passes hpass).offset
    rw [List.length_append, List.length_singleton, byteLength_append] at hbehind
    rw [Option.map_some, Option.map_some, Function.comp_apply, Function.comp_apply, hrest,
      List.take_left, hbehind]
    rfl

/-- At a document type declaration reading goes on behind it. -/
theorem nextAt?_of_doctype (h : Stands text 0 i p) (hend : p.atEnd = false)
    (hstarting : Construct.starting p.rest = .doctype) :
    nextAt? text i = (doctypeEnd? p).elim
      (some (.error (.unexpectedEnd .doctype p.offset), p.offset))
      fun q => nextAt? text q.offset := by
  have hdoctype := doctypeEndAt?_eq h (hstarting ▸ Construct.opener_isPrefix p.rest)
  have hahead : ¬ (encode text).length ≤ i := by simp [h.atEnd_iff, hend]
  rw [nextAt?, if_neg hahead, h.bytesFrom?_eq]
  dsimp only
  rw [Construct.startingBytes_encode, hstarting, h.offset]
  dsimp only
  split <;> cases hq : doctypeEnd? p <;> simp_all

/-- At another construct, that construct is read. -/
theorem nextAt?_of_ne (h : Stands text 0 i p) (hend : p.atEnd = false)
    (hnot : Construct.starting p.rest ≠ .doctype) :
    nextAt? text i = some ((read (Construct.starting p.rest) p).1.map some,
      (read (Construct.starting p.rest) p).2.offset) := by
  have hread := readAt?_eq h rfl
  have hahead : ¬ (encode text).length ≤ i := by simp [h.atEnd_iff, hend]
  rw [nextAt?, if_neg hahead, h.bytesFrom?_eq]
  dsimp only
  rw [Construct.startingBytes_encode]
  split
  · contradiction
  · rw [hread]
    rfl

/-- **From an offset at a place the tokenizer never takes a slice or a byte out of place**, and it
reads there what the text has. -/
theorem nextAt?_eq (h : Stands text 0 i p) :
    nextAt? text i = some ((next p).1, (next p).2.offset) := by
  fun_induction next p generalizing i with
  | case1 p hend => rw [nextAt?, if_pos (h.atEnd_iff.2 hend), h.offset]
  | case2 p hend hstarting hdoctype =>
    rw [nextAt?_of_doctype h hend hstarting, hdoctype, Option.elim]
  | case3 p hend hstarting q hdoctype ih =>
    have hq := h.ahead (covers_of_doctypeEnd? hdoctype)
    rw [nextAt?_of_doctype h hend hstarting, hdoctype]
    exact ih hq
  | case4 p hend e q hnot hread | case5 p hend lexeme q hnot hread =>
    rw [nextAt?_of_ne h hend hnot, hread]
    rfl

end Lexeme

end Markup

end MarkupQuery
