import MarkupQuery.Proofs.Markup.Lexemes
import MarkupQuery.Proofs.Text.Covering

/-!
# The extent of lexemes

What a lexeme holds was written in the text between the places before and behind it, so it is no
longer than that text: each attribute has its own name, value and quotation marks there, each name
its label and its base, and a slash stands for the end tag of a tag that closes itself.
`Lexeme.Spans` states this in three ways, for the records that come of a lexeme, for the bytes of
its text and for the bytes of its strings. The main statement is `Lexeme.extent_next`: the place
that reading leaves lies ahead, also when it fails, and a lexeme spans the ground in between.
-/

namespace MarkupQuery.Markup

open Text
open String (ofList)

variable {p q : Place}

/-! ## Names -/

/-- The parts of a name as it is written: the label, if there is one, and the base. -/
def nameParts (name : String) : List String :=
  (splitLabel name).1.toList ++ [(splitLabel name).2]

theorem bytesOf_nameParts_le (name : String) : bytesOf (nameParts name) ≤ name.utf8ByteSize := by
  unfold nameParts splitLabel
  dsimp only
  split
  · exact Nat.le_refl _
  · rename_i hparts
    rw [Bool.or_eq_true, not_or] at hparts
    -- the base is not empty, so there is a colon between label and base
    obtain ⟨c, cs, hcs⟩ : ∃ c cs, name.toList.dropWhile (· != ':') = c :: cs :=
      List.exists_cons_of_ne_nil fun hnil => hparts.2 (by rw [hnil]; rfl)
    have hbytes : byteLength (name.toList.takeWhile (· != ':')) + byteLength (c :: cs) =
        name.utf8ByteSize := by
      rw [← hcs, ← byteLength_append, List.takeWhile_append_dropWhile, byteLength_toList]
    rw [byteLength_cons] at hbytes
    simp only [hcs, Option.toList_some, List.singleton_append, List.tail_cons, bytesOf_cons,
      bytesOf_nil, utf8ByteSize_ofList]
    omega

/-! ## Attributes -/

namespace RawAttribute

/-- The parts of an attribute as it is written. -/
def parts (a : RawAttribute) : List String :=
  nameParts a.name ++ [a.value]

theorem covers_of_readValue {value : String} (h : readValue p = .ok (value, q)) :
    p.Covers (value.utf8ByteSize + 2) q := by
  unfold readValue at h
  split at h
  · rename_i quote rest hrest
    split at h
    · dsimp only at h
      split at h
      · cases h
      · rename_i c cs hstop
        split at h
        · rename_i hc
          obtain ⟨rfl, rfl⟩ := Prod.mk.inj (Except.ok.inj h)
          have hopen := Place.covers_of_sees (Place.sees_iff.2 ⟨rest, hrest⟩)
          have hclose := Place.covers_of_sees (Place.sees_iff.2 ⟨cs, hstop⟩)
          refine ((hopen.trans (Place.covers_span _ _)).trans hclose).weaken ?_
          have hvalue := Reference.byteLength_decodeChars_le
            ((p.forward 1).span fun c => !(c == quote || c == '<')).1
          rw [utf8ByteSize_ofList]
          omega
        · cases h
    · cases h
  · cases h

theorem covers_of_read {a : RawAttribute} (h : read p = .ok (a, q)) :
    p.Covers (bytesOf a.parts + 1) q := by
  unfold read at h
  split at h
  · cases h
  · rename_i name afterName hname
    dsimp only at h
    split at h
    · rename_i hsign
      split at h
      · cases h
      · rename_i value next hvalue
        obtain ⟨rfl, rfl⟩ := Prod.mk.inj (Except.ok.inj h)
        have hleft := ((Place.covers_of_name? hname).trans (Place.covers_skipBlank _)).trans
          (Place.covers_of_sees hsign)
        refine ((hleft.trans (Place.covers_skipBlank _)).trans
          (covers_of_readValue hvalue)).weaken ?_
        have hparts := bytesOf_nameParts_le name
        rw [parts, bytesOf_append, bytesOf_cons, bytesOf_nil]
        dsimp only
        omega
    · cases h

/-- Each attribute of a list has its own ground, with one byte more than its parts. -/
theorem exists_of_readList {done attributes : List RawAttribute}
    (h : readList done p = .ok attributes) :
    ∃ new, attributes = done.reverse ++ new ∧
      bytesOf (new.flatMap parts) + new.length ≤ byteLength p.rest := by
  fun_induction readList done p with
  | case1 done p hend =>
    obtain rfl := Except.ok.inj h
    exact ⟨[], (List.append_nil _).symm, Nat.zero_le _⟩
  | case2 done p hend hblank => cases h
  | case3 done p hend hblank e hread => cases h
  | case4 done p hend hblank a next hread ih =>
    obtain ⟨new, rfl, hnew⟩ := ih h
    have hground := ((Place.covers_skipBlank p).trans (covers_of_read hread)).byteLength_le
    refine ⟨a :: new, by rw [List.reverse_cons, List.append_assoc]; rfl, ?_⟩
    rw [List.flatMap_cons, bytesOf_append, List.length_cons]
    omega

theorem bytesOf_of_parse {base : Nat} {list : List Char} {attributes : List RawAttribute}
    (h : parse base list = .ok attributes) :
    bytesOf (attributes.flatMap parts) + attributes.length ≤ byteLength list := by
  obtain ⟨new, rfl, hnew⟩ := exists_of_readList h
  exact hnew

end RawAttribute

/-! ## Lexemes -/

theorem Construct.opener_isPrefix (cs : List Char) : (starting cs).opener <+: cs := by
  unfold starting
  cases hfind : ordered.find? fun construct => construct.opener.isPrefixOf cs with
  | none => exact List.nil_prefix
  | some construct => exact List.isPrefixOf_iff_prefix.1 (by simpa using List.find?_some hfind)

namespace Lexeme

variable {lexeme : Lexeme} {result : Except ReadError Lexeme} {construct : Construct}

/-- The number of records that come of a lexeme. -/
def recordCount : Lexeme → Nat
  | .startTag _ attributes closes _ => attributes.length + 1 + closes.toNat
  | .endTag _ _ | .text _ | .comment _ | .instruction _ _ => 1

/-- The number of bytes of the text of a lexeme. -/
def textBytes : Lexeme → Nat
  | .startTag _ _ _ _ | .endTag _ _ => 0
  | .text content | .comment content | .instruction _ content => content.utf8ByteSize

/-- The strings of a lexeme, names in parts. -/
def strings : Lexeme → List String
  | .startTag name attributes _ _ => nameParts name ++ attributes.flatMap RawAttribute.parts
  | .instruction target _ => [target]
  | .endTag _ _ | .text _ | .comment _ => []

/-- A lexeme takes up no more than the ground between two places, whatever of it is counted. If the
tag is refused, reading goes back to a place on that ground. -/
structure Spans (lexeme : Lexeme) (p q : Place) : Prop where
  records : p.Covers lexeme.recordCount q
  text : p.Covers lexeme.textBytes q
  strings : p.Covers (bytesOf lexeme.strings) q
  back : ∀ name attributes closes afterName, lexeme = .startTag name attributes closes afterName →
    p.Covers 0 afterName

theorem Spans.trans {r : Place} (h : p.Covers 0 q) (hspans : lexeme.Spans q r) :
    lexeme.Spans p r where
  records := (h.trans hspans.records).weaken (by omega)
  text := (h.trans hspans.text).weaken (by omega)
  strings := (h.trans hspans.strings).weaken (by omega)
  back _ _ _ _ heq := h.trans (hspans.back _ _ _ _ heq)

/-- The place that reading leaves lies ahead, and a lexeme spans the ground up to it. -/
def Extent (p q : Place) : Except ReadError (Option Lexeme) → Prop
  | .ok (some lexeme) => lexeme.Spans p q
  | .ok none | .error _ => p.Covers 0 q

theorem Extent.behind {r : Place} {result : Except ReadError (Option Lexeme)} (h : p.Covers 0 q)
    (hextent : Extent q r result) : Extent p r result := by
  rcases result with e | _ | lexeme
  · exact h.trans hextent
  · exact h.trans hextent
  · exact Spans.trans h hextent

theorem covers_opener (h : construct.opener <+: p.rest) :
    p.Covers construct.opener.length (p.forward construct.opener.length) :=
  (Place.passes_of_isPrefix h).covers.weaken (length_le_byteLength _)

/-- A lexeme that is no tag, with the ground that it takes. -/
theorem spans_of_covers {n : Nat} (hcovers : p.Covers n q)
    (hback : ∀ name attributes closes afterName,
      lexeme ≠ .startTag name attributes closes afterName)
    (hrecords : lexeme.recordCount ≤ n) (htext : lexeme.textBytes ≤ n)
    (hstrings : bytesOf lexeme.strings ≤ n) : lexeme.Spans p q :=
  ⟨hcovers.weaken hrecords, hcovers.weaken htext, hcovers.weaken hstrings,
    fun _ _ _ _ heq => absurd heq (hback _ _ _ _)⟩

theorem extent_readText (hp : p.rest ≠ [])
    (hstarting : Construct.starting p.rest = .characterData) (h : readText p = (result, q)) :
    Extent p q (result.map some) := by
  obtain ⟨rfl, rfl⟩ := Prod.mk.inj h
  have hlt : (p.span fun c => c != '<').2.rest.length < p.rest.length :=
    length_rest_of_readText hp hstarting rfl
  have hcovers := p.covers_span fun c => c != '<'
  have hpasses := p.passes_span fun c => c != '<'
  have hdecode := Reference.byteLength_decodeChars_le (p.span fun c => c != '<').1
  have hlength := congrArg List.length hpasses.rest_eq
  have hle := length_le_byteLength (p.span fun c => c != '<').1
  rw [List.length_append] at hlength
  refine spans_of_covers hcovers nofun ?_ ?_ (Nat.zero_le _)
  · change 1 ≤ _
    omega
  · rw [textBytes, utf8ByteSize_ofList]
    exact hdecode

/-- A comment, or a section that is taken as it is written. -/
theorem spans_of_upTo? {needle content : List Char} {stop : Place}
    (hopener : construct.opener <+: p.rest) (hne : construct.opener ≠ [])
    (hstop : (p.forward construct.opener.length).upTo? needle = some (content, stop))
    (hback : ∀ name attributes closes afterName,
      lexeme ≠ .startTag name attributes closes afterName)
    (hrecords : lexeme.recordCount = 1) (htext : lexeme.textBytes = byteLength content)
    (hstrings : lexeme.strings = []) : lexeme.Spans p (stop.forward needle.length) := by
  have hpos := List.length_pos_iff.2 hne
  refine spans_of_covers ((covers_opener hopener).trans (Place.covers_of_upTo? hstop)) hback
    ?_ ?_ ?_
  · omega
  · omega
  · rw [hstrings]
    exact Nat.zero_le _

theorem extent_readInstruction (hopener : Construct.instruction.opener <+: p.rest)
    (h : readInstruction p = (result, q)) : Extent p q (result.map some) := by
  have hbody := covers_opener hopener
  unfold readInstruction at h
  dsimp only at h
  split at h
  · obtain ⟨rfl, rfl⟩ := Prod.mk.inj h
    exact hbody.weaken (Nat.zero_le _)
  · rename_i target afterName hname
    have hafter := hbody.trans (Place.covers_of_name? hname)
    split at h
    · obtain ⟨rfl, rfl⟩ := Prod.mk.inj h
      exact hafter.weaken (Nat.zero_le _)
    · rename_i content stop hstop
      have hcovers := hafter.trans (Place.covers_of_upTo? hstop)
      split at h
      · obtain ⟨rfl, rfl⟩ := Prod.mk.inj h
        refine spans_of_covers hcovers nofun ?_ ?_ ?_
        · change 1 ≤ 2 + _ + _
          omega
        · -- the white space in front is left out
          have hsplit : byteLength (content.takeWhile isBlank) +
              byteLength (content.dropWhile isBlank) = byteLength content := by
            rw [← byteLength_append, List.takeWhile_append_dropWhile]
          rw [textBytes, utf8ByteSize_ofList]
          omega
        · rw [strings, bytesOf_cons, bytesOf_nil]
          omega
      · obtain ⟨rfl, rfl⟩ := Prod.mk.inj h
        exact hcovers.weaken (Nat.zero_le _)

theorem extent_readEndTag (hopener : Construct.endTag.opener <+: p.rest)
    (h : readEndTag p = (result, q)) : Extent p q (result.map some) := by
  have hbody := covers_opener hopener
  unfold readEndTag at h
  dsimp only at h
  split at h
  · obtain ⟨rfl, rfl⟩ := Prod.mk.inj h
    exact hbody.weaken (Nat.zero_le _)
  · rename_i name afterName hname
    have hstop := (hbody.trans (Place.covers_of_name? hname)).trans (Place.covers_skipBlank _)
    split at h
    · obtain ⟨rfl, rfl⟩ := Prod.mk.inj h
      refine spans_of_covers (hstop.trans (Place.covers_forward _ 1)) nofun ?_ (Nat.zero_le _)
        (Nat.zero_le _)
      change 1 ≤ 2 + _ + _ + _
      omega
    · split at h <;>
      · obtain ⟨rfl, rfl⟩ := Prod.mk.inj h
        exact hstop.weaken (Nat.zero_le _)

theorem byteLength_splitSlash (inner : List Char) :
    byteLength (splitSlash inner).1 + (splitSlash inner).2.toNat ≤ byteLength inner := by
  unfold splitSlash
  split
  · rename_i hlast
    obtain ⟨init, rfl⟩ := List.getLast?_eq_some_iff.1 (beq_iff_eq.1 hlast)
    rw [List.dropLast_concat, byteLength_append, byteLength_cons]
    have := '/'.utf8Size_pos
    simp only [Bool.toNat_true]
    omega
  · exact Nat.le_refl _

theorem extent_readStartTag (hopener : Construct.startTag.opener <+: p.rest)
    (h : readStartTag p = (result, q)) : Extent p q (result.map some) := by
  have hbody := covers_opener hopener
  unfold readStartTag at h
  dsimp only at h
  split at h
  · obtain ⟨rfl, rfl⟩ := Prod.mk.inj h
    exact hbody.weaken (Nat.zero_le _)
  · rename_i name afterName hname
    have hafter := hbody.trans (Place.covers_of_name? hname)
    split at h
    · obtain ⟨rfl, rfl⟩ := Prod.mk.inj h
      exact hafter.weaken (Nat.zero_le _)
    · rename_i inner stop hstop
      split at h
      · obtain ⟨rfl, rfl⟩ := Prod.mk.inj h
        exact hafter.weaken (Nat.zero_le _)
      · rename_i attributes hparse
        obtain ⟨rfl, rfl⟩ := Prod.mk.inj h
        obtain ⟨hinner, hsees⟩ := Place.passes_of_upToTagEnd? hstop
        have hcovers := (hafter.trans hinner.covers).trans (Place.covers_of_sees hsees)
        have hsplit := byteLength_splitSlash inner
        have hlist := RawAttribute.bytesOf_of_parse hparse
        have hparts := bytesOf_nameParts_le name
        refine ⟨hcovers.weaken ?_, hcovers.weaken (Nat.zero_le _), hcovers.weaken ?_, ?_⟩
        · rw [recordCount]
          omega
        · rw [strings, bytesOf_append]
          omega
        · rintro _ _ _ _ heq
          obtain ⟨-, -, -, rfl⟩ := Lexeme.startTag.inj heq
          exact hafter.weaken (Nat.zero_le _)

theorem extent_read (hp : p.rest ≠ []) (hstarting : Construct.starting p.rest = construct)
    (h : read construct p = (result, q)) : Extent p q (result.map some) := by
  have hopener : construct.opener <+: p.rest := hstarting ▸ Construct.opener_isPrefix p.rest
  cases construct with
  | characterData => exact extent_readText hp hstarting h
  | doctype | declaration =>
    obtain ⟨rfl, rfl⟩ := Prod.mk.inj h
    exact .refl p
  | comment =>
    rw [read, readComment] at h
    split at h
    · obtain ⟨rfl, rfl⟩ := Prod.mk.inj h
      exact p.covers_forward _
    · rename_i content stop hstop
      obtain ⟨rfl, rfl⟩ := Prod.mk.inj h
      exact spans_of_upTo? hopener (by decide) hstop (by simp) rfl (utf8ByteSize_ofList content) rfl
  | cdata =>
    rw [read, readCdata] at h
    split at h
    · obtain ⟨rfl, rfl⟩ := Prod.mk.inj h
      exact p.covers_forward _
    · rename_i content stop hstop
      obtain ⟨rfl, rfl⟩ := Prod.mk.inj h
      exact spans_of_upTo? hopener (by decide) hstop (by simp) rfl (utf8ByteSize_ofList content) rfl
  | instruction => exact extent_readInstruction hopener h
  | endTag => exact extent_readEndTag hopener h
  | startTag => exact extent_readStartTag hopener h

theorem covers_of_doctypeEnd? (h : doctypeEnd? p = some q) : p.Covers 0 q := by
  obtain ⟨n, -, rfl⟩ := Option.map_eq_some_iff.1 h
  exact (p.covers_forward _).trans (Place.covers_forward _ _)

/-- **Reading on covers ground, and a lexeme spans it.** The place that is left lies ahead also if
nothing could be read. -/
theorem extent_next (p : Place) : Extent p (next p).2 (next p).1 := by
  fun_induction next p with
  | case1 p hp => exact .refl p
  | case2 p hp hstarting hq => exact .refl p
  | case3 p hp hstarting q hq ih => exact Extent.behind (covers_of_doctypeEnd? hq) ih
  | case4 p hp e q hnot hread | case5 p hp lexeme q hnot hread =>
    have hne : p.rest ≠ [] := by simpa [Place.atEnd] using hp
    exact extent_read hne rfl hread

end Lexeme

end MarkupQuery.Markup
