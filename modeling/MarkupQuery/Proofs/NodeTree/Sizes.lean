import Mathlib.Algebra.GroupWithZero.Nat
import Mathlib.Data.List.Nodup
import Mathlib.Data.List.Perm.Subperm
import MarkupQuery.Proofs.Markup.Charges
import MarkupQuery.Proofs.NodeTree.Wrapping

/-!
# The sizes of the tables of a text

The tables that are built from a text are hardly longer than the text. Records and texts are charged
to the text that the reader has passed; children are records, and neither the root nor the last end
mark is one; and the pool keeps once each the strings that were written, and the namespace of `xml`.

Numbers and offsets are words of 32 bits, so the pool finds its strings again, and the children of
an element are collected from the right records, as long as words suffice for what is there. The
main statement, `sizes_of_text`, is that they do whenever the text is 64 bytes short of 2³². For
texts that are longer the bounds for records and texts remain; `sizes_of_longTexts` are two texts
with more children and more bytes of strings than the bounds for shorter ones would allow.
-/

namespace MarkupQuery.NodeTree

open Markup Text

/-! ## Records and texts -/

namespace Builder

/-- Tokens add at most their records and texts; those that are refused add nothing. -/
theorem size_run_push_le (tokens : List Token) (b : Builder) :
    (b.run (tokens.map .push)).records.size ≤
        b.records.size + (tokens.map Token.recordCount).sum ∧
      (b.run (tokens.map .push)).text.size ≤
        b.text.size + (tokens.map Token.textBytes).sum := by
  induction tokens generalizing b with
  | nil => exact ⟨Nat.le_refl _, Nat.le_refl _⟩
  | cons t rest ih =>
    rw [List.map_cons, run_cons, List.map_cons, List.sum_cons, List.map_cons, List.sum_cons]
    obtain ⟨hrecords, htext⟩ := ih (b.apply (.push t))
    cases hanswer : b.answer (.push t) with
    | false =>
      rw [apply_of_refused hanswer] at hrecords htext ⊢
      omega
    | true =>
      have hgrows := b.grows_push t hanswer
      have hsize : (b.apply (.push t)).records.size = b.records.size + t.recordCount :=
        hgrows.records_eq
      have hbytes : (b.apply (.push t)).text.size = b.text.size + t.textBytes := hgrows.text_eq
      omega

end Builder

/-! ## Children -/

namespace Outline

/-- There are no more children than numbers among which they are. -/
theorem Gathered.size_le_of_placed {o : Outline} (h : o.Gathered) {count : Nat}
    (hplaced : ∀ x < o.records.size, o.isPlaced x = true → 1 ≤ x ∧ x < 1 + count) :
    o.children.size ≤ count := by
  have hsub : (List.range o.records.size).filter o.isPlaced ⊆ List.range' 1 count := by
    intro x hx
    rw [List.mem_filter, List.mem_range] at hx
    rw [List.mem_range'_1]
    exact hplaced x hx.1 hx.2
  have hle := (List.subperm_of_subset (List.nodup_range.filter _) hsub).length_le
  have hlength := h.perm.length_eq
  rw [List.length_range'] at hle
  rw [List.length_map, Array.length_toList] at hlength
  omega

/-- The root is nobody's child. -/
theorem Nested.pos_of_isPlaced {o : Outline} (h : o.Nested) {x : Nat} (hx : o.isPlaced x = true) :
    1 ≤ x := by
  obtain ⟨a, -, hchild⟩ := (h.isPlaced_iff x).1 hx
  have hparent := (isChildAt_iff.1 hchild).2
  exact Nat.one_le_of_lt (h.inFront hparent)

theorem children_size_lt {o : Outline} (h : Steps Builder.empty.outline o)
    (hsize : o.records.size < UInt32.size) : o.children.size ≤ o.records.size - 1 := by
  refine (gathered_of_steps h hsize).size_le_of_placed fun x hx hplaced => ?_
  have := (nested_of_steps h hsize).pos_of_isPlaced hplaced
  omega

/-- The end mark of the root is nobody's child either. -/
theorem children_size_close {o : Outline} {e : NodeId} {outer : List NodeId}
    (h : Steps Builder.empty.outline (o.close e outer))
    (hsize : (o.close e outer).records.size < UInt32.size) :
    (o.close e outer).children.size ≤ o.records.size - 1 := by
  refine (gathered_of_steps h hsize).size_le_of_placed fun x hx hplaced => ?_
  have hpos := (nested_of_steps h hsize).pos_of_isPlaced hplaced
  have hlast : x ≠ o.records.size := by
    rintro rfl
    rw [isPlaced, Nested.kindAt_close, if_pos rfl] at hplaced
    cases hplaced
  rw [Nested.size_close] at hx
  omega

end Outline

/-! ## All tables -/

/-- How long the tables of a builder or of a document are. -/
structure TableSizes where
  /-- The number of records. -/
  records : Nat
  /-- The number of children of all elements. -/
  children : Nat
  /-- The number of bytes of all texts. -/
  text : Nat
  /-- The number of strings. -/
  entries : Nat
  /-- The number of bytes of all strings. -/
  data : Nat
  deriving DecidableEq, Repr

/-- The sizes of the tables of a builder. -/
def Builder.sizes (b : Builder) : TableSizes :=
  ⟨b.records.size, b.children.size, b.text.size, b.strings.entries.size, b.strings.data.size⟩

/-- The sizes of the tables of a document. -/
def Document.sizes (d : Document) : TableSizes :=
  ⟨d.recordCount, d.childCount, d.textLength, d.strings.size, d.strings.bytesUsed⟩

namespace TableSizes

/-- A number is in range of a table if it is at most its size. All that a builder turns into words
is: the number of the next record or string and the place where a run or a span begins are the size
of a table, a child has the number of a record, and a run or a span is no longer than the table or
buffer behind it. -/
def InRange (s : TableSizes) (n : Nat) : Prop :=
  n ≤ s.records ∨ n ≤ s.children ∨ n ≤ s.text ∨ n ≤ s.entries ∨ n ≤ s.data

/-- The tables are no longer than a text of some bytes allows. Of children and strings this is said
as long as words suffice: a number that begins again at zero leads to other records, so that
children are collected twice, and to other strings, so that a string is not found and kept twice. -/
structure Within (s : TableSizes) (bytes : Nat) : Prop where
  records : s.records ≤ bytes + 2
  text : s.text ≤ bytes
  children : bytes + 2 < UInt32.size → s.children ≤ bytes
  data : bytes + 36 < UInt32.size → s.data ≤ bytes + 36
  /-- Every number of the tables is a word. -/
  exact : bytes + 64 < UInt32.size → ∀ n, s.InRange n → n.toUInt32.toNat = n

theorem Within.of_le {s : TableSizes} {bytes : Nat} (hrecords : s.records ≤ bytes + 2)
    (htext : s.text ≤ bytes) (hchildren : bytes + 2 < UInt32.size → s.children ≤ bytes)
    (hstrings : bytes + 36 < UInt32.size → s.entries ≤ s.data + 1 ∧ s.data ≤ bytes + 36) :
    s.Within bytes where
  records := hrecords
  text := htext
  children := hchildren
  data h := (hstrings h).2
  exact h n hn := by
    have hchildren := hchildren (by omega)
    have hstrings := hstrings (by omega)
    unfold InRange at hn
    exact UInt32.toNat_ofNat_of_lt' (by omega)

end TableSizes

namespace Builder

variable {text : String} {r : Reader} {tokens : List Token}

/-- The pool keeps what was written, once each. -/
theorem data_size_le_of_account (h : r.Account text tokens)
    (hsize : text.utf8ByteSize + 36 < UInt32.size) :
    (empty.run (tokens.map .push)).strings.Sound ∧
      (empty.run (tokens.map .push)).strings.data.size ≤ text.utf8ByteSize + 36 := by
  obtain ⟨written, hbytes, hstrings, -⟩ := h.strings
  have hposition := h.position_le
  have huri : Scopes.xmlUri.utf8ByteSize = 36 := rfl
  have hle : bytesOf (StringPool.kept (tokens.flatMap Token.strings)) ≤
      bytesOf (Scopes.xmlUri :: written) :=
    bytesOf_le_of_subset (StringPool.nodup_kept _) fun s hs =>
      hstrings (StringPool.mem_kept_iff.1 hs).1
  rw [bytesOf_cons, huri] at hle
  have hkeeps := StringPool.keeps_internAll StringPool.hashOf
    (tokens.flatMap Token.strings) (by omega)
  rw [strings_run_push]
  refine ⟨hkeeps.sound, ?_⟩
  have hdata := hkeeps.size_data
  change (StringPool.empty.internAll _ _).data.size ≤ _
  omega

theorem within_of_account (h : r.Account text tokens) :
    (empty.run (tokens.map .push)).sizes.Within text.utf8ByteSize := by
  obtain ⟨hrecords, htext⟩ := size_run_push_le tokens empty
  have hone : empty.records.size = 1 := rfl
  have hnone : empty.text.size = 0 := rfl
  have hcharged := h.records
  have hbytes := h.textBytes
  have hposition := h.position_le
  have hsize : (empty.run (tokens.map .push)).records.size ≤ text.utf8ByteSize + 1 := by omega
  refine .of_le (Nat.le_succ_of_le hsize) ?_ (fun hword => ?_) fun hword => ?_
  · exact Nat.le_trans htext (by omega)
  · have hlt : (empty.run (tokens.map .push)).records.size < UInt32.size := by omega
    have := Outline.children_size_lt (steps_run _ _ hlt) hlt
    change (empty.run (tokens.map .push)).outline.children.size ≤ _
    change _ ≤ (empty.run (tokens.map .push)).records.size - 1 at this
    omega
  · obtain ⟨hsound, hdata⟩ := data_size_le_of_account h hword
    exact ⟨hsound.size_le, hdata⟩

theorem within_of_finish (h : r.Account text tokens) {d : Document}
    (hd : (empty.run (tokens.map .push)).finish = .ok d) : d.sizes.Within text.utf8ByteSize := by
  obtain ⟨hrecords, htext⟩ := size_run_push_le tokens empty
  have hone : empty.records.size = 1 := rfl
  have hnone : empty.text.size = 0 := rfl
  have hcharged := h.records
  have hbytes := h.textBytes
  have hposition := h.position_le
  obtain ⟨-, hclosed⟩ := (finish_eq_ok_iff _ d).1 hd
  have hgrows := (empty.run (tokens.map .push)).grows_close 0
  have hsize : d.recordCount = (empty.run (tokens.map .push)).records.size + 1 := by
    rw [hclosed]
    exact hgrows.records_eq
  refine .of_le ?_ ?_ (fun hword => ?_) fun hword => ?_
  · change d.recordCount ≤ _
    omega
  · rw [hclosed]
    exact Nat.le_trans htext (by omega)
  · have hlt : d.recordCount < UInt32.size := by omega
    have hsteps := steps_run_finish hd hlt
    rw [hclosed] at hsteps hlt ⊢
    have hle : ((empty.run (tokens.map .push)).close 0).children.size ≤
        (empty.run (tokens.map .push)).records.size - 1 :=
      Outline.children_size_close (o := (empty.run (tokens.map .push)).outline) hsteps hlt
    exact Nat.le_trans hle (by omega)
  · obtain ⟨hsound, hdata⟩ := data_size_le_of_account h hword
    rw [hclosed]
    exact ⟨hsound.size_le, hdata⟩

end Builder

namespace Document

/-- A text that makes a document is read with one call for each token, and the builder that has
taken them is finished. -/
theorem exists_calls_of_parse {strict : Bool} {text : String} {d : Document}
    (h : parse strict text = .ok d) :
    ∃ calls, (Builder.empty.run (((Reader.start strict text).tokens calls).map .push)).finish =
      .ok d := by
  obtain ⟨tokens, htokens⟩ := exists_tokens_of_ofItems h
  rw [parse, htokens] at h
  obtain ⟨b, hb, hopen, hd⟩ := exists_takeAll_of_ofItems h
  obtain ⟨r', hyields⟩ :=
    Reader.exists_yields_of_itemsOnto (htokens.trans (List.append_nil _).symm)
  refine ⟨.replicate tokens.length .next, ?_⟩
  rw [hyields.tokens_eq, ← Builder.eq_run_of_takeAll hb, Builder.finish_eq_ok_iff]
  exact ⟨hopen, hd⟩

end Document

/-- **Words of 32 bits suffice for the tables of a text.** Whatever calls a reader has had on a text
and a builder has taken what they gave, the tables of the builder, and of the document if it is then
finished, are within the bounds that the text sets; and so are those of the document of the text. -/
theorem sizes_of_text (strict : Bool) (text : String) :
    (∀ calls, let b := Builder.empty.run (((Reader.start strict text).tokens calls).map .push)
      b.sizes.Within text.utf8ByteSize ∧
        ∀ d, b.finish = .ok d → d.sizes.Within text.utf8ByteSize) ∧
    ∀ d, Document.parse strict text = .ok d → d.sizes.Within text.utf8ByteSize := by
  have hcalls (calls : List Reader.Call) := Reader.account_after strict text calls
  refine ⟨fun calls => ⟨Builder.within_of_account (hcalls calls), fun d hd =>
    Builder.within_of_finish (hcalls calls) hd⟩, fun d hd => ?_⟩
  obtain ⟨calls, hfinish⟩ := Document.exists_calls_of_parse hd
  exact Builder.within_of_finish (hcalls calls) hfinish

/-- An element with an attribute, a reference in its text and an element that closes itself. -/
def briefText : String :=
  "<a x='1'>t&lt;<b/></a>"

/-- The tokens of `briefText`. -/
def briefTokens : List Token :=
  [.startTag ⟨none, "a"⟩ [⟨⟨none, "x"⟩, "1"⟩], .text "t<", .startTag ⟨none, "b"⟩ [], .endTag,
    .endTag]

theorem sizes_of_briefText :
    ∃ d, Document.parse true briefText = .ok d ∧ d.sizes = ⟨8, 3, 2, 5, 4⟩ ∧
      d.sizes.Within briefText.utf8ByteSize := by
  have hitems : (Reader.start true briefText).items = briefTokens.map .ok := by decide +kernel
  obtain ⟨d, h, hchildren⟩ : ∃ d,
      Document.ofItems (briefTokens.map (Except.ok : Token → Except ReadError Token)) = .ok d ∧
        d.childCount = 3 := ⟨_, rfl, by decide +kernel⟩
  obtain ⟨hrecords, htext, -⟩ := Document.sizes_of_ofItems h
  have hkeeps := StringPool.keeps_internAll StringPool.hashOf (briefTokens.flatMap Token.strings)
    (by decide +kernel)
  have hentries : d.strings.size = 5 := by
    rw [Document.strings_of_ofItems h]
    exact hkeeps.size_entries.trans (by decide +kernel)
  have hdata : d.strings.bytesUsed = 4 := by
    rw [Document.strings_of_ofItems h]
    exact hkeeps.size_data.trans (by decide +kernel)
  have hd : Document.parse true briefText = .ok d := by rw [Document.parse, hitems, h]
  refine ⟨d, hd, ?_, (sizes_of_text true briefText).2 d hd⟩
  rw [Document.sizes, hrecords, hchildren, htext, hentries, hdata]
  rfl

/-! ## Texts for which words do not suffice -/

/-- An element in a namespace of so many letters, which it declares itself. -/
def longSpaceText (letters : Nat) : String :=
  declaringText (String.ofList (List.replicate letters 'u'))

/-- Comments, and behind them elements one inside the other. -/
def nestedText (comments depth : Nat) : String :=
  ((Forest.nest depth).behind (List.replicate comments (.comment ""))).markup

theorem data_of_longSpaceText {letters : Nat} (h : UInt32.size ≤ letters) :
    ∃ d, Document.parse true (longSpaceText letters) = .ok d ∧
      (longSpaceText letters).utf8ByteSize + 36 < d.sizes.data := by
  have hletters : letters ≤ (String.ofList (List.replicate letters 'u')).utf8ByteSize := by
    have hlength := length_le_byteLength (List.replicate letters 'u')
    rwa [List.length_replicate, ← utf8ByteSize_ofList] at hlength
  have hplain : ∀ c ∈ (String.ofList (List.replicate letters 'u')).toList,
      c ≠ '&' ∧ c ≠ '<' ∧ c ≠ '"' := by
    intro c hc
    rw [String.toList_ofList] at hc
    rw [List.eq_of_mem_replicate hc]
    decide
  obtain ⟨d, hd, hdata⟩ := Document.exists_parse_declaringText true (Nat.le_trans h hletters)
  refine ⟨d, hd, ?_⟩
  have hword : UInt32.size = 4294967296 := rfl
  rw [longSpaceText, utf8ByteSize_declaringText hplain]
  change _ < d.strings.bytesUsed
  omega

theorem children_of_nestedText {comments depth : Nat} (hcomments : comments + 1 = UInt32.size)
    (hdepth : 2 * depth < UInt32.size) (hdeep : 7 * (comments + depth) < depth * depth) :
    ∃ d, Document.parse true (nestedText comments depth) = .ok d ∧
      (nestedText comments depth).utf8ByteSize < d.sizes.children := by
  have hproper : ∀ leaf ∈ List.replicate comments (Leaf.comment ""),
      leaf.Proper ∧ leaf.isText = false := by
    intro leaf hleaf
    rw [List.eq_of_mem_replicate hleaf]
    exact ⟨by decide +kernel, rfl⟩
  obtain ⟨d, hd, hchildren⟩ := Document.exists_parse_behind true
    (by rw [List.length_replicate, hcomments]) hproper (Forest.proper_nest depth)
    (fun _ => Forest.distinct_nest depth) (by rw [Forest.recordCount_nest]; exact hdepth)
  refine ⟨d, hd, ?_⟩
  have hcomment : byteLength (Leaf.comment "").write = 7 := by decide +kernel
  have hnest := Forest.byteLength_nest_le depth
  have hinner := Forest.innerRecordCount_nest depth
  rw [Forest.recordCount_nest] at hchildren
  rw [nestedText, Forest.utf8ByteSize_markup_behind, hcomment]
  change _ < d.childCount
  omega

/-- Without their conditions the bounds for strings and children are false: the element in a
namespace of 2³² letters has it in the pool twice, and 2¹⁸ elements behind 2³² - 1 comments have
more children than the text has bytes. -/
theorem sizes_of_longTexts :
    (∃ d, Document.parse true (longSpaceText UInt32.size) = .ok d ∧
      (longSpaceText UInt32.size).utf8ByteSize + 36 < d.sizes.data) ∧
    ∃ d, Document.parse true (nestedText (UInt32.size - 1) (2 ^ 18)) = .ok d ∧
      (nestedText (UInt32.size - 1) (2 ^ 18)).utf8ByteSize < d.sizes.children :=
  ⟨data_of_longSpaceText (Nat.le_refl _),
    children_of_nestedText (by decide) (by decide) (by decide)⟩

end MarkupQuery.NodeTree
