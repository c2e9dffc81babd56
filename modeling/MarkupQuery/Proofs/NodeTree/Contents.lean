import Mathlib.Data.List.Forall2
import MarkupQuery.Proofs.NodeTree.Growth

/-!
# What records say

A record holds numbers and spans; what it says are the strings and the text that they stand for,
with its kind and its parent. `Tells` lists what the records of a table say, in order. A builder
puts what a token says behind what its table told before, and nothing that was told ever changes
(`Builder.Tells.push`), so a document tells its tokens one after the other
(`Document.tells_of_ofItems`).

The ends of subtrees and the runs of children are no part of this: they follow from the parents.
-/

namespace MarkupQuery.NodeTree

open Markup

/-! ## Contents -/

/-- What a record says. -/
structure Content where
  /-- What the record stands for. -/
  kind : NodeKind
  /-- The element around it. -/
  parent : Option NodeId
  /-- The local name, or the target of an instruction. -/
  name : String
  /-- The namespace; it is empty if there is none. -/
  space : String
  /-- The value of an attribute. -/
  value : String
  /-- The text of a text, a comment or an instruction. -/
  text : String
  deriving DecidableEq, Repr

namespace Content

/-- The content of the root. -/
def root : Content :=
  ⟨.element, none, "", "", "", ""⟩

/-- The content of an element. -/
def ofElement (parent : NodeId) (name : ExpandedName) : Content :=
  ⟨.element, some parent, name.base, name.space.getD "", "", ""⟩

/-- The content of an attribute. -/
def ofAttribute (element : NodeId) (a : Attribute) : Content :=
  ⟨.attribute, some element, a.name.base, a.name.space.getD "", a.value, ""⟩

/-- The content of a text, a comment or an instruction. -/
def ofLeaf (kind : NodeKind) (parent : NodeId) (target text : String) : Content :=
  ⟨kind, some parent, target, "", "", text⟩

/-- The content of an end mark. -/
def ofEnd (element : NodeId) : Content :=
  ⟨.endMark, some element, "", "", "", ""⟩

end Content

/-- What a token says when the next record has the number `id` and lies in `parent`. -/
def contentsOf (parent id : NodeId) : Token → List Content
  | .startTag name attributes =>
    Content.ofElement parent name :: attributes.map (Content.ofAttribute id)
  | .endTag => [Content.ofEnd parent]
  | .text content => [Content.ofLeaf .text parent "" content]
  | .comment content => [Content.ofLeaf .comment parent "" content]
  | .instruction target content => [Content.ofLeaf .instruction parent target content]

/-- The elements that are open behind a token. -/
def openBehind (id : NodeId) (stack : List NodeId) : Token → List NodeId
  | .startTag _ _ => id :: stack
  | .endTag => stack.tail
  | .text _ | .comment _ | .instruction _ _ => stack

/-- What tokens say when `n` records are in front of them and the elements of `stack` are open. -/
def contentsFrom (stack : List NodeId) (n : Nat) : List Token → List Content
  | [] => []
  | t :: rest =>
    contentsOf (stack.headD 0) n.toUInt32 t ++
      contentsFrom (openBehind n.toUInt32 stack t) (n + t.recordCount) rest

/-! ## Tables and what they tell -/

/-- A record says a content, by the strings and texts for which its fields stand. -/
structure Record.Says (r : Record) (strings : StringPool) (text : ByteArray) (c : Content) :
    Prop where
  kind : r.kind = c.kind
  parent : r.parent = c.parent
  name : strings.Names r.nameId c.name
  space : strings.Names r.spaceId c.space
  space_eq_zero : c.space = "" → r.spaceId = 0
  value : strings.Names r.valueId c.value
  text : r.text.Holds text c.text

/-- The records of a table say the contents of a list, in order. -/
structure Tells (records : Array Record) (strings : StringPool) (text : ByteArray)
    (l : List Content) : Prop where
  length_eq : l.length = records.size
  said : ∀ (i : Nat) (c : Content), l[i]? = some c →
    ∃ r, records[i]? = some r ∧ r.Says strings text c

namespace Tells

variable {records : Array Record} {strings strings' : StringPool} {text : ByteArray}
  {l : List Content} {r : Record} {c : Content}

/-- What is told stays when strings and texts are added. -/
theorem extend (h : Tells records strings text l) (hstrings : strings.Extends strings')
    (more : ByteArray) : Tells records strings' (text ++ more) l where
  length_eq := h.length_eq
  said i c hc := by
    obtain ⟨r, hr, hsaid⟩ := h.said i c hc
    exact ⟨r, hr, hsaid.kind, hsaid.parent, hstrings hsaid.name, hstrings hsaid.space,
      hsaid.space_eq_zero, hstrings hsaid.value, hsaid.text.append more⟩

theorem extend_strings (h : Tells records strings text l) (hstrings : strings.Extends strings') :
    Tells records strings' text l := by
  simpa using h.extend hstrings ByteArray.empty

theorem push (h : Tells records strings text l) (hr : r.Says strings text c) :
    Tells (records.push r) strings text (l ++ [c]) where
  length_eq := by simp [h.length_eq]
  said i c' hc := by
    rw [Array.getElem?_push]
    split
    · rename_i hlast
      rw [hlast, ← h.length_eq, List.getElem?_append_right (Nat.le_refl _), Nat.sub_self] at hc
      obtain rfl := Option.some.inj hc
      exact ⟨r, rfl, hr⟩
    · rename_i hlast
      have hlt := (List.getElem?_eq_some_iff.1 hc).1
      rw [List.length_append, h.length_eq, List.length_singleton] at hlt
      rw [List.getElem?_append_left (by rw [h.length_eq]; omega)] at hc
      exact h.said i c' hc

/-- Where a subtree ends and which children it has is not told. -/
theorem modify (h : Tells records strings text l) (i : Nat) (stop : NodeId) (children : ChildRun) :
    Tells (records.modify i fun r => { r with stop, children }) strings text l where
  length_eq := by simp [h.length_eq]
  said j c hc := by
    obtain ⟨r, hr, hsaid⟩ := h.said j c hc
    rw [Array.getElem?_modify, hr]
    split
    · exact ⟨_, rfl, hsaid.kind, hsaid.parent, hsaid.name, hsaid.space, hsaid.space_eq_zero,
        hsaid.value, hsaid.text⟩
    · exact ⟨r, rfl, hsaid⟩

end Tells

/-! ## Builders -/

namespace Builder

/-- The table of a builder tells a list of contents, and its pool is sound. -/
structure Tells (b : Builder) (l : List Content) : Prop where
  sound : b.strings.Sound
  table : NodeTree.Tells b.records b.strings b.text l

/-- The buffers are short enough for offsets of 32 bits. -/
structure Fits (b : Builder) : Prop where
  text_lt : b.text.size < UInt32.size
  strings_lt : b.strings.data.size < UInt32.size

variable {b b' : Builder} {l : List Content}

theorem Grows.fits {m n k : Nat} (h : b.Grows b' m n k) (hfits : b'.Fits) : b.Fits := by
  have htext := h.text_eq
  have hstrings := h.le_strings
  have := hfits.text_lt
  have := hfits.strings_lt
  exact ⟨by omega, by omega⟩

theorem openElements_addElement (b : Builder) (name : ExpandedName) :
    (b.addElement name).openElements = b.openElements := by
  obtain ⟨space, base⟩ := name
  cases space <;> rfl

theorem openElements_addAttribute (b : Builder) (element : NodeId) (a : Attribute) :
    (b.addAttribute element a).openElements = b.openElements := by
  obtain ⟨⟨space, base⟩, value⟩ := a
  cases space <;> rfl

theorem openElements_addAttributes (attributes : List Attribute) (b : Builder) (element : NodeId) :
    (attributes.foldl (fun b a => b.addAttribute element a) b).openElements = b.openElements := by
  induction attributes generalizing b with
  | nil => rfl
  | cons a rest ih => exact (ih _).trans (b.openElements_addAttribute element a)

theorem tells_empty : Builder.empty.Tells [Content.root] where
  sound := StringPool.sound_empty
  table := by
    refine ⟨rfl, fun i c hc => ?_⟩
    obtain rfl : i = 0 := by
      have := (List.getElem?_eq_some_iff.1 hc).1
      simpa using this
    obtain rfl := Option.some.inj hc
    have hnames := StringPool.sound_empty.names_zero
    exact ⟨Record.root, rfl, rfl, rfl, hnames, hnames, fun _ => rfl, hnames, Span.holds_empty _⟩

/-- A string that is interned has a number, and all that was told stays. -/
theorem Tells.intern (h : b.Tells l) (s : String) (hfits : (b.intern s).2.Fits) :
    (b.intern s).2.Tells l ∧
      b.strings.Interned s (b.intern s).1 (b.intern s).2.strings := by
  have hinterned := StringPool.names_internBy StringPool.hashOf h.sound s hfits.strings_lt
  exact ⟨⟨hinterned.sound, h.table.extend_strings hinterned.extend⟩, hinterned⟩

theorem Tells.internSpace (h : b.Tells l) (space : Option String)
    (hfits : (b.internSpace space).2.Fits) :
    (b.internSpace space).2.Tells l ∧ b.strings.Interned (space.getD "") (b.internSpace space).1
      (b.internSpace space).2.strings := by
  cases space with
  | none => exact ⟨h, h.sound, h.sound.names_zero, fun _ => rfl, .refl _⟩
  | some s => exact h.intern s hfits

theorem Tells.addRecord (h : b.Tells l) {r : Record} {c : Content}
    (hr : r.Says b.strings b.text c) : (b.addRecord r).Tells (l ++ [c]) :=
  ⟨h.sound, h.table.push hr⟩

theorem Tells.addElement (h : b.Tells l) (name : ExpandedName)
    (hfits : (b.addElement name).Fits) :
    (b.addElement name).Tells (l ++ [Content.ofElement b.current name]) := by
  have hfits₂ := (grows_addRecord _ _).fits hfits
  have hfits₁ := (grows_internSpace _ _).fits hfits₂
  obtain ⟨h₁, hname⟩ := h.intern name.base hfits₁
  obtain ⟨h₂, hspace⟩ := h₁.internSpace name.space hfits₂
  exact h₂.addRecord ⟨rfl, rfl, hspace.extend hname.names, hspace.names, hspace.eq_zero,
    h₂.sound.names_zero, Span.holds_empty _⟩

theorem Tells.addAttribute (h : b.Tells l) (element : NodeId) (a : Attribute)
    (hfits : (b.addAttribute element a).Fits) :
    (b.addAttribute element a).Tells (l ++ [Content.ofAttribute element a]) := by
  have hfits₃ := (grows_addRecord _ _).fits hfits
  have hfits₂ := (grows_intern _ _).fits hfits₃
  have hfits₁ := (grows_internSpace _ _).fits hfits₂
  obtain ⟨h₁, hname⟩ := h.intern a.name.base hfits₁
  obtain ⟨h₂, hspace⟩ := h₁.internSpace a.name.space hfits₂
  obtain ⟨h₃, hvalue⟩ := h₂.intern a.value hfits₃
  exact h₃.addRecord ⟨rfl, rfl, hvalue.extend (hspace.extend hname.names),
    hvalue.extend hspace.names, hspace.eq_zero, hvalue.names, Span.holds_empty _⟩

theorem Tells.addAttributes {attributes : List Attribute} (h : b.Tells l) (element : NodeId)
    (hfits : (attributes.foldl (fun b a => b.addAttribute element a) b).Fits) :
    (attributes.foldl (fun b a => b.addAttribute element a) b).Tells
      (l ++ attributes.map (Content.ofAttribute element)) := by
  induction attributes generalizing b l with
  | nil => simpa using h
  | cons a rest ih =>
    have hfirst := (grows_addAttributes rest _ element).fits hfits
    simpa using ih (h.addAttribute element a hfirst) hfits

theorem Tells.leaf (h : b.Tells l) (kind : NodeKind) (target content : String)
    (hfits : (b.leaf kind target content).Fits) :
    (b.leaf kind target content).Tells (l ++ [Content.ofLeaf kind b.current target content]) := by
  have hfits₁ : (b.intern target).2.Fits :=
    ⟨(b.grows_leaf kind target content).fits hfits |>.text_lt, hfits.strings_lt⟩
  obtain ⟨h₁, hname⟩ := h.intern target hfits₁
  refine ⟨h₁.sound, (h₁.table.extend (.refl _) content.toUTF8).push ?_⟩
  exact ⟨rfl, rfl, hname.names, h₁.sound.names_zero, fun _ => rfl, h₁.sound.names_zero,
    Span.holds_append b.text content hfits.text_lt⟩

theorem Tells.close (h : b.Tells l) (element : NodeId) :
    (b.close element).Tells (l ++ [Content.ofEnd element]) := by
  have hnames := h.sound.names_zero
  refine ⟨h.sound, (h.table.push ?_).modify _ _ _⟩
  exact ⟨rfl, rfl, hnames, hnames, fun _ => rfl, hnames, Span.holds_empty _⟩

/-- A token that is taken is told behind all that was told before. -/
theorem Tells.push (h : b.Tells l) {t : Token} (ht : (b.push t).1 = true)
    (hfits : (b.push t).2.Fits) :
    (b.push t).2.Tells (l ++ contentsOf b.current b.nextId t) ∧
      (b.push t).2.openElements = openBehind b.nextId b.openElements t := by
  cases t with
  | startTag name attributes =>
    have hfilled : (attributes.foldl (fun b' a => b'.addAttribute b.nextId a)
        (b.addElement name)).Fits := ⟨hfits.text_lt, hfits.strings_lt⟩
    have hstarted := (grows_addAttributes attributes _ b.nextId).fits hfilled
    have h' := (h.addElement name hstarted).addAttributes b.nextId hfilled
    rw [List.append_assoc] at h'
    exact ⟨⟨h'.sound, h'.table⟩, congrArg (b.nextId :: ·)
      ((openElements_addAttributes ..).trans (b.openElements_addElement name))⟩
  | endTag =>
    simp only [Builder.push, endElement] at ht ⊢
    split at ht
    · cases ht
    · rename_i element outer hopen
      have hcurrent : b.current = element := by rw [current, hopen, List.headD_cons]
      have h' : Tells { b with openElements := outer } l := ⟨h.sound, h.table⟩
      rw [hcurrent]
      exact ⟨h'.close element, by rw [openBehind, hopen]; rfl⟩
  | text content => exact ⟨h.leaf .text "" content hfits, rfl⟩
  | comment content => exact ⟨h.leaf .comment "" content hfits, rfl⟩
  | instruction target content => exact ⟨h.leaf .instruction target content hfits, rfl⟩

/-- Tokens that are all taken are told one after the other. -/
theorem Tells.takeAll {ε : Type} {tokens : List Token} {taken : Nat} (h : b.Tells l)
    (hb : b.takeAll taken (tokens.map (Except.ok : Token → Except ε Token)) = .ok b')
    (hfits : b'.Fits) :
    b'.Tells (l ++ contentsFrom b.openElements b.records.size tokens) := by
  induction tokens generalizing b l taken with
  | nil =>
    obtain rfl := Except.ok.inj hb
    simpa [contentsFrom] using h
  | cons t rest ih =>
    rw [List.map_cons, Builder.takeAll] at hb
    split at hb
    · rename_i next hpush
      have ht : (b.push t).1 = true := by rw [hpush]
      have hgrows := b.grows_push t ht
      have hnext := h.push ht
      rw [hpush] at hgrows hnext
      obtain ⟨h', hopen⟩ := hnext ((grows_takeAll hb).fits hfits)
      have hrest := ih h' hb
      rw [hopen, hgrows.records_eq, List.append_assoc] at hrest
      exact hrest
    · cases hb

end Builder

/-! ## Documents -/

namespace Document

/-- A record of a document says a content. -/
def SaysAt (d : Document) (x : NodeId) (c : Content) : Prop :=
  ∃ r, d.record? x = some r ∧ r.Says d.strings d.text c

/-- The records of a document say the contents of a list, in order, and offsets are exact. -/
structure Tells (d : Document) (l : List Content) : Prop where
  sound : d.strings.Sound
  text_lt : d.textLength < UInt32.size
  length_eq : l.length = d.recordCount
  said : ∀ (i : Nat) (c : Content), l[i]? = some c → d.SaysAt i.toUInt32 c

/-- What a document tells that was built from tokens: the root, the tokens, and the end mark of the
root. -/
theorem tells_of_ofItems {ε : Type} {tokens : List Token} {d : Document}
    (h : Document.ofItems (tokens.map (Except.ok : Token → Except ε Token)) = .ok d)
    (hrecords : d.recordCount < UInt32.size) (htext : d.textLength < UInt32.size)
    (hstrings : d.strings.bytesUsed < UInt32.size) :
    d.Tells (Content.root :: contentsFrom [] 1 tokens ++ [Content.ofEnd 0]) := by
  obtain ⟨b, hb, -, rfl⟩ := exists_takeAll_of_ofItems h
  have htells := (Builder.tells_empty.takeAll hb ⟨htext, hstrings⟩).close 0
  have htable := htells.table.extend_strings (StringPool.extends_freeze _)
  refine ⟨htells.sound.freeze, htext, htable.length_eq, fun i c hc => ?_⟩
  have hlt := (List.getElem?_eq_some_iff.1 hc).1
  have hi : i.toUInt32.toNat = i :=
    UInt32.toNat_ofNat_of_lt' (Nat.lt_trans (Nat.lt_of_lt_of_eq hlt htable.length_eq) hrecords)
  rw [SaysAt, record?, hi]
  exact htable.said i c hc

/-! ### Stretches of the table -/

section Stretch

/-- The records from `n` on say the contents of a list, in order. -/
def SaysFrom (d : Document) (n : Nat) (cs : List Content) : Prop :=
  ∀ i c, cs[i]? = some c → d.SaysAt (n + i).toUInt32 c

variable {d : Document} {n : Nat} {c : Content} {as bs cs l : List Content}

theorem saysFrom_cons_iff :
    d.SaysFrom n (c :: cs) ↔ d.SaysAt n.toUInt32 c ∧ d.SaysFrom (n + 1) cs := by
  constructor
  · intro h
    refine ⟨h 0 c rfl, fun i c' hc' => ?_⟩
    rw [Nat.add_right_comm]
    exact h (i + 1) c' hc'
  · rintro ⟨hhead, htail⟩ i c' hc'
    cases i with
    | zero => exact Option.some.inj hc' ▸ hhead
    | succ i =>
      rw [Nat.add_comm i, ← Nat.add_assoc]
      exact htail i c' hc'

theorem saysFrom_append_iff :
    d.SaysFrom n (as ++ bs) ↔ d.SaysFrom n as ∧ d.SaysFrom (n + as.length) bs := by
  induction as generalizing n with
  | nil => exact ⟨fun h => ⟨fun i c hc => (nomatch hc), h⟩, And.right⟩
  | cons a as ih =>
    rw [List.cons_append, saysFrom_cons_iff, saysFrom_cons_iff, ih, and_assoc, List.length_cons,
      Nat.add_assoc n 1, Nat.add_comm 1]

theorem SaysFrom.forall₂ (h : d.SaysFrom n cs) :
    List.Forall₂ d.SaysAt ((List.range' n cs.length).map Nat.toUInt32) cs := by
  induction cs generalizing n with
  | nil => exact .nil
  | cons c cs ih =>
    obtain ⟨hhead, htail⟩ := saysFrom_cons_iff.1 h
    rw [List.length_cons, List.range'_succ, List.map_cons]
    exact .cons hhead (ih htail)

theorem Tells.saysFrom (h : d.Tells l) : d.SaysFrom 0 l := by
  intro i c hc
  rw [Nat.zero_add]
  exact h.said i c hc

end Stretch

/-! ### Reading a content off -/

namespace SaysAt

variable {d : Document} {x : NodeId} {c : Content}

theorem kind?_eq (h : d.SaysAt x c) : d.kind? x = some c.kind := by
  obtain ⟨r, hr, hsaid⟩ := h
  rw [kind?, hr, Option.map_some, hsaid.kind]

theorem parent?_eq (h : d.SaysAt x c) : d.parent? x = c.parent := by
  obtain ⟨r, hr, hsaid⟩ := h
  rw [parent?, hr, Option.bind_some, hsaid.parent]

theorem localName_eq (h : d.SaysAt x c) : d.localName x = c.name := by
  obtain ⟨r, hr, hsaid⟩ := h
  rw [localName, hr, Option.map_some, Option.getD_some, hsaid.name.get_eq]

theorem space?_eq (h : d.SaysAt x c) (hsound : d.strings.Sound) :
    d.space? x = if c.space = "" then none else some c.space := by
  obtain ⟨r, hr, hsaid⟩ := h
  have hzero := hsound.eq_zero_iff hsaid.space hsaid.space_eq_zero
  simp [space?, hr, hzero, hsaid.space.get_eq]

theorem value?_eq (h : d.SaysAt x c) :
    d.value? x = if c.kind = .attribute then some c.value else none := by
  obtain ⟨r, hr, hsaid⟩ := h
  simp [value?, hr, Record.isAttribute, hsaid.kind, hsaid.value.get_eq]

theorem text?_eq (h : d.SaysAt x c) (hsize : d.textLength < UInt32.size) :
    d.text? x = if c.kind.hasText then some c.text else none := by
  obtain ⟨r, hr, hsaid⟩ := h
  simp [text?, hr, recordText?, hsaid.kind, hsaid.text.slice_eq hsize]

end SaysAt

end Document

end MarkupQuery.NodeTree
