import Mathlib.Algebra.GroupWithZero.Nat
import MarkupQuery.Proofs.NodeTree.Interning
import MarkupQuery.Proofs.NodeTree.Outline

/-!
# How the tables grow

Every token adds a known number of records to the node table and a known number of bytes to the text
buffer, and at most the bytes of its names and values to the string pool, which keeps each string
once. `Builder.Grows` is the relation between a builder and one that came of it by steps of known
cost. The costs of the steps of a run add up (`grows_takeAll`).
-/

namespace MarkupQuery

/-! ## The cost of a token -/

namespace Markup

/-- The bytes of a name, its namespace included. -/
def ExpandedName.bytes (name : ExpandedName) : Nat :=
  name.base.utf8ByteSize + (name.space.getD "").utf8ByteSize

/-- The bytes of an attribute, its value included. -/
def Attribute.bytes (a : Attribute) : Nat :=
  a.name.bytes + a.value.utf8ByteSize

/-- The strings of a name, its namespace included. -/
def ExpandedName.strings (name : ExpandedName) : List String :=
  name.base :: name.space.toList

/-- The strings of an attribute, its value included. -/
def Attribute.strings (a : Attribute) : List String :=
  a.name.strings ++ [a.value]

namespace Token

/-- The number of records that a token adds. -/
def recordCount : Token → Nat
  | .startTag _ attributes => attributes.length + 1
  | .endTag | .text _ | .comment _ | .instruction _ _ => 1

/-- The number of bytes that a token adds to the text buffer. -/
def textBytes : Token → Nat
  | .startTag _ _ | .endTag => 0
  | .text content | .comment content | .instruction _ content => content.utf8ByteSize

/-- The number of bytes of the names and values of a token. -/
def nameBytes : Token → Nat
  | .startTag name attributes => name.bytes + (attributes.map Attribute.bytes).sum
  | .endTag | .text _ | .comment _ => 0
  | .instruction target _ => target.utf8ByteSize

/-- The names and values of a token, in the order in which they are interned. -/
def strings : Token → List String
  | .startTag name attributes => name.strings ++ attributes.flatMap Attribute.strings
  | .endTag | .text _ | .comment _ => []
  | .instruction target _ => [target]

end Token

end Markup

namespace NodeTree

open Markup

namespace Builder

/-- The tables of `b'` are those of `b` with this many records and bytes of text more, and with at
most this many bytes of strings more. -/
structure Grows (b b' : Builder) (records textBytes nameBytes : Nat) : Prop where
  records_eq : b'.records.size = b.records.size + records
  text_eq : b'.text.size = b.text.size + textBytes
  le_strings : b.strings.data.size ≤ b'.strings.data.size
  strings_le : b'.strings.data.size ≤ b.strings.data.size + nameBytes

namespace Grows

variable {b b' b'' : Builder} {m n i j k l : Nat}

theorem refl (b : Builder) : b.Grows b 0 0 0 :=
  ⟨rfl, rfl, Nat.le_refl _, Nat.le_refl _⟩

theorem trans (h : b.Grows b' i j k) (h' : b'.Grows b'' l m n) :
    b.Grows b'' (i + l) (j + m) (k + n) := by
  obtain ⟨h₁, h₂, h₃, h₄⟩ := h
  obtain ⟨h₁', h₂', h₃', h₄'⟩ := h'
  constructor <;> omega

theorem cast (h : b.Grows b' i j k) (hi : i = l) (hj : j = m) (hk : k = n) : b.Grows b' l m n :=
  hi ▸ hj ▸ hk ▸ h

end Grows

/-! ## Steps -/

theorem grows_intern (b : Builder) (s : String) : b.Grows (b.intern s).2 0 0 s.utf8ByteSize := by
  have h := StringPool.size_data_internBy StringPool.hashOf b.strings s
  exact ⟨rfl, rfl, h.1, h.2⟩

theorem grows_internSpace (b : Builder) (space : Option String) :
    b.Grows (b.internSpace space).2 0 0 (space.getD "").utf8ByteSize := by
  cases space with
  | none => exact .refl b
  | some s => exact b.grows_intern s

theorem grows_addRecord (b : Builder) (r : Record) : b.Grows (b.addRecord r) 1 0 0 :=
  ⟨Array.size_push _, rfl, Nat.le_refl _, Nat.le_refl _⟩

/-- The records that an attribute and an element add hold the numbers of their strings, which are
interned one after the other. -/
theorem addAttribute_eq (b : Builder) (element : NodeId) (a : Attribute) :
    b.addAttribute element a =
      let named := b.intern a.name.base
      let spaced := named.2.internSpace a.name.space
      let valued := spaced.2.intern a.value
      valued.2.addRecord (Record.attributeOf named.1 spaced.1 valued.1 element b.nextId) :=
  rfl

/-- The builder in which an element has its record, and neither its attributes nor a place among
the open elements. -/
def addElement (b : Builder) (name : ExpandedName) : Builder :=
  let named := b.intern name.base
  let spaced := named.2.internSpace name.space
  spaced.2.addRecord (Record.elementOf named.1 spaced.1 b.current b.nextId)

theorem startElement_eq (b : Builder) (name : ExpandedName) (attributes : List Attribute) :
    b.startElement name attributes =
      let filled := attributes.foldl (fun b' a => b'.addAttribute b.nextId a) (b.addElement name)
      { filled with openElements := b.nextId :: filled.openElements } :=
  rfl

theorem grows_addAttribute (b : Builder) (element : NodeId) (a : Attribute) :
    b.Grows (b.addAttribute element a) 1 0 a.bytes := by
  rw [addAttribute_eq]
  exact ((((b.grows_intern _).trans (grows_internSpace _ _)).trans (grows_intern _ _)).trans
    (grows_addRecord _ _)).cast rfl rfl rfl

theorem grows_addElement (b : Builder) (name : ExpandedName) :
    b.Grows (b.addElement name) 1 0 name.bytes :=
  (((b.grows_intern _).trans (grows_internSpace _ _)).trans (grows_addRecord _ _)).cast rfl rfl rfl

theorem grows_addAttributes (attributes : List Attribute) (b : Builder) (element : NodeId) :
    b.Grows (attributes.foldl (fun b a => b.addAttribute element a) b) attributes.length 0
      (attributes.map Attribute.bytes).sum := by
  induction attributes generalizing b with
  | nil => exact .refl b
  | cons a rest ih =>
    exact ((b.grows_addAttribute element a).trans (ih (b.addAttribute element a))).cast
      (Nat.add_comm ..) rfl (by simp)

theorem grows_startElement (b : Builder) (name : ExpandedName) (attributes : List Attribute) :
    b.Grows (b.startElement name attributes) (attributes.length + 1) 0
      (name.bytes + (attributes.map Attribute.bytes).sum) := by
  have h := (b.grows_addElement name).trans (grows_addAttributes attributes _ b.nextId)
  rw [startElement_eq]
  exact Grows.cast ⟨h.records_eq, h.text_eq, h.le_strings, h.strings_le⟩ (Nat.add_comm ..) rfl rfl

theorem grows_leaf (b : Builder) (kind : NodeKind) (target content : String) :
    b.Grows (b.leaf kind target content) 1 content.utf8ByteSize target.utf8ByteSize := by
  have h := b.grows_intern target
  refine ⟨Array.size_push _, ?_, h.le_strings, h.strings_le⟩
  exact ByteArray.size_append.trans (by simp)

theorem grows_close (b : Builder) (element : NodeId) : b.Grows (b.close element) 1 0 0 :=
  ⟨by simp [close], rfl, Nat.le_refl _, Nat.le_refl _⟩

/-- A token that is not refused adds what it costs. -/
theorem grows_push (b : Builder) (t : Token) (h : (b.push t).1 = true) :
    b.Grows (b.push t).2 t.recordCount t.textBytes t.nameBytes := by
  cases t with
  | startTag name attributes => exact b.grows_startElement name attributes
  | endTag =>
    simp only [push, endElement] at h ⊢
    split at h
    · cases h
    · rename_i element outer hopen
      exact ⟨(grows_close { b with openElements := outer } element).records_eq, rfl,
        Nat.le_refl _, Nat.le_refl _⟩
  | text content => exact b.grows_leaf .text "" content
  | comment content => exact b.grows_leaf .comment "" content
  | instruction target content => exact b.grows_leaf .instruction target content

/-! ## Runs -/

/-- Tokens that are all taken add what they cost together. -/
theorem grows_takeAll {ε : Type} {tokens : List Token} {b b' : Builder} {taken : Nat}
    (h : b.takeAll taken (tokens.map (Except.ok : Token → Except ε Token)) = .ok b') :
    b.Grows b' (tokens.map Token.recordCount).sum (tokens.map Token.textBytes).sum
      (tokens.map Token.nameBytes).sum := by
  induction tokens generalizing b taken with
  | nil =>
    obtain rfl := Except.ok.inj h
    exact .refl b
  | cons t rest ih =>
    rw [List.map_cons, takeAll] at h
    split at h
    · rename_i next hpush
      have hgrows := b.grows_push t (by rw [hpush])
      rw [hpush] at hgrows
      exact hgrows.trans (ih h)
    · cases h

end Builder

namespace Document

/-- Items that make a document are taken one after the other, and then the root is closed. -/
theorem exists_takeAll_of_ofItems {ε : Type} {items : List (Except ε Token)} {d : Document}
    (h : Document.ofItems items = .ok d) :
    ∃ b, Builder.empty.takeAll 0 items = .ok b ∧ b.openElements = [] ∧
      d = ⟨(b.close 0).records, (b.close 0).children, (b.close 0).text,
        (b.close 0).strings.freeze⟩ := by
  unfold ofItems at h
  split at h
  · cases h
  · rename_i b hb
    split at h
    · rename_i d' hd
      obtain rfl := Except.ok.inj h
      exact ⟨b, hb, (b.finish_eq_ok_iff d').1 hd⟩
    · cases h

/-- A document that is built from tokens is as large as they say; the root and its end mark are two
records more. -/
theorem sizes_of_ofItems {ε : Type} {tokens : List Token} {d : Document}
    (h : Document.ofItems (tokens.map (Except.ok : Token → Except ε Token)) = .ok d) :
    d.recordCount = (tokens.map Token.recordCount).sum + 2 ∧
      d.textLength = (tokens.map Token.textBytes).sum ∧
      d.strings.bytesUsed ≤ (tokens.map Token.nameBytes).sum := by
  obtain ⟨b, hb, -, rfl⟩ := exists_takeAll_of_ofItems h
  obtain ⟨hrecords, htext, -, hstrings⟩ := (Builder.grows_takeAll hb).trans (b.grows_close 0)
  refine ⟨hrecords.trans ?_, htext.trans ?_, Nat.le_trans hstrings ?_⟩
  · rw [show Builder.empty.records.size = 1 from rfl]
    omega
  · rw [show Builder.empty.text.size = 0 from rfl]
    omega
  · rw [show Builder.empty.strings.data.size = 0 from rfl]
    omega

end Document

end NodeTree

end MarkupQuery
