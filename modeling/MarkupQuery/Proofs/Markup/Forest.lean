import MarkupQuery.Markup.Reader
import MarkupQuery.Proofs.NodeTree.Growth
import MarkupQuery.Proofs.Text.Escape
import MarkupQuery.Proofs.Text.Passing

/-!
# Forests and their markup

A forest is an ordered list of trees, as a first tree with the trees behind it. A tree is an
element with its attributes and the forest inside it, or a leaf: a text, a comment or an
instruction. `Forest.write` is the markup of a forest, `Forest.tokens` the tokens that a reader
should make of it.

Not every forest can be read back from its markup: two texts side by side read as one, a comment
ends at the first `-->`, a colon splits a name, and an attribute `xmlns` is a declaration.
`Forest.Proper` leaves these out. `Forest.Distinct` says that no element repeats the name of an
attribute, which a strict reader refuses.
-/

namespace MarkupQuery.Markup

open Text NodeTree
open String (ofList)

/-- A tree with nothing inside that is no element. -/
inductive Leaf
  /-- A text. -/
  | text (content : String)
  /-- A comment. -/
  | comment (content : String)
  /-- A processing instruction. -/
  | instruction (target content : String)
  deriving DecidableEq, Repr

/-- An ordered forest: nothing, or a first tree and the forest behind it. -/
inductive Forest
  /-- No tree. -/
  | nil
  /-- An element with its attributes and the forest inside it. -/
  | element (name : String) (attributes : List RawAttribute) (inner rest : Forest)
  /-- A leaf. -/
  | leaf (first : Leaf) (rest : Forest)
  deriving DecidableEq, Repr

/-- The markup of an attribute, with a space in front. -/
def RawAttribute.write (a : RawAttribute) : List Char :=
  ' ' :: a.name.toList ++ '=' :: '"' :: Reference.escape true a.value.toList ++ ['"']

/-- The attribute in no namespace. -/
def RawAttribute.toAttribute (a : RawAttribute) : Attribute :=
  ⟨⟨none, a.name⟩, a.value⟩

/-- A name without a colon, as the reader knows names. -/
structure IsBaseName (name : String) : Prop where
  start : name.toList.head?.any isNameStart = true
  chars : ∀ c ∈ name.toList, isNameChar c = true
  colon : ':' ∉ name.toList

instance (name : String) : Decidable (IsBaseName name) :=
  decidable_of_iff (name.toList.head?.any isNameStart = true ∧
    name.toList.all isNameChar = true ∧ ':' ∉ name.toList)
    ⟨fun ⟨hstart, hchars, hcolon⟩ => ⟨hstart, List.all_eq_true.1 hchars, hcolon⟩,
      fun h => ⟨h.start, List.all_eq_true.2 h.chars, h.colon⟩⟩

/-! ## Leaves -/

namespace Leaf

/-- The markup of a leaf. -/
def write : Leaf → List Char
  | text content => Reference.escape false content.toList
  | comment content => '<' :: '!' :: '-' :: '-' :: content.toList ++ ['-', '-', '>']
  | instruction target content =>
    '<' :: '?' :: target.toList ++ ' ' :: content.toList ++ ['?', '>']

/-- The token of a leaf. -/
def token : Leaf → Token
  | text content => .text content
  | comment content => .comment content
  | instruction target content => .instruction target content

/-- The leaf is a text. -/
def isText : Leaf → Bool
  | text _ => true
  | comment _ | instruction _ _ => false

/-- The leaf can be told from its markup. -/
def Proper : Leaf → Prop
  | text content => content ≠ ""
  | comment content => ¬ ['-', '-', '>'] <:+: content.toList
  | instruction target content =>
    IsBaseName target ∧ ¬ ['?', '>'] <:+: content.toList ∧
      content.toList.head?.any isBlank = false

instance decidableProper : (leaf : Leaf) → Decidable leaf.Proper
  | text content => inferInstanceAs (Decidable (content ≠ ""))
  | comment content => inferInstanceAs (Decidable (¬ ['-', '-', '>'] <:+: content.toList))
  | instruction target content =>
    inferInstanceAs (Decidable (IsBaseName target ∧ ¬ ['?', '>'] <:+: content.toList ∧
      content.toList.head?.any isBlank = false))

@[simp]
theorem recordCount_token (leaf : Leaf) : leaf.token.recordCount = 1 := by
  cases leaf <;> rfl

theorem write_ne_nil {leaf : Leaf} (h : leaf.Proper) : leaf.write ≠ [] := by
  cases leaf with
  | text content => exact Reference.escape_ne_nil (by simpa [Proper] using h)
  | comment content => simp [write]
  | instruction target content => simp [write]

theorem bytes_le (leaf : Leaf) :
    leaf.token.textBytes ≤ byteLength leaf.write ∧
      leaf.token.nameBytes ≤ byteLength leaf.write := by
  cases leaf with
  | text content =>
    have hcontent := Reference.byteLength_le_escape false content.toList
    rw [byteLength_toList] at hcontent
    exact ⟨hcontent, Nat.zero_le _⟩
  | comment content =>
    simp only [token, write, List.cons_append, byteLength_append, byteLength_cons,
      byteLength_toList, Token.textBytes, Token.nameBytes]
    omega
  | instruction target content =>
    simp only [token, write, List.cons_append, byteLength_append, byteLength_cons,
      byteLength_toList, Token.textBytes, Token.nameBytes]
    omega

end Leaf

namespace Forest

/-! ## Markup and tokens -/

/-- There is no tree. -/
def isNil : Forest → Bool
  | nil => true
  | element .. | leaf .. => false

theorem isNil_iff {f : Forest} : f.isNil = true ↔ f = nil := by
  cases f <;> simp [isNil]

/-- The first tree is a text. -/
def startsWithText : Forest → Bool
  | leaf first _ => first.isText
  | nil | element .. => false

/-- The markup of a forest. An element with nothing inside is written as one tag. -/
def write : Forest → List Char
  | nil => []
  | element name attributes inner rest =>
    '<' :: name.toList ++ attributes.flatMap RawAttribute.write ++
      (if inner.isNil then ['/', '>']
        else '>' :: inner.write ++ '<' :: '/' :: name.toList ++ ['>']) ++ rest.write
  | leaf first rest => first.write ++ rest.write

/-- The markup of a forest as a text. -/
def markup (f : Forest) : String :=
  ofList f.write

/-- The tokens of a forest. No name is in a namespace. -/
def tokens : Forest → List Token
  | nil => []
  | element name attributes inner rest =>
    .startTag ⟨none, name⟩ (attributes.map RawAttribute.toAttribute) ::
      inner.tokens ++ .endTag :: rest.tokens
  | leaf first rest => first.token :: rest.tokens

/-! ## Proper forests -/

/-- The forest can be told from its markup. -/
def Proper : Forest → Prop
  | nil => True
  | element name attributes inner rest =>
    IsBaseName name ∧ (∀ a ∈ attributes, IsBaseName a.name ∧ a.name ≠ "xmlns") ∧
      inner.Proper ∧ rest.Proper
  | leaf first rest =>
    first.Proper ∧ (first.isText = true → rest.startsWithText = false) ∧ rest.Proper

/-- No element has two attributes of one name. -/
def Distinct : Forest → Prop
  | nil => True
  | element _ attributes inner rest =>
    (attributes.map RawAttribute.name).Nodup ∧ inner.Distinct ∧ rest.Distinct
  | leaf _ rest => rest.Distinct

instance decidableProper : (f : Forest) → Decidable f.Proper
  | nil => isTrue trivial
  | element name attributes inner rest =>
    have := decidableProper inner
    have := decidableProper rest
    inferInstanceAs (Decidable (IsBaseName name ∧
      (∀ a ∈ attributes, IsBaseName a.name ∧ a.name ≠ "xmlns") ∧ inner.Proper ∧ rest.Proper))
  | leaf first rest =>
    have := decidableProper rest
    inferInstanceAs (Decidable (first.Proper ∧
      (first.isText = true → rest.startsWithText = false) ∧ rest.Proper))

instance decidableDistinct : (f : Forest) → Decidable f.Distinct
  | nil => isTrue trivial
  | element _ attributes inner rest =>
    have := decidableDistinct inner
    have := decidableDistinct rest
    inferInstanceAs (Decidable ((attributes.map RawAttribute.name).Nodup ∧
      inner.Distinct ∧ rest.Distinct))
  | leaf _ rest => decidableDistinct rest

/-! ## Sizes -/

/-- The number of records that a forest takes, end marks included. -/
def recordCount : Forest → Nat
  | nil => 0
  | element _ attributes inner rest =>
    attributes.length + inner.recordCount + rest.recordCount + 2
  | leaf _ rest => rest.recordCount + 1

theorem sum_recordCount_tokens (f : Forest) :
    (f.tokens.map Token.recordCount).sum = f.recordCount := by
  induction f with
  | nil => rfl
  | element name attributes inner rest ihInner ihRest =>
    simp only [tokens, recordCount, List.map_cons, List.map_append, List.cons_append,
      List.sum_cons, List.sum_append, Token.recordCount, List.length_map, ihInner, ihRest]
    omega
  | leaf first rest ih => simp [tokens, recordCount, ih, Nat.add_comm]

/-- The markup of attributes has a byte for each of them, and all bytes of their names and
values. -/
theorem bytes_attributes_le (attributes : List RawAttribute) :
    attributes.length ≤ byteLength (attributes.flatMap RawAttribute.write) ∧
    ((attributes.map RawAttribute.toAttribute).map Attribute.bytes).sum ≤
      byteLength (attributes.flatMap RawAttribute.write) := by
  induction attributes with
  | nil => exact ⟨Nat.le_refl _, Nat.le_refl _⟩
  | cons a rest ih =>
    have hvalue := Reference.byteLength_le_escape true a.value.toList
    have hspace := Char.utf8Size_pos ' '
    rw [byteLength_toList] at hvalue
    simp only [List.flatMap_cons, List.length_cons, List.map_cons, List.sum_cons,
      RawAttribute.write, RawAttribute.toAttribute, byteLength_append, byteLength_cons,
      List.cons_append, byteLength_toList, Attribute.bytes, ExpandedName.bytes,
      Option.getD_none] at ih ⊢
    simp only [String.utf8ByteSize_empty]
    omega

/-- The markup of a proper forest has a byte for each of its records, and all bytes of its texts and
names. -/
theorem bytes_le {f : Forest} (hf : f.Proper) :
    f.recordCount ≤ byteLength f.write ∧
    (f.tokens.map Token.textBytes).sum ≤ byteLength f.write ∧
    (f.tokens.map Token.nameBytes).sum ≤ byteLength f.write := by
  induction f with
  | nil => exact ⟨Nat.le_refl _, Nat.le_refl _, Nat.le_refl _⟩
  | element name attributes inner rest ihInner ihRest =>
    obtain ⟨-, -, hinner, hrest⟩ := hf
    have hattributes := bytes_attributes_le attributes
    have hangle := Char.utf8Size_pos '<'
    have hclose := Char.utf8Size_pos '>'
    have := ihInner hinner
    have := ihRest hrest
    have hwritten : byteLength inner.write + 1 ≤ byteLength (if inner.isNil then ['/', '>']
        else '>' :: inner.write ++ '<' :: '/' :: name.toList ++ ['>']) := by
      cases inner <;> simp [isNil, write] <;> omega
    simp only [tokens, recordCount, write, List.map_cons, List.map_append, List.cons_append,
      List.sum_cons, List.sum_append, byteLength_append, byteLength_cons, byteLength_toList,
      Token.textBytes, Token.nameBytes, ExpandedName.bytes, Option.getD_none,
      String.utf8ByteSize_empty] at *
    omega
  | leaf first rest ih =>
    obtain ⟨hfirst, -, hrest⟩ := hf
    have := ih hrest
    have := first.bytes_le
    have := List.length_pos_iff.2 (Leaf.write_ne_nil hfirst)
    have := length_le_byteLength first.write
    simp only [tokens, recordCount, write, List.map_cons, List.sum_cons, byteLength_append]
    omega

/-- There are at most two tokens for each character. -/
theorem length_tokens_le {f : Forest} (hf : f.Proper) : f.tokens.length ≤ 2 * f.write.length := by
  induction f with
  | nil => exact Nat.le_refl _
  | element name attributes inner rest ihInner ihRest =>
    have := ihRest hf.2.2.2
    have := ihInner hf.2.2.1
    have hwritten : inner.write.length ≤ (if inner.isNil then ['/', '>']
        else '>' :: inner.write ++ '<' :: '/' :: name.toList ++ ['>']).length := by
      cases inner <;> simp [isNil, write] <;> omega
    simp only [tokens, write, List.length_append, List.length_cons] at *
    omega
  | leaf first rest ih =>
    have := ih hf.2.2
    have := List.length_pos_iff.2 (Leaf.write_ne_nil hf.1)
    simp only [tokens, write, List.length_append, List.length_cons]
    omega

end Forest

end MarkupQuery.Markup
