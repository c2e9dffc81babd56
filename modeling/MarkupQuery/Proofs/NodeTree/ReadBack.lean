import MarkupQuery.Proofs.NodeTree.Contents

/-!
# Reading the tokens back

The node table of a document has all that was in the tokens it was built from. `Document.tokens`
reads them off in the order of the table: an element and the attributes behind it are a start tag,
an end mark is an end tag, and every leaf is a token of its own. The root and its end mark, which
no token made, are left out.

The main statement, `Document.tokens_of_ofItems`, is that these are the tokens from which the
document was built, up to namespaces with an empty name, which read as none.
-/

namespace MarkupQuery

/-! ## Tokens without empty namespaces -/

namespace Markup

/-- The name, outside of all namespaces if its namespace is empty. -/
def ExpandedName.withoutEmpty (name : ExpandedName) : ExpandedName :=
  ⟨name.space.filter (· != ""), name.base⟩

/-- The attribute, outside of all namespaces if its namespace is empty. -/
def Attribute.withoutEmpty (a : Attribute) : Attribute :=
  ⟨a.name.withoutEmpty, a.value⟩

/-- The token with no name in an empty namespace. -/
def Token.withoutEmpty : Token → Token
  | .startTag name attributes =>
    .startTag name.withoutEmpty (attributes.map Attribute.withoutEmpty)
  | t => t

theorem filter_space (space : Option String) : space.filter (· != "") =
    if space.getD "" = "" then none else some (space.getD "") := by
  cases space with
  | none => rfl
  | some s => by_cases hs : s = "" <;> simp [Option.filter, hs]

end Markup

namespace NodeTree

open Markup

namespace Document

/-! ## Reading -/

/-- The attribute that a record stands for. -/
def attributeAt (d : Document) (x : NodeId) : Attribute :=
  ⟨⟨d.space? x, d.localName x⟩, (d.value? x).getD ""⟩

/-- The tokens that some records stand for, in order. Attributes belong to the start tag of the
element in front of them. -/
def readTokens (d : Document) : List NodeId → List Token
  | [] => []
  | x :: rest =>
    match d.kind? x with
    | some .element =>
      .startTag ⟨d.space? x, d.localName x⟩
        ((rest.takeWhile fun y => d.kind? y == some .attribute).map d.attributeAt) ::
          d.readTokens rest
    | some .endMark => .endTag :: d.readTokens rest
    | some .text => .text ((d.text? x).getD "") :: d.readTokens rest
    | some .comment => .comment ((d.text? x).getD "") :: d.readTokens rest
    | some .instruction =>
      .instruction (d.localName x) ((d.text? x).getD "") :: d.readTokens rest
    | some .attribute | none => d.readTokens rest

/-- The tokens that the records between the root and its end mark stand for. -/
def tokens (d : Document) : List Token :=
  d.readTokens ((List.range' 1 (d.recordCount - 2)).map Nat.toUInt32)

/-! ## What is read -/

variable {d : Document} {x : NodeId} {l : List Content}

theorem SaysAt.space?_filter {c : Content} (h : d.SaysAt x c) (hsound : d.strings.Sound)
    {space : Option String} (hspace : c.space = space.getD "") :
    d.space? x = space.filter (· != "") := by
  rw [h.space?_eq hsound, hspace, filter_space]

/-- The records of attributes stand for these attributes. -/
theorem attributes_of_said {element : NodeId} {attributes : List Attribute} {ids : List NodeId}
    (h : List.Forall₂ d.SaysAt ids (attributes.map (Content.ofAttribute element)))
    (hsound : d.strings.Sound) :
    (∀ y ∈ ids, d.kind? y = some .attribute) ∧
      ids.map d.attributeAt = attributes.map Attribute.withoutEmpty := by
  induction attributes generalizing ids with
  | nil =>
    cases h
    exact ⟨fun y hy => (nomatch hy), rfl⟩
  | cons a rest ih =>
    cases h with
    | cons hx hrest =>
      obtain ⟨hkinds, hmap⟩ := ih hrest
      refine ⟨fun y hy => ?_, ?_⟩
      · rcases List.mem_cons.1 hy with rfl | hy
        · exact hx.kind?_eq
        · exact hkinds y hy
      · rw [List.map_cons, List.map_cons, hmap, attributeAt, hx.space?_filter hsound rfl,
          hx.localName_eq, hx.value?_eq]
        rfl

/-- Attributes make no token of their own. -/
theorem readTokens_attributes {ids rest : List NodeId}
    (h : ∀ y ∈ ids, d.kind? y = some .attribute) :
    d.readTokens (ids ++ rest) = d.readTokens rest := by
  induction ids with
  | nil => rfl
  | cons x ids ih =>
    rw [List.cons_append, readTokens, h x (List.mem_cons_self ..)]
    exact ih fun y hy => h y (List.mem_cons_of_mem _ hy)

/-- What tokens say does not begin with an attribute. -/
theorem takeWhile_attribute_of_said {stack : List NodeId} {n : Nat} {tokens : List Token}
    {ids : List NodeId} (h : List.Forall₂ d.SaysAt ids (contentsFrom stack n tokens)) :
    ids.takeWhile (fun y => d.kind? y == some .attribute) = [] := by
  cases tokens with
  | nil =>
    cases h
    rfl
  | cons t rest =>
    rw [contentsFrom] at h
    cases t <;>
    · cases h with
      | cons hx _ => simp [hx.kind?_eq, Content.ofElement, Content.ofEnd, Content.ofLeaf]

/-- Records that say what some tokens say stand for these tokens. -/
theorem readTokens_of_said (hsound : d.strings.Sound) (htext : d.textLength < UInt32.size)
    {tokens : List Token} {stack : List NodeId} {n : Nat} {ids : List NodeId}
    (h : List.Forall₂ d.SaysAt ids (contentsFrom stack n tokens)) :
    d.readTokens ids = tokens.map Token.withoutEmpty := by
  induction tokens generalizing stack n ids with
  | nil =>
    cases h
    rfl
  | cons t rest ih =>
    rw [contentsFrom] at h
    cases t with
    | startTag name attributes =>
      cases h with
      | @cons x _ tail _ hx htail =>
        have hsplit := List.take_append_drop
          (attributes.map (Content.ofAttribute n.toUInt32)).length tail
        obtain ⟨hkinds, hmap⟩ :=
          attributes_of_said (List.forall₂_take_append _ _ _ htail) hsound
        have hrest := List.forall₂_drop_append _ _ _ htail
        have hall : ∀ y ∈ tail.take (attributes.map (Content.ofAttribute n.toUInt32)).length,
            (d.kind? y == some NodeKind.attribute) = true := fun y hy => by simp [hkinds y hy]
        rw [readTokens, hx.kind?_eq, ← hsplit]
        dsimp only [Content.ofElement]
        rw [List.takeWhile_append_of_pos hall, takeWhile_attribute_of_said hrest,
          readTokens_attributes hkinds, ih hrest, List.append_nil, hmap,
          hx.space?_filter hsound rfl, hx.localName_eq]
        rfl
    | endTag =>
      cases h with
      | cons hx hrest =>
        rw [readTokens, hx.kind?_eq, List.map_cons, ← ih hrest]
        rfl
    | text content | comment content =>
      cases h with
      | cons hx hrest =>
        rw [readTokens, hx.kind?_eq, hx.text?_eq htext, List.map_cons, ← ih hrest]
        rfl
    | instruction target content =>
      cases h with
      | cons hx hrest =>
        rw [readTokens, hx.kind?_eq, hx.text?_eq htext, hx.localName_eq, List.map_cons,
          ← ih hrest]
        rfl

/-- **Building loses nothing.** The tokens that are read from the table of a document are those it
was built from, up to namespaces with an empty name. -/
theorem tokens_of_ofItems {ε : Type} {tokens : List Token}
    (h : Document.ofItems (tokens.map (Except.ok : Token → Except ε Token)) = .ok d)
    (hrecords : d.recordCount < UInt32.size) (htext : d.textLength < UInt32.size)
    (hstrings : d.strings.bytesUsed < UInt32.size) :
    d.tokens = tokens.map Token.withoutEmpty := by
  have htells := tells_of_ofItems h hrecords htext hstrings
  have hcount : d.recordCount - 2 = (contentsFrom [] 1 tokens).length := by
    have hlength := htells.length_eq
    rw [List.length_append, List.length_cons, List.length_singleton] at hlength
    omega
  have hsaid := htells.saysFrom
  rw [List.cons_append, saysFrom_cons_iff, saysFrom_append_iff] at hsaid
  rw [Document.tokens, hcount]
  exact readTokens_of_said htells.sound htext hsaid.2.1.forall₂

/-- A text of two bytes a character, a name and a value that occur twice, an empty value and an
empty namespace. -/
def sampleTokens : List Token :=
  [.startTag ⟨some "u", "a"⟩ [⟨⟨some "", "a"⟩, "a"⟩, ⟨⟨none, "b"⟩, ""⟩], .text "é", .comment "é",
    .instruction "a" "", .endTag]

theorem tokens_of_sampleTokens :
    ∃ d, Document.ofItems (sampleTokens.map (Except.ok : Token → Except Empty Token)) = .ok d ∧
      d.recordCount < UInt32.size ∧ d.textLength < UInt32.size ∧
      d.strings.bytesUsed < UInt32.size ∧ d.tokens = sampleTokens.map Token.withoutEmpty := by
  obtain ⟨d, h⟩ : ∃ d, Document.ofItems
      (sampleTokens.map (Except.ok : Token → Except Empty Token)) = .ok d := ⟨_, rfl⟩
  obtain ⟨hrecords, htext, hstrings⟩ := sizes_of_ofItems h
  rw [show (sampleTokens.map Token.recordCount).sum = 7 by decide] at hrecords
  rw [show (sampleTokens.map Token.textBytes).sum = 4 by decide] at htext
  rw [show (sampleTokens.map Token.nameBytes).sum = 6 by decide] at hstrings
  have hsize : UInt32.size = 4294967296 := rfl
  exact ⟨d, h, by omega, by omega, by omega,
    tokens_of_ofItems h (by omega) (by omega) (by omega)⟩

end Document

end NodeTree

end MarkupQuery
