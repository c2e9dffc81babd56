import MarkupQuery.Proofs.Markup.Reading
import MarkupQuery.Proofs.NodeTree.ForestLayout

/-!
# Parsing undoes writing

`Document.Shows` says that a forest is what the questions about the nodes of a document answer: the
trees of a forest are shown by a list of nodes with the right kinds, names, values and texts, in
order, and what is inside an element by the list of its children.

The main statement is `Document.parse_markup`: the markup of a proper forest can be parsed, and the
document has the forest as its tree. The markup is read as the tokens of the forest
(`Reader.items_markup`), a builder takes them all because every element is closed
(`Document.exists_ofItems_tokens`), and the records they leave lie as `Forest.contents` says.
-/

namespace MarkupQuery.NodeTree

open Markup

/-! ## Builders take forests -/

theorem Builder.openElements_startElement (b : Builder) (name : ExpandedName)
    (attributes : List Attribute) :
    (b.startElement name attributes).openElements = b.nextId :: b.openElements :=
  congrArg (b.nextId :: ·)
    ((openElements_addAttributes ..).trans (b.openElements_addElement name))

/-- A builder takes the tokens of a forest, and then the same elements are open. -/
theorem Builder.takeAll_tokens {ε : Type} (f : Forest) (b : Builder) (taken : Nat)
    (more : List (Except ε Token)) :
    ∃ (b' : Builder) (taken' : Nat),
      b.takeAll taken (f.tokens.map .ok ++ more) = b'.takeAll taken' more ∧
        b'.openElements = b.openElements := by
  induction f generalizing b taken more with
  | nil => exact ⟨b, taken, rfl, rfl⟩
  | element name attributes inner rest ihInner ihRest =>
    obtain ⟨b₁, taken₁, hinner, hopen⟩ := ihInner (b.startElement ⟨none, name⟩
      (attributes.map RawAttribute.toAttribute)) (taken + 1)
      (.ok .endTag :: (rest.tokens.map .ok ++ more))
    rw [b.openElements_startElement] at hopen
    obtain ⟨b₂, taken₂, hrest, hopen'⟩ := ihRest
      ({ b₁ with openElements := b.openElements }.close b.nextId) (taken₁ + 1) more
    refine ⟨b₂, taken₂, ?_, hopen'⟩
    rw [← hrest, Forest.tokens, List.map_append, List.append_assoc, List.map_cons, List.map_cons,
      List.cons_append, List.cons_append, takeAll, push]
    dsimp only
    rw [hinner, takeAll, push, endElement, hopen]
  | leaf first rest ih =>
    obtain ⟨b', taken', hrest, hopen⟩ :=
      ih (b.leaf first.kind first.target first.content) (taken + 1) more
    refine ⟨b', taken', ?_, hopen⟩
    rw [← hrest, Forest.tokens, List.map_cons, List.cons_append, takeAll, first.push_token]

namespace Document

theorem exists_ofItems_tokens (ε : Type) (f : Forest) :
    ∃ d, Document.ofItems (f.tokens.map (Except.ok : Token → Except ε Token)) = .ok d := by
  obtain ⟨b, taken, htake, hopen⟩ :=
    Builder.takeAll_tokens (ε := ε) f Builder.empty 0 []
  rw [List.append_nil, Builder.takeAll] at htake
  have hfinish := (b.finish_eq_ok_iff _).2 ⟨hopen, rfl⟩
  rw [ofItems, htake]
  dsimp only
  rw [hfinish]
  exact ⟨_, rfl⟩

/-! ## What a document shows -/

/-- A node is a leaf. It has neither attributes nor children. -/
structure ShowsLeaf (d : Document) (parent : Option NodeId) (x : NodeId) (leaf : Leaf) : Prop where
  kind_eq : d.kind? x = some leaf.kind
  parent_eq : d.parent? x = parent
  name_eq : d.localName x = leaf.target
  space_eq : d.space? x = none
  text_eq : d.text? x = some leaf.content
  attributes_eq : d.attributesOf x = []
  children_eq : d.childrenOf x = []

/-- A node is an attribute of an element. -/
structure ShowsAttribute (d : Document) (element x : NodeId) (a : RawAttribute) : Prop where
  kind_eq : d.kind? x = some .attribute
  parent_eq : d.parent? x = some element
  name_eq : d.localName x = a.name
  space_eq : d.space? x = none
  value_eq : d.value? x = some a.value

/-- The nodes of a list with all that is inside them are the trees of a forest, in order, and lie in
`parent`. -/
inductive Shows (d : Document) : Option NodeId → List NodeId → Forest → Prop
  /-- No node shows the forest without trees. -/
  | nil {parent : Option NodeId} : Shows d parent [] .nil
  /-- An element shows its attributes, and by its children what is inside it. -/
  | element {parent : Option NodeId} {x : NodeId} {ids : List NodeId} {name : String}
    {attributes : List RawAttribute} {inner rest : Forest}
    (kind_eq : d.kind? x = some .element) (parent_eq : d.parent? x = parent)
    (name_eq : d.localName x = name) (space_eq : d.space? x = none)
    (attributes_show : List.Forall₂ (d.ShowsAttribute x) (d.attributesOf x) attributes)
    (inner_shows : Shows d (some x) (d.childrenOf x) inner) (rest_shows : Shows d parent ids rest) :
    Shows d parent (x :: ids) (.element name attributes inner rest)
  /-- A leaf shows its target and its content. -/
  | leaf {parent : Option NodeId} {x : NodeId} {ids : List NodeId} {first : Leaf} {rest : Forest}
    (first_shows : d.ShowsLeaf parent x first) (rest_shows : Shows d parent ids rest) :
    Shows d parent (x :: ids) (.leaf first rest)

/-- Nodes show one forest only. -/
theorem Shows.unique {d : Document} {parent : Option NodeId} {ids : List NodeId} {f g : Forest}
    (hf : d.Shows parent ids f) (hg : d.Shows parent ids g) : f = g := by
  have hattribute (x : NodeId) : Relator.RightUnique (d.ShowsAttribute x) := by
    intro y a b ha hb
    have hname := ha.name_eq.symm.trans hb.name_eq
    have hvalue := Option.some.inj (ha.value_eq.symm.trans hb.value_eq)
    cases a
    cases b
    simp_all
  induction hf generalizing g with
  | nil =>
    cases hg
    rfl
  | element hk _ hname _ ha _ _ ihInner ihRest =>
    cases hg with
    | element _ _ hname' _ ha' hinner' hrest' =>
      rw [← hname, ← hname', ihInner hinner', ihRest hrest',
        List.right_unique_forall₂' (hattribute _) ha ha']
    | leaf hleaf =>
      exact absurd (Option.some.inj (hleaf.kind_eq.symm.trans hk)) (Leaf.kind_ne_element _)
  | leaf hleaf _ ih =>
    cases hg with
    | element hk =>
      exact absurd (Option.some.inj (hleaf.kind_eq.symm.trans hk)) (Leaf.kind_ne_element _)
    | leaf hleaf' hrest' =>
      rw [ih hrest', Leaf.eq_of_parts (Option.some.inj (hleaf.kind_eq.symm.trans hleaf'.kind_eq))
        (hleaf.name_eq.symm.trans hleaf'.name_eq)
        (Option.some.inj (hleaf.text_eq.symm.trans hleaf'.text_eq))]

variable {d : Document} {n : Nat} {x element parent : NodeId} {inner : Forest}
  {attributes : List RawAttribute}

theorem SaysAt.showsLeaf {leaf : Leaf}
    (h : d.SaysAt x (Content.ofLeaf leaf.kind parent leaf.target leaf.content)) (hd : d.Sound)
    (hstrings : d.strings.Sound) (htext : d.textLength < UInt32.size) :
    d.ShowsLeaf (some parent) x leaf := by
  have hkind : d.kind? x ≠ some .element := by
    rw [h.kind?_eq]
    exact fun heq => leaf.kind_ne_element (Option.some.inj heq)
  have hrun (y : Nat) : (kindAt d.records y = some .attribute ∧
      parentAt d.records y = some x.toNat) ↔ x.toNat < y ∧ y ≤ x.toNat + 0 :=
    ⟨fun hy => absurd (hd.rooted.parent_element _ _ hy.2) hkind, fun hy => by omega⟩
  refine ⟨h.kind?_eq, h.parent?_eq, h.localName_eq, h.space?_eq hstrings, ?_,
    hd.attributesOf_eq_range hrun, hd.childrenOf_eq_nil hkind⟩
  rw [h.text?_eq htext]
  exact if_pos leaf.hasText_kind

theorem SaysAt.showsAttribute {a : RawAttribute}
    (h : d.SaysAt x (Content.ofAttribute element a.toAttribute)) (hstrings : d.strings.Sound) :
    d.ShowsAttribute element x a :=
  ⟨h.kind?_eq, h.parent?_eq, h.localName_eq, h.space?_eq hstrings, h.value?_eq⟩

/-- The attributes behind an element are shown. -/
theorem BodyAt.showsAttributes (h : d.BodyAt n attributes inner) (hd : d.Sound)
    (hstrings : d.strings.Sound)
    (hlast : n + 1 + attributes.length + inner.recordCount < d.recordCount) :
    List.Forall₂ (d.ShowsAttribute n.toUInt32) (d.attributesOf n.toUInt32) attributes := by
  have hsaid := h.attributes_said.forall₂
  rw [List.forall₂_map_right_iff, List.forall₂_map_right_iff, List.length_map, List.length_map]
    at hsaid
  rw [h.attributesOf_eq hd hlast]
  exact hsaid.imp fun _ _ hx => hx.showsAttribute hstrings

/-- A forest is shown by the records that it left. -/
theorem SaysFrom.shows {f : Forest} (h : d.SaysFrom n (f.contents parent n)) (hd : d.Sound)
    (hstrings : d.strings.Sound) (htext : d.textLength < UInt32.size)
    (hlast : n + f.recordCount < d.recordCount) :
    d.Shows (some parent) ((f.tops n).map Nat.toUInt32) f := by
  induction f generalizing parent n with
  | nil => exact .nil
  | element name attributes inner rest ihInner ihRest =>
    obtain ⟨helement, hbody, hrest⟩ := saysFrom_element_iff.1 h
    rw [Forest.recordCount] at hlast
    have hlast' : n + 1 + attributes.length + inner.recordCount < d.recordCount := by omega
    have hkind := helement.kindAt_eq (hd.lt_size (by omega))
    have hinner := ihInner hbody.inner_said (by omega)
    rw [← hbody.childrenOf_eq hd hkind hlast'] at hinner
    exact .element helement.kind?_eq helement.parent?_eq helement.localName_eq
      (helement.space?_eq hstrings) (hbody.showsAttributes hd hstrings hlast') hinner
      (ihRest hrest (by omega))
  | leaf first rest ih =>
    obtain ⟨hleaf, hrest⟩ := saysFrom_cons_iff.1 h
    rw [Forest.recordCount] at hlast
    exact .leaf (hleaf.showsLeaf hd hstrings htext) (ih hrest (by omega))

/-! ## Round trip -/

/-- A document with fewer than 2³² records and bytes that is built from the tokens of a forest shows
the forest inside its root. -/
theorem shows_of_ofItems {ε : Type} {f : Forest}
    (h : Document.ofItems (f.tokens.map (Except.ok : Token → Except ε Token)) = .ok d)
    (hrecords : d.recordCount < UInt32.size) (htext : d.textLength < UInt32.size)
    (hstrings : d.strings.bytesUsed < UInt32.size) :
    d.Shows none [0] (.element "" [] f .nil) := by
  have hd := sound_of_items h hrecords
  have htells := tells_of_ofItems h hrecords htext hstrings
  have hlayout := f.contentsFrom_tokens [] 1 []
  rw [List.append_nil, contentsFrom, List.append_nil] at hlayout
  rw [hlayout] at htells
  have hlength := htells.length_eq
  rw [List.length_append, List.length_cons, f.length_contents, List.length_singleton] at hlength
  have hsaid := htells.saysFrom
  rw [List.cons_append, saysFrom_cons_iff, saysFrom_append_iff, saysFrom_cons_iff,
    f.length_contents] at hsaid
  obtain ⟨hroot, hinner, hend, -⟩ := hsaid
  have hnone : d.SaysFrom 1 [] := by
    intro i c hc
    simp at hc
  have hbody : d.BodyAt 0 [] f := ⟨hnone, hinner, hend⟩
  have hlast : 0 + 1 + ([] : List RawAttribute).length + f.recordCount < d.recordCount := by
    simp only [List.length_nil]
    omega
  have hinside := hinner.shows hd htells.sound htext (by omega)
  have hchildren := hbody.childrenOf_eq hd (hroot.kindAt_eq (by decide)) hlast
  refine .element hroot.kind?_eq hroot.parent?_eq hroot.localName_eq (hroot.space?_eq htells.sound)
    (hbody.showsAttributes hd htells.sound hlast) ?_ .nil
  exact hchildren ▸ hinside

/-- **Parsing undoes writing.** The markup of a proper forest that is shorter than 2³² - 64 bytes
can be parsed, by a strict reader too if no element repeats the name of an attribute. The document
has the forest inside its root, and no records but those of the forest, the root and its end mark.
-/
theorem parse_markup {f : Forest} (hf : f.Proper) (hsize : f.markup.utf8ByteSize < 2 ^ 32 - 64)
    {strict : Bool} (hd : strict = true → f.Distinct) :
    ∃ d, Document.parse strict f.markup = .ok d ∧ d.Shows none [0] (.element "" [] f .nil) ∧
      d.recordCount = f.recordCount + 2 := by
  obtain ⟨d, hbuilt⟩ := exists_ofItems_tokens ReadError f
  obtain ⟨hrecords, htext, hstrings⟩ := sizes_of_ofItems hbuilt
  obtain ⟨hrecords', htext', hstrings'⟩ := Forest.bytes_le hf
  rw [f.sum_recordCount_tokens] at hrecords
  have hbytes : f.markup.utf8ByteSize = Text.byteLength f.write := Text.utf8ByteSize_ofList _
  have hword : UInt32.size = 2 ^ 32 := rfl
  refine ⟨d, ?_, shows_of_ofItems hbuilt (by omega) (by omega) (by omega), hrecords⟩
  rw [Document.parse, Reader.items_markup hf hd]
  exact hbuilt

/-- Trees of all kinds, with characters that have to be escaped, contents that end like the marks
around them, a name and a text beyond ASCII, and an element with nothing inside. -/
def sampleForest : Forest :=
  .element "é" [⟨"x", "<&>\"'"⟩, ⟨"y", ""⟩]
    (.leaf (.text "a < b && é")
      (.element "b" [] .nil (.leaf (.comment "--") (.leaf (.text "]]>") .nil))))
    (.leaf (.instruction "t" "?") (.leaf (.text " ") .nil))

theorem parse_sampleForest :
    sampleForest.Proper ∧ sampleForest.markup.utf8ByteSize < 2 ^ 32 - 64 ∧
      sampleForest.Distinct ∧
      ∃ d, Document.parse true sampleForest.markup = .ok d ∧
        d.Shows none [0] (.element "" [] sampleForest .nil) ∧
        d.recordCount = sampleForest.recordCount + 2 := by
  have hproper : sampleForest.Proper := by decide
  have hsize : sampleForest.markup.utf8ByteSize < 2 ^ 32 - 64 := by decide
  have hdistinct : sampleForest.Distinct := by decide
  exact ⟨hproper, hsize, hdistinct, parse_markup hproper hsize fun _ => hdistinct⟩

end Document

end MarkupQuery.NodeTree
