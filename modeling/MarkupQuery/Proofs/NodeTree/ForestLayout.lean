import MarkupQuery.Proofs.Markup.Forest
import MarkupQuery.Proofs.NodeTree.Contents
import MarkupQuery.Proofs.NodeTree.Relatives

/-!
# How a forest lies in a table

The trees of a forest lie in the table one behind the other: an element, its attributes, the forest
inside it and its end mark. `Forest.contents` lists what these records say, and `Forest.tops` the
places of the trees themselves. Among the records of a forest the children of the element around it
are its trees, and those of any element further out are none (`childrenAmong_eq`). From this follow
the children and the attributes of an element in a document that holds the forest
(`Document.BodyAt.childrenOf_eq`, `Document.BodyAt.attributesOf_eq`).
-/

namespace MarkupQuery

namespace Markup

open NodeTree

/-! ## Leaves -/

namespace Leaf

/-- The kind of the record of a leaf. -/
def kind : Leaf → NodeKind
  | text _ => .text
  | comment _ => .comment
  | instruction _ _ => .instruction

/-- The target of an instruction; it is empty for other leaves. -/
def target : Leaf → String
  | text _ | comment _ => ""
  | instruction target _ => target

/-- The text of a leaf. -/
def content : Leaf → String
  | text content | comment content | instruction _ content => content

theorem hasText_kind (leaf : Leaf) : leaf.kind.hasText = true := by
  cases leaf <;> rfl

theorem isChild_kind (leaf : Leaf) : leaf.kind.isChild = true := by
  cases leaf <;> rfl

theorem kind_ne_element (leaf : Leaf) : leaf.kind ≠ .element := by
  cases leaf <;> simp [kind]

/-- A leaf is told by the parts of its record. -/
theorem eq_of_parts {leaf leaf' : Leaf} (hkind : leaf.kind = leaf'.kind)
    (htarget : leaf.target = leaf'.target) (hcontent : leaf.content = leaf'.content) :
    leaf = leaf' := by
  cases leaf <;> cases leaf' <;> simp_all [kind, target, content]

theorem contentsOf_token (leaf : Leaf) (parent id : NodeId) :
    contentsOf parent id leaf.token =
      [Content.ofLeaf leaf.kind parent leaf.target leaf.content] := by
  cases leaf <;> rfl

theorem openBehind_token (leaf : Leaf) (id : NodeId) (stack : List NodeId) :
    openBehind id stack leaf.token = stack := by
  cases leaf <;> rfl

theorem push_token (leaf : Leaf) (b : Builder) :
    b.push leaf.token = (true, b.leaf leaf.kind leaf.target leaf.content) := by
  cases leaf <;> rfl

end Leaf

namespace Forest

/-! ## Layout -/

/-- What the records of a forest say when it lies in `parent` and its first record has the number
`n`. -/
def contents (parent : NodeId) (n : Nat) : Forest → List Content
  | nil => []
  | element name attributes inner rest =>
    Content.ofElement parent ⟨none, name⟩ ::
      (attributes.map RawAttribute.toAttribute).map (Content.ofAttribute n.toUInt32) ++
      (inner.contents n.toUInt32 (n + 1 + attributes.length) ++
        Content.ofEnd n.toUInt32 ::
          rest.contents parent (n + 1 + attributes.length + inner.recordCount + 1))
  | leaf first rest =>
    Content.ofLeaf first.kind parent first.target first.content :: rest.contents parent (n + 1)

/-- The places of the trees of a forest whose first record has the number `n`. -/
def tops (n : Nat) : Forest → List Nat
  | nil => []
  | element _ attributes inner rest =>
    n :: rest.tops (n + 1 + attributes.length + inner.recordCount + 1)
  | leaf _ rest => n :: rest.tops (n + 1)

theorem length_contents (f : Forest) (parent : NodeId) (n : Nat) :
    (f.contents parent n).length = f.recordCount := by
  induction f generalizing parent n with
  | nil => rfl
  | element name attributes inner rest ihInner ihRest =>
    simp only [contents, recordCount, List.length_append, List.length_cons, List.length_map,
      ihInner, ihRest]
    omega
  | leaf first rest ih => simp [contents, recordCount, ih]

/-- The tokens of a forest say what its layout says, and leave the open elements as they were. -/
theorem contentsFrom_tokens (f : Forest) (stack : List NodeId) (n : Nat) (more : List Token) :
    contentsFrom stack n (f.tokens ++ more) =
      f.contents (stack.headD 0) n ++ contentsFrom stack (n + f.recordCount) more := by
  induction f generalizing stack n more with
  | nil => rfl
  | element name attributes inner rest ihInner ihRest =>
    have hcount : n + (element name attributes inner rest).recordCount =
        n + 1 + attributes.length + inner.recordCount + 1 + rest.recordCount := by
      simp only [recordCount]
      omega
    have htag : n + (Token.startTag ⟨none, name⟩
        (attributes.map RawAttribute.toAttribute)).recordCount = n + 1 + attributes.length := by
      simp only [Token.recordCount, List.length_map]
      omega
    rw [tokens, List.append_assoc, List.cons_append, contentsFrom, htag, List.cons_append, ihInner,
      contentsFrom, ihRest, hcount, contents]
    simp [contentsOf, openBehind, Token.recordCount]
  | leaf first rest ih =>
    have hcount : n + (leaf first rest).recordCount = n + 1 + rest.recordCount := by
      simp only [recordCount]
      omega
    rw [tokens, List.cons_append, contentsFrom, first.contentsOf_token, first.openBehind_token,
      first.recordCount_token, ih, hcount, contents]
    rfl

end Forest

end Markup

namespace NodeTree

open Markup

namespace Document

variable {d : Document} {n e : Nat} {c : Content}

/-! ## Kinds and parents of places -/

section Places

variable {parent : NodeId}

theorem SaysAt.kindAt_eq (h : d.SaysAt n.toUInt32 c) (hn : n < UInt32.size) :
    kindAt d.records n = some c.kind := by
  rw [← h.kind?_eq, Document.kind?_eq, UInt32.toNat_ofNat_of_lt' hn]

theorem SaysAt.parentAt_eq (h : d.SaysAt n.toUInt32 c) (hn : n < UInt32.size) :
    parentAt d.records n = c.parent.map UInt32.toNat := by
  rw [← h.parent?_eq, ← Document.parentAt_eq, UInt32.toNat_ofNat_of_lt' hn]

/-- A record of a child is one of the children of its parent. -/
theorem SaysAt.childrenAmong_succ (h : d.SaysAt n.toUInt32 c) (hn : n < UInt32.size)
    (hparent : c.parent = some parent) (hchild : c.kind.isChild = true) (e count : Nat) :
    childrenAmong d.records e n (count + 1) =
      (if parent.toNat = e then [n] else []) ++ childrenAmong d.records e (n + 1) count := by
  rw [NodeTree.childrenAmong_succ]
  simp [isChildAt, h.kindAt_eq hn, h.parentAt_eq hn, hparent, hchild]

end Places

/-! ## Forests in a document -/

/-- The records behind that of an element say its attributes, the forest inside it and its end. -/
structure BodyAt (d : Document) (n : Nat) (attributes : List RawAttribute) (inner : Forest) :
    Prop where
  attributes_said : d.SaysFrom (n + 1)
    ((attributes.map RawAttribute.toAttribute).map (Content.ofAttribute n.toUInt32))
  inner_said : d.SaysFrom (n + 1 + attributes.length)
    (inner.contents n.toUInt32 (n + 1 + attributes.length))
  end_said : d.SaysAt (n + 1 + attributes.length + inner.recordCount).toUInt32
    (Content.ofEnd n.toUInt32)

variable {parent : NodeId} {name : String} {attributes : List RawAttribute} {inner rest : Forest}

theorem saysFrom_element_iff :
    d.SaysFrom n ((Forest.element name attributes inner rest).contents parent n) ↔
      d.SaysAt n.toUInt32 (Content.ofElement parent ⟨none, name⟩) ∧
        d.BodyAt n attributes inner ∧
        d.SaysFrom (n + 1 + attributes.length + inner.recordCount + 1)
          (rest.contents parent (n + 1 + attributes.length + inner.recordCount + 1)) := by
  rw [Forest.contents, List.cons_append, saysFrom_cons_iff, saysFrom_append_iff,
    saysFrom_append_iff, saysFrom_cons_iff, Forest.length_contents, List.length_map,
    List.length_map]
  exact ⟨fun ⟨h, ha, hi, he, hr⟩ => ⟨h, ⟨ha, hi, he⟩, hr⟩,
    fun ⟨h, ⟨ha, hi, he⟩, hr⟩ => ⟨h, ha, hi, he, hr⟩⟩

namespace BodyAt

/-- The records of the attributes of an element. -/
theorem isAttribute (h : d.BodyAt n attributes inner)
    (hsize : n + 1 + attributes.length ≤ UInt32.size) {x : Nat} (hx : n < x)
    (hlt : x ≤ n + attributes.length) :
    kindAt d.records x = some .attribute ∧ parentAt d.records x = some n := by
  have hget : ((attributes.map RawAttribute.toAttribute).map
      (Content.ofAttribute n.toUInt32))[x - (n + 1)]? =
      some (Content.ofAttribute n.toUInt32 attributes[x - (n + 1)].toAttribute) := by
    rw [List.getElem?_map, List.getElem?_map, List.getElem?_eq_getElem (by omega),
      Option.map_some, Option.map_some]
  have hsaid := h.attributes_said _ _ hget
  rw [Nat.add_sub_cancel' hx] at hsaid
  have hparent := hsaid.parentAt_eq (by omega)
  rw [Content.ofAttribute, Option.map_some, UInt32.toNat_ofNat_of_lt' (by omega)] at hparent
  exact ⟨hsaid.kindAt_eq (by omega), hparent⟩

/-- Attributes are no children. -/
theorem childrenAmong_attributes (h : d.BodyAt n attributes inner)
    (hsize : n + 1 + attributes.length ≤ UInt32.size) (e : Nat) :
    childrenAmong d.records e (n + 1) attributes.length = [] := by
  refine childrenAmong_eq_nil fun x hx hlt => ?_
  rw [isChildAt, (h.isAttribute hsize (by omega) (by omega)).1]
  rfl

end BodyAt

/-- Among the records of a forest, the children of an element in front of it are the trees of the
forest if they lie in this element. -/
theorem SaysFrom.childrenAmong_eq {f : Forest}
    (h : d.SaysFrom n (f.contents parent n)) (hsize : n + f.recordCount ≤ UInt32.size)
    (he : e < n) :
    childrenAmong d.records e n f.recordCount = if parent.toNat = e then f.tops n else [] := by
  induction f generalizing parent n with
  | nil => simp [childrenAmong, Forest.recordCount, Forest.tops]
  | element name attributes inner rest ihInner ihRest =>
    obtain ⟨helement, hbody, hrest⟩ := saysFrom_element_iff.1 h
    have hcount : (Forest.element name attributes inner rest).recordCount =
        attributes.length + (inner.recordCount + (1 + rest.recordCount)) + 1 := by
      simp only [Forest.recordCount]
      omega
    rw [hcount] at hsize
    have hn : n.toUInt32.toNat = n := UInt32.toNat_ofNat_of_lt' (by omega)
    have hnoAttribute := hbody.childrenAmong_attributes (by omega) e
    have hnoInner := ihInner hbody.inner_said (by omega) (by omega)
    rw [hn, if_neg (by omega)] at hnoInner
    have hnoEnd : childrenAmong d.records e (n + 1 + attributes.length + inner.recordCount) 1 =
        [] := by
      refine childrenAmong_eq_nil fun x hx hlt => ?_
      obtain rfl : x = n + 1 + attributes.length + inner.recordCount := by omega
      rw [isChildAt, hbody.end_said.kindAt_eq (by omega)]
      rfl
    rw [hcount, helement.childrenAmong_succ (by omega) rfl rfl, childrenAmong_append, hnoAttribute,
      childrenAmong_append, hnoInner, childrenAmong_append, hnoEnd,
      ihRest hrest (by omega) (by omega), Forest.tops]
    split <;> simp
  | leaf first rest ih =>
    obtain ⟨hleaf, hrest⟩ := saysFrom_cons_iff.1 h
    rw [Forest.recordCount] at hsize ⊢
    rw [hleaf.childrenAmong_succ (by omega) rfl first.isChild_kind,
      ih hrest (by omega) (by omega), Forest.tops]
    split <;> rfl

/-! ## Elements -/

namespace BodyAt

/-- The subtree of an element ends at its end mark. -/
theorem stopAt_eq (h : d.BodyAt n attributes inner) (hd : d.Sound)
    (hlast : n + 1 + attributes.length + inner.recordCount < d.recordCount) :
    stopAt d.records n = n + 1 + attributes.length + inner.recordCount := by
  have hsize := hd.size_lt
  have hparent := h.end_said.parentAt_eq (by omega)
  rw [Content.ofEnd, Option.map_some, UInt32.toNat_ofNat_of_lt' (by omega)] at hparent
  exact (hd.nested.endMark_stop _ n (h.end_said.kindAt_eq (by omega)) hparent).2

/-- The record behind the attributes is none. -/
theorem not_attribute_behind (h : d.BodyAt n attributes inner)
    (hsize : n + 1 + attributes.length < UInt32.size) :
    kindAt d.records (n + 1 + attributes.length) ≠ some .attribute := by
  obtain ⟨c, hsaid, hkind⟩ : ∃ c, d.SaysAt (n + 1 + attributes.length).toUInt32 c ∧
      c.kind ≠ .attribute := by
    have hinner := h.inner_said
    cases inner with
    | nil => exact ⟨_, h.end_said, by simp [Content.ofEnd]⟩
    | element name attributes inner rest =>
      exact ⟨_, (saysFrom_element_iff.1 hinner).1, by simp [Content.ofElement]⟩
    | leaf first rest =>
      refine ⟨_, (saysFrom_cons_iff.1 hinner).1, ?_⟩
      cases first <;> simp [Content.ofLeaf, Leaf.kind]
  rw [hsaid.kindAt_eq hsize]
  simpa using hkind

/-- The attributes of an element are those behind it. -/
theorem attributesOf_eq (h : d.BodyAt n attributes inner) (hd : d.Sound)
    (hlast : n + 1 + attributes.length + inner.recordCount < d.recordCount) :
    d.attributesOf n.toUInt32 = (List.range' (n + 1) attributes.length).map Nat.toUInt32 := by
  have hsize := hd.size_lt
  have hn : n.toUInt32.toNat = n := UInt32.toNat_ofNat_of_lt' (by omega)
  have hrun (y : Nat) : (kindAt d.records y = some .attribute ∧ parentAt d.records y = some n) ↔
      n < y ∧ y ≤ n + attributes.length := by
    constructor
    · rintro ⟨hk, hp⟩
      refine ⟨hd.rooted.inFront hp, Nat.le_of_not_lt fun hlt => ?_⟩
      obtain rfl | hlt := Nat.eq_or_lt_of_le (show n + 1 + attributes.length ≤ y by omega)
      · exact h.not_attribute_behind (by omega) hk
      · exact h.not_attribute_behind (by omega)
          (hd.rooted.attribute_run y n (n + 1 + attributes.length) hk hp (by omega) (by omega)).1
    · rintro ⟨hny, hy⟩
      exact h.isAttribute (by omega) hny hy
  rw [hd.attributesOf_eq_range (x := n.toUInt32) (by rwa [hn]), hn]

/-- The children of an element are the trees of the forest inside it. -/
theorem childrenOf_eq (h : d.BodyAt n attributes inner) (hd : d.Sound)
    (hkind : kindAt d.records n = some .element)
    (hlast : n + 1 + attributes.length + inner.recordCount < d.recordCount) :
    d.childrenOf n.toUInt32 =
      (inner.tops (n + 1 + attributes.length)).map Nat.toUInt32 := by
  have hsize := hd.size_lt
  have hn : n.toUInt32.toNat = n := UInt32.toNat_ofNat_of_lt' (by omega)
  have hfront : childrenAmong d.records n 0 (n + 1) = [] := by
    refine childrenAmong_eq_nil fun x _ hx => ?_
    rw [Bool.eq_false_iff]
    intro hchild
    have := hd.rooted.inFront (isChildAt_iff.1 hchild).2
    omega
  have hbehind : childrenAmong d.records n (n + 1 + attributes.length + inner.recordCount)
      (d.recordCount - (n + 1 + attributes.length + inner.recordCount)) = [] := by
    refine childrenAmong_eq_nil fun x hx _ => ?_
    rw [Bool.eq_false_iff]
    intro hchild
    obtain ⟨⟨k, hk, hchild⟩, hp⟩ := isChildAt_iff.1 hchild
    have hmark : kindAt d.records x ≠ some .endMark := by
      rw [hk]
      rintro heq
      rw [Option.some.inj heq] at hchild
      cases hchild
    have := ((hd.closedAt hkind).encloses_iff_lt_stop hmark).1 (.parent hp)
    rw [h.stopAt_eq hd hlast] at this
    omega
  have hattributes := h.childrenAmong_attributes (by omega) n
  have hinner := h.inner_said.childrenAmong_eq (e := n) (by omega) (by omega)
  rw [hn, if_pos rfl] at hinner
  have hcount : d.recordCount = n + 1 + attributes.length + inner.recordCount +
      (d.recordCount - (n + 1 + attributes.length + inner.recordCount)) := by omega
  rw [hd.childrenOf_eq_childrenAmong (by rwa [Document.kind?_eq, hn]), hn, hcount,
    childrenAmong_append, childrenAmong_append, childrenAmong_append, hfront]
  simp only [Nat.zero_add]
  rw [hattributes, hinner, hbehind, List.nil_append, List.nil_append, List.append_nil]

end BodyAt

end Document

end NodeTree

end MarkupQuery
