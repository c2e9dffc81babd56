import MarkupQuery.Proofs.NodeTree.Contents
import MarkupQuery.Proofs.NodeTree.Relatives
import MarkupQuery.Proofs.Query.Scans

/-!
# String values

The string value of a node is gathered from a stretch of the node table, with no regard to what is
nested in what. Here it is told by the tree. `leavesUnder` lists the texts, comments and
instructions in the subtree of a node; those of an element are those of its children, one child
after the other (`leavesUnder_element`), so string values are put together from the values of
children (`stringValue_element`).

The texts of a document fill the text buffer in the order of the table (`text_eq_of_ofItems`). A
stretch of the table therefore lies in the buffer in one piece (`exists_liesAt_stringValue`), and
the string value of the root is all of it.
-/

namespace MarkupQuery

namespace Markup.Token

/-- The text of a text, a comment or an instruction. -/
def payloads : Token → List String
  | .startTag _ _ | .endTag => []
  | .text content | .comment content | .instruction _ content => [content]

/-- The values of the attributes of a tag. -/
def values : Token → List String
  | .startTag _ attributes => attributes.map Attribute.value
  | .endTag | .text _ | .comment _ | .instruction _ _ => []

end Markup.Token

namespace NodeTree

open Markup

/-! ## Texts put together -/

theorem join_flatMap {α : Type} (f : α → List String) (l : List α) :
    String.join (l.flatMap f) = String.join (l.map fun a => String.join (f a)) := by
  induction l with
  | nil => rfl
  | cons a rest ih =>
    rw [List.flatMap_cons, List.map_cons, String.join_append, String.join_cons, ih]

theorem toUTF8_append (s t : String) : (s ++ t).toUTF8 = s.toUTF8 ++ t.toUTF8 := by
  simp only [String.toUTF8_eq_toByteArray, String.toByteArray_append]

/-- What is filtered out does not matter if nothing comes of it. -/
theorem filterMap_filter_of_imp {α β : Type} {p : α → Bool} {f : α → Option β}
    (h : ∀ x b, f x = some b → p x = true) (l : List α) :
    (l.filter p).filterMap f = l.filterMap f := by
  rw [List.filterMap_filter]
  congr 1
  funext x
  cases hx : f x with
  | none => exact ite_self _
  | some b => rw [if_pos (h x b hx)]

/-! ## What contents say -/

namespace Content

/-- The text of a text, a comment or an instruction. -/
def text? (c : Content) : Option String :=
  if c.kind.hasText then some c.text else none

/-- The value of an attribute. -/
def value? (c : Content) : Option String :=
  if c.kind = .attribute then some c.value else none

theorem filterMap_text?_contentsOf (parent id : NodeId) (t : Token) :
    (contentsOf parent id t).filterMap text? = t.payloads := by
  cases t with
  | startTag name attributes =>
    rw [contentsOf, Token.payloads, List.filterMap_cons_none rfl, List.filterMap_map,
      List.filterMap_eq_nil_iff]
    exact fun a _ => rfl
  | endTag | text content | comment content | instruction target content => rfl

theorem filterMap_value?_contentsOf (parent id : NodeId) (t : Token) :
    (contentsOf parent id t).filterMap value? = t.values := by
  cases t with
  | startTag name attributes =>
    rw [contentsOf, Token.values, List.filterMap_cons_none rfl, List.filterMap_map,
      ← List.filterMap_eq_map]
    rfl
  | endTag | text content | comment content | instruction target content => rfl

end Content

/-! ## The text buffer -/

namespace Builder

variable {b b' : Builder}

theorem text_internSpace (b : Builder) (space : Option String) :
    (b.internSpace space).2.text = b.text := by
  cases space <;> rfl

theorem text_addAttributes (attributes : List Attribute) (b : Builder) (element : NodeId) :
    (attributes.foldl (fun b a => b.addAttribute element a) b).text = b.text := by
  induction attributes generalizing b with
  | nil => rfl
  | cons a rest ih => exact (ih _).trans (text_internSpace _ a.name.space)

/-- A token puts its text behind the text of those before it. -/
theorem text_push (b : Builder) {t : Token} (h : (b.push t).1 = true) :
    (b.push t).2.text = b.text ++ (String.join t.payloads).toUTF8 := by
  cases t with
  | startTag name attributes =>
    have hfilled := text_addAttributes attributes (b.addElement name) b.nextId
    have hadded : (b.addElement name).text = b.text := text_internSpace _ name.space
    exact (hfilled.trans hadded).trans (ByteArray.append_empty).symm
  | endTag =>
    simp only [push, endElement] at h ⊢
    split at h
    · cases h
    · exact (ByteArray.append_empty).symm
  | text content | comment content | instruction target content =>
    rw [Token.payloads, String.join_cons, String.join_nil, String.append_empty]
    rfl

theorem text_takeAll {ε : Type} {tokens : List Token} {taken : Nat}
    (h : b.takeAll taken (tokens.map (Except.ok : Token → Except ε Token)) = .ok b') :
    b'.text = b.text ++ (String.join (tokens.flatMap Token.payloads)).toUTF8 := by
  induction tokens generalizing b taken with
  | nil =>
    obtain rfl := Except.ok.inj h
    exact (ByteArray.append_empty).symm
  | cons t rest ih =>
    rw [List.map_cons, takeAll] at h
    split at h
    · rename_i next hpush
      have htext := b.text_push (t := t) (by rw [hpush])
      rw [hpush] at htext
      rw [ih h, htext, List.flatMap_cons, String.join_append, toUTF8_append,
        ByteArray.append_assoc]
    · cases h

end Builder

namespace Document

open Query (stretch)

variable {d : Document} {c e x y : NodeId} {r : Record} {s : String}

/-- The text buffer holds the texts of the tokens, one behind the other. -/
theorem text_eq_of_ofItems {ε : Type} {tokens : List Token}
    (h : Document.ofItems (tokens.map (Except.ok : Token → Except ε Token)) = .ok d) :
    d.text = (String.join (tokens.flatMap Token.payloads)).toUTF8 := by
  obtain ⟨b, hb, -, rfl⟩ := exists_takeAll_of_ofItems h
  exact (Builder.text_takeAll hb).trans ByteArray.empty_append

/-! ## What nodes say -/

theorem isNode_of_kind? {k : NodeKind} (h : d.kind? x = some k) (hk : k ≠ .endMark) :
    d.isNode x = true :=
  isNode_iff.2 ⟨k, h, hk⟩

/-- Texts, comments and instructions have a text. -/
theorem exists_kind?_of_text? (h : d.text? x = some s) :
    ∃ k, d.kind? x = some k ∧ k.hasText = true := by
  obtain ⟨r, hr, htext⟩ := Option.bind_eq_some_iff.1 h
  unfold recordText? at htext
  split at htext
  · rename_i hkind
    exact ⟨r.kind, congrArg (Option.map Record.kind) hr, hkind⟩
  · cases htext

theorem isNode_of_text? (h : d.text? x = some s) : d.isNode x = true := by
  obtain ⟨k, hk, htext⟩ := exists_kind?_of_text? h
  exact isNode_of_kind? hk (by rintro rfl; cases htext)

theorem kind?_of_value? (h : d.value? x = some s) : d.kind? x = some .attribute := by
  obtain ⟨r, hr, hvalue⟩ := Option.bind_eq_some_iff.1 h
  split at hvalue
  · rename_i hkind
    rw [kind?, hr, Option.map_some, beq_iff_eq.1 hkind]
  · cases hvalue

theorem value?_eq_none (h : d.kind? x ≠ some .attribute) : d.value? x = none :=
  Option.eq_none_iff_forall_ne_some.2 fun _ hvalue => h (kind?_of_value? hvalue)

/-- What is told of tokens one after the other is told of all that they say. -/
theorem filterMap_contentsFrom {f : Content → Option String} {said : Token → List String}
    (h : ∀ parent id t, (contentsOf parent id t).filterMap f = said t) (tokens : List Token)
    (stack : List NodeId) (n : Nat) :
    (contentsFrom stack n tokens).filterMap f = tokens.flatMap said := by
  induction tokens generalizing stack n with
  | nil => rfl
  | cons t rest ih => rw [contentsFrom, List.filterMap_append, h, ih, List.flatMap_cons]

theorem filterMap_of_forall₂ {f : NodeId → Option String} {g : Content → Option String}
    {ids : List NodeId} {contents : List Content}
    (h : List.Forall₂ (fun x c => f x = g c) ids contents) :
    ids.filterMap f = contents.filterMap g := by
  induction h with
  | nil => rfl
  | cons hhead _ ih => rw [List.filterMap_cons, List.filterMap_cons, hhead, ih]

theorem stretch_append (next m n : Nat) :
    stretch next m ++ stretch (next + m) n = stretch next (m + n) := by
  rw [stretch, stretch, stretch, ← List.map_append, List.range'_append_1]

/-- What all records say is what the tokens say, if the root and its end mark say nothing. -/
theorem filterMap_stretch_of_tells {stack : List NodeId} {n : Nat} {tokens : List Token}
    {f : NodeId → Option String} {g : Content → Option String} {said : Token → List String}
    (h : d.Tells (Content.root :: contentsFrom stack n tokens ++ [Content.ofEnd 0]))
    (hsaid : ∀ x c, d.SaysAt x c → f x = g c) (hroot : g Content.root = none)
    (hend : g (Content.ofEnd 0) = none)
    (htokens : ∀ parent id t, (contentsOf parent id t).filterMap g = said t) :
    (stretch 0 d.recordCount).filterMap f = tokens.flatMap said := by
  have hall := h.saysFrom.forall₂.imp hsaid
  rw [h.length_eq] at hall
  rw [stretch, filterMap_of_forall₂ hall, List.filterMap_append, List.filterMap_cons_none hroot,
    filterMap_contentsFrom htokens, List.filterMap_cons_none hend, List.filterMap_nil,
    List.append_nil]

/-- What comes of records that are nodes comes of the nodes. -/
theorem filterMap_nodes {f : NodeId → Option String}
    (hnode : ∀ x s, f x = some s → d.isNode x = true) :
    d.nodes.filterMap f = (stretch 0 d.recordCount).filterMap f := by
  rw [nodes, filterMap_filter_of_imp hnode, stretch, List.range_eq_range']

/-! ## Subtrees -/

/-- The texts, comments and instructions in the subtree of a node, itself included. -/
def leavesUnder (d : Document) (x : NodeId) : List NodeId :=
  d.nodes.filter fun y => (d.text? y).isSome && (y == x || (d.ancestors y).contains x)

theorem gatherText_eq (d : Document) (done : String) (next left : Nat) :
    d.gatherText done next left = done ++ String.join ((stretch next left).filterMap d.text?) := by
  induction left generalizing done next with
  | zero => exact (String.append_empty).symm
  | succ left ih =>
    rw [gatherText, ih, Query.stretch_succ, List.filterMap_cons]
    cases d.text? next.toUInt32 with
    | none => rw [Option.getD_none, String.append_empty]
    | some s => rw [Option.getD_some, String.join_cons, String.append_assoc]

theorem stringValue_eq (hr : d.record? x = some r) (hvalue : d.value? x = none) :
    d.stringValue x =
      String.join ((stretch x.toNat (r.stop.toNat - x.toNat)).filterMap d.text?) := by
  rw [stringValue, hvalue]
  dsimp only
  rw [hr]
  dsimp only
  rw [gatherText_eq, String.empty_append]

theorem stringValue_of_value? (h : d.value? x = some s) : d.stringValue x = s := by
  rw [stringValue, h]

namespace Sound

theorem mem_leavesUnder (h : d.Sound) : y ∈ d.leavesUnder x ↔
    (d.text? y).isSome = true ∧ (y = x ∨ x ∈ d.ancestors y) := by
  rw [leavesUnder, List.mem_filter, h.mem_nodes, Bool.and_eq_true, Bool.or_eq_true, beq_iff_eq,
    List.contains_iff_mem]
  refine and_iff_right_of_imp fun hy => ?_
  obtain ⟨s, hs⟩ := Option.isSome_iff_exists.1 hy.1
  exact isNode_of_text? hs

/-- The texts of a subtree are those of its stretch of the table. -/
theorem filterMap_stretch (h : d.Sound) (hr : d.record? x = some r) :
    (stretch x.toNat (r.stop.toNat - x.toNat)).filterMap d.text? =
      (d.leavesUnder x).filterMap d.text? := by
  have hstop := h.lt_stop hr
  have hle : x.toNat + (r.stop.toNat - x.toNat) ≤ d.recordCount := by omega
  rw [← filterMap_filter_of_imp (p := fun y => (d.text? y).isSome)
    fun y s hs => Option.isSome_of_eq_some hs]
  congr 1
  refine h.eq_filter_nodes ((Query.pairwise_stretch h hle).filter _) fun y => ?_
  rw [List.mem_filter, Query.mem_stretch h hle, Bool.and_eq_true, Bool.or_eq_true, beq_iff_eq,
    List.contains_iff_mem, ← UInt32.toNat_inj]
  constructor
  · rintro ⟨hrange, htext⟩
    obtain ⟨s, hs⟩ := Option.isSome_iff_exists.1 htext
    have hnode := isNode_of_text? hs
    have hinside := h.mem_ancestors_iff_lt_stop hr hnode
    refine ⟨hnode, htext, ?_⟩
    rcases Nat.eq_or_lt_of_le hrange.1 with heq | hlt
    · exact .inl heq.symm
    · exact .inr (hinside.2 ⟨hlt, by omega⟩)
  · rintro ⟨hnode, htext, heq | hmem⟩
    · exact ⟨by omega, htext⟩
    · have hinside := (h.mem_ancestors_iff_lt_stop hr hnode).1 hmem
      exact ⟨by omega, htext⟩

theorem stringValue_eq_leaves (h : d.Sound) (hr : d.record? x = some r)
    (hvalue : d.value? x = none) :
    d.stringValue x = String.join ((d.leavesUnder x).filterMap d.text?) := by
  rw [stringValue_eq hr hvalue, h.filterMap_stretch hr]

/-- A text, a comment or an instruction has its own text as its value. -/
theorem stringValue_of_text? (h : d.Sound) (hs : d.text? x = some s) : d.stringValue x = s := by
  obtain ⟨k, hk, htext⟩ := exists_kind?_of_text? hs
  obtain ⟨r, hr, rfl⟩ := Option.map_eq_some_iff.1 hk
  have hkind : d.kind? x ≠ some .element ∧ d.kind? x ≠ some .attribute := by
    rw [hk]
    constructor <;> intro heq <;> rw [Option.some.inj heq] at htext <;> cases htext
  have hstop : r.stop.toNat = x.toNat + 1 := by
    rw [← stopAt_of_record hr]
    exact h.rooted.stop_eq _ _ (kindAt_of_record hr) fun heq => hkind.1 (heq ▸ hk)
  have hself : stretch x.toNat 1 = [x] := congrArg (fun y => [y]) UInt32.ofNat_toNat
  rw [stringValue_eq hr (value?_eq_none hkind.2), hstop, Nat.add_sub_cancel_left, hself,
    List.filterMap_cons_some hs, List.filterMap_nil, String.join_cons, String.join_nil,
    String.append_empty]

/-! ## Children -/

/-- What lies in an element is one of its children or lies in one. -/
theorem mem_ancestors_iff_exists_child (h : d.Sound) : e ∈ d.ancestors y ↔
    ∃ c, d.parent? c = some e ∧ (y = c ∨ c ∈ d.ancestors y) := by
  induction y using h.parent_induction with
  | root y hp =>
    rw [ancestors_of_none hp]
    refine ⟨fun hmem => (nomatch hmem), ?_⟩
    rintro ⟨c, hc, rfl | hmem⟩
    · rw [hp] at hc
      cases hc
    · cases hmem
  | inner y p hp ih =>
    rw [h.ancestors_of_some hp, List.mem_cons, ih]
    constructor
    · rintro (rfl | ⟨c, hc, hmem⟩)
      · exact ⟨y, hp, .inl rfl⟩
      · exact ⟨c, hc, .inr (List.mem_cons.2 (hmem.imp_left Eq.symm))⟩
    · rintro ⟨c, hc, rfl | hmem⟩
      · exact .inl (Option.some.inj (hc.symm.trans hp))
      · exact .inr ⟨c, hc, (List.mem_cons.1 hmem).imp_left Eq.symm⟩

theorem mem_childrenOf_iff (h : d.Sound) (he : d.kind? e = some .element) :
    c ∈ d.childrenOf e ↔
      d.isNode c = true ∧ d.kind? c ≠ some .attribute ∧ d.parent? c = some e := by
  rw [h.childrenOf_eq he, List.mem_filter, h.mem_nodes, Bool.and_eq_true, bne_iff_ne, beq_iff_eq]

/-- The leaves in an element are those in its children. -/
theorem mem_leavesUnder_element (h : d.Sound) (he : d.kind? e = some .element) :
    y ∈ d.leavesUnder e ↔ ∃ c ∈ d.childrenOf e, y ∈ d.leavesUnder c := by
  rw [h.mem_leavesUnder, h.mem_ancestors_iff_exists_child]
  constructor
  · rintro ⟨htext, hy⟩
    obtain ⟨s, hs⟩ := Option.isSome_iff_exists.1 htext
    obtain ⟨k, hk, hkind⟩ := exists_kind?_of_text? hs
    rcases hy with rfl | ⟨c, hc, hy⟩
    · rw [hk, Option.some.injEq] at he
      rw [he] at hkind
      cases hkind
    · refine ⟨c, (h.mem_childrenOf_iff he).2 ?_, h.mem_leavesUnder.2 ⟨htext, hy⟩⟩
      rcases hy with rfl | hmem
      · refine ⟨isNode_of_text? hs, fun heq => ?_, hc⟩
        rw [hk, Option.some.injEq] at heq
        rw [heq] at hkind
        cases hkind
      · have helement := h.element_of_mem_ancestors hmem
        exact ⟨isNode_of_kind? helement (by decide), by rw [helement]; simp, hc⟩
  · rintro ⟨c, hc, hy⟩
    obtain ⟨-, -, hparent⟩ := (h.mem_childrenOf_iff he).1 hc
    obtain ⟨htext, hy⟩ := h.mem_leavesUnder.1 hy
    exact ⟨htext, .inr ⟨c, hparent, hy⟩⟩

/-- The leaves in a subtree lie in its stretch of the table. -/
theorem lt_stop_of_mem_leavesUnder (h : d.Sound) (hr : d.record? x = some r)
    (hy : y ∈ d.leavesUnder x) : x.toNat ≤ y.toNat ∧ y.toNat < r.stop.toNat := by
  obtain ⟨htext, rfl | hmem⟩ := h.mem_leavesUnder.1 hy
  · exact ⟨Nat.le_refl _, (h.lt_stop hr).1⟩
  · obtain ⟨s, hs⟩ := Option.isSome_iff_exists.1 htext
    have hinside := (h.mem_ancestors_iff_lt_stop hr (isNode_of_text? hs)).1 hmem
    exact ⟨Nat.le_of_lt hinside.1, hinside.2⟩

/-- The subtree of a child ends in front of the next child. -/
theorem stop_le_of_lt (h : d.Sound) (hr : d.record? c = some r) (hc : d.parent? c = some e)
    (hy : d.parent? y = some e) (hnode : d.isNode y = true) (hlt : c < y) :
    r.stop.toNat ≤ y.toNat := by
  by_contra hinside
  have hmem := (h.mem_ancestors_iff_lt_stop hr hnode).2
    ⟨UInt32.lt_iff_toNat_lt.1 hlt, Nat.lt_of_not_le hinside⟩
  rw [h.ancestors_of_some hy, List.mem_cons] at hmem
  have hbehind := h.parent_lt hc
  rcases hmem with rfl | hmem
  · exact absurd hbehind (UInt32.lt_irrefl _)
  · exact absurd (UInt32.lt_trans hbehind (h.lt_of_mem_ancestors hmem)) (UInt32.lt_irrefl _)

/-- **The leaves in an element** are those in its children, one child after the other. -/
theorem leavesUnder_element (h : d.Sound) (he : d.kind? e = some .element) :
    d.leavesUnder e = (d.childrenOf e).flatMap d.leavesUnder := by
  refine (h.eq_filter_nodes ?_ fun y => ?_).symm
  · rw [List.pairwise_flatMap]
    refine ⟨fun c _ => h.pairwise_nodes.filter _, ?_⟩
    have hordered : (d.childrenOf e).Pairwise (· < ·) := by
      rw [h.childrenOf_eq he]
      exact h.pairwise_nodes.filter _
    refine hordered.imp_of_mem fun {c c'} hc hc' hlt x hx y hy => ?_
    obtain ⟨hnode, -, hparent⟩ := (h.mem_childrenOf_iff he).1 hc
    obtain ⟨hnode', -, hparent'⟩ := (h.mem_childrenOf_iff he).1 hc'
    obtain ⟨r, hr⟩ := Query.exists_record_of_isNode hnode
    obtain ⟨r', hr'⟩ := Query.exists_record_of_isNode hnode'
    have hstop := h.stop_le_of_lt hr hparent hparent' hnode' hlt
    have hbefore := h.lt_stop_of_mem_leavesUnder hr hx
    have hbehind := h.lt_stop_of_mem_leavesUnder hr' hy
    exact UInt32.lt_iff_toNat_lt.2 (by omega)
  · rw [List.mem_flatMap, ← h.mem_leavesUnder_element he, leavesUnder, List.mem_filter,
      h.mem_nodes]

/-- The string value of an element is put together from those of its children. -/
theorem stringValue_element (h : d.Sound) (he : d.kind? e = some .element) :
    d.stringValue e = String.join ((d.childrenOf e).map d.stringValue) := by
  obtain ⟨r, hr, hkind⟩ := Option.map_eq_some_iff.1 he
  have hvalue : d.value? e = none := value?_eq_none (by rw [he]; simp)
  rw [h.stringValue_eq_leaves hr hvalue, h.leavesUnder_element he, List.filterMap_flatMap,
    join_flatMap]
  congr 1
  refine List.map_congr_left fun c hc => ?_
  obtain ⟨hnode, hattribute, -⟩ := (h.mem_childrenOf_iff he).1 hc
  obtain ⟨r', hr'⟩ := Query.exists_record_of_isNode hnode
  exact (h.stringValue_eq_leaves hr' (value?_eq_none hattribute)).symm

/-! ## The root, and the buffer -/

theorem eq_root_or_mem_ancestors (h : d.Sound) (hx : d.isNode x = true) :
    x = 0 ∨ 0 ∈ d.ancestors x := by
  induction x using h.parent_induction with
  | root x hp => exact .inl ((h.parent?_eq_none_iff hx).1 hp)
  | inner x p hp ih =>
    rw [h.ancestors_of_some hp, List.mem_cons]
    exact .inr ((ih (h.isNode_parent hp)).imp_left Eq.symm)

/-- The string value of the root is all that the nodes say. -/
theorem stringValue_root (h : d.Sound) :
    d.stringValue 0 = String.join (d.nodes.filterMap d.text?) := by
  have hkind : d.kind? 0 = some .element := h.rooted.root
  obtain ⟨r, hr, -⟩ := Option.map_eq_some_iff.1 hkind
  have hall : d.leavesUnder 0 = d.nodes.filter fun y => (d.text? y).isSome := by
    refine List.filter_congr fun y hy => ?_
    rw [Bool.and_eq_left_iff_imp, Bool.or_eq_true, beq_iff_eq, List.contains_iff_mem]
    exact fun _ => h.eq_root_or_mem_ancestors (h.mem_nodes.1 hy)
  rw [h.stringValue_eq_leaves hr (value?_eq_none (by rw [hkind]; simp)), hall,
    filterMap_filter_of_imp fun y s hs => Option.isSome_of_eq_some hs]

/-- A string value lies in the buffer in one piece, if the buffer holds all that the records
say. -/
theorem exists_liesAt_stringValue (h : d.Sound) (hr : d.record? x = some r)
    (hvalue : d.value? x = none)
    (htext : d.text = (String.join ((stretch 0 d.recordCount).filterMap d.text?)).toUTF8) :
    ∃ first, LiesAt d.text first (d.stringValue x) := by
  have hstop := h.lt_stop hr
  have hsplit : stretch 0 d.recordCount = stretch 0 x.toNat ++
      stretch x.toNat (r.stop.toNat - x.toNat) ++
      stretch r.stop.toNat (d.recordCount - r.stop.toNat) := by
    have hbefore := stretch_append 0 x.toNat (r.stop.toNat - x.toNat)
    have hall := stretch_append 0 r.stop.toNat (d.recordCount - r.stop.toNat)
    rw [Nat.zero_add, Nat.add_sub_cancel' (Nat.le_of_lt hstop.1)] at hbefore
    rw [Nat.zero_add, Nat.add_sub_cancel' hstop.2] at hall
    rw [hbefore, hall]
  rw [hsplit, List.filterMap_append, List.filterMap_append, String.join_append,
    String.join_append, toUTF8_append, toUTF8_append, ← stringValue_eq hr hvalue] at htext
  exact ⟨_, _, _, htext, rfl⟩

end Sound

/-! ## Documents from tokens -/

theorem text?_of_kind? {k : NodeKind} (hk : d.kind? x = some k) (htext : k.hasText = true) :
    ∃ s, d.text? x = some s := by
  obtain ⟨r, hr, rfl⟩ := Option.map_eq_some_iff.1 hk
  exact ⟨_, by rw [text?, hr, Option.bind_some, recordText?, if_pos htext]⟩

theorem value?_of_kind? (hk : d.kind? x = some .attribute) : ∃ s, d.value? x = some s := by
  obtain ⟨r, hr, hkind⟩ := Option.map_eq_some_iff.1 hk
  have hattribute : r.isAttribute = true := beq_iff_eq.2 hkind
  exact ⟨_, by rw [value?, hr, Option.bind_some, if_pos hattribute]⟩

/-- **String values are put together from those of children.** Let a document be built from tokens,
with fewer than 2³² records and with buffers of fewer than 2³² bytes.

- The string value of an element is the values of its children, one behind the other, and it lies in
  the text buffer in one piece.
- A text, a comment or an instruction has its own text as its value, an attribute its own value.
- In the order of the document these are the texts and the values of the tokens.
- The value of the root is all texts of the tokens, one behind the other, and it is the whole text
  buffer. -/
theorem stringValue_of_tokens {ε : Type} {tokens : List Token}
    (h : Document.ofItems (tokens.map (Except.ok : Token → Except ε Token)) = .ok d)
    (hrecords : d.recordCount < UInt32.size) (htext : d.textLength < UInt32.size)
    (hstrings : d.strings.bytesUsed < UInt32.size) :
    (∀ e, d.kind? e = some .element →
        d.stringValue e = String.join ((d.childrenOf e).map d.stringValue) ∧
          ∃ first, LiesAt d.text first (d.stringValue e)) ∧
      (∀ x k, d.kind? x = some k → k.hasText = true → d.text? x = some (d.stringValue x)) ∧
      (∀ x, d.kind? x = some .attribute → d.value? x = some (d.stringValue x)) ∧
      d.nodes.filterMap d.text? = tokens.flatMap Token.payloads ∧
      d.nodes.filterMap d.value? = tokens.flatMap Token.values ∧
      d.stringValue 0 = String.join (tokens.flatMap Token.payloads) ∧
      d.text = (d.stringValue 0).toUTF8 := by
  have hsound := sound_of_items h hrecords
  have htells := tells_of_ofItems h hrecords htext hstrings
  have htexts : (stretch 0 d.recordCount).filterMap d.text? = tokens.flatMap Token.payloads :=
    filterMap_stretch_of_tells htells (fun x c hc => hc.text?_eq htext) rfl rfl
      Content.filterMap_text?_contentsOf
  have hvalues : (stretch 0 d.recordCount).filterMap d.value? = tokens.flatMap Token.values :=
    filterMap_stretch_of_tells htells (fun x c hc => hc.value?_eq) rfl rfl
      Content.filterMap_value?_contentsOf
  have hbuffer := text_eq_of_ofItems h
  have hnodes : d.nodes.filterMap d.text? = tokens.flatMap Token.payloads := by
    rw [filterMap_nodes fun x s hs => isNode_of_text? hs, htexts]
  have hroot : d.stringValue 0 = String.join (tokens.flatMap Token.payloads) := by
    rw [hsound.stringValue_root, hnodes]
  refine ⟨fun e he => ⟨hsound.stringValue_element he, ?_⟩, fun x k hk hkind => ?_, fun x hk => ?_,
    hnodes, ?_, hroot, by rw [hroot, hbuffer]⟩
  · obtain ⟨r, hr, -⟩ := Option.map_eq_some_iff.1 he
    exact hsound.exists_liesAt_stringValue hr (value?_eq_none (by rw [he]; simp))
      (by rw [htexts, hbuffer])
  · obtain ⟨s, hs⟩ := text?_of_kind? hk hkind
    rw [hs, hsound.stringValue_of_text? hs]
  · obtain ⟨s, hs⟩ := value?_of_kind? hk
    rw [hs, stringValue_of_value? hs]
  · rw [filterMap_nodes fun x s hs => isNode_of_kind? (kind?_of_value? hs) (by decide), hvalues]

/-- Texts of all kinds around and inside an element that lies in another, and an attribute. -/
def nestedTokens : List Token :=
  [.startTag ⟨none, "a"⟩ [⟨⟨none, "b"⟩, "v"⟩], .text "x", .startTag ⟨none, "c"⟩ [], .comment "é",
    .endTag, .instruction "p" "y", .endTag, .text "z"]

theorem stringValue_of_nestedTokens :
    ∃ d, Document.ofItems (nestedTokens.map (Except.ok : Token → Except Empty Token)) = .ok d ∧
      d.recordCount < UInt32.size ∧ d.textLength < UInt32.size ∧
      d.strings.bytesUsed < UInt32.size ∧ d.stringValue 0 = "xéyz" ∧
      d.text = (d.stringValue 0).toUTF8 ∧ d.kind? 1 = some .element ∧
      d.stringValue 1 = String.join ((d.childrenOf 1).map d.stringValue) := by
  obtain ⟨d, h, hkind⟩ : ∃ d, Document.ofItems
      (nestedTokens.map (Except.ok : Token → Except Empty Token)) = .ok d ∧
        d.kind? 1 = some .element := ⟨_, rfl, rfl⟩
  obtain ⟨hrecords, htext, hstrings⟩ := sizes_of_ofItems h
  rw [show (nestedTokens.map Token.recordCount).sum = 9 by decide] at hrecords
  rw [show (nestedTokens.map Token.textBytes).sum = 5 by decide] at htext
  rw [show (nestedTokens.map Token.nameBytes).sum = 5 by decide] at hstrings
  have hsize : UInt32.size = 4294967296 := rfl
  obtain ⟨helements, -, -, -, -, hroot, hbuffer⟩ :=
    stringValue_of_tokens h (by omega) (by omega) (by omega)
  exact ⟨d, h, by omega, by omega, by omega, hroot.trans (by decide), hbuffer, hkind,
    (helements 1 hkind).1⟩

end Document

end NodeTree

end MarkupQuery
