import MarkupQuery.Proofs.NodeTree.Sound

/-!
# Children and attributes

What the tables of a document say of the children and the attributes of a node is compared here with
what the parents of all nodes say. The children of an element and the attributes of a node are the
nodes in document order that have it as their parent (`childrenOf_eq`, `attributesOf_eq`).

The main statement, `children_of_items`, adds that the runs of the children tile the list of
children.
-/

namespace MarkupQuery.NodeTree

open Markup

namespace Document

variable {d : Document} {x y : NodeId}

namespace Sound

/-! ## Children -/

theorem mem_childrenAmong (h : d.Sound) : y ∈ (childrenAmong d.records x.toNat 0
    d.recordCount).map Nat.toUInt32 ↔ d.isNode y = true ∧
      (d.kind? y != some .attribute && d.parent? y == some x) = true := by
  rw [mem_map_toUInt32, childrenAmong, List.mem_filter, List.mem_range'_1, isChildAt_iff,
    isNode_iff, Bool.and_eq_true, bne_iff_ne, beq_iff_eq, parent?_eq_some_iff]
  · constructor
    · rintro ⟨-, ⟨k, hk, hc⟩, hp⟩
      refine ⟨⟨k, hk, ?_⟩, ?_, hp⟩
      · rintro rfl
        cases hc
      · rw [kind?_eq, hk]
        rintro heq
        rw [Option.some.inj heq] at hc
        cases hc
    · rintro ⟨⟨k, hk, hmark⟩, hattr, hp⟩
      have hlt : y.toNat < d.recordCount := lt_size_of_parentAt hp
      refine ⟨⟨Nat.zero_le _, by simpa using hlt⟩, ⟨k, hk, ?_⟩, hp⟩
      cases k <;> simp_all [NodeKind.isChild]
  · intro n hn
    have := (List.mem_range'_1.1 (List.mem_filter.1 hn).1).2
    exact h.lt_size (by simpa using this)

/-- The run of an element holds the children that stand in the table. -/
theorem childrenOf_eq_childrenAmong (h : d.Sound) (hx : d.kind? x = some .element) :
    d.childrenOf x = (childrenAmong d.records x.toNat 0 d.recordCount).map Nat.toUInt32 := by
  have hrun := h.gathered.run_eq x.toNat ((isClosed_iff _).2 hx)
  obtain ⟨r, hr, -⟩ := Option.map_eq_some_iff.1 hx
  have hr' := runAt_of_record hr
  change (d.children.toList.drop (runAt d.records x.toNat).first.toNat).take
    (runAt d.records x.toNat).length.toNat = _ at hrun
  rw [childrenOf, hr]
  dsimp only
  rw [Array.toList_extract, List.extract_eq_take_drop, Nat.add_sub_cancel_left, ← hr']
  exact hrun

/-- The children of an element are the nodes that have it as their parent, attributes excepted. -/
theorem childrenOf_eq (h : d.Sound) (hx : d.kind? x = some .element) :
    d.childrenOf x =
      d.nodes.filter fun y => d.kind? y != some .attribute && d.parent? y == some x := by
  rw [h.childrenOf_eq_childrenAmong hx]
  refine h.eq_filter_nodes (pairwise_toUInt32 ?_ ?_) fun y => h.mem_childrenAmong
  · exact List.Pairwise.filter _ (List.pairwise_lt_range' _)
  · intro n hn
    have := (List.mem_range'_1.1 (List.mem_filter.1 hn).1).2
    exact h.lt_size (by simpa using this)

/-- Records that are no elements have no children. -/
theorem childrenOf_eq_nil (h : d.Sound) (hx : d.kind? x ≠ some .element) : d.childrenOf x = [] := by
  have hrun : runAt d.records x.toNat = ⟨0, 0⟩ := h.gathered.no_run x.toNat hx
  unfold childrenOf
  split
  · rename_i r hr
    rw [← runAt_of_record hr, hrun]
    simp
  · rfl

/-! ## Attributes -/

end Sound

/-- A run of attributes is read up to the first record that is none, or to the end. -/
theorem attributeRun_eq (d : Document) {next left n : Nat} (hleft : n ≤ left)
    (hlt : next + n < UInt32.size)
    (hattr : ∀ x, next ≤ x → x < next + n → kindAt d.records x = some .attribute)
    (hend : n = left ∨ kindAt d.records (next + n) ≠ some .attribute) :
    d.attributeRun next left = (List.range' next n).map Nat.toUInt32 := by
  have hread : ∀ x < UInt32.size, (d.record? x.toUInt32).any Record.isAttribute = true ↔
      kindAt d.records x = some .attribute := by
    intro x hx
    rw [record?, UInt32.toNat_ofNat_of_lt' hx, kindAt]
    cases d.records[x]? <;> simp [Record.isAttribute]
  induction n generalizing next left with
  | zero =>
    cases left with
    | zero => rfl
    | succ left =>
      rw [attributeRun, if_neg]
      · rfl
      · rw [hread next (by omega)]
        exact hend.resolve_left (by omega)
  | succ n ih =>
    obtain ⟨left, rfl⟩ : ∃ m, left = m + 1 := ⟨left - 1, by omega⟩
    have hnext := hattr next le_rfl (by omega)
    rw [attributeRun, if_pos ((hread next (by omega)).2 hnext), ih (by omega) (by omega)
      (fun x hx hxn => hattr x (by omega) (by omega)) ?_]
    · simp [List.range'_succ]
    · rw [show next + 1 + n = next + (n + 1) by omega]
      exact hend.imp_left (by omega)

namespace Sound

/-- Behind the attributes of an element there is none of another element before its end mark. -/
theorem not_attribute_behind (h : d.Sound) {e n : Nat} (he : kindAt d.records e = some .element)
    (hn : ∀ x, (kindAt d.records x = some .attribute ∧ parentAt d.records x = some e) ↔
      e < x ∧ x ≤ e + n) (hlt : e + 1 + n < stopAt d.records e) :
    kindAt d.records (e + 1 + n) ≠ some .attribute := by
  intro hattr
  have henc := ((h.closedAt he).encloses_iff (e + 1 + n)).2 ⟨by omega, by omega⟩
  obtain ⟨p, hp, -⟩ := henc.exists_parentAt
  have hpe : p ≠ e := by
    rintro rfl
    have := (hn _).1 ⟨hattr, hp⟩
    omega
  have hle := h.rooted.inFront.le_parent henc hp
  have hlt' := h.rooted.inFront hp
  -- the parent would be one of the attributes
  have hpattr := ((hn p).2 ⟨by omega, by omega⟩).1
  rw [h.rooted.parent_element _ p hp] at hpattr
  cases hpattr

/-- All attributes of an element lie before its end mark. -/
theorem attributes_lt_stop (h : d.Sound) {e n : Nat} (he : kindAt d.records e = some .element)
    (hn : ∀ x, (kindAt d.records x = some .attribute ∧ parentAt d.records x = some e) ↔
      e < x ∧ x ≤ e + n) : e + n < stopAt d.records e := by
  rcases Nat.eq_zero_or_pos n with rfl | hpos
  · exact (h.closedAt he).lt_stop
  · have hattr := (hn (e + n)).2 (by omega)
    have hmark : kindAt d.records (e + n) ≠ some .endMark := by simp [hattr.1]
    exact (((h.closedAt he).encloses_iff_lt_stop hmark).1 (.parent hattr.2)).2

theorem attributesOf_eq_range (h : d.Sound) {n : Nat}
    (hn : ∀ y, (kindAt d.records y = some .attribute ∧ parentAt d.records y = some x.toNat) ↔
      x.toNat < y ∧ y ≤ x.toNat + n) :
    d.attributesOf x = (List.range' (x.toNat + 1) n).map Nat.toUInt32 := by
  have hsize := h.size_lt
  have hzero : kindAt d.records x.toNat ≠ some .element → n = 0 := fun hk => by
    rcases Nat.eq_zero_or_pos n with rfl | hpos
    · rfl
    · have hattr := (hn (x.toNat + 1)).2 (by omega)
      exact absurd (h.rooted.parent_element _ _ hattr.2) hk
  unfold attributesOf
  split
  · rename_i r hr
    have hkind := kindAt_of_record hr
    rw [← stopAt_of_record hr]
    by_cases hk : kindAt d.records x.toNat = some .element
    · have hlt := h.attributes_lt_stop hk hn
      have hbound : stopAt d.records x.toNat < d.recordCount := (h.closedAt hk).stop_lt_size
      refine attributeRun_eq d (by omega) (by omega) (fun y hy hyn => ((hn y).2 (by omega)).1) ?_
      rcases Nat.lt_or_ge (x.toNat + 1 + n) (stopAt d.records x.toNat) with hlt' | hge
      · exact .inr (h.not_attribute_behind hk hn hlt')
      · exact .inl (by omega)
    · have hstop' := h.rooted.stop_eq _ _ hkind fun heq => hk (hkind.trans (congrArg some heq))
      rw [hstop', hzero hk, Nat.sub_self]
      rfl
  · rename_i hr
    have hkind : kindAt d.records x.toNat = none := congrArg (Option.map Record.kind) hr
    simp [hzero (by simp [hkind])]

/-- The attributes of a node are the attributes that have it as their parent. -/
theorem attributesOf_eq (h : d.Sound) (x : NodeId) :
    d.attributesOf x =
      d.nodes.filter fun y => d.kind? y == some .attribute && d.parent? y == some x := by
  obtain ⟨n, hn⟩ := h.rooted.exists_attribute_run x.toNat
  have hlt : ∀ y ∈ List.range' (x.toNat + 1) n, y < UInt32.size := by
    intro y hy
    rw [List.mem_range'_1] at hy
    exact h.lt_size (lt_size_of_kindAt ((hn y).2 (by omega)).1)
  rw [h.attributesOf_eq_range hn]
  apply h.eq_filter_nodes (pairwise_toUInt32 (List.pairwise_lt_range' _) hlt)
  intro y
  rw [mem_map_toUInt32 hlt, List.mem_range'_1, Bool.and_eq_true, beq_iff_eq, beq_iff_eq,
    parent?_eq_some_iff, kind?_eq, hn, isNode_iff]
  exact ⟨fun hy => ⟨⟨.attribute, ((hn y.toNat).2 (by omega)).1, by simp⟩, by omega⟩,
    fun hy => by omega⟩

/-! ## The list of children as a whole -/

/-- The list of children holds every node once, attributes and the root excepted. -/
theorem children_perm (h : d.Sound) :
    d.children.toList.Perm (d.nodes.filter fun y => d.kind? y != some .attribute && y != 0) := by
  have hperm := h.gathered.perm
  have hlt : ∀ x ∈ (List.range d.records.size).filter d.outline.isPlaced, x < UInt32.size :=
    fun x hx => h.lt_size (List.mem_range.1 (List.mem_filter.1 hx).1)
  refine hperm.trans (.of_eq (h.eq_filter_nodes (pairwise_toUInt32
    (List.pairwise_lt_range.filter _) hlt) fun y => ?_))
  rw [mem_map_toUInt32 hlt, List.mem_filter, List.mem_range, h.nested.isPlaced_iff, isNode_iff,
    Bool.and_eq_true, bne_iff_ne, bne_iff_ne, kind?_eq]
  have hzero : y ≠ 0 ↔ y.toNat ≠ 0 := by
    simp [← UInt32.toNat_inj.ne]
  constructor
  · rintro ⟨hy, a, -, hc⟩
    obtain ⟨⟨k, hk, hchild⟩, hp⟩ := isChildAt_iff.1 hc
    refine ⟨⟨k, hk, ?_⟩, ?_, hzero.2 fun hy0 => ?_⟩
    · rintro rfl
      cases hchild
    · intro hattr
      rw [show kindAt d.records y.toNat = some k from hk] at hattr
      rw [Option.some.inj hattr] at hchild
      cases hchild
    · have hnone := (h.rooted.parent_eq_none_iff _ hy).2 hy0
      rw [show parentAt d.records y.toNat = some a from hp] at hnone
      cases hnone
  · rintro ⟨⟨k, hk, hmark⟩, hattr, hy0⟩
    have hy := lt_size_of_kindAt hk
    refine ⟨hy, ?_⟩
    obtain ⟨p, hp⟩ : ∃ p, parentAt d.records y.toNat = some p := by
      apply Option.ne_none_iff_exists'.1
      intro hnone
      exact hzero.1 hy0 ((h.rooted.parent_eq_none_iff _ hy).1 hnone)
    have hclosed := (isClosed_iff p).2 (h.rooted.parent_element _ p hp)
    refine ⟨p, hclosed, isChildAt_iff.2 ⟨⟨k, hk, ?_⟩, hp⟩⟩
    cases k <;> simp_all [NodeKind.isChild]

end Sound

/-- The entry `i` of the list of children lies in the run of the element `x`. -/
def InRun (d : Document) (x : NodeId) (i : Nat) : Prop :=
  ∃ r, d.record? x = some r ∧ r.kind = .element ∧ r.children.first.toNat ≤ i ∧
    i < r.children.first.toNat + r.children.length.toNat

namespace Sound

theorem inRun_iff (x : NodeId) (i : Nat) : d.InRun x i ↔ d.outline.IsClosed x.toNat ∧
    (runAt d.records x.toNat).first.toNat ≤ i ∧
      i < (runAt d.records x.toNat).first.toNat + (runAt d.records x.toNat).length.toNat := by
  rw [isClosed_iff, ← kind?_eq, kind?, InRun, runAt]
  cases hr : d.record? x with
  | none => simp
  | some r => simp [show d.records[x.toNat]? = some r from hr]

/-- The runs of the elements tile the list of children. -/
theorem existsUnique_inRun (h : d.Sound) {i : Nat} (hi : i < d.childCount) :
    ∃! x, d.InRun x i := by
  obtain ⟨a, ha, huniq⟩ := h.gathered.tile i hi
  have hlt : a < UInt32.size := h.lt_size (lt_size_of_kindAt ha.1.1)
  have htoNat : a.toUInt32.toNat = a := UInt32.toNat_ofNat_of_lt' hlt
  refine ⟨a.toUInt32, (inRun_iff _ _).2 (by rwa [htoNat]), fun y hy => ?_⟩
  rw [← UInt32.toNat_inj, htoNat]
  exact huniq _ ((inRun_iff y i).1 hy)

theorem run_le (h : d.Sound) {r : Record} (hr : d.record? x = some r) :
    r.children.first.toNat + r.children.length.toNat ≤ d.childCount := by
  rw [← runAt_of_record hr]
  by_cases hx : kindAt d.records x.toNat = some .element
  · exact h.gathered.run_le _ ((isClosed_iff _).2 hx)
  · rw [show runAt d.records x.toNat = ⟨0, 0⟩ from h.gathered.no_run _ hx]
    exact Nat.zero_le _

theorem lt_childCount_of_inRun (h : d.Sound) {i : Nat} (hi : d.InRun x i) : i < d.childCount := by
  obtain ⟨r, hr, -, -, hlt⟩ := hi
  exact Nat.lt_of_lt_of_le hlt (h.run_le hr)

end Sound

/-- **The children of a document built from items.** Every element has as its children the nodes
that have it as their parent, attributes excepted, in document order, and other records have none;
the runs of the elements tile the list of children, which holds each node but attributes and the
root once; and the attributes of a node are those that have it as their parent, in document order.
-/
theorem children_of_items {ε : Type} {items : List (Except ε Token)} {d : Document}
    (h : Document.ofItems items = .ok d) (hsize : d.recordCount < UInt32.size) :
    (∀ x, d.childrenOf x =
      if d.kind? x = some .element then
        d.nodes.filter fun y => d.kind? y != some .attribute && d.parent? y == some x
      else []) ∧
    (∀ x i, d.InRun x i → i < d.childCount) ∧
    (∀ i < d.childCount, ∃! x, d.InRun x i) ∧
    (∀ x, d.children.toList.count x =
      if d.isNode x = true ∧ d.kind? x ≠ some .attribute ∧ x ≠ 0 then 1 else 0) ∧
    d.childCount = (d.nodes.filter fun y => d.kind? y != some .attribute && y != 0).length ∧
    (∀ x, d.attributesOf x =
      d.nodes.filter fun y => d.kind? y == some .attribute && d.parent? y == some x) ∧
    d.nodes.Pairwise (· < ·) := by
  have hd := sound_of_items h hsize
  refine ⟨fun x => ?_, fun x i => hd.lt_childCount_of_inRun, fun i => hd.existsUnique_inRun,
    fun x => ?_, ?_, hd.attributesOf_eq, hd.pairwise_nodes⟩
  · split
    · rename_i hx
      exact hd.childrenOf_eq hx
    · rename_i hx
      exact hd.childrenOf_eq_nil hx
  · rw [hd.children_perm.count_eq]
    have hnodup := hd.pairwise_nodes.nodup.filter
      fun y => d.kind? y != some .attribute && y != 0
    rw [List.Nodup.count hnodup]
    simp [hd.mem_nodes]
  · rw [← hd.children_perm.length_eq, Array.length_toList]
    rfl

/-- An element with an attribute, a text and an element inside. -/
def sampleItems : List (Except Empty Token) :=
  [.ok (.startTag ⟨none, "a"⟩ [⟨⟨none, "x"⟩, "1"⟩]), .ok (.text "t"),
    .ok (.startTag ⟨none, "b"⟩ []), .ok .endTag, .ok .endTag]

theorem children_of_sampleItems : ∃ d, Document.ofItems sampleItems = .ok d ∧
    d.recordCount < UInt32.size ∧ d.childrenOf 1 = [3, 4] ∧
      d.childrenOf 1 = d.nodes.filter fun y =>
        d.kind? y != some .attribute && d.parent? y == some 1 := by
  have h : Document.ofItems sampleItems = .ok _ := rfl
  exact ⟨_, h, by decide, by decide, (children_of_items h (by decide)).1 1⟩

end Document

end MarkupQuery.NodeTree
