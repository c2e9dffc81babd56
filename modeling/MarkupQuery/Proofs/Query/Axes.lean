import MarkupQuery.Proofs.Query.Scans

/-!
# The axes

What a step visits from a node is said here twice. `axisNodes` says it by the parents of nodes and
the order of the document alone, without the ends of subtrees and the list of children. The scans of
the model say it by these tables, a few numbers at a time. They agree on every axis
(`Scan.lists_along`).
-/

namespace MarkupQuery.Query

open NodeTree Location

variable {d : Document} {c x : NodeId}

/-! ## The nodes of an axis -/

/-- The children of the element around a node, the node included; an attribute has no siblings. -/
def siblingNodes (d : Document) (c : NodeId) : List NodeId :=
  if d.kind? c = some .attribute then []
  else d.nodes.filter fun y => d.kind? y != some .attribute && d.parent? y == d.parent? c

/-- The nodes below a node, attributes excepted. -/
def nodesBelow (d : Document) (c : NodeId) : List NodeId :=
  d.nodes.filter fun y => d.kind? y != some .attribute && (d.ancestors y).contains c

/-- The nodes on an axis from a node, in the order in which they are visited. -/
def axisNodes (d : Document) (c : NodeId) : Axis → List NodeId
  | .self => [c]
  | .parent => (d.parent? c).toList
  | .child => d.nodes.filter fun y => d.kind? y != some .attribute && d.parent? y == some c
  | .attribute => d.nodes.filter fun y => d.kind? y == some .attribute && d.parent? y == some c
  | .descendant => nodesBelow d c
  | .descendantOrSelf => if d.kind? c = some .attribute then [] else c :: nodesBelow d c
  | .ancestor => d.ancestors c
  | .ancestorOrSelf => c :: d.ancestors c
  | .following => d.nodes.filter fun y =>
      d.kind? y != some .attribute && (decide (c < y) && !(d.ancestors y).contains c)
  | .preceding => (d.nodes.filter fun y =>
      d.kind? y != some .attribute && (decide (y < c) && !(d.ancestors c).contains y)).reverse
  | .followingSibling => (siblingNodes d c).filter fun y => decide (c < y)
  | .precedingSibling => ((siblingNodes d c).filter fun y => decide (y < c)).reverse

/-! ## Scans and lists of nodes -/

namespace Scan

variable {scan : Scan} {l : List NodeId}

/-- A scan visits the nodes of a list, each once, and perhaps end marks among them. -/
def Lists (d : Document) (scan : Scan) (nodes : List NodeId) : Prop :=
  ∃ l, Visits (Scan.next d) scan l ∧ Listing d l ∧ l.filter d.isNode = nodes

theorem lists_of_nodes (h : Visits (Scan.next d) scan l) (hnodup : l.Nodup)
    (hl : ∀ x ∈ l, d.isNode x = true) : scan.Lists d l :=
  ⟨l, h, ⟨hnodup, fun x hx => Document.lt_recordCount_of_isNode (hl x hx)⟩,
    List.filter_eq_self.2 hl⟩

theorem lists_single {node : Option NodeId} (hn : ∀ x, node = some x → d.isNode x = true) :
    (Scan.single node).Lists d node.toList := by
  refine lists_of_nodes (visits_single d node) ?_ fun x hx => hn x (Option.mem_toList.1 hx)
  cases node with
  | none => exact List.nodup_nil
  | some x => exact List.nodup_singleton x

/-- A scan whose list is made of nodes of the document in order. -/
theorem lists_of_sublist (h : d.Sound) (hv : Visits (Scan.next d) scan l)
    (hl : l.Sublist d.nodes) : scan.Lists d l :=
  lists_of_nodes hv (h.pairwise_nodes.nodup.sublist hl) fun _ hx => h.mem_nodes.1 (hl.subset hx)

theorem lists_of_reverse (h : d.Sound) (hv : Visits (Scan.next d) scan l.reverse)
    (hl : l.Sublist d.nodes) : scan.Lists d l.reverse :=
  lists_of_nodes hv (List.nodup_reverse.2 (h.pairwise_nodes.nodup.sublist hl)) fun _ hx =>
    h.mem_nodes.1 (hl.subset (List.mem_reverse.1 hx))

theorem lists_forward (h : d.Sound) {next left : Nat} (hle : next + left ≤ d.recordCount)
    {g : NodeId → Bool} (hg : ∀ y, d.isNode y = true →
      (g y = true ↔ next ≤ y.toNat ∧ y.toNat < next + left)) :
    (Scan.forward next left).Lists d
      (d.nodes.filter fun y => d.kind? y != some .attribute && g y) := by
  refine ⟨_, visits_forward h hle, (listing_stretch h hle).sublist List.filter_sublist, ?_⟩
  apply filter_stretch h hle
  intro y hy
  simp [hg y hy, and_comm]

theorem lists_backward (h : d.Sound) (hc : d.isNode c = true) :
    (Scan.backward c.toNat c).Lists d (axisNodes d c .preceding) := by
  have hle : c.toNat ≤ d.recordCount := Nat.le_of_lt (Document.lt_recordCount_of_isNode hc)
  have hle' : 0 + c.toNat ≤ d.recordCount := by omega
  refine ⟨_, visits_backward h hle hc (ParentAhead.parent h c), ?_, ?_⟩
  · exact ((listing_stretch h hle').sublist List.filter_sublist).reverse
  · rw [List.filter_reverse, axisNodes]
    congr 1
    apply filter_stretch h hle'
    intro y hy
    simp [UInt32.lt_iff_toNat_lt, and_left_comm]

/-! ## Siblings -/

theorem mem_entries {first length : Nat} : x ∈ entries d first length ↔
    ∃ i, first ≤ i ∧ i < first + length ∧ d.children[i]? = some x := by
  rw [entries, List.mem_iff_getElem?]
  constructor
  · rintro ⟨i, hi⟩
    rw [List.getElem?_take] at hi
    split at hi
    · rw [List.getElem?_drop, Array.getElem?_toList] at hi
      exact ⟨first + i, by omega, by omega, hi⟩
    · cases hi
  · rintro ⟨i, hfirst, hi, hx⟩
    refine ⟨i - first, ?_⟩
    rw [List.getElem?_take_of_lt (by omega), List.getElem?_drop, Array.getElem?_toList,
      Nat.add_sub_cancel' hfirst]
    exact hx

/-- The siblings in front of a node and those behind it. -/
theorem entries_eq_append {first length place : Nat} (hfirst : first ≤ place)
    (hplace : place < first + length) (hc : d.children[place]? = some c) :
    entries d first length = entries d first (place - first) ++
      c :: entries d (place + 1) (first + length - (place + 1)) := by
  obtain ⟨n, rfl⟩ := Nat.exists_eq_add_of_le hfirst
  obtain ⟨m, rfl⟩ : ∃ m, length = n + (m + 1) := ⟨length - n - 1, by omega⟩
  have hlt : first + n < d.children.toList.length :=
    Array.length_toList.symm ▸ (Array.getElem?_eq_some_iff.1 hc).1
  have hget : d.children.toList[first + n] = c := by
    obtain ⟨_, hget⟩ := Array.getElem?_eq_some_iff.1 hc
    exact hget
  rw [show first + n - first = n by omega,
    show first + (n + (m + 1)) - (first + n + 1) = m by omega, entries, entries, entries,
    List.take_add, List.drop_drop, List.drop_eq_getElem_cons hlt, hget,
    List.take_succ_cons]

/-- In an ascending list, what is smaller than an entry stands in front of it. -/
theorem filter_lt_append {l₁ l₂ : List NodeId} (h : (l₁ ++ c :: l₂).Pairwise (· < ·)) :
    (l₁ ++ c :: l₂).filter (fun y => decide (y < c)) = l₁ ∧
      (l₁ ++ c :: l₂).filter (fun y => decide (c < y)) = l₂ := by
  obtain ⟨-, h₂, h₁₂⟩ := List.pairwise_append.1 h
  have hlt : ∀ y ∈ l₁, y < c := fun y hy => h₁₂ y hy c (List.mem_cons_self ..)
  have hgt : ∀ y ∈ l₂, c < y := (List.pairwise_cons.1 h₂).1
  constructor
  · rw [List.filter_append, List.filter_cons_of_neg (by simp),
      List.filter_eq_self.2 fun y hy => decide_eq_true (hlt y hy), List.filter_eq_nil_iff.2,
      List.append_nil]
    exact fun y hy => by simp [UInt32.lt_asymm (hgt y hy)]
  · rw [List.filter_append, List.filter_cons_of_neg (by simp),
      List.filter_eq_self.2 fun y hy => decide_eq_true (hgt y hy), List.filter_eq_nil_iff.2,
      List.nil_append]
    exact fun y hy => by simp [UInt32.lt_asymm (hlt y hy)]

/-- The list of children has those of each record. -/
theorem entries_eq_childrenOf {r : Record} (hr : d.record? x = some r) :
    entries d r.children.first.toNat r.children.length.toNat = d.childrenOf x := by
  simp only [entries, Document.childrenOf, hr, Array.toList_extract, List.extract_eq_take_drop,
    Nat.add_sub_cancel_left]

theorem childrenOf_sublist (h : d.Sound) (x : NodeId) : (d.childrenOf x).Sublist d.nodes := by
  by_cases hx : d.kind? x = some .element
  · rw [h.childrenOf_eq hx]
    exact List.filter_sublist
  · rw [h.childrenOf_eq_nil hx]
    exact List.nil_sublist _

theorem childrenOf_eq_filter (h : d.Sound) (x : NodeId) : d.childrenOf x =
    d.nodes.filter fun y => d.kind? y != some .attribute && d.parent? y == some x := by
  by_cases hx : d.kind? x = some .element
  · exact h.childrenOf_eq hx
  · rw [h.childrenOf_eq_nil hx, eq_comm, List.filter_eq_nil_iff]
    intro y _ hy
    simp only [Bool.and_eq_true, beq_iff_eq] at hy
    exact hx (h.parent_element hy.2)

theorem siblingNodes_eq_childrenOf (h : d.Sound) {p : NodeId} (hp : d.parent? c = some p)
    (hc : d.kind? c ≠ some .attribute) : siblingNodes d c = d.childrenOf p := by
  simp [siblingNodes, hc, hp, childrenOf_eq_filter h]

/-- The root has no siblings but itself. -/
theorem filter_siblingNodes_root (h : d.Sound) (hp : d.parent? c = none) {f : NodeId → Bool}
    (hf : f 0 = false) : (siblingNodes d c).filter f = [] := by
  rw [siblingNodes, List.filter_eq_nil_iff]
  intro y hy
  split at hy
  · cases hy
  · simp only [List.mem_filter, h.mem_nodes, hp, Bool.and_eq_true, beq_iff_eq] at hy
    rw [(h.parent?_eq_none_iff hy.1).1 hy.2.2, hf]
    exact Bool.false_ne_true

theorem position?_eq_some_iff_of_record (h : d.Sound) {r : Record} (hr : d.record? x = some r)
    (c : NodeId) (i : Nat) :
    position? d c r.children.first.toNat r.children.length.toNat = some i ↔
      r.children.first.toNat ≤ i ∧
        i < r.children.first.toNat + r.children.length.toNat ∧ d.children[i]? = some c := by
  have hsub := (entries_eq_childrenOf hr).symm ▸ childrenOf_sublist h x
  exact position?_eq_some_iff (h.run_le hr) (ascends_of_pairwise (h.pairwise_nodes.sublist hsub))

/-- A scan over siblings: if for every place of the node among its siblings the scan that is chosen
visits those on one side, then that is what is visited from the node. -/
theorem lists_siblings (h : d.Sound) (hc : d.isNode c = true) {choose : Nat → Nat → Nat → Scan}
    (side : List NodeId → List NodeId) (hnil : side [] = [])
    (hroot : d.parent? c = none → side (siblingNodes d c) = [])
    (hside : ∀ first length place, first ≤ place → place < first + length →
      first + length ≤ d.childCount → d.children[place]? = some c →
      (entries d first length).Sublist d.nodes →
      (choose first length place).Lists d (side (entries d first length))) :
    ∃ scan, siblings d c choose = some scan ∧ scan.Lists d (side (siblingNodes d c)) := by
  have hnone : (Scan.single none).Lists d [] := lists_single fun _ hx => (nomatch hx)
  unfold siblings
  cases hp : d.parent? c with
  | none => exact ⟨_, rfl, by rwa [hroot hp]⟩
  | some p =>
    obtain ⟨r, hr⟩ := exists_record_of_isNode (h.isNode_parent hp)
    have hle := h.run_le hr
    have hentries := entries_eq_childrenOf hr
    have hsub := hentries.symm ▸ childrenOf_sublist h p
    have hplace := fun i => position?_eq_some_iff_of_record h hr c i
    simp only [hr]
    rw [if_pos (show _ ≤ d.children.size from hle)]
    cases hi : position? d c r.children.first.toNat r.children.length.toNat with
    | none =>
      have hattr : d.kind? c = some .attribute := by
        by_contra hne
        have hmem : c ∈ d.childrenOf p := by
          rw [childrenOf_eq_filter h, List.mem_filter, h.mem_nodes]
          simp [hc, hne, hp]
        obtain ⟨i, hi'⟩ := mem_entries.1 (hentries.symm ▸ hmem)
        rw [(hplace i).2 hi'] at hi
        cases hi
      rw [siblingNodes, if_pos hattr, hnil]
      exact ⟨_, rfl, hnone⟩
    | some i =>
      have hi' := (hplace i).1 hi
      have hmem : c ∈ d.childrenOf p := hentries ▸ mem_entries.2 ⟨i, hi'⟩
      have hne : d.kind? c ≠ some .attribute := by
        rw [childrenOf_eq_filter h, List.mem_filter] at hmem
        simpa [hp] using hmem.2
      rw [siblingNodes_eq_childrenOf h hp hne, ← hentries]
      exact ⟨_, rfl, hside _ _ _ hi'.1 hi'.2.1 hle hi'.2.2 hsub⟩

theorem lists_followingSibling (h : d.Sound) (hc : d.isNode c = true) :
    ∃ scan, along d .followingSibling c = some scan ∧
      scan.Lists d (axisNodes d c .followingSibling) := by
  obtain ⟨r, hr⟩ := exists_record_of_isNode hc
  rw [along, hr]
  refine lists_siblings h hc (fun l => l.filter fun y => decide (c < y)) rfl ?_ ?_
  · exact fun hp => filter_siblingNodes_root h hp (by simp)
  · intro first length place hfirst hplace hle hid hsub
    rw [entries_eq_append hfirst hplace hid] at hsub ⊢
    rw [(filter_lt_append (h.pairwise_nodes.sublist hsub)).2]
    refine lists_of_sublist h (visits_run (by omega)) (.trans ?_ hsub)
    exact (List.sublist_cons_self c _).trans (List.sublist_append_right _ _)

theorem lists_precedingSibling (h : d.Sound) (hc : d.isNode c = true) :
    ∃ scan, along d .precedingSibling c = some scan ∧
      scan.Lists d (axisNodes d c .precedingSibling) := by
  obtain ⟨r, hr⟩ := exists_record_of_isNode hc
  rw [along, hr]
  refine lists_siblings h hc (fun l => (l.filter fun y => decide (y < c)).reverse) rfl ?_ ?_
  · intro hp
    rw [filter_siblingNodes_root h hp, List.reverse_nil]
    rw [(h.parent?_eq_none_iff hc).1 hp]
    simp
  · intro first length place hfirst hplace hle hid hsub
    rw [entries_eq_append hfirst hplace hid] at hsub ⊢
    rw [(filter_lt_append (h.pairwise_nodes.sublist hsub)).1]
    refine lists_of_reverse h (visits_runBack (by omega)) (.trans ?_ hsub)
    exact List.sublist_append_left _ _

/-! ## The other axes -/

theorem lists_chain (h : d.Sound) (hc : d.isNode c = true) :
    (chain (d.parent? c)).Lists d (d.ancestors c) ∧
      (chain (some c)).Lists d (c :: d.ancestors c) := by
  have hnodes : ∀ y ∈ d.ancestors c, d.isNode y = true := fun y hy =>
    Document.isNode_iff.2 ⟨.element, h.element_of_mem_ancestors hy, by decide⟩
  have hself : c ∉ d.ancestors c := fun hmem => UInt32.lt_irrefl c (h.lt_of_mem_ancestors hmem)
  have hnodup := (h.pairwise_ancestors c).nodup
  refine ⟨lists_of_nodes (visits_chain_parent h c) hnodup hnodes, ?_⟩
  refine lists_of_nodes (visits_chain h hc) (List.nodup_cons.2 ⟨hself, hnodup⟩) fun y hy => ?_
  rcases List.mem_cons.1 hy with rfl | hy
  · exact hc
  · exact hnodes y hy

theorem lists_children (h : d.Sound) {r : Record} (hr : d.record? c = some r) :
    (run r.children.first.toNat r.children.length.toNat).Lists d (axisNodes d c .child) := by
  have hv := visits_run (h.run_le hr)
  rw [entries_eq_childrenOf hr] at hv
  rw [axisNodes, ← childrenOf_eq_filter h]
  exact lists_of_sublist h hv (childrenOf_sublist h c)

theorem lists_attributes (h : d.Sound) {r : Record} (hr : d.record? c = some r) :
    (attributes (c.toNat + 1) (r.stop.toNat - (c.toNat + 1))).Lists d
      (axisNodes d c .attribute) := by
  have hstop := h.lt_stop hr
  have hle : c.toNat + 1 + (r.stop.toNat - (c.toNat + 1)) ≤ d.recordCount := by omega
  have heq : d.attributesOf c = d.attributeRun (c.toNat + 1) (r.stop.toNat - (c.toNat + 1)) := by
    simp [Document.attributesOf, hr]
  have hv := visits_attributes h hle
  rw [← heq, h.attributesOf_eq] at hv
  exact lists_of_sublist h hv List.filter_sublist

theorem axisNodes_descendantOrSelf (h : d.Sound) (hc : d.isNode c = true) :
    axisNodes d c .descendantOrSelf = d.nodes.filter fun y =>
      d.kind? y != some .attribute && (y == c || (d.ancestors y).contains c) := by
  rw [axisNodes]
  split
  · rename_i hattr
    rw [eq_comm, List.filter_eq_nil_iff]
    intro y _ hy
    simp only [Bool.and_eq_true, Bool.or_eq_true, bne_iff_ne, beq_iff_eq,
      List.contains_iff_mem] at hy
    rcases hy.2 with rfl | hmem
    · exact hy.1 hattr
    · rw [h.element_of_mem_ancestors hmem] at hattr
      cases hattr
  · rename_i hattr
    refine h.eq_filter_nodes (List.pairwise_cons.2 ⟨fun y hy => ?_, ?_⟩) fun y => ?_
    · have hmem := (List.mem_filter.1 hy).2
      rw [Bool.and_eq_true, List.contains_iff_mem] at hmem
      exact h.lt_of_mem_ancestors hmem.2
    · exact h.pairwise_nodes.filter _
    · rw [List.mem_cons, nodesBelow, List.mem_filter, h.mem_nodes]
      by_cases hyc : y = c
      · simp [hyc, hc, hattr]
      · simp [hyc]

theorem lists_descendants (h : d.Sound) (hc : d.isNode c = true) {r : Record}
    (hr : d.record? c = some r) :
    (forward (c.toNat + 1) (r.stop.toNat - (c.toNat + 1))).Lists d (nodesBelow d c) ∧
    (forward c.toNat (r.stop.toNat - c.toNat)).Lists d (axisNodes d c .descendantOrSelf) ∧
    (forward r.stop.toNat (d.recordCount - r.stop.toNat)).Lists d (axisNodes d c .following) := by
  have hstop := h.lt_stop hr
  have hbelow : ∀ y, d.isNode y = true → ((d.ancestors y).contains c = true ↔
      c.toNat < y.toNat ∧ y.toNat < r.stop.toNat) := fun y hy => by
    rw [List.contains_iff_mem, h.mem_ancestors_iff_lt_stop hr hy]
  refine ⟨lists_forward h (by omega) fun y hy => ?_, ?_, lists_forward h (by omega) fun y hy => ?_⟩
  · rw [hbelow y hy]
    omega
  · rw [axisNodes_descendantOrSelf h hc]
    apply lists_forward h (by omega)
    intro y hy
    rw [Bool.or_eq_true, hbelow y hy, beq_iff_eq, ← UInt32.toNat_inj]
    omega
  · rw [Bool.and_eq_true, Bool.not_eq_true', ← Bool.not_eq_true, hbelow y hy, decide_eq_true_iff,
      UInt32.lt_iff_toNat_lt]
    have := Document.lt_recordCount_of_isNode hy
    omega

/-- The scan of an axis visits the nodes of the axis. -/
theorem lists_along (h : d.Sound) (axis : Axis) (hc : d.isNode c = true) :
    ∃ scan, along d axis c = some scan ∧ scan.Lists d (axisNodes d c axis) := by
  obtain ⟨r, hr⟩ := exists_record_of_isNode hc
  have hparent := parent?_of_record hr
  have hdesc := lists_descendants h hc hr
  have hle := h.run_le hr
  rw [along, hr]
  cases axis <;> dsimp only
  case self => exact ⟨_, rfl, lists_single fun y hy => Option.some.inj hy ▸ hc⟩
  case parent =>
    rw [← hparent]
    exact ⟨_, rfl, lists_single fun p hp => h.isNode_parent hp⟩
  case child => exact ⟨_, if_pos hle, lists_children h hr⟩
  case «attribute» => exact ⟨_, rfl, lists_attributes h hr⟩
  case descendant => exact ⟨_, rfl, hdesc.1⟩
  case descendantOrSelf => exact ⟨_, rfl, hdesc.2.1⟩
  case following => exact ⟨_, rfl, hdesc.2.2⟩
  case ancestor => exact ⟨_, rfl, hparent ▸ (lists_chain h hc).1⟩
  case ancestorOrSelf => exact ⟨_, rfl, (lists_chain h hc).2⟩
  case preceding => exact ⟨_, rfl, lists_backward h hc⟩
  case followingSibling =>
    have := lists_followingSibling h hc
    rwa [along, hr] at this
  case precedingSibling =>
    have := lists_precedingSibling h hc
    rwa [along, hr] at this

end Scan

theorem nodup_axisNodes (h : d.Sound) (axis : Axis) (hc : d.isNode c = true) :
    (axisNodes d c axis).Nodup := by
  obtain ⟨_, -, l, -, hl, hnodes⟩ := Scan.lists_along h axis hc
  rw [← hnodes]
  exact hl.nodup.filter _

theorem isNode_of_mem_axisNodes (h : d.Sound) {axis : Axis} (hc : d.isNode c = true)
    (hx : x ∈ axisNodes d c axis) : d.isNode x = true := by
  obtain ⟨_, -, l, -, -, hnodes⟩ := Scan.lists_along h axis hc
  rw [← hnodes] at hx
  exact (List.mem_filter.1 hx).2

end MarkupQuery.Query
