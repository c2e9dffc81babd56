import MarkupQuery.Proofs.FirstOccurrences
import MarkupQuery.Proofs.Query.Steps

/-!
# What two contexts bring

A search runs a step from one context after the other. Here are the facts about two contexts of a
step, one in front of the other in the document, that decide in which order the nodes come: whether
what the second context brings has been brought by the first or stands behind all of that. Along
some axes this always holds; along others only if the subtrees of the contexts are apart, or if both
lie at the same depth. A list of lists with this property ascends once repetitions are erased
(`pairwise_eraseDups_flatMap`).
-/

namespace MarkupQuery.Query

open NodeTree Location

variable {d : Document} {x y z w c : NodeId}

/-! ## Ascending lists -/

/-- Ascending lists put side by side ascend once repetitions are erased, if whatever a later list
brings stands in the earlier one or behind all of it. -/
theorem pairwise_eraseDups_flatMap {α : Type} {l : List α} {f : α → List NodeId} {R : α → α → Prop}
    (hl : l.Pairwise R) (hf : ∀ x ∈ l, (f x).Pairwise (· < ·))
    (hR : ∀ x ∈ l, ∀ y ∈ l, R x y → ∀ w ∈ f x, ∀ z ∈ f y, z ∈ f x ∨ w < z) :
    (l.flatMap f).eraseDups.Pairwise (· < ·) := by
  induction l generalizing f with
  | nil => exact List.Pairwise.nil
  | cons a l ih =>
    obtain ⟨ha, hl⟩ := List.pairwise_cons.1 hl
    have hfa := hf a List.mem_cons_self
    have hmem : ∀ y b, b ∈ (f y).removeAll (f a) ↔ b ∈ f y ∧ b ∉ f a := fun y b => by
      simp [List.removeAll]
    rw [List.flatMap_cons, List.eraseDups_append, eraseDups_of_nodup hfa.nodup, removeAll_flatMap,
      List.pairwise_append]
    refine ⟨hfa, ih hl (fun y hy => ?_) (fun y hy z hz hyz w hw v hv => ?_), fun w hw z hz => ?_⟩
    · exact (hf y (List.mem_cons_of_mem _ hy)).filter _
    · rw [hmem] at hw hv ⊢
      have := hR y (List.mem_cons_of_mem _ hy) z (List.mem_cons_of_mem _ hz) hyz w hw.1 v hv.1
      exact this.imp (fun hvy => ⟨hvy, hv.2⟩) id
    · obtain ⟨y, hy, hzy⟩ := List.mem_flatMap.1 (List.mem_eraseDups.1 hz)
      obtain ⟨hzy, hza⟩ := (hmem y z).1 hzy
      exact (hR a List.mem_cons_self y (List.mem_cons_of_mem _ hy) (ha y hy) w hw z hzy)
        |>.resolve_left hza

/-! ## Two contexts -/

section Contexts

variable (h : d.Sound) (hx : d.isNode x = true)

include h hx in
/-- A subtree that does not reach up to a node does not reach any later one. -/
theorem not_mem_ancestors_of_le (hy : d.isNode y = true) (hxy : x < y) (hsep : x ∉ d.ancestors y)
    (hz : d.isNode z = true) (hyz : y ≤ z) : x ∉ d.ancestors z := by
  obtain ⟨r, hr⟩ := exists_record_of_isNode hx
  rw [h.mem_ancestors_iff_lt_stop hr hy, not_and, Nat.not_lt] at hsep
  rw [h.mem_ancestors_iff_lt_stop hr hz, not_and, Nat.not_lt]
  intro _
  have := hsep (UInt32.lt_iff_toNat_lt.1 hxy)
  have := UInt32.le_iff_toNat_le.1 hyz
  omega

include h hx in
/-- What is below a node stands in front of any later node that is not. -/
theorem lt_of_mem_ancestors (hw : x ∈ d.ancestors w) (hwn : d.isNode w = true)
    (hz : d.isNode z = true) (hxz : x < z) (hsep : x ∉ d.ancestors z) : w < z := by
  obtain ⟨r, hr⟩ := exists_record_of_isNode hx
  obtain ⟨-, hw⟩ := (h.mem_ancestors_iff_lt_stop hr hwn).1 hw
  rw [h.mem_ancestors_iff_lt_stop hr hz, not_and, Nat.not_lt] at hsep
  have := hsep (UInt32.lt_iff_toNat_lt.1 hxz)
  exact UInt32.lt_iff_toNat_lt.2 (by omega)

end Contexts

/-- The elements around a node of a chain are the rest of the chain. -/
theorem ancestors_suffix (h : d.Sound) (hy : y ∈ d.ancestors z) :
    y :: d.ancestors y <:+ d.ancestors z := by
  induction z using h.parent_induction with
  | root z hp =>
    rw [Document.ancestors_of_none hp] at hy
    cases hy
  | inner z p hp ih =>
    rw [h.ancestors_of_some hp] at hy ⊢
    rcases List.mem_cons.1 hy with rfl | hy
    · exact List.suffix_rfl
    · exact (ih hy).trans (List.suffix_cons ..)

theorem mem_ancestors_trans (h : d.Sound) (hxy : x ∈ d.ancestors y) (hyz : y ∈ d.ancestors z) :
    x ∈ d.ancestors z :=
  (ancestors_suffix h hyz).subset (List.mem_cons_of_mem _ hxy)

/-- How deep a node lies in the tree. -/
def depth (d : Document) (x : NodeId) : Nat :=
  (d.ancestors x).length

theorem depth_lt (h : d.Sound) (hxy : x ∈ d.ancestors y) : depth d x < depth d y :=
  (ancestors_suffix h hxy).length_le

theorem depth_eq_of_parent (h : d.Sound) {p : NodeId} (hp : d.parent? x = some p) :
    depth d x = depth d p + 1 := by
  rw [depth, h.ancestors_of_some hp, List.length_cons, depth]

theorem mem_ancestors_of_parent (h : d.Sound) {p : NodeId} (hp : d.parent? x = some p) :
    p ∈ d.ancestors x := by
  rw [h.ancestors_of_some hp]
  exact List.mem_cons_self

theorem depth_congr (h : d.Sound) (hxy : d.parent? x = d.parent? y) : depth d x = depth d y := by
  cases hp : d.parent? x with
  | none => rw [depth, depth, Document.ancestors_of_none hp, Document.ancestors_of_none (hxy ▸ hp)]
  | some p => rw [depth_eq_of_parent h hp, depth_eq_of_parent h (hxy.symm.trans hp)]

theorem parent?_eq_none_iff_depth (h : d.Sound) : d.parent? x = none ↔ depth d x = 0 := by
  cases hp : d.parent? x with
  | none => simp [depth, Document.ancestors_of_none hp]
  | some p => simp [depth_eq_of_parent h hp]

/-! ## The axes from two contexts -/

/-- The attributes of an element stand in front of everything below it. -/
theorem lt_of_attribute (h : d.Sound) (hxy : x < y) (hw : w ∈ axisNodes d x .attribute)
    (hz : z ∈ axisNodes d y .attribute) : w < z := by
  simp only [axisNodes, List.mem_filter, h.mem_nodes, Bool.and_eq_true, beq_iff_eq] at hw hz
  obtain ⟨-, hattr, hwp⟩ := hw
  obtain ⟨-, -, hzp⟩ := hz
  refine UInt32.lt_trans ?_ (h.parent_lt hzp)
  have helement := h.parent_element hzp
  by_contra hle
  have hne : y ≠ w := by
    rintro rfl
    rw [hattr] at helement
    cases helement
  have hyw : y < w := UInt32.lt_of_le_of_ne (UInt32.not_lt.1 hle) hne
  have hrun := h.rooted.attribute_run _ _ y.toNat hattr (Document.parent?_eq_some_iff.1 hwp)
    (UInt32.lt_iff_toNat_lt.1 hxy) (UInt32.lt_iff_toNat_lt.1 hyw)
  rw [Document.kind?_eq, hrun.1] at helement
  cases helement

theorem mem_siblingNodes (h : d.Sound) : y ∈ siblingNodes d x ↔
    d.kind? x ≠ some .attribute ∧ d.isNode y = true ∧ d.kind? y ≠ some .attribute ∧
      d.parent? y = d.parent? x := by
  unfold siblingNodes
  split
  · rename_i hattr
    simp [hattr]
  · rename_i hattr
    simp [hattr, h.mem_nodes]

theorem mem_followingSibling (h : d.Sound) (hx : x ∈ axisNodes d c .followingSibling) :
    d.kind? c ≠ some .attribute ∧ d.isNode x = true ∧ d.kind? x ≠ some .attribute ∧
      d.parent? x = d.parent? c ∧ c < x := by
  rw [axisNodes, List.mem_filter, mem_siblingNodes h, decide_eq_true_eq] at hx
  exact ⟨hx.1.1, hx.1.2.1, hx.1.2.2.1, hx.1.2.2.2, hx.2⟩

section Axes

variable (h : d.Sound) (hx : d.isNode x = true) (hy : d.isNode y = true) (hxy : x < y)

include h hx hy hxy

theorem lt_of_child (hsep : x ∉ d.ancestors y) (hw : w ∈ axisNodes d x .child)
    (hz : z ∈ axisNodes d y .child) : w < z := by
  simp only [axisNodes, List.mem_filter, h.mem_nodes, Bool.and_eq_true, beq_iff_eq] at hw hz
  have hyz := h.parent_lt hz.2.2
  have hxw := mem_ancestors_of_parent h hw.2.2
  have hsep' := not_mem_ancestors_of_le h hx hy hxy hsep hz.1 (UInt32.le_of_lt hyz)
  exact lt_of_mem_ancestors h hx hxw hw.1 hz.1 (UInt32.lt_trans hxy hyz) hsep'

theorem mem_or_lt_of_descendant (hw : w ∈ axisNodes d x .descendant)
    (hz : z ∈ axisNodes d y .descendant) : z ∈ axisNodes d x .descendant ∨ w < z := by
  simp only [axisNodes, nodesBelow, List.mem_filter, h.mem_nodes, Bool.and_eq_true,
    List.contains_iff_mem] at hw hz ⊢
  by_cases hsep : x ∈ d.ancestors y
  · exact .inl ⟨hz.1, hz.2.1, mem_ancestors_trans h hsep hz.2.2⟩
  · have hyz := h.lt_of_mem_ancestors hz.2.2
    have hsep' := not_mem_ancestors_of_le h hx hy hxy hsep hz.1 (UInt32.le_of_lt hyz)
    exact .inr (lt_of_mem_ancestors h hx hw.2.2 hw.1 hz.1 (UInt32.lt_trans hxy hyz) hsep')

theorem mem_or_lt_of_descendantOrSelf (hw : w ∈ axisNodes d x .descendantOrSelf)
    (hz : z ∈ axisNodes d y .descendantOrSelf) :
    z ∈ axisNodes d x .descendantOrSelf ∨ w < z := by
  rw [Scan.axisNodes_descendantOrSelf h hx] at hw ⊢
  rw [Scan.axisNodes_descendantOrSelf h hy] at hz
  simp only [List.mem_filter, h.mem_nodes, Bool.and_eq_true, Bool.or_eq_true, beq_iff_eq,
    List.contains_iff_mem] at hw hz ⊢
  have hyz : y ≤ z := by
    rcases hz.2.2 with rfl | hz
    · exact UInt32.le_refl _
    · exact UInt32.le_of_lt (h.lt_of_mem_ancestors hz)
  have hxz : x < z := UInt32.lt_of_lt_of_le hxy hyz
  by_cases hsep : x ∈ d.ancestors y
  · refine .inl ⟨hz.1, hz.2.1, .inr ?_⟩
    rcases hz.2.2 with rfl | hz
    · exact hsep
    · exact mem_ancestors_trans h hsep hz
  · refine .inr ?_
    rcases hw.2.2 with rfl | hxw
    · exact hxz
    · exact lt_of_mem_ancestors h hx hxw hw.1 hz.1 hxz
        (not_mem_ancestors_of_le h hx hy hxy hsep hz.1 hyz)

theorem mem_of_following (hsep : x ∉ d.ancestors y) (hz : z ∈ axisNodes d y .following) :
    z ∈ axisNodes d x .following := by
  simp only [axisNodes, List.mem_filter, h.mem_nodes, Bool.and_eq_true, decide_eq_true_eq,
    Bool.not_eq_true', ← Bool.not_eq_true, List.contains_iff_mem] at hz ⊢
  exact ⟨hz.1, hz.2.1, UInt32.lt_trans hxy hz.2.2.1,
    not_mem_ancestors_of_le h hx hy hxy hsep hz.1 (UInt32.le_of_lt hz.2.2.1)⟩

theorem mem_or_lt_of_followingSibling (hlevel : depth d x = depth d y)
    (hw : w ∈ axisNodes d x .followingSibling) (hz : z ∈ axisNodes d y .followingSibling) :
    z ∈ axisNodes d x .followingSibling ∨ w < z := by
  obtain ⟨hattr, hwn, -, hwp, hxw⟩ := mem_followingSibling h hw
  obtain ⟨-, hzn, hzattr, hzp, hyz⟩ := mem_followingSibling h hz
  by_cases hparent : d.parent? x = d.parent? y
  · left
    rw [axisNodes, siblingNodes, if_neg hattr]
    simp [h.mem_nodes, hzn, hzattr, hzp, hparent, UInt32.lt_trans hxy hyz]
  · right
    cases hp : d.parent? x with
    | none =>
      have hq := (parent?_eq_none_iff_depth h).2
        (hlevel.symm.trans ((parent?_eq_none_iff_depth h).1 hp))
      exact absurd (hp.trans hq.symm) hparent
    | some p =>
      cases hq : d.parent? y with
      | none =>
        rw [parent?_eq_none_iff_depth h, ← hlevel, ← parent?_eq_none_iff_depth h, hp] at hq
        cases hq
      | some q =>
        rw [depth_eq_of_parent h hp, depth_eq_of_parent h hq] at hlevel
        have hpq : p ∉ d.ancestors q := fun hmem => by
          have := depth_lt h hmem
          omega
        have hqp : q ∉ d.ancestors p := fun hmem => by
          have := depth_lt h hmem
          omega
        have hne : p ≠ q := fun heq => hparent (by rw [hp, hq, heq])
        have hpn := h.isNode_parent hp
        have hqn := h.isNode_parent hq
        have hqz := h.parent_lt (hzp.trans hq)
        -- The subtree of `p` ends in front of `q`, for otherwise `y` would stand in front of `x`.
        have hlt : p < q := by
          rcases UInt32.lt_or_lt_of_ne hne with hlt | hlt
          · exact hlt
          · have hpx := h.parent_lt hp
            have hsep := not_mem_ancestors_of_le h hqn hpn hlt hqp hx (UInt32.le_of_lt hpx)
            have hyx := lt_of_mem_ancestors h hqn (mem_ancestors_of_parent h hq) hy hx
              (UInt32.lt_trans hlt hpx) hsep
            exact absurd hyx (UInt32.lt_asymm hxy)
        exact lt_of_mem_ancestors h hpn (mem_ancestors_of_parent h (hwp.trans hp)) hwn hzn
          (UInt32.lt_trans hlt hqz)
          (not_mem_ancestors_of_le h hpn hqn hlt hpq hzn (UInt32.le_of_lt hqz))

end Axes

end MarkupQuery.Query
