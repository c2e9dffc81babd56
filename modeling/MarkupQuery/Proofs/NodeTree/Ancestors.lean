import MarkupQuery.Proofs.NodeTree.Sound

/-!
# The elements around a node

The elements around a node are the chain of its parents, nearest first. In a sound document the
chain ends at the root, and it tells the same of the tree as the ends of subtrees do
(`Sound.mem_ancestors_iff_lt_stop`).
-/

namespace MarkupQuery.NodeTree

namespace Document

variable {d : Document} {x y p : NodeId}

/-- The elements around a node, nearest first: its parent, the parent of that, and so on. Parents
stand in front of their children; a chain that went the other way would be cut off. -/
def ancestors (d : Document) (x : NodeId) : List NodeId :=
  match d.parent? x with
  | none => []
  | some p => if p < x then p :: d.ancestors p else []
termination_by x.toNat

theorem ancestors_of_none (hp : d.parent? x = none) : d.ancestors x = [] := by
  simp [ancestors, hp]

namespace Sound

theorem parent_lt (h : d.Sound) (hp : d.parent? x = some p) : p < x :=
  UInt32.lt_iff_toNat_lt.2 (h.rooted.inFront (parent?_eq_some_iff.1 hp))

theorem parent_element (h : d.Sound) (hp : d.parent? x = some p) : d.kind? p = some .element :=
  h.rooted.parent_element _ _ (parent?_eq_some_iff.1 hp)

theorem isNode_parent (h : d.Sound) (hp : d.parent? x = some p) : d.isNode p = true :=
  isNode_iff.2 ⟨.element, h.parent_element hp, by decide⟩

theorem ancestors_of_some (h : d.Sound) (hp : d.parent? x = some p) :
    d.ancestors x = p :: d.ancestors p := by
  rw [ancestors, hp]
  exact if_pos (h.parent_lt hp)

/-- Induction along the chain of parents. -/
theorem parent_induction (h : d.Sound) {P : NodeId → Prop} (root : ∀ x, d.parent? x = none → P x)
    (inner : ∀ x p, d.parent? x = some p → P p → P x) (x : NodeId) : P x := by
  induction hn : x.toNat using Nat.strongRecOn generalizing x with
  | ind n ih =>
    subst hn
    cases hp : d.parent? x with
    | none => exact root x hp
    | some p =>
      exact inner x p hp (ih _ (UInt32.lt_iff_toNat_lt.1 (h.parent_lt hp)) p rfl)

theorem mem_ancestors (h : d.Sound) :
    y ∈ d.ancestors x ↔ Encloses d.records y.toNat x.toNat := by
  induction x using h.parent_induction with
  | root x hp =>
    rw [ancestors_of_none hp]
    refine ⟨fun hy => (nomatch hy), fun henc => ?_⟩
    obtain ⟨q, hq, -⟩ := henc.exists_parentAt
    rw [parentAt_eq, hp] at hq
    cases hq
  | inner x p hp ih =>
    rw [h.ancestors_of_some hp, List.mem_cons, ih,
      Encloses.iff_of_parentAt (parent?_eq_some_iff.1 hp), UInt32.toNat_inj, eq_comm]

theorem lt_of_mem_ancestors (h : d.Sound) (hy : y ∈ d.ancestors x) : y < x :=
  UInt32.lt_iff_toNat_lt.2 (h.rooted.inFront.lt (h.mem_ancestors.1 hy))

theorem pairwise_ancestors (h : d.Sound) (x : NodeId) : (d.ancestors x).Pairwise (· > ·) := by
  induction x using h.parent_induction with
  | root x hp =>
    rw [ancestors_of_none hp]
    exact List.Pairwise.nil
  | inner x p hp ih =>
    rw [h.ancestors_of_some hp]
    exact List.pairwise_cons.2 ⟨fun y hy => h.lt_of_mem_ancestors hy, ih⟩

theorem element_of_mem_ancestors (h : d.Sound) (hy : y ∈ d.ancestors x) :
    d.kind? y = some .element := by
  induction x using h.parent_induction with
  | root x hp =>
    rw [ancestors_of_none hp] at hy
    cases hy
  | inner x p hp ih =>
    rw [h.ancestors_of_some hp] at hy
    rcases List.mem_cons.1 hy with rfl | hy
    · exact h.parent_element hp
    · exact ih hy

/-- The subtree of a record begins in front of where it ends. -/
theorem lt_stop (h : d.Sound) {r : Record} (hr : d.record? x = some r) :
    x.toNat < r.stop.toNat ∧ r.stop.toNat ≤ d.recordCount := by
  have hkind := kindAt_of_record hr
  rw [← stopAt_of_record hr]
  by_cases hx : kindAt d.records x.toNat = some .element
  · exact ⟨(h.closedAt hx).lt_stop, Nat.le_of_lt (h.closedAt hx).stop_lt_size⟩
  · rw [h.rooted.stop_eq _ _ hkind fun heq => hx (hkind.trans (congrArg some heq))]
    exact ⟨Nat.lt_succ_self _, lt_size_of_kindAt hkind⟩

/-- The subtree of a record is the stretch of the table up to where it ends. -/
theorem mem_ancestors_iff_lt_stop (h : d.Sound) {r : Record} (hr : d.record? x = some r)
    (hy : d.isNode y = true) : x ∈ d.ancestors y ↔ x.toNat < y.toNat ∧ y.toNat < r.stop.toNat := by
  obtain ⟨k, hk, hmark⟩ := isNode_iff.1 hy
  have hkind := kindAt_of_record hr
  rw [h.mem_ancestors, ← stopAt_of_record hr]
  by_cases hx : kindAt d.records x.toNat = some .element
  · refine (h.closedAt hx).encloses_iff_lt_stop fun hy => hmark ?_
    exact Option.some.inj (hk.symm.trans hy)
  · rw [h.rooted.stop_eq _ _ hkind fun heq => hx (hkind.trans (congrArg some heq))]
    refine ⟨fun henc => absurd ?_ hx, fun hlt => by omega⟩
    exact h.element_of_mem_ancestors (h.mem_ancestors.2 henc)

/-- The chain of parents ends at the root. -/
theorem parent?_eq_none_iff (h : d.Sound) (hx : d.isNode x = true) :
    d.parent? x = none ↔ x = 0 := by
  rw [← UInt32.toNat_inj, show (0 : NodeId).toNat = 0 from rfl,
    ← h.rooted.parent_eq_none_iff _ (lt_recordCount_of_isNode hx), parentAt_eq,
    Option.map_eq_none_iff]

end Sound

end Document

end MarkupQuery.NodeTree
