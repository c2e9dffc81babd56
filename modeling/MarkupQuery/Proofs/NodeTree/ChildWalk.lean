import MarkupQuery.Proofs.NodeTree.Nesting

/-!
# The walk that collects children

An element collects its children when it closes, by a walk over the records behind it that jumps
over the subtrees of child elements. The walk is always at a child of the element, or at the end
(`Outline.AtChild`), so it finds the children in order and nothing else (`toList_collectChildren`).
-/

namespace MarkupQuery.NodeTree

/-! ## Children by their places -/

/-- The record at `x` is a child of the element at `e`. -/
def isChildAt (t : Array Record) (e x : Nat) : Bool :=
  (kindAt t x).any NodeKind.isChild && parentAt t x == some e

/-- The children of the element at `e` among the `n` records from `first` on. -/
def childrenAmong (t : Array Record) (e first n : Nat) : List Nat :=
  (List.range' first n).filter (isChildAt t e)

/-- The run of children of the record at a place. -/
def runAt (t : Array Record) (x : Nat) : ChildRun :=
  (t[x]?.map Record.children).getD ⟨0, 0⟩

section Among

variable {t u : Array Record} {e x : Nat}

theorem isChildAt_iff : isChildAt t e x = true ↔
    (∃ k, kindAt t x = some k ∧ k.isChild = true) ∧ parentAt t x = some e := by
  simp [isChildAt, Option.any_eq_true]

theorem childrenAmong_append (t : Array Record) (e first m n : Nat) :
    childrenAmong t e first (m + n) =
      childrenAmong t e first m ++ childrenAmong t e (first + m) n := by
  simp [childrenAmong, ← List.filter_append, List.range'_append_1]

theorem childrenAmong_succ (t : Array Record) (e first n : Nat) :
    childrenAmong t e first (n + 1) =
      (if isChildAt t e first then [first] else []) ++ childrenAmong t e (first + 1) n := by
  rw [childrenAmong, childrenAmong, List.range'_succ, List.filter_cons]
  split <;> rfl

theorem childrenAmong_eq_nil {first n : Nat}
    (h : ∀ x, first ≤ x → x < first + n → isChildAt t e x = false) :
    childrenAmong t e first n = [] := by
  rw [childrenAmong, List.filter_eq_nil_iff]
  intro x hx
  rw [List.mem_range'_1] at hx
  simp [h x hx.1 hx.2]

theorem childrenAmong_congr {first n : Nat}
    (h : ∀ x, first ≤ x → x < first + n → isChildAt u e x = isChildAt t e x) :
    childrenAmong u e first n = childrenAmong t e first n :=
  List.filter_congr fun x hx => by
    rw [List.mem_range'_1] at hx
    exact h x hx.1 hx.2

end Among

/-! ## The walk over a closing element -/

namespace Outline

/-- The walk over the records behind `e` is at a place where a child of `e` stands, or at the end of
the table. -/
def AtChild (o : Outline) (e x : Nat) : Prop :=
  x ≤ o.records.size ∧
    (x < o.records.size → parentAt o.records x = some e ∧ kindAt o.records x ≠ some .endMark)

namespace Nested

variable {o : Outline} {e : NodeId} {outer : List NodeId}

/-- Behind the innermost element, every element is closed. -/
theorem isClosed_of_lt (h : o.Nested) (hs : o.stack = e :: outer) {p : Nat}
    (hp : kindAt o.records p = some .element) (hlt : e.toNat < p) : o.IsClosed p := by
  have hdesc := h.descending
  rw [hs, List.pairwise_cons] at hdesc
  refine ⟨hp, fun s hs' => ?_⟩
  rw [hs] at hs'
  rcases List.mem_cons.1 hs' with rfl | hs'
  · omega
  · have := hdesc.1 s hs'
    omega

/-- Let `last` be the last record of the subtree of a child of the innermost element. Behind it is
the next child, or the end of the table. -/
theorem atChild_succ (h : o.Nested) (hs : o.stack = e :: outer) {x last : Nat}
    (hx : parentAt o.records x = some e.toNat) (hle : x ≤ last) (hlast : last < o.records.size)
    (hsub : ∀ y, x < y → (Encloses o.records x y ↔ y ≤ last)) : o.AtChild e.toNat (last + 1) := by
  refine ⟨hlast, fun hlt => ?_⟩
  have hex := h.inFront hx
  have henc := h.open_encloses e (by simp [hs]) (last + 1) (by omega) hlt
  have hparent : parentAt o.records (last + 1) = some e.toNat := by
    obtain ⟨p, hp, -⟩ := henc.exists_parentAt
    have hep := h.inFront.le_parent henc hp
    have hpl := h.inFront hp
    rcases Nat.eq_or_lt_of_le hep with rfl | hep
    · exact hp
    exfalso
    have hbeyond : ¬ Encloses o.records x (last + 1) := by
      rw [hsub (last + 1) (by omega)]
      omega
    rcases Nat.lt_trichotomy p x with hpx | rfl | hxp
    · -- an element between `e` and its child would enclose the child
      have hclosed := h.closed p (h.isClosed_of_lt hs (h.parent_element _ p hp) hep)
      have hstop := ((hclosed.encloses_iff _).1 (.parent hp)).2
      have hpe := (hclosed.encloses_iff x).2 ⟨hpx, by omega⟩
      have := h.inFront.le_parent hpe hx
      omega
    · exact hbeyond (.parent hp)
    · exact hbeyond (.outer hp ((hsub p hxp).2 (by omega)))
  refine ⟨hparent, fun hmark => ?_⟩
  exact (h.endMark_stop _ _ hmark hparent).1.2 e (by simp [hs]) rfl

/-- The record behind the innermost element is a child of it, or the end of the table. -/
theorem atChild_first (h : o.Nested) (hs : o.stack = e :: outer) :
    o.AtChild e.toNat (e.toNat + 1) := by
  refine ⟨h.lt_size hs, fun hlt => ?_⟩
  have henc := h.open_encloses e (by simp [hs]) _ (Nat.lt_succ_self _) hlt
  obtain ⟨p, hp, -⟩ := henc.exists_parentAt
  have hep := h.inFront.le_parent henc hp
  have hpl := h.inFront hp
  obtain rfl : p = e.toNat := by omega
  exact ⟨hp, fun hmark => (h.endMark_stop _ _ hmark hp).1.2 e (by simp [hs]) rfl⟩

/-- Behind a child that is no element is the next child. -/
theorem atChild_of_not_element (h : o.Nested) (hs : o.stack = e :: outer) {x : Nat}
    (hx : parentAt o.records x = some e.toNat) (hk : kindAt o.records x ≠ some .element) :
    o.AtChild e.toNat (x + 1) := by
  apply h.atChild_succ hs hx le_rfl (lt_size_of_parentAt hx)
  intro y hy
  refine ⟨fun henc => ?_, fun hle => by omega⟩
  -- a record encloses another only if it is an element
  exfalso
  induction henc with
  | parent hp => exact hk (h.parent_element _ x hp)
  | outer hp henc ih => exact ih (h.inFront.lt henc)

/-- Behind the end mark of a child element is the next child. -/
theorem atChild_of_element (h : o.Nested) (hs : o.stack = e :: outer) {x : Nat}
    (hx : parentAt o.records x = some e.toNat) (hk : kindAt o.records x = some .element) :
    o.AtChild e.toNat (stopAt o.records x + 1) := by
  have hclosed := h.closed x (h.isClosed_of_lt hs hk (h.inFront hx))
  apply h.atChild_succ hs hx (Nat.le_of_lt hclosed.lt_stop) hclosed.stop_lt_size
  intro y hy
  rw [hclosed.encloses_iff]
  omega

/-- From a child element on, the children of the innermost element are that element and those behind
its end mark. -/
theorem childrenAmong_element (h : o.Nested) (hs : o.stack = e :: outer) {x : Nat}
    (hx : parentAt o.records x = some e.toNat) (hk : kindAt o.records x = some .element) :
    childrenAmong o.records e.toNat x (o.records.size - x) =
      x :: childrenAmong o.records e.toNat (stopAt o.records x + 1)
        (o.records.size - (stopAt o.records x + 1)) := by
  have hclosed := h.closed x (h.isClosed_of_lt hs hk (h.inFront hx))
  have hlt := hclosed.lt_stop
  have hsize := hclosed.stop_lt_size
  have hchild : isChildAt o.records e.toNat x = true := isChildAt_iff.2 ⟨⟨.element, hk, rfl⟩, hx⟩
  -- what the child encloses has its parent at the child or further inside
  have hnone : childrenAmong o.records e.toNat (x + 1) (stopAt o.records x - x) = [] := by
    apply childrenAmong_eq_nil
    intro y hy hyx
    have henc := (hclosed.encloses_iff y).2 ⟨by omega, by omega⟩
    by_contra hc
    have hyp := (isChildAt_iff.1 (Bool.not_eq_false _ ▸ hc)).2
    have := h.inFront.le_parent henc hyp
    have := h.inFront hx
    omega
  have hsum : o.records.size - x =
      (stopAt o.records x - x + (o.records.size - (stopAt o.records x + 1))) + 1 := by
    omega
  rw [hsum, childrenAmong_succ, hchild, if_pos rfl, childrenAmong_append, hnone,
    show x + 1 + (stopAt o.records x - x) = stopAt o.records x + 1 by omega]
  rfl

/-- The walk finds the children of the innermost element that are still ahead, in order. The walk
reads the table with the end mark behind it, which is the record at `size`. -/
theorem toList_collectChildren (h : o.Nested) (hs : o.stack = e :: outer) {mark : Record}
    (fuel next : Nat) (found : Array NodeId) (hnext : o.AtChild e.toNat next)
    (hfuel : o.records.size - next ≤ fuel) :
    (Builder.collectChildren (o.records.push mark) o.records.size fuel next found).toList =
      found.toList ++
        (childrenAmong o.records e.toNat next (o.records.size - next)).map Nat.toUInt32 := by
  induction fuel generalizing next found with
  | zero =>
    have hzero : o.records.size - next = 0 := by omega
    simp [Builder.collectChildren, childrenAmong, hzero]
  | succ fuel ih =>
    unfold Builder.collectChildren
    split
    · rename_i hlt
      obtain ⟨hp, hmark⟩ := hnext.2 hlt
      have hread : (o.records.push mark)[next]? = some o.records[next] := by
        rw [Array.getElem?_push, if_neg (by omega), Array.getElem?_eq_getElem hlt]
      have hkind : kindAt o.records next = some o.records[next].kind := by
        simp [kindAt, Array.getElem?_eq_getElem hlt]
      have hchild : isChildAt o.records e.toNat next = o.records[next].kind.isChild := by
        simp [isChildAt, hkind, hp]
      have hsplit : o.records.size - next = (o.records.size - (next + 1)) + 1 := by omega
      rw [hread]
      dsimp only
      split
      · rename_i hattr
        have hnot : kindAt o.records next ≠ some .element := by simp [hkind, hattr]
        rw [ih _ _ (h.atChild_of_not_element hs hp hnot) (by omega), hsplit, childrenAmong_succ,
          hchild, hattr]
        rfl
      · rename_i helem
        rw [helem] at hkind
        have hstop : o.records[next].stop.toNat = stopAt o.records next := by
          simp [stopAt, Array.getElem?_eq_getElem hlt]
        have hlts := (h.closed next (h.isClosed_of_lt hs hkind (h.inFront hp))).lt_stop
        rw [hstop, ih _ _ (h.atChild_of_element hs hp hkind) (by omega),
          h.childrenAmong_element hs hp hkind]
        simp
      · rename_i hattr helem
        have hnot : kindAt o.records next ≠ some .element := by simpa [hkind] using helem
        have hk : o.records[next].kind.isChild = true := by
          have hne : o.records[next].kind ≠ .endMark := by simpa [hkind] using hmark
          cases hkc : o.records[next].kind <;> simp_all [NodeKind.isChild]
        rw [ih _ _ (h.atChild_of_not_element hs hp hnot) (by omega), hsplit, childrenAmong_succ,
          hchild, hk]
        simp
    · have hzero : o.records.size - next = 0 := by omega
      simp [childrenAmong, hzero]

/-- An element that closes puts its children behind those collected before. -/
theorem toList_childrenWith (h : o.Nested) (hs : o.stack = e :: outer)
    (hsize : o.records.size < UInt32.size) :
    (o.childrenWith e).toList = o.children.toList ++
      (childrenAmong o.records e.toNat 0 o.records.size).map Nat.toUInt32 := by
  have he := h.lt_size hs
  rw [childrenWith, nextId_toNat hsize,
    h.toList_collectChildren hs _ _ _ (h.atChild_first hs) (by omega)]
  -- no record up to `e` is a child of it
  have hnone : childrenAmong o.records e.toNat 0 (e.toNat + 1) = [] := by
    apply childrenAmong_eq_nil
    intro x _ hx
    by_contra hc
    have := h.inFront (isChildAt_iff.1 (Bool.not_eq_false _ ▸ hc)).2
    omega
  have hsum : o.records.size = (e.toNat + 1) + (o.records.size - (e.toNat + 1)) := by omega
  conv_rhs => rw [hsum, childrenAmong_append, hnone, Nat.zero_add]
  rfl

end Nested

end Outline

end MarkupQuery.NodeTree
