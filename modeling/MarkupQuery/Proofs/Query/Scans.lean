import MarkupQuery.Proofs.NodeTree.Ancestors
import MarkupQuery.Proofs.NodeTree.Relatives
import MarkupQuery.Proofs.Query.Visits

/-!
# What scans visit

For every form of scan, the list of what it visits in a sound document. A scan over the table passes
end marks too, which no step accepts; `Scan.Lists` leaves them out.

The scan that goes backwards is the subtle one. It has to leave out the elements around the node it
sets out from, and knows of them only the one that it passed last; that is enough because the parent
of that one lies ahead, and is met before all other elements around the node
(`Scan.visits_backward`).
-/

namespace MarkupQuery.Query

open NodeTree Location

variable {d : Document} {x : NodeId}

theorem exists_record_of_lt (h : d.Sound) {n : Nat} (hn : n < d.recordCount) :
    ∃ r, d.record? n.toUInt32 = some r := by
  refine ⟨d.records[n], ?_⟩
  rw [Document.record?, UInt32.toNat_ofNat_of_lt' (h.lt_size hn)]
  exact Array.getElem?_eq_getElem hn

theorem exists_record_of_isNode (hx : d.isNode x = true) : ∃ r, d.record? x = some r :=
  ⟨_, Array.getElem?_eq_getElem (Document.lt_recordCount_of_isNode hx)⟩

theorem parent?_of_record {r : Record} (hr : d.record? x = some r) : d.parent? x = r.parent := by
  simp [Document.parent?, hr]

theorem kind?_eq_attribute_iff {r : Record} (hr : d.record? x = some r) :
    d.kind? x = some .attribute ↔ r.isAttribute = true := by
  simp [Document.kind?, hr, Record.isAttribute]

/-- The ascending list of the records on a stretch of the table. -/
def stretch (next left : Nat) : List NodeId :=
  (List.range' next left).map Nat.toUInt32

theorem stretch_succ (next left : Nat) :
    stretch next (left + 1) = next.toUInt32 :: stretch (next + 1) left :=
  rfl

theorem stretch_concat (left : Nat) : stretch 0 (left + 1) = stretch 0 left ++ [left.toUInt32] := by
  simp [stretch, List.range'_concat]

section Stretch

variable {next left : Nat}

theorem mem_stretch (h : d.Sound) (hle : next + left ≤ d.recordCount) :
    x ∈ stretch next left ↔ next ≤ x.toNat ∧ x.toNat < next + left := by
  rw [stretch, Document.mem_map_toUInt32, List.mem_range'_1]
  intro n hn
  rw [List.mem_range'_1] at hn
  exact h.lt_size (by omega)

theorem pairwise_stretch (h : d.Sound) (hle : next + left ≤ d.recordCount) :
    (stretch next left).Pairwise (· < ·) := by
  apply Document.pairwise_toUInt32 (List.pairwise_lt_range' _)
  intro n hn
  rw [List.mem_range'_1] at hn
  exact h.lt_size (by omega)

theorem listing_stretch (h : d.Sound) (hle : next + left ≤ d.recordCount) :
    Listing d (stretch next left) := by
  refine ⟨(pairwise_stretch h hle).nodup, fun x hx => ?_⟩
  have := (mem_stretch h hle).1 hx
  omega

/-- The nodes of a stretch that pass a test are those of the document that pass it and lie there. -/
theorem filter_stretch (h : d.Sound) (hle : next + left ≤ d.recordCount) {f g : NodeId → Bool}
    (hg : ∀ y, d.isNode y = true →
      (g y = true ↔ (next ≤ y.toNat ∧ y.toNat < next + left) ∧ f y = true)) :
    ((stretch next left).filter f).filter d.isNode = d.nodes.filter g := by
  apply h.eq_filter_nodes (((pairwise_stretch h hle).filter _).filter _)
  intro y
  rw [List.mem_filter, List.mem_filter, mem_stretch h hle, and_comm]
  exact and_congr_right fun hy => (hg y hy).symm

end Stretch

namespace Scan

variable {next left : Nat}

/-! ## Chains -/

theorem visits_single (d : Document) (node : Option NodeId) :
    Visits (Scan.next d) (.single node) node.toList := by
  have hnone : Visits (Scan.next d) (.single none) [] := .nil rfl
  cases node with
  | none => exact hnone
  | some id => exact .cons rfl hnone

theorem visits_chain (h : d.Sound) (hx : d.isNode x = true) :
    Visits (Scan.next d) (.chain (some x)) (x :: d.ancestors x) := by
  induction x using h.parent_induction with
  | root x hp =>
    obtain ⟨r, hr⟩ := exists_record_of_isNode hx
    have hparent : r.parent = none := (parent?_of_record hr).symm.trans hp
    rw [Document.ancestors_of_none hp]
    refine .cons (t := .chain none) ?_ (.nil rfl)
    simp [Scan.next, hr, hparent]
  | inner x p hp ih =>
    obtain ⟨r, hr⟩ := exists_record_of_isNode hx
    have hparent : r.parent = some p := (parent?_of_record hr).symm.trans hp
    rw [h.ancestors_of_some hp]
    refine .cons (t := .chain (some p)) ?_ (ih (h.isNode_parent hp))
    simp [Scan.next, hr, hparent]

theorem visits_chain_parent (h : d.Sound) (x : NodeId) :
    Visits (Scan.next d) (.chain (d.parent? x)) (d.ancestors x) := by
  cases hp : d.parent? x with
  | none =>
    rw [Document.ancestors_of_none hp]
    exact .nil rfl
  | some p =>
    rw [h.ancestors_of_some hp]
    exact visits_chain h (h.isNode_parent hp)

/-! ## Stretches of the table -/

theorem visits_attributes (h : d.Sound) (hle : next + left ≤ d.recordCount) :
    Visits (Scan.next d) (.attributes next left) (d.attributeRun next left) := by
  induction left generalizing next with
  | zero => exact .nil rfl
  | succ left ih =>
    obtain ⟨r, hr⟩ := exists_record_of_lt h (show next < d.recordCount by omega)
    rw [Document.attributeRun, hr, Option.any_some]
    by_cases hattr : r.isAttribute = true
    · rw [if_pos hattr]
      refine .cons (t := .attributes (next + 1) left) ?_ (ih (by omega))
      simp [Scan.next, hr, hattr]
    · rw [if_neg hattr]
      refine .nil ?_
      simp [Scan.next, hr, hattr]

theorem visits_forward (h : d.Sound) (hle : next + left ≤ d.recordCount) :
    Visits (Scan.next d) (.forward next left)
      ((stretch next left).filter fun y => d.kind? y != some .attribute) := by
  induction left generalizing next with
  | zero => exact .nil rfl
  | succ left ih =>
    obtain ⟨r, hr⟩ := exists_record_of_lt h (show next < d.recordCount by omega)
    have hrest := ih (show next + 1 + left ≤ d.recordCount by omega)
    rw [stretch_succ]
    by_cases hattr : r.isAttribute = true
    · rw [List.filter_cons_of_neg (by simp [kind?_eq_attribute_iff hr, hattr])]
      refine hrest.congr ?_
      simp [Scan.next, nextForward, hr, hattr]
    · rw [List.filter_cons_of_pos (by simp [kind?_eq_attribute_iff hr, hattr])]
      refine .cons ?_ hrest
      simp [Scan.next, nextForward, hr, hattr]

/-! ## Backwards -/

/-- Of the elements around a node, those in front of its parent are those around the parent. -/
theorem mem_ancestors_of_lt_parent (h : d.Sound) {p y : NodeId} (hp : d.parent? x = some p)
    (hy : y < p) : y ∈ d.ancestors x ↔ y ∈ d.ancestors p := by
  simp [h.ancestors_of_some hp, UInt32.ne_of_lt hy]

/-- The parent of a node, if it has one, lies in front of the place `left`. -/
def ParentAhead (d : Document) (x : NodeId) (left : Nat) : Prop :=
  ∀ p, d.parent? x = some p → p.toNat < left

namespace ParentAhead

theorem parent (h : d.Sound) (x : NodeId) : ParentAhead d x x.toNat :=
  fun _ hp => UInt32.lt_iff_toNat_lt.1 (h.parent_lt hp)

/-- No element around the node lies between its parent and the place. -/
theorem mem_ancestors_iff (ha : ParentAhead d x (left + 1)) (h : d.Sound)
    (hleft : left < d.recordCount) :
    left.toUInt32 ∈ d.ancestors x ↔ d.parent? x = some left.toUInt32 := by
  cases hp : d.parent? x with
  | none => simp [Document.ancestors_of_none hp]
  | some p =>
    rw [h.ancestors_of_some hp, List.mem_cons, Option.some_inj, eq_comm]
    apply or_iff_left
    intro hmem
    have hlt := h.lt_of_mem_ancestors hmem
    have := ha p hp
    rw [UInt32.lt_iff_toNat_lt, UInt32.toNat_ofNat_of_lt' (h.lt_size hleft)] at hlt
    omega

theorem pred (ha : ParentAhead d x (left + 1)) (h : d.Sound) (hleft : left < d.recordCount)
    (hne : d.parent? x ≠ some left.toUInt32) : ParentAhead d x left := by
  intro p hp
  have hlt := ha p hp
  have hne : p ≠ left.toUInt32 := fun heq => hne (hp.trans (congrArg some heq))
  rw [← UInt32.toNat_inj.ne, UInt32.toNat_ofNat_of_lt' (h.lt_size hleft)] at hne
  omega

end ParentAhead

/-- What a scan visits that goes backwards from the place `left`, when it has passed all elements
around its node up to `below`. -/
theorem visits_backward (h : d.Sound) {below : NodeId} (hleft : left ≤ d.recordCount)
    (hbelow : d.isNode below = true) (ha : ParentAhead d below left) :
    Visits (Scan.next d) (.backward left below)
      ((stretch 0 left).filter fun y =>
        d.kind? y != some .attribute && !(d.ancestors below).contains y).reverse := by
  induction left generalizing below with
  | zero => exact .nil rfl
  | succ left ih =>
    obtain ⟨r, hr⟩ := exists_record_of_lt h hleft
    obtain ⟨lower, hlower⟩ := exists_record_of_isNode hbelow
    have hparent := parent?_of_record hlower
    have hmem := ha.mem_ancestors_iff h hleft
    have hattr := kind?_eq_attribute_iff hr
    rw [stretch_concat, List.filter_append, List.reverse_append]
    by_cases hr' : r.isAttribute = true
    · -- an attribute is no parent
      have hne : d.parent? below ≠ some left.toUInt32 := fun hp => by
        rw [h.parent_element hp] at hattr
        exact absurd (hattr.2 hr') (by decide)
      rw [List.filter_cons_of_neg (by simp [hattr.2 hr'])]
      refine (ih (by omega) hbelow (ha.pred h hleft hne)).congr ?_
      simp [Scan.next, nextBackward, hr, hlower, hr']
    · by_cases hp : d.parent? below = some left.toUInt32
      · -- from here on the parent of this element is looked for
        have htoNat : left.toUInt32.toNat = left := UInt32.toNat_ofNat_of_lt' (h.lt_size hleft)
        have hcongr : ∀ y ∈ stretch 0 left, (d.kind? y != some .attribute &&
            !(d.ancestors below).contains y) = (d.kind? y != some .attribute &&
            !(d.ancestors left.toUInt32).contains y) := by
          intro y hy
          have hlt := ((mem_stretch h (by omega)).1 hy).2
          have hy : y < left.toUInt32 := by
            rw [UInt32.lt_iff_toNat_lt, htoNat]
            omega
          simp [mem_ancestors_of_lt_parent h hp hy]
        have hahead := ParentAhead.parent h left.toUInt32
        rw [htoNat] at hahead
        rw [List.filter_cons_of_neg (by simp [hmem, hp]), List.filter_congr hcongr]
        refine (ih (by omega) (h.isNode_parent hp) hahead).congr ?_
        simp [Scan.next, nextBackward, hr, hlower, hr', ← hparent, hp]
      · rw [List.filter_cons_of_pos (by simp [hattr, hr', hmem, hp])]
        refine .cons ?_ (ih (by omega) hbelow (ha.pred h hleft hp))
        simp [Scan.next, nextBackward, hr, hlower, hr', ← hparent, hp]

/-! ## The list of children -/

/-- A stretch of the list of children. -/
def entries (d : Document) (next left : Nat) : List NodeId :=
  (d.children.toList.drop next).take left

theorem visits_run (hle : next + left ≤ d.childCount) :
    Visits (Scan.next d) (.run next left) (entries d next left) := by
  induction left generalizing next with
  | zero => exact .nil rfl
  | succ left ih =>
    have hlt : next < d.children.size := by
      unfold Document.childCount at hle
      omega
    have hentries : entries d next (left + 1) = d.children[next] :: entries d (next + 1) left := by
      rw [entries, List.drop_eq_getElem_cons (by simpa using hlt), List.take_succ_cons]
      rfl
    rw [hentries]
    refine .cons ?_ (ih (by omega))
    simp [Scan.next, hlt]

theorem visits_runBack (hle : next + left ≤ d.childCount) :
    Visits (Scan.next d) (.runBack next left) (entries d next left).reverse := by
  induction left with
  | zero => exact .nil rfl
  | succ left ih =>
    have hlt : next + left < d.children.size := by
      unfold Document.childCount at hle
      omega
    have hentries : entries d next (left + 1) =
        entries d next left ++ [d.children[next + left]] := by
      rw [entries, entries, List.take_add_one, List.getElem?_drop,
        List.getElem?_eq_getElem (by simpa using hlt)]
      rfl
    rw [hentries, List.reverse_append]
    refine .cons ?_ (ih (by omega))
    simp [Scan.next, hlt]

/-! ## The place of a node among its siblings -/

/-- A part of the list of children ascends. -/
def Ascends (d : Document) (low size : Nat) : Prop :=
  ∀ ⦃i j : Nat⦄ ⦃a b : NodeId⦄, low ≤ i → i < j → j < low + size →
    d.children[i]? = some a → d.children[j]? = some b → a < b

theorem Ascends.mono {low size low' size' : Nat} (h : Ascends d low size) (hlow : low ≤ low')
    (hsize : low' + size' ≤ low + size) : Ascends d low' size' :=
  fun _ _ _ _ hi hij hj ha hb => h (by omega) hij (by omega) ha hb

theorem Ascends.not_lt {low size i j : Nat} {a b : NodeId} (h : Ascends d low size) (hi : low ≤ i)
    (hj : j < low + size) (ha : d.children[i]? = some a) (hb : d.children[j]? = some b)
    (hba : b < a) : j < i := by
  rcases Nat.lt_trichotomy i j with hij | rfl | hij
  · exact absurd hba (UInt32.lt_asymm (h hi hij hj ha hb))
  · rw [ha] at hb
    rw [Option.some.inj hb] at hba
    exact absurd hba (UInt32.lt_irrefl b)
  · exact hij

/-- The search by halves finds the place of a node in a part of the list of children that ascends,
and only there. -/
theorem position?_eq_some_iff {id : NodeId} {low size i : Nat} (hle : low + size ≤ d.childCount)
    (h : Ascends d low size) : position? d id low size = some i ↔
      low ≤ i ∧ i < low + size ∧ d.children[i]? = some id := by
  unfold Document.childCount at hle
  fun_induction position? d id low size with
  | case1 low => exact ⟨fun hi => (nomatch hi), fun hi => by omega⟩
  | case2 low size hsize hnone =>
    rw [Array.getElem?_eq_none_iff] at hnone
    omega
  | case3 low size hsize hmiddle =>
    rw [Option.some_inj]
    constructor
    · rintro rfl
      exact ⟨by omega, by omega, hmiddle⟩
    · rintro ⟨hlow, hi, hid⟩
      rcases Nat.lt_trichotomy (low + size / 2) i with hlt | heq | hgt
      · exact absurd (h (by omega) hlt hi hmiddle hid) (UInt32.lt_irrefl id)
      · exact heq
      · exact absurd (h hlow hgt (by omega) hid hmiddle) (UInt32.lt_irrefl id)
  | case4 low size hsize middle hmiddle hne hlt ih =>
    -- the node is greater than the entry in the middle, so it lies behind it
    rw [ih (by omega) (h.mono (by omega) (by omega))]
    refine ⟨fun hi => ⟨by omega, by omega, hi.2.2⟩, fun hi => ?_⟩
    have := h.not_lt hi.1 (by omega) hi.2.2 hmiddle hlt
    exact ⟨by omega, by omega, hi.2.2⟩
  | case5 low size hsize middle hmiddle hne hnlt ih =>
    have hgt : id < middle := by
      rcases UInt32.lt_or_lt_of_ne hne with hlt | hgt
      · exact absurd hlt hnlt
      · exact hgt
    rw [ih (by omega) (h.mono (by omega) (by omega))]
    refine ⟨fun hi => ⟨by omega, by omega, hi.2.2⟩, fun hi => ?_⟩
    have := h.not_lt (by omega) hi.2.1 hmiddle hi.2.2 hgt
    exact ⟨by omega, by omega, hi.2.2⟩

theorem ascends_of_pairwise {low size : Nat} (h : (entries d low size).Pairwise (· < ·)) :
    Ascends d low size := by
  have hentry : ∀ i, low ≤ i → i < low + size →
      (entries d low size)[i - low]? = d.children[i]? := fun i hi his => by
    rw [entries, List.getElem?_take_of_lt (by omega), List.getElem?_drop, Array.getElem?_toList,
      Nat.add_sub_cancel' hi]
  intro i j a b hi hij hj ha hb
  rw [← hentry i hi (by omega)] at ha
  rw [← hentry j (by omega) hj] at hb
  obtain ⟨hi', rfl⟩ := List.getElem?_eq_some_iff.1 ha
  obtain ⟨hj', rfl⟩ := List.getElem?_eq_some_iff.1 hb
  exact List.pairwise_iff_getElem.1 h _ _ hi' hj' (by omega)

end Scan

end MarkupQuery.Query
