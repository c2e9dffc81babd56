import Mathlib.Data.List.Nodup
import MarkupQuery.Proofs.NodeTree.ChildWalk

/-!
# Runs of children

The invariant `Outline.Gathered` says what the list of children is while a document is being built:
every closed element has its children in one run, the runs tile the list, and the list holds each
child of a closed element once. Every step of an outline keeps it (`Gathered.step`), so it holds of
every document that is built from items (`Document.gathered`).
-/

namespace MarkupQuery.NodeTree

open Markup

namespace Outline

/-! ## The list of children -/

/-- The record at `x` is a child of a closed element. -/
def isPlaced (o : Outline) (x : Nat) : Bool :=
  (kindAt o.records x).any NodeKind.isChild &&
    (parentAt o.records x).any fun p => o.stack.all fun s => s.toNat != p

/-- What the list of children of a builder holds. -/
structure Gathered (o : Outline) : Prop where
  no_run : ∀ x, kindAt o.records x ≠ some .element → runAt o.records x = ⟨0, 0⟩
  run_le : ∀ a, o.IsClosed a →
    (runAt o.records a).first.toNat + (runAt o.records a).length.toNat ≤ o.children.size
  run_eq : ∀ a, o.IsClosed a →
    (o.children.toList.drop (runAt o.records a).first.toNat).take
      (runAt o.records a).length.toNat =
        (childrenAmong o.records a 0 o.records.size).map Nat.toUInt32
  tile : ∀ i < o.children.size, ∃! a, o.IsClosed a ∧ (runAt o.records a).first.toNat ≤ i ∧
    i < (runAt o.records a).first.toNat + (runAt o.records a).length.toNat
  perm : o.children.toList.Perm
    (((List.range o.records.size).filter o.isPlaced).map Nat.toUInt32)

theorem runAt_push (t : Array Record) (r : Record) (x : Nat) :
    runAt (t.push r) x = if x = t.size then r.children else runAt t x := by
  rw [runAt, runAt, Array.getElem?_push]
  split <;> rfl

theorem isChildAt_push (t : Array Record) (r : Record) (a : Nat) {x : Nat} (hx : x ≠ t.size) :
    isChildAt (t.push r) a x = isChildAt t a x := by
  rw [isChildAt, isChildAt, kindAt_push, parentAt_push, if_neg hx, if_neg hx]

theorem isChildAt_close (o : Outline) (e : NodeId) (outer : List NodeId) (a x : Nat) :
    isChildAt (o.close e outer).records a x = isChildAt o.records a x := by
  rw [isChildAt, isChildAt, Nested.kindAt_close, Nested.parentAt_close]
  split
  · rename_i hlast
    subst hlast
    rw [kindAt, Array.getElem?_eq_none le_rfl]
    rfl
  · rfl

namespace Nested

variable {o : Outline} {e : NodeId} {outer : List NodeId}

theorem isPlaced_iff (h : o.Nested) (x : Nat) :
    o.isPlaced x = true ↔ ∃ a, o.IsClosed a ∧ isChildAt o.records a x = true := by
  rw [isPlaced, Bool.and_eq_true, Option.any_eq_true, Option.any_eq_true]
  simp only [isChildAt_iff, List.all_eq_true, bne_iff_ne]
  constructor
  · rintro ⟨hk, p, hp, hs⟩
    exact ⟨p, ⟨h.parent_element x p hp, hs⟩, hk, hp⟩
  · rintro ⟨p, hc, hk, hp⟩
    exact ⟨hk, p, hp, hc.2⟩

/-- The children of closed elements do not change when a record is added elsewhere. -/
theorem isPlaced_push (h : o.Nested) (hs : o.stack = e :: outer) {r : Record}
    (hr : r.parent = some e) {stack : List NodeId}
    (hclosed : ∀ a, IsClosed ⟨o.records.push r, o.children, stack⟩ a ↔ o.IsClosed a)
    (hnested : Nested ⟨o.records.push r, o.children, stack⟩) (x : Nat) :
    isPlaced ⟨o.records.push r, o.children, stack⟩ x = o.isPlaced x := by
  rw [Bool.eq_iff_iff, hnested.isPlaced_iff, h.isPlaced_iff]
  apply exists_congr
  intro a
  rw [hclosed]
  apply and_congr_right
  intro ha
  dsimp only
  by_cases hlast : x = o.records.size
  · subst hlast
    have hne : e.toNat ≠ a := ha.2 e (by simp [hs])
    rw [isChildAt_iff, isChildAt_iff, parentAt_push_size, hr]
    refine ⟨fun hx => absurd (Option.some.inj hx.2) hne, fun hx => ?_⟩
    exact absurd (lt_size_of_parentAt hx.2) (Nat.lt_irrefl _)
  · rw [isChildAt_push _ _ _ hlast]

/-- The list of the children of a closed element does not change when a record is added elsewhere.
-/
theorem childrenAmong_push (hs : o.stack = e :: outer) {r : Record}
    (hr : r.parent = some e) {a : Nat} (ha : o.IsClosed a) :
    childrenAmong (o.records.push r) a 0 (o.records.size + 1) =
      childrenAmong o.records a 0 o.records.size := by
  have hlast : childrenAmong (o.records.push r) a (0 + o.records.size) 1 = [] := by
    apply childrenAmong_eq_nil
    intro x hx hlt
    obtain rfl : x = o.records.size := by omega
    have hne : e.toNat ≠ a := ha.2 e (by simp [hs])
    rw [isChildAt, parentAt_push_size, hr]
    simp [hne]
  rw [childrenAmong_append, hlast, List.append_nil]
  exact childrenAmong_congr fun x _ hx => isChildAt_push _ _ _ (by omega)

end Nested

theorem childrenAmong_close {o : Outline} (e : NodeId) (outer : List NodeId) (a : Nat) :
    childrenAmong (o.close e outer).records a 0 (o.records.size + 1) =
      childrenAmong o.records a 0 o.records.size := by
  have hlast : childrenAmong (o.close e outer).records a (0 + o.records.size) 1 = [] := by
    apply childrenAmong_eq_nil
    intro x hx hlt
    obtain rfl : x = o.records.size := by omega
    rw [isChildAt_close, isChildAt, kindAt, Array.getElem?_eq_none (by omega)]
    rfl
  rw [childrenAmong_append, hlast, List.append_nil]
  exact childrenAmong_congr fun x _ _ => isChildAt_close o e outer a x

namespace Gathered

variable {o : Outline} {e : NodeId} {outer : List NodeId}

/-- There are fewer children than records. -/
theorem size_le (h : o.Gathered) : o.children.size ≤ o.records.size := by
  have hlen := h.perm.length_eq
  rw [List.length_map] at hlen
  have hle := List.length_filter_le o.isPlaced (List.range o.records.size)
  rw [List.length_range] at hle
  rw [← Array.length_toList]
  omega

/-- A record more in an open element leaves the list of children as it is. -/
theorem addRecord (h : o.Gathered) (hn : o.Nested) (hs : o.stack = e :: outer)
    (hsize : o.records.size < UInt32.size) {r : Record} (hr : r.parent = some e)
    (hrun : r.children = ⟨0, 0⟩) {stack : List NodeId}
    (hstack : stack = if r.kind = .element then o.nextId :: o.stack else o.stack)
    (hnested : Nested ⟨o.records.push r, o.children, stack⟩) :
    Gathered ⟨o.records.push r, o.children, stack⟩ := by
  have hclosed := Nested.isClosed_push_iff hsize o.children hstack
  have hrunAt : ∀ a, o.IsClosed a → runAt (o.records.push r) a = runAt o.records a := fun a ha => by
    simp [runAt_push, Nat.ne_of_lt (lt_size_of_kindAt ha.1)]
  constructor <;> dsimp only
  case no_run =>
    intro x hx
    rw [runAt_push]
    split
    · exact hrun
    · rename_i hlast
      rw [kindAt_push, if_neg hlast] at hx
      exact h.no_run x hx
  case run_le =>
    intro a ha
    rw [hclosed] at ha
    rw [hrunAt a ha]
    exact h.run_le a ha
  case run_eq =>
    intro a ha
    rw [hclosed] at ha
    simp [hrunAt a ha, h.run_eq a ha, Nested.childrenAmong_push hs hr ha]
  case tile =>
    intro i hi
    obtain ⟨a, ⟨ha, hin⟩, huniq⟩ := h.tile i hi
    refine ⟨a, ⟨(hclosed a).2 ha, by rwa [hrunAt a ha]⟩, fun b hb => ?_⟩
    dsimp only at hb
    rw [hclosed] at hb
    refine huniq b ⟨hb.1, ?_⟩
    rw [← hrunAt b hb.1]
    exact hb.2
  case perm =>
    have hplaced := hn.isPlaced_push hs hr hclosed hnested
    have hlast : o.isPlaced o.records.size = false := by
      rw [isPlaced, kindAt, Array.getElem?_eq_none le_rfl]
      rfl
    rw [Array.size_push, List.range_succ, List.filter_append, List.filter_singleton, hplaced, hlast,
      List.filter_congr fun x _ => hplaced x]
    simpa using h.perm

theorem runAt_close_of_ne (o : Outline) {e : NodeId} (outer : List NodeId) {x : Nat}
    (hne : x ≠ e.toNat) : runAt (o.close e outer).records x =
      if x = o.records.size then ⟨0, 0⟩ else runAt o.records x := by
  rw [close, runAt, Array.getElem?_modify, if_neg hne.symm, ← runAt, runAt_push]
  rfl

theorem runAt_close_self (o : Outline) {e : NodeId} (outer : List NodeId)
    (he : e.toNat < o.records.size) :
    runAt (o.close e outer).records e.toNat = o.runOf e := by
  rw [close, runAt, Array.getElem?_modify, if_pos rfl, Array.getElem?_push, if_neg (by omega),
    Array.getElem?_eq_getElem he]
  rfl

/-- The runs of the elements that were closed before have not changed. -/
theorem runAt_close_of_closed (hs : o.stack = e :: outer) {a : Nat} (ha : o.IsClosed a) :
    runAt (o.close e outer).records a = runAt o.records a := by
  have hlt := lt_size_of_kindAt ha.1
  have hne : a ≠ e.toNat := (ha.2 e (by simp [hs])).symm
  rw [runAt_close_of_ne o outer hne, if_neg (by omega)]

/-- The run of an element that closes begins where the list of children ended. -/
theorem runOf_toNat (h : o.Gathered) (hn : o.Nested) (hs : o.stack = e :: outer)
    (hsize : o.records.size < UInt32.size) :
    (o.runOf e).first.toNat = o.children.size ∧
      (o.runOf e).length.toNat = (childrenAmong o.records e.toNat 0 o.records.size).length ∧
      (o.childrenWith e).size =
        o.children.size + (childrenAmong o.records e.toNat 0 o.records.size).length := by
  have hsum : (o.childrenWith e).size =
      o.children.size + (childrenAmong o.records e.toNat 0 o.records.size).length := by
    rw [← Array.length_toList, hn.toList_childrenWith hs hsize, List.length_append,
      Array.length_toList, List.length_map]
  have hle := List.length_filter_le (isChildAt o.records e.toNat)
    (List.range' 0 o.records.size)
  rw [List.length_range'] at hle
  have hlen : (childrenAmong o.records e.toNat 0 o.records.size).length ≤ o.records.size := hle
  have hsize' := h.size_le
  refine ⟨UInt32.toNat_ofNat_of_lt' (by omega), ?_, hsum⟩
  rw [runOf, hsum, Nat.add_sub_cancel_left]
  exact UInt32.toNat_ofNat_of_lt' (by omega)

/-- The children placed when an element closes are those placed before and its own. -/
theorem perm_close (h : o.Gathered) (hn : o.Nested) (hs : o.stack = e :: outer)
    (hsize : o.records.size < UInt32.size) (hnested : (o.close e outer).Nested) :
    (o.close e outer).children.toList.Perm
      (((List.range (o.close e outer).records.size).filter (o.close e outer).isPlaced).map
        Nat.toUInt32) := by
  have hplaced : ∀ x, (o.close e outer).isPlaced x = true ↔
      o.isPlaced x = true ∨ isChildAt o.records e.toNat x = true := by
    intro x
    simp only [hnested.isPlaced_iff, hn.isPlaced_iff, hn.isClosed_close_iff hs, isChildAt_close]
    constructor
    · rintro ⟨a, rfl | ha, hx⟩
      · exact .inr hx
      · exact .inl ⟨a, ha, hx⟩
    · rintro (⟨a, ha, hx⟩ | hx)
      · exact ⟨a, .inr ha, hx⟩
      · exact ⟨_, .inl rfl, hx⟩
  have hsplit : ((List.range o.records.size).filter o.isPlaced ++
      childrenAmong o.records e.toNat 0 o.records.size).Perm
        ((List.range (o.records.size + 1)).filter (o.close e outer).isPlaced) := by
    rw [childrenAmong, ← List.range_eq_range']
    refine (List.perm_ext_iff_of_nodup ?_ (List.nodup_range.filter _)).2 fun x => ?_
    · -- what was placed before has its parent elsewhere
      apply (List.nodup_range.filter _).append (List.nodup_range.filter _)
      intro x hx hx'
      obtain ⟨a, ha, hxa⟩ := (hn.isPlaced_iff x).1 (List.mem_filter.1 hx).2
      have hxe := (isChildAt_iff.1 (List.mem_filter.1 hx').2).2
      rw [(isChildAt_iff.1 hxa).2] at hxe
      exact ha.2 e (by simp [hs]) (Option.some.inj hxe).symm
    · simp only [List.mem_append, List.mem_filter, List.mem_range, hplaced]
      constructor
      · rintro (⟨hx, hp⟩ | ⟨hx, hp⟩)
        · exact ⟨by omega, .inl hp⟩
        · exact ⟨by omega, .inr hp⟩
      · rintro ⟨-, hp | hp⟩
        · obtain ⟨a, -, hxa⟩ := (hn.isPlaced_iff x).1 hp
          exact .inl ⟨lt_size_of_parentAt (isChildAt_iff.1 hxa).2, hp⟩
        · exact .inr ⟨lt_size_of_parentAt (isChildAt_iff.1 hp).2, hp⟩
  rw [Nested.size_close]
  have hlist : (o.close e outer).children.toList = _ := hn.toList_childrenWith hs hsize
  rw [hlist]
  refine .trans ?_ (hsplit.map Nat.toUInt32)
  rw [List.map_append]
  exact h.perm.append_right _

/-- With the run of the element that closes, the runs tile the longer list of children. -/
theorem tile_close (h : o.Gathered) (hn : o.Nested) (hs : o.stack = e :: outer)
    (hsize : o.records.size < UInt32.size) {i : Nat} (hi : i < (o.close e outer).children.size) :
    ∃! a, (o.close e outer).IsClosed a ∧
      (runAt (o.close e outer).records a).first.toNat ≤ i ∧
        i < (runAt (o.close e outer).records a).first.toNat +
          (runAt (o.close e outer).records a).length.toNat := by
  obtain ⟨hfirst, hlen, hsum⟩ := h.runOf_toNat hn hs hsize
  have hself := runAt_close_self o outer (hn.lt_size hs)
  have hchildren : (o.close e outer).children.size = _ := hsum
  rw [hchildren] at hi
  rcases Nat.lt_or_ge i o.children.size with hlt | hge
  · obtain ⟨a, ⟨ha, hin⟩, huniq⟩ := h.tile i hlt
    refine ⟨a, ⟨(hn.isClosed_close_iff hs a).2 (.inr ha), ?_⟩, ?_⟩
    · rwa [runAt_close_of_closed hs ha]
    · rintro b ⟨hb, hib⟩
      rcases (hn.isClosed_close_iff hs b).1 hb with rfl | hb
      · rw [hself] at hib
        omega
      · exact huniq b ⟨hb, by rwa [runAt_close_of_closed hs hb] at hib⟩
  · refine ⟨e.toNat, ⟨(hn.isClosed_close_iff hs _).2 (.inl rfl), ?_⟩, ?_⟩
    · rw [hself]
      omega
    · rintro b ⟨hb, hib⟩
      rcases (hn.isClosed_close_iff hs b).1 hb with rfl | hb
      · rfl
      · rw [runAt_close_of_closed hs hb] at hib
        have := h.run_le b hb
        omega

/-- An element that closes gets a run of its own. -/
theorem close (h : o.Gathered) (hn : o.Nested) (hs : o.stack = e :: outer)
    (hsize : o.records.size < UInt32.size) (hnested : (o.close e outer).Nested) :
    (o.close e outer).Gathered := by
  have he := hn.lt_size hs
  obtain ⟨hfirst, hlen, hsum⟩ := h.runOf_toNat hn hs hsize
  have hself := runAt_close_self o outer he
  have hlist : (o.close e outer).children.toList = _ := hn.toList_childrenWith hs hsize
  have hchildren : (o.close e outer).children.size = _ := hsum
  constructor
  case no_run =>
    intro x hx
    rw [Nested.kindAt_close] at hx
    have hne : x ≠ e.toNat := by
      rintro rfl
      rw [if_neg (by omega)] at hx
      exact hx (hn.open_element e (by simp [hs]))
    rw [runAt_close_of_ne o outer hne]
    split
    · rfl
    · rename_i hlast
      rw [if_neg hlast] at hx
      exact h.no_run x hx
  case run_le =>
    intro a ha
    rw [hchildren]
    rcases (hn.isClosed_close_iff hs a).1 ha with rfl | ha
    · rw [hself]
      omega
    · rw [runAt_close_of_closed hs ha]
      have := h.run_le a ha
      omega
  case run_eq =>
    intro a ha
    rw [Nested.size_close, childrenAmong_close, hlist]
    rcases (hn.isClosed_close_iff hs a).1 ha with rfl | ha
    · rw [hself, hfirst, hlen, List.drop_left' Array.length_toList, List.take_of_length_le]
      simp
    · have hle := h.run_le a ha
      rw [← Array.length_toList] at hle
      rw [runAt_close_of_closed hs ha, ← h.run_eq a ha, List.drop_append_of_le_length (by omega),
        List.take_append_of_le_length (by rw [List.length_drop]; omega)]
  case tile => exact fun i => h.tile_close hn hs hsize
  case perm => exact h.perm_close hn hs hsize hnested

end Gathered

/-- Every step keeps the list of children in order. -/
theorem Gathered.step {o o' : Outline} (hstep : Step o o') (h : o.Gathered) (hn : o.Nested)
    (hsize : o'.records.size < UInt32.size) : o'.Gathered := by
  have hn' := Nested.step hstep hn hsize
  have hlt := hstep.size_lt
  cases hstep with
  | addLeaf kind nameId text hs hk =>
    refine h.addRecord hn hs (by omega) rfl rfl ?_ hn'
    cases kind <;> simp [NodeKind.hasText] at hk ⊢
  | addAttribute nameId spaceId valueId hs ha =>
    exact h.addRecord hn hs (by omega) rfl rfl (by simp) hn'
  | openElement nameId spaceId hs =>
    exact h.addRecord hn hs (by omega) rfl rfl (by simp [hs]) hn'
  | closeElement hs => exact h.close hn hs (by omega) hn'

theorem gathered_empty : Builder.empty.outline.Gathered := by
  have hclosed : ∀ a, ¬ Builder.empty.outline.IsClosed a := by
    rintro a ⟨ha, hopen⟩
    have hlt : a < 1 := lt_size_of_kindAt ha
    exact hopen 0 (by simp [Builder.outline]) (show 0 = a by omega)
  refine ⟨fun x _ => ?_, fun a ha => absurd ha (hclosed a), fun a ha => absurd ha (hclosed a),
    fun i hi => absurd hi (Nat.not_lt_zero i), .refl _⟩
  change runAt (#[].push Record.root) x = ⟨0, 0⟩
  rw [runAt_push]
  split <;> rfl

/-- Every outline that steps lead to from the start has its children gathered. -/
theorem gathered_of_steps {o : Outline} (h : Steps Builder.empty.outline o)
    (hsize : o.records.size < UInt32.size) : o.Gathered := by
  induction h with
  | refl => exact gathered_empty
  | tail hsteps hstep ih =>
    have hlt := Nat.lt_trans hstep.size_lt hsize
    exact Gathered.step hstep (ih hlt) (nested_of_steps hsteps hlt) hsize

end Outline

theorem Document.gathered {ε : Type} {items : List (Except ε Token)} {d : Document}
    (h : Document.ofItems items = .ok d) (hsize : d.recordCount < UInt32.size) :
    d.outline.Gathered :=
  Outline.gathered_of_steps (Document.steps_of_ofItems h hsize) hsize

end MarkupQuery.NodeTree
