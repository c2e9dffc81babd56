import Mathlib.Data.Nat.Basic
import MarkupQuery.NodeTree.Record

/-!
# Enclosure in a node table

The parents of the records make a node table a forest: `Encloses t e x` says that `e` is reached
from `x` by following parents. Here are the facts about it that hold in every table, and those that
hold as soon as parents stand in front of their children. Records are named by their places.
-/

namespace MarkupQuery.NodeTree

/-! ## Places of a table -/

/-- The kind of the record at a place. -/
def kindAt (t : Array Record) (x : Nat) : Option NodeKind :=
  t[x]?.map Record.kind

/-- The place of the element around the record at a place. -/
def parentAt (t : Array Record) (x : Nat) : Option Nat :=
  t[x]?.bind fun r => r.parent.map UInt32.toNat

/-- The place at which the subtree of the record at a place ends. -/
def stopAt (t : Array Record) (x : Nat) : Nat :=
  (t[x]?.map fun r => r.stop.toNat).getD 0

variable {t u : Array Record} {e x p : Nat}

theorem lt_size_of_kindAt {k : NodeKind} (h : kindAt t x = some k) : x < t.size := by
  by_contra hx
  rw [kindAt, Array.getElem?_eq_none (by omega)] at h
  cases h

theorem lt_size_of_parentAt (h : parentAt t x = some p) : x < t.size := by
  by_contra hx
  rw [parentAt, Array.getElem?_eq_none (by omega)] at h
  cases h

/-! ### The kinds of new records -/

@[simp] theorem Record.kind_elementOf (nameId spaceId : UInt32) (parent id : NodeId) :
    (Record.elementOf nameId spaceId parent id).kind = .element :=
  rfl

@[simp] theorem Record.kind_attributeOf (nameId spaceId valueId : UInt32) (parent id : NodeId) :
    (Record.attributeOf nameId spaceId valueId parent id).kind = .attribute :=
  rfl

@[simp] theorem Record.kind_leaf (kind : NodeKind) (nameId : UInt32) (text : Span)
    (parent id : NodeId) : (Record.leaf kind nameId text parent id).kind = kind :=
  rfl

@[simp] theorem Record.kind_endOf (element id : NodeId) :
    (Record.endOf element id).kind = .endMark :=
  rfl

/-! ### A record more -/

theorem kindAt_push (t : Array Record) (r : Record) (x : Nat) :
    kindAt (t.push r) x = if x = t.size then some r.kind else kindAt t x := by
  rw [kindAt, kindAt, Array.getElem?_push]
  split <;> rfl

theorem parentAt_push (t : Array Record) (r : Record) (x : Nat) :
    parentAt (t.push r) x = if x = t.size then r.parent.map UInt32.toNat else parentAt t x := by
  rw [parentAt, parentAt, Array.getElem?_push]
  split <;> rfl

theorem stopAt_push (t : Array Record) (r : Record) (x : Nat) :
    stopAt (t.push r) x = if x = t.size then r.stop.toNat else stopAt t x := by
  rw [stopAt, stopAt, Array.getElem?_push]
  split <;> rfl

@[simp] theorem kindAt_push_size (t : Array Record) (r : Record) :
    kindAt (t.push r) t.size = some r.kind := by
  simp [kindAt_push]

@[simp] theorem parentAt_push_size (t : Array Record) (r : Record) :
    parentAt (t.push r) t.size = r.parent.map UInt32.toNat := by
  simp [parentAt_push]

@[simp] theorem stopAt_push_size (t : Array Record) (r : Record) :
    stopAt (t.push r) t.size = r.stop.toNat := by
  simp [stopAt_push]

theorem kindAt_push_of_lt {r : Record} (hx : x < t.size) : kindAt (t.push r) x = kindAt t x := by
  simp [kindAt_push, Nat.ne_of_lt hx]

theorem parentAt_push_of_lt {r : Record} (hx : x < t.size) :
    parentAt (t.push r) x = parentAt t x := by
  simp [parentAt_push, Nat.ne_of_lt hx]

theorem stopAt_push_of_lt {r : Record} (hx : x < t.size) : stopAt (t.push r) x = stopAt t x := by
  simp [stopAt_push, Nat.ne_of_lt hx]

/-! ### A record patched -/

theorem kindAt_modify {f : Record → Record} (hf : ∀ r, (f r).kind = r.kind) (t : Array Record)
    (i x : Nat) : kindAt (t.modify i f) x = kindAt t x := by
  rw [kindAt, kindAt, Array.getElem?_modify]
  split
  · cases t[x]? <;> simp [hf]
  · rfl

theorem parentAt_modify {f : Record → Record} (hf : ∀ r, (f r).parent = r.parent) (t : Array Record)
    (i x : Nat) : parentAt (t.modify i f) x = parentAt t x := by
  rw [parentAt, parentAt, Array.getElem?_modify]
  split
  · cases t[x]? <;> simp [hf]
  · rfl

theorem stopAt_modify_of_ne (t : Array Record) (f : Record → Record) {i x : Nat} (h : i ≠ x) :
    stopAt (t.modify i f) x = stopAt t x := by
  simp [stopAt, Array.getElem?_modify, h]

/-! ## Enclosure -/

/-- `e` is reached from `x` by following parents, in one step or more. -/
inductive Encloses (t : Array Record) (e : Nat) : Nat → Prop
  /-- `e` is the parent of `x`. -/
  | parent {x : Nat} (h : parentAt t x = some e) : Encloses t e x
  /-- `e` encloses the parent of `x`. -/
  | outer {x p : Nat} (h : parentAt t x = some p) (he : Encloses t e p) : Encloses t e x

namespace Encloses

theorem exists_parentAt (h : Encloses t e x) :
    ∃ p, parentAt t x = some p ∧ (p = e ∨ Encloses t e p) := by
  cases h with
  | parent h => exact ⟨e, h, .inl rfl⟩
  | outer h he => exact ⟨_, h, .inr he⟩

theorem of_parentAt (hp : parentAt t x = some p) (h : p = e ∨ Encloses t e p) : Encloses t e x := by
  rcases h with rfl | h
  · exact .parent hp
  · exact .outer hp h

theorem iff_of_parentAt (hp : parentAt t x = some p) :
    Encloses t e x ↔ p = e ∨ Encloses t e p := by
  refine ⟨fun h => ?_, of_parentAt hp⟩
  obtain ⟨q, hq, h⟩ := h.exists_parentAt
  rw [hp] at hq
  obtain rfl := Option.some.inj hq
  exact h

theorem lt_size (h : Encloses t e x) : x < t.size := by
  obtain ⟨p, hp, -⟩ := h.exists_parentAt
  exact lt_size_of_parentAt hp

end Encloses

/-! ## Tables in which parents stand in front -/

/-- Every parent stands in front of the records that name it. -/
def ParentsInFront (t : Array Record) : Prop :=
  ∀ ⦃x p : Nat⦄, parentAt t x = some p → p < x

namespace ParentsInFront

theorem lt (ht : ParentsInFront t) (h : Encloses t e x) : e < x := by
  induction h with
  | parent h => exact ht h
  | outer h _ ih => exact lt_trans ih (ht h)

theorem le_parent (ht : ParentsInFront t) (h : Encloses t e x) (hp : parentAt t x = some p) :
    e ≤ p := by
  rcases (Encloses.iff_of_parentAt hp).1 h with rfl | h
  · exact le_rfl
  · exact le_of_lt (ht.lt h)

/-- Enclosure at a place depends only on the parents up to that place. -/
theorem encloses_congr (ht : ParentsInFront t) (h : ∀ y ≤ x, parentAt u y = parentAt t y) :
    Encloses u e x ↔ Encloses t e x := by
  induction x using Nat.strongRecOn with
  | ind x ih =>
    cases hp : parentAt t x with
    | none =>
      constructor
      · intro he
        obtain ⟨p, hp', -⟩ := he.exists_parentAt
        rw [h x le_rfl, hp] at hp'
        cases hp'
      · intro he
        obtain ⟨p, hp', -⟩ := he.exists_parentAt
        rw [hp] at hp'
        cases hp'
    | some p =>
      have hlt := ht hp
      rw [Encloses.iff_of_parentAt hp, Encloses.iff_of_parentAt ((h x le_rfl).trans hp),
        ih p hlt fun y hy => h y (by omega)]

end ParentsInFront

end MarkupQuery.NodeTree
