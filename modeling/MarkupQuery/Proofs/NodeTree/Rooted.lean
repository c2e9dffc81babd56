import Mathlib.Data.Nat.Find
import MarkupQuery.Proofs.NodeTree.Enclosure

/-!
# Rooted tables

What the tree structure of a node table looks like from one element: a closed element has its end
mark, and encloses what lies up to it (`ClosedAt`). And what holds of a table as a whole whatever
elements are still open: it has one root, and parents and attributes stand where they should
(`Rooted`). A record more and another end of an element keep the second.
-/

namespace MarkupQuery.NodeTree

/-! ## Closed elements -/

/-- The element at a place has its end mark, and encloses what lies up to it. -/
structure ClosedAt (t : Array Record) (e : Nat) : Prop where
  lt_stop : e < stopAt t e
  kind_stop : kindAt t (stopAt t e) = some .endMark
  parent_stop : parentAt t (stopAt t e) = some e
  encloses_iff : ∀ x, Encloses t e x ↔ e < x ∧ x ≤ stopAt t e

namespace ClosedAt

variable {t : Array Record} {e : Nat}

theorem stop_lt_size (h : ClosedAt t e) : stopAt t e < t.size :=
  lt_size_of_kindAt h.kind_stop

/-- Among the records that are no end marks, the enclosed ones lie in front of the end mark. -/
theorem encloses_iff_lt_stop (h : ClosedAt t e) {x : Nat} (hx : kindAt t x ≠ some .endMark) :
    Encloses t e x ↔ e < x ∧ x < stopAt t e := by
  rw [h.encloses_iff]
  have hne : x ≠ stopAt t e := by
    rintro rfl
    exact hx h.kind_stop
  omega

end ClosedAt

/-! ## Tables with a root -/

/-- What holds of a table whatever elements are open: record 0 is the root, all other records lie in
an element in front of them, and attributes stand right behind their element. -/
structure Rooted (t : Array Record) : Prop where
  root : kindAt t 0 = some .element
  parent_eq_none_iff : ∀ x < t.size, parentAt t x = none ↔ x = 0
  inFront : ParentsInFront t
  parent_element : ∀ x p, parentAt t x = some p → kindAt t p = some .element
  stop_eq : ∀ x k, kindAt t x = some k → k ≠ .element → stopAt t x = x + 1
  attribute_run : ∀ x p y, kindAt t x = some .attribute → parentAt t x = some p →
    p < y → y < x → kindAt t y = some .attribute ∧ parentAt t y = some p

namespace Rooted

variable {t : Array Record} {r : Record} {e : NodeId}

theorem size_pos (h : Rooted t) : 0 < t.size :=
  lt_size_of_kindAt h.root

/-- A record more inside an element. An attribute has to stand behind its element and other
attributes of it. -/
theorem push (h : Rooted t) (hr : r.parent = some e) (he : kindAt t e.toNat = some .element)
    (hstop : r.kind ≠ .element → r.stop.toNat = t.size + 1)
    (hrun : r.kind = .attribute → ∀ y, e.toNat < y → y < t.size →
      kindAt t y = some .attribute ∧ parentAt t y = some e.toNat) : Rooted (t.push r) := by
  have hlt := lt_size_of_kindAt he
  have hnew : ∀ p, parentAt (t.push r) t.size = some p ↔ p = e.toNat := fun p => by
    rw [parentAt_push_size, hr, Option.map_some, Option.some_inj, eq_comm]
  constructor
  case root =>
    rw [kindAt_push, if_neg (Nat.ne_of_lt h.size_pos)]
    exact h.root
  case parent_eq_none_iff =>
    intro x hx
    rw [Array.size_push] at hx
    by_cases hlast : x = t.size
    · subst hlast
      rw [parentAt_push_size, hr]
      have := h.size_pos
      exact ⟨fun hnone => (nomatch hnone), fun hzero => by omega⟩
    · rw [parentAt_push, if_neg hlast]
      exact h.parent_eq_none_iff x (by omega)
  case inFront =>
    intro x p hp
    by_cases hlast : x = t.size
    · subst hlast
      rw [(hnew p).1 hp]
      exact hlt
    · rw [parentAt_push, if_neg hlast] at hp
      exact h.inFront hp
  case parent_element =>
    intro x p hp
    by_cases hlast : x = t.size
    · subst hlast
      obtain rfl := (hnew p).1 hp
      rw [kindAt_push_of_lt (by omega)]
      exact he
    · rw [parentAt_push, if_neg hlast] at hp
      have hx := lt_size_of_parentAt hp
      have hpx := h.inFront hp
      rw [kindAt_push_of_lt (by omega)]
      exact h.parent_element x p hp
  case stop_eq =>
    intro x k hk hne
    by_cases hlast : x = t.size
    · subst hlast
      rw [kindAt_push_size] at hk
      obtain rfl := Option.some.inj hk
      rw [stopAt_push_size]
      exact hstop hne
    · rw [kindAt_push, if_neg hlast] at hk
      rw [stopAt_push, if_neg hlast]
      exact h.stop_eq x k hk hne
  case attribute_run =>
    intro x p y hk hp hpy hyx
    by_cases hlast : x = t.size
    · subst hlast
      rw [kindAt_push_size] at hk
      obtain rfl := (hnew p).1 hp
      rw [kindAt_push_of_lt (by omega), parentAt_push_of_lt (by omega)]
      exact hrun (Option.some.inj hk) y hpy hyx
    · rw [kindAt_push, if_neg hlast] at hk
      rw [parentAt_push, if_neg hlast] at hp
      have hx := lt_size_of_parentAt hp
      rw [kindAt_push_of_lt (by omega), parentAt_push_of_lt (by omega)]
      exact h.attribute_run x p y hk hp hpy hyx

/-- An element may get another end. -/
theorem modify (h : Rooted t) (he : kindAt t e.toNat = some .element) {f : Record → Record}
    (hkind : ∀ r, (f r).kind = r.kind) (hparent : ∀ r, (f r).parent = r.parent) :
    Rooted (t.modify e.toNat f) := by
  have hk := kindAt_modify hkind t e.toNat
  have hp := parentAt_modify hparent t e.toNat
  constructor
  case stop_eq =>
    intro x k hx hne
    rw [hk] at hx
    have hxe : e.toNat ≠ x := by
      rintro rfl
      rw [he] at hx
      exact hne (Option.some.inj hx).symm
    rw [stopAt_modify_of_ne _ _ hxe]
    exact h.stop_eq x k hx hne
  case parent_eq_none_iff =>
    intro x hx
    rw [Array.size_modify] at hx
    rw [hp]
    exact h.parent_eq_none_iff x hx
  all_goals simp only [ParentsInFront, hk, hp]
  · exact h.root
  · exact h.inFront
  · exact h.parent_element
  · exact h.attribute_run

/-- The attributes of a record are as many records right behind it. -/
theorem exists_attribute_run (h : Rooted t) (e : Nat) :
    ∃ n, ∀ x, (kindAt t x = some .attribute ∧ parentAt t x = some e) ↔ e < x ∧ x ≤ e + n := by
  let P : Nat → Prop := fun x => kindAt t x = some .attribute ∧ parentAt t x = some e
  let last := Nat.findGreatest P t.size
  by_cases hA : ∃ x, P x
  · obtain ⟨a, ha⟩ := hA
    have hlast : P last := Nat.findGreatest_spec (Nat.le_of_lt (lt_size_of_kindAt ha.1)) ha
    refine ⟨last - e, fun x => ⟨fun hx => ?_, fun ⟨hex, hx⟩ => ?_⟩⟩
    · have hlt := h.inFront hx.2
      have hle : x ≤ last := Nat.le_findGreatest (Nat.le_of_lt (lt_size_of_kindAt hx.1)) hx
      omega
    · rcases Nat.lt_or_ge x last with hlt | hge
      · exact h.attribute_run last e x hlast.1 hlast.2 hex hlt
      · obtain rfl : x = last := by omega
        exact hlast
  · exact ⟨0, fun x => ⟨fun hx => absurd ⟨x, hx⟩ hA, fun hx => by omega⟩⟩

end Rooted

/-- The number behind a number that is not the greatest. -/
theorem toNat_succ {n : Nat} (h : n + 1 < UInt32.size) : (n.toUInt32 + 1).toNat = n + 1 := by
  rw [UInt32.toNat_add, UInt32.toNat_ofNat_of_lt' (by omega)]
  exact Nat.mod_eq_of_lt h

end MarkupQuery.NodeTree
