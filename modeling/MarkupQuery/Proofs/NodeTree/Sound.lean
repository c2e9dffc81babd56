import Mathlib.Data.List.Sort
import MarkupQuery.Proofs.NodeTree.ChildRuns

/-!
# Sound documents

`Document.Sound` collects what is known of the tables of every document that is built from items and
has fewer than 2³² records. Numbers of records are then the same as their places, and the nodes of
the document are listed in the order of the text, so that a list of nodes in this order is told by
its members (`Sound.eq_filter_nodes`).
-/

namespace MarkupQuery.NodeTree

open Markup

/-- The tables of a document are as builders leave them, and have fewer than 2³² records. -/
structure Document.Sound (d : Document) : Prop where
  size_lt : d.recordCount < UInt32.size
  nested : d.outline.Nested
  gathered : d.outline.Gathered

namespace Document

theorem sound_of_items {ε : Type} {items : List (Except ε Token)} {d : Document}
    (h : Document.ofItems items = .ok d) (hsize : d.recordCount < UInt32.size) : d.Sound :=
  ⟨hsize, Document.nested h hsize, Document.gathered h hsize⟩

variable {d : Document} {x y p : NodeId}

/-! ## Numbers and places -/

theorem kind?_eq (d : Document) (x : NodeId) : d.kind? x = kindAt d.records x.toNat :=
  rfl

theorem kindAt_of_record {r : Record} (hr : d.record? x = some r) :
    kindAt d.records x.toNat = some r.kind :=
  congrArg (Option.map Record.kind) hr

theorem stopAt_of_record {r : Record} (hr : d.record? x = some r) :
    stopAt d.records x.toNat = r.stop.toNat := by
  simp [stopAt, show d.records[x.toNat]? = some r from hr]

theorem runAt_of_record {r : Record} (hr : d.record? x = some r) :
    runAt d.records x.toNat = r.children := by
  simp [runAt, show d.records[x.toNat]? = some r from hr]

theorem parentAt_eq (d : Document) (x : NodeId) :
    parentAt d.records x.toNat = (d.parent? x).map UInt32.toNat := by
  rw [parentAt, parent?, record?]
  cases d.records[x.toNat]? <;> rfl

theorem parent?_eq_some_iff : d.parent? x = some p ↔ parentAt d.records x.toNat = some p.toNat := by
  rw [parentAt_eq]
  cases d.parent? x <;> simp [UInt32.toNat_inj]

theorem isNode_iff : d.isNode x = true ↔
    ∃ k, d.kind? x = some k ∧ k ≠ .endMark := by
  rw [isNode, kind?, Option.any_eq_true]
  cases d.record? x <;> simp

theorem lt_recordCount_of_isNode (h : d.isNode x = true) : x.toNat < d.recordCount := by
  obtain ⟨k, hk, -⟩ := isNode_iff.1 h
  exact lt_size_of_kindAt hk

/-! ## Document order -/

theorem pairwise_toUInt32 {l : List Nat} (h : l.Pairwise (· < ·)) (hl : ∀ x ∈ l, x < UInt32.size) :
    (l.map Nat.toUInt32).Pairwise (· < ·) := by
  rw [List.pairwise_map]
  refine h.imp_of_mem fun {a b} ha hb hab => ?_
  rw [UInt32.lt_iff_toNat_lt, UInt32.toNat_ofNat_of_lt' (hl a ha),
    UInt32.toNat_ofNat_of_lt' (hl b hb)]
  exact hab

theorem mem_map_toUInt32 {l : List Nat} (hl : ∀ x ∈ l, x < UInt32.size) :
    y ∈ l.map Nat.toUInt32 ↔ y.toNat ∈ l := by
  rw [List.mem_map]
  constructor
  · rintro ⟨x, hx, rfl⟩
    rwa [UInt32.toNat_ofNat_of_lt' (hl x hx)]
  · exact fun hy => ⟨y.toNat, hy, UInt32.ofNat_toNat⟩

namespace Sound

theorem rooted (h : d.Sound) : Rooted d.records :=
  h.nested.toRooted

theorem isNode_root (h : d.Sound) : d.isNode 0 = true :=
  isNode_iff.2 ⟨.element, h.rooted.root, by decide⟩

theorem isClosed_iff (x : Nat) : d.outline.IsClosed x ↔ kindAt d.records x = some .element :=
  ⟨And.left, fun hx => ⟨hx, fun _ hs => (nomatch hs)⟩⟩

theorem closedAt (h : d.Sound) {e : Nat} (he : kindAt d.records e = some .element) :
    ClosedAt d.records e :=
  h.nested.closed e ((isClosed_iff e).2 he)

theorem lt_size (h : d.Sound) {n : Nat} (hn : n < d.recordCount) : n < UInt32.size :=
  Nat.lt_trans hn h.size_lt

theorem pairwise_nodes (h : d.Sound) : d.nodes.Pairwise (· < ·) := by
  refine (pairwise_toUInt32 List.pairwise_lt_range fun n hn => ?_).filter _
  exact h.lt_size (List.mem_range.1 hn)

theorem mem_nodes (h : d.Sound) : x ∈ d.nodes ↔ d.isNode x = true := by
  rw [nodes, List.mem_filter, mem_map_toUInt32 fun n hn => h.lt_size (List.mem_range.1 hn),
    List.mem_range]
  exact ⟨fun hx => hx.2, fun hx => ⟨lt_recordCount_of_isNode hx, hx⟩⟩

/-- An ascending list is told by its members. -/
theorem eq_filter_nodes (h : d.Sound) {l : List NodeId} (hl : l.Pairwise (· < ·))
    {f : NodeId → Bool} (hmem : ∀ x, x ∈ l ↔ d.isNode x = true ∧ f x = true) :
    l = d.nodes.filter f := by
  apply hl.eq_of_mem_iff (h.pairwise_nodes.filter _)
  intro x
  simp [hmem, h.mem_nodes]

end Sound

end Document

end MarkupQuery.NodeTree
