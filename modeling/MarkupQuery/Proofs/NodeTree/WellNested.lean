import MarkupQuery.Proofs.NodeTree.Nesting

/-!
# Well nested tables

`WellNested` says in one place what a node table tells of the tree: which record is the root, where
parents stand, where the subtrees of records end, and which records are the attributes and which the
descendants of an element. What it says of an element holds from the moment at which it is closed.

The main statement, `nesting_of_run`, is about any run of operations on a builder: at any time the
closed elements are well nested, and in a finished document all elements are.
-/

namespace MarkupQuery.NodeTree

open Markup

/-- The tree structure of a table: the root, the parents, the ends of attributes and leaves, and for
the closed elements their end marks, attributes and subtrees. -/
structure WellNested (t : Array Record) (closed : Nat → Prop) : Prop where
  /-- Record 0 is the only one without a parent. -/
  parent_eq_none_iff : ∀ x < t.size, parentAt t x = none ↔ x = 0
  /-- Parents are elements with smaller numbers. -/
  parent_element : ∀ x p, parentAt t x = some p → p < x ∧ kindAt t p = some .element
  /-- The subtree of an attribute or a leaf ends behind it. -/
  stop_eq : ∀ x k, kindAt t x = some k → k ≠ .element → k ≠ .endMark → stopAt t x = x + 1
  /-- A closed element ends at an end mark behind it, the only one of its own. -/
  endMark : ∀ e, kindAt t e = some .element → closed e → e < stopAt t e ∧
    ∀ x, kindAt t x = some .endMark ∧ parentAt t x = some e ↔ x = stopAt t e
  /-- The attributes of a closed element are a run of records right behind it. -/
  attributes : ∀ e, kindAt t e = some .element → closed e → ∃ n, ∀ x,
    kindAt t x = some .attribute ∧ parentAt t x = some e ↔ e < x ∧ x ≤ e + n
  /-- A node lies between a closed element and its end mark if the element is reached from it by
  following parents, and only then. -/
  subtree : ∀ e, kindAt t e = some .element → closed e → ∀ x k, kindAt t x = some k →
    k ≠ .endMark → (e < x ∧ x < stopAt t e ↔ Encloses t e x)

theorem Outline.Nested.wellNested {o : Outline} (h : o.Nested) {closed : Nat → Prop}
    (hclosed : ∀ e, kindAt o.records e = some .element → closed e → o.IsClosed e) :
    WellNested o.records closed where
  parent_eq_none_iff := h.parent_eq_none_iff
  parent_element x p hp := ⟨h.inFront hp, h.parent_element x p hp⟩
  stop_eq x k hk hne _ := h.stop_eq x k hk hne
  endMark e he hc := by
    have hat := h.closed e (hclosed e he hc)
    refine ⟨hat.lt_stop, fun x => ⟨fun hx => ?_, ?_⟩⟩
    · exact (h.endMark_stop x e hx.1 hx.2).2.symm
    · rintro rfl
      exact ⟨hat.kind_stop, hat.parent_stop⟩
  attributes e _ _ := h.exists_attribute_run e
  subtree e he hc x k hk hne := by
    have hx : kindAt o.records x ≠ some .endMark := by
      rw [hk]
      exact fun heq => hne (Option.some.inj heq)
    exact ((h.closed e (hclosed e he hc)).encloses_iff_lt_stop hx).symm

/-- An element of a builder is closed if it is neither the root nor one of the open elements. -/
def Builder.IsClosed (b : Builder) (e : Nat) : Prop :=
  e ≠ 0 ∧ ∀ s ∈ b.openElements, s.toNat ≠ e

/-- **Every run of operations builds a well nested table.** At any time this holds of the elements
that are closed, and in a document that the run ends in it holds of all elements. -/
theorem nesting_of_run (operations : List Builder.Operation) :
    ((Builder.empty.run operations).records.size < UInt32.size →
      WellNested (Builder.empty.run operations).records (Builder.empty.run operations).IsClosed) ∧
    ∀ d, (Builder.empty.run operations).finish = .ok d → d.recordCount < UInt32.size →
      WellNested d.records fun _ => True := by
  constructor
  · intro hsize
    have h := Outline.nested_of_steps (Builder.steps_run operations _ hsize) hsize
    refine h.wellNested fun e he hc => ⟨he, fun s hs => ?_⟩
    rcases List.mem_append.1 hs with hs | hs
    · exact hc.2 s hs
    · rw [List.mem_singleton.1 hs]
      exact hc.1.symm
  · intro d hd hsize
    have h := Outline.nested_of_steps (Builder.steps_run_finish hd hsize) hsize
    exact h.wellNested fun e he _ => ⟨he, fun s hs => (nomatch hs)⟩

/-- A run with an attribute, a text, an element inside another, and an end tag that is refused. -/
def sampleRun : List Builder.Operation :=
  [.push (.startTag ⟨none, "a"⟩ [⟨⟨none, "x"⟩, "1"⟩]), .leaf .text rfl "" "t",
    .startElement ⟨none, "b"⟩ [], .push .endTag, .endElement, .endElement]

theorem nesting_of_sampleRun :
    (Builder.empty.run sampleRun).records.size < UInt32.size ∧
    WellNested (Builder.empty.run sampleRun).records (Builder.empty.run sampleRun).IsClosed ∧
    ∃ d, (Builder.empty.run sampleRun).finish = .ok d ∧ d.recordCount < UInt32.size ∧
      WellNested d.records fun _ => True :=
  ⟨by decide, (nesting_of_run sampleRun).1 (by decide), _, rfl, by decide,
    (nesting_of_run sampleRun).2 _ rfl (by decide)⟩

end MarkupQuery.NodeTree
