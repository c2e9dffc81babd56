import MarkupQuery.Proofs.NodeTree.Contents
import MarkupQuery.Proofs.Query.Axes

/-!
# What a step visits

A fresh cursor visits the nodes of the axis of its step that pass both tests
(`Cursor.visits_fresh`).

The main statement, `answers_of_step`, is about calls: a cursor answers with these nodes one after
the other, and with none from then on.
-/

namespace MarkupQuery.Query

open NodeTree Location

variable {d : Document} {c x : NodeId} {step : Step}

/-- A step accepts the nodes that have the kind and the local name that it asks for, if it asks for
one. End marks are no nodes. -/
theorem accepts_iff : accepts d step x = true ↔ d.isNode x = true ∧
    (∀ kind, step.kind = some kind → d.kind? x = some kind) ∧
      ∀ name, step.name = .name name → d.localName x = name := by
  cases hr : d.record? x with
  | none => simp [accepts, Document.isNode, hr]
  | some r =>
    have hkind : step.kind.all (· == r.kind) = true ↔
        ∀ kind, step.kind = some kind → r.kind = kind := by
      cases step.kind with
      | none => simp
      | some kind => simpa using eq_comm
    have hname : acceptsName d r step.name = true ↔
        ∀ name, step.name = .name name → d.strings.get r.nameId = name := by
      cases step.name <;> simp [acceptsName]
    simp [accepts, acceptsRecord, Document.isNode, Document.kind?, Document.localName, hr,
      hkind, hname, and_assoc]

namespace Cursor

/-- The chain of parents of a node ends at the root. -/
theorem climb_eq (h : d.Sound) {fuel : Nat} (hc : d.isNode c = true) (hfuel : c.toNat < fuel) :
    climb d fuel c = some 0 := by
  induction fuel generalizing c with
  | zero => omega
  | succ fuel ih =>
    obtain ⟨r, hr⟩ := exists_record_of_isNode hc
    have hparent := parent?_of_record hr
    simp only [climb, hr, ← hparent]
    cases hp : d.parent? c with
    | none => exact congrArg some ((h.parent?_eq_none_iff hc).1 hp)
    | some p =>
      have hlt := UInt32.lt_iff_toNat_lt.1 (h.parent_lt hp)
      exact ih (h.isNode_parent hp) (by omega)

/-- The node from which a step sets out. -/
theorem isNode_origin (h : d.Sound) (step : Step) (hc : d.isNode c = true) :
    d.isNode (if step.fromRoot then 0 else c) = true := by
  split
  · exact h.isNode_root
  · exact hc

/-- The nodes that a step visits from a context. -/
def visited (d : Document) (step : Step) (c : NodeId) : List NodeId :=
  (axisNodes d (if step.fromRoot then 0 else c) step.axis).filter (accepts d step)

theorem accepts_isNode (hx : accepts d step x = true) : d.isNode x = true :=
  (accepts_iff.1 hx).1

/-- A step without tests accepts every node. -/
theorem accepts_any (axis : Axis) (fromRoot : Bool) (x : NodeId) :
    accepts d ⟨axis, .any, none, fromRoot⟩ x = d.isNode x := by
  rw [Bool.eq_iff_iff, accepts_iff]
  simp

/-- From a context a step visits the nodes of its axis that it accepts. -/
theorem visits_fresh (h : d.Sound) (step : Step) (hc : d.isNode c = true) :
    Visits (advance d step) (.fresh c) (visited d step c) ∧ Listing d (visited d step c) := by
  have horigin : origin d step c = some (if step.fromRoot then 0 else c) := by
    unfold origin
    split
    · have := Document.lt_recordCount_of_isNode hc
      exact climb_eq h hc (by omega)
    · rfl
  obtain ⟨scan, halong, l, hv, hl, hnodes⟩ :=
    Scan.lists_along h step.axis (isNode_origin h step hc)
  have hvisited : l.filter (accepts d step) = visited d step c := by
    rw [visited, ← hnodes, List.filter_filter]
    apply List.filter_congr
    intro x _
    by_cases hx : accepts d step x = true
    · simp [hx, accepts_isNode hx]
    · simp [hx]
  rw [← hvisited]
  refine ⟨visits_of_seek hv hl ?_, hl.sublist List.filter_sublist⟩
  simp [advance, horigin, halong]

end Cursor

/-- **What a step answers.** From a context, a cursor answers with the nodes of the axis of its step
that pass both tests, in order and each once, and with none from then on. A step from the root has
the root as its context, whatever node it is given. A node passes the tests if it has the kind and
the local name that the step asks for, where it asks for one. -/
theorem answers_of_step {ε : Type} {items : List (Except ε Markup.Token)}
    (h : Document.ofItems items = .ok d) (hsize : d.recordCount < UInt32.size) (step : Step)
    (hc : d.isNode c = true) :
    (Cursor.visited d step c).Nodup ∧
    (∀ n, answers (Cursor.call d step) n (.fresh c) =
      some ((List.range n).map fun i => (Cursor.visited d step c)[i]?)) ∧
    ∀ x, x ∈ Cursor.visited d step c ↔
      x ∈ axisNodes d (if step.fromRoot then 0 else c) step.axis ∧
        (∀ kind, step.kind = some kind → d.kind? x = some kind) ∧
          ∀ name, step.name = .name name → d.localName x = name := by
  have hd := Document.sound_of_items h hsize
  obtain ⟨hv, hl⟩ := Cursor.visits_fresh hd step hc
  refine ⟨hl.nodup, answers_eq (fun _ _ => Cursor.exists_call) hv, fun x => ?_⟩
  rw [Cursor.visited, List.mem_filter, accepts_iff]
  refine and_congr_right fun hx => and_iff_right ?_
  exact isNode_of_mem_axisNodes hd (Cursor.isNode_origin hd step hc) hx

/-- A step to the elements of one name below a node. -/
def sampleStep : Step :=
  ⟨.descendant, .name "b", some .element, false⟩

/-- Below the root are an element of another name, a text, and the element that is asked for. -/
theorem answers_of_sampleStep : ∃ d, Document.ofItems Document.sampleItems = .ok d ∧
    d.recordCount < UInt32.size ∧ d.isNode 0 = true ∧ axisNodes d 0 sampleStep.axis = [1, 3, 4] ∧
      Cursor.visited d sampleStep 0 = [4] ∧
      (∀ n, answers (Cursor.call d sampleStep) n (.fresh 0) =
        some ((List.range n).map fun i => (Cursor.visited d sampleStep 0)[i]?)) ∧
      ∀ x, x ∈ Cursor.visited d sampleStep 0 ↔ x ∈ axisNodes d 0 sampleStep.axis ∧
        (∀ kind, some .element = some kind → d.kind? x = some kind) ∧
          ∀ name, .name "b" = NameTest.name name → d.localName x = name := by
  obtain ⟨d, h, hsize, hroot, haxis, hkinds⟩ : ∃ d,
      Document.ofItems Document.sampleItems = .ok d ∧ d.recordCount < UInt32.size ∧
      d.isNode 0 = true ∧ axisNodes d 0 sampleStep.axis = [1, 3, 4] ∧
      d.isNode 4 = true ∧ d.kind? 3 = some .text ∧ d.kind? 4 = some .element :=
    ⟨_, rfl, by decide, by decide, by decide +kernel, by decide, by decide, by decide⟩
  refine ⟨d, h, hsize, hroot, haxis, ?_, (answers_of_step h hsize sampleStep hroot).2⟩
  -- the names are what the tokens say
  let tokens : List Markup.Token := [.startTag ⟨none, "a"⟩ [⟨⟨none, "x"⟩, "1"⟩], .text "t",
    .startTag ⟨none, "b"⟩ [], .endTag, .endTag]
  have htokens : Document.ofItems (tokens.map .ok) = .ok d := h
  obtain ⟨-, htext, hstrings⟩ := Document.sizes_of_ofItems htokens
  have htells := Document.tells_of_ofItems htokens hsize (htext ▸ by decide)
    (Nat.lt_of_le_of_lt hstrings (by decide))
  have hother : d.localName 1 = "a" := (htells.said 1 _ rfl).localName_eq
  have hnamed : d.localName 4 = "b" := (htells.said 4 _ rfl).localName_eq
  have hfilter (x : NodeId) : accepts d sampleStep x = true ↔
      d.isNode x = true ∧ d.kind? x = some .element ∧ d.localName x = "b" := by
    simp [accepts_iff, sampleStep]
  rw [Cursor.visited, ite_self, haxis]
  simp [hfilter, hkinds, hother, hnamed]

end MarkupQuery.Query
