import Mathlib.Logic.Relation
import MarkupQuery.NodeTree.Build
import MarkupQuery.Proofs.NodeTree.Enclosure

/-!
# The outline of a builder

Which records a builder makes, and where its elements end, does not depend on texts and strings. The
outline of a builder leaves those out: it is the node table, the list of children and the stack of
open elements, the root included. `Outline.Step` lists the four ways in which an outline changes,
one record at a time; every operation of a builder is a sequence of such steps (`steps_apply`), and
so are every run of operations (`steps_run`) and a run that ends in a document (`steps_run_finish`).
What is to be shown of all builders and documents is shown of these steps.
-/

namespace MarkupQuery.NodeTree

open Markup

/-- The part of a builder in which records lie and elements end. -/
structure Outline where
  /-- The node table so far. -/
  records : Array Record
  /-- The children of the elements closed so far. -/
  children : Array NodeId
  /-- The open elements, innermost first; the last one is the root. -/
  stack : List NodeId

namespace Outline

/-- The number of the next record. -/
def nextId (o : Outline) : NodeId :=
  o.records.size.toUInt32

/-- The outline with a record more. -/
def addRecord (o : Outline) (r : Record) : Outline :=
  { o with records := o.records.push r }

/-- The list of children with those of an element that closes now behind it. -/
def childrenWith (o : Outline) (element : NodeId) : Array NodeId :=
  Builder.collectChildren (o.records.push (Record.endOf element o.nextId)) o.nextId.toNat
    (o.nextId.toNat - element.toNat) (element.toNat + 1) o.children

/-- The run of the children of an element that closes now. -/
def runOf (o : Outline) (element : NodeId) : ChildRun :=
  ⟨o.children.size.toUInt32, ((o.childrenWith element).size - o.children.size).toUInt32⟩

/-- The outline with an element closed; `outer` are the elements that stay open. -/
def close (o : Outline) (element : NodeId) (outer : List NodeId) : Outline where
  records := (o.records.push (Record.endOf element o.nextId)).modify element.toNat fun r =>
    { r with stop := o.nextId, children := o.runOf element }
  children := o.childrenWith element
  stack := outer

/-- The ways in which an outline changes; `e` is the innermost open element. -/
inductive Step : Outline → Outline → Prop
  /-- A text, a comment or an instruction is added. -/
  | addLeaf {o : Outline} {e : NodeId} {outer : List NodeId} (kind : NodeKind) (nameId : UInt32)
      (text : Span) (hs : o.stack = e :: outer) (hk : kind.hasText = true) :
      Step o (o.addRecord (Record.leaf kind nameId text e o.nextId))
  /-- An attribute is added behind an element and its attributes so far. -/
  | addAttribute {o : Outline} {e : NodeId} {outer : List NodeId} (nameId spaceId valueId : UInt32)
      (hs : o.stack = e :: outer)
      (ha : ∀ x, e.toNat < x → x < o.records.size →
        kindAt o.records x = some .attribute ∧ parentAt o.records x = some e.toNat) :
      Step o (o.addRecord (Record.attributeOf nameId spaceId valueId e o.nextId))
  /-- An element opens. -/
  | openElement {o : Outline} {e : NodeId} {outer : List NodeId} (nameId spaceId : UInt32)
      (hs : o.stack = e :: outer) :
      Step o { o.addRecord (Record.elementOf nameId spaceId e o.nextId) with
        stack := o.nextId :: e :: outer }
  /-- The innermost element closes. -/
  | closeElement {o : Outline} {e : NodeId} {outer : List NodeId} (hs : o.stack = e :: outer) :
      Step o (o.close e outer)

/-- Any number of steps. -/
abbrev Steps : Outline → Outline → Prop :=
  Relation.ReflTransGen Step

theorem Step.size_lt {o o' : Outline} (h : Step o o') : o.records.size < o'.records.size := by
  cases h <;> simp [addRecord, Outline.close]

end Outline

namespace Builder

/-- The outline of a builder. -/
def outline (b : Builder) : Outline :=
  ⟨b.records, b.children, b.openElements ++ [0]⟩

theorem outline_stack (b : Builder) :
    b.outline.stack = b.current :: (b.openElements ++ [0]).tail := by
  obtain ⟨records, children, text, strings, openElements⟩ := b
  cases openElements <;> rfl

/-! ## Operations -/

/-- A call on a builder. -/
inductive Operation
  /-- Take a token. -/
  | push (token : Token)
  /-- Open an element with its attributes. -/
  | startElement (name : ExpandedName) (attributes : List Attribute)
  /-- Close the innermost element, if there is one. -/
  | endElement
  /-- Add a text, a comment or an instruction. -/
  | leaf (kind : NodeKind) (hasText : kind.hasText = true) (target content : String)

/-- The builder after a call, whether it was refused or not. -/
def apply (b : Builder) : Operation → Builder
  | .push token => (b.push token).2
  | .startElement name attributes => b.startElement name attributes
  | .endElement => b.endElement.2
  | .leaf kind _ target content => b.leaf kind target content

/-- The builder after some calls, in order. -/
def run (b : Builder) (operations : List Operation) : Builder :=
  operations.foldl apply b

theorem run_cons (b : Builder) (operation : Operation) (rest : List Operation) :
    b.run (operation :: rest) = (b.apply operation).run rest :=
  rfl

/-! ## What the operations do to the outline -/

theorem outline_leaf (b : Builder) (kind : NodeKind) (target content : String) :
    ∃ nameId text, (b.leaf kind target content).outline =
      b.outline.addRecord (Record.leaf kind nameId text b.current b.outline.nextId) :=
  ⟨(b.intern target).1, (Span.append b.text content).1, rfl⟩

theorem outline_addAttribute (b : Builder) (element : NodeId) (a : Attribute) :
    ∃ nameId spaceId valueId, (b.addAttribute element a).outline =
      b.outline.addRecord
        (Record.attributeOf nameId spaceId valueId element b.outline.nextId) := by
  obtain ⟨⟨space, base⟩, value⟩ := a
  cases space <;> exact ⟨_, _, _, rfl⟩

theorem outline_close (b : Builder) (element : NodeId) (outer : List NodeId) :
    ({ b with openElements := outer }.close element).outline =
      b.outline.close element (outer ++ [0]) :=
  rfl

/-! ## The table only grows -/

theorem size_le_addAttributes (id : NodeId) (attributes : List Attribute) (b : Builder) :
    b.records.size ≤ (attributes.foldl (fun b a => b.addAttribute id a) b).records.size := by
  induction attributes generalizing b with
  | nil => exact Nat.le_refl _
  | cons a rest ih =>
    obtain ⟨nameId, spaceId, valueId, h⟩ := b.outline_addAttribute id a
    have hsize : (b.addAttribute id a).records.size = b.records.size + 1 := by
      rw [show (b.addAttribute id a).records = _ from congrArg Outline.records h]
      exact Array.size_push _
    have := ih (b.addAttribute id a)
    rw [List.foldl_cons]
    omega

theorem size_lt_startElement (b : Builder) (name : ExpandedName) (attributes : List Attribute) :
    b.records.size < (b.startElement name attributes).records.size := by
  obtain ⟨space, base⟩ := name
  refine Nat.lt_of_lt_of_le ?_ (size_le_addAttributes _ attributes _)
  cases space <;> exact Nat.lt_of_lt_of_eq (Nat.lt_succ_self _) (Array.size_push _).symm

theorem size_le_endElement (b : Builder) : b.records.size ≤ b.endElement.2.records.size := by
  unfold endElement
  split
  · exact Nat.le_refl _
  · simp [close]

theorem size_lt_leaf (b : Builder) (kind : NodeKind) (target content : String) :
    b.records.size < (b.leaf kind target content).records.size :=
  Nat.lt_of_lt_of_eq (Nat.lt_succ_self _) (Array.size_push _).symm

theorem size_le_apply (b : Builder) (operation : Operation) :
    b.records.size ≤ (b.apply operation).records.size := by
  cases operation with
  | push token =>
    cases token with
    | startTag name attributes => exact Nat.le_of_lt (b.size_lt_startElement name attributes)
    | endTag => exact b.size_le_endElement
    | text content => exact Nat.le_of_lt (b.size_lt_leaf .text "" content)
    | comment content => exact Nat.le_of_lt (b.size_lt_leaf .comment "" content)
    | instruction target content => exact Nat.le_of_lt (b.size_lt_leaf .instruction target content)
  | startElement name attributes => exact Nat.le_of_lt (b.size_lt_startElement name attributes)
  | endElement => exact b.size_le_endElement
  | leaf kind _ target content => exact Nat.le_of_lt (b.size_lt_leaf kind target content)

/-! ## Operations as steps

A table with fewer than 2³² records is needed only where an element opens: its number then is its
place, and the records behind that place are the attributes added so far. -/

open Outline

theorem steps_leaf (b : Builder) {kind : NodeKind} (hk : kind.hasText = true)
    (target content : String) : Steps b.outline (b.leaf kind target content).outline := by
  obtain ⟨nameId, text, h⟩ := b.outline_leaf kind target content
  rw [h]
  exact .single (.addLeaf kind nameId text b.outline_stack hk)

theorem steps_addAttributes (id : NodeId) (attributes : List Attribute) (b : Builder)
    (ha : ∀ x, id.toNat < x → x < b.records.size →
      kindAt b.records x = some .attribute ∧ parentAt b.records x = some id.toNat) :
    Steps { b.outline with stack := id :: b.outline.stack }
      { (attributes.foldl (fun b a => b.addAttribute id a) b).outline with
        stack := id :: (attributes.foldl (fun b a => b.addAttribute id a) b).outline.stack } := by
  induction attributes generalizing b with
  | nil => exact .refl
  | cons a rest ih =>
    obtain ⟨nameId, spaceId, valueId, h⟩ := b.outline_addAttribute id a
    have hrecords : (b.addAttribute id a).records =
        b.records.push (Record.attributeOf nameId spaceId valueId id b.outline.nextId) :=
      congrArg Outline.records h
    have hstep : Step { b.outline with stack := id :: b.outline.stack }
        { (b.addAttribute id a).outline with
          stack := id :: (b.addAttribute id a).outline.stack } := by
      rw [h]
      exact .addAttribute nameId spaceId valueId rfl ha
    refine .head hstep (ih (b.addAttribute id a) fun x hx hsize => ?_)
    rw [hrecords, Array.size_push] at hsize
    rw [hrecords, kindAt_push, parentAt_push]
    by_cases hlast : x = b.records.size
    · rw [if_pos hlast, if_pos hlast]
      exact ⟨rfl, rfl⟩
    · rw [if_neg hlast, if_neg hlast]
      exact ha x hx (by omega)

theorem steps_startElement (b : Builder) (name : ExpandedName) (attributes : List Attribute)
    (hsize : b.records.size < UInt32.size) :
    Steps b.outline (b.startElement name attributes).outline := by
  obtain ⟨space, base⟩ := name
  let nameId := (b.intern base).1
  let spaceId := ((b.intern base).2.internSpace space).1
  let started := ((b.intern base).2.internSpace space).2.addRecord
    (Record.elementOf nameId spaceId b.current b.nextId)
  have hstarted : started.outline =
      b.outline.addRecord (Record.elementOf nameId spaceId b.current b.outline.nextId) := by
    cases space <;> rfl
  have hrecords : started.records =
      b.records.push (Record.elementOf nameId spaceId b.current b.outline.nextId) :=
    congrArg Outline.records hstarted
  have hstep : Step b.outline
      { started.outline with stack := b.nextId :: started.outline.stack } := by
    rw [hstarted]
    have h := Step.openElement (o := b.outline) nameId spaceId b.outline_stack
    rwa [← b.outline_stack] at h
  refine .head hstep (steps_addAttributes b.nextId attributes started fun x hx hlt => ?_)
  -- no record is behind the element yet
  rw [hrecords, Array.size_push] at hlt
  rw [nextId, UInt32.toNat_ofNat_of_lt' hsize] at hx
  omega

theorem steps_endElement (b : Builder) : Steps b.outline b.endElement.2.outline := by
  unfold endElement
  split
  · exact .refl
  · rename_i element outer h
    rw [outline_close]
    exact .single (.closeElement (by rw [outline, h, List.cons_append]))

theorem steps_push (b : Builder) (token : Token) (hsize : b.records.size < UInt32.size) :
    Steps b.outline (b.push token).2.outline := by
  cases token with
  | startTag name attributes => exact b.steps_startElement name attributes hsize
  | endTag => exact b.steps_endElement
  | text content => exact b.steps_leaf rfl "" content
  | comment content => exact b.steps_leaf rfl "" content
  | instruction target content => exact b.steps_leaf rfl target content

/-- Every operation is a sequence of steps of the outline. -/
theorem steps_apply (b : Builder) (operation : Operation) (hsize : b.records.size < UInt32.size) :
    Steps b.outline (b.apply operation).outline := by
  cases operation with
  | push token => exact b.steps_push token hsize
  | startElement name attributes => exact b.steps_startElement name attributes hsize
  | endElement => exact b.steps_endElement
  | leaf kind hk target content => exact b.steps_leaf hk target content

theorem size_le_run (operations : List Operation) (b : Builder) :
    b.records.size ≤ (b.run operations).records.size := by
  induction operations generalizing b with
  | nil => exact Nat.le_refl _
  | cons operation rest ih => exact Nat.le_trans (b.size_le_apply operation) (ih _)

/-- A run of operations is a sequence of steps of the outline. -/
theorem steps_run (operations : List Operation) (b : Builder)
    (hsize : (b.run operations).records.size < UInt32.size) :
    Steps b.outline (b.run operations).outline := by
  induction operations generalizing b with
  | nil => exact .refl
  | cons operation rest ih =>
    have hb : b.records.size ≤ ((b.apply operation).run rest).records.size :=
      Nat.le_trans (b.size_le_apply operation) (size_le_run rest _)
    exact (b.steps_apply operation (Nat.lt_of_le_of_lt hb hsize)).trans (ih _ hsize)

/-! ## Finishing a document -/

/-- Finishing closes the root, the only element that is open. -/
theorem finish_eq_ok_iff (b : Builder) (d : Document) :
    b.finish = .ok d ↔ b.openElements = [] ∧
      d = ⟨(b.close 0).records, (b.close 0).children, (b.close 0).text,
        (b.close 0).strings.freeze⟩ := by
  unfold finish
  split
  · rename_i h
    simp [h, eq_comm]
  · rename_i h
    simp [h]

end Builder

namespace Document

/-- The outline of a finished document, in which no element is open. -/
def outline (d : Document) : Outline :=
  ⟨d.records, d.children, []⟩

end Document

namespace Builder

theorem step_finish {b : Builder} {d : Document} (h : b.finish = .ok d) :
    Outline.Step b.outline d.outline := by
  obtain ⟨hopen, rfl⟩ := (b.finish_eq_ok_iff d).1 h
  have hs : b.outline.stack = 0 :: [] := by rw [outline, hopen, List.nil_append]
  exact .closeElement hs

/-- A run of operations that ends in a document is a sequence of steps of the outline. -/
theorem steps_run_finish {operations : List Operation} {d : Document}
    (h : (empty.run operations).finish = .ok d) (hsize : d.recordCount < UInt32.size) :
    Outline.Steps empty.outline d.outline := by
  have hstep := step_finish h
  have hlt : (empty.run operations).records.size < d.recordCount := hstep.size_lt
  exact .tail (steps_run operations empty (by omega)) hstep

/-- Taking items is a run of operations, one for each token. -/
theorem takeAll_eq_run {ε : Type} {items : List (Except ε Token)} {b b' : Builder} {token : Nat}
    (h : b.takeAll token items = .ok b') :
    ∃ operations, b' = b.run operations := by
  induction items generalizing b token with
  | nil =>
    obtain rfl := Except.ok.inj h
    exact ⟨[], rfl⟩
  | cons item rest ih =>
    cases item with
    | error failure => cases h
    | ok t =>
      unfold takeAll at h
      split at h
      · rename_i next hpush
        obtain ⟨operations, rfl⟩ := ih h
        refine ⟨.push t :: operations, ?_⟩
        rw [run_cons, apply, hpush]
      · cases h

/-- Tokens that are all taken are taken one after the other. -/
theorem eq_run_of_takeAll {ε : Type} {tokens : List Token} {b b' : Builder} {taken : Nat}
    (h : b.takeAll taken (tokens.map (Except.ok : Token → Except ε Token)) = .ok b') :
    b' = b.run (tokens.map .push) := by
  induction tokens generalizing b taken with
  | nil => exact (Except.ok.inj h).symm
  | cons t rest ih =>
    rw [List.map_cons, takeAll] at h
    split at h
    · rename_i next hpush
      rw [ih h, List.map_cons, run_cons, apply, hpush]
    · cases h

end Builder

theorem Document.run_of_ofItems {ε : Type} {items : List (Except ε Token)} {d : Document}
    (h : Document.ofItems items = .ok d) :
    ∃ operations, (Builder.empty.run operations).finish = .ok d := by
  unfold ofItems at h
  split at h
  · cases h
  · rename_i b hb
    obtain ⟨operations, rfl⟩ := Builder.takeAll_eq_run hb
    refine ⟨operations, ?_⟩
    split at h
    · rename_i d' hd
      rw [hd, Except.ok.inj h]
    · cases h

/-- A document that was built from items is the end of a sequence of steps. -/
theorem Document.steps_of_ofItems {ε : Type} {items : List (Except ε Token)} {d : Document}
    (h : Document.ofItems items = .ok d) (hsize : d.recordCount < UInt32.size) :
    Outline.Steps Builder.empty.outline d.outline := by
  obtain ⟨operations, h⟩ := run_of_ofItems h
  exact Builder.steps_run_finish h hsize

end MarkupQuery.NodeTree
