import Mathlib.Data.List.Pairwise
import MarkupQuery.Proofs.NodeTree.Outline
import MarkupQuery.Proofs.NodeTree.Rooted

/-!
# The nesting of elements

While a table is being built, the ends of the open elements are not known. The invariant
`Outline.Nested` says what is known: behind an open element there are only records that it encloses,
and a closed element encloses exactly the records up to its end mark, which is its own. Every step
of an outline keeps it (`Nested.step`), so it holds of every builder and every document with fewer
than 2³² records (`nested_of_steps`, `Document.nested`).
-/

namespace MarkupQuery.NodeTree

open Markup

namespace Outline

/-- The element at a place is closed: it is not on the stack. -/
def IsClosed (o : Outline) (e : Nat) : Prop :=
  kindAt o.records e = some .element ∧ ∀ s ∈ o.stack, s.toNat ≠ e

/-- What holds of every builder: behind an open element are only records that it encloses, and the
others are closed. -/
structure Nested (o : Outline) : Prop extends Rooted o.records where
  descending : o.stack.Pairwise fun e p => p.toNat < e.toNat
  open_element : ∀ e ∈ o.stack, kindAt o.records e.toNat = some .element
  open_encloses : ∀ e ∈ o.stack, ∀ x, e.toNat < x → x < o.records.size →
    Encloses o.records e.toNat x
  closed : ∀ e, o.IsClosed e → ClosedAt o.records e
  endMark_stop : ∀ x p, kindAt o.records x = some .endMark → parentAt o.records x = some p →
    o.IsClosed p ∧ stopAt o.records p = x

namespace Nested

variable {o : Outline} {e : NodeId} {outer : List NodeId}

theorem nextId_toNat {o : Outline} (hsize : o.records.size < UInt32.size) :
    o.nextId.toNat = o.records.size :=
  UInt32.toNat_ofNat_of_lt' hsize

theorem lt_size (h : o.Nested) (hs : o.stack = e :: outer) : e.toNat < o.records.size :=
  lt_size_of_kindAt (h.open_element e (by simp [hs]))

/-- The open elements enclose the innermost one. -/
theorem outer_encloses (h : o.Nested) (hs : o.stack = e :: outer) {a : NodeId} (ha : a ∈ o.stack) :
    e.toNat = a.toNat ∨ Encloses o.records a.toNat e.toNat := by
  have hdesc := h.descending
  rw [hs] at hdesc ha
  rcases List.mem_cons.1 ha with rfl | hmem
  · exact .inl rfl
  · have hlt := (List.pairwise_cons.1 hdesc).1 a hmem
    exact .inr (h.open_encloses a (by simp [hs, hmem]) e.toNat hlt (h.lt_size hs))

/-- A closed element encloses no open one: its end mark is behind it, and lies in the open one. -/
theorem not_encloses_open (h : o.Nested) {a : Nat} (ha : o.IsClosed a) {s : NodeId}
    (hs : s ∈ o.stack) : ¬ (s.toNat = a ∨ Encloses o.records a s.toNat) := by
  rintro (heq | hencl)
  · exact ha.2 s hs heq
  · have hclosed := h.closed a ha
    have hmark : kindAt o.records s.toNat ≠ some .endMark := by
      rw [h.open_element s hs]
      simp
    obtain ⟨hlt, hstop⟩ := (hclosed.encloses_iff_lt_stop hmark).1 hencl
    have hback := h.open_encloses s hs _ hstop hclosed.stop_lt_size
    have := h.inFront.le_parent hback hclosed.parent_stop
    omega

/-! ### A record more in the innermost element -/

section Push

variable {r : Record}

theorem encloses_push_of_lt (h : o.Nested) {a x : Nat} (hx : x < o.records.size) :
    Encloses (o.records.push r) a x ↔ Encloses o.records a x :=
  h.inFront.encloses_congr fun y hy => by rw [parentAt_push_of_lt (by omega)]

theorem encloses_push_size (h : o.Nested) (hs : o.stack = e :: outer) (hr : r.parent = some e)
    {a : Nat} : Encloses (o.records.push r) a o.records.size ↔
      e.toNat = a ∨ Encloses o.records a e.toNat := by
  rw [Encloses.iff_of_parentAt (p := e.toNat) (by rw [parentAt_push_size, hr]; rfl),
    h.encloses_push_of_lt (h.lt_size hs)]

/-- The open elements enclose the new record as well. -/
theorem open_encloses_push (h : o.Nested) (hs : o.stack = e :: outer) (hr : r.parent = some e)
    {a : NodeId} (ha : a ∈ o.stack) {x : Nat} (hlt : a.toNat < x) (hx : x < o.records.size + 1) :
    Encloses (o.records.push r) a.toNat x := by
  by_cases hlast : x = o.records.size
  · subst hlast
    exact (h.encloses_push_size hs hr).2 (h.outer_encloses hs ha)
  · have hx' : x < o.records.size := by omega
    exact (h.encloses_push_of_lt hx').2 (h.open_encloses a ha x hlt hx')

/-- The closed elements enclose what they enclosed before. -/
theorem encloses_push_of_closed (h : o.Nested) (hs : o.stack = e :: outer) (hr : r.parent = some e)
    {a : Nat} (ha : o.IsClosed a) (x : Nat) :
    Encloses (o.records.push r) a x ↔ a < x ∧ x ≤ stopAt o.records a := by
  have hclosed := h.closed a ha
  have hstop := hclosed.stop_lt_size
  rcases Nat.lt_trichotomy x o.records.size with hx | rfl | hx
  · simp [h.encloses_push_of_lt hx, hclosed.encloses_iff]
  · rw [h.encloses_push_size hs hr]
    have := h.not_encloses_open ha (s := e) (by simp [hs])
    exact ⟨fun hne => absurd hne this, fun hle => by omega⟩
  · refine ⟨fun hencl => ?_, fun hle => by omega⟩
    have := hencl.lt_size
    rw [Array.size_push] at this
    omega

theorem closedAt_push (h : o.Nested) (hs : o.stack = e :: outer) (hr : r.parent = some e)
    {a : Nat} (ha : o.IsClosed a) : ClosedAt (o.records.push r) a := by
  have hclosed := h.closed a ha
  have hlt := hclosed.stop_lt_size
  have hstop : stopAt (o.records.push r) a = stopAt o.records a := by
    have := lt_size_of_kindAt ha.1
    rw [stopAt_push_of_lt (by omega)]
  refine ⟨?_, ?_, ?_, fun x => ?_⟩ <;> rw [hstop]
  · exact hclosed.lt_stop
  · rw [kindAt_push_of_lt (by omega)]
    exact hclosed.kind_stop
  · rw [parentAt_push_of_lt (by omega)]
    exact hclosed.parent_stop
  · exact h.encloses_push_of_closed hs hr ha x

/-- With a record more, the same elements are closed: if it is an element it is on the stack. -/
theorem isClosed_push_iff (hsize : o.records.size < UInt32.size) (children : Array NodeId)
    {stack : List NodeId}
    (hstack : stack = if r.kind = .element then o.nextId :: o.stack else o.stack) (a : Nat) :
    Outline.IsClosed ⟨o.records.push r, children, stack⟩ a ↔ o.IsClosed a := by
  have hid := nextId_toNat hsize
  constructor
  · rintro ⟨ha, hopen⟩
    dsimp only at ha hopen
    rw [kindAt_push] at ha
    split at ha
    · rename_i hlast
      have hkind : r.kind = .element := Option.some.inj ha
      refine absurd ?_ (hopen o.nextId (by rw [hstack, if_pos hkind]; simp))
      simp [hid, hlast]
    · refine ⟨ha, fun s hs => hopen s ?_⟩
      rw [hstack]
      split
      · exact List.mem_cons_of_mem _ hs
      · exact hs
  · rintro ⟨ha, hopen⟩
    have hlt := lt_size_of_kindAt ha
    refine ⟨?_, fun s hs => ?_⟩
    · dsimp only
      rw [kindAt_push_of_lt (by omega)]
      exact ha
    · dsimp only at hs
      rw [hstack] at hs
      split at hs
      · rcases List.mem_cons.1 hs with rfl | hs
        · omega
        · exact hopen s hs
      · exact hopen s hs

/-- A record more keeps the invariant. It is put on the stack if it is an element; an attribute has
to stand behind its element and other attributes of it. -/
theorem addRecord (h : o.Nested) (hs : o.stack = e :: outer) (hsize : o.records.size < UInt32.size)
    (hr : r.parent = some e) (hmark : r.kind ≠ .endMark)
    (hstop : r.kind ≠ .element → r.stop.toNat = o.records.size + 1)
    (hrun : r.kind = .attribute → ∀ y, e.toNat < y → y < o.records.size →
      kindAt o.records y = some .attribute ∧ parentAt o.records y = some e.toNat)
    {stack : List NodeId}
    (hstack : stack = if r.kind = .element then o.nextId :: o.stack else o.stack) :
    Nested ⟨o.records.push r, o.children, stack⟩ := by
  have hid := nextId_toNat hsize
  have hclosed := isClosed_push_iff hsize o.children hstack
  have hmem : ∀ s ∈ stack, s ∈ o.stack ∨ s = o.nextId ∧ r.kind = .element := fun s hmem => by
    rw [hstack] at hmem
    split at hmem
    · rename_i hkind
      rcases List.mem_cons.1 hmem with rfl | hmem
      · exact .inr ⟨rfl, hkind⟩
      · exact .inl hmem
    · exact .inl hmem
  constructor <;> dsimp only
  case toRooted => exact h.push hr (h.open_element e (by simp [hs])) hstop hrun
  case descending =>
    rw [hstack]
    split
    · refine List.pairwise_cons.2 ⟨fun s hs' => ?_, h.descending⟩
      rw [hid]
      exact lt_size_of_kindAt (h.open_element s hs')
    · exact h.descending
  case open_element =>
    intro s hs'
    rcases hmem s hs' with hs' | ⟨rfl, hkind⟩
    · have := h.open_element s hs'
      rw [kindAt_push_of_lt (lt_size_of_kindAt this)]
      exact this
    · simp [hid, hkind]
  case open_encloses =>
    intro s hs' x hsx hx
    rw [Array.size_push] at hx
    rcases hmem s hs' with hs' | ⟨rfl, -⟩
    · exact h.open_encloses_push hs hr hs' hsx hx
    · omega
  case closed => exact fun a ha => h.closedAt_push hs hr ((hclosed a).1 ha)
  case endMark_stop =>
    intro x p hk hp
    by_cases hlast : x = o.records.size
    · subst hlast
      rw [kindAt_push_size] at hk
      exact absurd (Option.some.inj hk) hmark
    · rw [kindAt_push, if_neg hlast] at hk
      rw [parentAt_push, if_neg hlast] at hp
      have hpx := h.inFront hp
      have hx := lt_size_of_parentAt hp
      obtain ⟨hpc, hstop'⟩ := h.endMark_stop x p hk hp
      refine ⟨(hclosed p).2 hpc, ?_⟩
      rw [stopAt_push_of_lt (by omega)]
      exact hstop'

end Push

/-! ### An element closed -/

section Close

theorem kindAt_close (o : Outline) (e : NodeId) (outer : List NodeId) (x : Nat) :
    kindAt (o.close e outer).records x =
      if x = o.records.size then some .endMark else kindAt o.records x := by
  rw [close, kindAt_modify, kindAt_push]
  · rfl
  · exact fun _ => rfl

theorem parentAt_close (o : Outline) (e : NodeId) (outer : List NodeId) (x : Nat) :
    parentAt (o.close e outer).records x =
      if x = o.records.size then some e.toNat else parentAt o.records x := by
  rw [close, parentAt_modify, parentAt_push]
  · rfl
  · exact fun _ => rfl

theorem stopAt_close_of_ne (o : Outline) {e : NodeId} (outer : List NodeId) {x : Nat}
    (hne : x ≠ e.toNat) : stopAt (o.close e outer).records x =
      if x = o.records.size then (o.nextId + 1).toNat else stopAt o.records x := by
  rw [close, stopAt_modify_of_ne _ _ hne.symm, stopAt_push]
  rfl

theorem stopAt_close_self (o : Outline) {e : NodeId} (outer : List NodeId)
    (he : e.toNat < o.records.size) :
    stopAt (o.close e outer).records e.toNat = o.nextId.toNat := by
  rw [close, stopAt, Array.getElem?_modify, if_pos rfl, Array.getElem?_push, if_neg (by omega),
    Array.getElem?_eq_getElem he]
  rfl

theorem encloses_close_iff (h : o.Nested) (hs : o.stack = e :: outer) (a x : Nat) :
    Encloses (o.close e outer).records a x ↔
      Encloses (o.records.push (Record.endOf e o.nextId)) a x := by
  refine ParentsInFront.encloses_congr ?_ fun y _ => ?_
  · intro x p hp
    rw [parentAt_push] at hp
    split at hp
    · rename_i hlast
      rw [hlast, ← Option.some.inj hp]
      exact h.lt_size hs
    · exact h.inFront hp
  · rw [parentAt_close, parentAt_push]
    rfl

@[simp] theorem size_close (o : Outline) (e : NodeId) (outer : List NodeId) :
    (o.close e outer).records.size = o.records.size + 1 := by
  simp [close]

/-- The elements that are closed then are those that were, and the one that closes. -/
theorem isClosed_close_iff (h : o.Nested) (hs : o.stack = e :: outer) (a : Nat) :
    (o.close e outer).IsClosed a ↔ a = e.toNat ∨ o.IsClosed a := by
  have hdesc := h.descending
  rw [hs, List.pairwise_cons] at hdesc
  constructor
  · rintro ⟨ha, hopen⟩
    rw [kindAt_close] at ha
    split at ha
    · cases ha
    · by_cases hae : a = e.toNat
      · exact .inl hae
      · refine .inr ⟨ha, fun s hs' => ?_⟩
        rw [hs] at hs'
        rcases List.mem_cons.1 hs' with rfl | hs'
        · exact Ne.symm hae
        · exact hopen s hs'
  · intro ha
    have hkind : kindAt o.records a = some .element := by
      rcases ha with rfl | ha
      · exact h.open_element e (by simp [hs])
      · exact ha.1
    refine ⟨?_, fun s hs' => ?_⟩
    · rw [kindAt_close, if_neg (Nat.ne_of_lt (lt_size_of_kindAt hkind))]
      exact hkind
    · rcases ha with rfl | ha
      · exact Nat.ne_of_lt (hdesc.1 s hs')
      · exact ha.2 s (by rw [hs]; exact List.mem_cons_of_mem _ hs')

/-- The element that closes encloses all that lies between it and its end mark. -/
theorem closedAt_close_self (h : o.Nested) (hs : o.stack = e :: outer)
    (hsize : o.records.size < UInt32.size) :
    ClosedAt (o.close e outer).records e.toNat := by
  have he := h.lt_size hs
  have hstop : stopAt (o.close e outer).records e.toNat = o.records.size := by
    simp [stopAt_close_self o outer he, nextId_toNat hsize]
  refine ⟨?_, ?_, ?_, fun x => ?_⟩ <;> rw [hstop]
  · exact he
  · rw [kindAt_close, if_pos rfl]
  · rw [parentAt_close, if_pos rfl]
  · constructor
    · intro hencl
      have hx := hencl.lt_size
      rw [size_close] at hx
      rw [h.encloses_close_iff hs] at hencl
      refine ⟨?_, by omega⟩
      by_cases hlast : x = o.records.size
      · omega
      · exact h.inFront.lt ((h.encloses_push_of_lt (by omega)).1 hencl)
    · rintro ⟨hex, hx⟩
      rw [h.encloses_close_iff hs]
      exact h.open_encloses_push hs rfl (by simp [hs]) hex (by omega)

/-- The elements that were closed before have not changed. -/
theorem closedAt_close_of_closed (h : o.Nested) (hs : o.stack = e :: outer) {a : Nat}
    (ha : o.IsClosed a) : ClosedAt (o.close e outer).records a := by
  have hlt := (h.closed a ha).stop_lt_size
  have ha' := lt_size_of_kindAt ha.1
  have hae : a ≠ e.toNat := (ha.2 e (by simp [hs])).symm
  have hstop : stopAt (o.close e outer).records a = stopAt o.records a := by
    rw [stopAt_close_of_ne o outer hae, if_neg (by omega)]
  refine ⟨?_, ?_, ?_, fun x => ?_⟩ <;> rw [hstop]
  · exact (h.closed a ha).lt_stop
  · rw [kindAt_close, if_neg (by omega)]
    exact (h.closed a ha).kind_stop
  · rw [parentAt_close, if_neg (by omega)]
    exact (h.closed a ha).parent_stop
  · rw [h.encloses_close_iff hs]
    exact h.encloses_push_of_closed hs rfl ha x

/-- Closing the innermost element keeps the invariant. -/
theorem close (h : o.Nested) (hs : o.stack = e :: outer)
    (hsize : o.records.size + 1 < UInt32.size) : (o.close e outer).Nested := by
  have he := h.lt_size hs
  have hid : o.nextId.toNat = o.records.size := UInt32.toNat_ofNat_of_lt' (by omega)
  have hdesc := h.descending
  rw [hs, List.pairwise_cons] at hdesc
  have hmem : ∀ s ∈ outer, s ∈ o.stack := fun s hs' => by simp [hs, hs']
  constructor
  case toRooted =>
    have hpush : Rooted (o.records.push (Record.endOf e o.nextId)) :=
      h.push rfl (h.open_element e (by simp [hs])) (fun _ => toNat_succ hsize)
        (by simp)
    have hkind : kindAt (o.records.push (Record.endOf e o.nextId)) e.toNat = some .element := by
      rw [kindAt_push_of_lt (by omega)]
      exact h.open_element e (by simp [hs])
    exact hpush.modify (f := fun r => { r with stop := o.nextId, children := o.runOf e }) hkind
      (fun _ => rfl) (fun _ => rfl)
  case descending => exact hdesc.2
  case open_element =>
    intro s hs'
    have := h.open_element s (hmem s hs')
    rw [kindAt_close, if_neg (Nat.ne_of_lt (lt_size_of_kindAt this))]
    exact this
  case open_encloses =>
    intro s hs' x hsx hx
    rw [size_close] at hx
    rw [h.encloses_close_iff hs]
    exact h.open_encloses_push hs rfl (hmem s hs') hsx hx
  case closed =>
    intro a ha
    rcases (h.isClosed_close_iff hs a).1 ha with rfl | ha
    · exact h.closedAt_close_self hs (by omega)
    · exact h.closedAt_close_of_closed hs ha
  case endMark_stop =>
    intro x p hk hp
    rw [kindAt_close] at hk
    rw [parentAt_close] at hp
    split at hk
    · rename_i hlast
      rw [if_pos hlast] at hp
      obtain rfl := Option.some.inj hp
      refine ⟨(h.isClosed_close_iff hs _).2 (.inl rfl), ?_⟩
      simp [stopAt_close_self o outer he, hid, hlast]
    · rename_i hlast
      rw [if_neg hlast] at hp
      have hpx := h.inFront hp
      have hx := lt_size_of_parentAt hp
      obtain ⟨hpc, hstop⟩ := h.endMark_stop x p hk hp
      refine ⟨(h.isClosed_close_iff hs p).2 (.inr hpc), ?_⟩
      have hpe : p ≠ e.toNat := (hpc.2 e (by simp [hs])).symm
      rw [stopAt_close_of_ne o outer hpe, if_neg (by omega)]
      exact hstop

end Close

end Nested

/-! ## All builders and documents -/

/-- Every step keeps the invariant. -/
theorem Nested.step {o o' : Outline} (hstep : Step o o') (h : o.Nested)
    (hsize : o'.records.size < UInt32.size) : o'.Nested := by
  have hlt := hstep.size_lt
  cases hstep with
  | @addLeaf e _ kind nameId text hs hk =>
    have hbound : o.records.size + 1 < UInt32.size := by
      simpa only [Outline.addRecord, Array.size_push] using hsize
    refine h.addRecord (r := Record.leaf kind nameId text e o.nextId) hs (by omega) rfl ?_ ?_ ?_ ?_
    · cases kind <;> simp [NodeKind.hasText] at hk ⊢
    · exact fun _ => toNat_succ hbound
    · cases kind <;> simp [NodeKind.hasText] at hk ⊢
    · cases kind <;> simp [NodeKind.hasText] at hk ⊢
  | addAttribute nameId spaceId valueId hs ha =>
    have hbound : o.records.size + 1 < UInt32.size := by
      simpa only [Outline.addRecord, Array.size_push] using hsize
    exact h.addRecord hs (by omega) rfl (by simp)
      (fun _ => toNat_succ hbound) (fun _ => ha) (by simp)
  | openElement nameId spaceId hs =>
    exact h.addRecord hs (by omega) rfl (by simp)
      (fun hne => absurd rfl hne) (by simp)
      (by simp [hs])
  | closeElement hs => exact h.close hs (by rwa [← size_close])

theorem nested_empty : Builder.empty.outline.Nested := by
  have hkind : ∀ x k, kindAt #[Record.root] x = some k → x = 0 ∧ k = .element := by
    intro x k hk
    have hx : x < 1 := lt_size_of_kindAt hk
    obtain rfl : x = 0 := by omega
    exact ⟨rfl, (Option.some.inj hk).symm⟩
  have hparent : ∀ x, parentAt #[Record.root] x = none := by
    intro x
    by_cases hx : x = 0
    · subst hx
      rfl
    · rw [parentAt, Array.getElem?_eq_none (by simp; omega)]
      rfl
  have hnot : ∀ x p, parentAt #[Record.root] x ≠ some p := fun x p => by simp [hparent]
  have hstack : ∀ s ∈ Builder.empty.outline.stack, s = 0 := by simp [Builder.outline, Builder.empty]
  constructor
  case toRooted =>
    refine ⟨rfl, fun x hx => ?_, fun x p hp => absurd hp (hnot x p),
      fun x p hp => absurd hp (hnot x p), fun x k hk hne => absurd (hkind x k hk).2 hne,
      fun x p y _ hp => absurd hp (hnot x p)⟩
    have hx' : x < 1 := hx
    exact ⟨fun _ => by omega, fun _ => hparent x⟩
  case descending => exact List.pairwise_singleton _ _
  case open_element =>
    intro s hs
    rw [hstack s hs]
    rfl
  case open_encloses =>
    intro s hs x hsx hx
    have hx' : x < 1 := hx
    omega
  case closed =>
    rintro a ⟨ha, hopen⟩
    exact absurd (hkind a _ ha).1.symm (hopen 0 (by simp [Builder.outline]))
  case endMark_stop => exact fun x p _ hp => absurd hp (hnot x p)

/-- Every outline that steps lead to from the start satisfies the invariant. -/
theorem nested_of_steps {o : Outline} (h : Steps Builder.empty.outline o)
    (hsize : o.records.size < UInt32.size) : o.Nested := by
  induction h with
  | refl => exact nested_empty
  | tail _ hstep ih => exact Nested.step hstep (ih (Nat.lt_trans hstep.size_lt hsize)) hsize

end Outline

theorem Document.nested {ε : Type} {items : List (Except ε Token)} {d : Document}
    (h : Document.ofItems items = .ok d) (hsize : d.recordCount < UInt32.size) :
    d.outline.Nested :=
  Outline.nested_of_steps (Document.steps_of_ofItems h hsize) hsize

end MarkupQuery.NodeTree
