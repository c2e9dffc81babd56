import MarkupQuery.Proofs.Query.Contexts
import MarkupQuery.Proofs.Query.Search

/-!
# Results in the order of the document

A walk gives its results in the order in which the search reaches them. Along the forward axes the
nodes from one context come in the order of the document, but those from several contexts need not:
the children of an element come before the children of the elements below it
(`answers_crossedItems_not_increasing`).

The order is that of the document where no step meets contexts in each other's way: a step to
children or to following nodes needs contexts of which none lies inside another, a step to following
siblings needs contexts of one depth, and only contexts from which the step has something to visit
count (`Clear`). This is a condition on a document; a path of a certain shape satisfies it in all
documents (`isSteady`, `orderly_of_isSteady`). The main statement, `answers_increasing`, is about
the answers of a walk.
-/

namespace MarkupQuery.Location

/-- The axes that list what they lead to in the order of the document. -/
def Axis.isForward : Axis → Bool
  | .self | .child | .attribute | .descendant | .descendantOrSelf | .following
  | .followingSibling => true
  | .parent | .ancestor | .ancestorOrSelf | .preceding | .precedingSibling => false

end MarkupQuery.Location

namespace MarkupQuery.Query

open NodeTree Location

variable {d : Document} {x y z w : NodeId}

/-! ## Steps -/

/-- None of the nodes lies inside another. -/
def Separate (d : Document) (l : List NodeId) : Prop :=
  ∀ x ∈ l, ∀ y ∈ l, x ∉ d.ancestors y

/-- All nodes lie equally deep in the tree. -/
def Level (d : Document) (l : List NodeId) : Prop :=
  ∀ x ∈ l, ∀ y ∈ l, depth d x = depth d y

-- These go through the contexts in the list, never through all numbers a node can have.
instance (d : Document) (l : List NodeId) : Decidable (Separate d l) :=
  decidable_of_iff (l.all fun x => l.all fun y => !(d.ancestors y).elem x)
    (by simp [Separate])

instance (d : Document) (l : List NodeId) : Decidable (Level d l) :=
  decidable_of_iff (l.all fun x => l.all fun y => depth d x == depth d y)
    (by simp [Level])

theorem Level.separate (h : d.Sound) {l : List NodeId} (hl : Level d l) : Separate d l :=
  fun x hx y hy hxy => absurd (hl x hx y hy) (Nat.ne_of_lt (depth_lt h hxy))

/-- The contexts from which a step has a node to visit. -/
def busy (d : Document) (step : Step) (l : List NodeId) : List NodeId :=
  l.filter fun x => !(candidates d step x).isEmpty

/-- What the contexts of a step must satisfy for its nodes to come in order: along these axes the
nodes reached from a context inside another can stand in front of what the other still brings. -/
structure Clear (d : Document) (step : Step) (l : List NodeId) : Prop where
  separate : step.axis = .child ∨ step.axis = .following → Separate d (busy d step l)
  level : step.axis = .followingSibling → Level d (busy d step l)

instance (d : Document) (step : Step) (l : List NodeId) : Decidable (Clear d step l) :=
  decidable_of_iff ((step.axis = .child ∨ step.axis = .following → Separate d (busy d step l)) ∧
    (step.axis = .followingSibling → Level d (busy d step l)))
    ⟨fun h => ⟨h.1, h.2⟩, fun h => ⟨h.separate, h.level⟩⟩

theorem mem_busy {step : Step} {l : List NodeId} (hx : x ∈ l) (hw : w ∈ candidates d step x) :
    x ∈ busy d step l :=
  List.mem_filter.2 ⟨hx, by simpa using List.ne_nil_of_mem hw⟩

/-- Of two contexts in order, the second brings what the first has brought, or what stands behind
it. -/
theorem mem_or_lt_of_candidates (h : d.Sound) {step : Step} (hforward : step.axis.isForward = true)
    {l : List NodeId} (hclear : Clear d step l) (hxl : x ∈ l) (hyl : y ∈ l)
    (hx : d.isNode x = true) (hy : d.isNode y = true) (hxy : x < y)
    (hw : w ∈ candidates d step x) (hz : z ∈ candidates d step y) :
    z ∈ candidates d step x ∨ w < z := by
  have hxb := mem_busy hxl hw
  have hyb := mem_busy hyl hz
  rw [mem_candidates h hx] at hw ⊢
  rw [mem_candidates h hy] at hz
  by_cases hroot : step.fromRoot = true
  · rw [if_pos hroot] at hz ⊢
    exact .inl hz
  rw [if_neg hroot] at hw hz ⊢
  have hor : (z ∈ axisNodes d x step.axis ∨ w < z) →
      (z ∈ axisNodes d x step.axis ∧ accepts d step z = true) ∨ w < z :=
    Or.imp_left fun hmem => ⟨hmem, hz.2⟩
  apply hor
  match haxis : step.axis with
  | .self =>
    rw [haxis] at hw hz
    rw [List.mem_singleton.1 hw.1, List.mem_singleton.1 hz.1]
    exact .inr hxy
  | .child =>
    rw [haxis] at hw hz
    have hsep := hclear.separate (.inl haxis) x hxb y hyb
    exact .inr (lt_of_child h hx hy hxy hsep hw.1 hz.1)
  | .attribute =>
    rw [haxis] at hw hz
    exact .inr (lt_of_attribute h hxy hw.1 hz.1)
  | .descendant =>
    rw [haxis] at hw hz
    exact mem_or_lt_of_descendant h hx hy hxy hw.1 hz.1
  | .descendantOrSelf =>
    rw [haxis] at hw hz
    exact mem_or_lt_of_descendantOrSelf h hx hy hxy hw.1 hz.1
  | .following =>
    rw [haxis] at hz
    have hsep := hclear.separate (.inr haxis) x hxb y hyb
    exact .inl (mem_of_following h hx hy hxy hsep hz.1)
  | .followingSibling =>
    rw [haxis] at hw hz
    have hlevel := hclear.level haxis x hxb y hyb
    exact mem_or_lt_of_followingSibling h hx hy hxy hlevel hw.1 hz.1
  | .parent | .ancestor | .ancestorOrSelf | .preceding | .precedingSibling =>
    rw [haxis] at hforward
    cases hforward

/-- Along a forward axis the nodes come in the order of the document. -/
theorem pairwise_axisNodes (h : d.Sound) {axis : Axis} (hforward : axis.isForward = true)
    (hx : d.isNode x = true) : (axisNodes d x axis).Pairwise (· < ·) := by
  cases axis with
  | self => exact List.pairwise_singleton ..
  | child | «attribute» | descendant | following => exact h.pairwise_nodes.filter _
  | descendantOrSelf =>
    rw [Scan.axisNodes_descendantOrSelf h hx]
    exact h.pairwise_nodes.filter _
  | followingSibling =>
    rw [axisNodes, siblingNodes]
    refine List.Pairwise.filter _ ?_
    split
    · exact List.Pairwise.nil
    · exact h.pairwise_nodes.filter _
  | parent | ancestor | ancestorOrSelf | preceding | precedingSibling => cases hforward

/-- Along the other axes the nodes come against the order of the document. -/
theorem pairwise_axisNodes_reverse (h : d.Sound) {axis : Axis} (hreverse : axis.isForward = false)
    (x : NodeId) : (axisNodes d x axis).Pairwise (· > ·) := by
  cases axis with
  | parent =>
    rw [axisNodes]
    cases d.parent? x with
    | none => exact List.Pairwise.nil
    | some p => exact List.pairwise_singleton ..
  | ancestor => exact h.pairwise_ancestors x
  | ancestorOrSelf =>
    exact List.pairwise_cons.2 ⟨fun y hy => h.lt_of_mem_ancestors hy, h.pairwise_ancestors x⟩
  | preceding => exact List.pairwise_reverse.2 (h.pairwise_nodes.filter _)
  | precedingSibling =>
    refine List.pairwise_reverse.2 (List.Pairwise.filter _ ?_)
    rw [siblingNodes]
    split
    · exact List.Pairwise.nil
    · exact h.pairwise_nodes.filter _
  | self | child | «attribute» | descendant | descendantOrSelf | following | followingSibling =>
    cases hreverse

/-- Along a forward axis, the nodes that a step visits from one context are in order. -/
theorem pairwise_candidates (h : d.Sound) {step : Step} (hforward : step.axis.isForward = true)
    (hx : d.isNode x = true) : (candidates d step x).Pairwise (· < ·) := by
  rw [candidates_eq h step hx, Cursor.visited]
  exact (pairwise_axisNodes h hforward (Cursor.isNode_origin h step hx)).filter _

/-! ## Paths -/

/-- Every step is clear of the contexts that the steps before it have reached. -/
def Orderly (d : Document) : List Step → List NodeId → Prop
  | [], _ => True
  | step :: steps, l => Clear d step l ∧ Orderly d steps (l.flatMap (candidates d step))

instance Orderly.instDecidable (d : Document) :
    (steps : List Step) → (l : List NodeId) → Decidable (Orderly d steps l)
  | [], _ => .isTrue trivial
  | step :: steps, l =>
    have := instDecidable d steps (l.flatMap (candidates d step))
    inferInstanceAs (Decidable (Clear d step l ∧ Orderly d steps (l.flatMap (candidates d step))))

theorem busy_subset {step : Step} {l m : List NodeId} (hlm : l ⊆ m) :
    busy d step l ⊆ busy d step m := fun _ hx =>
  List.mem_filter.2 ⟨hlm (List.mem_filter.1 hx).1, (List.mem_filter.1 hx).2⟩

theorem Separate.mono {l m : List NodeId} (hlm : l ⊆ m) (hm : Separate d m) : Separate d l :=
  fun x hx y hy => hm x (hlm hx) y (hlm hy)

theorem Level.mono {l m : List NodeId} (hlm : l ⊆ m) (hm : Level d m) : Level d l :=
  fun x hx y hy => hm x (hlm hx) y (hlm hy)

theorem Clear.mono {step : Step} {l m : List NodeId} (hlm : l ⊆ m) (hm : Clear d step m) :
    Clear d step l :=
  ⟨fun haxis => (hm.separate haxis).mono (busy_subset hlm),
    fun haxis => (hm.level haxis).mono (busy_subset hlm)⟩

theorem Orderly.mono {steps : List Step} {l m : List NodeId} (hlm : l ⊆ m)
    (hm : Orderly d steps m) : Orderly d steps l := by
  induction steps generalizing l m with
  | nil => trivial
  | cons step steps ih =>
    refine ⟨hm.1.mono hlm, ih (fun y hy => ?_) hm.2⟩
    obtain ⟨x, hx, hy⟩ := List.mem_flatMap.1 hy
    exact List.mem_flatMap.2 ⟨x, hlm hx, hy⟩

/-- The results of orderly steps from contexts in order are in order. -/
theorem pairwise_eraseDups_depthFirst (h : d.Sound) {steps : List Step}
    (hforward : ∀ step ∈ steps, step.axis.isForward = true) {l : List NodeId}
    (hl : l.Pairwise (· < ·)) (hnode : ∀ x ∈ l, d.isNode x = true) (hclear : Orderly d steps l) :
    (l.flatMap (depthFirst d steps)).eraseDups.Pairwise (· < ·) := by
  induction steps generalizing l with
  | nil =>
    rw [flatMap_depthFirst_nil, eraseDups_of_nodup hl.nodup]
    exact hl
  | cons step steps ih =>
    have hstep := hforward step List.mem_cons_self
    have hnext : (l.flatMap (candidates d step)).eraseDups.Pairwise (· < ·) :=
      pairwise_eraseDups_flatMap hl (fun x hx => pairwise_candidates h hstep (hnode x hx))
        fun x hx y hy hxy w hw z hz => mem_or_lt_of_candidates h hstep hclear.1 hx hy
          (hnode x hx) (hnode y hy) hxy hw hz
    rw [flatMap_depthFirst_cons, ← eraseDups_flatMap_eraseDups]
    exact ih (fun s hs => hforward s (List.mem_cons_of_mem _ hs)) hnext
      (fun y hy => isNode_of_mem_flatMap h hnode y (List.mem_eraseDups.1 hy))
      (hclear.2.mono fun y hy => List.mem_eraseDups.1 hy)

/-! ## Paths that are orderly in every document -/

/-- The axes that lead from nodes of one depth to nodes of one depth. -/
def keepsLevel : Axis → Bool
  | .self | .child | .attribute | .followingSibling => true
  | _ => false

/-- The forward axes along which contexts inside each other do no harm. -/
def keepsOrder : Axis → Bool
  | .self | .attribute | .descendant | .descendantOrSelf => true
  | _ => false

/-- First steps that stay on one level, then one step along any forward axis, then steps along which
contexts inside each other do no harm. -/
def isSteady : List Step → Bool
  | [] => true
  | step :: steps =>
    keepsLevel step.axis && isSteady steps ||
      step.axis.isForward && steps.all fun s => keepsOrder s.axis

theorem isForward_of_keepsLevel {axis : Axis} (h : keepsLevel axis = true) :
    axis.isForward = true := by
  match axis with
  | .self | .child | .attribute | .followingSibling => rfl

theorem isForward_of_keepsOrder {axis : Axis} (h : keepsOrder axis = true) :
    axis.isForward = true := by
  match axis with
  | .self | .attribute | .descendant | .descendantOrSelf => rfl

theorem isForward_of_isSteady {steps : List Step} (h : isSteady steps = true) :
    ∀ step ∈ steps, step.axis.isForward = true := by
  induction steps with
  | nil => exact fun _ hs => (nomatch hs)
  | cons step steps ih =>
    rw [isSteady, Bool.or_eq_true, Bool.and_eq_true, Bool.and_eq_true, List.all_eq_true] at h
    rw [List.forall_mem_cons]
    rcases h with ⟨hlevel, hsteps⟩ | ⟨hforward, hsteps⟩
    · exact ⟨isForward_of_keepsLevel hlevel, ih hsteps⟩
    · exact ⟨hforward, fun s hs => isForward_of_keepsOrder (hsteps s hs)⟩

theorem level_axisNodes (h : d.Sound) {axis : Axis} (haxis : keepsLevel axis = true)
    (hxy : depth d x = depth d y) (hw : w ∈ axisNodes d x axis) (hz : z ∈ axisNodes d y axis) :
    depth d w = depth d z := by
  match axis with
  | .self =>
    rw [List.mem_singleton.1 hw, List.mem_singleton.1 hz]
    exact hxy
  | .child | .attribute =>
    simp only [axisNodes, List.mem_filter, Bool.and_eq_true, beq_iff_eq] at hw hz
    rw [depth_eq_of_parent h hw.2.2, depth_eq_of_parent h hz.2.2, hxy]
  | .followingSibling =>
    have hw := (mem_followingSibling h hw).2.2.2.1
    have hz := (mem_followingSibling h hz).2.2.2.1
    rw [depth_congr h hw, depth_congr h hz, hxy]

theorem level_flatMap (h : d.Sound) {step : Step} (hstep : keepsLevel step.axis = true)
    {l : List NodeId} (hl : Level d l) (hnode : ∀ x ∈ l, d.isNode x = true) :
    Level d (l.flatMap (candidates d step)) := by
  intro w hw z hz
  obtain ⟨x, hx, hw⟩ := List.mem_flatMap.1 hw
  obtain ⟨y, hy, hz⟩ := List.mem_flatMap.1 hz
  rw [mem_candidates h (hnode x hx)] at hw
  rw [mem_candidates h (hnode y hy)] at hz
  refine level_axisNodes h hstep ?_ hw.1 hz.1
  split
  · rfl
  · exact hl x hx y hy

theorem orderly_of_keepsOrder {steps : List Step}
    (hsteps : ∀ step ∈ steps, keepsOrder step.axis = true) (l : List NodeId) :
    Orderly d steps l := by
  induction steps generalizing l with
  | nil => trivial
  | cons step steps ih =>
    have hstep := hsteps step List.mem_cons_self
    refine ⟨⟨fun haxis => ?_, fun haxis => ?_⟩,
      ih (fun s hs => hsteps s (List.mem_cons_of_mem _ hs)) _⟩
    · rcases haxis with haxis | haxis
      · rw [haxis] at hstep
        cases hstep
      · rw [haxis] at hstep
        cases hstep
    · rw [haxis] at hstep
      cases hstep

theorem orderly_of_isSteady (h : d.Sound) {steps : List Step} (hsteps : isSteady steps = true)
    {l : List NodeId} (hl : Level d l) (hnode : ∀ x ∈ l, d.isNode x = true) :
    Orderly d steps l := by
  induction steps generalizing l with
  | nil => trivial
  | cons step steps ih =>
    have hbusy : Level d (busy d step l) := hl.mono (List.filter_subset_self ..)
    refine ⟨⟨fun _ => hbusy.separate h, fun _ => hbusy⟩, ?_⟩
    rw [isSteady, Bool.or_eq_true, Bool.and_eq_true, Bool.and_eq_true] at hsteps
    rcases hsteps with ⟨hlevel, hsteps⟩ | ⟨-, hsteps⟩
    · exact ih hsteps (level_flatMap h hlevel hl hnode) (isNode_of_mem_flatMap h hnode)
    · exact orderly_of_keepsOrder (List.all_eq_true.1 hsteps) _

/-- **Results in the order of the document.** Along a path of forward axes, a walk answers with
ascending nodes if the path is steady, or if its steps are clear of their contexts in the document
at hand. -/
theorem answers_increasing {ε : Type} {items : List (Except ε Markup.Token)}
    (h : Document.ofItems items = .ok d) (hsize : d.recordCount < UInt32.size) {text : String}
    {path : Path} (hpath : Path.compile text = .ok path) (hx : d.isNode x = true)
    (hforward : ∀ step ∈ path.steps, step.axis.isForward = true)
    (hclear : isSteady path.steps = true ∨ Orderly d path.steps [x]) :
    ∃ l : List NodeId, l.Pairwise (· < ·) ∧ (∀ y, y ∈ l ↔ y ∈ depthFirst d path.steps x) ∧
      ∀ n, answers Walk.call n (.start d path x) =
        some ((List.range n).map fun i => l[i]?) := by
  have hd := Document.sound_of_items h hsize
  have horderly : Orderly d path.steps [x] := by
    rcases hclear with hsteady | horderly
    · refine orderly_of_isSteady hd hsteady (fun y hy z hz => ?_) (by simpa using hx)
      rw [List.mem_singleton.1 hy, List.mem_singleton.1 hz]
    · exact horderly
  refine ⟨(depthFirst d path.steps x).eraseDups, ?_, fun y => List.mem_eraseDups, ?_⟩
  · have hsorted := pairwise_eraseDups_depthFirst hd hforward (List.pairwise_singleton _ x)
      (by simpa using hx) horderly
    rwa [List.flatMap_singleton] at hsorted
  · exact answers_eq (fun _ _ => Walk.Awaits.exists_call)
      (Walk.awaits_start hd path (steps_ne_nil_of_compile hpath) hx)

/-- All elements below the root. -/
def everyElement : Path :=
  ⟨"//*", [⟨.descendantOrSelf, .any, none, true⟩, ⟨.child, .any, some .element, false⟩]⟩

/-- Two elements side by side. -/
def flatItems : List (Except Empty Markup.Token) :=
  [.ok (.startTag ⟨none, "a"⟩ []), .ok .endTag, .ok (.startTag ⟨none, "b"⟩ []), .ok .endTag]

theorem answers_flatItems_increasing : ∃ d, Document.ofItems flatItems = .ok d ∧
    d.recordCount < UInt32.size ∧ Path.compile "//*" = .ok everyElement ∧ d.isNode 0 = true ∧
    isSteady everyElement.steps = false ∧ Orderly d everyElement.steps [0] ∧
    ∃ l : List NodeId, l.Pairwise (· < ·) ∧
      (∀ y, y ∈ l ↔ y ∈ depthFirst d everyElement.steps 0) ∧
      ∀ n, answers Walk.call n (.start d everyElement 0) =
        some ((List.range n).map fun i => l[i]?) := by
  have hpath : Path.compile "//*" = .ok everyElement := by decide +kernel
  have h : Document.ofItems flatItems = .ok _ := rfl
  exact ⟨_, h, by decide, hpath, by decide, by decide, by decide +kernel,
    answers_increasing h (by decide) hpath (by decide) (by decide) (.inr (by decide +kernel))⟩

/-- An element inside another, and one behind it. -/
def crossedItems : List (Except Empty Markup.Token) :=
  [.ok (.startTag ⟨none, "a"⟩ []), .ok (.startTag ⟨none, "c"⟩ []),
    .ok (.startTag ⟨none, "b"⟩ []), .ok .endTag, .ok .endTag, .ok (.startTag ⟨none, "b"⟩ []),
    .ok .endTag, .ok .endTag]

/-- The search takes all children of an element before those of the elements below it, so it can
reach a node before one that stands in front of it. -/
theorem answers_crossedItems_not_increasing : ∃ d, Document.ofItems crossedItems = .ok d ∧
    d.recordCount < UInt32.size ∧ Path.compile "//*" = .ok everyElement ∧ d.isNode 0 = true ∧
    (∀ step ∈ everyElement.steps, step.axis.isForward = true) ∧
    answers Walk.call 5 (.start d everyElement 0) =
      some [some 1, some 2, some 6, some 3, none] ∧
    ¬ ∃ l : List NodeId, l.Pairwise (· < ·) ∧ ∀ n, answers Walk.call n (.start d everyElement 0) =
      some ((List.range n).map fun i => l[i]?) := by
  refine ⟨_, rfl, by decide, by decide +kernel, by decide, by decide, by decide +kernel, ?_⟩
  rintro ⟨l, hl, hanswers⟩
  have hfour := (hanswers 4).symm.trans
    (show _ = some [some 1, some 2, some 6, some 3] by decide +kernel)
  have hbehind : l[2]? = some 6 ∧ l[3]? = some 3 := by
    have hlists := Option.some.inj hfour
    simp only [List.range_succ, List.range_zero, List.nil_append, List.cons_append,
      List.map_cons, List.map_nil, List.cons.injEq, and_true] at hlists
    exact hlists.2.2
  obtain ⟨h₂, hl₂⟩ := List.getElem?_eq_some_iff.1 hbehind.1
  obtain ⟨h₃, hl₃⟩ := List.getElem?_eq_some_iff.1 hbehind.2
  have hlt := List.pairwise_iff_getElem.1 hl 2 3 h₂ h₃ (by decide)
  rw [hl₂, hl₃] at hlt
  exact absurd hlt (by decide)

end MarkupQuery.Query
