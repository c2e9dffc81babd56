import MarkupQuery.Proofs.Query.Composition

/-!
# What two slashes stand for

Two slashes in front of a test write two steps: one to the nodes of a subtree, attributes excepted,
and one to their children. The same nodes are below the root of the subtree
(`mem_descendant_iff`), so a single step to the nodes below can stand in their place
(`mem_depthFirst_below`). Only the order can differ: the two steps take all children of an element
before those of the elements below it.

The main statement, `select_of_slashes`, is that both texts are paths and select the same nodes, in
whatever order.
-/

namespace MarkupQuery.Location

/-- A segment of nothing: the node and everything below it, attributes excepted. -/
def Step.between : Step :=
  ⟨.descendantOrSelf, .any, none, false⟩

/-- What a test asks of children, it can ask of all nodes below. -/
theorem Test.below {cs : List Char} {step : Step} (h : Test .child cs step) :
    Test .descendant cs { step with axis := .descendant } := by
  cases h with
  | name hw => exact .name hw
  | kind hw _ hargs => exact .kind hw Axis.noConfusion hargs

variable {cs : List Char} {step : Step}

/-- A slash and a test, behind another slash. -/
theorem segments_slash_test (h : Test .child cs step) (hself : cs ≠ ['.'])
    (hparent : cs ≠ ['.', '.']) :
    List.Forall₂ Segment (segments ('/' :: cs)) [.between, step] := by
  have hcut : segments ('/' :: cs) = [] :: segments cs := segments_append_slash List.not_mem_nil cs
  rw [hcut, segments_of_not_mem h.ne_nil h.slash_not_mem]
  exact .cons .between (.cons (.child h hself hparent) .nil)

theorem segments_below (h : Test .child cs step) :
    List.Forall₂ Segment (segments ("descendant::".toList ++ cs))
      [{ step with axis := .descendant }] := by
  have hsegment := Segment.onAxis .descendant h.below
  rw [segments_of_not_mem (List.append_ne_nil_of_left_ne_nil (by decide) _)]
  · exact .cons hsegment .nil
  · exact hsegment.slash_not_mem

end MarkupQuery.Location

namespace MarkupQuery.Query

open NodeTree Location

variable {d : Document} {step : Step} {c x y : NodeId}

/-! ## Children of a subtree -/

/-- The nodes below a node are the children of the nodes of its subtree. -/
theorem mem_descendant_iff (h : d.Sound) (hc : d.isNode c = true) :
    y ∈ axisNodes d c .descendant ↔
      ∃ x ∈ axisNodes d c .descendantOrSelf, y ∈ axisNodes d x .child := by
  rw [Scan.axisNodes_descendantOrSelf h hc]
  simp only [axisNodes, nodesBelow, List.mem_filter, h.mem_nodes, Bool.and_eq_true, bne_iff_ne,
    Bool.or_eq_true, beq_iff_eq, List.contains_iff_mem]
  constructor
  · rintro ⟨hy, hattr, hmem⟩
    obtain ⟨p, hp⟩ : ∃ p, d.parent? y = some p := by
      apply Option.ne_none_iff_exists'.1
      intro hnone
      rw [Document.ancestors_of_none hnone] at hmem
      cases hmem
    rw [h.ancestors_of_some hp, List.mem_cons] at hmem
    refine ⟨p, ⟨h.isNode_parent hp, ?_, hmem.imp_left Eq.symm⟩, hy, hattr, hp⟩
    rw [h.parent_element hp]
    exact fun heq => NodeKind.noConfusion (Option.some.inj heq)
  · rintro ⟨p, ⟨-, -, hmem⟩, hy, hattr, hp⟩
    rw [h.ancestors_of_some hp, List.mem_cons]
    exact ⟨hy, hattr, hmem.imp_left Eq.symm⟩

/-- One step to the nodes below finds the children of a subtree. -/
theorem mem_depthFirst_between (h : d.Sound) (hc : d.isNode c = true)
    (hroot : step.fromRoot = false) (haxis : step.axis = .child) :
    y ∈ depthFirst d [.between, step] c ↔
      y ∈ depthFirst d [{ step with axis := .descendant }] c := by
  have hfirst : ∀ x, x ∈ candidates d .between c ↔ x ∈ axisNodes d c .descendantOrSelf := by
    intro x
    rw [mem_candidates h hc, Step.between, Cursor.accepts_any]
    exact and_iff_left_of_imp fun hx => isNode_of_mem_axisNodes h hc hx
  have hsecond : ∀ x ∈ axisNodes d c .descendantOrSelf, (y ∈ depthFirst d [step] x ↔
      y ∈ axisNodes d x .child ∧ accepts d step y = true) := by
    intro x hx
    rw [depthFirst_singleton, mem_candidates h (isNode_of_mem_axisNodes h hc hx), hroot, haxis]
    rfl
  have hbelow : y ∈ depthFirst d [{ step with axis := .descendant }] c ↔
      y ∈ axisNodes d c .descendant ∧ accepts d step y = true := by
    rw [depthFirst_singleton, mem_candidates h hc, hroot]
    rfl
  rw [hbelow, mem_descendant_iff h hc, depthFirst, List.mem_flatMap]
  calc (∃ x ∈ candidates d .between c, y ∈ depthFirst d [step] x)
      ↔ ∃ x ∈ axisNodes d c .descendantOrSelf, y ∈ axisNodes d x .child ∧
          accepts d step y = true :=
        exists_congr fun x => (and_congr_left' (hfirst x)).trans (and_congr_right (hsecond x))
    _ ↔ (∃ x ∈ axisNodes d c .descendantOrSelf, y ∈ axisNodes d x .child) ∧
          accepts d step y = true := by simp only [← and_assoc, exists_and_right]

/-- The same for steps that set out from the root. -/
theorem mem_depthFirst_below (h : d.Sound) (hc : d.isNode c = true) (hroot : step.fromRoot = false)
    (haxis : step.axis = .child) (fromRoot : Bool) :
    y ∈ depthFirst d [{ Step.between with fromRoot }, step] c ↔
      y ∈ depthFirst d [{ step with axis := .descendant, fromRoot }] c := by
  have hstep : { step with axis := .descendant } =
      { step with axis := .descendant, fromRoot := false } := by rw [← hroot]
  rw [depthFirst_origin h _ _ hc, depthFirst_origin h _ _ hc]
  have horigin := mem_depthFirst_between (y := y) h
    (Cursor.isNode_origin h { step with axis := .descendant, fromRoot } hc) hroot haxis
  rwa [hstep] at horigin

/-! ## Paths -/

/-- If one of two sequences of steps finds the same nodes as the other, paths that end with them
select the same nodes. -/
theorem exists_selects (h : d.Sound) (hx : d.isNode x = true) {text text' : String}
    (front : List Step) {back back' : List Step} (hwrites : Writes text.toList (front ++ back))
    (hwrites' : Writes text'.toList (front ++ back'))
    (hback : ∀ c, d.isNode c = true → ∀ y, y ∈ depthFirst d back c ↔ y ∈ depthFirst d back' c) :
    ∃ l m, Selects d text x l ∧ Selects d text' x m ∧ l.Nodup ∧ m.Nodup ∧ ∀ y, y ∈ l ↔ y ∈ m := by
  refine ⟨_, _, selects_of_writes h hx hwrites, selects_of_writes h hx hwrites', nodup_eraseDups _,
    nodup_eraseDups _, fun y => ?_⟩
  simp only [List.mem_eraseDups, depthFirst_append, List.mem_flatMap]
  exact exists_congr fun c => and_congr_right fun hc =>
    hback c (isNode_of_mem_depthFirst h hx hc) y

/-- **Two slashes stand for a step to the nodes below.** Behind a path that does not end at a slash,
or at the start of a text, two slashes and a test write a path, and so do a slash, the axis of the
nodes below, and the test. Both select the same nodes, each once. -/
theorem select_of_slashes {ε : Type} {items : List (Except ε Markup.Token)}
    (h : Document.ofItems items = .ok d) (hsize : d.recordCount < UInt32.size)
    (hx : d.isNode x = true) {p t : String}
    (hp : p = "" ∨ ∃ path, Path.compile p = .ok path ∧ p.toList.getLast? ≠ some '/')
    (ht : Test .child t.toList step) (hself : t ≠ ".") (hparent : t ≠ "..") :
    ∃ l m, Selects d (p ++ "//" ++ t) x l ∧ Selects d (p ++ "/descendant::" ++ t) x m ∧
      l.Nodup ∧ m.Nodup ∧ ∀ y, y ∈ l ↔ y ∈ m := by
  have hd := Document.sound_of_items h hsize
  have hself' : t.toList ≠ ['.'] := fun heq => hself (String.toList_inj.1 heq)
  have hparent' : t.toList ≠ ['.', '.'] := fun heq => hparent (String.toList_inj.1 heq)
  have hslash := segments_slash_test ht hself' hparent'
  have hbelow := segments_below ht
  rcases hp with rfl | ⟨path, hpath, hlast⟩
  · have hwrites : Writes ("" ++ "//" ++ t).toList
        [{ Step.between with fromRoot := true }, step] := by
      simpa using Writes.fromRoot (List.cons_ne_nil _ _) hslash
    have hwrites' : Writes ("" ++ "/descendant::" ++ t).toList
        [{ step with axis := .descendant, fromRoot := true }] := by
      simpa using Writes.fromRoot (List.append_ne_nil_of_left_ne_nil (by decide) _) hbelow
    exact exists_selects hd hx [] hwrites hwrites' fun c hc y =>
      mem_depthFirst_below hd hc ht.fromRoot_eq_false ht.axis_eq true
  · have hfront := (Path.compile_eq_ok_iff.1 hpath).2
    have hwrites : Writes (p ++ "//" ++ t).toList (path.steps ++ [.between, step]) := by
      simpa using writes_append_segments hfront hlast hslash
    have hwrites' : Writes (p ++ "/descendant::" ++ t).toList
        (path.steps ++ [{ step with axis := .descendant }]) := by
      simpa using writes_append_segments hfront hlast hbelow
    exact exists_selects hd hx path.steps hwrites hwrites' fun c hc y =>
      mem_depthFirst_between hd hc ht.fromRoot_eq_false ht.axis_eq

theorem select_of_sampleSlashes : ∃ d, Document.ofItems Document.sampleItems = .ok d ∧
    d.recordCount < UInt32.size ∧ d.isNode 0 = true ∧
    Path.compile aroundAll.text = .ok aroundAll ∧ aroundAll.text.toList.getLast? ≠ some '/' ∧
    Test .child "node()".toList ⟨.child, .any, none, false⟩ ∧
    (∃ l m, Selects d (aroundAll.text ++ "//" ++ "node()") 0 l ∧
      Selects d (aroundAll.text ++ "/descendant::" ++ "node()") 0 m ∧ l.Nodup ∧ m.Nodup ∧
      ∀ y, y ∈ l ↔ y ∈ m) ∧
    ∃ l m, Selects d ("" ++ "//" ++ "node()") 0 l ∧
      Selects d ("" ++ "/descendant::" ++ "node()") 0 m ∧ l.Nodup ∧ m.Nodup ∧
      ∀ y, y ∈ l ↔ y ∈ m := by
  have h : Document.ofItems Document.sampleItems = .ok _ := rfl
  have hpath : Path.compile aroundAll.text = .ok aroundAll := by decide +kernel
  have hlast : aroundAll.text.toList.getLast? ≠ some '/' := by decide
  have ht : Test .child "node()".toList ⟨.child, .any, none, false⟩ :=
    .kind .node Axis.noConfusion .nothing
  exact ⟨_, h, by decide, by decide, hpath, hlast, ht,
    select_of_slashes h (by decide) (by decide) (.inr ⟨_, hpath, hlast⟩) ht (by decide) (by decide),
    select_of_slashes h (by decide) (by decide) (.inl rfl) ht (by decide) (by decide)⟩

end MarkupQuery.Query
