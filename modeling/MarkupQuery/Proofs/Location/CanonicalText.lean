import MarkupQuery.Proofs.Location.Language

/-!
# Canonical texts of paths

The same steps can be written in many ways: `//a`, `/descendant-or-self::node()/a` and
`//child::a/` are one path. The canonical text of steps abbreviates nothing. It names the axis of
each step, and asks for the kind of its nodes if that is not the kind that the axis selects by
itself (`Step.write`); slashes stand between the steps, and one stands in front if the first step
starts from the root (`Path.canonical`).

Every step that a segment writes is written by its canonical segment too (`Segment.canonical`), so
every path that a text writes is written by its canonical text (`Writes.canonical`). The main
statement, `Path.canonical_of_compile`, adds which steps these can be, and that texts have equal
steps exactly if their canonical texts are equal.
-/

namespace MarkupQuery.Location

open NodeTree
open String (ofList)

/-! ## Writing -/

/-- A kind test with its argument, if it has one, between its brackets. -/
def writeKindTest (word argument : List Char) : List Char :=
  word ++ '(' :: argument ++ [')']

/-- What a step asks of the nodes on its axis: a kind test, or a name test for nodes of the kind
that the axis selects by itself. -/
def Step.writeTest (s : Step) : List Char :=
  match s.kind, s.name with
  | none, _ => writeKindTest "node".toList []
  | some .text, _ => writeKindTest "text".toList []
  | some .comment, _ => writeKindTest "comment".toList []
  | some .instruction, .any => writeKindTest "processing-instruction".toList []
  | some .instruction, .name target =>
    writeKindTest "processing-instruction".toList ('"' :: target.toList ++ ['"'])
  | some .element, .any | some .attribute, .any | some .endMark, .any => ['*']
  | some .element, .name word | some .attribute, .name word | some .endMark, .name word =>
    word.toList

/-- A step with its axis in front of its test. -/
def Step.write (s : Step) : List Char :=
  s.axis.name.toList ++ ':' :: ':' :: s.writeTest

/-- The text of steps in which nothing is abbreviated. -/
def Path.canonical (steps : List Step) : String :=
  ofList ((if steps.head?.any Step.fromRoot then ['/'] else []) ++
    ['/'].intercalate (steps.map Step.write))

/-! ## Steps -/

variable {cs : List Char} {s : Step}

theorem writeTest_name (axis : Axis) (t : NameTest) (fromRoot : Bool) :
    Step.writeTest ⟨axis, t, some (if axis = .attribute then .attribute else .element), fromRoot⟩ =
      match t with
      | .any => ['*']
      | .name word => word.toList := by
  by_cases haxis : axis = .attribute
  · rw [if_pos haxis]
    cases t <;> rfl
  · rw [if_neg haxis]
    cases t <;> rfl

/-- What a test asks can be asked by its canonical text. -/
theorem Test.canonical {axis : Axis} (h : Test axis cs s) : Test axis s.writeTest s := by
  cases h with
  | name hw =>
    rw [writeTest_name]
    cases hw with
    | star => exact .name .star
    | name hne hall =>
      simp only [String.toList_ofList]
      exact .name (.name hne hall)
  | kind hw haxis hargs =>
    cases hargs with
    | nothing =>
      have htest := Test.kind hw haxis .nothing
      cases hw <;> exact htest
    | @target w _ hw' =>
      cases hw' with
      | star => exact .kind .instruction haxis .nothing
      | name hne hall =>
        change Test axis (writeKindTest _ ('"' :: (ofList w).toList ++ ['"'])) _
        rw [String.toList_ofList (l := w)]
        exact .kind .instruction haxis (.target (.name hne hall))
    | noTarget => exact .kind .instruction haxis .noTarget

/-- What a segment writes is a test on an axis, also where the segment abbreviates it. -/
theorem Segment.test (h : Segment cs s) : Test s.axis s.writeTest s := by
  cases h with
  | between => exact .kind .node (by decide) .nothing
  | atName hw =>
    have htest : Test .attribute _ _ := .name hw
    exact htest.canonical
  | self => exact .kind .node (by decide) .nothing
  | parent => exact .kind .node (by decide) .nothing
  | child h _ _ => exact h.axis_eq ▸ h.canonical
  | onAxis axis h => exact h.axis_eq ▸ h.canonical

theorem Segment.canonical (h : Segment cs s) : Segment s.write s :=
  .onAxis s.axis h.test

theorem Test.kind_eq_attribute_iff {axis : Axis} (h : Test axis cs s) :
    s.kind = some .attribute ↔ axis = .attribute := by
  cases h with
  | name hw => by_cases haxis : axis = .attribute <;> simp [haxis]
  | kind hw haxis _ => cases hw <;> simp [haxis]

/-! ## Paths -/

theorem Step.write_ne_nil (s : Step) : s.write ≠ [] :=
  List.append_ne_nil_of_right_ne_nil _ (List.cons_ne_nil _ _)

theorem Step.head?_write (s : Step) : s.write.head? ≠ some '/' := by
  obtain ⟨axis, -, -, -⟩ := s
  cases axis <;> simp [Step.write, Axis.name]

/-- Parts without slashes are the segments of the text in which slashes stand between them. -/
theorem segments_intercalate {parts : List (List Char)} (hslash : ∀ part ∈ parts, '/' ∉ part)
    (hne : ∀ part ∈ parts, part ≠ []) : segments (['/'].intercalate parts) = parts := by
  by_cases hparts : parts = []
  · rw [hparts]
    rfl
  · have hlast : parts.getLast? ≠ some [] := fun h => hne [] (List.mem_of_getLast? h) rfl
    simp only [segments, List.splitOn_intercalate '/' hslash hparts, if_neg hlast]

/-- The canonical texts of steps are the segments of their canonical text. -/
theorem forall₂_segments_write {parts : List (List Char)} {steps : List Step}
    (h : List.Forall₂ Segment parts steps) :
    List.Forall₂ Segment (segments (['/'].intercalate (steps.map Step.write))) steps := by
  have hwrite : List.Forall₂ Segment (steps.map Step.write) steps := by
    induction h with
    | nil => exact .nil
    | cons hsegment _ ih => exact .cons hsegment.canonical ih
  have hslash : ∀ part ∈ steps.map Step.write, '/' ∉ part := by
    intro part hpart
    obtain ⟨i, hi, rfl⟩ := List.getElem_of_mem hpart
    exact (List.Forall₂.get hwrite hi (by simpa using hi)).slash_not_mem
  rwa [segments_intercalate hslash (List.forall_mem_map.2 fun s _ => s.write_ne_nil)]

theorem exists_intercalate_write (s : Step) (steps : List Step) :
    ∃ cs, ['/'].intercalate ((s :: steps).map Step.write) = s.write ++ cs := by
  cases steps with
  | nil => exact ⟨[], by simp⟩
  | cons t steps =>
    rw [List.map_cons, List.map_cons, List.intercalate_cons_cons, List.append_assoc]
    exact ⟨_, rfl⟩

theorem writes_canonical_fromRoot {parts : List (List Char)} {steps : List Step}
    (h : List.Forall₂ Segment parts (s :: steps)) :
    Writes (Path.canonical ({ s with fromRoot := true } :: steps)).toList
      ({ s with fromRoot := true } :: steps) := by
  obtain ⟨cs, hcs⟩ := exists_intercalate_write s steps
  have htext : (Path.canonical ({ s with fromRoot := true } :: steps)).toList =
      '/' :: ['/'].intercalate ((s :: steps).map Step.write) := String.toList_ofList
  rw [htext]
  refine .fromRoot ?_ (forall₂_segments_write h)
  rw [hcs]
  exact List.append_ne_nil_of_left_ne_nil s.write_ne_nil cs

theorem writes_canonical_fromHere {parts : List (List Char)} {steps : List Step}
    (h : List.Forall₂ Segment parts (s :: steps)) :
    Writes (Path.canonical (s :: steps)).toList (s :: steps) := by
  obtain ⟨cs, hcs⟩ := exists_intercalate_write s steps
  have hfirst : s.fromRoot = false := fromRoot_eq_false_of_forall₂ h s List.mem_cons_self
  have htext : (Path.canonical (s :: steps)).toList =
      ['/'].intercalate ((s :: steps).map Step.write) := by
    simp [Path.canonical, hfirst]
  rw [htext]
  refine .fromHere ?_ ?_ (forall₂_segments_write h)
  · rw [hcs]
    exact List.append_ne_nil_of_left_ne_nil s.write_ne_nil cs
  · rw [hcs, List.head?_append_of_ne_nil _ s.write_ne_nil]
    exact s.head?_write

/-- Steps that a text writes are written by their canonical text. -/
theorem Writes.canonical {steps : List Step} (h : Writes cs steps) :
    Writes (Path.canonical steps).toList steps := by
  cases h with
  | root =>
    have hstar : Segment ['*'] ⟨.child, .any, some .element, false⟩ :=
      .child (.name .star) (by decide) (by decide)
    have hwrites := writes_canonical_fromRoot (.cons hstar .nil)
    exact hwrites
  | fromRoot _ hsegments => exact writes_canonical_fromRoot hsegments
  | fromHere hne _ hsegments =>
    obtain ⟨s, more, rfl⟩ := exists_cons_of_forall₂ hne hsegments
    exact writes_canonical_fromHere hsegments

/-- The kind of a step tells whether it goes to attributes. -/
theorem Writes.kind_eq_attribute_iff {steps : List Step} (h : Writes cs steps) :
    ∀ s ∈ steps, s.kind = some .attribute ↔ s.axis = .attribute := by
  have hsteps {parts : List (List Char)} {steps : List Step}
      (hsegments : List.Forall₂ Segment parts steps) :
      ∀ s ∈ steps, s.kind = some .attribute ↔ s.axis = .attribute := by
    induction hsegments with
    | nil => exact fun _ hs => (nomatch hs)
    | cons hsegment _ ih => exact List.forall_mem_cons.2 ⟨hsegment.test.kind_eq_attribute_iff, ih⟩
  cases h with
  | root => exact List.forall_mem_cons.2 ⟨by decide, fun _ hs => (nomatch hs)⟩
  | fromRoot _ hsegments =>
    obtain ⟨hfirst, hmore⟩ := List.forall_mem_cons.1 (hsteps hsegments)
    exact List.forall_mem_cons.2 ⟨hfirst, hmore⟩
  | fromHere _ _ hsegments => exact hsteps hsegments

/-- **The canonical text of a path compiles to the steps of the path.** There is a step, only the
first can start from the root, and exactly the steps along the attribute axis ask for attributes.
Two texts have equal steps exactly if the canonical texts are equal. -/
theorem Path.canonical_of_compile {text : String} {path : Path}
    (h : Path.compile text = .ok path) :
    path.steps ≠ [] ∧ (∀ s ∈ path.steps.tail, s.fromRoot = false) ∧
    (∀ s ∈ path.steps, s.kind = some .attribute ↔ s.axis = .attribute) ∧
    Path.compile (canonical path.steps) = .ok ⟨canonical path.steps, path.steps⟩ ∧
    ∀ text' path', Path.compile text' = .ok path' →
      (path.steps = path'.steps ↔ canonical path.steps = canonical path'.steps) := by
  obtain ⟨-, hwrites⟩ := Path.compile_eq_ok_iff.1 h
  refine ⟨steps_ne_nil_of_compile h, ?_, hwrites.kind_eq_attribute_iff,
    Path.compile_eq_ok_iff.2 ⟨rfl, hwrites.canonical⟩, fun text' path' h' => ?_⟩
  · obtain ⟨s, more, hsteps⟩ := List.exists_cons_of_ne_nil hwrites.ne_nil
    rw [hsteps] at hwrites ⊢
    exact hwrites.fromRoot_eq_false
  · obtain ⟨-, hwrites'⟩ := Path.compile_eq_ok_iff.1 h'
    exact ⟨congrArg canonical, fun htext => hwrites.canonical.unique (htext ▸ hwrites'.canonical)⟩

/-- A path with every abbreviation: two slashes, an element named by a full stop, a star for a
target, an attribute named like a kind test, and a slash at the end. -/
def Path.abbreviated : Path :=
  ⟨"//a/child::./processing-instruction(\"*\")/../@node/",
    [⟨.descendantOrSelf, .any, none, true⟩, ⟨.child, .name "a", some .element, false⟩,
      ⟨.child, .name ".", some .element, false⟩, ⟨.child, .any, some .instruction, false⟩,
      ⟨.parent, .any, none, false⟩, ⟨.attribute, .name "node", some .attribute, false⟩]⟩

theorem Path.canonical_of_abbreviated :
    let text := "/descendant-or-self::node()/child::a/child::./child::processing-instruction()" ++
      "/parent::node()/attribute::node"
    let other := "/descendant-or-self::node()/a/child::./processing-instruction()/../@node"
    Path.compile abbreviated.text = .ok abbreviated ∧ canonical abbreviated.steps = text ∧
    (∀ s ∈ abbreviated.steps.tail, s.fromRoot = false) ∧
    (∀ s ∈ abbreviated.steps, s.kind = some .attribute ↔ s.axis = .attribute) ∧
    Path.compile text = .ok ⟨text, abbreviated.steps⟩ ∧
    Path.compile other = .ok ⟨other, abbreviated.steps⟩ ∧
    ∀ text' path', Path.compile text' = .ok path' →
      (abbreviated.steps = path'.steps ↔ text = canonical path'.steps) := by
  have h : Path.compile abbreviated.text = .ok abbreviated := by decide +kernel
  obtain ⟨-, htail, hkinds, hcanonical, hsame⟩ := canonical_of_compile h
  exact ⟨h, by decide, htail, hkinds, hcanonical, by decide +kernel, hsame⟩

end MarkupQuery.Location
