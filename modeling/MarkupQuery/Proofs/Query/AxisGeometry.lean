import MarkupQuery.Proofs.Query.Composition
import MarkupQuery.Proofs.Query.DocumentOrder

/-!
# How the axes lie to each other

Whether a node is on an axis of another is told by the elements around the two and by their order in
the document (`Lies`, `mem_axisNodes_iff_lies`). Read from the side of the other node the same words
describe another axis, the converse (`lies_converse`). Two nodes lie to each other in exactly one of
four ways: one is around the other or the same, in front of it, below it, or behind it
(`lies_cases`, `nodup_fourWays`).

The main statement, `geometry_of_axes`, is about what paths of one step select: these four axes
share out all nodes but the attributes, every axis has its converse, and along each axis the nodes
come in the order of the document or against it.
-/

namespace MarkupQuery.Location

/-- The axis that leads back, between nodes that are no attributes. From an attribute the way back
is to the element around it. -/
def Axis.converse : Axis → Axis
  | .self => .self
  | .child => .parent
  | .parent => .child
  | .attribute => .parent
  | .descendant => .ancestor
  | .ancestor => .descendant
  | .descendantOrSelf => .ancestorOrSelf
  | .ancestorOrSelf => .descendantOrSelf
  | .following => .preceding
  | .preceding => .following
  | .followingSibling => .precedingSibling
  | .precedingSibling => .followingSibling

theorem Axis.converse_ne_attribute (axis : Axis) : axis.converse ≠ .attribute := by
  cases axis <;> exact Axis.noConfusion

/-- An axis, and a test that every node passes. -/
theorem compile_axis {axis : Axis} (haxis : axis ≠ .attribute) :
    Path.compile (axis.name ++ "::node()") =
      .ok ⟨axis.name ++ "::node()", [⟨axis, .any, none, false⟩]⟩ := by
  rw [Path.compile_eq_ok_iff]
  have htest : Test axis "node()".toList ⟨axis, .any, none, false⟩ :=
    .kind .node haxis .nothing
  have hsegment := Segment.onAxis axis htest
  have hname := axis.word_name
  have htext : (axis.name ++ "::node()").toList =
      axis.name.toList ++ ':' :: ':' :: "node()".toList := by simp
  have hne := List.append_ne_nil_of_left_ne_nil hname.ne_nil (':' :: ':' :: "node()".toList)
  rw [htext]
  refine ⟨rfl, .fromHere hne ?_ ?_⟩
  · exact fun hhead => hsegment.slash_not_mem (List.mem_of_mem_head? hhead)
  · rw [segments_of_not_mem hne hsegment.slash_not_mem]
    exact .cons hsegment .nil

end MarkupQuery.Location

namespace MarkupQuery.Query

open NodeTree Location

variable {d : Document} {axis : Axis} {x y : NodeId}

/-! ## Two nodes -/

/-- How a node `y` that is no attribute lies to a node `x` if it is on an axis of `x`. -/
def Lies (d : Document) (x y : NodeId) : Axis → Prop
  | .self => y = x
  | .parent => d.parent? x = some y
  | .child => d.parent? y = some x
  | .attribute => False
  | .ancestor => y ∈ d.ancestors x
  | .descendant => x ∈ d.ancestors y
  | .ancestorOrSelf => y = x ∨ y ∈ d.ancestors x
  | .descendantOrSelf => y = x ∨ x ∈ d.ancestors y
  | .following => x < y ∧ x ∉ d.ancestors y
  | .preceding => y < x ∧ y ∉ d.ancestors x
  | .followingSibling => d.kind? x ≠ some .attribute ∧ d.parent? y = d.parent? x ∧ x < y
  | .precedingSibling => d.kind? x ≠ some .attribute ∧ d.parent? y = d.parent? x ∧ y < x

theorem mem_axisNodes_iff_lies (h : d.Sound) (hx : d.isNode x = true) (hy : d.isNode y = true)
    (hattr : d.kind? y ≠ some .attribute) : y ∈ axisNodes d x axis ↔ Lies d x y axis := by
  cases axis with
  | descendantOrSelf =>
    rw [Scan.axisNodes_descendantOrSelf h hx]
    simp [Lies, h.mem_nodes, hy, hattr]
  | followingSibling | precedingSibling =>
    simp [Lies, axisNodes, mem_siblingNodes h, hy, hattr, and_assoc]
  | _ => simp [Lies, axisNodes, nodesBelow, h.mem_nodes, hy, hattr]

/-- Seen from the other node, two nodes lie to each other along the converse of the axis. -/
theorem lies_converse (hx : d.kind? x ≠ some .attribute) (hy : d.kind? y ≠ some .attribute)
    (haxis : axis ≠ .attribute) : Lies d y x axis.converse ↔ Lies d x y axis := by
  cases axis with
  | «attribute» => exact absurd rfl haxis
  | self => exact eq_comm
  | ancestorOrSelf | descendantOrSelf => exact or_congr_left eq_comm
  | followingSibling | precedingSibling =>
    exact and_congr (iff_of_true hy hx) (and_congr_left' eq_comm)
  | _ => exact Iff.rfl

/-! ## The four ways -/

/-- The nodes around a node, itself included, and those in front of it; then those below it and
those behind it. -/
def fourWays (d : Document) (x : NodeId) : List NodeId :=
  axisNodes d x .ancestorOrSelf ++ axisNodes d x .preceding ++
    (axisNodes d x .descendant ++ axisNodes d x .following)

/-- Two nodes lie to each other in one of four ways. -/
theorem lies_cases (d : Document) (x y : NodeId) :
    Lies d x y .ancestorOrSelf ∨ Lies d x y .preceding ∨ Lies d x y .descendant ∨
      Lies d x y .following := by
  by_cases haround : Lies d x y .ancestorOrSelf
  · exact .inl haround
  · obtain ⟨hne, hyx⟩ := not_or.1 haround
    rcases UInt32.lt_or_lt_of_ne hne with hlt | hlt
    · exact .inr (.inl ⟨hlt, hyx⟩)
    · by_cases hxy : x ∈ d.ancestors y
      · exact .inr (.inr (.inl hxy))
      · exact .inr (.inr (.inr ⟨hlt, hxy⟩))

/-- Below a node, behind it and in front of it there are no attributes. -/
theorem not_attribute_of_mem (h : d.Sound) (hy : y ∈ axisNodes d x axis)
    (haxis : axis = .descendant ∨ axis = .following ∨ axis = .preceding) :
    d.isNode y = true ∧ d.kind? y ≠ some .attribute := by
  rcases haxis with rfl | rfl | rfl
  all_goals
    simp only [axisNodes, nodesBelow, List.mem_reverse, List.mem_filter, h.mem_nodes,
      Bool.and_eq_true, bne_iff_ne] at hy
    exact ⟨hy.1, hy.2.1⟩

theorem lies_of_mem (h : d.Sound) (hx : d.isNode x = true) (hy : y ∈ axisNodes d x axis)
    (haxis : axis = .descendant ∨ axis = .following ∨ axis = .preceding) : Lies d x y axis := by
  obtain ⟨hnode, hattr⟩ := not_attribute_of_mem h hy haxis
  exact (mem_axisNodes_iff_lies h hx hnode hattr).1 hy

/-- The four ways lead to all nodes but the attributes, and to the node itself. -/
theorem mem_fourWays (h : d.Sound) (hx : d.isNode x = true) : y ∈ fourWays d x ↔
    d.isNode y = true ∧ (y = x ∨ d.kind? y ≠ some .attribute) := by
  simp only [fourWays, List.mem_append]
  constructor
  · rintro ((hy | hy) | hy | hy)
    · rcases List.mem_cons.1 hy with rfl | hy
      · exact ⟨hx, .inl rfl⟩
      · have helement := h.element_of_mem_ancestors hy
        exact ⟨Document.isNode_iff.2 ⟨_, helement, by decide⟩, .inr (by simp [helement])⟩
    · exact (not_attribute_of_mem h hy (by simp)).imp_right .inr
    · exact (not_attribute_of_mem h hy (by simp)).imp_right .inr
    · exact (not_attribute_of_mem h hy (by simp)).imp_right .inr
  · rintro ⟨hy, rfl | hattr⟩
    · exact .inl (.inl List.mem_cons_self)
    · simp only [mem_axisNodes_iff_lies h hx hy hattr, or_assoc]
      exact lies_cases d x y

/-- No node lies in two of the four ways: what is around the node or in front of it is not behind
it, and the rest is told apart by the elements around it. -/
theorem nodup_fourWays (h : d.Sound) (hx : d.isNode x = true) : (fourWays d x).Nodup := by
  have hle : ∀ y ∈ axisNodes d x .ancestorOrSelf ++ axisNodes d x .preceding, y ≤ x := by
    intro y hy
    rcases List.mem_append.1 hy with hy | hy
    · rcases List.mem_cons.1 hy with rfl | hy
      · exact UInt32.le_refl _
      · exact UInt32.le_of_lt (h.lt_of_mem_ancestors hy)
    · exact UInt32.le_of_lt (lies_of_mem h hx hy (by simp)).1
  have hlt : ∀ y ∈ axisNodes d x .descendant ++ axisNodes d x .following, x < y := by
    intro y hy
    rcases List.mem_append.1 hy with hy | hy
    · exact h.lt_of_mem_ancestors (lies_of_mem h hx hy (by simp))
    · exact (lies_of_mem h hx hy (by simp)).1
  have hfront : List.Disjoint (axisNodes d x .ancestorOrSelf) (axisNodes d x .preceding) := by
    intro y hy hy'
    obtain ⟨hyx, hnot⟩ := lies_of_mem h hx hy' (by simp)
    rcases List.mem_cons.1 hy with rfl | hy
    · exact UInt32.lt_irrefl _ hyx
    · exact hnot hy
  have hbehind : List.Disjoint (axisNodes d x .descendant) (axisNodes d x .following) :=
    fun y hy hy' => (lies_of_mem h hx hy' (by simp)).2 (lies_of_mem h hx hy (by simp))
  have hnodup := fun axis => nodup_axisNodes h axis hx
  exact ((hnodup _).append (hnodup _) hfront).append ((hnodup _).append (hnodup _) hbehind)
    fun y hy hy' => UInt32.not_lt.2 (hle y hy) (hlt y hy')

/-! ## Paths of one step -/

theorem selects_axis (h : d.Sound) (hx : d.isNode x = true) (haxis : axis ≠ .attribute) :
    Selects d (axis.name ++ "::node()") x (axisNodes d x axis) := by
  refine ⟨_, compile_axis haxis, ?_⟩
  rw [select?_eq_visited h rfl hx, Cursor.visited, if_neg Bool.false_ne_true,
    List.filter_eq_self.2 fun y hy => ?_]
  rw [Cursor.accepts_any]
  exact isNode_of_mem_axisNodes h hx hy

/-- **How the axes lie to each other.** From every node, the elements around it, the nodes in front
of it, below it and behind it are all nodes but the attributes, and the node itself, each once. A
node that is no attribute is on an axis of another exactly if the other is on the converse axis of
the first. What a path of one step selects ascends along the forward axes and descends along the
others, whatever the tests of the step. -/
theorem geometry_of_axes {ε : Type} {items : List (Except ε Markup.Token)}
    (h : Document.ofItems items = .ok d) (hsize : d.recordCount < UInt32.size) :
    (∀ x : NodeId, d.isNode x = true → ∃ around before below behind,
      Selects d "ancestor-or-self::node()" x around ∧ Selects d "preceding::node()" x before ∧
      Selects d "descendant::node()" x below ∧ Selects d "following::node()" x behind ∧
      (around ++ before ++ (below ++ behind)).Nodup ∧
      ∀ y : NodeId, y ∈ around ++ before ++ (below ++ behind) ↔
        d.isNode y = true ∧ (y = x ∨ d.kind? y ≠ some .attribute)) ∧
    (∀ (axis : Axis) (x y : NodeId), axis ≠ .attribute → d.isNode x = true →
      d.kind? x ≠ some .attribute → d.isNode y = true → d.kind? y ≠ some .attribute →
      ∃ there back, Selects d (axis.name ++ "::node()") x there ∧
        Selects d (axis.converse.name ++ "::node()") y back ∧ (y ∈ there ↔ x ∈ back)) ∧
    ∀ (text : String) (path : Path) (step : Step) (x : NodeId),
      Path.compile text = .ok path → path.steps = [step] → d.isNode x = true →
      ∃ l, Selects d text x l ∧ if step.axis.isForward then l.Pairwise (· < ·)
        else l.Pairwise (· > ·) := by
  have hd := Document.sound_of_items h hsize
  refine ⟨fun x hx => ?_, fun axis x y haxis hx hxattr hy hyattr => ?_,
    fun text path step x hpath hsteps hx => ?_⟩
  · have hselects : ∀ axis ≠ Axis.attribute,
        Selects d (axis.name ++ "::node()") x (axisNodes d x axis) :=
      fun axis => selects_axis hd hx
    exact ⟨_, _, _, _, hselects .ancestorOrSelf (by decide), hselects .preceding (by decide),
      hselects .descendant (by decide), hselects .following (by decide), nodup_fourWays hd hx,
      fun y => mem_fourWays hd hx⟩
  · refine ⟨_, _, selects_axis hd hx haxis, selects_axis hd hy axis.converse_ne_attribute, ?_⟩
    rw [mem_axisNodes_iff_lies hd hx hy hyattr, mem_axisNodes_iff_lies hd hy hx hxattr,
      lies_converse hxattr hyattr haxis]
  · refine ⟨_, ⟨path, hpath, select?_eq_visited hd hsteps hx⟩, ?_⟩
    split
    · rename_i hforward
      exact (pairwise_axisNodes hd hforward (Cursor.isNode_origin hd step hx)).filter _
    · rename_i hreverse
      exact (pairwise_axisNodes_reverse hd (eq_false_of_ne_true hreverse) _).filter _

/-- All nodes below a node but the attributes. -/
def everythingBelow : Path :=
  ⟨"descendant::node()", [⟨.descendant, .any, none, false⟩]⟩

theorem geometry_of_sampleAxes : ∃ d, Document.ofItems Document.sampleItems = .ok d ∧
    d.recordCount < UInt32.size ∧ d.isNode 2 = true ∧ d.kind? 2 = some .attribute ∧
    (∃ around before below behind,
      Selects d "ancestor-or-self::node()" 2 around ∧ Selects d "preceding::node()" 2 before ∧
      Selects d "descendant::node()" 2 below ∧ Selects d "following::node()" 2 behind ∧
      (around ++ before ++ (below ++ behind)).Nodup ∧
      ∀ y : NodeId, y ∈ around ++ before ++ (below ++ behind) ↔
        d.isNode y = true ∧ (y = 2 ∨ d.kind? y ≠ some .attribute)) ∧
    (∃ there back, Selects d "following::node()" 3 there ∧ Selects d "preceding::node()" 4 back ∧
      (4 ∈ there ↔ 3 ∈ back)) ∧
    ∃ l, Selects d "descendant::node()" 1 l ∧ l.Pairwise (· < ·) := by
  have h : Document.ofItems Document.sampleItems = .ok _ := rfl
  have hpath : Path.compile everythingBelow.text = .ok everythingBelow := by decide +kernel
  obtain ⟨hways, hconverse, horder⟩ := geometry_of_axes h (by decide)
  exact ⟨_, h, by decide, by decide, by decide, hways 2 (by decide),
    hconverse .following 3 4 (by decide) (by decide) (by decide) (by decide) (by decide),
    horder _ _ _ 1 hpath rfl (by decide)⟩

end MarkupQuery.Query
