import MarkupQuery.Proofs.Query.Composition
import MarkupQuery.Proofs.Query.DocumentOrder

/-!
# Paths that reach no node twice

A walk keeps a table of the nodes that it has given, because a search can reach a node from several
contexts. A walk that forgets the table answers with the whole enumeration, repetitions included
(`answers_forgetfulCall`).

On some paths there are no repetitions. A node has one element around it, so along the axes that
lead one level down no node is reached from two contexts (`eq_of_keepsApart`); and of the elements
around a node only one lies at a given depth, so the same holds of everything below contexts of one
depth (`eq_of_goesBelow`). Paths that go down level by level, then below all contexts at once, and
then only to the attributes, are direct (`isDirect`).

The main statement, `answers_of_direct`, is that a walk along a direct path does not need its table,
and that its answers ascend.
-/

namespace MarkupQuery.Query

open NodeTree Location

variable {d : Document} {steps : List Step} {x y z : NodeId}

/-! ## Walks that forget -/

namespace Walk

/-- A call on a walk that forgets what it has given. -/
def forgetfulCall (w : Walk) : Option (Option NodeId × Walk) :=
  w.advance.map fun next => (next.current, { next with seen := w.seen })

/-- A walk that has noted no result has still to reach the nodes of a list, repetitions included. -/
structure Reaches (w : Walk) (l : List NodeId) : Prop where
  sound : w.document.Sound
  size_seen : w.seen.size = w.document.recordCount
  unseen : ∀ y, w.document.isNode y = true → unseen w.seen y = true
  pending : Pending w.document w.path.steps w.trail l

end Walk

theorem isNode_of_mem_pending (h : d.Sound) {trail : List Cursor} {l : List NodeId}
    (ht : Pending d steps trail l) : ∀ y ∈ l, d.isNode y = true := by
  induction ht with
  | done => exact fun _ hy => (nomatch hy)
  | under _ _ hl _ ih =>
    intro y hy
    rcases List.mem_append.1 hy with hy | hy
    · exact ih y hy
    · obtain ⟨x, hx, hy⟩ := List.mem_flatMap.1 hy
      exact isNode_of_mem_depthFirst h (hl x hx) hy

namespace Walk

/-- A call that forgets gives the first result, whether it was given before or not. -/
theorem Reaches.exists_forgetfulCall {w : Walk} {l : List NodeId} (h : w.Reaches l) :
    ∃ w', w.forgetfulCall = some (l.head?, w') ∧ w'.Reaches l.tail := by
  obtain ⟨document, path, trail, seen, current⟩ := w
  obtain ⟨hd, hseen, hunseen, hp⟩ := h
  dsimp only at hd hseen hunseen hp
  have hnode := isNode_of_mem_pending hd hp
  have hfinds := finds_resume hd hseen hp
  simp only [forgetfulCall, advance]
  cases ho : resume document seen path.steps trail with
  | astray =>
    rw [ho] at hfinds
    cases hfinds
  | exhausted =>
    rw [ho] at hfinds
    have hnil : l = [] := List.eq_nil_iff_forall_not_mem.2 fun y hy =>
      Bool.false_ne_true ((hfinds.all_seen y hy).symm.trans (hunseen y (hnode y hy)))
    rw [hnil]
    exact ⟨_, rfl, hd, hseen, hunseen, .done⟩
  | found x trail =>
    rw [ho] at hfinds
    cases hfinds with
    | @found _ _ front rest hfront hx ht =>
      have hnil : front = [] := List.eq_nil_iff_forall_not_mem.2 fun y hy =>
        Bool.false_ne_true ((hfront y hy).symm.trans
          (hunseen y (hnode y (List.mem_append_left _ hy))))
      rw [hnil]
      exact ⟨_, rfl, hd, hseen, hunseen, ht⟩

theorem reaches_start (h : d.Sound) (path : Path) (hsteps : path.steps ≠ [])
    (hx : d.isNode x = true) : (start d path x).Reaches (depthFirst d path.steps x) where
  sound := h
  size_seen := Array.size_replicate
  unseen _ hy := unseen_start path x hy
  pending := pending_start h path hsteps hx

end Walk

/-! ## Direct paths -/

/-- The axes along which no node is reached from two contexts. -/
def keepsApart : Axis → Bool
  | .self | .child | .attribute => true
  | _ => false

/-- The axes along which no node is reached from two contexts of one depth. -/
def goesBelow : Axis → Bool
  | .descendant | .descendantOrSelf => true
  | _ => false

/-- The axes that lead to the context or its attributes. -/
def staysPut : Axis → Bool
  | .self | .attribute => true
  | _ => false

/-- First steps down level by level, then perhaps one step to everything below, then steps that stay
there or go to attributes. -/
def isDirect : List Step → Bool
  | [] => true
  | step :: steps =>
    keepsApart step.axis && isDirect steps ||
      goesBelow step.axis && steps.all fun s => staysPut s.axis

theorem keepsApart_of_staysPut {axis : Axis} (h : staysPut axis = true) :
    keepsApart axis = true := by
  match axis with
  | .self | .attribute => rfl

theorem keepsOrder_of_staysPut {axis : Axis} (h : staysPut axis = true) :
    keepsOrder axis = true := by
  match axis with
  | .self | .attribute => rfl

theorem keepsLevel_of_keepsApart {axis : Axis} (h : keepsApart axis = true) :
    keepsLevel axis = true := by
  match axis with
  | .self | .child | .attribute => rfl

theorem isForward_of_goesBelow {axis : Axis} (h : goesBelow axis = true) :
    axis.isForward = true := by
  match axis with
  | .descendant | .descendantOrSelf => rfl

theorem isDirect_cons {step : Step} : isDirect (step :: steps) = true ↔
    keepsApart step.axis = true ∧ isDirect steps = true ∨
      goesBelow step.axis = true ∧ ∀ s ∈ steps, staysPut s.axis = true := by
  rw [isDirect, Bool.or_eq_true, Bool.and_eq_true, Bool.and_eq_true, List.all_eq_true]

/-- A direct path is steady, so it keeps to the order of the document. -/
theorem isSteady_of_isDirect (h : isDirect steps = true) : isSteady steps = true := by
  induction steps with
  | nil => rfl
  | cons step steps ih =>
    rw [isSteady, Bool.or_eq_true, Bool.and_eq_true, Bool.and_eq_true, List.all_eq_true]
    rcases isDirect_cons.1 h with ⟨happart, hsteps⟩ | ⟨hbelow, hsteps⟩
    · exact .inl ⟨keepsLevel_of_keepsApart happart, ih hsteps⟩
    · exact .inr ⟨isForward_of_goesBelow hbelow, fun s hs => keepsOrder_of_staysPut (hsteps s hs)⟩

/-! ## Contexts that share no node -/

theorem eq_of_keepsApart {axis : Axis} (haxis : keepsApart axis = true)
    (hx : z ∈ axisNodes d x axis) (hy : z ∈ axisNodes d y axis) : x = y := by
  match axis with
  | .self => exact (List.mem_singleton.1 hx).symm.trans (List.mem_singleton.1 hy)
  | .child | .attribute =>
    simp only [axisNodes, List.mem_filter, Bool.and_eq_true, beq_iff_eq] at hx hy
    exact Option.some.inj (hx.2.2.symm.trans hy.2.2)

/-- Of the elements around a node, one lies at a given depth. -/
theorem eq_of_mem_ancestors (h : d.Sound) (hx : x ∈ d.ancestors z) (hy : y ∈ d.ancestors z)
    (hdepth : depth d x = depth d y) : x = y := by
  have hlength : (x :: d.ancestors x).length = (y :: d.ancestors y).length :=
    congrArg Nat.succ hdepth
  have hsuffix := List.suffix_of_suffix_length_le (ancestors_suffix h hx) (ancestors_suffix h hy)
    hlength.le
  exact (List.cons.inj (hsuffix.eq_of_length hlength)).1

theorem mem_descendantOrSelf (hz : z ∈ axisNodes d x .descendantOrSelf) :
    z = x ∨ x ∈ d.ancestors z := by
  rw [axisNodes] at hz
  split at hz
  · cases hz
  · refine (List.mem_cons.1 hz).imp_right fun hz => ?_
    rw [nodesBelow, List.mem_filter, Bool.and_eq_true, List.contains_iff_mem] at hz
    exact hz.2.2

theorem eq_of_goesBelow (h : d.Sound) {axis : Axis} (haxis : goesBelow axis = true)
    (hdepth : depth d x = depth d y) (hx : z ∈ axisNodes d x axis)
    (hy : z ∈ axisNodes d y axis) : x = y := by
  match axis with
  | .descendant =>
    simp only [axisNodes, nodesBelow, List.mem_filter, Bool.and_eq_true, List.contains_iff_mem]
      at hx hy
    exact eq_of_mem_ancestors h hx.2.2 hy.2.2 hdepth
  | .descendantOrSelf =>
    rcases mem_descendantOrSelf hx with rfl | hxz
    · rcases mem_descendantOrSelf hy with rfl | hyz
      · rfl
      · exact absurd hdepth (depth_lt h hyz).ne'
    · rcases mem_descendantOrSelf hy with rfl | hyz
      · exact absurd hdepth (depth_lt h hxz).ne
      · exact eq_of_mem_ancestors h hxz hyz hdepth

/-! ## Searches -/

/-- Steps from different contexts that share no node reach different nodes. -/
theorem nodup_flatMap_candidates (h : d.Sound) {step : Step} (hroot : step.fromRoot = false)
    {l : List NodeId} (hl : l.Nodup) (hnode : ∀ x ∈ l, d.isNode x = true)
    (heq : ∀ x ∈ l, ∀ y ∈ l, ∀ z, z ∈ axisNodes d x step.axis → z ∈ axisNodes d y step.axis →
      x = y) : (l.flatMap (candidates d step)).Nodup := by
  refine List.nodup_flatMap.2 ⟨fun x hx => ?_, hl.imp_of_mem fun {x y} hx hy hne z hzx hzy => ?_⟩
  · rw [candidates_eq h step (hnode x hx)]
    exact (Cursor.visits_fresh h step (hnode x hx)).2.nodup
  · rw [mem_candidates h (hnode x hx), hroot] at hzx
    rw [mem_candidates h (hnode y hy), hroot] at hzy
    exact hne (heq x hx y hy z hzx.1 hzy.1)

theorem nodup_depthFirst_of_staysPut (h : d.Sound)
    (hsteps : ∀ s ∈ steps, staysPut s.axis = true) (hroot : ∀ s ∈ steps, s.fromRoot = false)
    {l : List NodeId} (hl : l.Nodup) (hnode : ∀ x ∈ l, d.isNode x = true) :
    (l.flatMap (depthFirst d steps)).Nodup := by
  induction steps generalizing l with
  | nil =>
    rwa [flatMap_depthFirst_nil]
  | cons step steps ih =>
    obtain ⟨hstep, hsteps⟩ := List.forall_mem_cons.1 hsteps
    obtain ⟨hfrom, hroot⟩ := List.forall_mem_cons.1 hroot
    rw [flatMap_depthFirst_cons]
    refine ih hsteps hroot (nodup_flatMap_candidates h hfrom hl hnode fun x _ y _ z => ?_)
      (isNode_of_mem_flatMap h hnode)
    exact eq_of_keepsApart (keepsApart_of_staysPut hstep)

theorem nodup_depthFirst_of_isDirect (h : d.Sound) (hdirect : isDirect steps = true)
    (hroot : ∀ s ∈ steps, s.fromRoot = false) {l : List NodeId} (hl : l.Nodup)
    (hlevel : Level d l) (hnode : ∀ x ∈ l, d.isNode x = true) :
    (l.flatMap (depthFirst d steps)).Nodup := by
  induction steps generalizing l with
  | nil =>
    rwa [flatMap_depthFirst_nil]
  | cons step steps ih =>
    obtain ⟨hfrom, hroot⟩ := List.forall_mem_cons.1 hroot
    have hnext : ∀ y ∈ l.flatMap (candidates d step), d.isNode y = true :=
      isNode_of_mem_flatMap h hnode
    rw [flatMap_depthFirst_cons]
    rcases isDirect_cons.1 hdirect with ⟨hstep, hsteps⟩ | ⟨hstep, hsteps⟩
    · refine ih hsteps hroot ?_ (level_flatMap h (keepsLevel_of_keepsApart hstep) hlevel hnode)
        hnext
      exact nodup_flatMap_candidates h hfrom hl hnode fun x _ y _ z => eq_of_keepsApart hstep
    · refine nodup_depthFirst_of_staysPut h hsteps hroot ?_ hnext
      exact nodup_flatMap_candidates h hfrom hl hnode fun x hx y hy z =>
        eq_of_goesBelow h hstep (hlevel x hx y hy)

/-- A direct path reaches no node twice. -/
theorem nodup_depthFirst (h : d.Sound) {step : Step} (hdirect : isDirect (step :: steps) = true)
    (hroot : ∀ s ∈ steps, s.fromRoot = false) (hx : d.isNode x = true) :
    (depthFirst d (step :: steps) x).Nodup := by
  have horigin := Cursor.isNode_origin h step hx
  rw [depthFirst_origin h step steps hx]
  generalize (if step.fromRoot then 0 else x) = c at horigin
  have hdirect' : isDirect ({ step with fromRoot := false } :: steps) = true := hdirect
  have hnodup := nodup_depthFirst_of_isDirect h hdirect' (List.forall_mem_cons.2 ⟨rfl, hroot⟩)
    (List.nodup_singleton c) (by simp [Level]) (by simpa using horigin)
  rwa [List.flatMap_singleton] at hnodup

/-! ## Answers -/

/-- A walk that forgets answers with the whole enumeration, repetitions included. -/
theorem answers_forgetfulCall (h : d.Sound) {path : Path} (hsteps : path.steps ≠ [])
    (hx : d.isNode x = true) (n : Nat) : answers Walk.forgetfulCall n (.start d path x) =
      some ((List.range n).map fun i => (depthFirst d path.steps x)[i]?) :=
  answers_eq (fun _ _ => Walk.Reaches.exists_forgetfulCall) (Walk.reaches_start h path hsteps hx) n

/-- **Direct paths need no table.** Along a direct path, a walk that forgets what it has given
answers with the results of the enumeration, which ascend, so that none comes twice; and a walk
with its table answers the same. -/
theorem answers_of_direct {ε : Type} {items : List (Except ε Markup.Token)}
    (h : Document.ofItems items = .ok d) (hsize : d.recordCount < UInt32.size) {text : String}
    {path : Path} (hpath : Path.compile text = .ok path) (hdirect : isDirect path.steps = true)
    (hx : d.isNode x = true) :
    (depthFirst d path.steps x).Pairwise (· < ·) ∧
    ∀ n, answers Walk.forgetfulCall n (.start d path x) =
        some ((List.range n).map fun i => (depthFirst d path.steps x)[i]?) ∧
      answers Walk.call n (.start d path x) =
        answers Walk.forgetfulCall n (.start d path x) := by
  have hd := Document.sound_of_items h hsize
  have hne := steps_ne_nil_of_compile hpath
  have hnodup : (depthFirst d path.steps x).Nodup := by
    have hwrites := (Path.compile_eq_ok_iff.1 hpath).2
    cases hsteps : path.steps with
    | nil => exact absurd hsteps hne
    | cons step steps =>
      rw [hsteps] at hwrites hdirect
      exact nodup_depthFirst hd hdirect hwrites.fromRoot_eq_false hx
  have hsteady := isSteady_of_isDirect hdirect
  have hnode : ∀ y ∈ [x], d.isNode y = true := by simpa using hx
  have horderly : Orderly d path.steps [x] :=
    orderly_of_isSteady hd hsteady (by simp [Level]) hnode
  have hsorted := pairwise_eraseDups_depthFirst hd (isForward_of_isSteady hsteady)
    (List.pairwise_singleton _ x) hnode horderly
  rw [List.flatMap_singleton, eraseDups_of_nodup hnodup] at hsorted
  refine ⟨hsorted, fun n => ⟨answers_forgetfulCall hd hne hx n, ?_⟩⟩
  have hawaits := Walk.awaits_start hd path hne hx
  rw [eraseDups_of_nodup hnodup] at hawaits
  rw [answers_forgetfulCall hd hne hx n]
  exact answers_eq (fun _ _ => Walk.Awaits.exists_call) hawaits n

/-- All attributes below the root. -/
def attributesBelow : Path :=
  ⟨"/descendant::*/@*", [⟨.descendant, .any, some .element, true⟩,
    ⟨.attribute, .any, some .attribute, false⟩]⟩

theorem answers_of_attributesBelow : ∃ d, Document.ofItems Document.sampleItems = .ok d ∧
    d.recordCount < UInt32.size ∧ Path.compile attributesBelow.text = .ok attributesBelow ∧
    isDirect attributesBelow.steps = true ∧ d.isNode 4 = true ∧
    (depthFirst d attributesBelow.steps 4).Pairwise (· < ·) ∧
    ∀ n, answers Walk.forgetfulCall n (.start d attributesBelow 4) =
        some ((List.range n).map fun i => (depthFirst d attributesBelow.steps 4)[i]?) ∧
      answers Walk.call n (.start d attributesBelow 4) =
        answers Walk.forgetfulCall n (.start d attributesBelow 4) := by
  have h : Document.ofItems Document.sampleItems = .ok _ := rfl
  have hpath : Path.compile attributesBelow.text = .ok attributesBelow := by decide +kernel
  exact ⟨_, h, by decide, hpath, rfl, by decide,
    answers_of_direct h (by decide) hpath rfl (by decide)⟩

end MarkupQuery.Query
