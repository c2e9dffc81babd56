import MarkupQuery.Proofs.Location.Language
import MarkupQuery.Proofs.Query.Steps
import MarkupQuery.Query.Walk

/-!
# The depth-first search

`depthFirst` enumerates the results of some steps from a node by plain recursion, a result as often
as it is reached. A walk is the same search cut into calls, and gives each result once.

Between two calls a walk keeps a trail of cursors. `Pending` says which results a trail has still to
reach: first those below the deepest cursor, then those below the nodes that the cursors further up
have not visited yet. `enter` and `resume` find the first of the pending results that was not given
before (`finds_enter`, `finds_resume`), so a walk always awaits what is left of the enumeration
(`Walk.Awaits`).

The main statement, `answers_of_walk`, is about calls: a walk answers with the results of the
enumeration, each where it first occurs, and with none from then on.
-/

namespace MarkupQuery.Query

open NodeTree Location

variable {d : Document} {seen : Array Bool} {steps : List Step} {x y : NodeId}

/-! ## The enumeration -/

/-- The nodes that a cursor still visits, at most `fuel`. -/
def Cursor.drain (d : Document) (step : Step) : Nat → Cursor → List NodeId
  | 0, _ => []
  | fuel + 1, cursor =>
    match cursor.advance d step with
    | .found id ahead => id :: drain d step fuel ahead
    | .astray | .exhausted => []

/-- The nodes that a fresh cursor of a step visits from a context. -/
def candidates (d : Document) (step : Step) (c : NodeId) : List NodeId :=
  Cursor.drain d step (d.recordCount + 1) (.fresh c)

/-- The results of some steps from a context: below every candidate of the first step, in order,
those of the other steps. -/
def depthFirst (d : Document) : List Step → NodeId → List NodeId
  | [], x => [x]
  | step :: steps, x => (candidates d step x).flatMap (depthFirst d steps)

theorem drain_eq {step : Step} {cursor : Cursor} {l : List NodeId} {fuel : Nat}
    (h : Visits (Cursor.advance d step) cursor l) (hfuel : l.length < fuel) :
    Cursor.drain d step fuel cursor = l := by
  induction h generalizing fuel with
  | nil h =>
    obtain ⟨fuel, rfl⟩ := Nat.exists_eq_succ_of_ne_zero (Nat.ne_zero_of_lt hfuel)
    simp [Cursor.drain, h]
  | cons h _ ih =>
    obtain ⟨fuel, rfl⟩ := Nat.exists_eq_succ_of_ne_zero (Nat.ne_zero_of_lt hfuel)
    simp only [Cursor.drain, h, ih (Nat.lt_of_succ_lt_succ hfuel)]

theorem candidates_eq (h : d.Sound) (step : Step) (hx : d.isNode x = true) :
    candidates d step x = Cursor.visited d step x := by
  obtain ⟨hv, hl⟩ := Cursor.visits_fresh h step hx
  exact drain_eq hv (Nat.lt_succ_of_le hl.length_le)

theorem mem_candidates (h : d.Sound) {step : Step} (hx : d.isNode x = true) :
    y ∈ candidates d step x ↔
      y ∈ axisNodes d (if step.fromRoot then 0 else x) step.axis ∧ accepts d step y = true := by
  rw [candidates_eq h step hx, Cursor.visited, List.mem_filter]

theorem visits_candidates (h : d.Sound) (step : Step) (hx : d.isNode x = true) :
    Visits (Cursor.advance d step) (.fresh x) (candidates d step x) := by
  rw [candidates_eq h step hx]
  exact (Cursor.visits_fresh h step hx).1

theorem length_candidates_le (h : d.Sound) (step : Step) (hx : d.isNode x = true) :
    (candidates d step x).length ≤ d.recordCount := by
  rw [candidates_eq h step hx]
  exact (Cursor.visits_fresh h step hx).2.length_le

theorem isNode_of_mem_candidates (h : d.Sound) {step : Step} (hx : d.isNode x = true)
    (hy : y ∈ candidates d step x) : d.isNode y = true := by
  rw [candidates_eq h step hx] at hy
  exact Cursor.accepts_isNode (List.mem_filter.1 hy).2

theorem isNode_of_mem_flatMap (h : d.Sound) {step : Step} {l : List NodeId}
    (hl : ∀ x ∈ l, d.isNode x = true) : ∀ y ∈ l.flatMap (candidates d step), d.isNode y = true := by
  intro y hy
  obtain ⟨x, hx, hy⟩ := List.mem_flatMap.1 hy
  exact isNode_of_mem_candidates h (hl x hx) hy

theorem depthFirst_singleton (step : Step) (x : NodeId) :
    depthFirst d [step] x = candidates d step x :=
  List.flatMap_singleton' _

theorem flatMap_depthFirst_nil (l : List NodeId) : l.flatMap (depthFirst d []) = l :=
  List.flatMap_singleton' l

theorem flatMap_depthFirst_cons (step : Step) (steps : List Step) (l : List NodeId) :
    l.flatMap (depthFirst d (step :: steps)) =
      (l.flatMap (candidates d step)).flatMap (depthFirst d steps) :=
  List.flatMap_assoc.symm

/-- A step from the root is the same step from the root as its context. -/
theorem depthFirst_origin (h : d.Sound) (step : Step) (steps : List Step)
    (hx : d.isNode x = true) : depthFirst d (step :: steps) x =
      depthFirst d ({ step with fromRoot := false } :: steps) (if step.fromRoot then 0 else x) := by
  rw [depthFirst, depthFirst, candidates_eq h step hx,
    candidates_eq h _ (Cursor.isNode_origin h step hx)]
  rfl

theorem isNode_of_mem_depthFirst (h : d.Sound) (hx : d.isNode x = true)
    (hy : y ∈ depthFirst d steps x) : d.isNode y = true := by
  induction steps generalizing x with
  | nil =>
    rw [List.mem_singleton.1 hy]
    exact hx
  | cons step steps ih =>
    obtain ⟨z, hz, hy⟩ := List.mem_flatMap.1 hy
    exact ih (isNode_of_mem_candidates h hx hz) hy

/-! ## Trails -/

/-- The results that a trail of cursors has still to reach. -/
inductive Pending (d : Document) : List Step → List Cursor → List NodeId → Prop
  /-- Nothing is under way. -/
  | done {steps : List Step} : Pending d steps [] []
  /-- Below what the first cursor has visited last, the trail has still to reach `below`; then come
  the results below the nodes `l` that the cursor has still to visit. -/
  | under {step : Step} {steps : List Step} {cursor : Cursor} {trail : List Cursor}
    {l below : List NodeId} (hv : Visits (Cursor.advance d step) cursor l)
    (hlength : l.length ≤ d.recordCount) (hl : ∀ y ∈ l, d.isNode y = true)
    (ht : Pending d steps trail below) :
    Pending d (step :: steps) (cursor :: trail) (below ++ l.flatMap (depthFirst d steps))

/-- The node is in the table and was not given as a result before. -/
def unseen (seen : Array Bool) (x : NodeId) : Bool :=
  seen[x.toNat]? == some false

/-- An outcome of the search in a list: the first result that was not given before, with a trail
that has still to reach what is behind it; or there is none. -/
inductive Finds (d : Document) (seen : Array Bool) (steps : List Step) :
    Outcome (List Cursor) → List NodeId → Prop
  /-- All results were given before. -/
  | exhausted {l : List NodeId} (h : ∀ y ∈ l, unseen seen y = false) :
    Finds d seen steps .exhausted l
  /-- There is a result, and all in front of it were given before. -/
  | found {x : NodeId} {trail : List Cursor} {front l : List NodeId}
    (hfront : ∀ y ∈ front, unseen seen y = false) (hx : unseen seen x = true)
    (ht : Pending d steps trail l) : Finds d seen steps (.found x trail) (front ++ x :: l)

namespace Finds

variable {o : Outcome (List Cursor)} {trail : List Cursor} {front l l' : List NodeId}

theorem append_left (h : Finds d seen steps o l) (hfront : ∀ y ∈ front, unseen seen y = false) :
    Finds d seen steps o (front ++ l) := by
  have hboth : ∀ l' : List NodeId, (∀ y ∈ l', unseen seen y = false) →
      ∀ y ∈ front ++ l', unseen seen y = false := fun l' hl' y hy =>
    (List.mem_append.1 hy).elim (hfront y) (hl' y)
  cases h with
  | exhausted h => exact .exhausted (hboth l h)
  | found hfront' hx ht =>
    rw [← List.append_assoc]
    exact .found (hboth _ hfront') hx ht

theorem all_seen (h : Finds d seen steps .exhausted l) : ∀ y ∈ l, unseen seen y = false := by
  cases h with
  | exhausted h => exact h

/-- A result below a node that a cursor has visited. -/
theorem under {step : Step} {cursor : Cursor} (h : Finds d seen steps (.found x trail) l)
    (hv : Visits (Cursor.advance d step) cursor l') (hlength : l'.length ≤ d.recordCount)
    (hl' : ∀ y ∈ l', d.isNode y = true) :
    Finds d seen (step :: steps) (.found x (cursor :: trail))
      (l ++ l'.flatMap (depthFirst d steps)) := by
  cases h with
  | found hfront hx ht =>
    rw [List.append_assoc, List.cons_append]
    exact .found hfront hx (.under hv hlength hl' ht)

end Finds

/-! ## The search -/

/-- A cursor is advanced over all nodes below which there is no result to give. -/
theorem finds_drive {step : Step} {below : NodeId → Outcome (List Cursor)} {cursor : Cursor}
    {l : List NodeId} {fuel : Nat}
    (hbelow : ∀ y, d.isNode y = true → Finds d seen steps (below y) (depthFirst d steps y))
    (hv : Visits (Cursor.advance d step) cursor l) (hlength : l.length ≤ d.recordCount)
    (hl : ∀ y ∈ l, d.isNode y = true) (hfuel : l.length < fuel) :
    Finds d seen (step :: steps) (drive d step below fuel cursor)
      (l.flatMap (depthFirst d steps)) := by
  induction hv generalizing fuel with
  | nil h =>
    obtain ⟨fuel, rfl⟩ := Nat.exists_eq_succ_of_ne_zero (Nat.ne_zero_of_lt hfuel)
    rw [drive, h]
    exact .exhausted fun _ hy => (nomatch hy)
  | @cons cursor ahead id l h hv ih =>
    obtain ⟨fuel, rfl⟩ := Nat.exists_eq_succ_of_ne_zero (Nat.ne_zero_of_lt hfuel)
    rw [List.length_cons] at hlength hfuel
    have hl' : ∀ y ∈ l, d.isNode y = true := fun y hy => hl y (List.mem_cons_of_mem _ hy)
    have hid := hbelow id (hl id (List.mem_cons_self ..))
    simp only [drive, h, List.flatMap_cons]
    cases ho : below id with
    | astray =>
      rw [ho] at hid
      cases hid
    | exhausted =>
      rw [ho] at hid
      exact (ih (by omega) hl' (by omega)).append_left hid.all_seen
    | found result trail =>
      rw [ho] at hid
      exact hid.under hv (by omega) hl'

theorem finds_enter (h : d.Sound) (hseen : seen.size = d.recordCount) (hx : d.isNode x = true) :
    Finds d seen steps (enter d seen steps x) (depthFirst d steps x) := by
  induction steps generalizing x with
  | nil =>
    have hlt : x.toNat < seen.size := hseen ▸ Document.lt_recordCount_of_isNode hx
    have hget : seen[x.toNat]? = some seen[x.toNat] := Array.getElem?_eq_getElem hlt
    unfold enter depthFirst
    cases hs : seen[x.toNat] with
    | true =>
      rw [hget, hs]
      apply Finds.exhausted
      intro y hy
      simp [List.mem_singleton.1 hy, unseen, hget, hs]
    | false =>
      rw [hget, hs]
      have hx : unseen seen x = true := by simp [unseen, hget, hs]
      change Finds d seen [] (.found x []) ([] ++ [x])
      exact .found (fun _ hy => (nomatch hy)) hx .done
  | cons step steps ih =>
    have hlength := length_candidates_le h step hx
    unfold enter depthFirst
    exact finds_drive (fun y hy => ih hy) (visits_candidates h step hx) hlength
      (fun y hy => isNode_of_mem_candidates h hx hy) (by omega)

theorem finds_resume (h : d.Sound) (hseen : seen.size = d.recordCount) {trail : List Cursor}
    {l : List NodeId} (ht : Pending d steps trail l) :
    Finds d seen steps (resume d seen steps trail) l := by
  induction ht with
  | @done steps =>
    have hnone : resume d seen steps [] = .exhausted := by cases steps <;> rfl
    rw [hnone]
    exact .exhausted fun _ hy => (nomatch hy)
  | @under step steps cursor trail l below hv hlength hl _ ih =>
    rw [resume]
    cases ho : resume d seen steps trail with
    | astray =>
      rw [ho] at ih
      cases ih
    | exhausted =>
      rw [ho] at ih
      apply Finds.append_left _ ih.all_seen
      exact finds_drive (fun y hy => finds_enter h hseen hy) hv hlength hl (by omega)
    | found result trail =>
      rw [ho] at ih
      exact ih.under hv hlength hl

/-! ## Walks -/

theorem unseen_setIfInBounds (seen : Array Bool) (x y : NodeId) :
    unseen (seen.setIfInBounds x.toNat true) y = (!(y == x) && unseen seen y) := by
  unfold unseen
  rw [Array.getElem?_setIfInBounds]
  by_cases hyx : y = x
  · subst hyx
    by_cases hlt : y.toNat < seen.size
    · simp [hlt]
    · simp [hlt]
  · have hne : x.toNat ≠ y.toNat := fun heq => hyx (UInt32.toNat_inj.1 heq).symm
    simp [hne, hyx]

namespace Walk

variable {w : Walk} {l : List NodeId}

/-- The results that a walk has still to give: those that its trail has still to reach and that were
not given before, each where it first occurs. -/
structure Awaits (w : Walk) (l : List NodeId) : Prop where
  sound : w.document.Sound
  size_seen : w.seen.size = w.document.recordCount
  pending : ∃ p, Pending w.document w.path.steps w.trail p ∧
    l = (p.filter (unseen w.seen)).eraseDups

/-- One call on a walk: its answer, and the walk behind it. -/
def call (w : Walk) : Option (Option NodeId × Walk) :=
  w.advance.map fun w => (w.current, w)

/-- A call gives the first of the awaited results, and the walk awaits the others. -/
theorem Awaits.exists_call (h : w.Awaits l) :
    ∃ w', w.call = some (l.head?, w') ∧ w'.Awaits l.tail := by
  obtain ⟨document, path, trail, seen, current⟩ := w
  obtain ⟨hd, hseen, p, hp, rfl⟩ := h
  dsimp only at hd hseen hp ⊢
  have hfinds := finds_resume hd hseen hp
  simp only [call, advance]
  cases ho : resume document seen path.steps trail with
  | astray =>
    rw [ho] at hfinds
    cases hfinds
  | exhausted =>
    rw [ho] at hfinds
    have hnil : p.filter (unseen seen) = [] :=
      List.filter_eq_nil_iff.2 fun y hy => by simp [hfinds.all_seen y hy]
    rw [hnil]
    exact ⟨_, rfl, hd, hseen, [], .done, rfl⟩
  | found x trail =>
    rw [ho] at hfinds
    cases hfinds with
    | @found _ _ front rest hfront hx ht =>
      have hnil : front.filter (unseen seen) = [] :=
        List.filter_eq_nil_iff.2 fun y hy => by simp [hfront y hy]
      rw [List.filter_append, hnil, List.nil_append, List.filter_cons_of_pos hx,
        List.eraseDups_cons]
      refine ⟨_, rfl, hd, by simpa using hseen, rest, ht, ?_⟩
      dsimp only [List.tail_cons]
      rw [List.filter_filter]
      congr 1
      exact List.filter_congr fun y _ => (unseen_setIfInBounds seen x y).symm

theorem unseen_start (path : Path) (x : NodeId) (hy : d.isNode y = true) :
    unseen (start d path x).seen y = true := by
  have hlt := Document.lt_recordCount_of_isNode hy
  simp [start, unseen, hlt]

theorem pending_start (h : d.Sound) (path : Path) (hsteps : path.steps ≠ [])
    (hx : d.isNode x = true) :
    Pending d path.steps (start d path x).trail (depthFirst d path.steps x) := by
  simp only [start]
  cases hs : path.steps with
  | nil => exact absurd hs hsteps
  | cons step steps =>
    exact .under (visits_candidates h step hx) (length_candidates_le h step hx)
      (fun y hy => isNode_of_mem_candidates h hx hy) .done

/-- At its start, a walk awaits all results of its path. -/
theorem awaits_start (h : d.Sound) (path : Path) (hsteps : path.steps ≠ [])
    (hx : d.isNode x = true) :
    (start d path x).Awaits (depthFirst d path.steps x).eraseDups := by
  refine ⟨h, Array.size_replicate, depthFirst d path.steps x, pending_start h path hsteps hx, ?_⟩
  rw [List.filter_eq_self.2 fun y hy => ?_]
  exact unseen_start path x (isNode_of_mem_depthFirst h hx hy)

end Walk

/-! ## Compiled paths -/

/-- **What a walk answers.** Along a compiled path from a node, a walk answers with the results of
the depth-first enumeration, each where it first occurs, and with none from then on. The candidates
of the enumeration are what a fresh cursor answers with. -/
theorem answers_of_walk {ε : Type} {items : List (Except ε Markup.Token)}
    (h : Document.ofItems items = .ok d) (hsize : d.recordCount < UInt32.size) {text : String}
    {path : Path} (hpath : Path.compile text = .ok path) (hx : d.isNode x = true) :
    (∀ n, answers Walk.call n (.start d path x) =
      some ((List.range n).map fun i => (depthFirst d path.steps x).eraseDups[i]?)) ∧
    ∀ step y, d.isNode y = true → (∀ z ∈ candidates d step y, d.isNode z = true) ∧
      ∀ n, answers (Cursor.call d step) n (.fresh y) =
        some ((List.range n).map fun i => (candidates d step y)[i]?) := by
  have hd := Document.sound_of_items h hsize
  refine ⟨?_, fun step y hy => ⟨fun z hz => isNode_of_mem_candidates hd hy hz, ?_⟩⟩
  · exact answers_eq (fun _ _ => Walk.Awaits.exists_call)
      (Walk.awaits_start hd path (steps_ne_nil_of_compile hpath) hx)
  · exact answers_eq (fun _ _ => Cursor.exists_call) (visits_candidates hd step hy)

/-- From every node to the nodes inside it, and back to the one around them. -/
def aroundEach : Path :=
  ⟨"//node()/..", [⟨.descendantOrSelf, .any, none, true⟩, ⟨.child, .any, none, false⟩,
    ⟨.parent, .any, none, false⟩]⟩

/-- The document element is reached from both nodes inside it, and given once. -/
theorem answers_of_sampleWalk : ∃ d, Document.ofItems Document.sampleItems = .ok d ∧
    d.recordCount < UInt32.size ∧ Path.compile aroundEach.text = .ok aroundEach ∧
      d.isNode 4 = true ∧ depthFirst d aroundEach.steps 4 = [0, 1, 1] ∧
      (depthFirst d aroundEach.steps 4).eraseDups = [0, 1] ∧
      (∀ n, answers Walk.call n (.start d aroundEach 4) =
        some ((List.range n).map fun i => (depthFirst d aroundEach.steps 4).eraseDups[i]?)) ∧
      answers Walk.call 3 (.start d aroundEach 4) = some [some 0, some 1, none] := by
  have h : Document.ofItems Document.sampleItems = .ok _ := rfl
  have hpath : Path.compile aroundEach.text = .ok aroundEach := by decide +kernel
  have hwalk := (answers_of_walk h (by decide) hpath (x := 4) (by decide)).1
  exact ⟨_, h, by decide, hpath, by decide, by decide +kernel, by decide +kernel, hwalk,
    (hwalk 3).trans (by decide +kernel)⟩

end MarkupQuery.Query
