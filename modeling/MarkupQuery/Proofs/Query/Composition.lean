import MarkupQuery.Proofs.Location.Language
import MarkupQuery.Proofs.Query.Contexts
import MarkupQuery.Proofs.Query.Search
import MarkupQuery.Query.Answer

/-!
# Paths put one behind the other

Two path texts with a slash between them write the steps of both (`writes_append`), and the search
along the steps of both is the search along the second from every result of the first
(`depthFirst_append`). A walk gives each result of its search once (`select?_eq`), where it first
occurs; a context that comes a second time brings nothing that was not found below it before
(`eraseDups_flatMap_eraseDups`).

The main statement, `select?_of_composition`, puts these together: what the composed path selects is
what the second selects from each node that the first selects, in order, with first occurrences
kept; and it makes no difference whether repeated contexts are searched again.
-/

namespace MarkupQuery

/-! ## Texts -/

namespace Location

/-- A text that does not end at a slash keeps all its segments if a slash and more text follow. -/
theorem segments_append {as : List Char} (hne : as ≠ []) (hlast : as.getLast? ≠ some '/')
    (bs : List Char) : segments (as ++ '/' :: bs) = segments as ++ segments bs := by
  -- on the number of characters: the first segment is cut off together with the slash behind it
  induction hn : as.length using Nat.strongRecOn generalizing as with
  | ind n ih =>
    by_cases hslash : '/' ∈ as
    · obtain ⟨first, rest, rfl, hfirst⟩ := List.eq_append_cons_of_mem hslash
      have hrest : rest ≠ [] := by
        rintro rfl
        exact hlast List.getLast?_concat
      have hlast' : rest.getLast? ≠ some '/' := by
        rwa [List.getLast?_append_of_ne_nil _ (List.cons_ne_nil _ _),
          List.getLast?_cons_of_ne_nil hrest] at hlast
      have hlt : rest.length < n := by
        rw [← hn, List.length_append, List.length_cons]
        omega
      rw [List.append_assoc, List.cons_append, segments_append_slash hfirst,
        segments_append_slash hfirst, ih _ hlt hrest hlast' rfl, List.cons_append]
    · rw [segments_append_slash hslash, segments_of_not_mem hne hslash, List.singleton_append]

/-- Behind a text that writes steps and a slash, the segments of more text write more steps. -/
theorem writes_append_segments {as bs : List Char} {front back : List Step}
    (hfront : Writes as front) (hlast : as.getLast? ≠ some '/')
    (hback : List.Forall₂ Segment (segments bs) back) :
    Writes (as ++ '/' :: bs) (front ++ back) := by
  cases hfront with
  | root => exact absurd rfl hlast
  | @fromRoot cs s steps hne h =>
    have hlast' : cs.getLast? ≠ some '/' := by rwa [List.getLast?_cons_of_ne_nil hne] at hlast
    have hwhole : List.Forall₂ Segment (segments (cs ++ '/' :: bs)) (s :: (steps ++ back)) := by
      rw [segments_append hne hlast']
      exact List.rel_append h hback
    exact .fromRoot (List.append_ne_nil_of_left_ne_nil hne _) hwhole
  | fromHere hne hslash h =>
    refine .fromHere (List.append_ne_nil_of_left_ne_nil hne _) ?_ ?_
    · rwa [List.head?_append_of_ne_nil _ hne]
    · rw [segments_append hne hlast]
      exact List.rel_append h hback

/-- A text that writes steps, a slash, and a text that does not begin with one and writes steps too
write the steps of both. -/
theorem writes_append {as bs : List Char} {front back : List Step} (hfront : Writes as front)
    (hlast : as.getLast? ≠ some '/') (hback : Writes bs back) (hhead : bs.head? ≠ some '/') :
    Writes (as ++ '/' :: bs) (front ++ back) := by
  cases hback with
  | root => exact absurd rfl hhead
  | fromRoot _ _ => exact absurd rfl hhead
  | fromHere _ _ h => exact writes_append_segments hfront hlast h

end Location

namespace Query

open NodeTree Location

variable {d : Document} {x : NodeId}

/-! ## What a path selects -/

/-- A walk that awaits fewer results than it has fuel gives all of them. -/
theorem Walk.Awaits.restOnto_eq {w : Walk} {l : List NodeId} (h : w.Awaits l) {fuel : Nat}
    (hfuel : l.length < fuel) (done : List NodeId) :
    ∃ w', restOnto done fuel w = some (done.reverse ++ l, w') := by
  induction l generalizing w fuel done with
  | nil =>
    obtain ⟨fuel, rfl⟩ := Nat.exists_eq_succ_of_ne_zero (Nat.ne_zero_of_lt hfuel)
    obtain ⟨w', hcall, -⟩ := h.exists_call
    obtain ⟨w₁, hadvance, hw₁⟩ := Option.map_eq_some_iff.1 hcall
    obtain ⟨hcurrent, rfl⟩ := Prod.mk.inj hw₁
    rw [restOnto, hadvance]
    simp [show w₁.current = none from hcurrent]
  | cons y l ih =>
    obtain ⟨fuel, rfl⟩ := Nat.exists_eq_succ_of_ne_zero (Nat.ne_zero_of_lt hfuel)
    obtain ⟨w', hcall, hw'⟩ := h.exists_call
    obtain ⟨w₁, hadvance, hw₁⟩ := Option.map_eq_some_iff.1 hcall
    obtain ⟨hcurrent, rfl⟩ := Prod.mk.inj hw₁
    obtain ⟨w₂, hrest⟩ := ih hw' (Nat.lt_of_succ_lt_succ hfuel) (y :: done)
    refine ⟨w₂, ?_⟩
    rw [restOnto, hadvance]
    simpa [show w₁.current = some y from hcurrent] using hrest

/-- A path selects the results of its search, each where it first occurs. -/
theorem select?_eq (h : d.Sound) (path : Path) (hsteps : path.steps ≠ [])
    (hx : d.isNode x = true) :
    select? d path x = some (depthFirst d path.steps x).eraseDups := by
  have hlisting : Listing d (depthFirst d path.steps x).eraseDups :=
    ⟨nodup_eraseDups _, fun y hy => Document.lt_recordCount_of_isNode
      (isNode_of_mem_depthFirst h hx (List.mem_eraseDups.1 hy))⟩
  obtain ⟨w, hw⟩ := (Walk.awaits_start h path hsteps hx).restOnto_eq
    (Nat.lt_succ_of_le hlisting.length_le) []
  have hrest : (Walk.start d path x).rest? = some ((depthFirst d path.steps x).eraseDups, w) := hw
  rw [select?, hrest, Option.map_some]

/-- A path of one step selects what the step visits. -/
theorem select?_eq_visited (h : d.Sound) {path : Path} {step : Step} (hsteps : path.steps = [step])
    (hx : d.isNode x = true) : select? d path x = some (Cursor.visited d step x) := by
  have hne : path.steps ≠ [] := hsteps ▸ List.cons_ne_nil _ _
  rw [select?_eq h path hne hx, hsteps, depthFirst_singleton, candidates_eq h step hx,
    eraseDups_of_nodup (Cursor.visits_fresh h step hx).2.nodup]

/-- A text is a path, and the path selects the nodes of a list, in this order. -/
def Selects (d : Document) (text : String) (x : NodeId) (l : List NodeId) : Prop :=
  ∃ path, Path.compile text = .ok path ∧ select? d path x = some l

/-- A text that writes steps selects the results of their search. -/
theorem selects_of_writes (h : d.Sound) (hx : d.isNode x = true) {text : String}
    {steps : List Step} (hwrites : Writes text.toList steps) :
    Selects d text x (depthFirst d steps x).eraseDups := by
  have hpath : Path.compile text = .ok ⟨text, steps⟩ := Path.compile_eq_ok_iff.2 ⟨rfl, hwrites⟩
  exact ⟨_, hpath, select?_eq h _ (steps_ne_nil_of_compile hpath) hx⟩

/-! ## Searches -/

theorem depthFirst_append (front back : List Step) (x : NodeId) :
    depthFirst d (front ++ back) x = (depthFirst d front x).flatMap (depthFirst d back) := by
  induction front generalizing x with
  | nil => exact (List.flatMap_singleton ..).symm
  | cons step front ih =>
    rw [List.cons_append, depthFirst, depthFirst, List.flatMap_assoc]
    exact congrArg (List.flatMap · _) (funext ih)

theorem mapM_eq_some {α β : Type} {l : List α} {f : α → Option β} {g : α → β}
    (h : ∀ a ∈ l, f a = some (g a)) : l.mapM f = some (l.map g) := by
  induction l with
  | nil => rfl
  | cons a l ih =>
    rw [List.mapM_cons, h a List.mem_cons_self, ih fun b hb => h b (List.mem_cons_of_mem _ hb)]
    rfl

/-- A path with the steps of two others selects what the second selects from the nodes that the
first reaches. Which of these are searched again does not matter. -/
theorem select?_append (h : d.Sound) (text : String) {first second : Path}
    (hfirst : first.steps ≠ []) (hsecond : second.steps ≠ []) (hx : d.isNode x = true)
    {contexts : List NodeId}
    (hcontexts : contexts.eraseDups = (depthFirst d first.steps x).eraseDups) :
    ∃ results, contexts.mapM (select? d second) = some results ∧
      select? d ⟨text, first.steps ++ second.steps⟩ x = some results.flatten.eraseDups := by
  have hnode : ∀ y ∈ contexts, d.isNode y = true := fun y hy =>
    isNode_of_mem_depthFirst h hx
      (List.mem_eraseDups.1 (hcontexts ▸ List.mem_eraseDups.2 hy))
  have hne : first.steps ++ second.steps ≠ [] := List.append_ne_nil_of_left_ne_nil hfirst _
  refine ⟨_, mapM_eq_some fun y hy => select?_eq h second hsecond (hnode y hy), ?_⟩
  rw [select?_eq h _ hne hx, depthFirst_append, ← List.flatMap_def, eraseDups_flatMap,
    ← eraseDups_flatMap_eraseDups, ← hcontexts, eraseDups_flatMap_eraseDups]

/-! ## Composition -/

/-- **A path behind a slash goes on from the results of the path in front of it.** The composed text
compiles to the steps of both, and selects what the second path selects from each node that the
first selects, one after the other, with first occurrences kept. Searching again from a node that
the first path reaches more than once changes neither the results nor their order. -/
theorem select?_of_composition {ε : Type} {items : List (Except ε Markup.Token)}
    (h : Document.ofItems items = .ok d) (hsize : d.recordCount < UInt32.size)
    (hx : d.isNode x = true) {p q : String} {first second : Path}
    (hp : Path.compile p = .ok first) (hlast : p.toList.getLast? ≠ some '/')
    (hq : Path.compile q = .ok second) (hhead : q.toList.head? ≠ some '/') :
    ∃ both, Path.compile (p ++ "/" ++ q) = .ok both ∧ both.steps = first.steps ++ second.steps ∧
      (∃ contexts results, select? d first x = some contexts ∧
        contexts.mapM (select? d second) = some results ∧
        select? d both x = some results.flatten.eraseDups) ∧
      ∃ results, (depthFirst d first.steps x).mapM (select? d second) = some results ∧
        select? d both x = some results.flatten.eraseDups := by
  have hd := Document.sound_of_items h hsize
  have hfirst := steps_ne_nil_of_compile hp
  have hsecond := steps_ne_nil_of_compile hq
  have hwrites : Writes (p ++ "/" ++ q).toList (first.steps ++ second.steps) := by
    have hboth := writes_append (Path.compile_eq_ok_iff.1 hp).2 hlast
      (Path.compile_eq_ok_iff.1 hq).2 hhead
    simpa using hboth
  refine ⟨⟨p ++ "/" ++ q, first.steps ++ second.steps⟩,
    Path.compile_eq_ok_iff.2 ⟨rfl, hwrites⟩, rfl, ?_, ?_⟩
  · obtain ⟨results, hresults⟩ := select?_append hd _ hfirst hsecond hx
      (eraseDups_of_nodup (nodup_eraseDups (depthFirst d first.steps x)))
    exact ⟨_, results, select?_eq hd first hfirst hx, hresults⟩
  · exact select?_append hd _ hfirst hsecond hx rfl

/-- The element around each node in the document element, which is that element each time. -/
def aroundAll : Path :=
  ⟨"/*/node()/..", [⟨.child, .any, some .element, true⟩, ⟨.child, .any, none, false⟩,
    ⟨.parent, .any, none, false⟩]⟩

/-- All attributes. -/
def allAttributes : Path :=
  ⟨"@*", [⟨.attribute, .any, some .attribute, false⟩]⟩

theorem select?_of_sampleComposition : ∃ d both, Document.ofItems Document.sampleItems = .ok d ∧
    d.recordCount < UInt32.size ∧ d.isNode 0 = true ∧
    Path.compile "/*/node()/.." = .ok aroundAll ∧ "/*/node()/..".toList.getLast? ≠ some '/' ∧
    Path.compile "@*" = .ok allAttributes ∧ "@*".toList.head? ≠ some '/' ∧
    depthFirst d aroundAll.steps 0 = [1, 1] ∧
    Path.compile ("/*/node()/.." ++ "/" ++ "@*") = .ok both ∧
    both.steps = aroundAll.steps ++ allAttributes.steps ∧
    (∃ contexts results, select? d aroundAll 0 = some contexts ∧
      contexts.mapM (select? d allAttributes) = some results ∧
      select? d both 0 = some results.flatten.eraseDups) ∧
    ∃ results, (depthFirst d aroundAll.steps 0).mapM (select? d allAttributes) = some results ∧
      select? d both 0 = some results.flatten.eraseDups := by
  have h : Document.ofItems Document.sampleItems = .ok _ := rfl
  have hp : Path.compile "/*/node()/.." = .ok aroundAll := by decide +kernel
  have hq : Path.compile "@*" = .ok allAttributes := by decide +kernel
  obtain ⟨both, hboth⟩ :=
    select?_of_composition h (by decide) (x := 0) (by decide) hp (by decide) hq (by decide)
  exact ⟨_, both, h, by decide, by decide, hp, by decide, hq, by decide, by decide +kernel, hboth⟩

end Query

end MarkupQuery
