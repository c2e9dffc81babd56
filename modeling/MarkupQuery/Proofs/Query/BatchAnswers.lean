import MarkupQuery.Proofs.NodeTree.Relatives
import MarkupQuery.Proofs.Query.SharedCache

/-!
# Answers of a batch

What a batch of paths is answered with if there is no cache at all: every text is compiled for
itself, and what its path selects is told (`directValues`, `directKeyed`, `directImages`). A shared
cache gives the same answers, whatever has happened to it before and in whatever order the jobs act
on it.

A keyed batch is answered as a whole. If one of its texts is no path the batch may end as soon as
that job has failed, with other jobs still under way, and if several fail it may end with the error
of any of them (`Ends`). With at most one that fails, nothing of this shows.

The main statement, `answers_of_batch`, adds what holds at every moment in between (`Transparent`),
and that every map that can be shared goes through the same.
-/

namespace MarkupQuery.Query

open NodeTree Location

variable {d : Document} {id : NodeId} {queries : List (String × String)} {jobs : List Job}

/-! ## Without a cache -/

/-- The string values that a text selects. -/
def directValues (d : Document) (id : NodeId) (text : String) :
    Except CompileError (List String) :=
  (Path.compile text).map fun path => values d path id

/-- The string values that keyed texts select, or the first error among them. -/
def directKeyed (d : Document) (id : NodeId) (queries : List (String × String)) :
    Except CompileError (List (String × List String)) :=
  queries.mapM fun query => (directValues d id query.2).map fun found => (query.1, found)

/-- The image of each node that a text selects. -/
def directImages {α : Type} (d : Document) (id : NodeId) (f : NodeId → α) (text : String) :
    Except CompileError (List α) :=
  (Path.compile text).map fun path => (select d path id).map f

/-! ## Keyed batches -/

/-- What a keyed batch may end with when its jobs have come so far: what all of them found, or the
error of any one of them. -/
inductive Ends (d : Document) (id : NodeId) (queries : List (String × String)) (jobs : List Job) :
    Except CompileError (List (String × List String)) → Prop
  /-- Every job has a path. -/
  | all {paths : List Path} (h : jobs = paths.map fun path => .settled (.ok path)) :
    Ends d id queries jobs
      (.ok ((queries.zip paths).map fun pair => (pair.1.1, values d pair.2 id)))
  /-- A job has failed, whatever the others are doing. -/
  | failed {e : CompileError} (h : .settled (.error e) ∈ jobs) : Ends d id queries jobs (.error e)

/-- The text of a query is no path. -/
def fails (query : String × String) : Bool :=
  !(Path.compile query.2).isOk

theorem fails_iff {query : String × String} :
    fails query = true ↔ ∃ e, Path.compile query.2 = .error e := by
  rw [fails]
  cases Path.compile query.2 <;> simp [Except.isOk, Except.toBool]

theorem directKeyed_cons (query : String × String) (queries : List (String × String)) :
    directKeyed d id (query :: queries) = (directValues d id query.2).bind fun found =>
      (directKeyed d id queries).map ((query.1, found) :: ·) := by
  rw [directKeyed, List.mapM_cons]
  cases directValues d id query.2 with
  | error e => rfl
  | ok found => cases h : directKeyed d id queries <;> rw [directKeyed] at h <;> simp [h] <;> rfl

theorem directKeyed_of_ok {paths : List Path}
    (h : queries.map (fun query => Path.compile query.2) = paths.map .ok) :
    directKeyed d id queries =
      .ok ((queries.zip paths).map fun pair => (pair.1.1, values d pair.2 id)) := by
  induction queries generalizing paths with
  | nil => rfl
  | cons query queries ih =>
    cases paths with
    | nil => cases h
    | cons path paths =>
      rw [List.map_cons, List.map_cons] at h
      obtain ⟨hpath, hpaths⟩ := List.cons.inj h
      rw [directKeyed_cons, ih hpaths, directValues, hpath]
      rfl

/-- If only one error occurs among the queries, that is what they end with. -/
theorem directKeyed_of_error {e : CompileError}
    (h : ∃ query ∈ queries, Path.compile query.2 = .error e)
    (honly : ∀ query ∈ queries, ∀ e', Path.compile query.2 = .error e' → e' = e) :
    directKeyed d id queries = .error e := by
  induction queries with
  | nil =>
    obtain ⟨query, hquery, -⟩ := h
    cases hquery
  | cons query queries ih =>
    rw [directKeyed_cons, directValues]
    cases hcompile : Path.compile query.2 with
    | error e' =>
      rw [honly query List.mem_cons_self e' hcompile]
      rfl
    | ok path =>
      obtain ⟨other, hother, he⟩ := h
      have hmem : other ∈ queries := by
        rcases List.mem_cons.1 hother with rfl | hmem
        · cases hcompile.symm.trans he
        · exact hmem
      rw [ih ⟨other, hmem, he⟩ fun query hquery => honly query (List.mem_cons_of_mem _ hquery)]
      rfl

/-- Of two queries that fail, at most one being allowed to, both are the same. -/
theorem eq_of_fails (h : queries.countP fails ≤ 1) {a b : String × String} (ha : a ∈ queries)
    (hb : b ∈ queries) (hfa : fails a = true) (hfb : fails b = true) : a = b := by
  rw [List.countP_eq_length_filter] at h
  have hmem : a ∈ queries.filter fails ∧ b ∈ queries.filter fails :=
    ⟨List.mem_filter.2 ⟨ha, hfa⟩, List.mem_filter.2 ⟨hb, hfb⟩⟩
  generalize queries.filter fails = failing at h hmem
  match failing with
  | [] => cases hmem.1
  | [c] => rw [List.mem_singleton.1 hmem.1, List.mem_singleton.1 hmem.2]
  | _ :: _ :: _ => simp at h

theorem Ends.eq_directKeyed {result : Except CompileError (List (String × List String))}
    (h : Ends d id queries jobs result) (hjobs : Served (queries.map Prod.snd) jobs)
    (hfails : queries.countP fails ≤ 1) : result = directKeyed d id queries := by
  cases h with
  | @all paths h =>
    have hserved : Served (queries.map Prod.snd) ((paths.map Except.ok).map .settled) := by
      simpa [h, Function.comp_def] using hjobs
    refine (directKeyed_of_ok ?_).symm
    simpa [Function.comp_def] using hserved.answers_eq
  | @failed e h =>
    obtain ⟨i, hi⟩ := List.getElem?_of_mem h
    obtain ⟨text, htext, hserves⟩ := hjobs.exists_text hi
    obtain ⟨query, hquery, rfl⟩ := List.mem_map.1 (List.mem_of_getElem? htext)
    have he : Path.compile query.2 = .error e := by
      cases hserves with
      | settled h => exact h
    refine (directKeyed_of_error ⟨query, hquery, he⟩ fun other hother e' he' => ?_).symm
    have hsame := eq_of_fails hfails hquery hother (fails_iff.2 ⟨e, he⟩) (fails_iff.2 ⟨e', he'⟩)
    rw [hsame, he'] at he
    exact Except.error.inj he

/-! ## With a cache -/

variable {c : PathCache}

theorem valuesOfAll_eq (hc : ∃ recent, c.Recalls recent) (schedule : List Nat)
    (texts : List String) :
    (valuesOfAll schedule c d id texts).1 = texts.map (directValues d id) := by
  have hanswers : (valuesOfAll schedule c d id texts).1 =
      (compileAll schedule c texts).1.map fun path => path.map fun path => values d path id := rfl
  rw [hanswers, compileAll_eq hc, List.map_map]
  rfl

theorem keyedValues_eq (hc : ∃ recent, c.Recalls recent) (schedule : List Nat)
    (queries : List (String × String)) :
    (keyedValues schedule c d id queries).1 = directKeyed d id queries := by
  have hanswers : (keyedValues schedule c d id queries).1 =
      (queries.zip (valuesOfAll schedule c d id (queries.map Prod.snd)).1).mapM fun pair =>
        pair.2.map fun found => (pair.1.1, found) := rfl
  rw [hanswers, valuesOfAll_eq hc, List.map_map, directKeyed]
  induction queries with
  | nil => rfl
  | cons query queries ih =>
    rw [List.map_cons, List.zip_cons_cons, List.mapM_cons, List.mapM_cons, ih rfl]
    rfl

theorem mapSelected_eq {α : Type} (hc : ∃ recent, c.Recalls recent) (text : String)
    (f : NodeId → α) : (mapSelected c d id text f).1 = directImages d id f text := by
  obtain ⟨recent, hc⟩ := hc
  have hanswer : (c.request text).1.map Prod.fst = Path.compile text := hc.fst_request text
  rw [directImages, ← hanswer, mapSelected]
  generalize c.request text = result
  obtain ⟨answer, c'⟩ := result
  cases answer <;> rfl

/-! ## Requests under way -/

/-- What holds of requests through a shared cache at every moment: those that are answered have the
path of their own text or its error, every entry of the cache is the path of its text, and the cache
holds no more than it can. -/
structure Transparent (n : Nat) (texts : List String) (jobs : List Job) (c : PathCache) : Prop where
  answer_eq : ∀ (i : Nat) (answer : Except CompileError Path),
    jobs[i]? = some (.settled answer) → texts[i]?.map Path.compile = some answer
  compile_eq : ∀ entry ∈ c.entries, Path.compile entry.1 = .ok entry.2
  size_le : c.size ≤ max 1 n

theorem transparent_runSchedule (n : Nat) (past : List Episode) (schedule : List Nat)
    (texts : List String) :
    Transparent n texts (runSchedule schedule (texts.map .waiting) (.behind n past)).1
      (runSchedule schedule (texts.map .waiting) (.behind n past)).2 := by
  have hcapacity := capacity_runSchedule schedule (texts.map .waiting) (.behind n past)
  obtain ⟨hserved, recent, hrecent⟩ := serves_runSchedule schedule (served_waiting texts)
    (PathCache.exists_recalls_behind n past)
  refine ⟨fun i answer hanswer => ?_, hrecent.compile_eq, ?_⟩
  · obtain ⟨text, htext, hserves⟩ := hserved.exists_text hanswer
    cases hserves with
    | settled h => rw [htext, Option.map_some, h]
  · rw [← PathCache.capacity_behind n past, ← hcapacity]
    exact hrecent.length_le

theorem Transparent.images_eq {α : Type} {n : Nat} {texts : List String}
    (h : Transparent n texts jobs c) (f : NodeId → α) {i : Nat}
    {answer : Except CompileError Path} (hanswer : jobs[i]? = some (.settled answer)) :
    some (answer.map fun path => (select d path id).map f) =
      texts[i]?.map (directImages d id f) := by
  have htext := h.answer_eq i answer hanswer
  obtain ⟨text, hi, rfl⟩ := Option.map_eq_some_iff.1 htext
  rw [hi]
  rfl

/-- **A shared cache does not show in the answers.** Whatever has happened to a cache and in
whatever order jobs act on it, a batch has for each of its texts, in order, what the text selects
when it is compiled for itself, or the error of that text alone. So has a keyed batch, even if it
ends as soon as a job has failed, as long as no two of its texts fail; and so has a request whose
nodes are mapped, alone or among others. At every moment, what is answered and what the cache holds
are the paths of their texts, and the cache holds no more than it can; every schedule can be
continued until all is answered. Every map that can be shared goes through the same. -/
theorem answers_of_batch (n : Nat) (past : List Episode) (schedule : List Nat) (d : Document)
    (id : NodeId) :
    (∀ texts : List String, (valuesOfAll schedule (.behind n past) d id texts).1 =
      texts.map (directValues d id)) ∧
    (∀ queries : List (String × String),
      (keyedValues schedule (.behind n past) d id queries).1 = directKeyed d id queries ∧
      (queries.countP fails ≤ 1 → ∀ result,
        Ends d id queries (runSchedule schedule ((queries.map Prod.snd).map .waiting)
          (.behind n past)).1 result → result = directKeyed d id queries)) ∧
    (∀ {α : Type} (f : NodeId → α),
      (∀ text, (mapSelected (.behind n past) d id text f).1 = directImages d id f text) ∧
      ∀ (texts : List String) (i : Nat) (answer : Except CompileError Path),
        (runSchedule schedule (texts.map .waiting) (.behind n past)).1[i]? =
          some (.settled answer) →
        some (answer.map fun path => (select d path id).map f) =
          texts[i]?.map (directImages d id f)) ∧
    (∀ texts : List String,
      Transparent n texts (runSchedule schedule (texts.map .waiting) (.behind n past)).1
        (runSchedule schedule (texts.map .waiting) (.behind n past)).2 ∧
      ∃ more, runSchedule (schedule ++ more) (texts.map .waiting) (.behind n past) =
        ((texts.map Path.compile).map .settled, (compileAll schedule (.behind n past) texts).2)) ∧
    ∀ {σ : Type} (m : RecencyMap σ) (order : σ → List (String × Path)), m.Shareable order →
      ∀ texts : List String,
        (m.runSchedule schedule (texts.map .waiting) (m.behind n past)).1 =
          (runSchedule schedule (texts.map .waiting) (.behind n past)).1 ∧
        m.Matches order (m.runSchedule schedule (texts.map .waiting) (m.behind n past)).2
          (runSchedule schedule (texts.map .waiting) (.behind n past)).2 := by
  have hc := PathCache.exists_recalls_behind n past
  have htransparent := transparent_runSchedule n past schedule
  refine ⟨valuesOfAll_eq hc schedule, fun queries => ⟨keyedValues_eq hc schedule queries,
    fun hfails result hends => ?_⟩, fun f => ⟨fun text => mapSelected_eq hc text f,
    fun texts i answer hanswer => (htransparent texts).images_eq f hanswer⟩,
    fun texts => ⟨htransparent texts, ?_⟩, fun m order h texts => ?_⟩
  · exact hends.eq_directKeyed (serves_runSchedule schedule (served_waiting _) hc).1 hfails
  · obtain ⟨more, hmore⟩ := exists_runSchedule_compileAll schedule (.behind n past) texts
    exact ⟨more, by rw [hmore, compileAll_eq hc]⟩
  · exact h.runSchedule_eq (h.matches_behind n past) (served_waiting texts) hc

/-- The path to all elements inside a node. -/
def allElements : Path :=
  ⟨"*", [⟨.child, .any, some .element, false⟩]⟩

/-- Three queries, of which the first and the last have the same text and the other has none that is
a path. -/
def sampleQueries : List (String × String) :=
  [("k", "*"), ("l", "*["), ("m", "*")]

/-- With room for one path, two jobs miss the same text and the entry that was there is evicted in
between; the keyed batch can end before the first of the two has put its path in. From the root the
text selects the document element, which has the string value of the text inside. -/
theorem answers_of_sampleBatch : ∃ d, Document.ofItems Document.sampleItems = .ok d ∧
    sampleQueries.countP fails ≤ 1 ∧
    Ends d 0 sampleQueries (runSchedule [0, 2, 2, 1] ((sampleQueries.map Prod.snd).map .waiting)
      (.behind 1 [.batch [0, 0] [".."]])).1 (.error ⟨"*[", 1, .missingSlash '['⟩) ∧
    .error ⟨"*[", 1, .missingSlash '['⟩ = directKeyed d 0 sampleQueries ∧
    (valuesOfAll [0, 2, 2, 1] (.behind 1 [.batch [0, 0] [".."]]) d 0
      (sampleQueries.map Prod.snd)).1 =
        [.ok ["t"], .error ⟨"*[", 1, .missingSlash '['⟩, .ok ["t"]] ∧
    (keyedValues [0, 2, 2, 1] (.behind 1 [.batch [0, 0] [".."]]) d 0 [("k", "*"), ("m", "*")]).1 =
      .ok [("k", ["t"]), ("m", ["t"])] ∧
    (mapSelected (.behind 1 [.batch [0, 0] [".."]]) d 0 "*" d.kind?).1 = .ok [some .element] ∧
    PathCache.asMap.Shareable PathCache.entries ∧
    (PathCache.asMap.runSchedule [0, 2, 2, 1] ((sampleQueries.map Prod.snd).map .waiting)
      (PathCache.asMap.behind 1 [.batch [0, 0] [".."]])).1 =
      (runSchedule [0, 2, 2, 1] ((sampleQueries.map Prod.snd).map .waiting)
        (.behind 1 [.batch [0, 0] [".."]])).1 := by
  obtain ⟨d, h, hvalue, himage⟩ : ∃ d, Document.ofItems Document.sampleItems = .ok d ∧
      values d allElements 0 = ["t"] ∧ (select d allElements 0).map d.kind? = [some .element] :=
    ⟨_, rfl, by decide +kernel, by decide +kernel⟩
  have hfails : sampleQueries.countP fails ≤ 1 := by decide +kernel
  have hkept : Path.compile ".." = .ok ⟨"..", [⟨.parent, .any, none, false⟩]⟩ := by decide +kernel
  have hpath : Path.compile "*" = .ok allElements := by decide +kernel
  have hfault : Path.compile "*[" = .error ⟨"*[", 1, .missingSlash '['⟩ := by decide +kernel
  have hjobs : (runSchedule [0, 2, 2, 1] ((sampleQueries.map Prod.snd).map .waiting)
      (.behind 1 [.batch [0, 0] [".."]])).1[1]? =
      some (.settled (.error ⟨"*[", 1, .missingSlash '['⟩)) := by
    simp [runSchedule, Job.act, PathCache.behind, PathCache.through, PathCache.withCapacity,
      PathCache.lookup, PathCache.insert, PathCache.without, sampleQueries, hkept, hpath, hfault]
  have hdirect : directValues d 0 "*" = .ok ["t"] := by
    rw [directValues, hpath, ← hvalue]
    rfl
  have hnone : directValues d 0 "*[" = .error ⟨"*[", 1, .missingSlash '['⟩ := by
    rw [directValues, hfault]
    rfl
  obtain ⟨hvalues, hkeyed, himages, -, hmap⟩ :=
    answers_of_batch 1 [.batch [0, 0] [".."]] [0, 2, 2, 1] d 0
  have hmem := List.mem_of_getElem? hjobs
  refine ⟨d, h, hfails, .failed hmem, (hkeyed _).2 hfails _ (.failed hmem), (hvalues _).trans ?_,
    (hkeyed _).1.trans ?_, ((himages d.kind?).1 "*").trans ?_, PathCache.shareable_asMap,
    (hmap _ _ PathCache.shareable_asMap _).1⟩
  · simp [sampleQueries, hdirect, hnone]
  · simp [directKeyed, hdirect]
    rfl
  · rw [directImages, hpath, ← himage]
    rfl

end MarkupQuery.Query
