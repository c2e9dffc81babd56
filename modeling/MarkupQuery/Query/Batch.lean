import MarkupQuery.Query.Answer
import MarkupQuery.Query.PathCache

/-!
# Batches of paths

Several paths are answered from one start node through one cache. Each is a job of its own: it looks
its text up and, if the cache does not have it, compiles it and puts it in. The jobs run side by
side, so their actions on the cache may come in any order; a schedule names the job that acts next,
and what the schedule leaves undone is done job by job. The answers are given in the order of the
paths.
-/

namespace MarkupQuery.Query

open NodeTree Location

/-! ## Jobs -/

/-- How far a request for a path has come. -/
inductive Job
  /-- The text has not been looked up. -/
  | waiting (text : String)
  /-- The cache did not have the path; it is compiled, and not yet put in. -/
  | missed (text : String) (path : Path)
  /-- The request is answered. -/
  | settled (answer : Except CompileError Path)

namespace Job

/-- The next action of a job on the cache. -/
def act (cache : PathCache) : Job → Job × PathCache
  | .waiting text =>
    match cache.lookup text with
    | (some path, cache) => (.settled (.ok path), cache)
    | (none, cache) =>
      match Path.compile text with
      | .ok path => (.missed text path, cache)
      | .error e => (.settled (.error e), cache)
  | .missed text path => (.settled (.ok path), cache.insert text path)
  | .settled answer => (.settled answer, cache)

/-- All remaining actions of a job, of which there are two at most, and its answer. -/
def finish (cache : PathCache) : Job → Except CompileError Path × PathCache
  | .settled answer => (answer, cache)
  | .missed text path => (.ok path, cache.insert text path)
  | .waiting text =>
    let (answer, cache) := cache.request text
    (answer.map Prod.fst, cache)

end Job

/-! ## Running jobs side by side -/

/-- Let the jobs act that a schedule names, by their places. A place without a job is passed over.
-/
def runSchedule : List Nat → List Job → PathCache → List Job × PathCache
  | [], jobs, cache => (jobs, cache)
  | place :: rest, jobs, cache =>
    match jobs[place]? with
    | none => runSchedule rest jobs cache
    | some job =>
      let (job, cache) := job.act cache
      runSchedule rest (jobs.set place job) cache

/-- Finish all jobs one after the other. -/
def finishAll (cache : PathCache) : List Job → List (Except CompileError Path) × PathCache
  | [] => ([], cache)
  | job :: rest =>
    let (answer, cache) := job.finish cache
    let (answers, cache) := finishAll cache rest
    (answer :: answers, cache)

/-- The paths of several texts, requested side by side. -/
def compileAll (schedule : List Nat) (cache : PathCache) (texts : List String) :
    List (Except CompileError Path) × PathCache :=
  let (jobs, cache) := runSchedule schedule (texts.map .waiting) cache
  finishAll cache jobs

/-! ## Answers of a batch -/

/-- The string values that each of several paths selects; a text that is no path has its own
error. -/
def valuesOfAll (schedule : List Nat) (cache : PathCache) (d : Document) (id : NodeId)
    (texts : List String) : List (Except CompileError (List String)) × PathCache :=
  let (paths, cache) := compileAll schedule cache texts
  (paths.map fun path => path.map fun path => values d path id, cache)

/-- The string values that each of several keyed paths selects, or the first error among them. -/
def keyedValues (schedule : List Nat) (cache : PathCache) (d : Document) (id : NodeId)
    (queries : List (String × String)) :
    Except CompileError (List (String × List String)) × PathCache :=
  let (answers, cache) := valuesOfAll schedule cache d id (queries.map Prod.snd)
  ((queries.zip answers).mapM fun (query, answer) => answer.map fun found => (query.1, found),
    cache)

/-- The image under `f` of each node that a path selects. -/
def mapSelected {α : Type} (cache : PathCache) (d : Document) (id : NodeId) (text : String)
    (f : NodeId → α) : Except CompileError (List α) × PathCache :=
  match cache.request text with
  | (.error e, cache) => (.error e, cache)
  | (.ok (path, _), cache) => (.ok ((select d path id).map f), cache)

end MarkupQuery.Query
