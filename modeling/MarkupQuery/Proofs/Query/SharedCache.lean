import MarkupQuery.Proofs.Query.RecencyMap
import MarkupQuery.Query.Batch

/-!
# A cache shared by jobs that run side by side

Jobs that request paths through one cache look up and insert in any order: two jobs can miss the
same text, and an entry can be evicted or replaced between the look-up of a job and its insertion.
No order matters to what they are answered. What a job holds belongs to its own text (`Job.Serves`),
and every action keeps this, as it keeps what the cache remembers (`Job.Serves.act`); so both hold
behind every schedule (`serves_runSchedule`). Running the jobs that a schedule leaves undone is a
schedule too (`exists_runSchedule_compileAll`), so in the end every job has the path of its text or
its error (`compileAll_eq`).

A map other than the cache can be shared as well: if it keeps the entries used last, and a path that
is put in again comes in front (`RecencyMap.Shareable`), jobs do the same with it
(`RecencyMap.Shareable.runSchedule_eq`).
-/

namespace MarkupQuery.Query

open NodeTree Location

variable {c : PathCache} {text : String} {texts : List String} {recent : List String} {job : Job}
  {jobs : List Job} {schedule : List Nat}

/-! ## One action -/

/-- What a job holds belongs to its text: the path that it has compiled, or its answer. -/
inductive Job.Serves (text : String) : Job → Prop
  /-- The job holds nothing yet. -/
  | waiting : Serves text (.waiting text)
  /-- The job holds the path of its text. -/
  | missed {path : Path} (h : Path.compile text = .ok path) : Serves text (.missed text path)
  /-- The job has the path of its text or its error. -/
  | settled {answer : Except CompileError Path} (h : Path.compile text = answer) :
    Serves text (.settled answer)

theorem Job.Serves.act (h : job.Serves text) (hc : c.Recalls recent) :
    (job.act c).1.Serves text ∧ ∃ recent', (job.act c).2.Recalls recent' := by
  cases h with
  | waiting =>
    rw [Job.act]
    rcases c.lookup_cases text with ⟨path, hmem, hlookup⟩ | ⟨-, hlookup⟩
    · rw [hlookup]
      exact ⟨.settled (hc.compile_eq _ hmem), _, hc.kept hmem⟩
    · rw [hlookup]
      dsimp only
      cases hcompile : Path.compile text with
      | ok path => exact ⟨.missed hcompile, _, hc⟩
      | error e => exact ⟨.settled hcompile, _, hc⟩
  | missed hcompile => exact ⟨.settled hcompile, _, hc.insert hcompile⟩
  | settled hcompile => exact ⟨.settled hcompile, _, hc⟩

theorem Job.capacity_act (c : PathCache) (job : Job) : (job.act c).2.capacity = c.capacity := by
  cases job with
  | waiting text =>
    rw [Job.act]
    rcases c.lookup_cases text with ⟨path, -, hlookup⟩ | ⟨-, hlookup⟩
    · rw [hlookup]
    · rw [hlookup]
      dsimp only
      cases Path.compile text <;> rfl
  | missed text path => rfl
  | settled answer => rfl

/-- Two actions are all that is left of any job. -/
theorem Job.act_act (c : PathCache) (job : Job) :
    (job.act c).1.act (job.act c).2 = (.settled (job.finish c).1, (job.finish c).2) := by
  cases job with
  | waiting text =>
    rw [Job.act, Job.finish, PathCache.request]
    cases c.lookup text with
    | mk found c =>
      cases found with
      | some path => rfl
      | none => cases hcompile : Path.compile text <;> rfl
  | missed text path => rfl
  | settled answer => rfl

/-! ## Schedules -/

/-- Every text has its job, which serves it. -/
structure Served (texts : List String) (jobs : List Job) : Prop where
  length_eq : jobs.length = texts.length
  serves : ∀ (i : Nat) (text : String) (job : Job), texts[i]? = some text →
    jobs[i]? = some job → job.Serves text

theorem served_waiting (texts : List String) : Served texts (texts.map .waiting) where
  length_eq := List.length_map ..
  serves i text job htext hjob := by
    rw [List.getElem?_map, htext] at hjob
    exact Option.some.inj hjob ▸ .waiting

theorem Served.exists_text (h : Served texts jobs) {i : Nat} (hjob : jobs[i]? = some job) :
    ∃ text, texts[i]? = some text ∧ job.Serves text := by
  have hlt : i < texts.length := h.length_eq ▸ (List.getElem?_eq_some_iff.1 hjob).1
  exact ⟨texts[i], List.getElem?_eq_getElem hlt, h.serves i _ _ (List.getElem?_eq_getElem hlt) hjob⟩

theorem Served.set (h : Served texts jobs) {i : Nat}
    (hjob : ∀ text, texts[i]? = some text → job.Serves text) : Served texts (jobs.set i job) where
  length_eq := (List.length_set ..).trans h.length_eq
  serves j text job' htext hjob' := by
    rw [List.getElem?_set] at hjob'
    split at hjob'
    · rename_i heq
      subst heq
      split at hjob'
      · exact Option.some.inj hjob' ▸ hjob text htext
      · cases hjob'
    · exact h.serves j text job' htext hjob'

theorem Served.act (h : Served texts jobs) {i : Nat} (hjob : jobs[i]? = some job)
    (hc : c.Recalls recent) : Served texts (jobs.set i (job.act c).1) ∧
      ∃ recent', (job.act c).2.Recalls recent' := by
  obtain ⟨text, htext, hserves⟩ := h.exists_text hjob
  obtain ⟨hserves', hc'⟩ := hserves.act hc
  refine ⟨h.set fun other hother => ?_, hc'⟩
  rw [htext] at hother
  exact Option.some.inj hother ▸ hserves'

/-- Behind every schedule, each job serves its text and the cache remembers some requests. -/
theorem serves_runSchedule (schedule : List Nat) (hjobs : Served texts jobs)
    (hc : ∃ recent, c.Recalls recent) :
    Served texts (runSchedule schedule jobs c).1 ∧
      ∃ recent, (runSchedule schedule jobs c).2.Recalls recent := by
  fun_induction runSchedule schedule jobs c with
  | case1 jobs c => exact ⟨hjobs, hc⟩
  | case2 place rest jobs c hnone ih => exact ih hjobs hc
  | case3 place rest jobs c job hjob job' c' hact ih =>
    obtain ⟨recent, hc⟩ := hc
    obtain ⟨hserved, hc'⟩ := hjobs.act hjob hc
    rw [hact] at hserved hc'
    exact ih hserved hc'

theorem capacity_runSchedule (schedule : List Nat) (jobs : List Job) (c : PathCache) :
    (runSchedule schedule jobs c).2.capacity = c.capacity := by
  fun_induction runSchedule schedule jobs c with
  | case1 jobs c => rfl
  | case2 place rest jobs c hnone ih => exact ih
  | case3 place rest jobs c job hjob job' c' hact ih =>
    have hcapacity := job.capacity_act c
    rw [hact] at hcapacity
    exact ih.trans hcapacity

theorem runSchedule_append (front back : List Nat) (jobs : List Job) (c : PathCache) :
    runSchedule (front ++ back) jobs c =
      runSchedule back (runSchedule front jobs c).1 (runSchedule front jobs c).2 := by
  fun_induction runSchedule front jobs c with
  | case1 jobs c => rfl
  | case2 place rest jobs c hnone ih => simp only [List.cons_append, runSchedule, hnone, ih]
  | case3 place rest jobs c job hjob job' c' hact ih =>
    simp only [List.cons_append, runSchedule, hjob, hact, ih]

/-! ## Jobs that are finished -/

/-- Two actions at one place finish the job there. -/
theorem runSchedule_place (front back : List Job) (job : Job) (c : PathCache)
    (schedule : List Nat) :
    runSchedule (front.length :: front.length :: schedule) (front ++ job :: back) c =
      runSchedule schedule (front ++ .settled (job.finish c).1 :: back) (job.finish c).2 := by
  simp [runSchedule, Job.act_act]

theorem exists_runSchedule_finishAll (done : List (Except CompileError Path)) (jobs : List Job)
    (c : PathCache) : ∃ schedule, runSchedule schedule (done.map .settled ++ jobs) c =
      ((done ++ (finishAll c jobs).1).map .settled, (finishAll c jobs).2) := by
  induction jobs generalizing done c with
  | nil => exact ⟨[], by simp [runSchedule, finishAll]⟩
  | cons job jobs ih =>
    obtain ⟨schedule, hschedule⟩ := ih (done ++ [(job.finish c).1]) (job.finish c).2
    rw [List.map_append, List.append_assoc, List.append_assoc] at hschedule
    exact ⟨_, (runSchedule_place (done.map .settled) jobs job c schedule).trans hschedule⟩

/-- Every schedule can be continued until all jobs are settled. -/
theorem exists_runSchedule_compileAll (schedule : List Nat) (c : PathCache) (texts : List String) :
    ∃ more, runSchedule (schedule ++ more) (texts.map .waiting) c =
      ((compileAll schedule c texts).1.map .settled, (compileAll schedule c texts).2) := by
  obtain ⟨more, hmore⟩ := exists_runSchedule_finishAll []
    (runSchedule schedule (texts.map .waiting) c).1 (runSchedule schedule (texts.map .waiting) c).2
  exact ⟨more, (runSchedule_append ..).trans hmore⟩

/-- Jobs that serve texts and are settled have the paths of the texts or their errors. -/
theorem Served.answers_eq {answers : List (Except CompileError Path)}
    (h : Served texts (answers.map .settled)) : texts.map Path.compile = answers := by
  have hlength : answers.length = texts.length := by simpa using h.length_eq
  refine List.ext_getElem (by simpa using hlength.symm) fun i htext hi => ?_
  rw [List.length_map] at htext
  have hserves := h.serves i texts[i] (.settled answers[i]) (by simp) (by simp)
  cases hserves with
  | settled hcompile => rw [List.getElem_map, hcompile]

/-- Whatever the order, each text has its own path or its own error. -/
theorem compileAll_eq (hc : ∃ recent, c.Recalls recent) (schedule : List Nat)
    (texts : List String) : (compileAll schedule c texts).1 = texts.map Path.compile := by
  obtain ⟨more, hmore⟩ := exists_runSchedule_compileAll schedule c texts
  have hserved := (serves_runSchedule (schedule ++ more) (served_waiting texts) hc).1
  rw [hmore] at hserved
  exact hserved.answers_eq.symm

/-! ## What happens to a cache -/

/-- What can happen to a cache that is shared: jobs for some texts act as a schedule says, which may
leave some of them undone; or everything is taken out. -/
inductive Episode
  /-- Jobs act side by side. -/
  | batch (schedule : List Nat) (texts : List String)
  /-- Everything is taken out. -/
  | clear

/-- The cache behind an episode. -/
def PathCache.through (c : PathCache) : Episode → PathCache
  | .batch schedule texts => (runSchedule schedule (texts.map .waiting) c).2
  | .clear => c.clear

/-- The cache for a number of paths behind some episodes. -/
def PathCache.behind (n : Nat) (past : List Episode) : PathCache :=
  past.foldl through (withCapacity n)

theorem PathCache.behind_concat (n : Nat) (past : List Episode) (episode : Episode) :
    behind n (past ++ [episode]) = (behind n past).through episode :=
  List.foldl_concat ..

theorem PathCache.capacity_behind (n : Nat) (past : List Episode) :
    (behind n past).capacity = max 1 n := by
  induction past using List.reverseRecOn with
  | nil => rfl
  | append_singleton past episode ih =>
    rw [behind_concat]
    cases episode with
    | batch schedule texts => exact (capacity_runSchedule ..).trans ih
    | clear => exact ih

/-- Behind everything that can have happened to it, a cache remembers some requests. -/
theorem PathCache.exists_recalls_behind (n : Nat) (past : List Episode) :
    ∃ recent, (behind n past).Recalls recent := by
  induction past using List.reverseRecOn with
  | nil => exact ⟨_, recalls_after n []⟩
  | append_singleton past episode ih =>
    rw [behind_concat]
    cases episode with
    | batch schedule texts => exact (serves_runSchedule schedule (served_waiting texts) ih).2
    | clear =>
      obtain ⟨recent, hrecent⟩ := ih
      exact ⟨_, recalls_nil hrecent.capacity_pos rfl⟩

/-! ## Maps that are shared -/

/-- A path that is put in again comes in front. -/
theorem PathCache.entries_insert_of_mem {front behind : List (String × Path)} {old : Path}
    (path : Path) (hnodup : c.keys.Nodup) (hle : c.entries.length ≤ c.capacity)
    (hsplit : c.entries = front ++ (text, old) :: behind) :
    (c.insert text path).entries = (text, path) :: (front ++ behind) := by
  have hlength : ((text, path) :: (front ++ behind)).length ≤ c.capacity := by
    simpa [hsplit, Nat.add_assoc] using hle
  rw [keys, hsplit] at hnodup
  rw [insert, hsplit, without_eq hnodup]
  exact List.take_of_length_le hlength

namespace RecencyMap

open PathCache

variable {σ : Type} {m : RecencyMap σ} {order : σ → List (String × Path)} {s : σ} {path : Path}

/-- The next action of a job on a map. -/
def act (m : RecencyMap σ) (s : σ) : Job → Job × σ
  | .waiting text =>
    match m.get s text with
    | (some path, s) => (.settled (.ok path), s)
    | (none, s) =>
      match Path.compile text with
      | .ok path => (.missed text path, s)
      | .error e => (.settled (.error e), s)
  | .missed text path => (.settled (.ok path), m.put s text path)
  | .settled answer => (.settled answer, s)

/-- Let the jobs act on a map that a schedule names. -/
def runSchedule (m : RecencyMap σ) : List Nat → List Job → σ → List Job × σ
  | [], jobs, s => (jobs, s)
  | place :: rest, jobs, s =>
    match jobs[place]? with
    | none => m.runSchedule rest jobs s
    | some job => m.runSchedule rest (jobs.set place (m.act s job).1) (m.act s job).2

/-- The map behind an episode. -/
def through (m : RecencyMap σ) (s : σ) : Episode → σ
  | .batch schedule texts => (m.runSchedule schedule (texts.map .waiting) s).2
  | .clear => m.clear s

/-- The map for a number of paths, which is at least one, behind some episodes. -/
def behind (m : RecencyMap σ) (n : Nat) (past : List Episode) : σ :=
  past.foldl m.through (m.new (max 1 n))

/-- What is asked of a map that jobs share. Two of them can miss a text and put its path in one
after the other; the second puts it in place of the first, and it comes in front. -/
structure Shareable (m : RecencyMap σ) (order : σ → List (String × Path)) : Prop
    extends m.Lawful order where
  put_of_mem : ∀ s front text old path behind, ((order s).map Prod.fst).Nodup →
    (order s).length ≤ m.capacity s → order s = front ++ (text, old) :: behind →
    order (m.put s text path) = (text, path) :: (front ++ behind)

/-- A job does the same with a map as with a cache that has the same entries. -/
theorem Shareable.act_eq (h : m.Shareable order) (hs : m.Matches order s c)
    (hc : c.Recalls recent) (job : Job) :
    (m.act s job).1 = (job.act c).1 ∧ m.Matches order (m.act s job).2 (job.act c).2 := by
  cases job with
  | waiting text =>
    obtain ⟨hget, hmatches⟩ := h.get_eq hs hc text
    rw [act, Job.act]
    generalize m.get s text = found at hget hmatches ⊢
    generalize c.lookup text = kept at hget hmatches ⊢
    obtain ⟨path, s'⟩ := found
    obtain ⟨_, c'⟩ := kept
    obtain rfl : path = _ := hget
    cases path with
    | some path => exact ⟨rfl, hmatches⟩
    | none =>
      dsimp only
      cases Path.compile text with
      | ok path => exact ⟨rfl, hmatches⟩
      | error e => exact ⟨rfl, hmatches⟩
  | missed text path =>
    refine ⟨rfl, ?_⟩
    by_cases hmem : text ∈ c.keys
    · obtain ⟨⟨_, old⟩, hentry, rfl⟩ := List.mem_map.1 hmem
      obtain ⟨front, behind, hsplit⟩ := List.append_of_mem hentry
      refine ⟨?_, (h.capacity_put ..).trans hs.capacity_eq⟩
      have hput := entries_insert_of_mem path hc.nodup hc.length_le hsplit
      refine (h.put_of_mem s front _ old path behind ?_ ?_ ?_).trans hput.symm
      · rw [hs.order_eq]
        exact hc.nodup
      · rw [hs.order_eq, hs.capacity_eq]
        exact hc.length_le
      · exact hs.order_eq.trans hsplit
    · exact h.put_eq hs hc hmem
  | settled answer => exact ⟨rfl, hs⟩

theorem Shareable.runSchedule_eq (h : m.Shareable order) (hs : m.Matches order s c)
    (hjobs : Served texts jobs) (hc : ∃ recent, c.Recalls recent) :
    (m.runSchedule schedule jobs s).1 = (Query.runSchedule schedule jobs c).1 ∧
      m.Matches order (m.runSchedule schedule jobs s).2 (Query.runSchedule schedule jobs c).2 := by
  fun_induction Query.runSchedule schedule jobs c generalizing s with
  | case1 jobs c => exact ⟨rfl, hs⟩
  | case2 place rest jobs c hnone ih =>
    simp only [runSchedule, hnone]
    exact ih hs hjobs hc
  | case3 place rest jobs c job hjob job' c' hact ih =>
    obtain ⟨recent, hc⟩ := hc
    obtain ⟨hjob', hs'⟩ := h.act_eq hs hc job
    obtain ⟨hserved, hc'⟩ := hjobs.act hjob hc
    rw [hact] at hjob' hs' hserved hc'
    simp only [runSchedule, hjob, hjob']
    exact ih hs' hserved hc'

/-- A map and a cache stay the same through everything that can happen to them. -/
theorem Shareable.matches_behind (h : m.Shareable order) (n : Nat) (past : List Episode) :
    m.Matches order (m.behind n past) (PathCache.behind n past) := by
  induction past using List.reverseRecOn with
  | nil => exact ⟨h.order_new _, h.capacity_new _ (Nat.le_max_left ..)⟩
  | append_singleton past episode ih =>
    rw [behind_concat, behind, List.foldl_concat]
    cases episode with
    | batch schedule texts =>
      exact (h.runSchedule_eq ih (served_waiting texts) (exists_recalls_behind n past)).2
    | clear => exact ⟨h.order_clear _, (h.capacity_clear _).trans ih.capacity_eq⟩

end RecencyMap

/-- The cache is itself such a map. -/
theorem PathCache.shareable_asMap : asMap.Shareable entries where
  toLawful := lawful_asMap
  put_of_mem _ _ _ _ path _ hnodup hle hsplit := entries_insert_of_mem path hnodup hle hsplit

end MarkupQuery.Query
