import Mathlib.Data.List.Induction
import MarkupQuery.Proofs.FirstOccurrences
import MarkupQuery.Query.PathCache

/-!
# What a cache of paths remembers

What a cache holds is told by what was asked of it. `requested` lists the texts of the requests
since the cache was last cleared, as far as they compile, the latest in front; the cache holds the
first few different ones of this list, in its order (`Recalls`). Every operation keeps this, so it
holds behind every history (`recalls_after`), and it tells what a request is answered with
(`Recalls.exists_mem_iff`).
-/

namespace MarkupQuery.Query

open Location

namespace PathCache

/-! ## Histories -/

/-- What can be done with a cache. -/
inductive Operation
  /-- Request the path of a text. -/
  | request (text : String)
  /-- Take all paths out. -/
  | clear
  deriving DecidableEq, Repr

/-- The text of a request, if it compiles. -/
def Operation.compiled? : Operation → Option String
  | .request text => if (Path.compile text).isOk then some text else none
  | .clear => none

/-- The cache behind an operation. -/
def apply (c : PathCache) : Operation → PathCache
  | .request text => (c.request text).2
  | .clear => c.clear

/-- The cache for a number of paths behind some operations. -/
def after (n : Nat) (history : List Operation) : PathCache :=
  history.foldl apply (withCapacity n)

/-- The texts that were requested since the last time everything was taken out, as far as they
compile, the latest in front. -/
def requested (history : List Operation) : List String :=
  (history.reverse.takeWhile (· != .clear)).filterMap Operation.compiled?

variable {c : PathCache} {text : String} {path : Path} {recent : List String} {n : Nat}
  {history : List Operation}

theorem after_concat (n : Nat) (history : List Operation) (operation : Operation) :
    after n (history ++ [operation]) = (after n history).apply operation :=
  List.foldl_concat ..

theorem requested_clear (history : List Operation) : requested (history ++ [.clear]) = [] := by
  simp [requested]

theorem requested_request (history : List Operation) (text : String) :
    requested (history ++ [.request text]) =
      (Operation.compiled? (.request text)).toList ++ requested history := by
  rw [requested, List.reverse_append, List.reverse_singleton, List.singleton_append,
    List.takeWhile_cons_of_pos rfl, List.filterMap_cons, requested]
  cases Operation.compiled? (.request text) <;> rfl

theorem compiled?_of_ok (h : Path.compile text = .ok path) :
    Operation.compiled? (.request text) = some text := by
  simp [Operation.compiled?, h, Except.isOk, Except.toBool]

theorem compiled?_of_error {e : CompileError} (h : Path.compile text = .error e) :
    Operation.compiled? (.request text) = none := by
  simp [Operation.compiled?, h, Except.isOk, Except.toBool]

/-! ## Requests -/

/-- The texts whose paths are in the cache, the one used last in front. -/
def keys (c : PathCache) : List String :=
  c.entries.map Prod.fst

/-- What a request does: it hands back an entry, which is used last then; or the text is in no entry
and does not compile, which changes nothing; or its path is put in. -/
inductive Answers (c : PathCache) (text : String) :
    Except CompileError (Path × Source) × PathCache → Prop
  /-- The path is in the cache. -/
  | kept {path : Path} (mem : (text, path) ∈ c.entries) :
    Answers c text (.ok (path, .kept),
      { c with entries := (text, path) :: without c.entries text })
  /-- There is no path. -/
  | failed {e : CompileError} (not_mem : text ∉ c.keys) (error : Path.compile text = .error e) :
    Answers c text (.error e, c)
  /-- The path is compiled. -/
  | compiled {path : Path} (not_mem : text ∉ c.keys) (ok : Path.compile text = .ok path) :
    Answers c text (.ok (path, .compiled), c.insert text path)

/-- A look-up hands back an entry, which is used last then; or the text is in no entry, and nothing
changes. -/
theorem lookup_cases (c : PathCache) (text : String) :
    (∃ path, (text, path) ∈ c.entries ∧ c.lookup text =
      (some path, { c with entries := (text, path) :: without c.entries text })) ∨
    (text ∉ c.keys ∧ c.lookup text = (none, c)) := by
  rw [lookup]
  cases hfind : c.entries.find? fun entry => entry.1 == text with
  | some entry =>
    obtain ⟨key, path⟩ := entry
    obtain rfl : key = text := by simpa using List.find?_some hfind
    exact .inl ⟨path, List.mem_of_find?_eq_some hfind, rfl⟩
  | none =>
    refine .inr ⟨fun hmem => ?_, rfl⟩
    obtain ⟨entry, hentry, htext⟩ := List.mem_map.1 hmem
    exact absurd htext (by simpa using List.find?_eq_none.1 hfind entry hentry)

theorem answers_request (c : PathCache) (text : String) : c.Answers text (c.request text) := by
  rw [request]
  rcases c.lookup_cases text with ⟨path, hmem, hlookup⟩ | ⟨hnot, hlookup⟩
  · rw [hlookup]
    exact .kept hmem
  · rw [hlookup]
    dsimp only
    cases hcompile : Path.compile text with
    | error e => exact .failed hnot hcompile
    | ok path => exact .compiled hnot hcompile

theorem keys_without (entries : List (String × Path)) (text : String) :
    (without entries text).map Prod.fst = (entries.map Prod.fst).filter (· != text) :=
  (List.filter_map (f := Prod.fst) (p := (· != text))).symm

theorem without_eq_self {entries : List (String × Path)} (h : text ∉ entries.map Prod.fst) :
    without entries text = entries := by
  refine List.filter_eq_self.2 fun entry hentry => ?_
  simpa using ne_of_mem_of_not_mem (List.mem_map_of_mem hentry) h

/-- Without a text that comes once, the entries in front of it and behind it are left. -/
theorem without_eq {front behind : List (String × Path)}
    (h : ((front ++ (text, path) :: behind).map Prod.fst).Nodup) :
    without (front ++ (text, path) :: behind) text = front ++ behind := by
  rw [List.map_append, List.map_cons, List.nodup_middle, List.nodup_cons, ← List.map_append] at h
  rw [without, List.filter_append, List.filter_cons_of_neg (by simp), ← List.filter_append]
  exact without_eq_self h.1

/-! ## The entries of a cache -/

/-- The cache holds the first few different texts of a list, with the paths they compile to. -/
structure Recalls (c : PathCache) (recent : List String) : Prop where
  capacity_pos : 0 < c.capacity
  keys_eq : c.keys = recent.eraseDups.take c.capacity
  compile_eq : ∀ entry ∈ c.entries, Path.compile entry.1 = .ok entry.2

theorem recalls_nil (hcapacity : 0 < c.capacity) (hentries : c.entries = []) : c.Recalls [] where
  capacity_pos := hcapacity
  keys_eq := by rw [keys, hentries, List.map_nil, List.eraseDups_nil, List.take_nil]
  compile_eq _ hentry := by
    rw [hentries] at hentry
    cases hentry

namespace Recalls

theorem nodup (h : c.Recalls recent) : c.keys.Nodup := by
  rw [h.keys_eq]
  exact (nodup_eraseDups recent).sublist (List.take_sublist ..)

theorem length_le (h : c.Recalls recent) : c.entries.length ≤ c.capacity := by
  rw [← List.length_map Prod.fst, show c.entries.map Prod.fst = _ from h.keys_eq]
  exact List.length_take_le ..

theorem size_eq (h : c.Recalls recent) : c.size = min c.capacity recent.eraseDups.length := by
  rw [size, ← List.length_map Prod.fst, show c.entries.map Prod.fst = _ from h.keys_eq,
    List.length_take]

/-- A path is in the cache if its text came not too long ago. -/
theorem exists_mem_iff (h : c.Recalls recent) : (∃ path, (text, path) ∈ c.entries) ↔
    text ∈ recent ∧ (recent.takeWhile (· != text)).eraseDups.length < c.capacity := by
  rw [← mem_take_eraseDups_iff, ← h.keys_eq, PathCache.keys, List.mem_map]
  constructor
  · rintro ⟨path, hmem⟩
    exact ⟨_, hmem, rfl⟩
  · rintro ⟨⟨_, path⟩, hmem, rfl⟩
    exact ⟨path, hmem⟩

/-- The text used last comes in front of the others, and the one used the longest ago goes. -/
theorem keys_cons (h : c.Recalls recent) (text : String) :
    (text :: c.keys.filter (· != text)).take c.capacity =
      (text :: recent).eraseDups.take c.capacity := by
  obtain ⟨n, hn⟩ := Nat.exists_eq_succ_of_ne_zero (Nat.ne_of_gt h.capacity_pos)
  have herase : (text :: recent).eraseDups = text :: recent.eraseDups.filter (· != text) := by
    rw [List.eraseDups_cons, ← eraseDups_filter]
    rfl
  rw [h.keys_eq, herase, hn, List.take_succ_cons, List.take_succ_cons,
    take_filter_take (nodup_eraseDups recent)]

theorem kept (h : c.Recalls recent) (hmem : (text, path) ∈ c.entries) :
    ({ c with entries := (text, path) :: without c.entries text } : PathCache).Recalls
      (text :: recent) where
  capacity_pos := h.capacity_pos
  keys_eq := by
    have htext : text ∈ c.keys := List.mem_map_of_mem hmem
    have hlength : (text :: c.keys.filter (· != text)).length ≤ c.capacity := by
      have hlt : (c.keys.filter (· != text)).length < c.keys.length :=
        List.length_filter_lt_length_iff_exists.2 ⟨text, htext, by simp⟩
      have hle := h.length_le
      rw [PathCache.keys, List.length_map] at hlt
      rw [List.length_cons, PathCache.keys]
      omega
    rw [PathCache.keys, List.map_cons, keys_without, ← h.keys_cons text]
    exact (List.take_of_length_le hlength).symm
  compile_eq entry hentry := by
    rcases List.mem_cons.1 hentry with rfl | hentry
    · exact h.compile_eq _ hmem
    · exact h.compile_eq _ (List.mem_filter.1 hentry).1

theorem insert (h : c.Recalls recent) (hcompile : Path.compile text = .ok path) :
    (c.insert text path).Recalls (text :: recent) where
  capacity_pos := h.capacity_pos
  keys_eq := by
    rw [PathCache.keys, PathCache.insert, List.map_take, List.map_cons, keys_without]
    exact h.keys_cons text
  compile_eq entry hentry := by
    rcases List.mem_cons.1 (List.mem_of_mem_take hentry) with rfl | hentry
    · exact hcompile
    · exact h.compile_eq _ (List.mem_filter.1 hentry).1

/-- A request of a text that compiles makes it the latest; any other changes nothing. -/
theorem request (h : c.Recalls recent) (text : String) :
    (c.request text).2.Recalls ((Operation.compiled? (.request text)).toList ++ recent) := by
  have hanswers := c.answers_request text
  generalize c.request text = result at hanswers ⊢
  cases hanswers with
  | kept mem =>
    rw [compiled?_of_ok (h.compile_eq _ mem)]
    exact h.kept mem
  | failed not_mem error =>
    rw [compiled?_of_error error]
    exact h
  | compiled not_mem ok =>
    rw [compiled?_of_ok ok]
    exact h.insert ok

end Recalls

theorem capacity_request (c : PathCache) (text : String) :
    (c.request text).2.capacity = c.capacity := by
  have hanswers := c.answers_request text
  generalize c.request text = result at hanswers ⊢
  cases hanswers <;> rfl

theorem capacity_after (n : Nat) (history : List Operation) :
    (after n history).capacity = max 1 n := by
  induction history using List.reverseRecOn with
  | nil => rfl
  | append_singleton history operation ih =>
    rw [after_concat]
    cases operation with
    | request text => exact (capacity_request _ text).trans ih
    | clear => exact ih

/-- A cache holds the texts requested last. -/
theorem recalls_after (n : Nat) (history : List Operation) :
    (after n history).Recalls (requested history) := by
  induction history using List.reverseRecOn with
  | nil => exact recalls_nil (Nat.lt_of_lt_of_le Nat.zero_lt_one (Nat.le_max_left ..)) rfl
  | append_singleton history operation ih =>
    rw [after_concat]
    cases operation with
    | request text =>
      rw [requested_request]
      exact ih.request text
    | clear =>
      rw [requested_clear]
      exact recalls_nil ih.capacity_pos rfl

/-! ## Answers -/

theorem Recalls.fst_request (h : c.Recalls recent) (text : String) :
    (c.request text).1.map Prod.fst = Path.compile text := by
  have hanswers := c.answers_request text
  generalize c.request text = result at hanswers ⊢
  cases hanswers with
  | kept mem => exact (h.compile_eq _ mem).symm
  | failed not_mem error => exact error.symm
  | compiled not_mem ok => exact ok.symm

/-- What a request hands back from the cache is the path that is kept there. -/
theorem Recalls.request_eq_kept_iff (h : c.Recalls recent) :
    (c.request text).1 = .ok (path, .kept) ↔ (text, path) ∈ c.entries := by
  have hanswers := c.answers_request text
  generalize c.request text = result at hanswers ⊢
  cases hanswers with
  | @kept kept mem =>
    constructor
    · rintro ⟨⟩
      exact mem
    · intro hmem
      have hkept : Path.compile text = .ok kept := h.compile_eq _ mem
      have hpath : Path.compile text = .ok path := h.compile_eq _ hmem
      rw [Except.ok.inj (hkept.symm.trans hpath)]
  | failed not_mem error => exact ⟨nofun, fun hmem => absurd (List.mem_map_of_mem hmem) not_mem⟩
  | compiled not_mem ok => exact ⟨nofun, fun hmem => absurd (List.mem_map_of_mem hmem) not_mem⟩

theorem request_of_error {e : CompileError} (h : c.Recalls recent)
    (herror : Path.compile text = .error e) : (c.request text).2 = c := by
  have hanswers := c.answers_request text
  generalize c.request text = result at hanswers ⊢
  cases hanswers with
  | kept mem => exact absurd (herror.symm.trans (h.compile_eq _ mem)) nofun
  | failed not_mem error => rfl
  | compiled not_mem ok => exact absurd (herror.symm.trans ok) nofun

end PathCache

end MarkupQuery.Query
