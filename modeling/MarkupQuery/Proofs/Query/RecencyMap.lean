import MarkupQuery.Proofs.Query.RecentPaths

/-!
# Maps that keep what was used last

A cache of paths is a map that keeps the entries used last. Whether it is kept as a list or in
another way makes no difference: `RecencyMap.Lawful` states what is asked of such a map, and every
lawful map stays the same as the cache through a history (`RecencyMap.Lawful.matches_after`). The
cache is itself one (`PathCache.lawful_asMap`).

The main statement, `PathCache.request_after`, says what a request is answered with behind any
history, in terms of the requests before it.
-/

namespace MarkupQuery.Query

open Location

/-! ## Maps -/

/-- The operations of a map from texts to paths that holds a bounded number of entries. -/
structure RecencyMap (σ : Type) where
  /-- An empty map with a capacity. -/
  new : Nat → σ
  /-- The path of a text, if it is there, and the map behind the look-up. -/
  get : σ → String → Option Path × σ
  /-- The map with the path of a text put in. -/
  put : σ → String → Path → σ
  /-- The map with everything taken out. -/
  clear : σ → σ
  /-- The number of entries. -/
  size : σ → Nat
  /-- The greatest number of entries. -/
  capacity : σ → Nat

namespace RecencyMap

open PathCache

variable {σ : Type} {m : RecencyMap σ} {order : σ → List (String × Path)} {s : σ} {c : PathCache}
  {text : String} {path : Path} {recent : List String}

/-- What is asked of a map that keeps the entries used last, where `order` lists the entries of a
map, the one used last in front. A look-up promotes what it finds; a new entry comes in front, and
if there is no room for it then the entry used the longest ago goes. -/
structure Lawful (m : RecencyMap σ) (order : σ → List (String × Path)) : Prop where
  order_new : ∀ n, order (m.new n) = []
  order_clear : ∀ s, order (m.clear s) = []
  get_of_mem : ∀ s front text path behind, ((order s).map Prod.fst).Nodup →
    order s = front ++ (text, path) :: behind →
    (m.get s text).1 = some path ∧ order (m.get s text).2 = (text, path) :: (front ++ behind)
  get_of_not_mem : ∀ s text, text ∉ (order s).map Prod.fst →
    (m.get s text).1 = none ∧ order (m.get s text).2 = order s
  put_of_room : ∀ s text path, text ∉ (order s).map Prod.fst →
    (order s).length < m.capacity s → order (m.put s text path) = (text, path) :: order s
  put_of_full : ∀ s text path, text ∉ (order s).map Prod.fst → order s ≠ [] →
    (order s).length = m.capacity s →
    order (m.put s text path) = (text, path) :: (order s).dropLast
  size_eq : ∀ s, m.size s = (order s).length
  capacity_new : ∀ n, 0 < n → m.capacity (m.new n) = n
  capacity_get : ∀ s text, m.capacity (m.get s text).2 = m.capacity s
  capacity_put : ∀ s text path, m.capacity (m.put s text path) = m.capacity s
  capacity_clear : ∀ s, m.capacity (m.clear s) = m.capacity s

/-- The path of a text, from the map or else compiled. -/
def request (m : RecencyMap σ) (s : σ) (text : String) :
    Except CompileError (Path × Source) × σ :=
  match m.get s text with
  | (some path, s) => (.ok (path, .kept), s)
  | (none, s) =>
    match Path.compile text with
    | .error e => (.error e, s)
    | .ok path => (.ok (path, .compiled), m.put s text path)

/-- The map behind an operation. -/
def apply (m : RecencyMap σ) (s : σ) : Operation → σ
  | .request text => (m.request s text).2
  | .clear => m.clear s

/-- The map for a number of paths, which is at least one, behind some operations. -/
def after (m : RecencyMap σ) (n : Nat) (history : List Operation) : σ :=
  history.foldl m.apply (m.new (max 1 n))

/-- A map and a cache have the same entries in the same order. -/
structure Matches (m : RecencyMap σ) (order : σ → List (String × Path)) (s : σ) (c : PathCache) :
    Prop where
  order_eq : order s = c.entries
  capacity_eq : m.capacity s = c.capacity

theorem Lawful.put_eq (h : m.Lawful order) (hs : m.Matches order s c) (hc : c.Recalls recent)
    (hnot : text ∉ c.keys) : m.Matches order (m.put s text path) (c.insert text path) := by
  have hnot' : text ∉ (order s).map Prod.fst := by
    rw [hs.order_eq]
    exact hnot
  refine ⟨?_, (h.capacity_put s text path).trans hs.capacity_eq⟩
  rw [PathCache.insert, without_eq_self hnot]
  rcases Nat.lt_or_eq_of_le hc.length_le with hlt | heq
  · have hroom : (order s).length < m.capacity s := by rwa [hs.order_eq, hs.capacity_eq]
    rw [h.put_of_room s text path hnot' hroom, hs.order_eq]
    exact (List.take_of_length_le hlt).symm
  · have hne : c.entries ≠ [] := by
      rintro hnil
      rw [hnil] at heq
      exact Nat.ne_of_lt hc.capacity_pos heq
    have hfull : (order s).length = m.capacity s := by rwa [hs.order_eq, hs.capacity_eq]
    obtain ⟨n, hn⟩ := Nat.exists_eq_succ_of_ne_zero (Nat.ne_of_gt hc.capacity_pos)
    rw [h.put_of_full s text path hnot' (hs.order_eq ▸ hne) hfull, hs.order_eq, hn,
      List.take_succ_cons, List.dropLast_eq_take, heq, hn]
    rfl

/-- A look-up finds the same path, and leaves the same entries. -/
theorem Lawful.get_eq (h : m.Lawful order) (hs : m.Matches order s c) (hc : c.Recalls recent)
    (text : String) : (m.get s text).1 = (c.lookup text).1 ∧
      m.Matches order (m.get s text).2 (c.lookup text).2 := by
  have hcapacity : m.capacity (m.get s text).2 = c.capacity :=
    (h.capacity_get s text).trans hs.capacity_eq
  rcases c.lookup_cases text with ⟨path, hmem, hlookup⟩ | ⟨hnot, hlookup⟩
  · obtain ⟨front, behind, hsplit⟩ := List.append_of_mem hmem
    have hnodup : ((order s).map Prod.fst).Nodup := hs.order_eq ▸ hc.nodup
    obtain ⟨hget, horder⟩ :=
      h.get_of_mem s front text path behind hnodup (hs.order_eq.trans hsplit)
    have hwithout : without c.entries text = front ++ behind := by
      have hkeys := hc.nodup
      rw [keys, hsplit] at hkeys
      rw [hsplit, without_eq hkeys]
    rw [hlookup]
    exact ⟨hget, horder.trans (by rw [hwithout]), hcapacity⟩
  · obtain ⟨hget, horder⟩ := h.get_of_not_mem s text (hs.order_eq ▸ hnot)
    rw [hlookup]
    exact ⟨hget, horder.trans hs.order_eq, hcapacity⟩

/-- A request has the same answer, and leaves the same entries. -/
theorem Lawful.request_eq (h : m.Lawful order) (hs : m.Matches order s c) (hc : c.Recalls recent)
    (text : String) : (m.request s text).1 = (c.request text).1 ∧
      m.Matches order (m.request s text).2 (c.request text).2 := by
  obtain ⟨hget, hmatches⟩ := h.get_eq hs hc text
  rw [request, PathCache.request]
  generalize m.get s text = found at hget hmatches ⊢
  obtain ⟨_, s'⟩ := found
  rcases c.lookup_cases text with ⟨path, -, hlookup⟩ | ⟨hnot, hlookup⟩
  · rw [hlookup] at hget hmatches ⊢
    obtain rfl : _ = some path := hget
    exact ⟨rfl, hmatches⟩
  · rw [hlookup] at hget hmatches ⊢
    obtain rfl : _ = none := hget
    dsimp only
    cases Path.compile text with
    | error e => exact ⟨rfl, hmatches⟩
    | ok path => exact ⟨rfl, h.put_eq hmatches hc hnot⟩

/-- A map and a cache stay the same through a history. -/
theorem Lawful.matches_after (h : m.Lawful order) (n : Nat) (history : List Operation) :
    m.Matches order (m.after n history) (PathCache.after n history) := by
  induction history using List.reverseRecOn with
  | nil => exact ⟨h.order_new _, h.capacity_new _ (Nat.le_max_left ..)⟩
  | append_singleton history operation ih =>
    rw [after_concat, after, List.foldl_concat]
    cases operation with
    | request text => exact (h.request_eq ih (recalls_after n history) text).2
    | clear => exact ⟨h.order_clear _, (h.capacity_clear _).trans ih.capacity_eq⟩

end RecencyMap

/-! ## The cache -/

namespace PathCache

/-- A list of entries, the one used last in front, is such a map. -/
def asMap : RecencyMap PathCache where
  new n := ⟨n, []⟩
  get := lookup
  put := insert
  clear := clear
  size := size
  capacity := capacity

theorem find?_eq_some {front behind : List (String × Path)} {text : String} {path : Path}
    (h : text ∉ front.map Prod.fst) :
    (front ++ (text, path) :: behind).find? (fun entry => entry.1 == text) =
      some (text, path) := by
  have hnone : front.find? (fun entry => entry.1 == text) = none :=
    List.find?_eq_none.2 fun entry hentry => by
      simpa using ne_of_mem_of_not_mem (List.mem_map_of_mem hentry) h
  rw [List.find?_append, hnone, Option.none_or, List.find?_cons_of_pos (by simp)]

theorem lawful_asMap : asMap.Lawful entries where
  order_new _ := rfl
  order_clear _ := rfl
  get_of_mem c front text path behind hnodup hsplit := by
    rw [hsplit] at hnodup
    have hfront : text ∉ front.map Prod.fst := by
      rw [List.map_append, List.map_cons, List.nodup_middle, List.nodup_cons] at hnodup
      exact fun hmem => hnodup.1 (List.mem_append_left _ hmem)
    have hlookup : asMap.get c text =
        (some path, { c with entries := (text, path) :: (front ++ behind) }) := by
      simp only [asMap, lookup, hsplit, find?_eq_some hfront, without_eq hnodup]
    rw [hlookup]
    exact ⟨rfl, rfl⟩
  get_of_not_mem c text hnot := by
    have hnone : c.entries.find? (fun entry => entry.1 == text) = none :=
      List.find?_eq_none.2 fun entry hentry => by
        simpa using ne_of_mem_of_not_mem (List.mem_map_of_mem hentry) hnot
    have hlookup : asMap.get c text = (none, c) := by
      simp only [asMap, lookup, hnone]
    rw [hlookup]
    exact ⟨rfl, rfl⟩
  put_of_room c text path hnot hlt := by
    simp only [asMap, insert, without_eq_self hnot]
    exact List.take_of_length_le hlt
  put_of_full c text path hnot hne hlength := by
    obtain ⟨n, hn⟩ : ∃ n, c.capacity = n + 1 := by
      obtain ⟨n, hn⟩ := Nat.exists_eq_succ_of_ne_zero (List.length_eq_zero_iff.not.2 hne)
      exact ⟨n, hlength.symm.trans hn⟩
    have hlength' : c.entries.length = n + 1 := hlength.trans hn
    simp only [asMap, insert, without_eq_self hnot, hn, List.take_succ_cons,
      List.dropLast_eq_take, hlength', Nat.add_sub_cancel]
  size_eq _ := rfl
  capacity_new _ _ := rfl
  capacity_get c text := by
    simp only [asMap, lookup]
    split <;> rfl
  capacity_put _ _ _ := rfl
  capacity_clear _ := rfl

/-- **What a cache answers.** Behind any history, a request has the path of its text or its error.
It is answered with the path that is kept in the cache if the text was requested since the cache was
last cleared and fewer others than it can hold have been requested since then; a request that fails
changes nothing; and the cache is as full as the texts requested since it was cleared make it. Every
map that keeps the entries used last gives the same answers, and keeps its entries in the same
order. -/
theorem request_after (n : Nat) (history : List Operation) (text : String) :
    ((after n history).request text).1.map Prod.fst = Path.compile text ∧
    (∀ path, ((after n history).request text).1 = .ok (path, .kept) ↔
      (text, path) ∈ (after n history).entries) ∧
    ((∃ path, (text, path) ∈ (after n history).entries) ↔ text ∈ requested history ∧
      ((requested history).takeWhile (· != text)).eraseDups.length < max 1 n) ∧
    (∀ e, Path.compile text = .error e →
      ((after n history).request text).2 = after n history) ∧
    (after n history).size = min (max 1 n) (requested history).eraseDups.length ∧
    ∀ {σ : Type} (m : RecencyMap σ) (order : σ → List (String × Path)), m.Lawful order →
      (m.request (m.after n history) text).1 = ((after n history).request text).1 ∧
      order (m.request (m.after n history) text).2 = ((after n history).request text).2.entries ∧
      m.size (m.after n history) = (after n history).size := by
  have hrecalls := recalls_after n history
  have hcapacity := capacity_after n history
  refine ⟨hrecalls.fst_request text, fun path => hrecalls.request_eq_kept_iff, ?_,
    fun e he => request_of_error hrecalls he, ?_, fun m order h => ?_⟩
  · rw [← hcapacity]
    exact hrecalls.exists_mem_iff
  · rw [← hcapacity]
    exact hrecalls.size_eq
  · have hmatches := h.matches_after n history
    obtain ⟨hanswer, hbehind⟩ := h.request_eq hmatches hrecalls text
    refine ⟨hanswer, hbehind.order_eq, ?_⟩
    rw [h.size_eq, hmatches.order_eq, size]

/-- Requests with a clearing, a text that does not compile and one that comes twice. -/
def sampleHistory : List Operation :=
  [.request "d", .clear, .request "a", .request "b", .request "a[", .request "a", .request "c"]

/-- With room for two, `a` is still there and `b` is not. -/
theorem request_after_sampleHistory : requested sampleHistory = ["c", "a", "b", "a"] ∧
    ((after 2 sampleHistory).request "a").1.map Prod.fst = Path.compile "a" ∧
    (∃ path, ("a", path) ∈ (after 2 sampleHistory).entries) ∧
    (¬ ∃ path, ("b", path) ∈ (after 2 sampleHistory).entries) ∧
    (after 2 sampleHistory).size = 2 ∧ asMap.Lawful entries ∧
    (asMap.request (asMap.after 2 sampleHistory) "a").1 =
      ((after 2 sampleHistory).request "a").1 := by
  have hrequested : requested sampleHistory = ["c", "a", "b", "a"] := by decide +kernel
  obtain ⟨hpath, -, hmem, -, hsize, hmap⟩ := request_after 2 sampleHistory "a"
  have hmem' := (request_after 2 sampleHistory "b").2.2.1
  rw [hrequested] at hmem hmem' hsize
  exact ⟨hrequested, hpath, hmem.2 (by decide), fun h => absurd (hmem'.1 h).2 (by decide),
    hsize.trans (by decide), lawful_asMap, (hmap asMap entries lawful_asMap).1⟩

end PathCache

end MarkupQuery.Query
