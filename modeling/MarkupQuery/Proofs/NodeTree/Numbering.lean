import Mathlib.Algebra.BigOperators.Group.Finset.Basic
import MarkupQuery.Proofs.NodeTree.Dictionary

/-!
# The numbers of strings

Strings that are interned one after the other get numbers; `StringPool.numbered` lists the strings
with the numbers that they get. The number of a string is its place behind the empty string among
those that are kept (`getElem?_of_mem_numbered`). So equal strings and no others share a number, and
a string that has not come before gets the next one.

The main statement, `StringPool.numbers_of_strings`, says this for all hash functions, together with
what a number reads as at any later point, and how much is kept there.
-/

namespace MarkupQuery.NodeTree.StringPool

open Text

/-- Strings that are interned one after the other, with the numbers that they get. -/
def numbered (hash : String → UInt64) (p : StringPool) : List String → List (String × UInt32)
  | [] => []
  | s :: rest => (s, (p.internBy hash s).1) :: (p.internBy hash s).2.numbered hash rest

variable {hash : String → UInt64} {p : StringPool} {strings before : List String} {s t : String}
  {id id' : UInt32} {n : Nat}

theorem numbered_concat (hash : String → UInt64) (p : StringPool) (before : List String)
    (s : String) : p.numbered hash (before ++ [s]) =
      p.numbered hash before ++ [(s, ((p.internAll hash before).internBy hash s).1)] := by
  induction before generalizing p with
  | nil => rfl
  | cons t before ih => exact congrArg (_ :: ·) (ih _)

theorem take_numbered (hash : String → UInt64) (p : StringPool) (strings : List String) (n : Nat) :
    (p.numbered hash strings).take n = p.numbered hash (strings.take n) := by
  induction strings generalizing p n with
  | nil => rw [numbered, List.take_nil, List.take_nil, numbered]
  | cons s rest ih =>
    cases n with
    | zero => rfl
    | succ n => exact congrArg (_ :: ·) (ih _ n)

theorem map_fst_numbered (hash : String → UInt64) (p : StringPool) (strings : List String) :
    (p.numbered hash strings).map Prod.fst = strings := by
  induction strings generalizing p with
  | nil => rfl
  | cons s rest ih => exact congrArg (s :: ·) (ih _)

/-! ## Different strings -/

theorem toFinset_kept (strings : List String) :
    (kept strings).toFinset = strings.toFinset.erase "" := by
  ext s
  simp only [List.mem_toFinset, mem_kept_iff, Finset.mem_erase, and_comm]

theorem length_kept (strings : List String) :
    (kept strings).length = (strings.toFinset.erase "").card := by
  rw [← toFinset_kept, List.toFinset_card_of_nodup (nodup_kept strings)]

theorem bytesOf_kept (strings : List String) :
    bytesOf (kept strings) = ∑ s ∈ strings.toFinset, s.utf8ByteSize := by
  rw [← Finset.sum_erase strings.toFinset (show "".utf8ByteSize = 0 from rfl), ← toFinset_kept,
    List.sum_toFinset _ (nodup_kept strings), bytesOf]

theorem bytesOf_kept_take_le (strings : List String) (n : Nat) :
    bytesOf (kept (strings.take n)) ≤ bytesOf (kept strings) := by
  refine bytesOf_le_of_subset (nodup_kept _) fun s hs => ?_
  obtain ⟨hs, hne⟩ := mem_kept_iff.1 hs
  exact mem_kept_iff.2 ⟨List.mem_of_mem_take hs, hne⟩

/-- Strings that come later are kept behind the others. -/
theorem kept_isPrefix_concat (before : List String) (s : String) :
    kept before <+: kept (before ++ [s]) := by
  rw [kept_concat]
  split
  · exact List.prefix_rfl
  · exact List.prefix_append ..

/-! ## Numbers are places -/

/-- The number of a string is its place among those that are kept then. -/
theorem getElem?_internBy (hsize : bytesOf (kept (before ++ [s])) < UInt32.size) :
    ("" :: kept (before ++ [s]))[((empty.internAll hash before).internBy hash s).1.toNat]? =
      some s := by
  have h := keeps_internAll hash before
    (Nat.lt_of_le_of_lt (bytesOf_kept_le_concat before s) hsize)
  rw [kept_concat] at hsize ⊢
  split
  · rename_i hs
    exact (h.internBy_of_mem hs).1
  · rename_i hs
    rw [if_neg hs] at hsize
    rw [not_or] at hs
    rw [(h.internBy_of_not_mem (by simp [hs.1, hs.2]) hsize).1, List.getElem?_cons_succ,
      List.getElem?_concat_length]

/-- It stays its place when other strings come. -/
theorem getElem?_of_mem_numbered (hsize : bytesOf (kept strings) < UInt32.size)
    (hmem : (s, id) ∈ empty.numbered hash strings) :
    ("" :: kept strings)[id.toNat]? = some s := by
  induction strings using List.reverseRecOn with
  | nil => cases hmem
  | append_singleton before t ih =>
    rw [numbered_concat] at hmem
    rcases List.mem_append.1 hmem with hmem | hmem
    · have hbefore := ih (Nat.lt_of_le_of_lt (bytesOf_kept_le_concat before t) hsize) hmem
      obtain ⟨hlt, heq⟩ := List.getElem?_eq_some_iff.1 hbefore
      have hkept : ("" :: kept before) <+: ("" :: kept (before ++ [t])) :=
        List.cons_prefix_cons.2 ⟨rfl, kept_isPrefix_concat before t⟩
      rw [List.prefix_iff_getElem?.1 hkept _ hlt, heq]
    · obtain ⟨rfl, rfl⟩ := Prod.mk.inj (List.mem_singleton.1 hmem)
      exact getElem?_internBy hsize

/-- Every place is the number of a string. -/
theorem mem_numbered_of_getElem? (hsize : bytesOf (kept strings) < UInt32.size) (hne : s ≠ "")
    (hplace : ("" :: kept strings)[id.toNat]? = some s) :
    (s, id) ∈ empty.numbered hash strings := by
  have hs : s ∈ strings := by
    rcases List.mem_cons.1 (List.mem_of_getElem? hplace) with rfl | hs
    · exact absurd rfl hne
    · exact (mem_kept_iff.1 hs).1
  rw [← map_fst_numbered hash empty strings, List.mem_map] at hs
  obtain ⟨⟨t, id'⟩, hmem, rfl⟩ := hs
  have hplace' := getElem?_of_mem_numbered hsize hmem
  have hid : id = id' := UInt32.toNat_inj.1 <|
    (List.getElem?_inj (List.getElem?_eq_some_iff.1 hplace).1
      (keeps_internAll hash strings hsize).nodup).1 (hplace.trans hplace'.symm)
  exact hid ▸ hmem

/-- Strings share a number exactly if they are equal. -/
theorem eq_iff_of_mem_numbered (hsize : bytesOf (kept strings) < UInt32.size)
    (hs : (s, id) ∈ empty.numbered hash strings) (ht : (t, id') ∈ empty.numbered hash strings) :
    id = id' ↔ s = t := by
  have hplace := getElem?_of_mem_numbered hsize hs
  have hplace' := getElem?_of_mem_numbered hsize ht
  have hlt := (List.getElem?_eq_some_iff.1 hplace).1
  have hnodup := (keeps_internAll hash strings hsize).nodup
  rw [← UInt32.toNat_inj, ← List.getElem?_inj hlt hnodup, hplace, hplace', Option.some.injEq]

/-- A string that has not come before gets the next number. -/
theorem toNat_of_not_mem (hsize : bytesOf (kept strings) < UInt32.size)
    (hmem : (empty.numbered hash strings)[n]? = some (s, id)) (hne : s ≠ "")
    (hnot : s ∉ strings.take n) : id.toNat = (kept (strings.take n)).length + 1 := by
  have hs : strings[n]? = some s := by
    rw [← map_fst_numbered hash empty strings, List.getElem?_map, hmem, Option.map_some]
  have htake : strings.take (n + 1) = strings.take n ++ [s] := by
    rw [List.take_add_one, hs, Option.toList_some]
  have hconcat : kept (strings.take (n + 1)) = kept (strings.take n) ++ [s] := by
    rw [htake, kept_concat, if_neg]
    rintro (heq | hkept)
    · exact hne heq
    · exact hnot (mem_kept_iff.1 hkept).1
  have hsize' := Nat.lt_of_le_of_lt (bytesOf_kept_take_le strings (n + 1)) hsize
  have hnew : (s, id) ∈ empty.numbered hash (strings.take (n + 1)) := by
    rw [← take_numbered, List.take_add_one, hmem, Option.toList_some]
    exact List.mem_append_right _ (List.mem_singleton_self _)
  have hplace := getElem?_of_mem_numbered hsize' hnew
  have hlast :
      ("" :: kept (strings.take (n + 1)))[(kept (strings.take n)).length + 1]? = some s := by
    rw [hconcat, List.getElem?_cons_succ, List.getElem?_concat_length]
  exact (List.getElem?_inj (List.getElem?_eq_some_iff.1 hplace).1
    (keeps_internAll hash _ hsize').nodup).1 (hplace.trans hlast.symm)

/-! ## Reading numbers -/

theorem get_freeze (p : StringPool) (id : UInt32) : p.freeze.get id = p.get id :=
  rfl

theorem get_eq_of_mem_numbered (hsize : bytesOf (kept strings) < UInt32.size)
    (hmem : (s, id) ∈ empty.numbered hash strings) : (empty.internAll hash strings).get id = s :=
  ((keeps_internAll hash strings hsize).names id s (getElem?_of_mem_numbered hsize hmem)).get_eq

/-- A number that no string got reads as the empty string. -/
theorem get_eq_empty (hsize : bytesOf (kept strings) < UInt32.size)
    (hnot : ∀ s, (s, id) ∉ empty.numbered hash strings) :
    (empty.internAll hash strings).get id = "" := by
  have hkeeps := keeps_internAll hash strings hsize
  by_contra hne
  -- what reads as a string that is not empty has an entry, so it is a place
  obtain ⟨entry, hentry, -⟩ := names_of_get_eq rfl hne
  have hlt := (Array.getElem?_eq_some_iff.1 hentry).1
  rw [hkeeps.size_entries] at hlt
  refine hnot _ (mem_numbered_of_getElem? hsize hne ?_)
  rw [List.getElem?_eq_getElem hlt, hkeeps.get_eq hlt]

/-! ## The dictionary -/

/-- **The pool is an exact dictionary**, whatever the hash function is. Let strings be interned one
after the other, of which the different ones together are short enough for offsets of 32 bits.

- Each gets a number. Two numbers are equal exactly if the strings are.
- The number is 0 exactly for the empty string.
- A string that is not empty and has not come before gets the number behind those of the different
  strings so far.
- When `n` strings have been interned, the number of each of them reads as the string, and all other
  numbers read as the empty string, be it before or after the pool is frozen.
- Then the pool has one number more than there are different strings that are not empty, and it
  takes as many bytes as these. -/
theorem numbers_of_strings (hash : String → UInt64) (strings : List String)
    (hsize : ∑ s ∈ strings.toFinset, s.utf8ByteSize < UInt32.size) :
    let calls := empty.numbered hash strings
    let pool n := empty.internAll hash (strings.take n)
    let different n := (strings.take n).toFinset.erase ""
    calls.map Prod.fst = strings ∧
      (∀ s id t id', (s, id) ∈ calls → (t, id') ∈ calls → (id = id' ↔ s = t)) ∧
      (∀ s id, (s, id) ∈ calls → (id = 0 ↔ s = "")) ∧
      (∀ n s id, calls[n]? = some (s, id) → s ≠ "" → s ∉ strings.take n →
        id.toNat = (different n).card + 1) ∧
      (∀ n s id, (s, id) ∈ calls.take n → (pool n).get id = s ∧ (pool n).freeze.get id = s) ∧
      (∀ n id, (∀ s, (s, id) ∉ calls.take n) →
        (pool n).get id = "" ∧ (pool n).freeze.get id = "") ∧
      ∀ n, (pool n).size = (different n).card + 1 ∧
        (pool n).bytesUsed = ∑ s ∈ different n, s.utf8ByteSize := by
  rw [← bytesOf_kept] at hsize
  have htake (n : Nat) := Nat.lt_of_le_of_lt (bytesOf_kept_take_le strings n) hsize
  refine ⟨map_fst_numbered hash empty strings, fun s id t id' => eq_iff_of_mem_numbered hsize,
    fun s id hmem => ?_, fun n s id hcall hne hnot => ?_, fun n s id hmem => ?_,
    fun n id hnot => ?_, fun n => ?_⟩
  · have hplace := getElem?_of_mem_numbered hsize hmem
    have hnodup := (keeps_internAll hash strings hsize).nodup
    rw [← UInt32.toNat_inj, ← List.getElem?_inj (List.getElem?_eq_some_iff.1 hplace).1 hnodup,
      hplace]
    exact Option.some_inj
  · rw [← length_kept]
    exact toNat_of_not_mem hsize hcall hne hnot
  · rw [take_numbered] at hmem
    have hget := get_eq_of_mem_numbered (htake n) hmem
    exact ⟨hget, by rw [get_freeze, hget]⟩
  · rw [take_numbered] at hnot
    have hget := get_eq_empty (htake n) hnot
    exact ⟨hget, by rw [get_freeze, hget]⟩
  · have hkeeps := keeps_internAll hash _ (htake n)
    refine ⟨?_, ?_⟩
    · rw [size, hkeeps.size_entries, List.length_cons, length_kept]
    · rw [bytesUsed, hkeeps.size_data, bytesOf_kept]
      exact (Finset.sum_erase _ (show "".utf8ByteSize = 0 from rfl)).symm

/-- Strings of which some come twice, the empty one among them. -/
def repeatedStrings : List String :=
  ["b", "", "ab", "b", "a"]

/-- All hash values are equal here. The number of the third string is read when three strings have
been interned, and the one that the last string gets later is not in use then. -/
theorem numbers_of_repeatedStrings :
    ∑ s ∈ repeatedStrings.toFinset, s.utf8ByteSize < UInt32.size ∧
      empty.numbered (fun _ => 0) repeatedStrings =
        [("b", 1), ("", 0), ("ab", 2), ("b", 1), ("a", 3)] ∧
      (empty.internAll (fun _ => 0) (repeatedStrings.take 3)).freeze.get 2 = "ab" ∧
      (empty.internAll (fun _ => 0) (repeatedStrings.take 3)).freeze.get 3 = "" ∧
      (empty.internAll (fun _ => 0) (repeatedStrings.take 3)).size = 3 ∧
      (empty.internAll (fun _ => 0) (repeatedStrings.take 3)).bytesUsed = 3 := by
  have hsize : ∑ s ∈ repeatedStrings.toFinset, s.utf8ByteSize < UInt32.size := by decide +kernel
  have hcalls : empty.numbered (fun _ => 0) repeatedStrings =
      [("b", 1), ("", 0), ("ab", 2), ("b", 1), ("a", 3)] := by decide +kernel
  obtain ⟨-, -, -, -, hread, hunknown, hkept⟩ :=
    numbers_of_strings (fun _ => 0) repeatedStrings hsize
  obtain ⟨hcount, hbytes⟩ := hkept 3
  rw [hcalls] at hread hunknown
  refine ⟨hsize, hcalls, (hread 3 "ab" 2 (by decide)).2, (hunknown 3 3 fun s hs => ?_).2,
    hcount.trans (by decide +kernel), hbytes.trans (by decide +kernel)⟩
  simp at hs

end MarkupQuery.NodeTree.StringPool
