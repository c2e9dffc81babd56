import Mathlib.Data.List.Induction
import MarkupQuery.Proofs.FirstOccurrences
import MarkupQuery.Proofs.NodeTree.Growth
import MarkupQuery.Proofs.Text.ByteCounts

/-!
# The pool as a dictionary

As long as its buffer is short enough for offsets of 32 bits, a pool keeps each string once,
whatever the hash function is: a string that is interned again is found, because its number stands
in the index under its hash value and reads as the string. `StringPool.Keeps` lists the strings of a
pool in the order of their numbers. The main statement is `StringPool.keeps_internAll`: strings that
are interned one after the other are kept in the order in which they first come. That is what a
builder does with the strings of the tokens it takes (`Builder.strings_run_push`).
-/

namespace MarkupQuery.NodeTree

open Markup Text

namespace StringPool

/-- The strings that a pool has to keep if these are interned: the empty one has its number
already, and of the others the first occurrences count. -/
def kept (strings : List String) : List String :=
  (strings.filter (· != "")).eraseDups

/-- The pool with some strings interned one after the other. -/
def internAll (hash : String → UInt64) (p : StringPool) (strings : List String) : StringPool :=
  strings.foldl (fun p s => (p.internBy hash s).2) p

/-- The pool keeps just these strings and the empty one, each with its place for a number, and
finds each of them under its hash value. -/
structure Keeps (hash : String → UInt64) (p : StringPool) (strings : List String) : Prop where
  /-- No string is kept twice. -/
  nodup : ("" :: strings).Nodup
  /-- No other number was handed out. -/
  size_entries : p.entries.size = ("" :: strings).length
  /-- The buffer holds nothing else. -/
  size_data : p.data.size = bytesOf strings
  /-- The place of a string is its number. -/
  names : ∀ id s, ("" :: strings)[id.toNat]? = some s → p.Names id s
  /-- The index knows no other numbers. -/
  known : ∀ key, ∀ id ∈ p.index.getD key [], id.toNat < ("" :: strings).length
  /-- The index knows every string. -/
  found : ∀ s ∈ strings, ∃ id ∈ p.index.getD (hash s) [], ("" :: strings)[id.toNat]? = some s

variable {hash : String → UInt64} {p : StringPool} {strings rest : List String} {s : String}
  {id : UInt32}

theorem internAll_append (hash : String → UInt64) (p : StringPool) (strings rest : List String) :
    p.internAll hash (strings ++ rest) = (p.internAll hash strings).internAll hash rest :=
  List.foldl_append

/-! ## The strings that have to be kept -/

theorem mem_kept_iff : s ∈ kept strings ↔ s ∈ strings ∧ s ≠ "" := by
  rw [kept, List.mem_eraseDups, List.mem_filter, bne_iff_ne]

theorem nodup_kept (strings : List String) : (kept strings).Nodup :=
  nodup_eraseDups _

/-- A string that is empty or has come before changes nothing; any other comes last. -/
theorem kept_concat (strings : List String) (s : String) :
    kept (strings ++ [s]) =
      if s = "" ∨ s ∈ kept strings then kept strings else kept strings ++ [s] := by
  by_cases hs : s = ""
  · rw [if_pos (.inl hs), kept, List.filter_append, hs]
    simp [kept]
  · have hfilter : ([s].filter (· != "")) = [s] := by simp [hs]
    have hmem : (s = "" ∨ s ∈ kept strings) ↔ s ∈ strings.filter (· != "") := by
      rw [or_iff_right hs, kept, List.mem_eraseDups]
    rw [kept, List.filter_append, hfilter, eraseDups_concat]
    exact if_congr hmem.symm rfl rfl

theorem bytesOf_kept_le_concat (strings : List String) (s : String) :
    bytesOf (kept strings) ≤ bytesOf (kept (strings ++ [s])) := by
  rw [kept_concat]
  split
  · exact Nat.le_refl _
  · rw [bytesOf_append]
    exact Nat.le_add_right _ _

/-! ## Interning one string -/

namespace Keeps

theorem empty_not_mem (h : p.Keeps hash strings) : "" ∉ strings :=
  (List.nodup_cons.1 h.nodup).1

theorem sound (h : p.Keeps hash strings) : p.Sound where
  names_zero := h.names 0 "" rfl
  size_le := by
    rw [h.size_entries, h.size_data, List.length_cons]
    exact Nat.succ_le_succ (length_le_bytesOf h.empty_not_mem)

/-- A number of the index reads as the string in its place. -/
theorem get_eq (h : p.Keeps hash strings) (hid : id.toNat < ("" :: strings).length) :
    p.get id = ("" :: strings)[id.toNat] :=
  (h.names id _ (List.getElem?_eq_getElem hid)).get_eq

/-- A string that is kept is found, and its number is its place. -/
theorem find?_eq (h : p.Keeps hash strings) (hs : s ∈ strings) :
    ∃ id, (p.index.getD (hash s) []).find? (fun id => p.get id == s) = some id ∧
      ("" :: strings)[id.toNat]? = some s := by
  obtain ⟨known, hknown, hplace⟩ := h.found s hs
  have hreads : p.get known == s := beq_iff_eq.2 (h.names known s hplace).get_eq
  have hsome : ((p.index.getD (hash s) []).find? fun id => p.get id == s).isSome = true :=
    List.find?_isSome.2 ⟨known, hknown, hreads⟩
  obtain ⟨id, hid⟩ := Option.isSome_iff_exists.1 hsome
  refine ⟨id, hid, ?_⟩
  have hlt := h.known _ id (List.mem_of_find?_eq_some hid)
  have hget : p.get id = s := by simpa using List.find?_some hid
  rw [List.getElem?_eq_getElem hlt, ← h.get_eq hlt, hget]

/-- A string that is not kept is not found. -/
theorem find?_eq_none (h : p.Keeps hash strings) (hs : s ∉ "" :: strings) (key : UInt64) :
    (p.index.getD key []).find? (fun id => p.get id == s) = none := by
  refine List.find?_eq_none.2 fun id hid hreads => hs ?_
  have hlt := h.known key id hid
  rw [← beq_iff_eq.1 hreads, h.get_eq hlt]
  exact List.getElem_mem hlt

/-- The string that is empty or kept gets the number of its place, and the pool stays as it is. -/
theorem internBy_of_mem (h : p.Keeps hash strings) (hs : s = "" ∨ s ∈ strings) :
    ("" :: strings)[(p.internBy hash s).1.toNat]? = some s ∧ (p.internBy hash s).2 = p := by
  unfold internBy
  split
  · rename_i hempty
    obtain rfl := String.isEmpty_iff.1 hempty
    exact ⟨rfl, rfl⟩
  · rename_i hempty
    obtain ⟨id, hid, hplace⟩ := h.find?_eq (hs.resolve_left (mt String.isEmpty_iff.2 hempty))
    dsimp only
    rw [hid]
    exact ⟨hplace, rfl⟩

/-- A string that is not there is put behind the others. -/
theorem internBy_of_not_mem (h : p.Keeps hash strings) (hs : s ∉ "" :: strings)
    (hsize : bytesOf (strings ++ [s]) < UInt32.size) :
    (p.internBy hash s).1.toNat = strings.length + 1 ∧
      (p.internBy hash s).2.Keeps hash (strings ++ [s]) := by
  have hempty : ¬ s.isEmpty = true := fun h' => hs (String.isEmpty_iff.1 h' ▸ List.mem_cons_self ..)
  have hne : s ≠ "" := mt String.isEmpty_iff.2 hempty
  have hpos := utf8ByteSize_pos hne
  have hlength := length_le_bytesOf h.empty_not_mem
  rw [bytesOf_append, bytesOf_cons, bytesOf_nil, Nat.add_zero] at hsize
  have hentries : p.entries.size = strings.length + 1 := h.size_entries
  have hid : p.entries.size.toUInt32.toNat = strings.length + 1 := by
    rw [hentries]
    exact UInt32.toNat_ofNat_of_lt' (by omega)
  have hdata : (Span.append p.data s).2.size = bytesOf strings + s.utf8ByteSize := by
    rw [Span.append_snd, ByteArray.size_append, h.size_data, String.toUTF8_eq_toByteArray,
      String.size_toByteArray]
  have hnew := Span.holds_append p.data s (hdata ▸ hsize)
  have heq : p.internBy hash s = (p.entries.size.toUInt32,
      ⟨p.entries.push (Span.append p.data s).1, (Span.append p.data s).2,
        p.index.insert (hash s) (p.index.getD (hash s) [] ++ [p.entries.size.toUInt32])⟩) := by
    rw [internBy, if_neg hempty]
    dsimp only
    rw [h.find?_eq_none hs]
  have hold : ∀ id : UInt32, id.toNat < strings.length + 1 →
      ("" :: (strings ++ [s]))[id.toNat]? = ("" :: strings)[id.toNat]? := fun id hlt => by
    rw [← List.cons_append, List.getElem?_append_left hlt]
  have hlast : ("" :: (strings ++ [s]))[strings.length + 1]? = some s := by
    rw [List.getElem?_cons_succ, List.getElem?_concat_length]
  rw [heq]
  refine ⟨hid, ?_, ?_, ?_, ?_, ?_, ?_⟩
  · rw [← List.cons_append, ← List.concat_eq_append]
    exact h.nodup.concat hs
  · rw [Array.size_push, h.size_entries, ← List.cons_append, List.length_append]
    rfl
  · rw [hdata, bytesOf_append, bytesOf_cons, bytesOf_nil, Nat.add_zero]
  · intro id t ht
    rcases Nat.lt_or_ge id.toNat (strings.length + 1) with hlt | hge
    · obtain ⟨entry, hentry, hholds⟩ := h.names id t (hold id hlt ▸ ht)
      refine ⟨entry, ?_, hholds.append _⟩
      rw [Array.getElem?_push, if_neg (by omega), hentry]
    · have hlt := (List.getElem?_eq_some_iff.1 ht).1
      rw [List.length_cons, List.length_append, List.length_singleton] at hlt
      have hidlast : id.toNat = strings.length + 1 := by omega
      rw [hidlast, hlast] at ht
      obtain rfl := Option.some.inj ht
      exact ⟨_, by rw [hidlast, ← hentries, Array.getElem?_push, if_pos rfl], hnew⟩
  · intro key id hmem
    rw [List.length_cons, List.length_append, List.length_singleton]
    rw [Std.HashMap.getD_insert] at hmem
    split at hmem
    · rcases List.mem_append.1 hmem with hmem | hmem
      · exact Nat.lt_succ_of_lt (h.known _ id hmem)
      · obtain rfl := List.mem_singleton.1 hmem
        omega
    · exact Nat.lt_succ_of_lt (h.known _ id hmem)
  · intro t ht
    rcases List.mem_append.1 ht with ht | ht
    · obtain ⟨id, hmem, hplace⟩ := h.found t ht
      have hlt := (List.getElem?_eq_some_iff.1 hplace).1
      refine ⟨id, ?_, (hold id hlt).trans hplace⟩
      rw [Std.HashMap.getD_insert]
      split
      · rename_i hkey
        rw [beq_iff_eq.1 hkey]
        exact List.mem_append_left _ hmem
      · exact hmem
    · obtain rfl := List.mem_singleton.1 ht
      refine ⟨_, ?_, hid ▸ hlast⟩
      rw [Std.HashMap.getD_insert, if_pos (beq_self_eq_true _)]
      exact List.mem_append_right _ (List.mem_singleton_self _)

end Keeps

/-! ## Interning many strings -/

theorem keeps_empty (hash : String → UInt64) : StringPool.empty.Keeps hash [] where
  nodup := List.nodup_singleton _
  size_entries := rfl
  size_data := rfl
  names id s hs := by
    have hlt : id.toNat < 1 := (List.getElem?_eq_some_iff.1 hs).1
    obtain rfl : id = 0 := UInt32.toNat_inj.1 (Nat.lt_one_iff.1 hlt)
    obtain rfl := Option.some.inj hs
    exact sound_empty.names_zero
  known key id hid := by simp [empty] at hid
  found s hs := by cases hs

/-- **Strings that are interned are kept once each**, in the order in which they first come. -/
theorem keeps_internAll (hash : String → UInt64) (strings : List String)
    (hsize : bytesOf (kept strings) < UInt32.size) :
    (empty.internAll hash strings).Keeps hash (kept strings) := by
  induction strings using List.reverseRecOn with
  | nil => exact keeps_empty hash
  | append_singleton before s ih =>
    have h := ih (Nat.lt_of_le_of_lt (bytesOf_kept_le_concat before s) hsize)
    rw [kept_concat] at hsize ⊢
    rw [internAll, List.foldl_append]
    change ((empty.internAll hash before).internBy hash s).2.Keeps _ _
    split
    · rename_i hs
      rw [(h.internBy_of_mem hs).2]
      exact h
    · rename_i hs
      rw [if_neg hs] at hsize
      rw [not_or] at hs
      exact (h.internBy_of_not_mem (by simp [hs.1, hs.2]) hsize).2

end StringPool

/-! ## Builders and documents -/

namespace Builder

theorem strings_addAttribute (b : Builder) (element : NodeId) (a : Attribute) :
    (b.addAttribute element a).strings = b.strings.internAll StringPool.hashOf a.strings := by
  obtain ⟨⟨space, base⟩, value⟩ := a
  cases space <;> rfl

theorem strings_addElement (b : Builder) (name : ExpandedName) :
    (b.addElement name).strings = b.strings.internAll StringPool.hashOf name.strings := by
  obtain ⟨space, base⟩ := name
  cases space <;> rfl

theorem strings_addAttributes (element : NodeId) (attributes : List Attribute) (b : Builder) :
    (attributes.foldl (fun b a => b.addAttribute element a) b).strings =
      b.strings.internAll StringPool.hashOf (attributes.flatMap Attribute.strings) := by
  induction attributes generalizing b with
  | nil => rfl
  | cons a rest ih =>
    rw [List.foldl_cons, ih, strings_addAttribute, List.flatMap_cons, StringPool.internAll_append]

/-- A token has its strings interned, also if it is refused. -/
theorem strings_push (b : Builder) (t : Token) :
    (b.push t).2.strings = b.strings.internAll StringPool.hashOf t.strings := by
  cases t with
  | startTag name attributes =>
    rw [Token.strings, StringPool.internAll_append, ← strings_addElement, ← strings_addAttributes]
    rfl
  | endTag =>
    rw [push, endElement]
    split <;> rfl
  | text | comment | instruction => rfl

theorem strings_run_push (tokens : List Token) (b : Builder) :
    (b.run (tokens.map .push)).strings =
      b.strings.internAll StringPool.hashOf (tokens.flatMap Token.strings) := by
  induction tokens generalizing b with
  | nil => rfl
  | cons t rest ih =>
    rw [List.map_cons, run_cons, ih, List.flatMap_cons, StringPool.internAll_append]
    exact congrArg (StringPool.internAll _ · _) (b.strings_push t)

end Builder

/-- A document has the strings of its tokens, interned one after the other. -/
theorem Document.strings_of_ofItems {ε : Type} {tokens : List Token} {d : Document}
    (h : Document.ofItems (tokens.map (Except.ok : Token → Except ε Token)) = .ok d) :
    d.strings = (StringPool.empty.internAll StringPool.hashOf
      (tokens.flatMap Token.strings)).freeze := by
  obtain ⟨b, hb, -, rfl⟩ := exists_takeAll_of_ofItems h
  rw [Builder.eq_run_of_takeAll hb]
  exact congrArg StringPool.freeze (Builder.strings_run_push tokens Builder.empty)

end MarkupQuery.NodeTree
