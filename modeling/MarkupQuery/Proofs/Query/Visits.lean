import Mathlib.Data.List.Nodup
import Mathlib.Data.List.Perm.Subperm
import MarkupQuery.Query.Cursor

/-!
# What is visited

Scans and cursors are asked for one node after another. `Visits next s l` says that the nodes which
come from the state `s` on are those of the list `l`, in this order. A cursor over a scan visits the
nodes of the scan that pass the tests of its step (`Cursor.visits_of_seek`); the fuel of a cursor is
enough because no scan visits a record twice (`Listing`).

`answers` is the same seen from outside: what a series of calls answers, each a node or none
(`answers_eq`).
-/

namespace MarkupQuery.Query

open NodeTree Location

/-! ## Series of calls -/

section Answers

variable {σ : Type} {call : σ → Option (Option NodeId × σ)}

/-- The answers of `n` calls, each a node or none; there are no answers if a call goes astray. -/
def answers (call : σ → Option (Option NodeId × σ)) : Nat → σ → Option (List (Option NodeId))
  | 0, _ => some []
  | n + 1, s =>
    match call s with
    | none => none
    | some (answer, t) => (answers call n t).map (answer :: ·)

/-- If every call gives the head of a list and leaves its tail, then a series of calls gives the
nodes of the list one after the other, and none from then on. -/
theorem answers_eq {Has : σ → List NodeId → Prop}
    (hcall : ∀ s l, Has s l → ∃ t, call s = some (l.head?, t) ∧ Has t l.tail)
    {s : σ} {l : List NodeId} (h : Has s l) (n : Nat) :
    answers call n s = some ((List.range n).map fun i => l[i]?) := by
  induction n generalizing s l with
  | zero => rfl
  | succ n ih =>
    obtain ⟨t, ht, htail⟩ := hcall s l h
    rw [answers, ht]
    simp [ih htail, List.range_succ_eq_map, List.head?_eq_getElem?, Function.comp_def]

end Answers

/-! ## Nodes in turn -/

/-- From a state on, `next` finds the nodes of a list one after the other, and then no more. -/
inductive Visits {σ : Type} (next : σ → Outcome σ) : σ → List NodeId → Prop
  /-- There is no node. -/
  | nil {s : σ} (h : next s = .exhausted) : Visits next s []
  /-- There is a node, and behind it there are the others. -/
  | cons {s t : σ} {id : NodeId} {l : List NodeId} (h : next s = .found id t)
    (ht : Visits next t l) : Visits next s (id :: l)

/-- Visiting depends on a state only through what comes next. -/
theorem Visits.congr {σ : Type} {next : σ → Outcome σ} {s t : σ} {l : List NodeId}
    (h : Visits next s l) (hst : next t = next s) : Visits next t l := by
  cases h with
  | nil hs => exact .nil (hst.trans hs)
  | cons hs hl => exact .cons (hst.trans hs) hl

/-- A list of different records. -/
structure Listing (d : Document) (l : List NodeId) : Prop where
  nodup : l.Nodup
  lt_recordCount : ∀ x ∈ l, x.toNat < d.recordCount

namespace Listing

variable {d : Document} {l l' : List NodeId} {x : NodeId}

theorem sublist (h : Listing d l) (hl : l'.Sublist l) : Listing d l' :=
  ⟨h.nodup.sublist hl, fun x hx => h.lt_recordCount x (hl.subset hx)⟩

theorem reverse (h : Listing d l) : Listing d l.reverse :=
  ⟨List.nodup_reverse.2 h.nodup, fun x hx => h.lt_recordCount x (List.mem_reverse.1 hx)⟩

theorem length_le (h : Listing d l) : l.length ≤ d.recordCount := by
  have hnodup : (l.map UInt32.toNat).Nodup := h.nodup.map fun _ _ => UInt32.toNat_inj.1
  have hsubset : l.map UInt32.toNat ⊆ List.range d.recordCount := by
    intro n hn
    obtain ⟨x, hx, rfl⟩ := List.mem_map.1 hn
    exact List.mem_range.2 (h.lt_recordCount x hx)
  simpa using (List.Nodup.subperm hnodup hsubset).length_le

theorem exists_record (h : Listing d l) (hx : x ∈ l) : ∃ r, d.record? x = some r :=
  ⟨_, Array.getElem?_eq_getElem (h.lt_recordCount x hx)⟩

end Listing

/-! ## Cursors over scans -/

namespace Cursor

variable {d : Document} {step : Step} {scan : Scan} {cursor : Cursor} {l : List NodeId}

/-- One call on a cursor: its answer, and the cursor behind it. -/
def call (d : Document) (step : Step) (cursor : Cursor) : Option (Option NodeId × Cursor) :=
  match cursor.advance d step with
  | .astray => none
  | .exhausted => some (none, .exhausted)
  | .found id ahead => some (some id, ahead)

theorem visits_exhausted (d : Document) (step : Step) :
    Visits (advance d step) .exhausted [] :=
  .nil rfl

theorem exists_call (h : Visits (advance d step) cursor l) :
    ∃ ahead, cursor.call d step = some (l.head?, ahead) ∧ Visits (advance d step) ahead l.tail := by
  cases h with
  | nil h => exact ⟨.exhausted, by simp [call, h], visits_exhausted d step⟩
  | cons h hl => exact ⟨_, by simp [call, h], hl⟩

/-- The first accepted node of a scan, if there is one, and what the scan visits behind it. -/
theorem seek_cases (step : Step) (h : Visits (Scan.next d) scan l) (hl : Listing d l) {fuel : Nat}
    (hfuel : l.length < fuel) :
    (seek d step fuel scan = .exhausted ∧ l.filter (accepts d step) = []) ∨
    ∃ id ahead rest, seek d step fuel scan = .found id (.active ahead) ∧
      Visits (Scan.next d) ahead rest ∧ (id :: rest).Sublist l ∧
      l.filter (accepts d step) = id :: rest.filter (accepts d step) := by
  induction h generalizing fuel with
  | nil h =>
    obtain ⟨fuel, rfl⟩ := Nat.exists_eq_succ_of_ne_zero (Nat.ne_zero_of_lt hfuel)
    exact .inl ⟨by simp [seek, h], rfl⟩
  | @cons scan ahead id l h ht ih =>
    obtain ⟨fuel, rfl⟩ := Nat.exists_eq_succ_of_ne_zero (Nat.ne_zero_of_lt hfuel)
    obtain ⟨r, hr⟩ := hl.exists_record (List.mem_cons_self ..)
    have haccepts : accepts d step id = acceptsRecord d step r := by simp [accepts, hr]
    simp only [seek, h, hr]
    by_cases hac : acceptsRecord d step r = true
    · rw [if_pos hac, List.filter_cons_of_pos (haccepts.trans hac)]
      exact .inr ⟨id, ahead, l, rfl, ht, List.Sublist.refl _, rfl⟩
    · rw [if_neg hac, List.filter_cons_of_neg (by rwa [haccepts])]
      rcases ih (hl.sublist (List.sublist_cons_self id l)) (Nat.lt_of_succ_lt_succ hfuel) with
        hnone | ⟨id', ahead', rest, hseek, hrest, hsub, hfilter⟩
      · exact .inl hnone
      · exact .inr ⟨id', ahead', rest, hseek, hrest, hsub.cons id, hfilter⟩

/-- A cursor that looks for its next node in a scan visits what the scan visits, as far as the step
accepts it. -/
theorem visits_of_seek (h : Visits (Scan.next d) scan l) (hl : Listing d l)
    (hcursor : cursor.advance d step = seek d step (d.recordCount + 2) scan) :
    Visits (advance d step) cursor (l.filter (accepts d step)) := by
  induction hn : l.length using Nat.strongRecOn generalizing l scan cursor with
  | ind n ih =>
    have hlength := hl.length_le
    have hfuel : l.length < d.recordCount + 2 := by omega
    rcases seek_cases step h hl hfuel with
      ⟨hseek, hfilter⟩ | ⟨id, ahead, rest, hseek, hrest, hsub, hfilter⟩
    · rw [hfilter]
      exact .nil (hcursor.trans hseek)
    · rw [hfilter]
      have hlt := hsub.length_le
      rw [List.length_cons] at hlt
      refine .cons (hcursor.trans hseek) (ih rest.length (by omega) hrest ?_ rfl rfl)
      exact hl.sublist ((List.sublist_cons_self id rest).trans hsub)

end Cursor

end MarkupQuery.Query
