import Mathlib.Data.List.Nodup

/-!
# First occurrences

`List.eraseDups` keeps of each entry of a list the first occurrence. Here is what this does to lists
that are put together: an entry that comes again adds nothing (`eraseDups_flatMap_eraseDups`), and
an entry is among the first `n` that are kept if it occurs and fewer than `n` different ones occur
in front of it (`mem_take_eraseDups_iff`). The second is what decides which entries a memory that
keeps the last few still has.
-/

namespace MarkupQuery

variable {α β : Type} [BEq β] {n : Nat}

theorem removeAll_flatMap (l : List α) (f : α → List β) (bs : List β) :
    (l.flatMap f).removeAll bs = l.flatMap fun x => (f x).removeAll bs :=
  List.filter_flatMap ..

variable [LawfulBEq β] {l : List β} {b : β}

theorem removeAll_self (bs : List β) : bs.removeAll bs = [] :=
  List.filter_eq_nil_iff.2 fun b hb => by simpa using hb

/-! ## Lists without repetitions -/

theorem eraseDups_of_nodup (h : l.Nodup) : l.eraseDups = l := by
  induction l with
  | nil => rfl
  | cons b l ih =>
    obtain ⟨hb, hl⟩ := List.nodup_cons.1 h
    have hkeep : l.filter (fun c => !c == b) = l :=
      List.filter_eq_self.2 fun c hc => by simpa using ne_of_mem_of_not_mem hc hb
    rw [List.eraseDups_cons, hkeep, ih hl]

theorem nodup_eraseDups (l : List β) : l.eraseDups.Nodup := by
  -- on the length: behind the first entry all that equal it are filtered out
  induction hn : l.length using Nat.strongRecOn generalizing l with
  | ind n ih =>
    cases l with
    | nil => exact List.nodup_nil
    | cons b l =>
      have hlen : (l.filter fun c => !c == b).length < n := by
        rw [← hn]
        exact Nat.lt_succ_of_le (List.length_filter_le ..)
      rw [List.eraseDups_cons, List.nodup_cons, List.mem_eraseDups]
      exact ⟨by simp, ih _ hlen _ rfl⟩

/-- An entry that has come before changes nothing; any other comes last. -/
theorem eraseDups_concat (l : List β) (b : β) :
    (l ++ [b]).eraseDups = if b ∈ l then l.eraseDups else l.eraseDups ++ [b] := by
  rw [List.eraseDups_append]
  split
  · rename_i hb
    have hnone : [b].removeAll l = [] := by simp [List.removeAll, hb]
    rw [hnone, List.eraseDups_nil, List.append_nil]
  · rename_i hb
    have hself : [b].removeAll l = [b] := by simp [List.removeAll, hb]
    rw [hself]
    rfl

/-! ## Filtering -/

theorem eraseDups_filter (keep : β → Bool) (l : List β) :
    (l.filter keep).eraseDups = l.eraseDups.filter keep := by
  induction hn : l.length using Nat.strongRecOn generalizing l with
  | ind n ih =>
    cases l with
    | nil => rfl
    | cons b l =>
      have hlen : (l.filter fun c => !c == b).length < n := by
        rw [← hn]
        exact Nat.lt_succ_of_le (List.length_filter_le ..)
      rw [List.eraseDups_cons]
      by_cases hb : keep b = true
      · rw [List.filter_cons_of_pos hb, List.filter_cons_of_pos hb, List.eraseDups_cons,
          ← ih _ hlen _ rfl, List.filter_filter, List.filter_filter]
        simp only [Bool.and_comm]
      · -- what equals `b` is filtered out with it
        have hsame : (l.filter fun c => !c == b).filter keep = l.filter keep := by
          rw [List.filter_filter]
          refine List.filter_congr fun c _ => ?_
          by_cases hc : c = b
          · subst hc
            simp [hb]
          · simp [hc]
        rw [List.filter_cons_of_neg hb, List.filter_cons_of_neg hb, ← ih _ hlen _ rfl, hsame]

/-- Of the first entries of a list without repetitions, removing one leaves all but one at least. -/
theorem take_filter_take (h : l.Nodup) (b : β) (n : Nat) :
    ((l.take (n + 1)).filter fun c => c != b).take n = (l.filter fun c => c != b).take n := by
  induction l generalizing n with
  | nil => rfl
  | cons c l ih =>
    obtain ⟨hc, hl⟩ := List.nodup_cons.1 h
    rw [List.take_succ_cons]
    by_cases hcb : c = b
    · subst hcb
      have hkeep : ∀ m : List β, m.Sublist l → m.filter (fun a => a != c) = m := fun m hm =>
        List.filter_eq_self.2 fun a ha => by
          simpa using ne_of_mem_of_not_mem (hm.subset ha) hc
      rw [List.filter_cons_of_neg (by simp), List.filter_cons_of_neg (by simp),
        hkeep _ (List.take_sublist ..), hkeep _ (List.Sublist.refl _), List.take_take, Nat.min_self]
    · rw [List.filter_cons_of_pos (by simpa using hcb),
        List.filter_cons_of_pos (by simpa using hcb)]
      cases n with
      | zero => rfl
      | succ n => rw [List.take_succ_cons, List.take_succ_cons, ih hl]

/-! ## What is kept -/

/-- An entry is among the first that are kept if not too many different ones come before it. -/
theorem mem_take_eraseDups_iff :
    b ∈ l.eraseDups.take n ↔ b ∈ l ∧ (l.takeWhile (· != b)).eraseDups.length < n := by
  by_cases hb : b ∈ l
  · obtain ⟨front, rest, rfl, hfront⟩ := List.eq_append_cons_of_mem hb
    have htake : (front ++ b :: rest).takeWhile (· != b) = front := by
      rw [List.takeWhile_append_of_pos fun c hc => by simpa using ne_of_mem_of_not_mem hc hfront]
      simp
    have hbehind : (b :: rest).removeAll front = b :: rest.removeAll front := by
      simp [List.removeAll, hfront]
    rw [htake, List.eraseDups_append, hbehind, List.eraseDups_cons, List.take_append,
      List.mem_append]
    constructor
    · rintro (hmem | hmem)
      · exact absurd (List.mem_eraseDups.1 (List.mem_of_mem_take hmem)) hfront
      · refine ⟨by simp, Nat.lt_of_sub_pos ?_⟩
        exact Nat.pos_of_ne_zero fun hzero => by simp [hzero] at hmem
    · rintro ⟨-, hlt⟩
      right
      obtain ⟨k, hk⟩ := Nat.exists_eq_succ_of_ne_zero (Nat.sub_ne_zero_of_lt hlt)
      rw [hk, List.take_succ_cons]
      exact List.mem_cons_self
  · refine iff_of_false (fun hmem => hb ?_) fun h => hb h.1
    exact List.mem_eraseDups.1 (List.mem_of_mem_take hmem)

/-! ## Lists put together -/

/-- Repetitions within the lists that are put together are erased at the end anyway. -/
theorem eraseDups_flatMap (l : List α) (f : α → List β) :
    (l.flatMap fun x => (f x).eraseDups).eraseDups = (l.flatMap f).eraseDups := by
  induction l with
  | nil => rfl
  | cons a l ih =>
    have hself : (f a).eraseDups.eraseDups = (f a).eraseDups :=
      eraseDups_of_nodup (nodup_eraseDups _)
    have hremove : ∀ m : List β, m.removeAll (f a).eraseDups = m.removeAll (f a) := fun m =>
      List.filter_congr fun b _ => by simp
    rw [List.flatMap_cons, List.flatMap_cons, List.eraseDups_append, List.eraseDups_append, hself,
      hremove, List.removeAll, List.removeAll, eraseDups_filter, eraseDups_filter, ih]

variable [BEq α] [LawfulBEq α]

/-- Later occurrences of an entry add nothing that is new. -/
theorem eraseDups_flatMap_eraseDups (l : List α) (f : α → List β) :
    (l.eraseDups.flatMap f).eraseDups = (l.flatMap f).eraseDups := by
  induction hn : l.length using Nat.strongRecOn generalizing l f with
  | ind n ih =>
    cases l with
    | nil => rfl
    | cons a l =>
      have hskip : ∀ m : List α, (m.filter fun b => !b == a).flatMap
          (fun b => (f b).removeAll (f a)) = m.flatMap fun b => (f b).removeAll (f a) := by
        intro m
        induction m with
        | nil => rfl
        | cons b m ihm =>
          by_cases hb : b = a
          · subst hb
            simp [removeAll_self, ihm]
          · simp [hb, ihm]
      have hlen : (l.filter fun b => !b == a).length < n := by
        rw [← hn]
        exact Nat.lt_succ_of_le (List.length_filter_le ..)
      rw [List.eraseDups_cons, List.flatMap_cons, List.flatMap_cons, List.eraseDups_append,
        List.eraseDups_append, removeAll_flatMap, removeAll_flatMap, ih _ hlen _ _ rfl, hskip]

end MarkupQuery
