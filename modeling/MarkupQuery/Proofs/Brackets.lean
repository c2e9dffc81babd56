import Mathlib.Data.List.Induction

/-!
# What opens and what closes

Tags open and close elements, calls open and close scopes. In a sequence of such events, an event
that closes takes back the last one that has opened and is not closed yet; if there is none, it
closes nothing.

`surplus` counts the events of a sequence that close nothing in it, and `unclosed` lists those that
open and are not closed in it. Both are read off from what lies behind an event, without a stack.
The main facts say how they change when an event is added at the end (`surplus_concat`,
`unclosed_concat`): a machine that goes through the sequence has `unclosed` as its stack, and is as
deep as this is long (`depth_foldl`).
-/

namespace MarkupQuery

/-- What an event does to the nesting. -/
inductive Bracket
  /-- It opens. -/
  | opening
  /-- It closes what was opened last. -/
  | closing
  /-- It does neither. -/
  | neither
  deriving DecidableEq, Repr

/-- Events that may open and close. -/
class Bracketed (α : Type) where
  /-- What an event does to the nesting. -/
  bracket : α → Bracket

namespace Bracketed

variable {α : Type} [Bracketed α]

/-- The number of events that close nothing in the sequence. One that opens is closed by the first
of those behind it. -/
def surplus : List α → Nat
  | [] => 0
  | a :: behind =>
    match bracket a with
    | .opening => surplus behind - 1
    | .closing => surplus behind + 1
    | .neither => surplus behind

/-- The events that open and are not closed in the sequence, the last one first. An event is not
closed if what lies behind it has no event to spare that closes. -/
def unclosed : List α → List α
  | [] => []
  | a :: behind =>
    if bracket a = .opening ∧ surplus behind = 0 then unclosed behind ++ [a] else unclosed behind

/-- Each event that closes has one in front of it to close. -/
def Matched (events : List α) : Prop :=
  ∀ before a behind, events = before ++ a :: behind → bracket a = .closing → unclosed before ≠ []

/-- All that opens in the sequence is closed in it, and nothing else is closed. -/
def Balanced (events : List α) : Prop :=
  surplus events = 0 ∧ unclosed events = []

instance (events : List α) : Decidable (Balanced events) :=
  inferInstanceAs (Decidable (_ ∧ _))

/-- At no time more than `n` events are not closed. -/
def DepthLe (n : Nat) (events : List α) : Prop :=
  ∀ before behind, events = before ++ behind → (unclosed before).length ≤ n

variable {a b : α} {as : List α}

theorem surplus_cons_opening (h : bracket a = .opening) (as : List α) :
    surplus (a :: as) = surplus as - 1 := by
  rw [surplus, h]

theorem surplus_cons_closing (h : bracket a = .closing) (as : List α) :
    surplus (a :: as) = surplus as + 1 := by
  rw [surplus, h]

theorem surplus_cons_neither (h : bracket a = .neither) (as : List α) :
    surplus (a :: as) = surplus as := by
  rw [surplus, h]

theorem unclosed_cons_of_pos (h : bracket a = .opening) (hs : surplus as = 0) :
    unclosed (a :: as) = unclosed as ++ [a] :=
  if_pos ⟨h, hs⟩

theorem unclosed_cons_of_neg (h : ¬ (bracket a = .opening ∧ surplus as = 0)) :
    unclosed (a :: as) = unclosed as :=
  if_neg h

/-! ## Adding an event at the end -/

theorem surplus_concat (as : List α) (a : α) :
    surplus (as ++ [a]) =
      if bracket a = .closing ∧ unclosed as = [] then surplus as + 1 else surplus as := by
  induction as with
  | nil => cases h : bracket a <;> simp [surplus, unclosed, h]
  | cons b as ih =>
    rw [List.cons_append]
    cases hb : bracket b with
    | opening =>
      rw [surplus_cons_opening hb, surplus_cons_opening hb, ih]
      by_cases hs : surplus as = 0
      · -- the new event closes something, and if all else behind `b` is closed it closes `b`
        rw [unclosed_cons_of_pos hb hs, if_neg (by simp : ¬ (_ ∧ unclosed as ++ [b] = []))]
        split <;> omega
      · rw [unclosed_cons_of_neg (by simp [hs])]
        split <;> omega
    | closing =>
      rw [surplus_cons_closing hb, surplus_cons_closing hb, ih, unclosed_cons_of_neg (by simp [hb])]
      split <;> rfl
    | neither =>
      rw [surplus_cons_neither hb, surplus_cons_neither hb, ih, unclosed_cons_of_neg (by simp [hb])]

theorem unclosed_concat (as : List α) (a : α) :
    unclosed (as ++ [a]) =
      match bracket a with
      | .opening => a :: unclosed as
      | .closing => (unclosed as).tail
      | .neither => unclosed as := by
  induction as with
  | nil => cases h : bracket a <;> simp [surplus, unclosed, h]
  | cons b as ih =>
    rw [List.cons_append]
    by_cases hb : bracket b = .opening ∧ surplus as = 0
    · obtain ⟨hb, hs⟩ := hb
      rw [unclosed_cons_of_pos hb hs]
      cases ha : bracket a with
      | closing =>
        cases hu : unclosed as with
        | nil =>
          -- `b` is what the new event closes
          rw [unclosed_cons_of_neg (by simp [surplus_concat, ha, hu]), ih, ha, hu]
          rfl
        | cons c cs =>
          rw [unclosed_cons_of_pos hb (by simp [surplus_concat, hu, hs]), ih, ha, hu]
          rfl
      | opening =>
        rw [unclosed_cons_of_pos hb (by simp [surplus_concat, ha, hs]), ih, ha]
        rfl
      | neither => rw [unclosed_cons_of_pos hb (by simp [surplus_concat, ha, hs]), ih, ha]
    · have hb' : ¬ (bracket b = .opening ∧ surplus (as ++ [a]) = 0) := by
        rw [surplus_concat]
        split <;> simp_all
      rw [unclosed_cons_of_neg hb, unclosed_cons_of_neg hb', ih]

theorem unclosed_concat_opening (h : bracket a = .opening) (as : List α) :
    unclosed (as ++ [a]) = a :: unclosed as := by
  rw [unclosed_concat, h]

theorem unclosed_concat_closing (h : bracket a = .closing) (as : List α) :
    unclosed (as ++ [a]) = (unclosed as).tail := by
  rw [unclosed_concat, h]

theorem unclosed_concat_neither (h : bracket a = .neither) (as : List α) :
    unclosed (as ++ [a]) = unclosed as := by
  rw [unclosed_concat, h]

/-- A machine whose depth goes up and down with what opens and closes is as deep as there are events
that are not closed. -/
theorem depth_foldl {σ : Type} {step : σ → α → σ} (depth : σ → Nat)
    (hstep : ∀ s a, depth (step s a) =
      match bracket a with
      | .opening => depth s + 1
      | .closing => depth s - 1
      | .neither => depth s) {s : σ} (hs : depth s = 0) (as : List α) :
    depth (as.foldl step s) = (unclosed as).length := by
  induction as using List.reverseRecOn with
  | nil => exact hs
  | append_singleton as a ih =>
    rw [List.foldl_append, List.foldl_cons, List.foldl_nil, hstep, unclosed_concat, ih]
    cases bracket a with
    | opening => rfl
    | closing => exact List.length_tail.symm
    | neither => rfl

/-! ## Matching and counting -/

omit [Bracketed α] in
/-- What is said of each event behind those before it is said of the last one and of the others. -/
theorem forall_split_concat {p : List α → α → Prop} :
    (∀ before b behind, as ++ [a] = before ++ b :: behind → p before b) ↔
      (∀ before b behind, as = before ++ b :: behind → p before b) ∧ p as a := by
  constructor
  · intro h
    refine ⟨fun before b behind has => h before b (behind ++ [a]) ?_, h as a [] rfl⟩
    rw [has, List.append_assoc, List.cons_append]
  · rintro ⟨has, ha⟩ before b behind heq
    rcases List.eq_nil_or_concat behind with rfl | ⟨init, last, rfl⟩
    · obtain ⟨rfl, hab⟩ := List.append_inj' heq rfl
      rwa [← List.singleton_inj.1 hab]
    · rw [List.concat_eq_append, ← List.cons_append, ← List.append_assoc] at heq
      exact has before b init (List.append_inj' heq rfl).1

/-- Nothing is to spare if and only if each event that closes has one in front of it to close. -/
theorem matched_iff : Matched as ↔ surplus as = 0 := by
  induction as using List.reverseRecOn with
  | nil => simp [Matched, surplus]
  | append_singleton as a ih =>
    rw [Matched, forall_split_concat, ← Matched, ih, surplus_concat]
    by_cases ha : bracket a = .closing ∧ unclosed as = []
    · rw [if_pos ha]
      exact iff_of_false (fun h => h.2 ha.1 ha.2) (Nat.succ_ne_zero _)
    · rw [if_neg ha, and_iff_left fun hclosing hnone => ha ⟨hclosing, hnone⟩]

theorem matched_nil : Matched ([] : List α) :=
  matched_iff.2 rfl

theorem Matched.of_append {before behind : List α} (h : Matched (before ++ behind)) :
    Matched before := by
  rintro init a tail rfl
  exact h init a (tail ++ behind) (by simp)

theorem Matched.concat (h : Matched as) (ha : ¬ (bracket a = .closing ∧ unclosed as = [])) :
    Matched (as ++ [a]) := by
  rw [matched_iff, surplus_concat, if_neg ha, matched_iff.1 h]

theorem countP_add_surplus (as : List α) :
    as.countP (bracket · = .opening) + surplus as =
      as.countP (bracket · = .closing) + (unclosed as).length := by
  induction as with
  | nil => rfl
  | cons a behind ih =>
    rw [List.countP_cons, List.countP_cons, surplus, unclosed]
    cases ha : bracket a with
    | opening => by_cases hs : surplus behind = 0 <;> simp [hs] <;> omega
    | closing => simp; omega
    | neither => simpa using ih

theorem length_unclosed_le (as : List α) : (unclosed as).length ≤ as.length := by
  induction as with
  | nil => exact Nat.le_refl 0
  | cons a as ih =>
    rw [unclosed, List.length_cons]
    split
    · rw [List.length_append]
      exact Nat.succ_le_succ ih
    · exact Nat.le_succ_of_le ih

theorem depthLe_of_length_le {n : Nat} (h : as.length ≤ n) : DepthLe n as := by
  rintro before behind rfl
  rw [List.length_append] at h
  exact Nat.le_trans (length_unclosed_le before) (by omega)

theorem DepthLe.of_append {n : Nat} {before behind : List α} (h : DepthLe n (before ++ behind)) :
    DepthLe n before := by
  rintro init rest rfl
  exact h init (rest ++ behind) (List.append_assoc ..)

theorem DepthLe.length_le {n : Nat} (h : DepthLe n as) : (unclosed as).length ≤ n :=
  h as [] (List.append_nil as).symm

/-! ## Events that stand for events -/

variable {β : Type} [Bracketed β] {f : α → β}

theorem surplus_map (hf : ∀ a, bracket (f a) = bracket a) (as : List α) :
    surplus (as.map f) = surplus as := by
  induction as with
  | nil => rfl
  | cons a as ih => rw [List.map_cons, surplus, surplus, hf, ih]

theorem unclosed_map (hf : ∀ a, bracket (f a) = bracket a) (as : List α) :
    unclosed (as.map f) = (unclosed as).map f := by
  induction as with
  | nil => rfl
  | cons a as ih =>
    rw [List.map_cons, unclosed, unclosed, hf, surplus_map hf, ih, apply_ite (List.map f),
      List.map_append]
    rfl

end Bracketed

end MarkupQuery
