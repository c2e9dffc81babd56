import MarkupQuery.Proofs.Markup.Charges

/-!
# The end of the items

The items that a reader gives come to an end, whatever calls for tokens are made in between. Every
token takes a byte, the end tag that is owed having been paid for by the slash, and an error ends
the sequence; so there is never more than one item to a byte, and one for the error
(`Reader.length_iterated_add_budget_le`). When the sequence has ended, it stays so: the reader has
failed, or nothing lies ahead and no end tag is owed (`Reader.Exhausted`), and neither changes.
-/

namespace MarkupQuery.Markup.Reader

open Text

variable {r r' : Reader} {token : Token} {text : String}

/-! ## Progress -/

theorem after_append (r : Reader) (calls later : List Call) :
    r.after (calls ++ later) = (r.after calls).after later :=
  List.foldl_append

/-- Calls never lead back. -/
theorem position_le_after (r : Reader) (calls : List Call) :
    r.position ≤ (r.after calls).position := by
  induction calls using List.reverseRecOn with
  | nil => exact Nat.le_refl _
  | append_singleton calls call ih =>
    rw [after_concat]
    exact Nat.le_trans ih (charge_deliver _ call).ground.offset_le

theorem recordCount_pos (token : Token) : 0 < token.recordCount := by
  cases token <;> exact Nat.succ_pos _

/-- A reader that owes an end tag gives it, unless it has failed. -/
theorem eq_endTag_of_owesEnd (howes : r.owesEnd = true) {call : Call}
    (h : (r.deliver call).1 = some token) : token = .endTag := by
  have hread : r.read = (.ok (some .endTag), closeElement { r with owesEnd := false }) :=
    if_pos howes
  cases call with
  | read =>
    rw [deliver, hread] at h
    exact (Option.some.inj h).symm
  | next =>
    rw [deliver, next, hread] at h
    split at h
    · cases h
    · exact (Option.some.inj h).symm

/-- Every token takes a byte, but for an end tag that is owed. -/
theorem position_lt_or_owed {call : Call} (h : (r.deliver call).1 = some token) :
    r.position < (r.deliver call).2.position ∨ r.owesEnd = true ∧ token = .endTag := by
  cases howes : r.owesEnd with
  | true => exact .inr ⟨rfl, eq_endTag_of_owesEnd howes h⟩
  | false =>
    have hrecords := (charge_deliver r call).records
    have := recordCount_pos token
    rw [h, Option.elim_some, owed, owed, howes, Bool.toNat_false] at hrecords
    exact .inl (by omega)

/-! ## The number of items -/

/-- The item that a call gives, if it is a call for one. -/
def itemOf (r : Reader) : Call → List (Except ReadError Token)
  | .read => []
  | .next => r.next.1.toList

/-- The items that some calls give, in order. -/
def iterated (r : Reader) : List Call → List (Except ReadError Token)
  | [] => []
  | call :: calls => r.itemOf call ++ (r.deliver call).2.iterated calls

/-- The number of items that a reader of a text of the given length can still give at most. -/
def budget (length : Nat) (r : Reader) : Nat :=
  if r.failed then 0 else length + 1 + r.owed - r.position

theorem iterated_concat (r : Reader) (calls : List Call) (call : Call) :
    r.iterated (calls ++ [call]) = r.iterated calls ++ (r.after calls).itemOf call := by
  induction calls generalizing r with
  | nil => exact List.append_nil _
  | cons first calls ih =>
    rw [List.cons_append, iterated, iterated, ih, List.append_assoc]
    rfl

theorem failed_closeElement (r : Reader) : r.closeElement.failed = r.failed := by
  unfold closeElement
  split <;> rfl

theorem failed_accept (r : Reader) (lexeme : Lexeme) (place : Place) :
    (r.accept lexeme place).2.failed = r.failed := by
  cases lexeme with
  | text | comment | instruction => rfl
  | endTag =>
    rw [accept]
    split
    · rfl
    · exact failed_closeElement _
  | startTag =>
    rw [accept]
    split <;> rfl

/-- Calls for tokens do not end the sequence of items. -/
theorem failed_read (r : Reader) : r.read.2.failed = r.failed := by
  rw [read]
  split
  · exact failed_closeElement _
  · split
    · rfl
    · rfl
    · rename_i lexeme place _
      have haccept := r.failed_accept lexeme place
      split <;> rename_i h <;> rwa [h] at haccept

/-- What an item is: a token or an error that is read, if the sequence has not ended. -/
theorem next_cases (h : r.failed = false) :
    (∃ e, r.read.1 = .error e ∧ r.next = (some (.error e), { r.read.2 with failed := true })) ∨
      (r.read.1 = .ok none ∧ r.next = (none, r.read.2)) ∨
      ∃ token, r.read.1 = .ok (some token) ∧ r.next = (some (.ok token), r.read.2) := by
  have hnext : r.next = _ := if_neg (by simp [h])
  rw [hnext]
  rcases r.read with ⟨e | _ | token, r'⟩
  · exact .inl ⟨e, rfl, rfl⟩
  · exact .inr (.inl ⟨rfl, rfl⟩)
  · exact .inr (.inr ⟨token, rfl, rfl⟩)

theorem next_of_failed (h : r.failed = true) : r.next = (none, r) :=
  if_pos h

theorem budget_of_failed {length : Nat} (h : r.failed = true) : r.budget length = 0 :=
  if_pos h

theorem budget_of_not_failed {length : Nat} (h : r.failed = false) :
    r.budget length = length + 1 + r.owed - r.position :=
  if_neg (by simp [h])

/-- An item is taken from what can still be given. -/
theorem length_itemOf_add_budget_le (r : Reader) (call : Call) {length : Nat}
    (hlength : (r.deliver call).2.position ≤ length) :
    (r.itemOf call).length + (r.deliver call).2.budget length ≤ r.budget length := by
  cases hfailed : r.failed with
  | true =>
    cases call with
    | read =>
      rw [itemOf, List.length_nil, Nat.zero_add, deliver,
        budget_of_failed (r.failed_read.trans hfailed)]
      exact Nat.zero_le _
    | next =>
      rw [itemOf, deliver, next_of_failed hfailed]
      exact Nat.le_of_eq (Nat.zero_add _)
  | false =>
    have hread := r.failed_read.trans hfailed
    have hground := r.charge_read.ground.offset_le
    have hrecords := r.charge_read.records
    change r.position + 0 ≤ r.read.2.position at hground
    rw [budget_of_not_failed hfailed]
    cases call with
    | read =>
      change r.read.2.position ≤ length at hlength
      rw [itemOf, List.length_nil, deliver, budget_of_not_failed hread]
      omega
    | next =>
      rw [itemOf]
      unfold deliver at hlength ⊢
      obtain ⟨e, hresult, hnext⟩ | ⟨hresult, hnext⟩ | ⟨token, hresult, hnext⟩ := next_cases hfailed
      · rw [hnext] at hlength ⊢
        change r.read.2.position ≤ length at hlength
        rw [budget_of_failed rfl, Option.toList_some, List.length_singleton]
        omega
      · rw [hnext] at hlength ⊢
        rw [budget_of_not_failed hread, Option.toList_none, List.length_nil]
        dsimp only at hlength ⊢
        omega
      · have := recordCount_pos token
        rw [hresult] at hrecords
        change r.position + (token.recordCount + r.read.2.owed) ≤
          r.read.2.position + r.owed at hrecords
        rw [hnext] at hlength ⊢
        rw [budget_of_not_failed hread, Option.toList_some, List.length_singleton]
        dsimp only at hlength ⊢
        omega

/-- **There is no more than one item to a byte**, and one for the error that ends the sequence. -/
theorem length_iterated_add_budget_le (strict : Bool) (text : String) (calls : List Call) :
    ((start strict text).iterated calls).length +
      ((start strict text).after calls).budget text.utf8ByteSize ≤ text.utf8ByteSize + 1 := by
  induction calls using List.reverseRecOn with
  | nil => exact Nat.le_of_eq (Nat.zero_add _)
  | append_singleton calls call ih =>
    have hposition := (account_after strict text (calls ++ [call])).position_le
    rw [after_concat] at hposition
    have hitem := length_itemOf_add_budget_le ((start strict text).after calls) call hposition
    rw [iterated_concat, after_concat, List.length_append]
    omega

/-! ## The end -/

theorem next_of_atEnd {p : Place} (h : p.atEnd = true) : Lexeme.next p = (.ok none, p) := by
  rw [Lexeme.next]
  split
  · rfl
  · rename_i hnot
    rw [h] at hnot
    cases hnot

theorem atEnd_of_next {p : Place} (h : (Lexeme.next p).1 = .ok none) :
    (Lexeme.next p).2.atEnd = true := by
  fun_induction Lexeme.next p with
  | case1 p hend => exact hend
  | case2 | case4 | case5 => cases h
  | case3 p hend hstarting q hq ih => exact ih h

theorem read_of_atEnd (howes : r.owesEnd = false) (hend : r.place.atEnd = true) :
    r.read = (.ok none, r) := by
  rw [read, if_neg (by simp [howes]), next_of_atEnd hend]

/-- Nothing is read only if nothing is owed and nothing lies ahead. -/
theorem atEnd_of_read (h : r.read.1 = .ok none) :
    r.read.2.owesEnd = false ∧ r.read.2.place.atEnd = true := by
  rw [read] at h ⊢
  split at h
  · cases h
  · rename_i howes
    rw [if_neg howes]
    split at h
    · cases h
    · rename_i place hnext
      have hend := atEnd_of_next (congrArg Prod.fst hnext)
      rw [hnext] at hend
      exact ⟨by simpa using howes, hend⟩
    · split at h <;> cases h

/-- The sequence of items has ended. -/
def Exhausted (r : Reader) : Prop :=
  r.failed = true ∨ r.owesEnd = false ∧ r.place.atEnd = true

namespace Exhausted

theorem next_eq (h : r.Exhausted) : r.next = (none, r) := by
  cases hfailed : r.failed with
  | true => exact next_of_failed hfailed
  | false =>
    obtain hfails | ⟨howes, hend⟩ := h
    · simp [hfailed] at hfails
    · rw [next, hfailed, read_of_atEnd howes hend]
      rfl

theorem deliver (h : r.Exhausted) (call : Call) : (r.deliver call).2.Exhausted := by
  cases call with
  | next => rwa [Reader.deliver, h.next_eq]
  | read =>
    obtain hfailed | ⟨howes, hend⟩ := h
    · exact .inl (r.failed_read.trans hfailed)
    · rw [Reader.deliver, read_of_atEnd howes hend]
      exact .inr ⟨howes, hend⟩

theorem after (h : r.Exhausted) (calls : List Call) : (r.after calls).Exhausted := by
  induction calls using List.reverseRecOn with
  | nil => exact h
  | append_singleton calls call ih =>
    rw [after_concat]
    exact ih.deliver call

end Exhausted

/-- When there is no item, the sequence has ended. -/
theorem exhausted_of_next (h : r.next.1 = none) : r.next.2.Exhausted := by
  cases hfailed : r.failed with
  | true =>
    rw [next_of_failed hfailed]
    exact .inl hfailed
  | false =>
    obtain ⟨e, -, hnext⟩ | ⟨hresult, hnext⟩ | ⟨token, -, hnext⟩ := next_cases hfailed
    · rw [hnext] at h
      cases h
    · rw [hnext]
      exact .inr (atEnd_of_read hresult)
    · rw [hnext] at h
      cases h

/-- Either the sequence has ended, or each call for an item has given one. -/
theorem exhausted_or_length_iterated (r : Reader) (calls : List Call) :
    (r.after calls).Exhausted ∨ (r.iterated calls).length = calls.count .next := by
  induction calls using List.reverseRecOn with
  | nil => exact .inr rfl
  | append_singleton calls call ih =>
    rw [after_concat, iterated_concat, List.length_append, List.count_append]
    obtain hend | hlength := ih
    · exact .inl (hend.deliver call)
    · cases call with
      | read => exact .inr (congrArg (· + 0) hlength)
      | next =>
        cases hitem : (r.after calls).next.1 with
        | none => exact .inl (exhausted_of_next hitem)
        | some item =>
          refine .inr ?_
          rw [hlength, itemOf, hitem]
          rfl

/-- **The sequence of items ends**: it has after as many calls for items as there are bytes and one
more, whatever calls for tokens are made in between. -/
theorem exhausted_of_lt_count (strict : Bool) {calls : List Call}
    (h : text.utf8ByteSize < calls.count .next) : ((start strict text).after calls).Exhausted := by
  obtain hend | hlength := exhausted_or_length_iterated (start strict text) calls
  · exact hend
  · cases hfailed : ((start strict text).after calls).failed with
    | true => exact .inl hfailed
    | false =>
      have hbudget := length_iterated_add_budget_le strict text calls
      have hposition := (account_after strict text calls).position_le
      rw [budget_of_not_failed hfailed] at hbudget
      omega

end MarkupQuery.Markup.Reader
