import MarkupQuery.Text.Reference
import Mathlib.Data.List.Forall2
import Mathlib.Data.Nat.Digits.Defs
import Mathlib.Tactic.IntervalCases
import Mathlib.Tactic.Ring

/-!
# Numerals in references

A numeral is a run of digits of a radix, at least one; digits above nine are letters in either case.
`Numeral` says which number it writes, by the place values of its digits. The numbers that a
reference reads are those of numerals, and of numerals behind a plus sign
(`number?_eq_some_iff`): the sign is not part of what is documented, but read all the same.

Every number has a numeral, the one that `Nat.toDigits` gives, and zeros in front of a numeral make
no difference (`numeral_of_toDigits`).
-/

namespace MarkupQuery.Text.Reference

variable {radix n m v : Nat} {d : Char} {cs ds : List Char}

/-! ## Digits -/

/-- A digit as it is, or as a capital. -/
def EitherCase (digit d : Char) : Prop :=
  d = digit ∨ d = digit.toUpper

theorem digit?_eq (radix : Nat) (d : Char) : digit? radix d =
    Option.filter (· < radix) (if 48 ≤ d.toNat ∧ d.toNat ≤ 57 then some (d.toNat - 48)
      else if 97 ≤ d.toNat ∧ d.toNat ≤ 102 then some (d.toNat - 97 + 10)
      else if 65 ≤ d.toNat ∧ d.toNat ≤ 70 then some (d.toNat - 65 + 10) else none) := by
  simp only [digit?, Char.isDigit, Bool.and_eq_true, decide_eq_true_eq, Char.le_def, ge_iff_le,
    UInt32.le_iff_toNat_le]
  rfl

theorem eq_ofNat (h : d.toNat = n) : d = Char.ofNat n := by
  rw [← h, Char.ofNat_toNat]

/-- The digits of a radix are those in which numbers are printed, in either case. -/
theorem digit?_eq_some_iff (hradix : radix ≤ 16) :
    digit? radix d = some v ↔ v < radix ∧ EitherCase v.digitChar d := by
  constructor
  · intro h
    rw [digit?_eq] at h
    obtain ⟨hvalue, hv⟩ := Option.filter_eq_some_iff.1 h
    have hranges : v < 10 ∧ d.toNat = 48 + v ∨
        (10 ≤ v ∧ v < 16) ∧ (d.toNat = 87 + v ∨ d.toNat = 55 + v) := by
      split_ifs at hvalue <;> injection hvalue <;> omega
    refine ⟨of_decide_eq_true hv, ?_⟩
    obtain ⟨hlt, hd⟩ | ⟨⟨hle, hlt⟩, hd | hd⟩ := hranges
    · rw [eq_ofNat hd]
      interval_cases v <;> exact .inl rfl
    · rw [eq_ofNat hd]
      interval_cases v <;> exact .inl rfl
    · rw [eq_ofNat hd]
      interval_cases v <;> exact .inr rfl
  · rintro ⟨hv, hd⟩
    have hvalue : digit? 16 d = some v := by
      have hlt : v < 16 := Nat.lt_of_lt_of_le hv hradix
      rcases hd with rfl | rfl
      · interval_cases v <;> rfl
      · interval_cases v <;> rfl
    rw [digit?_eq] at hvalue ⊢
    obtain ⟨hvalue, -⟩ := Option.filter_eq_some_iff.1 hvalue
    exact Option.filter_eq_some_iff.2 ⟨hvalue, decide_eq_true hv⟩

/-! ## Numerals -/

/-- The digits have these values, each below the radix. -/
def HasValues (radix : Nat) (vs : List Nat) (ds : List Char) : Prop :=
  (∀ v ∈ vs, v < radix) ∧ List.Forall₂ EitherCase (vs.map Nat.digitChar) ds

/-- One or more digits that write a number in a radix. -/
def Numeral (radix n : Nat) (ds : List Char) : Prop :=
  ds ≠ [] ∧ ∃ vs, HasValues radix vs ds ∧ Nat.ofDigits radix vs.reverse = n

theorem hasValues_nil_iff {vs : List Nat} : HasValues radix vs [] ↔ vs = [] := by
  constructor
  · rintro ⟨-, h⟩
    exact List.map_eq_nil_iff.1 (List.forall₂_nil_right_iff.1 h)
  · rintro rfl
    exact ⟨nofun, .nil⟩

theorem hasValues_cons_iff {vs : List Nat} : HasValues radix (v :: vs) (d :: ds) ↔
    (v < radix ∧ EitherCase v.digitChar d) ∧ HasValues radix vs ds := by
  rw [HasValues, HasValues, List.forall_mem_cons, List.map_cons, List.forall₂_cons,
    and_and_and_comm]

/-- The first digit counts for as many of its units as there are numbers with the digits behind. -/
theorem ofDigits_reverse_cons (radix v : Nat) (vs : List Nat) :
    Nat.ofDigits radix (v :: vs).reverse =
      v * radix ^ vs.length + Nat.ofDigits radix vs.reverse := by
  rw [List.reverse_cons, Nat.ofDigits_append, Nat.ofDigits_singleton, List.length_reverse,
    Nat.add_comm, Nat.mul_comm]

theorem numberFrom_eq_some_iff (hradix : radix ≤ 16) :
    numberFrom radix n ds = some m ↔ ∃ vs, HasValues radix vs ds ∧
      n * radix ^ vs.length + Nat.ofDigits radix vs.reverse = m := by
  induction ds generalizing n with
  | nil => simp [numberFrom, hasValues_nil_iff]
  | cons d ds ih =>
    rw [numberFrom, Option.bind_eq_some_iff]
    have hshift (v : Nat) (vs : List Nat) :
        (n * radix + v) * radix ^ vs.length + Nat.ofDigits radix vs.reverse =
          n * radix ^ (v :: vs).length + Nat.ofDigits radix (v :: vs).reverse := by
      rw [ofDigits_reverse_cons, List.length_cons, Nat.pow_succ]
      ring
    constructor
    · rintro ⟨v, hd, hds⟩
      obtain ⟨vs, hvs, rfl⟩ := ih.1 hds
      exact ⟨v :: vs, hasValues_cons_iff.2 ⟨(digit?_eq_some_iff hradix).1 hd, hvs⟩,
        (hshift v vs).symm⟩
    · rintro ⟨vs, hvs, rfl⟩
      cases vs with
      | nil => cases hvs.2
      | cons v vs =>
        obtain ⟨hd, hvs⟩ := hasValues_cons_iff.1 hvs
        exact ⟨v, (digit?_eq_some_iff hradix).2 hd, ih.2 ⟨vs, hvs, hshift v vs⟩⟩

theorem numeral_iff (hradix : radix ≤ 16) :
    Numeral radix n ds ↔ ds ≠ [] ∧ numberFrom radix 0 ds = some n := by
  simp only [Numeral, numberFrom_eq_some_iff hradix, Nat.zero_mul, Nat.zero_add]

theorem exists_digit?_of_numberFrom (h : numberFrom radix n ds = some m) (hd : d ∈ ds) :
    ∃ v, digit? radix d = some v := by
  induction ds generalizing n with
  | nil => cases hd
  | cons c ds ih =>
    obtain ⟨v, hc, hds⟩ := Option.bind_eq_some_iff.1 h
    rcases List.mem_cons.1 hd with rfl | hd
    · exact ⟨v, hc⟩
    · exact ih hds hd

theorem Numeral.not_mem (h : Numeral radix n ds) (hradix : radix ≤ 16)
    (hd : digit? radix d = none) : d ∉ ds := by
  intro hmem
  obtain ⟨v, hv⟩ := exists_digit?_of_numberFrom ((numeral_iff hradix).1 h).2 hmem
  rw [hd] at hv
  cases hv

/-- A number is read from a numeral, or from one behind a plus sign. -/
theorem number?_eq_some_iff (hradix : radix ≤ 16) :
    number? radix cs = some n ↔
      Numeral radix n cs ∨ ∃ ds, cs = '+' :: ds ∧ Numeral radix n ds := by
  have hnil : ¬ Numeral radix n [] := fun h => h.1 rfl
  cases cs with
  | nil => simp [number?, hnil]
  | cons c ds =>
    by_cases hc : c = '+'
    · subst hc
      have hsign : ¬ Numeral radix n ('+' :: ds) :=
        fun h => h.not_mem hradix rfl List.mem_cons_self
      cases ds with
      | nil => simp [number?, hsign, hnil]
      | cons d ds => simp [number?, hsign, numeral_iff hradix]
    · have hread : number? radix (c :: ds) = numberFrom radix 0 (c :: ds) := by
        rw [number?.eq_def]
        split
        · rename_i heq
          cases heq
        · rename_i heq
          exact absurd (List.cons.inj heq).1 hc
        · rename_i heq
          exact absurd (List.cons.inj heq).1 hc
        · rfl
      simp [hread, numeral_iff hradix, hc]

/-! ## Numerals of a number -/

theorem exists_toDigits (hradix : 1 < radix) (n : Nat) :
    ∃ vs : List Nat, (∀ v ∈ vs, v < radix) ∧ Nat.toDigits radix n = vs.map Nat.digitChar ∧
      Nat.ofDigits radix vs.reverse = n := by
  induction n using Nat.strongRecOn with
  | ind n ih =>
    rcases Nat.lt_or_ge n radix with hlt | hle
    · exact ⟨[n], by simpa using hlt, Nat.toDigits_of_lt_base hlt, by simp⟩
    · -- the last digit is the remainder
      obtain ⟨vs, hvs, hdigits, hvalue⟩ := ih (n / radix) (Nat.div_lt_self (by omega) hradix)
      refine ⟨vs ++ [n % radix], ?_, ?_, ?_⟩
      · simpa [or_imp, forall_and] using ⟨hvs, Nat.mod_lt n (by omega)⟩
      · rw [Nat.toDigits_of_base_le hradix hle, hdigits, List.map_append]
        rfl
      · rw [List.reverse_append, List.reverse_singleton, List.singleton_append, Nat.ofDigits_cons,
          hvalue, Nat.mod_add_div]

/-- The digits of a number, in either case and behind any number of zeros, write the number. -/
theorem numeral_of_toDigits (hradix : 1 < radix) (zeros : Nat)
    (h : List.Forall₂ EitherCase (Nat.toDigits radix n) ds) :
    Numeral radix n (List.replicate zeros '0' ++ ds) := by
  obtain ⟨vs, hvs, hdigits, hvalue⟩ := exists_toDigits hradix n
  refine ⟨?_, List.replicate zeros 0 ++ vs, ⟨?_, ?_⟩, ?_⟩
  · have hne : ds ≠ [] := by
      rintro rfl
      exact Nat.toDigits_ne_nil (List.forall₂_nil_right_iff.1 h)
    exact List.append_ne_nil_of_right_ne_nil _ hne
  · intro v hv
    rcases List.mem_append.1 hv with hv | hv
    · rw [List.eq_of_mem_replicate hv]
      omega
    · exact hvs v hv
  · rw [List.map_append, List.map_replicate, ← hdigits]
    have hzeros : List.Forall₂ EitherCase (List.replicate zeros '0') (List.replicate zeros '0') :=
      List.forall₂_same.2 fun _ _ => .inl rfl
    exact List.rel_append hzeros h
  · rw [List.reverse_append, List.reverse_replicate, Nat.ofDigits_append_replicate_zero, hvalue]

end MarkupQuery.Text.Reference
