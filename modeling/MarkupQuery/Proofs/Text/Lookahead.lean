import MarkupQuery.Proofs.Text.Covering
import MarkupQuery.Proofs.Text.Finding
import MarkupQuery.Proofs.Text.OpenMarks

/-!
# How far scans look ahead

Where a scan stops is told by the text that it passes and by what stands right behind it: a
character that is in no name, the needle, the `>` of a tag. The lemmas `Place.name?_eq_some_iff`,
`Place.upTo?_eq_some_iff` and `Place.upToTagEnd?_eq_some_iff` say so of each scan. What lies further
ahead does not matter, so a scan stops behind the same text wherever this stands.

Nor does it matter how much lies behind. `Place.moved` is a place with more bytes behind and the
same text ahead, and a scan stops as many bytes later there as it starts.
-/

namespace MarkupQuery.Text

variable {needle as bs cs rest : List Char} {m n : Nat}

/-! ## Needles -/

/-- Whether a needle begins in front of itself is told by the text up to its end. -/
theorem isPrefix_append_iff (hneedle : needle <+: bs) :
    needle <+: rest ++ bs ↔ needle <+: rest ++ needle := by
  have hwhole : rest ++ needle <+: rest ++ bs := (List.prefix_append_right_inj rest).2 hneedle
  refine ⟨fun h => List.prefix_of_prefix_length_le h hwhole ?_, fun h => h.trans hwhole⟩
  rw [List.length_append]
  exact Nat.le_add_left _ _

/-- The needle begins where the count ends, and nowhere before. -/
theorem distanceFrom_eq_some_iff : distanceFrom needle n cs = some m ↔
    ∃ as bs, cs = as ++ bs ∧ m = n + as.length ∧ needle <+: bs ∧
      ∀ init rest, as = init ++ rest → rest ≠ [] → ¬ needle <+: rest ++ needle := by
  induction cs generalizing n with
  | nil =>
    rw [distanceFrom]
    split
    · rename_i hempty
      obtain rfl := List.isEmpty_iff.1 hempty
      constructor
      · rintro ⟨⟩
        exact ⟨[], [], rfl, rfl, List.nil_prefix, by simp⟩
      · rintro ⟨as, bs, hnil, rfl, -, -⟩
        rw [(List.append_eq_nil_iff.1 hnil.symm).1]
        rfl
    · rename_i hne
      refine ⟨fun h => absurd h.symm (Option.some_ne_none m), ?_⟩
      rintro ⟨as, bs, hnil, -, hneedle, -⟩
      rw [(List.append_eq_nil_iff.1 hnil.symm).2, List.prefix_nil] at hneedle
      exact absurd (List.isEmpty_iff.2 hneedle) hne
  | cons c cs ih =>
    rw [distanceFrom]
    split
    · rename_i hbegins
      rw [List.isPrefixOf_iff_prefix] at hbegins
      constructor
      · rintro ⟨⟩
        exact ⟨[], c :: cs, rfl, rfl, hbegins, by simp⟩
      · rintro ⟨as, bs, heq, rfl, hneedle, hfirst⟩
        cases as with
        | nil => rfl
        | cons a as =>
          rw [heq, isPrefix_append_iff hneedle] at hbegins
          exact absurd hbegins (hfirst [] (a :: as) rfl (List.cons_ne_nil a as))
    · rename_i hnot
      rw [List.isPrefixOf_iff_prefix] at hnot
      rw [ih]
      constructor
      · rintro ⟨as, bs, rfl, rfl, hneedle, hfirst⟩
        refine ⟨c :: as, bs, rfl, by rw [List.length_cons]; omega, hneedle,
          fun init rest heq hne => ?_⟩
        cases init with
        | nil =>
          rw [List.nil_append] at heq
          rwa [← heq, ← isPrefix_append_iff hneedle]
        | cons i init => exact hfirst init rest (List.cons.inj heq).2 hne
      · rintro ⟨as, bs, heq, rfl, hneedle, hfirst⟩
        cases as with
        | nil =>
          rw [List.nil_append] at heq
          exact absurd (heq ▸ hneedle) hnot
        | cons a as =>
          obtain ⟨rfl, rfl⟩ := List.cons.inj heq
          exact ⟨as, bs, rfl, by rw [List.length_cons]; omega, hneedle, fun init rest hrest =>
            hfirst (c :: init) rest (congrArg (c :: ·) hrest)⟩

namespace Place

variable {p q p' q' : Place} {name : String}

/-! ## What scans pass -/

theorem name?_eq_some_iff : p.name? = some (name, q) ↔
    p.Passes name.toList q ∧ name.toList.head?.any isNameStart = true ∧
      (∀ c ∈ name.toList, isNameChar c = true) ∧ q.rest.head?.any isNameChar = false := by
  refine ⟨fun h => ?_, fun ⟨hpass, hstart, hchars, hend⟩ => ?_⟩
  · have hpass := passes_of_name? h
    unfold name? at h
    split at h
    · rename_i hstart
      obtain ⟨rfl, rfl⟩ := Prod.mk.inj (Option.some.inj h)
      rw [String.toList_ofList] at hpass ⊢
      obtain ⟨-, hchars, hend⟩ := span_eq_iff.1 (Eq.refl (p.span isNameChar))
      refine ⟨hpass, ?_, hchars, hend⟩
      obtain ⟨c, hc, hstart⟩ := (Option.any_eq_true ..).1 hstart
      obtain ⟨cs, hrest⟩ := List.head?_eq_some_iff.1 hc
      rw [span, hrest, List.takeWhile_cons_of_pos (isNameChar_of_isNameStart hstart)]
      exact hstart
    · cases h
  · rw [name?_eq_of_ends hpass hstart hchars hend, String.ofList_toList]

theorem upTo?_eq_some_iff : p.upTo? needle = some (cs, q) ↔
    p.Passes cs q ∧ needle <+: q.rest ∧
      ∀ init rest, cs = init ++ rest → rest ≠ [] → ¬ needle <+: rest ++ needle := by
  refine ⟨fun h => ?_, fun ⟨hpass, hneedle, hfirst⟩ => ?_⟩
  · obtain ⟨hpass, hneedle⟩ := passes_of_upTo? h
    obtain ⟨n, hn, hpair⟩ := Option.map_eq_some_iff.1 h
    obtain ⟨as, bs, hrest, rfl, -, hfirst⟩ := distanceFrom_eq_some_iff.1 hn
    obtain rfl : cs = as := by
      rw [← (Prod.mk.inj hpair).1, hrest, Nat.zero_add, List.take_left]
    exact ⟨hpass, hneedle, hfirst⟩
  · have hdistance : distanceTo? needle p.rest = some cs.length :=
      distanceFrom_eq_some_iff.2
        ⟨cs, q.rest, hpass.rest_eq, (Nat.zero_add _).symm, hneedle, hfirst⟩
    rw [upTo?, hdistance, Option.map_some, hpass.take_eq, hpass.forward_eq]

theorem upToTagEnd?_eq_some_iff : p.upToTagEnd? = some (cs, q) ↔
    p.Passes cs q ∧ q.sees '>' = true ∧ openMark cs = none ∧
      ∀ init rest, cs = init ++ '>' :: rest → openMark init ≠ none := by
  refine ⟨fun h => ?_, fun ⟨hpass, hsees, hclosed, hfirst⟩ => ?_⟩
  · obtain ⟨hpass, hsees⟩ := passes_of_upToTagEnd? h
    obtain ⟨n, hn, hpair⟩ := Option.map_eq_some_iff.1 h
    obtain ⟨as, bs, hrest, rfl, hclosed, hfirst⟩ := tagEndFrom_eq_some_iff.1 hn
    obtain rfl : cs = as := by
      rw [← (Prod.mk.inj hpair).1, hrest, Nat.zero_add, List.take_left]
    exact ⟨hpass, hsees, hclosed, hfirst⟩
  · obtain ⟨rest, hrest⟩ := sees_iff.1 hsees
    have htag : tagEnd? p.rest = some cs.length :=
      tagEndFrom_eq_some_iff.2 ⟨cs, rest, by rw [hpass.rest_eq, hrest], (Nat.zero_add _).symm,
        hclosed, hfirst⟩
    rw [upToTagEnd?, htag, Option.map_some, hpass.take_eq, hpass.forward_eq]

/-! ## The same text elsewhere -/

theorem Passes.head?_eq (h : p.Passes cs q) (h' : p'.Passes cs q') (hne : cs ≠ []) :
    p'.rest.head? = p.rest.head? := by
  obtain ⟨c, cs, rfl⟩ := List.exists_cons_of_ne_nil hne
  rw [h.rest_eq, h'.rest_eq]
  rfl

/-- A name ends behind the same text in front of the same character. -/
theorem name?_local (h : p.name? = some (name, q)) (hpass : p'.Passes name.toList q')
    (hhead : q'.rest.head? = q.rest.head?) : p'.name? = some (name, q') := by
  obtain ⟨-, hstart, hchars, hend⟩ := name?_eq_some_iff.1 h
  exact name?_eq_some_iff.2 ⟨hpass, hstart, hchars, hhead ▸ hend⟩

/-- The needle is found behind the same text in front of itself. -/
theorem upTo?_local (h : p.upTo? needle = some (cs, q))
    (hpass : p'.Passes (cs ++ needle) q') :
    ∃ stop, p'.upTo? needle = some (cs, stop) ∧ stop.forward needle.length = q' := by
  obtain ⟨-, -, hfirst⟩ := upTo?_eq_some_iff.1 h
  obtain ⟨stop, hcs, hneedle⟩ := passes_append_iff.1 hpass
  exact ⟨stop, upTo?_eq_some_iff.2 ⟨hcs, ⟨q'.rest, hneedle.rest_eq.symm⟩, hfirst⟩,
    hneedle.forward_eq⟩

/-- A tag ends behind the same text. -/
theorem upToTagEnd?_local (h : p.upToTagEnd? = some (cs, q)) (hpass : p'.Passes (cs ++ ['>']) q') :
    ∃ stop, p'.upToTagEnd? = some (cs, stop) ∧ stop.forward 1 = q' := by
  obtain ⟨-, -, hclosed, hfirst⟩ := upToTagEnd?_eq_some_iff.1 h
  obtain ⟨stop, hcs, hend⟩ := passes_append_iff.1 hpass
  exact ⟨stop, upToTagEnd?_eq_some_iff.2 ⟨hcs, hend.sees, hclosed, hfirst⟩, hend.forward_eq⟩

/-! ## The offset of the start -/

/-- The place with the same text ahead and `n` more bytes behind. -/
def moved (n : Nat) (p : Place) : Place :=
  ⟨p.offset + n, p.rest⟩

@[simp]
theorem offset_moved (n : Nat) (p : Place) : (p.moved n).offset = p.offset + n := rfl

@[simp]
theorem rest_moved (n : Nat) (p : Place) : (p.moved n).rest = p.rest := rfl

@[simp]
theorem forward_moved (n k : Nat) (p : Place) : (p.moved n).forward k = (p.forward k).moved n :=
  congrArg (Place.mk · _) (Nat.add_right_comm ..)

@[simp]
theorem span_moved (n : Nat) (p : Place) (within : Char → Bool) :
    (p.moved n).span within = ((p.span within).1, (p.span within).2.moved n) :=
  congrArg (fun offset => (_, Place.mk offset _)) (Nat.add_right_comm ..)

@[simp]
theorem skipBlank_moved (n : Nat) (p : Place) : (p.moved n).skipBlank = p.skipBlank.moved n := by
  rw [skipBlank, span_moved]
  rfl

@[simp]
theorem atEnd_moved (n : Nat) (p : Place) : (p.moved n).atEnd = p.atEnd := rfl

@[simp]
theorem sees_moved (n : Nat) (p : Place) (c : Char) : (p.moved n).sees c = p.sees c := rfl

@[simp]
theorem name?_moved (n : Nat) (p : Place) :
    (p.moved n).name? = p.name?.map (Prod.map id (moved n)) := by
  rw [name?, name?, span_moved, rest_moved]
  split <;> rfl

@[simp]
theorem upTo?_moved (n : Nat) (p : Place) (needle : List Char) :
    (p.moved n).upTo? needle = (p.upTo? needle).map (Prod.map id (moved n)) := by
  rw [upTo?, upTo?, Option.map_map, rest_moved]
  exact congrArg (Option.map · _) (funext fun k => by rw [forward_moved]; rfl)

@[simp]
theorem upToTagEnd?_moved (n : Nat) (p : Place) :
    (p.moved n).upToTagEnd? = p.upToTagEnd?.map (Prod.map id (moved n)) := by
  rw [upToTagEnd?, upToTagEnd?, Option.map_map, rest_moved]
  exact congrArg (Option.map · _) (funext fun k => by rw [forward_moved]; rfl)

end Place

end MarkupQuery.Text
