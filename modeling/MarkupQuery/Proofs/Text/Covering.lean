import MarkupQuery.Proofs.Text.ByteCounts

/-!
# The ground that scans cover

`Place.Covers p n q` states that `q` lies ahead of `p` in the same text, with `n` bytes or more
between them. Every scan covers at least what it hands out, so whatever a reader puts together can
be charged to the ground between the places at which it started and stopped: ground covered in
steps adds up (`Place.Covers.trans`), and all of it lies in the text (`Place.Covers.offset_le`).

The lemmas about scans say what was passed (`Place.passes_of_upTo?`, `Place.passes_of_name?`). They
are the counterpart of those that tell which scan finds what.
-/

namespace MarkupQuery.Text

/-! ## Where scans stop -/

section Scans

variable {needle cs : List Char} {quote : Option Char} {n m : Nat}

/-- The needle begins where the count ends. -/
theorem exists_of_distanceFrom (h : distanceFrom needle n cs = some m) :
    ∃ as bs, cs = as ++ bs ∧ m = n + as.length ∧ needle <+: bs := by
  induction cs generalizing n with
  | nil =>
    rw [distanceFrom] at h
    split at h
    · rename_i hempty
      obtain rfl := Option.some.inj h
      exact ⟨[], [], rfl, rfl, List.isEmpty_iff.1 hempty ▸ List.nil_prefix⟩
    · cases h
  | cons c cs ih =>
    rw [distanceFrom] at h
    split at h
    · rename_i hbegins
      obtain rfl := Option.some.inj h
      exact ⟨[], c :: cs, rfl, rfl, List.isPrefixOf_iff_prefix.1 hbegins⟩
    · obtain ⟨as, bs, rfl, rfl, hneedle⟩ := ih h
      exact ⟨c :: as, bs, rfl, by rw [List.length_cons]; omega, hneedle⟩

/-- A `>` stands where the count ends. -/
theorem exists_of_tagEndFrom (h : tagEndFrom quote n cs = some m) :
    ∃ as bs, cs = as ++ '>' :: bs ∧ m = n + as.length := by
  induction cs generalizing quote n with
  | nil => cases h
  | cons c cs ih =>
    have behind {quote : Option Char} (h : tagEndFrom quote (n + 1) cs = some m) :
        ∃ as bs, c :: cs = as ++ '>' :: bs ∧ m = n + as.length := by
      obtain ⟨as, bs, rfl, rfl⟩ := ih h
      exact ⟨c :: as, bs, rfl, by rw [List.length_cons]; omega⟩
    cases quote with
    | some q => exact behind h
    | none =>
      rw [tagEndFrom] at h
      split at h
      · rename_i hc
        obtain rfl := Option.some.inj h
        exact ⟨[], cs, by rw [beq_iff_eq.1 hc]; rfl, rfl⟩
      · exact behind h

end Scans

namespace Place

variable {p q r : Place} {needle as cs : List Char} {name : String} {m n : Nat}

theorem passes_take (p : Place) (n : Nat) : p.Passes (p.rest.take n) (p.forward n) :=
  ⟨(List.take_append_drop n p.rest).symm, rfl⟩

/-- What the text ahead begins with is passed by going forward over it. -/
theorem passes_of_isPrefix (h : as <+: p.rest) : p.Passes as (p.forward as.length) := by
  obtain ⟨bs, hbs⟩ := h
  have hpass := p.passes_take as.length
  rwa [← hbs, List.take_left] at hpass

theorem passes_forward_length (h : p.rest = as ++ cs) : p.Passes as (p.forward as.length) :=
  passes_of_isPrefix (h ▸ List.prefix_append as cs)

theorem passes_of_upTo? (h : p.upTo? needle = some (cs, q)) :
    p.Passes cs q ∧ needle <+: q.rest := by
  obtain ⟨n, hn, hpair⟩ := Option.map_eq_some_iff.1 h
  obtain ⟨rfl, rfl⟩ := Prod.mk.inj hpair
  obtain ⟨as, bs, hrest, rfl, hneedle⟩ := exists_of_distanceFrom hn
  rw [Nat.zero_add]
  exact ⟨p.passes_take _, by rwa [rest_forward, hrest, List.drop_left]⟩

theorem passes_of_upToTagEnd? (h : p.upToTagEnd? = some (cs, q)) :
    p.Passes cs q ∧ q.sees '>' = true := by
  obtain ⟨n, hn, hpair⟩ := Option.map_eq_some_iff.1 h
  obtain ⟨rfl, rfl⟩ := Prod.mk.inj hpair
  obtain ⟨as, bs, hrest, rfl⟩ := exists_of_tagEndFrom hn
  rw [Nat.zero_add]
  exact ⟨p.passes_take _, sees_iff.2 ⟨bs, by rw [rest_forward, hrest, List.drop_left]⟩⟩

theorem passes_of_name? (h : p.name? = some (name, q)) : p.Passes name.toList q := by
  unfold name? at h
  split at h
  · obtain ⟨rfl, rfl⟩ := Prod.mk.inj (Option.some.inj h)
    rw [String.toList_ofList]
    exact p.passes_span isNameChar
  · cases h

theorem passes_skipBlank (p : Place) : p.Passes (p.span isBlank).1 p.skipBlank :=
  p.passes_span isBlank

/-! ## Ground -/

/-- The place `q` lies ahead of `p` in the same text, with at least `n` bytes between them. -/
def Covers (p : Place) (n : Nat) (q : Place) : Prop :=
  ∃ cs, p.Passes cs q ∧ n ≤ byteLength cs

theorem Passes.covers (h : p.Passes cs q) : p.Covers (byteLength cs) q :=
  ⟨cs, h, Nat.le_refl _⟩

theorem Covers.refl (p : Place) : p.Covers 0 p :=
  (Passes.refl p).covers

theorem Covers.weaken (h : p.Covers n q) (hle : m ≤ n) : p.Covers m q := by
  obtain ⟨cs, hpass, hn⟩ := h
  exact ⟨cs, hpass, Nat.le_trans hle hn⟩

theorem Covers.trans (h : p.Covers m q) (h' : q.Covers n r) : p.Covers (m + n) r := by
  obtain ⟨as, has, hm⟩ := h
  obtain ⟨bs, hbs, hn⟩ := h'
  exact ⟨as ++ bs, has.trans hbs, by rw [byteLength_append]; exact Nat.add_le_add hm hn⟩

theorem Covers.offset_le (h : p.Covers n q) : p.offset + n ≤ q.offset := by
  obtain ⟨cs, hpass, hn⟩ := h
  rw [hpass.offset_eq]
  exact Nat.add_le_add_left hn _

/-- All ground lies in the text. -/
theorem Covers.byteLength_le (h : p.Covers n q) :
    n + byteLength q.rest ≤ byteLength p.rest := by
  obtain ⟨cs, hpass, hn⟩ := h
  rw [hpass.rest_eq, byteLength_append]
  exact Nat.add_le_add_right hn _

theorem covers_forward (p : Place) (n : Nat) : p.Covers 0 (p.forward n) :=
  (p.passes_take n).covers.weaken (Nat.zero_le _)

theorem covers_span (p : Place) (within : Char → Bool) :
    p.Covers (byteLength (p.span within).1) (p.span within).2 :=
  (p.passes_span within).covers

theorem covers_skipBlank (p : Place) : p.Covers 0 p.skipBlank :=
  p.passes_skipBlank.covers.weaken (Nat.zero_le _)

theorem covers_of_sees {c : Char} (h : p.sees c = true) : p.Covers 1 (p.forward 1) := by
  refine (passes_forward h).covers.weaken ?_
  rw [byteLength_cons]
  exact Nat.le_trans c.utf8Size_pos (Nat.le_add_right _ _)

theorem covers_of_name? (h : p.name? = some (name, q)) : p.Covers name.utf8ByteSize q :=
  byteLength_toList name ▸ (passes_of_name? h).covers

/-- A text with the needle behind it. -/
theorem covers_of_upTo? (h : p.upTo? needle = some (cs, q)) :
    p.Covers (byteLength cs + byteLength needle) (q.forward needle.length) :=
  (passes_of_upTo? h).1.covers.trans (passes_of_isPrefix (passes_of_upTo? h).2).covers

end Place

end MarkupQuery.Text
