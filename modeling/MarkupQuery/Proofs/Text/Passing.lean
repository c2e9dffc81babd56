import MarkupQuery.Text.Place

/-!
# The text between two places

A reader that starts at one place and stops at another has passed the text between them. This file
says so without naming the offsets: `Place.Passes p cs q` states that from `p` the characters `cs`
lead to `q`. A place with a given text ahead is determined by the text passed, so a reader is told
completely by which texts it passes; and the offset of a place that is reached from the start of a
text is always one at which the text can be cut (`Place.Passes.isValid`).
-/

namespace MarkupQuery.Text

open String (ofList)

theorem utf8ByteSize_ofList (cs : List Char) : (ofList cs).utf8ByteSize = byteLength cs := by
  induction cs with
  | nil => rfl
  | cons c cs ih =>
    rw [← List.singleton_append, String.ofList_append, ← String.singleton_eq_ofList,
      String.utf8ByteSize_append, String.utf8ByteSize_singleton, ih, List.singleton_append,
      byteLength_cons]

theorem byteLength_toList (s : String) : byteLength s.toList = s.utf8ByteSize := by
  rw [← utf8ByteSize_ofList, String.ofList_toList]

/-- Every character takes a byte. -/
theorem length_le_byteLength (cs : List Char) : cs.length ≤ byteLength cs := by
  induction cs with
  | nil => exact Nat.le_refl _
  | cons c cs ih =>
    have := c.utf8Size_pos
    rw [List.length_cons, byteLength_cons]
    omega

namespace Place

/-- The characters `cs` lie between the place `p` and the later place `q`. -/
structure Passes (p : Place) (cs : List Char) (q : Place) : Prop where
  /-- The text ahead of the first place is the text passed, then the text ahead of the second. -/
  rest_eq : p.rest = cs ++ q.rest
  /-- The offset grows by the bytes passed. -/
  offset_eq : q.offset = p.offset + byteLength cs

variable {p q r : Place} {as bs cs : List Char}

theorem Passes.refl (p : Place) : p.Passes [] p :=
  ⟨rfl, rfl⟩

theorem Passes.trans (hpq : p.Passes as q) (hqr : q.Passes bs r) : p.Passes (as ++ bs) r :=
  ⟨by rw [hpq.rest_eq, hqr.rest_eq, List.append_assoc],
    by rw [hqr.offset_eq, hpq.offset_eq, byteLength_append, Nat.add_assoc]⟩

/-- The place behind a given text is unique. -/
theorem Passes.unique (hq : p.Passes cs q) (hr : p.Passes cs r) : q = r := by
  have hrest : q.rest = r.rest := List.append_cancel_left (hq.rest_eq.symm.trans hr.rest_eq)
  have hoffset : q.offset = r.offset := hq.offset_eq.trans hr.offset_eq.symm
  cases q
  cases r
  simp_all

/-- If the text ahead begins with `cs`, then `cs` can be passed. -/
theorem passes_of_rest_eq (h : p.rest = cs ++ as) : p.Passes cs ⟨p.offset + byteLength cs, as⟩ :=
  ⟨h, rfl⟩

theorem passes_nil_iff : p.Passes [] q ↔ q = p :=
  ⟨fun h => h.unique (.refl p), fun h => h ▸ .refl p⟩

/-- A text is passed part by part. -/
theorem passes_append_iff :
    p.Passes (as ++ bs) r ↔ ∃ q, p.Passes as q ∧ q.Passes bs r := by
  constructor
  · intro h
    refine ⟨⟨p.offset + byteLength as, bs ++ r.rest⟩, passes_of_rest_eq ?_, rfl, ?_⟩
    · rw [h.rest_eq, List.append_assoc]
    · rw [h.offset_eq, byteLength_append, Nat.add_assoc]
  · rintro ⟨q, hpq, hqr⟩
    exact hpq.trans hqr

theorem sees_iff {c : Char} : p.sees c = true ↔ ∃ cs, p.rest = c :: cs := by
  rw [sees, beq_iff_eq, List.head?_eq_some_iff]

theorem not_sees_iff {c : Char} : ¬ p.sees c = true ↔ ∀ cs, p.rest ≠ c :: cs := by
  rw [sees_iff, not_exists]

theorem not_sees_of_sees {c c' : Char} (h : p.sees c = true) (hne : c ≠ c') :
    ¬ p.sees c' = true := by
  rw [sees, beq_iff_eq] at h ⊢
  rw [h]
  simpa using hne

theorem passes_singleton_iff {c : Char} :
    p.Passes [c] q ↔ p.sees c = true ∧ q = p.forward 1 := by
  constructor
  · intro h
    refine ⟨sees_iff.2 ⟨q.rest, h.rest_eq⟩, h.unique ⟨?_, ?_⟩⟩
    · rw [rest_forward, h.rest_eq]
      rfl
    · rw [forward, h.rest_eq]
      rfl
  · rintro ⟨hc, rfl⟩
    obtain ⟨cs, hcs⟩ := sees_iff.1 hc
    exact ⟨by rw [rest_forward, hcs]; rfl, by rw [forward, hcs]; rfl⟩

theorem passes_forward {c : Char} (h : p.sees c = true) : p.Passes [c] (p.forward 1) :=
  passes_singleton_iff.2 ⟨h, rfl⟩

theorem passes_cons_iff {c : Char} :
    p.Passes (c :: cs) q ↔ p.sees c = true ∧ (p.forward 1).Passes cs q := by
  rw [← List.singleton_append, passes_append_iff]
  constructor
  · rintro ⟨r, hr, hq⟩
    obtain ⟨hc, rfl⟩ := passes_singleton_iff.1 hr
    exact ⟨hc, hq⟩
  · rintro ⟨hc, hq⟩
    exact ⟨_, passes_forward hc, hq⟩

theorem Passes.sees {c : Char} (h : p.Passes (c :: cs) q) : p.sees c = true :=
  (passes_cons_iff.1 h).1

theorem passes_span (p : Place) (within : Char → Bool) :
    p.Passes (p.span within).1 (p.span within).2 :=
  ⟨List.takeWhile_append_dropWhile.symm, rfl⟩

/-- A run of characters of one class ends where the next character, if any, is of another. -/
theorem span_eq_iff {within : Char → Bool} :
    p.span within = (cs, q) ↔
      p.Passes cs q ∧ (∀ c ∈ cs, within c = true) ∧ q.rest.head?.any within = false := by
  constructor
  · intro h
    obtain ⟨rfl, rfl⟩ := Prod.mk.inj h
    refine ⟨passes_span p within, List.all_eq_true.1 List.all_takeWhile, ?_⟩
    have hnot := List.head?_dropWhile_not within p.rest
    cases hrest : p.rest.dropWhile within with
    | nil => simp
    | cons c cs => simpa [hrest] using hnot
  · rintro ⟨hpass, hcs, hstop⟩
    have htake : p.rest.takeWhile within = cs := by
      rw [hpass.rest_eq, List.takeWhile_append_of_pos hcs]
      cases hq : q.rest with
      | nil => simp
      | cons c _ =>
        rw [List.takeWhile_cons_of_neg (by simpa [hq] using hstop), List.append_nil]
    have hfst : (p.span within).1 = cs := htake
    exact Prod.ext hfst (hfst ▸ passes_span p within |>.unique hpass)

/-- The bytes in front of a place reached from the start of a text are a prefix of the text. -/
theorem Passes.isValid {text : String} (h : (start text).Passes cs q) :
    String.Pos.Raw.IsValid text ⟨q.offset⟩ := by
  refine String.Pos.Raw.isValid_iff_exists_append.2 ⟨ofList cs, ofList q.rest, ?_, ?_⟩
  · rw [← String.ofList_append, ← h.rest_eq]
    exact String.ofList_toList.symm
  · rw [h.offset_eq]
    exact congrArg String.Pos.Raw.mk ((Nat.zero_add _).trans (utf8ByteSize_ofList cs).symm)

/-- The text ahead of a place can be cut at offset `n`. -/
def CutAt (p : Place) (n : Nat) : Prop :=
  ∃ cs q, p.Passes cs q ∧ q.offset = n

theorem CutAt.here (p : Place) : p.CutAt p.offset :=
  ⟨[], p, .refl p, rfl⟩

theorem CutAt.behind {n : Nat} (h : q.CutAt n) (hpq : p.Passes as q) : p.CutAt n := by
  obtain ⟨cs, r, hqr, hn⟩ := h
  exact ⟨as ++ cs, r, hpq.trans hqr, hn⟩

end Place

end MarkupQuery.Text
