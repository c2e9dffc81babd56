import MarkupQuery.Proofs.Text.Passing

/-!
# What scans find

A scan stops at the first occurrence of what it looks for. If a text is followed by what is looked
for and does not hold it, then the scan passes this text: a needle whose last character occurs in it
only once cannot begin inside the text and end behind it (`Place.upTo?_eq`). The end of a tag is
found behind any sequence of plain characters and closed quotations (`SkippedInTag`).
-/

namespace MarkupQuery.Text

/-! ## Needles -/

section Needle

variable {init content rest : List Char} {x : Char}

/-- A needle does not begin inside a text that does not hold it, also if it follows the text. -/
theorem not_prefix_of_not_infix (hx : x ∉ init) (hne : content ≠ [])
    (hnot : ¬ init ++ [x] <:+: content) :
    ¬ init ++ [x] <+: content ++ (init ++ [x] ++ rest) := by
  intro h
  have hwhole : content <+: content ++ (init ++ [x] ++ rest) := List.prefix_append ..
  rcases Nat.le_total (init ++ [x]).length content.length with hle | hle
  · exact hnot (List.prefix_of_prefix_length_le h hwhole hle).isInfix
  · -- What of the needle lies behind the text begins a needle too, and has `x` before its end.
    obtain ⟨tail, htail⟩ := List.prefix_of_prefix_length_le hwhole h hle
    have hbehind : tail <+: init ++ [x] ++ rest := by
      rw [← List.prefix_append_right_inj content, htail]
      exact h
    rw [List.append_assoc] at hbehind
    have hlength : tail.length ≤ init.length := by
      have := congrArg List.length htail
      have := List.length_pos_iff.2 hne
      simp only [List.length_append, List.length_singleton] at *
      omega
    have hinit := List.prefix_of_prefix_length_le hbehind (List.prefix_append ..) hlength
    have hlast : tail ≠ [] := by
      rintro rfl
      rw [List.append_nil] at htail
      exact hnot (htail ▸ List.infix_rfl)
    have heq : tail.getLast hlast = x := by
      rw [← List.getLast_append_of_ne_nil (List.append_ne_nil_of_right_ne_nil content hlast) hlast]
      simp [htail]
    exact hx (hinit.subset (heq ▸ List.getLast_mem hlast))

theorem distanceFrom_eq (hx : x ∉ init) (hnot : ¬ init ++ [x] <:+: content) (n : Nat) :
    distanceFrom (init ++ [x]) n (content ++ (init ++ [x] ++ rest)) =
      some (n + content.length) := by
  induction content generalizing n with
  | nil =>
    obtain ⟨c, cs, hcs⟩ := List.exists_cons_of_ne_nil
      (show init ++ [x] ++ rest ≠ [] by simp)
    have hbegins : (init ++ [x]).isPrefixOf (c :: cs) = true := by
      rw [← hcs, List.isPrefixOf_iff_prefix]
      exact List.prefix_append ..
    rw [List.nil_append, hcs, distanceFrom, if_pos hbegins]
    rfl
  | cons c content ih =>
    have hbegins : ¬ (init ++ [x]).isPrefixOf (c :: (content ++ (init ++ [x] ++ rest))) = true := by
      rw [List.isPrefixOf_iff_prefix, ← List.cons_append]
      exact not_prefix_of_not_infix hx (by simp) hnot
    rw [List.cons_append, distanceFrom, if_neg hbegins,
      ih fun h => hnot (h.trans (List.suffix_cons ..).isInfix), List.length_cons]
    congr 1
    omega

end Needle

/-! ## The end of a tag -/

/-- The search for the end of a tag goes on behind these characters. -/
def SkippedInTag (cs : List Char) : Prop :=
  ∀ n rest, tagEndFrom none n (cs ++ rest) = tagEndFrom none (n + cs.length) rest

namespace SkippedInTag

variable {as bs cs : List Char} {c quote : Char}

theorem nil : SkippedInTag [] :=
  fun _ _ => rfl

theorem append (ha : SkippedInTag as) (hb : SkippedInTag bs) : SkippedInTag (as ++ bs) := by
  intro n rest
  rw [List.append_assoc, ha, hb, List.length_append, Nat.add_assoc]

theorem singleton (hangle : c ≠ '>') (hquote : isQuote c = false) : SkippedInTag [c] := by
  intro n rest
  rw [List.singleton_append, tagEndFrom]
  simp [hangle, hquote]

theorem of_forall (h : ∀ c ∈ cs, c ≠ '>' ∧ isQuote c = false) : SkippedInTag cs := by
  induction cs with
  | nil => exact nil
  | cons c cs ih =>
    obtain ⟨hangle, hquote⟩ := h c (List.mem_cons_self ..)
    exact (singleton hangle hquote).append (ih fun c hc => h c (List.mem_cons_of_mem _ hc))

theorem tagEndFrom_inside (h : quote ∉ cs) (n : Nat) (rest : List Char) :
    tagEndFrom (some quote) n (cs ++ quote :: rest) =
      tagEndFrom none (n + cs.length + 1) rest := by
  induction cs generalizing n with
  | nil => simp [tagEndFrom]
  | cons c cs ih =>
    rw [List.mem_cons, not_or] at h
    rw [List.cons_append, tagEndFrom, if_neg (by simpa using Ne.symm h.1), ih h.2,
      List.length_cons, Nat.add_assoc n 1, Nat.add_comm 1]

theorem quoted (hquote : isQuote quote = true) (h : quote ∉ cs) :
    SkippedInTag (quote :: cs ++ [quote]) := by
  intro n rest
  have hangle : ¬ (quote == '>') = true := by
    intro hq
    rw [beq_iff_eq.1 hq] at hquote
    exact absurd hquote (by decide)
  rw [List.append_assoc, List.cons_append, tagEndFrom, if_neg hangle, if_pos hquote,
    List.singleton_append, tagEndFrom_inside h]
  simp only [List.length_append, List.length_cons, List.length_nil]
  congr 1
  omega

theorem tagEnd?_eq (h : SkippedInTag cs) (rest : List Char) :
    tagEnd? (cs ++ '>' :: rest) = some cs.length := by
  rw [tagEnd?, h, tagEndFrom, if_pos (by decide), Nat.zero_add]

end SkippedInTag

/-! ## Places -/

namespace Place

variable {p q r : Place} {bs cs : List Char} {c x : Char}

theorem Passes.take_eq (h : p.Passes cs q) : p.rest.take cs.length = cs := by
  rw [h.rest_eq, List.take_left]

theorem Passes.forward_eq (h : p.Passes cs q) : p.forward cs.length = q := by
  cases q
  simp [forward, h.rest_eq, ← h.offset_eq]

theorem Passes.of_append (h : p.Passes (bs ++ cs) r) : (p.forward bs.length).Passes cs r := by
  obtain ⟨q, hpq, hqr⟩ := passes_append_iff.1 h
  rwa [hpq.forward_eq]

theorem upTo?_eq (init : List Char) (h : p.Passes cs q) (hneedle : q.Passes (init ++ [x]) r)
    (hx : x ∉ init) (hnot : ¬ init ++ [x] <:+: cs) : p.upTo? (init ++ [x]) = some (cs, q) := by
  have hdistance : distanceTo? (init ++ [x]) p.rest = some cs.length := by
    rw [distanceTo?, h.rest_eq, hneedle.rest_eq, distanceFrom_eq hx hnot, Nat.zero_add]
  rw [upTo?, hdistance, Option.map_some, h.take_eq, h.forward_eq]

theorem upToTagEnd?_eq (h : p.Passes cs q) (hq : q.sees '>' = true) (hcs : SkippedInTag cs) :
    p.upToTagEnd? = some (cs, q) := by
  obtain ⟨rest, hrest⟩ := sees_iff.1 hq
  have hdistance : tagEnd? p.rest = some cs.length := by
    rw [h.rest_eq, hrest, hcs.tagEnd?_eq]
  rw [upToTagEnd?, hdistance, Option.map_some, h.take_eq, h.forward_eq]

/-- A name goes on as long as it can. -/
theorem name?_eq_of_ends (h : p.Passes cs q) (hstart : cs.head?.any isNameStart = true)
    (hchars : ∀ c ∈ cs, isNameChar c = true) (hq : q.rest.head?.any isNameChar = false) :
    p.name? = some (String.ofList cs, q) := by
  have hhead : p.rest.head?.any isNameStart = true := by
    rw [h.rest_eq, List.head?_append]
    cases hcs : cs.head? <;> simp_all
  rw [name?, if_pos hhead, span_eq_iff.2 ⟨h, hchars, hq⟩]

/-- A name is read up to a character that is in no name. -/
theorem name?_eq {name : String} (h : p.Passes name.toList q)
    (hstart : name.toList.head?.any isNameStart = true)
    (hchars : ∀ c ∈ name.toList, isNameChar c = true) (hq : q.sees c = true)
    (hc : isNameChar c = false) : p.name? = some (name, q) := by
  obtain ⟨rest, hrest⟩ := sees_iff.1 hq
  rw [name?_eq_of_ends h hstart hchars (by simp [hrest, hc]), String.ofList_toList]

/-- White space goes on as long as it can. -/
theorem skipBlank_eq (h : p.Passes cs q) (hcs : ∀ c ∈ cs, isBlank c = true)
    (hq : q.rest.head?.any isBlank = false) : p.skipBlank = q := by
  rw [skipBlank, span_eq_iff.2 ⟨h, hcs, hq⟩]

theorem skipBlank_eq_self (hp : p.sees c = true) (hc : isBlank c = false) : p.skipBlank = p := by
  obtain ⟨rest, hrest⟩ := sees_iff.1 hp
  exact skipBlank_eq (.refl p) (by simp) (by simp [hrest, hc])

end Place

end MarkupQuery.Text
