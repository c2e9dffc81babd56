import MarkupQuery.Text.Reference

/-!
# Decoding from left to right

What decoding does with the next piece of a text: a reference is replaced, an ampersand that opens
none is kept, and text without ampersands is passed. The loop carries what is already decoded, but
does not look at it (`decodeOnto_eq`), so the same holds of decoding a whole text
(`decodeChars_reference`, `decodeChars_ampersand`, `decodeChars_append`).
-/

namespace MarkupQuery.Text.Reference

variable {done body cs rest : List Char} {c r : Char}

theorem isPlain_iff : isPlain cs = true ↔ '&' ∉ cs := by
  rw [isPlain, List.all_eq_true]
  constructor
  · intro h hmem
    exact absurd rfl (bne_iff_ne.1 (h '&' hmem))
  · rintro h c hc
    refine bne_iff_ne.2 ?_
    rintro rfl
    exact h hc

/-! ## The loop -/

theorem decodeOnto_reference (h : read? cs = some (r, rest)) :
    decodeOnto done ('&' :: cs) = decodeOnto (r :: done) rest := by
  rw [decodeOnto, if_pos (by decide)]
  split
  · rename_i h'
    obtain ⟨rfl, rfl⟩ := Prod.mk.inj (Option.some.inj (h'.symm.trans h))
    rfl
  · rename_i h'
    rw [h] at h'
    cases h'

/-- An ampersand that opens no reference is kept. -/
theorem decodeOnto_ampersand (h : read? cs = none) :
    decodeOnto done ('&' :: cs) = decodeOnto ('&' :: done) cs := by
  rw [decodeOnto, if_pos (by decide)]
  split
  · rename_i h'
    rw [h] at h'
    cases h'
  · rfl

theorem decodeOnto_plain (h : c ≠ '&') :
    decodeOnto done (c :: cs) = decodeOnto (c :: done) cs := by
  rw [decodeOnto, if_neg (by simpa using h)]

theorem decodeOnto_append (done : List Char) (h : '&' ∉ body) (rest : List Char) :
    decodeOnto done (body ++ rest) = decodeOnto (body.reverse ++ done) rest := by
  induction body generalizing done with
  | nil => rfl
  | cons c body ih =>
    rw [List.mem_cons, not_or] at h
    rw [List.cons_append, decodeOnto_plain (Ne.symm h.1), ih _ h.2, List.reverse_cons,
      List.append_assoc]
    rfl

theorem decodeOnto_of_not_mem (h : '&' ∉ cs) : decodeOnto done cs = done.reverse ++ cs := by
  have hwhole := decodeOnto_append done h []
  rw [List.append_nil] at hwhole
  rw [hwhole, decodeOnto, List.reverse_append, List.reverse_reverse]

theorem decodeChars_eq (cs : List Char) : decodeChars cs = decodeOnto [] cs := by
  rw [decodeChars]
  split
  · rename_i hplain
    rw [decodeOnto_of_not_mem (isPlain_iff.1 hplain), List.reverse_nil, List.nil_append]
  · rfl

theorem decodeOnto_eq (done cs : List Char) :
    decodeOnto done cs = done.reverse ++ decodeChars cs := by
  -- on the number of characters: a reference takes several at a time
  induction hn : cs.length using Nat.strongRecOn generalizing done cs with
  | ind n ih =>
    rw [decodeChars_eq]
    have behind (r : Char) {rest : List Char} (hlt : rest.length < n) :
        decodeOnto (r :: done) rest = done.reverse ++ decodeOnto [r] rest := by
      rw [ih _ hlt (r :: done) rest rfl, ih _ hlt [r] rest rfl]
      simp
    cases cs with
    | nil => simp [decodeOnto]
    | cons c cs =>
      rw [List.length_cons] at hn
      by_cases hc : c = '&'
      · subst hc
        cases hread : read? cs with
        | none =>
          rw [decodeOnto_ampersand hread, decodeOnto_ampersand hread]
          exact behind '&' (by omega)
        | some pair =>
          obtain ⟨r, rest⟩ := pair
          have hlt := length_of_read? hread
          rw [decodeOnto_reference hread, decodeOnto_reference hread]
          exact behind r (by omega)
      · rw [decodeOnto_plain hc, decodeOnto_plain hc]
        exact behind c (by omega)

/-! ## Whole texts -/

theorem decodeChars_reference (h : read? cs = some (r, rest)) :
    decodeChars ('&' :: cs) = r :: decodeChars rest := by
  rw [decodeChars_eq, decodeOnto_reference h, decodeOnto_eq]
  rfl

theorem decodeChars_ampersand (h : read? cs = none) :
    decodeChars ('&' :: cs) = '&' :: decodeChars cs := by
  rw [decodeChars_eq, decodeOnto_ampersand h, decodeOnto_eq]
  rfl

theorem decodeChars_append (h : '&' ∉ body) (rest : List Char) :
    decodeChars (body ++ rest) = body ++ decodeChars rest := by
  rw [decodeChars_eq, decodeOnto_append _ h, decodeOnto_eq]
  simp

theorem decodeChars_plain (h : c ≠ '&') (cs : List Char) :
    decodeChars (c :: cs) = c :: decodeChars cs := by
  have hbody : '&' ∉ [c] := by simpa using h.symm
  exact decodeChars_append hbody cs

end MarkupQuery.Text.Reference
