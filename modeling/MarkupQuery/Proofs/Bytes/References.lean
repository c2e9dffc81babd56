import MarkupQuery.Proofs.Bytes.Slices
import MarkupQuery.Proofs.Text.Numerals

/-!
# Decoding by bytes

The decoder looks for the bytes of `&` and of the next `;` and cuts the text there. `decodeAt?` is
this loop over byte offsets, with every slice that it takes. All of them are in place, and what
comes out is the text with its references replaced (`decodeText?_eq`).

The next semicolon may lie far behind characters of which no reference is made. Then what is in
between stands for nothing, so it makes no difference that `Reference.read?` gives up earlier.
-/

namespace MarkupQuery.Text

namespace Reference

/-! ## References end at the next semicolon -/

variable {cs body rest : List Char} {c d : Char} {radix n m : Nat}

theorem isBody_of_digit? (h : digit? radix d = some n) : isBody d = true := by
  obtain ⟨hvalue, -⟩ := Option.filter_eq_some_iff.1 h
  have halnum : d.isAlphanum = true := by
    unfold Char.isAlphanum Char.isAlpha Char.isUpper Char.isLower
    split at hvalue
    · rename_i hd
      simp [hd]
    · split at hvalue
      · rename_i hd
        have hle : d ≤ 'z' := Char.le_trans hd.2 (by decide)
        simp only [Bool.or_eq_true, Bool.and_eq_true, decide_eq_true_eq]
        exact .inl (.inr ⟨hd.1, hle⟩)
      · split at hvalue
        · rename_i hd
          have hle : d ≤ 'Z' := Char.le_trans hd.2 (by decide)
          simp only [Bool.or_eq_true, Bool.and_eq_true, decide_eq_true_eq]
          exact .inl (.inl ⟨hd.1, hle⟩)
        · cases hvalue
  rw [isBody, halnum]
  rfl

theorem all_isBody_of_numberFrom (h : numberFrom radix n cs = some m) : cs.all isBody = true := by
  refine List.all_eq_true.2 fun d hd => ?_
  obtain ⟨v, hv⟩ := exists_digit?_of_numberFrom h hd
  exact isBody_of_digit? hv

theorem all_isBody_of_number? (h : number? radix cs = some n) : cs.all isBody = true := by
  unfold number? at h
  split at h
  · cases h
  · cases h
  · exact (List.all_cons ..).trans (all_isBody_of_numberFrom h)
  · exact all_isBody_of_numberFrom h

/-- What stands for a character holds nothing of which references are not made. -/
theorem all_isBody_of_value? (h : value? cs = some c) : cs.all isBody = true := by
  have hhash : isBody '#' = true := rfl
  unfold value? at h
  split at h
  · obtain ⟨n, hn, -⟩ := Option.bind_eq_some_iff.1 h
    simpa [hhash, show isBody 'x' = true from rfl] using all_isBody_of_number? hn
  · obtain ⟨n, hn, -⟩ := Option.bind_eq_some_iff.1 h
    simpa [hhash, show isBody 'X' = true from rfl] using all_isBody_of_number? hn
  · obtain ⟨n, hn, -⟩ := Option.bind_eq_some_iff.1 h
    simpa [hhash] using all_isBody_of_number? hn
  · unfold named? at h
    split at h <;> first | rfl | cases h

theorem read?_of_not_mem (h : ';' ∉ cs) : read? cs = none := by
  rw [read?]
  split
  · rename_i rest hdrop
    have hmem : ';' ∈ cs.dropWhile isBody := hdrop ▸ List.mem_cons_self ..
    exact absurd ((List.dropWhile_suffix isBody).subset hmem) h
  · rfl

/-- A reference goes up to the first semicolon, if it is one. -/
theorem read?_append (h : ';' ∉ body) (rest : List Char) :
    read? (body ++ ';' :: rest) = (value? body).map fun c => (c, rest) := by
  by_cases hbody : body.all isBody = true
  · have htake : (body ++ ';' :: rest).takeWhile isBody = body := by
      rw [List.takeWhile_append_of_pos (List.all_eq_true.1 hbody),
        List.takeWhile_cons_of_neg (by decide), List.append_nil]
    have hdrop : (body ++ ';' :: rest).dropWhile isBody = ';' :: rest := by
      rw [List.dropWhile_append_of_pos (List.all_eq_true.1 hbody),
        List.dropWhile_cons_of_neg (by decide)]
    rw [read?, hdrop, htake]
    rfl
  · have hnone : value? body = none :=
      Option.eq_none_iff_forall_ne_some.2 fun c hc => hbody (all_isBody_of_value? hc)
    rw [hnone, Option.map_none, read?, List.dropWhile_append]
    -- what stops the scan lies in front of the semicolon
    have hne : body.dropWhile isBody ≠ [] := by
      intro hnil
      have hwhole := List.takeWhile_append_dropWhile (p := isBody) (l := body)
      rw [hnil, List.append_nil] at hwhole
      exact hbody (hwhole ▸ List.all_takeWhile)
    rw [if_neg (by simpa using hne)]
    obtain ⟨d, ds, hds⟩ := List.exists_cons_of_ne_nil hne
    have hd : d ≠ ';' := by
      rintro rfl
      exact h ((List.dropWhile_suffix isBody).subset (hds ▸ List.mem_cons_self ..))
    rw [hds, List.cons_append]
    split
    · rename_i heq
      exact absurd (List.cons.inj heq).1 hd
    · rfl

/-! ## The loop of the decoder -/

/-- The character for which the reference at an ampersand stands, and the offset behind its
semicolon. -/
def entityAt? (text : List Char) (amp : Nat) : Option (Option (Char × Nat)) :=
  (bytesFrom? amp text).bind fun ahead =>
    match ahead.findIdx? (· == ';'.toUInt8) with
    | none => some none
    | some k => (slice? (amp + 1) (amp + k) text).map fun body =>
      (value? body).map fun c => (c, amp + k + 1)

theorem lt_of_entityAt? {text : List Char} {amp next : Nat}
    (h : entityAt? text amp = some (some (c, next))) : amp < next := by
  obtain ⟨ahead, -, h⟩ := Option.bind_eq_some_iff.1 h
  split at h
  · cases h
  · obtain ⟨body, -, h⟩ := Option.map_eq_some_iff.1 h
    obtain ⟨c, -, hpair⟩ := Option.map_eq_some_iff.1 h
    obtain ⟨-, rfl⟩ := Prod.mk.inj hpair
    omega

/-- Decode what is left of a text from a byte offset on, behind the part that is done. -/
def decodeAt? (text done : List Char) (i : Nat) : Option (List Char) :=
  match _hahead : bytesFrom? i text with
  | none => none
  | some ahead =>
    match _hk : ahead.findIdx? (· == '&'.toUInt8) with
    | none => (slice? i (encode text).length text).map (done ++ ·)
    | some k =>
      match slice? i (i + k) text with
      | none => none
      | some piece =>
        match _hentity : entityAt? text (i + k) with
        | none => none
        | some (some (c, next)) => decodeAt? text (done ++ piece ++ [c]) next
        | some none => decodeAt? text (done ++ piece ++ ['&']) (i + k + 1)
termination_by (encode text).length - i
decreasing_by
  all_goals
    have hlt := (List.findIdx?_eq_some_iff_getElem.1 _hk).1
    rw [length_of_bytesFrom? _hahead] at hlt
    first
    | have := lt_of_entityAt? _hentity
      omega
    | omega

/-- The text with every reference replaced. A text without ampersands is handed back as it is. -/
def decodeText? (text : List Char) : Option (List Char) :=
  match (encode text).findIdx? (· == '&'.toUInt8) with
  | none => some text
  | some _ => decodeAt? text [] 0

variable {text : List Char} {base i : Nat} {p q : Place}

theorem entityAt?_eq (h : Stands text base i p) (hp : p.rest = '&' :: cs) :
    entityAt? text i =
      some ((read? cs).map fun (c, rest) => (c, i + (byteLength p.rest - byteLength rest))) := by
  have hagrees := Agrees.beq (x := ';') (by decide)
  rw [entityAt?, h.bytesFrom?_eq, Option.bind_some, hp]
  by_cases hmem : ';' ∈ cs
  · obtain ⟨body, rest, rfl, hbody⟩ := List.eq_append_cons_of_mem hmem
    have hnone : ∀ c ∈ '&' :: body, (c == ';') = false := forall_beq_eq_false (by simp [hbody])
    have hfind := hagrees.findIdx?_encode hnone (beq_self_eq_true ';') rest
    obtain ⟨q, hamp, hq⟩ := Place.passes_append_iff.1
      (Place.passes_of_rest_eq (show p.rest = (['&'] ++ body) ++ ';' :: rest from hp))
    have hslice := (h.passes hamp).slice?_eq hq
    have hone : byteLength ['&'] = 1 := rfl
    have hsemicolon : ';'.utf8Size = 1 := rfl
    rw [hone, Nat.add_assoc, ← hone, ← byteLength_append, hone] at hslice
    rw [← List.cons_append, hfind]
    dsimp only
    rw [show '&' :: body = ['&'] ++ body from rfl, hslice, read?_append hbody, Option.map_some,
      Option.map_map]
    congr 2
    funext c
    simp only [Function.comp_apply, byteLength_append, byteLength_cons, hsemicolon]
    congr 1
    omega
  · have hnone : ∀ c ∈ '&' :: cs, (c == ';') = false := forall_beq_eq_false (by simp [hmem])
    rw [hagrees.findIdx?_encode_of_forall hnone, read?_of_not_mem hmem]
    rfl

section Loop

variable {done piece : List Char} {ahead : List UInt8} {k next : Nat}

theorem decodeAt?_of_none (hahead : bytesFrom? i text = some ahead)
    (hk : ahead.findIdx? (· == '&'.toUInt8) = none) :
    decodeAt? text done i = (slice? i (encode text).length text).map (done ++ ·) := by
  rw [decodeAt?]
  split
  · simp_all
  · obtain rfl := Option.some.inj (hahead.symm.trans ‹_›)
    split
    · rfl
    · simp_all

theorem decodeAt?_of_some (hahead : bytesFrom? i text = some ahead)
    (hk : ahead.findIdx? (· == '&'.toUInt8) = some k) (hpiece : slice? i (i + k) text = some piece)
    {result : Option (Char × Nat)} (hentity : entityAt? text (i + k) = some result) :
    decodeAt? text done i =
      decodeAt? text (done ++ piece ++ [(result.map Prod.fst).getD '&'])
        ((result.map Prod.snd).getD (i + k + 1)) := by
  rw [decodeAt?]
  split
  · simp_all
  · obtain rfl := Option.some.inj (hahead.symm.trans ‹_›)
    split
    · simp_all
    · obtain rfl := Option.some.inj (hk.symm.trans ‹_›)
      rw [hpiece]
      dsimp only
      split
      · simp_all
      · obtain rfl := Option.some.inj (hentity.symm.trans ‹_›)
        rfl
      · obtain rfl := Option.some.inj (hentity.symm.trans ‹_›)
        rfl

end Loop

/-- The loop of the decoder goes through, and replaces the references that lie ahead. -/
theorem decodeAt?_eq (h : Stands text base i p) (done : List Char) :
    decodeAt? text done i = some (decodeOnto done.reverse p.rest) := by
  have hagrees := Agrees.beq (x := '&') (by decide)
  -- on the number of characters ahead: each round passes an ampersand
  induction hn : p.rest.length using Nat.strongRecOn generalizing done i p with
  | ind n ih =>
    by_cases hmem : '&' ∈ p.rest
    · obtain ⟨piece, rest, hp, hpiece⟩ := List.eq_append_cons_of_mem hmem
      have hfind := hagrees.findIdx?_encode (forall_beq_eq_false hpiece) (beq_self_eq_true '&') rest
      rw [← hp] at hfind
      have hpass := Place.passes_of_rest_eq hp
      have hamp := h.passes hpass
      have hentity := entityAt?_eq hamp rfl
      have hlength := congrArg List.length hp
      rw [List.length_append, List.length_cons] at hlength
      rw [decodeAt?_of_some h.bytesFrom?_eq hfind (h.slice?_eq hpass) hentity, hp,
        decodeOnto_append _ hpiece]
      -- the loop goes on behind the ampersand, or behind a reference
      have behind {front tail : List Char} (hfront : '&' :: rest = front ++ tail) (c : Char)
          (hlt : tail.length < n) :
          decodeAt? text (done ++ piece ++ [c]) (i + byteLength piece + byteLength front) =
            some (decodeOnto (c :: (piece.reverse ++ done.reverse)) tail) := by
        rw [ih _ hlt (hamp.passes (Place.passes_of_rest_eq hfront)) _ rfl]
        simp
      cases hread : read? rest with
      | none =>
        have hone : byteLength ['&'] = 1 := rfl
        rw [decodeOnto_ampersand hread]
        exact hone ▸ behind (show '&' :: rest = ['&'] ++ rest from rfl) '&' (by omega)
      | some pair =>
        obtain ⟨c, tail⟩ := pair
        obtain ⟨hdrop, -⟩ := read?_eq_some_iff.1 hread
        have hfront : '&' :: rest = ('&' :: rest.takeWhile isBody ++ [';']) ++ tail := by
          rw [List.cons_append, List.cons_append, List.append_assoc, List.singleton_append, ← hdrop,
            List.takeWhile_append_dropWhile]
        have hlt := length_of_read? hread
        have hbytes := congrArg byteLength hfront
        rw [byteLength_append] at hbytes
        have hnext := behind hfront c (by omega)
        rw [decodeOnto_reference hread, ← hnext]
        simp only [Option.map_some, Option.getD_some]
        congr 1
        omega
    · have hfind := hagrees.findIdx?_encode_of_forall (forall_beq_eq_false hmem)
      have hslice := h.slice?_eq (Place.passes_of_rest_eq (List.append_nil p.rest).symm)
      rw [h.add_byteLength] at hslice
      rw [decodeAt?_of_none h.bytesFrom?_eq hfind, hslice, decodeOnto_of_not_mem hmem,
        List.reverse_reverse]
      rfl

/-- Decoding by bytes goes through, and gives what decoding by characters does. -/
theorem decodeText?_eq (text : List Char) : decodeText? text = some (decodeChars text) := by
  have hagrees := Agrees.beq (x := '&') (by decide)
  have hslow : decodeAt? text [] 0 = some (decodeChars text) := by
    rw [decodeAt?_eq (stands_start 0 text) [], decodeChars_eq]
    rfl
  rw [decodeText?]
  split
  · rename_i hnone
    have hplain : isPlain text = true := by
      refine isPlain_iff.2 fun hmem => ?_
      obtain ⟨piece, rest, rfl, hpiece⟩ := List.eq_append_cons_of_mem hmem
      rw [hagrees.findIdx?_encode (forall_beq_eq_false hpiece) (beq_self_eq_true '&')] at hnone
      cases hnone
    rw [decodeChars, if_pos hplain]
  · exact hslow

end Reference

end MarkupQuery.Text
