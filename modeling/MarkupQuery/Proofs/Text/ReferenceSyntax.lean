import MarkupQuery.Proofs.Bytes.References

/-!
# The syntax of references

What stands between an ampersand and a semicolon is a well-formed reference if it is one of five
names, or a number sign with a decimal numeral, or with `x` or `X` and a hexadecimal one, and the
number is that of a character (`WellFormed`). `Decodes` scans a text from left to right: references
are replaced, an ampersand that opens none is kept, and so is all other text.

Decoding replaces a little more. A plus sign in front of the digits is passed over (`PlusSigned`),
since it is part of the numbers that are read. So decoding is the scan with both kinds of
references, and it is the scan with the well-formed ones exactly on the texts in which no ampersand
opens a reference with a plus sign (`decode_exact`).
-/

namespace MarkupQuery.Text.Reference

variable {body cs out rest : List Char} {c : Char} {n : Nat}

/-! ## References -/

/-- The names of characters, with the characters. -/
def predefined : List (List Char × Char) :=
  [("lt".toList, '<'), ("gt".toList, '>'), ("amp".toList, '&'), ("quot".toList, '"'),
    ("apos".toList, '\'')]

/-- The text between the ampersand and the semicolon of a well-formed reference, and the character
that it stands for. -/
inductive WellFormed : List Char → Char → Prop
  | named {name : List Char} {c : Char} (h : (name, c) ∈ predefined) : WellFormed name c
  | decimal {n : Nat} {ds : List Char} (h : Numeral 10 n ds) (hn : n.isValidChar) :
      WellFormed ('#' :: ds) (Char.ofNat n)
  | hexadecimal {x : Char} {n : Nat} {ds : List Char} (hx : x = 'x' ∨ x = 'X')
      (h : Numeral 16 n ds) (hn : n.isValidChar) : WellFormed ('#' :: x :: ds) (Char.ofNat n)

/-- The text of a reference with a plus sign in front of its digits. -/
inductive PlusSigned : List Char → Char → Prop
  | decimal {n : Nat} {ds : List Char} (h : Numeral 10 n ds) (hn : n.isValidChar) :
      PlusSigned ('#' :: '+' :: ds) (Char.ofNat n)
  | hexadecimal {x : Char} {n : Nat} {ds : List Char} (hx : x = 'x' ∨ x = 'X')
      (h : Numeral 16 n ds) (hn : n.isValidChar) : PlusSigned ('#' :: x :: '+' :: ds) (Char.ofNat n)

theorem mem_predefined (h : named? body = some c) : (body, c) ∈ predefined := by
  unfold named? at h
  split at h <;> cases h <;> simp [predefined]

theorem bind_scalar?_eq_some_iff {number : Option Nat} :
    number.bind scalar? = some c ↔ ∃ n, number = some n ∧ n.isValidChar ∧ Char.ofNat n = c := by
  simp [Option.bind_eq_some_iff, scalar?]

theorem scalar?_number? {radix : Nat} {ds : List Char} (hradix : radix ≤ 16)
    (h : Numeral radix n ds ∨ ∃ ds', ds = '+' :: ds' ∧ Numeral radix n ds')
    (hn : n.isValidChar) : (number? radix ds).bind scalar? = some (Char.ofNat n) :=
  bind_scalar?_eq_some_iff.2 ⟨n, (number?_eq_some_iff hradix).2 h, hn, rfl⟩

theorem wellFormed_or_plusSigned (h : value? body = some c) :
    WellFormed body c ∨ PlusSigned body c := by
  have hexadecimal {x : Char} {ds : List Char} (hx : x = 'x' ∨ x = 'X')
      (h : (number? 16 ds).bind scalar? = some c) :
      WellFormed ('#' :: x :: ds) c ∨ PlusSigned ('#' :: x :: ds) c := by
    obtain ⟨n, hnumber, hn, rfl⟩ := bind_scalar?_eq_some_iff.1 h
    obtain hds | ⟨ds, rfl, hds⟩ := (number?_eq_some_iff (by decide)).1 hnumber
    · exact .inl (.hexadecimal hx hds hn)
    · exact .inr (.hexadecimal hx hds hn)
  unfold value? at h
  split at h
  · exact hexadecimal (.inl rfl) h
  · exact hexadecimal (.inr rfl) h
  · obtain ⟨n, hnumber, hn, rfl⟩ := bind_scalar?_eq_some_iff.1 h
    obtain hds | ⟨ds, rfl, hds⟩ := (number?_eq_some_iff (by decide)).1 hnumber
    · exact .inl (.decimal hds hn)
    · exact .inr (.decimal hds hn)
  · exact .inl (.named (mem_predefined h))

theorem value?_of_wellFormed (h : WellFormed body c) : value? body = some c := by
  cases h with
  | named h =>
    simp only [predefined, List.mem_cons, List.not_mem_nil, Prod.mk.injEq, or_false] at h
    obtain ⟨rfl, rfl⟩ | ⟨rfl, rfl⟩ | ⟨rfl, rfl⟩ | ⟨rfl, rfl⟩ | ⟨rfl, rfl⟩ := h <;> rfl
  | @decimal n ds h hn =>
    have hread : value? ('#' :: ds) = (number? 10 ds).bind scalar? := by
      rw [value?.eq_def]
      split
      · rename_i heq
        obtain rfl := (List.cons.inj heq).2
        exact absurd List.mem_cons_self (h.not_mem (by decide) rfl)
      · rename_i heq
        obtain rfl := (List.cons.inj heq).2
        exact absurd List.mem_cons_self (h.not_mem (by decide) rfl)
      · rename_i heq
        rw [(List.cons.inj heq).2]
      · rename_i hne
        exact absurd rfl (hne ds)
    rw [hread]
    exact scalar?_number? (by decide) (.inl h) hn
  | hexadecimal hx h hn =>
    rcases hx with rfl | rfl
    · exact scalar?_number? (by decide) (.inl h) hn
    · exact scalar?_number? (by decide) (.inl h) hn

theorem value?_of_plusSigned (h : PlusSigned body c) : value? body = some c := by
  cases h with
  | decimal h hn => exact scalar?_number? (by decide) (.inr ⟨_, rfl, h⟩) hn
  | hexadecimal hx h hn =>
    rcases hx with rfl | rfl
    · exact scalar?_number? (by decide) (.inr ⟨_, rfl, h⟩) hn
    · exact scalar?_number? (by decide) (.inr ⟨_, rfl, h⟩) hn

/-- The text of a reference stands for a character if it is well-formed, or but for a plus sign. -/
theorem value?_eq_some_iff : value? body = some c ↔ WellFormed body c ∨ PlusSigned body c :=
  ⟨wellFormed_or_plusSigned, fun h => h.elim value?_of_wellFormed value?_of_plusSigned⟩

theorem WellFormed.plus_not_mem (h : WellFormed body c) : '+' ∉ body := by
  cases h with
  | named h =>
    simp only [predefined, List.mem_cons, List.not_mem_nil, Prod.mk.injEq, or_false] at h
    obtain ⟨rfl, -⟩ | ⟨rfl, -⟩ | ⟨rfl, -⟩ | ⟨rfl, -⟩ | ⟨rfl, -⟩ := h <;> decide
  | decimal h _ => simpa using h.not_mem (by decide) rfl
  | hexadecimal hx h _ =>
    have hds := h.not_mem (d := '+') (by decide) rfl
    rcases hx with rfl | rfl <;> simpa using hds

theorem PlusSigned.plus_mem (h : PlusSigned body c) : '+' ∈ body := by
  cases h <;> simp

/-! ## Decoding a text -/

theorem not_mem_of_value? (h : value? body = some c) {d : Char} (hd : isBody d = false) :
    d ∉ body := by
  intro hmem
  rw [List.all_eq_true.1 (all_isBody_of_value? h) d hmem] at hd
  cases hd

theorem read?_of_value? (h : value? body = some c) (rest : List Char) :
    read? (body ++ ';' :: rest) = some (c, rest) := by
  rw [read?_append (not_mem_of_value? h rfl), h]
  rfl

/-- A reference goes up to the first semicolon. -/
theorem read?_eq_some_iff_exists :
    read? cs = some (c, rest) ↔ ∃ body, cs = body ++ ';' :: rest ∧ value? body = some c := by
  constructor
  · intro h
    obtain ⟨hdrop, hvalue⟩ := read?_eq_some_iff.1 h
    exact ⟨cs.takeWhile isBody, by rw [← hdrop, List.takeWhile_append_dropWhile], hvalue⟩
  · rintro ⟨body, rfl, hvalue⟩
    exact read?_of_value? hvalue rest

theorem read?_eq_none_iff :
    read? cs = none ↔ ∀ body rest c, cs = body ++ ';' :: rest → value? body ≠ some c := by
  rw [Option.eq_none_iff_forall_ne_some]
  constructor
  · intro h body rest c hsplit hvalue
    exact h (c, rest) (read?_eq_some_iff_exists.2 ⟨body, hsplit, hvalue⟩)
  · rintro h ⟨c, rest⟩ hread
    obtain ⟨body, hsplit, hvalue⟩ := read?_eq_some_iff_exists.1 hread
    exact h body rest c hsplit hvalue

/-- What lies between an ampersand and a semicolon is one reference at most. -/
theorem body_unique {body' rest' : List Char} {c' : Char} (h : value? body = some c)
    (h' : value? body' = some c') (hsplit : body ++ ';' :: rest = body' ++ ';' :: rest') :
    body = body' := by
  have hread := read?_of_value? h rest
  rw [hsplit, read?_of_value? h' rest'] at hread
  obtain ⟨-, rfl⟩ := Prod.mk.inj (Option.some.inj hread)
  exact List.append_cancel_right hsplit

/-- The scan of a text from left to right in which the references that `refers` describes are
replaced, and all else is kept. -/
inductive Decodes (refers : List Char → Char → Prop) : List Char → List Char → Prop
  | nil : Decodes refers [] []
  | plain {c : Char} {cs out : List Char} (hc : c ≠ '&') (h : Decodes refers cs out) :
      Decodes refers (c :: cs) (c :: out)
  | reference {body rest out : List Char} {c : Char} (hbody : refers body c)
      (h : Decodes refers rest out) : Decodes refers ('&' :: body ++ ';' :: rest) (c :: out)
  | ampersand {cs out : List Char}
      (hcs : ∀ body rest c, cs = body ++ ';' :: rest → ¬ refers body c)
      (h : Decodes refers cs out) : Decodes refers ('&' :: cs) ('&' :: out)

/-- Decoding is the scan in which everything is replaced that stands for a character. -/
theorem decodes_iff :
    Decodes (fun body c => WellFormed body c ∨ PlusSigned body c) cs out ↔
      out = decodeChars cs := by
  simp only [← value?_eq_some_iff]
  constructor
  · intro h
    induction h with
    | nil => rfl
    | plain hc _ ih => rw [decodeChars_plain hc, ih]
    | reference hbody _ ih =>
      rw [List.cons_append, decodeChars_reference (read?_of_value? hbody _), ih]
    | ampersand hcs _ ih => rw [decodeChars_ampersand (read?_eq_none_iff.2 hcs), ih]
  · rintro rfl
    -- on the number of characters: a reference takes several at a time
    induction hn : cs.length using Nat.strongRecOn generalizing cs with
    | ind n ih =>
      cases cs with
      | nil => exact .nil
      | cons c cs =>
        rw [List.length_cons] at hn
        by_cases hc : c = '&'
        · subst hc
          cases hread : read? cs with
          | none =>
            rw [decodeChars_ampersand hread]
            exact .ampersand (read?_eq_none_iff.1 hread) (ih _ (by omega) rfl)
          | some pair =>
            obtain ⟨r, rest⟩ := pair
            have hlt := length_of_read? hread
            rw [decodeChars_reference hread]
            obtain ⟨body, rfl, hvalue⟩ := read?_eq_some_iff_exists.1 hread
            exact .reference hvalue (ih _ (by omega) rfl)
        · rw [decodeChars_plain hc]
          exact .plain hc (ih _ (by omega) rfl)

/-! ## Texts without signed references -/

/-- No ampersand of the text opens a reference with a plus sign. -/
def PlusFree (cs : List Char) : Prop :=
  ∀ before body rest c, cs = before ++ '&' :: body ++ ';' :: rest → ¬ PlusSigned body c

/-- Two scans agree on a text if they replace the same at each of its ampersands. -/
theorem Decodes.congr {refers refers' : List Char → Char → Prop} (h : Decodes refers cs out)
    (hcs : ∀ before body rest c, cs = before ++ '&' :: body ++ ';' :: rest →
      (refers body c ↔ refers' body c)) : Decodes refers' cs out := by
  induction h with
  | nil => exact .nil
  | @plain c cs out hc _ ih =>
    refine .plain hc (ih fun before body rest r hsplit => hcs (c :: before) body rest r ?_)
    rw [hsplit]
    rfl
  | @reference body rest out r hbody _ ih =>
    refine .reference ((hcs [] body rest r rfl).1 hbody) (ih fun before body' rest' r' hsplit =>
      hcs ('&' :: body ++ ';' :: before) body' rest' r' ?_)
    rw [hsplit]
    simp
  | @ampersand cs out hnone _ ih =>
    refine .ampersand (fun body rest r hsplit hbody => ?_) (ih fun before body rest r hsplit =>
      hcs ('&' :: before) body rest r ?_)
    · refine hnone body rest r hsplit ((hcs [] body rest r ?_).2 hbody)
      rw [hsplit]
      rfl
    · rw [hsplit]
      rfl

theorem PlusFree.cons (h : PlusFree cs)
    (hc : c = '&' → ∀ body rest r, cs = body ++ ';' :: rest → ¬ PlusSigned body r) :
    PlusFree (c :: cs) := by
  intro before body rest r hsplit
  cases before with
  | nil =>
    obtain ⟨rfl, hcs⟩ := List.cons.inj hsplit
    exact hc rfl body rest r hcs
  | cons _ before => exact h before body rest r (List.cons.inj hsplit).2

theorem PlusFree.append (h : PlusFree cs) (hbody : '&' ∉ body) : PlusFree (body ++ cs) := by
  induction body with
  | nil => exact h
  | cons c body ih =>
    rw [List.mem_cons, not_or] at hbody
    exact (ih hbody.2).cons fun hc => absurd hc.symm hbody.1

theorem PlusFree.ampersand (h : PlusFree cs) (hread : read? cs = none) : PlusFree ('&' :: cs) :=
  h.cons fun _ body rest r hsplit hsigned =>
    read?_eq_none_iff.1 hread body rest r hsplit (value?_of_plusSigned hsigned)

theorem PlusFree.reference (h : PlusFree rest) (hbody : WellFormed body c) :
    PlusFree ('&' :: body ++ ';' :: rest) := by
  have hvalue := value?_of_wellFormed hbody
  have hbehind : PlusFree (body ++ ';' :: rest) :=
    (h.cons fun hsemicolon => absurd hsemicolon (by decide)).append (not_mem_of_value? hvalue rfl)
  refine hbehind.cons fun _ body' rest' r' hsplit hsigned => ?_
  obtain rfl := body_unique hvalue (value?_of_plusSigned hsigned) hsplit
  exact hbody.plus_not_mem hsigned.plus_mem

/-- The scan that replaces well-formed references only agrees with decoding, or gives a longer text
since there is a reference with a plus sign. -/
theorem Decodes.agrees_or_length_lt (h : Decodes WellFormed cs out) :
    out = decodeChars cs ∧ PlusFree cs ∨ (decodeChars cs).length < out.length := by
  induction h with
  | nil => exact .inl ⟨rfl, fun before _ _ _ hsplit => by cases before <;> cases hsplit⟩
  | plain hc _ ih =>
    rw [decodeChars_plain hc]
    obtain ⟨rfl, hfree⟩ | hlt := ih
    · exact .inl ⟨rfl, hfree.cons fun h => absurd h hc⟩
    · exact .inr (Nat.succ_lt_succ hlt)
  | @reference body rest out r hbody _ ih =>
    rw [List.cons_append, decodeChars_reference (read?_of_value? (value?_of_wellFormed hbody) rest)]
    obtain ⟨rfl, hfree⟩ | hlt := ih
    · exact .inl ⟨rfl, hfree.reference hbody⟩
    · exact .inr (Nat.succ_lt_succ hlt)
  | @ampersand cs out _ _ ih =>
    cases hread : read? cs with
    | none =>
      rw [decodeChars_ampersand hread]
      obtain ⟨rfl, hfree⟩ | hlt := ih
      · exact .inl ⟨rfl, hfree.ampersand hread⟩
      · exact .inr (Nat.succ_lt_succ hlt)
    | some pair =>
      -- what decoding replaces here stays in the text as it is written
      obtain ⟨r, rest⟩ := pair
      obtain ⟨body, rfl, hvalue⟩ := read?_eq_some_iff_exists.1 hread
      have hkept : decodeChars (body ++ ';' :: rest) = body ++ ';' :: decodeChars rest := by
        rw [decodeChars_append (not_mem_of_value? hvalue rfl), decodeChars_plain (by decide)]
      have hle : (decodeChars (body ++ ';' :: rest)).length ≤ out.length :=
        ih.elim (fun h => h.1 ▸ Nat.le_refl _) Nat.le_of_lt
      rw [hkept, List.length_append, List.length_cons] at hle
      rw [decodeChars_reference hread, List.length_cons, List.length_cons]
      exact .inr (by omega)

theorem decodes_wellFormed_iff_of_plusFree (h : PlusFree cs) :
    Decodes WellFormed cs out ↔ out = decodeChars cs := by
  have hsame : ∀ before body rest c, cs = before ++ '&' :: body ++ ';' :: rest →
      (WellFormed body c ↔ WellFormed body c ∨ PlusSigned body c) :=
    fun before body rest c hsplit =>
      ⟨.inl, fun hbody => hbody.resolve_right (h before body rest c hsplit)⟩
  rw [← decodes_iff]
  exact ⟨fun hout => hout.congr hsame, fun hout => hout.congr fun before body rest c hsplit =>
    (hsame before body rest c hsplit).symm⟩

theorem plusFree_of_decodes (h : Decodes WellFormed cs (decodeChars cs)) : PlusFree cs :=
  h.agrees_or_length_lt.elim And.right fun hlt => absurd hlt (Nat.lt_irrefl _)

/-- **What decoding replaces.** It is the scan from left to right that replaces well-formed
references and those that are so but for a plus sign, and it is the one that replaces well-formed
references only exactly if the text has none with a plus sign. By bytes, the loop over the
ampersands gives the same as the short way for texts without any. -/
theorem decode_exact (text : String) :
    (∀ out, Decodes (fun body c => WellFormed body c ∨ PlusSigned body c) text.toList out ↔
      out = (decode text).toList) ∧
    ((∀ out, Decodes WellFormed text.toList out ↔ out = (decode text).toList) ↔
      PlusFree text.toList) ∧
    decodeAt? text.toList [] 0 = some (decode text).toList ∧
    decodeText? text.toList = some (decode text).toList := by
  have htext : (decode text).toList = decodeChars text.toList := String.toList_ofList
  rw [htext]
  refine ⟨fun out => decodes_iff, ⟨fun h => plusFree_of_decodes ((h _).2 rfl),
    fun h out => decodes_wellFormed_iff_of_plusFree h⟩, ?_, decodeText?_eq _⟩
  rw [decodeAt?_eq (stands_start 0 text.toList) [], decodeChars_eq]
  rfl

/-- A plus sign is passed over, although the reference is not well-formed and should be kept. -/
theorem decode_of_plus :
    decode "&#+65;" = "A" ∧ Decodes WellFormed "&#+65;".toList "&#+65;".toList ∧
    ¬ Decodes WellFormed "&#+65;".toList (decode "&#+65;").toList := by
  have hnumeral : Numeral 10 65 "65".toList := (numeral_iff (by decide)).2 (by decide)
  have hsigned : PlusSigned "#+65".toList 'A' := .decimal hnumeral (by decide)
  have hdecode : (decode "&#+65;").toList = decodeChars "&#+65;".toList := String.toList_ofList
  refine ⟨by decide +kernel, ?_, ?_⟩
  · refine .ampersand (fun body rest c hsplit hbody => hbody.plus_not_mem ?_) ?_
    · rw [← body_unique (value?_of_plusSigned hsigned) (value?_of_wellFormed hbody) hsplit]
      exact hsigned.plus_mem
    · exact .plain (by decide) (.plain (by decide) (.plain (by decide) (.plain (by decide)
        (.plain (by decide) .nil))))
  · rw [hdecode]
    intro h
    exact plusFree_of_decodes h [] "#+65".toList [] 'A' rfl hsigned

end MarkupQuery.Text.Reference
