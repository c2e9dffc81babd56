import Mathlib.Data.List.Induction
import MarkupQuery.Text.Place

/-!
# Quotation marks that are open

The search for the end of a tag takes every quotation mark outside quotations for one that opens, up
to the next mark of the same kind. `openMark` tells which mark is open behind a text, so the tag
ends at the first `>` behind which none is (`tagEndFrom_eq_some_iff`).

`Quotes` names a quotation in the sense of this search by the text in front of it, the mark and the
text between the marks. A text behind which no mark is open closes all that it opens
(`exists_quotes`).
-/

namespace MarkupQuery.Text

/-! ## The open mark -/

/-- The quotation mark that is open behind a character, if `quote` is open in front of it. -/
def markBehind (quote : Option Char) (c : Char) : Option Char :=
  match quote with
  | some q => if c == q then none else some q
  | none => if isQuote c then some c else none

/-- The quotation mark that is open behind a text. -/
def openMark (cs : List Char) : Option Char :=
  cs.foldl markBehind none

variable {as bs cs before body rest : List Char} {quote : Option Char} {c mark : Char} {m n : Nat}

theorem openMark_append (as bs : List Char) :
    openMark (as ++ bs) = bs.foldl markBehind (openMark as) :=
  List.foldl_append

theorem openMark_concat (as : List Char) (c : Char) :
    openMark (as ++ [c]) = markBehind (openMark as) c :=
  openMark_append as [c]

/-- Behind a text that leaves no mark open, all goes on as at the start. -/
theorem openMark_append_of_eq_none (h : openMark as = none) (bs : List Char) :
    openMark (as ++ bs) = openMark bs := by
  rw [openMark_append, h, openMark]

theorem openMark_eq_none_of_forall (h : ∀ c ∈ cs, isQuote c = false) : openMark cs = none := by
  induction cs using List.reverseRecOn with
  | nil => rfl
  | append_singleton cs c ih =>
    obtain ⟨hcs, hc⟩ := List.forall_mem_append.1 h
    rw [openMark_concat, ih hcs, markBehind, hc c (List.mem_singleton_self c)]
    rfl

/-- Only quotation marks are open. -/
theorem isQuote_of_openMark (h : openMark cs = some mark) : isQuote mark = true := by
  induction cs using List.reverseRecOn with
  | nil => cases h
  | append_singleton cs c ih =>
    rw [openMark_concat] at h
    cases hopen : openMark cs with
    | none =>
      rw [hopen, markBehind] at h
      split at h
      · rename_i hc
        exact Option.some.inj h ▸ hc
      · cases h
    | some q =>
      rw [hopen, markBehind] at h
      split at h
      · cases h
      · exact ih (hopen.trans h)

/-- A character that is no quotation mark changes nothing. -/
theorem openMark_concat_of_not_isQuote (hc : isQuote c = false) (as : List Char) :
    openMark (as ++ [c]) = openMark as := by
  rw [openMark_concat]
  cases h : openMark as with
  | none => rw [markBehind, hc, if_neg Bool.false_ne_true]
  | some mark =>
    have hne : c ≠ mark := by
      rintro rfl
      rw [isQuote_of_openMark h] at hc
      cases hc
    rw [markBehind, beq_false_of_ne hne, if_neg Bool.false_ne_true]

/-! ## Quotations -/

/-- The search for the end of a tag opens a quotation at the mark behind `before`, and closes it at
the mark behind `body`. -/
structure Quotes (before : List Char) (mark : Char) (body : List Char) : Prop where
  outside : openMark before = none
  inside : ∀ init, init <+: body → openMark (before ++ mark :: init) = some mark
  closed : openMark (before ++ mark :: body ++ [mark]) = none

theorem openMark_inside (hbefore : openMark before = none) (hmark : isQuote mark = true)
    (hbody : mark ∉ body) : openMark (before ++ mark :: body) = some mark := by
  induction body using List.reverseRecOn with
  | nil => rw [openMark_concat, hbefore, markBehind, if_pos hmark]
  | append_singleton body c ih =>
    rw [List.mem_append, not_or, List.mem_singleton] at hbody
    rw [← List.cons_append, ← List.append_assoc, openMark_concat, ih hbody.1, markBehind,
      beq_false_of_ne (Ne.symm hbody.2), if_neg Bool.false_ne_true]

theorem quotes_of_not_mem (hbefore : openMark before = none) (hmark : isQuote mark = true)
    (hbody : mark ∉ body) : Quotes before mark body where
  outside := hbefore
  inside init hinit := openMark_inside hbefore hmark fun hmem => hbody (hinit.subset hmem)
  closed := by
    rw [openMark_concat, openMark_inside hbefore hmark hbody, markBehind,
      if_pos (beq_self_eq_true mark)]

/-- A text behind which no mark is open closes the quotations that it opens. -/
theorem exists_quotes (h : openMark (before ++ mark :: rest) = none)
    (hbefore : openMark before = none) (hmark : isQuote mark = true) :
    ∃ body after, rest = body ++ mark :: after ∧ mark ∉ body ∧ Quotes before mark body := by
  have hmem : mark ∈ rest := by
    by_contra hnot
    rw [openMark_inside hbefore hmark hnot] at h
    cases h
  obtain ⟨body, after, hrest, hbody⟩ := List.eq_append_cons_of_mem hmem
  exact ⟨body, after, hrest, hbody, quotes_of_not_mem hbefore hmark hbody⟩

/-! ## The end of a tag -/

theorem tagEndFrom_cons (quote : Option Char) (n : Nat) (c : Char) (cs : List Char) :
    tagEndFrom quote n (c :: cs) =
      if quote = none ∧ c = '>' then some n else tagEndFrom (markBehind quote c) (n + 1) cs := by
  cases quote with
  | some q =>
    rw [tagEndFrom, markBehind]
    simp only [reduceCtorEq, false_and, if_false]
  | none =>
    rw [tagEndFrom, markBehind]
    simp only [beq_iff_eq, true_and]

/-- The tag ends at the first `>` behind which no quotation mark is open. -/
theorem tagEndFrom_eq_some_iff : tagEndFrom quote n cs = some m ↔
    ∃ as bs, cs = as ++ '>' :: bs ∧ m = n + as.length ∧ as.foldl markBehind quote = none ∧
      ∀ init rest, as = init ++ '>' :: rest → init.foldl markBehind quote ≠ none := by
  induction cs generalizing quote n with
  | nil => simp [tagEndFrom]
  | cons c cs ih =>
    rw [tagEndFrom_cons]
    split
    · rename_i hend
      obtain ⟨rfl, rfl⟩ := hend
      constructor
      · rintro ⟨⟩
        exact ⟨[], cs, rfl, rfl, rfl, by simp⟩
      · rintro ⟨as, bs, heq, rfl, -, hfirst⟩
        cases as with
        | nil => rfl
        | cons a as =>
          obtain ⟨rfl, -⟩ := List.cons.inj heq
          exact absurd rfl (hfirst [] as rfl)
    · rename_i hgoes
      rw [ih]
      constructor
      · rintro ⟨as, bs, rfl, rfl, hclosed, hfirst⟩
        refine ⟨c :: as, bs, rfl, by rw [List.length_cons]; omega, hclosed, fun init rest heq => ?_⟩
        cases init with
        | nil => exact fun hnone => hgoes ⟨hnone, (List.cons.inj heq).1⟩
        | cons i init =>
          obtain ⟨rfl, hrest⟩ := List.cons.inj heq
          exact hfirst init rest hrest
      · rintro ⟨as, bs, heq, rfl, hclosed, hfirst⟩
        cases as with
        | nil => exact absurd ⟨hclosed, (List.cons.inj heq).1⟩ hgoes
        | cons a as =>
          obtain ⟨rfl, rfl⟩ := List.cons.inj heq
          exact ⟨as, bs, rfl, by rw [List.length_cons]; omega, hclosed, fun init rest hrest =>
            hfirst (c :: init) rest (congrArg (c :: ·) hrest)⟩

/-- At the end of a tag no quotation mark is open. -/
theorem Place.openMark_of_upToTagEnd? {p q : Place} (h : p.upToTagEnd? = some (cs, q)) :
    openMark cs = none := by
  obtain ⟨n, hn, hpair⟩ := Option.map_eq_some_iff.1 h
  obtain ⟨rfl, -⟩ := Prod.mk.inj hpair
  obtain ⟨as, bs, hrest, rfl, hclosed, -⟩ := tagEndFrom_eq_some_iff.1 hn
  rw [hrest, Nat.zero_add, List.take_left]
  exact hclosed

end MarkupQuery.Text
