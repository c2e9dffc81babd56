import MarkupQuery.Proofs.Markup.Quotations

/-!
# Reads that fail

A call for a token that fails leaves a reader as it was, but for the place. The tokenizer does not
see the rest of a reader, and of what it finds a reader refuses only tags, before it opens or closes
an element (`Reader.read_of_error`).

The offsets at which errors are reported lie on the ground that was read over. For the tokenizer
this is `Lexeme.marks_next`: `Lexeme.Marks` also bounds the offsets in a tag at which a reader
reports that it refuses the tag.
-/

namespace MarkupQuery.Markup

open Text Text.Place

variable {p q : Place}

/-! ## Where the tokenizer reports -/

namespace Lexeme

variable {construct : Construct} {result : Except ReadError Lexeme} {e : ReadError}

/-- The offset at which a reader reports that it refuses a lexeme. -/
def refusedAt? : Lexeme → Option Nat
  | .startTag _ _ _ afterName => some afterName.offset
  | .endTag _ offset => some offset
  | .text _ | .comment _ | .instruction _ _ => none

/-- The offsets of errors about what lies ahead of a place fall between two characters there. -/
def Marks (p : Place) : Except ReadError (Option Lexeme) → Prop
  | .error e => p.CutAt e.position
  | .ok none => True
  | .ok (some lexeme) => ∀ n ∈ lexeme.refusedAt?, p.CutAt n

theorem Marks.behind {cs : List Char} {result : Except ReadError (Option Lexeme)}
    (h : p.Passes cs q) (hmarks : Marks q result) : Marks p result := by
  rcases result with e | _ | lexeme
  · exact CutAt.behind hmarks h
  · trivial
  · exact fun n hn => (hmarks n hn).behind h

/-- A lexeme that is never refused names no offset. -/
theorem marks_of_none {lexeme : Lexeme} (h : lexeme.refusedAt? = none) :
    Marks p (.ok (some lexeme)) := by
  intro n hn
  rw [h] at hn
  cases hn

/-- An error in a list of attributes lies in the list. -/
theorem cutAt_of_parse {list slash : List Char} (hpass : p.Passes (list ++ slash) q)
    (h : RawAttribute.parse p.offset list = .error e) : p.CutAt e.position := by
  obtain ⟨before, after, fault, rfl, -, rfl⟩ := RawAttribute.parse_eq_error_iff.1 h
  rw [List.append_assoc] at hpass
  obtain ⟨stop, hbefore, -⟩ := passes_append_iff.1 hpass
  exact ⟨before, stop, hbefore, hbefore.offset_eq⟩

/-- Errors that are found here are reported here. -/
theorem marks_readInstruction (h : readInstruction p = (result, q)) :
    Marks p (result.map some) := by
  unfold readInstruction at h
  dsimp only at h
  split at h
  · obtain ⟨rfl, -⟩ := Prod.mk.inj h
    exact .here p
  · split at h
    · obtain ⟨rfl, -⟩ := Prod.mk.inj h
      exact .here p
    · split at h
      · obtain ⟨rfl, -⟩ := Prod.mk.inj h
        exact marks_of_none rfl
      · obtain ⟨rfl, -⟩ := Prod.mk.inj h
        exact .here p

theorem marks_readEndTag (h : readEndTag p = (result, q)) : Marks p (result.map some) := by
  unfold readEndTag at h
  dsimp only at h
  split at h
  · obtain ⟨rfl, -⟩ := Prod.mk.inj h
    exact .here p
  · split at h
    · obtain ⟨rfl, -⟩ := Prod.mk.inj h
      rintro n ⟨⟩
      exact .here p
    · split at h <;>
      · obtain ⟨rfl, -⟩ := Prod.mk.inj h
        exact .here p

theorem marks_readStartTag (hopener : Construct.startTag.opener <+: p.rest)
    (h : readStartTag p = (result, q)) : Marks p (result.map some) := by
  have hbody := passes_of_isPrefix hopener
  unfold readStartTag at h
  dsimp only at h
  split at h
  · obtain ⟨rfl, -⟩ := Prod.mk.inj h
    exact .here p
  · rename_i name afterName hname
    have hafter := hbody.trans (passes_of_name? hname)
    split at h
    · obtain ⟨rfl, -⟩ := Prod.mk.inj h
      exact .here p
    · rename_i inner stop htag
      have hinner := (passes_of_upToTagEnd? htag).1
      have hsplit : splitSlash inner = ((splitSlash inner).1, (splitSlash inner).2) := rfl
      rw [eq_append_of_splitSlash hsplit] at hinner
      split at h
      · rename_i e hparse
        obtain ⟨rfl, -⟩ := Prod.mk.inj h
        exact (cutAt_of_parse hinner hparse).behind hafter
      · obtain ⟨rfl, -⟩ := Prod.mk.inj h
        rintro n ⟨⟩
        exact (CutAt.here afterName).behind hafter

theorem marks_read (hstarting : Construct.starting p.rest = construct)
    (h : read construct p = (result, q)) : Marks p (result.map some) := by
  have hopener : construct.opener <+: p.rest := hstarting ▸ Construct.opener_isPrefix p.rest
  cases construct with
  | characterData =>
    obtain ⟨rfl, -⟩ := Prod.mk.inj h
    exact marks_of_none rfl
  | doctype | declaration =>
    obtain ⟨rfl, -⟩ := Prod.mk.inj h
    exact .here p
  | comment =>
    rw [read, readComment] at h
    split at h <;> obtain ⟨rfl, -⟩ := Prod.mk.inj h
    · exact .here p
    · exact marks_of_none rfl
  | cdata =>
    rw [read, readCdata] at h
    split at h <;> obtain ⟨rfl, -⟩ := Prod.mk.inj h
    · exact .here p
    · exact marks_of_none rfl
  | instruction => exact marks_readInstruction h
  | endTag => exact marks_readEndTag h
  | startTag => exact marks_readStartTag hopener h

theorem passes_of_doctypeEnd? (h : doctypeEnd? p = some q) : ∃ cs, p.Passes cs q := by
  obtain ⟨cs, hpass, -⟩ := covers_of_doctypeEnd? h
  exact ⟨cs, hpass⟩

/-- **Offsets are reported where something was read**, in the text ahead. -/
theorem marks_next (p : Place) : Marks p (next p).1 := by
  fun_induction next p with
  | case1 p hp => trivial
  | case2 p hp hstarting hq => exact .here p
  | case3 p hp hstarting q hq ih =>
    obtain ⟨cs, hpass⟩ := passes_of_doctypeEnd? hq
    exact Marks.behind hpass ih
  | case4 p hp e q hnot hread => exact marks_read rfl hread
  | case5 p hp lexeme q hnot hread => exact marks_read rfl hread

end Lexeme

/-! ## What a failed read leaves -/

namespace Reader

variable {r : Reader} {e : ReadError} {lexeme : Lexeme} {text : String} {strict : Bool}
  {calls : List Call}

/-- A lexeme that is refused changes the place only, and is reported where it says. -/
theorem accept_of_error (h : (r.accept lexeme q).1 = .error e) :
    (r.accept lexeme q).2 = { r with place := (r.accept lexeme q).2.place } ∧
      e.position ∈ lexeme.refusedAt? := by
  cases lexeme with
  | text | comment | instruction => cases h
  | endTag name offset =>
    rw [accept] at h ⊢
    cases hmismatch : r.mismatch? name with
    | none =>
      rw [hmismatch] at h
      cases h
    | some opened =>
      rw [hmismatch] at h
      obtain rfl := Except.error.inj h
      exact ⟨rfl, rfl⟩
  | startTag name attributes closes afterName =>
    rw [accept] at h ⊢
    cases hrepeated : r.repeated? attributes with
    | none =>
      rw [hrepeated] at h
      cases h
    | some twice =>
      rw [hrepeated] at h
      obtain rfl := Except.error.inj h
      exact ⟨rfl, rfl⟩

/-- A read that fails changes the place only, and its error lies ahead. Nothing is owed then. -/
theorem read_of_error (h : r.read.1 = .error e) :
    r.owesEnd = false ∧ r.read.2 = { r with place := r.read.2.place } ∧
      r.place.CutAt e.position := by
  have hmarks := Lexeme.marks_next r.place
  rw [read] at h ⊢
  split at h
  · cases h
  · rename_i howes
    rw [if_neg howes]
    refine ⟨by simpa using howes, ?_⟩
    split at h
    · rename_i e' place hnext
      obtain rfl := Except.error.inj h
      rw [hnext] at hmarks
      exact ⟨rfl, hmarks⟩
    · cases h
    · rename_i lexeme place hnext
      rw [hnext] at hmarks
      rcases haccept : r.accept lexeme place with ⟨e' | token, behind⟩
      · rw [haccept] at h
        obtain rfl := Except.error.inj h
        obtain ⟨hstate, hposition⟩ := accept_of_error (congrArg Prod.fst haccept)
        rw [haccept] at hstate
        exact ⟨hstate, hmarks _ hposition⟩
      · rw [haccept] at h
        cases h

/-- Behind an error the next lexeme is taken in as it would have been before. -/
theorem read_behind_error (h : r.read.1 = .error e)
    (hnext : Lexeme.next r.read.2.place = (.ok (some lexeme), q)) :
    r.read.2.read = ((r.accept lexeme q).1.map some, (r.accept lexeme q).2) := by
  obtain ⟨howes, hstate, -⟩ := read_of_error h
  rw [hstate, read, if_neg (by simp [howes])]
  dsimp only
  rw [hnext]
  dsimp only
  rw [accept_place]
  rcases r.accept lexeme q with ⟨e | token, behind⟩ <;> rfl

/-- When the sequence of items has ended, calls give no more of it. -/
theorem Exhausted.iterated_eq (h : r.Exhausted) (calls : List Call) : r.iterated calls = [] := by
  induction calls generalizing r with
  | nil => rfl
  | cons call calls ih =>
    rw [iterated, ih (h.deliver call), List.append_nil]
    cases call with
    | read => rfl
    | next => rw [itemOf, h.next_eq, Option.toList_none]

/-- An item that is an error ends the sequence. -/
theorem exhausted_of_read_error (h : r.read.1 = .error e) : r.next.2.Exhausted := by
  cases hfailed : r.failed with
  | true =>
    rw [next_of_failed hfailed]
    exact .inl hfailed
  | false =>
    obtain ⟨e', -, hnext⟩ | ⟨hresult, -⟩ | ⟨token, hresult, -⟩ := next_cases hfailed
    · rw [hnext]
      exact .inl rfl
    · rw [h] at hresult
      cases hresult
    · rw [h] at hresult
      cases hresult

/-- Offsets ahead of a reader of a text lie in the text. -/
theorem Account.le_of_cutAt {given : List Token} {n : Nat} (h : Account text r given)
    (hcut : r.place.CutAt n) : r.position ≤ n ∧ n ≤ text.utf8ByteSize := by
  obtain ⟨as, has, -⟩ := h.ground
  obtain ⟨bs, q, hbs, rfl⟩ := hcut
  have hrest : text.toList = as ++ (bs ++ q.rest) := has.rest_eq.trans (congrArg _ hbs.rest_eq)
  have hoffset : r.place.offset = 0 + byteLength as := has.offset_eq
  have hbytes := congrArg byteLength hrest
  rw [byteLength_append, byteLength_append, byteLength_toList] at hbytes
  rw [position, hbs.offset_eq]
  omega

/-- **A read that fails changes the place only.** Let a reader have come from a text by any calls,
and let its next read fail.

- The open elements, the namespaces in force and their depth, and the end tag that may be owed are
  as before, and so is everything else but the place.
- The place lies ahead, and in the text.
- So does the offset at which the error is reported.
- The lexeme behind the failure is taken in by the next read as it would have been before: its names
  are expanded in the same scopes, and an end tag is matched with the same open elements.
- A call for an item reports the error if none was reported before; then there are no more items,
  whatever calls are made. -/
theorem state_of_failure (hcalls : (start strict text).after calls = r)
    (h : r.read.1 = .error e) :
    r.read.2 = { r with place := r.read.2.place } ∧
      (r.position ≤ r.read.2.position ∧ r.read.2.position ≤ text.utf8ByteSize) ∧
      (r.position ≤ e.position ∧ e.position ≤ text.utf8ByteSize) ∧
      (∀ lexeme q, Lexeme.next r.read.2.place = (.ok (some lexeme), q) →
        r.read.2.read = ((r.accept lexeme q).1.map some, (r.accept lexeme q).2)) ∧
      (r.failed = false → r.next.1 = some (.error e)) ∧
      ∀ later, r.next.2.iterated later = [] := by
  have haccount := account_after strict text calls
  rw [hcalls] at haccount
  obtain ⟨-, hstate, hcut⟩ := read_of_error h
  obtain ⟨passed, hpass, -⟩ := r.charge_read.ground
  refine ⟨hstate, haccount.le_of_cutAt ⟨passed, _, hpass, rfl⟩, haccount.le_of_cutAt hcut,
    fun lexeme q hnext => read_behind_error h hnext, fun hfailed => ?_,
    fun later => (exhausted_of_read_error h).iterated_eq later⟩
  obtain ⟨e', hresult, hnext⟩ | ⟨hresult, -⟩ | ⟨token, hresult, -⟩ := next_cases hfailed
  · obtain rfl : e' = e := Except.error.inj (hresult.symm.trans h)
    rw [hnext]
  · rw [h] at hresult
    cases hresult
  · rw [h] at hresult
    cases hresult

/-- A declaration is passed before an end tag without a name fails, in an element with a label. -/
def failingText : String :=
  "<p:a xmlns:p='u'><!DOCTYPE b></><p:c/></p:a>"

theorem state_of_failure_failingText :
    ((start true failingText).after [.read]).read.1 = .error (.malformed .endTag 29) ∧
      ((start true failingText).after [.read]).read.2 =
        { (start true failingText).after [.read] with
          place := ((start true failingText).after [.read]).read.2.place } ∧
      ∀ later, ((start true failingText).after [.read]).next.2.iterated later = [] := by
  have h : ((start true failingText).after [.read]).read.1 = .error (.malformed .endTag 29) := by
    decide +kernel
  obtain ⟨hstate, -, -, -, -, hend⟩ := state_of_failure rfl h
  exact ⟨h, hstate, hend⟩

end Reader

end MarkupQuery.Markup
