import Mathlib.Data.List.TakeWhile
import MarkupQuery.Markup.RawAttribute
import MarkupQuery.Proofs.Text.Passing

/-!
# The grammar of attribute lists

With `S` for white space, one character or more, `S? (A (S A)*)? S?` is a list of attributes `A`,
each of which is `name S? = S?` and a value between quotation marks of one kind that holds neither
this mark nor `<`. `ListText`, `AttributeText` and `ValueText` say this together with what is
listed, in order and with repeated names.

A text that is no list is one up to some point: `ListBreak` tells the text before this point, the
text behind it, and what is wrong there. Every text is either a list or has such a point
(`listText_or_listBreak`). The text before the point can be completed to a list
(`ListBreak.viable`), and what is wrong is told by the first character behind it, except for a value
that is not closed (`ListBreak.local`).
-/

namespace MarkupQuery.Markup.RawAttribute

open Text
open String (ofList)

variable {cs before after : List Char} {c : Char} {first : Bool} {fault : AttributeFault}
  {value : String} {a : RawAttribute}

/-! ## Lists of attributes -/

/-- White space only, maybe none. -/
def IsBlanks (cs : List Char) : Prop :=
  ∀ c ∈ cs, isBlank c = true

/-- A name as it is written in front of an equals sign. -/
structure IsName (cs : List Char) : Prop where
  start : cs.head?.any isNameStart = true
  chars : ∀ c ∈ cs, isNameChar c = true

/-- The text between quotation marks of one kind. -/
structure IsQuotable (quote : Char) (body : List Char) : Prop where
  isQuote : isQuote quote = true
  quote_not_mem : quote ∉ body
  angle_not_mem : '<' ∉ body

/-- A value as it is written, and what it is with its references decoded. -/
inductive ValueText : List Char → String → Prop
  | quoted {quote : Char} {body : List Char} (h : IsQuotable quote body) :
      ValueText (quote :: body ++ [quote]) (ofList (Reference.decodeChars body))

/-- A name and the text from it up to a value: an equals sign, with or without white space around
it. -/
inductive Opening (name : List Char) : List Char → Prop
  | assigned {s t : List Char} (hname : IsName name) (hs : IsBlanks s) (ht : IsBlanks t) :
      Opening name (name ++ s ++ '=' :: t)

/-- An attribute as it is written. -/
inductive AttributeText : List Char → RawAttribute → Prop
  | assigned {name opening cs : List Char} {value : String} (hopening : Opening name opening)
      (hvalue : ValueText cs value) : AttributeText (opening ++ cs) ⟨ofList name, value⟩

/-- Attributes as they are listed: `S? (A (S A)*)? S?` if `first`, so that no attribute lies behind
yet, and `(S A)* S?` if not. -/
inductive ListText : Bool → List Char → List RawAttribute → Prop
  | nil {first : Bool} {s : List Char} (hs : IsBlanks s) : ListText first s []
  | cons {first : Bool} {s cs rest : List Char} {a : RawAttribute}
      {attributes : List RawAttribute} (hs : IsBlanks s) (hsep : first = true ∨ s ≠ [])
      (ha : AttributeText cs a) (h : ListText false rest attributes) :
      ListText first (s ++ cs ++ rest) (a :: attributes)

/-- A text that some list of attributes begins with. -/
def Viable (cs : List Char) : Prop :=
  ∃ more attributes, ListText true (cs ++ more) attributes

/-! ## Where a text is no list -/

/-- The text of a value up to a fault, and the text behind. -/
inductive ValueBreak : List Char → List Char → AttributeFault → Prop
  /-- There is no quotation mark. -/
  | unquoted {after : List Char} (h : after.head?.any isQuote = false) :
      ValueBreak [] after .unquoted
  /-- A `<` stands behind the quotation mark, and no second mark in between. -/
  | angle {quote : Char} {body after : List Char} (h : IsQuotable quote body) :
      ValueBreak (quote :: body) ('<' :: after) .angle
  /-- Neither stands behind the quotation mark, at which the fault is then found. -/
  | unterminated {quote : Char} {body : List Char} (h : IsQuotable quote body) :
      ValueBreak [] (quote :: body) .unterminated

/-- The text of an attribute up to a fault, and the text behind. -/
inductive AttributeBreak : List Char → List Char → AttributeFault → Prop
  /-- There is no name. -/
  | unnamed {after : List Char} (h : after.head?.any isNameStart = false) :
      AttributeBreak [] after .unnamed
  /-- There is a name and white space, as much as there can be, and no equals sign. -/
  | unassigned {name s after : List Char} (hname : IsName name) (hs : IsBlanks s)
      (hend : (s ++ after).head?.any isNameChar = false)
      (hstop : after.head?.any isBlank = false) (hsign : after.head? ≠ some '=') :
      AttributeBreak (name ++ s) after .unassigned
  /-- The value breaks. -/
  | value {name opening before after : List Char} {fault : AttributeFault}
      (hopening : Opening name opening) (hstop : (before ++ after).head?.any isBlank = false)
      (h : ValueBreak before after fault) : AttributeBreak (opening ++ before) after fault

/-- The text of a list up to a fault, and the text behind. -/
inductive ListBreak : Bool → List Char → List Char → AttributeFault → Prop
  /-- Right behind an attribute there is something other than white space. -/
  | unseparated {after : List Char} (hne : after ≠ [])
      (hstop : after.head?.any isBlank = false) : ListBreak false [] after .unseparated
  /-- Behind white space there is an attribute that breaks. -/
  | inside {first : Bool} {s before after : List Char} {fault : AttributeFault}
      (hs : IsBlanks s) (hsep : first = true ∨ s ≠ []) (hne : before ++ after ≠ [])
      (hstop : (before ++ after).head?.any isBlank = false)
      (h : AttributeBreak before after fault) : ListBreak first (s ++ before) after fault
  /-- Behind white space there is an attribute, and the list behind it breaks. -/
  | behind {first : Bool} {s cs before after : List Char} {fault : AttributeFault}
      {a : RawAttribute} (hs : IsBlanks s) (hsep : first = true ∨ s ≠ [])
      (ha : AttributeText cs a) (h : ListBreak false before after fault) :
      ListBreak first (s ++ cs ++ before) after fault

/-! ## Every text is a list or breaks -/

/-- Every text begins with a run of characters of one class. -/
theorem exists_run (within : Char → Bool) (text : List Char) :
    ∃ cs rest, text = cs ++ rest ∧ (∀ c ∈ cs, within c = true) ∧
      rest.head?.any within = false := by
  obtain ⟨hpass, hcs, hstop⟩ :=
    Place.span_eq_iff.1 (Eq.refl ((⟨0, text⟩ : Place).span within))
  exact ⟨_, _, hpass.rest_eq, hcs, hstop⟩

theorem exists_name {text : List Char} (h : text.head?.any isNameStart = true) :
    ∃ name rest, text = name ++ rest ∧ IsName name ∧ rest.head?.any isNameChar = false := by
  obtain ⟨name, rest, rfl, hchars, hend⟩ := exists_run isNameChar text
  refine ⟨name, rest, rfl, ⟨?_, hchars⟩, hend⟩
  cases name with
  | nil =>
    obtain ⟨c, hc, hstart⟩ := (Option.any_eq_true ..).1 h
    rw [List.nil_append] at hc
    rw [hc, Option.any_some, isNameChar_of_isNameStart hstart] at hend
    cases hend
  | cons c name => exact h

theorem valueText_or_valueBreak (text : List Char) :
    (∃ cs rest value, text = cs ++ rest ∧ ValueText cs value) ∨
      ∃ before after fault, text = before ++ after ∧ ValueBreak before after fault := by
  cases hquote : text.head?.any isQuote with
  | false => exact .inr ⟨[], text, .unquoted, rfl, .unquoted hquote⟩
  | true =>
    obtain ⟨quote, hhead, hquote⟩ := (Option.any_eq_true ..).1 hquote
    obtain ⟨text, rfl⟩ := List.head?_eq_some_iff.1 hhead
    obtain ⟨body, rest, rfl, hbody, hstop⟩ :=
      exists_run (fun c => !(c == quote || c == '<')) text
    have hquotable : IsQuotable quote body :=
      ⟨hquote, fun hmem => by simpa using hbody quote hmem,
        fun hmem => by simpa using hbody '<' hmem⟩
    cases rest with
    | nil =>
      rw [List.append_nil]
      exact .inr ⟨[], _, _, rfl, .unterminated hquotable⟩
    | cons c rest =>
      have hc : c = quote ∨ c = '<' := by simpa [or_iff_not_imp_left] using hstop
      rcases hc with rfl | rfl
      · exact .inl ⟨_, rest, _, by simp, .quoted hquotable⟩
      · exact .inr ⟨quote :: body, '<' :: rest, _, rfl, .angle hquotable⟩

theorem attributeText_or_attributeBreak (text : List Char) :
    (∃ cs rest a, text = cs ++ rest ∧ AttributeText cs a) ∨
      ∃ before after fault, text = before ++ after ∧ AttributeBreak before after fault := by
  cases hstart : text.head?.any isNameStart with
  | false => exact .inr ⟨[], text, .unnamed, rfl, .unnamed hstart⟩
  | true =>
    obtain ⟨name, rest, rfl, hname, hend⟩ := exists_name hstart
    obtain ⟨s, rest, rfl, hs, hstop⟩ := exists_run isBlank rest
    by_cases hsign : rest.head? = some '='
    · obtain ⟨rest, rfl⟩ := List.head?_eq_some_iff.1 hsign
      obtain ⟨t, rest, rfl, ht, hstop⟩ := exists_run isBlank rest
      have hopening := Opening.assigned hname hs ht
      obtain ⟨cs, rest, value, rfl, hvalue⟩ | ⟨before, after, fault, rfl, hvalue⟩ :=
        valueText_or_valueBreak rest
      · exact .inl ⟨_, rest, _, by simp, .assigned hopening hvalue⟩
      · exact .inr ⟨_, after, fault, by simp, .value hopening hstop hvalue⟩
    · exact .inr ⟨name ++ s, rest, _, by simp, .unassigned hname hs hend hstop hsign⟩

theorem ValueText.ne_nil (h : ValueText cs value) : cs ≠ [] := by
  cases h
  simp

theorem AttributeText.ne_nil (h : AttributeText cs a) : cs ≠ [] := by
  cases h with
  | assigned hopening hvalue => simp [hvalue.ne_nil]

theorem listText_or_listBreak (first : Bool) (text : List Char) :
    (∃ attributes, ListText first text attributes) ∨
      ∃ before after fault, text = before ++ after ∧ ListBreak first before after fault := by
  -- on the length of the text: an attribute takes at least one character
  induction hn : text.length using Nat.strongRecOn generalizing first text with
  | ind n ih =>
    obtain ⟨s, text, rfl, hs, hstop⟩ := exists_run isBlank text
    by_cases hne : text = []
    · exact .inl ⟨[], by simpa [hne] using ListText.nil hs⟩
    by_cases hsep : first = true ∨ s ≠ []
    · obtain ⟨cs, rest, a, rfl, ha⟩ | ⟨before, after, fault, rfl, hbreak⟩ :=
        attributeText_or_attributeBreak text
      · have hlt : rest.length < n := by
          have := List.length_pos_iff.2 ha.ne_nil
          simp only [List.length_append] at hn
          omega
        obtain ⟨attributes, hrest⟩ | ⟨before, after, fault, rfl, hrest⟩ := ih _ hlt false rest rfl
        · exact .inl ⟨a :: attributes, by simpa using ListText.cons hs hsep ha hrest⟩
        · exact .inr ⟨_, after, fault, by simp, .behind hs hsep ha hrest⟩
      · exact .inr ⟨_, after, fault, by simp, .inside hs hsep hne hstop hbreak⟩
    · rw [not_or, Bool.not_eq_true, not_not] at hsep
      obtain ⟨rfl, rfl⟩ := hsep
      exact .inr ⟨[], text, _, rfl, .unseparated hne hstop⟩

/-! ## What is there can be completed -/

theorem ValueText.empty : ValueText ['"', '"'] "" :=
  .quoted (show IsQuotable '"' [] from ⟨by decide, by simp, by simp⟩)

theorem ValueBreak.completes (h : ValueBreak before after fault) :
    ∃ more value, ValueText (before ++ more) value := by
  cases h with
  | unquoted _ => exact ⟨_, _, .empty⟩
  | angle h => exact ⟨_, _, .quoted h⟩
  | unterminated _ => exact ⟨_, _, .empty⟩

theorem AttributeBreak.completes (h : AttributeBreak before after fault) :
    ∃ more a, AttributeText (before ++ more) a := by
  have named {name s : List Char} (hname : IsName name) (hs : IsBlanks s) :
      AttributeText (name ++ s ++ ['='] ++ ['"', '"']) ⟨ofList name, ""⟩ :=
    .assigned (.assigned hname hs (t := []) (by simp [IsBlanks])) .empty
  cases h with
  | unnamed _ =>
    have hname : IsName ['a'] := ⟨by decide, by simp [show isNameChar 'a' = true by decide]⟩
    exact ⟨_, _, named hname (s := []) (by simp [IsBlanks])⟩
  | unassigned hname hs _ _ _ => exact ⟨_, _, by simpa using named hname hs⟩
  | value hopening _ hvalue =>
    obtain ⟨more, value, hmore⟩ := hvalue.completes
    exact ⟨more, _, by simpa using AttributeText.assigned hopening hmore⟩

theorem ListBreak.completes (h : ListBreak first before after fault) :
    ∃ more attributes, ListText first (before ++ more) attributes := by
  have hnone : IsBlanks [] := by simp [IsBlanks]
  induction h with
  | unseparated _ _ => exact ⟨[], [], .nil hnone⟩
  | inside hs hsep _ _ hbreak =>
    obtain ⟨more, a, ha⟩ := hbreak.completes
    exact ⟨more, [a], by simpa using ListText.cons hs hsep ha (.nil hnone)⟩
  | behind hs hsep ha _ ih =>
    obtain ⟨more, attributes, hmore⟩ := ih
    exact ⟨more, _, by simpa using ListText.cons hs hsep ha hmore⟩

theorem ListBreak.viable (h : ListBreak true before after fault) : Viable before :=
  h.completes

/-! ## One character tells the fault -/

theorem head?_append_cons (before after after' : List Char) (c : Char) :
    (before ++ c :: after).head? = (before ++ c :: after').head? := by
  cases before <;> rfl

theorem ValueBreak.local (h : ValueBreak before (c :: after) fault)
    (hfault : fault ≠ .unterminated) (after' : List Char) :
    ValueBreak before (c :: after') fault := by
  cases h with
  | unquoted h => exact .unquoted h
  | angle h => exact .angle h
  | unterminated _ => exact absurd rfl hfault

theorem AttributeBreak.local (h : AttributeBreak before (c :: after) fault)
    (hfault : fault ≠ .unterminated) (after' : List Char) :
    AttributeBreak before (c :: after') fault := by
  cases h with
  | unnamed h => exact .unnamed h
  | unassigned hname hs hend hstop hsign =>
    exact .unassigned hname hs (head?_append_cons _ after after' c ▸ hend) hstop hsign
  | value hopening hstop h =>
    exact .value hopening (head?_append_cons _ after after' c ▸ hstop) (h.local hfault after')

/-- A fault stays where it is if the text behind its first character changes. -/
theorem ListBreak.local (h : ListBreak first before (c :: after) fault)
    (hfault : fault ≠ .unterminated) (after' : List Char) :
    ListBreak first before (c :: after') fault := by
  generalize hbehind : c :: after = behind at h
  induction h with
  | unseparated _ hstop =>
    subst hbehind
    exact .unseparated (by simp) hstop
  | inside hs hsep _ hstop hbreak =>
    subst hbehind
    exact .inside hs hsep (by simp) (head?_append_cons _ after after' c ▸ hstop)
      (hbreak.local hfault after')
  | behind hs hsep ha _ ih => exact .behind hs hsep ha (ih hfault hbehind)

end MarkupQuery.Markup.RawAttribute
