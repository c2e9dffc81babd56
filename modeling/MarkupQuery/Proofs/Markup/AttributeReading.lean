import MarkupQuery.Proofs.Markup.AttributeGrammar
import MarkupQuery.Proofs.Text.Finding

/-!
# Attribute lists are read exactly

The reader of attributes agrees with the grammar at each of its three levels: behind a text of the
grammar it stops with what the text stands for (`readValue_of_valueText`, `read_of_attributeText`,
`readList_of_listText`), and at a break it fails with the fault and the offset of the break
(`readValue_of_valueBreak`, `read_of_attributeBreak`, `readList_of_listBreak`). Every text is a list
or has a break, so nothing else is read (`parse_eq_ok_iff`) and nothing else fails
(`parse_eq_error_iff`).
-/

namespace MarkupQuery.Markup.RawAttribute

open Text Text.Place
open String (ofList)

variable {p q : Place} {s cs name opening body before after text : List Char} {c quote : Char}
  {first : Bool} {fault : AttributeFault} {value : String} {a : RawAttribute}
  {done attributes : List RawAttribute} {base : Nat} {e : ReadError}

/-! ## Values -/

/-- Up to a quotation mark of its kind or a `<`, a value goes on. -/
theorem span_of_isQuotable (h : IsQuotable quote body) (hp : p.Passes body q)
    (hq : q.rest = [] ∨ q.sees quote = true ∨ q.sees '<' = true) :
    (p.span fun c => !(c == quote || c == '<')) = (body, q) := by
  refine span_eq_iff.2 ⟨hp, fun c hc => ?_, ?_⟩
  · have hquote : c ≠ quote := fun heq => h.quote_not_mem (heq ▸ hc)
    have hangle : c ≠ '<' := fun heq => h.angle_not_mem (heq ▸ hc)
    simp [hquote, hangle]
  · rcases hq with hq | hq | hq
    · simp [hq]
    · obtain ⟨rest, hrest⟩ := sees_iff.1 hq
      simp [hrest]
    · obtain ⟨rest, hrest⟩ := sees_iff.1 hq
      simp [hrest]

theorem readValue_of_valueText (h : ValueText cs value) (hp : p.Passes cs q) :
    readValue p = .ok (value, q) := by
  cases h with
  | @quoted quote body h =>
    obtain ⟨stop, hbody, hclose⟩ := passes_append_iff.1 hp
    obtain ⟨hopen, hbody⟩ := passes_cons_iff.1 hbody
    obtain ⟨hmark, rfl⟩ := passes_singleton_iff.1 hclose
    obtain ⟨ahead, hahead⟩ := sees_iff.1 hopen
    obtain ⟨behind, hbehind⟩ := sees_iff.1 hmark
    unfold readValue
    rw [hahead]
    dsimp only
    rw [if_pos h.isQuote, span_of_isQuotable h hbody (.inr (.inl hmark))]
    dsimp only
    rw [hbehind]
    dsimp only
    rw [if_pos (beq_self_eq_true quote)]

theorem readValue_of_valueBreak (h : ValueBreak before after fault) (hp : p.Passes before q)
    (hq : q.rest = after) : readValue p = .error (.attribute fault q.offset) := by
  cases h with
  | unquoted h =>
    obtain rfl := passes_nil_iff.1 hp
    unfold readValue
    rw [hq]
    split
    · rename_i quote rest
      rw [if_neg (by simpa using h)]
    · rfl
  | @angle quote body after h =>
    obtain ⟨hopen, hbody⟩ := passes_cons_iff.1 hp
    obtain ⟨ahead, hahead⟩ := sees_iff.1 hopen
    have hangle : ¬ ('<' == quote) = true := fun heq => by
      have hquote := h.isQuote
      rw [← beq_iff_eq.1 heq] at hquote
      exact absurd hquote (by decide)
    unfold readValue
    rw [hahead]
    dsimp only
    rw [if_pos h.isQuote,
      span_of_isQuotable h hbody (.inr (.inr (sees_iff.2 ⟨after, hq⟩)))]
    dsimp only
    rw [hq]
    dsimp only
    rw [if_neg hangle]
  | @unterminated quote body h =>
    obtain rfl := passes_nil_iff.1 hp
    have hbody := (passes_cons_iff.1 (passes_of_rest_eq (hq.trans (List.append_nil _).symm))).2
    unfold readValue
    rw [hq]
    dsimp only
    rw [if_pos h.isQuote, span_of_isQuotable h hbody (.inl rfl)]

/-! ## Attributes -/

theorem isNameChar_eq_false_of_isBlank (h : isBlank c = true) : isNameChar c = false := by
  simp only [isBlank, Bool.or_eq_true, beq_iff_eq] at h
  rcases h with ((rfl | rfl) | rfl) | rfl <;> decide

theorem isBlank_eq_false_of_isNameStart (h : isNameStart c = true) : isBlank c = false := by
  rw [Bool.eq_false_iff]
  intro hblank
  have hchar := isNameChar_of_isNameStart h
  rw [isNameChar_eq_false_of_isBlank hblank] at hchar
  cases hchar

/-- Behind a name and its equals sign a value is read. -/
theorem read_of_opening (h : Opening name opening) (hp : p.Passes opening q)
    (hq : q.rest.head?.any isBlank = false) :
    read p = (readValue q).map fun (value, next) => (⟨ofList name, value⟩, next) := by
  cases h with
  | @assigned s t hname hs ht =>
    obtain ⟨sign, hsign, hbehind⟩ := passes_append_iff.1 hp
    obtain ⟨afterName, hpass, hblank⟩ := passes_append_iff.1 hsign
    obtain ⟨hsees, hbehind⟩ := passes_cons_iff.1 hbehind
    obtain ⟨rest, hrest⟩ := sees_iff.1 hsees
    have hends : afterName.rest.head?.any isNameChar = false := by
      rw [hblank.rest_eq, hrest]
      cases s with
      | nil => rfl
      | cons c s => exact isNameChar_eq_false_of_isBlank (hs c List.mem_cons_self)
    have hskip : afterName.skipBlank = sign := skipBlank_eq hblank hs (by rw [hrest]; rfl)
    unfold read
    rw [name?_eq_of_ends hpass hname.start hname.chars hends]
    dsimp only
    rw [hskip, if_pos hsees, skipBlank_eq hbehind ht hq]
    cases readValue q <;> rfl

theorem ValueText.head?_any_isBlank (h : ValueText cs value) (rest : List Char) :
    (cs ++ rest).head?.any isBlank = false := by
  cases h with
  | @quoted quote body h =>
    have hquote := h.isQuote
    rw [isQuote, Bool.or_eq_true, beq_iff_eq, beq_iff_eq] at hquote
    rcases hquote with rfl | rfl <;> rfl

theorem read_of_attributeText (h : AttributeText cs a) (hp : p.Passes cs q) :
    read p = .ok (a, q) := by
  cases h with
  | assigned hopening hvalue =>
    obtain ⟨start, hopens, hpass⟩ := passes_append_iff.1 hp
    rw [read_of_opening hopening hopens (hpass.rest_eq ▸ hvalue.head?_any_isBlank q.rest),
      readValue_of_valueText hvalue hpass]
    rfl

theorem read_of_attributeBreak (h : AttributeBreak before after fault) (hp : p.Passes before q)
    (hq : q.rest = after) : read p = .error (.attribute fault q.offset) := by
  cases h with
  | unnamed h =>
    obtain rfl := passes_nil_iff.1 hp
    have hname : q.name? = none := by rw [name?, hq, if_neg (by simpa using h)]
    rw [read, hname]
  | @unassigned name s after hname hs hend hstop hsign =>
    obtain ⟨afterName, hpass, hblank⟩ := passes_append_iff.1 hp
    have hsees : ¬ q.sees '=' = true := by simpa [sees, hq] using hsign
    unfold read
    rw [name?_eq_of_ends hpass hname.start hname.chars (by rw [hblank.rest_eq, hq]; exact hend)]
    dsimp only
    rw [skipBlank_eq hblank hs (hq ▸ hstop), if_neg hsees]
  | value hopening hstop h =>
    obtain ⟨start, hopens, hpass⟩ := passes_append_iff.1 hp
    rw [read_of_opening hopening hopens (by rw [hpass.rest_eq, hq]; exact hstop),
      readValue_of_valueBreak h hpass hq]
    rfl

/-! ## Lists -/

/-- Behind white space an attribute is read. -/
theorem readList_of_blanks (hs : IsBlanks s) (hsep : done.isEmpty = true ∨ s ≠ [])
    (hp : p.Passes s q) (hne : q.rest ≠ []) (hq : q.rest.head?.any isBlank = false) :
    readList done p = match read q with
      | .error e => .error e
      | .ok (a, next) => readList (a :: done) next := by
  have hskip : p.skipBlank = q := skipBlank_eq hp hs hq
  have hend : ¬ q.atEnd = true := by simpa [atEnd] using hne
  have hseparated : ¬ (!done.isEmpty && !p.rest.head?.any isBlank) = true := by
    rcases hsep with hdone | hs'
    · simp [hdone]
    · obtain ⟨c, s, rfl⟩ := List.exists_cons_of_ne_nil hs'
      simp [hp.rest_eq, hs c List.mem_cons_self]
  rw [readList, hskip, if_neg hend, if_neg hseparated]
  split <;> rename_i hread <;> rw [hread]

theorem AttributeText.head?_any_isBlank (h : AttributeText cs a) (rest : List Char) :
    (cs ++ rest).head?.any isBlank = false := by
  cases h with
  | assigned hopening hvalue =>
    cases hopening with
    | assigned hname _ _ =>
      obtain ⟨c, hc, hstart⟩ := (Option.any_eq_true ..).1 hname.start
      obtain ⟨name, rfl⟩ := List.head?_eq_some_iff.1 hc
      exact isBlank_eq_false_of_isNameStart hstart

theorem readList_of_attributeText (hs : IsBlanks s) (hsep : done.isEmpty = true ∨ s ≠ [])
    (ha : AttributeText cs a) (hp : p.Passes (s ++ cs) q) :
    readList done p = readList (a :: done) q := by
  obtain ⟨start, hblank, hpass⟩ := passes_append_iff.1 hp
  have hne : start.rest ≠ [] := by
    rw [hpass.rest_eq]
    exact List.append_ne_nil_of_left_ne_nil ha.ne_nil _
  rw [readList_of_blanks hs hsep hblank hne (hpass.rest_eq ▸ ha.head?_any_isBlank q.rest),
    read_of_attributeText ha hpass]

theorem readList_of_listText (h : ListText first text attributes)
    (hdone : first = true → done.isEmpty = true) (hp : p.rest = text) :
    readList done p = .ok (done.reverse ++ attributes) := by
  induction h generalizing done p with
  | @nil _ s hs =>
    have hpass : p.Passes s ⟨p.offset + byteLength s, []⟩ :=
      passes_of_rest_eq (by rw [hp, List.append_nil])
    rw [readList, skipBlank_eq hpass hs rfl, if_pos (by rfl), List.append_nil]
  | @cons _ s cs rest a attributes hs hsep ha _ ih =>
    have hpass : p.Passes (s ++ cs) ⟨p.offset + byteLength (s ++ cs), rest⟩ :=
      passes_of_rest_eq hp
    rw [readList_of_attributeText hs (hsep.imp_left hdone) ha hpass,
      ih (fun h => absurd h Bool.false_ne_true) rfl, List.reverse_cons, List.append_assoc,
      List.singleton_append]

theorem readList_of_listBreak (h : ListBreak first before after fault)
    (hdone : done.isEmpty = first) (hp : p.Passes before q) (hq : q.rest = after) :
    readList done p = .error (.attribute fault q.offset) := by
  induction h generalizing done p with
  | unseparated hne hstop =>
    obtain rfl := passes_nil_iff.1 hp
    have hskip : q.skipBlank = q := skipBlank_eq (.refl q) (by simp) (hq ▸ hstop)
    rw [readList, hskip, if_neg (by simpa [atEnd, hq] using hne),
      if_pos (by rw [hdone, hq, hstop]; rfl)]
  | inside hs hsep hne hstop hbreak =>
    obtain ⟨start, hblank, hpass⟩ := passes_append_iff.1 hp
    have hrest := hpass.rest_eq.trans (congrArg _ hq)
    rw [readList_of_blanks hs (hdone ▸ hsep) hblank (hrest ▸ hne) (hrest ▸ hstop),
      read_of_attributeBreak hbreak hpass hq]
  | behind hs hsep ha _ ih =>
    obtain ⟨next, hpass, hbehind⟩ := passes_append_iff.1 hp
    rw [readList_of_attributeText hs (hdone ▸ hsep) ha hpass]
    exact ih rfl hbehind hq

/-! ## Whole texts -/

theorem parse_of_listText (h : ListText true text attributes) (base : Nat) :
    parse base text = .ok attributes :=
  readList_of_listText h (fun _ => rfl) rfl

theorem parse_of_listBreak (h : ListBreak true before after fault) (base : Nat) :
    parse base (before ++ after) = .error (.attribute fault (base + byteLength before)) :=
  readList_of_listBreak h rfl (passes_of_rest_eq rfl) rfl

/-- A list is read exactly if the text is one. -/
theorem parse_eq_ok_iff : parse base text = .ok attributes ↔ ListText true text attributes := by
  refine ⟨fun h => ?_, fun h => parse_of_listText h base⟩
  obtain ⟨attributes', hlist⟩ | ⟨before, after, fault, rfl, hbreak⟩ :=
    listText_or_listBreak true text
  · rw [parse_of_listText hlist base] at h
    exact Except.ok.inj h ▸ hlist
  · rw [parse_of_listBreak hbreak base] at h
    cases h

/-- An error is reported exactly where the text breaks. -/
theorem parse_eq_error_iff : parse base text = .error e ↔
    ∃ before after fault, text = before ++ after ∧ ListBreak true before after fault ∧
      e = .attribute fault (base + byteLength before) := by
  constructor
  · intro h
    obtain ⟨attributes, hlist⟩ | ⟨before, after, fault, rfl, hbreak⟩ :=
      listText_or_listBreak true text
    · rw [parse_of_listText hlist base] at h
      cases h
    · rw [parse_of_listBreak hbreak base] at h
      exact ⟨before, after, fault, rfl, hbreak, (Except.error.inj h).symm⟩
  · rintro ⟨before, after, fault, rfl, hbreak, rfl⟩
    exact parse_of_listBreak hbreak base

/-- With the character at which it breaks, a text begins no list. -/
theorem ListBreak.not_viable (h : ListBreak true before (c :: after) fault)
    (hfault : fault ≠ .unterminated) : ¬ Viable (before ++ [c]) := by
  rintro ⟨more, attributes, hlist⟩
  rw [List.append_assoc] at hlist
  have hread := parse_of_listText hlist 0
  rw [List.singleton_append, parse_of_listBreak (h.local hfault more) 0] at hread
  cases hread

/-- **Lists of attributes are read exactly.** Reading gives the attributes of a text exactly if it
is a list of them, repeated names included. Otherwise the error is an offset in the text: the text
before it begins some list, and does not with the next character added, unless the fault is a value
that is not closed. -/
theorem parse_exact (base : Nat) (text : List Char) :
    (∀ attributes, parse base text = .ok attributes ↔ ListText true text attributes) ∧
    ∀ e, parse base text = .error e →
      ∃ fault before after, e = .attribute fault (base + byteLength before) ∧
        text = before ++ after ∧ e.position - base ≤ byteLength text ∧ Viable before ∧
        (fault ≠ .unterminated → ∀ c rest, after = c :: rest → ¬ Viable (before ++ [c])) := by
  refine ⟨fun attributes => parse_eq_ok_iff, fun e h => ?_⟩
  obtain ⟨before, after, fault, rfl, hbreak, rfl⟩ := parse_eq_error_iff.1 h
  refine ⟨fault, before, after, rfl, rfl, ?_, hbreak.viable, ?_⟩
  · rw [ReadError.position, Nat.add_sub_cancel_left, byteLength_append]
    exact Nat.le_add_right _ _
  · rintro hfault c rest rfl
    exact hbreak.not_viable hfault

/-- The second value is good up to the `<` in it. -/
theorem parse_exact_angle :
    parse 10 " a=\"1\" a = '2<3'".toList = .error (.attribute .angle 23) ∧
    ∃ fault before after,
      .attribute .angle 23 = ReadError.attribute fault (10 + byteLength before) ∧
      " a=\"1\" a = '2<3'".toList = before ++ after ∧
      (ReadError.attribute .angle 23).position - 10 ≤ byteLength " a=\"1\" a = '2<3'".toList ∧
      Viable before ∧
      (fault ≠ .unterminated → ∀ c rest, after = c :: rest → ¬ Viable (before ++ [c])) := by
  have h : parse 10 " a=\"1\" a = '2<3'".toList = .error (.attribute .angle 23) := by
    decide +kernel
  exact ⟨h, (parse_exact 10 _).2 _ h⟩

end MarkupQuery.Markup.RawAttribute
