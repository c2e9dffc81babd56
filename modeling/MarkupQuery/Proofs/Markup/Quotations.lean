import MarkupQuery.Proofs.Markup.Declarations
import MarkupQuery.Proofs.Text.OpenMarks

/-!
# Values are quotations

The end of a start tag and its attributes are found by two scans. The first knows quotation marks
and `>` only, the second names, equals signs, quotation marks and `<`. They agree on quotations:
`openings` lists the places at which the reader of attributes opens a value, and at each of these
the search for the end of the tag opens a quotation, which both close at one place (`Quotation`).

The invariant is that behind all that the reader of attributes has passed no mark is open. Between
two values it passes no quotation mark (`passes_valuePlace?`), and a value that it reads is a whole
quotation. No mark is open at the end of the tag, so a value that opens is also closed, and it is
never found unterminated.
-/

namespace MarkupQuery.Markup

open Text Text.Place
open String (ofList)

namespace RawAttribute

variable {p v w list next : Place} {before body : List Char} {mark : Char} {first : Bool}
  {a : RawAttribute} {value : String} {done attributes : List RawAttribute}
  {fault : AttributeFault} {n : Nat} {text : List Char}

/-! ## Where values open -/

/-- The place at which the value of the attribute is expected that begins here: behind its name, an
equals sign, and white space. -/
def valuePlace? (p : Place) : Option Place :=
  match p.name? with
  | none => none
  | some (_, afterName) =>
    if afterName.skipBlank.sees '=' then some (afterName.skipBlank.forward 1).skipBlank else none

/-- The place of the quotation mark that opens the value of the attribute that begins here. -/
def opening? (p : Place) : Option Place :=
  (valuePlace? p).filter fun v => v.rest.head?.any isQuote

/-- The places of the quotation marks at which the reader of attributes opens a value, from a place
on. They end where the reader stops, be it with an error; `first` if no attribute lies behind. -/
def openings (first : Bool) (p : Place) : List Place :=
  if p.skipBlank.atEnd then []
  else if !first && !p.rest.head?.any isBlank then []
  else
    (opening? p.skipBlank).toList ++
      match _h : read p.skipBlank with
      | .error _ => []
      | .ok (_, next) => openings false next
termination_by p.rest.length
decreasing_by
  exact Nat.lt_of_lt_of_le (length_rest_of_read _h) p.length_rest_skipBlank

/-- An attribute is read by reading the value at its place. -/
theorem read_eq (p : Place) :
    (∃ fault n, (fault = .unnamed ∨ fault = .unassigned) ∧
        read p = .error (.attribute fault n)) ∨
      ∃ name v, valuePlace? p = some v ∧
        read p = (readValue v).map fun (value, next) => (⟨name, value⟩, next) := by
  unfold valuePlace? read
  cases p.name? with
  | none => exact .inl ⟨_, _, .inl rfl, rfl⟩
  | some named =>
    obtain ⟨name, afterName⟩ := named
    dsimp only
    cases hsign : afterName.skipBlank.sees '=' with
    | false => exact .inl ⟨_, _, .inr rfl, rfl⟩
    | true =>
      refine .inr ⟨name, _, rfl, ?_⟩
      rw [if_pos rfl]
      cases readValue (afterName.skipBlank.forward 1).skipBlank <;> rfl

theorem opening?_eq_some_iff : opening? p = some v ↔
    valuePlace? p = some v ∧ v.rest.head?.any isQuote = true :=
  Option.filter_eq_some_iff

/-- What is not found unquoted has a quotation mark in front. -/
theorem isQuote_of_readValue (h : readValue v ≠ .error (.attribute .unquoted v.offset)) :
    v.rest.head?.any isQuote = true := by
  by_contra hnot
  exact h (readValue_of_valueBreak (.unquoted (Bool.eq_false_iff.2 hnot)) (.refl v) rfl)

theorem opening_of_read (h : read p = .ok (a, next)) :
    ∃ v, opening? p = some v ∧ readValue v = .ok (a.value, next) := by
  obtain ⟨fault, n, -, herror⟩ | ⟨name, v, hv, hread⟩ := read_eq p
  · rw [herror] at h
    cases h
  · rw [hread] at h
    cases hvalue : readValue v with
    | error e =>
      rw [hvalue] at h
      cases h
    | ok found =>
      rw [hvalue] at h
      cases h
      exact ⟨v, opening?_eq_some_iff.2 ⟨hv, isQuote_of_readValue (by simp [hvalue])⟩, hvalue⟩

theorem opening_of_read_error (hfault : fault = .angle ∨ fault = .unterminated)
    (h : read p = .error (.attribute fault n)) :
    ∃ v, opening? p = some v ∧ readValue v = .error (.attribute fault n) := by
  obtain ⟨fault', m, hfault', herror⟩ | ⟨name, v, hv, hread⟩ := read_eq p
  · rw [herror] at h
    cases h
    rcases hfault' with rfl | rfl <;> simp at hfault
  · rw [hread] at h
    cases hvalue : readValue v with
    | error e =>
      rw [hvalue] at h
      cases h
      have hquote : v.rest.head?.any isQuote = true :=
        isQuote_of_readValue (by rcases hfault with rfl | rfl <;> simp [hvalue])
      exact ⟨v, opening?_eq_some_iff.2 ⟨hv, hquote⟩, hvalue⟩
    | ok found =>
      rw [hvalue] at h
      cases h

theorem openings_of_read (hend : ¬ p.skipBlank.atEnd = true)
    (hsep : ¬ (!first && !p.rest.head?.any isBlank) = true)
    (hread : read p.skipBlank = .ok (a, next)) :
    ∃ v, readValue v = .ok (a.value, next) ∧ openings first p = v :: openings false next := by
  obtain ⟨v, hv, hvalue⟩ := opening_of_read hread
  refine ⟨v, hvalue, ?_⟩
  rw [openings, if_neg hend, if_neg hsep, hv]
  split <;> rename_i h <;> rw [hread] at h <;> cases h
  rfl

/-- The values of a list that is read are those that were opened, in order. -/
theorem forall₂_openings (h : readList done p = .ok attributes) :
    ∃ behind, attributes = done.reverse ++ behind ∧
      List.Forall₂ (fun v a => ∃ w, readValue v = .ok (a.value, w)) (openings done.isEmpty p)
        behind := by
  fun_induction readList done p with
  | case1 done p hend =>
    obtain rfl := Except.ok.inj h
    refine ⟨[], (List.append_nil _).symm, ?_⟩
    rw [openings, if_pos hend]
    exact .nil
  | case2 | case3 => cases h
  | case4 done p hend hsep a next hread ih =>
    obtain ⟨behind, rfl, hbehind⟩ := ih h
    obtain ⟨v, hvalue, hopenings⟩ := openings_of_read hend hsep hread
    refine ⟨a :: behind, by rw [List.reverse_cons, List.append_assoc]; rfl, ?_⟩
    rw [hopenings]
    exact .cons ⟨next, hvalue⟩ hbehind

/-- An error in a value comes of a value that was opened. -/
theorem exists_opening_of_error (hfault : fault = .angle ∨ fault = .unterminated)
    (h : readList done p = .error (.attribute fault n)) :
    ∃ v ∈ openings done.isEmpty p, readValue v = .error (.attribute fault n) := by
  fun_induction readList done p with
  | case1 => cases h
  | case2 =>
    obtain ⟨rfl, -⟩ := by simpa using h
    simp at hfault
  | case3 done p hend hsep e hread =>
    obtain rfl := Except.error.inj h
    obtain ⟨v, hv, hvalue⟩ := opening_of_read_error hfault hread
    refine ⟨v, ?_, hvalue⟩
    rw [openings, if_neg hend, if_neg hsep, hv]
    exact List.mem_append_left _ (List.mem_singleton_self v)
  | case4 done p hend hsep a next hread ih =>
    obtain ⟨v, hv, herror⟩ := ih h
    obtain ⟨_, -, hopenings⟩ := openings_of_read hend hsep hread
    exact ⟨v, hopenings ▸ List.mem_cons_of_mem _ hv, herror⟩

/-! ## Values and quotations -/

/-- From `list` on, the value at `v` is a quotation up to `w`, for the search for the end of a tag
and for the reader of attributes, unless a `<` in it stops the reader. -/
structure Quotation (list v : Place) (before : List Char) (mark : Char) (body : List Char)
    (w : Place) : Prop where
  /-- The text before lies in front of the value. -/
  ahead : list.Passes before v
  /-- The value with its marks lies in front of what is behind it. -/
  passes : v.Passes (mark :: body ++ [mark]) w
  /-- The search opens a quotation with the first mark, and closes it with the last. -/
  quotes : Quotes before mark body
  /-- So does the reader. -/
  reads : (∃ value, readValue v = .ok (value, w)) ∨
    '<' ∈ body ∧ ∃ n, readValue v = .error (.attribute .angle n)

theorem isQuote_of_isPlain {c : Char} (h : isPlain c = true) : isQuote c = false := by
  simp only [isPlain, Bool.not_eq_true', Bool.or_eq_false_iff] at h
  exact h.1.1.1

theorem isNameChar_of_name? {name : String} {q : Place} (h : p.name? = some (name, q)) :
    ∀ c ∈ name.toList, isNameChar c = true := by
  unfold name? at h
  split at h
  · obtain ⟨rfl, -⟩ := Prod.mk.inj (Option.some.inj h)
    rw [String.toList_ofList]
    exact List.all_eq_true.1 List.all_takeWhile
  · cases h

/-- White space is passed without a quotation mark. -/
theorem passes_blanks (p : Place) :
    ∃ cs, p.Passes cs p.skipBlank ∧ ∀ c ∈ cs, isQuote c = false :=
  ⟨_, p.passes_skipBlank, fun c hc => isQuote_of_isPlain
    (isPlain_of_isBlank (List.all_eq_true.1 List.all_takeWhile c hc))⟩

/-- No quotation mark is passed on the way to a value. -/
theorem passes_valuePlace? (h : valuePlace? p = some v) :
    ∃ cs, p.Passes cs v ∧ ∀ c ∈ cs, isQuote c = false := by
  unfold valuePlace? at h
  split at h
  · cases h
  · rename_i name afterName hname
    split at h
    · rename_i hsign
      obtain rfl := Option.some.inj h
      obtain ⟨s, hs, hsplain⟩ := passes_blanks afterName
      obtain ⟨t, ht, htplain⟩ := passes_blanks (afterName.skipBlank.forward 1)
      refine ⟨_, (((passes_of_name? hname).trans hs).trans (passes_forward hsign)).trans ht, ?_⟩
      have hchars := fun c hc => isQuote_of_isPlain
        (isPlain_of_isNameChar (isNameChar_of_name? hname c hc))
      simp only [List.forall_mem_append]
      exact ⟨⟨⟨hchars, hsplain⟩, by simp [isQuote]⟩, htplain⟩
    · cases h

/-- A value whose mark comes again is read up to there, or a `<` stands in between. -/
theorem readValue_of_passes (hmark : isQuote mark = true) (hbody : mark ∉ body)
    (h : v.Passes (mark :: body ++ [mark]) w) :
    (∃ value, readValue v = .ok (value, w)) ∨
      '<' ∈ body ∧ ∃ n, readValue v = .error (.attribute .angle n) := by
  by_cases hangle : '<' ∈ body
  · obtain ⟨as, bs, rfl, has⟩ := List.eq_append_cons_of_mem hangle
    have hquotable : IsQuotable mark as :=
      ⟨hmark, fun hmem => hbody (List.mem_append_left _ hmem), has⟩
    have hstops : v.rest = mark :: as ++ '<' :: (bs ++ mark :: w.rest) := by
      rw [h.rest_eq]
      simp
    exact .inr ⟨hangle, _,
      readValue_of_valueBreak (.angle hquotable) (passes_of_rest_eq hstops) rfl⟩
  · exact .inl ⟨_, readValue_of_valueText (.quoted ⟨hmark, hbody, hangle⟩) h⟩

/-- A value that opens where no mark is open is a quotation, if none is open at the end. -/
theorem exists_quotation (hlist : openMark list.rest = none) (hpass : list.Passes before p)
    (hopen : openMark before = none) (hv : opening? p.skipBlank = some v) :
    ∃ before mark body w, Quotation list v before mark body w := by
  obtain ⟨hplace, hquote⟩ := opening?_eq_some_iff.1 hv
  obtain ⟨s, hs, hsplain⟩ := passes_blanks p
  obtain ⟨t, ht, htplain⟩ := passes_valuePlace? hplace
  have hahead := (hpass.trans hs).trans ht
  have hclosed : openMark (before ++ s ++ t) = none := by
    rw [List.append_assoc, openMark_append_of_eq_none hopen]
    exact openMark_eq_none_of_forall (List.forall_mem_append.2 ⟨hsplain, htplain⟩)
  obtain ⟨mark, hhead, hmark⟩ := (Option.any_eq_true ..).1 hquote
  obtain ⟨rest, hrest⟩ := List.head?_eq_some_iff.1 hhead
  rw [hahead.rest_eq, hrest] at hlist
  obtain ⟨body, after, rfl, hbody, hquotes⟩ := exists_quotes hlist hclosed hmark
  have hvalue : v.Passes (mark :: body ++ [mark])
      ⟨v.offset + byteLength (mark :: body ++ [mark]), after⟩ :=
    passes_of_rest_eq (by rw [hrest]; simp)
  exact ⟨_, mark, body, _, hahead, hvalue, hquotes, readValue_of_passes hmark hbody hvalue⟩

/-- Behind a value that is read no mark is open. -/
theorem Quotation.passes_next (h : Quotation list v before mark body w)
    (hread : readValue v = .ok (value, next)) :
    list.Passes (before ++ (mark :: body ++ [mark])) next ∧
      openMark (before ++ (mark :: body ++ [mark])) = none := by
  have hnext : next = w := by
    obtain ⟨value', hread'⟩ | ⟨-, n, herror⟩ := h.reads
    · rw [hread] at hread'
      cases hread'
      rfl
    · rw [hread] at herror
      cases herror
  subst hnext
  exact ⟨h.ahead.trans h.passes, by simpa using h.quotes.closed⟩

/-- Every value that is opened is a quotation. -/
theorem quotation_of_mem_openings (hlist : openMark list.rest = none)
    (hpass : list.Passes before p) (hopen : openMark before = none) (hv : v ∈ openings first p) :
    ∃ before mark body w, Quotation list v before mark body w := by
  fun_induction openings first p generalizing before with
  | case1 | case2 => cases hv
  | case3 first p hend hsep ih =>
    rcases List.mem_append.1 hv with hv | hv
    · exact exists_quotation hlist hpass hopen (Option.mem_toList.1 hv)
    · split at hv
      · cases hv
      · rename_i a next hread
        obtain ⟨v₀, hopened, hvalue⟩ := opening_of_read hread
        obtain ⟨before', mark, body, w, hquotation⟩ :=
          exists_quotation hlist hpass hopen hopened
        obtain ⟨hnext, hclosed⟩ := hquotation.passes_next hvalue
        exact ih a next hread hnext hclosed hv

/-- No value is found unterminated. -/
theorem parse_ne_unterminated (hlist : openMark text = none) (base n : Nat) :
    parse base text ≠ .error (.attribute .unterminated n) := by
  intro h
  obtain ⟨v, hv, herror⟩ := exists_opening_of_error (.inr rfl) h
  have hstart : (⟨base, text⟩ : Place).Passes [] ⟨base, text⟩ := .refl _
  obtain ⟨before, mark, body, w, hquotation⟩ :=
    quotation_of_mem_openings (by exact hlist) hstart rfl hv
  obtain ⟨value, hread⟩ | ⟨-, m, hangle⟩ := hquotation.reads
  · rw [herror] at hread
    cases hread
  · rw [herror] at hangle
    cases hangle

end RawAttribute

/-! ## Start tags -/

namespace Lexeme

variable {p q afterName stop : Place} {name : String} {inner list : List Char} {closes : Bool}

/-- A slash that is split off stands behind the list. -/
theorem eq_append_of_splitSlash (h : splitSlash inner = (list, closes)) :
    inner = list ++ (if closes then ['/'] else []) := by
  unfold splitSlash at h
  split at h
  · rename_i hslash
    obtain ⟨rfl, rfl⟩ := Prod.mk.inj h
    exact (List.dropLast_append_getLast? '/' (beq_iff_eq.1 hslash)).symm
  · obtain ⟨rfl, rfl⟩ := Prod.mk.inj h
    exact (List.append_nil _).symm

/-- With the slash split off, no mark is open either. -/
theorem openMark_of_splitSlash (h : splitSlash inner = (list, closes))
    (hinner : openMark inner = none) : openMark list = none := by
  rw [eq_append_of_splitSlash h] at hinner
  cases closes with
  | false => rwa [if_neg Bool.false_ne_true, List.append_nil] at hinner
  | true =>
    rw [if_pos rfl, openMark_concat_of_not_isQuote (by decide)] at hinner
    exact hinner

/-- The start tag ahead is read by reading its attributes. -/
theorem next_of_tag (hstarting : Construct.starting p.rest = .startTag)
    (hname : (p.forward 1).name? = some (name, afterName))
    (htag : afterName.upToTagEnd? = some (inner, stop))
    (hsplit : splitSlash inner = (list, closes)) :
    next p = match RawAttribute.parse afterName.offset list with
      | .error e => (.error e, afterName)
      | .ok attributes =>
        (.ok (some (.startTag name attributes closes afterName)), stop.forward 1) := by
  have hread : readStartTag p = match RawAttribute.parse afterName.offset list with
      | .error e => (.error e, afterName)
      | .ok attributes => (.ok (.startTag name attributes closes afterName), stop.forward 1) := by
    rw [readStartTag, show Construct.startTag.opener.length = 1 from rfl, hname]
    dsimp only
    rw [htag]
    dsimp only
    generalize splitSlash inner = parts at hsplit ⊢
    subst hsplit
    rfl
  rw [next]
  split
  · rename_i htrue
    rw [atEnd_eq_false_of_starting (by decide) hstarting] at htrue
    cases htrue
  · split
    · rename_i hdoctype
      rw [hstarting] at hdoctype
      cases hdoctype
    · rw [hstarting, read, hread]
      cases RawAttribute.parse afterName.offset list <;> rfl

end Lexeme

namespace Reader

open Lexeme (Leads splitSlash)
open RawAttribute (parse readValue openings Quotation)

variable {r : Reader} {p afterName stop : Place} {name : String} {inner list : List Char}
  {closes : Bool}

/-- What is wrong with the attributes of the tag ahead is what a reader reports. -/
theorem read_eq_attribute_iff (hleads : Leads r.place p)
    (hstarting : Construct.starting p.rest = .startTag)
    (hname : (p.forward 1).name? = some (name, afterName))
    (htag : afterName.upToTagEnd? = some (inner, stop)) (hsplit : splitSlash inner = (list, closes))
    (howes : r.owesEnd = false) (fault : AttributeFault) (n : Nat) :
    r.read.1 = .error (.attribute fault n) ↔
      parse afterName.offset list = .error (.attribute fault n) := by
  have hnext := hleads.next_eq.trans (Lexeme.next_of_tag hstarting hname htag hsplit)
  rw [read, if_neg (by simp [howes]), hnext]
  cases parse afterName.offset list with
  | error e => simp only [Except.error.injEq]
  | ok attributes =>
    dsimp only
    rw [accept]
    cases r.repeated? attributes <;> simp

/-- **The search for the end of a tag and the reader of attributes agree on quotations.** Let a
start tag lie ahead of a reader, behind any document type declarations, and let the search find its
end. Then the attributes are read from the text between the name and that end, less a slash in
front of it, and

- no value is found unterminated, neither in this text nor by the reader;
- the values that are read are those that were opened, and an error in a value, too, comes of one
  that was opened;
- each value that is opened is a quotation of the search, closed by both at one place in this text,
  unless the reader stops at a `<` in it before;
- a slash that closes the tag stands behind this text, where no quotation is open. -/
theorem quotations_of_tag (hleads : Leads r.place p)
    (hstarting : Construct.starting p.rest = .startTag)
    (hname : (p.forward 1).name? = some (name, afterName))
    (htag : afterName.upToTagEnd? = some (inner, stop))
    (hsplit : splitSlash inner = (list, closes)) :
    (r.owesEnd = false → ∀ fault n, r.read.1 = .error (.attribute fault n) ↔
        parse afterName.offset list = .error (.attribute fault n)) ∧
      (∀ n, parse afterName.offset list ≠ .error (.attribute .unterminated n)) ∧
      (∀ attributes, parse afterName.offset list = .ok attributes →
        List.Forall₂ (fun v a => ∃ w, readValue v = .ok (a.value, w))
          (openings true ⟨afterName.offset, list⟩) attributes) ∧
      (∀ n, parse afterName.offset list = .error (.attribute .angle n) →
        ∃ v ∈ openings true ⟨afterName.offset, list⟩,
          readValue v = .error (.attribute .angle n)) ∧
      (∀ v ∈ openings true ⟨afterName.offset, list⟩, ∃ before mark body w,
        Quotation ⟨afterName.offset, list⟩ v before mark body w) ∧
      inner = list ++ (if closes then ['/'] else []) ∧ openMark list = none := by
  have hlist := Lexeme.openMark_of_splitSlash hsplit (openMark_of_upToTagEnd? htag)
  refine ⟨fun howes => read_eq_attribute_iff hleads hstarting hname htag hsplit howes,
    RawAttribute.parse_ne_unterminated hlist _, fun attributes h => ?_,
    fun n h => RawAttribute.exists_opening_of_error (.inl rfl) h,
    fun v hv => RawAttribute.quotation_of_mem_openings (by exact hlist) (.refl _) rfl hv,
    Lexeme.eq_append_of_splitSlash hsplit, hlist⟩
  obtain ⟨behind, rfl, hbehind⟩ := RawAttribute.forall₂_openings h
  exact hbehind

/-- A tag with `>` in one value and a slash in the other. -/
def quotedTag : String :=
  "<a x=\"1>2\" y='/'/>"

theorem quotations_of_quotedTag :
    (start true quotedTag).owesEnd = false ∧
      (⟨2, " x=\"1>2\" y='/'/>".toList⟩ : Place).upToTagEnd? =
        some (" x=\"1>2\" y='/'/".toList, ⟨17, ['>']⟩) ∧
      (∀ n, (start true quotedTag).read.1 ≠ .error (.attribute .unterminated n)) ∧
      ∀ v ∈ openings true ⟨2, " x=\"1>2\" y='/'".toList⟩, ∃ before mark body w,
        Quotation ⟨2, " x=\"1>2\" y='/'".toList⟩ v before mark body w := by
  have htag : (⟨2, " x=\"1>2\" y='/'/>".toList⟩ : Place).upToTagEnd? =
      some (" x=\"1>2\" y='/'/".toList, ⟨17, ['>']⟩) := by decide +kernel
  have hname : ((start true quotedTag).place.forward 1).name? =
      some ("a", ⟨2, " x=\"1>2\" y='/'/>".toList⟩) := by decide +kernel
  have hsplit : splitSlash " x=\"1>2\" y='/'/".toList = (" x=\"1>2\" y='/'".toList, true) := by
    decide +kernel
  obtain ⟨hreads, hterminated, -, -, hquotations, -⟩ :=
    quotations_of_tag (r := start true quotedTag) (.here _) (by decide +kernel) hname htag hsplit
  exact ⟨rfl, htag, fun n h => hterminated n ((hreads rfl _ n).1 h), hquotations⟩

end Reader

end MarkupQuery.Markup
