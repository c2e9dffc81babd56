import MarkupQuery.Proofs.Markup.Locality
import MarkupQuery.Proofs.Markup.Quotations

/-!
# Attributes in front of others

The text of a start tag behind its name may begin with a list of attributes and go on with more of
them. What is read then is this list and what the rest lists, if the rest is a list
(`ListText.append`). A rest that is none cannot become one behind a list (`ListBreak.behind_list`).

A list leaves no quotation mark open and ends in no slash, so it does not matter for the end of the
tag either. `Lexeme.Begins` tells how a tag begins up to a place in it, and `Lexeme.Ends` how it
ends from there. The tag is read exactly if it ends (`Lexeme.Begins.next_of_ends`,
`Lexeme.Begins.next_of_endless`), and its end does not hang on how it begins.
-/

namespace MarkupQuery

open Text Text.Place
open String (ofList)

namespace Text.Place

/-- The end of a tag is found as well from in front of what the search skips. -/
theorem upToTagEnd?_of_skippedInTag {p q : Place} {u : List Char} (hp : p.Passes u q)
    (hu : SkippedInTag u) :
    p.upToTagEnd? = q.upToTagEnd?.map (Prod.map (u ++ ·) id) := by
  have hend : tagEnd? p.rest = (tagEnd? q.rest).map (u.length + ·) := by
    rw [tagEnd?, tagEnd?, hp.rest_eq, hu, Nat.zero_add, ← tagEndFrom_add, Nat.add_zero]
  rw [upToTagEnd?, upToTagEnd?, hend, Option.map_map, Option.map_map]
  refine congrArg (Option.map · _) (funext fun n => ?_)
  rw [Function.comp_apply, Function.comp_apply, ← forward_forward, hp.forward_eq, hp.rest_eq,
    List.take_length_add_append]
  rfl

end Text.Place

namespace Markup

namespace RawAttribute

variable {u w s cs before after : List Char} {first : Bool} {fault : AttributeFault}
  {a : RawAttribute} {us ws : List RawAttribute}

/-! ## The text of a list -/

theorem ListText.of_false (h : ListText false u us) : ListText true u us := by
  cases h with
  | nil hs => exact .nil hs
  | cons hs _ ha h => exact .cons hs (.inl rfl) ha h

/-- Behind a name, a list begins with white space. -/
theorem ListText.head?_all_isBlank (h : ListText false u us) : u.head?.all isBlank = true := by
  have hblank {s : List Char} (hs : IsBlanks s) : s.head?.all isBlank = true := by
    cases s with
    | nil => rfl
    | cons c s => exact hs c (List.mem_cons_self ..)
  cases h with
  | nil hs => exact hblank hs
  | @cons _ s cs rest _ _ hs hsep _ _ =>
    have hne : s ≠ [] := hsep.resolve_left Bool.false_ne_true
    rw [List.append_assoc, List.head?_append_of_ne_nil _ hne]
    exact hblank hs

theorem AttributeText.exists_cons (h : AttributeText cs a) :
    ∃ c rest, cs = c :: rest ∧ isNameStart c = true := by
  cases h with
  | assigned hopening _ =>
    cases hopening with
    | assigned hname _ _ =>
      obtain ⟨c, hc, hstart⟩ := (Option.any_eq_true ..).1 hname.start
      obtain ⟨name, rfl⟩ := List.head?_eq_some_iff.1 hc
      exact ⟨c, _, rfl, hstart⟩

/-- An attribute ends in a quotation mark. -/
theorem AttributeText.getLast? (h : AttributeText cs a) :
    ∃ quote, cs.getLast? = some quote ∧ isQuote quote = true := by
  cases h with
  | @assigned _ opening _ _ _ hvalue =>
    cases hvalue with
    | @quoted quote body h =>
      exact ⟨quote, by rw [← List.append_assoc, List.getLast?_concat], h.isQuote⟩

theorem ListText.getLast?_ne_slash (h : ListText first u us) : u.getLast? ≠ some '/' := by
  induction h with
  | nil hs =>
    intro hlast
    exact absurd (hs _ (List.mem_of_getLast? hlast)) (by decide)
  | @cons _ s cs rest _ _ _ _ ha _ ih =>
    obtain ⟨quote, hlast, hquote⟩ := ha.getLast?
    rw [List.getLast?_append, List.getLast?_append, hlast]
    cases hrest : rest.getLast? with
    | none =>
      rintro ⟨⟩
      exact absurd hquote (by decide)
    | some c => rwa [hrest] at ih

theorem skippedInTag_of_isBlanks (hs : IsBlanks s) : SkippedInTag s := by
  refine .of_forall fun c hc => ?_
  have hblank := hs c hc
  refine ⟨by rintro rfl; exact absurd hblank (by decide), ?_⟩
  exact isQuote_of_isPlain (isPlain_of_isBlank hblank)

theorem skippedInTag_of_isName (h : IsName cs) : SkippedInTag cs := by
  refine .of_forall fun c hc => ?_
  have hchar := h.chars c hc
  refine ⟨by rintro rfl; exact absurd hchar (by decide), ?_⟩
  exact isQuote_of_isPlain (isPlain_of_isNameChar hchar)

theorem AttributeText.skippedInTag (h : AttributeText cs a) : SkippedInTag cs := by
  cases h with
  | assigned hopening hvalue =>
    cases hopening with
    | assigned hname hs ht =>
      cases hvalue with
      | quoted h =>
        have hsign : SkippedInTag ['='] := .singleton (by decide) (by decide)
        exact (((skippedInTag_of_isName hname).append (skippedInTag_of_isBlanks hs)).append
          (hsign.append (skippedInTag_of_isBlanks ht))).append (.quoted h.isQuote h.quote_not_mem)

/-- The search for the end of a tag goes on behind a list. -/
theorem ListText.skippedInTag (h : ListText first u us) : SkippedInTag u := by
  induction h with
  | nil hs => exact skippedInTag_of_isBlanks hs
  | cons hs _ ha _ ih => exact ((skippedInTag_of_isBlanks hs).append ha.skippedInTag).append ih

/-! ## Lists behind lists -/

/-- A character that may stand right behind an attribute: white space, or the end of the tag. -/
def isDelimiter (c : Char) : Bool :=
  isBlank c || c == '/' || c == '>'

/-- Attributes in a text and in the text behind it are kept apart: white space or the end of the tag
stands between them. -/
def Apart (u w : List Char) : Prop :=
  u.getLast?.any isBlank = true ∨ w.head?.all isDelimiter = true

theorem isBlank_eq_false_of_isQuote {c : Char} (h : isQuote c = true) : isBlank c = false := by
  rw [isQuote, Bool.or_eq_true, beq_iff_eq, beq_iff_eq] at h
  rcases h with rfl | rfl <;> decide

theorem isDelimiter_eq_false_of_isNameChar {c : Char} (h : isNameChar c = true) :
    isDelimiter c = false := by
  rw [Bool.eq_false_iff]
  intro hdelimiter
  simp only [isDelimiter, Bool.or_eq_true, beq_iff_eq] at hdelimiter
  obtain (hblank | rfl) | rfl := hdelimiter
  · rw [isNameChar_eq_false_of_isBlank hblank] at h
    cases h
  · exact absurd h (by decide)
  · exact absurd h (by decide)

theorem Apart.of_append (h : Apart (s ++ cs ++ u) w) (ha : AttributeText cs a) : Apart u w := by
  obtain ⟨quote, hlast, hquote⟩ := ha.getLast?
  rw [Apart, List.getLast?_append, List.getLast?_append, hlast] at h
  cases hu : u.getLast? with
  | none =>
    rw [hu, Option.none_or, Option.some_or, Option.any_some,
      isBlank_eq_false_of_isQuote hquote] at h
    exact .inr (h.resolve_left Bool.false_ne_true)
  | some c =>
    rw [hu, Option.some_or] at h
    exact h.imp_left fun hc => by rw [hu, hc]

theorem Apart.of_isPrefix {back : List Char} (h : Apart u back) (hw : w <+: back) : Apart u w := by
  refine h.imp_right fun hback => ?_
  cases w with
  | nil => rfl
  | cons c w =>
    obtain ⟨rest, rfl⟩ := hw
    exact hback

/-- Behind a list, kept apart from it, what lists more attributes adds them. -/
theorem ListText.append (hu : ListText first u us) (hw : ListText true w ws) (h : Apart u w) :
    ListText first (u ++ w) (us ++ ws) := by
  induction hu with
  | @nil first s hs =>
    cases hw with
    | nil ht => exact .nil (List.forall_mem_append.2 ⟨hs, ht⟩)
    | @cons _ t cs rest a _ ht _ ha hrest =>
      have hsep : first = true ∨ s ++ t ≠ [] := by
        refine .inr fun hnil => ?_
        obtain ⟨rfl, rfl⟩ := List.append_eq_nil_iff.1 hnil
        -- then the attribute would begin with a character that delimits it
        obtain ⟨c, cs, rfl, hstart⟩ := ha.exists_cons
        have hc : isDelimiter c = true := h.resolve_left Bool.false_ne_true
        rw [isDelimiter_eq_false_of_isNameChar (isNameChar_of_isNameStart hstart)] at hc
        cases hc
      rw [← List.append_assoc, ← List.append_assoc]
      exact .cons (List.forall_mem_append.2 ⟨hs, ht⟩) hsep ha hrest
  | cons hs hsep ha _ ih =>
    rw [List.append_assoc, List.cons_append]
    exact .cons hs hsep ha (ih (h.of_append ha))

/-- Where a text is no list, it is none behind a list either. -/
theorem ListBreak.behind_list (hw : ListBreak true before after fault)
    (hu : ListText first u us) : ∃ before' after' fault',
      u ++ (before ++ after) = before' ++ after' ∧ ListBreak first before' after' fault' := by
  induction hu with
  | @nil first s hs =>
    cases hw with
    | @inside _ t before after _ ht _ hne hstop hbreak =>
      by_cases hsep : first = true ∨ s ++ t ≠ []
      · exact ⟨s ++ t ++ before, after, fault, by simp,
          .inside (List.forall_mem_append.2 ⟨hs, ht⟩) hsep hne hstop hbreak⟩
      · rw [not_or, Bool.not_eq_true, not_not, List.append_eq_nil_iff] at hsep
        obtain ⟨rfl, rfl, rfl⟩ := hsep
        exact ⟨[], before ++ after, _, by simp, .unseparated hne hstop⟩
    | @behind _ t cs before after _ a ht _ ha hrest =>
      by_cases hsep : first = true ∨ s ++ t ≠ []
      · exact ⟨s ++ t ++ cs ++ before, after, fault, by simp,
          .behind (List.forall_mem_append.2 ⟨hs, ht⟩) hsep ha hrest⟩
      · rw [not_or, Bool.not_eq_true, not_not, List.append_eq_nil_iff] at hsep
        obtain ⟨rfl, rfl, rfl⟩ := hsep
        exact ⟨[], cs ++ (before ++ after), _, by simp,
          .unseparated (List.append_ne_nil_of_left_ne_nil ha.ne_nil _) (ha.head?_any_isBlank _)⟩
  | cons hs hsep ha _ ih =>
    obtain ⟨before', after', fault', heq, hbreak⟩ := ih
    exact ⟨_, after', fault', by rw [List.append_assoc, heq, ← List.append_assoc],
      .behind hs hsep ha hbreak⟩

/-- Right behind a list that is kept apart from the text behind it, no name goes on. -/
theorem ListText.head?_any_isNameChar (hu : ListText false u us) (h : Apart u w) :
    (u ++ w).head?.any isNameChar = false := by
  have hends {text : List Char} (htext : text.head?.all isDelimiter = true) :
      text.head?.any isNameChar = false := by
    cases text with
    | nil => rfl
    | cons c text =>
      rw [List.head?_cons, Option.any_some, Bool.eq_false_iff]
      intro hchar
      rw [List.head?_cons, Option.all_some, isDelimiter_eq_false_of_isNameChar hchar] at htext
      cases htext
  refine hends ?_
  cases u with
  | nil => exact h.resolve_left Bool.false_ne_true
  | cons c u =>
    have hblank : isBlank c = true := hu.head?_all_isBlank
    exact Bool.or_eq_true_iff.2 (.inl (Bool.or_eq_true_iff.2 (.inl hblank)))

end RawAttribute

/-! ## Tags -/

namespace Lexeme

open RawAttribute (IsName ListText Apart)

variable {p q r : Place} {name u : List Char} {us ws : List RawAttribute} {closes : Bool}

/-- In front of a slash that is split off may stand what ends in none. -/
theorem splitSlash_append (hu : u.getLast? ≠ some '/') (w : List Char) :
    splitSlash (u ++ w) = (u ++ (splitSlash w).1, (splitSlash w).2) := by
  rcases List.eq_nil_or_concat w with rfl | ⟨init, c, rfl⟩
  · rw [List.append_nil, splitSlash, if_neg (by simpa using hu)]
    exact (congrArg (·, false) (List.append_nil u)).symm
  · rw [List.concat_eq_append, ← List.append_assoc, splitSlash, splitSlash, List.getLast?_concat,
      List.getLast?_concat, List.dropLast_concat, List.dropLast_concat]
    split
    · rfl
    · rw [List.append_assoc]

/-- From a place in a tag, behind its name or behind some attributes, these attributes are still to
come. With them the tag ends, and reading goes on from `r`. -/
inductive Ends (q : Place) : List RawAttribute → Bool → Place → Prop
  | intro {w : List Char} {stop : Place} {attributes : List RawAttribute}
      (htag : q.upToTagEnd? = some (w, stop)) (hlist : ListText true (splitSlash w).1 attributes) :
      Ends q attributes (splitSlash w).2 (stop.forward 1)

theorem ends_moved_iff {n : Nat} :
    Ends (q.moved n) ws closes r ↔ ∃ r', Ends q ws closes r' ∧ r = r'.moved n := by
  constructor
  · rintro ⟨htag, hlist⟩
    rw [upToTagEnd?_moved] at htag
    obtain ⟨⟨w, stop⟩, hend, hpair⟩ := Option.map_eq_some_iff.1 htag
    obtain ⟨rfl, rfl⟩ := Prod.mk.inj hpair
    exact ⟨_, .intro hend hlist, forward_moved ..⟩
  · rintro ⟨_, ⟨htag, hlist⟩, rfl⟩
    rw [← forward_moved]
    exact .intro (by rw [upToTagEnd?_moved, htag]; rfl) hlist

/-- A start tag begins at `p`: its name and the list `us` stand between this place and `q`. -/
structure Begins (p : Place) (name u : List Char) (us : List RawAttribute) (q : Place) : Prop where
  passes : p.Passes ('<' :: (name ++ u)) q
  isName : IsName name
  list : ListText false u us
  apart : Apart u q.rest

theorem Begins.starting (h : Begins p name u us q) : Construct.starting p.rest = .startTag := by
  obtain ⟨c, hc, hstart⟩ := (Option.any_eq_true ..).1 h.isName.start
  obtain ⟨rest, rfl⟩ := List.head?_eq_some_iff.1 hc
  rw [h.passes.rest_eq]
  exact Construct.starting_startTag hstart _

/-- Behind the name stands the list. -/
theorem Begins.exists_afterName (h : Begins p name u us q) :
    ∃ afterName, (p.forward 1).name? = some (ofList name, afterName) ∧ afterName.Passes u q := by
  obtain ⟨-, hbehind⟩ := passes_cons_iff.1 h.passes
  obtain ⟨afterName, hpass, hlist⟩ := passes_append_iff.1 hbehind
  refine ⟨afterName, name?_eq_of_ends hpass h.isName.start h.isName.chars ?_, hlist⟩
  rw [hlist.rest_eq]
  exact h.list.head?_any_isNameChar h.apart

/-- A tag that begins and ends is read. -/
theorem Begins.next_of_ends (h : Begins p name u us q) (hends : Ends q ws closes r) :
    ∃ afterName,
      next p = (.ok (some (.startTag (ofList name) (us ++ ws) closes afterName)), r) := by
  obtain ⟨afterName, hafter, hlist⟩ := h.exists_afterName
  cases hends with
  | @intro w stop _ htag hws =>
    have htag' : afterName.upToTagEnd? = some (u ++ w, stop) := by
      rw [upToTagEnd?_of_skippedInTag hlist h.list.skippedInTag, htag]
      rfl
    have hprefix : (splitSlash w).1 <+: q.rest :=
      (show (splitSlash w).1 <+: w from ⟨_, (eq_append_of_splitSlash rfl).symm⟩).trans
        ⟨_, (passes_of_upToTagEnd? htag).1.rest_eq.symm⟩
    have hlists := h.list.of_false.append hws (h.apart.of_isPrefix hprefix)
    refine ⟨afterName, ?_⟩
    rw [next_of_tag h.starting hafter htag' (splitSlash_append h.list.getLast?_ne_slash w),
      RawAttribute.parse_of_listText hlists]

/-- A tag that begins and does not end is not read. -/
theorem Begins.next_of_endless (h : Begins p name u us q)
    (hendless : ∀ ws closes r, ¬ Ends q ws closes r) : ∃ e r, next p = (.error e, r) := by
  obtain ⟨afterName, hafter, hlist⟩ := h.exists_afterName
  have htag' := upToTagEnd?_of_skippedInTag hlist h.list.skippedInTag
  cases htag : q.upToTagEnd? with
  | none =>
    rw [htag, Option.map_none] at htag'
    have hread : readStartTag p = (.error (.unexpectedEnd .startTag p.offset), afterName) := by
      rw [readStartTag, show Construct.startTag.opener.length = 1 from rfl, hafter]
      dsimp only
      rw [htag']
    rw [next_of_ne_doctype (atEnd_eq_false_of_starting (by decide) h.starting)
      (by rw [h.starting]; decide), h.starting, read, hread]
    exact ⟨_, _, rfl⟩
  | some found =>
    obtain ⟨w, stop⟩ := found
    rw [htag] at htag'
    obtain ⟨ws, hws⟩ | ⟨before, after, fault, hrest, hbreak⟩ :=
      RawAttribute.listText_or_listBreak true (splitSlash w).1
    · exact absurd (.intro htag hws) (hendless _ _ _)
    · obtain ⟨before', after', fault', heq, hbreak'⟩ := hbreak.behind_list h.list.of_false
      rw [next_of_tag h.starting hafter htag' (splitSlash_append h.list.getLast?_ne_slash w), hrest,
        heq, RawAttribute.parse_of_listBreak hbreak']
      exact ⟨_, _, rfl⟩

end Lexeme

end Markup

end MarkupQuery
