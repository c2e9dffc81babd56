import MarkupQuery.Proofs.Markup.AttributeReading
import MarkupQuery.Proofs.Markup.Forest

/-!
# Written constructs are read

The markup of each construct, wherever it stands in a text, is read as the lexeme that it stands
for, and reading goes on right behind it.
-/

namespace MarkupQuery.Markup

open Text Text.Place

variable {p q : Place} {name : String}

/-! ## Names -/

namespace IsBaseName

theorem exists_cons (h : IsBaseName name) :
    ∃ c cs, name.toList = c :: cs ∧ isNameStart c = true := by
  obtain ⟨c, hc, hstart⟩ := (Option.any_eq_true ..).1 h.start
  obtain ⟨cs, hcs⟩ := List.head?_eq_some_iff.1 hc
  exact ⟨c, cs, hcs, hstart⟩

/-- A class that holds of no character of names holds of none in a base name. -/
theorem not_mem (h : IsBaseName name) {c : Char} (hc : isNameChar c = false) : c ∉ name.toList :=
  fun hmem => by simp [h.chars c hmem] at hc

theorem skippedInTag (h : IsBaseName name) : SkippedInTag name.toList := by
  refine .of_forall fun c hc => ⟨?_, ?_⟩
  · rintro rfl
    exact h.not_mem (by decide) hc
  · rw [Bool.eq_false_iff]
    intro hquote
    rcases Bool.or_eq_true_iff.1 hquote with hquote | hquote
    · exact h.not_mem (by decide) (beq_iff_eq.1 hquote ▸ hc)
    · exact h.not_mem (by decide) (beq_iff_eq.1 hquote ▸ hc)

end IsBaseName

/-! ## Attributes -/

namespace RawAttribute

theorem valueText_escape (value : String) :
    ValueText ('"' :: Reference.escape true value.toList ++ ['"']) value := by
  have h : IsQuotable '"' (Reference.escape true value.toList) :=
    ⟨by decide, Reference.quote_not_mem_escape _, Reference.angle_not_mem_escape _ _⟩
  have hvalue := ValueText.quoted h
  rwa [Reference.decodeChars_escape, String.ofList_toList] at hvalue

/-- The markup of an attribute without the space in front is the text of the attribute. -/
theorem attributeText_write {a : RawAttribute} (ha : IsBaseName a.name) :
    AttributeText (a.name.toList ++ '=' :: '"' :: Reference.escape true a.value.toList ++ ['"'])
      a := by
  have hname : IsName a.name.toList := ⟨ha.start, ha.chars⟩
  have h := AttributeText.assigned
    (.assigned hname (s := []) (t := []) (by simp [IsBlanks]) (by simp [IsBlanks]))
    (valueText_escape a.value)
  rw [String.ofList_toList] at h
  simpa using h

/-- The markup of attributes is a list of these attributes. -/
theorem listText_write {attributes : List RawAttribute}
    (ha : ∀ a ∈ attributes, IsBaseName a.name) (first : Bool) :
    ListText first (attributes.flatMap write) attributes := by
  induction attributes generalizing first with
  | nil => exact .nil (by simp [IsBlanks])
  | cons a rest ih =>
    have hspace : IsBlanks [' '] := by simp [IsBlanks, isBlank]
    have h := ListText.cons hspace (show first = true ∨ [' '] ≠ [] from .inr (by simp))
      (attributeText_write (ha a (List.mem_cons_self ..)))
      (ih (fun b hb => ha b (List.mem_cons_of_mem _ hb)) false)
    simpa [write] using h

theorem skippedInTag_write {a : RawAttribute} (ha : IsBaseName a.name) :
    SkippedInTag a.write := by
  have hquoted := SkippedInTag.quoted (show isQuote '"' = true by decide)
    (Reference.quote_not_mem_escape a.value.toList)
  have hspace := SkippedInTag.singleton (c := ' ') (by decide) (by decide)
  have hsign := SkippedInTag.singleton (c := '=') (by decide) (by decide)
  have h := ((hspace.append ha.skippedInTag).append hsign).append hquoted
  rw [write]
  simpa using h

theorem skippedInTag_attributes {attributes : List RawAttribute}
    (ha : ∀ a ∈ attributes, IsBaseName a.name) : SkippedInTag (attributes.flatMap write) := by
  induction attributes with
  | nil => exact .nil
  | cons a rest ih =>
    rw [List.flatMap_cons]
    exact (skippedInTag_write (ha a (List.mem_cons_self ..))).append
      (ih fun b hb => ha b (List.mem_cons_of_mem _ hb))

theorem getLast?_attributes (attributes : List RawAttribute) :
    (attributes.flatMap write).getLast? ≠ some '/' := by
  rcases List.eq_nil_or_concat attributes with rfl | ⟨init, a, rfl⟩
  · simp
  · rw [List.concat_eq_append, List.flatMap_append, List.flatMap_singleton, write,
      ← List.append_assoc, List.getLast?_concat]
    simp

end RawAttribute

/-! ## Telling constructs apart -/

namespace Construct

theorem starting_text {c : Char} (hc : c ≠ '<') (cs : List Char) :
    starting (c :: cs) = .characterData := by
  simp [starting, ordered, opener, List.isPrefixOf, hc.symm]

theorem starting_startTag {c : Char} (hc : isNameStart c = true) (cs : List Char) :
    starting ('<' :: c :: cs) = .startTag := by
  have h (c' : Char) (hc' : isNameStart c' = false) : ¬ c' = c := by
    rintro rfl
    simp [hc] at hc'
  simp [starting, ordered, opener, List.isPrefixOf, h '!' (by decide), h '?' (by decide),
    h '/' (by decide)]

end Construct

/-! ## Lexemes -/

namespace Lexeme

/-- What is read at a place is the next lexeme, unless it is a document type declaration. -/
theorem next_of_read {construct : Construct} {lexeme : Lexeme} (hp : p.rest ≠ [])
    (hstarting : Construct.starting p.rest = construct)
    (hread : read construct p = (.ok lexeme, q)) :
    next p = (.ok (some lexeme), q) := by
  have hend : p.atEnd = false := by simpa [atEnd] using hp
  rw [next]
  split
  · rename_i htrue
    rw [htrue] at hend
    cases hend
  · split
    · rename_i hdoctype
      rw [hstarting] at hdoctype
      subst hdoctype
      cases hread
    · rw [hstarting, hread]

theorem next_of_rest_eq_nil (hp : p.rest = []) : next p = (.ok none, p) := by
  have hend : p.atEnd = true := by simp [atEnd, hp]
  rw [next]
  split
  · rfl
  · rename_i hfalse
    rw [hfalse] at hend
    cases hend

theorem next_text {content : String}
    (h : p.Passes (Reference.escape false content.toList) q) (hne : content ≠ "")
    (hq : q.rest = [] ∨ q.sees '<' = true) : next p = (.ok (some (.text content)), q) := by
  have hwritten : Reference.escape false content.toList ≠ [] :=
    Reference.escape_ne_nil (by simpa using hne)
  obtain ⟨c, cs, hcs⟩ := List.exists_cons_of_ne_nil hwritten
  have hangle (c' : Char) (hc' : c' ∈ Reference.escape false content.toList) : c' ≠ '<' :=
    fun hc => Reference.angle_not_mem_escape _ _ (hc ▸ hc')
  have hrest : p.rest = c :: (cs ++ q.rest) := by rw [h.rest_eq, hcs, List.cons_append]
  have hspan : (p.span fun c => c != '<') = (Reference.escape false content.toList, q) := by
    refine span_eq_iff.2 ⟨h, fun c' hc' => by simpa using hangle c' hc', ?_⟩
    rcases hq with hq | hq
    · simp [hq]
    · obtain ⟨ahead, hahead⟩ := sees_iff.1 hq
      simp [hahead]
  refine next_of_read (by simp [hrest]) ?_ (?_ : read .characterData p = _)
  · rw [hrest]
    exact Construct.starting_text (hangle c (by simp [hcs])) _
  · rw [read, readText, hspan]
    dsimp only
    rw [Reference.decodeChars_escape, String.ofList_toList]

theorem next_comment {content : String}
    (h : p.Passes (Construct.comment.opener ++ (content.toList ++ ['-', '-', '>'])) q)
    (hnot : ¬ ['-', '-', '>'] <:+: content.toList) :
    next p = (.ok (some (.comment content)), q) := by
  have hrest := h.rest_eq
  obtain ⟨stop, hcontent, hend⟩ := passes_append_iff.1 h.of_append
  refine next_of_read (by simp [hrest, Construct.opener]) ?_ (?_ : read .comment p = _)
  · rw [hrest]
    rfl
  · have hfound := upTo?_eq ['-', '-'] hcontent hend (by decide) hnot
    rw [read, readComment, show ['-', '-', '>'] = ['-', '-'] ++ ['>'] from rfl, hfound]
    dsimp only
    rw [String.ofList_toList, show stop.forward 3 = q from hend.forward_eq]

theorem next_instruction {target content : String}
    (h : p.Passes (Construct.instruction.opener ++
      (target.toList ++ (' ' :: content.toList ++ ['?', '>']))) q)
    (htarget : IsBaseName target) (hnot : ¬ ['?', '>'] <:+: content.toList)
    (hblank : content.toList.head?.any isBlank = false) :
    next p = (.ok (some (.instruction target content)), q) := by
  have hrest := h.rest_eq
  obtain ⟨afterName, hname, hbehind⟩ := passes_append_iff.1 h.of_append
  obtain ⟨stop, hcontent, hend⟩ := passes_append_iff.1 hbehind
  have hnot' : ¬ ['?'] ++ ['>'] <:+: ' ' :: content.toList := by
    intro hinfix
    rcases List.infix_cons_iff.1 hinfix with hbegins | hinfix
    · simp at hbegins
    · exact hnot hinfix
  have hdrop : (' ' :: content.toList).dropWhile isBlank = content.toList := by
    rw [List.dropWhile_cons_of_pos (by decide)]
    cases hcs : content.toList with
    | nil => rfl
    | cons c cs => exact List.dropWhile_cons_of_neg (by simpa [hcs] using hblank)
  refine next_of_read (by simp [hrest, Construct.opener]) ?_ (?_ : read .instruction p = _)
  · rw [hrest]
    rfl
  · have hfound := upTo?_eq ['?'] hcontent hend (by decide) hnot'
    rw [read, readInstruction,
      name?_eq hname htarget.start htarget.chars hcontent.sees (by decide)]
    dsimp only
    rw [show ['?', '>'] = ['?'] ++ ['>'] from rfl, hfound]
    dsimp only
    rw [if_pos (by simp [isBlank]), hdrop, String.ofList_toList,
      show stop.forward 2 = q from hend.forward_eq]

theorem next_endTag (h : p.Passes (Construct.endTag.opener ++ (name.toList ++ ['>'])) q)
    (hname : IsBaseName name) : next p = (.ok (some (.endTag name p.offset)), q) := by
  have hrest := h.rest_eq
  obtain ⟨stop, hnamed, hend⟩ := passes_append_iff.1 h.of_append
  obtain ⟨hangle, rfl⟩ := passes_singleton_iff.1 hend
  refine next_of_read (by simp [hrest, Construct.opener]) ?_ (?_ : read .endTag p = _)
  · rw [hrest]
    rfl
  · rw [read, readEndTag, name?_eq hnamed hname.start hname.chars hangle (by decide)]
    dsimp only
    rw [skipBlank_eq_self hangle (by decide), if_pos hangle]

/-- What stands between the attributes of a start tag and its end. -/
def slash (closes : Bool) : List Char :=
  if closes then ['/'] else []

theorem splitSlash_eq (attributes : List RawAttribute) (closes : Bool) :
    splitSlash (attributes.flatMap RawAttribute.write ++ slash closes) =
      (attributes.flatMap RawAttribute.write, closes) := by
  cases closes with
  | false =>
    rw [slash, if_neg (by simp), List.append_nil, splitSlash, if_neg]
    simpa using RawAttribute.getLast?_attributes attributes
  | true => simp [slash, splitSlash]

theorem exists_cons_behind_name (attributes : List RawAttribute) (closes : Bool) :
    ∃ c cs, attributes.flatMap RawAttribute.write ++ slash closes ++ ['>'] = c :: cs ∧
      isNameChar c = false := by
  cases attributes with
  | cons a rest => exact ⟨' ', _, rfl, by decide⟩
  | nil =>
    cases closes with
    | false => exact ⟨'>', _, rfl, by decide⟩
    | true => exact ⟨'/', _, rfl, by decide⟩

theorem next_startTag {attributes : List RawAttribute} {closes : Bool}
    (h : p.Passes (Construct.startTag.opener ++ (name.toList ++
      (attributes.flatMap RawAttribute.write ++ slash closes ++ ['>']))) q)
    (hname : IsBaseName name) (ha : ∀ a ∈ attributes, IsBaseName a.name) :
    ∃ afterName, next p = (.ok (some (.startTag name attributes closes afterName)), q) := by
  have hrest := h.rest_eq
  obtain ⟨c, cs, hcs, hstart⟩ := hname.exists_cons
  obtain ⟨c', cs', hcs', hnot⟩ := exists_cons_behind_name attributes closes
  obtain ⟨afterName, hnamed, hbehind⟩ := passes_append_iff.1 h.of_append
  have hc' : afterName.sees c' = true := (hcs' ▸ hbehind).sees
  obtain ⟨stop, hinner, hend⟩ := passes_append_iff.1 hbehind
  obtain ⟨hangle, rfl⟩ := passes_singleton_iff.1 hend
  have hskipped : SkippedInTag (attributes.flatMap RawAttribute.write ++ slash closes) := by
    refine (RawAttribute.skippedInTag_attributes ha).append ?_
    cases closes with
    | false => exact .nil
    | true => exact .singleton (by decide) (by decide)
  refine ⟨afterName, next_of_read (by simp [hrest, Construct.opener]) ?_
    (?_ : read .startTag p = _)⟩
  · rw [hrest, hcs]
    exact Construct.starting_startTag hstart _
  · rw [read, readStartTag, name?_eq hnamed hname.start hname.chars hc' hnot]
    dsimp only
    rw [upToTagEnd?_eq hinner hangle hskipped]
    dsimp only
    rw [splitSlash_eq]
    dsimp only
    rw [RawAttribute.parse_of_listText (RawAttribute.listText_write ha true)]

end Lexeme

end MarkupQuery.Markup
