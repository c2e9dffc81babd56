import Mathlib.Data.List.Forall2
import Mathlib.Data.List.TakeWhile
import MarkupQuery.Proofs.Markup.Calls
import MarkupQuery.Proofs.Markup.ScopeStack

/-!
# Names are resolved lexically

What a name stands for is told by the tags that enclose it: `Expands` says it of a name, given the
attributes of the open elements, innermost first, as they are written.

A reader keeps scopes in place of these attributes. In `Reader.Tracks` they are the stack of scopes
that the open elements declare; a call keeps this (`Tracks.step`), and so do all (`tracks_after`),
as long as there are not more open elements than the scopes can count. The main statement,
`Reader.names_of_given`, says it of every start tag that a call gives.
-/

namespace MarkupQuery.Markup

open Text Bracketed

/-! ## What a name stands for -/

/-- A name is split at its first colon, with something on both sides. -/
structure IsSplit (name label base : String) : Prop where
  name_eq : name = label ++ ":" ++ base
  colon_not_mem : ':' ∉ label.toList
  label_ne : label ≠ ""
  base_ne : base ≠ ""

/-- An attribute declares a label: the rest of its name behind `xmlns:`, or the empty label by
`xmlns`. -/
def RawAttribute.Declares (a : RawAttribute) (label : String) : Prop :=
  a.name = "xmlns:" ++ label ∨ a.name = "xmlns" ∧ label = ""

instance (a : RawAttribute) (label : String) : Decidable (a.Declares label) :=
  inferInstanceAs (Decidable (_ ∨ _))

/-- The value of the last attribute that declares a label. -/
def declaration? (label : String) (attributes : List RawAttribute) : Option String :=
  (attributes.reverse.find? fun a => a.Declares label).map RawAttribute.value

/-- The declaration of a label in the innermost element that has one. -/
def nearest? (label : String) (enclosing : List (List RawAttribute)) : Option String :=
  enclosing.findSome? (declaration? label)

/-- The namespace for which a label stands in elements with these attributes, innermost first. -/
inductive StandsFor (enclosing : List (List RawAttribute)) : String → String → Prop
  /-- One label is always bound. -/
  | xml : StandsFor enclosing "xml" Scopes.xmlUri
  /-- The nearest declaration counts, even if its value is empty. -/
  | declared {label uri : String} (ne_xml : label ≠ "xml") (ne_xmlns : label ≠ "xmlns")
    (nearest : nearest? label enclosing = some uri) : StandsFor enclosing label uri
  /-- A label that is not declared, or cannot be, stands for itself. -/
  | verbatim {label : String} (ne_xml : label ≠ "xml")
    (free : nearest? label enclosing = none ∨ label = "xmlns") : StandsFor enclosing label label

/-- The expanded form of a name; `space` is the namespace of names without a label. -/
inductive Expands (enclosing : List (List RawAttribute)) (space : Option String) :
    String → ExpandedName → Prop
  /-- A name with a label is in the namespace for which this stands. -/
  | labelled {name label base uri : String} (split : IsSplit name label base)
    (stands : StandsFor enclosing label uri) : Expands enclosing space name ⟨some uri, base⟩
  /-- A name without a label is kept whole. -/
  | whole {name : String} (not_split : ∀ label base, ¬ IsSplit name label base) :
    Expands enclosing space name ⟨space, name⟩

/-- The namespace of elements without a label: the nearest default, unless it is empty. -/
def defaultSpace? (enclosing : List (List RawAttribute)) : Option String :=
  (nearest? "" enclosing).filter (· ≠ "")

variable {name label base uri : String} {attributes : List RawAttribute}
  {enclosing : List (List RawAttribute)}

/-! ## Splitting names -/

theorem splitLabel_of_isSplit (h : IsSplit name label base) :
    splitLabel name = (some label, base) := by
  have hlabel : ∀ c ∈ label.toList, (c != ':') = true := by
    intro c hc
    simpa using fun heq : c = ':' => h.colon_not_mem (heq ▸ hc)
  have hname : name.toList = label.toList ++ ':' :: base.toList := by
    rw [h.name_eq]
    simp
  rw [splitLabel, hname, List.takeWhile_append_of_pos hlabel, List.dropWhile_append_of_pos hlabel]
  simp [h.label_ne, h.base_ne]

theorem isSplit_of_splitLabel (h : splitLabel name = (some label, base)) :
    IsSplit name label base := by
  rw [splitLabel] at h
  split at h
  · cases h
  · rename_i hne
    obtain ⟨rfl, rfl⟩ : String.ofList (name.toList.takeWhile (· != ':')) = label ∧
        String.ofList (name.toList.dropWhile (· != ':')).tail = base := by simpa using h
    obtain ⟨c, rest, hdrop⟩ : ∃ c rest, name.toList.dropWhile (· != ':') = c :: rest :=
      List.exists_cons_of_ne_nil fun hnil => hne (by simp [hnil])
    have hc : c = ':' := by
      have := List.head?_dropWhile_not (· != ':') name.toList
      simpa [hdrop] using this
    have hname : name.toList = name.toList.takeWhile (· != ':') ++ ':' :: rest := by
      rw [hc] at hdrop
      rw [← hdrop, List.takeWhile_append_dropWhile]
    rw [hdrop, List.tail_cons] at hne ⊢
    refine ⟨?_, ?_, ?_, ?_⟩
    · rw [← String.toList_inj]
      simpa using hname
    · intro hmem
      rw [String.toList_ofList] at hmem
      simpa using List.mem_takeWhile_imp hmem
    · intro hnil
      exact hne (by simp [String.ofList_eq_empty_iff.1 hnil])
    · intro hnil
      exact hne (by simp [String.ofList_eq_empty_iff.1 hnil])

theorem whole_of_splitLabel (h : splitLabel name = (none, base)) :
    base = name ∧ ∀ label base, ¬ IsSplit name label base := by
  refine ⟨?_, fun label base hsplit => ?_⟩
  · rw [splitLabel] at h
    split at h
    · exact (Prod.mk.inj h).2.symm
    · cases h
  · rw [splitLabel_of_isSplit hsplit] at h
    cases h

/-! ## Declarations -/

theorem declared?_eq_some_iff {a : RawAttribute} :
    Scopes.declared? a.name = some label ↔ a.Declares label := by
  have hprefixed : a.name = "xmlns:" ++ label ↔
      ['x', 'm', 'l', 'n', 's', ':'] ++ label.toList = a.name.toList := by
    rw [← String.toList_inj, String.toList_append]
    exact eq_comm
  rw [Scopes.declared?, RawAttribute.Declares, hprefixed]
  split
  · rename_i h
    have hname : a.name = "xmlns" := by simpa using h
    have hne : ['x', 'm', 'l', 'n', 's', ':'] ++ label.toList ≠ a.name.toList := by
      simp [hname]
    simp only [hname, true_and, Option.some.injEq, eq_comm (a := label)]
    exact (or_iff_right (hname ▸ hne)).symm
  · rename_i h
    have hname : a.name ≠ "xmlns" := by simpa using h
    split
    · rename_i hbegins
      obtain ⟨rest, hrest⟩ := List.isPrefixOf_iff_prefix.1 hbegins
      rw [← hrest, or_iff_left fun h => hname h.1, List.append_cancel_left_eq, Option.some.injEq,
        ← String.toList_inj, String.toList_ofList, eq_comm]
      rfl
    · rename_i hbegins
      rw [List.isPrefixOf_iff_prefix] at hbegins
      refine ⟨nofun, ?_⟩
      rintro (heq | ⟨heq, -⟩)
      · exact absurd ⟨_, heq⟩ hbegins
      · exact absurd heq hname

/-- What an attribute declares, if it declares a label that can be bound. -/
def RawAttribute.binding? (a : RawAttribute) : Option (String × String) :=
  match Scopes.declared? a.name with
  | some label => if Scopes.isFixed label then none else some (label, a.value)
  | none => none

/-- The declarations among the attributes of a tag, latest first. -/
def declarations (attributes : List RawAttribute) : List (String × String) :=
  attributes.reverse.filterMap RawAttribute.binding?

theorem RawAttribute.binding?_eq_some_iff {a : RawAttribute} :
    a.binding? = some (label, uri) ↔
      a.Declares label ∧ Scopes.isFixed label = false ∧ a.value = uri := by
  rw [binding?, ← declared?_eq_some_iff]
  cases hdeclared : Scopes.declared? a.name with
  | none => simp
  | some declared =>
    dsimp only
    by_cases hfixed : Scopes.isFixed declared
    · rw [if_pos hfixed]
      refine ⟨nofun, ?_⟩
      rintro ⟨heq, hfree, -⟩
      rw [← Option.some.inj heq, hfixed] at hfree
      cases hfree
    · rw [if_neg hfixed]
      constructor
      · rintro ⟨⟩
        exact ⟨rfl, by simpa using hfixed, rfl⟩
      · rintro ⟨⟨⟩, -, rfl⟩
        rfl

/-- A label that can be bound is looked up in the declarations as among the attributes. -/
theorem lookup_filterMap_binding? (hfree : Scopes.isFixed label = false)
    (attributes : List RawAttribute) :
    (attributes.filterMap RawAttribute.binding?).lookup label =
      (attributes.find? fun a => a.Declares label).map RawAttribute.value := by
  induction attributes with
  | nil => rfl
  | cons a attributes ih =>
    rw [List.find?_cons]
    by_cases ha : a.Declares label
    · have hbinding := RawAttribute.binding?_eq_some_iff.2 ⟨ha, hfree, rfl⟩
      rw [List.filterMap_cons_some hbinding, List.lookup_cons, beq_self_eq_true]
      simp [ha]
    · rw [decide_eq_false ha, ← ih]
      cases hbinding : a.binding? with
      | none => rw [List.filterMap_cons_none hbinding]
      | some d =>
        have hne : label ≠ d.1 := by
          rintro rfl
          exact ha (RawAttribute.binding?_eq_some_iff.1 hbinding).1
        rw [List.filterMap_cons_some hbinding, List.lookup_cons, beq_false_of_ne hne]

theorem lookup_declarations (hfree : Scopes.isFixed label = false)
    (attributes : List RawAttribute) :
    (declarations attributes).lookup label = declaration? label attributes :=
  lookup_filterMap_binding? hfree attributes.reverse

theorem lookup_declarations_of_fixed (hfixed : Scopes.isFixed label = true)
    (attributes : List RawAttribute) : (declarations attributes).lookup label = none := by
  rw [List.lookup_eq_none_iff]
  rintro ⟨declared, uri⟩ hd
  obtain ⟨a, -, ha⟩ := List.mem_filterMap.1 hd
  have hfree := (RawAttribute.binding?_eq_some_iff.1 ha).2.1
  rw [bne_iff_ne]
  rintro rfl
  rw [hfixed] at hfree
  cases hfree

/-! ## The scopes of elements -/

/-- The scopes of elements with these attributes, innermost first. -/
def scopesOf (enclosing : List (List RawAttribute)) : ScopeStack :=
  ⟨enclosing.map declarations, []⟩

theorem sparesXml_scopesOf (enclosing : List (List RawAttribute)) :
    (scopesOf enclosing).SparesXml where
  inner := by
    intro scope hscope
    obtain ⟨attributes, -, rfl⟩ := List.mem_map.1 hscope
    exact lookup_declarations_of_fixed rfl attributes
  outermost := rfl

theorem resolve?_scopesOf (enclosing : List (List RawAttribute)) (label : String) :
    (scopesOf enclosing).flatten.resolve? label =
      if label = "xml" then some Scopes.xmlUri
      else enclosing.findSome? fun attributes => (declarations attributes).lookup label := by
  rw [ScopeStack.resolve?_flatten (sparesXml_scopesOf enclosing), ScopeStack.resolve?, scopesOf,
    List.findSome?_append, List.findSome?_map]
  exact congrArg _ Option.or_none

/-- A label that can be bound stands for its nearest declaration. -/
theorem resolve?_scopesOf_of_free (hfree : Scopes.isFixed label = false)
    (enclosing : List (List RawAttribute)) :
    (scopesOf enclosing).flatten.resolve? label = nearest? label enclosing := by
  have hne : label ≠ "xml" := by
    rintro rfl
    cases hfree
  rw [resolve?_scopesOf, if_neg hne, nearest?, funext (lookup_declarations hfree)]

theorem resolve?_scopesOf_xmlns (enclosing : List (List RawAttribute)) :
    (scopesOf enclosing).flatten.resolve? "xmlns" = none := by
  rw [resolve?_scopesOf, if_neg (by decide), List.findSome?_eq_none_iff]
  exact fun attributes _ => lookup_declarations_of_fixed rfl attributes

theorem standsFor_spaceOf (enclosing : List (List RawAttribute)) (label : String) :
    StandsFor enclosing label ((scopesOf enclosing).flatten.spaceOf label) := by
  rw [Scopes.spaceOf]
  by_cases hxml : label = "xml"
  · rw [resolve?_scopesOf, if_pos hxml, hxml]
    exact .xml
  · by_cases hxmlns : label = "xmlns"
    · rw [hxmlns, resolve?_scopesOf_xmlns]
      exact .verbatim (by decide) (.inr rfl)
    · rw [resolve?_scopesOf_of_free (by simp [Scopes.isFixed, hxml, hxmlns])]
      cases hnearest : nearest? label enclosing with
      | none => exact .verbatim hxml (.inl hnearest)
      | some uri => exact .declared hxml hxmlns hnearest

theorem default?_scopesOf (enclosing : List (List RawAttribute)) :
    (scopesOf enclosing).flatten.default? = defaultSpace? enclosing := by
  rw [Scopes.default?, resolve?_scopesOf_of_free rfl, defaultSpace?]
  congr 1
  funext uri
  by_cases h : uri = "" <;> simp [h]

/-- Names of elements and of attributes are expanded alike, apart from those without a label. -/
theorem expands_splitLabel (enclosing : List (List RawAttribute)) (space : Option String)
    (name : String) :
    Expands enclosing space name
      (match splitLabel name with
      | (some label, base) => ⟨some ((scopesOf enclosing).flatten.spaceOf label), base⟩
      | (none, base) => ⟨space, base⟩) := by
  split
  · rename_i hsplit
    exact .labelled (isSplit_of_splitLabel hsplit) (standsFor_spaceOf ..)
  · rename_i hsplit
    obtain ⟨rfl, hnot⟩ := whole_of_splitLabel hsplit
    exact .whole hnot

theorem expands_elementName (enclosing : List (List RawAttribute)) (name : String) :
    Expands enclosing (defaultSpace? enclosing) name
      ((scopesOf enclosing).flatten.elementName name) := by
  rw [← default?_scopesOf]
  exact expands_splitLabel ..

theorem expands_attributeName (enclosing : List (List RawAttribute)) (name : String) :
    Expands enclosing none name ((scopesOf enclosing).flatten.attributeName name) :=
  expands_splitLabel ..

/-! ## Opening elements -/

theorem declarations_cons (a : RawAttribute) (attributes : List RawAttribute) :
    declarations (a :: attributes) = declarations attributes ++ a.binding?.toList := by
  rw [declarations, List.reverse_cons, List.filterMap_append, ← declarations]
  cases h : a.binding? <;> simp [h]

theorem flatten_declareAll (scope : List (String × String)) (outer : List (List (String × String)))
    (outermost : List (String × String)) (attributes : List RawAttribute) :
    (⟨scope :: outer, outermost⟩ : ScopeStack).flatten.declareAll attributes =
      (⟨(declarations attributes ++ scope) :: outer, outermost⟩ : ScopeStack).flatten := by
  induction attributes generalizing scope with
  | nil => rfl
  | cons a attributes ih =>
    have hfirst : (match Scopes.declared? a.name with
        | some label =>
          (⟨scope :: outer, outermost⟩ : ScopeStack).flatten.declare label a.value
        | none => (⟨scope :: outer, outermost⟩ : ScopeStack).flatten) =
        (⟨(a.binding?.toList ++ scope) :: outer, outermost⟩ : ScopeStack).flatten := by
      rw [RawAttribute.binding?]
      cases Scopes.declared? a.name with
      | none => rfl
      | some label =>
        dsimp only
        rw [← ScopeStack.flatten_declare, ScopeStack.declare]
        split <;> rfl
    rw [declarations_cons, List.append_assoc, ← ih, ← hfirst]
    rfl

/-- Opening an element adds its attributes to those of the elements that are open. -/
theorem flatten_scopesOf_cons {enclosing : List (List RawAttribute)}
    (h : enclosing.length < Scopes.maxDepth) (attributes : List RawAttribute) :
    (scopesOf enclosing).flatten.enter.declareAll attributes =
      (scopesOf (attributes :: enclosing)).flatten := by
  have hlength : (scopesOf enclosing).inner.length < Scopes.maxDepth := by
    rwa [scopesOf, List.length_map]
  rw [← ScopeStack.flatten_enter hlength, ScopeStack.enter, flatten_declareAll, List.append_nil]
  rfl

theorem flatten_scopesOf_tail (enclosing : List (List RawAttribute)) :
    (scopesOf enclosing).flatten.leave = (scopesOf enclosing.tail).flatten := by
  rw [← ScopeStack.flatten_leave, ScopeStack.leave, scopesOf, scopesOf, List.map_tail]

/-! ## Readers -/

namespace Reader

/-- The attributes of the elements that are open after some tokens, innermost first. -/
def openAttributes (given : List Given) : List (List RawAttribute) :=
  (unclosed given).map Given.attributes

/-- A reader has the scopes of the elements that are open after the tokens that it has given. -/
structure Tracks (r : Reader) (given : List Given) : Prop where
  scopes : r.scopes = (scopesOf (openAttributes given)).flatten
  openTags : r.openTags.length = (unclosed given).length

variable {r r' : Reader} {given : List Given} {token : Option Token}

theorem tracks_start (strict : Bool) (text : String) : (start strict text).Tracks [] :=
  ⟨rfl, rfl⟩

theorem Tracks.closeElement (h : r.Tracks given) :
    r.closeElement.scopes = (scopesOf (openAttributes given).tail).flatten := by
  have hscopes := h.scopes
  rw [Reader.closeElement]
  split
  · -- an end tag too many: nothing is open, and nothing is left
    rename_i hopen
    have hnone : unclosed given = [] := by
      rw [← List.length_eq_zero_iff, ← h.openTags, hopen]
      rfl
    rw [openAttributes, hnone] at hscopes ⊢
    exact hscopes
  · exact (congrArg Scopes.leave hscopes).trans (flatten_scopesOf_tail _)

theorem Tracks.openElement (h : r.Tracks given) (hdepth : (unclosed given).length < Scopes.maxDepth)
    (name : String) (attributes : List RawAttribute) :
    (r.openElement name attributes).scopes =
      (scopesOf (attributes :: openAttributes given)).flatten := by
  have hlength : (openAttributes given).length < Scopes.maxDepth := by
    rwa [openAttributes, List.length_map]
  rw [← flatten_scopesOf_cons hlength, ← h.scopes]
  rfl

/-- A step keeps the scopes those of the open elements. -/
theorem Tracks.step (h : r.Tracks given) (hstep : Step r token r')
    (hdepth : DepthLe Scopes.maxDepth (given ++ r.noted token)) :
    r'.Tracks (given ++ r.noted token) := by
  cases hstep with
  | quiet neither scopes openTags =>
    cases token with
    | none =>
      rw [noted, List.append_nil]
      exact ⟨scopes.trans h.scopes, openTags ▸ h.openTags⟩
    | some t =>
      have hunclosed : unclosed (given ++ r.noted (some t)) = unclosed given :=
        unclosed_concat_neither (a := (⟨t, r.attributesAhead⟩ : Given)) (neither t rfl) given
      exact ⟨by rw [openAttributes, hunclosed, scopes, h.scopes, openAttributes],
        by rw [hunclosed, openTags, h.openTags]⟩
  | @opens _ name attributes closes afterName place ahead scopes openTags =>
    have hattributes : r.attributesAhead = attributes := by
      rw [attributesAhead, ahead]
      rfl
    have hunclosed : unclosed (given ++ r.noted (some (startToken r'.scopes name attributes))) =
        ⟨startToken r'.scopes name attributes, r.attributesAhead⟩ :: unclosed given :=
      unclosed_concat_opening rfl given
    -- the counter still reaches the element that opens, which is open from here on
    have hlength := hdepth.length_le
    rw [hunclosed, List.length_cons] at hlength
    refine ⟨?_, by rw [hunclosed, openTags, List.length_cons, List.length_cons, h.openTags]⟩
    rw [openAttributes, hunclosed, List.map_cons, hattributes, scopes]
    exact h.openElement hlength name attributes
  | closes scopes openTags =>
    have hunclosed : unclosed (given ++ r.noted (some .endTag)) = (unclosed given).tail :=
      unclosed_concat_closing rfl given
    refine ⟨?_, ?_⟩
    · rw [scopes, h.closeElement, openAttributes, openAttributes, hunclosed, List.map_tail]
    · rw [hunclosed, openTags, openTags_closeElement, List.length_tail, List.length_tail,
        h.openTags]

theorem tracks_after (strict : Bool) (text : String) {calls : List Call}
    (hdepth : DepthLe Scopes.maxDepth ((start strict text).given calls)) :
    ((start strict text).after calls).Tracks ((start strict text).given calls) := by
  induction calls using List.reverseRecOn with
  | nil => exact tracks_start strict text
  | append_singleton calls call ih =>
    rw [given_concat] at hdepth ⊢
    rw [after_concat]
    exact (ih hdepth.of_append).step (step_deliver _ call) hdepth

/-- **Names are resolved lexically.** Every start tag that a call gives is the one at which the
reader stands, and its names are expanded in the elements that are open, of which it is the
innermost: those whose end tags have not been given, be it that they stand in the text or are
owed. -/
theorem names_of_given (strict : Bool) (text : String) (calls : List Call) (call : Call)
    (hdepth : DepthLe Scopes.maxDepth ((start strict text).given (calls ++ [call])))
    {expanded : ExpandedName} {attributes : List Attribute}
    (htag : (((start strict text).after calls).deliver call).1 =
      some (.startTag expanded attributes)) :
    ∃ name written closes afterName place,
      Lexeme.next ((start strict text).after calls).place =
        (.ok (some (.startTag name written closes afterName)), place) ∧
      let enclosing := written :: openAttributes ((start strict text).given calls)
      Expands enclosing (defaultSpace? enclosing) name expanded ∧
      List.Forall₂ (fun a b => Expands enclosing none a.name b.name ∧ b.value = a.value)
        written attributes := by
  rw [given_concat] at hdepth
  have htracks := tracks_after strict text hdepth.of_append
  have hstep := step_deliver ((start strict text).after calls) call
  rw [htag] at hstep
  have hstart : bracket (Token.startTag expanded attributes) = .opening := rfl
  generalize hgiven : some (Token.startTag expanded attributes) = token at hstep
  cases hstep with
  | quiet neither => exact absurd (neither _ hgiven.symm) (by rw [hstart]; decide)
  | closes => cases hgiven
  | @opens _ name written closes afterName place ahead scopes =>
    obtain ⟨rfl, rfl⟩ := Token.startTag.inj (Option.some.inj hgiven)
    have hlength := hdepth.length_le
    rw [htag, noted, unclosed_concat_opening rfl, List.length_cons] at hlength
    have hopened := htracks.openElement hlength name written
    have hscopes : (((start strict text).after calls).deliver call).2.scopes =
        (scopesOf (written :: openAttributes ((start strict text).given calls))).flatten :=
      scopes.trans hopened
    refine ⟨name, written, closes, afterName, place, ahead, ?_, ?_⟩
    · rw [hscopes]
      exact expands_elementName ..
    · rw [hscopes, List.forall₂_map_right_iff]
      exact List.forall₂_same.2 fun a _ => ⟨expands_attributeName .., rfl⟩

/-- An element that declares a default and a label, and in it one that declares the label again and
closes itself, and one with names of all kinds. -/
def sampleTags : String :=
  "<r xmlns='d' xmlns:p='u'><b xmlns:p='v'/><p:c xmlns='' xml:l='1' q:m='2' n='3'>"

theorem names_of_sampleTags :
    let r := (start true sampleTags).after [.next, .read, .next]
    let expanded : ExpandedName := ⟨some "u", "c"⟩
    let attributes : List Attribute := [⟨⟨none, "xmlns"⟩, ""⟩, ⟨⟨some Scopes.xmlUri, "l"⟩, "1"⟩,
      ⟨⟨some "q", "m"⟩, "2"⟩, ⟨⟨none, "n"⟩, "3"⟩]
    (r.deliver .next).1 = some (.startTag expanded attributes) ∧
    ∃ name written closes afterName place,
      Lexeme.next r.place = (.ok (some (.startTag name written closes afterName)), place) ∧
      let enclosing :=
        written :: openAttributes ((start true sampleTags).given [.next, .read, .next])
      Expands enclosing (defaultSpace? enclosing) name expanded ∧
      List.Forall₂ (fun a b => Expands enclosing none a.name b.name ∧ b.value = a.value)
        written attributes := by
  have htag : (((start true sampleTags).after [.next, .read, .next]).deliver .next).1 =
      some (.startTag ⟨some "u", "c"⟩ [⟨⟨none, "xmlns"⟩, ""⟩, ⟨⟨some Scopes.xmlUri, "l"⟩, "1"⟩,
        ⟨⟨some "q", "m"⟩, "2"⟩, ⟨⟨none, "n"⟩, "3"⟩]) := by
    decide +kernel
  have hdepth : DepthLe Scopes.maxDepth
      ((start true sampleTags).given ([.next, .read, .next] ++ [.next])) :=
    depthLe_of_length_le (Nat.le_trans (length_given_le ..) (by decide))
  exact ⟨htag, names_of_given true sampleTags [.next, .read, .next] .next hdepth htag⟩

end Reader

end MarkupQuery.Markup
