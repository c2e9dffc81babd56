import MarkupQuery.Proofs.Markup.LexicalNames
import MarkupQuery.Proofs.Markup.Strictness
import MarkupQuery.Proofs.Markup.TagTexts

/-!
# Attributes that declare nothing

Two texts are compared that differ in one attribute of one start tag. `Addition longer shorter` says
where in the first text this attribute stands: behind lexemes that are read one after the other, in
a tag, behind other attributes, and set apart from what comes then. All tags of which items come are
reached in this way, since an error ends the items.

The lexemes in front of the tag are the same in both texts, apart from places
(`Lexeme.Reaches.local`), and those behind it are, too, with the bytes of the attribute less in
front of them (`Lexeme.all_moved`). If the attribute declares no label, the scopes behind the tag
are the same as well. So a lenient reader gives the same for both, but for this attribute
(`Reader.items_of_addition`).

The name `xmlns:` does declare a label, the empty one, though it has none in the sense in which
names are split.
-/

namespace MarkupQuery.Markup

open Text Text.Place
open RawAttribute (IsName ListText Apart)
open String (ofList)

variable {text longer shorter : String} {lexemes : List Lexeme} {p : Place} {a : RawAttribute}

/-! ## Scopes -/

theorem RawAttribute.declared?_eq_none_iff :
    Scopes.declared? a.name = none ↔ ∀ label, ¬ a.Declares label := by
  simp only [Option.eq_none_iff_forall_ne_some, ne_eq, declared?_eq_some_iff]

/-- An attribute that declares nothing leaves the scopes as they are. -/
theorem Scopes.declareAll_of_undeclared (s : Scopes) (h : ∀ label, ¬ a.Declares label)
    (us ws : List RawAttribute) : s.declareAll (us ++ a :: ws) = s.declareAll (us ++ ws) := by
  rw [declareAll, declareAll, List.foldl_append, List.foldl_append, List.foldl_cons,
    RawAttribute.declared?_eq_none_iff.2 h]

namespace Reader

/-! ## Lexemes without places -/

theorem taken_unplaced (r : Reader) (lexeme : Lexeme) :
    r.taken lexeme.unplaced = r.taken lexeme := by
  cases lexeme <;> rfl

theorem pieces_map_unplaced (r : Reader) (lexemes : List Lexeme) :
    r.pieces (lexemes.map Lexeme.unplaced) = r.pieces lexemes := by
  induction lexemes generalizing r with
  | nil => rfl
  | cons lexeme rest ih => rw [List.map_cons, pieces, pieces, taken_unplaced, ih]

theorem pieces_map_moved (r : Reader) (n : Nat) (lexemes : List Lexeme) :
    r.pieces (lexemes.map (Lexeme.moved n)) = r.pieces lexemes := by
  rw [← pieces_map_unplaced, List.map_map, ← pieces_map_unplaced r lexemes]
  exact congrArg r.pieces (List.map_congr_left fun lexeme _ => lexeme.unplaced_moved n)

theorem behind_map_unplaced (r : Reader) (lexemes : List Lexeme) :
    r.behind (lexemes.map Lexeme.unplaced) = r.behind lexemes := by
  rw [behind, behind, List.foldl_map]
  simp only [taken_unplaced]

theorem pieces_place (r : Reader) (q : Place) (lexemes : List Lexeme) :
    { r with place := q }.pieces lexemes = r.pieces lexemes := by
  induction lexemes generalizing r with
  | nil => rfl
  | cons lexeme rest ih => rw [pieces, pieces, taken_place, ih]

theorem pieces_behind_place (r : Reader) (q : Place) (before rest : List Lexeme) :
    ({ r with place := q }.behind before).pieces rest = (r.behind before).pieces rest := by
  induction before generalizing r with
  | nil => exact pieces_place r q rest
  | cons lexeme before ih =>
    rw [behind, behind, List.foldl_cons, List.foldl_cons, taken_place]
    exact ih _

/-! ## Items behind lexemes -/

/-- The items of a text are what the lexemes up to a place give, and what comes of the lexemes from
there. -/
theorem items_of_reaches (h : Lexeme.Reaches (Place.start text) lexemes p) :
    (start false text).items =
      (((start false text).pieces lexemes).flatten ++
        (((start false text).behind lexemes).pieces (Lexeme.all p).1).flatten).map .ok ++
        (Lexeme.all p).2.toList.map .error := by
  have hall := h.all_eq
  rw [items_lenient, Lexeme.ofText, Lexeme.failure?, hall, pieces_append, List.flatten_append]

theorem taken_startTag (r : Reader) (name : String) (attributes : List RawAttribute)
    (closes : Bool) (p : Place) : r.taken (.startTag name attributes closes p) =
      (startToken (r.openElement name attributes).scopes name attributes ::
        if closes then [.endTag] else [],
      if closes then (r.openElement name attributes).closeElement
      else r.openElement name attributes) := by
  cases closes <;> rfl

/-- An attribute that declares nothing is added to its tag, and that is all. -/
theorem taken_of_undeclared (r : Reader) (h : ∀ label, ¬ a.Declares label) (name : String)
    (us ws : List RawAttribute) (closes : Bool) :
    ∃ (element : ExpandedName) (xs : List Attribute) (x : Attribute) (ys : List Attribute)
      (rest : List Token) (r' : Reader),
      (∀ p, r.taken (.startTag name (us ++ a :: ws) closes p) =
        (.startTag element (xs ++ x :: ys) :: rest, r')) ∧
      (∀ p, r.taken (.startTag name (us ++ ws) closes p) =
        (.startTag element (xs ++ ys) :: rest, r')) ∧
      xs.length = us.length ∧ ∃ scopes : Scopes, x = ⟨scopes.attributeName a.name, a.value⟩ := by
  have hopened : r.openElement name (us ++ a :: ws) = r.openElement name (us ++ ws) := by
    rw [openElement, openElement, Scopes.declareAll_of_undeclared _ h]
  let opened := r.openElement name (us ++ ws)
  let expanded (a : RawAttribute) : Attribute := ⟨opened.scopes.attributeName a.name, a.value⟩
  refine ⟨opened.scopes.elementName name, us.map expanded, expanded a, ws.map expanded,
    if closes then [.endTag] else [], if closes then opened.closeElement else opened,
    fun p => ?_, fun p => ?_, List.length_map .., opened.scopes, rfl⟩
  · rw [taken_startTag, hopened, startToken, List.map_append, List.map_cons]
  · rw [taken_startTag, startToken, List.map_append]

end Reader

/-! ## Texts with an attribute more -/

/-- The text `longer` is `shorter` with one attribute more in one start tag. -/
structure Addition (longer shorter : String) where
  /-- The text in front of the tag, in which `lexemes` are read. -/
  front : List Char
  /-- What is read in front of the tag. -/
  lexemes : List Lexeme
  /-- The name of the element. -/
  name : List Char
  /-- The text of the attributes in front of the additional one. -/
  list : List Char
  /-- The text that is added. -/
  added : List Char
  /-- All that comes behind: maybe further attributes, the end of the tag, and further lexemes. -/
  back : List Char
  /-- The attributes in front of the additional one. -/
  before : List RawAttribute
  /-- The additional attribute. -/
  extra : RawAttribute
  longer_eq : longer.toList = front ++ '<' :: (name ++ (list ++ added) ++ back)
  shorter_eq : shorter.toList = front ++ '<' :: (name ++ list ++ back)
  reaches : Lexeme.Reaches (Place.start longer) lexemes
    ⟨byteLength front, '<' :: (name ++ (list ++ added) ++ back)⟩
  isName : IsName name
  list_text : ListText false list before
  added_text : ListText false (list ++ added) (before ++ [extra])
  apart : Apart list back
  added_apart : Apart (list ++ added) back

namespace Addition

open Lexeme (Begins Ends)

/-- The tokens that a lenient reader gives in front of the tag. -/
def given (d : Addition longer shorter) : List Token :=
  ((Reader.start false longer).pieces d.lexemes).flatten

/-- The reader in front of the tag. -/
def reader (d : Addition longer shorter) : Reader :=
  (Reader.start false longer).behind d.lexemes

/-- Where the tag begins in the longer text. -/
def longerTag (d : Addition longer shorter) : Place :=
  ⟨byteLength d.front, '<' :: (d.name ++ (d.list ++ d.added) ++ d.back)⟩

/-- Where the tag begins in the shorter text. -/
def shorterTag (d : Addition longer shorter) : Place :=
  ⟨byteLength d.front, '<' :: (d.name ++ d.list ++ d.back)⟩

/-- Where the attribute is missing in the shorter text. -/
def gap (d : Addition longer shorter) : Place :=
  ⟨byteLength d.front + byteLength ('<' :: (d.name ++ d.list)), d.back⟩

theorem begins_longer (d : Addition longer shorter) :
    Begins d.longerTag d.name (d.list ++ d.added) (d.before ++ [d.extra])
      (d.gap.moved (byteLength d.added)) where
  passes := ⟨rfl, by
    simp only [longerTag, gap, offset_moved, byteLength_cons, byteLength_append]
    omega⟩
  isName := d.isName
  list := d.added_text
  apart := d.added_apart

theorem begins_shorter (d : Addition longer shorter) :
    Begins d.shorterTag d.name d.list d.before d.gap :=
  ⟨passes_of_rest_eq rfl, d.isName, d.list_text, d.apart⟩

/-- In the shorter text the same lexemes lead to the tag. -/
theorem exists_reaches (d : Addition longer shorter) : ∃ lexemes,
    Lexeme.Reaches (Place.start shorter) lexemes d.shorterTag ∧
      lexemes.map Lexeme.unplaced = d.lexemes.map Lexeme.unplaced := by
  obtain ⟨cs, hcs, hlocal⟩ := d.reaches.local rfl
  obtain rfl : cs = d.front :=
    List.append_cancel_right (hcs.rest_eq.symm.trans d.longer_eq)
  exact hlocal (Place.start shorter) _ _ ⟨d.shorter_eq, (Nat.zero_add _).symm⟩ rfl

theorem items_longer (d : Addition longer shorter) :
    (Reader.start false longer).items =
      (d.given ++ (d.reader.pieces (Lexeme.all d.longerTag).1).flatten).map .ok ++
        (Lexeme.all d.longerTag).2.toList.map .error :=
  Reader.items_of_reaches d.reaches

/-- In front of the tag, the reader of the shorter text is the same but for its place. -/
theorem items_shorter (d : Addition longer shorter) :
    (Reader.start false shorter).items =
      (d.given ++ (d.reader.pieces (Lexeme.all d.shorterTag).1).flatten).map .ok ++
        (Lexeme.all d.shorterTag).2.toList.map .error := by
  obtain ⟨lexemes, hreaches, hsame⟩ := d.exists_reaches
  have hgiven : (Reader.start false shorter).pieces lexemes =
      (Reader.start false longer).pieces d.lexemes := by
    rw [← Reader.pieces_map_unplaced, hsame, Reader.pieces_map_unplaced]
    exact Reader.pieces_place (Reader.start false longer) (Place.start shorter) d.lexemes
  have hbehind (rest : List Lexeme) :
      ((Reader.start false shorter).behind lexemes).pieces rest = d.reader.pieces rest := by
    rw [← Reader.behind_map_unplaced, hsame, Reader.behind_map_unplaced]
    exact Reader.pieces_behind_place (Reader.start false longer) (Place.start shorter) d.lexemes
      rest
  rw [Reader.items_of_reaches hreaches, hgiven, hbehind, given]

/-- If the tag does not end, both texts end in an error there. -/
theorem items_of_endless (d : Addition longer shorter)
    (hendless : ∀ ws closes r, ¬ Ends d.gap ws closes r) : ∃ e e',
      (Reader.start false longer).items = d.given.map .ok ++ [.error e] ∧
      (Reader.start false shorter).items = d.given.map .ok ++ [.error e'] := by
  have hmoved (ws : List RawAttribute) (closes : Bool) (r : Place) :
      ¬ Ends (d.gap.moved (byteLength d.added)) ws closes r := by
    rw [Lexeme.ends_moved_iff]
    exact fun ⟨r', h, _⟩ => hendless ws closes r' h
  obtain ⟨e, r, hnext⟩ := d.begins_longer.next_of_endless hmoved
  obtain ⟨e', r', hnext'⟩ := d.begins_shorter.next_of_endless hendless
  refine ⟨e, e', ?_, ?_⟩
  · rw [d.items_longer, Lexeme.all_of_error hnext]
    simp [Reader.pieces]
  · rw [d.items_shorter, Lexeme.all_of_error hnext']
    simp [Reader.pieces]

end Addition

namespace Reader

/-- **Only declarations affect namespaces.** Let one start tag of a text have an attribute more than
in another text, and let this attribute declare no label. Then a lenient reader gives the same
tokens for both but for this attribute in this tag, and fails in both or in none, at offsets that
differ by the bytes of the attribute if the tag is read; or the tag is read in neither, and the
tokens in front of it are given.

The names of elements and of the other attributes are in the tokens, expanded. -/
theorem items_of_addition (d : Addition longer shorter)
    (hextra : ∀ label, ¬ d.extra.Declares label) :
    (∃ e e', (start false longer).items = d.given.map .ok ++ [.error e] ∧
      (start false shorter).items = d.given.map .ok ++ [.error e']) ∨
    ∃ (element : ExpandedName) (xs : List Attribute) (x : Attribute) (ys : List Attribute)
      (rest : List Token) (failure : Option ReadError),
      (start false longer).items =
        (d.given ++ .startTag element (xs ++ x :: ys) :: rest).map .ok ++
          (failure.map (ReadError.moved (byteLength d.added))).toList.map .error ∧
      (start false shorter).items =
        (d.given ++ .startTag element (xs ++ ys) :: rest).map .ok ++
          failure.toList.map .error ∧
      xs.length = d.before.length ∧
      ∃ scopes : Scopes, x = ⟨scopes.attributeName d.extra.name, d.extra.value⟩ := by
  by_cases hends : ∃ ws closes r, Lexeme.Ends d.gap ws closes r
  · obtain ⟨ws, closes, r, hends⟩ := hends
    obtain ⟨afterName, hnext⟩ :=
      d.begins_longer.next_of_ends (Lexeme.ends_moved_iff.2 ⟨r, hends, rfl⟩)
    obtain ⟨afterName', hnext'⟩ := d.begins_shorter.next_of_ends hends
    obtain ⟨element, xs, x, ys, rest, r', htaken, htaken', hlength, hx⟩ :=
      d.reader.taken_of_undeclared hextra (ofList d.name) d.before ws closes
    refine .inr ⟨element, xs, x, ys, rest ++ (r'.pieces (Lexeme.all r).1).flatten,
      (Lexeme.all r).2, ?_, ?_, hlength, hx⟩
    · rw [d.items_longer, Lexeme.all_of_some hnext, Lexeme.all_moved, List.append_assoc,
        List.singleton_append, pieces, htaken, pieces_map_moved, List.flatten_cons,
        List.cons_append]
    · rw [d.items_shorter, Lexeme.all_of_some hnext', pieces, htaken', List.flatten_cons,
        List.cons_append]
  · exact .inl (d.items_of_endless fun ws closes r h => hends ⟨ws, closes, r, h⟩)

/-- A tag in the scope of a default namespace gets an attribute. -/
def sampleAddition :
    Addition "<a xmlns=\"u\"><b y=\"1\" x=\"2\"/></a>" "<a xmlns=\"u\"><b y=\"1\"/></a>" where
  front := "<a xmlns=\"u\">".toList
  lexemes := [.startTag "a" [⟨"xmlns", "u"⟩] false
    ⟨2, " xmlns=\"u\"><b y=\"1\" x=\"2\"/></a>".toList⟩]
  name := ['b']
  list := " y=\"1\"".toList
  added := " x=\"2\"".toList
  back := "/></a>".toList
  before := [⟨"y", "1"⟩]
  extra := ⟨"x", "2"⟩
  longer_eq := by decide
  shorter_eq := by decide
  reaches := .reads (by decide +kernel) (.leads (.here _))
  isName := ⟨by decide, by simp [show isNameChar 'b' = true by decide]⟩
  list_text := by
    have h : [(⟨"y", "1"⟩ : RawAttribute)].flatMap RawAttribute.write = " y=\"1\"".toList := by
      decide +kernel
    exact h ▸ RawAttribute.listText_write (by decide) false
  added_text := by
    have h : [(⟨"y", "1"⟩ : RawAttribute), ⟨"x", "2"⟩].flatMap RawAttribute.write =
        " y=\"1\"".toList ++ " x=\"2\"".toList := by
      decide +kernel
    exact h ▸ RawAttribute.listText_write (by decide) false
  apart := .inr (by decide)
  added_apart := .inr (by decide)

theorem items_of_sampleAddition : (∀ label, ¬ sampleAddition.extra.Declares label) ∧
    ∃ (element : ExpandedName) (xs : List Attribute) (x : Attribute) (ys : List Attribute)
      (rest : List Token) (failure : Option ReadError),
      (start false "<a xmlns=\"u\"><b y=\"1\" x=\"2\"/></a>").items =
        (sampleAddition.given ++ .startTag element (xs ++ x :: ys) :: rest).map .ok ++
          (failure.map (ReadError.moved 6)).toList.map .error ∧
      (start false "<a xmlns=\"u\"><b y=\"1\"/></a>").items =
        (sampleAddition.given ++ .startTag element (xs ++ ys) :: rest).map .ok ++
          failure.toList.map .error ∧
      xs.length = 1 ∧ ∃ scopes : Scopes, x = ⟨scopes.attributeName "x", "2"⟩ := by
  have hextra : ∀ label, ¬ sampleAddition.extra.Declares label :=
    RawAttribute.declared?_eq_none_iff.1 (by decide +kernel)
  refine ⟨hextra, (items_of_addition sampleAddition hextra).resolve_left ?_⟩
  rintro ⟨e, e', hitems, -⟩
  have hlast : (start false "<a xmlns=\"u\"><b y=\"1\" x=\"2\"/></a>").items.getLast? =
      some (.ok .endTag) := by decide +kernel
  rw [hitems, List.getLast?_concat] at hlast
  cases hlast

/-- A tag gets an attribute of the name `xmlns:`, in which no label stands behind the colon. -/
def emptyLabel : Addition "<a xmlns:=\"u\"/>" "<a/>" where
  front := []
  lexemes := []
  name := ['a']
  list := []
  added := " xmlns:=\"u\"".toList
  back := "/>".toList
  before := []
  extra := ⟨"xmlns:", "u"⟩
  longer_eq := by decide
  shorter_eq := by decide
  reaches := .leads (.here _)
  isName := ⟨by decide, by simp [show isNameChar 'a' = true by decide]⟩
  list_text := .nil (by simp [RawAttribute.IsBlanks])
  added_text := by
    have hname : IsName "xmlns:".toList := ⟨by decide, List.all_eq_true.1 (by decide)⟩
    have hvalue : RawAttribute.ValueText "\"u\"".toList "u" :=
      .quoted (show RawAttribute.IsQuotable '"' ['u'] from ⟨by decide, by decide, by decide⟩)
    have hnone : RawAttribute.IsBlanks [] := by simp [RawAttribute.IsBlanks]
    exact .cons (s := [' ']) (by simp [RawAttribute.IsBlanks, isBlank]) (.inr (by simp))
      (.assigned (.assigned hname hnone hnone) hvalue) (.nil hnone)
  apart := .inr (by decide)
  added_apart := .inr (by decide)

/-- The name neither is `xmlns` nor has a label behind `xmlns:`, but the element is in another
namespace. -/
theorem items_of_emptyLabel : emptyLabel.extra.name ≠ "xmlns" ∧
    (∀ label, label ≠ "" → emptyLabel.extra.name ≠ "xmlns:" ++ label) ∧
    (start false "<a xmlns:=\"u\"/>").items =
      [.ok (.startTag ⟨some "u", "a"⟩ [⟨⟨none, "xmlns:"⟩, "u"⟩]), .ok .endTag] ∧
    (start false "<a/>").items = [.ok (.startTag ⟨none, "a"⟩ []), .ok .endTag] := by
  refine ⟨by decide, fun label hne heq => hne ?_, by decide +kernel, by decide +kernel⟩
  have hchars : "xmlns:".toList = "xmlns:".toList ++ label.toList :=
    (congrArg String.toList heq).trans String.toList_append
  rwa [List.self_eq_append_right, String.toList_eq_nil_iff] at hchars

end Reader

end MarkupQuery.Markup
