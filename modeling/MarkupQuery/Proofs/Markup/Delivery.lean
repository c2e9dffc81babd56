import MarkupQuery.Proofs.Markup.Calls
import MarkupQuery.Proofs.Markup.Reading

/-!
# What a reader makes of lexemes

Once the lexemes of a text are known, places matter no more. `Reader.taken` gives the tokens of a
lexeme and the reader behind it, `Reader.refusal?` why a strict reader refuses it, and
`Reader.delivered` all items that come of a list of lexemes. The main statement is
`Reader.items_eq_delivered`: the items of a reader are those of the lexemes ahead.
-/

namespace MarkupQuery.Markup

open Text

namespace Reader

/-! ## One lexeme -/

/-- The tokens of a lexeme that is not refused, and the reader behind it. The place stays where it
was. -/
def taken (r : Reader) : Lexeme → List Token × Reader
  | .text content => ([.text content], r)
  | .comment content => ([.comment content], r)
  | .instruction target content => ([.instruction target content], r)
  | .endTag _ _ => ([.endTag], r.closeElement)
  | .startTag name attributes closes _ =>
    let opened := r.openElement name attributes
    let tag := startToken opened.scopes name attributes
    if closes then ([tag, .endTag], opened.closeElement) else ([tag], opened)

/-- Why a lexeme is refused, if it is. -/
def refusal? (r : Reader) : Lexeme → Option ReadError
  | .text _ | .comment _ | .instruction _ _ => none
  | .endTag name offset => (r.mismatch? name).map fun opened => .tagMismatch opened name offset
  | .startTag _ attributes _ afterName =>
    (r.repeated? attributes).map fun twice => .duplicateAttribute twice afterName.offset

/-- The items of the lexemes, up to the first that is refused, or up to what could not be read. -/
def delivered (failure : Option ReadError) (r : Reader) :
    List Lexeme → List (Except ReadError Token)
  | [] => failure.toList.map .error
  | lexeme :: rest =>
    match r.refusal? lexeme with
    | some e => [.error e]
    | none => (r.taken lexeme).1.map .ok ++ (r.taken lexeme).2.delivered failure rest

/-- A reader between two lexemes that has not failed. -/
structure Rests (r : Reader) : Prop where
  owesEnd : r.owesEnd = false
  failed : r.failed = false

variable {r : Reader} {p q : Place} {lexeme : Lexeme} {failure : Option ReadError}

theorem rests_start (strict : Bool) (text : String) : (start strict text).Rests :=
  ⟨rfl, rfl⟩

theorem closeElement_place (r : Reader) (q : Place) :
    { r with place := q }.closeElement = { r.closeElement with place := q } := by
  obtain ⟨strict, place, scopes, openTags, owesEnd, failed⟩ := r
  cases openTags <;> rfl

theorem closeElement_strict (r : Reader) (b : Bool) :
    { r with strict := b }.closeElement = { r.closeElement with strict := b } := by
  obtain ⟨strict, place, scopes, openTags, owesEnd, failed⟩ := r
  cases openTags <;> rfl

/-- The tokens of a lexeme do not hang on where the reader stands. -/
theorem taken_place (r : Reader) (q : Place) (lexeme : Lexeme) :
    { r with place := q }.taken lexeme =
      ((r.taken lexeme).1, { (r.taken lexeme).2 with place := q }) := by
  cases lexeme with
  | text | comment | instruction => rfl
  | endTag => exact congrArg (Prod.mk _) (r.closeElement_place q)
  | startTag name attributes closes =>
    cases closes with
    | false => rfl
    | true => exact congrArg (Prod.mk _) ((r.openElement name attributes).closeElement_place q)

/-- The tokens of a lexeme do not hang on the kind of reader. -/
theorem taken_strict (r : Reader) (b : Bool) (lexeme : Lexeme) :
    { r with strict := b }.taken lexeme =
      ((r.taken lexeme).1, { (r.taken lexeme).2 with strict := b }) := by
  cases lexeme with
  | text | comment | instruction => rfl
  | endTag => exact congrArg (Prod.mk _) (r.closeElement_strict b)
  | startTag name attributes closes =>
    cases closes with
    | false => rfl
    | true => exact congrArg (Prod.mk _) ((r.openElement name attributes).closeElement_strict b)

theorem delivered_place (r : Reader) (q : Place) (lexemes : List Lexeme) :
    { r with place := q }.delivered failure lexemes = r.delivered failure lexemes := by
  induction lexemes generalizing r with
  | nil => rfl
  | cons lexeme rest ih =>
    have hrefusal : { r with place := q }.refusal? lexeme = r.refusal? lexeme := by
      cases lexeme <;> rfl
    rw [delivered, delivered, hrefusal, taken_place, ih]

theorem Rests.place (h : r.Rests) (q : Place) : { r with place := q }.Rests :=
  ⟨h.owesEnd, h.failed⟩

theorem Rests.taken (h : r.Rests) (lexeme : Lexeme) : (r.taken lexeme).2.Rests := by
  obtain ⟨strict, place, scopes, openTags, owesEnd, failed⟩ := r
  cases lexeme with
  | text | comment | instruction => exact h
  | endTag => cases openTags <;> exact ⟨h.owesEnd, h.failed⟩
  | startTag name attributes closes => cases closes <;> exact ⟨h.owesEnd, h.failed⟩

/-! ## Steps of a reader -/

theorem next_of_error {e : ReadError} (h : r.Rests) (hnext : Lexeme.next r.place = (.error e, q)) :
    r.next = (some (.error e), { r with place := q, failed := true }) := by
  have hread : r.read = (.error e, { r with place := q }) := by
    rw [read, if_neg (by simp [h.owesEnd]), hnext]
  rw [next, if_neg (by simp [h.failed]), hread]

theorem next_of_none (h : r.Rests) (hnext : Lexeme.next r.place = (.ok none, q)) :
    r.next = (none, { r with place := q }) := by
  have hread : r.read = (.ok none, { r with place := q }) := by
    rw [read, if_neg (by simp [h.owesEnd]), hnext]
  rw [next, if_neg (by simp [h.failed]), hread]

/-- A lexeme that is refused ends the sequence of items. -/
theorem next_of_refusal {e : ReadError} (h : r.Rests)
    (hnext : Lexeme.next r.place = (.ok (some lexeme), q)) (he : r.refusal? lexeme = some e) :
    ∃ r', r.next = (some (.error e), r') ∧ r'.failed = true := by
  have haccept : ∃ r', r.accept lexeme q = (.error e, r') := by
    cases lexeme with
    | text | comment | instruction => cases he
    | endTag name offset =>
      obtain ⟨opened, hopened, rfl⟩ := Option.map_eq_some_iff.1 he
      rw [accept, hopened]
      exact ⟨_, rfl⟩
    | startTag name attributes closes afterName =>
      obtain ⟨twice, htwice, rfl⟩ := Option.map_eq_some_iff.1 he
      rw [accept, htwice]
      exact ⟨_, rfl⟩
  obtain ⟨r', haccept⟩ := haccept
  have hread : r.read = (.error e, r') := by
    rw [read, if_neg (by simp [h.owesEnd]), hnext]
    dsimp only
    rw [haccept]
  exact ⟨{ r' with failed := true }, by rw [next, if_neg (by simp [h.failed]), hread], rfl⟩

/-- A lexeme that is not refused gives its tokens. -/
theorem yields_taken (h : r.Rests) (hnext : Lexeme.next r.place = (.ok (some lexeme), q))
    (hnone : r.refusal? lexeme = none) :
    r.Yields (r.taken lexeme).1 { (r.taken lexeme).2 with place := q } := by
  have hstep {t : Token} {r' : Reader} (haccept : r.accept lexeme q = (.ok t, r')) :
      r.next = (some (.ok t), r') :=
    next_of_accept h.owesEnd h.failed hnext haccept
  cases lexeme with
  | text | comment | instruction => exact .cons (hstep rfl) .nil
  | endTag name offset =>
    have haccept : r.accept (.endTag name offset) q = (.ok .endTag,
        { r.closeElement with place := q }) := by
      rw [accept, Option.map_eq_none_iff.1 hnone]
      exact congrArg (Prod.mk _) (r.closeElement_place q)
    exact .cons (hstep haccept) .nil
  | startTag name attributes closes afterName =>
    obtain ⟨strict, place, scopes, openTags, owesEnd, failed⟩ := r
    obtain rfl : owesEnd = false := h.owesEnd
    obtain rfl : failed = false := h.failed
    have haccept (r : Reader) (hr : r.repeated? attributes = none) :
        r.accept (.startTag name attributes closes afterName) q =
          (.ok (startToken (r.openElement name attributes).scopes name attributes),
            { r.openElement name attributes with place := q, owesEnd := closes }) := by
      rw [accept, hr]
      rfl
    have hopened := hstep (haccept _ (Option.map_eq_none_iff.1 hnone))
    cases closes with
    | false => exact .cons hopened .nil
    | true =>
      -- the end tag that is owed comes with the next call, from wherever the reader stands
      exact .cons hopened (.cons rfl .nil)

/-! ## All items -/

theorem itemsOnto_of_error {e : ReadError} {r' : Reader} (h : r.next = (some (.error e), r'))
    (hr' : r'.failed = true) (fuel : Nat) (done : List (Except ReadError Token)) :
    itemsOnto done (fuel + 1) r = done.reverse ++ [.error e] := by
  have hend : r'.next.1 = none := by rw [next, if_pos hr']
  rw [itemsOnto, h]
  dsimp only
  rw [itemsOnto_of_none hend, List.reverse_cons]

theorem length_taken_le (r : Reader) (lexeme : Lexeme) : (r.taken lexeme).1.length ≤ 2 := by
  cases lexeme with
  | text | comment | instruction | endTag => exact Nat.le_succ 1
  | startTag name attributes closes =>
    cases closes with
    | false => exact Nat.le_succ 1
    | true => exact Nat.le_refl 2

/-- The items that come of the lexemes ahead. Each lexeme takes a character and gives two items at
most, so the fuel does not run out. -/
theorem itemsOnto_eq_delivered (hr : r.Rests) {fuel : Nat}
    (hfuel : 2 * r.place.rest.length < fuel) (done : List (Except ReadError Token)) :
    itemsOnto done fuel r =
      done.reverse ++ r.delivered (Lexeme.all r.place).2 (Lexeme.all r.place).1 := by
  -- on the number of characters ahead: each lexeme takes one, so the fuel for the rest is enough
  induction hn : r.place.rest.length using Nat.strong_induction_on generalizing r fuel done with
  | _ n ih =>
    obtain ⟨fuel, rfl⟩ := Nat.exists_eq_succ_of_ne_zero (Nat.ne_of_gt (Nat.zero_lt_of_lt hfuel))
    cases hnext : Lexeme.next r.place with
    | mk result q =>
      rcases result with e | _ | lexeme
      · rw [itemsOnto_of_error (next_of_error hr hnext) rfl, Lexeme.all_of_error hnext]
        rfl
      · rw [itemsOnto_of_none (by rw [next_of_none hr hnext]), Lexeme.all_of_none hnext]
        exact (List.append_nil _).symm
      · rw [Lexeme.all_of_some hnext, delivered]
        cases hrefusal : r.refusal? lexeme with
        | some e =>
          obtain ⟨r', hnext', hfailed⟩ := next_of_refusal hr hnext hrefusal
          exact itemsOnto_of_error hnext' hfailed fuel done
        | none =>
          have hyields := yields_taken hr hnext hrefusal
          have hlt := Lexeme.length_rest_of_next hnext
          have hlength := r.length_taken_le lexeme
          obtain ⟨fuel', hfuel'⟩ := Nat.exists_eq_add_of_le
            (show (r.taken lexeme).1.length ≤ fuel.succ by omega)
          rw [hfuel', hyields.itemsOnto]
          refine (ih q.rest.length (by omega) ((hr.taken lexeme).place q)
            (show 2 * q.rest.length < fuel' by omega) _ rfl).trans ?_
          rw [delivered_place, List.reverse_append, List.reverse_reverse, List.append_assoc]

/-- **The items of a reader are those of the lexemes ahead.** -/
theorem items_eq_delivered (hr : r.Rests) :
    r.items = r.delivered (Lexeme.all r.place).2 (Lexeme.all r.place).1 :=
  itemsOnto_eq_delivered hr (by rw [itemBound]; omega) []

theorem items_start (strict : Bool) (text : String) :
    (start strict text).items =
      (start strict text).delivered (Lexeme.failure? text) (Lexeme.ofText text) :=
  items_eq_delivered (rests_start strict text)

/-! ## Many lexemes -/

/-- The tokens of lexemes of which none is refused, one list for each. -/
def pieces (r : Reader) : List Lexeme → List (List Token)
  | [] => []
  | lexeme :: rest => (r.taken lexeme).1 :: (r.taken lexeme).2.pieces rest

/-- The reader behind lexemes of which none is refused. -/
def behind (r : Reader) (lexemes : List Lexeme) : Reader :=
  lexemes.foldl (fun r lexeme => (r.taken lexeme).2) r

variable {before rest : List Lexeme}

theorem behind_concat (r : Reader) (before : List Lexeme) (lexeme : Lexeme) :
    r.behind (before ++ [lexeme]) = ((r.behind before).taken lexeme).2 := by
  rw [behind, List.foldl_append]
  rfl

theorem pieces_append (r : Reader) (before rest : List Lexeme) :
    r.pieces (before ++ rest) = r.pieces before ++ (r.behind before).pieces rest := by
  induction before generalizing r with
  | nil => rfl
  | cons lexeme before ih => exact congrArg (_ :: ·) (ih _)

theorem length_pieces (r : Reader) (lexemes : List Lexeme) :
    (r.pieces lexemes).length = lexemes.length := by
  induction lexemes generalizing r with
  | nil => rfl
  | cons lexeme rest ih => exact congrArg (· + 1) (ih _)

theorem take_pieces (r : Reader) (before rest : List Lexeme) :
    (r.pieces (before ++ rest)).take before.length = r.pieces before := by
  rw [pieces_append, List.take_left' (r.length_pieces before)]

theorem strict_taken (r : Reader) (lexeme : Lexeme) : (r.taken lexeme).2.strict = r.strict :=
  congrArg (fun given => given.2.strict) (r.taken_strict r.strict lexeme)

theorem strict_behind (r : Reader) (lexemes : List Lexeme) :
    (r.behind lexemes).strict = r.strict := by
  induction lexemes using List.reverseRecOn with
  | nil => rfl
  | append_singleton before lexeme ih => rw [behind_concat, strict_taken, ih]

theorem pieces_strict (r : Reader) (b : Bool) (lexemes : List Lexeme) :
    { r with strict := b }.pieces lexemes = r.pieces lexemes := by
  induction lexemes generalizing r with
  | nil => rfl
  | cons lexeme rest ih => rw [pieces, pieces, taken_strict, ih]

/-- Each lexeme gives its tokens. -/
theorem gives_taken (r : Reader) (lexeme : Lexeme) : lexeme.Gives (r.taken lexeme).1 := by
  cases lexeme with
  | text content => exact .text content
  | comment content => exact .comment content
  | instruction target content => exact .instruction target content
  | endTag name offset => exact .endTag name offset
  | startTag name attributes closes afterName =>
    have hvalues : (attributes.map fun a => (⟨(r.openElement name attributes).scopes.attributeName
        a.name, a.value⟩ : Attribute)).map Attribute.value = attributes.map RawAttribute.value := by
      rw [List.map_map]
      rfl
    cases closes <;> exact .startTag name _ _ afterName hvalues

theorem forall₂_gives_pieces (r : Reader) (lexemes : List Lexeme) :
    List.Forall₂ Lexeme.Gives lexemes (r.pieces lexemes) := by
  induction lexemes generalizing r with
  | nil => exact .nil
  | cons lexeme rest ih => exact .cons (r.gives_taken lexeme) (ih _)

/-- Lexemes that are not refused give their tokens, and then come the items of those behind. -/
theorem delivered_append (failure : Option ReadError) (r : Reader) (before rest : List Lexeme)
    (h : ∀ init lexeme tail, before = init ++ lexeme :: tail →
      (r.behind init).refusal? lexeme = none) :
    r.delivered failure (before ++ rest) =
      (r.pieces before).flatten.map .ok ++ (r.behind before).delivered failure rest := by
  induction before generalizing r with
  | nil => rfl
  | cons lexeme before ih =>
    have hrest := ih (r.taken lexeme).2 fun init l tail heq =>
      h (lexeme :: init) l tail (congrArg (lexeme :: ·) heq)
    rw [List.cons_append, delivered, show r.refusal? lexeme = none from h [] lexeme before rfl]
    dsimp only
    rw [hrest, pieces, List.flatten_cons, List.map_append, List.append_assoc]
    rfl

/-- The open elements are those of which no end tag has come. -/
theorem openTags_behind (hr : r.openTags = []) (before : List Lexeme) :
    (r.behind before).openTags = (Bracketed.unclosed before).map Lexeme.name := by
  induction before using List.reverseRecOn with
  | nil => exact hr
  | append_singleton before lexeme ih =>
    rw [behind_concat]
    cases lexeme with
    | text | comment | instruction => rwa [Bracketed.unclosed_concat_neither rfl]
    | endTag name offset =>
      rw [Bracketed.unclosed_concat_closing rfl, List.map_tail, ← ih]
      exact openTags_closeElement _
    | startTag name attributes closes afterName =>
      cases closes with
      | false =>
        rw [Bracketed.unclosed_concat_opening rfl, List.map_cons, ← ih]
        rfl
      | true =>
        rw [Bracketed.unclosed_concat_neither rfl, ← ih]
        rfl

end Reader

end MarkupQuery.Markup
