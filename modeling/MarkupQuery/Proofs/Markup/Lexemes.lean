import MarkupQuery.Markup.Reader
import MarkupQuery.Proofs.Brackets

/-!
# The lexemes of a text

Each lexeme takes at least one character (`Lexeme.length_rest_of_next`), so a text has a last one:
`Lexeme.all` lists the lexemes from a place up to the end, or up to what cannot be read. It does not
depend on the kind of reader.

A start tag that does not close itself opens an element, and an end tag closes one. A tag that
closes itself does neither: what it opens is closed before the next lexeme.
-/

namespace MarkupQuery

open Text

namespace Text.Place

variable {p q : Place} {needle cs : List Char}

theorem length_rest_of_upTo? (h : p.upTo? needle = some (cs, q)) :
    q.rest.length ≤ p.rest.length := by
  obtain ⟨n, -, hn⟩ := Option.map_eq_some_iff.1 h
  obtain ⟨-, rfl⟩ := Prod.mk.inj hn
  rw [length_rest_forward]
  exact Nat.sub_le _ _

theorem length_rest_of_upToTagEnd? (h : p.upToTagEnd? = some (cs, q)) :
    q.rest.length ≤ p.rest.length := by
  obtain ⟨n, -, hn⟩ := Option.map_eq_some_iff.1 h
  obtain ⟨-, rfl⟩ := Prod.mk.inj hn
  rw [length_rest_forward]
  exact Nat.sub_le _ _

end Text.Place

namespace Markup

namespace Construct

theorem starting_ne_characterData (cs : List Char) :
    starting ('<' :: cs) ≠ .characterData := by
  have hbegins : (ordered.find? fun construct =>
      construct.opener.isPrefixOf ('<' :: cs)).isSome = true :=
    List.find?_isSome.2 ⟨.startTag, by decide, rfl⟩
  obtain ⟨construct, hfind⟩ := Option.isSome_iff_exists.1 hbegins
  rw [starting, hfind, Option.getD_some]
  rintro rfl
  exact absurd (List.mem_of_find?_eq_some hfind) (by decide)

end Construct

namespace Lexeme

variable {p q : Place} {lexeme : Lexeme}

/-! ## Reading moves on -/

/-- Text in front of a tag has a first character. -/
theorem length_rest_of_readText (hp : p.rest ≠ [])
    (hstarting : Construct.starting p.rest = .characterData) (h : readText p = (.ok lexeme, q)) :
    q.rest.length < p.rest.length := by
  obtain ⟨-, rfl⟩ := Prod.mk.inj h
  obtain ⟨c, cs, hcs⟩ := List.exists_cons_of_ne_nil hp
  have hc : (c != '<') = true := by
    by_contra hc
    obtain rfl : c = '<' := by simpa using hc
    rw [hcs] at hstarting
    exact Construct.starting_ne_characterData cs hstarting
  dsimp only
  rw [hcs, List.dropWhile_cons_of_pos (p := fun c => c != '<') hc, List.length_cons]
  exact Nat.lt_succ_of_le (List.dropWhile_suffix _).length_le

/-- A construct with an opener takes at least this opener. -/
theorem length_rest_of_read {construct : Construct} (hc : construct ≠ .characterData)
    (h : read construct p = (.ok lexeme, q)) :
    q.rest.length ≤ (p.forward construct.opener.length).rest.length := by
  cases construct with
  | characterData => exact absurd rfl hc
  | doctype | declaration => cases h
  | comment =>
    rw [read, readComment] at h
    split at h
    · cases h
    · rename_i hfound
      obtain ⟨-, rfl⟩ := Prod.mk.inj h
      have := Place.length_rest_of_upTo? hfound
      rw [Place.length_rest_forward]
      omega
  | cdata =>
    rw [read, readCdata] at h
    split at h
    · cases h
    · rename_i hfound
      obtain ⟨-, rfl⟩ := Prod.mk.inj h
      have := Place.length_rest_of_upTo? hfound
      rw [Place.length_rest_forward]
      omega
  | instruction =>
    rw [read, readInstruction] at h
    split at h
    · cases h
    · rename_i hname
      split at h
      · cases h
      · rename_i hfound
        split at h
        · obtain ⟨-, rfl⟩ := Prod.mk.inj h
          have := Place.length_rest_of_name? hname
          have := Place.length_rest_of_upTo? hfound
          rw [Place.length_rest_forward]
          omega
        · cases h
  | endTag =>
    rw [read, readEndTag] at h
    dsimp only at h
    split at h
    · cases h
    · rename_i afterName hname
      split at h
      · obtain ⟨-, rfl⟩ := Prod.mk.inj h
        have := Place.length_rest_of_name? hname
        have := afterName.length_rest_skipBlank
        rw [Place.length_rest_forward]
        omega
      · split at h <;> cases h
  | startTag =>
    rw [read, readStartTag] at h
    dsimp only at h
    split at h
    · cases h
    · rename_i hname
      split at h
      · cases h
      · rename_i hfound
        split at h
        · cases h
        · obtain ⟨-, rfl⟩ := Prod.mk.inj h
          have := Place.length_rest_of_name? hname
          have := Place.length_rest_of_upToTagEnd? hfound
          rw [Place.length_rest_forward]
          omega

/-- A lexeme takes at least one character. -/
theorem length_rest_of_next (h : next p = (.ok (some lexeme), q)) :
    q.rest.length < p.rest.length := by
  fun_induction next p with
  | case1 p hp => cases h
  | case2 p hp hstarting hq => cases h
  | case3 p hp hstarting r hr ih => exact Nat.lt_trans (ih h) (length_rest_of_doctypeEnd? hp hr)
  | case4 p hp e r hnot hread => cases h
  | case5 p hp l r hnot hread =>
    obtain ⟨-, rfl⟩ := Prod.mk.inj h
    have hne : p.rest ≠ [] := by simpa [Place.atEnd] using hp
    by_cases hstarting : Construct.starting p.rest = .characterData
    · rw [hstarting] at hread
      exact length_rest_of_readText hne hstarting hread
    · have hle := length_rest_of_read hstarting hread
      have hopener : (Construct.starting p.rest).opener ≠ [] := by
        cases hc : Construct.starting p.rest <;> simp_all [Construct.opener]
      have := List.length_pos_iff.2 hopener
      have := List.length_pos_iff.2 hne
      rw [Place.length_rest_forward] at hle
      omega

/-- The lexemes from a place on, up to the end or up to what cannot be read, and why it cannot. -/
def all (p : Place) : List Lexeme × Option ReadError :=
  match _h : next p with
  | (.error e, _) => ([], some e)
  | (.ok none, _) => ([], none)
  | (.ok (some lexeme), q) => (all q).map (lexeme :: ·) id
termination_by p.rest.length
decreasing_by exact length_rest_of_next _h

theorem all_of_error {e : ReadError} (h : next p = (.error e, q)) : all p = ([], some e) := by
  rw [all]
  split <;> simp_all

theorem all_of_none (h : next p = (.ok none, q)) : all p = ([], none) := by
  rw [all]
  split <;> simp_all

theorem all_of_some (h : next p = (.ok (some lexeme), q)) :
    all p = (lexeme :: (all q).1, (all q).2) := by
  rw [all]
  split <;> simp_all [Prod.map]

/-- The lexemes of a text, up to its end or up to what cannot be read. -/
def ofText (text : String) : List Lexeme :=
  (all (Place.start text)).1

/-- Why a text cannot be read to its end, if it cannot. -/
def failure? (text : String) : Option ReadError :=
  (all (Place.start text)).2

/-! ## Tags -/

instance : Bracketed Lexeme where
  bracket
    | .startTag _ _ closes _ => if closes then .neither else .opening
    | .endTag _ _ => .closing
    | .text _ | .comment _ | .instruction _ _ => .neither

/-- The name of a tag, as it is written. -/
def name : Lexeme → String
  | .startTag name _ _ _ | .endTag name _ => name
  | .text _ | .comment _ | .instruction _ _ => ""

/-- The attributes of a start tag, as they are written. -/
def attributes : Lexeme → List RawAttribute
  | .startTag _ attributes _ _ => attributes
  | .endTag _ _ | .text _ | .comment _ | .instruction _ _ => []

/-- The tokens of a lexeme, whatever names are expanded to. A tag that closes itself has two. -/
inductive Gives : Lexeme → List Token → Prop
  /-- A text is given as it is. -/
  | text (content : String) : Gives (.text content) [.text content]
  /-- A comment is given as it is. -/
  | comment (content : String) : Gives (.comment content) [.comment content]
  /-- An instruction is given as it is. -/
  | instruction (target content : String) :
    Gives (.instruction target content) [.instruction target content]
  /-- An end tag loses its name. -/
  | endTag (name : String) (offset : Nat) : Gives (.endTag name offset) [.endTag]
  /-- A start tag keeps the values of its attributes, and a slash gives an end tag. -/
  | startTag {raw : List RawAttribute} {attributes : List Attribute} (name : String)
    (expanded : ExpandedName) (closes : Bool) (afterName : Place)
    (values_eq : attributes.map Attribute.value = raw.map RawAttribute.value) :
    Gives (.startTag name raw closes afterName)
      (.startTag expanded attributes :: if closes then [.endTag] else [])

end Lexeme

instance : Bracketed Token where
  bracket
    | .startTag _ _ => .opening
    | .endTag => .closing
    | .text _ | .comment _ | .instruction _ _ => .neither

end Markup

end MarkupQuery
