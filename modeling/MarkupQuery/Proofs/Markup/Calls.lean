import MarkupQuery.Proofs.Markup.Lexemes

/-!
# Calls on a reader

A reader is called for the next token (`Reader.read`) or for the next item (`Reader.next`), in any
order; a call for a token can go on behind an error. `Reader.given` lists the tokens that a sequence
of calls gives, each with the attributes of the tag from which it comes.

Of what a reader keeps, a call changes the scopes and the open elements only when it gives a tag.
`Reader.Step` says how, and `Reader.step_deliver` that every call is such a step.
-/

namespace MarkupQuery.Markup

open Text Bracketed

/-- A token that a reader has given. -/
structure Given where
  /-- The token. -/
  token : Token
  /-- The attributes of the lexeme that the reader saw, as they are written. -/
  attributes : List RawAttribute

instance : Bracketed Given where
  bracket g := bracket g.token

namespace Reader

/-- A call on a reader. -/
inductive Call
  /-- Read the next token. -/
  | read
  /-- Take the next item of the sequence. -/
  | next
  deriving DecidableEq, Repr

/-- The token that a call gives, if it gives one, and the reader behind it. -/
def deliver (r : Reader) : Call → Option Token × Reader
  | .read => (r.read.1.toOption.join, r.read.2)
  | .next => (r.next.1.bind Except.toOption, r.next.2)

/-- The reader behind some calls. -/
def after (r : Reader) (calls : List Call) : Reader :=
  calls.foldl (fun r call => (r.deliver call).2) r

/-- The attributes of the lexeme at which a reader stands. -/
def attributesAhead (r : Reader) : List RawAttribute :=
  match Lexeme.next r.place with
  | (.ok (some lexeme), _) => lexeme.attributes
  | _ => []

/-- A token that a reader gives, if it gives one, with the attributes of the lexeme at which it
stands. -/
def noted (r : Reader) : Option Token → List Given
  | some token => [⟨token, r.attributesAhead⟩]
  | none => []

/-- What some calls give, in order. -/
def given (r : Reader) : List Call → List Given
  | [] => []
  | call :: calls => r.noted (r.deliver call).1 ++ (r.deliver call).2.given calls

variable {r r' r'' : Reader} {token : Option Token}

theorem after_concat (r : Reader) (calls : List Call) (call : Call) :
    r.after (calls ++ [call]) = ((r.after calls).deliver call).2 :=
  List.foldl_append

theorem given_concat (r : Reader) (calls : List Call) (call : Call) :
    r.given (calls ++ [call]) =
      r.given calls ++ (r.after calls).noted ((r.after calls).deliver call).1 := by
  induction calls generalizing r with
  | nil => exact List.append_nil _
  | cons first calls ih =>
    rw [List.cons_append, given, given, ih, List.append_assoc]
    rfl

theorem length_given_le (r : Reader) (calls : List Call) :
    (r.given calls).length ≤ calls.length := by
  induction calls generalizing r with
  | nil => exact Nat.le_refl 0
  | cons call calls ih =>
    have hnoted : (r.noted (r.deliver call).1).length ≤ 1 := by
      cases (r.deliver call).1 <;> simp [noted]
    have := ih (r.deliver call).2
    rw [given, List.length_append, List.length_cons]
    omega

/-! ## Steps -/

/-- What a call gives, and what it does to the scopes and the open elements. -/
inductive Step (r : Reader) : Option Token → Reader → Prop
  /-- Nothing is given that opens or closes an element. -/
  | quiet {token : Option Token} {r' : Reader} (neither : ∀ t ∈ token, bracket t = .neither)
    (scopes : r'.scopes = r.scopes) (openTags : r'.openTags = r.openTags) : Step r token r'
  /-- The start tag at which the reader stands is given. -/
  | opens {r' : Reader} {name : String} {attributes : List RawAttribute} {closes : Bool}
    {afterName place : Place}
    (ahead : Lexeme.next r.place = (.ok (some (.startTag name attributes closes afterName)), place))
    (scopes : r'.scopes = r.scopes.enter.declareAll attributes)
    (openTags : r'.openTags = name :: r.openTags) :
    Step r (some (startToken r'.scopes name attributes)) r'
  /-- An end tag is given, be it in the text or owed. -/
  | closes {r' : Reader} (scopes : r'.scopes = r.closeElement.scopes)
    (openTags : r'.openTags = r.closeElement.openTags) : Step r (some .endTag) r'

/-- A step does not say where the reader stands then. -/
theorem Step.congr (h : Step r token r') (hscopes : r''.scopes = r'.scopes)
    (hopenTags : r''.openTags = r'.openTags) : Step r token r'' := by
  cases h with
  | quiet neither scopes openTags =>
    exact .quiet neither (hscopes.trans scopes) (hopenTags.trans openTags)
  | opens ahead scopes openTags =>
    rw [← hscopes]
    exact .opens ahead (hscopes.trans scopes) (hopenTags.trans openTags)
  | closes scopes openTags => exact .closes (hscopes.trans scopes) (hopenTags.trans openTags)

theorem step_none (hscopes : r'.scopes = r.scopes) (hopen : r'.openTags = r.openTags) :
    Step r none r' :=
  .quiet (by simp) hscopes hopen

theorem scopes_closeElement (h : r'.scopes = r.scopes) (hopen : r'.openTags = r.openTags) :
    r'.closeElement.scopes = r.closeElement.scopes := by
  rw [closeElement, closeElement, hopen]
  split
  · exact h
  · exact congrArg Scopes.leave h

theorem openTags_closeElement (r : Reader) : r.closeElement.openTags = r.openTags.tail := by
  unfold closeElement
  split
  · rename_i h
    rw [h, List.tail_nil]
  · rename_i h
    rw [h, List.tail_cons]

theorem step_closes (hscopes : r'.scopes = r.scopes) (hopen : r'.openTags = r.openTags) :
    Step r (some .endTag) r'.closeElement :=
  .closes (scopes_closeElement hscopes hopen)
    (by rw [openTags_closeElement, openTags_closeElement, hopen])

/-- Taking in a lexeme is a step, also if it is refused. -/
theorem step_accept {lexeme : Lexeme} {place : Place}
    (ahead : Lexeme.next r.place = (.ok (some lexeme), place)) :
    Step r (r.accept lexeme place).1.toOption (r.accept lexeme place).2 := by
  cases lexeme with
  | text | comment | instruction => exact .quiet (by rintro t ⟨⟩; rfl) rfl rfl
  | endTag name offset =>
    rw [accept]
    split
    · exact step_none rfl rfl
    · exact step_closes rfl rfl
  | startTag name attributes closes afterName =>
    rw [accept]
    split
    · exact step_none rfl rfl
    · exact .opens ahead rfl rfl

theorem step_read (r : Reader) : Step r r.read.1.toOption.join r.read.2 := by
  rw [read]
  split
  · exact step_closes rfl rfl
  · split
    · exact step_none rfl rfl
    · exact step_none rfl rfl
    · rename_i lexeme place ahead
      have hstep := step_accept ahead
      split
      · rename_i haccept
        rwa [haccept] at hstep
      · rename_i haccept
        rwa [haccept] at hstep

theorem step_next (r : Reader) : Step r (r.next.1.bind Except.toOption) r.next.2 := by
  rw [next]
  split
  · exact step_none rfl rfl
  · have hstep := r.step_read
    split
    · rename_i hread
      rw [hread] at hstep
      exact hstep.congr rfl rfl
    · rename_i hread
      rwa [hread] at hstep
    · rename_i hread
      rwa [hread] at hstep

/-- Every call is a step. -/
theorem step_deliver (r : Reader) (call : Call) : Step r (r.deliver call).1 (r.deliver call).2 := by
  cases call with
  | read => exact r.step_read
  | next => exact r.step_next

end Reader

end MarkupQuery.Markup
