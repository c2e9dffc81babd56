import MarkupQuery.Location.Error
import MarkupQuery.Text.Place

/-!
# Compiling location paths

The text of a path is a sequence of steps between slashes. A slash in front makes the first step
start from the root. A step is written in one of these forms:

* `@` and a name: an attribute;
* a full stop: the node itself; two full stops: its parent;
* a name, or a kind test such as `text()`: a child;
* an axis, two colons, and a name or a kind test;
* nothing, between two slashes: the node and all nodes below it.

A name is a star, for all names, or a run of letters, digits, underscores, full stops, hyphens and
characters beyond ASCII. The kind test for instructions takes a target between quotation marks. A
slash behind the last step is passed over, and the path of a single slash selects the elements
below the root.
-/

namespace MarkupQuery.Location

open Text NodeTree

/-! ## Words -/

/-- A character of a name in a path. -/
def isWordChar (c : Char) : Bool :=
  c.isAlphanum || c == '_' || c == '.' || c == '-' || 0x80 ≤ c.toNat

/-- The word that begins here, a star or a name, and the place behind it. -/
def readWord? (p : Place) : Option (String × Place) :=
  if p.sees '*' then some ("*", p.forward 1)
  else if p.rest.head?.any isWordChar then
    some (String.ofList (p.span isWordChar).1, (p.span isWordChar).2)
  else none

/-! ## Steps -/

/-- A fault and the byte offset at which it was found. -/
abbrev FaultAt := Nat × PathFault

/-- The kind that a kind test asks for; `node` lets every kind pass. -/
def kindTest? (word : String) : Option (Option NodeKind) :=
  if word == "node" then some none
  else if word == "text" then some (some .text)
  else if word == "comment" then some (some .comment)
  else if word == "processing-instruction" then some (some .instruction)
  else none

/-- The bracket that closes a kind test, and the step that is then complete. -/
def readClose (step : Step) (p : Place) : Except FaultAt (Step × Place) :=
  if p.sees ')' then .ok (step, p.forward 1) else .error (p.offset, .missingBracket)

/-- A kind test behind its opening bracket: an instruction may have a quoted target. -/
def readArgument (axis : Axis) (word : String) (kind : Option NodeKind) (p : Place) :
    Except FaultAt (Step × Place) :=
  if p.sees '"' then
    let inside := p.forward 1
    if kind == some .instruction then
      let (target, stop) := (readWord? inside).getD ("", inside)
      if stop.sees '"' then readClose ⟨axis, .ofWord target, kind, false⟩ (stop.forward 1)
      else .error (stop.offset, .missingQuote)
    else .error (inside.offset, .unexpectedArgument word)
  else readClose ⟨axis, .any, kind, false⟩ p

/-- The rest of a step behind its name or the word of its kind test. -/
def readTest (axis : Axis) (word : String) (p : Place) : Except FaultAt (Step × Place) :=
  if p.sees '(' then
    let inside := p.forward 1
    match kindTest? word with
    | none => .error (inside.offset, .unknownTest word)
    | some kind =>
      if axis == .attribute then .error (inside.offset, .impossibleTest word axis)
      else readArgument axis word kind inside
  else .ok (⟨axis, .ofWord word, some axis.principalKind, false⟩, p)

/-- The rest of a step behind its first word, which names an axis if a colon follows. -/
def readNamed (word : String) (p : Place) : Except FaultAt (Step × Place) :=
  if p.sees ':' then
    let second := p.forward 1
    if second.sees ':' then
      let inside := second.forward 1
      match Axis.ofName? word with
      | none => .error (inside.offset, .unknownAxis word)
      | some axis =>
        match readWord? inside with
        | none => .error (inside.offset, .missingName)
        | some (test, next) => readTest axis test next
    else .error (second.offset, .missingColon)
  else readTest .child word p

/-- The step that begins here, and the place behind it. A slash stands for a step of its own, and is
not passed. -/
def readStep (p : Place) : Except FaultAt (Step × Place) :=
  if p.sees '/' then .ok (⟨.descendantOrSelf, .any, none, false⟩, p)
  else if p.sees '@' then
    match readWord? (p.forward 1) with
    | none => .error ((p.forward 1).offset, .missingAttributeName)
    | some (word, next) => .ok (⟨.attribute, .ofWord word, some .attribute, false⟩, next)
  else
    match readWord? p with
    | none => .error (p.offset, .missingName)
    | some (word, next) =>
      if word == "*" then .ok (⟨.child, .any, some .element, false⟩, next)
      else if word == "." then .ok (⟨.self, .any, none, false⟩, next)
      else if word == ".." then .ok (⟨.parent, .any, none, false⟩, next)
      else readNamed word next

/-! ## Reading a step takes no text back -/

theorem length_rest_of_readWord? {p q : Place} {word : String} (h : readWord? p = some (word, q)) :
    q.rest.length ≤ p.rest.length := by
  unfold readWord? at h
  split at h
  · simp only [Option.some.injEq, Prod.mk.injEq] at h
    obtain ⟨-, rfl⟩ := h
    rw [Place.length_rest_forward]
    omega
  · split at h
    · simp only [Option.some.injEq, Prod.mk.injEq] at h
      obtain ⟨-, rfl⟩ := h
      exact p.length_rest_span _
    · cases h

theorem length_rest_of_readClose {p q : Place} {s t : Step} (h : readClose s p = .ok (t, q)) :
    q.rest.length ≤ p.rest.length := by
  unfold readClose at h
  split at h
  · simp only [Except.ok.injEq, Prod.mk.injEq] at h
    obtain ⟨-, rfl⟩ := h
    rw [Place.length_rest_forward]
    omega
  · cases h

theorem length_rest_of_readArgument {p q : Place} {axis : Axis} {word : String}
    {kind : Option NodeKind} {t : Step} (h : readArgument axis word kind p = .ok (t, q)) :
    q.rest.length ≤ p.rest.length := by
  unfold readArgument at h
  split at h
  · dsimp only at h
    split at h
    · split at h
      · have h₁ := length_rest_of_readClose h
        have h₂ : ((readWord? (p.forward 1)).getD ("", p.forward 1)).2.rest.length ≤
            (p.forward 1).rest.length := by
          cases hw : readWord? (p.forward 1) with
          | none => exact Nat.le_refl _
          | some found =>
            obtain ⟨target, stop⟩ := found
            exact length_rest_of_readWord? hw
        rw [Place.length_rest_forward] at h₁ h₂
        omega
      · cases h
    · cases h
  · exact length_rest_of_readClose h

theorem length_rest_of_readTest {p q : Place} {axis : Axis} {word : String} {t : Step}
    (h : readTest axis word p = .ok (t, q)) : q.rest.length ≤ p.rest.length := by
  unfold readTest at h
  split at h
  · dsimp only at h
    split at h
    · cases h
    · split at h
      · cases h
      · have := length_rest_of_readArgument h
        rw [Place.length_rest_forward] at this
        omega
  · simp only [Except.ok.injEq, Prod.mk.injEq] at h
    obtain ⟨-, rfl⟩ := h
    exact Nat.le_refl _

theorem length_rest_of_readNamed {p q : Place} {word : String} {t : Step}
    (h : readNamed word p = .ok (t, q)) : q.rest.length ≤ p.rest.length := by
  unfold readNamed at h
  split at h
  · dsimp only at h
    split at h
    · split at h
      · cases h
      · split at h
        · cases h
        · rename_i test next hword
          have h₁ := length_rest_of_readWord? hword
          have h₂ := length_rest_of_readTest h
          simp only [Place.length_rest_forward] at h₁
          omega
    · cases h
  · exact length_rest_of_readTest h

theorem length_rest_of_readStep {p q : Place} {t : Step} (h : readStep p = .ok (t, q)) :
    q.rest.length ≤ p.rest.length := by
  unfold readStep at h
  split at h
  · simp only [Except.ok.injEq, Prod.mk.injEq] at h
    obtain ⟨-, rfl⟩ := h
    exact Nat.le_refl _
  · split at h
    · split at h
      · cases h
      · rename_i word next hword
        simp only [Except.ok.injEq, Prod.mk.injEq] at h
        obtain ⟨-, rfl⟩ := h
        have := length_rest_of_readWord? hword
        rw [Place.length_rest_forward] at this
        omega
    · split at h
      · cases h
      · rename_i word next hword
        have h₁ := length_rest_of_readWord? hword
        split at h
        · simp only [Except.ok.injEq, Prod.mk.injEq] at h
          obtain ⟨-, rfl⟩ := h
          exact h₁
        · split at h
          · simp only [Except.ok.injEq, Prod.mk.injEq] at h
            obtain ⟨-, rfl⟩ := h
            exact h₁
          · split at h
            · simp only [Except.ok.injEq, Prod.mk.injEq] at h
              obtain ⟨-, rfl⟩ := h
              exact h₁
            · exact Nat.le_trans (length_rest_of_readNamed h) h₁

/-! ## Paths -/

/-- Where a step begins: behind the slash that makes it start from the root, if there is one. -/
def stepPlace (fromRoot : Bool) (p : Place) : Place :=
  match fromRoot with
  | true => p.forward 1
  | false => p

theorem length_rest_stepPlace (fromRoot : Bool) (p : Place) :
    (stepPlace fromRoot p).rest.length ≤ p.rest.length := by
  cases fromRoot with
  | false => exact Nat.le_refl _
  | true =>
    rw [stepPlace, Place.length_rest_forward]
    omega

/-- The steps from a place on, behind those already read, which stand reversed. A slash in front of
the first step makes it start from the root. -/
def readSteps (done : List Step) (p : Place) : Except FaultAt (List Step) :=
  if p.atEnd then .ok done.reverse
  else
    let fromRoot := done.isEmpty && p.sees '/'
    match _h : readStep (stepPlace fromRoot p) with
    | .error e => .error e
    | .ok (step, next) =>
      match _hnext : next.rest with
      | [] => .ok (({ step with fromRoot } :: done).reverse)
      | c :: _ =>
        if c == '/' then readSteps ({ step with fromRoot } :: done) (next.forward 1)
        else .error (next.offset, .missingSlash c)
termination_by p.rest.length
decreasing_by
  have h₁ := length_rest_of_readStep _h
  have h₂ := length_rest_stepPlace fromRoot p
  have h₃ : 0 < next.rest.length := by rw [_hnext]; exact Nat.zero_lt_succ _
  rw [Place.length_rest_forward]
  omega

/-- The steps of a path. -/
def readPath (text : String) : Except FaultAt (List Step) :=
  if text.isEmpty then .error (0, .missingName)
  else if text == "/" then .ok [⟨.child, .any, some .element, true⟩]
  else readSteps [] (Place.start text)

/-- The path that a text writes. -/
def Path.compile (text : String) : Except CompileError Path :=
  match readPath text with
  | .ok steps => .ok ⟨text, steps⟩
  | .error (offset, fault) => .error ⟨text, offset, fault⟩

end MarkupQuery.Location
