import MarkupQuery.Location.Compile
import Mathlib.Data.List.Forall2

/-!
# The grammar of location paths

Which texts are location paths, and the steps that they write, without reading them from left to
right: the text is cut at its slashes, an empty segment at the end is dropped, and each segment that
is left writes one step (`Writes`). The rules of a segment are those of a word (`Word`), of the
argument of a kind test (`Argument`), and of a name or kind test on an axis (`Test`). No rule
produces a slash (`Segment.slash_not_mem`), so a text has one cut into segments.
-/

namespace MarkupQuery.Location

open NodeTree
open String (ofList)

/-! ## The grammar -/

/-- A word, and the test of names that it stands for. -/
inductive Word : List Char → NameTest → Prop
  | star : Word ['*'] .any
  | name {w : List Char} (hne : w ≠ []) (hw : ∀ c ∈ w, isWordChar c = true) :
      Word w (.name (ofList w))

/-- The words of kind tests, and the kinds that they ask for. -/
inductive KindWord : List Char → Option NodeKind → Prop
  | node : KindWord "node".toList none
  | text : KindWord "text".toList (some .text)
  | comment : KindWord "comment".toList (some .comment)
  | instruction : KindWord "processing-instruction".toList (some .instruction)

/-- What stands between the brackets of a kind test, and the test of names that it stands for: only
instructions take an argument, a word between quotation marks or nothing between them. -/
inductive Argument : Option NodeKind → List Char → NameTest → Prop
  | nothing {kind : Option NodeKind} : Argument kind [] .any
  | target {w : List Char} {t : NameTest} (hw : Word w t) :
      Argument (some .instruction) ('"' :: w ++ ['"']) t
  | noTarget : Argument (some .instruction) ['"', '"'] (.name "")

/-- What a step can ask of the nodes on an axis: their name, or their kind. -/
inductive Test (axis : Axis) : List Char → Step → Prop
  | name {w : List Char} {t : NameTest} (hw : Word w t) :
      Test axis w ⟨axis, t, some (if axis = .attribute then .attribute else .element), false⟩
  | kind {w args : List Char} {kind : Option NodeKind} {t : NameTest} (hw : KindWord w kind)
      (haxis : axis ≠ .attribute) (hargs : Argument kind args t) :
      Test axis (w ++ '(' :: args ++ [')']) ⟨axis, t, kind, false⟩

/-- A segment of a path, and the step that it writes. -/
inductive Segment : List Char → Step → Prop
  | between : Segment [] ⟨.descendantOrSelf, .any, none, false⟩
  | atName {w : List Char} {t : NameTest} (hw : Word w t) :
      Segment ('@' :: w) ⟨.attribute, t, some .attribute, false⟩
  | self : Segment ['.'] ⟨.self, .any, none, false⟩
  | parent : Segment ['.', '.'] ⟨.parent, .any, none, false⟩
  | child {cs : List Char} {s : Step} (h : Test .child cs s) (hself : cs ≠ ['.'])
      (hparent : cs ≠ ['.', '.']) : Segment cs s
  | onAxis {cs : List Char} {s : Step} (axis : Axis) (h : Test axis cs s) :
      Segment (axis.name.toList ++ ':' :: ':' :: cs) s

/-- The segments of a text: what stands between its slashes, but for an empty last segment. -/
def segments (cs : List Char) : List (List Char) :=
  let parts := cs.splitOn '/'
  if parts.getLast? = some [] then parts.dropLast else parts

/-- A text writes these steps. A slash in front is no segment; it marks the first step. -/
inductive Writes : List Char → List Step → Prop
  | root : Writes ['/'] [⟨.child, .any, some .element, true⟩]
  | fromRoot {cs : List Char} {s : Step} {steps : List Step} (hne : cs ≠ [])
      (h : List.Forall₂ Segment (segments cs) (s :: steps)) :
      Writes ('/' :: cs) ({ s with fromRoot := true } :: steps)
  | fromHere {cs : List Char} {steps : List Step} (hne : cs ≠ []) (hslash : cs.head? ≠ some '/')
      (h : List.Forall₂ Segment (segments cs) steps) : Writes cs steps

/-! ## Segments -/

@[simp]
theorem segments_nil : segments [] = [] := rfl

theorem segments_of_not_mem {cs : List Char} (hne : cs ≠ []) (h : '/' ∉ cs) :
    segments cs = [cs] := by
  simp [segments, List.splitOn_eq_singleton h, hne]

theorem segments_append_slash {cs : List Char} (h : '/' ∉ cs) (rest : List Char) :
    segments (cs ++ '/' :: rest) = cs :: segments rest := by
  obtain ⟨first, others, hrest⟩ := List.exists_cons_of_ne_nil (List.splitOn_ne_nil '/' rest)
  have hcut : (cs ++ '/' :: rest).splitOn '/' = cs :: rest.splitOn '/' :=
    List.splitOn_append_cons_self_of_not_mem h rest
  simp only [segments, hcut, hrest, List.getLast?_cons_cons]
  split <;> rfl

theorem segments_ne_nil {cs : List Char} (h : cs ≠ []) : segments cs ≠ [] := by
  by_cases hslash : '/' ∈ cs
  · obtain ⟨first, rest, rfl, hfirst⟩ := List.eq_append_cons_of_mem hslash
    rw [segments_append_slash hfirst]
    exact List.cons_ne_nil _ _
  · rw [segments_of_not_mem h hslash]
    exact List.cons_ne_nil _ _

/-! ## What the rules say of a text -/

theorem isWordChar_star : isWordChar '*' = false := by decide

theorem isWordChar_slash : isWordChar '/' = false := by decide

theorem Word.ofWord_eq {w : List Char} {t : NameTest} (h : Word w t) :
    NameTest.ofWord (ofList w) = t := by
  cases h with
  | star => rfl
  | name hne hw =>
    refine if_neg fun hstar => ?_
    have hlist : w = ['*'] := by
      simpa using congrArg String.toList (beq_iff_eq.1 hstar)
    have := hw '*' (hlist ▸ List.mem_singleton_self _)
    rw [isWordChar_star] at this
    cases this

theorem Word.ne_nil {w : List Char} {t : NameTest} (h : Word w t) : w ≠ [] := by
  cases h with
  | star => exact List.cons_ne_nil _ _
  | name hne _ => exact hne

theorem Word.not_mem {w : List Char} {t : NameTest} (h : Word w t) {c : Char}
    (hc : isWordChar c = false) (hstar : c ≠ '*') : c ∉ w := by
  cases h with
  | star => simpa using hstar
  | name _ hw =>
    intro hmem
    rw [hw c hmem] at hc
    cases hc

theorem Axis.word_name (axis : Axis) : Word axis.name.toList (.name axis.name) := by
  have h : axis.name.toList ≠ [] ∧ axis.name.toList.all isWordChar = true := by
    cases axis <;> decide
  simpa using Word.name h.1 (List.all_eq_true.1 h.2)

theorem KindWord.toWord {w : List Char} {kind : Option NodeKind} (h : KindWord w kind) :
    Word w (.name (ofList w)) := by
  have hw : w ≠ [] ∧ w.all isWordChar = true := by cases h <;> decide
  exact .name hw.1 (List.all_eq_true.1 hw.2)

theorem Argument.slash_not_mem {kind : Option NodeKind} {args : List Char} {t : NameTest}
    (h : Argument kind args t) : '/' ∉ args := by
  cases h with
  | nothing => exact List.not_mem_nil
  | noTarget => decide
  | target hw => simpa using hw.not_mem isWordChar_slash (by decide)

theorem Test.slash_not_mem {axis : Axis} {cs : List Char} {s : Step} (h : Test axis cs s) :
    '/' ∉ cs := by
  cases h with
  | name hw => exact hw.not_mem isWordChar_slash (by decide)
  | kind hw _ hargs =>
    have h₁ := hw.toWord.not_mem isWordChar_slash (by decide)
    simpa [hargs.slash_not_mem] using h₁

theorem Test.ne_nil {axis : Axis} {cs : List Char} {s : Step} (h : Test axis cs s) : cs ≠ [] := by
  cases h with
  | name hw => exact hw.ne_nil
  | kind => simp

theorem Test.axis_eq {axis : Axis} {cs : List Char} {s : Step} (h : Test axis cs s) :
    s.axis = axis := by
  cases h <;> rfl

theorem Test.fromRoot_eq_false {axis : Axis} {cs : List Char} {s : Step} (h : Test axis cs s) :
    s.fromRoot = false := by
  cases h <;> rfl

theorem Segment.slash_not_mem {cs : List Char} {s : Step} (h : Segment cs s) : '/' ∉ cs := by
  cases h with
  | between => exact List.not_mem_nil
  | atName hw => simpa using hw.not_mem isWordChar_slash (by decide)
  | self => decide
  | parent => decide
  | child h _ _ => exact h.slash_not_mem
  | onAxis axis h =>
    have haxis := axis.word_name.not_mem isWordChar_slash (by decide)
    simpa [haxis] using h.slash_not_mem

theorem Segment.fromRoot_eq_false {cs : List Char} {s : Step} (h : Segment cs s) :
    s.fromRoot = false := by
  cases h with
  | child h _ _ => exact h.fromRoot_eq_false
  | onAxis _ h => exact h.fromRoot_eq_false
  | _ => rfl

theorem Segment.fromRoot_eq {cs : List Char} {s : Step} (h : Segment cs s) :
    { s with fromRoot := false } = s := by
  rw [← h.fromRoot_eq_false]

theorem fromRoot_eq_of_forall₂ {parts : List (List Char)} {s : Step} {steps : List Step}
    (h : List.Forall₂ Segment parts (s :: steps)) : { s with fromRoot := false } = s := by
  obtain ⟨_, _, hs, -, -⟩ := List.forall₂_cons_right_iff.1 h
  exact hs.fromRoot_eq

theorem fromRoot_eq_false_of_forall₂ {parts : List (List Char)} {steps : List Step}
    (h : List.Forall₂ Segment parts steps) : ∀ s ∈ steps, s.fromRoot = false := by
  induction h with
  | nil => exact fun _ hs => (nomatch hs)
  | cons hsegment _ ih => exact List.forall_mem_cons.2 ⟨hsegment.fromRoot_eq_false, ih⟩

/-- Only the first step of a path starts from the root. -/
theorem Writes.fromRoot_eq_false {cs : List Char} {s : Step} {steps : List Step}
    (h : Writes cs (s :: steps)) : ∀ t ∈ steps, t.fromRoot = false := by
  cases h with
  | root => exact fun _ ht => (nomatch ht)
  | fromRoot _ h => exact (List.forall_mem_cons.1 (fromRoot_eq_false_of_forall₂ h)).2
  | fromHere _ _ h => exact (List.forall_mem_cons.1 (fromRoot_eq_false_of_forall₂ h)).2

theorem exists_cons_of_forall₂ {cs : List Char} {steps : List Step} (hne : cs ≠ [])
    (h : List.Forall₂ Segment (segments cs) steps) : ∃ s more, steps = s :: more := by
  cases steps with
  | nil => exact absurd (List.forall₂_nil_right_iff.1 h) (segments_ne_nil hne)
  | cons s more => exact ⟨s, more, rfl⟩

theorem Writes.ne_nil {cs : List Char} {steps : List Step} (h : Writes cs steps) : steps ≠ [] := by
  cases h with
  | root => exact List.cons_ne_nil _ _
  | fromRoot _ _ => exact List.cons_ne_nil _ _
  | fromHere hne _ hsegments =>
    obtain ⟨s, more, rfl⟩ := exists_cons_of_forall₂ hne hsegments
    exact List.cons_ne_nil _ _

end MarkupQuery.Location
