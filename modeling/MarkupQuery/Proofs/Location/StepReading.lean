import MarkupQuery.Proofs.Location.Grammar
import MarkupQuery.Proofs.Text.Passing

/-!
# Reading a step

Each reader of the compiler passes exactly the texts of its rule of the grammar, and what it returns
is what the rule says (`readWord?_sound`, `readArgument_eq_ok_iff`, `readTest_eq_ok_iff`). A word
ends where no character of a name lies ahead (`Stops`) and a step where the text ends or a slash
lies ahead (`Ends`). For whole steps the two directions are `segment_of_readStep` and
`readStep_of_segment`; a reader that refuses does so at an offset at which the text can be cut
(`cutAt_of_readStep`).
-/

namespace MarkupQuery.Location

open Text NodeTree
open String (ofList)

/-! ## Words -/

/-- A word that begins before this place ends here: no character of a name lies ahead. -/
def Stops (p : Place) : Prop :=
  p.rest.head?.any isWordChar = false

theorem Stops.of_sees {p : Place} {c : Char} (hc : isWordChar c = false) (h : p.sees c = true) :
    Stops p := by
  obtain ⟨cs, hcs⟩ := Place.sees_iff.1 h
  simpa [Stops, hcs] using hc

variable {p q : Place} {word : String}

theorem readWord?_sound (h : readWord? p = some (word, q)) :
    Word word.toList (.ofWord word) ∧ p.Passes word.toList q := by
  unfold readWord? at h
  split at h
  · rename_i hstar
    obtain ⟨rfl, rfl⟩ := Prod.mk.inj (Option.some.inj h)
    exact ⟨.star, Place.passes_forward hstar⟩
  · split at h
    · rename_i hhead
      obtain ⟨rfl, rfl⟩ := Prod.mk.inj (Option.some.inj h)
      obtain ⟨hpass, hall, -⟩ := Place.span_eq_iff.1 (show p.span isWordChar = (_, _) from rfl)
      have hne : (p.span isWordChar).1 ≠ [] := by
        intro hnil
        cases hrest : p.rest with
        | nil => simp [hrest] at hhead
        | cons c cs =>
          have hc : isWordChar c = true := by simpa [hrest] using hhead
          simp [Place.span, hrest, hc] at hnil
      have hword := Word.name hne hall
      rw [String.toList_ofList]
      exact ⟨hword.ofWord_eq ▸ hword, hpass⟩
    · cases h

theorem readWord?_of_word {w : List Char} {t : NameTest} (hw : Word w t) (hp : p.Passes w q)
    (hq : Stops q) : readWord? p = some (ofList w, q) := by
  unfold readWord?
  cases hw with
  | star =>
    obtain ⟨hstar, rfl⟩ := Place.passes_singleton_iff.1 hp
    rw [if_pos hstar]
  | name hne hall =>
    obtain ⟨c, cs, rfl⟩ := List.exists_cons_of_ne_nil hne
    have hc : isWordChar c = true := hall c List.mem_cons_self
    have hstar : ¬ p.sees '*' = true := by
      intro h
      obtain ⟨_, hrest⟩ := Place.sees_iff.1 h
      obtain ⟨rfl, -⟩ := List.cons.inj (hp.rest_eq.symm.trans hrest)
      exact absurd hc (by decide)
    rw [if_neg hstar, if_pos (by simp [hp.rest_eq, hc]), Place.span_eq_iff.2 ⟨hp, hall, hq⟩]

theorem readWord?_eq_none (hp : Stops p) (hstar : ¬ p.sees '*' = true) : readWord? p = none := by
  rw [readWord?, if_neg hstar, if_neg (by rw [hp]; exact Bool.false_ne_true)]

/-! ## Kind tests -/

theorem kindTest?_eq_some_iff {kind : Option NodeKind} :
    kindTest? word = some kind ↔ KindWord word.toList kind := by
  unfold kindTest?
  constructor
  · intro h
    split_ifs at h with h₁ h₂ h₃ h₄
    · rw [beq_iff_eq.1 h₁, ← Option.some.inj h]
      exact .node
    · rw [beq_iff_eq.1 h₂, ← Option.some.inj h]
      exact .text
    · rw [beq_iff_eq.1 h₃, ← Option.some.inj h]
      exact .comment
    · rw [beq_iff_eq.1 h₄, ← Option.some.inj h]
      exact .instruction
  · intro h
    generalize hw : word.toList = w at h
    cases h <;> obtain rfl := String.toList_inj.1 hw <;> decide

theorem readClose_eq_ok_iff {step s : Step} :
    readClose step p = .ok (s, q) ↔ s = step ∧ p.Passes [')'] q := by
  rw [readClose, Place.passes_singleton_iff]
  constructor
  · intro h
    split at h
    · rename_i hclose
      obtain ⟨rfl, rfl⟩ := Prod.mk.inj (Except.ok.inj h)
      exact ⟨rfl, hclose, rfl⟩
    · cases h
  · rintro ⟨rfl, hclose, rfl⟩
    rw [if_pos hclose]

/-- The bracket that closes a kind test is no quotation mark. -/
theorem not_sees_quote_of_passes {cs : List Char} (h : p.Passes (')' :: cs) q) :
    ¬ p.sees '"' = true :=
  Place.not_sees_iff.2 fun _ hrest => by
    have := (List.cons.inj (h.rest_eq.symm.trans hrest)).1
    exact absurd this (by decide)

theorem readArgument_eq_ok_iff {axis : Axis} {kind : Option NodeKind} {s : Step} :
    readArgument axis word kind p = .ok (s, q) ↔
      ∃ args t, Argument kind args t ∧ s = ⟨axis, t, kind, false⟩ ∧
        p.Passes (args ++ [')']) q := by
  unfold readArgument
  constructor
  · intro h
    split at h
    · rename_i hquote
      dsimp only at h
      split at h
      · rename_i hkind
        split at h
        · rename_i hend
          obtain ⟨rfl, hclose⟩ := readClose_eq_ok_iff.1 h
          obtain rfl := beq_iff_eq.1 hkind
          have hopen := Place.passes_forward hquote
          cases hword : readWord? (p.forward 1) with
          | none =>
            simp only [hword, Option.getD_none] at hend hclose
            exact ⟨_, _, .noTarget, by simp [NameTest.ofWord],
              (hopen.trans (Place.passes_forward hend)).trans hclose⟩
          | some found =>
            obtain ⟨target, stop⟩ := found
            simp only [hword, Option.getD_some] at hend hclose ⊢
            obtain ⟨hw, hpass⟩ := readWord?_sound hword
            exact ⟨_, _, .target hw, rfl,
              ((hopen.trans hpass).trans (Place.passes_forward hend)).trans hclose⟩
        · cases h
      · cases h
    · obtain ⟨rfl, hclose⟩ := readClose_eq_ok_iff.1 h
      exact ⟨[], .any, .nothing, rfl, hclose⟩
  · rintro ⟨args, t, hargs, rfl, hpass⟩
    cases hargs with
    | nothing =>
      rw [if_neg (not_sees_quote_of_passes hpass)]
      exact readClose_eq_ok_iff.2 ⟨rfl, hpass⟩
    | noTarget =>
      obtain ⟨hquote, hpass⟩ := Place.passes_cons_iff.1 hpass
      obtain ⟨hend, hclose⟩ := Place.passes_cons_iff.1 hpass
      have hword : readWord? (p.forward 1) = none := by
        refine readWord?_eq_none (.of_sees (by decide) hend) (Place.not_sees_iff.2 ?_)
        intro cs hrest
        obtain ⟨_, hrest'⟩ := Place.sees_iff.1 hend
        exact absurd (List.cons.inj (hrest.symm.trans hrest')).1 (by decide)
      rw [if_pos hquote]
      simp only [hword, Option.getD_none, beq_self_eq_true, if_pos hend, if_true]
      exact readClose_eq_ok_iff.2 ⟨rfl, hclose⟩
    | @target w t hw =>
      rw [List.cons_append, List.cons_append, List.append_assoc] at hpass
      obtain ⟨hquote, hpass⟩ := Place.passes_cons_iff.1 hpass
      obtain ⟨stop, hw', hpass⟩ := Place.passes_append_iff.1 hpass
      obtain ⟨hend, hclose⟩ := Place.passes_cons_iff.1 hpass
      have hword : readWord? (p.forward 1) = some (ofList w, stop) :=
        readWord?_of_word hw hw' (.of_sees (by decide) hend)
      rw [if_pos hquote]
      simp only [hword, Option.getD_some, beq_self_eq_true, if_pos hend, if_true]
      exact readClose_eq_ok_iff.2 ⟨by rw [hw.ofWord_eq], hclose⟩

/-! ## Steps -/

theorem readTest_eq_ok_iff {axis : Axis} {s : Step} :
    readTest axis word p = .ok (s, q) ↔
      (∃ kind args t, KindWord word.toList kind ∧ axis ≠ .attribute ∧ Argument kind args t ∧
        s = ⟨axis, t, kind, false⟩ ∧ p.Passes ('(' :: args ++ [')']) q) ∨
      (¬ p.sees '(' = true ∧ s = ⟨axis, .ofWord word, some axis.principalKind, false⟩ ∧
        q = p) := by
  unfold readTest
  constructor
  · intro h
    split at h
    · rename_i hopen
      dsimp only at h
      split at h
      · cases h
      · rename_i kind hkind
        split at h
        · cases h
        · rename_i haxis
          obtain ⟨args, t, hargs, hs, hpass⟩ := readArgument_eq_ok_iff.1 h
          exact .inl ⟨kind, args, t, kindTest?_eq_some_iff.1 hkind, by simpa using haxis, hargs,
            hs, (Place.passes_forward hopen).trans hpass⟩
    · rename_i hopen
      obtain ⟨rfl, rfl⟩ := Prod.mk.inj (Except.ok.inj h)
      exact .inr ⟨hopen, rfl, rfl⟩
  · rintro (⟨kind, args, t, hkind, haxis, hargs, hs, hpass⟩ | ⟨hopen, rfl, rfl⟩)
    · obtain ⟨hopen, hpass⟩ := Place.passes_cons_iff.1 hpass
      rw [if_pos hopen]
      simp only [kindTest?_eq_some_iff.2 hkind, beq_iff_eq, haxis, if_false]
      exact readArgument_eq_ok_iff.2 ⟨args, t, hargs, hs, hpass⟩
    · rw [if_neg hopen]

/-- The names of the axes are read as they are written, and no other word names an axis. -/
theorem Axis.ofName?_eq_some_iff {axis : Axis} :
    Axis.ofName? word = some axis ↔ axis.name = word := by
  constructor
  · intro h
    unfold Axis.ofName? at h
    split at h <;> cases h <;> rfl
  · rintro rfl
    cases axis <;> rfl

theorem Axis.principalKind_eq (axis : Axis) :
    axis.principalKind = if axis = .attribute then .attribute else .element := by
  cases axis <;> rfl

/-- A step ends here: the text ends, or a slash lies ahead. -/
def Ends (p : Place) : Prop :=
  p.rest = [] ∨ p.sees '/' = true

theorem Ends.stops (h : Ends q) : Stops q := by
  rcases h with h | h
  · simp [Stops, h]
  · exact .of_sees (by decide) h

theorem Ends.not_sees {c : Char} (h : Ends q) (hc : '/' ≠ c) : ¬ q.sees c = true := by
  rcases h with h | h
  · simp [Place.sees, h]
  · exact Place.not_sees_of_sees h hc

/-- What begins with a word begins with no other mark. -/
theorem Word.not_sees {w more : List Char} {t : NameTest} (hw : Word w t)
    (hp : p.Passes (w ++ more) q) {c : Char} (hc : isWordChar c = false) (hstar : c ≠ '*') :
    ¬ p.sees c = true := by
  obtain ⟨d, ds, rfl⟩ := List.exists_cons_of_ne_nil hw.ne_nil
  refine Place.not_sees_of_sees (c := d) hp.sees ?_
  rintro rfl
  exact hw.not_mem hc hstar List.mem_cons_self

/-- A test that is read behind its word is one of the grammar, and begins with that word. -/
theorem test_of_readTest {axis : Axis} {s : Step} {next : Place}
    (hword : readWord? p = some (word, next)) (h : readTest axis word next = .ok (s, q)) :
    ∃ more, Test axis (word.toList ++ more) s ∧ p.Passes (word.toList ++ more) q := by
  obtain ⟨hw, hpass⟩ := readWord?_sound hword
  obtain ⟨kind, args, t, hkind, haxis, hargs, rfl, hrest⟩ | ⟨-, rfl, rfl⟩ := readTest_eq_ok_iff.1 h
  · refine ⟨'(' :: args ++ [')'], ?_, hpass.trans hrest⟩
    rw [← List.append_assoc]
    exact .kind hkind haxis hargs
  · refine ⟨[], ?_, hpass.trans (.refl _)⟩
    rw [List.append_nil, axis.principalKind_eq]
    exact .name hw

/-- A test of the grammar is read: its word, then what stands behind it. -/
theorem readTest_of_test {axis : Axis} {cs : List Char} {s : Step} (h : Test axis cs s)
    (hp : p.Passes cs q) (hq : Ends q) :
    ∃ w t next, Word w t ∧ p.Passes w next ∧ Stops next ∧ ¬ next.sees ':' = true ∧
      readTest axis (ofList w) next = .ok (s, q) ∧
      (w = cs ∨ w ≠ ['*'] ∧ w ≠ ['.'] ∧ w ≠ ['.', '.']) := by
  cases h with
  | @name w t hw =>
    refine ⟨cs, t, q, hw, hp, hq.stops, hq.not_sees (by decide), ?_, .inl rfl⟩
    refine readTest_eq_ok_iff.2 (.inr ⟨hq.not_sees (by decide), ?_, rfl⟩)
    rw [hw.ofWord_eq, axis.principalKind_eq]
  | @kind w args kind t hw haxis hargs =>
    rw [List.append_assoc] at hp
    obtain ⟨next, hpw, hrest⟩ := Place.passes_append_iff.1 hp
    refine ⟨w, _, next, hw.toWord, hpw, .of_sees (by decide) hrest.sees,
      Place.not_sees_of_sees hrest.sees (by decide), ?_, .inr (by cases hw <;> decide)⟩
    refine readTest_eq_ok_iff.2 (.inl ⟨kind, args, t, ?_, haxis, hargs, rfl, hrest⟩)
    rwa [String.toList_ofList]

theorem segment_of_readNamed {s : Step} {next : Place} (hword : readWord? p = some (word, next))
    (hself : word ≠ ".") (hparent : word ≠ "..") (h : readNamed word next = .ok (s, q)) :
    ∃ cs, Segment cs s ∧ p.Passes cs q := by
  obtain ⟨hw, hpass⟩ := readWord?_sound hword
  unfold readNamed at h
  split at h
  · rename_i hcolon
    dsimp only at h
    split at h
    · rename_i hcolon'
      split at h
      · cases h
      · rename_i axis haxis
        split at h
        · cases h
        · rename_i test inside htest
          obtain ⟨more, hmore, hpass'⟩ := test_of_readTest htest h
          rw [← Axis.ofName?_eq_some_iff.1 haxis] at hpass
          exact ⟨_, .onAxis axis hmore, hpass.trans
            ((Place.passes_forward hcolon).trans ((Place.passes_forward hcolon').trans hpass'))⟩
    · cases h
  · obtain ⟨more, hmore, hpass'⟩ := test_of_readTest hword h
    refine ⟨_, .child hmore (fun heq => ?_) (fun heq => ?_), hpass'⟩
    · obtain ⟨hnil, -⟩ | ⟨hdot, -⟩ := List.append_eq_singleton_iff.1 heq
      · exact hw.ne_nil hnil
      · exact hself (String.toList_inj.1 hdot)
    · obtain ⟨hnil, -⟩ | ⟨tail, hdot, htail⟩ := List.append_eq_cons_iff.1 heq
      · exact hw.ne_nil hnil
      · obtain ⟨rfl, -⟩ | ⟨rfl, -⟩ := List.append_eq_singleton_iff.1 htail.symm
        · exact hself (String.toList_inj.1 hdot)
        · exact hparent (String.toList_inj.1 hdot)

theorem segment_of_readStep {s : Step} (h : readStep p = .ok (s, q)) :
    ∃ cs, Segment cs s ∧ p.Passes cs q := by
  unfold readStep at h
  split_ifs at h with hslash hat
  · obtain ⟨rfl, rfl⟩ := Prod.mk.inj (Except.ok.inj h)
    exact ⟨[], .between, .refl p⟩
  · split at h
    · cases h
    · rename_i word next hword
      obtain ⟨rfl, rfl⟩ := Prod.mk.inj (Except.ok.inj h)
      obtain ⟨hw, hpass⟩ := readWord?_sound hword
      exact ⟨_, .atName hw, (Place.passes_forward hat).trans hpass⟩
  · split at h
    · cases h
    · rename_i word next hword
      obtain ⟨hw, hpass⟩ := readWord?_sound hword
      split_ifs at h with hstar hself hparent
      · obtain ⟨rfl, rfl⟩ := Prod.mk.inj (Except.ok.inj h)
        rw [beq_iff_eq.1 hstar] at hpass
        exact ⟨['*'], .child (.name .star) (by decide) (by decide), hpass⟩
      · obtain ⟨rfl, rfl⟩ := Prod.mk.inj (Except.ok.inj h)
        rw [beq_iff_eq.1 hself] at hpass
        exact ⟨['.'], .self, hpass⟩
      · obtain ⟨rfl, rfl⟩ := Prod.mk.inj (Except.ok.inj h)
        rw [beq_iff_eq.1 hparent] at hpass
        exact ⟨['.', '.'], .parent, hpass⟩
      · exact segment_of_readNamed hword (by simpa using hself) (by simpa using hparent) h

/-- A step that begins with a word is read by its first word. -/
theorem readStep_of_word {w : List Char} {t : NameTest} {next : Place} (hw : Word w t)
    (hp : p.Passes w next) (hstop : Stops next) :
    readStep p =
      if w = ['*'] then .ok (⟨.child, .any, some .element, false⟩, next)
      else if w = ['.'] then .ok (⟨.self, .any, none, false⟩, next)
      else if w = ['.', '.'] then .ok (⟨.parent, .any, none, false⟩, next)
      else readNamed (ofList w) next := by
  have hp' : p.Passes (w ++ []) next := by rwa [List.append_nil]
  have hiff : ∀ cs : List Char, (ofList w == ofList cs) = true ↔ w = cs := fun cs => by
    rw [beq_iff_eq, String.ofList_inj]
  rw [readStep, if_neg (hw.not_sees hp' (by decide) (by decide)),
    if_neg (hw.not_sees hp' (by decide) (by decide)), readWord?_of_word hw hp hstop]
  have h₁ := hiff ['*']
  have h₂ := hiff ['.']
  have h₃ := hiff ['.', '.']
  simp only [← h₁, ← h₂, ← h₃]

theorem readStep_of_test {cs : List Char} {s : Step} (h : Test .child cs s) (hself : cs ≠ ['.'])
    (hparent : cs ≠ ['.', '.']) (hp : p.Passes cs q) (hq : Ends q) :
    readStep p = .ok (s, q) := by
  obtain ⟨w, t, next, hw, hpass, hstop, hcolon, htest, hwhole⟩ := readTest_of_test h hp hq
  rw [readStep_of_word hw hpass hstop]
  by_cases hstar : w = ['*']
  · subst hstar
    obtain ⟨_, _, _, hkind, -⟩ | ⟨-, rfl, rfl⟩ := readTest_eq_ok_iff.1 htest
    · cases hkind
    · rfl
  · have hdots : w ≠ ['.'] ∧ w ≠ ['.', '.'] := by
      rcases hwhole with rfl | ⟨-, hdots⟩
      · exact ⟨hself, hparent⟩
      · exact hdots
    rw [if_neg hstar, if_neg hdots.1, if_neg hdots.2, readNamed, if_neg hcolon, htest]

theorem readStep_of_segment {cs : List Char} {s : Step} (h : Segment cs s) (hp : p.Passes cs q)
    (hq : Ends q) (hempty : cs = [] → q.sees '/' = true) : readStep p = .ok (s, q) := by
  cases h with
  | between =>
    obtain rfl := Place.passes_nil_iff.1 hp
    rw [readStep, if_pos (hempty rfl)]
  | atName hw =>
    obtain ⟨hat, hpass⟩ := Place.passes_cons_iff.1 hp
    rw [readStep, if_neg (Place.not_sees_of_sees hat (by decide)), if_pos hat,
      readWord?_of_word hw hpass hq.stops]
    simp only [hw.ofWord_eq]
  | self =>
    rw [readStep_of_word (.name (by decide) (List.all_eq_true.1 (by decide))) hp hq.stops]
    rfl
  | parent =>
    rw [readStep_of_word (.name (by decide) (List.all_eq_true.1 (by decide))) hp hq.stops]
    rfl
  | child h hself hparent => exact readStep_of_test h hself hparent hp hq
  | onAxis axis h =>
    obtain ⟨next, hpass, hrest⟩ := Place.passes_append_iff.1 hp
    obtain ⟨hcolon, hrest⟩ := Place.passes_cons_iff.1 hrest
    obtain ⟨hcolon', hrest⟩ := Place.passes_cons_iff.1 hrest
    obtain ⟨w, t, inside, hw, hword, hstop, -, htest, -⟩ := readTest_of_test h hrest hq
    rw [readStep_of_word axis.word_name hpass (.of_sees (by decide) hcolon),
      if_neg (by cases axis <;> decide), if_neg (by cases axis <;> decide),
      if_neg (by cases axis <;> decide), String.ofList_toList, readNamed, if_pos hcolon]
    simp only [if_pos hcolon', Axis.ofName?_eq_some_iff.2 rfl, readWord?_of_word hw hword hstop,
      htest]

/-! ## Faults -/

theorem cutAt_of_readClose {step : Step} {e : FaultAt} (h : readClose step p = .error e) :
    p.CutAt e.1 := by
  unfold readClose at h
  split at h
  · cases h
  · obtain rfl := Except.error.inj h
    exact .here p

theorem cutAt_of_readArgument {axis : Axis} {kind : Option NodeKind} {e : FaultAt}
    (h : readArgument axis word kind p = .error e) : p.CutAt e.1 := by
  unfold readArgument at h
  split at h
  · rename_i hquote
    have hopen := Place.passes_forward hquote
    dsimp only at h
    split at h
    · have hstop : ∃ cs, (p.forward 1).Passes cs
          ((readWord? (p.forward 1)).getD ("", p.forward 1)).2 := by
        cases hword : readWord? (p.forward 1) with
        | none => exact ⟨[], .refl _⟩
        | some found => exact ⟨_, (readWord?_sound hword).2⟩
      obtain ⟨cs, hpass⟩ := hstop
      split at h
      · rename_i hend
        exact (cutAt_of_readClose h).behind ((hopen.trans hpass).trans (Place.passes_forward hend))
      · obtain rfl := Except.error.inj h
        exact (Place.CutAt.here _).behind (hopen.trans hpass)
    · obtain rfl := Except.error.inj h
      exact (Place.CutAt.here _).behind hopen
  · exact cutAt_of_readClose h

theorem cutAt_of_readTest {axis : Axis} {e : FaultAt} (h : readTest axis word p = .error e) :
    p.CutAt e.1 := by
  unfold readTest at h
  split at h
  · rename_i hopen
    refine Place.CutAt.behind (q := p.forward 1) ?_ (Place.passes_forward hopen)
    dsimp only at h
    split at h
    · obtain rfl := Except.error.inj h
      exact .here _
    · split at h
      · obtain rfl := Except.error.inj h
        exact .here _
      · exact cutAt_of_readArgument h
  · cases h

theorem cutAt_of_readNamed {e : FaultAt} (h : readNamed word p = .error e) : p.CutAt e.1 := by
  unfold readNamed at h
  split at h
  · rename_i hcolon
    refine Place.CutAt.behind (q := p.forward 1) ?_ (Place.passes_forward hcolon)
    dsimp only at h
    split at h
    · rename_i hcolon'
      refine Place.CutAt.behind (q := (p.forward 1).forward 1) ?_ (Place.passes_forward hcolon')
      split at h
      · obtain rfl := Except.error.inj h
        exact .here _
      · split at h
        · obtain rfl := Except.error.inj h
          exact .here _
        · rename_i hword
          exact (cutAt_of_readTest h).behind (readWord?_sound hword).2
    · obtain rfl := Except.error.inj h
      exact .here _
  · exact cutAt_of_readTest h

theorem cutAt_of_readStep {e : FaultAt} (h : readStep p = .error e) : p.CutAt e.1 := by
  unfold readStep at h
  split_ifs at h with hslash hat
  · split at h
    · obtain rfl := Except.error.inj h
      exact (Place.CutAt.here _).behind (Place.passes_forward hat)
    · cases h
  · split at h
    · obtain rfl := Except.error.inj h
      exact .here p
    · rename_i hword
      split_ifs at h
      exact (cutAt_of_readNamed h).behind (readWord?_sound hword).2

end MarkupQuery.Location
