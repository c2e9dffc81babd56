import MarkupQuery.Proofs.Location.StepReading

/-!
# The texts that compile

The compiler reads a path from left to right, one step after the other, and looks at a slash
without passing it where two slashes stand side by side. Here the run over all steps is compared
with the grammar, in which the text is cut at its slashes first: behind the steps already read come
the steps that the segments ahead write (`Continues`), one step for each round of the run
(`readFrom_eq_ok_iff`). So a text compiles exactly if it is a path, to the steps that it writes, and
every other text is refused at an offset at which it can be cut (`Path.compile_eq_ok_iff_writes`).
-/

namespace MarkupQuery.Location

open Text NodeTree

variable {p q : Place}

/-! ## Paths -/

/-- A step read at a place that is not the end, marked or not, and the steps behind it. -/
def readFrom (fromRoot : Bool) (done : List Step) (p : Place) : Except FaultAt (List Step) :=
  match readStep p with
  | .error e => .error e
  | .ok (step, next) =>
    match next.rest with
    | [] => .ok (({ step with fromRoot } :: done).reverse)
    | c :: _ =>
      if c == '/' then readSteps ({ step with fromRoot } :: done) (next.forward 1)
      else .error (next.offset, .missingSlash c)

theorem readSteps_eq (done : List Step) (p : Place) :
    readSteps done p =
      if p.atEnd then .ok done.reverse
      else readFrom (done.isEmpty && p.sees '/') done
        (stepPlace (done.isEmpty && p.sees '/') p) := by
  rw [readSteps, readFrom]
  dsimp only
  split
  · rfl
  · split
    · rename_i h
      simp only [h]
    · rename_i h
      simp only [h]
      split
      · rename_i hnext
        simp only [hnext]
      · rename_i hnext
        simp only [hnext]

theorem readSteps_cons_eq (d : Step) (done : List Step) (p : Place) :
    readSteps (d :: done) p =
      if p.atEnd then .ok (d :: done).reverse else readFrom false (d :: done) p :=
  readSteps_eq (d :: done) p

/-- The steps behind those already read are the ones that the segments ahead write. -/
def Continues (done : List Step) (p : Place) (steps : List Step) : Prop :=
  ∃ more, List.Forall₂ Segment (segments p.rest) more ∧ steps = done.reverse ++ more

theorem readFrom_eq_ok_iff {fromRoot : Bool} {done steps : List Step} (hne : p.rest ≠ [])
    (ih : ∀ d done next, next.rest.length < p.rest.length →
      (readSteps (d :: done) next = .ok steps ↔ Continues (d :: done) next steps)) :
    readFrom fromRoot done p = .ok steps ↔
      ∃ s more, List.Forall₂ Segment (segments p.rest) (s :: more) ∧
        steps = done.reverse ++ { s with fromRoot } :: more := by
  constructor
  · intro h
    unfold readFrom at h
    split at h
    · cases h
    · rename_i s next hstep
      obtain ⟨cs, hseg, hpass⟩ := segment_of_readStep hstep
      split at h
      · rename_i hnext
        rw [hpass.rest_eq, hnext, List.append_nil] at hne ⊢
        rw [segments_of_not_mem hne hseg.slash_not_mem]
        exact ⟨s, [], .cons hseg .nil, by simpa using (Except.ok.inj h).symm⟩
      · rename_i c r hnext
        split at h
        · rename_i hc
          rw [beq_iff_eq.1 hc] at hnext
          have hlen : (next.forward 1).rest.length < p.rest.length := by
            simp only [Place.rest_forward, hpass.rest_eq, hnext, List.length_append,
              List.drop_succ_cons, List.drop_zero, List.length_cons]
            omega
          obtain ⟨more, hmore, rfl⟩ := (ih _ _ _ hlen).1 h
          rw [Place.rest_forward, hnext] at hmore
          rw [hpass.rest_eq, hnext, segments_append_slash hseg.slash_not_mem]
          exact ⟨s, more, .cons hseg hmore, by simp⟩
        · cases h
  · rintro ⟨s, more, hsegs, rfl⟩
    by_cases hslash : '/' ∈ p.rest
    · obtain ⟨cs, r, hrest, hcs⟩ := List.eq_append_cons_of_mem hslash
      rw [hrest, segments_append_slash hcs] at hsegs
      obtain ⟨hseg, hmore⟩ := List.forall₂_cons.1 hsegs
      have hpass := Place.passes_of_rest_eq hrest
      have hsees : Place.sees ⟨p.offset + byteLength cs, '/' :: r⟩ '/' = true := rfl
      rw [readFrom, readStep_of_segment hseg hpass (.inr hsees) fun _ => hsees]
      refine (ih _ _ _ ?_).2 ⟨more, hmore, by simp⟩
      simp only [Place.rest_forward, hrest, List.drop_succ_cons, List.drop_zero,
        List.length_append, List.length_cons]
      omega
    · rw [segments_of_not_mem hne hslash] at hsegs
      obtain ⟨hseg, hmore⟩ := List.forall₂_cons.1 hsegs
      obtain rfl := List.forall₂_nil_left_iff.1 hmore
      have hpass := Place.passes_of_rest_eq (List.append_nil p.rest).symm
      rw [readFrom, readStep_of_segment hseg hpass (.inl rfl) fun h => absurd h hne]
      simp

theorem readSteps_cons_eq_ok_iff {d : Step} {done steps : List Step} :
    readSteps (d :: done) p = .ok steps ↔ Continues (d :: done) p steps := by
  induction hlen : p.rest.length using Nat.strongRecOn generalizing p d done with
  | ind n ih =>
    subst hlen
    rw [readSteps_cons_eq, Place.atEnd, Continues]
    by_cases hend : p.rest = []
    · rw [if_pos (by simp [hend]), hend, segments_nil]
      simp [eq_comm]
    · rw [if_neg (by simp [hend]), readFrom_eq_ok_iff hend fun _ _ _ hlt => ih _ hlt rfl]
      constructor
      · rintro ⟨s, more, hsegs, rfl⟩
        rw [fromRoot_eq_of_forall₂ hsegs]
        exact ⟨s :: more, hsegs, rfl⟩
      · rintro ⟨more, hsegs, rfl⟩
        obtain ⟨s, more, rfl⟩ := exists_cons_of_forall₂ hend hsegs
        exact ⟨s, more, hsegs, by rw [fromRoot_eq_of_forall₂ hsegs]⟩

/-- The steps from the start of a text on are the ones that it writes. -/
theorem readSteps_start_eq_ok_iff {text : String} {steps : List Step} (hne : text.toList ≠ [])
    (hroot : text.toList ≠ ['/']) :
    readSteps [] (Place.start text) = .ok steps ↔ Writes text.toList steps := by
  rw [readSteps_eq, Place.atEnd, if_neg (by simpa [Place.start] using hne)]
  have ih : ∀ p : Place, ∀ d done next, next.rest.length < p.rest.length →
      (readSteps (d :: done) next = .ok steps ↔ Continues (d :: done) next steps) :=
    fun _ _ _ _ _ => readSteps_cons_eq_ok_iff
  by_cases hslash : (Place.start text).sees '/' = true
  · obtain ⟨cs, hcs⟩ := Place.sees_iff.1 hslash
    have hcs' : text.toList = '/' :: cs := hcs
    have hrest : (stepPlace true (Place.start text)).rest = cs := by
      rw [stepPlace, Place.rest_forward, hcs]
      rfl
    have hnil : cs ≠ [] := by
      rintro rfl
      exact hroot hcs'
    rw [hslash, List.isEmpty_nil, Bool.and_self, readFrom_eq_ok_iff (hrest ▸ hnil) (ih _), hrest,
      hcs']
    constructor
    · rintro ⟨s, more, hsegs, rfl⟩
      exact .fromRoot hnil hsegs
    · intro h
      cases h with
      | root => exact absurd rfl hnil
      | fromRoot _ hsegs => exact ⟨_, _, hsegs, rfl⟩
      | fromHere _ hslash => exact absurd rfl hslash
  · have hhead : text.toList.head? ≠ some '/' := by
      simpa [Place.sees, Place.start] using hslash
    have hrest : (stepPlace false (Place.start text)).rest = text.toList := rfl
    rw [eq_false_of_ne_true hslash, List.isEmpty_nil, Bool.and_false,
      readFrom_eq_ok_iff (hrest ▸ hne) (ih _), hrest]
    constructor
    · rintro ⟨s, more, hsegs, rfl⟩
      rw [fromRoot_eq_of_forall₂ hsegs]
      exact .fromHere hne hhead hsegs
    · generalize text.toList = cs at hne hhead
      intro h
      cases h with
      | root => exact absurd rfl hhead
      | fromRoot _ _ => exact absurd rfl hhead
      | fromHere _ _ hsegs =>
        obtain ⟨s, more, rfl⟩ := exists_cons_of_forall₂ hne hsegs
        exact ⟨s, more, hsegs, by rw [fromRoot_eq_of_forall₂ hsegs]; rfl⟩

theorem exists_passes_stepPlace (done : List Step) (p : Place) :
    ∃ cs, p.Passes cs (stepPlace (done.isEmpty && p.sees '/') p) := by
  cases hfirst : done.isEmpty && p.sees '/' with
  | false => exact ⟨[], .refl p⟩
  | true => exact ⟨['/'], Place.passes_forward (Bool.and_eq_true_iff.1 hfirst).2⟩

theorem cutAt_of_readSteps {done : List Step} {e : FaultAt} (h : readSteps done p = .error e) :
    p.CutAt e.1 := by
  induction hlen : p.rest.length using Nat.strongRecOn generalizing p done with
  | ind n ih =>
    subst hlen
    obtain ⟨mark, hmark⟩ := exists_passes_stepPlace done p
    rw [readSteps_eq] at h
    split at h
    · cases h
    · refine Place.CutAt.behind ?_ hmark
      unfold readFrom at h
      split at h
      · rename_i hstep
        obtain rfl := Except.error.inj h
        exact cutAt_of_readStep hstep
      · rename_i s next hstep
        obtain ⟨cs, -, hpass⟩ := segment_of_readStep hstep
        refine Place.CutAt.behind ?_ hpass
        split at h
        · cases h
        · rename_i c r hnext
          split at h
          · rename_i hc
            have hslash := Place.passes_forward (Place.sees_iff.2 ⟨r, beq_iff_eq.1 hc ▸ hnext⟩)
            refine (ih _ ?_ h rfl).behind hslash
            rw [(hmark.trans (hpass.trans hslash)).rest_eq]
            simp only [List.length_append, List.length_cons, List.length_nil]
            omega
          · obtain rfl := Except.error.inj h
            exact .here next

theorem cutAt_of_readPath {text : String} {e : FaultAt} (h : readPath text = .error e) :
    (Place.start text).CutAt e.1 := by
  unfold readPath at h
  split_ifs at h
  · obtain rfl := Except.error.inj h
    exact .here _
  · exact cutAt_of_readSteps h

/-! ## Compiling -/

theorem readPath_eq_ok_iff {text : String} {steps : List Step} :
    readPath text = .ok steps ↔ Writes text.toList steps := by
  unfold readPath
  split_ifs with hempty hroot
  · obtain rfl := String.isEmpty_iff.1 hempty
    refine iff_of_false not_false fun h => ?_
    generalize hcs : "".toList = cs at h
    cases h <;> simp_all
  · obtain rfl := beq_iff_eq.1 hroot
    rw [Except.ok.injEq]
    constructor
    · rintro rfl
      exact .root
    · intro h
      generalize hcs : "/".toList = cs at h
      cases h with
      | root => rfl
      | fromRoot hne _ => exact absurd (List.cons.inj hcs).2.symm hne
      | fromHere _ hslash _ => exact absurd (hcs ▸ rfl) hslash
  · refine readSteps_start_eq_ok_iff ?_ ?_
    · simpa using hempty
    · intro h
      exact hroot (beq_iff_eq.2 (String.toList_inj.1 h))

/-- A text writes one list of steps at most: they are what is read from it. -/
theorem Writes.unique {cs : List Char} {steps steps' : List Step} (h : Writes cs steps)
    (h' : Writes cs steps') : steps = steps' := by
  rw [← String.toList_ofList (l := cs), ← readPath_eq_ok_iff] at h h'
  exact Except.ok.inj (h.symm.trans h')

theorem Path.compile_eq_ok_iff {text : String} {path : Path} :
    Path.compile text = .ok path ↔ path.text = text ∧ Writes text.toList path.steps := by
  obtain ⟨source, steps⟩ := path
  rw [← readPath_eq_ok_iff, Path.compile]
  cases readPath text with
  | ok steps => simp [eq_comm]
  | error e => simp

theorem steps_ne_nil_of_compile {text : String} {path : Path} (h : Path.compile text = .ok path) :
    path.steps ≠ [] :=
  (Path.compile_eq_ok_iff.1 h).2.ne_nil

/-- **A text compiles exactly if it is a path, to the steps that it writes.** Every other text is
refused at an offset at which it can be cut. -/
theorem Path.compile_eq_ok_iff_writes (text : String) :
    (∀ path, Path.compile text = .ok path ↔
      path.text = text ∧ Writes text.toList path.steps) ∧
    ∀ e, Path.compile text = .error e →
      e.path = text ∧ e.offset ≤ text.utf8ByteSize ∧ String.Pos.Raw.IsValid text ⟨e.offset⟩ := by
  unfold Path.compile
  constructor
  · rintro ⟨source, steps⟩
    rw [← readPath_eq_ok_iff]
    cases readPath text with
    | ok steps => simp [eq_comm]
    | error e => simp
  · intro e he
    cases hread : readPath text with
    | ok steps => simp [hread] at he
    | error fault =>
      obtain ⟨offset, cause⟩ := fault
      simp only [hread, Except.error.injEq] at he
      subst he
      obtain ⟨cs, q, hpass, hoffset⟩ := cutAt_of_readPath hread
      have hvalid := hoffset ▸ hpass.isValid
      exact ⟨rfl, hvalid.le_rawEndPos, hvalid⟩

/-- A path with an empty segment, an empty target and a slash at the end. -/
def Path.sample : Path :=
  ⟨"//a/processing-instruction(\"\")/", [⟨.descendantOrSelf, .any, none, true⟩,
    ⟨.child, .name "a", some .element, false⟩, ⟨.child, .name "", some .instruction, false⟩]⟩

/-- The sample compiles; a text whose first character takes two bytes is refused behind it. -/
theorem Path.writes_of_compile_sample :
    Path.compile Path.sample.text = .ok Path.sample ∧
    Writes Path.sample.text.toList Path.sample.steps ∧
    Path.compile "é[1]" = .error ⟨"é[1]", 2, .missingSlash '['⟩ ∧
    2 ≤ "é[1]".utf8ByteSize ∧ String.Pos.Raw.IsValid "é[1]" ⟨2⟩ := by
  have hpath : Path.compile Path.sample.text = .ok Path.sample := by decide +kernel
  have hfault : Path.compile "é[1]" = .error ⟨"é[1]", 2, .missingSlash '['⟩ := by decide +kernel
  exact ⟨hpath, (((compile_eq_ok_iff_writes _).1 _).1 hpath).2, hfault,
    ((compile_eq_ok_iff_writes _).2 _ hfault).2⟩

end MarkupQuery.Location
