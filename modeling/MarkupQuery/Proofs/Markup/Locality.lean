import MarkupQuery.Proofs.Markup.Declarations
import MarkupQuery.Proofs.Text.Lookahead

/-!
# Lexemes wherever they stand

A lexeme is read from its own text. What lies further on matters only as far as one character, which
ends a text or a name (`Lexeme.exists_readsAs`), and what lies behind only for the places in it
(`Lexeme.read_moved`). `Lexeme.unplaced` is a lexeme without these places.

`Lexeme.Reaches` states which lexemes are read up to a place. If a `<` stands there, the same
lexemes are read from the same text in front of any other `<` (`Lexeme.Reaches.local`): openers have
no `<` but the first character, so none goes on behind that text. What lies ahead of a place gives
the same lexemes wherever it starts (`Lexeme.all_moved`).
-/

namespace MarkupQuery.Markup

open Text Text.Place

variable {p q : Place} {as cs ds : List Char}

/-! ## What comes further on -/

namespace Construct

/-- A `<` behind a text is not part of the opener with which the text begins. -/
theorem opener_isPrefix_append_iff (construct : Construct) (hne : cs ≠ []) :
    construct.opener <+: cs ++ '<' :: as ↔ construct.opener <+: cs := by
  refine ⟨fun h => ?_, fun h => h.trans (List.prefix_append ..)⟩
  rcases Nat.le_total construct.opener.length cs.length with hle | hle
  · exact List.prefix_of_prefix_length_le h (List.prefix_append ..) hle
  · obtain ⟨tail, htail⟩ := List.prefix_of_prefix_length_le (List.prefix_append ..) h hle
    cases tail with
    | nil => exact ⟨[], by rw [List.append_nil] at htail ⊢; exact htail.symm⟩
    | cons c tail =>
      rw [← htail, List.prefix_append_right_inj, List.cons_prefix_cons] at h
      have hangle : '<' ∉ construct.opener.tail := by cases construct <;> decide
      rw [← htail, List.tail_append_of_ne_nil hne, h.1] at hangle
      exact absurd (List.mem_append_right _ (List.mem_cons_self ..)) hangle

theorem starting_local (hne : cs ≠ []) (as bs : List Char) :
    starting (cs ++ '<' :: as) = starting (cs ++ '<' :: bs) := by
  have hbegins (construct : Construct) : construct.opener.isPrefixOf (cs ++ '<' :: as) =
      construct.opener.isPrefixOf (cs ++ '<' :: bs) := by
    rw [Bool.eq_iff_iff, List.isPrefixOf_iff_prefix, List.isPrefixOf_iff_prefix,
      construct.opener_isPrefix_append_iff hne, construct.opener_isPrefix_append_iff hne]
  rw [starting, starting, funext hbegins]

end Construct

/-- A document type declaration ends behind the same text. -/
theorem doctypeEnd?_local (hopener : Construct.doctype.opener <+: p.rest)
    (h : doctypeEnd? p = some q) : ∃ cs, p.Passes (Construct.doctype.opener ++ cs) q ∧
      ∀ p' q', p'.Passes (Construct.doctype.opener ++ cs) q' → doctypeEnd? p' = some q' := by
  obtain ⟨n, hn, rfl⟩ := Option.map_eq_some_iff.1 h
  obtain ⟨as, bs, hrest, rfl, hlocal⟩ := exists_of_doctypeEndFrom hn
  have hlength : 0 + as.length + 1 = (as ++ ['>']).length := by
    rw [List.length_append, List.length_singleton, Nat.zero_add]
  refine ⟨as ++ ['>'], (passes_of_isPrefix hopener).trans ?_, fun p' q' hpass => ?_⟩
  · rw [hlength]
    exact passes_forward_length (by rw [hrest, List.append_assoc]; rfl)
  · have hbody := hpass.of_append
    have hend := hlocal q'.rest
    rw [doctypeEnd?, hbody.rest_eq, List.append_assoc, List.singleton_append, hend, Option.map_some,
      hlength, hbody.forward_eq]

namespace Lexeme

variable {lexeme : Lexeme} {construct : Construct}

/-- A lexeme without the places in it. -/
def unplaced : Lexeme → Lexeme
  | .startTag name attributes closes _ => .startTag name attributes closes ⟨0, []⟩
  | .endTag name _ => .endTag name 0
  | .text content => .text content
  | .comment content => .comment content
  | .instruction target content => .instruction target content

/-- Wherever the text stands in front of the character `ahead`, or at the end if there is none, it
is read as the lexeme, apart from the places in it. -/
def ReadsAs (construct : Construct) (cs : List Char) (ahead : Option Char) (lexeme : Lexeme) :
    Prop :=
  ∀ p q, p.Passes cs q → q.rest.head? = ahead →
    ∃ lexeme', read construct p = (.ok lexeme', q) ∧ lexeme'.unplaced = lexeme.unplaced

theorem exists_readsAs_readText (h : readText p = (.ok lexeme, q)) :
    ∃ cs, p.Passes cs q ∧ ReadsAs .characterData cs q.rest.head? lexeme := by
  obtain ⟨hlexeme, rfl⟩ := Prod.mk.inj h
  obtain rfl := Except.ok.inj hlexeme
  obtain ⟨hpass, hcs, hend⟩ := span_eq_iff.1 (Eq.refl (p.span fun c => c != '<'))
  refine ⟨_, hpass, fun p' q' hpass' hhead => ⟨_, ?_, rfl⟩⟩
  rw [read, readText, span_eq_iff.2 ⟨hpass', hcs, hhead ▸ hend⟩]

/-- Comments and CDATA sections are read up to what ends them. -/
theorem exists_readsAs_of_delimited {needle : List Char} {result : List Char → Lexeme}
    (hread : ∀ p, read construct p =
      match (p.forward construct.opener.length).upTo? needle with
      | none => (.error (.unexpectedEnd construct p.offset), p.forward construct.opener.length)
      | some (content, stop) => (.ok (result content), stop.forward needle.length))
    (hopener : construct.opener <+: p.rest) (h : read construct p = (.ok lexeme, q)) :
    ∃ cs, p.Passes cs q ∧ ReadsAs construct cs q.rest.head? lexeme := by
  rw [hread] at h
  split at h
  · cases h
  · rename_i content stop hfound
    obtain ⟨hlexeme, rfl⟩ := Prod.mk.inj h
    obtain rfl := Except.ok.inj hlexeme
    obtain ⟨hcontent, hneedle⟩ := passes_of_upTo? hfound
    refine ⟨_, (passes_of_isPrefix hopener).trans (hcontent.trans (passes_of_isPrefix hneedle)),
      fun p' q' hpass _ => ⟨_, ?_, rfl⟩⟩
    obtain ⟨stop', hfound', rfl⟩ := upTo?_local hfound hpass.of_append
    rw [hread, hfound']

theorem exists_readsAs_readInstruction (hopener : Construct.instruction.opener <+: p.rest)
    (h : readInstruction p = (.ok lexeme, q)) :
    ∃ cs, p.Passes cs q ∧ ReadsAs .instruction cs q.rest.head? lexeme := by
  rw [readInstruction] at h
  split at h
  · cases h
  · rename_i target afterName hname
    split at h
    · cases h
    · rename_i content stop hfound
      split at h
      · rename_i hblank
        obtain ⟨hlexeme, rfl⟩ := Prod.mk.inj h
        obtain rfl := Except.ok.inj hlexeme
        obtain ⟨hcontent, hneedle⟩ := passes_of_upTo? hfound
        have hbehind := hcontent.trans (passes_of_isPrefix hneedle)
        refine ⟨_, (passes_of_isPrefix hopener).trans ((passes_of_name? hname).trans hbehind),
          fun p' q' hpass _ => ⟨_, ?_, rfl⟩⟩
        obtain ⟨afterName', hname', hbehind'⟩ := passes_append_iff.1 hpass.of_append
        have hhead := hbehind.head?_eq hbehind' (by simp)
        obtain ⟨stop', hfound', rfl⟩ := upTo?_local hfound hbehind'
        rw [read, readInstruction, name?_local hname hname' hhead]
        dsimp only
        rw [hfound']
        dsimp only
        rw [if_pos hblank]
        rfl
      · cases h

theorem exists_readsAs_readEndTag (hopener : Construct.endTag.opener <+: p.rest)
    (h : readEndTag p = (.ok lexeme, q)) :
    ∃ cs, p.Passes cs q ∧ ReadsAs .endTag cs q.rest.head? lexeme := by
  rw [readEndTag] at h
  dsimp only at h
  split at h
  · cases h
  · rename_i name afterName hname
    split at h
    · rename_i hsees
      obtain ⟨hlexeme, rfl⟩ := Prod.mk.inj h
      obtain rfl := Except.ok.inj hlexeme
      have hbehind := afterName.passes_skipBlank.trans (passes_forward hsees)
      refine ⟨_, (passes_of_isPrefix hopener).trans ((passes_of_name? hname).trans hbehind),
        fun p' q' hpass _ => ⟨.endTag name p'.offset, ?_, rfl⟩⟩
      obtain ⟨afterName', hname', hbehind'⟩ := passes_append_iff.1 hpass.of_append
      have hhead := hbehind.head?_eq hbehind' (by simp)
      obtain ⟨stop', hblanks, hend⟩ := passes_append_iff.1 hbehind'
      obtain ⟨hsees', rfl⟩ := passes_singleton_iff.1 hend
      obtain ⟨rest, hrest⟩ := sees_iff.1 hsees'
      have hskip : afterName'.skipBlank = stop' :=
        skipBlank_eq hblanks (List.all_eq_true.1 List.all_takeWhile) (by rw [hrest]; rfl)
      rw [read, readEndTag, name?_local hname hname' hhead]
      dsimp only
      rw [hskip, if_pos hsees']
    · split at h <;> cases h

theorem exists_readsAs_readStartTag (hopener : Construct.startTag.opener <+: p.rest)
    (h : readStartTag p = (.ok lexeme, q)) :
    ∃ cs, p.Passes cs q ∧ ReadsAs .startTag cs q.rest.head? lexeme := by
  rw [readStartTag] at h
  dsimp only at h
  split at h
  · cases h
  · rename_i name afterName hname
    split at h
    · cases h
    · rename_i inner stop htag
      split at h
      · cases h
      · rename_i attributes hparse
        obtain ⟨hlexeme, rfl⟩ := Prod.mk.inj h
        obtain rfl := Except.ok.inj hlexeme
        obtain ⟨hinner, hend⟩ := passes_of_upToTagEnd? htag
        have hbehind := hinner.trans (passes_forward hend)
        refine ⟨_, (passes_of_isPrefix hopener).trans ((passes_of_name? hname).trans hbehind),
          fun p' q' hpass _ => ?_⟩
        obtain ⟨afterName', hname', hbehind'⟩ := passes_append_iff.1 hpass.of_append
        have hhead := hbehind.head?_eq hbehind' (by simp)
        obtain ⟨stop', htag', rfl⟩ := upToTagEnd?_local htag hbehind'
        have hlist := RawAttribute.parse_eq_ok_iff.1 hparse
        refine ⟨.startTag name attributes (splitSlash inner).2 afterName', ?_, rfl⟩
        rw [read, readStartTag, name?_local hname hname' hhead]
        dsimp only
        rw [htag']
        dsimp only
        rw [RawAttribute.parse_of_listText hlist]

/-- A construct is read as its text is read anywhere. -/
theorem exists_readsAs (hopener : construct.opener <+: p.rest)
    (h : read construct p = (.ok lexeme, q)) :
    ∃ cs, p.Passes cs q ∧ ReadsAs construct cs q.rest.head? lexeme := by
  cases construct with
  | characterData => exact exists_readsAs_readText h
  | comment => exact exists_readsAs_of_delimited (fun _ => rfl) hopener h
  | cdata => exact exists_readsAs_of_delimited (fun _ => rfl) hopener h
  | doctype | declaration => cases h
  | instruction => exact exists_readsAs_readInstruction hopener h
  | endTag => exact exists_readsAs_readEndTag hopener h
  | startTag => exact exists_readsAs_readStartTag hopener h

/-- The next lexeme is read as its text is read anywhere, in front of the same text up to a `<`. -/
theorem next_local (h : next p = (.ok (some lexeme), q)) (hq : q.rest = ds ++ '<' :: as) :
    ∃ cs, p.Passes cs q ∧ ∀ p' q' bs, p'.Passes cs q' → q'.rest = ds ++ '<' :: bs →
      ∃ lexeme', next p' = (.ok (some lexeme'), q') ∧ lexeme'.unplaced = lexeme.unplaced := by
  have hlt := length_rest_of_next h
  fun_induction next p with
  | case1 p hp => cases h
  | case2 p hp hstarting hr => cases h
  | case3 p hp hstarting r hr ih =>
    obtain ⟨cs, hcs, hlocal⟩ := ih h (length_rest_of_next h)
    obtain ⟨declared, hdeclared, hend⟩ :=
      doctypeEnd?_local (hstarting ▸ Construct.opener_isPrefix p.rest) hr
    refine ⟨_, hdeclared.trans hcs, fun p' q' bs hpass hq' => ?_⟩
    obtain ⟨r', hdeclared', hcs'⟩ := passes_append_iff.1 hpass
    obtain ⟨lexeme', hnext, hunplaced⟩ := hlocal r' q' bs hcs' hq'
    have hstarting' : Construct.starting p'.rest = .doctype := by
      rw [hdeclared'.rest_eq]
      rfl
    exact ⟨lexeme', (next_of_doctype hstarting' (hend p' r' hdeclared')).trans hnext, hunplaced⟩
  | case4 p hp e r hnot hread => cases h
  | case5 p hp l r hnot hread =>
    obtain ⟨hlexeme, rfl⟩ := Prod.mk.inj h
    obtain rfl := Option.some.inj (Except.ok.inj hlexeme)
    obtain ⟨cs, hcs, hreads⟩ := exists_readsAs (Construct.opener_isPrefix p.rest) hread
    refine ⟨cs, hcs, fun p' q' bs hpass hq' => ?_⟩
    have hne : cs ≠ [] := by
      rintro rfl
      rw [passes_nil_iff.1 hcs] at hlt
      exact absurd hlt (Nat.lt_irrefl _)
    obtain ⟨lexeme', hread', hunplaced⟩ := hreads p' q' hpass (by rw [hq, hq']; cases ds <;> rfl)
    have hstarting : Construct.starting p'.rest = Construct.starting p.rest := by
      rw [hpass.rest_eq, hcs.rest_eq, hq, hq', ← List.append_assoc, ← List.append_assoc]
      exact Construct.starting_local (List.append_ne_nil_of_left_ne_nil hne ds) bs as
    have hne' : p'.rest ≠ [] := by
      rw [hpass.rest_eq]
      exact List.append_ne_nil_of_left_ne_nil hne _
    exact ⟨lexeme', next_of_read hne' hstarting hread', hunplaced⟩

/-! ## Lexemes up to a place -/

/-- From the place `p` the lexemes are read one after the other. To the place `r` only document type
declarations lead then. -/
inductive Reaches : Place → List Lexeme → Place → Prop
  | leads {p r : Place} (h : Leads p r) : Reaches p [] r
  | reads {p q r : Place} {lexeme : Lexeme} {lexemes : List Lexeme}
      (hnext : next p = (.ok (some lexeme), q)) (h : Reaches q lexemes r) :
      Reaches p (lexeme :: lexemes) r

variable {lexemes : List Lexeme} {r : Place}

theorem all_congr (h : next p = next q) : all p = all q := by
  cases hnext : next q with
  | mk result r =>
    rcases result with e | _ | lexeme
    · rw [all_of_error hnext, all_of_error (h.trans hnext)]
    · rw [all_of_none hnext, all_of_none (h.trans hnext)]
    · rw [all_of_some hnext, all_of_some (h.trans hnext)]

/-- What is ahead is what is read up to a place and what is ahead there. -/
theorem Reaches.all_eq (h : Reaches p lexemes r) : all p = (lexemes ++ (all r).1, (all r).2) := by
  induction h with
  | leads h => rw [all_congr h.next_eq, List.nil_append]
  | reads hnext _ ih => rw [all_of_some hnext, ih, List.cons_append]

theorem Leads.local (h : Leads p r) : ∃ cs, p.Passes cs r ∧
    ∀ p' r', p'.Passes cs r' → Leads p' r' := by
  induction h with
  | here p =>
    refine ⟨[], .refl p, fun p' r' hpass => ?_⟩
    rw [passes_nil_iff.1 hpass]
    exact .here p'
  | behind hstarting hend _ ih =>
    obtain ⟨cs, hcs, hlocal⟩ := ih
    obtain ⟨declared, hdeclared, hend⟩ :=
      doctypeEnd?_local (hstarting ▸ Construct.opener_isPrefix _) hend
    refine ⟨_, hdeclared.trans hcs, fun p' r' hpass => ?_⟩
    obtain ⟨q', hdeclared', hcs'⟩ := passes_append_iff.1 hpass
    have hstarting' : Construct.starting p'.rest = .doctype := by
      rw [hdeclared'.rest_eq]
      rfl
    exact .behind hstarting' (hend p' q' hdeclared') (hlocal q' r' hcs')

theorem Reaches.local (h : Reaches p lexemes r) (hr : r.rest = '<' :: as) :
    ∃ cs, p.Passes cs r ∧ ∀ p' r' bs, p'.Passes cs r' → r'.rest = '<' :: bs →
      ∃ lexemes', Reaches p' lexemes' r' ∧ lexemes'.map unplaced = lexemes.map unplaced := by
  induction h with
  | leads h =>
    obtain ⟨cs, hcs, hlocal⟩ := h.local
    exact ⟨cs, hcs, fun p' r' bs hpass _ => ⟨[], .leads (hlocal p' r' hpass), rfl⟩⟩
  | reads hnext _ ih =>
    obtain ⟨ds, hds, hlocal⟩ := ih hr
    obtain ⟨cs, hcs, hnext'⟩ := next_local hnext (hds.rest_eq.trans (by rw [hr]))
    refine ⟨_, hcs.trans hds, fun p' r' bs hpass hr' => ?_⟩
    obtain ⟨q', hcs', hds'⟩ := passes_append_iff.1 hpass
    obtain ⟨lexeme', hread, hlexeme⟩ := hnext' p' q' bs hcs' (by rw [hds'.rest_eq, hr'])
    obtain ⟨lexemes', hreaches, hlexemes⟩ := hlocal q' r' bs hds' hr'
    exact ⟨lexeme' :: lexemes', .reads hread hreaches, by
      rw [List.map_cons, List.map_cons, hlexeme, hlexemes]⟩

/-! ## The offset of the start -/

/-- The lexeme as it is read with `n` more bytes behind. -/
def moved (n : Nat) : Lexeme → Lexeme
  | .startTag name attributes closes afterName =>
    .startTag name attributes closes (afterName.moved n)
  | .endTag name offset => .endTag name (offset + n)
  | .text content => .text content
  | .comment content => .comment content
  | .instruction target content => .instruction target content

@[simp]
theorem unplaced_moved (n : Nat) (lexeme : Lexeme) :
    (lexeme.moved n).unplaced = lexeme.unplaced := by
  cases lexeme <;> rfl

end Lexeme

/-- The error as it is reported with `n` more bytes behind. -/
def ReadError.moved (n : Nat) : ReadError → ReadError
  | .invalidUtf8 offset => .invalidUtf8 (offset + n)
  | .unexpectedEnd construct offset => .unexpectedEnd construct (offset + n)
  | .malformed construct offset => .malformed construct (offset + n)
  | .attribute fault offset => .attribute fault (offset + n)
  | .duplicateAttribute name offset => .duplicateAttribute name (offset + n)
  | .tagMismatch opened closed offset => .tagMismatch opened closed (offset + n)

theorem RawAttribute.parse_moved (n base : Nat) (text : List Char) :
    parse (base + n) text = (parse base text).mapError (.moved n) := by
  obtain ⟨attributes, hlist⟩ | ⟨before, after, fault, rfl, hbreak⟩ :=
    listText_or_listBreak true text
  · rw [parse_of_listText hlist, parse_of_listText hlist]
    rfl
  · rw [parse_of_listBreak hbreak, parse_of_listBreak hbreak, Nat.add_right_comm]
    rfl

theorem doctypeEnd?_moved (n : Nat) (p : Place) :
    doctypeEnd? (p.moved n) = (doctypeEnd? p).map (Place.moved n) := by
  rw [doctypeEnd?, doctypeEnd?, Option.map_map, forward_moved, rest_moved]
  exact congrArg (Option.map · _) (funext fun k => forward_moved ..)

namespace Lexeme

theorem read_moved (n : Nat) (construct : Construct) (p : Place) :
    read construct (p.moved n) =
      (((read construct p).1.map (moved n)).mapError (.moved n), (read construct p).2.moved n) := by
  cases construct with
  | characterData => simp [read, readText, Except.map, Except.mapError, moved]
  | doctype | declaration => rfl
  | comment =>
    simp only [read, readComment, forward_moved, upTo?_moved]
    cases (p.forward Construct.comment.opener.length).upTo? ['-', '-', '>'] with
    | none => rfl
    | some found => simp [Except.map, Except.mapError, moved]
  | cdata =>
    simp only [read, readCdata, forward_moved, upTo?_moved]
    cases (p.forward Construct.cdata.opener.length).upTo? [']', ']', '>'] with
    | none => rfl
    | some found => simp [Except.map, Except.mapError, moved]
  | instruction =>
    simp only [read, readInstruction, forward_moved, name?_moved]
    cases (p.forward Construct.instruction.opener.length).name? with
    | none => rfl
    | some named =>
      simp only [Option.map_some, Prod.map, upTo?_moved]
      cases named.2.upTo? ['?', '>'] with
      | none => rfl
      | some found =>
        simp only [Option.map_some, Prod.map, forward_moved, id]
        split <;> rfl
  | endTag =>
    simp only [read, readEndTag, forward_moved, name?_moved]
    cases (p.forward Construct.endTag.opener.length).name? with
    | none => rfl
    | some named =>
      simp only [Option.map_some, Prod.map, skipBlank_moved, sees_moved, atEnd_moved, forward_moved]
      split
      · rfl
      · split <;> rfl
  | startTag =>
    simp only [read, readStartTag, forward_moved, name?_moved]
    cases (p.forward Construct.startTag.opener.length).name? with
    | none => rfl
    | some named =>
      simp only [Option.map_some, Prod.map, upToTagEnd?_moved]
      cases named.2.upToTagEnd? with
      | none => rfl
      | some found =>
        simp only [Option.map_some, Prod.map, offset_moved, RawAttribute.parse_moved, forward_moved,
          id]
        cases RawAttribute.parse named.2.offset (splitSlash found.1).1 <;> rfl

/-- What is read at a place is next there, unless it is a document type declaration. -/
theorem next_of_ne_doctype (hp : p.atEnd = false) (hnot : Construct.starting p.rest ≠ .doctype) :
    next p = ((read (Construct.starting p.rest) p).1.map some,
      (read (Construct.starting p.rest) p).2) := by
  rw [next]
  split
  · rename_i htrue
    rw [htrue] at hp
    cases hp
  · split
    · rename_i hdoctype
      exact absurd hdoctype hnot
    · split <;> rename_i hread <;> rw [hread] <;> rfl

theorem next_of_endless_doctype (hstarting : Construct.starting p.rest = .doctype)
    (hend : doctypeEnd? p = none) : next p = (.error (.unexpectedEnd .doctype p.offset), p) := by
  rw [next]
  split
  · rename_i htrue
    rw [atEnd_eq_false_of_starting (by decide) hstarting] at htrue
    cases htrue
  · split
    · split
      · rfl
      · rename_i hsome
        rw [hend] at hsome
        cases hsome
    · rename_i hnot
      exact absurd hstarting hnot

theorem next_moved (n : Nat) (p : Place) :
    next (p.moved n) =
      (((next p).1.map (Option.map (moved n))).mapError (.moved n), (next p).2.moved n) := by
  fun_induction next p with
  | case1 p hp => exact next_of_rest_eq_nil (by simpa [atEnd] using hp)
  | case2 p hp hstarting hend =>
    have hend' : doctypeEnd? (p.moved n) = none := by
      rw [doctypeEnd?_moved, hend, Option.map_none]
    exact next_of_endless_doctype hstarting hend'
  | case3 p hp hstarting q hend ih =>
    have hend' : doctypeEnd? (p.moved n) = some (q.moved n) := by
      rw [doctypeEnd?_moved, hend, Option.map_some]
    rw [next_of_doctype (p := p.moved n) hstarting hend', ih]
  | case4 p hp e q hnot hread | case5 p hp lexeme q hnot hread =>
    rw [next_of_ne_doctype (p := p.moved n) hp hnot, rest_moved, read_moved, hread]
    rfl

/-- The same lexemes are ahead wherever a text starts. -/
theorem all_moved (n : Nat) (p : Place) :
    all (p.moved n) = ((all p).1.map (moved n), (all p).2.map (.moved n)) := by
  induction hn : p.rest.length using Nat.strongRecOn generalizing p with
  | ind length ih =>
    have hmoved := next_moved n p
    cases hnext : next p with
    | mk result q =>
      rw [hnext] at hmoved
      rcases result with e | _ | lexeme
      · rw [all_of_error hnext, all_of_error hmoved]
        rfl
      · rw [all_of_none hnext, all_of_none hmoved]
        rfl
      · rw [all_of_some hnext, all_of_some hmoved, ih _ (hn ▸ length_rest_of_next hnext) q rfl]
        rfl

end Lexeme

end MarkupQuery.Markup
