import MarkupQuery.Proofs.Bytes.Calls

/-!
# Document type declarations are skipped

The scan for the end of a document type declaration counts brackets and keeps one quotation mark. It
knows nothing of what stands in brackets. `PassedAt depth cs` states that it goes on behind `cs` as
it was in front; this holds of plain characters, of quoted literals, and of brackets around a text
that is passed inside them. `Level` texts are put together from these, so they are passed in
brackets.

`DoctypeText Fits` is the grammar of declarations with an internal subset of white space, comments,
instructions and markup declarations, where `Fits` is asked of the text in a comment or an
instruction. The scan ends where the declaration does if these texts are level
(`DoctypeText.doctypeEnd?_eq`). A reader gives what the lexemes ahead give, wherever it stands
(`Reader.answers_place`), so in front of such a declaration it gives what it gives behind it. If an
apostrophe stands alone in a comment, the scan takes it for a mark that opens a literal.
-/

namespace MarkupQuery.Markup

open Text Text.Place
open RawAttribute (IsBlanks IsName)

variable {p q r : Place} {as bs cs body declared subset : List Char} {c mark : Char}
  {depth : Nat}

/-! ## What the scan passes -/

/-- The scan for the end of a document type declaration goes on behind these characters as in front
of them, outside quotation marks and with `depth` brackets open. -/
def PassedAt (depth : Nat) (cs : List Char) : Prop :=
  ∀ n rest, doctypeEndFrom none depth n (cs ++ rest) =
    doctypeEndFrom none depth (n + cs.length) rest

/-- A character that is neither a quotation mark nor a bracket nor `>`. -/
def isPlain (c : Char) : Bool :=
  !(isQuote c || c == '[' || c == ']' || c == '>')

theorem isPlain_of_isNameChar (h : isNameChar c = true) : isPlain c = true := by
  rw [isPlain, Bool.not_eq_true']
  by_contra hnot
  have hc : (((c = '"' ∨ c = '\'') ∨ c = '[') ∨ c = ']') ∨ c = '>' := by
    simpa only [isQuote, Bool.not_eq_false, Bool.or_eq_true, beq_iff_eq] using hnot
  obtain (((rfl | rfl) | rfl) | rfl) | rfl := hc <;> exact absurd h (by decide)

theorem isPlain_of_isBlank (h : isBlank c = true) : isPlain c = true := by
  have hc : c = ' ' ∨ c = '\t' ∨ c = '\n' ∨ c = '\r' := by simpa [isBlank, or_assoc] using h
  obtain rfl | rfl | rfl | rfl := hc <;> decide

namespace PassedAt

theorem nil : PassedAt depth [] :=
  fun _ _ => rfl

theorem append (ha : PassedAt depth as) (hb : PassedAt depth bs) : PassedAt depth (as ++ bs) := by
  intro n rest
  rw [List.append_assoc, ha, hb, List.length_append, Nat.add_assoc]

theorem singleton (hquote : isQuote c = false) (hopens : c ≠ '[') (hcloses : c ≠ ']')
    (hends : ¬ (c = '>' ∧ depth = 0)) : PassedAt depth [c] := by
  intro n rest
  rw [List.singleton_append, doctypeEndFrom, hquote, if_neg Bool.false_ne_true,
    if_neg (by simpa using hopens), if_neg (by simpa using hcloses), if_neg (by simpa using hends)]
  rfl

theorem of_isPlain (h : isPlain c = true) : PassedAt depth [c] := by
  simp only [isPlain, Bool.not_eq_true', Bool.or_eq_false_iff, beq_eq_false_iff_ne] at h
  exact singleton h.1.1.1 h.1.1.2 h.1.2 fun hends => h.2 hends.1

theorem of_forall (h : ∀ c ∈ cs, isPlain c = true) : PassedAt depth cs := by
  induction cs with
  | nil => exact nil
  | cons c cs ih =>
    obtain ⟨hc, hcs⟩ := List.forall_mem_cons.1 h
    exact (of_isPlain hc).append (ih hcs)

/-- In brackets a `>` ends nothing. -/
theorem angle : PassedAt (depth + 1) ['>'] :=
  singleton (by decide) (by decide) (by decide) fun hends => Nat.succ_ne_zero depth hends.2

theorem doctypeEndFrom_inside (h : mark ∉ body) (depth n : Nat) (rest : List Char) :
    doctypeEndFrom (some mark) depth n (body ++ mark :: rest) =
      doctypeEndFrom none depth (n + body.length + 1) rest := by
  induction body generalizing n with
  | nil =>
    rw [List.nil_append, doctypeEndFrom, if_pos (beq_self_eq_true mark)]
    rfl
  | cons c body ih =>
    rw [List.mem_cons, not_or] at h
    rw [List.cons_append, doctypeEndFrom, if_neg (by simpa using Ne.symm h.1), ih h.2,
      List.length_cons, Nat.add_assoc n 1, Nat.add_comm 1]

theorem literal (hmark : isQuote mark = true) (h : mark ∉ body) :
    PassedAt depth (mark :: body ++ [mark]) := by
  intro n rest
  rw [List.append_assoc, List.cons_append, doctypeEndFrom, if_pos hmark, List.singleton_append,
    doctypeEndFrom_inside h, List.length_append, List.length_cons, List.length_singleton]
  congr 1
  omega

theorem brackets (h : PassedAt (depth + 1) cs) : PassedAt depth ('[' :: cs ++ [']']) := by
  intro n rest
  rw [List.append_assoc, List.cons_append, doctypeEndFrom, if_neg (by decide),
    if_pos (beq_self_eq_true '['), h, List.singleton_append, doctypeEndFrom, if_neg (by decide),
    if_neg (by decide), if_pos (beq_self_eq_true ']'), Nat.add_sub_cancel, List.length_append,
    List.length_cons, List.length_singleton]
  congr 1
  omega

end PassedAt

/-- A text behind which the scan is as in front of it: quotation marks come in pairs, and brackets
outside of them match. -/
inductive Level : List Char → Prop
  | nil : Level []
  | append {as bs : List Char} (ha : Level as) (hb : Level bs) : Level (as ++ bs)
  | plain {c : Char} (hquote : isQuote c = false) (hopens : c ≠ '[') (hcloses : c ≠ ']') : Level [c]
  | literal {mark : Char} {body : List Char} (hmark : isQuote mark = true) (h : mark ∉ body) :
      Level (mark :: body ++ [mark])
  | brackets {cs : List Char} (h : Level cs) : Level ('[' :: cs ++ [']'])

/-- Level texts are passed in brackets. -/
theorem Level.passedAt (h : Level cs) (depth : Nat) : PassedAt (depth + 1) cs := by
  induction h generalizing depth with
  | nil => exact .nil
  | append _ _ iha ihb => exact (iha depth).append (ihb depth)
  | plain hquote hopens hcloses =>
    exact .singleton hquote hopens hcloses fun hends => Nat.succ_ne_zero depth hends.2
  | literal hmark h => exact .literal hmark h
  | brackets _ ih => exact (ih (depth + 1)).brackets

/-! ## Declarations -/

/-- What stands in a declaration outside brackets: plain characters and quoted literals. -/
inductive Declared : List Char → Prop
  | nil : Declared []
  | append {as bs : List Char} (ha : Declared as) (hb : Declared bs) : Declared (as ++ bs)
  | plain {c : Char} (h : isPlain c = true) : Declared [c]
  | literal {mark : Char} {body : List Char} (hmark : isQuote mark = true) (h : mark ∉ body) :
      Declared (mark :: body ++ [mark])

/-- An internal subset: white space, comments without two hyphens in a row, instructions up to the
first `?>`, and markup declarations. `Fits` is asked of the text in a comment or an instruction. -/
inductive Subset (Fits : List Char → Prop) : List Char → Prop
  | nil : Subset Fits []
  | append {as bs : List Char} (ha : Subset Fits as) (hb : Subset Fits bs) : Subset Fits (as ++ bs)
  | blank {c : Char} (h : isBlank c = true) : Subset Fits [c]
  | comment {content : List Char} (hends : ¬ ['-', '-'] <:+: content) (hfits : Fits content) :
      Subset Fits (Construct.comment.opener ++ content ++ ['-', '-', '>'])
  | instruction {content : List Char} (hends : ¬ ['?', '>'] <:+: content) (hfits : Fits content) :
      Subset Fits (Construct.instruction.opener ++ content ++ ['?', '>'])
  | declaration {name body : List Char} (hname : IsName name) (hbody : Declared body) :
      Subset Fits (Construct.declaration.opener ++ name ++ body ++ ['>'])

/-- A document type declaration, with or without an internal subset. -/
inductive DoctypeText (Fits : List Char → Prop) : List Char → Prop
  | plain {body : List Char} (hbody : Declared body) :
      DoctypeText Fits (Construct.doctype.opener ++ (body ++ ['>']))
  | withSubset {body subset s : List Char} (hbody : Declared body) (hsubset : Subset Fits subset)
      (hs : IsBlanks s) :
      DoctypeText Fits
        (Construct.doctype.opener ++ (body ++ ('[' :: subset ++ [']']) ++ s ++ ['>']))

theorem Declared.passedAt (h : Declared cs) (depth : Nat) : PassedAt depth cs := by
  induction h with
  | nil => exact .nil
  | append _ _ iha ihb => exact iha.append ihb
  | plain h => exact .of_isPlain h
  | literal hmark h => exact .literal hmark h

/-- A subset is passed in brackets if all that stands in its comments and instructions is level. -/
theorem Subset.passedAt (h : Subset Level cs) (depth : Nat) : PassedAt (depth + 1) cs := by
  have plain {cs : List Char} (h : cs.all isPlain = true) : PassedAt (depth + 1) cs :=
    .of_forall (List.all_eq_true.1 h)
  induction h with
  | nil => exact .nil
  | append _ _ iha ihb => exact iha.append ihb
  | blank h => exact .of_isPlain (isPlain_of_isBlank h)
  | comment _ hlevel =>
    have hends : PassedAt (depth + 1) ['-', '-', '>'] :=
      (plain (show ['-', '-'].all isPlain = true from rfl)).append .angle
    exact ((plain rfl).append (hlevel.passedAt depth)).append hends
  | instruction _ hlevel =>
    have hends : PassedAt (depth + 1) ['?', '>'] :=
      (plain (show ['?'].all isPlain = true from rfl)).append .angle
    exact ((plain rfl).append (hlevel.passedAt depth)).append hends
  | @declaration name body hname hbody =>
    have hchars : PassedAt (depth + 1) name :=
      .of_forall fun c hc => isPlain_of_isNameChar (hname.chars c hc)
    exact (((plain rfl).append hchars).append (hbody.passedAt _)).append .angle

/-- A declaration ends at the first `>` that the scan does not pass. -/
theorem doctypeEnd?_of_passedAt (hbody : PassedAt 0 body)
    (h : p.Passes (Construct.doctype.opener ++ (body ++ ['>'])) q) : doctypeEnd? p = some q := by
  have hbehind := h.of_append
  have hend : doctypeEndFrom none 0 0 (p.forward Construct.doctype.opener.length).rest =
      some body.length := by
    rw [hbehind.rest_eq, List.append_assoc, hbody, Nat.zero_add]
    rfl
  have hlength : (body ++ ['>']).length = body.length + 1 := List.length_append
  rw [doctypeEnd?, hend, Option.map_some, ← hlength, hbehind.forward_eq]

/-- The scan ends where the declaration does. -/
theorem DoctypeText.doctypeEnd?_eq (h : DoctypeText Level declared) (hpass : p.Passes declared q) :
    doctypeEnd? p = some q := by
  cases h with
  | plain hbody => exact doctypeEnd?_of_passedAt (hbody.passedAt 0) hpass
  | @withSubset body subset s hbody hsubset hs =>
    have hblanks : PassedAt 0 s := .of_forall fun c hc => isPlain_of_isBlank (hs c hc)
    exact doctypeEnd?_of_passedAt
      (((hbody.passedAt 0).append (hsubset.passedAt 0).brackets).append hblanks) hpass

theorem DoctypeText.starting {Fits : List Char → Prop} (h : DoctypeText Fits declared)
    (hpass : p.Passes declared q) : Construct.starting p.rest = .doctype := by
  rw [hpass.rest_eq]
  cases h <;> rfl

/-! ## Lexemes behind declarations -/

namespace Lexeme

/-- Nothing but document type declarations lies between two places. -/
inductive Leads : Place → Place → Prop
  | here (p : Place) : Leads p p
  | behind {p q r : Place} (hstarting : Construct.starting p.rest = .doctype)
      (hend : doctypeEnd? p = some q) (h : Leads q r) : Leads p r

theorem atEnd_eq_false_of_starting {construct : Construct} (hne : construct ≠ .characterData)
    (h : Construct.starting p.rest = construct) : p.atEnd = false := by
  cases hrest : p.rest with
  | nil =>
    rw [hrest] at h
    exact absurd h.symm hne
  | cons c cs => rw [atEnd, hrest, List.isEmpty_cons]

theorem next_of_doctype (hstarting : Construct.starting p.rest = .doctype)
    (hend : doctypeEnd? p = some q) : next p = next q := by
  rw [next]
  split
  · rename_i htrue
    rw [atEnd_eq_false_of_starting (by decide) hstarting] at htrue
    cases htrue
  · split
    · split
      · rename_i hnone
        rw [hend] at hnone
        cases hnone
      · rename_i q' hq'
        rw [Option.some.inj (hend.symm.trans hq')]
    · rename_i hnot
      exact absurd hstarting hnot

theorem Leads.next_eq (h : Leads p q) : next p = next q := by
  induction h with
  | here => rfl
  | behind hstarting hend _ ih => exact (next_of_doctype hstarting hend).trans ih

end Lexeme

/-! ## Readers behind declarations -/

namespace Reader

variable {r r' : Reader} {q : Place}

theorem next_of_read_eq (hr : r.failed = false) (hr' : r'.failed = false) (h : r.read = r'.read) :
    r.next = r'.next := by
  rw [next, next, if_neg (by simp [hr]), if_neg (by simp [hr']), h]

theorem accept_place (r : Reader) (q : Place) (lexeme : Lexeme) (next : Place) :
    { r with place := q }.accept lexeme next = r.accept lexeme next := by
  cases lexeme <;> rfl

/-- A reader that owes nothing reads the lexeme ahead, wherever it stands. -/
theorem read_place (howes : r.owesEnd = false) (h : Lexeme.next r.place = Lexeme.next q) :
    { r with place := q }.read = r.read := by
  rw [read, read, if_neg (by simp [howes]), if_neg (by simp [howes]), h]
  rcases Lexeme.next q with ⟨e | _ | lexeme, place⟩
  · rfl
  · rfl
  · dsimp only
    rw [r.accept_place]

/-- What a call gives hangs on the lexeme ahead, and not on where the reader stands. The reader
behind it has either read this lexeme or stands where it stood. -/
theorem answer_place (h : Lexeme.next r.place = Lexeme.next q) (call : Call) :
    { r with place := q }.answer call = r.answer call ∨
      (r.answer call).2.place = r.place ∧
        { r with place := q }.answer call =
          ((r.answer call).1, { (r.answer call).2 with place := q }) := by
  obtain ⟨strict, place, scopes, openTags, owesEnd, failed⟩ := r
  cases owesEnd with
  | false =>
    have hread := read_place rfl h
    dsimp only at hread
    cases call with
    | read => exact .inl (by simp only [answer, hread])
    | next =>
      cases failed with
      | false => exact .inl (next_of_read_eq rfl rfl hread)
      | true => exact .inr ⟨rfl, rfl⟩
  | true =>
    -- the end tag that is owed comes of nothing ahead
    cases call with
    | read => cases openTags <;> exact .inr ⟨rfl, rfl⟩
    | next => cases failed <;> cases openTags <;> exact .inr ⟨rfl, rfl⟩

theorem answers_place (h : Lexeme.next r.place = Lexeme.next q) (calls : List Call) :
    { r with place := q }.answers calls = r.answers calls := by
  induction calls generalizing r with
  | nil => rfl
  | cons call calls ih =>
    rw [answers, answers]
    rcases answer_place h call with hsame | ⟨hplace, hstands⟩
    · rw [hsame]
    · rw [hstands, ih (by rw [hplace, h])]

/-- **Document type declarations are skipped.** Let a declaration lie ahead of a reader: plain
characters and quoted literals, maybe an internal subset in brackets, white space and `>`. If in the
comments and instructions of the subset quotation marks come in pairs and brackets match, then the
declaration is passed up to and with its `>`; the next token, and the reader behind it, are those of
the same reader behind the declaration, and so are the answers to any calls. -/
theorem answers_behind_doctype (htext : DoctypeText Level declared)
    (hpass : r.place.Passes declared q) :
    doctypeEnd? r.place = some q ∧
      (r.owesEnd = false → r.read = { r with place := q }.read) ∧
      ∀ calls, r.answers calls = { r with place := q }.answers calls := by
  have hend := htext.doctypeEnd?_eq hpass
  have hnext := Lexeme.next_of_doctype (htext.starting hpass) hend
  exact ⟨hend, fun howes => (read_place howes hnext).symm,
    fun calls => (answers_place hnext calls).symm⟩

/-- A declaration with a literal, and with `>` and brackets in the comment and the instruction of
its subset. -/
def sampleDoctype : List Char :=
  "<!DOCTYPE a ']>'[<!--\">\"--> <?[>]?><!E \"]\">] >".toList

theorem doctypeText_sampleDoctype : DoctypeText Level sampleDoctype := by
  have hliteral : Declared "']>'".toList :=
    .literal (show isQuote '\'' = true by decide) (show '\'' ∉ [']', '>'] by decide)
  have hbody : Declared " a ']>'".toList :=
    .append (.plain (c := ' ') rfl) (.append (.plain (c := 'a') rfl)
      (.append (.plain (c := ' ') rfl) hliteral))
  have hcomment : Subset Level "<!--\">\"-->".toList :=
    .comment (show ¬ ['-', '-'] <:+: "\">\"".toList by decide)
      (.literal (show isQuote '"' = true by decide) (show '"' ∉ ['>'] by decide))
  have hinstruction : Subset Level "<?[>]?>".toList :=
    .instruction (show ¬ ['?', '>'] <:+: "[>]".toList by decide)
      (.brackets (.plain (c := '>') (by decide) (by decide) (by decide)))
  have hname : IsName ['E'] := ⟨by decide, by simp [show isNameChar 'E' = true by decide]⟩
  have hdeclaration : Subset Level "<!E \"]\">".toList :=
    .declaration hname
      (.append (.plain (c := ' ') rfl)
        (.literal (show isQuote '"' = true by decide) (show '"' ∉ [']'] by decide)))
  have hsubset : Subset Level "<!--\">\"--> <?[>]?><!E \"]\">".toList :=
    .append hcomment (.append (.blank (c := ' ') rfl) (.append hinstruction hdeclaration))
  exact .withSubset hbody hsubset (s := [' ']) (by simp [IsBlanks, isBlank])

theorem answers_behind_sampleDoctype :
    DoctypeText Level sampleDoctype ∧
      doctypeEnd? (Place.start (String.ofList sampleDoctype ++ "<a/>")) =
        some ⟨46, "<a/>".toList⟩ ∧
      ∀ calls, (start true (String.ofList sampleDoctype ++ "<a/>")).answers calls =
        { start true (String.ofList sampleDoctype ++ "<a/>") with
          place := ⟨46, "<a/>".toList⟩ }.answers calls := by
  have hpass : (Place.start (String.ofList sampleDoctype ++ "<a/>")).Passes sampleDoctype
      ⟨46, "<a/>".toList⟩ := ⟨by decide, by decide⟩
  have h := answers_behind_doctype (r := start true (String.ofList sampleDoctype ++ "<a/>"))
    doctypeText_sampleDoctype hpass
  exact ⟨doctypeText_sampleDoctype, h.1, h.2.2⟩

/-- A declaration with an apostrophe in a comment. -/
def loneApostrophe : List Char :=
  "<!DOCTYPE a [<!--'-->]>".toList

/-- The scan takes the apostrophe for a mark that opens a literal and finds no end, though behind
the declaration there is a tag to read. -/
theorem read_of_lone_apostrophe :
    DoctypeText (fun _ => True) loneApostrophe ∧
      (start false "<!DOCTYPE a [<!--'-->]><a/>").place.Passes loneApostrophe
        ⟨23, "<a/>".toList⟩ ∧
      (start false "<!DOCTYPE a [<!--'-->]><a/>").read.1 = .error (.unexpectedEnd .doctype 0) ∧
      { start false "<!DOCTYPE a [<!--'-->]><a/>" with place := ⟨23, "<a/>".toList⟩ }.read.1 =
        .ok (some (.startTag ⟨none, "a"⟩ [])) := by
  have hbody : Declared " a ".toList :=
    .append (.plain (c := ' ') rfl) (.append (.plain (c := 'a') rfl) (.plain (c := ' ') rfl))
  have hsubset : Subset (fun _ => True) "<!--'-->".toList :=
    .comment (show ¬ ['-', '-'] <:+: ['\''] by decide) trivial
  exact ⟨.withSubset hbody hsubset (s := []) (by simp [IsBlanks]), ⟨by decide, by decide⟩,
    by decide +kernel, by decide +kernel⟩

end Reader

end MarkupQuery.Markup
