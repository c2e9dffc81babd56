import MarkupQuery.Proofs.Markup.Delivery
import MarkupQuery.Proofs.NodeTree.Balance

/-!
# What a strict reader refuses

A strict reader gives what a lenient one gives, until it comes to a lexeme that is faulty: an end
tag that does not name the element that it closes, or a start tag with two attributes of one name.
There it fails. `Lexeme.Faulty` says which lexemes are, and with which error they are refused;
`Lexeme.Faultless` that there are none. Lexemes end where the text cannot be read, so all of this
lies in front of the error of the lenient reader, if it has one.
-/

namespace MarkupQuery

open Text NodeTree

namespace Markup

variable {before lexemes : List Lexeme} {lexeme : Lexeme} {e : ReadError}

/-! ## Repeated names -/

/-- The first attribute whose name is among `seen` or that of one before it. -/
theorem RawAttribute.repeated?_go_eq_some_iff {seen : List String} {attributes : List RawAttribute}
    {twice : String} :
    repeated?.go seen attributes = some twice ↔
      ∃ init a rest, attributes = init ++ a :: rest ∧ a.name = twice ∧
        (init.map RawAttribute.name).Nodup ∧ (∀ b ∈ init, b.name ∉ seen) ∧
        (twice ∈ seen ∨ twice ∈ init.map RawAttribute.name) := by
  -- the names that are seen grow on the way, and those of `init` are what they grow by
  induction attributes generalizing seen with
  | nil => simp [repeated?.go]
  | cons a attributes ih =>
    rw [repeated?.go]
    by_cases ha : a.name ∈ seen
    · rw [if_pos (by simpa using ha)]
      constructor
      · intro h
        exact ⟨[], a, attributes, rfl, Option.some.inj h, by simp, by simp,
          .inl (Option.some.inj h ▸ ha)⟩
      · rintro ⟨init, b, rest, heq, rfl, -, hseen, -⟩
        cases init with
        | nil => rw [(List.cons.inj heq).1]
        | cons c init => exact absurd ((List.cons.inj heq).1 ▸ ha) (hseen c (by simp))
    · rw [if_neg (by simpa using ha), ih]
      constructor
      · rintro ⟨init, b, rest, rfl, rfl, hnodup, hseen, htwice⟩
        have hfirst : a.name ∉ init.map RawAttribute.name := by
          rw [List.mem_map]
          rintro ⟨c, hc, heq⟩
          exact hseen c hc (heq ▸ List.mem_cons_self ..)
        refine ⟨a :: init, b, rest, rfl, rfl, List.nodup_cons.2 ⟨hfirst, hnodup⟩, ?_, ?_⟩
        · rintro c (_ | ⟨_, hc⟩)
          · exact ha
          · exact fun hmem => hseen c hc (List.mem_cons_of_mem _ hmem)
        · rw [List.map_cons, List.mem_cons]
          rw [List.mem_cons] at htwice
          tauto
      · rintro ⟨init, b, rest, heq, rfl, hnodup, hseen, htwice⟩
        cases init with
        | nil =>
          obtain rfl := (List.cons.inj heq).1
          exact absurd htwice (by simpa using ha)
        | cons c init =>
          obtain ⟨rfl, rfl⟩ := List.cons.inj heq
          rw [List.map_cons, List.nodup_cons] at hnodup
          rw [List.map_cons, List.mem_cons] at htwice
          refine ⟨init, b, rest, rfl, rfl, hnodup.2, ?_, by rw [List.mem_cons]; tauto⟩
          intro c hc hmem
          rcases List.mem_cons.1 hmem with heq | hmem
          · exact hnodup.1 (heq ▸ List.mem_map_of_mem hc)
          · exact hseen c (List.mem_cons_of_mem _ hc) hmem

/-! ## Faulty lexemes -/

/-- A lexeme that a strict reader refuses behind the lexemes before it, and the error that it
reports. -/
inductive Lexeme.Faulty (before : List Lexeme) : Lexeme → ReadError → Prop
  /-- The end tag does not have the name of the start tag that it closes, which is the last one that
  is not closed yet. -/
  | mismatch {opened : Lexeme} {name : String} (offset : Nat)
    (head_eq : (Bracketed.unclosed before).head? = some opened) (name_ne : opened.name ≠ name) :
    Faulty before (.endTag name offset) (.tagMismatch opened.name name offset)
  /-- The start tag has an attribute with the name of one before it; this is the first such. -/
  | repeated {init rest : List RawAttribute} {a : RawAttribute} (name : String) (closes : Bool)
    (afterName : Place) (nodup : (init.map RawAttribute.name).Nodup)
    (mem : a.name ∈ init.map RawAttribute.name) :
    Faulty before (.startTag name (init ++ a :: rest) closes afterName)
      (.duplicateAttribute a.name afterName.offset)

/-- No lexeme is faulty behind those before it. -/
def Lexeme.Faultless (lexemes : List Lexeme) : Prop :=
  ∀ before lexeme rest, lexemes = before ++ lexeme :: rest → ∀ e, ¬ lexeme.Faulty before e

namespace Reader

variable {r : Reader}

/-- A strict reader refuses just the faulty lexemes. -/
theorem refusal?_eq_some_iff (hstrict : r.strict = true)
    (hopen : r.openTags = (Bracketed.unclosed before).map Lexeme.name) :
    r.refusal? lexeme = some e ↔ lexeme.Faulty before e := by
  cases lexeme with
  | text | comment | instruction => exact ⟨nofun, nofun⟩
  | endTag name offset =>
    rw [refusal?, Option.map_eq_some_iff, mismatch?, if_pos hstrict, hopen, List.head?_map]
    constructor
    · rintro ⟨opened, hopened, rfl⟩
      obtain ⟨hhead, hne⟩ := Option.filter_eq_some_iff.1 hopened
      obtain ⟨tag, htag, rfl⟩ := Option.map_eq_some_iff.1 hhead
      exact .mismatch offset htag (by simpa using hne)
    · rintro ⟨_, hhead, hne⟩
      exact ⟨_, Option.filter_eq_some_iff.2
        ⟨Option.map_eq_some_iff.2 ⟨_, hhead, rfl⟩, by simpa using hne⟩, rfl⟩
  | startTag name attributes closes afterName =>
    rw [refusal?, Option.map_eq_some_iff, repeated?, if_pos hstrict]
    constructor
    · rintro ⟨twice, htwice, rfl⟩
      obtain ⟨init, a, rest, rfl, rfl, hnodup, -, hmem⟩ :=
        RawAttribute.repeated?_go_eq_some_iff.1 htwice
      exact .repeated name closes afterName hnodup (by simpa using hmem)
    · intro h
      cases h with
      | repeated _ _ _ hnodup hmem =>
        exact ⟨_, RawAttribute.repeated?_go_eq_some_iff.2
          ⟨_, _, _, rfl, rfl, hnodup, by simp, .inr hmem⟩, rfl⟩

/-- A lenient reader refuses nothing. -/
theorem refusal?_eq_none (hlenient : r.strict = false) (lexeme : Lexeme) :
    r.refusal? lexeme = none := by
  cases lexeme with
  | text | comment | instruction => rfl
  | endTag name offset => rw [refusal?, mismatch?, if_neg (by simp [hlenient])]; rfl
  | startTag name attributes closes afterName =>
    rw [refusal?, repeated?, if_neg (by simp [hlenient])]
    rfl

/-! ## Items -/

theorem delivered_of_lenient (failure : Option ReadError) (hlenient : r.strict = false)
    (lexemes : List Lexeme) :
    r.delivered failure lexemes =
      (r.pieces lexemes).flatten.map .ok ++ failure.toList.map .error := by
  have h := r.delivered_append failure lexemes [] fun init lexeme tail _ =>
    refusal?_eq_none ((r.strict_behind init).trans hlenient) lexeme
  rwa [List.append_nil] at h

/-- What is not faulty is not refused, so that its tokens are given. -/
theorem delivered_of_faultless (failure : Option ReadError) (hstrict : r.strict = true)
    (hopen : r.openTags = []) (hbefore : Lexeme.Faultless before) (rest : List Lexeme) :
    r.delivered failure (before ++ rest) =
      (r.pieces before).flatten.map .ok ++ (r.behind before).delivered failure rest := by
  refine r.delivered_append failure before rest fun init lexeme tail heq => ?_
  rw [Option.eq_none_iff_forall_ne_some]
  intro e he
  refine hbefore init lexeme tail heq e ?_
  exact (refusal?_eq_some_iff ((r.strict_behind init).trans hstrict)
    (openTags_behind hopen init)).1 he

/-- A strict reader fails at the first faulty lexeme. -/
theorem delivered_of_faulty (failure : Option ReadError) (hstrict : r.strict = true)
    (hopen : r.openTags = []) (hbefore : Lexeme.Faultless before)
    (hfaulty : lexeme.Faulty before e) (rest : List Lexeme) :
    r.delivered failure (before ++ lexeme :: rest) =
      (r.pieces before).flatten.map .ok ++ [.error e] := by
  have hrefusal := (refusal?_eq_some_iff ((r.strict_behind before).trans hstrict)
    (openTags_behind hopen before)).2 hfaulty
  rw [delivered_of_faultless failure hstrict hopen hbefore, delivered, hrefusal]

end Reader

/-! ## Strict and lenient -/

theorem Lexeme.faultless_concat_iff :
    Faultless (before ++ [lexeme]) ↔ Faultless before ∧ ∀ e, ¬ lexeme.Faulty before e :=
  Bracketed.forall_split_concat

/-- Of the faulty lexemes, one is the first. -/
theorem Lexeme.exists_first_faulty (h : ¬ Faultless lexemes) :
    ∃ before lexeme rest e, lexemes = before ++ lexeme :: rest ∧ Faultless before ∧
      lexeme.Faulty before e := by
  induction lexemes using List.reverseRecOn with
  | nil => exact absurd (fun init l rest heq => by simp at heq) h
  | append_singleton init last ih =>
    by_cases hinit : Faultless init
    · have hlast : ∃ e, last.Faulty init e := by
        by_contra hnone
        exact h (faultless_concat_iff.2 ⟨hinit, not_exists.1 hnone⟩)
      obtain ⟨e, he⟩ := hlast
      exact ⟨init, last, [], e, rfl, hinit, he⟩
    · obtain ⟨before, lexeme, rest, e, rfl, hbefore, he⟩ := ih hinit
      exact ⟨before, lexeme, rest ++ [last], e, by simp, hbefore, he⟩

namespace Reader

variable {text : String}

theorem pieces_start (strict : Bool) (text : String) (lexemes : List Lexeme) :
    (start strict text).pieces lexemes = (start false text).pieces lexemes :=
  pieces_strict (start false text) strict lexemes

theorem items_lenient (text : String) :
    (start false text).items = ((start false text).pieces (Lexeme.ofText text)).flatten.map .ok ++
      (Lexeme.failure? text).toList.map .error := by
  rw [items_start, delivered_of_lenient _ rfl]

theorem items_of_faultless (h : Lexeme.Faultless (Lexeme.ofText text)) :
    (start true text).items = (start false text).items := by
  have hstrict := delivered_of_faultless (Lexeme.failure? text) (r := start true text) rfl rfl h []
  rw [List.append_nil, pieces_start] at hstrict
  rw [items_start, hstrict, items_lenient]
  rfl

theorem items_of_faulty {rest : List Lexeme} (heq : Lexeme.ofText text = before ++ lexeme :: rest)
    (hbefore : Lexeme.Faultless before) (he : lexeme.Faulty before e) :
    (start true text).items = (((start false text).pieces (Lexeme.ofText text)).take
      before.length).flatten.map .ok ++ [.error e] := by
  rw [items_start, heq, delivered_of_faulty _ rfl rfl hbefore he, take_pieces, pieces_start]

/-- A strict reader makes the document that a lenient one makes, if no lexeme is faulty. -/
theorem parse_strict_iff {d : Document} :
    Document.parse true text = .ok d ↔
      Document.parse false text = .ok d ∧ Lexeme.Faultless (Lexeme.ofText text) := by
  constructor
  · intro hparse
    by_cases h : Lexeme.Faultless (Lexeme.ofText text)
    · rw [Document.parse, items_of_faultless h] at hparse
      exact ⟨hparse, h⟩
    · obtain ⟨before, lexeme, rest, e, heq, hbefore, he⟩ := Lexeme.exists_first_faulty h
      obtain ⟨tokens, htokens⟩ := Document.exists_tokens_of_ofItems hparse
      rw [items_of_faulty heq hbefore he] at htokens
      have herror : Except.error e ∈ tokens.map (Except.ok (ε := ReadError)) := by
        rw [← htokens]
        exact List.mem_append_right _ (List.mem_singleton_self _)
      obtain ⟨t, -, ht⟩ := List.mem_map.1 herror
      cases ht
  · rintro ⟨hparse, h⟩
    rwa [Document.parse, items_of_faultless h]

/-- **A strict reader is a lenient one that stops at the first faulty lexeme.** The lexemes of a
text give the same tokens to both. The lenient reader gives all of them and then the error of what
cannot be read; so does the strict reader if no lexeme is faulty, and otherwise it gives those in
front of the first faulty one and refuses that. So a text makes the same document with both unless
one of its lexemes is faulty, and then it makes none with a strict reader. -/
theorem items_strict (text : String) :
    ∃ pieces, List.Forall₂ Lexeme.Gives (Lexeme.ofText text) pieces ∧
      (start false text).items =
        pieces.flatten.map .ok ++ (Lexeme.failure? text).toList.map .error ∧
      (Lexeme.Faultless (Lexeme.ofText text) ∧
          (start true text).items = (start false text).items ∨
        ∃ before lexeme rest e, Lexeme.ofText text = before ++ lexeme :: rest ∧
          Lexeme.Faultless before ∧ lexeme.Faulty before e ∧
          (start true text).items = (pieces.take before.length).flatten.map .ok ++ [.error e]) ∧
      ∀ d, Document.parse true text = .ok d ↔
        Document.parse false text = .ok d ∧ Lexeme.Faultless (Lexeme.ofText text) := by
  refine ⟨(start false text).pieces (Lexeme.ofText text), forall₂_gives_pieces _ _,
    items_lenient text, ?_, fun d => parse_strict_iff⟩
  by_cases h : Lexeme.Faultless (Lexeme.ofText text)
  · exact .inl ⟨h, items_of_faultless h⟩
  · obtain ⟨before, lexeme, rest, e, heq, hbefore, he⟩ := Lexeme.exists_first_faulty h
    exact .inr ⟨before, lexeme, rest, e, heq, hbefore, he, items_of_faulty heq hbefore he⟩

example : (start true "<a><b/></c>").items =
    [.ok (.startTag ⟨none, "a"⟩ []), .ok (.startTag ⟨none, "b"⟩ []), .ok .endTag,
      .error (.tagMismatch "a" "c" 7)] := by
  cbv

end Reader

end Markup

end MarkupQuery
