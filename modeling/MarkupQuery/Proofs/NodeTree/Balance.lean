import MarkupQuery.Proofs.Markup.Lexemes
import MarkupQuery.Proofs.NodeTree.RoundTrip

/-!
# Tags that balance

A builder keeps the elements that are open, and of the calls made so far it needs no more to tell
whether the next one is refused: it has as many open elements as calls that open one and are not
followed by one that closes it (`Builder.length_openElements_run`). A call that is refused leaves
the builder as it was.

`Document.Outcome` says what comes of a sequence of items, by its failures and tags alone: they stop
at the first failure and at the first end tag that closes nothing, and otherwise make a document
unless there are more start tags than end tags. The main statement, `Document.outcome_iff`, is that
building does just this.
-/

namespace MarkupQuery.NodeTree

open Markup Bracketed

/-! ## Open elements -/

namespace Builder

instance : Bracketed Operation where
  bracket
    | .push token => bracket token
    | .startElement _ _ => .opening
    | .endElement => .closing
    | .leaf _ _ _ _ => .neither

/-- What a call answers: whether it was taken. Only end tags can be refused. -/
def answer (b : Builder) : Operation → Bool
  | .push token => (b.push token).1
  | .endElement => b.endElement.1
  | .startElement _ _ | .leaf _ _ _ _ => true

variable {b : Builder} {operation : Operation}

theorem run_append (b : Builder) (before after : List Operation) :
    b.run (before ++ after) = (b.run before).run after :=
  List.foldl_append

theorem run_concat (b : Builder) (before : List Operation) (operation : Operation) :
    b.run (before ++ [operation]) = (b.run before).apply operation :=
  List.foldl_concat ..

theorem length_openElements_startElement (b : Builder) (name : ExpandedName)
    (attributes : List Attribute) :
    (b.startElement name attributes).openElements.length = b.openElements.length + 1 := by
  rw [openElements_startElement, List.length_cons]

theorem openElements_endElement (b : Builder) :
    b.endElement.2.openElements = b.openElements.tail := by
  unfold endElement
  split
  · rename_i h
    rw [h, List.tail_nil]
  · rename_i h
    rw [h, List.tail_cons]
    rfl

theorem length_openElements_apply (b : Builder) (operation : Operation) :
    (b.apply operation).openElements.length =
      match bracket operation with
      | .opening => b.openElements.length + 1
      | .closing => b.openElements.length - 1
      | .neither => b.openElements.length := by
  have hstart := b.length_openElements_startElement
  have hend : b.endElement.2.openElements.length = b.openElements.length - 1 := by
    rw [openElements_endElement, List.length_tail]
  cases operation with
  | push token =>
    cases token with
    | startTag name attributes => exact hstart name attributes
    | endTag => exact hend
    | text | comment | instruction => rfl
  | startElement name attributes => exact hstart name attributes
  | endElement => exact hend
  | leaf => rfl

/-- A builder has an open element for each call that opened one and is not closed yet. -/
theorem length_openElements_run (operations : List Operation) :
    (empty.run operations).openElements.length = (unclosed operations).length :=
  depth_foldl (fun b : Builder => b.openElements.length) length_openElements_apply rfl operations

theorem openElements_run_eq_nil_iff {operations : List Operation} :
    (empty.run operations).openElements = [] ↔ unclosed operations = [] := by
  rw [← List.length_eq_zero_iff, length_openElements_run, List.length_eq_zero_iff]

theorem unclosed_pushes (tokens : List Token) :
    unclosed (tokens.map Operation.push) = (unclosed tokens).map .push :=
  unclosed_map (f := Operation.push) (fun _ => rfl) tokens

/-! ## Refusal -/

theorem endElement_fst_eq_false_iff : b.endElement.1 = false ↔ b.openElements = [] := by
  unfold endElement
  split <;> simp_all

/-- Only what closes can be refused, and only if no element is open. -/
theorem answer_eq_false_iff :
    b.answer operation = false ↔ bracket operation = .closing ∧ b.openElements = [] := by
  cases operation with
  | push token =>
    cases token with
    | endTag => exact endElement_fst_eq_false_iff.trans (and_iff_right rfl).symm
    | startTag | text | comment | instruction => exact ⟨nofun, nofun⟩
  | endElement => exact endElement_fst_eq_false_iff.trans (and_iff_right rfl).symm
  | startElement | leaf => exact ⟨nofun, nofun⟩

theorem apply_of_refused (h : b.answer operation = false) : b.apply operation = b := by
  obtain ⟨hclosing, hnone⟩ := answer_eq_false_iff.1 h
  have hend : b.endElement.2 = b := by rw [endElement, hnone]
  cases operation with
  | push token =>
    cases token with
    | endTag => exact hend
    | startTag | text | comment | instruction => cases hclosing
  | endElement => exact hend
  | startElement | leaf => cases hclosing

/-! ## Taking items -/

variable {ε : Type} {tokens : List Token}

/-- Tokens of which none is an end tag that closes nothing are taken one after the other. -/
theorem takeAll_matched (h : Matched tokens) (rest : List (Except ε Token)) :
    empty.takeAll 0 (tokens.map .ok ++ rest) =
      (empty.run (tokens.map .push)).takeAll tokens.length rest := by
  induction tokens using List.reverseRecOn generalizing rest with
  | nil => rfl
  | append_singleton before token ih =>
    -- the last token is not refused, for if it closes, one in front of it is open
    have htaken : ((empty.run (before.map .push)).push token).1 = true := by
      rw [← Bool.not_eq_false]
      intro hrefused
      have hpush : (empty.run (before.map .push)).answer (.push token) = false := hrefused
      obtain ⟨hclosing, hnone⟩ := answer_eq_false_iff.1 hpush
      rw [openElements_run_eq_nil_iff, unclosed_pushes, List.map_eq_nil_iff] at hnone
      exact h before token [] rfl hclosing hnone
    rw [List.map_append, List.append_assoc, ih h.of_append, List.map_append, List.map_singleton,
      List.map_singleton, run_concat, List.singleton_append, takeAll, List.length_append]
    split
    · rename_i next hpush
      rw [apply, hpush]
      rfl
    · rename_i next hpush
      rw [hpush] at htaken
      cases htaken

end Builder

namespace Document

/-- What comes of items: why they stop, or that they make a document. In front of where they stop
each end tag closes something. -/
inductive Outcome {ε : Type} : List (Except ε Token) → Except (BuildError ε) Unit → Prop
  /-- They stop at a failure. -/
  | source {before : List Token} (matched : Matched before) (failure : ε)
    (after : List (Except ε Token)) :
    Outcome (before.map .ok ++ .error failure :: after) (.error (.source failure))
  /-- They stop at an end tag in front of which there is nothing to close. -/
  | unmatched {before : List Token} (matched : Matched before) (none_open : unclosed before = [])
    (after : List (Except ε Token)) :
    Outcome (before.map .ok ++ .ok .endTag :: after) (.error (.unexpectedEndTag before.length))
  /-- They do not stop, and there are more start tags than end tags. -/
  | unclosed {tokens : List Token} (matched : Matched tokens)
    (lt : tokens.countP (bracket · = .closing) < tokens.countP (bracket · = .opening)) :
    Outcome (tokens.map .ok) (.error (.unclosedElements
      (tokens.countP (bracket · = .opening) - tokens.countP (bracket · = .closing))))
  /-- They do not stop, and there are not more start tags than end tags. -/
  | document {tokens : List Token} (matched : Matched tokens)
    (le : tokens.countP (bracket · = .opening) ≤ tokens.countP (bracket · = .closing)) :
    Outcome (tokens.map .ok) (.ok ())

variable {ε : Type} {items : List (Except ε Token)} {tokens : List Token}

theorem ofItems_eq_error {e : BuildError ε} (h : Builder.empty.takeAll 0 items = .error e) :
    ofItems items = .error e := by
  rw [ofItems, h]

theorem ofItems_source (h : Matched tokens) (failure : ε) (after : List (Except ε Token)) :
    ofItems (tokens.map .ok ++ .error failure :: after) = .error (.source failure) :=
  ofItems_eq_error (Builder.takeAll_matched h _)

theorem ofItems_unmatched (h : Matched tokens) (hnone : unclosed tokens = [])
    (after : List (Except ε Token)) :
    ofItems (tokens.map .ok ++ .ok .endTag :: after) =
      .error (.unexpectedEndTag tokens.length) := by
  have hopen : (Builder.empty.run (tokens.map .push)).openElements = [] := by
    rw [Builder.openElements_run_eq_nil_iff, Builder.unclosed_pushes, hnone]
    rfl
  refine ofItems_eq_error ((Builder.takeAll_matched h _).trans ?_)
  rw [Builder.takeAll, Builder.push, Builder.endElement, hopen]

/-- Tokens that are all taken make a document if what opens is closed. -/
theorem ofItems_matched (h : Matched tokens) :
    (ofItems (tokens.map (Except.ok : Token → Except ε Token))).map (fun _ => ()) =
      if unclosed tokens = [] then .ok ()
      else .error (.unclosedElements (unclosed tokens).length) := by
  have htake := Builder.takeAll_matched (ε := ε) h []
  rw [List.append_nil, Builder.takeAll] at htake
  have hlength : (Builder.empty.run (tokens.map .push)).openElements.length =
      (unclosed tokens).length := by
    rw [Builder.length_openElements_run, Builder.unclosed_pushes, List.length_map]
  rw [ofItems, htake]
  dsimp only
  rw [Builder.finish, Builder.depth, hlength]
  cases hopen : (Builder.empty.run (tokens.map .push)).openElements with
  | nil =>
    rw [hopen] at hlength
    rw [if_pos (List.length_eq_zero_iff.1 hlength.symm)]
    rfl
  | cons element outer =>
    rw [hopen] at hlength
    rw [if_neg (by rintro hnone; rw [hnone] at hlength; cases hlength)]
    rfl

/-- The tokens that open and are not closed are told by numbers if each end tag closes one. -/
theorem length_unclosed (h : Matched tokens) :
    tokens.countP (bracket · = .opening) =
      tokens.countP (bracket · = .closing) + (unclosed tokens).length := by
  have hcount := countP_add_surplus tokens
  rwa [matched_iff.1 h, Nat.add_zero] at hcount

/-- Items come to what their outcome says. -/
theorem Outcome.eq_ofItems {result : Except (BuildError ε) Unit} (h : Outcome items result) :
    (ofItems items).map (fun _ => ()) = result := by
  cases h with
  | source matched failure after => rw [ofItems_source matched]; rfl
  | unmatched matched none_open after => rw [ofItems_unmatched matched none_open]; rfl
  | unclosed matched lt =>
    have hcount := length_unclosed matched
    rw [ofItems_matched matched, if_neg, hcount, Nat.add_sub_cancel_left]
    rw [← List.length_eq_zero_iff]
    omega
  | document matched le =>
    have hcount := length_unclosed matched
    rw [ofItems_matched matched, if_pos]
    rw [← List.length_eq_zero_iff]
    omega

/-- Tokens at the front, each end tag of which closes something, and then what comes of the rest. -/
theorem exists_outcome_append (h : Matched tokens) (rest : List (Except ε Token)) :
    ∃ result, Outcome (tokens.map .ok ++ rest) result := by
  induction rest generalizing tokens with
  | nil =>
    rw [List.append_nil]
    rcases Nat.lt_or_ge (tokens.countP (bracket · = .closing))
      (tokens.countP (bracket · = .opening)) with hlt | hle
    · exact ⟨_, .unclosed h hlt⟩
    · exact ⟨_, .document h hle⟩
  | cons item rest ih =>
    cases item with
    | error failure => exact ⟨_, .source h failure rest⟩
    | ok token =>
      by_cases hstops : bracket token = .closing ∧ unclosed tokens = []
      · obtain rfl : token = .endTag := by
          cases token <;> first | rfl | cases hstops.1
        exact ⟨_, .unmatched h hstops.2 rest⟩
      · have hnext := ih (h.concat hstops)
        rwa [List.map_append, List.append_assoc] at hnext

/-- A failure makes no document. -/
theorem exists_tokens_of_ofItems {d : Document} (h : ofItems items = .ok d) :
    ∃ tokens : List Token, items = tokens.map .ok := by
  obtain ⟨result, houtcome⟩ := exists_outcome_append matched_nil items
  rw [List.map_nil, List.nil_append] at houtcome
  have hresult := houtcome.eq_ofItems
  rw [h] at hresult
  cases houtcome with
  | document => exact ⟨_, rfl⟩
  | source | unmatched | unclosed => cases hresult

/-- **Building stops at the first failure or end tag that closes nothing**, and if there is none the
numbers of the tags tell what comes of it. A builder refuses just what closes nothing, and then it
is as if the call had not been made. -/
theorem outcome_of_items {ε : Type} (items : List (Except ε Token)) :
    (∀ result, Outcome items result ↔ (ofItems items).map (fun _ => ()) = result) ∧
    ∀ before operation after,
      ((Builder.empty.run before).answer operation = false ↔
        bracket operation = .closing ∧ unclosed before = []) ∧
      ((Builder.empty.run before).answer operation = false →
        Builder.empty.run (before ++ operation :: after) =
          Builder.empty.run (before ++ after)) := by
  refine ⟨fun result => ⟨Outcome.eq_ofItems, ?_⟩, fun before operation after => ⟨?_, ?_⟩⟩
  · rintro rfl
    obtain ⟨result, h⟩ := exists_outcome_append matched_nil items
    exact h.eq_ofItems ▸ h
  · rw [Builder.answer_eq_false_iff, Builder.openElements_run_eq_nil_iff]
  · intro hrefused
    rw [Builder.run_append, Builder.run_append, Builder.run_cons,
      Builder.apply_of_refused hrefused]

/-- An element with a text and an element inside it. -/
def balancedTokens : List Token :=
  [.startTag ⟨none, "a"⟩ [], .text "t", .startTag ⟨none, "b"⟩ [], .endTag, .endTag]

/-- Balanced tokens, an end tag too many, and a failure behind it. -/
def unbalancedItems : List (Except String Token) :=
  balancedTokens.map .ok ++ .ok .endTag :: [.error "late"]

theorem outcome_of_unbalancedItems :
    Outcome unbalancedItems (.error (.unexpectedEndTag 5)) ∧
    (ofItems unbalancedItems).map (fun _ => ()) = .error (.unexpectedEndTag 5) ∧
    (Builder.empty.run [.push .endTag]).answer .endElement = false ∧
    Builder.empty.run [.push .endTag, .endElement, .leaf .text rfl "" "t"] =
      Builder.empty.run [.push .endTag, .leaf .text rfl "" "t"] := by
  have houtcome : Outcome unbalancedItems (.error (.unexpectedEndTag balancedTokens.length)) :=
    .unmatched (matched_iff.2 rfl) rfl [.error "late"]
  have hoperation :=
    (outcome_of_items unbalancedItems).2 [.push .endTag] .endElement [.leaf .text rfl "" "t"]
  have hrefused := hoperation.1.2 ⟨rfl, rfl⟩
  exact ⟨houtcome, ((outcome_of_items unbalancedItems).1 _).1 houtcome, hrefused,
    hoperation.2 hrefused⟩

end Document

end MarkupQuery.NodeTree
