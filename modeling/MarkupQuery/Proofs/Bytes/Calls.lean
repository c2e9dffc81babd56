import MarkupQuery.Proofs.Bytes.Lexemes
import MarkupQuery.Proofs.Markup.Exhaustion

/-!
# Calls by bytes

A reader with a byte offset for a position calls the tokenizer there and goes on from the offset
that it leaves. `Reader.answersAt?` makes a sequence of calls in this way, and is `none` as soon as
one slice or one byte is out of place, be it in the tokenizer, in the attributes or in the
references. It never is (`Reader.answersAt?_eq`): every position that a call leaves, also one that
fails, stands at a place of the text.
-/

namespace MarkupQuery.Markup.Reader

open Text

variable {r : Reader} {text : List Char}

/-! ## Calls -/

/-- What a call gives: the next token or item, an error, or nothing at the end. -/
def answer (r : Reader) : Call → Option (Except ReadError Token) × Reader
  | .read =>
    match r.read with
    | (.error e, r) => (some (.error e), r)
    | (.ok token, r) => (token.map .ok, r)
  | .next => r.next

/-- What some calls give, in order. -/
def answers (r : Reader) : List Call → List (Option (Except ReadError Token))
  | [] => []
  | call :: calls => (r.answer call).1 :: (r.answer call).2.answers calls

/-- Take in what the tokenizer found in front of a place. -/
def settle (r : Reader) (found : Except ReadError (Option Lexeme)) (place : Place) :
    Except ReadError (Option Token) × Reader :=
  match found with
  | .error e => (.error e, { r with place })
  | .ok none => (.ok none, { r with place })
  | .ok (some lexeme) =>
    match r.accept lexeme place with
    | (.error e, r) => (.error e, r)
    | (.ok token, r) => (.ok (some token), r)

/-- Read the next token at the position of the reader. -/
def readAt? (text : List Char) (r : Reader) :
    Option (Except ReadError (Option Token) × Reader) :=
  if r.owesEnd then some (.ok (some .endTag), closeElement { r with owesEnd := false })
  else (Lexeme.nextAt? text r.position).map fun (found, i) => r.settle found (placeAt text i)

/-- What a call gives at the position of the reader. -/
def answerAt? (text : List Char) (r : Reader) :
    Call → Option (Option (Except ReadError Token) × Reader)
  | .read => (readAt? text r).map fun
    | (.error e, r) => (some (.error e), r)
    | (.ok token, r) => (token.map .ok, r)
  | .next =>
    if r.failed then some (none, r)
    else (readAt? text r).map fun
      | (.error e, r) => (some (.error e), { r with failed := true })
      | (.ok token, r) => (token.map .ok, r)

/-- What some calls give, each at the position that the one before it left, and the reader behind
them. -/
def answersAt? (text : List Char) (r : Reader) :
    List Call → Option (List (Option (Except ReadError Token)) × Reader)
  | [] => some ([], r)
  | call :: calls => (answerAt? text r call).bind fun (first, r) =>
    (answersAt? text r calls).map fun (others, r) => (first :: others, r)

/-! ## Agreement -/

theorem covers_of_extent {p q : Place} {result : Except ReadError (Option Lexeme)}
    (h : Lexeme.Extent p q result) : p.Covers 0 q := by
  obtain e | _ | lexeme := result
  · exact h
  · exact h
  · exact Lexeme.Spans.records h |>.weaken (Nat.zero_le _)

theorem readAt?_eq (h : Stands text 0 r.position r.place) : readAt? text r = some r.read := by
  unfold readAt? read
  split
  · rfl
  · have hnext := h.ahead (covers_of_extent (Lexeme.extent_next r.place))
    rw [Lexeme.nextAt?_eq h, Option.map_some]
    dsimp only
    rw [← hnext.eq_placeAt]
    rcases Lexeme.next r.place with ⟨e | _ | lexeme, q⟩ <;> rfl

theorem answerAt?_eq (h : Stands text 0 r.position r.place) (call : Call) :
    answerAt? text r call = some (r.answer call) := by
  cases call with
  | read =>
    rw [answerAt?, readAt?_eq h, answer]
    rfl
  | next =>
    rw [answerAt?, readAt?_eq h, answer, next]
    split
    · rfl
    · rcases r.read with ⟨e | _ | token, r'⟩ <;> rfl

theorem answer_snd (r : Reader) (call : Call) : (r.answer call).2 = (r.deliver call).2 := by
  cases call with
  | read =>
    rw [answer]
    split <;> rename_i h <;> exact (congrArg Prod.snd h).symm
  | next => rfl

theorem answersAt?_eq (h : Stands text 0 r.position r.place) (calls : List Call) :
    answersAt? text r calls = some (r.answers calls, r.after calls) := by
  induction calls generalizing r with
  | nil => rfl
  | cons call calls ih =>
    have hbehind : Stands text 0 (r.deliver call).2.position (r.deliver call).2.place :=
      h.ahead (charge_deliver r call).ground
    rw [answersAt?, answerAt?_eq h, Option.bind_some, answers]
    dsimp only
    rw [answer_snd, ih hbehind]
    rfl

/-- **Calls are safe in any order**, whatever the text is and whether or not the reader is strict,
also behind calls that fail.

- No access to the text is out of place, and what the calls give is what the reader gives.
- The position of the reader is at the end of a character, and in the text.
- Further calls do not lead back.
- A call that gives a token moves on, unless the token is the end tag that a tag which closed itself
  owes.
- There are at most two items to a byte and one more, and when as many have been asked for, there
  are no others. -/
theorem calls_in_place (strict : Bool) (text : String) (calls : List Call) :
    answersAt? text.toList (start strict text) calls =
        some ((start strict text).answers calls, (start strict text).after calls) ∧
      String.Pos.Raw.IsValid text ⟨((start strict text).after calls).position⟩ ∧
      ((start strict text).after calls).position ≤ text.utf8ByteSize ∧
      (∀ later, ((start strict text).after calls).position ≤
        ((start strict text).after (calls ++ later)).position) ∧
      (∀ call token, (((start strict text).after calls).deliver call).1 = some token →
        ((start strict text).after calls).position <
            ((start strict text).after (calls ++ [call])).position ∨
          ((start strict text).after calls).owesEnd = true ∧ token = .endTag) ∧
      ((start strict text).iterated calls).length ≤ 2 * text.utf8ByteSize + 1 ∧
      (2 * text.utf8ByteSize + 1 ≤ calls.count .next → ∀ later,
        ((start strict text).after (calls ++ later)).next.1 = none) := by
  have haccount := account_after strict text calls
  obtain ⟨passed, hpass, -⟩ := haccount.ground
  refine ⟨answersAt?_eq (stands_start 0 text.toList) calls, hpass.isValid, haccount.position_le,
    fun later => ?_, fun call token htoken => ?_, ?_, fun hcount later => ?_⟩
  · rw [after_append]
    exact position_le_after _ later
  · rw [after_concat]
    exact position_lt_or_owed htoken
  · have := length_iterated_add_budget_le strict text calls
    omega
  · have hlt : text.utf8ByteSize < 2 * text.utf8ByteSize + 1 := by omega
    have hend := exhausted_of_lt_count strict (Nat.lt_of_lt_of_le hlt hcount)
    rw [after_append, (hend.after later).next_eq]

/-- An element with a name of longer characters, and text behind it. -/
def accentedText : String :=
  "<é/>ß"

theorem calls_in_place_accented :
    ((start true accentedText).deliver .next).1 = some (.startTag ⟨none, "é"⟩ []) ∧
      (start true accentedText).position < ((start true accentedText).after [.next]).position ∧
      ∀ later, ((start true accentedText).after (.replicate 15 .next ++ later)).next.1 = none := by
  have hgiven : ((start true accentedText).deliver .next).1 =
      some (.startTag ⟨none, "é"⟩ []) := by decide +kernel
  have hmoves := (calls_in_place true accentedText []).2.2.2.2.1 .next _ hgiven
  have hcount : 2 * accentedText.utf8ByteSize + 1 ≤ (List.replicate 15 Call.next).count .next := by
    decide +kernel
  refine ⟨hgiven, hmoves.resolve_right fun howes => ?_,
    (calls_in_place true accentedText (.replicate 15 .next)).2.2.2.2.2.2 hcount⟩
  exact Bool.false_ne_true howes.1

end MarkupQuery.Markup.Reader
