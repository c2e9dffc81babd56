import MarkupQuery.Proofs.Markup.Calls
import MarkupQuery.Proofs.Markup.Extent
import MarkupQuery.Proofs.Markup.Reading

/-!
# Charging tokens to the text

Everything that a reader gives was written in the text that it has passed, but for two things: the
end of a tag that closes itself, which is charged in advance to the slash, and the namespaces of
names, which are charged to the declarations that bind them. So the tokens of any calls have at most
as many records and bytes of text as there are bytes in front of the reader, and their strings are,
apart from the namespace of `xml`, all among strings that were written there once each.

`Reader.Charge` says this of one call, `Reader.charge_deliver` proves it, and `Reader.Account` is
what follows for all calls together.
-/

namespace MarkupQuery.Markup

open Text

/-! ## Namespaces -/

namespace Scopes

/-- The namespaces that are bound. -/
def uris (s : Scopes) : List String :=
  s.bindings.map Binding.uri

variable {s : Scopes} {label uri : String}

theorem mem_uris_of_resolve? (h : s.resolve? label = some uri) : uri ∈ s.uris := by
  obtain ⟨b, hb, rfl⟩ := Option.map_eq_some_iff.1 h
  exact List.mem_map_of_mem (List.mem_of_find?_eq_some hb)

theorem spaceOf_mem (s : Scopes) (label : String) :
    s.spaceOf label = label ∨ s.spaceOf label ∈ s.uris := by
  unfold spaceOf
  cases h : s.resolve? label with
  | none => exact .inl rfl
  | some uri => exact .inr (mem_uris_of_resolve? h)

theorem strings_labelled (s : Scopes) {name label base : String}
    (h : splitLabel name = (some label, base)) :
    (ExpandedName.mk (some (s.spaceOf label)) base).strings ⊆ nameParts name ++ s.uris := by
  intro t ht
  rw [nameParts, h]
  rcases List.mem_cons.1 ht with rfl | ht
  · simp
  · obtain rfl := List.mem_singleton.1 ht
    rcases s.spaceOf_mem label with hspace | hspace
    · simp [hspace]
    · exact List.mem_append_right _ hspace

/-- The strings of an expanded name are parts of the name as it is written, or bound. -/
theorem strings_elementName (s : Scopes) (name : String) :
    (s.elementName name).strings ⊆ nameParts name ++ s.uris := by
  unfold elementName
  split
  · rename_i hparts
    exact s.strings_labelled hparts
  · rename_i base hparts
    intro t ht
    rcases List.mem_cons.1 ht with rfl | ht
    · simp [nameParts, hparts]
    · obtain ⟨huri, -⟩ := Option.filter_eq_some_iff.1 (Option.mem_toList.1 ht)
      exact List.mem_append_right _ (mem_uris_of_resolve? huri)

theorem strings_attributeName (s : Scopes) (name : String) :
    (s.attributeName name).strings ⊆ nameParts name ++ s.uris := by
  unfold attributeName
  split
  · rename_i hparts
    exact s.strings_labelled hparts
  · rename_i base hparts
    intro t ht
    obtain rfl := List.mem_singleton.1 ht
    simp [nameParts, hparts]

theorem uris_leave (s : Scopes) : s.leave.uris ⊆ s.uris :=
  ((List.dropWhile_suffix _).sublist.map _).subset

theorem uris_declare (s : Scopes) (label uri : String) :
    (s.declare label uri).uris ⊆ uri :: s.uris := by
  unfold declare
  split
  · exact List.subset_cons_self _ _
  · exact List.Subset.refl _

theorem uris_declareAll (s : Scopes) (attributes : List RawAttribute) :
    (s.declareAll attributes).uris ⊆ s.uris ++ attributes.map RawAttribute.value := by
  induction attributes generalizing s with
  | nil => exact List.subset_append_left _ _
  | cons a attributes ih =>
    intro uri huri
    have hcons {s' : Scopes} (hs : s'.uris ⊆ a.value :: s.uris)
        (h : uri ∈ (s'.declareAll attributes).uris) :
        uri ∈ s.uris ++ (a :: attributes).map RawAttribute.value := by
      rw [List.map_cons]
      rcases List.mem_append.1 (ih s' h) with h | h
      · rcases List.mem_cons.1 (hs h) with rfl | h
        · simp
        · exact List.mem_append_left _ h
      · exact List.mem_append_right _ (List.mem_cons_of_mem _ h)
    rw [declareAll, List.foldl_cons] at huri
    cases hdeclared : declared? a.name with
    | none =>
      rw [hdeclared] at huri
      exact hcons (List.subset_cons_self _ _) huri
    | some label =>
      rw [hdeclared] at huri
      exact hcons (s.uris_declare label a.value) huri

end Scopes

namespace RawAttribute

theorem value_mem_parts (a : RawAttribute) : a.value ∈ a.parts :=
  List.mem_append_right _ (List.mem_cons_self ..)

theorem map_value_subset (attributes : List RawAttribute) :
    attributes.map value ⊆ attributes.flatMap parts := by
  intro v hv
  obtain ⟨a, ha, rfl⟩ := List.mem_map.1 hv
  exact List.mem_flatMap.2 ⟨a, ha, a.value_mem_parts⟩

end RawAttribute

namespace Reader

variable {r r' : Reader} {token : Option Token}

/-- The number of end tags that a reader owes. -/
def owed (r : Reader) : Nat :=
  r.owesEnd.toNat

/-- What a call gives is charged to the ground that the reader covers, and the namespaces that it
binds as well. The end tag that a reader owes has been charged before. -/
structure Charge (r : Reader) (token : Option Token) (r' : Reader) : Prop where
  ground : r.place.Covers 0 r'.place
  records : r.position + (token.elim 0 Token.recordCount + r'.owed) ≤ r'.position + r.owed
  text : r.place.Covers (token.elim 0 Token.textBytes) r'.place
  strings : ∃ written, r.place.Covers (bytesOf written) r'.place ∧
    token.elim [] Token.strings ⊆ written ++ r.scopes.uris ∧
    r'.scopes.uris ⊆ written ++ r.scopes.uris

/-- Nothing is charged for a call that gives nothing. -/
theorem charge_none (hground : r.place.Covers 0 r'.place) (howed : r'.owed ≤ r.owed)
    (hscopes : r'.scopes = r.scopes) : Charge r none r' where
  ground := hground
  records := by
    have := hground.offset_le
    change r.place.offset + (0 + r'.owed) ≤ r'.place.offset + r.owed
    omega
  text := hground
  strings := ⟨[], hground, List.nil_subset _, hscopes ▸ List.Subset.refl _⟩

theorem uris_closeElement (r : Reader) : r.closeElement.scopes.uris ⊆ r.scopes.uris := by
  unfold closeElement
  split
  · exact List.Subset.refl _
  · exact Scopes.uris_leave _

theorem owed_closeElement (r : Reader) : r.closeElement.owed = r.owed := by
  unfold closeElement
  split <;> rfl

theorem place_closeElement (r : Reader) : r.closeElement.place = r.place := by
  unfold closeElement
  split <;> rfl

/-- The strings of a start tag are written in the tag, or bound when it opens. -/
theorem strings_startToken (s : Scopes) (name : String) (attributes : List RawAttribute) :
    (startToken s name attributes).strings ⊆
      (nameParts name ++ attributes.flatMap RawAttribute.parts) ++ s.uris := by
  intro t ht
  rcases List.mem_append.1 ht with ht | ht
  · rcases List.mem_append.1 (s.strings_elementName name ht) with h | h
    · simp [h]
    · simp [h]
  · obtain ⟨b, hb, ht⟩ := List.mem_flatMap.1 ht
    obtain ⟨a, ha, rfl⟩ := List.mem_map.1 hb
    have hparts : t ∈ a.parts ++ s.uris := by
      rcases List.mem_append.1 ht with ht | ht
      · rcases List.mem_append.1 (s.strings_attributeName a.name ht) with h | h
        · exact List.mem_append_left _ (List.mem_append_left _ h)
        · exact List.mem_append_right _ h
      · rw [List.mem_singleton.1 ht]
        exact List.mem_append_left _ a.value_mem_parts
    rcases List.mem_append.1 hparts with h | h
    · exact List.mem_append_left _ (List.mem_append_right _ (List.mem_flatMap.2 ⟨a, ha, h⟩))
    · exact List.mem_append_right _ h

/-- What is taken in is charged to the ground that the lexeme spans. -/
theorem charge_accept {lexeme : Lexeme} {q : Place} (howes : r.owesEnd = false)
    (hspans : lexeme.Spans r.place q) :
    Charge r (r.accept lexeme q).1.toOption (r.accept lexeme q).2 := by
  have howed : r.owed = 0 := by rw [owed, howes]; rfl
  have hrecords := hspans.records.offset_le
  have hground : r.place.Covers 0 q := hspans.records.weaken (Nat.zero_le _)
  cases lexeme with
  | text | comment | instruction =>
    refine ⟨hground, ?_, hspans.text, _, hspans.strings, List.subset_append_left _ _,
      List.subset_append_right _ _⟩
    change r.position + (1 + r.owed) ≤ q.offset + r.owed
    exact Nat.add_assoc .. ▸ Nat.add_le_add_right hrecords _
  | endTag name offset =>
    rw [accept]
    split
    · exact charge_none hground (Nat.le_refl _) rfl
    · refine ⟨by rwa [place_closeElement], ?_, by rwa [place_closeElement], [], ?_,
        List.nil_subset _, uris_closeElement _⟩
      · rw [owed_closeElement, position, position, place_closeElement]
        change r.place.offset + (1 + r.owed) ≤ q.offset + r.owed
        exact Nat.add_assoc .. ▸ Nat.add_le_add_right hrecords _
      · rwa [place_closeElement]
  | startTag name attributes closes afterName =>
    rw [accept]
    split
    · exact charge_none (hspans.back _ _ _ _ rfl) (Nat.le_refl _) rfl
    · have huris : (r.scopes.enter.declareAll attributes).uris ⊆
          (Lexeme.startTag name attributes closes afterName).strings ++ r.scopes.uris := by
        intro uri huri
        rcases List.mem_append.1 (Scopes.uris_declareAll _ _ huri) with h | h
        · exact List.mem_append_right _ h
        · exact List.mem_append_left _ (List.mem_append_right _ (RawAttribute.map_value_subset _ h))
      refine ⟨hground, ?_, hground, _, hspans.strings, ?_, huris⟩
      · change r.place.offset + ((attributes.map _).length + 1 + closes.toNat) ≤ q.offset + r.owed
        rw [List.length_map]
        exact Nat.le_trans hrecords (Nat.le_add_right _ _)
      · intro t ht
        rcases List.mem_append.1 (strings_startToken _ name attributes ht) with h | h
        · exact List.mem_append_left _ h
        · exact huris h

theorem charge_read (r : Reader) : Charge r r.read.1.toOption.join r.read.2 := by
  rw [read]
  split
  · rename_i howes
    refine ⟨?_, ?_, ?_, [], ?_, List.nil_subset _, uris_closeElement _⟩
    · rw [place_closeElement]
      exact .refl _
    · rw [owed_closeElement, position, position, place_closeElement, owed, owed, howes]
      exact Nat.le_refl _
    · rw [place_closeElement]
      exact .refl _
    · rw [place_closeElement]
      exact .refl _
  · rename_i howes
    have hextent := Lexeme.extent_next r.place
    split
    · rename_i hnext
      rw [hnext] at hextent
      exact charge_none hextent (Nat.le_refl _) rfl
    · rename_i hnext
      rw [hnext] at hextent
      exact charge_none hextent (Nat.le_refl _) rfl
    · rename_i lexeme q hnext
      rw [hnext] at hextent
      have hcharge := charge_accept (by simpa using howes) hextent
      split
      · rename_i haccept
        rwa [haccept] at hcharge
      · rename_i haccept
        rwa [haccept] at hcharge

theorem charge_next (r : Reader) : Charge r (r.next.1.bind Except.toOption) r.next.2 := by
  rw [next]
  split
  · exact charge_none (.refl _) (Nat.le_refl _) rfl
  · have hcharge := r.charge_read
    split
    · rename_i hread
      rw [hread] at hcharge
      exact ⟨hcharge.ground, hcharge.records, hcharge.text, hcharge.strings⟩
    · rename_i hread
      rwa [hread] at hcharge
    · rename_i hread
      rwa [hread] at hcharge

/-- Every call is charged to the ground that it covers. -/
theorem charge_deliver (r : Reader) (call : Call) :
    Charge r (r.deliver call).1 (r.deliver call).2 := by
  cases call with
  | read => exact r.charge_read
  | next => exact r.charge_next

/-! ## Many calls -/

/-- The tokens that some calls give, in order. -/
def tokens (r : Reader) (calls : List Call) : List Token :=
  (r.given calls).map Given.token

theorem tokens_concat (r : Reader) (calls : List Call) (call : Call) :
    r.tokens (calls ++ [call]) =
      r.tokens calls ++ ((r.after calls).deliver call).1.toList := by
  rw [tokens, given_concat, List.map_append]
  cases ((r.after calls).deliver call).1 <;> rfl

theorem Yields.tokens_eq {given : List Token} (h : r.Yields given r') :
    r.tokens (.replicate given.length .next) = given := by
  induction h with
  | nil => rfl
  | @cons r r' _ t given head _ ih =>
    have hdeliver : r.deliver .next = (some t, r') := by rw [deliver, head]; rfl
    rw [tokens, List.length_cons, List.replicate_succ, Reader.given, hdeliver, List.map_append]
    exact congrArg (t :: ·) ih

theorem itemsOnto_eq_append (done : List (Except ReadError Token)) (fuel : Nat) (r : Reader) :
    itemsOnto done fuel r = done.reverse ++ itemsOnto [] fuel r := by
  induction fuel generalizing done r with
  | zero => exact (List.append_nil _).symm
  | succ fuel ih =>
    rw [itemsOnto, itemsOnto]
    split
    · exact (List.append_nil _).symm
    · rename_i item r' _
      rw [ih (item :: done), ih [item], List.reverse_cons, List.append_assoc]
      rfl

/-- The tokens among the items are given one after the other. -/
theorem exists_yields_of_itemsOnto {given : List Token} {rest : List (Except ReadError Token)}
    {fuel : Nat} (h : itemsOnto [] fuel r = given.map .ok ++ rest) : ∃ r', r.Yields given r' := by
  induction fuel generalizing given r with
  | zero =>
    cases given with
    | nil => exact ⟨r, .nil⟩
    | cons => cases h
  | succ fuel ih =>
    cases given with
    | nil => exact ⟨r, .nil⟩
    | cons t given =>
      rw [itemsOnto] at h
      split at h
      · cases h
      · rename_i item next hnext
        rw [itemsOnto_eq_append] at h
        obtain ⟨rfl, hrest⟩ := List.cons.inj h
        obtain ⟨r', hyields⟩ := ih hrest
        exact ⟨r', .cons hnext hyields⟩

/-- What has been given is charged to the text in front of the reader. -/
structure Account (text : String) (r : Reader) (tokens : List Token) : Prop where
  ground : (Place.start text).Covers 0 r.place
  records : (tokens.map Token.recordCount).sum + r.owed ≤ r.position
  textBytes : (tokens.map Token.textBytes).sum ≤ r.position
  strings : ∃ written, bytesOf written ≤ r.position ∧
    tokens.flatMap Token.strings ⊆ Scopes.xmlUri :: written ∧
    r.scopes.uris ⊆ Scopes.xmlUri :: written

variable {text : String} {given : List Token}

/-- The reader stands in the text. -/
theorem Account.position_le (h : Account text r given) : r.position ≤ text.utf8ByteSize := by
  obtain ⟨cs, hpass, -⟩ := h.ground
  have hrest : text.toList = cs ++ r.place.rest := hpass.rest_eq
  have hoffset : r.place.offset = 0 + byteLength cs := hpass.offset_eq
  rw [position, hoffset, ← byteLength_toList, hrest, byteLength_append]
  omega

/-- A call that is charged keeps the account. -/
theorem Account.charge (h : Account text r given) (hcharge : Charge r token r') :
    Account text r' (given ++ token.toList) := by
  obtain ⟨written, hbytes, htokens, huris⟩ := h.strings
  obtain ⟨new, hnew, hstrings, hbound⟩ := hcharge.strings
  have hrecords := h.records
  have htext := h.textBytes
  have hcount := hcharge.records
  have hlength := hcharge.text.offset_le
  have hground := hnew.offset_le
  -- what was bound before was written before, or is the namespace of `xml`
  have hmem : new ++ r.scopes.uris ⊆ Scopes.xmlUri :: (new ++ written) := by
    intro s hs
    rcases List.mem_append.1 hs with hs | hs
    · exact List.mem_cons_of_mem _ (List.mem_append_left _ hs)
    · rcases List.mem_cons.1 (huris hs) with rfl | hs
      · exact List.mem_cons_self ..
      · exact List.mem_cons_of_mem _ (List.mem_append_right _ hs)
  refine ⟨h.ground.trans hcharge.ground, ?_, ?_, new ++ written, ?_, ?_,
    fun s hs => hmem (hbound hs)⟩
  · rw [List.map_append, List.sum_append]
    cases token <;> simp at hcount ⊢ <;> omega
  · rw [List.map_append, List.sum_append]
    unfold position at *
    cases token <;> simp at hlength ⊢ <;> omega
  · rw [bytesOf_append]
    unfold position at *
    omega
  · rw [List.flatMap_append]
    intro s hs
    rcases List.mem_append.1 hs with hs | hs
    · rcases List.mem_cons.1 (htokens hs) with rfl | hs
      · exact List.mem_cons_self ..
      · exact List.mem_cons_of_mem _ (List.mem_append_right _ hs)
    · refine hmem (hstrings ?_)
      cases token with
      | none => exact hs
      | some t => simpa using hs

/-- Whatever the calls are, what they give is charged to the text in front of the reader. -/
theorem account_after (strict : Bool) (text : String) (calls : List Call) :
    Account text ((start strict text).after calls) ((start strict text).tokens calls) := by
  induction calls using List.reverseRecOn with
  | nil =>
    refine ⟨.refl _, Nat.le_refl _, Nat.le_refl _, [], Nat.le_refl _, List.nil_subset _, ?_⟩
    exact List.Subset.refl _
  | append_singleton calls call ih =>
    rw [after_concat, tokens_concat]
    exact ih.charge (charge_deliver _ call)

end Reader

end MarkupQuery.Markup
