import Mathlib.Data.List.TakeWhile
import MarkupQuery.Proofs.Markup.LexemeReading

/-!
# Reading the markup of a forest

A reader that stands in front of the markup of a proper forest gives the tokens of the forest one
after the other, and then stands behind the markup with the same elements open
(`Reader.exists_yields`). The induction is over the forest. What is inside an element is read with
that element open, and the reader comes back with the same open elements, so the end tag fits.

No proper forest declares a namespace, so the bindings never change. The depth of the scopes need
not come back, since its counter stops at its greatest value.
-/

namespace MarkupQuery.Markup

open Text Text.Place

variable {p q : Place} {name : String} {attributes : List RawAttribute}

/-! ## Names without a colon -/

theorem splitLabel_eq (h : ':' ∉ name.toList) : splitLabel name = (none, name) := by
  have hdrop : name.toList.dropWhile (· != ':') = [] :=
    List.dropWhile_eq_nil_iff.2 fun c hc => by simpa using fun heq : c = ':' => h (heq ▸ hc)
  rw [splitLabel, hdrop]
  simp

namespace Scopes

/-- The scopes at some depth of elements of which none declares a namespace. -/
def plain (depth : Nat) : Scopes :=
  ⟨base.bindings, depth⟩

variable {depth : Nat}

theorem leave_plain : (plain depth).leave = plain (depth - 1) := by
  simp [leave, plain, base]

theorem elementName_plain (h : ':' ∉ name.toList) :
    (plain depth).elementName name = ⟨none, name⟩ := by
  rw [elementName, splitLabel_eq h]
  rfl

theorem attributeName_eq (s : Scopes) (h : ':' ∉ name.toList) :
    s.attributeName name = ⟨none, name⟩ := by
  rw [attributeName, splitLabel_eq h]

theorem declared?_eq_none (h : ':' ∉ name.toList) (hne : name ≠ "xmlns") :
    declared? name = none := by
  have hbegins : ¬ ['x', 'm', 'l', 'n', 's', ':'].isPrefixOf name.toList = true := by
    rw [List.isPrefixOf_iff_prefix]
    exact fun hbegins => h (hbegins.subset (by simp))
  rw [declared?, if_neg (by simpa using hne), if_neg hbegins]

theorem declareAll_eq_self (s : Scopes)
    (h : ∀ a ∈ attributes, IsBaseName a.name ∧ a.name ≠ "xmlns") :
    s.declareAll attributes = s := by
  induction attributes with
  | nil => rfl
  | cons a rest ih =>
    obtain ⟨ha, hne⟩ := h a (List.mem_cons_self ..)
    rw [declareAll, List.foldl_cons, declared?_eq_none ha.colon hne]
    exact ih fun b hb => h b (List.mem_cons_of_mem _ hb)

end Scopes

theorem RawAttribute.repeated?_eq_none (h : (attributes.map RawAttribute.name).Nodup) :
    RawAttribute.repeated? attributes = none := by
  suffices ∀ seen : List String, (∀ a ∈ attributes, a.name ∉ seen) →
      RawAttribute.repeated?.go seen attributes = none from this [] (by simp)
  induction attributes with
  | nil => exact fun _ _ => rfl
  | cons a rest ih =>
    intro seen hseen
    rw [List.map_cons, List.nodup_cons] at h
    have ha : ¬ seen.contains a.name = true := by simpa using hseen a (List.mem_cons_self ..)
    rw [RawAttribute.repeated?.go, if_neg ha]
    refine ih h.2 (a.name :: seen) fun b hb hmem => ?_
    rcases List.mem_cons.1 hmem with heq | hmem
    · exact h.1 (heq ▸ List.mem_map_of_mem hb)
    · exact hseen b (List.mem_cons_of_mem _ hb) hmem

namespace Reader

/-! ## Runs -/

/-- A reader gives tokens one after the other and is then the second reader. -/
inductive Yields : Reader → List Token → Reader → Prop
  /-- It gives no token and stays as it is. -/
  | nil {r : Reader} : Yields r [] r
  /-- It gives a token, then others. -/
  | cons {r r' r'' : Reader} {t : Token} {ts : List Token} (head : r.next = (some (.ok t), r'))
    (tail : Yields r' ts r'') : Yields r (t :: ts) r''

variable {r r' r'' : Reader} {tokens more : List Token}

theorem Yields.trans (h : r.Yields tokens r') (h' : r'.Yields more r'') :
    r.Yields (tokens ++ more) r'' := by
  induction h with
  | nil => exact h'
  | cons head _ ih => exact .cons head (ih h')

theorem itemsOnto_of_none (h : r.next.1 = none) (fuel : Nat)
    (done : List (Except ReadError Token)) : itemsOnto done fuel r = done.reverse := by
  cases fuel with
  | zero => rfl
  | succ fuel =>
    rw [itemsOnto]
    split <;> simp_all

/-- The items of a reader that gives tokens are these tokens and then the items still to come. -/
theorem Yields.itemsOnto (h : r.Yields tokens r') (fuel : Nat)
    (done : List (Except ReadError Token)) :
    itemsOnto done (tokens.length + fuel) r =
      itemsOnto ((tokens.map .ok).reverse ++ done) fuel r' := by
  induction h generalizing done with
  | nil => rw [List.length_nil, Nat.zero_add, List.map_nil, List.reverse_nil, List.nil_append]
  | cons head _ ih =>
    rw [List.length_cons, Nat.add_right_comm, Reader.itemsOnto, head]
    dsimp only
    rw [ih, List.map_cons, List.reverse_cons, List.append_assoc, List.singleton_append]

/-- A reader that gives tokens and then none has these tokens as its items. -/
theorem Yields.items_eq (h : r.Yields tokens r') (hend : r'.next.1 = none)
    (hbound : tokens.length ≤ r.itemBound) : r.items = tokens.map .ok := by
  obtain ⟨fuel, hfuel⟩ := Nat.exists_eq_add_of_le hbound
  rw [items, hfuel, h.itemsOnto fuel [], itemsOnto_of_none hend, List.append_nil,
    List.reverse_reverse]

/-! ## Steps -/

/-- A reader between two constructs, in elements of which none declares a namespace. -/
def resting (strict : Bool) (place : Place) (openTags : List String) (depth : Nat) : Reader :=
  ⟨strict, place, Scopes.plain depth, openTags, false, false⟩

variable {strict : Bool} {openTags : List String} {depth : Nat}

theorem next_of_accept {lexeme : Lexeme} {t : Token} (howes : r.owesEnd = false)
    (hfailed : r.failed = false) (hlexeme : Lexeme.next r.place = (.ok (some lexeme), q))
    (haccept : r.accept lexeme q = (.ok t, r')) : r.next = (some (.ok t), r') := by
  have hread : r.read = (.ok (some t), r') := by
    rw [read, if_neg (by simp [howes]), hlexeme]
    dsimp only
    rw [haccept]
  rw [next, if_neg (by simp [hfailed]), hread]

theorem next_resting_of_rest_eq_nil (hp : p.rest = []) :
    (resting strict p openTags depth).next = (none, resting strict p openTags depth) := by
  have hread : (resting strict p openTags depth).read =
      (.ok none, resting strict p openTags depth) := by
    rw [read, if_neg (by simp [resting]), show (resting strict p openTags depth).place = p from rfl,
      Lexeme.next_of_rest_eq_nil hp]
    rfl
  rw [next, if_neg (by simp [resting]), hread]

theorem next_resting_endTag
    (h : p.Passes (Construct.endTag.opener ++ (name.toList ++ ['>'])) q) (hname : IsBaseName name) :
    (resting strict p (name :: openTags) depth).next =
      (some (.ok .endTag), resting strict q openTags (depth - 1)) := by
  have hmatch : (resting strict p (name :: openTags) depth).mismatch? name = none := by
    simp [mismatch?, resting, Option.filter]
  refine next_of_accept rfl rfl (Lexeme.next_endTag h hname) ?_
  rw [accept, hmatch]
  dsimp only [closeElement, resting]
  rw [Scopes.leave_plain]

theorem accept_startTag {afterName : Place} {closes : Bool} (hname : IsBaseName name)
    (ha : ∀ a ∈ attributes, IsBaseName a.name ∧ a.name ≠ "xmlns")
    (hd : strict = true → (attributes.map RawAttribute.name).Nodup) :
    (resting strict p openTags depth).accept (.startTag name attributes closes afterName) q =
      (.ok (.startTag ⟨none, name⟩ (attributes.map RawAttribute.toAttribute)),
        ⟨strict, q, Scopes.plain (min (depth + 1) Scopes.maxDepth), name :: openTags, closes,
          false⟩) := by
  have hrepeated : (resting strict p openTags depth).repeated? attributes = none := by
    unfold repeated? resting
    split
    · rename_i hstrict
      exact RawAttribute.repeated?_eq_none (hd hstrict)
    · rfl
  have hattributes (s : Scopes) : attributes.map (fun a =>
      (⟨s.attributeName a.name, a.value⟩ : Attribute)) = attributes.map RawAttribute.toAttribute :=
    List.map_congr_left fun a hmem => by
      rw [s.attributeName_eq (ha a hmem).1.colon, RawAttribute.toAttribute]
  rw [accept, hrepeated]
  dsimp only [openElement, startToken]
  rw [hattributes, Scopes.declareAll_eq_self _ ha]
  refine congrArg (fun name => (Except.ok (Token.startTag name _), _)) ?_
  exact Scopes.elementName_plain hname.colon

/-- A start tag opens an element. -/
theorem next_resting_startTag (openTags : List String) (depth : Nat)
    (h : p.Passes (Construct.startTag.opener ++ (name.toList ++
      (attributes.flatMap RawAttribute.write ++ Lexeme.slash false ++ ['>']))) q)
    (hname : IsBaseName name) (ha : ∀ a ∈ attributes, IsBaseName a.name ∧ a.name ≠ "xmlns")
    (hd : strict = true → (attributes.map RawAttribute.name).Nodup) :
    (resting strict p openTags depth).next =
      (some (.ok (.startTag ⟨none, name⟩ (attributes.map RawAttribute.toAttribute))),
        resting strict q (name :: openTags) (min (depth + 1) Scopes.maxDepth)) := by
  obtain ⟨afterName, hlexeme⟩ := Lexeme.next_startTag h hname fun a hmem => (ha a hmem).1
  exact next_of_accept rfl rfl hlexeme (accept_startTag hname ha hd)

/-- A leaf gives its token. Behind a text has to be the end or a tag. -/
theorem next_resting_leaf {leaf : Leaf} (h : p.Passes leaf.write q) (hleaf : leaf.Proper)
    (hq : leaf.isText = true → q.rest = [] ∨ q.sees '<' = true) :
    (resting strict p openTags depth).next =
      (some (.ok leaf.token), resting strict q openTags depth) := by
  cases leaf with
  | text content => exact next_of_accept rfl rfl (Lexeme.next_text h hleaf (hq rfl)) rfl
  | comment content => exact next_of_accept rfl rfl (Lexeme.next_comment h hleaf) rfl
  | instruction target content =>
    obtain ⟨htarget, hnot, hblank⟩ := hleaf
    have hlexeme := Lexeme.next_instruction
      (by simpa [Leaf.write, Construct.opener] using h) htarget hnot hblank
    exact next_of_accept rfl rfl hlexeme rfl

theorem next_owing :
    (⟨strict, p, Scopes.plain depth, name :: openTags, true, false⟩ : Reader).next =
      (some (.ok .endTag), resting strict p openTags (depth - 1)) := by
  rw [resting, ← Scopes.leave_plain]
  rfl

/-- A tag that closes itself opens an element and closes it. -/
theorem yields_closedTag (h : p.Passes (Construct.startTag.opener ++ (name.toList ++
      (attributes.flatMap RawAttribute.write ++ Lexeme.slash true ++ ['>']))) q)
    (hname : IsBaseName name) (ha : ∀ a ∈ attributes, IsBaseName a.name ∧ a.name ≠ "xmlns")
    (hd : strict = true → (attributes.map RawAttribute.name).Nodup) :
    ∃ depth', (resting strict p openTags depth).Yields
      [.startTag ⟨none, name⟩ (attributes.map RawAttribute.toAttribute), .endTag]
      (resting strict q openTags depth') := by
  obtain ⟨afterName, hlexeme⟩ := Lexeme.next_startTag h hname fun a hmem => (ha a hmem).1
  exact ⟨_, .cons (next_of_accept rfl rfl hlexeme (accept_startTag hname ha hd))
    (.cons next_owing .nil)⟩

/-! ## Forests -/

/-- The markup of a forest that does not start with a text is empty or starts with a tag. -/
theorem rest_eq_nil_or_sees_of_passes {f : Forest} (hf : f.startsWithText = false)
    (h : p.Passes f.write q) (hq : q.rest = [] ∨ q.sees '<' = true) :
    p.rest = [] ∨ p.sees '<' = true := by
  cases f with
  | nil =>
    obtain rfl := passes_nil_iff.1 h
    exact hq
  | element name attributes inner rest => exact .inr h.sees
  | leaf first rest =>
    cases first with
    | text content => cases hf
    | comment content => exact .inr h.sees
    | instruction target content => exact .inr h.sees

theorem exists_yields {f : Forest} (hf : f.Proper) (hd : strict = true → f.Distinct)
    (h : p.Passes f.write q) (hq : q.rest = [] ∨ q.sees '<' = true) (openTags : List String)
    (depth : Nat) :
    ∃ depth', (resting strict p openTags depth).Yields f.tokens
      (resting strict q openTags depth') := by
  induction f generalizing p q openTags depth with
  | nil =>
    obtain rfl := passes_nil_iff.1 h
    exact ⟨depth, .nil⟩
  | element name attributes inner rest ihInner ihRest =>
    obtain ⟨hname, ha, hinner, hrest⟩ := hf
    obtain ⟨behind, htree, hbehind⟩ := passes_append_iff.1 h
    have ihRest := ihRest hrest (fun hs => (hd hs).2.2) hbehind hq openTags
    cases hnil : inner.isNil with
    | true =>
      rw [hnil] at htree
      obtain rfl := Forest.isNil_iff.1 hnil
      obtain ⟨depth₁, htag⟩ := yields_closedTag
        (by simpa [Construct.opener, Lexeme.slash] using htree) hname ha fun hs => (hd hs).1
      obtain ⟨depth₂, hmore⟩ := ihRest depth₁
      exact ⟨depth₂, htag.trans hmore⟩
    | false =>
      rw [hnil] at htree
      have htree : p.Passes ((Construct.startTag.opener ++ (name.toList ++
          (attributes.flatMap RawAttribute.write ++ Lexeme.slash false ++ ['>']))) ++
          (inner.write ++ (Construct.endTag.opener ++ (name.toList ++ ['>'])))) behind := by
        simpa [Construct.opener, Lexeme.slash] using htree
      obtain ⟨inside, hstart, hmore⟩ := passes_append_iff.1 htree
      obtain ⟨last, hinside, hend⟩ := passes_append_iff.1 hmore
      have hangle : last.sees '<' = true :=
        (show last.Passes ('<' :: '/' :: (name.toList ++ ['>'])) behind from hend).sees
      obtain ⟨depth₁, hinner⟩ := ihInner hinner (fun hs => (hd hs).2.1) hinside (.inr hangle)
        (name :: openTags) _
      obtain ⟨depth₂, hmore⟩ := ihRest (depth₁ - 1)
      have htag := next_resting_startTag openTags depth hstart hname ha fun hs => (hd hs).1
      exact ⟨depth₂, .cons htag (hinner.trans (.cons (next_resting_endTag hend hname) hmore))⟩
  | leaf first rest ih =>
    obtain ⟨hfirst, htext, hrest⟩ := hf
    obtain ⟨behind, hleaf, hbehind⟩ := passes_append_iff.1 h
    obtain ⟨depth', hmore⟩ := ih hrest hd hbehind hq openTags depth
    have hstop (ht : first.isText = true) : behind.rest = [] ∨ behind.sees '<' = true :=
      rest_eq_nil_or_sees_of_passes (htext ht) hbehind hq
    exact ⟨depth', .cons (next_resting_leaf hleaf hfirst hstop) hmore⟩

/-- The items of the markup of a proper forest are its tokens. -/
theorem items_markup {f : Forest} (hf : f.Proper) (hd : strict = true → f.Distinct) :
    (start strict f.markup).items = f.tokens.map .ok := by
  have hrest : (Place.start f.markup).rest = f.write := String.toList_ofList
  have hpass : (Place.start f.markup).Passes f.write ⟨_, []⟩ :=
    passes_of_rest_eq (by rw [hrest, List.append_nil])
  obtain ⟨depth, h⟩ := exists_yields hf hd hpass (.inl rfl) [] 0
  have hlength := Forest.length_tokens_le hf
  have hbound : f.tokens.length ≤ (start strict f.markup).itemBound := by
    rw [itemBound, start, hrest]
    omega
  exact h.items_eq (by rw [next_resting_of_rest_eq_nil rfl]) hbound

end Reader

end MarkupQuery.Markup
