import MarkupQuery.Proofs.NodeTree.Balance
import MarkupQuery.Proofs.NodeTree.Dictionary

/-!
# Tables longer than words

Numbers and offsets are words of 32 bits, and nothing stops a table from growing further. Then two
things go wrong.

A string of 2³² bytes or more is not found again, since no word tells its length, and the pool keeps
it each time it is interned (`StringPool.size_data_internAll`). A namespace is written once and
interned for each name in it, so the pool can hold more than was written;
`Document.exists_parse_declaringText` is about the smallest text of that kind.

A record behind the first 2³² has a number that begins again at zero. If the first records are
leaves, an element that opens and closes behind them finds leaves wherever it looks for its
children, and takes as many as there are records inside it (`HasLeaves.run_tokens`). A record deep
inside is counted by each element around it, so there can be more children than records;
`Document.exists_parse_behind` says how many there are in the end.
-/

namespace MarkupQuery

namespace Markup

open Text
open String (ofList)

/-! ## An element that declares its own namespace -/

/-- An element in a namespace that it declares itself. -/
def declaringText (uri : String) : String :=
  ofList ('<' :: 'a' :: (RawAttribute.write ⟨"xmlns", uri⟩ ++ ['/', '>']))

/-- The tokens of that element. -/
def declaringTokens (uri : String) : List Token :=
  [.startTag ⟨some uri, "a"⟩ [⟨⟨none, "xmlns"⟩, uri⟩], .endTag]

variable {uri : String}

/-- A namespace without marks is written as it is. -/
theorem utf8ByteSize_declaringText (h : ∀ c ∈ uri.toList, c ≠ '&' ∧ c ≠ '<' ∧ c ≠ '"') :
    (declaringText uri).utf8ByteSize = uri.utf8ByteSize + 13 := by
  have hsplit : '<' :: 'a' :: (RawAttribute.write ⟨"xmlns", uri⟩ ++ ['/', '>']) =
      ['<', 'a', ' ', 'x', 'm', 'l', 'n', 's', '=', '"'] ++ (uri.toList ++ ['"', '/', '>']) := by
    simp [RawAttribute.write, Reference.escape_eq_self h]
  have hfront : byteLength ['<', 'a', ' ', 'x', 'm', 'l', 'n', 's', '=', '"'] = 10 := rfl
  have hback : byteLength ['"', '/', '>'] = 3 := rfl
  rw [declaringText, utf8ByteSize_ofList, hsplit, byteLength_append, byteLength_append, hfront,
    hback, byteLength_toList]
  omega

namespace Reader

variable {strict : Bool}

/-- The reader behind the tag: the element is open, and its namespace is the default. -/
def declaring (strict : Bool) (place : Place) (uri : String) : Reader where
  strict
  place
  scopes := Scopes.base.enter.declareDefault uri
  openTags := ["a"]
  owesEnd := true
  failed := false

theorem accept_declaring (huri : uri ≠ "") (text : String) (afterName q : Place) :
    (start strict text).accept (.startTag "a" [⟨"xmlns", uri⟩] true afterName) q =
      (.ok (.startTag ⟨some uri, "a"⟩ [⟨⟨none, "xmlns"⟩, uri⟩]), declaring strict q uri) := by
  have hrepeated : (start strict text).repeated? [⟨"xmlns", uri⟩] = none := by
    unfold repeated?
    split
    · exact RawAttribute.repeated?_eq_none (List.nodup_singleton _)
    · rfl
  have hspace : (Scopes.base.enter.declareDefault uri).default? = some uri := by
    simp [Scopes.default?, Scopes.declareDefault, Scopes.declare, Scopes.resolve?,
      Scopes.isFixed, huri]
  have hname : (Scopes.base.enter.declareDefault uri).elementName "a" = ⟨some uri, "a"⟩ := by
    rw [Scopes.elementName, splitLabel_eq (by decide)]
    dsimp only
    rw [hspace]
  have hdeclares : Scopes.base.enter.declareAll [⟨"xmlns", uri⟩] =
      Scopes.base.enter.declareDefault uri := by
    rw [Scopes.declareAll, List.foldl_cons, show Scopes.declared? "xmlns" = some "" from rfl]
    rfl
  rw [accept, hrepeated]
  dsimp only [openElement, startToken, start]
  rw [hdeclares, hname, List.map_singleton,
    Scopes.attributeName_eq _ (show ':' ∉ "xmlns".toList by decide)]
  rfl

theorem next_declaring (strict : Bool) (place : Place) (uri : String) :
    (declaring strict place uri).next = (some (.ok .endTag), resting strict place [] 0) := by
  have hleave : (Scopes.base.enter.declareDefault uri).leave = Scopes.plain 0 := rfl
  rw [resting, ← hleave]
  rfl

theorem items_declaringText (huri : uri ≠ "") :
    (start strict (declaringText uri)).items = (declaringTokens uri).map .ok := by
  have hrest : (Place.start (declaringText uri)).rest =
      Construct.startTag.opener ++ ("a".toList ++
        ([⟨"xmlns", uri⟩].flatMap RawAttribute.write ++ Lexeme.slash true ++ ['>'])) := by
    rw [Place.start, declaringText, String.toList_ofList]
    simp [Construct.opener, Lexeme.slash]
  have hnames : ∀ a ∈ [(⟨"xmlns", uri⟩ : RawAttribute)], IsBaseName a.name := by
    rintro a ha
    obtain rfl := List.mem_singleton.1 ha
    exact (by decide +kernel : IsBaseName "xmlns")
  have hpass : (Place.start (declaringText uri)).Passes _ ⟨_, []⟩ :=
    Place.passes_of_rest_eq (hrest.trans (List.append_nil _).symm)
  obtain ⟨afterName, hlexeme⟩ :=
    Lexeme.next_startTag hpass (by decide +kernel : IsBaseName "a") hnames
  have htag := next_of_accept (r := start strict (declaringText uri)) rfl rfl hlexeme
    (accept_declaring huri _ _ _)
  refine (Yields.cons htag (.cons (next_declaring strict _ uri) .nil)).items_eq ?_ ?_
  · rw [next_resting_of_rest_eq_nil rfl]
  · rw [itemBound]
    exact Nat.le_add_left 2 _

end Reader

/-! ## Forests behind leaves -/

namespace Forest

/-- For each element the number of records between its own and its end mark, added up. -/
def innerRecordCount : Forest → Nat
  | nil => 0
  | element _ attributes inner rest =>
    attributes.length + inner.recordCount + inner.innerRecordCount + rest.innerRecordCount
  | leaf _ rest => rest.innerRecordCount

/-- A forest with leaves in front of it. -/
def behind (f : Forest) (leaves : List Leaf) : Forest :=
  leaves.foldr leaf f

variable {f : Forest} {leaves : List Leaf}

theorem tokens_behind (f : Forest) (leaves : List Leaf) :
    (f.behind leaves).tokens = leaves.map Leaf.token ++ f.tokens := by
  induction leaves with
  | nil => rfl
  | cons first rest ih => exact congrArg (first.token :: ·) ih

theorem utf8ByteSize_markup_behind (f : Forest) (n : Nat) (first : Leaf) :
    (f.behind (List.replicate n first)).markup.utf8ByteSize =
      n * byteLength first.write + byteLength f.write := by
  rw [markup, utf8ByteSize_ofList]
  induction n with
  | zero => simp [behind]
  | succ n ih =>
    rw [List.replicate_succ, behind, List.foldr_cons, write, byteLength_append, Nat.succ_mul]
    change _ + byteLength (f.behind (List.replicate n first)).write = _
    omega

theorem proper_behind (hf : f.Proper)
    (hleaves : ∀ leaf ∈ leaves, leaf.Proper ∧ leaf.isText = false) : (f.behind leaves).Proper := by
  induction leaves with
  | nil => exact hf
  | cons first rest ih =>
    obtain ⟨⟨hfirst, htext⟩, hrest⟩ := List.forall_mem_cons.1 hleaves
    exact ⟨hfirst, fun h => absurd h (by rw [htext]; exact Bool.false_ne_true), ih hrest⟩

theorem distinct_behind (hf : f.Distinct) : (f.behind leaves).Distinct := by
  induction leaves with
  | nil => exact hf
  | cons first rest ih => exact ih

/-! ### Elements one inside the other -/

/-- Elements, each but the last with the next one inside it. -/
def nest : Nat → Forest
  | 0 => nil
  | depth + 1 => element "c" [] (nest depth) nil

theorem recordCount_nest (depth : Nat) : (nest depth).recordCount = 2 * depth := by
  induction depth with
  | zero => rfl
  | succ depth ih =>
    rw [nest, recordCount, ih, recordCount, List.length_nil]
    omega

theorem innerRecordCount_nest (depth : Nat) :
    (nest depth).innerRecordCount + depth = depth * depth := by
  induction depth with
  | zero => rfl
  | succ depth ih =>
    rw [nest, innerRecordCount, recordCount_nest, innerRecordCount, List.length_nil, Nat.mul_succ,
      Nat.succ_mul depth]
    omega

theorem proper_nest (depth : Nat) : (nest depth).Proper := by
  induction depth with
  | zero => exact trivial
  | succ depth ih => exact ⟨by decide +kernel, nofun, ih, trivial⟩

theorem distinct_nest (depth : Nat) : (nest depth).Distinct := by
  induction depth with
  | zero => exact trivial
  | succ depth ih => exact ⟨List.nodup_nil, ih, trivial⟩

theorem byteLength_nest_le (depth : Nat) : byteLength (nest depth).write ≤ 7 * depth := by
  induction depth with
  | zero => exact Nat.le_refl _
  | succ depth ih =>
    cases depth with
    | zero => decide
    | succ depth =>
      have hwrite : (nest (depth + 2)).write =
          ['<', 'c', '>'] ++ (nest (depth + 1)).write ++ ['<', '/', 'c', '>'] := by
        rw [nest, write]
        simp [nest, isNil, write]
      have hopen : byteLength ['<', 'c', '>'] = 3 := rfl
      have hclose : byteLength ['<', '/', 'c', '>'] = 4 := rfl
      rw [hwrite, byteLength_append, byteLength_append, hopen, hclose]
      omega

end Forest

end Markup

namespace NodeTree

open Markup

/-! ## Long strings -/

namespace StringPool

variable {p : StringPool} {id : UInt32} {s : String}

theorem ne_empty_of_size_le (h : UInt32.size ≤ s.utf8ByteSize) : s ≠ "" := by
  rintro rfl
  exact absurd h (by decide)

theorem get_ne_of_size_le (h : UInt32.size ≤ s.utf8ByteSize) : p.get id ≠ s := by
  intro hget
  obtain ⟨entry, -, hholds⟩ := names_of_get_eq hget (ne_empty_of_size_le h)
  have hlength := hholds.length_eq
  have hword := entry.length.toNat_lt_size
  omega

/-- A long string is kept again. -/
theorem size_data_internBy_of_size_le (hash : String → UInt64) (p : StringPool)
    (h : UInt32.size ≤ s.utf8ByteSize) :
    (p.internBy hash s).2.data.size = p.data.size + s.utf8ByteSize := by
  have hs : ¬ s.isEmpty = true := mt String.isEmpty_iff.1 (ne_empty_of_size_le h)
  have hfind : (p.index.getD (hash s) []).find? (fun id => p.get id == s) = none :=
    List.find?_eq_none.2 fun id _ hreads => get_ne_of_size_le h (beq_iff_eq.1 hreads)
  rw [internBy, if_neg hs]
  dsimp only
  rw [hfind]
  simp [Span.append]

/-- A long string is kept each time it is interned. -/
theorem size_data_internAll (hash : String → UInt64) (strings : List String) (p : StringPool)
    (h : UInt32.size ≤ s.utf8ByteSize) :
    p.data.size + strings.count s * s.utf8ByteSize ≤ (p.internAll hash strings).data.size := by
  induction strings generalizing p with
  | nil => simp [internAll]
  | cons t rest ih =>
    have hrest := ih (p.internBy hash t).2
    rw [internAll, List.foldl_cons]
    change _ ≤ ((p.internBy hash t).2.internAll hash rest).data.size
    by_cases ht : t = s
    · rw [ht] at hrest ⊢
      rw [size_data_internBy_of_size_le hash p h] at hrest
      rw [List.count_cons_self, Nat.succ_mul]
      omega
    · rw [List.count_cons_of_ne ht]
      have := (p.size_data_internBy hash t).1
      omega

end StringPool

/-- An element in a long namespace that it declares itself has the namespace in the pool twice. -/
theorem Document.exists_parse_declaringText (strict : Bool) {uri : String}
    (h : UInt32.size ≤ uri.utf8ByteSize) :
    ∃ d, parse strict (declaringText uri) = .ok d ∧
      2 * uri.utf8ByteSize ≤ d.strings.bytesUsed := by
  have huri := StringPool.ne_empty_of_size_le h
  obtain ⟨d, hd⟩ : ∃ d,
      ofItems ((declaringTokens uri).map (Except.ok : Token → Except ReadError Token)) = .ok d :=
    ⟨_, rfl⟩
  refine ⟨d, by rw [parse, Reader.items_declaringText huri, hd], ?_⟩
  have hcount : 2 ≤ ((declaringTokens uri).flatMap Token.strings).count uri := by
    have hsub : [uri, uri].Sublist ["a", uri, "xmlns", uri] :=
      .cons _ (.cons_cons _ (.cons _ (.cons_cons _ .slnil)))
    calc 2 = [uri, uri].count uri := by simp
      _ ≤ _ := hsub.count_le uri
  have hdata := StringPool.size_data_internAll StringPool.hashOf
    ((declaringTokens uri).flatMap Token.strings) StringPool.empty h
  rw [strings_of_ofItems hd]
  change _ ≤ (StringPool.empty.internAll _ _).data.size
  have hle := Nat.mul_le_mul_right uri.utf8ByteSize hcount
  omega

/-! ## Records without numbers of their own -/

namespace Builder

/-- Where there are only leaves all of them are children. -/
theorem size_collectChildren_of_leaves {records : Array Record} {last : Nat} (fuel next : Nat)
    (found : Array NodeId)
    (h : ∀ x, next ≤ x → x < last → (kindAt records x).any NodeKind.hasText = true)
    (hfuel : last - next ≤ fuel) :
    (collectChildren records last fuel next found).size = found.size + (last - next) := by
  induction fuel generalizing next found with
  | zero =>
    rw [collectChildren]
    omega
  | succ fuel ih =>
    rw [collectChildren]
    split
    · rename_i hlt
      have hrest := ih (next + 1) (found.push next.toUInt32)
        (fun x hx => h x (Nat.le_of_succ_le hx)) (by omega)
      have hleaf := h next (Nat.le_refl _) hlt
      rw [kindAt, Option.any_map, Option.any_eq_true] at hleaf
      obtain ⟨r, hrecord, htext⟩ := hleaf
      rw [Array.size_push] at hrest
      rw [hrecord]
      dsimp only
      -- the leaf is neither an attribute nor an element, so the walk goes on to the next record
      split
      · rename_i hkind
        rw [hkind] at htext
        cases htext
      · rename_i hkind
        rw [hkind] at htext
        cases htext
      · omega
    · omega

/-- An element opens, what is inside it is taken, and it closes. -/
theorem run_tokens_element (b : Builder) (name : String) (attributes : List RawAttribute)
    (inner rest : Forest) :
    b.run ((Forest.element name attributes inner rest).tokens.map .push) =
      ((b.startElement ⟨none, name⟩ (attributes.map RawAttribute.toAttribute)).run
        (inner.tokens.map .push)).endElement.2.run (rest.tokens.map .push) := by
  rw [Forest.tokens, List.cons_append, List.map_cons, run_cons, List.map_append, run_append,
    List.map_cons, run_cons]
  rfl

end Builder

/-- In a table there are `leaves` leaves behind the root, and then `more` records. -/
structure HasLeaves (t : Array Record) (leaves more : Nat) : Prop where
  size_eq : t.size = leaves + 1 + more
  hasText : ∀ x, 1 ≤ x → x < leaves + 1 → (kindAt t x).any NodeKind.hasText = true

namespace HasLeaves

variable {t : Array Record} {b : Builder} {leaves more : Nat}

theorem push (h : HasLeaves t leaves more) (r : Record) :
    HasLeaves (t.push r) leaves (more + 1) where
  size_eq := (Array.size_push _).trans (by rw [h.size_eq, Nat.add_assoc])
  hasText x hx hlt := by
    have hsize := h.size_eq
    rw [kindAt_push_of_lt (by omega)]
    exact h.hasText x hx hlt

/-- A leaf more, as long as nothing else has come. -/
theorem pushLeaf (h : HasLeaves t leaves 0) {r : Record} (hr : r.kind.hasText = true) :
    HasLeaves (t.push r) (leaves + 1) 0 where
  size_eq := (Array.size_push _).trans (by rw [h.size_eq])
  hasText x hx hlt := by
    have hsize := h.size_eq
    rw [kindAt_push]
    split
    · exact hr
    · exact h.hasText x hx (by omega)

theorem addAttributes (attributes : List Attribute) {b : Builder} (element : NodeId)
    (h : HasLeaves b.records leaves more) :
    HasLeaves (attributes.foldl (fun b a => b.addAttribute element a) b).records leaves
        (more + attributes.length) ∧
      (attributes.foldl (fun b a => b.addAttribute element a) b).children = b.children := by
  induction attributes generalizing b more with
  | nil => exact ⟨h, rfl⟩
  | cons a rest ih =>
    obtain ⟨nameId, spaceId, valueId, hadded⟩ := b.outline_addAttribute element a
    have hrecords : (b.addAttribute element a).records = b.records.push _ :=
      congrArg Outline.records hadded
    have hchildren : (b.addAttribute element a).children = b.children :=
      congrArg Outline.children hadded
    obtain ⟨hrest, hrestChildren⟩ := ih (hrecords ▸ h.push _)
    rw [List.foldl_cons, List.length_cons, Nat.add_comm rest.length, ← Nat.add_assoc]
    exact ⟨hrest, hrestChildren.trans hchildren⟩

/-- An element that opens adds its record and those of its attributes, and no children. -/
theorem startElement (h : HasLeaves b.records leaves more) (name : ExpandedName)
    (attributes : List Attribute) :
    HasLeaves (b.startElement name attributes).records leaves (more + 1 + attributes.length) ∧
      (b.startElement name attributes).children = b.children := by
  obtain ⟨hrecords, hchildren⟩ : (∃ r, (b.addElement name).records = b.records.push r) ∧
      (b.addElement name).children = b.children := by
    obtain ⟨space, base⟩ := name
    cases space <;> exact ⟨⟨_, rfl⟩, rfl⟩
  obtain ⟨r, hrecords⟩ := hrecords
  have hadded : HasLeaves (b.addElement name).records leaves (more + 1) := hrecords ▸ h.push r
  obtain ⟨hfilled, hfilledChildren⟩ := hadded.addAttributes attributes b.nextId
  exact ⟨hfilled, hfilledChildren.trans hchildren⟩

/-- A run over leaves, as long as nothing else has come. -/
theorem run_leaves (more : List Leaf) {b : Builder} (h : HasLeaves b.records leaves 0) :
    let b' := b.run (more.map fun leaf => .push leaf.token)
    HasLeaves b'.records (leaves + more.length) 0 ∧ b'.children = b.children := by
  induction more generalizing b leaves with
  | nil => exact ⟨h, rfl⟩
  | cons leaf rest ih =>
    have hrest := ih (b := b.leaf leaf.kind leaf.target leaf.content) (h.pushLeaf leaf.hasText_kind)
    rw [List.map_cons, List.length_cons, Nat.add_comm rest.length, ← Nat.add_assoc,
      Builder.run_cons, Builder.apply, leaf.push_token]
    exact hrest

/-! ### Steps

From here on there are as many leaves as there are numbers, the root's left out, so that numbers
begin again at zero behind them. -/

variable (hleaves : leaves + 1 = UInt32.size)
include hleaves

theorem toNat_nextId (h : HasLeaves b.records leaves more) (hmore : more < UInt32.size) :
    b.nextId.toNat = more := by
  have hmod : (b.records.size).toUInt32.toNat = b.records.size % UInt32.size :=
    UInt32.toNat_ofNat'
  rw [Builder.nextId, hmod, h.size_eq, hleaves, Nat.add_mod_left, Nat.mod_eq_of_lt hmore]

/-- An element that closes takes the leaves that have the numbers behind its own. -/
theorem close (h : HasLeaves b.records leaves more) (hmore : more < UInt32.size) (e : NodeId) :
    HasLeaves (b.close e).records leaves (more + 1) ∧
      (b.close e).children.size = b.children.size + (more - (e.toNat + 1)) := by
  have hid := h.toNat_nextId hleaves hmore
  have hpush := h.push (Record.endOf e b.nextId)
  refine ⟨⟨?_, fun x hx hlt => ?_⟩, ?_⟩
  · exact (b.grows_close e).records_eq.trans (by rw [h.size_eq, Nat.add_assoc])
  · have hsize := h.size_eq
    change (kindAt (b.outline.close e []).records x).any NodeKind.hasText = true
    rw [Outline.Nested.kindAt_close, if_neg (by change x ≠ b.records.size; omega)]
    exact h.hasText x hx hlt
  · change (b.outline.childrenWith e).size = _
    rw [Outline.childrenWith, show b.outline.nextId.toNat = more from hid]
    refine Builder.size_collectChildren_of_leaves _ _ _ (fun x hx hlt => ?_) (by omega)
    exact hpush.hasText x (by omega) (by omega)

theorem endElement (h : HasLeaves b.records leaves more) (hmore : more < UInt32.size) {e : NodeId}
    {outer : List NodeId} (hopen : b.openElements = e :: outer) :
    HasLeaves b.endElement.2.records leaves (more + 1) ∧ b.endElement.2.openElements = outer ∧
      b.endElement.2.children.size = b.children.size + (more - (e.toNat + 1)) := by
  have hend : b.endElement.2 = { b with openElements := outer }.close e := by
    rw [Builder.endElement, hopen]
  obtain ⟨hclosed, hsize⟩ := close hleaves (b := { b with openElements := outer }) h hmore e
  rw [hend]
  exact ⟨hclosed, rfl, hsize⟩

/-- **Behind the leaves each element takes as many children as there are records inside it.** -/
theorem run_tokens (f : Forest) {b : Builder} (h : HasLeaves b.records leaves more)
    (hmore : more + f.recordCount < UInt32.size) :
    let b' := b.run (f.tokens.map .push)
    HasLeaves b'.records leaves (more + f.recordCount) ∧ b'.openElements = b.openElements ∧
      b'.children.size = b.children.size + f.innerRecordCount := by
  induction f generalizing b more with
  | nil => exact ⟨h, rfl, rfl⟩
  | element name attributes inner rest ihInner ihRest =>
    rw [Forest.recordCount] at hmore ⊢
    have hid := h.toNat_nextId hleaves (by omega)
    obtain ⟨hstart, hnone⟩ :=
      h.startElement ⟨none, name⟩ (attributes.map RawAttribute.toAttribute)
    rw [List.length_map] at hstart
    obtain ⟨hinner, hopen, hsize⟩ := ihInner hstart (by omega)
    rw [b.openElements_startElement] at hopen
    obtain ⟨hclosed, houter, hclosedSize⟩ := hinner.endElement hleaves (by omega) hopen
    obtain ⟨hrest, hrestOpen, hrestSize⟩ := ihRest hclosed (by omega)
    rw [Builder.run_tokens_element]
    refine ⟨?_, hrestOpen.trans houter, ?_⟩
    · have hcount : more + (attributes.length + inner.recordCount + rest.recordCount + 2) =
          more + 1 + attributes.length + inner.recordCount + 1 + rest.recordCount := by omega
      rw [hcount]
      exact hrest
    · rw [hrestSize, hclosedSize, hsize, hnone, hid, Forest.innerRecordCount]
      omega
  | leaf first rest ih =>
    rw [Forest.recordCount] at hmore ⊢
    have hrest := ih (b := b.leaf first.kind first.target first.content) (h.push _) (by omega)
    rw [Forest.tokens, List.map_cons, Builder.run_cons, Builder.apply, first.push_token]
    rw [Nat.add_right_comm, Nat.add_assoc] at hrest
    exact hrest

end HasLeaves

namespace Document

variable {leaves : List Leaf} {f : Forest}

/-- The children of all elements of a forest behind as many leaves as there are numbers. -/
theorem childCount_of_behind (hleaves : leaves.length + 1 = UInt32.size)
    (hf : f.recordCount < UInt32.size) {ε : Type} {d : Document}
    (h : ofItems ((f.behind leaves).tokens.map (Except.ok : Token → Except ε Token)) = .ok d) :
    d.childCount = f.innerRecordCount + (f.recordCount - 1) := by
  have hempty : HasLeaves Builder.empty.records 0 0 := ⟨rfl, fun x hx hlt => by omega⟩
  obtain ⟨b, hb, -, rfl⟩ := exists_takeAll_of_ofItems h
  rw [Builder.eq_run_of_takeAll hb, Forest.tokens_behind, List.map_append, Builder.run_append,
    List.map_map]
  -- the leaves come first, then the forest, and last the root closes
  obtain ⟨hfront, hnone⟩ := hempty.run_leaves leaves
  rw [Nat.zero_add] at hfront
  obtain ⟨hbody, -, hsize⟩ := hfront.run_tokens hleaves f (by omega)
  obtain ⟨-, hclosed⟩ := hbody.close hleaves (by omega) 0
  refine hclosed.trans ?_
  rw [hsize, hnone, Nat.zero_add]
  exact congrArg (· + (f.recordCount - 1)) (Nat.zero_add _)

/-- The markup of such a forest makes a document in which all these children are kept. -/
theorem exists_parse_behind (strict : Bool) (hleaves : leaves.length + 1 = UInt32.size)
    (hproper : ∀ leaf ∈ leaves, leaf.Proper ∧ leaf.isText = false) (hf : f.Proper)
    (hd : strict = true → f.Distinct) (hsize : f.recordCount < UInt32.size) :
    ∃ d, parse strict (f.behind leaves).markup = .ok d ∧
      d.childCount = f.innerRecordCount + (f.recordCount - 1) := by
  obtain ⟨d, h⟩ := exists_ofItems_tokens ReadError (f.behind leaves)
  refine ⟨d, ?_, childCount_of_behind hleaves hsize h⟩
  rw [parse, Reader.items_markup (Forest.proper_behind hf hproper) fun hs =>
    Forest.distinct_behind (hd hs), h]

end Document

end NodeTree

end MarkupQuery
