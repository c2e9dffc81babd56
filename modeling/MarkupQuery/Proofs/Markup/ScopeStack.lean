import MarkupQuery.Markup.Scopes
import MarkupQuery.Proofs.Brackets

/-!
# Scopes as a stack

`ScopeStack` keeps the declarations of each scope apart: entering puts an empty scope on top of the
others, leaving takes the top one away, and the base scope stays. A label is looked up from the top
down.

`Scopes` has all declarations in one list, each with the depth at which it was made, and takes away
those of the greatest depth. `ScopeStack.flatten` writes a stack in this form, and as long as the
counter reaches, each operation on the list is the operation on the stack (`flatten_enter`,
`flatten_leave`, `flatten_declare`). So the list answers as the stack does (`Scopes.run_eq_flatten`,
`ScopeStack.resolve?_flatten`), if at most 65535 scopes are open at any time. With one more, it does
not: `Scopes.resolve?_run_of_deep`.
-/

namespace MarkupQuery.Markup

open Bracketed

/-! ## Operations -/

namespace Scopes

/-- A call that changes scopes. -/
inductive Operation
  /-- Open a scope. -/
  | enter
  /-- Close the current scope. -/
  | leave
  /-- Bind a label in the current scope. -/
  | declare (label uri : String)
  /-- Bind the default namespace in the current scope. -/
  | declareDefault (uri : String)

instance : Bracketed Operation where
  bracket
    | .enter => .opening
    | .leave => .closing
    | .declare _ _ | .declareDefault _ => .neither

/-- The scopes after a call. -/
def apply (s : Scopes) : Operation → Scopes
  | .enter => s.enter
  | .leave => s.leave
  | .declare label uri => s.declare label uri
  | .declareDefault uri => s.declareDefault uri

/-- The scopes after some calls, in order. -/
def run (s : Scopes) (operations : List Operation) : Scopes :=
  operations.foldl apply s

theorem run_append (s : Scopes) (before after : List Operation) :
    s.run (before ++ after) = (s.run before).run after :=
  List.foldl_append

end Scopes

/-- The scopes that are open, each with its own declarations, latest first. -/
structure ScopeStack where
  /-- The scopes that can be left, innermost first. -/
  inner : List (List (String × String))
  /-- The base scope. -/
  outermost : List (String × String)

namespace ScopeStack

/-- The base scope without declarations. -/
def base : ScopeStack :=
  ⟨[], []⟩

/-- Open a scope. -/
def enter (s : ScopeStack) : ScopeStack :=
  { s with inner := [] :: s.inner }

/-- Close the current scope, unless it is the base scope. -/
def leave (s : ScopeStack) : ScopeStack :=
  { s with inner := s.inner.tail }

/-- Bind a label in the current scope, if it can be bound. -/
def declare (s : ScopeStack) (label uri : String) : ScopeStack :=
  if Scopes.isFixed label then s
  else
    match s.inner with
    | [] => { s with outermost := (label, uri) :: s.outermost }
    | scope :: outer => { s with inner := ((label, uri) :: scope) :: outer }

/-- The URI of a label: the last one declared in the innermost scope that declares it. -/
def resolve? (s : ScopeStack) (label : String) : Option String :=
  if label = "xml" then some Scopes.xmlUri
  else (s.inner ++ [s.outermost]).findSome? (List.lookup label)

/-- The stack after a call. -/
def apply (s : ScopeStack) : Scopes.Operation → ScopeStack
  | .enter => s.enter
  | .leave => s.leave
  | .declare label uri => s.declare label uri
  | .declareDefault uri => s.declare "" uri

/-- The stack after some calls, in order. -/
def run (s : ScopeStack) (operations : List Scopes.Operation) : ScopeStack :=
  operations.foldl apply s

variable {s : ScopeStack} {label uri : String} {scope : List (String × String)}
  {outer : List (List (String × String))} {operations : List Scopes.Operation}

theorem run_append (s : ScopeStack) (before after : List Scopes.Operation) :
    s.run (before ++ after) = (s.run before).run after :=
  List.foldl_append

theorem run_concat (s : ScopeStack) (before : List Scopes.Operation)
    (operation : Scopes.Operation) :
    s.run (before ++ [operation]) = (s.run before).apply operation :=
  List.foldl_append

/-! ## One list for all scopes -/

/-- The declarations of a scope as bindings. -/
def bindingsAt (depth : Nat) (scope : List (String × String)) : List Binding :=
  scope.map fun d => ⟨d.1, d.2, depth⟩

/-- The bindings of scopes, the outermost of which is at depth 1. -/
def bindingsOf : List (List (String × String)) → List Binding
  | [] => []
  | scope :: outer => bindingsAt (outer.length + 1) scope ++ bindingsOf outer

/-- The bindings that stay when all scopes are left. -/
def baseBindings (s : ScopeStack) : List Binding :=
  bindingsAt 0 s.outermost ++ Scopes.base.bindings

/-- The stack as one list. -/
def flatten (s : ScopeStack) : Scopes :=
  ⟨bindingsOf s.inner ++ s.baseBindings, s.inner.length⟩

theorem flatten_base : base.flatten = Scopes.base :=
  rfl

theorem depth_of_mem_bindingsAt {depth : Nat} {b : Binding} (hb : b ∈ bindingsAt depth scope) :
    b.depth = depth := by
  obtain ⟨d, -, rfl⟩ := List.mem_map.1 hb
  rfl

theorem depth_le_of_mem_bindingsOf {b : Binding} (hb : b ∈ bindingsOf outer) :
    b.depth ≤ outer.length := by
  induction outer with
  | nil => cases hb
  | cons scope outer ih =>
    rcases List.mem_append.1 hb with hb | hb
    · exact Nat.le_of_eq (depth_of_mem_bindingsAt hb)
    · exact Nat.le_succ_of_le (ih hb)

theorem depth_of_mem_baseBindings {b : Binding} (hb : b ∈ s.baseBindings) : b.depth = 0 := by
  rcases List.mem_append.1 hb with hb | hb
  · exact depth_of_mem_bindingsAt hb
  · rw [List.mem_singleton.1 hb]

theorem flatten_enter (h : s.inner.length < Scopes.maxDepth) :
    s.enter.flatten = s.flatten.enter := by
  have hdepth : min (s.inner.length + 1) Scopes.maxDepth = s.inner.length + 1 := Nat.min_eq_left h
  rw [Scopes.enter, flatten, flatten, hdepth]
  rfl

/-- Nothing is left out by `dropWhile` if nothing could be. -/
theorem dropWhile_of_forall_not {α : Type} {p : α → Bool} {l : List α} (h : ∀ a ∈ l, ¬ p a) :
    l.dropWhile p = l := by
  cases l with
  | nil => rfl
  | cons a l => exact List.dropWhile_cons_of_neg (h a (List.mem_cons_self ..))

theorem flatten_leave (s : ScopeStack) : s.leave.flatten = s.flatten.leave := by
  obtain ⟨inner, outermost⟩ := s
  cases inner with
  | nil =>
    rw [Scopes.leave, flatten, flatten, dropWhile_of_forall_not]
    · rfl
    · intro b hb
      simp [depth_of_mem_baseBindings hb]
  | cons scope outer =>
    -- the bindings of the innermost scope are the only ones of their depth
    have hscope : ∀ b ∈ bindingsAt (outer.length + 1) scope,
        (decide (outer.length + 1 ≤ b.depth) && b.depth != 0) = true := by
      intro b hb
      simp [depth_of_mem_bindingsAt hb]
    have hrest : ∀ b ∈ bindingsOf outer ++ baseBindings ⟨scope :: outer, outermost⟩,
        ¬ (decide (outer.length + 1 ≤ b.depth) && b.depth != 0) = true := by
      intro b hb
      have hdepth : b.depth ≤ outer.length := by
        rcases List.mem_append.1 hb with hb | hb
        · exact depth_le_of_mem_bindingsOf hb
        · exact Nat.le_trans (Nat.le_of_eq (depth_of_mem_baseBindings hb)) (Nat.zero_le _)
      simp only [Bool.and_eq_true, decide_eq_true_eq]
      omega
    rw [Scopes.leave, flatten, flatten, bindingsOf, List.append_assoc, List.length_cons,
      List.dropWhile_append_of_pos hscope, dropWhile_of_forall_not hrest]
    rfl

theorem flatten_declare (s : ScopeStack) (label uri : String) :
    (s.declare label uri).flatten = s.flatten.declare label uri := by
  rw [declare, Scopes.declare]
  split
  · rfl
  · cases h : s.inner with
    | nil => rw [flatten, flatten, h]; rfl
    | cons scope outer => rw [flatten, flatten, h]; rfl

/-! ## Looking up a label -/

/-- No scope declares the label that is always bound. -/
structure SparesXml (s : ScopeStack) : Prop where
  inner : ∀ scope ∈ s.inner, scope.lookup "xml" = none
  outermost : s.outermost.lookup "xml" = none

theorem find?_bindingsAt (depth : Nat) (scope : List (String × String)) (label : String) :
    ((bindingsAt depth scope).find? fun b => b.label == label).map Binding.uri =
      scope.lookup label := by
  induction scope with
  | nil => rfl
  | cons d scope ih =>
    rw [bindingsAt, List.map_cons, List.find?_cons, List.lookup_cons, ← bindingsAt]
    by_cases h : label = d.1
    · rw [h, beq_self_eq_true]
      rfl
    · rw [beq_false_of_ne h, beq_false_of_ne (Ne.symm h)]
      exact ih

theorem find?_bindingsOf (inner : List (List (String × String))) (label : String) :
    ((bindingsOf inner).find? fun b => b.label == label).map Binding.uri =
      inner.findSome? (List.lookup label) := by
  induction inner with
  | nil => rfl
  | cons scope outer ih =>
    rw [bindingsOf, List.find?_append, Option.map_or, find?_bindingsAt, ih, List.findSome?_cons]
    cases scope.lookup label <;> rfl

theorem resolve?_flatten (h : s.SparesXml) (label : String) :
    s.flatten.resolve? label = s.resolve? label := by
  have hbase : (Scopes.base.bindings.find? fun b => b.label == label).map Binding.uri =
      if label = "xml" then some Scopes.xmlUri else none := by
    by_cases hl : label = "xml"
    · rw [if_pos hl, hl]
      rfl
    · rw [if_neg hl, Scopes.base, List.find?_cons, beq_false_of_ne (Ne.symm hl)]
      rfl
  have hflatten : s.flatten.resolve? label =
      ((s.inner ++ [s.outermost]).findSome? (List.lookup label)).or
        (if label = "xml" then some Scopes.xmlUri else none) := by
    rw [Scopes.resolve?, flatten, baseBindings, ← List.append_assoc, List.find?_append,
      List.find?_append, Option.map_or, Option.map_or, find?_bindingsOf, find?_bindingsAt, hbase,
      List.findSome?_append, List.findSome?_singleton]
  rw [hflatten, resolve?]
  split
  · rename_i hl
    rw [hl, List.findSome?_append, List.findSome?_eq_none_iff.2 h.inner, List.findSome?_singleton,
      h.outermost]
    rfl
  · exact Option.or_none

theorem lookup_declare (h : scope.lookup "xml" = none) (hl : Scopes.isFixed label = false)
    (uri : String) : ((label, uri) :: scope).lookup "xml" = none := by
  have hne : ("xml" == label) = false := by
    rw [beq_eq_false_iff_ne]
    rintro rfl
    cases hl
  rw [List.lookup_cons, hne]
  exact h

theorem SparesXml.declare (h : s.SparesXml) (label uri : String) :
    (s.declare label uri).SparesXml := by
  obtain ⟨inner, outermost⟩ := s
  rw [ScopeStack.declare]
  split
  · exact h
  · rename_i hl
    have hl' : Scopes.isFixed label = false := by simpa using hl
    cases inner with
    | nil => exact ⟨h.inner, lookup_declare h.outermost hl' uri⟩
    | cons scope outer =>
      obtain ⟨hscope, houter⟩ := List.forall_mem_cons.1 h.inner
      exact ⟨List.forall_mem_cons.2 ⟨lookup_declare hscope hl' uri, houter⟩, h.outermost⟩

theorem SparesXml.apply (h : s.SparesXml) (operation : Scopes.Operation) :
    (s.apply operation).SparesXml := by
  cases operation with
  | enter => exact ⟨List.forall_mem_cons.2 ⟨rfl, h.inner⟩, h.outermost⟩
  | leave => exact ⟨fun scope hscope => h.inner scope (List.mem_of_mem_tail hscope), h.outermost⟩
  | declare label uri => exact h.declare label uri
  | declareDefault uri => exact h.declare "" uri

theorem sparesXml_run (operations : List Scopes.Operation) : (base.run operations).SparesXml := by
  induction operations using List.reverseRecOn with
  | nil => exact ⟨nofun, rfl⟩
  | append_singleton before operation ih =>
    rw [run_concat]
    exact ih.apply operation

/-! ## Runs -/

theorem length_inner_declare (s : ScopeStack) (label uri : String) :
    (s.declare label uri).inner.length = s.inner.length := by
  obtain ⟨inner, outermost⟩ := s
  rw [declare]
  split
  · rfl
  · cases inner <;> rfl

theorem length_inner_apply (s : ScopeStack) (operation : Scopes.Operation) :
    (s.apply operation).inner.length =
      match bracket operation with
      | .opening => s.inner.length + 1
      | .closing => s.inner.length - 1
      | .neither => s.inner.length := by
  cases operation with
  | enter => rfl
  | leave => exact List.length_tail
  | declare label uri => exact s.length_inner_declare label uri
  | declareDefault uri => exact s.length_inner_declare "" uri

theorem length_inner_run (operations : List Scopes.Operation) :
    (base.run operations).inner.length = (unclosed operations).length :=
  depth_foldl (fun s : ScopeStack => s.inner.length) length_inner_apply rfl operations

theorem declare_inside (scope : List (String × String)) (opened : List (List (String × String)))
    (outer : List (List (String × String))) (outermost : List (String × String))
    (label uri : String) :
    ∃ opened' scope', (⟨opened ++ scope :: outer, outermost⟩ : ScopeStack).declare label uri =
      ⟨opened' ++ scope' :: outer, outermost⟩ ∧ opened'.length = opened.length := by
  rw [declare]
  split
  · exact ⟨opened, scope, rfl, rfl⟩
  · cases opened with
    | nil => exact ⟨[], (label, uri) :: scope, rfl, rfl⟩
    | cons first opened => exact ⟨((label, uri) :: first) :: opened, scope, rfl, rfl⟩

/-- What is done inside a scope does not reach the scopes around it. -/
theorem run_inside (h : Matched operations) (scope : List (String × String))
    (outer : List (List (String × String))) (outermost : List (String × String)) :
    ∃ opened scope', (⟨scope :: outer, outermost⟩ : ScopeStack).run operations =
      ⟨opened ++ scope' :: outer, outermost⟩ ∧ opened.length = (unclosed operations).length := by
  induction operations using List.reverseRecOn with
  | nil => exact ⟨[], scope, rfl, rfl⟩
  | append_singleton before operation ih =>
    obtain ⟨opened, scope', hrun, hlength⟩ := ih h.of_append
    rw [run_concat, hrun]
    cases operation with
    | enter =>
      refine ⟨[] :: opened, scope', rfl, ?_⟩
      rw [unclosed_concat_opening rfl, List.length_cons, List.length_cons, hlength]
    | leave =>
      -- a scope that was opened inside is left, not the one in which all this is done
      have hopen : unclosed before ≠ [] := h before .leave [] rfl rfl
      obtain ⟨first, opened, rfl⟩ :=
        List.exists_cons_of_length_pos (hlength ▸ List.length_pos_iff.2 hopen)
      refine ⟨opened, scope', rfl, ?_⟩
      rw [unclosed_concat_closing rfl, List.length_tail, ← hlength]
      rfl
    | declare label uri =>
      rw [unclosed_concat_neither rfl, ← hlength]
      exact declare_inside ..
    | declareDefault uri =>
      rw [unclosed_concat_neither rfl, ← hlength]
      exact declare_inside ..

/-- Leaving a scope undoes all that was done since it was entered. -/
theorem run_enter_leave (s : ScopeStack) (h : Balanced operations) :
    s.run (.enter :: (operations ++ [.leave])) = s := by
  obtain ⟨opened, scope, hrun, hlength⟩ := run_inside (matched_iff.2 h.1) [] s.inner s.outermost
  rw [h.2, List.length_nil, List.length_eq_zero_iff] at hlength
  have hinside : (s.apply .enter).run operations = ⟨scope :: s.inner, s.outermost⟩ := by
    rw [hlength] at hrun
    exact hrun
  rw [run, List.foldl_cons, ← run, run_concat, hinside]
  rfl

/-! ## Many scopes -/

theorem run_replicate_enter (n : Nat) :
    base.run (List.replicate n .enter) = ⟨List.replicate n [], []⟩ := by
  induction n with
  | zero => rfl
  | succ n ih => rw [List.replicate_succ', run_concat, ih]; rfl

theorem run_replicate_leave (n k : Nat) :
    (⟨List.replicate n [], []⟩ : ScopeStack).run (List.replicate k .leave) =
      ⟨List.replicate (n - k) [], []⟩ := by
  induction k with
  | zero => rfl
  | succ k ih =>
    rw [List.replicate_succ', run_concat, ih, apply, leave, List.tail_replicate, Nat.sub_sub]

end ScopeStack

namespace Scopes

variable {operations : List Operation}

theorem run_concat (s : Scopes) (before : List Operation) (operation : Operation) :
    s.run (before ++ [operation]) = (s.run before).apply operation :=
  List.foldl_append

/-- As long as the counter reaches, the list of bindings is the stack of scopes. -/
theorem run_eq_flatten (h : DepthLe maxDepth operations) :
    base.run operations = (ScopeStack.base.run operations).flatten := by
  induction operations using List.reverseRecOn with
  | nil => exact ScopeStack.flatten_base.symm
  | append_singleton before operation ih =>
    rw [run_concat, ScopeStack.run_concat, ih h.of_append]
    cases operation with
    | enter =>
      have hlength := h.length_le
      rw [unclosed_concat_opening rfl, List.length_cons, ← ScopeStack.length_inner_run] at hlength
      exact (ScopeStack.flatten_enter hlength).symm
    | leave => exact (ScopeStack.flatten_leave _).symm
    | declare label uri => exact (ScopeStack.flatten_declare _ label uri).symm
    | declareDefault uri => exact (ScopeStack.flatten_declare _ "" uri).symm

/-! ## Many scopes -/

theorem run_replicate_enter (n : Nat) :
    base.run (List.replicate n .enter) = ⟨base.bindings, min n maxDepth⟩ := by
  induction n with
  | zero => rfl
  | succ n ih =>
    rw [List.replicate_succ', run_concat, ih, apply, enter]
    have : min (min n maxDepth + 1) maxDepth = min (n + 1) maxDepth := by omega
    rw [this]

theorem run_replicate_leave (depth k : Nat) :
    (⟨base.bindings, depth⟩ : Scopes).run (List.replicate k .leave) =
      ⟨base.bindings, depth - k⟩ := by
  induction k with
  | zero => rfl
  | succ k ih =>
    rw [List.replicate_succ', run_concat, ih, apply, leave, base, ← Nat.sub_sub]
    simp

/-- **Scopes are a stack** as long as the depth counter reaches: a label stands for the last URI
declared in the innermost open scope that declares it. Leaving a scope takes away just what was
declared since it was entered, and at the base scope it does nothing. -/
theorem resolve?_run (h : DepthLe maxDepth operations) :
    (∀ label, (base.run operations).resolve? label =
      (ScopeStack.base.run operations).resolve? label) ∧
    (∀ before inside, operations = before ++ .enter :: (inside ++ [.leave]) → Balanced inside →
      base.run operations = base.run before) ∧
    ∀ before, operations = before ++ [.leave] → unclosed before = [] →
      base.run operations = base.run before := by
  refine ⟨fun label => ?_, ?_, ?_⟩
  · rw [run_eq_flatten h, ScopeStack.resolve?_flatten (ScopeStack.sparesXml_run operations)]
  · rintro before inside rfl hinside
    rw [run_eq_flatten h, run_eq_flatten h.of_append, ScopeStack.run_append,
      ScopeStack.run_enter_leave _ hinside]
  · rintro before rfl hnone
    have hinner : (ScopeStack.base.run before).inner = [] := by
      rw [← List.length_eq_zero_iff, ScopeStack.length_inner_run, hnone]
      rfl
    rw [run_eq_flatten h, run_eq_flatten h.of_append, ScopeStack.run_concat, ScopeStack.apply,
      ScopeStack.leave, hinner, List.tail_nil, ← hinner]

/-- A label declared in a scope and in one inside it that is left, `xml` declared again, and a scope
left that is not open. -/
def sampleOperations : List Operation :=
  [.declareDefault "urn:0", .leave, .enter, .declare "a" "urn:1", .enter, .declare "a" "urn:2",
    .declare "xml" "urn:3", .leave]

theorem resolve?_run_sampleOperations :
    DepthLe maxDepth sampleOperations ∧
    (base.run sampleOperations).resolve? "a" = some "urn:1" ∧
    (base.run sampleOperations).resolve? "" = some "urn:0" ∧
    (base.run sampleOperations).resolve? "xml" = some xmlUri ∧
    base.run sampleOperations = base.run (sampleOperations.take 4) ∧
    base.run (sampleOperations.take 2) = base.run (sampleOperations.take 1) := by
  have hdepth : DepthLe maxDepth sampleOperations := depthLe_of_length_le (by decide)
  have hdepth' : DepthLe maxDepth (sampleOperations.take 2) := depthLe_of_length_le (by decide)
  obtain ⟨hresolve, hleave, -⟩ := resolve?_run hdepth
  obtain ⟨-, -, hbase⟩ := resolve?_run hdepth'
  refine ⟨hdepth, (hresolve "a").trans rfl, (hresolve "").trans rfl, (hresolve "xml").trans rfl, ?_,
    hbase [.declareDefault "urn:0"] rfl rfl⟩
  exact hleave (sampleOperations.take 4) [.declare "a" "urn:2", .declare "xml" "urn:3"] rfl
    ⟨rfl, rfl⟩

/-! ## Deeper than the counter -/

/-- A declaration in the deepest scope that the counter can tell from others, and a scope inside it
that is left. -/
def tooDeep : List Operation :=
  List.replicate maxDepth .enter ++ [.declare "a" "urn:a", .enter, .leave]

/-- One scope more than the counter can count; all but the first are left, then a declaration, and
the first is left, too. -/
def miscounted : List Operation :=
  List.replicate (maxDepth + 1) .enter ++ (List.replicate maxDepth .leave ++
    [.declare "a" "urn:a", .leave])

/-- Where the counter does not reach, leaving a scope can take away what the scope around it has
declared, and it can leave what the scope itself has. -/
theorem resolve?_run_of_deep :
    ((base.run tooDeep).resolve? "a" = none ∧
      (ScopeStack.base.run tooDeep).resolve? "a" = some "urn:a") ∧
    (base.run miscounted).resolve? "a" = some "urn:a" ∧
      (ScopeStack.base.run miscounted).resolve? "a" = none := by
  refine ⟨⟨?_, ?_⟩, ?_, ?_⟩
  · rw [tooDeep, run_append, run_replicate_enter]
    rfl
  · rw [tooDeep, ScopeStack.run_append, ScopeStack.run_replicate_enter,
      show maxDepth = 65534 + 1 from rfl, List.replicate_succ]
    rfl
  · rw [miscounted, run_append, run_append, run_replicate_enter, run_replicate_leave]
    rfl
  · rw [miscounted, ScopeStack.run_append, ScopeStack.run_append, ScopeStack.run_replicate_enter,
      ScopeStack.run_replicate_leave, Nat.add_sub_cancel_left]
    rfl

end Scopes

end MarkupQuery.Markup
