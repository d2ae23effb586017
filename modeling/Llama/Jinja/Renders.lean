import Llama.Jinja.Runtime
import Mathlib.Data.List.Basic

/-!
# Rendering a program again

A program is rendered many times.  A filter statement moves its filter away while it applies it;
when an error or a loop jump leaves that application, the filter is not moved back, and every later
execution of the statement throws.  This is the only way in which a rendering changes the tree:
when no application is left so, the tree is as before, and every rendering ends as that of a
program that was just parsed.
-/

namespace Llama.Jinja

open List Control

section

variable {W : Type} {s s' s'' : ExecState W}

/-- Filters that are gone stay gone, and those that were left in an expression are gone; nothing
changes unless one is left. -/
structure ExecState.Grows (s s' : ExecState W) : Prop where
  lost : s.lost ⊆ s'.lost
  left : s.left <+: s'.left
  same : s'.left = s.left → s'.lost = s.lost
  gone : ∀ id ∈ s'.left, id ∈ s.left ∨ id ∈ s'.lost

/-- What does not fail leaves only filters that were there. -/
structure ExecState.Passes (s s' : ExecState W) : Prop where
  grows : s.Grows s'
  here : ∀ id ∈ s'.left, id ∈ s.left ∨ id ∉ s.lost

open ExecState

lemma grows_refl (s : ExecState W) : s.Grows s :=
  ⟨fun _ h => h, prefix_refl _, fun _ => rfl, fun _ h => .inl h⟩

lemma ExecState.Grows.trans (h : s.Grows s') (h' : s'.Grows s'') : s.Grows s'' where
  lost := fun _ hid => h'.lost (h.lost hid)
  left := h.left.trans h'.left
  same heq := by
    have hmid : s'.left = s.left := by
      have hfront : s'.left <+: s.left := heq ▸ h'.left
      exact hfront.eq_of_length (Nat.le_antisymm hfront.length_le h.left.length_le)
    rw [h'.same (heq.trans hmid.symm), h.same hmid]
  gone id hid := by
    rcases h'.gone id hid with hid | hid
    · rcases h.gone id hid with hid | hid
      · exact .inl hid
      · exact .inr (h'.lost hid)
    · exact .inr hid

lemma steps : Control.Steps (Grows (W := W)) Passes where
  refl s := ⟨grows_refl s, fun _ h => .inl h⟩
  imp h := h.grows
  trans h h' := by
    refine ⟨h.grows.trans h'.grows, fun id hid => ?_⟩
    rcases h'.here id hid with hid | hid
    · exact h.here id hid
    · exact .inr fun hlost => hid (h.grows.lost hlost)
  fails h h' := h.grows.trans h'

end

/-- A computation does no more than `Grows` and `Passes` say. -/
def Keeps {W α : Type} (m : Run W α) : Prop := Control.Within ExecState.Grows ExecState.Passes m

section

variable {F W V C B α β : Type}

lemma keeps_pure (a : α) : Keeps (pure a : Run W α) := within_pure steps a

lemma keeps_throw (what : String) : Keeps (throwRuntime what : Run W α) :=
  within_fail steps _

lemma keeps_prim (p : Prim W α) : Keeps (prim p) :=
  within_onState steps fun _ => ⟨⟨fun _ h => h, prefix_refl _, fun _ => rfl,
    fun _ h => .inl h⟩, fun _ h => .inl h⟩

lemma Keeps.bind {m : Run W α} {f : α → Run W β} (hm : Keeps m) (hf : ∀ a, Keeps (f a)) :
    Keeps (m >>= f) :=
  Control.Within.bind steps hm hf

lemma Keeps.guarded {ops : Ops F W V C B} {type : String} {pos : ExecState W → ℕ}
    {m : Run W α} (h : Keeps m) : Keeps (guarded ops type pos m) :=
  Control.Within.mapError h

variable {ops : Ops F W V C B} {ev : Eval F W V C}

lemma keeps_setAll (what : String) (ctx : C) (targets : List (Node F)) (vs : List V) :
    Keeps (setAll ops what ctx targets vs) := by
  fun_induction setAll ops what ctx targets vs with
  | case1 name targets v vs _ ih => exact (keeps_prim _).bind fun _ => ih
  | case2 => exact keeps_throw _
  | case3 => exact keeps_pure _

lemma keeps_setLoopVars (ctx : C) (loopvar : Node F) (isObject : Bool) (item : V) :
    Keeps (setLoopVars ops ctx loopvar isObject item) := by
  unfold setLoopVars
  split
  · split
    · exact (keeps_prim _).bind fun _ => keeps_prim _
    · exact keeps_prim _
  · exact (keeps_prim _).bind fun _ => keeps_setAll _ _ _ _
  · exact keeps_throw _

lemma keeps_checkLoopVar (loopvar : Node F) (isObject : Bool) (item : V) :
    Keeps (checkLoopVar ops loopvar isObject item) := by
  unfold checkLoopVar
  split
  · split
    · exact keeps_prim _
    · exact keeps_pure _
  · refine (keeps_prim _).bind fun vs => ?_
    split
    · exact keeps_throw _
    · split
      · exact keeps_throw _
      · exact keeps_pure _
  · exact keeps_throw _

lemma keeps_bindGiven (name : String) (ctx : C) (args : List V) (i : ℕ) (param : Node F) :
    Keeps (bindGiven ops name ctx args i param) := by
  unfold bindGiven
  split
  · exact (keeps_prim _).bind fun _ => keeps_prim _
  · exact (keeps_prim _).bind fun _ => keeps_prim _
  · exact keeps_throw _
  · exact keeps_throw _

/-! ## Filters -/

section

open ExecState

variable {s s' : ExecState W} {id : ℕ}

/-- A filter that is left in the temporary expression is gone. -/
lemma grows_leave (h : s.Grows s') (hid : id ∈ s'.lost) :
    s.Grows { s' with left := s'.left ++ [id] } where
  lost := h.lost
  left := h.left.trans (prefix_append _ _)
  same heq := by
    have hlen := h.left.length_le
    have := congrArg List.length heq
    simp only [length_append, length_singleton] at this
    omega
  gone i hi := by
    rcases mem_append.mp hi with hi | hi
    · exact h.gone i hi
    · exact .inr (mem_singleton.mp hi ▸ hid)

/-- A filter that is moved away is not there until it is moved back. -/
lemma grows_moved (h : Grows { s with lost := id :: s.lost } s') : s.lost ⊆ s'.lost :=
  fun _ hi => h.lost (mem_cons_of_mem _ hi)

/-- The filter is moved back. -/
lemma passes_moved (hid : id ∉ s.lost) (h : Passes { s with lost := id :: s.lost } s') :
    s.Passes { s' with lost := s'.lost.erase id } where
  grows :=
    { lost := fun i hi => by
        have hne : i ≠ id := fun heq => hid (heq ▸ hi)
        exact (mem_erase_of_ne hne).mpr (grows_moved h.grows hi)
      left := h.grows.left
      same := fun heq => by
        rw [h.grows.same heq]
        exact erase_cons_head _ _
      gone := fun i hi => by
        rcases h.here i hi with hold | hnew
        · exact .inl hold
        · rcases h.grows.gone i hi with hold | hgone
          · exact .inl hold
          · have hne : i ≠ id := fun heq => hnew (heq ▸ mem_cons_self)
            exact .inr ((mem_erase_of_ne hne).mpr hgone) }
  here i hi := by
    rcases h.here i hi with hold | hnew
    · exact .inl hold
    · exact .inr fun hlost => hnew (mem_cons_of_mem _ hlost)

/-- The filter is left in the temporary expression. -/
lemma grows_left (h : Grows { s with lost := id :: s.lost } s') :
    s.Grows { s' with left := s'.left ++ [id] } where
  lost := fun _ hi => grows_moved h hi
  left := h.left.trans (prefix_append _ _)
  same heq := by
    have hlen := h.left.length_le
    have := congrArg List.length heq
    simp only [length_append, length_singleton] at this hlen
    omega
  gone i hi := by
    rcases mem_append.mp hi with hi | hi
    · exact h.gone i hi
    · obtain rfl := mem_singleton.mp hi
      exact .inr (h.lost mem_cons_self)

end

/-- **Applying a filter that is moved away.**  Where the filter is gone, the application fails. -/
theorem keeps_withFilterMoved {id : ℕ} {m : Bool → Run W α} (hm : ∀ here, Keeps (m here))
    (hfails : ∀ s, (m false s).1.Fails) : Keeps (withFilterMoved id m) := by
  intro s
  by_cases hid : id ∈ s.lost
  · -- the filter is gone already
    obtain ⟨hgrows, -⟩ := hm false s
    simp only [withFilterMoved, hid, not_true_eq_false, decide_false, if_false]
    rcases finish_cases (m false) _ s with ⟨a, ha, -⟩ | ⟨-, heq⟩
    · have hfail := hfails s
      rw [ha] at hfail
      exact hfail.elim
    · rw [heq]
      exact ⟨grows_leave hgrows (hgrows.lost hid), fun hno => absurd (hfails s) hno⟩
  · obtain ⟨hgrows, hpasses⟩ := hm true { s with lost := id :: s.lost }
    simp only [withFilterMoved, hid, not_false_eq_true, decide_true, if_true]
    rcases finish_cases (m true) _ { s with lost := id :: s.lost } with
      ⟨a, ha, heq⟩ | ⟨-, heq⟩
    · rw [heq]
      have hback := passes_moved hid (hpasses (by rw [ha]; exact fun h => h))
      exact ⟨hback.grows, fun _ => hback⟩
    · rw [heq]
      refine ⟨grows_left hgrows, fun hno => ⟨grows_left hgrows, fun i hi => ?_⟩⟩
      rcases mem_append.mp hi with hi | hi
      · rcases (hpasses hno).here i hi with hold | hnew
        · exact .inl hold
        · exact .inr fun hlost => hnew (mem_cons_of_mem _ hlost)
      · exact .inr (mem_singleton.mp hi ▸ hid)

/-- A filter that is gone cannot be applied. -/
lemma fails_applyFilter (ctx : C) (parts : V) (pos : ExecState W → ℕ) (s : ExecState W) :
    (guarded ops "FilterExpression" pos (applyFilter ops ev ctx none parts) s).1.Fails :=
  trivial

variable (hev : ∀ node ctx, Keeps (ev node ctx)) (ctx : C)

include hev

lemma keeps_execList (stmts : List (Node F)) : Keeps (execList ev ctx stmts) := by
  induction stmts with
  | nil => exact keeps_pure _
  | cons stmt stmts ih => exact (hev _ _).bind fun _ => ih.bind fun _ => keeps_pure _

lemma keeps_execStatements (stmts : List (Node F)) : Keeps (execStatements ops ev ctx stmts) :=
  (keeps_execList hev _ _).bind fun _ => keeps_prim _

lemma keeps_execOr (node : Option (Node F))
    (p : Prim W V) : Keeps (execOr ev ctx node p) := by
  cases node with
  | none => exact keeps_prim _
  | some node => exact hev _ _

lemma keeps_applyFilter (filter : Option (Node F)) (input : V) :
    Keeps (applyFilter ops ev ctx filter input) := by
  unfold applyFilter
  split
  · exact keeps_prim _
  · exact (keeps_execList hev _ _).bind fun _ => keeps_prim _
  · exact keeps_throw _
  · exact keeps_throw _

lemma keeps_filterStatement (id : ℕ)
    (filter : Node F) (body : List (Node F)) : Keeps (filterStatement ops ev ctx id filter body) :=
  (keeps_execStatements hev _ _).bind fun parts =>
    keeps_withFilterMoved (fun _ => (keeps_applyFilter hev _ _ _).guarded)
      (fails_applyFilter ctx parts _)

/-! ## Assignments and loops -/

lemma keeps_setValue (val : Option (Node F))
    (body : List (Node F)) : Keeps (setValue ops ev ctx val body) := by
  cases val with
  | some val => exact hev _ _
  | none => exact keeps_execStatements hev _ _

lemma keeps_assign (assignee : Node F)
    (rhs : V) : Keeps (assign ops ev ctx assignee rhs) := by
  unfold assign
  split
  · exact keeps_prim _
  · refine (keeps_prim _).bind fun vs => ?_
    split
    · exact keeps_throw _
    · split
      · exact keeps_throw _
      · exact keeps_setAll _ _ _ _
  · split
    · exact keeps_throw _
    · split
      · exact (hev _ _).bind fun _ => keeps_prim _
      · exact keeps_throw _
  · exact keeps_throw _

lemma keeps_setStatement (assignee : Node F)
    (val : Option (Node F)) (body : List (Node F)) :
    Keeps (setStatement ops ev ctx assignee val body) :=
  (keeps_setValue hev _ _ _).bind fun _ => (keeps_assign hev _ _ _).bind fun _ => keeps_prim _

lemma keeps_filterItems (scope : C) (loopvar : Node F)
    (test : Option (Node F)) (isObject : Bool) (items : List V) :
    Keeps (filterItems ops ev scope loopvar test isObject items) := by
  induction items with
  | nil => exact keeps_pure _
  | cons item items ih =>
    refine (keeps_prim _).bind fun loopScope => (keeps_checkLoopVar _ _ _).bind fun current => ?_
    cases test with
    | none => exact ih.bind fun _ => keeps_pure _
    | some test =>
      exact (keeps_setLoopVars _ _ _ _).bind fun _ => (hev _ _).bind fun _ =>
        (keeps_prim _).bind fun _ => ih.bind fun _ => keeps_pure _

lemma keeps_loopBody (scope : C) (results : List V)
    (stmts : List (Node F)) : Keeps (loopBody ev scope results stmts) := by
  induction stmts generalizing results with
  | nil => exact keeps_pure _
  | cons stmt stmts ih =>
    refine Keeps.bind (Control.Within.catchSignals (hev _ _)) fun r => ?_
    cases r with
    | inl v => exact ih _
    | inr signal => exact keeps_pure _

lemma keeps_iterate (scope : C) (loopvar : Node F)
    (isObject : Bool) (body : List (Node F)) (all : List (V × V)) (i : ℕ) (results : List V)
    (noIteration : Bool) (items : List (V × V)) :
    Keeps (iterate ops ev scope loopvar isObject body all i results noIteration items) := by
  induction items generalizing i results noIteration with
  | nil => exact keeps_pure _
  | cons item items ih =>
    refine (keeps_prim _).bind fun _ => (keeps_prim _).bind fun _ =>
      (keeps_setLoopVars _ _ _ _).bind fun _ => (keeps_loopBody hev _ _ _).bind fun r => ?_
    split
    · exact ih _ _ _
    · exact ih _ _ _
    · exact keeps_pure _

lemma keeps_forStatement (loopvar iterable : Node F) (body defaultBlock : List (Node F)) :
    Keeps (forStatement ops ev ctx loopvar iterable body defaultBlock) :=
  (keeps_prim _).bind fun _ => (hev _ _).bind fun _ => (keeps_prim _).bind fun _ =>
    (keeps_filterItems hev _ _ _ _ _).bind fun _ => (keeps_iterate hev _ _ _ _ _ _ _ _ _).bind
      fun _ => (keeps_execList hev _ _).bind fun _ => keeps_prim _

/-! ## Functions -/

lemma keeps_bindDefault (name : String)
    (argCtx ctx : C) (param : Node F) : Keeps (bindDefault ops ev name argCtx ctx param) := by
  unfold bindDefault
  split
  · exact (hev _ _).bind fun _ => keeps_prim _
  · exact keeps_throw _
  · exact keeps_throw _

lemma keeps_bindParameter (name : String)
    (argCtx ctx : C) (args : List V) (i : ℕ) (param : Node F) :
    Keeps (bindParameter ops ev name argCtx ctx args i param) := by
  unfold bindParameter
  split
  · exact keeps_bindGiven _ _ _ _ _
  · exact keeps_bindDefault hev _ _ _ _

lemma keeps_bindParameters (name : String)
    (argCtx ctx : C) (args : List V) (i : ℕ) (params : List (Node F)) :
    Keeps (bindParameters ops ev name argCtx ctx args i params) := by
  induction params generalizing i with
  | nil => exact keeps_pure _
  | cons param params ih =>
    exact (keeps_bindParameter hev _ _ _ _ _ _).bind fun _ => ih _

lemma keeps_callClosure (argCtx : C) (args : List V)
    (c : Closure F C) : Keeps (callClosure ops ev argCtx args c) := by
  cases c with
  | ofMacro name params body =>
    exact (keeps_prim _).bind fun _ => (keeps_bindParameters hev _ _ _ _ _ _).bind fun _ =>
      keeps_execStatements hev _ _
  | ofCall params body callerCtx =>
    exact (keeps_prim _).bind fun _ => (keeps_bindParameters hev _ _ _ _ _ _).bind fun _ =>
      keeps_execStatements hev _ _

lemma keeps_invoke (argCtx : C) (callee : Callee F B C)
    (args : List V) : Keeps (invoke ops ev argCtx callee args) := by
  cases callee with
  | builtin b => exact keeps_prim _
  | closure c => exact keeps_callClosure hev _ _ _

lemma keeps_callStatement (call : Node F)
    (callerArgs body : List (Node F)) :
    Keeps (callStatement ops ev ctx call callerArgs body) := by
  unfold callStatement
  split
  · exact (hev _ _).bind fun _ => (keeps_prim _).bind fun _ => (keeps_prim _).bind fun _ =>
      (keeps_prim _).bind fun _ => (keeps_prim _).bind fun _ => (keeps_prim _).bind fun _ =>
        (keeps_execList hev _ _).bind fun _ => keeps_invoke hev _ _ _
  · exact keeps_throw _

lemma keeps_insertPairs (obj : V)
    (pairs : List (Node F × Node F)) : Keeps (insertPairs ops ev ctx obj pairs) := by
  induction pairs with
  | nil => exact keeps_pure _
  | cons pair pairs ih =>
    exact (hev _ _).bind fun _ => (hev _ _).bind fun _ => (keeps_prim _).bind fun _ => ih

lemma keeps_binaryExpression (op : String)
    (left right : Node F) : Keeps (binaryExpression ops ev ctx op left right) := by
  refine (hev _ _).bind fun l => ?_
  split
  · refine (keeps_prim _).bind fun b => ?_
    split
    · exact hev _ _
    · exact keeps_pure _
  · split
    · refine (keeps_prim _).bind fun b => ?_
      split
      · exact keeps_pure _
      · exact hev _ _
    · exact (hev _ _).bind fun _ => keeps_prim _

lemma keeps_testResult (test : Node F)
    (input : V) : Keeps (testResult ops ev ctx test input) := by
  unfold testResult
  split
  · exact keeps_prim _
  · exact (keeps_execList hev _ _).bind fun _ => keeps_prim _
  · exact keeps_throw _
  · exact keeps_throw _

lemma keeps_testExpression (operand : Node F) (negate : Bool) (test : Node F) :
    Keeps (testExpression ops ev ctx operand negate test) := by
  refine (hev _ _).bind fun input => (keeps_testResult hev _ _ _).bind fun res => ?_
  split
  · exact keeps_prim _
  · exact keeps_pure _

lemma keeps_memberExpression (object property : Node F) (computed : Bool) :
    Keeps (memberExpression ops ev ctx object property computed) := by
  refine (hev _ _).bind fun obj => ?_
  split
  · split
    · exact (keeps_execOr hev _ _ _).bind fun _ => (keeps_execOr hev _ _ _).bind fun _ =>
        (keeps_execOr hev _ _ _).bind fun _ => keeps_prim _
    · exact (hev _ _).bind fun _ => keeps_prim _
  · split
    · exact keeps_prim _
    · exact keeps_throw _

lemma keeps_executeImpl {impl : Eval F W V C}
    (himpl : ∀ node ctx, Keeps (impl node ctx)) (node : Node F) (ctx : C) :
    Keeps (executeImpl ops ev impl node ctx) := by
  unfold executeImpl
  split
  · exact (hev _ _).bind fun _ => (keeps_prim _).bind fun _ => keeps_execStatements hev _ _
  · exact keeps_forStatement hev _ _ _ _ _
  · exact within_jump steps _
  · exact within_jump steps _
  · exact keeps_prim _
  · exact keeps_setStatement hev _ _ _ _
  · exact (keeps_prim _).bind fun _ => (keeps_prim _).bind fun _ => keeps_prim _
  · exact keeps_throw _
  · exact keeps_prim _
  · exact keeps_prim _
  · exact keeps_memberExpression hev _ _ _ _
  · exact (keeps_execList hev _ _).bind fun _ => (hev _ _).bind fun _ =>
      (keeps_prim _).bind fun _ => keeps_invoke hev _ _ _
  · exact keeps_prim _
  · exact keeps_prim _
  · exact keeps_prim _
  · exact keeps_prim _
  · exact (keeps_execList hev _ _).bind fun _ => keeps_prim _
  · exact (keeps_execList hev _ _).bind fun _ => keeps_prim _
  · exact (keeps_prim _).bind fun _ => (keeps_insertPairs hev _ _ _).bind fun _ => keeps_pure _
  · exact keeps_binaryExpression hev _ _ _ _
  · exact (hev _ _).bind fun _ => keeps_applyFilter hev _ _ _
  · exact keeps_filterStatement hev _ _ _ _
  · refine (himpl _ _).bind fun _ => (keeps_prim _).bind fun b => ?_
    split
    · exact himpl _ _
    · exact keeps_prim _
  · exact keeps_testExpression hev _ _ _ _
  · exact (hev _ _).bind fun _ => keeps_prim _
  · exact keeps_throw _
  · exact (hev _ _).bind fun _ => keeps_prim _
  · exact keeps_throw _
  · exact keeps_throw _
  · exact keeps_callStatement hev _ _ _ _
  · refine (hev _ _).bind fun _ => (keeps_prim _).bind fun b => ?_
    split
    · exact hev _ _
    · exact hev _ _

end

section

variable {F W V C B : Type} (ops : Ops F W V C B)

lemma keeps_impl (n : ℕ) (node : Node F) (ctx : C) : Keeps (impl ops n node ctx) := by
  induction n generalizing node ctx with
  | zero => exact within_unfinished steps
  | succ n ih => exact keeps_executeImpl (fun node ctx => (ih node ctx).guarded) ih node ctx

lemma keeps_execute (n : ℕ) (node : Node F) (ctx : C) : Keeps (execute ops n node ctx) :=
  (keeps_impl ops n node ctx).guarded

/-- A rendering leaves the tree as it was exactly when it leaves no filter in an expression. -/
lemma render_lost (n : ℕ) (program : List (Node F)) (input : W × C) :
    (render ops n program [] input).2.lost = [] ↔ (render ops n program [] input).2.left = [] := by
  have hgrows : ExecState.Grows ⟨input.1, [], []⟩ (render ops n program [] input).2 :=
    (keeps_execStatements (fun node ctx => keeps_execute ops n node ctx) _ _ _).1
  constructor
  · intro hlost
    refine eq_nil_iff_forall_not_mem.mpr fun id hid => ?_
    rcases hgrows.gone id hid with hold | hgone
    · exact not_mem_nil hold
    · exact not_mem_nil (hlost ▸ hgone)
  · exact fun hleft => hgrows.same hleft

/-- **Every rendering leaves the tree as it was parsed and ends as a rendering of a program that
was just parsed, exactly when no rendering leaves a filter in an expression.** -/
theorem unchanged_iff_none_left (n : ℕ) (program : List (Node F)) (inputs : List (W × C)) :
    (∀ p ∈ inputs.zip (renderAll ops n program [] inputs),
        p.2.2.lost = [] ∧ p.2 = render ops n program [] p.1) ↔
      ∀ r ∈ renderAll ops n program [] inputs, r.2.left = [] := by
  induction inputs with
  | nil => simp [renderAll]
  | cons input inputs ih =>
    have hlost := render_lost ops n program input
    simp only [renderAll, List.zip_cons_cons, List.forall_mem_cons, and_true]
    by_cases hleft : (render ops n program [] input).2.left = []
    · -- the tree is as before, and so are the renderings after it
      rw [hlost.mpr hleft, ih]
      exact ⟨fun h => ⟨hleft, h.2⟩, fun h => ⟨rfl, h.2⟩⟩
    · constructor
      · exact fun h => absurd (hlost.mp h.1) hleft
      · exact fun h => absurd h.1 hleft

end

/-! ## A filter that is left -/

def getLineCol (source : List Char) (pos : ℕ) : String :=
  let place := (source.take pos).foldl
    (fun place c => if c = '\n' then (place.1 + 1, 1) else (place.1, place.2 + 1)) (1, 1)
  "line " ++ toString place.1 ++ ", column " ++ toString place.2

def peakSource (source : List Char) (pos : ℕ) : String :=
  let start := pos - 40
  let shown := (source.take (pos + 40)).drop start
  let substr := String.ofList (shown.map fun c => if c = '\n' then '↵' else c)
  "..." ++ substr ++ "...\n" ++ String.ofList (List.replicate (pos - start + 3) ' ') ++ "^"

/-- What is thrown by `statement::execute` in place of an error. -/
def describeError (type : String) (pos : ℕ) (what : String) (source : List Char) : Err :=
  .rethrown ("\n------------\nWhile executing " ++ type ++ " at " ++ getLineCol source pos ++
    " in source:\n" ++ peakSource source pos ++ "\nError: " ++ what)

/-- Texts, where nothing stands for an undefined value; a context has the texts of the variables.
The only filter replaces a character by another one. -/
def textOps : Ops Unit (List Char) (Option (List Char)) (List (String × List Char)) Unit :=
  let unsupported {α : Type} : Prim (List Char) α :=
    fun source => (.error (.notImplemented "unsupported"), source)
  { describe := describeError
    tempPos := fun _ => 0
    fork := fun ctx source => (.ok ctx, source)
    setVal := fun _ _ _ => unsupported
    lookup := fun ctx name source => (.ok (ctx.lookup name), source)
    undefined := fun source => (.ok none, source)
    mkInt := fun _ => unsupported
    mkFloat := fun _ => unsupported
    mkString := fun text source => (.ok (some text.toList), source)
    mkArray := fun _ => unsupported
    mkTuple := fun _ => unsupported
    newObject := unsupported
    insert := fun _ _ _ => unsupported
    mkKwarg := fun _ _ => unsupported
    mkFunc := fun _ _ => unsupported
    asBool := fun v source => (.ok v.isSome, source)
    joinParts := fun vs source => (.ok (some (vs.filterMap id).flatten), source)
    binary := fun _ _ _ _ => unsupported
    unary := fun _ _ => unsupported
    negate := fun _ => unsupported
    filter := fun _ _ _ => unsupported
    filterCall := fun _ name input args source =>
      if name = "replace" then
        match input, args with
        | some text, [some [old], some [new]] =>
          (.ok (some (text.map fun c => if c = old then new else c)), source)
        | some _, [none, _] =>
          (.error (.runtime "Function 'replace' expected value of type string, got Undefined"),
            source)
        | _, _ => unsupported source
      else unsupported source
    test := fun _ _ _ => unsupported
    getAttribute := fun _ _ _ => unsupported
    member := fun _ _ _ => unsupported
    sliceStart := fun _ _ => unsupported
    sliceStop := fun _ _ => unsupported
    slice := fun _ _ _ _ _ => unsupported
    setAttribute := fun _ _ _ => unsupported
    items := fun _ _ => unsupported
    firstOf := fun _ => unsupported
    elements := fun _ _ => unsupported
    loopObject := fun _ _ _ _ => unsupported
    calleeOf := fun _ => unsupported
    invokeBuiltin := fun _ _ _ => unsupported
    kwargOrPos := fun _ _ _ => unsupported }

/-- A `filter` statement that replaces the character that the variable `x` holds by `b`. -/
def replaceSource : String := "\x7b% filter replace(x, 'b') %\x7daaa\x7b% endfilter %\x7d"

/-- The program of `replaceSource`. -/
def replaceProgram : List (Node Unit) :=
  [.filterStatement ⟨0, 0⟩
    (.callExpression ⟨1, 10⟩ (.identifier ⟨2, 10⟩ "replace")
      [.identifier ⟨3, 18⟩ "x", .stringLiteral ⟨4, 21⟩ "b"])
    [.stringLiteral ⟨5, 28⟩ "aaa"]]

/-- A rendering in which `x` is not defined, and one in which it is `a`. -/
def replaceInputs : List (List Char × List (String × List Char)) :=
  [(replaceSource.toList, []), (replaceSource.toList, [("x", ['a'])])]

example : (render textOps 4 replaceProgram [] (replaceSource.toList, [("x", ['a'])])).1 =
    .ok (some ['b', 'b', 'b']) := by
  decide +kernel

/-- After a rendering that throws in the filter, the next one throws, and that of a program that
was just parsed does not. -/
theorem renderAll_ne_render :
    ¬∀ p ∈ replaceInputs.zip (renderAll textOps 4 replaceProgram [] replaceInputs),
      p.2.1 = (render textOps 4 replaceProgram [] p.1).1 := by
  decide +kernel

end Llama.Jinja
