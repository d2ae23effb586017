import Llama.Jinja
import Llama.Lib.Control
import Mathlib.Data.Nat.Notation

/-!
# Running a template program

The interpreter.  Executing a statement gives a value, throws, or leaves by `break` or `continue`.
Values, contexts and the built-in functions are a parameter: they live in a world that every
operation on them may change.  A macro is a value that refers to its nodes, which are executed when
it is called.

A node is a tree that is not changed, but for one field: while a `filter` statement applies its
filter, the filter is moved into a temporary expression, and it is moved back when that expression
returned.  The state has the nodes whose filter is gone; it also records the nodes whose filter
was left in the temporary expression, which no step reads.
-/

namespace Llama.Jinja

/-- Which node it is, and where it is in the source. -/
structure NodeInfo where
  id : ℕ
  pos : ℕ
  deriving DecidableEq, Repr

/-- A node of a program. -/
abbrev Node (F : Type) := Statement NodeInfo F

/-- What is thrown: an error, an error that was decorated with its place, or
`not_implemented_exception`. -/
inductive Err
  | runtime (what : String)
  | rethrown (what : String)
  | notImplemented (what : String)
  deriving DecidableEq, Repr

/-- The signals of `break` and `continue`. -/
inductive Signal
  | breakLoop
  | continueLoop
  deriving DecidableEq, Repr

/-- A function of the program: a macro, or the block of a `call` statement. -/
inductive Closure (F C : Type)
  | ofMacro (name : String) (args body : List (Node F))
  | ofCall (args body : List (Node F)) (ctx : C)

/-- What a function value calls. -/
inductive Callee (F B C : Type)
  | builtin (b : B)
  | closure (c : Closure F C)

/-- An operation on the world. -/
abbrev Prim (W α : Type) := W → Except Err α × W

/-- Values `V`, contexts `C` and built-in functions `B` in a world `W`.  Everything that does not
execute a node is here. -/
structure Ops (F W V C B : Type) where
  describe : String → ℕ → String → W → Err
  tempPos : W → ℕ
  fork : C → Prim W C
  setVal : C → String → V → Prim W Unit
  lookup : C → String → Prim W V
  undefined : Prim W V
  mkInt : ℤ → Prim W V
  mkFloat : F → Prim W V
  mkString : String → Prim W V
  mkArray : List V → Prim W V
  mkTuple : List V → Prim W V
  newObject : Prim W V
  insert : V → V → V → Prim W Unit
  mkKwarg : String → V → Prim W V
  mkFunc : String → Closure F C → Prim W V
  asBool : V → Prim W Bool
  joinParts : List V → Prim W V
  binary : C → String → V → V → Prim W V
  unary : String → V → Prim W V
  negate : V → Prim W V
  filter : C → String → V → Prim W V
  filterCall : C → String → V → List V → Prim W V
  test : C → String → List V → Prim W V
  getAttribute : C → V → String → Prim W V
  member : C → V → V → Prim W V
  sliceStart : V → V → Prim W V
  sliceStop : V → V → Prim W V
  slice : C → V → V → V → V → Prim W V
  setAttribute : V → String → V → Prim W Unit
  items : C → V → Prim W (Bool × List V)
  firstOf : V → Prim W V
  elements : String → V → Prim W (List V)
  loopObject : ℕ → ℕ → Option V → Option V → Prim W V
  calleeOf : V → Prim W (Callee F B C)
  invokeBuiltin : B → C → List V → Prim W V
  kwargOrPos : List V → String → ℕ → Prim W V

/-- The state of a rendering: the world, the filter statements whose filter is gone, and those
whose filter was left in the temporary expression. -/
structure ExecState (W : Type) where
  world : W
  lost : List ℕ
  left : List ℕ

/-- What is executed. -/
abbrev Run (W α : Type) := Control (ExecState W) Err Signal α

/-- How nodes are executed. -/
abbrev Eval (F W V C : Type) := Node F → C → Run W V

section

variable {F W V C B α : Type}

/-- An operation on the world. -/
def prim (p : Prim W α) : Run W α :=
  Control.onState fun s => ((p s.world).1, { s with world := (p s.world).2 })

/-- Throw an error. -/
def throwRuntime (what : String) : Run W α := Control.fail (.runtime what)

/-- `statement::execute`: errors are decorated, once, with the place of the statement. -/
def guarded (ops : Ops F W V C B) (type : String) (pos : ExecState W → ℕ) (m : Run W α) : Run W α :=
  m.mapError fun s e =>
    match e with
    | .runtime what => ops.describe type (pos s) what s.world
    | e => e

variable (ops : Ops F W V C B) (ev : Eval F W V C)

/-- Execute nodes, one after the other. -/
def execList (ctx : C) : List (Node F) → Run W (List V)
  | [] => pure []
  | stmt :: stmts => do
    let v ← ev stmt ctx
    let vs ← execList ctx stmts
    pure (v :: vs)

def execStatements (ctx : C) (stmts : List (Node F)) : Run W V := do
  let vs ← execList ev ctx stmts
  prim (ops.joinParts vs)

/-- Execute a node, if there is one. -/
def execOr (ctx : C) (node : Option (Node F)) (default : Prim W V) : Run W V :=
  match node with
  | some node => ev node ctx
  | none => prim default

/-- The names of filters that have another name. -/
def filterAlias (id : String) : String :=
  if id = "count" then "length"
  else if id = "d" then "default"
  else if id = "e" then "escape"
  else if id = "trim" then "strip"
  else id

/-- `filter_expression::execute_impl` for an input that was executed.  The filter is null where it
was moved away. -/
def applyFilter (ctx : C) (filter : Option (Node F)) (input : V) : Run W V :=
  match filter with
  | some (.identifier _ id) => prim (ops.filter ctx (filterAlias id) input)
  | some (.callExpression _ (.identifier _ id) args) => do
    let vs ← execList ev ctx args
    prim (ops.filterCall ctx (filterAlias id) input vs)
  | some (.callExpression ..) => throwRuntime "Filter callee must be an identifier"
  | _ => throwRuntime "Invalid filter expression"

/-- Move the filter of the node `id` away while `m` runs, and back if `m` returns.  The filter of a
node that is gone stays gone. -/
def withFilterMoved (id : ℕ) (m : Bool → Run W α) : Run W α := fun s =>
  let here := id ∉ s.lost
  (m here).finish (fun returned s =>
    if returned then if here then { s with lost := s.lost.erase id } else s
    else { s with left := s.left ++ [id] })
    (if here then { s with lost := id :: s.lost } else s)

/-- `filter_statement::execute_impl`. -/
def filterStatement (ctx : C) (id : ℕ) (filter : Node F) (body : List (Node F)) : Run W V := do
  let parts ← execStatements ops ev ctx body
  withFilterMoved id fun here =>
    guarded ops "FilterExpression" (fun s => ops.tempPos s.world)
      (applyFilter ops ev ctx (if here then some filter else none) parts)

/-- Set variables to values. -/
def setAll (what : String) (ctx : C) : List (Node F) → List V → Run W Unit
  | .identifier _ name :: targets, v :: vs => do
    prim (ops.setVal ctx name v)
    setAll what ctx targets vs
  | target :: _, _ => throwRuntime (what ++ target.type)
  | [], _ => pure ()

/-- The value of a `set` statement. -/
def setValue (ctx : C) (val : Option (Node F)) (body : List (Node F)) : Run W V :=
  match val with
  | some val => ev val ctx
  | none => execStatements ops ev ctx body

/-- Assign a value. -/
def assign (ctx : C) (assignee : Node F) (rhs : V) : Run W Unit :=
  match assignee with
  | .identifier _ name => prim (ops.setVal ctx name rhs)
  | .tupleLiteral _ targets => do
    let vs ← prim (ops.elements "Cannot unpack non-iterable type in set: " rhs)
    if vs.length < targets.length then throwRuntime "Too few items to unpack in set"
    else if targets.length < vs.length then throwRuntime "Too many items to unpack in set"
    else setAll ops "Cannot unpack to non-identifier in set: " ctx targets vs
  | .memberExpression _ object property computed =>
    if computed then throwRuntime "Cannot assign to computed member"
    else match property with
      | .identifier _ name => do
        let obj ← ev object ctx
        prim (ops.setAttribute obj name rhs)
      | _ => throwRuntime "Cannot assign to member with non-identifier property"
  | _ => throwRuntime ("Invalid LHS inside assignment expression: " ++ assignee.type)

/-- `set_statement::execute_impl`. -/
def setStatement (ctx : C) (assignee : Node F) (val : Option (Node F)) (body : List (Node F)) :
    Run W V := do
  let rhs ← setValue ops ev ctx val body
  assign ops ev ctx assignee rhs
  prim ops.undefined

/-! ## Loops -/

/-- Set the loop variables for an item. -/
def setLoopVars (ctx : C) (loopvar : Node F) (isObject : Bool) (item : V) : Run W Unit :=
  match loopvar with
  | .identifier _ name =>
    if isObject then do
      let key ← prim (ops.firstOf item)
      prim (ops.setVal ctx name key)
    else prim (ops.setVal ctx name item)
  | .tupleLiteral _ targets => do
    let vs ← prim (ops.elements "Cannot unpack non-iterable type: " item)
    setAll ops "Cannot unpack non-identifier type: " ctx targets vs
  | _ => throwRuntime ("Invalid loop variable(s): " ++ loopvar.type)

/-- What a loop variable is compared with before an item is used, and what the item becomes. -/
def checkLoopVar (loopvar : Node F) (isObject : Bool) (item : V) : Run W V :=
  match loopvar with
  | .identifier .. => if isObject then prim (ops.firstOf item) else pure item
  | .tupleLiteral _ targets => do
    let vs ← prim (ops.elements "Cannot unpack non-iterable type: " item)
    if vs.length < targets.length then throwRuntime "Too few items to unpack"
    else if targets.length < vs.length then throwRuntime "Too many items to unpack"
    else pure item
  | _ => throwRuntime ("Invalid loop variable(s): " ++ loopvar.type)

/-- The items that pass the test, each with what it became. -/
def filterItems (scope : C) (loopvar : Node F) (test : Option (Node F)) (isObject : Bool) :
    List V → Run W (List (V × V))
  | [] => pure []
  | item :: items => do
    let loopScope ← prim (ops.fork scope)
    let current ← checkLoopVar ops loopvar isObject item
    match test with
    | some test => do
      setLoopVars ops loopScope loopvar isObject item
      let v ← ev test loopScope
      let keep ← prim (ops.asBool v)
      let rest ← filterItems scope loopvar (some test) isObject items
      pure (if keep then (item, current) :: rest else rest)
    | none => do
      let rest ← filterItems scope loopvar none isObject items
      pure ((item, current) :: rest)

/-- The body of a loop: its results so far, and the signal by which it was left. -/
def loopBody (scope : C) : List V → List (Node F) → Run W (List V × Option Signal)
  | results, [] => pure (results, none)
  | results, stmt :: stmts => do
    let r ← (ev stmt scope).catchSignals
    match r with
    | .inl v => loopBody scope (results ++ [v]) stmts
    | .inr signal => pure (results, some signal)

/-- The iterations of a loop from the item `i` on, and whether none was completed. -/
def iterate (scope : C) (loopvar : Node F) (isObject : Bool) (body : List (Node F))
    (all : List (V × V)) : ℕ → List V → Bool → List (V × V) → Run W (List V × Bool)
  | _, results, noIteration, [] => pure (results, noIteration)
  | i, results, noIteration, item :: items => do
    let loopObj ← prim (ops.loopObject i all.length
      (if i = 0 then none else all[i - 1]?.map Prod.snd) (all[i + 1]?.map Prod.snd))
    prim (ops.setVal scope "loop" loopObj)
    setLoopVars ops scope loopvar isObject item.1
    let r ← loopBody ev scope results body
    match r.2 with
    | none => iterate scope loopvar isObject body all (i + 1) r.1 false items
    | some .continueLoop => iterate scope loopvar isObject body all (i + 1) r.1 noIteration items
    | some .breakLoop => pure (r.1, noIteration)

/-- `for_statement::execute_impl`. -/
def forStatement (ctx : C) (loopvar iterable : Node F) (body defaultBlock : List (Node F)) :
    Run W V := do
  let scope ← prim (ops.fork ctx)
  let iter := match iterable with
    | .selectExpression _ lhs _ => lhs
    | _ => iterable
  let test := match iterable with
    | .selectExpression _ _ test => some test
    | _ => none
  let v ← ev iter scope
  let r ← prim (ops.items ctx v)
  let items ← filterItems ops ev scope loopvar test r.1 r.2
  let done ← iterate ops ev scope loopvar r.1 body items 0 [] true items
  let rest ← execList ev ctx (if done.2 then defaultBlock else [])
  prim (ops.joinParts (done.1 ++ rest))

/-! ## Functions -/

/-- Bind a parameter to an argument that was given. -/
def bindGiven (name : String) (ctx : C) (args : List V) (i : ℕ) (param : Node F) : Run W Unit :=
  match param with
  | .identifier _ id => do
    let v ← prim (ops.kwargOrPos args id i)
    prim (ops.setVal ctx id v)
  | .keywordArgumentExpression _ (.identifier _ id) _ => do
    let v ← prim (ops.kwargOrPos args id i)
    prim (ops.setVal ctx id v)
  | .keywordArgumentExpression .. =>
    throwRuntime ("Keyword argument key must be an identifier in '" ++ name ++ "'")
  | _ => throwRuntime ("Invalid parameter type in '" ++ name ++ "'")

/-- Bind a parameter to its default. -/
def bindDefault (name : String) (argCtx ctx : C) (param : Node F) : Run W Unit :=
  match param with
  | .keywordArgumentExpression _ (.identifier _ id) val => do
    let v ← ev val argCtx
    prim (ops.setVal ctx id v)
  | .keywordArgumentExpression .. =>
    throwRuntime ("Keyword argument key must be an identifier in '" ++ name ++ "'")
  | _ => throwRuntime ("Not enough arguments provided to '" ++ name ++ "'")

/-- Bind the parameter `i`. -/
def bindParameter (name : String) (argCtx ctx : C) (args : List V) (i : ℕ) (param : Node F) :
    Run W Unit :=
  if i < args.length then bindGiven ops name ctx args i param
  else bindDefault ops ev name argCtx ctx param

/-- `bind_parameters`, from the parameter `i` on. -/
def bindParameters (name : String) (argCtx ctx : C) (args : List V) : ℕ → List (Node F) → Run W Unit
  | _, [] => pure ()
  | i, param :: params => do
    bindParameter ops ev name argCtx ctx args i param
    bindParameters name argCtx ctx args (i + 1) params

/-- Call a function of the program. -/
def callClosure (argCtx : C) (args : List V) : Closure F C → Run W V
  | .ofMacro name params body => do
    let ctx ← prim (ops.fork argCtx)
    bindParameters ops ev name argCtx ctx args 0 params
    execStatements ops ev ctx body
  | .ofCall params body callerCtx => do
    let ctx ← prim (ops.fork callerCtx)
    bindParameters ops ev "caller" argCtx ctx args 0 params
    execStatements ops ev ctx body

def invoke (argCtx : C) (callee : Callee F B C) (args : List V) : Run W V :=
  match callee with
  | .builtin b => prim (ops.invokeBuiltin b argCtx args)
  | .closure c => callClosure ops ev argCtx args c

/-- `call_statement::execute_impl`. -/
def callStatement (ctx : C) (call : Node F) (callerArgs body : List (Node F)) : Run W V :=
  match call with
  | .callExpression _ calleeNode args => do
    let f ← ev calleeNode ctx
    let callee ← prim (ops.calleeOf f)
    let callerCtx ← prim (ops.fork ctx)
    let callCtx ← prim (ops.fork ctx)
    let caller ← prim (ops.mkFunc "caller" (.ofCall callerArgs body callerCtx))
    prim (ops.setVal callCtx "caller" caller)
    let vs ← execList ev ctx args
    invoke ops ev callCtx callee vs
  | _ => throwRuntime "Call statement requires a valid call expression"

/-- The pairs of an object literal. -/
def insertPairs (ctx : C) (obj : V) : List (Node F × Node F) → Run W Unit
  | [] => pure ()
  | pair :: pairs => do
    let key ← ev pair.1 ctx
    let val ← ev pair.2 ctx
    prim (ops.insert obj key val)
    insertPairs ctx obj pairs

/-- `binary_expression::execute_impl`. -/
def binaryExpression (ctx : C) (op : String) (left right : Node F) : Run W V := do
  let l ← ev left ctx
  if op = "and" then do
    let b ← prim (ops.asBool l)
    if b then ev right ctx else pure l
  else if op = "or" then do
    let b ← prim (ops.asBool l)
    if b then pure l else ev right ctx
  else do
    let r ← ev right ctx
    prim (ops.binary ctx op l r)

/-- The result of a test of an input. -/
def testResult (ctx : C) (test : Node F) (input : V) : Run W V :=
  match test with
  | .identifier _ id => prim (ops.test ctx id [input])
  | .callExpression _ (.identifier _ id) args => do
    let vs ← execList ev ctx args
    prim (ops.test ctx id (input :: vs))
  | .callExpression .. => throwRuntime "Test callee must be an identifier"
  | _ => throwRuntime "Invalid test expression"

/-- `test_expression::execute_impl`. -/
def testExpression (ctx : C) (operand : Node F) (negate : Bool) (test : Node F) : Run W V := do
  let input ← ev operand ctx
  let res ← testResult ops ev ctx test input
  if negate then prim (ops.negate res) else pure res

/-- `member_expression::execute_impl`. -/
def memberExpression (ctx : C) (object property : Node F) (computed : Bool) : Run W V := do
  let obj ← ev object ctx
  if computed then
    match property with
    | .sliceExpression _ start stop step => do
      let stepVal ← execOr ev ctx step (ops.mkInt 1)
      let startVal ← execOr ev ctx start (ops.sliceStart obj stepVal)
      let stopVal ← execOr ev ctx stop (ops.sliceStop obj stepVal)
      prim (ops.slice ctx obj startVal stopVal stepVal)
    | _ => do
      let prop ← ev property ctx
      prim (ops.member ctx obj prop)
  else
    match property with
    | .identifier _ name => prim (ops.getAttribute ctx obj name)
    | _ => throwRuntime "Static member property must be an identifier"

/-- `execute_impl`, where `impl` is `execute_impl` and `ev` is `execute` of the nodes below. -/
def executeImpl (impl : Eval F W V C) (node : Node F) (ctx : C) : Run W V :=
  match node with
  | .ifStatement _ test body alternate => do
    let v ← ev test ctx
    let b ← prim (ops.asBool v)
    execStatements ops ev ctx (if b then body else alternate)
  | .forStatement _ loopvar iterable body defaultBlock =>
    forStatement ops ev ctx loopvar iterable body defaultBlock
  | .breakStatement _ => Control.jump .breakLoop
  | .continueStatement _ => Control.jump .continueLoop
  | .noopStatement _ => prim ops.undefined
  | .setStatement _ assignee val body => setStatement ops ev ctx assignee val body
  | .macroStatement _ (.identifier _ name) args body => do
    let f ← prim (ops.mkFunc name (.ofMacro name args body))
    prim (ops.setVal ctx name f)
    prim ops.undefined
  | .macroStatement .. => throwRuntime "Macro name must be an identifier"
  | .commentStatement .. => prim ops.undefined
  | .blankExpression _ => prim ops.undefined
  | .memberExpression _ object property computed =>
    memberExpression ops ev ctx object property computed
  | .callExpression _ calleeNode args => do
    let vs ← execList ev ctx args
    let f ← ev calleeNode ctx
    let callee ← prim (ops.calleeOf f)
    invoke ops ev ctx callee vs
  | .identifier _ name => prim (ops.lookup ctx name)
  | .integerLiteral _ val => prim (ops.mkInt val)
  | .floatLiteral _ val => prim (ops.mkFloat val)
  | .stringLiteral _ val => prim (ops.mkString val)
  | .arrayLiteral _ val => do
    let vs ← execList ev ctx val
    prim (ops.mkArray vs)
  | .tupleLiteral _ val => do
    let vs ← execList ev ctx val
    prim (ops.mkTuple vs)
  | .objectLiteral _ val => do
    let obj ← prim ops.newObject
    insertPairs ops ev ctx obj val
    pure obj
  | .binaryExpression _ op left right => binaryExpression ops ev ctx op left right
  | .filterExpression _ operand filter => do
    let input ← ev operand ctx
    applyFilter ops ev ctx (some filter) input
  | .filterStatement info filter body => filterStatement ops ev ctx info.id filter body
  | .selectExpression _ lhs test => do
    let v ← impl test ctx
    let b ← prim (ops.asBool v)
    if b then impl lhs ctx else prim ops.undefined
  | .testExpression _ operand negate test => testExpression ops ev ctx operand negate test
  | .unaryExpression _ op argument => do
    let v ← ev argument ctx
    prim (ops.unary op v)
  | .sliceExpression .. => throwRuntime "must be handled by MemberExpression"
  | .keywordArgumentExpression _ (.identifier _ name) val => do
    let v ← ev val ctx
    prim (ops.mkKwarg name v)
  | .keywordArgumentExpression .. => throwRuntime "Keyword argument key must be identifiers"
  | .spreadExpression .. => throwRuntime ("cannot exec " ++ node.type)
  | .callStatement _ call callerArgs body => callStatement ops ev ctx call callerArgs body
  | .ternaryExpression _ condition trueExpr falseExpr => do
    let v ← ev condition ctx
    let b ← prim (ops.asBool v)
    if b then ev trueExpr ctx else ev falseExpr ctx

end

section

variable {F W V C B : Type} (ops : Ops F W V C B)

/-- `execute_impl`, as deep as the bound allows. -/
def impl : ℕ → Eval F W V C
  | 0 => fun _ _ => Control.unfinished
  | n + 1 => fun node ctx =>
    executeImpl ops (fun node ctx => guarded ops node.type (fun _ => node.info.pos) (impl n node ctx))
      (impl n) node ctx

def execute (n : ℕ) : Eval F W V C := fun node ctx =>
  guarded ops node.type (fun _ => node.info.pos) (impl ops n node ctx)

/-- The rendering of a program in a world: how it ends, and the state after it. -/
def render (n : ℕ) (program : List (Node F)) (lost : List ℕ) (input : W × C) :
    Outcome Err Signal V × ExecState W :=
  execStatements ops (execute ops n) input.2 program ⟨input.1, lost, []⟩

/-- Renderings of a program, one after the other. -/
def renderAll (n : ℕ) (program : List (Node F)) :
    List ℕ → List (W × C) → List (Outcome Err Signal V × ExecState W)
  | _, [] => []
  | lost, input :: inputs =>
    let r := render ops n program lost input
    r :: renderAll n program r.2.lost inputs

end

end Llama.Jinja
