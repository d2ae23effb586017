import Llama.Rpc.Message
import Llama.Lib.Probing

/-!
# Graphs of the RPC server

`rpc_server::graph_compute` reads a graph from its message: the ids of the nodes and the records of
all tensors.  `create_node` makes the tensor of an id together with everything that it refers to.
It puts a tensor in a map before it makes what the tensor refers to, so that records that refer to
each other do not make it run for ever.

The address of a tensor decides where it is in the visited set; `hash` is its hash.
-/

namespace Llama.Rpc

open Layout (u32 u64)

/-! ## Graphs -/

/-- `ggml_cgraph`: the nodes, the keys of the visited set, and the use counts, which are indexed
by the slots of the set. -/
structure Cgraph (π : Type) where
  nodes : List (Option π)
  visited : List (Option π)
  useCounts : List Int32
  deriving DecidableEq, Repr

/-- The use count of a tensor, as `ggml_node_get_use_count` finds it. -/
def Cgraph.useCount {π : Type} [DecidableEq π] (hash : π → ℕ) (g : Cgraph π) (p : π) : Int32 :=
  match Probing.find g.visited (hash p) p with
  | none => 0
  | some i => if g.visited[i]? = some (some p) then g.useCounts[i]?.getD 0 else 0

/-- `ggml_hash_size`: the smallest prime of a table that is not below `minSz`. -/
def ggmlHashSize (minSz : ℕ) : ℕ :=
  let primes :=
    [2, 3, 5, 11, 17, 37, 67, 131, 257, 521, 1031, 2053, 4099, 8209, 16411, 32771, 65537, 131101,
      262147, 524309, 1048583, 2097169, 4194319, 8388617, 16777259, 33554467, 67108879, 134217757,
      268435459, 536870923, 1073741827, 2147483659]
  (primes.find? fun p => minSz ≤ p).getD (minSz ||| 1)

/-- `GGML_HASHSET_ALREADY_EXISTS`: `(size_t) -2`. -/
def alreadyExists : ℕ := 2 ^ 64 - 2

namespace Cgraph

variable (hash : ℕ → ℕ)

/-- `ggml_hash_insert`: the slot of a new key, a sentinel for a key that is there already; a full
set stops the server. -/
def hashInsert (g : Cgraph ℕ) (p : ℕ) : Outcome (ℕ × Cgraph ℕ) :=
  match Probing.find g.visited (hash p) p with
  | none => .aborted
  | some i =>
    if g.visited[i]? = some (some p) then .ok (alreadyExists, g)
    else .ok (i, { g with visited := g.visited.set i (some p) })

/-- Write a use count. -/
def setUseCount (g : Cgraph ℕ) (i : ℕ) (count : Int32) : Outcome (Cgraph ℕ) :=
  if i < g.useCounts.length then .ok { g with useCounts := g.useCounts.set i count }
  else .wroteOutside

end Cgraph

/-! ## References -/

/-- A pointer to a tensor in a tensor: a source, or the tensor of which it is a view. -/
inductive Slot
  | src (i : Fin 10)
  | view
  deriving DecidableEq, Repr

/-- The references in the order in which they are resolved. -/
def Slot.all : List Slot := (List.finRange 10).map Slot.src ++ [Slot.view]

lemma Slot.mem_all (s : Slot) : s ∈ Slot.all := by
  cases s <;> simp [Slot.all]

/-- The id at a reference of a record. -/
def RpcTensor.ref (t : RpcTensor) : Slot → UInt64
  | .src i => t.src[i]
  | .view => t.viewSrc

namespace GgmlTensor

variable {β π : Type}

/-- The pointer at a reference of a tensor. -/
def ref (t : GgmlTensor β π) : Slot → Option π
  | .src i => t.src[i]
  | .view => t.viewSrc

/-- Change the pointer at a reference. -/
def setRef (t : GgmlTensor β π) (s : Slot) (p : Option π) : GgmlTensor β π :=
  match s with
  | .src i => { t with src := t.src.set i p }
  | .view => { t with viewSrc := p }

end GgmlTensor

/-- The tensors of a graph: the nodes and everything to which they refer. -/
inductive Reaches {β π : Type} (nodes : List (Option π)) (mem : π → Option (GgmlTensor β π)) :
    π → Prop
  | node {p : π} (h : some p ∈ nodes) : Reaches nodes mem p
  | ref {p q : π} {r : GgmlTensor β π} {s : Slot} (hp : Reaches nodes mem p)
      (hr : mem p = some r) (hq : r.ref s = some q) : Reaches nodes mem q

/-- The context in which the tensors are made, and `tensor_map`. -/
structure Build where
  ctx : Context
  map : List (UInt64 × ℕ)
  deriving DecidableEq, Repr

/-- Change a tensor. -/
def Build.modify (b : Build) (p : ℕ) (f : GgmlTensor Buffer ℕ → GgmlTensor Buffer ℕ) : Build :=
  { b with ctx := b.ctx.modify p f }

/-- The loop of `rpc_server::create_node` over the references of tensor `p`.  An id of zero is the
null pointer; where another id gives the null pointer, the loop ends with `false`. -/
def linkAll (create : UInt64 → Build → Outcome (Option ℕ × Build)) (t : RpcTensor) (p : ℕ) :
    List Slot → Build → Outcome (Bool × Build)
  | [], b => .ok (true, b)
  | s :: slots, b =>
    if t.ref s = 0 then linkAll create t p slots (b.modify p fun r => r.setRef s none)
    else do
      let made ← create (t.ref s) b
      let b := made.2.modify p fun r => r.setRef s made.1
      if made.1 = none then return (false, b) else linkAll create t p slots b

/-- `rpc_server::create_node`; `none` is the null pointer.  Of the records with one id only the
first is in `tensor_ptrs`. -/
def createNode (buffers : List Buffer) (recs : List RpcTensor) :
    ℕ → UInt64 → Build → Outcome (Option ℕ × Build)
  | 0, _, _ => .outOfFuel
  | fuel + 1, id, b =>
    match b.map.lookup id with
    | some p => .ok (some p, b)
    | none =>
      match recs.find? fun t => t.id = id with
      | none => .ok (none, b)
      | some t => do
        match ← deserializeTensor buffers t with
        | none => return (none, b)
        | some result =>
          let new ← b.ctx.newTensor result
          -- a pointer into no buffer of the server
          if result.buffer = none ∧ result.data ≠ 0 then return (none, { b with ctx := new.2 })
          else
            let linked ← linkAll (createNode buffers recs fuel) t new.1 Slot.all
              { ctx := new.2, map := (id, new.1) :: b.map }
            if linked.1 then
              return (some new.1, linked.2.modify new.1 fun r => { r with viewOffs := t.viewOffs })
            else return (none, linked.2)

/-- What a message of `RPC_CMD_GRAPH_COMPUTE` holds. -/
structure GraphMsg where
  device : UInt32
  nodes : List UInt64
  tensors : List RpcTensor
  deriving DecidableEq, Repr

/-- The message with these nodes and records: the device, the number of nodes, the nodes, the number
of tensors and the tensors. -/
def graphBytes (device : UInt32) (nodes : List UInt64) (tensors : List RpcTensor) : List UInt8 :=
  u32.encode device ++ (u32.encode (UInt32.ofNat nodes.length) ++ (u64.many nodes ++
    (u32.encode (UInt32.ofNat tensors.length) ++ rpcTensor.many tensors)))

/-- The checks and reads of `rpc_server::graph_compute`.  The sizes are those of 32-bit numbers of
records and do not wrap. -/
def parseGraph (nBackends : ℕ) (input : List UInt8) : Outcome GraphMsg := do
  Outcome.refuseIf (input.length < 8)
  let device ← readAt u32 input 0
  Outcome.refuseIf (nBackends ≤ device.toNat)
  let nNodes ← readAt u32 input 4
  Outcome.refuseIf (input.length < 8 + nNodes.toNat * 8 + 4)
  let nTensors ← readAt u32 input (8 + nNodes.toNat * 8)
  Outcome.refuseIf (input.length < 8 + nNodes.toNat * 8 + 4 + nTensors.toNat * 296)
  let tensors ← readMany rpcTensor input (8 + nNodes.toNat * 8 + 4) nTensors.toNat
  let nodes ← readMany u64 input 8 nNodes.toNat
  return { device := device, nodes := nodes, tensors := tensors }

/-- A context with tensors, and a graph of them: `rpc_server::stored_graph`. -/
structure StoredGraph where
  ctx : Context
  graph : Cgraph ℕ
  deriving DecidableEq, Repr

namespace StoredGraph

/-- The tensor at a pointer. -/
def mem (g : StoredGraph) (p : ℕ) : Option (GgmlTensor Buffer ℕ) := g.ctx.tensors[p]?

/-- The buffers of a graph are among `buffers`. -/
def Live (buffers : List Buffer) (g : StoredGraph) : Prop :=
  ∀ p r b, Reaches g.graph.nodes g.mem p → g.mem p = some r → r.buffer = some b → b ∈ buffers

end StoredGraph

/-- The loop of `rpc_server::graph_compute` over the ids of the nodes.  A null pointer is let
through when the id is zero. -/
def addNodes (hash : ℕ → ℕ) (buffers : List Buffer) (recs : List RpcTensor) :
    List UInt64 → Build → Cgraph ℕ → Outcome (Build × Cgraph ℕ)
  | [], b, g => .ok (b, g)
  | id :: ids, b, g => do
    let made ← createNode buffers recs (recs.length + 1) id b
    let g := { g with nodes := g.nodes ++ [made.1] }
    match made.1 with
    | none => if id ≠ 0 then .refused else addNodes hash buffers recs ids made.2 g
    | some p =>
      match recs.find? fun t => t.id = id with
      | none => .aborted
      | some t => do
        let inserted ← g.hashInsert hash p
        let g ← inserted.2.setUseCount inserted.1 t.useCount
        addNodes hash buffers recs ids made.2 g

/-- The graph of a message.  The memory of the context is for the 32-bit sum of the numbers of
nodes and of tensors. -/
def buildGraph (hash : ℕ → ℕ) (buffers : List Buffer) (m : GraphMsg) : Outcome StoredGraph := do
  let capacity := (UInt32.ofNat m.nodes.length + UInt32.ofNat m.tensors.length).toNat
  let size := ggmlHashSize (m.nodes.length * 2)
  let built ← addNodes hash buffers m.tensors m.nodes
    { ctx := { tensors := [], capacity := capacity }, map := [] }
    { nodes := [], visited := List.replicate size none, useCounts := List.replicate size 0 }
  return { ctx := built.1.ctx, graph := built.2 }

end Llama.Rpc
