import Llama.Rpc.Graph

/-!
# Graphs of the RPC client

`serialize_graph` writes a graph of the client as a message of `RPC_CMD_GRAPH_COMPUTE`.
`add_tensor` visits everything that the nodes refer to, depth first, and writes a record for each
tensor after those that it refers to.  The id of a tensor is its address.

A record has 32 bits for a dimension and for a stride, where a tensor has 64, and the size of the
message is an `int`.
-/

namespace Llama.Rpc

/-! ## Tensors -/

/-- The address of a tensor of the client, which is not null. -/
abbrev Address : Type := {a : UInt64 // a ≠ 0}

/-- A pointer to a tensor as a number. -/
def Address.ofPtr : Option Address → UInt64
  | none => 0
  | some a => a.val

/-- A buffer of the client: one of the server with its `remote_ptr`, or another one. -/
inductive ClientBuffer
  | rpc (remotePtr : UInt64)
  | other
  deriving DecidableEq, Repr

/-- A tensor of the client. -/
abbrev ClientTensor : Type := GgmlTensor ClientBuffer Address

/-- The record of a null pointer. -/
def RpcTensor.zero : RpcTensor where
  id := 0
  type := 0
  buffer := 0
  ne := Vector.replicate 4 0
  nb := Vector.replicate 4 0
  op := 0
  opParams := Vector.replicate 16 0
  flags := 0
  src := Vector.replicate 10 0
  viewSrc := 0
  viewOffs := 0
  data := 0
  name := Vector.replicate 64 0
  useCount := 0

/-- `remote_ptr` of the buffer of a tensor and its data, or zeros for a tensor that is in no buffer
of the server. -/
def ClientTensor.place (t : ClientTensor) : UInt64 × UInt64 :=
  match t.buffer with
  | some (.rpc remotePtr) => (remotePtr, t.data)
  | _ => (0, 0)

/-- `serialize_tensor`.  The name is written by `snprintf` into zeros. -/
def serializeTensor : Option (Address × ClientTensor) → RpcTensor
  | none => .zero
  | some (a, t) =>
    { id := a.val
      type := UInt32.ofNat t.type
      buffer := t.place.1
      ne := t.ne.map fun n => n.toUInt64.toUInt32
      nb := t.nb.map UInt64.toUInt32
      op := t.op
      opParams := t.opParams
      flags := t.flags
      src := t.src.map Address.ofPtr
      viewSrc := Address.ofPtr t.viewSrc
      viewOffs := t.viewOffs
      data := t.place.2
      name := RpcTensor.setName t.name
      useCount := 0 }

/-- A graph of the client with the tensors in memory.  Its nodes are distinct, their number is an
`int`, and no pointer that is reached from them dangles. -/
structure ClientGraph where
  heap : List (Address × ClientTensor)
  graph : Cgraph Address
  nonnull : none ∉ graph.nodes
  nodup : graph.nodes.Nodup
  length_lt : graph.nodes.length < 2 ^ 31
  closed : ∀ p, Reaches graph.nodes (fun a => heap.lookup a) p → ∃ t, heap.lookup p = some t

namespace ClientGraph

/-- The tensor at an address. -/
def mem (c : ClientGraph) (a : Address) : Option ClientTensor := c.heap.lookup a

/-- A tensor is a node, or a node refers to it. -/
def Reached (c : ClientGraph) (a : Address) : Prop := Reaches c.graph.nodes c.mem a

end ClientGraph

/-- The records so far and the tensors that were visited. -/
structure Flat where
  tensors : List RpcTensor
  visited : List Address
  deriving DecidableEq, Repr

namespace ClientGraph

variable (hash : Address → ℕ) (c : ClientGraph)

/-- The record of a tensor of the graph, with its use count. -/
def record (a : Address) (t : ClientTensor) : RpcTensor :=
  { serializeTensor (some (a, t)) with useCount := c.graph.useCount hash a }

def addTensor : ℕ → Option Address → Flat → Outcome Flat
  | 0, _, _ => .outOfFuel
  | _ + 1, none, f => .ok f
  | fuel + 1, some a, f =>
    if a ∈ f.visited then .ok f
    else
      match c.mem a with
      | none => .readOutside
      | some t => do
        let f ← (Slot.all.map t.ref).foldlM (fun f p => addTensor fuel p f)
          { f with visited := a :: f.visited }
        return { f with tensors := f.tensors ++ [c.record hash a t] }

/-- The records of all tensors. -/
def addTensors : Outcome Flat :=
  c.graph.nodes.foldlM (fun f p => c.addTensor hash (c.heap.length + 1) p f)
    { tensors := [], visited := [] }

end ClientGraph

/-- `output_size`, an `int`. -/
def outputSize (nNodes nTensors : UInt32) : Int32 :=
  (2 * 4 + nNodes.toUInt64 * 8 + 4 + nTensors.toUInt64 * 296).toUInt32.toInt32

/-- `serialize_graph`.  A negative size is too long for a vector, and a size that is too small does
not have room for what is written. -/
def serializeGraph (hash : Address → ℕ) (device : UInt32) (c : ClientGraph) :
    Outcome (List UInt8) := do
  let f ← c.addTensors hash
  let nTensors := UInt32.ofNat f.tensors.length
  let size := outputSize (UInt32.ofNat c.graph.nodes.length) nTensors
  Outcome.require (0 ≤ size)
  let bytes := graphBytes device (c.graph.nodes.map Address.ofPtr)
    (f.tensors.take nTensors.toNat)
  if bytes.length ≤ size.toNatClampNeg then
    return bytes ++ List.replicate (size.toNatClampNeg - bytes.length) 0
  else .wroteOutside

end Llama.Rpc
