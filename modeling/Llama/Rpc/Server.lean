import Llama.Rpc.Graph
import Llama.Lib.Run

/-!
# The RPC server

`rpc_serve_client` serves one connection: it handles one command after the other and ends with the
first one that is refused.  The server knows the buffers that it has allocated for the client and
the last graph of each device.

A buffer is allocated by the backend and a cached file is read from a disk; a command here carries
what they give.  What a command does to the memory of the buffers is a list of accesses, those of
the CPU backend.
-/

namespace Llama.Rpc

open Layout (u64)

/-- `rpc_server`: the buffers of the client and the last graph of each device. -/
structure Server where
  buffers : List Buffer
  storedGraphs : List (Option StoredGraph)
  deriving DecidableEq, Repr

/-- `size` bytes of memory from the address `lo` on. -/
structure Access where
  lo : UInt64
  size : UInt64
  deriving DecidableEq, Repr

/-- What a command that is carried out leaves: the server, the accesses to memory, and the graph
that a backend ran. -/
structure Reply where
  server : Server
  accesses : List Access
  ran : Option StoredGraph
  deriving DecidableEq, Repr

/-- The commands, with the fields of their requests. -/
inductive Cmd
  | hello
  | deviceCount
  /-- `GET_ALIGNMENT`, `GET_MAX_SIZE` and `GET_DEVICE_MEMORY`. -/
  | deviceQuery (device : UInt32)
  /-- `ALLOC_BUFFER`, with the buffer of the backend. -/
  | allocBuffer (device : UInt32) (size : UInt64) (buffer : Option Buffer)
  | bufferGetBase (remotePtr : UInt64)
  | freeBuffer (remotePtr : UInt64)
  | bufferClear (remotePtr : UInt64)
  | memsetTensor (tensor : RpcTensor) (offset size : UInt64)
  | setTensor (input : List UInt8)
  /-- `SET_TENSOR_HASH`, with the size of the cached file. -/
  | setTensorHash (tensor : RpcTensor) (offset : UInt64) (cached : Option UInt64)
  | initTensor (tensor : RpcTensor)
  | getTensor (tensor : RpcTensor) (offset size : UInt64)
  | copyTensor (src dst : RpcTensor)
  | getAllocSize (device : UInt32) (tensor : RpcTensor) (srcs : Vector RpcTensor 10)
  | graphCompute (input : List UInt8)
  | graphRecompute (device : UInt32)
  deriving DecidableEq, Repr

namespace Server

/-- The server of a new connection. -/
def init (nBackends : ℕ) : Server :=
  { buffers := [], storedGraphs := List.replicate nBackends none }

/-- A command that is carried out without accesses to memory. -/
def done (s : Server) : Reply := { server := s, accesses := [], ran := none }

/-- The buffer at an address, if the server has it. -/
def findBuffer (s : Server) (remotePtr : UInt64) : Option Buffer :=
  s.buffers.find? fun b => b.ptr = remotePtr

/-! ## Accesses to tensors -/

/-- A tensor of a record and its buffer; a null pointer and a tensor without a buffer are
refused. -/
def bufferedTensor (s : Server) (t : RpcTensor) : Outcome (GgmlTensor Buffer ℕ × Buffer) := do
  match ← deserializeTensor s.buffers t with
  | none => .refused
  | some r =>
    match r.buffer with
    | none => .refused
    | some b => return (r, b)

/-- `ggml_backend_tensor_set`, `ggml_backend_tensor_get` and `ggml_backend_tensor_memset`. -/
def tensorAccess (t : GgmlTensor Buffer ℕ) (offset size : UInt64) : Outcome (List Access) :=
  if size = 0 then .ok []
  else do
    Outcome.require (t.data ≠ 0)
    Outcome.require (offset + size ≤ t.nbytes)
    return [{ lo := t.data + offset, size := size }]

/-- The check of `set_tensor`, `set_tensor_hash` and `get_tensor`: the region is not in the
buffer. -/
def OutOfBounds (data offset size : UInt64) (b : Buffer) : Prop :=
  data + offset < b.base ∨ b.base + b.size ≤ data + offset ∨ b.base + b.size - data - offset < size

instance (data offset size : UInt64) (b : Buffer) : Decidable (OutOfBounds data offset size b) :=
  inferInstanceAs (Decidable (_ ∨ _))

/-- The common part of `set_tensor`, `set_tensor_hash` and `get_tensor`. -/
def regionAccess (s : Server) (t : RpcTensor) (offset size : UInt64) : Outcome Reply := do
  let r ← s.bufferedTensor t
  Outcome.refuseIf (OutOfBounds t.data offset size r.2)
  let accesses ← tensorAccess r.1 offset size
  return { server := s, accesses := accesses, ran := none }

def setTensor (s : Server) (input : List UInt8) : Outcome Reply := do
  Outcome.refuseIf (input.length < 296 + 8)
  let t ← readAt rpcTensor input 0
  let offset ← readAt u64 input 296
  s.regionAccess t offset (UInt64.ofNat (input.length - 296 - 8))

def setTensorHash (s : Server) (t : RpcTensor) (offset : UInt64) (cached : Option UInt64) :
    Outcome Reply :=
  match cached with
  | none => .ok s.done
  | some size => s.regionAccess t offset size

def getTensor (s : Server) (t : RpcTensor) (offset size : UInt64) : Outcome Reply :=
  s.regionAccess t offset size

def memsetTensor (s : Server) (t : RpcTensor) (offset size : UInt64) : Outcome Reply := do
  let r ← s.bufferedTensor t
  Outcome.refuseIf (r.1.nbytes < offset ∨ r.1.nbytes - offset < size)
  Outcome.refuseIf (t.data < r.2.base)
  let dataOffset := t.data - r.2.base
  Outcome.refuseIf (r.2.size < dataOffset ∨ r.2.size - dataOffset < offset ∨
    r.2.size - dataOffset - offset < size)
  -- a buffer without bytes has no functions
  Outcome.refuseIf (r.2.size = 0)
  let accesses ← tensorAccess r.1 offset size
  return { server := s, accesses := accesses, ran := none }

def copyTensor (s : Server) (src dst : RpcTensor) : Outcome Reply := do
  let rs ← deserializeTensor s.buffers src
  let rd ← deserializeTensor s.buffers dst
  match rs, rd with
  | some src, some dst =>
    match src.buffer, dst.buffer with
    | some _, some b => do
      Outcome.refuseIf (b.base + b.size < dst.data + src.nbytes)
      -- a buffer without bytes has no functions
      if b.size = 0 then return s.done
      else
        return { server := s, ran := none, accesses := [{ lo := src.data, size := src.nbytes },
                   { lo := dst.data, size := src.nbytes }] }
    | _, _ => .refused
  | _, _ => .refused

/-! ## The other handlers -/

def allocBuffer (s : Server) (device : UInt32) (buffer : Option Buffer) : Outcome Reply := do
  Outcome.refuseIf (s.storedGraphs.length ≤ device.toNat)
  return { s with buffers := buffer.toList ++ s.buffers : Server }.done

def freeBuffer (s : Server) (remotePtr : UInt64) : Outcome Reply := do
  Outcome.refuseIf (s.findBuffer remotePtr = none)
  return { s with buffers := s.buffers.filter fun b => b.ptr ≠ remotePtr : Server }.done

def bufferClear (s : Server) (remotePtr : UInt64) : Outcome Reply :=
  match s.findBuffer remotePtr with
  | none => .refused
  | some b => .ok { server := s, accesses := [{ lo := b.base, size := b.size }], ran := none }

/-- `rpc_server::init_tensor`; the tensors of the CPU backend need no initialization. -/
def initTensor (s : Server) (t : RpcTensor) : Outcome Reply := do
  let r ← deserializeTensor s.buffers t
  Outcome.refuseIf (r = none)
  return s.done

def getAllocSize (s : Server) (device : UInt32) (t : RpcTensor) (srcs : Vector RpcTensor 10) :
    Outcome Reply := do
  Outcome.refuseIf (s.storedGraphs.length ≤ device.toNat)
  let r ← deserializeTensor s.buffers t
  Outcome.refuseIf (r = none)
  let _ ← (srcs.toList.filter fun t => t.id ≠ 0).mapM (deserializeTensor s.buffers)
  return s.done

/-- `rpc_server::graph_compute`.  A computation that fails stops the server. -/
def graphCompute (hash : ℕ → ℕ) (s : Server) (input : List UInt8) : Outcome Reply := do
  let m ← parseGraph s.storedGraphs.length input
  let stored ← buildGraph hash s.buffers m
  return { server := { s with storedGraphs := s.storedGraphs.set m.device.toNat (some stored) }
           accesses := []
           ran := some stored }

def graphRecompute (s : Server) (device : UInt32) : Outcome Reply := do
  Outcome.refuseIf (s.storedGraphs.length ≤ device.toNat)
  match s.storedGraphs[device.toNat]?.join with
  | none => .refused
  | some stored => return { server := s, accesses := [], ran := some stored }

/-- The handling of one command. -/
def serve (hash : ℕ → ℕ) (s : Server) : Cmd → Outcome Reply
  | .hello => .refused
  | .deviceCount => .ok s.done
  | .deviceQuery device => do
    Outcome.refuseIf (s.storedGraphs.length ≤ device.toNat)
    return s.done
  | .allocBuffer device _ buffer => s.allocBuffer device buffer
  | .bufferGetBase remotePtr => do
    Outcome.refuseIf (s.findBuffer remotePtr = none)
    return s.done
  | .freeBuffer remotePtr => s.freeBuffer remotePtr
  | .bufferClear remotePtr => s.bufferClear remotePtr
  | .memsetTensor t offset size => s.memsetTensor t offset size
  | .setTensor input => s.setTensor input
  | .setTensorHash t offset cached => s.setTensorHash t offset cached
  | .initTensor t => s.initTensor t
  | .getTensor t offset size => s.getTensor t offset size
  | .copyTensor src dst => s.copyTensor src dst
  | .getAllocSize device t srcs => s.getAllocSize device t srcs
  | .graphCompute input => s.graphCompute hash input
  | .graphRecompute device => s.graphRecompute device

/-- The server after a command; the connection ends with a command that is not carried out. -/
def step (hash : ℕ → ℕ) (s : Server) (cmd : Cmd) : Option Server :=
  (s.serve hash cmd).toOption.map Reply.server

end Server

end Llama.Rpc
