import Llama.Rpc
import Llama.Lib.Layout

/-!
# Messages of the RPC backend

The records of the protocol are packed: their fields lie one after the other, without padding.
The handlers of `RPC_CMD_SET_TENSOR` and `RPC_CMD_GRAPH_COMPUTE` get a message of any length and
read it at places that they compute from it; `readAt` is such a read.
-/

namespace Llama.Rpc

open Layout (u8 u32 u64 i32)

/-- The packed `rpc_tensor`. -/
def rpcTensor : Layout RpcTensor :=
  (u64.pair <| u32.pair <| u64.pair <| (u32.vector 4).pair <| (u32.vector 4).pair <|
    u32.pair <| (i32.vector 16).pair <| i32.pair <| (u64.vector 10).pair <| u64.pair <|
    u64.pair <| u64.pair <| (u8.vector 64).pair i32).iso
  (fun f =>
    { id := f.1
      type := f.2.1
      buffer := f.2.2.1
      ne := f.2.2.2.1
      nb := f.2.2.2.2.1
      op := f.2.2.2.2.2.1
      opParams := f.2.2.2.2.2.2.1
      flags := f.2.2.2.2.2.2.2.1
      src := f.2.2.2.2.2.2.2.2.1
      viewSrc := f.2.2.2.2.2.2.2.2.2.1
      viewOffs := f.2.2.2.2.2.2.2.2.2.2.1
      data := f.2.2.2.2.2.2.2.2.2.2.2.1
      name := f.2.2.2.2.2.2.2.2.2.2.2.2.1
      useCount := f.2.2.2.2.2.2.2.2.2.2.2.2.2 })
  (fun t => (t.id, t.type, t.buffer, t.ne, t.nb, t.op, t.opParams, t.flags, t.src, t.viewSrc,
    t.viewOffs, t.data, t.name, t.useCount))
  (fun _ => rfl)

/-- `sizeof(rpc_tensor)`. -/
lemma width_rpcTensor : rpcTensor.width = 296 := rfl

/-- The value at an offset of a message. -/
def readAt {α : Type} (l : Layout α) (input : List UInt8) (off : ℕ) : Outcome α :=
  if off + l.width ≤ input.length then .ok (l.decode ((input.drop off).take l.width))
  else .readOutside

lemma readAt_eq_ok {α : Type} {l : Layout α} {input : List UInt8} {off : ℕ}
    (h : off + l.width ≤ input.length) :
    readAt l input off = .ok (l.decode ((input.drop off).take l.width)) := if_pos h

/-- The `n` values from an offset of a message on. -/
def readMany {α : Type} (l : Layout α) (input : List UInt8) (off n : ℕ) : Outcome (List α) :=
  (List.range n).mapM fun i => readAt l input (off + i * l.width)

end Llama.Rpc
