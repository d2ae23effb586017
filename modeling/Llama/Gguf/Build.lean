import Llama.Gguf

/-!
# Building and writing a GGUF file

A `gguf_context` is built by setters for the key-value pairs and by adding tensors, whose types
and data may be changed later.  `GgufContext.write` is `gguf_write_to_buf` of the whole file.

A failed assertion is `none`.  A string that is passed as a `const char *` ends at its first NUL.
-/

namespace Llama

open Gguf (keyAlignment magic)

namespace GgufContext

/-- `gguf_init_empty`. -/
def empty : GgufContext where
  version := Gguf.ggufVersion
  kv := []
  info := []
  alignment := Gguf.defaultAlignment
  offset := 0
  size := 0
  data := none

/-! ## Key-value pairs -/

/-- `gguf_check_reserved_keys` for a value of type `uint32_t` with the bytes `val`, or of another
type. -/
def checkReservedKeys (key : List UInt8) (val : Option (List UInt8)) : Prop :=
  key = keyAlignment → ∃ bs, val = some bs ∧ 0 < Bytes.toNat bs ∧
    Bytes.toNat bs &&& (Bytes.toNat bs - 1) = 0

instance (key : List UInt8) (val : Option (List UInt8)) : Decidable (checkReservedKeys key val) :=
  match val with
  | none => decidable_of_iff (¬ key = keyAlignment) (by simp [checkReservedKeys])
  | some bs => decidable_of_iff (key = keyAlignment → 0 < Bytes.toNat bs ∧
      Bytes.toNat bs &&& (Bytes.toNat bs - 1) = 0) (by simp [checkReservedKeys])

def removeKey (ctx : GgufContext) (key : List UInt8) : GgufContext :=
  { ctx with kv := ctx.kv.eraseP fun kv => cStr key = cStr kv.key }

/-- Replace the pair with the key of `kv`; the key must not be empty. -/
def putKv (ctx : GgufContext) (kv : GgufKv) : Option GgufContext :=
  if kv.key = [] then none
  else
    let ctx := ctx.removeKey kv.key
    some { ctx with kv := ctx.kv ++ [kv] }

/-- The body of the setters of a single value, which is given by its bytes. -/
def setVal (ctx : GgufContext) (type : GgufType) (key val : List UInt8) : Option GgufContext :=
  let key := cStr key
  if checkReservedKeys key (if type = .uint32 then some val else none) then
    ctx.putKv ⟨key, false, type, val, []⟩
  else none

def setValU8 (ctx : GgufContext) := ctx.setVal .uint8

def setValI8 (ctx : GgufContext) := ctx.setVal .int8

def setValU16 (ctx : GgufContext) := ctx.setVal .uint16

def setValI16 (ctx : GgufContext) := ctx.setVal .int16

def setValU32 (ctx : GgufContext) := ctx.setVal .uint32

def setValI32 (ctx : GgufContext) := ctx.setVal .int32

def setValF32 (ctx : GgufContext) := ctx.setVal .float32

def setValU64 (ctx : GgufContext) := ctx.setVal .uint64

def setValI64 (ctx : GgufContext) := ctx.setVal .int64

def setValF64 (ctx : GgufContext) := ctx.setVal .float64

def setValBool (ctx : GgufContext) := ctx.setVal .bool

def setValStr (ctx : GgufContext) (key val : List UInt8) : Option GgufContext :=
  let key := cStr key
  if checkReservedKeys key none then ctx.putKv ⟨key, false, .string, [], [cStr val]⟩ else none

/-- `gguf_set_arr_data` of `n` elements.  The types without a size fail in a division by zero. -/
def setArrData (ctx : GgufContext) (key : List UInt8) (type : GgufType) (data : List UInt8)
    (n : ℕ) : Option GgufContext :=
  let key := cStr key
  if checkReservedKeys key none ∧ type.size ≠ 0 then
    ctx.putKv ⟨key, true, type, data.take (n * type.size), []⟩
  else none

def setArrStr (ctx : GgufContext) (key : List UInt8) (data : List (List UInt8)) :
    Option GgufContext :=
  let key := cStr key
  if checkReservedKeys key none then ctx.putKv ⟨key, true, .string, [], data.map cStr⟩ else none

/-- The setter of single values of a type. -/
def setScalar (ctx : GgufContext) (key val : List UInt8) : GgufType → Option GgufContext
  | .uint8 => ctx.setValU8 key val
  | .int8 => ctx.setValI8 key val
  | .uint16 => ctx.setValU16 key val
  | .int16 => ctx.setValI16 key val
  | .uint32 => ctx.setValU32 key val
  | .int32 => ctx.setValI32 key val
  | .float32 => ctx.setValF32 key val
  | .uint64 => ctx.setValU64 key val
  | .int64 => ctx.setValI64 key val
  | .float64 => ctx.setValF64 key val
  | .bool => ctx.setValBool key val
  | .string => none
  | .array => none

end GgufContext

def GgufKv.getNe (kv : GgufKv) : Option ℕ :=
  if kv.type = .string then
    if kv.isArray ∨ kv.dataString.length = 1 then some kv.dataString.length else none
  else if kv.type.size ≠ 0 ∧ kv.data.length % kv.type.size = 0 ∧
      (kv.isArray ∨ kv.data.length / kv.type.size = 1) then
    some (kv.data.length / kv.type.size)
  else none

namespace GgufContext

/-- One pair of `gguf_set_kv`. -/
def setKvOne (ctx : GgufContext) (kv : GgufKv) : Option GgufContext :=
  if kv.isArray then do
    let ne ← kv.getNe
    match kv.type with
    | .string => ctx.setArrStr kv.key kv.dataString
    | .array => none
    | type => ctx.setArrData kv.key type kv.data ne
  else
    match kv.type with
    | .string => do
      let val ← kv.dataString.head?
      ctx.setValStr kv.key val
    | type => ctx.setScalar kv.key kv.data type

/-- `gguf_set_kv`. -/
def setKv (ctx src : GgufContext) : Option GgufContext := src.kv.foldlM setKvOne ctx

/-! ## Tensors -/

/-- The offset of a tensor behind `t`. -/
def nextOffset (alignment : ℕ) (t : GgufTensor) : ℕ :=
  addSize t.offset (ggmlPad t.nbytes alignment)

def addTensor (ctx : GgufContext) (t : GgufTensor) : Option GgufContext :=
  if ∃ ti ∈ ctx.info, t.name = ti.name then none
  else
    let offset := (ctx.info.getLast?.map (nextOffset ctx.alignment)).getD 0
    some { ctx with info := ctx.info ++ [{ t with offset := offset }] }

/-- `gguf_find_tensor`: the tensors before the one with the name, it, and those behind it. -/
def findTensor (name : List UInt8) :
    List GgufTensor → Option (List GgufTensor × GgufTensor × List GgufTensor)
  | [] => none
  | t :: ts =>
    if cStr name = t.name then some ([], t, ts)
    else (findTensor name ts).map fun r => (t :: r.1, r.2)

/-- The loop that updates the offsets behind `prev`. -/
def updateOffsets (alignment : ℕ) (prev : GgufTensor) : List GgufTensor → List GgufTensor
  | [] => []
  | t :: ts =>
    let t := { t with offset := nextOffset alignment prev }
    t :: updateOffsets alignment t ts

/-- `gguf_set_tensor_type`.  A type that was removed fails in a division by zero. -/
def setTensorType (ctx : GgufContext) (name : List UInt8) (type : GgmlType) :
    Option GgufContext := do
  let (pre, t, post) ← findTensor name ctx.info
  if type.blckSize = 0 ∨ t.ne0.tmod type.blckSize ≠ 0 then none
  else
    let t := { t with type := type }.withStrides
    some { ctx with info := pre ++ t :: updateOffsets ctx.alignment t post }

def setTensorData (ctx : GgufContext) (name : List UInt8) (data : Option (List UInt8)) :
    Option GgufContext := do
  let (pre, t, post) ← findTensor name ctx.info
  some { ctx with info := pre ++ { t with data := data } :: post }

end GgufContext

/-! ## Writing -/

/-- `ggml_n_dims`. -/
def GgufTensor.nDims (t : GgufTensor) : ℕ :=
  if 1 < t.ne3 then 4 else if 1 < t.ne2 then 3 else if 1 < t.ne1 then 2 else 1

def GgufTensor.isContiguous (t : GgufTensor) : Bool :=
  let blck := t.type.blckSize
  let next0 := t.type.typeSize
  let next1 := mulSize next0 (toSize (t.ne0.tdiv blck))
  let next2 := mulSize next1 (toSize t.ne1)
  let next3 := mulSize next2 (toSize t.ne2)
  (t.ne0 = blck ∨ t.nb0 = next0) ∧ (t.ne1 = 1 ∨ t.nb1 = next1) ∧ (t.ne2 = 1 ∨ t.nb2 = next2) ∧
    (t.ne3 = 1 ∨ t.nb3 = next3)

namespace Gguf

/-- Write a string. -/
def writeString (s : List UInt8) : List UInt8 := Bytes.ofNat 8 s.length ++ s

/-- Write the bytes of `bool` values. -/
def writeBools (data : List UInt8) : List UInt8 := data.map fun b => if b = 0 then 0 else 1

/-- Write the values of a pair. -/
def writeValues (kv : GgufKv) : List UInt8 :=
  match kv.type with
  | .string => kv.dataString.flatMap writeString
  | .bool => writeBools kv.data
  | _ => kv.data

/-- Write a key-value pair. -/
def writeKv (kv : GgufKv) : Option (List UInt8) := do
  let ne ← kv.getNe
  if kv.type = .array then none
  else some (writeString kv.key ++
    (if kv.isArray then Bytes.ofInt32 GgufType.array.toInt ++ Bytes.ofInt32 kv.type.toInt ++
      Bytes.ofNat 8 ne else Bytes.ofInt32 kv.type.toInt) ++ writeValues kv)

def writeTensorMeta (t : GgufTensor) : List UInt8 :=
  writeString t.name ++ Bytes.ofNat 4 t.nDims ++
    ([t.ne0, t.ne1, t.ne2, t.ne3].take t.nDims).flatMap Bytes.ofInt64 ++
    Bytes.ofInt32 (t.type : ℕ) ++ Bytes.ofNat 8 t.offset

/-- `pad`: append zeros up to the alignment. -/
def pad (buf : List UInt8) (alignment : ℕ) : List UInt8 :=
  buf ++ List.replicate ((alignment - buf.length % alignment) % alignment) 0

/-- `write_tensor_data` for a data section that starts at `offsetData`. -/
def writeTensorData (offsetData alignment : ℕ) (buf : List UInt8) (t : GgufTensor) :
    Option (List UInt8) := do
  if buf.length - offsetData ≠ t.offset ∨ t.isContiguous = false then none
  else
    let data ← t.data
    if data.length < t.nbytes then none
    else some (pad (buf ++ data.take t.nbytes) alignment)

end Gguf

open Gguf in
/-- The bytes before the data section. -/
def GgufContext.writeMeta (ctx : GgufContext) : Option (List UInt8) := do
  let kvs ← ctx.kv.mapM writeKv
  some (magic ++ Bytes.ofNat 4 ctx.version ++ Bytes.ofInt64 ctx.info.length ++
    Bytes.ofInt64 ctx.kv.length ++ kvs.flatten ++ ctx.info.flatMap writeTensorMeta)

/-- `gguf_write_to_buf`, into an empty buffer and not only the metadata.  It is undefined where
less memory can be read than a tensor has bytes. -/
def GgufContext.write (ctx : GgufContext) : Option (List UInt8) := do
  let head ← ctx.writeMeta
  let buf := Gguf.pad head ctx.alignment
  ctx.info.foldlM (Gguf.writeTensorData buf.length ctx.alignment) buf

end Llama
