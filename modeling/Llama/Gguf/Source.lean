import Llama.Gguf
import Llama.Lib.Simulate

/-!
# Where a GGUF file is read from

`gguf_reader` gets its bytes from a callback, a chunk at a time, and keeps its offset and the number
of bytes that remain.  `gguf_init_from_reader` is written here over what it does with a
`gguf_reader`; with a reader of bytes it is `Gguf.initFromReader`.  A buffer, a file and a callback
of the caller are three ways to set up a `gguf_reader`.
-/

namespace Llama

/-- What `gguf_init_from_reader` does with a `gguf_reader`: refuse the file, read bytes, test how
many remain, and move in the file. -/
class GgufReader (m : Type → Type) extends Monad m where
  refuse {α : Type} : m α
  read : ℕ → m (List UInt8)
  needs : ℕ → m Unit
  tell : m ℕ
  seek : ℕ → m Unit

instance : GgufReader Gguf.Read where
  refuse := Reader.throw
  read := Reader.read
  needs := Reader.needs
  tell := Gguf.tell
  seek := Gguf.seek

namespace GgufReader

variable {m : Type → Type} [GgufReader m]

/-- Refuse the file when `c` holds. -/
def refuseIf (c : Prop) [Decidable c] : m Unit := if c then refuse else pure ()

/-- Read `n` values. -/
def readMany {α : Type} : ℕ → m α → m (List α)
  | 0, _ => return []
  | n + 1, r => do
    let a ← r
    let as ← readMany n r
    return a :: as

def readU32 : m ℕ := do
  let bs ← read 4
  return Bytes.toNat bs

def readU64 : m ℕ := do
  let bs ← read 8
  return Bytes.toNat bs

def readI32 : m ℤ := do
  let bs ← read 4
  return Bytes.toInt32 bs

def readI64 : m ℤ := do
  let bs ← read 8
  return Bytes.toInt64 bs

/-- `gguf_reader::read` of a string. -/
def readString : m (List UInt8) := do
  let size ← readU64
  refuseIf (Gguf.maxLength < size)
  read size

/-- One value of a type that is not a string. -/
def readScalar (t : GgufType) : m (List UInt8) := do
  let bs ← read t.size
  return if t = .bool then [if bs = [0] then 0 else 1] else bs

/-- `gguf_reader::read` of a `std::vector` of a type that is not a string. -/
def readScalars (t : GgufType) (n : ℕ) : m (List UInt8) := do
  refuseIf (Gguf.maxLength < n)
  needs (n * t.size)
  let values ← readMany n (readScalar t)
  return values.flatten

/-- `gguf_reader::read` of a `std::vector` of strings. -/
def readStrings (n : ℕ) : m (List (List UInt8)) := do
  refuseIf (Gguf.maxLength < n)
  needs (n * 8)
  readMany n readString

def readStringValue (isArray : Bool) (n : ℕ) : m (List (List UInt8)) :=
  if isArray then readStrings n else readMany 1 readString

def readScalarValue (t : GgufType) (isArray : Bool) (n : ℕ) : m (List UInt8) :=
  if isArray then readScalars t n else readScalar t

/-- `gguf_read_emplace_helper`. -/
def readEmplace (key : List UInt8) (isArray : Bool) (t : GgufType) (n : ℕ) : m GgufKv :=
  if t = .string then do
    let values ← readStringValue isArray n
    return ⟨key, isArray, t, [], values⟩
  else do
    let data ← readScalarValue t isArray n
    return ⟨key, isArray, t, data, []⟩

/-- Whether a value is an array, the type and the number of its elements. -/
def readType : m (Bool × ℤ × ℕ) := do
  let type ← readI32
  if type = GgufType.array.toInt then
    let type ← readI32
    let n ← readU64
    return (true, type, n)
  else
    return (false, type, 1)

/-- One key-value pair behind the pairs `kvs`. -/
def readKv (kvs : List GgufKv) : m GgufKv := do
  let key ← readString
  refuseIf (key = [])
  refuseIf (∃ kv ∈ kvs, key = kv.key)
  let type ← readType
  match GgufType.ofInt type.2.1 with
  | none => refuse
  | some .array => refuse
  | some t => readEmplace key type.1 t type.2.2

/-- The loop over the key-value pairs. -/
def readKvs : ℕ → List GgufKv → m (List GgufKv)
  | 0, kvs => return kvs
  | n + 1, kvs => do
    let kv ← readKv kvs
    readKvs n (kvs ++ [kv])

/-- The alignment that a key-value pair sets. -/
def alignmentOf : Option GgufKv → m ℕ
  | none => return Gguf.defaultAlignment
  | some kv => do
    refuseIf (kv.isArray = true ∨ kv.type ≠ .uint32)
    let alignment := Bytes.toNat kv.data
    refuseIf (alignment = 0 ∨ alignment &&& (alignment - 1) ≠ 0)
    return alignment

/-- `ne[j]` of a tensor with `nDims` dimensions. -/
def readNe (nDims j : ℕ) : m ℤ := if j < nDims then readI64 else pure 1

/-- `ne[j]`, which is not negative. -/
def readDim (nDims j : ℕ) : m ℤ := do
  let ne ← readNe nDims j
  refuseIf (ne < 0)
  return ne

/-- The end of a tensor info, from its type on. -/
def readTensorEnd (name : List UInt8) (ne0 ne1 ne2 ne3 : ℤ) : Option GgmlType → m GgufTensor
  | none => refuse
  | some type => do
    refuseIf (type.blckSize = 0 ∨ ne0.tmod type.blckSize ≠ 0)
    let ti : GgufTensor := ⟨Gguf.setName name, type, ne0, ne1, ne2, ne3, 0, 0, 0, 0, none, 0⟩
    refuseIf (sizeMax / type.typeSize < toSize (ti.nelements.tdiv type.blckSize))
    let offset ← readU64
    return { ti.withStrides with offset := offset }

/-- One tensor info behind the infos `infos`. -/
def readTensorInfo (infos : List GgufTensor) : m GgufTensor := do
  let name ← readString
  refuseIf (Gguf.maxName ≤ name.length)
  refuseIf (∃ ti ∈ infos, Gguf.setName name = ti.name)
  let nDims ← readU32
  refuseIf (4 < nDims)
  let ne0 ← readDim nDims 0
  let ne1 ← readDim nDims 1
  let ne2 ← readDim nDims 2
  let ne3 ← readDim nDims 3
  refuseIf (Gguf.tooManyElements ne0 ne1 ne2 ne3)
  let type ← readI32
  readTensorEnd name ne0 ne1 ne2 ne3 (GgmlType.ofInt type)

/-- The loop over the tensor infos. -/
def readTensorInfos : ℕ → List GgufTensor → m (List GgufTensor)
  | 0, infos => return infos
  | n + 1, infos => do
    let ti ← readTensorInfo infos
    readTensorInfos n (infos ++ [ti])

/-- The loop that sums up the size of the data section, from `size` on. -/
def dataSize (alignment : ℕ) : ℕ → List GgufTensor → m ℕ
  | size, [] => return size
  | size, ti :: infos => do
    refuseIf (ti.offset ≠ size)
    let padded := ggmlPad ti.nbytes alignment
    refuseIf (sizeMax - size < padded)
    dataSize alignment (addSize size padded) infos

/-- Read the magic and the header. -/
def readHeader : m Gguf.Header := do
  let magic ← read 4
  refuseIf (magic ≠ Gguf.magic)
  let version ← readU32
  refuseIf (version = 0 ∨ version % 2 ^ 16 = 0 ∨ version = 1 ∨ Gguf.ggufVersion < version)
  let nTensors ← readI64
  refuseIf (nTensors < 0 ∨ (sizeMax / Gguf.sizeofTensorInfo : ℕ) < nTensors)
  let nKv ← readI64
  refuseIf (nKv < 0 ∨ (sizeMax / Gguf.sizeofKv : ℕ) < nKv)
  return ⟨version, nTensors.toNat, nKv.toNat⟩

/-- The data section, if it is asked for, and the tests of the memory it takes. -/
def readData (params : GgufInitParams) (nTensors size : ℕ) : m (Option (List UInt8)) := do
  match params with
  | .noCtx => return none
  | .noAlloc =>
    refuseIf (nTensors ≠ 0 ∧ sizeMax / nTensors < Gguf.tensorOverhead)
    return none
  | .load =>
    refuseIf (sizeMax / (nTensors + 1) < Gguf.tensorOverhead)
    refuseIf (sizeMax - (nTensors + 1) * Gguf.tensorOverhead < size)
    let data ← read size
    return some data

/-- Go to the data section, which is aligned. -/
def seekData (nTensors alignment : ℕ) : m Unit :=
  if 0 < nTensors then do
    let pos ← tell
    seek (ggmlPad pos alignment)
  else pure ()

/-- What is read before the data section: the header, the key-value pairs, the alignment and the
tensor infos. -/
def readMeta : m (Gguf.Header × List GgufKv × ℕ × List GgufTensor) := do
  let header ← readHeader
  let kv ← readKvs header.nKv []
  let alignment ← alignmentOf (Gguf.findKey kv Gguf.keyAlignment)
  let info ← readTensorInfos header.nTensors []
  return (header, kv, alignment, info)

/-- What follows the seek. -/
def readSection (params : GgufInitParams) (header : Gguf.Header) (kv : List GgufKv)
    (alignment : ℕ) (info : List GgufTensor) : m GgufContext := do
  let offset ← tell
  let size ← dataSize alignment 0 info
  let data ← readData params header.nTensors size
  return ⟨header.version, kv, info, alignment, offset, size, data⟩

/-- `gguf_init_from_reader`. -/
def initFromReader (params : GgufInitParams) : m GgufContext := do
  let (header, kv, alignment, info) ← readMeta
  seekData header.nTensors alignment
  readSection params header kv alignment info

end GgufReader

/-! ## Callbacks -/

/-- `gguf_reader_callback_t`: it reads up to `len` bytes at `offset` and may change the user data. -/
abbrev GgufCallback (σ : Type) := σ → (offset len : ℕ) → List UInt8 × σ

/-- The fields of `gguf_reader` that stay. -/
structure GgufSource (σ : Type) where
  callback : GgufCallback σ
  maxChunkRead : ℕ
  pos : 0 < maxChunkRead

namespace GgufSource

variable {σ : Type}

/-- The user data and the fields of `gguf_reader` that change. -/
structure State (σ : Type) where
  userdata : σ
  dataOffset : ℕ
  nbytesRemain : ℕ

/-- A program that reads from a source. -/
def Run (_src : GgufSource σ) (α : Type) := Machine (State σ) α

instance (src : GgufSource σ) : Monad src.Run := inferInstanceAs (Monad (Machine (State σ)))

/-- The loop of `read_raw`, when `n` bytes are to be read at `offset`: what was read, and whether
the end was reached.  A round reads a byte at least, so that there are at most `n` rounds. -/
def readLoop (src : GgufSource σ) : ℕ → ℕ → ℕ → σ → List UInt8 × Bool × σ
  | 0, _, _, u => ([], false, u)
  | fuel + 1, offset, n, u =>
    if n = 0 ∨ 2 ^ 64 ≤ offset then ([], false, u)
    else
      let chunkSize := min src.maxChunkRead n
      let (bs, u) := src.callback u offset chunkSize
      if bs.length ≠ chunkSize then (bs, true, u)
      else
        let (bs', reachedEof, u) :=
          readLoop src fuel (offset + chunkSize) (n - chunkSize) u
        (bs ++ bs', reachedEof, u)

def readRaw (src : GgufSource σ) (n : ℕ) : src.Run (List UInt8) := fun s =>
  let (bs, reachedEof, u) := readLoop src n s.dataOffset n s.userdata
  if s.nbytesRemain < bs.length then (.stopped, ⟨u, addSize s.dataOffset bs.length, 0⟩)
  else
    (.ok bs, ⟨u, addSize s.dataOffset bs.length,
      if reachedEof then 0 else s.nbytesRemain - bs.length⟩)

/-- Refuse the file. -/
def refuse (src : GgufSource σ) {α : Type} : src.Run α := Machine.throw

/-- Test how many bytes remain. -/
def needs (src : GgufSource σ) (n : ℕ) : src.Run Unit := fun s =>
  if s.nbytesRemain < n then (.thrown, s) else (.ok (), s)

def read (src : GgufSource σ) (n : ℕ) : src.Run (List UInt8) := do
  needs src n
  let bs ← readRaw src n
  if bs.length = n then pure bs else refuse src

def tell (src : GgufSource σ) : src.Run ℕ := fun s => (.ok s.dataOffset, s)

def seek (src : GgufSource σ) (absoluteOffset : ℕ) : src.Run Unit := fun s =>
  let endOffset := addSize s.dataOffset s.nbytesRemain
  if endOffset < absoluteOffset then (.thrown, s)
  else (.ok (), ⟨s.userdata, absoluteOffset, endOffset - absoluteOffset⟩)

instance (src : GgufSource σ) : GgufReader src.Run where
  refuse := refuse src
  read := read src
  needs := needs src
  tell := tell src
  seek := seek src

/-- `gguf_init_from_reader` on a source.  A null pointer is an exception. -/
def init (src : GgufSource σ) (s : State σ) (params : GgufInitParams) : Reader.Result GgufContext :=
  ((GgufReader.initFromReader params : src.Run GgufContext) s).1

lemma sizeMax_pos : 0 < sizeMax := by decide

/-- `gguf_init_from_callback`.  No callback is a null pointer. -/
def initFromCallback (callback : Option (GgufCallback σ)) (userdata : σ)
    (maxChunkRead maxExpectedSize : ℕ) (params : GgufInitParams) : Reader.Result GgufContext :=
  match callback with
  | none => .thrown
  | some callback =>
    if h : 0 < maxChunkRead then
      init ⟨callback, maxChunkRead, h⟩ ⟨userdata, 0, maxExpectedSize⟩ params
    else init ⟨callback, sizeMax, sizeMax_pos⟩ ⟨userdata, 0, maxExpectedSize⟩ params

/-- `gguf_buffer_reader_callback`. -/
def bufferCallback (data : List UInt8) : GgufCallback Unit := fun _ offset len =>
  if data.length < offset ∨ data.length - offset < len then ([], ())
  else ((data.drop offset).take (min len (data.length - offset)), ())

/-- `gguf_init_from_buffer`. -/
def initFromBuffer (data : List UInt8) (params : GgufInitParams) : Reader.Result GgufContext :=
  if data.length = 0 then .thrown
  else init ⟨bufferCallback data, sizeMax, sizeMax_pos⟩ ⟨(), 0, data.length⟩ params

/-- `gguf_file_reader`: the position in the file that is read, and the offset it should be. -/
structure FileReader where
  position : ℕ
  offset : ℕ
  deriving DecidableEq, Repr

/-- `gguf_file_reader_callback`: `fseek`, unless the file is there already, and `fread`. -/
def fileCallback (data : List UInt8) : GgufCallback FileReader := fun reader offset len =>
  if reader.offset ≠ offset ∧ int64Max < offset then ([], reader)
  else
    let position := if reader.offset ≠ offset then offset else reader.position
    let bs := (data.drop position).take len
    (bs, ⟨position + bs.length, offset + bs.length⟩)

/-- `gguf_init_from_file_ptr`, on a file with the bytes `data` that stands at `cur`. -/
def initFromFilePtr (data : List UInt8) (cur : ℕ) (params : GgufInitParams) :
    Reader.Result GgufContext :=
  init ⟨fileCallback data, sizeMax, sizeMax_pos⟩ ⟨⟨cur, cur⟩, cur, data.length - cur⟩ params

/-- `gguf_init_from_file`, on a file with the bytes `data`. -/
def initFromFile (data : List UInt8) (params : GgufInitParams) : Reader.Result GgufContext :=
  initFromFilePtr data 0 params

end GgufSource
end Llama
