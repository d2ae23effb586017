import Llama.Basic
import Llama.Lib.Reader

/-!
# GGUF files

A GGUF file holds key-value pairs, the shapes and types of tensors, and their data.
`gguf_init_from_reader` reads one; `initFromReader` is that function as a reader of bytes whose
state is the whole input.  A file that is refused is an exception, a failed assertion stops the
program.  Memory is not modelled.

The numbers of a tensor are `int64_t` and `size_t`, whose arithmetic wraps.
-/

namespace Llama

/-! ## Key-value pairs -/

inductive GgufType
  | uint8
  | int8
  | uint16
  | int16
  | uint32
  | int32
  | float32
  | bool
  | string
  | array
  | uint64
  | int64
  | float64
  deriving DecidableEq, Repr

namespace GgufType

/-- The number of a type in a file. -/
def toInt : GgufType → ℤ
  | uint8 => 0
  | int8 => 1
  | uint16 => 2
  | int16 => 3
  | uint32 => 4
  | int32 => 5
  | float32 => 6
  | bool => 7
  | string => 8
  | array => 9
  | uint64 => 10
  | int64 => 11
  | float64 => 12

/-- The types in the order of their numbers. -/
def all : List GgufType :=
  [uint8, int8, uint16, int16, uint32, int32, float32, bool, string, array, uint64, int64, float64]

/-- The type with a number. -/
def ofInt (z : ℤ) : Option GgufType := all.find? fun t => t.toInt = z

@[simp] lemma ofInt_toInt (t : GgufType) : ofInt t.toInt = some t := by
  cases t <;> decide

/-- `gguf_type_size`. -/
def size : GgufType → ℕ
  | uint8 => 1
  | int8 => 1
  | uint16 => 2
  | int16 => 2
  | uint32 => 4
  | int32 => 4
  | float32 => 4
  | bool => 1
  | string => 0
  | array => 0
  | uint64 => 8
  | int64 => 8
  | float64 => 8

end GgufType

/-- `gguf_kv`.  Strings are in `dataString`, all other values are bytes in `data`. -/
structure GgufKv where
  key : List UInt8
  isArray : Bool
  type : GgufType
  data : List UInt8
  dataString : List (List UInt8)
  deriving DecidableEq, Repr

/-- The string at a `const char *`: the bytes before the first NUL. -/
def cStr (s : List UInt8) : List UInt8 := s.takeWhile (· ≠ 0)

/-! ## Tensors -/

def ggmlTypeCount : ℕ := 43

/-- `type_traits`: the block size and the type size of each `ggml_type`. -/
def typeTraits : List (ℕ × ℕ) :=
  [(1, 4), (1, 2), (32, 18), (32, 20), (0, 0), (0, 0), (32, 22), (32, 24), (32, 34), (32, 36),
    (256, 84), (256, 110), (256, 144), (256, 176), (256, 210), (256, 292), (256, 66), (256, 74),
    (256, 98), (256, 50), (32, 18), (256, 110), (256, 82), (256, 136), (1, 1), (1, 2), (1, 4),
    (1, 8), (1, 8), (256, 56), (1, 2), (0, 0), (0, 0), (0, 0), (256, 54), (256, 66), (0, 0), (0, 0),
    (0, 0), (32, 17), (64, 36), (128, 18), (64, 18)]

/-- `ggml_type`: the number of a type. -/
abbrev GgmlType := Fin ggmlTypeCount

namespace GgmlType

/-- `GGML_TYPE_F32`. -/
def f32 : GgmlType := ⟨0, by decide⟩

/-- `GGML_TYPE_I8`. -/
def i8 : GgmlType := ⟨24, by decide⟩

/-- `ggml_blck_size`. -/
def blckSize (t : GgmlType) : ℕ := (typeTraits[(t : ℕ)]?.getD (0, 0)).1

/-- `ggml_type_size`. -/
def typeSize (t : GgmlType) : ℕ := (typeTraits[(t : ℕ)]?.getD (0, 0)).2

/-- The type with a number. -/
def ofInt (z : ℤ) : Option GgmlType :=
  if h : 0 ≤ z ∧ z < ggmlTypeCount then some ⟨z.toNat, by omega⟩ else none

lemma ofInt_natCast (t : GgmlType) : ofInt (t : ℕ) = some t := by
  have h : (0 : ℤ) ≤ ((t : ℕ) : ℤ) ∧ ((t : ℕ) : ℤ) < ggmlTypeCount := by omega
  rw [ofInt, dif_pos h]
  exact congrArg some (Fin.ext (Int.toNat_natCast _))

end GgmlType

/-- `gguf_tensor_info`: the name, the type, the numbers of elements and the strides of a tensor,
the bytes at its data pointer, and its offset in the data section. -/
structure GgufTensor where
  name : List UInt8
  type : GgmlType
  ne0 : ℤ
  ne1 : ℤ
  ne2 : ℤ
  ne3 : ℤ
  nb0 : ℕ
  nb1 : ℕ
  nb2 : ℕ
  nb3 : ℕ
  data : Option (List UInt8)
  offset : ℕ
  deriving DecidableEq, Repr

namespace GgufTensor

/-- `ggml_nelements`. -/
def nelements (t : GgufTensor) : ℤ := mulInt64 (mulInt64 (mulInt64 t.ne0 t.ne1) t.ne2) t.ne3

/-- The stride of a dimension times the steps in it. -/
def extentOf (ne : ℤ) (nb : ℕ) : ℕ := mulSize (toSize (ne - 1)) nb

/-- The part of `ggml_nbytes` for the first dimension. -/
def rowBytes (t : GgufTensor) : ℕ :=
  if t.type.blckSize = 1 then addSize t.type.typeSize (extentOf t.ne0 t.nb0)
  else mulSize (toSize t.ne0) t.nb0 / t.type.blckSize

/-- `ggml_nbytes`. -/
def nbytes (t : GgufTensor) : ℕ :=
  if t.ne0 ≤ 0 ∨ t.ne1 ≤ 0 ∨ t.ne2 ≤ 0 ∨ t.ne3 ≤ 0 then 0
  else
    addSize (addSize (addSize t.rowBytes (extentOf t.ne1 t.nb1)) (extentOf t.ne2 t.nb2))
      (extentOf t.ne3 t.nb3)

/-- The strides of a tensor whose data is contiguous. -/
def withStrides (t : GgufTensor) : GgufTensor :=
  let nb0 := t.type.typeSize
  let nb1 := mulSize nb0 (toSize (t.ne0.tdiv t.type.blckSize))
  let nb2 := mulSize nb1 (toSize t.ne1)
  { t with nb0 := nb0, nb1 := nb1, nb2 := nb2, nb3 := mulSize nb2 (toSize t.ne2) }

end GgufTensor

/-- `GGML_PAD`, for an `n` that is a power of two. -/
def ggmlPad (x n : ℕ) : ℕ :=
  let y := subSize (addSize x n) 1
  y - y % n

/-- `gguf_context`.  The data section is missing when it was not loaded. -/
structure GgufContext where
  version : ℕ
  kv : List GgufKv
  info : List GgufTensor
  alignment : ℕ
  offset : ℕ
  size : ℕ
  data : Option (List UInt8)
  deriving DecidableEq, Repr

/-- `gguf_init_params`: no `ggml_context` is asked for, one without data, or one with data. -/
inductive GgufInitParams
  | noCtx
  | noAlloc
  | load
  deriving DecidableEq, Repr

/-! ## Reading -/

namespace Gguf

open Reader (readU32 readU64 readI32 readI64 throwIf needs)

/-- The reader's state is the whole input. -/
abbrev Read (α : Type) := Reader (List UInt8) α

/-- `GGUF_MAX_STRING_LENGTH` and `GGUF_MAX_ARRAY_ELEMENTS`. -/
def maxLength : ℕ := 1024 * 1024 * 1024

/-- `GGUF_MAGIC`. -/
def magic : List UInt8 := [71, 71, 85, 70]

def ggufVersion : ℕ := 3

/-- `GGUF_KEY_GENERAL_ALIGNMENT`: `general.alignment`. -/
def keyAlignment : List UInt8 :=
  [103, 101, 110, 101, 114, 97, 108, 46, 97, 108, 105, 103, 110, 109, 101, 110, 116]

/-- `GGUF_DEFAULT_ALIGNMENT`. -/
def defaultAlignment : ℕ := 32

/-- `GGML_MAX_NAME`. -/
def maxName : ℕ := 64

/-- `sizeof(gguf_tensor_info)`. -/
def sizeofTensorInfo : ℕ := 344

/-- `sizeof(gguf_kv)`. -/
def sizeofKv : ℕ := 88

/-- `ggml_tensor_overhead`. -/
def tensorOverhead : ℕ := 368

def tell : Read ℕ := do
  let whole ← Reader.get
  let rest ← Reader.remaining
  return whole.length - rest

def seek (offset : ℕ) : Read Unit := fun whole bs =>
  if whole.length < offset then ⟨.thrown, whole, bs⟩ else ⟨.ok (), whole, whole.drop offset⟩

/-- `gguf_reader::read` of a string. -/
def readString : Read (List UInt8) := do
  let size ← readU64
  throwIf (maxLength < size)
  Reader.read size

/-- One value of a type that is not a string: its bytes, a `bool` as zero or one. -/
def readScalar (t : GgufType) : Read (List UInt8) := do
  let bs ← Reader.read t.size
  return if t = .bool then [if bs = [0] then 0 else 1] else bs

/-- `gguf_reader::read` of a `std::vector` of a type that is not a string. -/
def readScalars (t : GgufType) (n : ℕ) : Read (List UInt8) := do
  throwIf (maxLength < n)
  needs (n * t.size)
  let values ← Reader.replicate n (readScalar t)
  return values.flatten

/-- `gguf_reader::read` of a `std::vector` of strings. -/
def readStrings (n : ℕ) : Read (List (List UInt8)) := do
  throwIf (maxLength < n)
  needs (n * 8)
  Reader.replicate n readString

/-- The strings of a value. -/
def readStringValue (isArray : Bool) (n : ℕ) : Read (List (List UInt8)) :=
  if isArray then readStrings n else Reader.replicate 1 readString

/-- The bytes of a value of a type that is not a string. -/
def readScalarValue (t : GgufType) (isArray : Bool) (n : ℕ) : Read (List UInt8) :=
  if isArray then readScalars t n else readScalar t

/-- `gguf_read_emplace_helper`. -/
def readEmplace (key : List UInt8) (isArray : Bool) (t : GgufType) (n : ℕ) : Read GgufKv :=
  if t = .string then do
    let values ← readStringValue isArray n
    return ⟨key, isArray, t, [], values⟩
  else do
    let data ← readScalarValue t isArray n
    return ⟨key, isArray, t, data, []⟩

/-- Whether a value is an array, the type and the number of its elements. -/
def readType : Read (Bool × ℤ × ℕ) := do
  let type ← readI32
  if type = GgufType.array.toInt then
    let type ← readI32
    let n ← readU64
    return (true, type, n)
  else
    return (false, type, 1)

/-- One key-value pair behind the pairs `kvs`. -/
def readKv (kvs : List GgufKv) : Read GgufKv := do
  let key ← readString
  throwIf (key = [])
  throwIf (∃ kv ∈ kvs, key = kv.key)
  let type ← readType
  match GgufType.ofInt type.2.1 with
  | none => Reader.throw
  | some .array => Reader.throw
  | some t => readEmplace key type.1 t type.2.2

/-- The loop over the key-value pairs. -/
def readKvs : ℕ → List GgufKv → Read (List GgufKv)
  | 0, kvs => return kvs
  | n + 1, kvs => do
    let kv ← readKv kvs
    readKvs n (kvs ++ [kv])

/-- `gguf_find_key`. -/
def findKey (kvs : List GgufKv) (key : List UInt8) : Option GgufKv :=
  kvs.find? fun kv => cStr key = cStr kv.key

/-- The alignment that the key-value pairs set. -/
def readAlignment (kvs : List GgufKv) : Read ℕ := do
  match findKey kvs keyAlignment with
  | none => return defaultAlignment
  | some kv =>
    throwIf (kv.isArray = true ∨ kv.type ≠ .uint32)
    let alignment := Bytes.toNat kv.data
    throwIf (alignment = 0 ∨ alignment &&& (alignment - 1) ≠ 0)
    return alignment

/-- `ggml_set_name`: what fits of a name. -/
def setName (name : List UInt8) : List UInt8 := (cStr name).take (maxName - 1)

/-- `ne[j]` of a tensor with `nDims` dimensions. -/
def readNe (nDims j : ℕ) : Read ℤ := if j < nDims then readI64 else pure 1

/-- `ne[j]`, which is not negative. -/
def readDim (nDims j : ℕ) : Read ℤ := do
  let ne ← readNe nDims j
  throwIf (ne < 0)
  return ne

/-- The test of the number of elements. -/
def tooManyElements (ne0 ne1 ne2 ne3 : ℤ) : Prop :=
  0 < mulInt64 (mulInt64 (mulInt64 ne0 ne1) ne2) ne3 ∧
    (int64Max.tdiv ne1 ≤ ne0 ∨ int64Max.tdiv ne2 ≤ mulInt64 ne0 ne1 ∨
      int64Max.tdiv ne3 ≤ mulInt64 (mulInt64 ne0 ne1) ne2)

instance (ne0 ne1 ne2 ne3 : ℤ) : Decidable (tooManyElements ne0 ne1 ne2 ne3) :=
  inferInstanceAs (Decidable (_ ∧ _))

/-- One tensor info behind the infos `infos`. -/
def readTensorInfo (infos : List GgufTensor) : Read GgufTensor := do
  let name ← readString
  throwIf (maxName ≤ name.length)
  throwIf (∃ ti ∈ infos, setName name = ti.name)
  let nDims ← readU32
  throwIf (4 < nDims)
  let ne0 ← readDim nDims 0
  let ne1 ← readDim nDims 1
  let ne2 ← readDim nDims 2
  let ne3 ← readDim nDims 3
  throwIf (tooManyElements ne0 ne1 ne2 ne3)
  let type ← readI32
  match GgmlType.ofInt type with
  | none => Reader.throw
  | some type =>
    throwIf (type.blckSize = 0 ∨ ne0.tmod type.blckSize ≠ 0)
    let ti : GgufTensor := ⟨setName name, type, ne0, ne1, ne2, ne3, 0, 0, 0, 0, none, 0⟩
    throwIf (sizeMax / type.typeSize < toSize (ti.nelements.tdiv type.blckSize))
    let offset ← readU64
    return { ti.withStrides with offset := offset }

/-- The loop over the tensor infos. -/
def readTensorInfos : ℕ → List GgufTensor → Read (List GgufTensor)
  | 0, infos => return infos
  | n + 1, infos => do
    let ti ← readTensorInfo infos
    readTensorInfos n (infos ++ [ti])

/-- The loop that sums up the size of the data section, from `size` on. -/
def dataSize (alignment : ℕ) : ℕ → List GgufTensor → Read ℕ
  | size, [] => return size
  | size, ti :: infos => do
    throwIf (ti.offset ≠ size)
    let padded := ggmlPad ti.nbytes alignment
    throwIf (sizeMax - size < padded)
    dataSize alignment (addSize size padded) infos

/-- The header behind the magic. -/
structure Header where
  version : ℕ
  nTensors : ℕ
  nKv : ℕ
  deriving DecidableEq, Repr

/-- Read the magic and the header. -/
def readHeader : Read Header := do
  let m ← Reader.read 4
  throwIf (m ≠ magic)
  let version ← readU32
  throwIf (version = 0 ∨ version % 2 ^ 16 = 0 ∨ version = 1 ∨ ggufVersion < version)
  let nTensors ← readI64
  throwIf (nTensors < 0 ∨ (sizeMax / sizeofTensorInfo : ℕ) < nTensors)
  let nKv ← readI64
  throwIf (nKv < 0 ∨ (sizeMax / sizeofKv : ℕ) < nKv)
  return ⟨version, nTensors.toNat, nKv.toNat⟩

/-- The data section, if it is asked for, and the tests of the memory it takes. -/
def readData (params : GgufInitParams) (nTensors size : ℕ) : Read (Option (List UInt8)) := do
  match params with
  | .noCtx => return none
  | .noAlloc =>
    throwIf (nTensors ≠ 0 ∧ sizeMax / nTensors < tensorOverhead)
    return none
  | .load =>
    throwIf (sizeMax / (nTensors + 1) < tensorOverhead)
    throwIf (sizeMax - (nTensors + 1) * tensorOverhead < size)
    let data ← Reader.read size
    return some data

/-- Go to the data section, which is aligned. -/
def seekData (nTensors alignment : ℕ) : Read Unit :=
  if 0 < nTensors then do
    let pos ← tell
    seek (ggmlPad pos alignment)
  else pure ()

/-- `gguf_init_from_reader`. -/
def initFromReader (params : GgufInitParams) : Read GgufContext := do
  let header ← readHeader
  let kv ← readKvs header.nKv []
  let alignment ← readAlignment kv
  let info ← readTensorInfos header.nTensors []
  seekData header.nTensors alignment
  let offset ← tell
  let size ← dataSize alignment 0 info
  let data ← readData params header.nTensors size
  return ⟨header.version, kv, info, alignment, offset, size, data⟩

/-- `gguf_init_from_buffer`. -/
def initFromBuffer (data : List UInt8) (params : GgufInitParams) : Option GgufContext :=
  if data = [] then none else (initFromReader params).value data data

end Gguf

end Llama
