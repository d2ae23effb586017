import Llama.Gguf
import Mathlib.Data.List.Basic

/-!
# Tensors and their records

A client of the RPC backend sends a `ggml_tensor` as an `rpc_tensor`, a packed record of
fixed-width fields.  Sizes and addresses are `size_t` and `uint64_t`, whose arithmetic wraps.  The
steps in one dimension times the stride are exact for the tensor of a record, since a record has 32
bits for each, but their sum is exact modulo `2 ^ 64` only.
-/

namespace Llama.Rpc

/-! ## Buffers and tensors -/

/-- A `ggml_backend_buffer`: its own address, `ggml_backend_buffer_get_base` and
`ggml_backend_buffer_get_size`.  Memory is in the lower half of the addresses. -/
structure Buffer where
  ptr : UInt64
  base : UInt64
  size : UInt64
  ptr_ne : ptr ≠ 0
  fits : base.toNat + size.toNat < 2 ^ 63
  deriving DecidableEq, Repr

/-- `ggml_tensor`, where a buffer is a `β` and a pointer to a tensor a `π`. -/
structure GgmlTensor (β π : Type) where
  type : GgmlType
  buffer : Option β
  ne : Vector Int64 4
  nb : Vector UInt64 4
  op : UInt32
  opParams : Vector Int32 16
  flags : Int32
  src : Vector (Option π) 10
  viewSrc : Option π
  viewOffs : UInt64
  data : UInt64
  name : Vector UInt8 64
  deriving DecidableEq, Repr

namespace GgmlTensor

variable {β π : Type}

/-- The steps in a dimension times its stride. -/
def span (t : GgmlTensor β π) (i : Fin 4) : UInt64 := (t.ne[i] - 1).toUInt64 * t.nb[i]

/-- `ggml_nbytes`. -/
def nbytes (t : GgmlTensor β π) : UInt64 :=
  if t.ne[0] ≤ 0 ∨ t.ne[1] ≤ 0 ∨ t.ne[2] ≤ 0 ∨ t.ne[3] ≤ 0 then 0
  else if t.type.blckSize = 1 then
    UInt64.ofNat t.type.typeSize + t.span 0 + t.span 1 + t.span 2 + t.span 3
  else
    t.ne[0].toUInt64 * t.nb[0] / UInt64.ofNat t.type.blckSize + t.span 1 + t.span 2 + t.span 3

/-- The steps in a dimension times its stride, in exact arithmetic. -/
def exactSpan (t : GgmlTensor β π) (i : Fin 4) : ℕ := (t.ne[i].toInt - 1).toNat * t.nb[i].toNat

/-- The bytes from the first one of a tensor to the last one, in exact arithmetic: a row of
elements or of blocks, and the steps in the other dimensions. -/
def extent (t : GgmlTensor β π) : ℕ :=
  if t.ne[0] ≤ 0 ∨ t.ne[1] ≤ 0 ∨ t.ne[2] ≤ 0 ∨ t.ne[3] ≤ 0 then 0
  else if t.type.blckSize = 1 then
    t.type.typeSize + t.exactSpan 0 + t.exactSpan 1 + t.exactSpan 2 + t.exactSpan 3
  else
    t.ne[0].toInt.toNat * t.nb[0].toNat / t.type.blckSize + t.exactSpan 1 + t.exactSpan 2 +
      t.exactSpan 3

/-- A tensor is in the addresses of a buffer. -/
def Inside (t : GgmlTensor β π) (b : Buffer) : Prop :=
  b.base.toNat ≤ t.data.toNat ∧ t.data.toNat + t.extent ≤ b.base.toNat + b.size.toNat

end GgmlTensor

structure RpcTensor where
  id : UInt64
  type : UInt32
  buffer : UInt64
  ne : Vector UInt32 4
  nb : Vector UInt32 4
  op : UInt32
  opParams : Vector Int32 16
  flags : Int32
  src : Vector UInt64 10
  viewSrc : UInt64
  viewOffs : UInt64
  data : UInt64
  name : Vector UInt8 64
  useCount : Int32
  deriving DecidableEq, Repr

namespace RpcTensor

/-- `ggml_set_name`: the bytes before the first NUL, at most 63 of them. -/
def setName (name : Vector UInt8 64) : Vector UInt8 64 :=
  Vector.ofFn fun i => if i.val < 63 ∧ ∀ j ≤ i, name[j] ≠ 0 then name[i] else 0

/-- The tensor that a record of a given type describes; a buffer that the server does not have is
dropped.  Pointers to tensors are not resolved here. -/
def tensor (t : RpcTensor) (type : GgmlType) (buffers : List Buffer) : GgmlTensor Buffer ℕ where
  type := type
  buffer := buffers.find? fun b => b.ptr = t.buffer
  ne := t.ne.map fun n => n.toUInt64.toInt64
  nb := t.nb.map fun n => n.toUInt64
  op := t.op
  opParams := t.opParams
  flags := t.flags
  src := Vector.replicate 10 none
  viewSrc := none
  viewOffs := 0
  data := t.data
  name := setName t.name

end RpcTensor

/-! ## The size of a tensor -/

namespace GgmlTensor

variable {β π : Type} {t : GgmlTensor β π}

/-- The numbers of elements and the strides have 32 bits. -/
def Narrow (t : GgmlTensor β π) : Prop :=
  ∀ i : Fin 4, 0 ≤ t.ne[i] ∧ t.ne[i].toInt < 2 ^ 32 ∧ t.nb[i].toNat < 2 ^ 32

lemma toInt_sub_one {x : Int64} (h : 0 < x) : (x - 1).toInt = x.toInt - 1 := by
  have h1 : (1 : Int64) ≤ x := by grind
  rw [Int64.toInt_sub_of_le x 1 (by decide) h1]
  rfl

/-- Steps times a stride do not wrap. -/
lemma Narrow.toNat_span (h : t.Narrow) {i : Fin 4} (hi : 0 < t.ne[i]) :
    (t.span i).toNat = t.exactSpan i := by
  obtain ⟨-, hne, hnb⟩ := h i
  have hpos : 0 ≤ t.ne[i] - 1 := by
    rw [Int64.le_iff_toInt_le, toInt_sub_one hi]
    rw [Int64.lt_iff_toInt_lt] at hi
    exact Int.sub_nonneg_of_le hi
  have hsteps : (t.ne[i].toInt - 1).toNat < 2 ^ 32 := by omega
  have hprod : (t.ne[i].toInt - 1).toNat * t.nb[i].toNat < 2 ^ 64 :=
    calc (t.ne[i].toInt - 1).toNat * t.nb[i].toNat
      _ < 2 ^ 32 * 2 ^ 32 := Nat.mul_lt_mul'' hsteps hnb
  rw [span, exactSpan, UInt64.toNat_mul, Int64.toNat_toUInt64_of_le hpos, Int64.toNatClampNeg,
    toInt_sub_one hi]
  exact Nat.mod_eq_of_lt hprod

lemma typeSize_lt (type : GgmlType) : type.typeSize < 2 ^ 64 := by
  revert type
  decide

lemma blckSize_lt (type : GgmlType) : type.blckSize < 2 ^ 64 := by
  revert type
  decide

/-- The row of a tensor of blocks does not wrap. -/
lemma Narrow.toNat_row (h : t.Narrow) :
    (t.ne[0].toUInt64 * t.nb[0] / UInt64.ofNat t.type.blckSize).toNat =
      t.ne[0].toInt.toNat * t.nb[0].toNat / t.type.blckSize := by
  have hpos : (0 : Int64) ≤ t.ne[0] := (h 0).1
  have hne : t.ne[0].toInt < 2 ^ 32 := (h 0).2.1
  have hnb : t.nb[0].toNat < 2 ^ 32 := (h 0).2.2
  have hprod : t.ne[0].toInt.toNat * t.nb[0].toNat < 2 ^ 64 :=
    calc t.ne[0].toInt.toNat * t.nb[0].toNat
      _ < 2 ^ 32 * 2 ^ 32 := Nat.mul_lt_mul'' (by omega) hnb
  rw [UInt64.toNat_div, UInt64.toNat_mul, Int64.toNat_toUInt64_of_le hpos, Int64.toNatClampNeg,
    UInt64.toNat_ofNat_of_lt' (blckSize_lt _), Nat.mod_eq_of_lt hprod]

/-- **`ggml_nbytes` is the exact size modulo `2 ^ 64`.** -/
theorem Narrow.toNat_nbytes (h : t.Narrow) : t.nbytes.toNat = t.extent % 2 ^ 64 := by
  unfold nbytes extent
  by_cases hzero : t.ne[0] ≤ 0 ∨ t.ne[1] ≤ 0 ∨ t.ne[2] ≤ 0 ∨ t.ne[3] ≤ 0
  · rw [if_pos hzero, if_pos hzero]
    rfl
  rw [if_neg hzero, if_neg hzero]
  have h0 : 0 < t.ne[(0 : Fin 4)] := by grind
  have h1 : 0 < t.ne[(1 : Fin 4)] := by grind
  have h2 : 0 < t.ne[(2 : Fin 4)] := by grind
  have h3 : 0 < t.ne[(3 : Fin 4)] := by grind
  split
  · simp only [UInt64.toNat_add, h.toNat_span h0, h.toNat_span h1, h.toNat_span h2,
      h.toNat_span h3, UInt64.toNat_ofNat_of_lt' (typeSize_lt _), Nat.mod_add_mod]
  · simp only [UInt64.toNat_add, h.toNat_row, h.toNat_span h1, h.toNat_span h2, h.toNat_span h3,
      Nat.mod_add_mod]

end GgmlTensor

/-! ## The size of a record -/

namespace RpcTensor

/-- The steps in a dimension times its stride. -/
def span (t : RpcTensor) (i : Fin 4) : ℕ := (t.ne[i].toNat - 1) * t.nb[i].toNat

/-- The exact size of the tensor that a record describes: a row of elements or of blocks, and the
steps in the other dimensions. -/
def extent (t : RpcTensor) : ℕ :=
  let traits := typeTraits[t.type.toNat]?.getD (0, 0)
  if t.ne[0] = 0 ∨ t.ne[1] = 0 ∨ t.ne[2] = 0 ∨ t.ne[3] = 0 then 0
  else if traits.1 = 1 then traits.2 + t.span 0 + t.span 1 + t.span 2 + t.span 3
  else t.ne[0].toNat * t.nb[0].toNat / traits.1 + t.span 1 + t.span 2 + t.span 3

lemma toInt_ofUInt32 (x : UInt32) : x.toUInt64.toInt64.toInt = x.toNat := by
  have hlt := x.toNat_lt
  have hval : x.toUInt64.toInt64 = Int64.ofNat x.toNat := by
    rw [← UInt64.toInt64_ofNat', ← UInt32.toNat_toUInt64, UInt64.ofNat_toNat]
  rw [hval, Int64.toInt_ofNat_of_lt (by omega)]

lemma toInt64_le_zero {x : UInt32} : x.toUInt64.toInt64 ≤ 0 ↔ x = 0 := by
  rw [Int64.le_iff_toInt_le, toInt_ofUInt32, Int64.toInt_zero, ← UInt32.toNat_inj]
  change _ ↔ x.toNat = 0
  omega

variable (t : RpcTensor) (type : GgmlType) (buffers : List Buffer)

lemma narrow_tensor : (t.tensor type buffers).Narrow := by
  intro i
  have hne := t.ne[i].toNat_lt
  have hnb := t.nb[i].toNat_lt
  have hval : ((t.tensor type buffers).ne[i]).toInt = t.ne[i].toNat := by
    simp only [tensor, Fin.getElem_fin, Vector.getElem_map, toInt_ofUInt32]
  refine ⟨?_, ?_, ?_⟩
  · rw [Int64.le_iff_toInt_le, Int64.toInt_zero]
    omega
  · omega
  · simpa [tensor] using hnb

lemma exactSpan_tensor (i : Fin 4) : (t.tensor type buffers).exactSpan i = t.span i := by
  simp only [GgmlTensor.exactSpan, span, tensor, Fin.getElem_fin, Vector.getElem_map,
    toInt_ofUInt32, UInt32.toNat_toUInt64]
  rw [show ((t.ne[(i : ℕ)].toNat : ℤ) - 1).toNat = t.ne[(i : ℕ)].toNat - 1 by omega]

/-- A tensor has the size of its record. -/
lemma extent_tensor (h : t.type.toNat = type) : (t.tensor type buffers).extent = t.extent := by
  unfold GgmlTensor.extent extent
  simp only [exactSpan_tensor]
  simp only [tensor, Vector.getElem_map, toInt64_le_zero, toInt_ofUInt32, UInt32.toNat_toUInt64,
    Int.toNat_natCast, GgmlType.blckSize, GgmlType.typeSize, h]

end RpcTensor

end Llama.Rpc
