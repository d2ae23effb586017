import Llama.Gguf
import Mathlib.Algebra.BigOperators.Ring.List
import Mathlib.Tactic.Ring

/-!
# The numbers of an accepted file

The reader tests the number of elements and the size of each tensor so that they fit in 64 bits.
The tests are right where they are made: an element count that is positive in 64 bits is exact
(`count_lt_of_checks`), and then so are the size and the strides.  They are not made when the
wrapped count is not positive, which a count of `2 ^ 64` brings about; the strides of a tensor
without elements may wrap; `ggml_nbytes` multiplies the elements of a row by the size of a block
before it divides; and padding a size up to the alignment may wrap to zero.
-/

namespace Llama

open Nat

/-! ## Mathematical sizes -/

namespace GgufTensor

variable {t : GgufTensor} {n total : ℕ}

/-- The number of elements. -/
def count (t : GgufTensor) : ℕ := t.ne0.toNat * t.ne1.toNat * t.ne2.toNat * t.ne3.toNat

/-- The size of a row in bytes. -/
def rowSize (t : GgufTensor) : ℕ := t.ne0.toNat / t.type.blckSize * t.type.typeSize

/-- The size of the tensor in bytes. -/
def byteSize (t : GgufTensor) : ℕ := t.rowSize * t.ne1.toNat * t.ne2.toNat * t.ne3.toNat

/-- The count and the size fit in `int64_t` and `size_t`, the strides are those of contiguous
data, and the tensor ends inside the data section, which has `total` bytes. -/
structure Exact (t : GgufTensor) (total : ℕ) : Prop where
  count_le : (t.count : ℤ) ≤ int64Max
  byteSize_le : t.byteSize ≤ sizeMax
  nb0_eq : t.nb0 = t.type.typeSize
  nb1_eq : t.nb1 = t.rowSize
  nb2_eq : t.nb2 = t.rowSize * t.ne1.toNat
  nb3_eq : t.nb3 = t.rowSize * t.ne1.toNat * t.ne2.toNat
  end_le : t.offset + t.byteSize ≤ total

/-- The bytes that `ggml_nbytes` misses because the elements of a row times the size of a block
wrap. -/
def lost (t : GgufTensor) : ℕ :=
  t.ne0.toNat * t.type.typeSize / 2 ^ 64 * (2 ^ 64 / t.type.blckSize)

/-- When the tests of the reader are enough, for data aligned to `n` and `behind` bytes of the
data section behind the tensor and its padding. -/
def Representable (t : GgufTensor) (n behind : ℕ) : Prop :=
  (0 < t.nelements ∧ t.nbytes + n ≤ 2 ^ 64 ∧ t.lost ≤ ggmlPad t.nbytes n - t.nbytes + behind) ∨
  ((t.ne0 = 0 ∨ t.ne1 = 0 ∨ t.ne2 = 0 ∨ t.ne3 = 0) ∧ t.rowSize < 2 ^ 64 ∧
    t.rowSize * t.ne1.toNat < 2 ^ 64 ∧ t.rowSize * t.ne1.toNat * t.ne2.toNat < 2 ^ 64)

/-- What the reader has tested of a tensor. -/
structure Checked (t : GgufTensor) : Prop where
  ne0 : 0 ≤ t.ne0 ∧ t.ne0 < 2 ^ 63
  ne1 : 0 ≤ t.ne1 ∧ t.ne1 < 2 ^ 63
  ne2 : 0 ≤ t.ne2 ∧ t.ne2 < 2 ^ 63
  ne3 : 0 ≤ t.ne3 ∧ t.ne3 < 2 ^ 63
  elements : ¬ Gguf.tooManyElements t.ne0 t.ne1 t.ne2 t.ne3
  blck : t.type.blckSize ≠ 0
  row : t.ne0.tmod t.type.blckSize = 0
  size : toSize (t.nelements.tdiv t.type.blckSize) ≤ sizeMax / t.type.typeSize
  strides : t = t.withStrides

end GgufTensor

/-- Every type in use has blocks of at most 256 elements, a power of two. -/
lemma GgmlType.blckSize_spec (t : GgmlType) (h : t.blckSize ≠ 0) :
    t.blckSize ∣ 2 ^ 64 ∧ t.blckSize ≤ 256 ∧ 0 < t.typeSize := by
  revert t
  decide

lemma mulInt64_natCast {a b : ℕ} (h : a * b < 2 ^ 63) : mulInt64 a b = ((a * b : ℕ) : ℤ) := by
  exact Int.bmod_eq_of_le (by omega) (by omega)

/-- A division test: the product is below `INT64_MAX`. -/
lemma mul_lt_of_not_tdiv_le {a b : ℕ} (hb : 0 < b) (h : ¬ int64Max.tdiv b ≤ a) :
    a * b < 2 ^ 63 := by
  have hM : int64Max = ((2 ^ 63 - 1 : ℕ) : ℤ) := by decide
  rw [hM, ← Int.ofNat_tdiv, cast_le, Nat.not_le] at h
  have hmul : (a + 1) * b ≤ 2 ^ 63 - 1 := (Nat.le_div_iff_mul_le hb).mp h
  rw [Nat.add_mul] at hmul
  omega

/-- **The division tests of consecutive dimensions**: a count that is positive in 64 bits and
passes them is exact. -/
theorem count_lt_of_checks {a b c d : ℕ}
    (hpos : 0 < mulInt64 (mulInt64 (mulInt64 a b) c) d) (h : ¬ Gguf.tooManyElements a b c d) :
    a * b * c * d < 2 ^ 63 := by
  have h' : ¬ (int64Max.tdiv b ≤ a ∨ int64Max.tdiv c ≤ mulInt64 a b ∨
      int64Max.tdiv d ≤ mulInt64 (mulInt64 a b) c) := fun hc => h ⟨hpos, hc⟩
  rw [not_or, not_or] at h'
  obtain ⟨hab, habc, habcd⟩ := h'
  have hz : ∀ x : ℤ, mulInt64 x 0 = 0 := fun x => by simp [mulInt64]
  have hz' : ∀ x : ℤ, mulInt64 0 x = 0 := fun x => by simp [mulInt64]
  have hd : 0 < d := by
    rcases Nat.eq_zero_or_pos d with rfl | hd
    · rw [cast_zero, hz] at hpos
      exact absurd hpos (lt_irrefl 0)
    · exact hd
  have hc : 0 < c := by
    rcases Nat.eq_zero_or_pos c with rfl | hc
    · rw [cast_zero, hz, hz'] at hpos
      exact absurd hpos (lt_irrefl 0)
    · exact hc
  have hb : 0 < b := by
    rcases Nat.eq_zero_or_pos b with rfl | hb
    · rw [cast_zero, hz, hz', hz'] at hpos
      exact absurd hpos (lt_irrefl 0)
    · exact hb
  have hab := mul_lt_of_not_tdiv_le hb hab
  rw [mulInt64_natCast hab] at habc habcd
  have habc := mul_lt_of_not_tdiv_le hc habc
  rw [mulInt64_natCast habc] at habcd
  exact mul_lt_of_not_tdiv_le hd habcd

/-- The wrapped count of a small enough tensor is exact. -/
lemma nelements_eq {a b c d : ℕ} (hc : 0 < c) (hd : 0 < d)
    (h : a * b * c * d < 2 ^ 63) :
    mulInt64 (mulInt64 (mulInt64 a b) c) d = ((a * b * c * d : ℕ) : ℤ) := by
  have h1 : a * b * c ≤ a * b * c * d := Nat.le_mul_of_pos_right _ hd
  have h2 : a * b ≤ a * b * c := Nat.le_mul_of_pos_right _ hc
  rw [mulInt64_natCast (by omega), mulInt64_natCast (by omega), mulInt64_natCast (by omega)]

/-! ## A tensor with elements -/

namespace GgufTensor

variable {t : GgufTensor} {n total : ℕ}

section Checked

variable (h : t.Checked)

include h

lemma Checked.ne0_eq : t.ne0 = (t.ne0.toNat : ℤ) := (Int.toNat_of_nonneg h.ne0.1).symm

lemma Checked.ne1_eq : t.ne1 = (t.ne1.toNat : ℤ) := (Int.toNat_of_nonneg h.ne1.1).symm

lemma Checked.ne2_eq : t.ne2 = (t.ne2.toNat : ℤ) := (Int.toNat_of_nonneg h.ne2.1).symm

lemma Checked.ne3_eq : t.ne3 = (t.ne3.toNat : ℤ) := (Int.toNat_of_nonneg h.ne3.1).symm

lemma Checked.nelements_eq_nat : t.nelements =
    mulInt64 (mulInt64 (mulInt64 t.ne0.toNat t.ne1.toNat) t.ne2.toNat) t.ne3.toNat := by
  rw [nelements, ← h.ne0_eq, ← h.ne1_eq, ← h.ne2_eq, ← h.ne3_eq]

lemma Checked.dvd : t.type.blckSize ∣ t.ne0.toNat := by
  have hrow := h.row
  rw [h.ne0_eq, ← Int.ofNat_tmod] at hrow
  exact dvd_of_mod_eq_zero (by exact_mod_cast hrow)

/-- The blocks of a row make up the row. -/
lemma Checked.rowSize_mul : t.rowSize * t.type.blckSize = t.ne0.toNat * t.type.typeSize := by
  rw [rowSize, Nat.mul_right_comm, Nat.div_mul_cancel h.dvd]

lemma Checked.byteSize_mul : t.byteSize * t.type.blckSize = t.count * t.type.typeSize := by
  have hrow := h.rowSize_mul
  calc t.byteSize * t.type.blckSize
      = t.rowSize * t.type.blckSize * (t.ne1.toNat * t.ne2.toNat * t.ne3.toNat) := by
        rw [byteSize]
        ring
    _ = t.count * t.type.typeSize := by
        rw [hrow, count]
        ring

/-- The count of a tensor that passes the tests with a positive wrapped count. -/
lemma Checked.count_lt (hpos : 0 < t.nelements) : t.count < 2 ^ 63 := by
  have helem := h.elements
  rw [h.nelements_eq_nat] at hpos
  rw [h.ne0_eq, h.ne1_eq, h.ne2_eq, h.ne3_eq] at helem
  exact count_lt_of_checks hpos helem

/-- A tensor without elements has no wrapped ones. -/
lemma Checked.count_pos (hpos : 0 < t.nelements) : 0 < t.count := by
  by_contra hzero
  rw [count, Nat.not_lt, le_zero, Nat.mul_eq_zero, Nat.mul_eq_zero, Nat.mul_eq_zero] at hzero
  rw [h.nelements_eq_nat] at hpos
  rcases hzero with ((hz | hz) | hz) | hz <;> simp [hz, mulInt64] at hpos

/-- The wrapped count is the count where that fits. -/
lemma Checked.nelements_eq_count (hlt : t.count < 2 ^ 63) (hpos : 0 < t.count) :
    t.nelements = (t.count : ℤ) := by
  have hd : 0 < t.ne3.toNat := Nat.pos_of_mul_pos_left hpos
  have hc : 0 < t.ne2.toNat := Nat.pos_of_mul_pos_left (Nat.pos_of_mul_pos_right hpos)
  rw [h.nelements_eq_nat]
  exact nelements_eq hc hd hlt

lemma Checked.byteSize_lt (hpos : 0 < t.nelements) : t.byteSize < 2 ^ 64 := by
  obtain ⟨-, -, htype⟩ := t.type.blckSize_spec h.blck
  have hB := Nat.pos_of_ne_zero h.blck
  have hsize := h.size
  rw [h.nelements_eq_count (h.count_lt hpos) (h.count_pos hpos), ← Int.ofNat_tdiv,
    toSize_natCast ((Nat.div_le_self _ _).trans_lt (by have := h.count_lt hpos; omega))] at hsize
  have hle := (Nat.le_div_iff_mul_le htype).mp hsize
  have hbytes : t.count / t.type.blckSize * t.type.typeSize = t.byteSize := by
    refine eq_of_mul_eq_mul_right hB ?_
    have hdvd : t.type.blckSize ∣ t.count :=
      ((h.dvd.mul_right _).mul_right _).mul_right _
    rw [h.byteSize_mul, Nat.mul_right_comm, Nat.div_mul_cancel hdvd]
  rw [hbytes] at hle
  exact Nat.lt_of_le_of_lt hle (by decide)

lemma Checked.nb0_eq : t.nb0 = t.type.typeSize := congrArg nb0 h.strides

lemma Checked.nb1_eq : t.nb1 = t.rowSize % 2 ^ 64 := by
  have hnb : t.nb1 = mulSize t.type.typeSize (toSize (t.ne0.tdiv t.type.blckSize)) :=
    congrArg nb1 h.strides
  have hlt : t.ne0.toNat / t.type.blckSize < 2 ^ 64 := by
    have := Nat.div_le_self t.ne0.toNat t.type.blckSize
    have := h.ne0.2
    omega
  rw [hnb, h.ne0_eq, ← Int.ofNat_tdiv, toSize_natCast hlt, mulSize, Nat.mul_comm, rowSize]

lemma Checked.nb2_eq : t.nb2 = t.rowSize * t.ne1.toNat % 2 ^ 64 := by
  have hnb : t.nb2 = mulSize t.nb1 (toSize t.ne1) := by
    rw [congrArg nb1 h.strides]
    exact congrArg nb2 h.strides
  have hlt : t.ne1.toNat < 2 ^ 64 := by
    have := h.ne1.2
    omega
  rw [hnb, h.nb1_eq, h.ne1_eq, toSize_natCast hlt, mulSize, mod_mul_mod, Int.toNat_natCast]

lemma Checked.nb3_eq : t.nb3 = t.rowSize * t.ne1.toNat * t.ne2.toNat % 2 ^ 64 := by
  have hnb : t.nb3 = mulSize t.nb2 (toSize t.ne2) := by
    rw [congrArg nb2 h.strides]
    exact congrArg nb3 h.strides
  have hlt : t.ne2.toNat < 2 ^ 64 := by
    have := h.ne2.2
    omega
  rw [hnb, h.nb2_eq, h.ne2_eq, toSize_natCast hlt, mulSize, mod_mul_mod, Int.toNat_natCast]

/-- The dimensions of a tensor with elements. -/
lemma Checked.ne_pos (hpos : 0 < t.nelements) :
    0 < t.ne0.toNat ∧ 0 < t.ne1.toNat ∧ 0 < t.ne2.toNat ∧ 0 < t.ne3.toNat := by
  have hcount := h.count_pos hpos
  have habc := Nat.pos_of_mul_pos_right hcount
  have hab := Nat.pos_of_mul_pos_right habc
  exact ⟨Nat.pos_of_mul_pos_right hab, Nat.pos_of_mul_pos_left hab,
    Nat.pos_of_mul_pos_left habc, Nat.pos_of_mul_pos_left hcount⟩

/-- The strides of a tensor with elements are exact. -/
lemma Checked.stride_lt (hpos : 0 < t.nelements) : t.rowSize < 2 ^ 64 ∧
    t.rowSize * t.ne1.toNat < 2 ^ 64 ∧ t.rowSize * t.ne1.toNat * t.ne2.toNat < 2 ^ 64 := by
  have hlt := h.byteSize_lt hpos
  obtain ⟨-, hb, hc, hd⟩ := h.ne_pos hpos
  have h3 := (Nat.le_mul_of_pos_right (t.rowSize * t.ne1.toNat * t.ne2.toNat) hd).trans_lt hlt
  have h2 := (Nat.le_mul_of_pos_right (t.rowSize * t.ne1.toNat) hc).trans_lt h3
  exact ⟨(Nat.le_mul_of_pos_right t.rowSize hb).trans_lt h2, h2, h3⟩

omit h in
lemma extentOf_eq {x nb : ℕ} (hx : 0 < x) (hx' : x < 2 ^ 64) (hlt : x * nb < 2 ^ 64) :
    extentOf x nb = (x - 1) * nb := by
  have hcast : (x : ℤ) - 1 = ((x - 1 : ℕ) : ℤ) := by omega
  have hle : (x - 1) * nb ≤ x * nb := Nat.mul_le_mul_right nb (Nat.sub_le x 1)
  rw [extentOf, hcast, toSize_natCast (by omega), mulSize_of_lt (by omega)]

/-- What `ggml_nbytes` misses of the first row. -/
lemma Checked.rowBytes_add_lost (hpos : 0 < t.nelements) : t.rowBytes + t.lost = t.rowSize := by
  obtain ⟨ha, -, -, -⟩ := h.ne_pos hpos
  obtain ⟨hrow, -, -⟩ := h.stride_lt hpos
  have hmul := h.rowSize_mul
  have hlt : t.ne0.toNat < 2 ^ 64 := by
    have := h.ne0.2
    omega
  unfold rowBytes lost
  rw [h.nb0_eq]
  split
  case isTrue hB =>
    rw [hB, Nat.mul_one] at hmul
    have hext : extentOf t.ne0 t.type.typeSize = (t.ne0.toNat - 1) * t.type.typeSize := by
      rw [h.ne0_eq]
      exact extentOf_eq ha hlt (by rwa [← hmul])
    have hle : t.type.typeSize ≤ t.rowSize := by
      rw [hmul]
      exact Nat.le_mul_of_pos_left _ ha
    rw [hext, Nat.sub_one_mul, ← hmul, div_eq_of_lt hrow, addSize_of_lt (by omega)]
    omega
  case isFalse =>
    obtain ⟨⟨k, hk⟩, -, -⟩ := t.type.blckSize_spec h.blck
    have hB := Nat.pos_of_ne_zero h.blck
    have hsize : toSize t.ne0 = t.ne0.toNat := by
      rw [h.ne0_eq]
      exact toSize_natCast hlt
    rw [hsize, mulSize, ← hmul, hk, Nat.mul_comm t.rowSize, mul_mod_mul_left,
      Nat.mul_div_cancel_left _ hB, Nat.mul_div_mul_left _ _ hB, Nat.mul_div_cancel_left _ hB,
      Nat.mul_comm (t.rowSize / k)]
    exact mod_add_div _ _

/-- What `ggml_nbytes` misses of the tensor. -/
lemma Checked.nbytes_add_lost (hpos : 0 < t.nelements) : t.nbytes + t.lost = t.byteSize := by
  obtain ⟨ha, hb, hc, hd⟩ := h.ne_pos hpos
  obtain ⟨h1, h2, h3⟩ := h.stride_lt hpos
  have hbytes := h.byteSize_lt hpos
  have hrow := h.rowBytes_add_lost hpos
  have hb' := h.ne1.2
  have hc' := h.ne2.2
  have hd' := h.ne3.2
  have hnz : ¬ (t.ne0 ≤ 0 ∨ t.ne1 ≤ 0 ∨ t.ne2 ≤ 0 ∨ t.ne3 ≤ 0) := by omega
  have hnb1 : t.nb1 = t.rowSize := h.nb1_eq.trans (mod_eq_of_lt h1)
  have hnb2 : t.nb2 = t.rowSize * t.ne1.toNat := h.nb2_eq.trans (mod_eq_of_lt h2)
  have hnb3 : t.nb3 = t.rowSize * t.ne1.toNat * t.ne2.toNat :=
    h.nb3_eq.trans (mod_eq_of_lt h3)
  set R := t.rowSize with hR
  have e1 : extentOf t.ne1 t.nb1 = R * t.ne1.toNat - R := by
    rw [h.ne1_eq, hnb1, extentOf_eq hb (by omega) (by rwa [Nat.mul_comm]), Nat.sub_one_mul,
      Nat.mul_comm]
    rfl
  have e2 : extentOf t.ne2 t.nb2 = R * t.ne1.toNat * t.ne2.toNat - R * t.ne1.toNat := by
    rw [h.ne2_eq, hnb2, extentOf_eq hc (by omega) (by rwa [Nat.mul_comm]), Nat.sub_one_mul,
      Nat.mul_comm]
    rfl
  have e3 : extentOf t.ne3 t.nb3 = t.byteSize - R * t.ne1.toNat * t.ne2.toNat := by
    rw [h.ne3_eq, hnb3, extentOf_eq hd (by omega) (by rwa [Nat.mul_comm]), Nat.sub_one_mul,
      Nat.mul_comm]
    rfl
  have l1 : R ≤ R * t.ne1.toNat := Nat.le_mul_of_pos_right _ hb
  have l2 : R * t.ne1.toNat ≤ R * t.ne1.toNat * t.ne2.toNat := Nat.le_mul_of_pos_right _ hc
  have l3 : R * t.ne1.toNat * t.ne2.toNat ≤ t.byteSize := Nat.le_mul_of_pos_right _ hd
  rw [nbytes, if_neg hnz, e2]
  generalize R * t.ne1.toNat * t.ne2.toNat = R2 at *
  generalize R * t.ne1.toNat = R1 at *
  rw [addSize_of_lt (a := t.rowBytes) (by omega), addSize_of_lt (b := R2 - R1) (by omega),
    addSize_of_lt (by omega)]
  omega

end Checked

end GgufTensor

/-! ## The data section -/

lemma dvd_ggmlPad {x n : ℕ} : n ∣ ggmlPad x n := dvd_sub_mod _

lemma le_ggmlPad {x n : ℕ} (hn : 0 < n) (h : x + n ≤ 2 ^ 64) : x ≤ ggmlPad x n := by
  have hy : subSize (addSize x n) 1 = x + n - 1 := by
    unfold subSize addSize
    omega
  have hmod := mod_lt (x + n - 1) hn
  rw [ggmlPad, hy]
  omega

/-- The alignments that are accepted. -/
structure IsAlignment (n : ℕ) : Prop where
  dvd : n ∣ 2 ^ 64
  le : n ≤ 2 ^ 32

/-- The size of the part of the data section that holds the tensors `ts`. -/
def paddedSize (n : ℕ) (ts : List GgufTensor) : ℕ := (ts.map fun t => ggmlPad t.nbytes n).sum

lemma dvd_paddedSize {n : ℕ} (ts : List GgufTensor) : n ∣ paddedSize n ts := by
  refine List.dvd_sum fun x hx => ?_
  obtain ⟨t, -, rfl⟩ := List.mem_map.mp hx
  exact dvd_ggmlPad

/-- From `size` on the tensors lie one behind the other, up to `total`. -/
def Laid (n : ℕ) : ℕ → List GgufTensor → ℕ → Prop
  | size, [], total => total = size ∧ size < 2 ^ 64
  | size, t :: ts, total => t.offset = size ∧ Laid n (size + ggmlPad t.nbytes n) ts total

lemma Laid.total {n : ℕ} : ∀ {ts : List GgufTensor} {size total : ℕ}, Laid n size ts total →
    total = size + paddedSize n ts ∧ total < 2 ^ 64
  | [], size, total, h => by
    obtain ⟨rfl, hlt⟩ := h
    exact ⟨rfl, hlt⟩
  | t :: ts, size, total, h => by
    obtain ⟨heq, hlt⟩ := Laid.total h.2
    refine ⟨?_, hlt⟩
    rw [heq, paddedSize, paddedSize, List.map_cons, List.sum_cons, Nat.add_assoc]

/-- Where a tensor lies in the data section. -/
lemma Laid.split {n : ℕ} {t : GgufTensor} {post : List GgufTensor} :
    ∀ {pre : List GgufTensor} {size total : ℕ}, Laid n size (pre ++ t :: post) total →
      t.offset = size + paddedSize n pre ∧
        total = t.offset + ggmlPad t.nbytes n + paddedSize n post ∧ total < 2 ^ 64
  | [], size, total, h => by
    obtain ⟨heq, hlt⟩ := Laid.total h.2
    exact ⟨h.1, by rw [heq, h.1], hlt⟩
  | p :: pre, size, total, h => by
    obtain ⟨hoff, htotal, hlt⟩ := Laid.split h.2
    refine ⟨?_, htotal, hlt⟩
    rw [hoff, paddedSize, paddedSize, List.map_cons, List.sum_cons, Nat.add_assoc]

namespace GgufTensor

variable {t : GgufTensor} {n total : ℕ} {pre post : List GgufTensor}

/-- A tensor with elements: only its place in the data section can be wrong. -/
lemma Checked.exact_iff_of_pos (h : t.Checked) (hn : IsAlignment n) (hn0 : 0 < n)
    (hpos : 0 < t.nelements) (hlaid : Laid n 0 (pre ++ t :: post) total) :
    t.Exact total ↔ t.nbytes + n ≤ 2 ^ 64 ∧
      t.lost ≤ ggmlPad t.nbytes n - t.nbytes + paddedSize n post := by
  obtain ⟨h1, h2, h3⟩ := h.stride_lt hpos
  have hcount := h.count_lt hpos
  have hsum := h.nbytes_add_lost hpos
  obtain ⟨hoff, htotal, hlt⟩ := hlaid.split
  have hend : t.Exact total ↔ t.offset + t.byteSize ≤ total := by
    refine ⟨Exact.end_le, fun hle => ⟨?_, ?_, h.nb0_eq, ?_, ?_, ?_, hle⟩⟩
    · have hM : int64Max = 2 ^ 63 - 1 := rfl
      omega
    · have hM : sizeMax = 2 ^ 64 - 1 := rfl
      omega
    · exact h.nb1_eq.trans (mod_eq_of_lt h1)
    · exact h.nb2_eq.trans (mod_eq_of_lt h2)
    · exact h.nb3_eq.trans (mod_eq_of_lt h3)
  rw [hend]
  by_cases hpad : t.nbytes + n ≤ 2 ^ 64
  · have hle := le_ggmlPad hn0 hpad
    omega
  · -- nothing is missed, and the data section ends before the padding would
    have hdvd : n ∣ total := by
      rw [(Laid.total hlaid).1, Nat.zero_add]
      exact dvd_paddedSize _
    have hmax : total + n ≤ 2 ^ 64 := by
      obtain ⟨a, ha⟩ := hdvd
      obtain ⟨b, hb⟩ := hn.dvd
      have hab : a < b := Nat.lt_of_mul_lt_mul_left (a := n) (by omega)
      calc total + n = n * (a + 1) := by rw [ha, Nat.mul_add, Nat.mul_one]
        _ ≤ n * b := Nat.mul_le_mul_left n hab
        _ = 2 ^ 64 := hb.symm
    omega

/-- A tensor without elements: only its strides can be wrong. -/
lemma Checked.exact_iff_of_zero (h : t.Checked) (hzero : t.count = 0)
    (hlaid : Laid n 0 (pre ++ t :: post) total) :
    t.Exact total ↔ t.rowSize < 2 ^ 64 ∧ t.rowSize * t.ne1.toNat < 2 ^ 64 ∧
      t.rowSize * t.ne1.toNat * t.ne2.toNat < 2 ^ 64 := by
  obtain ⟨-, htotal, -⟩ := hlaid.split
  have hbytes : t.byteSize = 0 := by
    have hmul := h.byteSize_mul
    rw [hzero, Nat.zero_mul] at hmul
    exact (Nat.mul_eq_zero.mp hmul).resolve_right h.blck
  constructor
  · intro he
    refine ⟨?_, ?_, ?_⟩
    · rw [← he.nb1_eq, h.nb1_eq]
      exact mod_lt _ (by decide)
    · rw [← he.nb2_eq, h.nb2_eq]
      exact mod_lt _ (by decide)
    · rw [← he.nb3_eq, h.nb3_eq]
      exact mod_lt _ (by decide)
  · rintro ⟨h1, h2, h3⟩
    refine ⟨?_, ?_, h.nb0_eq, ?_, ?_, ?_, ?_⟩
    · rw [hzero]
      decide
    · rw [hbytes]
      exact Nat.zero_le _
    · exact h.nb1_eq.trans (mod_eq_of_lt h1)
    · exact h.nb2_eq.trans (mod_eq_of_lt h2)
    · exact h.nb3_eq.trans (mod_eq_of_lt h3)
    · omega

/-- **A tensor is exact exactly when the tests are enough.** -/
theorem Checked.exact_iff (h : t.Checked) (hn : IsAlignment n) (hn0 : 0 < n)
    (hlaid : Laid n 0 (pre ++ t :: post) total) :
    t.Exact total ↔ t.Representable n (paddedSize n post) := by
  have hzero : (t.ne0 = 0 ∨ t.ne1 = 0 ∨ t.ne2 = 0 ∨ t.ne3 = 0) ↔ t.count = 0 := by
    have h0 := h.ne0.1
    have h1 := h.ne1.1
    have h2 := h.ne2.1
    have h3 := h.ne3.1
    rw [count, Nat.mul_eq_zero, Nat.mul_eq_zero, Nat.mul_eq_zero]
    omega
  unfold Representable
  rw [hzero]
  rcases Nat.eq_zero_or_pos t.count with hz | hc
  · have hneg : ¬ 0 < t.nelements := fun hpos => absurd (h.count_pos hpos) (by omega)
    rw [h.exact_iff_of_zero hz hlaid]
    simp [hneg, hz]
  · have hnz : t.count ≠ 0 := by omega
    by_cases hpos : 0 < t.nelements
    · rw [h.exact_iff_of_pos hn hn0 hpos hlaid]
      simp [hpos, hnz]
    · -- the count itself does not fit
      have hbig : ¬ t.Exact total := by
        intro he
        have hM : int64Max = 2 ^ 63 - 1 := rfl
        have hle := he.count_le
        have heq := h.nelements_eq_count (by omega) hc
        omega
      simp [hpos, hnz, hbig]

end GgufTensor

end Llama
