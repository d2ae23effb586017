import Mathlib.Algebra.Group.Nat.Defs
import Mathlib.Algebra.Order.Group.Int

/-!
# Constants, sizes and the sliding window mask
-/

namespace Llama

/-- `LLAMA_MAX_SEQ`. -/
def maxSeq : ℕ := 256

lemma two_le_maxSeq : 2 ≤ maxSeq := by decide

/-- The ids `0 .. LLAMA_MAX_SEQ - 1`, in the order the loops visit them. -/
def seqIds : List ℤ := (List.range maxSeq).map fun (s : ℕ) => (s : ℤ)

/-- The largest `llama_pos`, which the range methods use for "no upper bound". -/
def posLimit : ℤ := 2147483647

lemma mem_seqIds {s : ℤ} : s ∈ seqIds ↔ 0 ≤ s ∧ s < maxSeq := by
  simp only [seqIds, List.mem_map, List.mem_range]
  constructor
  · omega
  · rintro ⟨h0, hlt⟩
    exact ⟨s.toNat, by omega, by omega⟩

/-! ## Sizes -/

def sizeMax : ℕ := 2 ^ 64 - 1

/-- The sum of two `size_t`. -/
def addSize (a b : ℕ) : ℕ := (a + b) % 2 ^ 64

/-- The difference of two `size_t`. -/
def subSize (a b : ℕ) : ℕ := (a + 2 ^ 64 - b) % 2 ^ 64

/-- The product of two `size_t`. -/
def mulSize (a b : ℕ) : ℕ := a * b % 2 ^ 64

/-- An integer converted to `size_t` or `uint64_t`. -/
def toSize (z : ℤ) : ℕ := (z % 2 ^ 64).toNat

/-- The product of two `int64_t`, which wraps. -/
def mulInt64 (a b : ℤ) : ℤ := Int.bmod (a * b) (2 ^ 64)

def int64Max : ℤ := 2 ^ 63 - 1

lemma addSize_of_lt {a b : ℕ} (h : a + b < 2 ^ 64) : addSize a b = a + b := Nat.mod_eq_of_lt h

lemma subSize_of_le {a b : ℕ} (hle : b ≤ a) (h : a < 2 ^ 64) : subSize a b = a - b := by
  unfold subSize
  omega

lemma mulSize_of_lt {a b : ℕ} (h : a * b < 2 ^ 64) : mulSize a b = a * b := Nat.mod_eq_of_lt h

lemma toSize_natCast {n : ℕ} (h : n < 2 ^ 64) : toSize n = n := by
  unfold toSize
  omega

/-- `llama_swa_type`. -/
inductive SwaType
  | none
  | standard
  | chunked
  | symmetric
  deriving DecidableEq, Repr

/-- `llama_hparams::is_masked_swa`: position `p0` is masked for a token at `p1`. -/
def isMaskedSwa (nSwa : ℕ) (swaType : SwaType) (p0 p1 : ℤ) : Bool :=
  match swaType with
  | .none => false
  | .standard => (nSwa : ℤ) ≤ p1 - p0
  | .chunked => p0 < p1 / nSwa * nSwa
  | .symmetric => p1 - p0 < -((nSwa / 2 : ℕ) : ℤ) ∨ ((nSwa / 2 : ℕ) : ℤ) < p1 - p0

/-- An older position is masked for a later token whenever a newer one is masked for an
earlier token. -/
lemma isMaskedSwa_mono {nSwa : ℕ} {t : SwaType} {p q p1 p2 : ℤ} (hqp : q ≤ p) (hp : p ≤ p1)
    (h12 : p1 ≤ p2) (hm : isMaskedSwa nSwa t p p1 = true) : isMaskedSwa nSwa t q p2 = true := by
  cases t with
  | none => simp [isMaskedSwa] at hm
  | standard =>
    simp only [isMaskedSwa, decide_eq_true_eq] at hm ⊢
    omega
  | chunked =>
    simp only [isMaskedSwa, decide_eq_true_eq] at hm ⊢
    rcases Nat.eq_zero_or_pos nSwa with h0 | hpos
    · subst h0
      omega
    · have hdiv : p1 / (nSwa : ℤ) ≤ p2 / nSwa := Int.ediv_le_ediv (by omega) h12
      have hmul : p1 / (nSwa : ℤ) * nSwa ≤ p2 / nSwa * nSwa :=
        Int.mul_le_mul_of_nonneg_right hdiv (by omega)
      omega
  | symmetric =>
    simp only [isMaskedSwa, decide_eq_true_eq] at hm ⊢
    omega

end Llama
