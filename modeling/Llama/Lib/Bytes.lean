import Mathlib.Tactic.NormNum

/-!
# Little-endian integers

A fixed-width unsigned integer is written as its base-256 digits, least significant first; a
signed one as its two's complement.
-/

namespace Bytes

/-- The `w` low base-256 digits of `n`, the least significant one first. -/
def ofNat : ℕ → ℕ → List UInt8
  | 0, _ => []
  | w + 1, n => UInt8.ofNat n :: ofNat w (n / 256)

/-- The number with the given base-256 digits. -/
def toNat : List UInt8 → ℕ
  | [] => 0
  | b :: bs => b.toNat + 256 * toNat bs

@[simp] lemma length_ofNat (w n : ℕ) : (ofNat w n).length = w := by
  induction w generalizing n with
  | zero => rfl
  | succ w ih => rw [ofNat, List.length_cons, ih]

/-- What the width holds is read back. -/
lemma toNat_ofNat {w n : ℕ} (h : n < 256 ^ w) : toNat (ofNat w n) = n := by
  induction w generalizing n with
  | zero =>
    have hn : n = 0 := by simpa using h
    rw [hn]
    rfl
  | succ w ih =>
    have hdiv : n / 256 < 256 ^ w := Nat.div_lt_of_lt_mul (by omega)
    have hdigit : (UInt8.ofNat n).toNat = n % 256 := UInt8.toNat_ofNat'
    rw [ofNat, toNat, ih hdiv]
    omega

lemma ofNat_toNat : ∀ bs : List UInt8, ofNat bs.length (toNat bs) = bs
  | [] => rfl
  | b :: bs => by
    have hb := b.toNat_lt
    have hmod : (b.toNat + 256 * toNat bs) % 256 = b.toNat := by omega
    have hdiv : (b.toNat + 256 * toNat bs) / 256 = toNat bs := by omega
    have hhead : UInt8.ofNat (b.toNat + 256 * toNat bs) = b := by
      apply UInt8.toNat.inj
      exact hmod
    rw [toNat, List.length_cons, ofNat, hdiv, hhead, ofNat_toNat bs]

/-- The values of a 32-bit signed integer. -/
def IsInt32 (z : ℤ) : Prop := -2147483648 ≤ z ∧ z < 2147483648

instance (z : ℤ) : Decidable (IsInt32 z) := inferInstanceAs (Decidable (_ ∧ _))

/-- Two's complement in four bytes. -/
def ofInt32 (z : ℤ) : List UInt8 := ofNat 4 (z % 4294967296).toNat

def toInt32 (bs : List UInt8) : ℤ :=
  if toNat bs < 2147483648 then toNat bs else (toNat bs : ℤ) - 4294967296

@[simp] lemma length_ofInt32 (z : ℤ) : (ofInt32 z).length = 4 := length_ofNat _ _

lemma toInt32_ofInt32 {z : ℤ} (h : IsInt32 z) : toInt32 (ofInt32 z) = z := by
  obtain ⟨h1, h2⟩ := h
  have hval : toNat (ofInt32 z) = (z % 4294967296).toNat :=
    toNat_ofNat (by norm_num; omega)
  unfold toInt32
  split <;> omega

lemma toNat_lt : ∀ bs : List UInt8, toNat bs < 256 ^ bs.length
  | [] => Nat.one_pos
  | b :: bs => by
    have hb := b.toNat_lt
    have hrest := toNat_lt bs
    rw [toNat, List.length_cons]
    omega

lemma ofInt32_toInt32 {bs : List UInt8} (h : bs.length = 4) : ofInt32 (toInt32 bs) = bs := by
  have hlt := toNat_lt bs
  rw [h] at hlt
  have hval : (toInt32 bs % 4294967296).toNat = toNat bs := by
    unfold toInt32
    split <;> omega
  rw [ofInt32, hval, ← h]
  exact ofNat_toNat bs

/-- The values of a 64-bit signed integer. -/
def IsInt64 (z : ℤ) : Prop := -9223372036854775808 ≤ z ∧ z < 9223372036854775808

instance (z : ℤ) : Decidable (IsInt64 z) := inferInstanceAs (Decidable (_ ∧ _))

/-- Two's complement in eight bytes. -/
def ofInt64 (z : ℤ) : List UInt8 := ofNat 8 (z % 18446744073709551616).toNat

def toInt64 (bs : List UInt8) : ℤ :=
  if toNat bs < 9223372036854775808 then toNat bs else (toNat bs : ℤ) - 18446744073709551616

@[simp] lemma length_ofInt64 (z : ℤ) : (ofInt64 z).length = 8 := length_ofNat _ _

lemma toInt64_ofInt64 {z : ℤ} (h : IsInt64 z) : toInt64 (ofInt64 z) = z := by
  obtain ⟨h1, h2⟩ := h
  have hval : toNat (ofInt64 z) = (z % 18446744073709551616).toNat :=
    toNat_ofNat (by norm_num; omega)
  unfold toInt64
  split <;> omega

lemma toInt64_lt {bs : List UInt8} (h : bs.length ≤ 8) : toInt64 bs < 2 ^ 63 := by
  have hlt : toNat bs < 256 ^ 8 := (toNat_lt bs).trans_le (Nat.pow_le_pow_right (by decide) h)
  unfold toInt64
  split <;> omega

end Bytes
