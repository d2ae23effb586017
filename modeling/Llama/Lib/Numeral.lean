import Mathlib.Data.List.Basic
import Mathlib.Tactic.Ring

/-!
# Decimal numerals

Lists of decimal digits and the numbers they stand for, and the numerals without superfluous zeros
that `Nat.toDigits` writes.
-/

namespace Numeral

open List Nat

variable {s t : List Char} {c d : Char} {n k : ℕ}

/-- All characters are digits. -/
def Digits (s : List Char) : Prop := ∀ c ∈ s, c.isDigit = true

instance (s : List Char) : Decidable (Digits s) :=
  decidable_of_iff (s.all Char.isDigit = true) List.all_eq_true

/-- The number that digits stand for. -/
def value (s : List Char) : ℕ := Nat.ofDigitChars 10 s 0

/-- A numeral with no zero in front, unless it is zero. -/
def Canonical (s : List Char) : Prop := Digits s ∧ s ≠ [] ∧ (s.head? = some '0' → s = ['0'])

lemma isDigit_iff : c.isDigit = true ↔ 48 ≤ c.toNat ∧ c.toNat ≤ 57 := by
  rw [Char.isDigit, Bool.and_eq_true, decide_eq_true_eq, decide_eq_true_eq, ge_iff_le,
    UInt32.le_iff_toNat_le, UInt32.le_iff_toNat_le]
  rfl

lemma toNat_ofNat (h : n < 0xd800) : (Char.ofNat n).toNat = n := by
  rw [Char.ofNat, dif_pos (Or.inl h)]
  rfl

lemma digits_cons : Digits (c :: s) ↔ c.isDigit = true ∧ Digits s := forall_mem_cons

lemma digits_append : Digits (s ++ t) ↔ Digits s ∧ Digits t := forall_mem_append

lemma digits_replicate (hc : c.isDigit = true) (n : ℕ) : Digits (List.replicate n c) :=
  fun _ h => (eq_of_mem_replicate h) ▸ hc

lemma value_nil : value [] = 0 := rfl

lemma value_append (s t : List Char) : value (s ++ t) = value s * 10 ^ t.length + value t := by
  rw [value, ofDigitChars_append, ofDigitChars_eq_ofDigitChars_zero, mul_comm]
  rfl

lemma value_cons (c : Char) (s : List Char) :
    value (c :: s) = (c.toNat - 48) * 10 ^ s.length + value s := by
  have hone : value [c] = c.toNat - 48 := by
    simp [value, ofDigitChars_cons]
  rw [← singleton_append, value_append, hone]

lemma value_lt (h : Digits s) : value s < 10 ^ s.length := by
  induction s with
  | nil => exact Nat.one_pos
  | cons c s ih =>
    obtain ⟨hc, hs⟩ := digits_cons.mp h
    have hlt := ih hs
    have hle : (c.toNat - 48) * 10 ^ s.length ≤ 9 * 10 ^ s.length :=
      Nat.mul_le_mul_right _ (by have := isDigit_iff.mp hc; omega)
    rw [value_cons, length_cons]
    omega

lemma value_replicate_zero (n : ℕ) : value (List.replicate n '0') = 0 := by
  rw [value, ofDigitChars_replicate_zero, Nat.mul_zero]

lemma value_replicate_nine (n : ℕ) : value (List.replicate n '9') + 1 = 10 ^ n := by
  induction n with
  | zero => rfl
  | succ n ih =>
    rw [replicate_succ, value_cons, length_replicate]
    have hnine : '9'.toNat - 48 = 9 := rfl
    rw [hnine]
    omega

/-- The first digit decides, then the others do. -/
lemma value_cons_le_iff (hs : Digits s) (ht : Digits t) (hlen : s.length = t.length)
    (hc : c.isDigit = true) (hd : d.isDigit = true) :
    value (c :: s) ≤ value (d :: t) ↔
      c.toNat < d.toNat ∨ c.toNat = d.toNat ∧ value s ≤ value t := by
  have hlts := value_lt hs
  have hltt := value_lt ht
  rw [isDigit_iff] at hc hd
  rw [value_cons, value_cons, hlen] at *
  rcases Nat.lt_trichotomy c.toNat d.toNat with hlt | heq | hlt
  · have hmul : (c.toNat - 48 + 1) * 10 ^ t.length ≤ (d.toNat - 48) * 10 ^ t.length :=
      Nat.mul_le_mul_right _ (by omega)
    rw [add_mul] at hmul
    exact ⟨fun _ => .inl hlt, fun _ => by omega⟩
  · rw [heq]
    omega
  · have hmul : (d.toNat - 48 + 1) * 10 ^ t.length ≤ (c.toNat - 48) * 10 ^ t.length :=
      Nat.mul_le_mul_right _ (by omega)
    rw [add_mul] at hmul
    omega

lemma eq_of_value_eq (hs : Digits s) (ht : Digits t) (hlen : s.length = t.length)
    (h : value s = value t) : s = t := by
  induction s generalizing t with
  | nil => exact (length_eq_zero_iff.mp hlen.symm).symm
  | cons c s ih =>
    cases t with
    | nil => cases hlen
    | cons d t =>
      obtain ⟨hc, hs⟩ := digits_cons.mp hs
      obtain ⟨hd, ht⟩ := digits_cons.mp ht
      have hlen : s.length = t.length := Nat.succ.inj hlen
      have h1 := (value_cons_le_iff hs ht hlen hc hd).mp h.le
      have h2 := (value_cons_le_iff ht hs hlen.symm hd hc).mp h.ge
      have hcd : c.toNat = d.toNat := by omega
      rw [Char.toNat_inj.mp hcd, ih hs ht hlen (by omega)]

/-! ## Canonical numerals -/

lemma value_toDigits (n : ℕ) : value (toDigits 10 n) = n := ofDigitChars_ten_toDigits

lemma digits_toDigits (n : ℕ) : Digits (toDigits 10 n) :=
  fun _ h => isDigit_of_mem_toDigits (by decide) (by decide) h

lemma length_toDigits_le_iff (hk : 0 < k) : (toDigits 10 n).length ≤ k ↔ n < 10 ^ k :=
  Nat.length_toDigits_le_iff (by decide) hk

/-- A numeral that starts with another digit than zero is large. -/
lemma pow_le_value (hc : c.isDigit = true) (hne : c ≠ '0') (s : List Char) :
    10 ^ s.length ≤ value (c :: s) := by
  have hpos : 1 ≤ c.toNat - 48 := by
    have hc := isDigit_iff.mp hc
    have hzero : c.toNat ≠ 48 := fun h => hne (Char.toNat_inj.mp h)
    omega
  rw [value_cons]
  exact (Nat.le_mul_of_pos_left _ hpos).trans (Nat.le_add_right _ _)

lemma canonical_toDigits (n : ℕ) : Canonical (toDigits 10 n) := by
  refine ⟨digits_toDigits n, toDigits_ne_nil, fun hhead => ?_⟩
  have hd := digits_toDigits n
  have hv := value_toDigits n
  have hpos := fun k hk => (length_toDigits_le_iff (n := n) (k := k) hk).mpr
  cases hs : toDigits 10 n with
  | nil => rw [hs] at hhead; cases hhead
  | cons c s =>
    rw [hs] at hhead hd hv hpos
    cases hhead
    cases s with
    | nil => rfl
    | cons d s =>
      -- the digits behind the zero are too many for the number
      have hlt := value_lt (digits_cons.mp hd).2
      rw [value_cons] at hv
      have hn : n < 10 ^ (d :: s).length := by
        have hz : ('0'.toNat - 48) * 10 ^ (d :: s).length = 0 := Nat.zero_mul _
        omega
      have hle := hpos _ (succ_pos _) hn
      simp only [length_cons] at hle
      omega

/-- **A canonical numeral is the one of its value.** -/
theorem Canonical.toDigits_value (h : Canonical s) : toDigits 10 (value s) = s := by
  obtain ⟨hd, hne, hzero⟩ := h
  have hd' := digits_toDigits (value s)
  refine eq_of_value_eq hd' hd ?_ (value_toDigits _)
  have hlt := value_lt hd
  have hpos : 0 < s.length := length_pos_iff.mpr hne
  refine Nat.le_antisymm ((length_toDigits_le_iff hpos).mpr hlt) ?_
  cases s with
  | nil => exact absurd rfl hne
  | cons c s =>
    by_contra hshort
    by_cases hc : c = '0'
    · subst hc
      rw [hzero rfl] at hshort
      have := length_toDigits_pos (b := 10) (n := value ['0'])
      rw [length_singleton] at hshort
      omega
    · have hle := pow_le_value (digits_cons.mp hd).1 hc s
      have hlt' := value_lt hd'
      rw [value_toDigits] at hlt'
      have hpow : 10 ^ (toDigits 10 (value (c :: s))).length ≤ 10 ^ s.length :=
        Nat.pow_le_pow_right (by decide) (by rw [length_cons] at hshort; omega)
      omega

/-- A canonical numeral is not shorter than one of a smaller number. -/
lemma length_toDigits_mono {m n : ℕ} (h : m ≤ n) :
    (toDigits 10 m).length ≤ (toDigits 10 n).length := by
  refine (length_toDigits_le_iff length_toDigits_pos).mpr (h.trans_lt ?_)
  exact (length_toDigits_le_iff length_toDigits_pos).mp (Nat.le_refl _)

lemma length_toDigits_value_le (hs : Digits s) (hne : s ≠ []) :
    (toDigits 10 (value s)).length ≤ s.length :=
  (length_toDigits_le_iff (length_pos_iff.mpr hne)).mpr (value_lt hs)

/-- A numeral is canonical when it is as short as the one of its value. -/
lemma canonical_iff_length (hs : Digits s) (hne : s ≠ []) :
    Canonical s ↔ s.length ≤ (toDigits 10 (value s)).length := by
  constructor
  · intro h
    rw [h.toDigits_value]
  · intro hle
    have hlen := Nat.le_antisymm (length_toDigits_value_le hs hne) hle
    rw [← eq_of_value_eq (digits_toDigits _) hs hlen (value_toDigits _)]
    exact canonical_toDigits _

end Numeral
