import Mathlib.Computability.Language

/-!
# Copies of a language

The words that are made of several words of a language, between a least and a greatest number of
them.  The greatest number may be missing.
-/

namespace Copies

open Computability

variable {α : Type} {A : Language α} {w : List α} {m n : ℕ}

/-- The concatenations of `k` words of the language, for all `k` from `m` on up to a bound. -/
def copies (A : Language α) (m : ℕ) (max : Option ℕ) : Language α :=
  {w | ∃ k, m ≤ k ∧ (∀ n ∈ max, k ≤ n) ∧ w ∈ A ^ k}

lemma mem_copies {max : Option ℕ} :
    w ∈ copies A m max ↔ ∃ k, m ≤ k ∧ (∀ n ∈ max, k ≤ n) ∧ w ∈ A ^ k := Iff.rfl

lemma mem_copies_some : w ∈ copies A m (some n) ↔ ∃ k, m ≤ k ∧ k ≤ n ∧ w ∈ A ^ k := by
  simp [mem_copies]

lemma mem_copies_none : w ∈ copies A m none ↔ ∃ k, m ≤ k ∧ w ∈ A ^ k := by
  simp [mem_copies]

lemma mem_kstar_iff : w ∈ A∗ ↔ ∃ k, w ∈ A ^ k := by
  rw [Language.kstar_eq_iSup_pow, Language.mem_iSup]

lemma copies_exact (A : Language α) (m : ℕ) : copies A m (some m) = A ^ m := by
  ext w
  rw [mem_copies_some]
  constructor
  · rintro ⟨k, hmk, hkm, hw⟩
    rwa [← Nat.le_antisymm hkm hmk]
  · exact fun hw => ⟨m, Nat.le_refl m, Nat.le_refl m, hw⟩

/-- One copy more, or none. -/
lemma copies_succ (A : Language α) (n : ℕ) :
    copies A 0 (some (n + 1)) = A * copies A 0 (some n) + 1 := by
  ext w
  rw [mem_copies_some]
  constructor
  · rintro ⟨k, -, hk, hw⟩
    cases k with
    | zero => exact .inr hw
    | succ k =>
      rw [pow_succ'] at hw
      obtain ⟨a, ha, b, hb, rfl⟩ := hw
      exact .inl ⟨a, ha, b, mem_copies_some.mpr ⟨k, Nat.zero_le k, by omega, hb⟩, rfl⟩
  · rintro (⟨a, ha, b, hb, rfl⟩ | rfl)
    · obtain ⟨k, -, hk, hb⟩ := mem_copies_some.mp hb
      refine ⟨k + 1, Nat.zero_le _, by omega, ?_⟩
      rw [pow_succ']
      exact Language.append_mem_mul ha hb
    · exact ⟨0, Nat.le_refl 0, Nat.zero_le _, rfl⟩

/-- Copies that have to be there come before the others. -/
lemma copies_add (A : Language α) (m n : ℕ) :
    copies A m (some (m + n)) = A ^ m * copies A 0 (some n) := by
  ext w
  rw [mem_copies_some]
  constructor
  · rintro ⟨k, hmk, hk, hw⟩
    obtain ⟨j, rfl⟩ := Nat.exists_eq_add_of_le hmk
    rw [pow_add] at hw
    obtain ⟨a, ha, b, hb, rfl⟩ := hw
    exact ⟨a, ha, b, mem_copies_some.mpr ⟨j, Nat.zero_le j, by omega, hb⟩, rfl⟩
  · rintro ⟨a, ha, b, hb, rfl⟩
    obtain ⟨k, -, hk, hb⟩ := mem_copies_some.mp hb
    refine ⟨m + k, Nat.le_add_right m k, by omega, ?_⟩
    rw [pow_add]
    exact Language.append_mem_mul ha hb

lemma copies_none (A : Language α) (m : ℕ) : copies A m none = A ^ m * A∗ := by
  ext w
  rw [mem_copies_none]
  constructor
  · rintro ⟨k, hmk, hw⟩
    obtain ⟨j, rfl⟩ := Nat.exists_eq_add_of_le hmk
    rw [pow_add] at hw
    obtain ⟨a, ha, b, hb, rfl⟩ := hw
    exact ⟨a, ha, b, mem_kstar_iff.mpr ⟨j, hb⟩, rfl⟩
  · rintro ⟨a, ha, b, hb, rfl⟩
    obtain ⟨k, hb⟩ := mem_kstar_iff.mp hb
    refine ⟨m + k, Nat.le_add_right m k, ?_⟩
    rw [pow_add]
    exact Language.append_mem_mul ha hb

end Copies
