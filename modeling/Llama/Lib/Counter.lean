import Mathlib.Algebra.Group.Basic
import Mathlib.Data.Int.Cast.Defs
import Mathlib.Data.List.AList
import Mathlib.Data.List.Dedup

/-!
# Tables that count

A table maps keys to numbers.  `Counts m l` says that it holds the keys of a list, each with the
number of its occurrences.  The numbers are those of any group with a one, so that they may wrap.
-/

/-- A table of numbers. -/
abbrev Counter (κ V : Type) := AList fun _ : κ => V

namespace Counter

open List

variable {κ V : Type} [DecidableEq κ] [AddGroupWithOne V] {m : Counter κ V} {k : κ} {l l' : List κ}

/-- `m[k]++`, where a key that is missing counts from zero. -/
def inc (m : Counter κ V) (k : κ) : Counter κ V := m.insert k ((m.lookup k).getD 0 + 1)

/-- `m[k]--`, after which a key at zero is erased. -/
def dec [DecidableEq V] (m : Counter κ V) (k : κ) : Counter κ V :=
  let m := m.insert k ((m.lookup k).getD 0 - 1)
  if m.lookup k = some 0 then m.erase k else m

/-- The table holds the keys of the list with the number of their occurrences. -/
def Counts (m : Counter κ V) (l : List κ) : Prop :=
  ∀ k, m.lookup k = if k ∈ l then some (l.count k : V) else none

lemma counts_empty : Counts (∅ : Counter κ V) [] := fun _ => rfl

lemma Counts.perm (h : Counts m l) (hl : l.Perm l') : Counts m l' := fun k => by
  rw [h k, hl.count_eq]
  simp only [hl.mem_iff]

lemma Counts.getD_lookup (h : Counts m l) (k : κ) : (m.lookup k).getD 0 = (l.count k : V) := by
  rw [h k]
  split_ifs with hk
  · rfl
  · rw [count_eq_zero_of_not_mem hk, Nat.cast_zero]
    rfl

lemma Counts.mem_iff (h : Counts m l) : k ∈ m ↔ k ∈ l := by
  rw [← AList.lookup_isSome, h k]
  split_ifs with hk <;> simp [hk]

/-- **Counting a key.** -/
theorem Counts.inc (h : Counts m l) (k : κ) : Counts (m.inc k) (k :: l) := by
  intro k'
  rw [Counter.inc]
  by_cases hk : k' = k
  · subst hk
    rw [AList.lookup_insert, h.getD_lookup, if_pos mem_cons_self, count_cons_self, Nat.cast_succ]
  · rw [AList.lookup_insert_ne hk, h k', count_cons_of_ne (Ne.symm hk)]
    simp [hk]

/-- **Taking a key back**: the numbers that do not wrap to zero are those of keys that are left. -/
theorem Counts.dec [DecidableEq V] (h : Counts m (k :: l)) (hl : (l.count k : V) = 0 → k ∉ l) :
    Counts (m.dec k) l := by
  intro k'
  have hlookup : (m.lookup k).getD 0 - 1 = (l.count k : V) := by
    rw [h.getD_lookup, count_cons_self, Nat.cast_succ, add_sub_cancel_right]
  rw [Counter.dec, hlookup]
  rw [AList.lookup_insert]
  by_cases hk : k' = k
  · subst hk
    split_ifs with hzero hmem hmem
    · exact absurd hmem (hl (Option.some.inj hzero))
    · exact AList.lookup_erase _ _
    · exact AList.lookup_insert _
    · rw [count_eq_zero_of_not_mem hmem, Nat.cast_zero] at hzero
      exact absurd rfl hzero
  · have hrest : (m.insert k (l.count k : V)).lookup k' =
        if k' ∈ l then some (l.count k' : V) else none := by
      rw [AList.lookup_insert_ne hk, h k', count_cons_of_ne (Ne.symm hk)]
      simp [hk]
    by_cases hzero : some (l.count k : V) = some 0
    · rwa [if_pos hzero, AList.lookup_erase_ne hk]
    · rwa [if_neg hzero]

/-- There is one key for every different element. -/
lemma Counts.keys_perm (h : Counts m l) : m.keys.Perm l.dedup := by
  refine (perm_ext_iff_of_nodup m.keys_nodup (nodup_dedup l)).mpr fun k => ?_
  rw [← AList.mem_keys, h.mem_iff, mem_dedup]

end Counter
