import Mathlib.Algebra.GroupWithZero.Nat
import Mathlib.Data.List.Perm.Basic
import Mathlib.Order.Defs.PartialOrder

/-!
# Buckets in one array

Elements are put into the rows of an array, one row for each bucket and of the size the bucket
needs.  An element goes to the first free place of its row; in the end the array is the
concatenation of the buckets.
-/

namespace Buckets

open List

variable {α : Type*} {slot : α → ℕ} {size : ℕ → ℕ} {blank x : α} {xs : List α} {d m : ℕ}

/-- The elements of a bucket. -/
def row (slot : α → ℕ) (d : ℕ) (xs : List α) : List α := xs.filter fun x => slot x = d

/-- The first `m` buckets. -/
def rows (slot : α → ℕ) (m : ℕ) (xs : List α) : List α :=
  (List.range m).flatMap fun d => row slot d xs

/-- A row with free places behind its elements. -/
def filledRow (slot : α → ℕ) (size : ℕ → ℕ) (blank : α) (xs : List α) (d : ℕ) : List α :=
  row slot d xs ++ List.replicate (size d - (row slot d xs).length) blank

/-- The rows of the first `m` buckets, one behind the other. -/
def table (slot : α → ℕ) (size : ℕ → ℕ) (blank : α) (m : ℕ) (xs : List α) : List α :=
  (List.range m).flatMap (filledRow slot size blank xs)

/-- Where a row begins. -/
def offset (size : ℕ → ℕ) (d : ℕ) : ℕ := ((List.range d).map size).sum

@[simp] lemma offset_zero : offset size 0 = 0 := rfl

lemma offset_succ : offset size (d + 1) = offset size d + size d := by
  rw [offset, range_succ]
  simp [offset]

lemma offset_mono (h : d ≤ m) : offset size d ≤ offset size m := by
  induction h with
  | refl => exact Nat.le_refl _
  | step _ ih =>
    rw [offset_succ]
    exact Nat.le_add_right_of_le ih

lemma rows_succ : rows slot (m + 1) xs = rows slot m xs ++ row slot m xs := by
  rw [rows, range_succ]
  simp [rows]

lemma table_succ : table slot size blank (m + 1) xs =
      table slot size blank m xs ++ filledRow slot size blank xs m := by
  rw [table, range_succ]
  simp [table]

lemma table_nil : table slot size blank m [] = List.replicate (offset size m) blank := by
  induction m with
  | zero => rfl
  | succ m ih =>
    rw [table_succ, ih, offset_succ, ← replicate_append_replicate]
    rfl

/-- The rows are large enough for the elements. -/
def Fits (slot : α → ℕ) (size : ℕ → ℕ) (m : ℕ) (xs : List α) : Prop :=
  ∀ d < m, (row slot d xs).length ≤ size d

lemma length_table (h : Fits slot size m xs) :
    (table slot size blank m xs).length = offset size m := by
  induction m with
  | zero => rfl
  | succ m ih =>
    have hm := h m (Nat.lt_succ_self m)
    rw [table_succ, length_append, ih fun d hd => h d (Nat.lt_succ_of_lt hd), offset_succ,
      filledRow, length_append, length_replicate]
    omega

lemma row_append_self : row slot (slot x) (xs ++ [x]) = row slot (slot x) xs ++ [x] := by
  simp [row]

lemma row_append_of_ne (h : slot x ≠ d) : row slot d (xs ++ [x]) = row slot d xs := by
  simp [row, h]

/-- An element beyond the table changes nothing. -/
lemma table_append_of_le (h : m ≤ slot x) :
    table slot size blank m (xs ++ [x]) = table slot size blank m xs := by
  induction m with
  | zero => rfl
  | succ m ih =>
    rw [table_succ, table_succ, ih (by omega), filledRow, filledRow, row_append_of_ne (by omega)]

/-- **An element is put to the first free place of its row.** -/
theorem set_table (h : Fits slot size m xs) (hx : slot x < m)
    (hroom : (row slot (slot x) xs).length < size (slot x)) :
    (table slot size blank m xs).set (offset size (slot x) + (row slot (slot x) xs).length) x =
      table slot size blank m (xs ++ [x]) := by
  induction m with
  | zero => exact absurd hx (Nat.not_lt_zero _)
  | succ m ih =>
    have hfits : Fits slot size m xs := fun d hd => h d (Nat.lt_succ_of_lt hd)
    rw [table_succ, table_succ]
    rcases Nat.lt_succ_iff_lt_or_eq.mp hx with hlt | rfl
    · have hle := @offset_mono size _ _ (Nat.succ_le_of_lt hlt)
      rw [offset_succ] at hle
      rw [set_append_left _ _ (by rw [length_table hfits]; omega), ih hfits hlt, filledRow,
        filledRow, row_append_of_ne (Nat.ne_of_lt hlt)]
    · have hlength : (table slot size blank (slot x) xs).length = offset size (slot x) :=
        length_table hfits
      rw [set_append_right _ _ (by omega), hlength, Nat.add_sub_cancel_left,
        table_append_of_le (Nat.le_refl _), filledRow, filledRow, row_append_self,
        set_append_right _ _ (Nat.le_refl _), Nat.sub_self, length_append,
        length_singleton]
      have hsucc : size (slot x) - (row slot (slot x) xs).length =
          size (slot x) - ((row slot (slot x) xs).length + 1) + 1 := by omega
      rw [hsucc, replicate_succ, set_cons_zero, append_assoc, singleton_append]

/-- A full table is the concatenation of the buckets. -/
lemma table_eq_rows (h : ∀ d < m, (row slot d xs).length = size d) :
    table slot size blank m xs = rows slot m xs := by
  induction m with
  | zero => rfl
  | succ m ih =>
    rw [table_succ, rows_succ, ih fun d hd => h d (Nat.lt_succ_of_lt hd), filledRow,
      h m (Nat.lt_succ_self m), Nat.sub_self, replicate_zero, append_nil]

/-- **The first buckets hold the elements that belong to them.** -/
theorem rows_perm (slot : α → ℕ) (m : ℕ) (xs : List α) :
    (rows slot m xs).Perm (xs.filter fun x => slot x < m) := by
  induction m with
  | zero =>
    rw [filter_eq_nil_iff.mpr]
    · exact List.Perm.refl _
    · exact fun x _ h => absurd (of_decide_eq_true h) (Nat.not_lt_zero _)
  | succ m ih =>
    rw [rows_succ]
    refine (ih.append_right _).trans ?_
    clear ih
    induction xs with
    | nil => exact List.Perm.refl _
    | cons x xs ih =>
      rw [row] at ih ⊢
      rcases Nat.lt_trichotomy (slot x) m with hlt | heq | hgt
      · rw [filter_cons_of_pos (by simpa using hlt),
          filter_cons_of_neg (by simpa using Nat.ne_of_lt hlt),
          filter_cons_of_pos (by rw [decide_eq_true_eq]; omega)]
        exact ih.cons x
      · rw [filter_cons_of_neg (by simpa using Nat.le_of_eq heq.symm),
          filter_cons_of_pos (by simpa using heq),
          filter_cons_of_pos (by rw [decide_eq_true_eq]; omega)]
        exact perm_middle.trans (ih.cons x)
      · rw [filter_cons_of_neg (by simpa using Nat.le_of_lt hgt),
          filter_cons_of_neg (by simpa using Nat.ne_of_gt hgt),
          filter_cons_of_neg (by simpa using Nat.succ_le_of_lt hgt)]
        exact ih

end Buckets
