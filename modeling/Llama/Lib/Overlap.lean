import Mathlib.Data.List.Basic
import Mathlib.Order.MinMax

/-!
# Overlaps of a list with itself

`overlap w k` is the length of the longest common prefix of a list and the list without its first
`k` elements.  The overlaps of all `k` are found by going on from a box, a stretch that is known to
agree with the beginning of the list: what is known of the beginning holds of the box as well.

The overlaps may be known up to a limit only (`min_overlap_copy`).
-/

namespace Overlap

variable {α : Type*} [DecidableEq α] {u v w : List α} {k l n r : ℕ}

/-- The length of the longest common prefix. -/
def commonPrefix : List α → List α → ℕ
  | x :: xs, y :: ys => if x = y then commonPrefix xs ys + 1 else 0
  | _, _ => 0

/-- The longest common prefix of a list with itself shifted by `k`. -/
def overlap (w : List α) (k : ℕ) : ℕ := commonPrefix w (w.drop k)

lemma le_commonPrefix_iff :
    n ≤ commonPrefix u v ↔ n ≤ u.length ∧ n ≤ v.length ∧ ∀ i < n, u[i]? = v[i]? := by
  induction u generalizing v n with
  | nil =>
    rw [commonPrefix]
    · refine ⟨fun h => ?_, fun h => h.1⟩
      obtain rfl := Nat.le_zero.mp h
      exact ⟨h, Nat.zero_le _, fun i hi => absurd hi (Nat.not_lt_zero i)⟩
    · exact fun _ _ _ _ h => (by cases h)
  | cons x xs ih =>
    cases v with
    | nil =>
      rw [commonPrefix]
      · refine ⟨fun h => ?_, fun h => h.2.1⟩
        obtain rfl := Nat.le_zero.mp h
        exact ⟨Nat.zero_le _, h, fun i hi => absurd hi (Nat.not_lt_zero i)⟩
      · exact fun _ _ _ _ _ h => (by cases h)
    | cons y ys =>
      rw [commonPrefix]
      cases n with
      | zero =>
        exact iff_of_true (Nat.zero_le _)
          ⟨Nat.zero_le _, Nat.zero_le _, fun i hi => absurd hi (Nat.not_lt_zero i)⟩
      | succ n =>
        rw [List.length_cons, List.length_cons, Nat.add_le_add_iff_right, Nat.add_le_add_iff_right]
        split_ifs with hxy
        · subst hxy
          rw [Nat.add_le_add_iff_right, ih]
          refine and_congr_right fun _ => and_congr_right fun _ => ⟨fun h i hi => ?_, fun h i hi => ?_⟩
          · cases i with
            | zero => rfl
            | succ i => exact h i (Nat.lt_of_succ_lt_succ hi)
          · exact h (i + 1) (Nat.succ_lt_succ hi)
        · refine iff_of_false (Nat.not_succ_le_zero n) fun h => hxy ?_
          exact Option.some.inj (h.2.2 0 (Nat.succ_pos n))

section

variable (hk : k ≤ w.length)

include hk

/-- **A length that is not more than the overlap**: the elements agree with the shifted ones. -/
theorem le_overlap_iff : n ≤ overlap w k ↔ n + k ≤ w.length ∧ ∀ i < n, w[i]? = w[i + k]? := by
  rw [overlap, le_commonPrefix_iff, List.length_drop]
  constructor
  · rintro ⟨-, hle, h⟩
    exact ⟨by omega, fun i hi => by rw [h i hi, List.getElem?_drop, Nat.add_comm]⟩
  · rintro ⟨hle, h⟩
    exact ⟨by omega, by omega, fun i hi => by rw [h i hi, List.getElem?_drop, Nat.add_comm]⟩

lemma overlap_add_le : overlap w k + k ≤ w.length :=
  ((le_overlap_iff hk).mp (Nat.le_refl _)).1

lemma getElem?_of_lt_overlap (hn : n < overlap w k) : w[n]? = w[n + k]? :=
  ((le_overlap_iff hk).mp (Nat.le_refl _)).2 n hn

/-- The overlap ends where the list does, or where the elements differ. -/
lemma eq_overlap (hle : n ≤ overlap w k)
    (hend : n + k < w.length → w[n]? ≠ w[n + k]?) : overlap w k = n := by
  refine Nat.le_antisymm (Nat.le_of_not_lt fun hlt => ?_) hle
  have hlength := overlap_add_le hk
  exact hend (by omega) (getElem?_of_lt_overlap hk hlt)

/-- One more element agrees. -/
lemma succ_le_overlap (hle : n ≤ overlap w k) (hlt : n + k < w.length)
    (heq : w[n]? = w[n + k]?) : n + 1 ≤ overlap w k := by
  refine (le_overlap_iff hk).mpr ⟨by omega, fun i hi => ?_⟩
  rcases Nat.lt_succ_iff_lt_or_eq.mp hi with hi | rfl
  · exact getElem?_of_lt_overlap hk (hi.trans_le hle)
  · exact heq

end

section Box

-- The `r` elements from `l` on are a box, and `k` lies in it.
variable (hl : l ≤ k) (hk : k < l + r) (hbox : r ≤ overlap w l) (hlength : k ≤ w.length)

include hl hbox hlength

/-- In the box the list agrees with its beginning. -/
lemma getElem?_box (hn : n + k < l + r) : w[n + (k - l)]? = w[n + k]? := by
  have heq := getElem?_of_lt_overlap (hl.trans hlength) (show n + (k - l) < overlap w l by omega)
  rwa [show n + (k - l) + l = n + k by omega] at heq

include hk

/-- What agrees in the beginning of the list agrees in the box. -/
lemma le_overlap_of_box (hn : n ≤ l + r - k) (hle : n ≤ overlap w (k - l)) : n ≤ overlap w k := by
  have hlength' := overlap_add_le (hl.trans hlength)
  refine (le_overlap_iff hlength).mpr ⟨by omega, fun i hi => ?_⟩
  rw [getElem?_of_lt_overlap (by omega) (hi.trans_le hle)]
  exact getElem?_box hl hbox hlength (by omega)

/-- **An overlap that ends inside the box is copied.** -/
theorem overlap_copy (hlt : overlap w (k - l) < l + r - k) : overlap w k = overlap w (k - l) := by
  refine eq_overlap hlength (le_overlap_of_box hl hk hbox hlength hlt.le (Nat.le_refl _))
    fun _ heq => ?_
  rw [← getElem?_box hl hbox hlength (by omega)] at heq
  exact absurd (succ_le_overlap (by omega) (Nat.le_refl _) (by omega) heq) (Nat.not_succ_le_self _)

/-- **The same with a limit**: either the overlap ends inside the box, or both are beyond the
limit. -/
theorem min_overlap_copy {limit : ℤ}
    (hlt : min (overlap w (k - l) : ℤ) limit < (l + r - k : ℕ)) :
    min (overlap w k : ℤ) limit = min (overlap w (k - l) : ℤ) limit := by
  rcases Nat.lt_or_ge (overlap w (k - l)) (l + r - k) with hin | hout
  · rw [overlap_copy hl hk hbox hlength hin]
  · have hle := le_overlap_of_box hl hk hbox hlength (Nat.le_refl _) hout
    rw [min_eq_right (by omega), min_eq_right (by omega)]

end Box

end Overlap
