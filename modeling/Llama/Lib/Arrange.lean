import Mathlib.Algebra.Group.End
import Mathlib.Data.Nat.ModEq
import Mathlib.Order.Interval.Finset.Nat

/-!
# Cells in a circle and cells in a row

An array of cells is searched cyclically for a free cell, and chosen cells are brought into
adjacent places by swapping them there one after another.  The composite of the swaps is a
permutation of the cells: it takes the `k`-th chosen cell to the `k`-th place and moves only
cells of the range that holds both.
-/

namespace Arrange

/-! ## Cyclic search -/

/-- Look at `k` of the `size` cells, going around from index `i`, and return the first one
that satisfies `p`. -/
def search (size : ℕ) (p : ℕ → Bool) : ℕ → ℕ → ℕ
  | 0, i => i
  | k + 1, i =>
    let i := if size ≤ i then i - size else i
    if p i then i else search size p k (i + 1)

/-- The cell at distance `j` from `start`. -/
def around (size start j : ℕ) : ℕ := (start + j) % size

lemma around_lt {size : ℕ} (hsize : 0 < size) (start j : ℕ) : around size start j < size :=
  Nat.mod_lt _ hsize

/-- Every cell is met once on the way around. -/
lemma exists_around {size start i : ℕ} (hstart : start < size) (hi : i < size) :
    ∃ j < size, around size start j = i := by
  rcases Nat.lt_or_ge i start with h | h
  · refine ⟨size - start + i, by omega, ?_⟩
    have heq : start + (size - start + i) = i + size := by omega
    rw [around, heq, Nat.add_mod_right, Nat.mod_eq_of_lt hi]
  · refine ⟨i - start, by omega, ?_⟩
    rw [around, Nat.add_sub_cancel' h, Nat.mod_eq_of_lt hi]

lemma around_injective {size start j j' : ℕ} (hj : j < size) (hj' : j' < size)
    (h : around size start j = around size start j') : j = j' := by
  have hmod : j ≡ j' [MOD size] := Nat.ModEq.add_left_cancel' start h
  exact Nat.ModEq.eq_of_lt_of_lt hmod hj hj'

/-- **The search finds the nearest cell.**  It starts at distance `d`. -/
theorem search_spec {size start : ℕ} (hsize : 0 < size) {p : ℕ → Bool} {k : ℕ} :
    ∀ {d i : ℕ}, i < 2 * size → i % size = around size start d →
      (∃ j, d ≤ j ∧ j < d + k ∧ p (around size start j)) →
      ∃ j, d ≤ j ∧ j < d + k ∧ p (around size start j) ∧
        (∀ j', d ≤ j' → j' < j → ¬ p (around size start j')) ∧
        search size p k i = around size start j := by
  induction k with
  | zero =>
    omega
  | succ k ih =>
    rintro d i hi heq ⟨j, hj, hlt, hp⟩
    have hwrap : (if size ≤ i then i - size else i) = around size start d := by
      rw [← heq]
      split
      · rename_i hle
        rw [Nat.mod_eq_sub_mod hle, Nat.mod_eq_of_lt (by omega)]
      · rw [Nat.mod_eq_of_lt (by omega)]
    simp only [search, hwrap]
    by_cases hd : p (around size start d) = true
    · exact ⟨d, le_rfl, by omega, hd, fun j' h h' => absurd h' (by omega), if_pos hd⟩
    · have hne : j ≠ d := by
        rintro rfl
        exact hd hp
      have hnext : (around size start d + 1) % size = around size start (d + 1) := by
        simp only [around, Nat.mod_add_mod, Nat.add_assoc]
      have hlt := around_lt hsize start d
      obtain ⟨j', hj', hlt', hp', hmin, hs⟩ := ih (by omega) hnext ⟨j, by omega, by omega, hp⟩
      refine ⟨j', by omega, by omega, hp', fun j'' h h' => ?_, by rw [if_neg hd, hs]⟩
      rcases Nat.eq_or_lt_of_le h with rfl | h
      · exact hd
      · exact hmin j'' h h'

/-- The permutation after swapping the cells of the list, which `π` has moved, to the places
`a`, `a + 1`, and so on. -/
def arrange : List ℕ → ℕ → Equiv.Perm ℕ → Equiv.Perm ℕ
  | [], _, π => π
  | x :: xs, a, π => arrange xs (a + 1) (Equiv.swap a (π x) * π)

/-- Cells that have their place already stay there. -/
lemma arrange_of_lt {y : ℕ} : ∀ {l : List ℕ} {a : ℕ} {π : Equiv.Perm ℕ},
    y ∉ l → π y < a → arrange l a π y = π y := by
  intro l
  induction l with
  | nil => intros; rfl
  | cons x xs ih =>
    intro a π hy hlt
    rw [List.mem_cons, not_or] at hy
    have hstep : (Equiv.swap a (π x) * π) y = π y := by
      exact Equiv.swap_apply_of_ne_of_ne (by omega) fun h => hy.1 (π.injective h)
    rw [arrange, ih hy.2 (by omega), hstep]

/-- **The `k`-th cell of the list comes to the `k`-th place.** -/
theorem arrange_getElem : ∀ {l : List ℕ} {a : ℕ} {π : Equiv.Perm ℕ}, l.Nodup →
    ∀ k (hk : k < l.length), arrange l a π l[k] = a + k := by
  intro l
  induction l with
  | nil => exact fun _ k hk => absurd hk (Nat.not_lt_zero k)
  | cons x xs ih =>
    intro a π hnd k hk
    rw [List.nodup_cons] at hnd
    cases k with
    | zero =>
      have hx : (Equiv.swap a (π x) * π) x = a := by
        rw [Equiv.Perm.mul_apply, Equiv.swap_apply_right]
      rw [List.getElem_cons_zero, arrange, arrange_of_lt hnd.1 (by omega), hx, Nat.add_zero]
    | succ k =>
      rw [List.getElem_cons_succ, arrange, ih hnd.2]
      omega

/-- **Only cells of the range move, within the range.** -/
theorem arrange_range {lo hi y : ℕ} : ∀ {l : List ℕ} {a : ℕ} {π : Equiv.Perm ℕ},
    (∀ x ∈ l, π x ∈ Finset.Icc lo hi) → lo ≤ a → a + l.length ≤ hi + 1 →
      (π y ∈ Finset.Icc lo hi → arrange l a π y ∈ Finset.Icc lo hi) ∧
      (π y ∉ Finset.Icc lo hi → arrange l a π y = π y) := by
  intro l
  induction l with
  | nil => exact fun _ _ _ => ⟨id, fun _ => rfl⟩
  | cons x xs ih =>
    intro a π hx hlo hhi
    rw [List.length_cons] at hhi
    have ha : a ∈ Finset.Icc lo hi := Finset.mem_Icc.mpr ⟨hlo, by omega⟩
    have hswap : ∀ z, (z ∈ Finset.Icc lo hi → Equiv.swap a (π x) z ∈ Finset.Icc lo hi) ∧
        (z ∉ Finset.Icc lo hi → Equiv.swap a (π x) z = z) := by
      intro z
      refine ⟨fun hz => ?_, fun hz => Equiv.swap_apply_of_ne_of_ne ?_ ?_⟩
      · rw [Equiv.swap_apply_def]
        split
        · exact hx x List.mem_cons_self
        · split
          · exact ha
          · exact hz
      · rintro rfl
        exact hz ha
      · rintro rfl
        exact hz (hx x List.mem_cons_self)
    obtain ⟨hin, hout⟩ := @ih (a + 1) (Equiv.swap a (π x) * π)
      (fun x' hx' => (hswap _).1 (hx x' (List.mem_cons_of_mem _ hx'))) (by omega) (by omega)
    refine ⟨fun hy => hin ((hswap _).1 hy), fun hy => ?_⟩
    have hfix := (hswap (π y)).2 hy
    rw [arrange, hout (by rwa [Equiv.Perm.mul_apply, hfix]), Equiv.Perm.mul_apply, hfix]

/-- When the cells outside a range point outside and some cell of the range points nowhere,
no cell points to some cell of the range. -/
lemma exists_unreferenced {lo hi size : ℕ} {src : ℕ → Option ℕ}
    (hout : ∀ j < size, j ∉ Finset.Icc lo hi → ∀ i, src j = some i → i ∉ Finset.Icc lo hi)
    {j0 : ℕ} (hj0 : j0 ∈ Finset.Icc lo hi) (hnone : src j0 = none) :
    ∃ i ∈ Finset.Icc lo hi, ∀ j < size, src j ≠ some i := by
  by_contra hall
  have hex : ∀ i ∈ Finset.Icc lo hi, ∃ j < size, src j = some i := by
    intro i hi'
    by_contra h
    exact hall ⟨i, hi', fun j hj heq => h ⟨j, hj, heq⟩⟩
  choose! f hf using hex
  -- the pointers cover the range from fewer cells than it has
  have hmaps : ∀ i ∈ Finset.Icc lo hi, f i ∈ (Finset.Icc lo hi).erase j0 := by
    intro i hi'
    obtain ⟨hlt, hsrc⟩ := hf i hi'
    refine Finset.mem_erase.mpr ⟨fun h => ?_, ?_⟩
    · rw [h, hnone] at hsrc
      cases hsrc
    · by_contra hnot
      exact hout _ hlt hnot i hsrc hi'
  have hinj : Set.InjOn f (Finset.Icc lo hi) := by
    intro i hi' i' hi'' heq
    have h := (hf i hi').2
    rw [heq, (hf i' hi'').2] at h
    exact (Option.some.inj h).symm
  have hcard := Finset.card_le_card_of_injOn f hmaps hinj
  rw [Finset.card_erase_of_mem hj0] at hcard
  have hpos := Finset.card_pos.mpr ⟨j0, hj0⟩
  omega

end Arrange
