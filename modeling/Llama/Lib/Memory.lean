import Mathlib.Data.List.GetD
import Mathlib.Order.CompletePartialOrder

/-!
# Byte memories

A memory is a function from addresses to bytes.  `read` takes consecutive bytes, `write`
replaces them, `scatter` does a list of writes one after the other.

Writes to regions of one size that do not overlap can be read back, and do not touch what
lies outside of them (`read_scatter`, `scatter_of_notMem`).  A write of a concatenation is
the scatter of its parts (`write_flatten`).
-/

namespace Memory

open List

variable {β : Type*}

/-- `n` bytes from address `a` on. -/
def read (m : ℕ → β) (a n : ℕ) : List β := (List.range n).map fun i => m (a + i)

/-- Put the given bytes at address `a`. -/
def write (m : ℕ → β) (a : ℕ) (bs : List β) : ℕ → β :=
  fun x => if a ≤ x then (bs[x - a]?).getD (m x) else m x

/-- Do the writes in order. -/
def scatter (m : ℕ → β) (ws : List (ℕ × List β)) : ℕ → β :=
  ws.foldl (fun m w => write m w.1 w.2) m

/-- Regions of `n` bytes at `a` and at `b` do not overlap. -/
def Apart (n a b : ℕ) : Prop := a + n ≤ b ∨ b + n ≤ a

@[simp] lemma length_read (m : ℕ → β) (a n : ℕ) : (read m a n).length = n := by simp [read]

variable {a n : ℕ} {m : ℕ → β}

lemma read_congr {m' : ℕ → β} (h : ∀ x, a ≤ x → x < a + n → m' x = m x) :
    read m' a n = read m a n := by
  refine map_congr_left fun i hi => ?_
  have hi := mem_range.mp hi
  exact h (a + i) (by omega) (by omega)

lemma read_add (m : ℕ → β) (a n k : ℕ) : read m a (n + k) = read m a n ++ read m (a + n) k := by
  simp only [read, range_add, map_append, map_map]
  refine congrArg _ (map_congr_left fun i _ => ?_)
  simp only [Function.comp_apply, Nat.add_assoc]

/-- A block of `k` regions is read region by region. -/
lemma read_mul (m : ℕ → β) (a n k : ℕ) :
    read m a (k * n) = (range k).flatMap fun i => read m (a + i * n) n := by
  induction k with
  | zero => simp [read]
  | succ k ih => rw [Nat.succ_mul, read_add, ih, range_succ]; simp

/-! ## Writing -/

lemma write_of_lt {x : ℕ} (bs : List β) (h : x < a) : write m a bs x = m x := by
  rw [write, if_neg (by omega)]

lemma write_of_ge {x : ℕ} {bs : List β} (h : a + bs.length ≤ x) : write m a bs x = m x := by
  rw [write, if_pos (by omega), getElem?_eq_none (by omega), Option.getD_none]

lemma write_add {i : ℕ} {bs : List β} (h : i < bs.length) : write m a bs (a + i) = bs[i] := by
  rw [write, if_pos (by omega), Nat.add_sub_cancel_left, getElem?_eq_getElem h, Option.getD_some]

@[simp] lemma write_nil (m : ℕ → β) (a : ℕ) : write m a [] = m := by
  funext x
  by_cases h : x < a
  · exact write_of_lt [] h
  · exact write_of_ge (by simpa using h)

lemma read_write (m : ℕ → β) (a : ℕ) (bs : List β) : read (write m a bs) a bs.length = bs := by
  refine ext_getElem (length_read _ _ _) fun i h1 h2 => ?_
  rw [length_read] at h1
  simp only [read, getElem_map, getElem_range]
  exact write_add h1

lemma read_write_of_apart {b : ℕ} {bs : List β} (hlen : bs.length = n) (h : Apart n a b) :
    read (write m a bs) b n = read m b n := by
  refine read_congr fun x h1 h2 => ?_
  rcases h with h | h
  · exact write_of_ge (by omega)
  · exact write_of_lt bs (by omega)

lemma write_append (m : ℕ → β) (a : ℕ) (bs cs : List β) :
    write m a (bs ++ cs) = write (write m a bs) (a + bs.length) cs := by
  funext x
  by_cases h1 : x < a
  · rw [write_of_lt _ h1, write_of_lt _ (by omega), write_of_lt _ h1]
  by_cases h2 : x < a + bs.length
  · obtain ⟨i, rfl⟩ := Nat.exists_eq_add_of_le (Nat.le_of_not_lt h1)
    have hi : i < bs.length := by omega
    rw [write_add (by simp; omega), write_of_lt _ h2, write_add hi, getElem_append_left hi]
  by_cases h3 : x < a + bs.length + cs.length
  · obtain ⟨i, rfl⟩ := Nat.exists_eq_add_of_le (Nat.le_of_not_lt h2)
    have hi : i < cs.length := by omega
    rw [write_add hi, Nat.add_assoc, write_add (by simp; omega), getElem_append_right (by omega)]
    simp only [Nat.add_sub_cancel_left]
  · rw [write_of_ge (by simp; omega), write_of_ge (by omega), write_of_ge (by omega)]

/-! ## Several writes -/

@[simp] lemma scatter_nil (m : ℕ → β) : scatter m [] = m := rfl

lemma scatter_append (m : ℕ → β) (ws ws' : List (ℕ × List β)) :
    scatter m (ws ++ ws') = scatter (scatter m ws) ws' := foldl_append

lemma scatter_singleton (m : ℕ → β) (a : ℕ) (bs : List β) : scatter m [(a, bs)] = write m a bs :=
  rfl

/-- One write of consecutive parts of the same length is a write of each part. -/
lemma write_flatMap (m : ℕ → β) (a n : ℕ) (row : ℕ → List β) (hrow : ∀ i, (row i).length = n)
    (k : ℕ) : write m a ((range k).flatMap row) =
      scatter m ((range k).map fun i => (a + i * n, row i)) := by
  have hlen : ∀ k, ((range k).flatMap row).length = k * n := by
    intro k
    induction k with
    | zero => simp
    | succ k ih =>
      rw [range_succ, flatMap_append, length_append, ih, Nat.succ_mul]
      simp [hrow]
  induction k with
  | zero => simp
  | succ k ih =>
    rw [range_succ, flatMap_append, map_append, scatter_append, write_append, ih, hlen]
    simp [scatter_singleton]

/-- What no write covers stays. -/
lemma read_scatter_of_apart {b : ℕ} :
    ∀ {ws : List (ℕ × List β)}, (∀ w ∈ ws, w.2.length = n ∧ Apart n w.1 b) →
      read (scatter m ws) b n = read m b n := by
  intro ws
  induction ws generalizing m with
  | nil => intro _; rfl
  | cons w ws ih =>
    intro h
    obtain ⟨hlen, hap⟩ := h w mem_cons_self
    have hrest : read (scatter (write m w.1 w.2) ws) b n = read (write m w.1 w.2) b n :=
      ih fun v hv => h v (mem_cons_of_mem _ hv)
    exact hrest.trans (read_write_of_apart hlen hap)

/-- What is written is read back when the regions do not overlap. -/
lemma read_scatter {bs : List β} : ∀ {ws : List (ℕ × List β)}, (∀ w ∈ ws, w.2.length = n) →
      (ws.map Prod.fst).Pairwise (Apart n) → (a, bs) ∈ ws → read (scatter m ws) a n = bs := by
  intro ws
  induction ws generalizing m with
  | nil => intro _ _ h; simp at h
  | cons v ws ih =>
    intro hlen hap hw
    obtain ⟨hv, hap⟩ := pairwise_cons.mp hap
    rcases mem_cons.mp hw with rfl | hw
    · have hrest : read (scatter (write m a bs) ws) a n = read (write m a bs) a n := by
        refine read_scatter_of_apart fun u hu => ⟨hlen u (mem_cons_of_mem _ hu), ?_⟩
        exact (hv u.1 (mem_map_of_mem hu)).symm
      have hwlen : bs.length = n := hlen (a, bs) mem_cons_self
      subst hwlen
      exact hrest.trans (read_write m a bs)
    · exact ih (fun u hu => hlen u (mem_cons_of_mem _ hu)) hap hw

/-- Regions at different multiples of their size do not overlap. -/
lemma apart_mul {i j : ℕ} (h : i ≠ j) : Apart n (i * n) (j * n) := by
  rcases Nat.lt_or_gt_of_ne h with h | h
  · have := Nat.mul_le_mul_right n (Nat.succ_le_of_lt h)
    exact .inl (by rwa [Nat.succ_mul] at this)
  · have := Nat.mul_le_mul_right n (Nat.succ_le_of_lt h)
    exact .inr (by rwa [Nat.succ_mul] at this)

/-- Units of `n` bytes at distinct multiples of `n`, each read back. -/
lemma read_scatter_unit {ι : Type*} (m : ℕ → β) {f : ι → ℕ} {g : ι → List β} {l : List ι}
    (hnd : (l.map f).Nodup) (hlen : ∀ i, (g i).length = n) {i : ι} (hi : i ∈ l) :
    read (scatter m (l.map fun i => (f i * n, g i))) (f i * n) n = g i := by
  have hfst : (l.map fun i => (f i * n, g i)).map Prod.fst = (l.map f).map (· * n) := by
    simp only [map_map]
    rfl
  refine read_scatter ?_ ?_ (mem_map_of_mem hi)
  · intro w hw
    obtain ⟨j, -, rfl⟩ := mem_map.mp hw
    exact hlen j
  · rw [hfst, pairwise_map]
    exact hnd.imp fun hne => apart_mul hne

/-- Other units stay. -/
lemma read_scatter_unit_of_notMem {ι : Type*} (m : ℕ → β) {b : ℕ} {f : ι → ℕ} {g : ι → List β}
    {l : List ι} (hlen : ∀ i, (g i).length = n) (hb : b ∉ l.map f) :
    read (scatter m (l.map fun i => (f i * n, g i))) (b * n) n = read m (b * n) n := by
  refine read_scatter_of_apart fun w hw => ?_
  obtain ⟨j, hj, rfl⟩ := mem_map.mp hw
  refine ⟨hlen j, apart_mul fun heq => hb ?_⟩
  exact heq ▸ mem_map_of_mem hj

end Memory
