import Mathlib.Order.Basic

/-!
# Computations that may not return

A computation ends with a value, with an exception or with an abort (a failed assertion).
Loops without a bound of their own take one as an argument, and a computation whose bound
was too small is `unfinished`.  A larger bound leaves every finished computation as it is
(`Exec.Le`), so that a loop of the program ends if it finishes for some bound.
-/

/-- How a computation ends. -/
inductive Exec (α : Type)
  | ok (a : α)
  | thrown
  | aborted
  | unfinished
  deriving DecidableEq

namespace Exec

variable {α β : Type}

def bind : Exec α → (α → Exec β) → Exec β
  | ok a, f => f a
  | thrown, _ => thrown
  | aborted, _ => aborted
  | unfinished, _ => unfinished

instance : Monad Exec where
  pure := ok
  bind := bind

/-- An assertion of the program. -/
def assert (c : Prop) [Decidable c] : Exec Unit := if c then ok () else aborted

@[simp] lemma pure_eq (a : α) : (pure a : Exec α) = ok a := rfl

@[simp] lemma ok_bind (a : α) (f : α → Exec β) : (ok a >>= f) = f a := rfl

@[simp] lemma thrown_bind (f : α → Exec β) : (thrown >>= f) = thrown := rfl

@[simp] lemma aborted_bind (f : α → Exec β) : (aborted >>= f) = aborted := rfl

@[simp] lemma unfinished_bind (f : α → Exec β) : (unfinished >>= f) = unfinished := rfl

lemma bind_eq_ok {x : Exec α} {f : α → Exec β} {b : β} :
    (x >>= f) = ok b ↔ ∃ a, x = ok a ∧ f a = ok b := by
  cases x <;> simp

lemma bind_assoc {γ : Type} (x : Exec α) (f : α → Exec β) (g : β → Exec γ) :
    (x >>= f >>= g) = x >>= fun a => f a >>= g := by
  cases x <;> rfl

/-- `x` is unfinished or equal to `y`. -/
def Le (x y : Exec α) : Prop := x = unfinished ∨ x = y

lemma Le.refl (x : Exec α) : Le x x := .inr rfl

lemma Le.trans {x y z : Exec α} (h : Le x y) (h' : Le y z) : Le x z := by
  rcases h with h | rfl
  · exact .inl h
  · exact h'

lemma Le.eq_of_ne {x y : Exec α} (h : Le x y) (hx : x ≠ unfinished) : y = x := by
  rcases h with h | h
  · exact absurd h hx
  · exact h.symm

/-! ## Large bounds -/

/-- The computation ends with `y` once its bound is large enough, and is unfinished or ends
with `y` for every bound. -/
structure Settles (x : ℕ → Exec α) (y : Exec α) : Prop where
  le : ∀ n, Le (x n) y
  eventually : ∃ k, ∀ n ≥ k, x n = y

lemma Settles.const (y : Exec α) : Settles (fun _ => y) y := ⟨fun _ => .refl y, 0, fun _ _ => rfl⟩

variable {x : ℕ → Exec α}

/-- A computation with larger and larger bounds settles when it finishes once. -/
lemma settles_of_mono (h : ∀ n m, n ≤ m → Le (x n) (x m)) {k : ℕ} (hk : x k ≠ unfinished) :
    Settles x (x k) := by
  have hlarge : ∀ n ≥ k, x n = x k := fun n hn => (h k n hn).eq_of_ne hk
  refine ⟨fun n => ?_, k, hlarge⟩
  rcases Nat.le_total n k with hn | hn
  · exact h n k hn
  · exact .inr (hlarge n hn)

lemma Settles.bind {a : α} {f : ℕ → α → Exec β} {y : Exec β} (hx : Settles x (ok a))
    (hf : Settles (fun n => f n a) y) : Settles (fun n => x n >>= f n) y := by
  constructor
  · intro n
    rcases hx.le n with h | h
    · exact .inl (by rw [h, unfinished_bind])
    · rw [h]
      exact hf.le n
  · obtain ⟨k1, h1⟩ := hx.eventually
    obtain ⟨k2, h2⟩ := hf.eventually
    refine ⟨max k1 k2, fun n hn => ?_⟩
    rw [h1 n (Nat.le_trans (Nat.le_max_left _ _) hn)]
    exact h2 n (Nat.le_trans (Nat.le_max_right _ _) hn)

lemma Settles.congr {x' : ℕ → Exec α} {y : Exec α} (h : Settles x y) (heq : ∀ n, x' n = x n) :
    Settles x' y := by
  rwa [funext heq]

/-- A value that is returned for some bound is the one for large bounds. -/
lemma Settles.eq_of_ok {y : Exec α} (h : Settles x y) {n : ℕ} {b : α} (hn : x n = ok b) :
    y = ok b := by
  rcases h.le n with h | h
  · rw [hn] at h
    cases h
  · rw [← h, hn]

end Exec
