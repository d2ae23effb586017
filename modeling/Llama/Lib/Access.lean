import Mathlib.Data.List.Basic

/-!
# Reads of arrays

A computation that reads arrays ends with a value, with an abort, or by reading an array
outside its bounds.  `Inside x Q` says that it does not do the last, and that a value it ends
with satisfies `Q`; its rules follow the structure of the computation, a loop by an invariant.
-/

/-- How a computation that reads arrays ends. -/
inductive Access (α : Type)
  | ok (a : α)
  | aborted
  | outOfBounds
  deriving DecidableEq, Repr

namespace Access

open List

variable {α β : Type} {x : Access α} {P Q : α → Prop} {R : β → Prop}

def bind : Access α → (α → Access β) → Access β
  | ok a, f => f a
  | aborted, _ => aborted
  | outOfBounds, _ => outOfBounds

instance : Monad Access where
  pure := ok
  bind := bind

/-- Entry `i` of an array. -/
def read (xs : List α) (i : ℕ) : Access α :=
  match xs[i]? with
  | some a => ok a
  | none => outOfBounds

/-- Stop the program when `c` holds. -/
def abortIf (c : Prop) [Decidable c] : Access Unit := if c then aborted else ok ()

/-- The value, if there is one. -/
def toOption : Access α → Option α
  | ok a => some a
  | aborted => none
  | outOfBounds => none

lemma toOption_eq_some {a : α} : x.toOption = some a ↔ x = ok a := by
  cases x <;> simp [toOption]

lemma bind_assoc {γ : Type} (x : Access α) (f : α → Access β) (g : β → Access γ) :
    (x >>= f >>= g) = x >>= fun a => f a >>= g := by
  cases x <;> rfl

instance : LawfulMonad Access :=
  LawfulMonad.mk' Access (fun x => by cases x <;> rfl) (fun _ _ => rfl) bind_assoc

lemma map_eq_outOfBounds {f : α → β} : f <$> x = .outOfBounds ↔ x = .outOfBounds := by
  cases x <;> simp [Functor.map, bind]

/-! ## Staying inside the bounds -/

/-- The computation reads inside the bounds, and its value satisfies `Q`. -/
inductive Inside : Access α → (α → Prop) → Prop
  | ok {a : α} {Q : α → Prop} (h : Q a) : Inside (.ok a) Q
  | aborted {Q : α → Prop} : Inside .aborted Q

lemma inside_pure {a : α} (h : Q a) : Inside (pure a : Access α) Q := .ok h

lemma Inside.bind {f : α → Access β} (hx : Inside x P) (hf : ∀ a, P a → Inside (f a) R) :
    Inside (x >>= f) R := by
  cases hx with
  | ok h => exact hf _ h
  | aborted => exact .aborted

lemma Inside.mono (h : Inside x P) (himp : ∀ a, P a → Q a) : Inside x Q := by
  cases h with
  | ok h => exact .ok (himp _ h)
  | aborted => exact .aborted

lemma Inside.ne (h : Inside x Q) : x ≠ .outOfBounds := by
  rintro rfl
  cases h

lemma Inside.of_ok {a : α} (h : Inside x Q) (hx : x = .ok a) : Q a := by
  subst hx
  cases h with
  | ok h => exact h

lemma inside_read {xs : List α} {i : ℕ} (h : i < xs.length) :
    Inside (read xs i) fun a => xs[i]? = some a := by
  rw [read, getElem?_eq_getElem h]
  exact .ok rfl

lemma inside_abortIf {c : Prop} [Decidable c] : Inside (abortIf c) fun _ => ¬ c := by
  unfold abortIf
  split
  case isTrue => exact .aborted
  case isFalse h => exact .ok h

/-- **The loop invariant.** -/
theorem Inside.foldlM {I : β → Prop} {f : β → α → Access β} : ∀ {l : List α} {b : β}, I b →
    (∀ b, I b → ∀ a ∈ l, Inside (f b a) I) → Inside (l.foldlM f b) I
  | [], _, hb, _ => inside_pure hb
  | a :: l, b, hb, hf => by
    refine (hf b hb a mem_cons_self).bind fun b' hb' => ?_
    exact Inside.foldlM hb' fun b hb a ha => hf b hb a (mem_cons_of_mem _ ha)

/-- A loop that collects one value for each entry. -/
lemma Inside.mapM {f : α → Access β} : ∀ {l : List α}, (∀ a ∈ l, Inside (f a) R) →
    Inside (l.mapM f) fun bs => bs.length = l.length ∧ ∀ b ∈ bs, R b
  | [], _ => inside_pure ⟨rfl, fun _ hb => absurd hb not_mem_nil⟩
  | a :: l, hf => by
    rw [mapM_cons]
    refine (hf a mem_cons_self).bind fun b hb => ?_
    refine (Inside.mapM fun a ha => hf a (mem_cons_of_mem _ ha)).bind fun bs hbs => ?_
    exact inside_pure ⟨congrArg (· + 1) hbs.1, forall_mem_cons.mpr ⟨hb, hbs.2⟩⟩

end Access
