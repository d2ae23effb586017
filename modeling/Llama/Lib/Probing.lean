import Mathlib.Data.List.Basic

/-!
# Open addressing

A hash set is a list of slots, each empty or holding a key.  `find` starts at the slot of the hash
and steps cyclically to the first slot that is empty or holds the key.  A key is inserted at the
slot that is found; no key is ever taken out, so a key that was inserted stays where it is found.
-/

namespace Probing

open List

variable {κ : Type} [DecidableEq κ] {slots : List (Option κ)} {key : κ} {n i j : ℕ}

/-- In `n` steps from slot `i` on, the first slot that is empty or holds the key. -/
def probe (slots : List (Option κ)) (key : κ) : ℕ → ℕ → Option ℕ
  | 0, _ => none
  | n + 1, i =>
    if slots[i]? = some none ∨ slots[i]? = some (some key) then some i
    else probe slots key n ((i + 1) % slots.length)

/-- The slot that holds a key, or where it is inserted. -/
def find (slots : List (Option κ)) (hash : ℕ) (key : κ) : Option ℕ :=
  probe slots key slots.length (hash % slots.length)

/-- What is found is empty or holds the key. -/
lemma probe_spec (h : probe slots key n i = some j) :
    slots[j]? = some none ∨ slots[j]? = some (some key) := by
  induction n generalizing i with
  | zero => cases h
  | succ n ih =>
    rw [probe] at h
    split at h
    · cases h
      assumption
    · exact ih h

variable {hash : ℕ}

lemma find_spec (h : find slots hash key = some j) :
    slots[j]? = some none ∨ slots[j]? = some (some key) := probe_spec h

/-- What is found is a slot of the set. -/
lemma find_lt (h : find slots hash key = some j) : j < slots.length := by
  rcases find_spec h with hj | hj
  · exact (List.getElem?_eq_some_iff.mp hj).1
  · exact (List.getElem?_eq_some_iff.mp hj).1

/-- A key that is not in the set is found at an empty slot. -/
lemma find_of_notMem (hkey : some key ∉ slots) (h : find slots hash key = some j) :
    slots[j]? = some none :=
  (find_spec h).resolve_right fun hj => hkey (mem_of_getElem? hj)

/-- A key is found at the slot where it was inserted. -/
lemma probe_set_self (h : probe slots key n i = some j) :
    probe (slots.set j (some key)) key n i = some j := by
  have hj : j < slots.length := by
    rcases probe_spec h with hj | hj
    · exact (List.getElem?_eq_some_iff.mp hj).1
    · exact (List.getElem?_eq_some_iff.mp hj).1
  induction n generalizing i with
  | zero => cases h
  | succ n ih =>
    rw [probe] at h ⊢
    by_cases hij : i = j
    · rw [hij, getElem?_set_self hj, if_pos (Or.inr rfl)]
    · split at h
      · cases h
        exact absurd rfl hij
      · rename_i hne
        rw [getElem?_set_ne (Ne.symm hij), if_neg hne, length_set]
        exact ih h

lemma find_set_self (h : find slots hash key = some j) :
    find (slots.set j (some key)) hash key = some j := by
  rw [find, length_set]
  exact probe_set_self h

/-- A key that was found stays where it is when an empty slot is filled. -/
lemma probe_set_of_empty {p : ℕ} {k : κ} (h : probe slots key n i = some j)
    (hkey : slots[j]? = some (some key)) (hp : slots[p]? = some none) :
    probe (slots.set p (some k)) key n i = some j := by
  induction n generalizing i with
  | zero => cases h
  | succ n ih =>
    rw [probe] at h ⊢
    by_cases hip : p = i
    · -- the probe would have stopped at the empty slot
      rw [hip] at hp
      rw [if_pos (Or.inl hp)] at h
      cases h
      rw [hp] at hkey
      cases hkey
    · rw [getElem?_set_ne hip, length_set]
      split at h
      · rename_i hstop
        rw [if_pos hstop, h]
      · rename_i hne
        rw [if_neg hne]
        exact ih h

lemma find_set_of_empty {p : ℕ} {k : κ} (h : find slots hash key = some j)
    (hkey : slots[j]? = some (some key)) (hp : slots[p]? = some none) :
    find (slots.set p (some k)) hash key = some j := by
  rw [find, length_set]
  exact probe_set_of_empty h hkey hp

/-- A probe that finds nothing has passed only over other keys. -/
lemma probe_eq_none (h : probe slots key n i = none) (hi : i < slots.length) :
    ∀ k < n, ∃ key', slots[(i + k) % slots.length]? = some (some key') := by
  induction n generalizing i with
  | zero => exact fun k hk => absurd hk (Nat.not_lt_zero k)
  | succ n ih =>
    rw [probe] at h
    split at h
    · cases h
    · rename_i hne
      intro k hk
      cases k with
      | zero =>
        rw [Nat.add_zero, Nat.mod_eq_of_lt hi, getElem?_eq_getElem hi]
        rw [getElem?_eq_getElem hi] at hne
        cases hslot : slots[i] with
        | none => rw [hslot] at hne; exact absurd (Or.inl rfl) hne
        | some key' => exact ⟨key', rfl⟩
      | succ k =>
        have hpos : 0 < slots.length := by omega
        obtain ⟨key', hkey'⟩ := ih h (Nat.mod_lt _ hpos) k (by omega)
        refine ⟨key', ?_⟩
        rwa [Nat.mod_add_mod, Nat.add_assoc, Nat.add_comm 1 k] at hkey'

/-- **A set with an empty slot is not full.** -/
theorem find_ne_none (h : none ∈ slots) : find slots hash key ≠ none := by
  intro hfind
  obtain ⟨p, hp, hslot⟩ := mem_iff_getElem.mp h
  have hpos : 0 < slots.length := by omega
  have hi : hash % slots.length < slots.length := Nat.mod_lt _ hpos
  -- the number of steps from the first slot of the probe to the empty one
  obtain ⟨key', hkey'⟩ := probe_eq_none hfind hi
    ((p + (slots.length - hash % slots.length)) % slots.length) (Nat.mod_lt _ hpos)
  have hplace : (hash % slots.length + (p + (slots.length - hash % slots.length)) % slots.length) %
      slots.length = p := by
    rw [Nat.add_mod_mod, Nat.add_left_comm, Nat.add_sub_cancel' (Nat.le_of_lt hi), Nat.add_mod_right,
      Nat.mod_eq_of_lt hp]
  rw [hplace, getElem?_eq_getElem hp, hslot] at hkey'
  cases hkey'

end Probing
