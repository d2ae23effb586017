import Mathlib.Algebra.GroupWithZero.Nat
import Mathlib.Data.List.Induction
import Mathlib.Order.MinMax

/-!
# Counting in a few slots

A fixed number of slots count the elements of a list, up to a limit.  An element is counted in the
slot it has, else in the first free one, else not at all: the slots are those of the elements that
come first.
-/

namespace Slots

open List

variable {α : Type} [DecidableEq α] {limit size : ℕ} {a b : α} {ds l : List α}

/-- Count an element. -/
def add (limit : ℕ) : List (Option (α × ℕ)) → α → List (Option (α × ℕ))
  | [], _ => []
  | none :: slots, a => some (a, min (0 + 1) limit) :: slots
  | some (b, c) :: slots, a =>
    if b = a then some (b, min (c + 1) limit) :: slots else some (b, c) :: add limit slots a

/-- Count the elements of a list, from free slots on. -/
def fill (limit size : ℕ) (l : List α) : List (Option (α × ℕ)) :=
  l.foldl (add limit) (List.replicate size none)

/-- The elements that get a slot. -/
def kept (size : ℕ) (l : List α) : List α :=
  l.foldl (fun ds a => if a ∈ ds ∨ ds.length = size then ds else ds ++ [a]) []

lemma kept_append_singleton (l : List α) (a : α) : kept size (l ++ [a]) =
      if a ∈ kept size l ∨ (kept size l).length = size then kept size l else kept size l ++ [a] := by
  rw [kept, foldl_append]
  rfl

lemma nodup_kept (size : ℕ) (l : List α) : (kept size l).Nodup := by
  induction l using reverseRecOn with
  | nil => exact nodup_nil
  | append_singleton l a ih =>
    rw [kept_append_singleton]
    split_ifs with h
    · exact ih
    · rw [not_or] at h
      refine nodup_append.mpr ⟨ih, nodup_cons.mpr ⟨not_mem_nil, nodup_nil⟩, fun x hx y hy => ?_⟩
      rw [mem_singleton.mp hy]
      exact fun heq => h.1 (heq ▸ hx)

lemma length_kept_le (size : ℕ) (l : List α) : (kept size l).length ≤ size := by
  induction l using reverseRecOn with
  | nil => exact Nat.zero_le size
  | append_singleton l a ih =>
    rw [kept_append_singleton]
    split_ifs with h
    · exact ih
    · rw [length_append, length_singleton]
      omega

/-- An element that is left out is in the list, or it was not met. -/
lemma mem_of_mem_kept (h : a ∈ kept size l) : a ∈ l := by
  induction l using reverseRecOn with
  | nil => exact absurd h not_mem_nil
  | append_singleton l b ih =>
    rw [kept_append_singleton] at h
    split_ifs at h with hkeep
    · exact mem_append_left _ (ih h)
    · rcases mem_append.mp h with h | h
      · exact mem_append_left _ (ih h)
      · exact mem_append_right _ h

/-- While there is a free slot every element has one. -/
lemma mem_kept (hfree : (kept size l).length < size) (h : a ∈ l) : a ∈ kept size l := by
  induction l using reverseRecOn with
  | nil => exact absurd h not_mem_nil
  | append_singleton l b ih =>
    rw [kept_append_singleton] at hfree ⊢
    split_ifs at hfree ⊢ with hkeep
    · rcases mem_append.mp h with h | h
      · exact ih hfree h
      · rw [mem_singleton.mp h]
        exact hkeep.resolve_right (by omega)
    · rcases mem_append.mp h with h | h
      · rw [length_append] at hfree
        exact mem_append_left _ (ih (by omega) h)
      · exact mem_append_right _ h

/-- What is counted in all slots. -/
def total (slots : List (Option (α × ℕ))) : ℕ := (slots.map fun s => (s.map Prod.snd).getD 0).sum

/-! ## What is in the slots -/

lemma add_of_mem {f g : α → ℕ} (rest : List (Option (α × ℕ))) (hnodup : ds.Nodup) (ha : a ∈ ds)
    (heq : g a = min (f a + 1) limit) (hne : ∀ b ∈ ds, b ≠ a → g b = f b) :
    add limit (ds.map (fun b => some (b, f b)) ++ rest) a =
      ds.map (fun b => some (b, g b)) ++ rest := by
  induction ds with
  | nil => exact absurd ha not_mem_nil
  | cons d ds ih =>
    obtain ⟨hd, hnodup⟩ := nodup_cons.mp hnodup
    rw [map_cons, map_cons, cons_append, cons_append, add]
    by_cases hda : d = a
    · subst hda
      rw [if_pos rfl, heq]
      congr 2
      exact map_congr_left fun b hb =>
        by rw [hne b (mem_cons_of_mem _ hb) fun h => hd (h ▸ hb)]
    · rw [if_neg hda, hne d mem_cons_self hda,
        ih hnodup ((mem_cons.mp ha).resolve_left (Ne.symm hda))
          fun b hb => hne b (mem_cons_of_mem _ hb)]

lemma add_of_notMem {f : α → ℕ} (rest : List (Option (α × ℕ))) (ha : a ∉ ds) :
    add limit (ds.map (fun b => some (b, f b)) ++ rest) a =
      ds.map (fun b => some (b, f b)) ++ add limit rest a := by
  induction ds with
  | nil => rfl
  | cons d ds ih =>
    rw [mem_cons, not_or] at ha
    rw [map_cons, cons_append, cons_append, add, if_neg (Ne.symm ha.1), ih ha.2]

/-- **What is in the slots**: the elements that come first, with their counts. -/
theorem fill_eq (limit size : ℕ) (l : List α) :
    fill limit size l = (kept size l).map (fun a => some (a, min (l.count a) limit)) ++
      List.replicate (size - (kept size l).length) none := by
  induction l using reverseRecOn with
  | nil => rfl
  | append_singleton l a ih =>
    have hstep : fill limit size (l ++ [a]) = add limit (fill limit size l) a := by
      rw [fill, foldl_append]
      rfl
    have hother : ∀ b, b ≠ a → (l ++ [a]).count b = l.count b := fun b hb => by
      rw [count_append, count_singleton, if_neg fun h => hb (eq_of_beq h).symm, Nat.add_zero]
    have hself : (l ++ [a]).count a = l.count a + 1 := by
      rw [count_append, count_singleton_self]
    rw [hstep, ih, kept_append_singleton]
    by_cases ha : a ∈ kept size l
    · rw [if_pos (.inl ha)]
      refine add_of_mem _ (nodup_kept size l) ha ?_ fun b _ hb => by rw [hother b hb]
      omega
    · rw [add_of_notMem _ ha]
      have hmap : (kept size l).map (fun b => some (b, min ((l ++ [a]).count b) limit)) =
          (kept size l).map fun b => some (b, min (l.count b) limit) :=
        map_congr_left fun b hb => by rw [hother b fun h => ha (h ▸ hb)]
      by_cases hfull : (kept size l).length = size
      · rw [if_pos (.inr hfull), hmap, hfull, Nat.sub_self]
        rfl
      · have hle := length_kept_le size l
        have hnew : l.count a = 0 := count_eq_zero_of_not_mem fun h =>
          ha (mem_kept (by omega) h)
        have hfree : size - (kept size l).length = (size - ((kept size l).length + 1)) + 1 := by
          omega
        rw [if_neg (not_or.mpr ⟨ha, hfull⟩), hfree, replicate_succ, add, map_append,
          hmap, map_singleton, hself, hnew, length_append, length_singleton,
          append_assoc]
        rfl

/-- **Every count is right**, up to the limit. -/
theorem eq_min_countP {c : ℕ} (h : some (a, c) ∈ fill limit size l) :
    c = min (l.countP fun b => b = a) limit := by
  rw [fill_eq] at h
  rcases mem_append.mp h with h | h
  · obtain ⟨b, -, heq⟩ := mem_map.mp h
    obtain ⟨rfl, rfl⟩ := Prod.mk.inj (Option.some.inj heq)
    rfl
  · cases eq_of_mem_replicate h

/-- Nothing changes when a counted element has no slot, or a full count. -/
lemma add_fill (ha : a ∈ l) (hfull : ∀ c, some (a, c) ∈ fill limit size l → c = limit) :
    add limit (fill limit size l) a = fill limit size l := by
  rw [fill_eq] at hfull ⊢
  by_cases hkept : a ∈ kept size l
  · have hcount := hfull _ (mem_append_left _ (mem_map.mpr ⟨a, hkept, rfl⟩))
    refine add_of_mem _ (nodup_kept size l) hkept ?_ fun b _ _ => rfl
    omega
  · have hle : size ≤ (kept size l).length := Nat.not_lt.mp fun hfree => hkept (mem_kept hfree ha)
    rw [add_of_notMem _ hkept, Nat.sub_eq_zero_of_le hle]
    rfl

/-- Some element has been counted. -/
lemma exists_pos (hlimit : 0 < limit) (hsize : 0 < size) (ha : a ∈ l) :
    ∃ b c, some (b, c) ∈ fill limit size l ∧ 0 < c := by
  have hne : kept size l ≠ [] := fun hnil => by
    have hmem : a ∈ kept size l := mem_kept (by rw [hnil]; exact hsize) ha
    rw [hnil] at hmem
    exact not_mem_nil hmem
  obtain ⟨b, hb⟩ := exists_mem_of_ne_nil _ hne
  have hpos : 0 < l.count b := List.count_pos_iff.mpr (mem_of_mem_kept hb)
  refine ⟨b, min (l.count b) limit, ?_, by omega⟩
  rw [fill_eq]
  exact mem_append_left _ (mem_map.mpr ⟨b, hb, rfl⟩)

end Slots
