import Mathlib.Data.List.Infix

/-!
# A matcher that starts over

The simplest matcher for a word compares the symbols of a text with those of the word, one by one,
and starts over with the next symbol when they differ.  It does not look at a symbol twice, so that
it may step over an occurrence that begins inside an attempt.  It stops at an occurrence if and only
if the text before it consists of failed attempts.
-/

namespace Restart

open List

variable {α : Type*} [DecidableEq α] {p t l : List α} {j k n : ℕ}

/-- The matcher, when `j` symbols of the word were just read: the length of what is left of the text
behind the word. -/
def scan (p : List α) : List α → ℕ → Option ℕ
  | [], _ => none
  | x :: t, j =>
    if p[j]? = some x then
      if j + 1 = p.length then some t.length else scan p t (j + 1)
    else scan p t 0

/-- Attempts that fail: a part of the word, and a symbol that is not the next one of the word. -/
inductive Attempts (p : List α) : List α → Prop
  | nil : Attempts p []
  | step {j : ℕ} {x : α} {l : List α} (hj : j < p.length) (hx : p[j]? ≠ some x)
      (h : Attempts p l) : Attempts p (p.take j ++ x :: l)

/-- The next symbols of the word are read. -/
lemma scan_append_take (h : j + k < p.length) (t : List α) :
    scan p ((p.drop j).take k ++ t) j = scan p t (j + k) := by
  induction k generalizing j with
  | zero => rfl
  | succ k ih =>
    have hlt : j < p.length := by omega
    rw [drop_eq_getElem_cons hlt, take_succ_cons, cons_append, scan,
      if_pos (getElem?_eq_getElem hlt), if_neg (by omega), ih (by omega), Nat.add_assoc,
      Nat.add_comm 1 k]

/-- An attempt that fails leads back to the beginning. -/
lemma scan_attempts (h : Attempts p l) (t : List α) : scan p (l ++ t) 0 = scan p t 0 := by
  induction h with
  | nil => rfl
  | @step j x l hj hx _ ih =>
    have htake := scan_append_take (j := 0) (by omega : 0 + j < p.length) (x :: l ++ t)
    rw [drop_zero, Nat.zero_add] at htake
    rw [append_assoc, htake, cons_append, scan, if_neg hx, ih]

/-- The whole word is read. -/
lemma scan_word (hp : p ≠ []) (t : List α) : scan p (p ++ t) 0 = some t.length := by
  obtain ⟨front, x, rfl⟩ := (eq_nil_or_concat p).resolve_left hp
  have htake := scan_append_take (p := front.concat x) (j := 0) (k := front.length)
    (by simp) (x :: t)
  simp only [drop_zero, Nat.zero_add, concat_eq_append, take_left] at htake
  simp only [concat_eq_append, append_assoc, singleton_append]
  rw [htake, scan, if_pos (getElem?_concat_length), if_pos (by simp)]

/-- What stops the matcher: failed attempts, and the word. -/
lemma exists_of_scan (hj : j < p.length) (h : scan p t j = some n) :
    ∃ l rest, p.take j ++ t = l ++ p ++ rest ∧ rest.length = n ∧ Attempts p l := by
  induction t generalizing j with
  | nil => cases h
  | cons x t ih =>
    rw [scan] at h
    split_ifs at h with hx hlast
    · have hword : p.take j ++ [x] = p := by
        have htake := take_concat_get' p j hj
        rw [getElem?_eq_getElem hj] at hx
        rw [Option.some.inj hx] at htake
        rw [htake, hlast, take_length]
      exact ⟨[], t, by rw [append_cons, hword, nil_append], Option.some.inj h, .nil⟩
    · obtain ⟨l, rest, ht, hn, hl⟩ := ih (by omega) h
      have htake := take_concat_get' p j hj
      rw [getElem?_eq_getElem hj] at hx
      rw [Option.some.inj hx] at htake
      exact ⟨l, rest, by rw [append_cons, htake, ht], hn, hl⟩
    · obtain ⟨l, rest, ht, hn, hl⟩ := ih (by omega) h
      rw [take_zero, nil_append] at ht
      exact ⟨p.take j ++ x :: l, rest, by simp [ht], hn, .step hj hx hl⟩

/-- The matcher stops at an occurrence if and only if the text before it consists of failed
attempts. -/
lemma scan_eq_some_iff (hp : p ≠ []) :
    scan p t 0 = some n ↔ ∃ l rest, t = l ++ p ++ rest ∧ rest.length = n ∧ Attempts p l := by
  refine ⟨fun h => exists_of_scan (length_pos_iff.mpr hp) h, ?_⟩
  rintro ⟨l, rest, rfl, rfl, hl⟩
  rw [append_assoc, scan_attempts hl, scan_word hp]

end Restart
