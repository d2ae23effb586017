import Mathlib.Data.List.Infix
import Mathlib.Data.List.Range
import Mathlib.Data.Nat.Find

/-!
# Occurrences of words in a text

A word occurs in a text at a place if the text from there on begins with it.  A text that grows is
searched as it grows: an occurrence that is not yet complete is a beginning of the word at the end
of the text.
-/

namespace Occurs

open List

variable {α : Type*} {w t u : List α} {i n : ℕ} {words : List (List α)}

/-- The word occurs in the text at the place. -/
def At (w t : List α) (i : ℕ) : Prop := w <+: t.drop i ∧ i ≤ t.length

/-- The first place where one of the words occurs. -/
structure First (words : List (List α)) (t : List α) (i : ℕ) : Prop where
  occurs : ∃ w ∈ words, At w t i
  le : ∀ w ∈ words, ∀ j, At w t j → i ≤ j

/-- The last place where the word occurs. -/
structure Last (w t : List α) (i : ℕ) : Prop where
  occurs : At w t i
  le : ∀ j, At w t j → j ≤ i

/-- The text ends with a beginning of the word, which is not empty. -/
def Begins (w t : List α) : Prop := ∃ n, 0 < n ∧ n ≤ w.length ∧ w.take n <:+ t

lemma At.add_length_le (h : At w t i) : i + w.length ≤ t.length := by
  have hlength := h.1.length_le
  rw [length_drop] at hlength
  have hle := h.2
  omega

/-- An occurrence in the text is one in a longer text. -/
lemma At.append (h : At w t i) (u : List α) : At w (t ++ u) i := by
  refine ⟨?_, by rw [length_append]; exact h.2.trans (Nat.le_add_right _ _)⟩
  rw [drop_append_of_le_length h.2]
  exact h.1.trans (prefix_append _ _)

/-- An occurrence that is complete in the text. -/
lemma at_append_iff (h : i + w.length ≤ t.length) : At w (t ++ u) i ↔ At w t i := by
  refine ⟨fun hat => ⟨?_, by omega⟩, fun hat => hat.append u⟩
  have hprefix := hat.1
  rw [drop_append_of_le_length (by omega)] at hprefix
  exact prefix_of_prefix_length_le hprefix (prefix_append _ _)
    (by rw [length_drop]; omega)

/-- An occurrence behind a first part. -/
lemma at_drop_iff (h : n ≤ t.length) : At w (t.drop n) i ↔ At w t (n + i) := by
  unfold At
  rw [drop_drop, length_drop]
  exact and_congr_right fun _ => by omega

/-- An occurrence that is not complete in the text: the text ends with a beginning of the word, and
so does every part of it that has the place. -/
lemma begins_of_at_append (h : At w (t ++ u) i) (hlt : i < t.length)
    (hlong : t.length < i + w.length) (hn : n ≤ i) : Begins w (t.drop n) := by
  refine ⟨t.length - i, by omega, by omega, ?_⟩
  have hprefix := h.1
  rw [drop_append_of_le_length hlt.le] at hprefix
  have hdrop : t.drop i <+: w := prefix_of_prefix_length_le (prefix_append _ _) hprefix
    (by rw [length_drop]; omega)
  have htake : w.take (t.length - i) = t.drop i := by
    rw [← length_drop]
    exact (prefix_iff_eq_take.mp hdrop).symm
  rw [htake]
  refine ⟨(t.drop n).take (i - n), ?_⟩
  have hi : t.drop i = (t.drop n).drop (i - n) := by
    rw [drop_drop]
    congr 1
    omega
  rw [hi, take_append_drop]

lemma exists_last (h : ∃ i, At w t i) : ∃ i, Last w t i := by
  classical
  obtain ⟨i, hat⟩ := h
  exact ⟨Nat.findGreatest (At w t) t.length, Nat.findGreatest_spec hat.2 hat,
    fun _ hj => Nat.le_findGreatest hj.2 hj⟩

variable [DecidableEq α]

/-- The first place, from a place on, where the word occurs. -/
def find (t w : List α) (start : ℕ) : Option ℕ :=
  (List.range' start (t.length + 1 - start)).find? fun i => w.isPrefixOf (t.drop i)

lemma find_eq_some_iff {start : ℕ} :
    find t w start = some i ↔ At w t i ∧ start ≤ i ∧ ∀ j, start ≤ j → At w t j → i ≤ j := by
  unfold find
  rw [find?_range'_eq_some]
  constructor
  · rintro ⟨hpre, hmem, hbefore⟩
    have hbounds := mem_range'_1.mp hmem
    refine ⟨⟨ isPrefixOf_iff_prefix.mp hpre, by omega⟩, hbounds.1, fun j hj hat => ?_⟩
    refine Nat.le_of_not_lt fun hlt => ?_
    have hnot := hbefore j hj hlt
    rw [ isPrefixOf_iff_prefix.mpr hat.1] at hnot
    cases hnot
  · rintro ⟨hat, hstart, hfirst⟩
    have hle := hat.2
    refine ⟨ isPrefixOf_iff_prefix.mpr hat.1, mem_range'_1.mpr ⟨hstart, by omega⟩,
      fun j hj hlt => ?_⟩
    rw [Bool.not_eq_true', Bool.eq_false_iff]
    intro hpre
    exact absurd (hfirst j hj ⟨ isPrefixOf_iff_prefix.mp hpre, by omega⟩) (by omega)

end Occurs
