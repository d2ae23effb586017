import Mathlib.Data.List.Infix

/-!
# The longest suffix with a property

A machine that looks for words in a text keeps the longest suffix of what it has read that can
still become one of them.  When a symbol does not extend that suffix, it goes on with the longest
proper suffix of it that can, and so on.  `Candidate` is what holds on the way.

The property is closed under prefixes, as that of being the beginning of a word is.
-/

namespace Suffixes

open List

variable {α : Type}

/-- With a word its prefixes have the property. -/
def Closed (P : List α → Prop) : Prop := ∀ w v, P (w ++ v) → P w

/-- The longest suffix with the property. -/
structure Longest (P : List α → Prop) (w s : List α) : Prop where
  suffix : s <:+ w
  holds : P s
  max : ∀ t, t <:+ w → P t → t <:+ s

variable {P Q : List α → Prop} {w s t : List α} {c : α}

/-- A suffix that is at least as long as every other one is the longest. -/
lemma longest_of_length_le (hs : s <:+ w) (hP : P s)
    (h : ∀ t, t <:+ w → P t → t.length ≤ s.length) : Longest P w s where
  suffix := hs
  holds := hP
  max t ht hPt := suffix_of_suffix_length_le ht hs (h t ht hPt)

lemma longest_nil (h : P []) : Longest P [] [] where
  suffix := suffix_refl _
  holds := h
  max _ ht _ := ht

/-- A property that implies the first one is found in the longest suffix. -/
lemma Longest.suffix_iff (h : Longest P w s) (himp : Q t → P t) :
    t <:+ s ∧ Q t ↔ t <:+ w ∧ Q t := by
  constructor
  · rintro ⟨ht, hQ⟩
    exact ⟨ht.trans h.suffix, hQ⟩
  · rintro ⟨ht, hQ⟩
    exact ⟨h.max t ht (himp hQ), hQ⟩

/-- The longest suffix with a stronger property is the same in the longest suffix. -/
lemma Longest.trans_iff (h : Longest P w s) (himp : ∀ t, Q t → P t) :
    Longest Q s t ↔ Longest Q w t := by
  constructor
  · intro ht
    refine ⟨ht.suffix.trans h.suffix, ht.holds, fun u hu hQ => ?_⟩
    exact ht.max u ((h.suffix_iff (himp u)).mpr ⟨hu, hQ⟩).1 hQ
  · intro ht
    refine ⟨((h.suffix_iff (himp t)).mpr ⟨ht.suffix, ht.holds⟩).1, ht.holds, fun u hu hQ => ?_⟩
    exact ht.max u (hu.trans h.suffix) hQ

/-- A suffix with the property, of which every suffix is a suffix that the symbol extends to one
with the property. -/
structure Candidate (P : List α → Prop) (w : List α) (c : α) (s : List α) : Prop where
  suffix : s <:+ w
  holds : P s
  ends : ∀ t, t <:+ w → P (t ++ [c]) → t <:+ s

lemma Longest.candidate (h : Longest P w s) (hP : Closed P) (c : α) : Candidate P w c s where
  suffix := h.suffix
  holds := h.holds
  ends t ht hc := h.max t ht (hP t [c] hc)

/-- A proper suffix of a word is one of its tail. -/
lemma suffix_tail (h : t <:+ s) (hne : t ≠ s) : t <:+ s.tail := by
  cases s with
  | nil => exact h
  | cons a s => exact (suffix_cons_iff.mp h).resolve_left hne

/-- The candidate is extended. -/
lemma Candidate.extend (h : Candidate P w c s) (hc : P (s ++ [c])) :
    Longest P (w ++ [c]) (s ++ [c]) where
  suffix := by
    obtain ⟨u, rfl⟩ := h.suffix
    exact ⟨u, (append_assoc ..).symm⟩
  holds := hc
  max t ht hPt := by
    rcases suffix_concat_iff.mp ht with rfl | ⟨t, rfl, hw⟩
    · exact nil_suffix
    · obtain ⟨u, hu⟩ := h.ends t hw hPt
      exact ⟨u, by rw [← hu, append_assoc]⟩

/-- The candidate is given up for the longest of its proper suffixes. -/
lemma Candidate.fall (h : Candidate P w c s) (hP : Closed P) (hc : ¬ P (s ++ [c]))
    (ht : Longest P s.tail t) : Candidate P w c t where
  suffix := ht.suffix.trans ((tail_suffix s).trans h.suffix)
  holds := ht.holds
  ends u hu huc := by
    refine ht.max u (suffix_tail (h.ends u hu huc) fun heq => ?_) (hP u [c] huc)
    exact hc (heq ▸ huc)

/-- Nothing is left to extend. -/
lemma Candidate.none (h : Candidate P w c []) (hnil : P []) (hc : ¬ P [c]) :
    Longest P (w ++ [c]) [] where
  suffix := nil_suffix
  holds := hnil
  max t ht hPt := by
    rcases suffix_concat_iff.mp ht with rfl | ⟨t, rfl, hw⟩
    · exact nil_suffix
    · have hnil := suffix_nil.mp (h.ends t hw hPt)
      rw [hnil] at hPt
      exact absurd hPt hc

end Suffixes
