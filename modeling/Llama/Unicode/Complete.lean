import Llama.Unicode
import Mathlib.Data.List.Induction

/-!
# Text that ends inside a character

`utf8IsComplete` looks at the last bytes of a text, back to one that starts a character.  A text
that does not begin at a character may have no such byte: what the function says of a piece of a
text is what it says of the text when the piece has a byte that starts a character.
-/

namespace Llama.Unicode

open List

/-- The number of bytes of a character with this first byte. -/
def expectedBytes (c : UInt8) : ℕ :=
  if c.toNat ≥ 0xF0 then 4 else if c.toNat ≥ 0xE0 then 3 else if c.toNat ≥ 0xC0 then 2 else 1

/-- The loop of `common_utf8_is_complete`, over the bytes from the last one on. -/
def completeFrom : ℕ → List UInt8 → Bool
  | _, [] => false
  | i, c :: rest =>
    if i > 4 then false
    else if isContinuation c then completeFrom (i + 1) rest
    else i ≥ expectedBytes c

/-- `common_utf8_is_complete`. -/
def utf8IsComplete (s : List UInt8) : Bool := s.isEmpty || completeFrom 1 s.reverse

variable {s piece : List UInt8} {i : ℕ}

lemma completeFrom_append {l : List UInt8} (h : ∃ c ∈ l, isContinuation c = false)
    (r : List UInt8) : completeFrom i (l ++ r) = completeFrom i l := by
  induction l generalizing i with
  | nil =>
    obtain ⟨c, hc, -⟩ := h
    exact absurd hc not_mem_nil
  | cons c l ih =>
    rw [cons_append, completeFrom, completeFrom]
    by_cases hc : isContinuation c = true
    · obtain ⟨d, hd, hfalse⟩ := h
      have hmem : d ∈ l := (mem_cons.mp hd).resolve_left fun heq => by
        rw [heq, hc] at hfalse
        cases hfalse
      rw [if_pos hc, if_pos hc, ih ⟨d, hmem, hfalse⟩]
    · rw [if_neg hc, if_neg hc]

lemma completeFrom_of_continuation {l : List UInt8} (h : ∀ c ∈ l, isContinuation c = true) :
    completeFrom i l = false := by
  induction l generalizing i with
  | nil => rfl
  | cons c l ih =>
    obtain ⟨hc, hl⟩ := forall_mem_cons.mp h
    rw [completeFrom, if_pos hc, ih hl, ite_self]

/-- **A piece that starts a character** shows whether the text is complete. -/
theorem utf8IsComplete_append (h : ∃ c ∈ piece, isContinuation c = false) (s : List UInt8) :
    utf8IsComplete (s ++ piece) = utf8IsComplete piece := by
  obtain ⟨c, hc, hfalse⟩ := h
  have hpiece : piece.isEmpty = false := isEmpty_eq_false_iff.mpr (ne_nil_of_mem hc)
  have hboth : (s ++ piece).isEmpty = false :=
    isEmpty_eq_false_iff.mpr (append_ne_nil_of_right_ne_nil s (ne_nil_of_mem hc))
  rw [utf8IsComplete, utf8IsComplete, hpiece, hboth, reverse_append,
    completeFrom_append ⟨c, mem_reverse.mpr hc, hfalse⟩]

/-- **A piece that starts no character** is not complete. -/
theorem utf8IsComplete_of_continuation (hpiece : piece ≠ [])
    (h : ∀ c ∈ piece, isContinuation c = true) : utf8IsComplete piece = false := by
  rw [utf8IsComplete, isEmpty_eq_false_iff.mpr hpiece,
    completeFrom_of_continuation fun c hc => h c (mem_reverse.mp hc), Bool.or_false]

end Llama.Unicode
