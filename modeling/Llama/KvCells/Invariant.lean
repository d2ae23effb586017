import Llama.KvCells
import Llama.Lib.Run
import Mathlib.Algebra.BigOperators.Group.Finset.Piecewise
import Mathlib.Algebra.Order.BigOperators.Group.Finset
import Mathlib.Data.List.GetD
import Mathlib.Tactic.Linarith

/-!
# The representation invariant of the cells

The used set and the position maps are redundant: both are determined by the vectors.
`KvCells.RI` states how.  Every method changes at most one cell, so the methods are
described once by `Rewrites c i x c'` -- cell `i` became `x`, nothing else changed, and
the used set and the maps followed -- and the invariant is proved from that alone.

`KvCells.WF` is the part that survives a caller who adds a sequence to a cell that
already holds it: the maps then count too much, never too little.
-/

namespace Llama

open Function Finset CountMap

namespace Cell

/-! ## The methods, seen from the cell they change -/

def seqRm (x : Cell) (s : ℤ) : Cell :=
  if x.seq.erase s = ∅ then .empty else { x with seq := x.seq.erase s }

def seqKeep (x : Cell) (s : ℤ) : Cell :=
  if s ∈ x.seq then { x with seq := {s} } else if x.seq.Nonempty then .empty else x

def seqAdd (x : Cell) (s : ℤ) : Cell := { x with seq := insert s x.seq }

def posAdd (x : Cell) (d : ℤ) : Cell :=
  if x.pos + d < 0 then { x with pos := -1, shift := 0, seq := ∅ }
  else { x with pos := x.pos + d, shift := x.shift + d }

def posDiv (x : Cell) (d : ℤ) : Cell :=
  { x with pos := x.pos.tdiv d, shift := x.shift + (x.pos - x.pos.tdiv d) }

/-- Whether the cell holds sequence `s` at position `p`, as a number. -/
def occ (x : Cell) (s : ℤ) (p : ℤ) : ℕ := if s ∈ x.seq ∧ x.pos = p then 1 else 0

@[simp] lemma occ_empty (s : ℤ) (p : ℤ) : empty.occ s p = 0 := by simp [occ, empty]

/-- An occupied cell holds something only where it should: an empty cell holds no
sequence and no shift, positions are not negative, ids are in the range of the bitset. -/
structure Valid (x : Cell) : Prop where
  empty_seq : x.pos = -1 → x.seq = ∅
  empty_shift : x.pos = -1 → x.shift = 0
  pos_ge : -1 ≤ x.pos
  seq_range : ∀ s ∈ x.seq, 0 ≤ s ∧ s < maxSeq

lemma valid_empty : empty.Valid := by
  constructor <;> simp [empty]

lemma occ_seqRm (x : Cell) (s t p : ℤ) : (x.seqRm s).occ t p = if t = s then 0 else x.occ t p := by
  unfold Cell.seqRm
  split
  · rename_i he
    by_cases ht : t = s
    · simp [ht]
    · have hno : t ∉ x.seq := fun hm => by
        have : t ∈ x.seq.erase s := mem_erase.mpr ⟨ht, hm⟩
        simp [he] at this
      simp [occ, hno, empty]
  · by_cases ht : t = s <;> simp [occ, ht]

lemma occ_seqKeep (x : Cell) (s t p : ℤ) :
    (x.seqKeep s).occ t p = if t = s then x.occ t p else 0 := by
  unfold Cell.seqKeep
  split
  · rename_i hs
    by_cases ht : t = s
    · subst ht; simp [occ, hs]
    · simp [occ, ht]
  · rename_i hs
    split
    · by_cases ht : t = s
      · subst ht; simp [occ, hs, empty]
      · simp [ht]
    · rename_i hn
      simp [occ, not_nonempty_iff_eq_empty.mp hn]

lemma occ_seqAdd (x : Cell) (s t p : ℤ) :
    (x.seqAdd s).occ t p = if t = s then (if x.pos = p then 1 else 0) else x.occ t p := by
  by_cases ht : t = s <;> simp [occ, Cell.seqAdd, ht]

variable {x : Cell}

section

variable (h : x.Valid)

include h

lemma Valid.seqRm (s : ℤ) : (x.seqRm s).Valid := by
  unfold Cell.seqRm
  split
  · exact valid_empty
  · refine ⟨?_, h.empty_shift, h.pos_ge, ?_⟩
    · intro hp
      have hseq : x.seq = ∅ := h.empty_seq hp
      simp [hseq]
    · intro t ht
      exact h.seq_range t (mem_of_mem_erase ht)

lemma Valid.seqKeep (s : ℤ) : (x.seqKeep s).Valid := by
  unfold Cell.seqKeep
  split
  · rename_i hs
    refine ⟨?_, h.empty_shift, h.pos_ge, ?_⟩
    · intro hp
      rw [h.empty_seq hp] at hs
      simp at hs
    · intro t ht
      rw [mem_singleton.mp ht]
      exact h.seq_range s hs
  · split
    · exact valid_empty
    · exact h

lemma Valid.seqAdd {s : ℤ} (hne : x.pos ≠ -1) (hs : 0 ≤ s ∧ s < maxSeq) : (x.seqAdd s).Valid := by
  refine ⟨fun hp => absurd hp hne, h.empty_shift, h.pos_ge, ?_⟩
  intro t ht
  rcases mem_insert.mp ht with rfl | ht
  · exact hs
  · exact h.seq_range t ht

lemma Valid.posSet {p : ℤ} (hp : 0 ≤ p) : ({ x with pos := p } : Cell).Valid := by
  refine ⟨fun he => ?_, fun he => ?_, ?_, h.seq_range⟩
  · have he : p = -1 := he
    omega
  · have he : p = -1 := he
    omega
  · show -1 ≤ p
    omega

lemma Valid.extSet (e : KvCellExt) :
    ({ x with ext := e } : Cell).Valid := ⟨h.empty_seq, h.empty_shift, h.pos_ge, h.seq_range⟩

lemma Valid.posAdd (d : ℤ) : (x.posAdd d).Valid := by
  unfold Cell.posAdd
  split
  · constructor <;> simp
  · refine ⟨fun he => ?_, fun he => ?_, ?_, h.seq_range⟩
    · have he : x.pos + d = -1 := he
      omega
    · have he : x.pos + d = -1 := he
      omega
    · show -1 ≤ x.pos + d
      omega

lemma Valid.posDiv {d : ℤ} (hne : x.pos ≠ -1) (hd : 1 ≤ d) : (x.posDiv d).Valid := by
  have hge := h.pos_ge
  have hp : 0 ≤ x.pos := by omega
  have hq : 0 ≤ x.pos.tdiv d := Int.tdiv_nonneg hp (by omega)
  refine ⟨fun he => ?_, fun he => ?_, ?_, h.seq_range⟩
  · have he : x.pos.tdiv d = -1 := he
    omega
  · have he : x.pos.tdiv d = -1 := he
    omega
  · show -1 ≤ x.pos.tdiv d
    omega

end

end Cell

namespace KvCells

/-! ## Invariants -/

/-- The number of cells that hold sequence `s` at position `p`. -/
def cellCount (c : KvCells) (s : ℤ) (p : ℤ) : ℕ :=
  ((Finset.range c.size).filter fun i => s ∈ c.seq i ∧ c.pos i = p).card

lemma cellCount_eq_sum (c : KvCells) (s : ℤ) (p : ℤ) :
    c.cellCount s p = ∑ i ∈ range c.size, (c.cell i).occ s p := by
  rw [cellCount, card_filter]
  rfl

/-- The maps count every cell at least once. -/
structure WF (c : KvCells) : Prop where
  mem_used : ∀ i, i ∈ c.used ↔ i < c.size ∧ c.pos i ≠ -1
  positive : ∀ s, (c.seqPos s).Positive
  count_ge : ∀ s p, c.cellCount s p ≤ (c.seqPos s).count p
  valid : ∀ i < c.size, (c.cell i).Valid

/-- The maps count every cell exactly once. -/
structure RI (c : KvCells) : Prop extends WF c where
  count_eq : ∀ s p, (c.seqPos s).count p = c.cellCount s p

variable {c c' : KvCells} {i : ℕ} {s : ℤ} {x : Cell}

/-- A map entry exists exactly where its count is positive. -/
lemma WF.contains_iff (h : c.WF) (s : ℤ) (p : ℤ) :
    (c.seqPos s).contains p = true ↔ 0 < (c.seqPos s).count p :=
  (h.positive s).contains_iff p

lemma occ_le_cellCount (hi : i < c.size) (s : ℤ) (p : ℤ) :
    (c.cell i).occ s p ≤ c.cellCount s p := by
  rw [cellCount_eq_sum]
  exact single_le_sum (f := fun j => (c.cell j).occ s p)
    (fun _ _ => Nat.zero_le _) (mem_range.mpr hi)

lemma WF.occ_le (h : c.WF) (hi : i < c.size) (s : ℤ) (p : ℤ) :
    (c.cell i).occ s p ≤ (c.seqPos s).count p :=
  (occ_le_cellCount hi s p).trans (h.count_ge s p)

lemma cellCount_pos_iff {p : ℤ} :
    0 < c.cellCount s p ↔ ∃ i < c.size, s ∈ c.seq i ∧ c.pos i = p := by
  simp only [cellCount, card_pos, Finset.Nonempty, mem_filter, mem_range]

lemma ri_resize (n : ℕ) : (resize n).RI where
  mem_used := by intro i; simp [resize]
  positive := by intro s; exact positive_empty
  count_ge := by intro s p; simp [cellCount, resize]
  valid := by intro i _; exact Cell.valid_empty
  count_eq := by intro s p; simp [cellCount, resize]

lemma ri_reset (c : KvCells) : c.reset.RI := ri_resize c.size

/-! ## One cell rewritten -/

/-- Cell `i` of `c` became `x` in `c'`; no other cell changed, and the used set and the
position maps followed the change. -/
structure Rewrites (c : KvCells) (i : ℕ) (x : Cell) (c' : KvCells) : Prop where
  size_eq : c'.size = c.size
  cell_eq : c'.cell = Function.update c.cell i x
  mem_used : ∀ j, j ∈ c'.used ↔ if j = i then x.pos ≠ -1 else j ∈ c.used
  count_eq : ∀ s p, (c'.seqPos s).count p + (c.cell i).occ s p = (c.seqPos s).count p + x.occ s p
  positive : (∀ s, (c.seqPos s).Positive) → ∀ s, (c'.seqPos s).Positive

section

variable (h : Rewrites c i x c')

include h

lemma Rewrites.cell_self : c'.cell i = x := by rw [h.cell_eq, update_self]

lemma Rewrites.cell_of_ne {j : ℕ} (hij : j ≠ i) :
    c'.cell j = c.cell j := by rw [h.cell_eq, update_of_ne hij]

/-- The number of cells holding `s` at `p` changes by what cell `i` contributes. -/
lemma Rewrites.cellCount_eq (hi : i < c.size) (s : ℤ) (p : ℤ) :
    c'.cellCount s p + (c.cell i).occ s p = c.cellCount s p + x.occ s p := by
  have hmem : i ∈ range c.size := mem_range.mpr hi
  simp only [cellCount_eq_sum, h.size_eq]
  rw [← add_sum_erase _ _ hmem, ← add_sum_erase _ (fun j => (c.cell j).occ s p) hmem, h.cell_self]
  have hrest : ∑ j ∈ (range c.size).erase i, (c'.cell j).occ s p =
      ∑ j ∈ (range c.size).erase i, (c.cell j).occ s p :=
    sum_congr rfl fun j hj => by rw [h.cell_of_ne (ne_of_mem_erase hj)]
  omega

/-- Rewriting cells keeps what the maps count too much. -/
lemma Rewrites.excess_eq (hi : i < c.size) (s : ℤ) (p : ℤ) :
    (c'.seqPos s).count p + c.cellCount s p = (c.seqPos s).count p + c'.cellCount s p := by
  have h1 := h.count_eq s p
  have h2 := h.cellCount_eq hi s p
  omega

lemma Rewrites.wf (hc : c.WF) (hi : i < c.size) (hx : x.Valid) : c'.WF where
  mem_used := by
    intro j
    rw [h.mem_used j, h.size_eq]
    have hpos : c'.pos j = (c'.cell j).pos := rfl
    by_cases hj : j = i
    · subst hj
      rw [if_pos rfl, hpos, h.cell_self]
      exact ⟨fun hne => ⟨hi, hne⟩, fun hne => hne.2⟩
    · rw [if_neg hj, hpos, h.cell_of_ne hj]
      exact hc.mem_used j
  positive := h.positive hc.positive
  count_ge := by
    intro s p
    have h1 := h.excess_eq hi s p
    have h2 := hc.count_ge s p
    omega
  valid := by
    intro j hj
    rw [h.size_eq] at hj
    by_cases hji : j = i
    · subst hji
      rw [h.cell_self]
      exact hx
    · rw [h.cell_of_ne hji]
      exact hc.valid j hj

lemma Rewrites.ri (hc : c.RI) (hi : i < c.size) (hx : x.Valid) : c'.RI where
  toWF := h.wf hc.toWF hi hx
  count_eq := by
    intro s p
    have h1 := h.excess_eq hi s p
    have h2 := hc.count_eq s p
    omega

end

/-! ## The methods rewrite one cell -/

@[simp] lemma count_seqPosRm (c : KvCells) (i : ℕ) (s p : ℤ) :
    ((c.seqPosRm i).seqPos s).count p = (c.seqPos s).count p - (c.cell i).occ s p := by
  by_cases hs : s ∈ c.seq i
  · simp [seqPosRm, Cell.occ, cell, hs, eq_comm (a := p)]
  · simp [seqPosRm, Cell.occ, cell, hs]

lemma count_seqPosDec (c : KvCells) (s q t p : ℤ) : ((c.seqPosDec s q).seqPos t).count p =
      (c.seqPos t).count p - if t = s ∧ p = q then 1 else 0 := by
  by_cases ht : t = s
  · subst ht; simp [seqPosDec]
  · simp [seqPosDec, ht]

lemma count_seqPosInc (c : KvCells) (s q t p : ℤ) : ((c.seqPosInc s q).seqPos t).count p =
      (c.seqPos t).count p + if t = s ∧ p = q then 1 else 0 := by
  by_cases ht : t = s
  · subst ht; simp [seqPosInc]
  · simp [seqPosInc, ht]

lemma seqPos_seqRm (c : KvCells) (i : ℕ) (s : ℤ) :
    (c.seqRm i s).seqPos = (c.seqPosDec s (c.pos i)).seqPos := by
  simp only [seqRm]; split <;> rfl

section

variable (h : ∀ s, (c.seqPos s).Positive)

include h

lemma positive_seqPosRm (i : ℕ) (s : ℤ) : ((c.seqPosRm i).seqPos s).Positive := by
  simp only [seqPosRm]
  split
  · exact (h s).dec _
  · exact h s

lemma positive_seqPosAdd (i : ℕ) (s : ℤ) : ((c.seqPosAdd i).seqPos s).Positive := by
  simp only [seqPosAdd]
  split
  · exact (h s).inc _
  · exact h s

lemma positive_seqPosDec (t q s : ℤ) : ((c.seqPosDec t q).seqPos s).Positive := by
  by_cases hs : s = t
  · subst hs; simpa [seqPosDec] using (h s).dec q
  · simpa [seqPosDec, update_of_ne hs] using h s

lemma positive_seqPosInc (t q s : ℤ) : ((c.seqPosInc t q).seqPos s).Positive := by
  by_cases hs : s = t
  · subst hs; simpa [seqPosInc] using (h s).inc q
  · simpa [seqPosInc, update_of_ne hs] using h s

end

@[simp] lemma cell_put (c : KvCells) (i : ℕ) (x : Cell) :
    (c.put i x).cell = Function.update c.cell i x := by
  funext j
  by_cases hj : j = i
  · subst hj; simp [put, cell]
  · simp [put, cell, hj]

@[simp] lemma cell_rm (c : KvCells) (i : ℕ) :
    (c.rm i).cell = Function.update c.cell i .empty := cell_put (c.seqPosRm i) i .empty

@[simp] lemma cell_seqRm (c : KvCells) (i : ℕ) (s : ℤ) :
    (c.seqRm i s).cell = Function.update c.cell i ((c.cell i).seqRm s) := by
  funext j
  by_cases he : (c.seq i).erase s = ∅ <;> by_cases hj : j = i
  · subst hj; simp [seqRm, seqPosDec, Cell.seqRm, cell, he, Cell.empty]
  · simp [seqRm, seqPosDec, cell, he, hj]
  · subst hj; simp [seqRm, seqPosDec, Cell.seqRm, cell, he]
  · simp [seqRm, seqPosDec, cell, he, hj]

@[simp] lemma cell_seqKeep (c : KvCells) (i : ℕ) (s : ℤ) :
    (c.seqKeep i s).cell = Function.update c.cell i ((c.cell i).seqKeep s) := by
  by_cases hs : s ∈ c.seq i
  · funext j
    by_cases hj : j = i
    · subst hj; simp [seqKeep, seqPosRm, seqPosInc, Cell.seqKeep, cell, hs]
    · simp [seqKeep, seqPosRm, seqPosInc, cell, hs, hj]
  · by_cases hne : (c.seq i).Nonempty
    · have hc : (c.cell i).seqKeep s = .empty := by simp [Cell.seqKeep, cell, hs, hne]
      simp only [seqKeep, if_neg hs, if_pos hne, hc]
      exact cell_put (c.seqPosRm i) i .empty
    · have hc : (c.cell i).seqKeep s = c.cell i := by simp [Cell.seqKeep, cell, hs, hne]
      simp only [seqKeep, if_neg hs, if_neg hne, hc, update_eq_self]

@[simp] lemma cell_seqAdd (c : KvCells) (i : ℕ) (s : ℤ) :
    (c.seqAdd i s).cell = Function.update c.cell i ((c.cell i).seqAdd s) := by
  funext j
  by_cases hj : j = i
  · subst hj; simp [seqAdd, seqPosInc, Cell.seqAdd, cell]
  · simp [seqAdd, seqPosInc, cell, hj]

@[simp] lemma cell_posSet (c : KvCells) (i : ℕ) (p : ℤ) :
    (c.posSet i p).cell = Function.update c.cell i { c.cell i with pos := p } := by
  funext j
  by_cases hj : j = i
  · subst hj; simp [posSet, cell]
  · simp [posSet, cell, hj]

@[simp] lemma cell_extSet (c : KvCells) (i : ℕ) (e : KvCellExt) :
    (c.extSet i e).cell = Function.update c.cell i { c.cell i with ext := e } := by
  funext j
  by_cases hj : j = i
  · subst hj; simp [extSet, cell]
  · simp [extSet, cell, hj]

@[simp] lemma cell_posAdd (c : KvCells) (i : ℕ) (d : ℤ) :
    (c.posAdd i d).cell = Function.update c.cell i ((c.cell i).posAdd d) := by
  funext j
  by_cases hn : c.pos i + d < 0 <;> by_cases hj : j = i
  · subst hj; simp [posAdd, seqPosRm, Cell.posAdd, cell, hn]
  · simp [posAdd, seqPosRm, cell, hn, hj]
  · subst hj; simp [posAdd, seqPosRm, seqPosAdd, Cell.posAdd, cell, hn]
  · simp [posAdd, seqPosRm, seqPosAdd, cell, hn, hj]

@[simp] lemma cell_posDiv (c : KvCells) (i : ℕ) (d : ℤ) :
    (c.posDiv i d).cell = Function.update c.cell i ((c.cell i).posDiv d) := by
  funext j
  by_cases hj : j = i
  · subst hj; simp [posDiv, seqPosRm, seqPosAdd, Cell.posDiv, cell]
  · simp [posDiv, seqPosRm, seqPosAdd, cell, hj]

@[simp] lemma cell_setCell (other c : KvCells) (i j : ℕ) : (setCell other c i j).cell =
      Function.update c.cell i ⟨other.pos j, other.ext j, c.shift i, other.seq j⟩ := by
  funext k
  by_cases hp : c.pos i = -1 <;> by_cases hq : other.pos j = -1 <;> by_cases hk : k = i
  all_goals simp [setCell, seqPosRm, seqPosAdd, put, cell, *]

lemma WF.mem_used_cell {c : KvCells} (h : c.WF) {i : ℕ} (hi : i < c.size) :
    i ∈ c.used ↔ c.pos i ≠ -1 := by
  rw [h.mem_used i]
  exact and_iff_right hi

/-- A cell that holds a sequence is not empty. -/
lemma WF.pos_ne (h : c.WF) (hi : i < c.size) (hs : s ∈ c.seq i) : c.pos i ≠ -1 := by
  intro hp
  have hempty : c.seq i = ∅ := (h.valid i hi).empty_seq hp
  simp [hempty] at hs

lemma rewrites_rm (h : c.WF) (hi : i < c.size) : Rewrites c i .empty (c.rm i) where
  size_eq := rfl
  cell_eq := cell_rm c i
  mem_used := by
    intro j
    by_cases hj : j = i <;> simp [rm, seqPosRm, Cell.empty]
  count_eq := by
    intro s p
    have hle := h.occ_le hi s p
    have hcount : ((c.rm i).seqPos s).count p = (c.seqPos s).count p - (c.cell i).occ s p :=
      count_seqPosRm c i s p
    rw [Cell.occ_empty]
    omega
  positive := fun hp => positive_seqPosRm hp i

lemma rewrites_seqRm (h : c.WF) (hi : i < c.size) (hs : s ∈ c.seq i) :
    Rewrites c i ((c.cell i).seqRm s) (c.seqRm i s) where
  size_eq := by simp only [seqRm]; split <;> rfl
  cell_eq := cell_seqRm c i s
  mem_used := by
    intro j
    by_cases he : (c.seq i).erase s = ∅ <;> by_cases hj : j = i
    · subst hj; simp [seqRm, seqPosDec, Cell.seqRm, cell, he, Cell.empty]
    · simp [seqRm, seqPosDec, he, hj]
    · subst hj
      simpa [seqRm, seqPosDec, Cell.seqRm, cell, he] using h.mem_used_cell hi
    · simp [seqRm, seqPosDec, he, hj]
  count_eq := by
    intro t p
    have hle := h.occ_le hi t p
    rw [seqPos_seqRm, Cell.occ_seqRm, count_seqPosDec]
    by_cases ht : t = s
    · subst ht
      by_cases hp : c.pos i = p
      · simp only [Cell.occ, cell, hs, hp, if_true] at hle ⊢
        omega
      · simp [Cell.occ, cell, hp, Ne.symm hp]
    · simp [ht]
  positive := by
    intro hp t
    rw [seqPos_seqRm]
    exact positive_seqPosDec hp s (c.pos i) t

lemma rewrites_seqKeep (h : c.WF) (hi : i < c.size) (s : ℤ) :
    Rewrites c i ((c.cell i).seqKeep s) (c.seqKeep i s) where
  size_eq := by simp only [seqKeep]; split <;> [rfl; (split <;> rfl)]
  cell_eq := cell_seqKeep c i s
  mem_used := by
    intro j
    by_cases hs : s ∈ c.seq i
    · have hne : c.pos i ≠ -1 := h.pos_ne hi hs
      by_cases hj : j = i
      · subst hj; simpa [seqKeep, seqPosRm, seqPosInc, Cell.seqKeep, cell, hs, hne] using
          (h.mem_used_cell hi).mpr hne
      · simp [seqKeep, seqPosRm, seqPosInc, hs, hj]
    · by_cases hn : (c.seq i).Nonempty
      · by_cases hj : j = i <;>
          simp [seqKeep, seqPosRm, Cell.seqKeep, cell, hs, hn, Cell.empty]
      · by_cases hj : j = i
        · subst hj; simpa [seqKeep, Cell.seqKeep, cell, hs, hn] using h.mem_used_cell hi
        · simp [seqKeep, hs, hn, hj]
  count_eq := by
    intro t p
    have hle := h.occ_le hi t p
    rw [Cell.occ_seqKeep]
    by_cases hs : s ∈ c.seq i
    · have hcount : ((c.seqKeep i s).seqPos t).count p = (c.seqPos t).count p -
          (c.cell i).occ t p + if t = s ∧ p = c.pos i then 1 else 0 := by
        simp only [seqKeep, if_pos hs]
        exact (count_seqPosInc _ s _ t p).trans (by rw [count_seqPosRm]; rfl)
      rw [hcount]
      by_cases ht : t = s
      · subst ht
        by_cases hp : c.pos i = p
        · simp only [Cell.occ, cell, hs, hp, if_true] at hle ⊢
          omega
        · simp [Cell.occ, cell, hp, Ne.symm hp]
      · simp only [ht, false_and, if_false]
        omega
    · have hz : (if t = s then (c.cell i).occ t p else 0) = 0 := by
        by_cases ht : t = s
        · subst ht; simp [Cell.occ, cell, hs]
        · simp [ht]
      rw [hz]
      by_cases hn : (c.seq i).Nonempty
      · simp only [seqKeep, if_neg hs, if_pos hn]
        show ((c.seqPosRm i).seqPos t).count p + _ = _
        rw [count_seqPosRm]
        omega
      · have hocc : (c.cell i).occ t p = 0 := by
          simp [Cell.occ, cell, not_nonempty_iff_eq_empty.mp hn]
        simp only [seqKeep, if_neg hs, if_neg hn, hocc]
  positive := by
    intro hp t
    simp only [seqKeep]
    split
    · exact positive_seqPosInc (positive_seqPosRm hp i) s _ t
    · split
      · exact positive_seqPosRm hp i t
      · exact hp t

lemma rewrites_seqAdd (h : c.WF) (hi : i < c.size) (hs : s ∉ c.seq i) :
    Rewrites c i ((c.cell i).seqAdd s) (c.seqAdd i s) where
  size_eq := rfl
  cell_eq := cell_seqAdd c i s
  mem_used := by
    intro j
    by_cases hj : j = i
    · subst hj; simpa [seqAdd, seqPosInc, Cell.seqAdd, cell] using h.mem_used_cell hi
    · simp [seqAdd, seqPosInc, hj]
  count_eq := by
    intro t p
    have hcount : ((c.seqAdd i s).seqPos t).count p =
        (c.seqPos t).count p + if t = s ∧ p = c.pos i then 1 else 0 :=
      count_seqPosInc _ s (c.pos i) t p
    rw [hcount, Cell.occ_seqAdd]
    by_cases ht : t = s
    · subst ht
      by_cases hp : c.pos i = p
      · simp [Cell.occ, cell, hs, hp]
      · simp [Cell.occ, cell, hp, Ne.symm hp]
    · simp [ht]
  positive := fun hp t => positive_seqPosInc hp s _ t

lemma rewrites_posSet (hs : c.seq i = ∅) {p : ℤ} (hp : p ≠ -1) :
    Rewrites c i { c.cell i with pos := p } (c.posSet i p) where
  size_eq := rfl
  cell_eq := cell_posSet c i p
  mem_used := by
    intro j
    by_cases hj : j = i <;> simp [posSet, hj, hp]
  count_eq := by intro t q; simp [Cell.occ, cell, hs, posSet]
  positive := fun hpos => hpos

lemma rewrites_extSet (h : c.WF) (hi : i < c.size) (e : KvCellExt) :
    Rewrites c i { c.cell i with ext := e } (c.extSet i e) where
  size_eq := rfl
  cell_eq := cell_extSet c i e
  mem_used := by
    intro j
    by_cases hj : j = i
    · subst hj; simpa [extSet, cell] using h.mem_used_cell hi
    · simp [extSet, hj]
  count_eq := by intro t q; rfl
  positive := fun hpos => hpos

lemma rewrites_posAdd (h : c.WF) (hi : i < c.size) (hne : c.pos i ≠ -1) (d : ℤ) :
    Rewrites c i ((c.cell i).posAdd d) (c.posAdd i d) where
  size_eq := by simp only [posAdd]; split <;> rfl
  cell_eq := cell_posAdd c i d
  mem_used := by
    intro j
    by_cases hn : c.pos i + d < 0
    · by_cases hj : j = i <;> simp [posAdd, seqPosRm, Cell.posAdd, cell, hn]
    · have hnew : c.pos i + d ≠ -1 := by omega
      by_cases hj : j = i
      · subst hj
        simpa [posAdd, seqPosRm, seqPosAdd, Cell.posAdd, cell, hn, hnew] using
          (h.mem_used_cell hi).mpr hne
      · simp [posAdd, seqPosRm, seqPosAdd, hn, hj]
  count_eq := by
    intro t q
    have hle := h.occ_le hi t q
    by_cases hn : c.pos i + d < 0
    · have hcount : ((c.posAdd i d).seqPos t).count q =
          (c.seqPos t).count q - (c.cell i).occ t q := by
        rw [← count_seqPosRm]
        simp [posAdd, seqPosRm, hn]
      have hocc : ((c.cell i).posAdd d).occ t q = 0 := by
        simp [Cell.posAdd, Cell.occ, cell, hn]
      omega
    · have hcount : ((c.posAdd i d).seqPos t).count q =
          (c.seqPos t).count q - (c.cell i).occ t q + ((c.cell i).posAdd d).occ t q := by
        by_cases ht : t ∈ c.seq i
        · simp [posAdd, seqPosRm, seqPosAdd, Cell.posAdd, Cell.occ, cell, hn, ht, eq_comm (a := q)]
        · simp [posAdd, seqPosRm, seqPosAdd, Cell.posAdd, Cell.occ, cell, hn, ht]
      omega
  positive := by
    intro hp t
    have hrm := positive_seqPosRm hp i
    simp only [posAdd]
    split
    · exact hrm t
    · refine positive_seqPosAdd ?_ i t
      exact hrm

lemma rewrites_posDiv (h : c.WF) (hi : i < c.size) (hne : c.pos i ≠ -1) {d : ℤ} (hd : 1 ≤ d) :
    Rewrites c i ((c.cell i).posDiv d) (c.posDiv i d) where
  size_eq := rfl
  cell_eq := cell_posDiv c i d
  mem_used := by
    intro j
    by_cases hj : j = i
    · subst hj
      have hge : -1 ≤ c.pos j := (h.valid j hi).pos_ge
      have hq : 0 ≤ (c.pos j).tdiv d := Int.tdiv_nonneg (by omega) (by omega)
      have hnew : (c.pos j).tdiv d ≠ -1 := by omega
      simpa [posDiv, seqPosRm, seqPosAdd, Cell.posDiv, cell, hnew] using
        (h.mem_used_cell hi).mpr hne
    · simp [posDiv, seqPosRm, seqPosAdd, hj]
  count_eq := by
    intro t q
    have hle := h.occ_le hi t q
    have hcount : ((c.posDiv i d).seqPos t).count q =
        (c.seqPos t).count q - (c.cell i).occ t q + ((c.cell i).posDiv d).occ t q := by
      by_cases ht : t ∈ c.seq i
      · simp [posDiv, seqPosRm, seqPosAdd, Cell.posDiv, Cell.occ, cell, ht, eq_comm (a := q)]
      · simp [posDiv, seqPosRm, seqPosAdd, Cell.posDiv, Cell.occ, cell, ht]
    omega
  positive := by
    intro hp t
    refine positive_seqPosAdd ?_ i t
    exact positive_seqPosRm hp i

/-- Entry `j` of a snapshot, with the shift the restored cell keeps. -/
def snapCell (other : KvCells) (j : ℕ) (shift : ℤ) : Cell :=
  ⟨other.pos j, other.ext j, shift, other.seq j⟩

lemma seqPos_setCell (other c : KvCells) (i j : ℕ) (t : ℤ) : (setCell other c i j).seqPos t =
      let m := if c.pos i ≠ -1 then (c.seqPosRm i).seqPos t else c.seqPos t
      if other.pos j ≠ -1 ∧ t ∈ other.seq j then m.inc (other.pos j) else m := by
  by_cases hp : c.pos i = -1 <;> by_cases hq : other.pos j = -1 <;>
    by_cases ht : t ∈ other.seq j <;> simp [setCell, seqPosAdd, seqPosRm, put, hp, hq]

lemma rewrites_setCell {other : KvCells} (h : c.WF) {j : ℕ} (hi : i < c.size)
    (hother : other.pos j = -1 → other.seq j = ∅) :
    Rewrites c i (snapCell other j (c.shift i)) (setCell other c i j) where
  size_eq := by
    by_cases hp : c.pos i = -1 <;> by_cases hq : other.pos j = -1 <;>
      simp [setCell, seqPosRm, seqPosAdd, put, hp, hq]
  cell_eq := cell_setCell other c i j
  mem_used := by
    intro k
    have hu := h.mem_used_cell hi
    by_cases hp : c.pos i = -1 <;> by_cases hq : other.pos j = -1 <;> by_cases hk : k = i
    all_goals simp_all [setCell, seqPosRm, seqPosAdd, put, snapCell]
  count_eq := by
    intro t p
    have hle := h.occ_le hi t p
    have hold : (if c.pos i ≠ -1 then (c.seqPosRm i).seqPos t else c.seqPos t).count p =
        (c.seqPos t).count p - (c.cell i).occ t p := by
      by_cases hp : c.pos i = -1
      · have hempty : c.seq i = ∅ := (h.valid i hi).empty_seq hp
        simp [hp, Cell.occ, cell, hempty]
      · simp [hp]
    have hocc : (snapCell other j (c.shift i)).occ t p =
        if (other.pos j ≠ -1 ∧ t ∈ other.seq j) ∧ p = other.pos j then 1 else 0 := by
      by_cases hq : other.pos j = -1
      · simp [Cell.occ, snapCell, hother hq]
      · by_cases hp : other.pos j = p
        · simp [Cell.occ, snapCell, hp, hp ▸ hq]
        · simp [Cell.occ, snapCell, hp, Ne.symm hp]
    rw [seqPos_setCell, hocc]
    by_cases hq : other.pos j ≠ -1 ∧ t ∈ other.seq j
    · rw [if_pos hq, count_inc, if_congr (and_iff_right hq) rfl rfl]
      omega
    · rw [if_neg hq, hold, if_neg fun hc => hq hc.1]
      omega
  positive := by
    intro hp t
    have hold : (if c.pos i ≠ -1 then (c.seqPosRm i).seqPos t else c.seqPos t).Positive := by
      split
      · exact positive_seqPosRm hp i t
      · exact hp t
    rw [seqPos_setCell]
    simp only
    split
    · exact hold.inc _
    · exact hold

/-! ## Calls keep the invariant -/

/-- What the methods ask of their caller. -/
def Op.Pre (c : KvCells) : Op → Prop
  | .reset => True
  | .resetShift => True
  | .rm i => i < c.size ∧ c.pos i ≠ -1
  | .seqRm i s => i < c.size ∧ s ∈ c.seq i ∧ c.pos i ≠ -1 ∧ 0 ≤ s
  | .seqKeep i s => i < c.size ∧ 0 ≤ s ∧ s < maxSeq ∧ (c.seq i = ∅ → c.pos i = -1)
  | .seqAdd i s => i < c.size ∧ c.pos i ≠ -1 ∧ s ∉ c.seq i ∧ 0 ≤ s ∧ s < maxSeq
  | .posSet i p => i < c.size ∧ c.pos i = -1 ∧ c.seq i = ∅ ∧ 0 ≤ p
  | .posAdd i _ => i < c.size ∧ c.pos i ≠ -1
  | .posDiv i d => i < c.size ∧ c.pos i ≠ -1 ∧ 1 ≤ d
  | .extSet i _ => i < c.size
  | .set idxs other => (∀ i ∈ idxs, i < c.size ∧ c.shift i = 0) ∧
      ∃ c₀ : KvCells, c₀.RI ∧ (∀ i ∈ idxs, i < c₀.size) ∧ other = c₀.cp idxs

lemma ri_resetShift (h : c.RI) : c.resetShift.RI where
  mem_used := h.mem_used
  positive := h.positive
  count_ge := h.count_ge
  valid := by
    intro i hi
    have hv := h.valid i hi
    exact ⟨hv.empty_seq, fun _ => rfl, hv.pos_ge, hv.seq_range⟩
  count_eq := h.count_eq

/-- Entry `j` of a copy is the copied cell without its shift. -/
lemma snapCell_cp {idxs : List ℕ} {j : ℕ} (hj : j < idxs.length) (sh : ℤ) :
    snapCell (c.cp idxs) j sh = { c.cell (idxs.getD j 0) with shift := sh } := by
  simp only [snapCell, cp, if_pos hj, cell]

lemma snapCell_cp_valid (h : c.WF) {idxs : List ℕ} (hidx : ∀ i ∈ idxs, i < c.size) {j : ℕ}
    (hj : j < idxs.length) : (snapCell (c.cp idxs) j 0).Valid := by
  have hmem : idxs.getD j 0 ∈ idxs := by
    rw [List.getD_eq_getElem _ _ hj]
    exact List.getElem_mem hj
  have hv := h.valid _ (hidx _ hmem)
  rw [snapCell_cp hj]
  exact ⟨hv.empty_seq, fun _ => rfl, hv.pos_ge, hv.seq_range⟩

/-- Restoring cells without pending shifts keeps the invariant. -/
lemma ri_set {other : KvCells} (h : c.RI) {idxs : List ℕ}
    (hidx : ∀ i ∈ idxs, i < c.size ∧ c.shift i = 0) (hlen : other.size ≤ idxs.length)
    (hother : ∀ j < other.size, (snapCell other j 0).Valid) : (c.set idxs other).RI := by
  have hfold : ∀ (js : List ℕ) (c : KvCells), (∀ j ∈ js, j < other.size) → c.RI →
      (∀ i ∈ idxs, i < c.size ∧ c.shift i = 0) →
      (js.foldl (fun c j => setCell other c (idxs.getD j 0) j) c).RI := by
    intro js
    induction js with
    | nil => intro c _ hc _; exact hc
    | cons j js ih =>
      intro c hjs hc hidx
      have hj : j < other.size := hjs j List.mem_cons_self
      have hmem : idxs.getD j 0 ∈ idxs := by
        rw [List.getD_eq_getElem _ _ (hj.trans_le hlen)]
        exact List.getElem_mem _
      obtain ⟨hi, hsh⟩ := hidx _ hmem
      have hrw : Rewrites c (idxs.getD j 0) (snapCell other j (c.shift (idxs.getD j 0)))
          (setCell other c (idxs.getD j 0) j) :=
        rewrites_setCell hc.toWF hi (hother j hj).empty_seq
      refine ih _ (fun k hk => hjs k (List.mem_cons_of_mem _ hk)) ?_ ?_
      · refine hrw.ri hc hi ?_
        rw [hsh]
        exact hother j hj
      · intro i him
        refine ⟨hrw.size_eq ▸ (hidx i him).1, ?_⟩
        have hcell : (setCell other c (idxs.getD j 0) j).shift i =
            (Function.update c.cell (idxs.getD j 0)
              (snapCell other j (c.shift (idxs.getD j 0))) i).shift := by
          rw [← hrw.cell_eq]
          rfl
        rw [hcell]
        by_cases hii : i = idxs.getD j 0
        · rw [hii, update_self]
          exact hsh
        · rw [update_of_ne hii]
          exact (hidx i him).2
  exact hfold _ c (fun j hj => List.mem_range.mp hj) h hidx

/-- **Every method called inside its precondition keeps the invariant.** -/
theorem ri_run (h : c.RI) {op : Op} (hpre : op.Pre c) : (c.run op).RI := by
  cases op with
  | reset => exact ri_reset c
  | resetShift => exact ri_resetShift h
  | rm i => exact (rewrites_rm h.toWF hpre.1).ri h hpre.1 Cell.valid_empty
  | seqRm i s =>
    exact (rewrites_seqRm h.toWF hpre.1 hpre.2.1).ri h hpre.1 ((h.valid i hpre.1).seqRm s)
  | seqKeep i s =>
    exact (rewrites_seqKeep h.toWF hpre.1 s).ri h hpre.1 ((h.valid i hpre.1).seqKeep s)
  | seqAdd i s =>
    obtain ⟨hi, hne, hs, hrange⟩ := hpre
    exact (rewrites_seqAdd h.toWF hi hs).ri h hi ((h.valid i hi).seqAdd hne hrange)
  | posSet i p =>
    obtain ⟨hi, _, hs, hp⟩ := hpre
    exact (rewrites_posSet hs (by omega)).ri h hi ((h.valid i hi).posSet hp)
  | posAdd i d =>
    exact (rewrites_posAdd h.toWF hpre.1 hpre.2 d).ri h hpre.1 ((h.valid i hpre.1).posAdd d)
  | posDiv i d =>
    obtain ⟨hi, hne, hd⟩ := hpre
    exact (rewrites_posDiv h.toWF hi hne hd).ri h hi ((h.valid i hi).posDiv hne hd)
  | extSet i e => exact (rewrites_extSet h.toWF hpre e).ri h hpre ((h.valid i hpre).extSet e)
  | set idxs other =>
    obtain ⟨hidx, c₀, hc₀, hidx₀, rfl⟩ := hpre
    exact ri_set h hidx le_rfl fun j hj => snapCell_cp_valid hc₀.toWF hidx₀ hj

/-! ## What the redundant structures say -/

/-- `p` is the least position of the cells holding `s`, or `-1` when there is none. -/
def IsSeqMin (c : KvCells) (s p : ℤ) : Prop :=
  ((∀ i < c.size, s ∉ c.seq i) ∧ p = -1) ∨
    ((∃ i < c.size, s ∈ c.seq i ∧ c.pos i = p) ∧ ∀ i < c.size, s ∈ c.seq i → p ≤ c.pos i)

/-- `p` is the greatest position of the cells holding `s`, or `-1` when there is none. -/
def IsSeqMax (c : KvCells) (s p : ℤ) : Prop :=
  ((∀ i < c.size, s ∉ c.seq i) ∧ p = -1) ∨
    ((∃ i < c.size, s ∈ c.seq i ∧ c.pos i = p) ∧ ∀ i < c.size, s ∈ c.seq i → c.pos i ≤ p)

/-- `m` is the first occupied cell, or 0 when there is none. -/
def IsUsedMin (c : KvCells) (m : ℕ) : Prop :=
  ((∀ i < c.size, c.pos i = -1) ∧ m = 0) ∨
    (m < c.size ∧ c.pos m ≠ -1 ∧ ∀ i < c.size, c.pos i ≠ -1 → m ≤ i)

/-- `m` is one past the last occupied cell, or 0 when there is none. -/
def IsUsedMaxP1 (c : KvCells) (m : ℕ) : Prop :=
  ((∀ i < c.size, c.pos i = -1) ∧ m = 0) ∨
    ∃ j < c.size, m = j + 1 ∧ c.pos j ≠ -1 ∧ ∀ i < c.size, c.pos i ≠ -1 → i ≤ j

lemma RI.count_pos_iff (h : c.RI) {p : ℤ} :
    0 < (c.seqPos s).count p ↔ ∃ i < c.size, s ∈ c.seq i ∧ c.pos i = p := by
  rw [h.count_eq, cellCount_pos_iff]

/-- A sequence's map is empty exactly when no cell holds the sequence. -/
lemma RI.entries_nil_iff (h : c.RI) : (c.seqPos s).entries = [] ↔ ∀ i < c.size, s ∉ c.seq i := by
  rw [(h.positive s).entries_eq_nil_iff]
  constructor
  · intro hz i hi hs
    have hpos := h.count_pos_iff.mpr ⟨i, hi, hs, rfl⟩
    rw [hz] at hpos
    exact lt_irrefl 0 hpos
  · intro hno p
    by_contra hne
    obtain ⟨i, hi, hs, _⟩ := h.count_pos_iff.mp (Nat.pos_of_ne_zero hne)
    exact hno i hi hs

lemma RI.isSeqMin (h : c.RI) (s : ℤ) : c.IsSeqMin s (c.seqPosMin s) := by
  cases hk : (c.seqPos s).minKey? with
  | none =>
    left
    have hnil := minKey?_eq_none_iff.mp hk
    exact ⟨h.entries_nil_iff.mp hnil, by rw [seqPosMin, hk]; rfl⟩
  | some p =>
    right
    obtain ⟨hpos, hle⟩ := (h.positive s).minKey?_spec hk
    have hval : c.seqPosMin s = p := by rw [seqPosMin, hk]; rfl
    rw [hval]
    exact ⟨h.count_pos_iff.mp hpos, fun i hi hs => hle _ (h.count_pos_iff.mpr ⟨i, hi, hs, rfl⟩)⟩

lemma RI.isSeqMax (h : c.RI) (s : ℤ) : c.IsSeqMax s (c.seqPosMax s) := by
  cases hk : (c.seqPos s).maxKey? with
  | none =>
    left
    have hnil := maxKey?_eq_none_iff.mp hk
    exact ⟨h.entries_nil_iff.mp hnil, by rw [seqPosMax, hk]; rfl⟩
  | some p =>
    right
    obtain ⟨hpos, hle⟩ := (h.positive s).maxKey?_spec hk
    have hval : c.seqPosMax s = p := by rw [seqPosMax, hk]; rfl
    rw [hval]
    exact ⟨h.count_pos_iff.mp hpos, fun i hi hs => hle _ (h.count_pos_iff.mpr ⟨i, hi, hs, rfl⟩)⟩

lemma WF.isUsedMin (h : c.WF) : c.IsUsedMin c.usedMin := by
  by_cases hne : c.used.Nonempty
  · right
    have hmin := (h.mem_used _).mp (c.used.min'_mem hne)
    rw [usedMin, dif_pos hne]
    exact ⟨hmin.1, hmin.2, fun i hi hp => c.used.min'_le i ((h.mem_used i).mpr ⟨hi, hp⟩)⟩
  · left
    rw [usedMin, dif_neg hne]
    refine ⟨fun i hi => ?_, rfl⟩
    by_contra hp
    exact hne ⟨i, (h.mem_used i).mpr ⟨hi, hp⟩⟩

lemma WF.isUsedMaxP1 (h : c.WF) : c.IsUsedMaxP1 c.usedMaxP1 := by
  by_cases hne : c.used.Nonempty
  · right
    have hmax := (h.mem_used _).mp (c.used.max'_mem hne)
    rw [usedMaxP1, dif_pos hne]
    exact ⟨_, hmax.1, rfl, hmax.2, fun i hi hp => c.used.le_max' i ((h.mem_used i).mpr ⟨hi, hp⟩)⟩
  · left
    rw [usedMaxP1, dif_neg hne]
    refine ⟨fun i hi => ?_, rfl⟩
    by_contra hp
    exact hne ⟨i, (h.mem_used i).mpr ⟨hi, hp⟩⟩

lemma WF.pos_nonneg (h : c.WF) (hi : i < c.size) (hs : s ∈ c.seq i) : 0 ≤ c.pos i := by
  have hv := h.valid i hi
  have hge : -1 ≤ c.pos i := hv.pos_ge
  have hne : c.pos i ≠ -1 := fun he => by
    have hempty : c.seq i = ∅ := hv.empty_seq he
    simp [hempty] at hs
  omega

/-- The bounds of a sequence enclose its cells. -/
lemma WF.seqPos_bounds (h : c.WF) (hi : i < c.size) (hs : s ∈ c.seq i) :
    c.seqPosMin s ≤ c.pos i ∧ c.pos i ≤ c.seqPosMax s := by
  have hcount : 0 < (c.seqPos s).count (c.pos i) := by
    refine lt_of_lt_of_le ?_ (h.occ_le hi s (c.pos i))
    simp [Cell.occ, cell, hs]
  have hne : (c.seqPos s).entries ≠ [] := fun hnil => by
    have := ((h.positive s).entries_eq_nil_iff).mp hnil (c.pos i)
    omega
  constructor
  · obtain ⟨p, hp⟩ := Option.ne_none_iff_exists'.mp
      fun hnone => hne (minKey?_eq_none_iff.mp hnone)
    rw [seqPosMin, hp]
    exact ((h.positive s).minKey?_spec hp).2 _ hcount
  · obtain ⟨p, hp⟩ := Option.ne_none_iff_exists'.mp
      fun hnone => hne (maxKey?_eq_none_iff.mp hnone)
    rw [seqPosMax, hp]
    exact ((h.positive s).maxKey?_spec hp).2 _ hcount

/-- **The invariant holds along every run of calls inside their preconditions**, and the
bounds read off the maps and the used set are the true ones. -/
theorem run_ri {c : KvCells} (h : c.RI) (ops : List Op)
    (hpre : Run.Guarded run (fun c op => op.Pre c) c ops) :
    (Run.exec run c ops).RI ∧ (∀ s p, ((Run.exec run c ops).seqPos s).contains p = true ↔
        0 < ((Run.exec run c ops).seqPos s).count p) ∧
      (∀ s, (Run.exec run c ops).IsSeqMin s ((Run.exec run c ops).seqPosMin s)) ∧
      (∀ s, (Run.exec run c ops).IsSeqMax s ((Run.exec run c ops).seqPosMax s)) ∧
      (Run.exec run c ops).IsUsedMin (Run.exec run c ops).usedMin ∧
      (Run.exec run c ops).IsUsedMaxP1 (Run.exec run c ops).usedMaxP1 := by
  have hri : (Run.exec run c ops).RI :=
    Run.invariant (I := RI) (fun _ _ hc hp => ri_run hc hp) h ops hpre
  exact ⟨hri, hri.contains_iff, hri.isSeqMin, hri.isSeqMax, hri.isUsedMin, hri.isUsedMaxP1⟩

/-- One cell is filled, shared, moved and shared again, and the sequence is then dropped
from it. -/
theorem run_ri_shared_cell : (Run.exec run (resize 2)
      [.posSet 0 3, .seqAdd 0 1, .posAdd 0 2, .seqAdd 0 4, .seqRm 0 1]).RI :=
  (run_ri (ri_resize 2) [.posSet 0 3, .seqAdd 0 1, .posAdd 0 2, .seqAdd 0 4, .seqRm 0 1]
    (by
      refine ⟨?_, ?_, ?_, ?_, ?_, trivial⟩
      · exact ⟨by decide, rfl, rfl, by decide⟩
      · exact ⟨by decide, by decide, by decide, by decide, by decide⟩
      · exact ⟨by decide, by decide⟩
      · exact ⟨by decide, by decide, by decide, by decide, by decide⟩
      · exact ⟨by decide, by decide, by decide, by decide⟩)).1

end KvCells
end Llama
