import Llama.Recurrent.Runs

/-!
# Where a decode continues from

The row of a sequence moves with `find_slot`: `src0` of its new cell is the cell it was in.
A sequence without a cell gets the zeroed row, or the row of an empty cell.  The graph reads
the rows cell by cell, each with the rollback index of the first sequence of the cell; no two
cells share that sequence, so that the order does not matter (`Inv.sCopies_spec`).
-/

namespace Llama.MemoryRecurrent

variable {m m' m0 m2 : MemoryRecurrent} {ub : UBatch} {π : Equiv.Perm ℕ} {s : ℤ} {t k : ℕ}

/-! ## The rows to copy from -/

lemma firstId_mem_firstIds (hk : k < ub.nSeqs) : ub.firstId k ∈ ub.firstIds.toFinset := by
  rw [List.mem_toFinset]
  exact List.mem_map_of_mem (List.mem_range.mpr hk)

section

variable (hp : Placed m0 ub m2 π m')

include hp

/-- A first sequence continues from the cell it had. -/
lemma Placed.src0_first (hk : k < ub.nSeqs)
    (ht : m0.tail (ub.firstId k) = some t) : (m'.cells (m'.head + k)).src0 = some t := by
  obtain ⟨-, hsrc, -⟩ := hp.src_in _ (hp.inSlot (inPlace_add hk))
  rw [hsrc, hp.claimed.moved _ (firstId_mem_firstIds hk) t ht _ (hp.tail_first hk), Option.some_or]

/-- A first sequence that had no cell starts from the zeroed row or from that of an empty
cell. -/
lemma Placed.src0_fresh (h0 : Inv m0) (hk : k < ub.nSeqs)
    (ht : m0.tail (ub.firstId k) = none) :
    ∃ r, (m'.cells (m'.head + k)).src0 = some r ∧
      (m'.rsZ = some r ∨ (m0.cells r).seqId = ∅ ∧ (m0.cells r).src = some r) := by
  obtain ⟨-, hsrc, hne⟩ := hp.src_in _ (hp.inSlot (inPlace_add hk))
  obtain ⟨hempty, hold⟩ := hp.claimed.fresh _ (firstId_mem_firstIds hk) ht _ (hp.tail_first hk)
  rw [hold] at hsrc
  rcases h0.src_self (π.symm (m'.head + k)) with hnone | hself
  · rw [hnone, Option.none_or] at hsrc
    obtain ⟨r, hr⟩ := Option.ne_none_iff_exists'.mp hne
    exact ⟨r, hr, .inl (hsrc ▸ hr)⟩
  · rw [hself] at hsrc
    exact ⟨_, hsrc, .inr ⟨hempty, hself⟩⟩

/-- The cell of a sequence that is not listed has not been claimed. -/
lemma Placed.not_inPlace (hub : ub.Sets) (hs : s ∉ ub.listed)
    (ht : m0.tail s = some t) : ¬ InPlace m' ub (π t) := by
  intro hplace
  obtain ⟨k, hk, heq⟩ := hplace.exists_eq
  have hfirst : s ∉ ub.firstIds.toFinset := fun hd =>
    hs (hub.mem_listed_iff.mpr (.inl (List.mem_toFinset.mp hd)))
  have htk := hp.tail_first hk
  rw [← heq, Equiv.symm_apply_apply] at htk
  have hst : m2.tail s = some t := (hp.claimed.other s hfirst).trans ht
  have hsk := hp.claimed.excl _ (firstId_mem_firstIds hk) t htk s hst
  exact hfirst (hsk ▸ firstId_mem_firstIds hk)

/-- A sequence that is not listed continues from the cell it had, if its cell is in the slot. -/
lemma Placed.src0_other (h0 : Inv m0) (hub : ub.Sets)
    (hs : s ∉ ub.listed) (ht : m0.tail s = some t) (hslot : m'.InSlot (π t)) :
    (m'.cells (π t)).src0 = some t := by
  obtain ⟨-, hsrc, -⟩ := hp.src_in _ hslot
  have hrest := (hp.cell_rest (hp.not_inPlace hub hs ht)).2.2
  rw [Equiv.symm_apply_apply] at hsrc hrest
  rw [hsrc, hrest, h0.src_full t (h0.ne_empty ht), Option.some_or]

/-- Otherwise it has not moved. -/
lemma Placed.stay_of_notIn (hslot : ¬ m'.InSlot (π t)) : π t = t :=
  π.injective (hp.stay _ hslot)

end

/-! ## What the graph reads -/

/-- The row that cell `head + i` continues from. -/
def copyRow (m : MemoryRecurrent) (i : ℕ) : Option ℕ := (m.sCopy i).1

/-- The sequence whose rollback is applied to a cell. -/
def rollSeq (m : MemoryRecurrent) (i : ℕ) : Option ℤ :=
  if m.prm.nRsSeq = 0 then none
  else (m.cells i).firstSeq.filter fun s => 0 ≤ s ∧ s < m.prm.nSeqMax

lemma rollSeq_eq {i : ℕ} (h : (m.cells i).firstSeq = some s) : m.rollSeq i =
      if m.prm.nRsSeq ≠ 0 ∧ 0 ≤ s ∧ s < m.prm.nSeqMax then some s else none := by
  unfold rollSeq
  rw [h, Option.filter_some]
  by_cases hrs : m.prm.nRsSeq = 0
  · simp [hrs]
  · simp [hrs]

lemma sCopy_eq (m : MemoryRecurrent) (i : ℕ) : m.sCopy i = match m.rollSeq (m.head + i) with
      | none => ((m.cells (m.head + i)).src0, m)
      | some s => ((m.cells (m.head + i)).src0.map fun row => m.rsIdx s * m.prm.size + row,
          m.setRsIdx s 0) := by
  unfold sCopy rollSeq
  by_cases hrs : m.prm.nRsSeq = 0
  · rw [if_pos hrs, if_pos hrs]
  · rw [if_neg hrs, if_neg hrs]
    cases (m.cells (m.head + i)).firstSeq with
    | none => rfl
    | some s =>
      dsimp only [Option.filter]
      by_cases hs : 0 ≤ s ∧ s < m.prm.nSeqMax
      · rw [if_pos hs, if_pos (decide_eq_true hs)]
      · rw [if_neg hs, if_neg (by rwa [decide_eq_true_iff])]

lemma copyRow_eq (m : MemoryRecurrent) (i : ℕ) : m.copyRow i = match m.rollSeq (m.head + i) with
      | none => (m.cells (m.head + i)).src0
      | some s => (m.cells (m.head + i)).src0.map fun row => m.rsIdx s * m.prm.size + row := by
  rw [copyRow, sCopy_eq]
  split <;> rfl

lemma sCopy_rsIdx (m : MemoryRecurrent) (i : ℕ) (s : ℤ) :
    (m.sCopy i).2.rsIdx s = if m.rollSeq (m.head + i) = some s then 0 else m.rsIdx s := by
  rw [sCopy_eq]
  cases m.rollSeq (m.head + i) with
  | none => rfl
  | some s' =>
    change Function.update m.rsIdx s' 0 s = _
    by_cases hs : s = s'
    · subst hs
      rw [Function.update_self, if_pos rfl]
    · rw [Function.update_of_ne hs, if_neg fun h => hs (Option.some.inj h).symm]

/-- The sequence of a cell whose rollback is applied is in the cell. -/
lemma rollSeq_mem {i : ℕ} (h : m.rollSeq i = some s) : s ∈ (m.cells i).seqId := by
  unfold rollSeq at h
  split at h
  · cases h
  · have hfirst := (Option.filter_eq_some_iff.mp h).1
    unfold MemCell.firstSeq at hfirst
    split at hfirst
    · rename_i hne
      cases hfirst
      exact Finset.min'_mem _ hne
    · cases hfirst

/-- Reading the index of one cell does not change what is read for another one. -/
lemma Inv.copyRow_sCopy (h : Inv m) {i j : ℕ} (hij : i ≠ j) :
    (m.sCopy i).2.copyRow j = m.copyRow j := by
  have hframe := sCopy_frame m i
  have hroll : (m.sCopy i).2.rollSeq = m.rollSeq := by rw [hframe]; rfl
  have hhead : (m.sCopy i).2.head = m.head := by rw [hframe]
  have hcells : (m.sCopy i).2.cells = m.cells := by rw [hframe]
  have hprm : (m.sCopy i).2.prm = m.prm := by rw [hframe]
  rw [copyRow_eq, copyRow_eq, hroll, hhead, hcells, hprm]
  cases hs : m.rollSeq (m.head + j) with
  | none => rfl
  | some s =>
    have hne : m.rollSeq (m.head + i) ≠ some s := by
      intro hi
      have heq := h.eq_tail ((h.tail_iff s _).mpr (rollSeq_mem hs)) (rollSeq_mem hi)
      omega
    dsimp only
    rw [sCopy_rsIdx, if_neg hne]

/-- **What the graph reads**: each cell with the index its first sequence had before.  These
indices are then reset. -/
theorem Inv.sCopies_spec : ∀ {is : List ℕ} {m : MemoryRecurrent}, Inv m → is.Nodup →
    (sCopies is m).1 = is.map m.copyRow ∧ ∀ s, (sCopies is m).2.rsIdx s =
        if ∃ i ∈ is, m.rollSeq (m.head + i) = some s then 0 else m.rsIdx s := by
  intro is
  induction is with
  | nil => exact fun _ _ => ⟨rfl, fun s => by simp [sCopies]⟩
  | cons i is ih =>
    intro m h hnd
    rw [List.nodup_cons] at hnd
    have hframe := sCopy_frame m i
    have h1 : Inv (m.sCopy i).2 := by
      rw [hframe]
      exact h.congr rfl rfl rfl h.head_lt
    obtain ⟨hrows, hidx⟩ := ih h1 hnd.2
    have hroll : ∀ j, (m.sCopy i).2.rollSeq ((m.sCopy i).2.head + j) = m.rollSeq (m.head + j) := by
      intro j
      rw [hframe]
      rfl
    refine ⟨?_, fun s => ?_⟩
    · change m.copyRow i :: (sCopies is (m.sCopy i).2).1 = _
      rw [hrows]
      refine congrArg _ (List.map_congr_left fun j hj => h.copyRow_sCopy ?_)
      rintro rfl
      exact hnd.1 hj
    · change (sCopies is (m.sCopy i).2).2.rsIdx s = _
      rw [hidx]
      simp only [hroll, sCopy_rsIdx]
      by_cases h1 : m.rollSeq (m.head + i) = some s
      · simp [h1]
      · simp [h1]

end Llama.MemoryRecurrent
