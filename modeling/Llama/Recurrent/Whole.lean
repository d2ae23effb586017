import Llama.Recurrent.Runs

/-!
# Removing a whole sequence

A removal from the beginning to the end is no rollback, so that `seq_rm` goes on to its loop
over the cells.  The loop looks at positions in `[0, INT32_MAX)` only, and `seq_add` can move
a cell out of them.  An id below 0, which is to stand for all sequences, does not pass the
first test.
-/

namespace Llama.MemoryRecurrent

variable {m : MemoryRecurrent} {s : ℤ} {t : ℕ}

/-- `seq_rm(s, -1, -1)` returns true and leaves no cell with the sequence, or with any
sequence when `s` is negative. -/
def RemovesWhole (m : MemoryRecurrent) (s : ℤ) : Prop :=
  (m.seqRm s (-1) (-1)).1 = true ∧ ∀ i < m.prm.size,
    if s < 0 then ((m.seqRm s (-1) (-1)).2.cells i).seqId = ∅
    else s ∉ ((m.seqRm s (-1) (-1)).2.cells i).seqId

/-- A whole range never cuts the tail of a sequence. -/
lemma not_cutsTail_zero (c : MemCell) (p1 : ℤ) : ¬ cutsTail c 0 p1 = true := by
  simp [cutsTail]

/-- The removal gets past the first tests and returns true. -/
lemma seqRm_whole (h0 : 0 ≤ s) (h1 : s < m.prm.nSeqMax) :
    (m.seqRm s (-1) (-1)) = (m.setRsIdx s 0).seqRmCell s 0 posLimit ∧
      (m.seqRm s (-1) (-1)).1 = true := by
  have hvalid : ¬ (s < 0 ∨ (m.prm.nSeqMax : ℤ) ≤ s) := by omega
  have hsize : ¬ (m.prm.size : ℤ) ≤ s := by
    have hle := m.prm.nSeqMax_le
    omega
  have heq : m.seqRm s (-1) (-1) = (m.setRsIdx s 0).seqRmCell s 0 posLimit := by
    change m.seqRmRange s 0 posLimit = _
    rw [seqRmRange, if_neg hvalid]
    exact if_neg hsize
  refine ⟨heq, ?_⟩
  rw [heq, seqRmCell]
  split
  · rfl
  · rw [if_neg (not_cutsTail_zero _ _)]

/-- The removal finds the cell of the sequence when its position is in the range. -/
lemma Inv.seqRm_whole_mem (h : Inv m) (h0 : 0 ≤ s) (h1 : s < m.prm.nSeqMax) (i : ℕ) :
    s ∈ ((m.seqRm s (-1) (-1)).2.cells i).seqId ↔
      m.tail s = some i ∧ ¬ (0 ≤ (m.cells i).pos ∧ (m.cells i).pos < posLimit) := by
  have hinv : Inv (m.setRsIdx s 0) := h.setRsIdx s 0
  rw [(seqRm_whole h0 h1).1, seqRmCell]
  have htail : (m.setRsIdx s 0).tail s = m.tail s := rfl
  rw [htail]
  cases hs : m.tail s with
  | none =>
    rw [hinv.removeRange_eq_self fun t ht => absurd (ht.symm.trans hs) (by simp)]
    exact iff_of_false (h.notMem hs i) (by simp)
  | some t =>
    dsimp only
    rw [if_neg (not_cutsTail_zero _ _)]
    by_cases hin : 0 ≤ (m.cells t).pos ∧ (m.cells t).pos < posLimit
    · obtain ⟨head, -, heq⟩ := hinv.removeRange_eq_leave (s := s) hs le_rfl hin
      have hin' : 0 ≤ ((m.setRsIdx s 0).cells t).pos ∧
          ((m.setRsIdx s 0).cells t).pos < posLimit := hin
      rw [if_pos hin', heq]
      rw [hinv.leave_cells, MemCell.seqId_without]
      refine iff_of_false (Finset.notMem_erase s _) ?_
      rintro ⟨hti, hout⟩
      obtain rfl := Option.some.inj hti
      exact hout hin
    · have hout : ¬ (0 ≤ ((m.setRsIdx s 0).cells t).pos ∧
          ((m.setRsIdx s 0).cells t).pos < posLimit) := hin
      rw [if_neg hout, hinv.removeRange_eq_self fun t' ht' => by
        obtain rfl := Option.some.inj (hs.symm.trans ht')
        exact hin]
      constructor
      · intro hmem
        obtain rfl := h.eq_tail hs hmem
        exact ⟨rfl, hin⟩
      · rintro ⟨hti, -⟩
        obtain rfl := Option.some.inj hti
        exact h.mem hs

/-- **When a whole sequence is removed**, in every reachable state: the id is one of the
memory, and the cell of the sequence has a position in `[0, INT32_MAX)`. -/
theorem removesWhole_iff (p : RsParams)
    (h : Run.Reachable step (fun _ op => op.Called) (new p) m) (s : ℤ) :
    m.RemovesWhole s ↔ 0 ≤ s ∧ s < m.prm.nSeqMax ∧
      ∀ t, m.tail s = some t → 0 ≤ (m.cells t).pos ∧ (m.cells t).pos < posLimit := by
  have hinv := inv_of_reachable p h
  by_cases hid : 0 ≤ s ∧ s < m.prm.nSeqMax
  · rw [RemovesWhole, and_iff_right (seqRm_whole hid.1 hid.2).2, and_iff_right hid.1,
      and_iff_right hid.2]
    have hneg : ¬ s < 0 := by omega
    simp only [if_neg hneg, hinv.seqRm_whole_mem hid.1 hid.2]
    constructor
    · intro hall t ht
      by_contra hout
      exact hall t (hinv.tail_lt ht) ⟨ht, hout⟩
    · rintro hpos i - ⟨ht, hout⟩
      exact hout (hpos i ht)
  · refine iff_of_false ?_ fun hr => hid ⟨hr.1, hr.2.1⟩
    rintro ⟨htrue, -⟩
    have hinvalid : s < 0 ∨ (m.prm.nSeqMax : ℤ) ≤ s := by omega
    have hfalse : (m.seqRm s (-1) (-1)).1 = false := by
      rw [seqRm, seqRmRange, if_pos hinvalid]
    rw [hfalse] at htrue
    cases htrue

/-- Sequence 0 has one token, at position 1. -/
theorem removesWhole_iff_oneToken : ∃ m, (new (.two 0)).step (.findSlot (ubatchAt 0 1)) = some m ∧
      (m.RemovesWhole 0 ↔ 0 ≤ (0 : ℤ) ∧ (0 : ℤ) < m.prm.nSeqMax ∧
        ∀ t, m.tail 0 = some t → 0 ≤ (m.cells t).pos ∧ (m.cells t).pos < posLimit) := by
  have hslot : ((new (.two 0)).step (.findSlot (ubatchAt 0 1))).isSome = true := by decide +kernel
  obtain ⟨m, hm⟩ := Option.isSome_iff_exists.mp hslot
  have hfind : (Op.findSlot (ubatchAt 0 1)).Called := ⟨2, fromBatch_ubatchAt (by decide +kernel)⟩
  exact ⟨m, hm, removesWhole_iff (.two 0) (.step .init hfind hm) 0⟩

/-- Nothing is removed for a negative id, and not a sequence whose position is negative. -/
theorem not_removesWhole : ((new (.two 0)).seqRm (-1) (-1) (-1)).1 = false ∧
      (ubatchAt 0 1).FromBatch 2 ∧
      ∃ m, (new (.two 0)).step (.findSlot (ubatchAt 0 1)) = some m ∧
        ¬ m.RemovesWhole (-1) ∧ ¬ (m.seqAdd 0 (-1) (-1) (-5)).RemovesWhole 0 := by
  refine ⟨rfl, fromBatch_ubatchAt (by decide +kernel), ?_⟩
  have hrun : ((new (.two 0)).step (.findSlot (ubatchAt 0 1))).map (fun m =>
      ((m.seqRm (-1) (-1) (-1)).1,
        decide (0 ∈ (((m.seqAdd 0 (-1) (-1) (-5)).seqRm 0 (-1) (-1)).2.cells 0).seqId),
        decide (0 < (m.seqAdd 0 (-1) (-1) (-5)).prm.size))) = some (false, true, true) := by
    decide +kernel
  obtain ⟨m, hm, hres⟩ := Option.map_eq_some_iff.mp hrun
  obtain ⟨h1, h2⟩ := Prod.ext_iff.mp hres
  obtain ⟨h2, h3⟩ := Prod.ext_iff.mp h2
  refine ⟨m, hm, fun h => ?_, fun h => ?_⟩
  · have htrue := h.1.symm.trans h1
    cases htrue
  · have hout := h.2 0 (of_decide_eq_true h3)
    exact hout (of_decide_eq_true h2)

end Llama.MemoryRecurrent
