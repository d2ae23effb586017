import Llama.Recurrent.State

/-!
# The invariant of a recurrent memory

The table `tail` and the sequence sets of the cells say the same thing: a sequence is in the
cell that its tail names and in no other (`Inv`).  A cell with a sequence keeps its state in
its own row, and no cell waits to be copied from another one between two ubatches.

All sequence operations come down to one: a sequence leaves its cell.  `RmEffect` says so
for `seq_rm`.  The number of used cells is exact as long as positions are not negative, which
is where `seq_keep` looks for used cells.
-/

namespace Llama

open Function Finset MemCell

/-- The cell after sequence `s` has left it. -/
def MemCell.without (c : MemCell) (s : ℤ) : MemCell :=
  if c.seqId = {s} then c.freed else { c with seqId := c.seqId.erase s }

lemma MemCell.without_of_notMem {c : MemCell} {s : ℤ} (h : s ∉ c.seqId) : c.without s = c := by
  have hne : c.seqId ≠ {s} := fun heq => h (heq ▸ mem_singleton_self s)
  rw [without, if_neg hne, erase_eq_of_notMem h]

@[simp] lemma MemCell.seqId_without (c : MemCell) (s : ℤ) :
    (c.without s).seqId = c.seqId.erase s := by
  unfold without
  split
  · rename_i h
    rw [h, erase_singleton]
    rfl
  · rfl

@[simp] lemma MemCell.seqId_freed (c : MemCell) : c.freed.seqId = ∅ := rfl

namespace MemoryRecurrent

/-- The tails name the cells of the sequences; a used cell keeps its state in its row, and a
free one has no row or its own. -/
structure Inv (m : MemoryRecurrent) : Prop where
  tail_iff : ∀ s t, m.tail s = some t ↔ s ∈ (m.cells t).seqId
  lt : ∀ t, (m.cells t).seqId ≠ ∅ → t < m.prm.size
  inSize : ∀ t, ∀ s ∈ (m.cells t).seqId, m.InSize s
  src_full : ∀ t, (m.cells t).seqId ≠ ∅ → (m.cells t).src = some t
  src_self : ∀ t, (m.cells t).src = none ∨ (m.cells t).src = some t
  head_lt : m.head < m.prm.size

/-- `used` is the number of cells with a sequence. -/
def UsedOk (m : MemoryRecurrent) : Prop := m.used.toNat = m.countUsed

/-- Cells without a sequence have no position. -/
def FreePos (m : MemoryRecurrent) : Prop := ∀ i, (m.cells i).seqId = ∅ → (m.cells i).pos = -1

variable {m m' : MemoryRecurrent} {s : ℤ} {t : ℕ}

lemma Inv.mem (h : Inv m) (ht : m.tail s = some t) : s ∈ (m.cells t).seqId :=
  (h.tail_iff s t).mp ht

lemma Inv.ne_empty (h : Inv m) (ht : m.tail s = some t) : (m.cells t).seqId ≠ ∅ :=
  ne_empty_of_mem (h.mem ht)

lemma Inv.tail_lt (h : Inv m) (ht : m.tail s = some t) : t < m.prm.size := h.lt t (h.ne_empty ht)

lemma Inv.notMem (h : Inv m) (hs : m.tail s = none) (i : ℕ) : s ∉ (m.cells i).seqId := by
  intro hmem
  rw [(h.tail_iff s i).mpr hmem] at hs
  cases hs

lemma Inv.eq_tail (h : Inv m) (ht : m.tail s = some t) {i : ℕ} (hmem : s ∈ (m.cells i).seqId) :
    i = t :=
  Option.some.inj (((h.tail_iff s i).mpr hmem).symm.trans ht)

/-- The invariant does not look at the other fields. -/
lemma Inv.congr (h : Inv m) (hprm : m'.prm = m.prm) (hcells : m'.cells = m.cells)
    (htail : m'.tail = m.tail) (hhead : m'.head < m.prm.size) : Inv m' where
  tail_iff := by simpa only [hcells, htail] using h.tail_iff
  lt := by simpa only [hprm, hcells] using h.lt
  inSize := by simpa only [hprm, hcells, InSize] using h.inSize
  src_full := by simpa only [hcells] using h.src_full
  src_self := by simpa only [hcells] using h.src_self
  head_lt := by rwa [hprm]

lemma inv_of_empty (hcells : ∀ i, (m.cells i).seqId = ∅ ∧ (m.cells i).src = none)
    (htail : ∀ s, m.tail s = none) (hhead : m.head < m.prm.size) : Inv m where
  tail_iff := fun s t => by simp [htail, hcells]
  lt := fun t hne => absurd (hcells t).1 hne
  inSize := fun t s hs => by simp [hcells] at hs
  src_full := fun t hne => absurd (hcells t).1 hne
  src_self := fun t => .inl (hcells t).2
  head_lt := hhead

lemma inv_new (p : RsParams) : Inv (new p) :=
  inv_of_empty (fun _ => ⟨rfl, rfl⟩) (fun _ => rfl) p.size_pos

lemma inv_clear (m : MemoryRecurrent) (data : Bool) : Inv (m.clear data) :=
  inv_of_empty (fun _ => ⟨rfl, rfl⟩) (fun _ => rfl) m.prm.size_pos

lemma Inv.setRsIdx (h : Inv m) (s : ℤ) (idx : ℕ) : Inv (m.setRsIdx s idx) :=
  h.congr rfl rfl rfl h.head_lt

/-! ## Counting -/

lemma countCells_congr {p : MemCell → Bool} (hprm : m'.prm = m.prm)
    (h : ∀ i, p (m'.cells i) = p (m.cells i)) : m'.countCells p = m.countCells p := by
  unfold countCells
  simp only [hprm, h]

lemma countUsed_congr (hprm : m'.prm = m.prm)
    (h : ∀ i, ((m'.cells i).seqId = ∅ ↔ (m.cells i).seqId = ∅)) : m'.countUsed = m.countUsed :=
  countCells_congr hprm fun i => by simp only [MemCell.isEmpty, h i]

lemma countUsed_le (m : MemoryRecurrent) : m.countUsed ≤ m.prm.size :=
  (card_filter_le _ _).trans_eq (card_range _)

/-- One more cell is empty. -/
lemma countUsed_succ (hprm : m'.prm = m.prm) (ht : t < m.prm.size)
    (hfull : (m.cells t).seqId ≠ ∅) (hfree : (m'.cells t).seqId = ∅)
    (h : ∀ i ≠ t, ((m'.cells i).seqId = ∅ ↔ (m.cells i).seqId = ∅)) :
    m'.countUsed + 1 = m.countUsed := by
  have hins : ((range m.prm.size).filter fun i => !(m.cells i).isEmpty) =
      insert t ((range m.prm.size).filter fun i => !(m'.cells i).isEmpty) := by
    ext i
    simp only [mem_filter, mem_range, mem_insert, MemCell.isEmpty,
      Bool.not_eq_true', decide_eq_false_iff_not]
    by_cases hi : i = t
    · subst hi
      simp [ht, hfull]
    · simp only [hi, false_or]
      exact and_congr_right fun _ => not_congr (h i hi).symm
  have hnot : t ∉ (range m.prm.size).filter fun i => !(m'.cells i).isEmpty := by
    simp [MemCell.isEmpty, hfree]
  unfold countUsed countCells
  rw [hins, hprm, card_insert_of_notMem hnot]

lemma UsedOk.congr (h : UsedOk m) (hused : m'.used = m.used) (hprm : m'.prm = m.prm)
    (hids : ∀ i, ((m'.cells i).seqId = ∅ ↔ (m.cells i).seqId = ∅)) : UsedOk m' := by
  rw [UsedOk, hused, countUsed_congr hprm hids]
  exact h

/-- `n` cells that were used have become empty. -/
lemma UsedOk.sub {n : ℕ} (h : UsedOk m) (hused : m'.used = m.used - UInt32.ofNat n)
    (hcount : m'.countUsed + n = m.countUsed) : UsedOk m' := by
  have hlt := m.used.toNat_lt
  have hn : (UInt32.ofNat n).toNat = n := by
    rw [UInt32.toNat_ofNat']
    unfold UsedOk at h
    omega
  have hle : UInt32.ofNat n ≤ m.used := by
    rw [UInt32.le_iff_toNat_le, h]
    omega
  rw [UsedOk, hused, UInt32.toNat_sub_of_le _ _ hle, h]
  omega

lemma usedOk_ofNat (hused : m.used = UInt32.ofNat m.countUsed) : UsedOk m := by
  have h1 := m.countUsed_le
  have h2 := m.prm.size_lt
  rw [UsedOk, hused, UInt32.toNat_ofNat']
  omega

lemma countUsed_of_empty (h : ∀ i, (m.cells i).seqId = ∅) : m.countUsed = 0 := by
  simp [countUsed, countCells, MemCell.isEmpty, h]

/-! ## A sequence leaves its cell -/

@[simp] lemma leave_tail (m : MemoryRecurrent) (s : ℤ) :
    (m.leave s).tail = Function.update m.tail s none := by
  unfold leave
  split
  · rename_i hs
    rw [← hs, update_eq_self]
  · dsimp only
    split <;> rfl

/-- The rest of the memory stays. -/
@[simp] lemma leave_frame (m : MemoryRecurrent) (s : ℤ) : (m.leave s).prm = m.prm ∧
    (m.leave s).head = m.head ∧ (m.leave s).rsIdx = m.rsIdx ∧ (m.leave s).rows = m.rows ∧
      (m.leave s).n = m.n ∧ (m.leave s).rsZ = m.rsZ := by
  unfold leave
  split
  · exact ⟨rfl, rfl, rfl, rfl, rfl, rfl⟩
  · dsimp only
    split <;> exact ⟨rfl, rfl, rfl, rfl, rfl, rfl⟩

lemma leave_prm (m : MemoryRecurrent) (s : ℤ) : (m.leave s).prm = m.prm := (leave_frame m s).1

lemma leave_rsIdx (m : MemoryRecurrent) (s : ℤ) : (m.leave s).rsIdx = m.rsIdx :=
  (leave_frame m s).2.2.1

lemma leave_rows (m : MemoryRecurrent) (s : ℤ) : (m.leave s).rows = m.rows :=
  (leave_frame m s).2.2.2.1

/-- The used cells after a sequence has left one. -/
lemma leave_used (ht : m.tail s = some t) :
    (m.leave s).used = if (m.cells t).seqId.erase s = ∅ then m.used - 1 else m.used := by
  unfold leave
  rw [ht]
  dsimp only
  split <;> rfl

/-- A set that holds `s` becomes empty exactly when `s` is alone in it. -/
lemma erase_eq_empty_iff {ids : Finset ℤ} (hs : s ∈ ids) : ids.erase s = ∅ ↔ ids = {s} := by
  rw [Finset.erase_eq_empty_iff]
  refine ⟨fun h => h.resolve_left (ne_empty_of_mem hs), .inr⟩

lemma Inv.leave_cells (h : Inv m) (s : ℤ) (i : ℕ) :
    (m.leave s).cells i = (m.cells i).without s := by
  unfold MemoryRecurrent.leave
  split
  · rename_i hs
    exact (without_of_notMem (h.notMem hs i)).symm
  · rename_i t hs
    by_cases hit : i = t
    · subst hit
      unfold MemCell.without
      simp only [erase_eq_empty_iff (h.mem hs)]
      split <;> simp only [update_self]
    · have hout : s ∉ (m.cells i).seqId := fun hmem => hit (h.eq_tail hs hmem)
      rw [without_of_notMem hout]
      dsimp only
      split <;> simp only [update_of_ne hit]

lemma Inv.leave (h : Inv m) (s : ℤ) : Inv (m.leave s) where
  tail_iff := by
    intro s' t
    rw [h.leave_cells]
    by_cases hs : s' = s
    · simp [hs]
    · simp [h.tail_iff, hs]
  lt := by
    intro t hne
    rw [h.leave_cells, seqId_without] at hne
    rw [leave_prm]
    exact h.lt t fun hempty => hne (by rw [hempty, erase_empty])
  inSize := by
    intro t s' hs'
    rw [h.leave_cells, seqId_without] at hs'
    rw [InSize, leave_prm]
    exact h.inSize t s' (mem_of_mem_erase hs')
  src_full := by
    intro t hne
    rw [h.leave_cells] at hne ⊢
    unfold MemCell.without at hne ⊢
    split
    · rename_i heq
      rw [if_pos heq] at hne
      exact absurd rfl hne
    · refine h.src_full t fun hempty => hne ?_
      split
      · rfl
      · simp [hempty]
  src_self := by
    intro t
    rw [h.leave_cells]
    unfold MemCell.without
    split
    · exact .inl rfl
    · exact h.src_self t
  head_lt := by simpa using h.head_lt

lemma FreePos.leave (hf : FreePos m) (h : Inv m) (s : ℤ) : FreePos (m.leave s) := by
  intro i hempty
  rw [h.leave_cells] at hempty ⊢
  unfold MemCell.without at hempty ⊢
  split
  · rfl
  · rename_i hne
    rw [if_neg hne] at hempty
    exact hf i (((Finset.erase_eq_empty_iff _ _).mp hempty).resolve_right hne)

/-- The cell of `s` becomes free when `s` is alone in it. -/
lemma UsedOk.leave (hu : UsedOk m) (h : Inv m) (s : ℤ) : UsedOk (m.leave s) := by
  cases hs : m.tail s with
  | none =>
    have heq : m.leave s = m := by
      unfold MemoryRecurrent.leave
      rw [hs]
    rwa [heq]
  | some t =>
    have hother : ∀ i ≠ t, (((m.leave s).cells i).seqId = ∅ ↔ (m.cells i).seqId = ∅) := by
      intro i hit
      have hout : s ∉ (m.cells i).seqId := fun hmem => hit (h.eq_tail hs hmem)
      rw [h.leave_cells, without_of_notMem hout]
    have hids : ((m.leave s).cells t).seqId = (m.cells t).seqId.erase s := by
      rw [h.leave_cells, seqId_without]
    by_cases hone : (m.cells t).seqId.erase s = ∅
    · have hused : (m.leave s).used = m.used - UInt32.ofNat 1 := by
        simp only [MemoryRecurrent.leave, hs, hone]
        rfl
      exact hu.sub hused (countUsed_succ (leave_prm m s) (h.tail_lt hs) (h.ne_empty hs)
        (hids.trans hone) hother)
    · have hused : (m.leave s).used = m.used := by
        simp only [MemoryRecurrent.leave, hs, hone, if_false]
      refine hu.congr hused (leave_prm m s) fun i => ?_
      by_cases hit : i = t
      · subst hit
        rw [hids]
        exact iff_of_false hone (h.ne_empty hs)
      · exact hother i hit

/-! ## `seq_rm` -/

/-- The condition under which `seq_rm` rolls sequence `s` back. -/
def RollsBack (m : MemoryRecurrent) (s p0 p1 : ℤ) : Prop :=
  0 ≤ s ∧ s < m.prm.nSeqMax ∧ ∃ t, m.tail s = some t ∧ cutsTail (m.cells t) p0 p1 ∧
    m.rsIdx s = 0 ∧ (m.cells t).pos - (p0 - 1) ≤ m.prm.nRsSeq

/-- What `seq_rm` can do on the range `[p0, p1)`. -/
inductive RmEffect (m : MemoryRecurrent) (s p0 p1 : ℤ) : MemoryRecurrent → Prop
  | kept (h : ¬ m.RollsBack s p0 p1) : RmEffect m s p0 p1 m
  | reset (h : ¬ m.RollsBack s p0 p1) : RmEffect m s p0 p1 (m.setRsIdx s 0)
  | rolledBack {t : ℕ} (h : m.RollsBack s p0 p1) (ht : m.tail s = some t) (hp0 : 0 < p0) :
    RmEffect m s p0 p1 (m.rollBack s t p0)
  | removed {t head : ℕ} (h : ¬ m.RollsBack s p0 p1) (ht : m.tail s = some t) (hp0 : p0 = 0)
    (hpos : 0 ≤ (m.cells t).pos ∧ (m.cells t).pos < p1) (hhead : head < m.prm.size) :
    RmEffect m s p0 p1 { (m.resetOnAll s p0 p1).leave s with head := head }

@[simp] lemma resetOnAll_prm (m : MemoryRecurrent) (s p0 p1 : ℤ) :
    (m.resetOnAll s p0 p1).prm = m.prm := by
  unfold resetOnAll
  split <;> rfl

@[simp] lemma resetOnAll_cells (m : MemoryRecurrent) (s p0 p1 : ℤ) :
    (m.resetOnAll s p0 p1).cells = m.cells := by
  unfold resetOnAll
  split <;> rfl

@[simp] lemma resetOnAll_tail (m : MemoryRecurrent) (s p0 p1 : ℤ) :
    (m.resetOnAll s p0 p1).tail = m.tail := by
  unfold resetOnAll
  split <;> rfl

lemma Inv.resetOnAll (h : Inv m) (s p0 p1 : ℤ) : Inv (m.resetOnAll s p0 p1) := by
  unfold MemoryRecurrent.resetOnAll
  split
  · exact h.setRsIdx s 0
  · exact h

lemma lowerHead_lt {head size : ℕ} {o : Option ℕ} (hhead : head < size)
    (ho : ∀ i, o = some i → i < size) : lowerHead head o < size := by
  cases o with
  | none => exact hhead
  | some i =>
    rw [lowerHead]
    split
    · exact ho i rfl
    · exact hhead

lemma find_cellIds_lt {p : ℕ → Bool} {i : ℕ} (h : m.cellIds.find? p = some i) : i < m.prm.size :=
  List.mem_range.mp (List.mem_of_find?_eq_some h)

variable {p0 p1 : ℤ}

/-- The loop of `seq_rm` finds nothing outside the cell of the sequence. -/
lemma Inv.removeRange_eq_self (h : Inv m)
    (hout : ∀ t, m.tail s = some t → ¬ (p0 ≤ (m.cells t).pos ∧ (m.cells t).pos < p1)) :
    m.removeRange s p0 p1 = m := by
  have hsel : ∀ i, selects s p0 p1 (m.cells i) = false := by
    intro i
    rw [selects, decide_eq_false_iff_not]
    rintro ⟨h0, h1, hmem⟩
    exact hout i ((h.tail_iff s i).mpr hmem) ⟨h0, h1⟩
  have hvac : ∀ i, vacates s p0 p1 (m.cells i) = false := fun i => by
    simp [vacates, hsel]
  have hused : m.countCells (fun c => vacates s p0 p1 c ∧ 0 ≤ c.pos) = 0 := by
    simp [countCells, hvac]
  have hfind : m.cellIds.find? (fun i => vacates s p0 p1 (m.cells i)) = none :=
    List.find?_eq_none.mpr fun i _ => by simp [hvac]
  refine MemoryRecurrent.ext rfl (funext fun i => ?_) rfl ?_ ?_ rfl rfl rfl rfl
  · simp [removeRange, hsel, hvac]
  · rw [removeRange, hfind, lowerHead]
  · rw [removeRange, hused]
    exact UInt32.sub_zero _

/-- A memory that differs from the one that `s` has left only in its head. -/
lemma eq_leave_with (hprm : m'.prm = m.prm) (hcells : ∀ i, m'.cells i = (m.leave s).cells i)
    (htail : m'.tail = Function.update m.tail s none) (hused : m'.used = (m.leave s).used)
    (hn : m'.n = m.n) (hz : m'.rsZ = m.rsZ) (hidx : m'.rsIdx = m.rsIdx)
    (hrows : m'.rows = m.rows) : m' = { m.leave s with head := m'.head } := by
  refine MemoryRecurrent.ext ?_ (funext hcells) ?_ rfl hused ?_ ?_ ?_ ?_
  · rw [leave_prm, hprm]
  · rw [leave_tail, htail]
  · rw [(leave_frame _ _).2.2.2.2.1, hn]
  · rw [(leave_frame _ _).2.2.2.2.2, hz]
  · rw [leave_rsIdx, hidx]
  · rw [leave_rows, hrows]

/-- The loop of `seq_rm` takes the sequence out of its cell. -/
lemma Inv.removeRange_eq_leave (h : Inv m) (ht : m.tail s = some t) (hp0 : 0 ≤ p0)
    (hpos : p0 ≤ (m.cells t).pos ∧ (m.cells t).pos < p1) :
    ∃ head < m.prm.size, removeRange { m with tail := Function.update m.tail s none } s p0 p1 =
        { m.leave s with head := head } := by
  have hother : ∀ i ≠ t, selects s p0 p1 (m.cells i) = false := by
    intro i hit
    rw [selects, decide_eq_false_iff_not]
    exact fun hsel => hit (h.eq_tail ht hsel.2.2)
  have hsel : selects s p0 p1 (m.cells t) = true := by
    rw [selects, decide_eq_true_iff]
    exact ⟨hpos.1, hpos.2, h.mem ht⟩
  have hvac : vacates s p0 p1 (m.cells t) = decide ((m.cells t).seqId.erase s = ∅) := by
    simp [vacates, hsel]
  have hvac' : ∀ i ≠ t, vacates s p0 p1 (m.cells i) = false := fun i hit => by
    simp [vacates, hother i hit]
  have hcount : m.countCells (fun c => vacates s p0 p1 c ∧ 0 ≤ c.pos) =
      if (m.cells t).seqId.erase s = ∅ then 1 else 0 := by
    have hpos0 : 0 ≤ (m.cells t).pos := le_trans hp0 hpos.1
    split
    · rename_i hone
      refine card_eq_one.mpr ⟨t, Finset.ext fun i => ?_⟩
      rw [mem_singleton]
      refine ⟨fun hi => ?_, ?_⟩
      · by_contra hit
        simp [hvac' i hit] at hi
      · rintro rfl
        simp [hvac, hone, hpos0, h.tail_lt ht]
    · rename_i hone
      refine card_eq_zero.mpr (filter_eq_empty_iff.mpr fun i _ => ?_)
      by_cases hit : i = t
      · subst hit
        simp [hvac, hone]
      · simp [hvac' i hit]
  refine ⟨_, lowerHead_lt h.head_lt fun i => find_cellIds_lt, eq_leave_with rfl (fun i => ?_) rfl ?_
    rfl rfl rfl rfl⟩
  · rw [h.leave_cells]
    change (if vacates s p0 p1 (m.cells i) then (m.cells i).freed
      else if selects s p0 p1 (m.cells i) then { m.cells i with seqId := (m.cells i).seqId.erase s }
      else m.cells i) = _
    by_cases hit : i = t
    · subst hit
      simp only [hvac, hsel, erase_eq_empty_iff (h.mem ht), decide_eq_true_eq]
      rfl
    · rw [hvac' i hit, hother i hit, without_of_notMem fun hmem => hit (h.eq_tail ht hmem)]
      rfl
  · have hcount' : countCells { m with tail := Function.update m.tail s none }
        (fun c => vacates s p0 p1 c ∧ 0 ≤ c.pos) = _ := hcount
    rw [leave_used ht]
    simp only [removeRange, hcount']
    split
    · rfl
    · exact UInt32.sub_zero _

/-- The rest of `seq_rm`, in a memory that `seq_rm` has not changed or whose rollback it has
reset. -/
lemma Inv.seqRmCell_effect (h : Inv m) (hp0 : 0 ≤ p0) (h0 : 0 ≤ s) (h1 : s < m.prm.nSeqMax) :
    RmEffect m s p0 p1 ((m.resetOnAll s p0 p1).seqRmCell s p0 p1).2 := by
  have hinv := h.resetOnAll s p0 p1
  have hsame : ¬ m.RollsBack s p0 p1 → RmEffect m s p0 p1 (m.resetOnAll s p0 p1) := by
    intro hnr
    unfold MemoryRecurrent.resetOnAll
    split
    · exact .reset hnr
    · exact .kept hnr
  unfold seqRmCell
  rw [resetOnAll_tail]
  cases hs : m.tail s with
  | none =>
    have hnr : ¬ m.RollsBack s p0 p1 := by
      rintro ⟨-, -, t, ht, -⟩
      rw [hs] at ht
      cases ht
    rw [hinv.removeRange_eq_self fun t ht => by
      rw [resetOnAll_tail, hs] at ht
      cases ht]
    exact hsame hnr
  | some t =>
    dsimp only
    rw [resetOnAll_cells]
    by_cases hcut : cutsTail (m.cells t) p0 p1 = true
    · have hpos : 0 < p0 ∧ p0 ≤ (m.cells t).pos ∧ (m.cells t).pos < p1 := by
        simpa [cutsTail] using hcut
      have hm : m.resetOnAll s p0 p1 = m := if_neg fun hall => by
        omega
      rw [if_pos hcut, hm]
      split
      · rename_i hc
        exact .rolledBack ⟨h0, h1, t, hs, hcut, hc.1, hc.2.2⟩ hs hpos.1
      · rename_i hc
        refine .kept fun hr => hc ?_
        obtain ⟨-, -, t', ht', -, hidx, hle⟩ := hr
        rw [hs] at ht'
        cases ht'
        exact ⟨hidx, by omega, hle⟩
    · have hnr : ¬ m.RollsBack s p0 p1 := by
        rintro ⟨-, -, t', ht', hc, -⟩
        rw [hs] at ht'
        cases ht'
        exact hcut hc
      rw [if_neg hcut]
      by_cases hin : p0 ≤ (m.cells t).pos ∧ (m.cells t).pos < p1
      · have hzero : p0 = 0 := by
          by_contra hne
          exact hcut (by simp only [cutsTail, decide_eq_true_eq]; omega)
        have hin' : p0 ≤ ((m.resetOnAll s p0 p1).cells t).pos ∧
            ((m.resetOnAll s p0 p1).cells t).pos < p1 := by rwa [resetOnAll_cells]
        have ht' : (m.resetOnAll s p0 p1).tail s = some t := by rwa [resetOnAll_tail]
        obtain ⟨head, hhead, heq⟩ := hinv.removeRange_eq_leave ht' hp0 hin'
        rw [resetOnAll_prm] at hhead
        rw [resetOnAll_cells, resetOnAll_tail] at heq
        rw [if_pos hin, heq]
        exact .removed hnr hs hzero ⟨by omega, hin.2⟩ hhead
      · rw [if_neg hin]
        rw [hinv.removeRange_eq_self fun t' ht' => by
          rw [resetOnAll_tail, hs] at ht'
          cases ht'
          rwa [resetOnAll_cells]]
        exact hsame hnr

/-- **What `seq_rm` does.** -/
theorem Inv.seqRmRange_effect (h : Inv m) (hp0 : 0 ≤ p0) :
    RmEffect m s p0 p1 (m.seqRmRange s p0 p1).2 := by
  unfold seqRmRange
  by_cases hvalid : s < 0 ∨ (m.prm.nSeqMax : ℤ) ≤ s
  · rw [if_pos hvalid]
    exact .kept fun hr => by
      have h0 := hr.1
      have h1 := hr.2.1
      omega
  · have hlt : ¬ (m.prm.size : ℤ) ≤ s := by
      have := m.prm.nSeqMax_le
      omega
    rw [if_neg hvalid]
    dsimp only
    rw [resetOnAll_prm, if_neg hlt]
    exact h.seqRmCell_effect hp0 (by omega) (by omega)

lemma Inv.seqRm_effect (h : Inv m) (s p0 p1 : ℤ) :
    RmEffect m s (lowPos p0) (highPos p1) (m.seqRm s p0 p1).2 :=
  h.seqRmRange_effect (by
    unfold lowPos
    split <;> omega)

/-- A cell of a sequence gets another position. -/
lemma Inv.setPos (h : Inv m) (hprm : m'.prm = m.prm)
    (hcells : ∀ i, (m'.cells i).seqId = (m.cells i).seqId ∧ (m'.cells i).src = (m.cells i).src)
    (htail : m'.tail = m.tail) (hhead : m'.head = m.head) : Inv m' where
  tail_iff := by simpa only [hcells, htail] using h.tail_iff
  lt := by simpa only [hprm, hcells] using h.lt
  inSize := by simpa only [hprm, hcells, InSize] using h.inSize
  src_full := by simpa only [hcells] using h.src_full
  src_self := by simpa only [hcells] using h.src_self
  head_lt := by simpa only [hprm, hhead] using h.head_lt

/-- A cell update that keeps the sequences and the row. -/
lemma update_pos_seqId (m : MemoryRecurrent) (t : ℕ) (p : ℤ) (i : ℕ) :
    (Function.update m.cells t { m.cells t with pos := p } i).seqId = (m.cells i).seqId ∧
      (Function.update m.cells t { m.cells t with pos := p } i).src = (m.cells i).src := by
  by_cases hit : i = t
  · subst hit
    simp
  · simp [update_of_ne hit]

/-- The positions of the free cells are not touched. -/
lemma FreePos.update (hf : FreePos m) (hne : (m.cells t).seqId ≠ ∅) {p : ℤ}
    (hcells : m'.cells = Function.update m.cells t { m.cells t with pos := p }) : FreePos m' := by
  intro i hempty
  rw [hcells] at hempty ⊢
  have hit : i ≠ t := by
    rintro rfl
    rw [(update_pos_seqId m i p i).1] at hempty
    exact hne hempty
  rw [update_of_ne hit] at hempty ⊢
  exact hf i hempty

lemma RmEffect.inv (he : RmEffect m s p0 p1 m') (h : Inv m) : Inv m' := by
  cases he with
  | kept _ => exact h
  | reset _ => exact h.setRsIdx s 0
  | rolledBack _ ht _ => exact h.setPos rfl (update_pos_seqId m _ _) rfl rfl
  | removed _ ht _ _ hhead =>
    refine ((h.resetOnAll s p0 p1).leave s).congr rfl rfl rfl ?_
    simpa using hhead

lemma RmEffect.usedOk (he : RmEffect m s p0 p1 m') (h : Inv m) (hu : UsedOk m) : UsedOk m' := by
  cases he with
  | kept _ => exact hu
  | reset _ => exact hu
  | rolledBack _ ht _ =>
    exact hu.congr rfl rfl fun i => by rw [rollBack, (update_pos_seqId m _ _ i).1]
  | removed _ ht _ _ hhead =>
    have hreset : UsedOk (m.resetOnAll s p0 p1) := by
      unfold MemoryRecurrent.resetOnAll
      split <;> exact hu
    exact (hreset.leave (h.resetOnAll s p0 p1) s).congr rfl rfl fun _ => Iff.rfl

lemma RmEffect.freePos (he : RmEffect m s p0 p1 m') (h : Inv m) (hf : FreePos m) : FreePos m' := by
  cases he with
  | kept _ => exact hf
  | reset _ => exact hf
  | rolledBack _ ht _ => exact hf.update (h.ne_empty ht) rfl
  | removed _ ht _ _ hhead =>
    have hreset : FreePos (m.resetOnAll s p0 p1) := by
      intro i
      rw [resetOnAll_cells]
      exact hf i
    exact hreset.leave (h.resetOnAll s p0 p1) s

/-! ## The other sequence operations -/

lemma join_seqId (m : MemoryRecurrent) (s : ℤ) (t i : ℕ) : ((m.join s t).cells i).seqId =
      if i = t then insert s (m.cells i).seqId else (m.cells i).seqId := by
  by_cases hit : i = t
  · subst hit
    simp [join]
  · simp [join, hit]

lemma join_pos_src (m : MemoryRecurrent) (s : ℤ) (t i : ℕ) :
    ((m.join s t).cells i).pos = (m.cells i).pos ∧
      ((m.join s t).cells i).src = (m.cells i).src := by
  by_cases hit : i = t
  · subst hit
    simp [join]
  · simp [join, hit]

/-- A used cell stays used. -/
lemma join_eq_empty_iff (hne : (m.cells t).seqId ≠ ∅) (i : ℕ) :
    ((m.join s t).cells i).seqId = ∅ ↔ (m.cells i).seqId = ∅ := by
  rw [join_seqId]
  split
  · rename_i hit
    subst hit
    exact iff_of_false (insert_ne_empty _ _) hne
  · rfl

/-- Sequence `s`, which is in no cell, joins cell `t`. -/
lemma Inv.join (h : Inv m) (hs : m.tail s = none) (hin : m.InSize s)
    (hne : (m.cells t).seqId ≠ ∅) : Inv (m.join s t) where
  tail_iff := by
    intro s' i
    rw [join_seqId]
    change Function.update m.tail s (some t) s' = some i ↔ _
    by_cases hs' : s' = s
    · subst hs'
      rw [update_self]
      split
      · simp_all
      · rename_i hit
        exact iff_of_false (fun heq => hit (Option.some.inj heq).symm) (h.notMem hs i)
    · rw [update_of_ne hs', h.tail_iff]
      split <;> simp [hs']
  lt := by
    intro i hi
    rw [Ne, join_eq_empty_iff hne] at hi
    exact h.lt i hi
  inSize := by
    intro i s' hs'
    rw [join_seqId] at hs'
    split at hs'
    · rcases mem_insert.mp hs' with rfl | hs'
      · exact hin
      · exact h.inSize i s' hs'
    · exact h.inSize i s' hs'
  src_full := by
    intro i hi
    rw [Ne, join_eq_empty_iff hne] at hi
    rw [(join_pos_src m s t i).2]
    exact h.src_full i hi
  src_self := by
    intro i
    rw [(join_pos_src m s t i).2]
    exact h.src_self i
  head_lt := h.head_lt

/-- `seq_cp` between different sequences in range: `dst` leaves its cell and joins that of
`src`. -/
lemma seqCp_cases (src dst : ℤ) : m.seqCp src dst = m ∨
      (src ≠ dst ∧ m.InSize dst ∧ m.InSize src ∧ m.tail src = none ∧
        m.seqCp src dst = m.leave dst) ∨
      ∃ t, src ≠ dst ∧ m.InSize dst ∧ m.InSize src ∧ m.tail src = some t ∧
        m.seqCp src dst = (m.leave dst).join dst t := by
  unfold seqCp
  by_cases hne : src = dst
  · exact .inl (if_pos hne)
  rw [if_neg hne]
  by_cases hin : m.InSize dst ∧ m.InSize src
  · rw [if_pos hin]
    have htail : (m.leave dst).tail src = m.tail src := by
      rw [leave_tail, update_of_ne hne]
    dsimp only
    rw [htail]
    cases hs : m.tail src with
    | none => exact .inr (.inl ⟨hne, hin.1, hin.2, rfl, rfl⟩)
    | some t => exact .inr (.inr ⟨t, hne, hin.1, hin.2, rfl, rfl⟩)
  · exact .inl (if_neg hin)

/-- The cell of `src` after `dst` has left its own. -/
lemma Inv.leave_ne_empty (h : Inv m) {src dst : ℤ} (hne : src ≠ dst)
    (ht : m.tail src = some t) : ((m.leave dst).cells t).seqId ≠ ∅ := by
  rw [h.leave_cells, seqId_without]
  exact ne_empty_of_mem (mem_erase.mpr ⟨hne, h.mem ht⟩)

lemma Inv.seqCp (h : Inv m) (src dst : ℤ) : Inv (m.seqCp src dst) := by
  rcases seqCp_cases (m := m) src dst with heq | ⟨-, -, -, -, heq⟩ | ⟨t, hne, hin, -, ht, heq⟩
  · rwa [heq]
  · rw [heq]
    exact h.leave dst
  · rw [heq]
    refine (h.leave dst).join ?_ ?_ (h.leave_ne_empty hne ht)
    · simp
    · rwa [InSize, leave_prm]

lemma UsedOk.seqCp (hu : UsedOk m) (h : Inv m) (src dst : ℤ) : UsedOk (m.seqCp src dst) := by
  rcases seqCp_cases (m := m) src dst with heq | ⟨-, -, -, -, heq⟩ | ⟨t, hne, -, -, ht, heq⟩
  · rwa [heq]
  · rw [heq]
    exact hu.leave h dst
  · rw [heq]
    exact (hu.leave h dst).congr rfl rfl (join_eq_empty_iff (h.leave_ne_empty hne ht))

lemma FreePos.seqCp (hf : FreePos m) (h : Inv m) (src dst : ℤ) : FreePos (m.seqCp src dst) := by
  rcases seqCp_cases (m := m) src dst with heq | ⟨-, -, -, -, heq⟩ | ⟨t, hne, -, -, ht, heq⟩
  · rwa [heq]
  · rw [heq]
    exact hf.leave h dst
  · rw [heq]
    intro i hempty
    rw [join_eq_empty_iff (h.leave_ne_empty hne ht)] at hempty
    rw [(join_pos_src _ dst t i).1]
    exact hf.leave h dst i hempty

lemma seqKeep_seqId (m : MemoryRecurrent) (s : ℤ) (i : ℕ) :
    ((m.seqKeep s).cells i).seqId = if s ∈ (m.cells i).seqId then {s} else ∅ := by
  simp only [seqKeep]
  split <;> rfl

lemma Inv.seqKeep (h : Inv m) (s : ℤ) : Inv (m.seqKeep s) where
  tail_iff := by
    intro s' t
    simp only [MemoryRecurrent.seqKeep]
    by_cases hs : s' = s
    · subst hs
      rw [if_pos rfl, h.tail_iff]
      split <;> simp_all
    · rw [if_neg hs]
      split <;> simp [hs]
  lt := by
    intro t hne
    rw [seqKeep_seqId] at hne
    split at hne
    · rename_i hmem
      exact h.lt t (ne_empty_of_mem hmem)
    · exact absurd rfl hne
  inSize := by
    intro t s' hs'
    rw [seqKeep_seqId] at hs'
    split at hs'
    · rename_i hmem
      rw [mem_singleton.mp hs']
      exact h.inSize t s hmem
    · cases hs'
  src_full := by
    intro t hne
    rw [seqKeep_seqId] at hne
    split at hne
    · rename_i hmem
      simp only [MemoryRecurrent.seqKeep, if_pos hmem]
      exact h.src_full t (ne_empty_of_mem hmem)
    · exact absurd rfl hne
  src_self := by
    intro t
    simp only [MemoryRecurrent.seqKeep]
    split
    · exact h.src_self t
    · exact .inl rfl
  head_lt := lowerHead_lt h.head_lt fun _ => find_cellIds_lt

lemma freePos_seqKeep (m : MemoryRecurrent) (s : ℤ) : FreePos (m.seqKeep s) := by
  intro i hempty
  rw [seqKeep_seqId] at hempty
  split at hempty
  · exact absurd hempty (singleton_ne_empty s)
  · rename_i hmem
    simp only [MemoryRecurrent.seqKeep, if_neg hmem]
    rfl

/-- `seq_keep` counts the cells it frees when their positions are not negative. -/
lemma UsedOk.seqKeep (hu : UsedOk m) (hf : FreePos m)
    (hpos : ∀ i, (m.cells i).seqId ≠ ∅ → s ∉ (m.cells i).seqId → 0 ≤ (m.cells i).pos) :
    UsedOk (m.seqKeep s) := by
  refine hu.sub rfl ?_
  have hfree : ∀ i, (s ∉ (m.cells i).seqId ∧ 0 ≤ (m.cells i).pos) ↔
      ((m.cells i).seqId ≠ ∅ ∧ s ∉ (m.cells i).seqId) := by
    intro i
    constructor
    · rintro ⟨hs, h0⟩
      refine ⟨fun hempty => ?_, hs⟩
      have := hf i hempty
      omega
    · rintro ⟨hne, hs⟩
      exact ⟨hs, hpos i hne hs⟩
  have hkeep : ∀ i, ((m.seqKeep s).cells i).seqId ≠ ∅ ↔
      ((m.cells i).seqId ≠ ∅ ∧ s ∈ (m.cells i).seqId) := by
    intro i
    rw [seqKeep_seqId]
    split
    · rename_i hmem
      simp [ne_empty_of_mem hmem, hmem]
    · rename_i hmem
      simp [hmem]
  have hsplit := card_filter_add_card_filter_not
    (s := (range m.prm.size).filter fun i => (m.cells i).seqId ≠ ∅)
    (fun i => s ∈ (m.cells i).seqId)
  rw [filter_filter, filter_filter] at hsplit
  simp only [countUsed, countCells, MemCell.isEmpty, Bool.not_eq_true', decide_eq_true_eq,
    decide_eq_false_iff_not, hfree, hkeep]
  exact hsplit

/-- `seq_add` and `seq_div` change at most the position of one used cell. -/
lemma mapPos_cases (s p0 p1 : ℤ) (f : ℤ → ℤ) :
    m.mapPos s p0 p1 f = m ∨ ∃ t, m.tail s = some t ∧ m.mapPos s p0 p1 f =
      { m with cells := Function.update m.cells t { m.cells t with pos := f (m.cells t).pos } } := by
  unfold mapPos
  split
  · exact .inl rfl
  · split
    · cases hs : m.tail s with
      | none => exact .inl rfl
      | some t =>
        dsimp only
        split
        · exact .inr ⟨t, rfl, rfl⟩
        · exact .inl rfl
    · exact .inl rfl

lemma Inv.mapPos (h : Inv m) (s p0 p1 : ℤ) (f : ℤ → ℤ) : Inv (m.mapPos s p0 p1 f) := by
  rcases mapPos_cases (m := m) s p0 p1 f with heq | ⟨t, -, heq⟩
  · rwa [heq]
  · rw [heq]
    exact h.setPos rfl (update_pos_seqId m _ _) rfl rfl

lemma UsedOk.mapPos (hu : UsedOk m) (s p0 p1 : ℤ) (f : ℤ → ℤ) : UsedOk (m.mapPos s p0 p1 f) := by
  rcases mapPos_cases (m := m) s p0 p1 f with heq | ⟨t, -, heq⟩
  · rwa [heq]
  · rw [heq]
    exact hu.congr rfl rfl fun i => by rw [(update_pos_seqId m _ _ i).1]

lemma FreePos.mapPos (hf : FreePos m) (h : Inv m) (s p0 p1 : ℤ) (f : ℤ → ℤ) :
    FreePos (m.mapPos s p0 p1 f) := by
  rcases mapPos_cases (m := m) s p0 p1 f with heq | ⟨t, ht, heq⟩
  · rwa [heq]
  · rw [heq]
    exact hf.update (h.ne_empty ht) rfl

end MemoryRecurrent
end Llama
