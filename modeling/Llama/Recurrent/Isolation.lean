import Llama.Recurrent.Runs

/-!
# What `seq_rm` does to other sequences

Removing a sequence from its cell leaves the other sequences of the cell as they are.  A
rollback does not: it sets back the position of the cell, which the sequences that share it
read as their own.
-/

namespace Llama.MemoryRecurrent

open List Function

variable {m m' : MemoryRecurrent} {s : ℤ} {t : ℕ}

/-- The rows that `state_write` saves for a sequence. -/
def savedRows (m : MemoryRecurrent) (s : ℤ) : List ℕ :=
  (m.cellIds.filter fun i => s ∈ (m.cells i).seqId).map fun i =>
    (if m.prm.nRsSeq = 0 then 0 else m.rsIdx s) * m.prm.size + (m.cells i).src.getD i

/-- The logical state of a sequence. -/
def savedState (m : MemoryRecurrent) (s : ℤ) : List RsRow := (m.savedRows s).map m.rows

/-- The position, the cells and the state of every sequence other than `s` are the same. -/
structure Isolated (s : ℤ) (m m' : MemoryRecurrent) : Prop where
  posMin : ∀ s' ≠ s, m'.seqPosMin s' = m.seqPosMin s'
  posMax : ∀ s' ≠ s, m'.seqPosMax s' = m.seqPosMax s'
  mem : ∀ s' ≠ s, ∀ i, s' ∈ (m'.cells i).seqId ↔ s' ∈ (m.cells i).seqId
  state : ∀ s' ≠ s, m'.savedState s' = m.savedState s'

/-- It is enough that the cells of the other sequences are the same. -/
lemma isolated_of_cells (hprm : m'.prm = m.prm) (hrows : m'.rows = m.rows)
    (hidx : ∀ s' ≠ s, m'.rsIdx s' = m.rsIdx s')
    (hmem : ∀ s' ≠ s, ∀ i, s' ∈ (m'.cells i).seqId ↔ s' ∈ (m.cells i).seqId)
    (hcell : ∀ s' ≠ s, ∀ i, s' ∈ (m.cells i).seqId →
      (m'.cells i).pos = (m.cells i).pos ∧ (m'.cells i).src = (m.cells i).src) :
    Isolated s m m' := by
  have hfold : ∀ s' ≠ s, ∀ f : ℤ → ℤ → ℤ,
      (fun (r : ℤ) (i : ℕ) => if s' ∈ (m'.cells i).seqId then f r (m'.cells i).pos else r) =
        fun r i => if s' ∈ (m.cells i).seqId then f r (m.cells i).pos else r := by
    intro s' hs' f
    funext r i
    by_cases hi : s' ∈ (m.cells i).seqId
    · rw [if_pos hi, if_pos ((hmem s' hs' i).mpr hi), (hcell s' hs' i hi).1]
    · rw [if_neg hi, if_neg fun h => hi ((hmem s' hs' i).mp h)]
  refine ⟨fun s' hs' => ?_, fun s' hs' => ?_, hmem, fun s' hs' => ?_⟩
  · unfold seqPosMin cellIds
    rw [hfold s' hs' min, hprm]
  · unfold seqPosMax cellIds
    rw [hfold s' hs' max, hprm]
  · have hrow : m'.savedRows s' = m.savedRows s' := by
      unfold savedRows cellIds
      simp only [hprm, hidx s' hs', hmem s' hs']
      refine map_congr_left fun i hi => ?_
      rw [(hcell s' hs' i (by simpa using (mem_filter.mp hi).2)).2]
    unfold savedState
    rw [hrow, hrows]

/-- Sequence `s` leaves its cell. -/
lemma Inv.isolated_leave (h : Inv m) (s : ℤ) : Isolated s m (m.leave s) := by
  refine isolated_of_cells (leave_prm m s) (leave_rows m s) (fun s' _ => by rw [leave_rsIdx]) ?_ ?_
  · intro s' hs' i
    rw [h.leave_cells, MemCell.seqId_without, Finset.mem_erase]
    exact and_iff_right hs'
  · intro s' hs' i hi
    have hne : (m.cells i).seqId ≠ {s} := fun heq => by
      rw [heq] at hi
      exact hs' (Finset.mem_singleton.mp hi)
    rw [h.leave_cells, MemCell.without, if_neg hne]
    exact ⟨rfl, rfl⟩

/-- A fold that looks at one element only. -/
lemma foldl_only {t : ℕ} {p : ℕ → Prop} [DecidablePred p] (hp : ∀ i, p i ↔ i = t)
    (f : ℤ → ℕ → ℤ) : ∀ {l : List ℕ} (a : ℤ), l.Nodup →
      l.foldl (fun r i => if p i then f r i else r) a = if t ∈ l then f a t else a := by
  intro l
  induction l with
  | nil => exact fun _ _ => rfl
  | cons x xs ih =>
    intro a hnd
    rw [nodup_cons] at hnd
    rw [foldl_cons, ih _ hnd.2]
    by_cases hx : x = t
    · subst hx
      rw [if_neg hnd.1, if_pos ((hp x).mpr rfl), if_pos mem_cons_self]
    · have hxt : t ∈ x :: xs ↔ t ∈ xs := by
        rw [mem_cons]
        exact or_iff_right fun h => hx h.symm
      rw [if_neg fun h => hx ((hp x).mp h)]
      simp only [hxt]

/-- The position of a sequence is that of its cell. -/
lemma Inv.seqPosMax_eq (h : Inv m) (ht : m.tail s = some t) :
    m.seqPosMax s = max (-1) (m.cells t).pos := by
  have hp : ∀ i, s ∈ (m.cells i).seqId ↔ i = t := fun i =>
    ⟨h.eq_tail ht, fun hi => hi ▸ h.mem ht⟩
  unfold seqPosMax cellIds
  rw [foldl_only hp (fun r i => max r (m.cells i).pos) (-1) nodup_range,
    if_pos (mem_range.mpr (h.tail_lt ht))]

/-- A rollback of a sequence that shares its cell. -/
def RollsBackShared (m : MemoryRecurrent) (s p0 p1 : ℤ) : Prop :=
  m.RollsBack s p0 p1 ∧ ∃ s' ≠ s, ∃ t, m.tail s = some t ∧ m.tail s' = some t

/-- **The effect of `seq_rm` on the others.** -/
theorem RmEffect.isolated_iff {p0 p1 : ℤ} (he : RmEffect m s p0 p1 m') (h : Inv m) :
    Isolated s m m' ↔ ¬ m.RollsBackShared s p0 p1 := by
  cases he with
  | kept hnr =>
    refine iff_of_true ?_ fun hr => hnr hr.1
    exact isolated_of_cells rfl rfl (fun _ _ => rfl) (fun _ _ _ => Iff.rfl) fun _ _ _ _ => ⟨rfl, rfl⟩
  | reset hnr =>
    refine iff_of_true ?_ fun hr => hnr hr.1
    exact isolated_of_cells rfl rfl (fun _ hs' => update_of_ne hs' _ _)
      (fun _ _ _ => Iff.rfl) fun _ _ _ _ => ⟨rfl, rfl⟩
  | @rolledBack t hr ht hp0 =>
    constructor
    · rintro hiso ⟨-, s', hs', t', ht', hst'⟩
      rw [ht] at ht'
      cases ht'
      -- the sequence that shares the cell is set back
      have hinv' : Inv (m.rollBack s t p0) := h.setPos rfl (update_pos_seqId m _ _) rfl rfl
      have hmax := hiso.posMax s' hs'
      rw [h.seqPosMax_eq hst', hinv'.seqPosMax_eq hst'] at hmax
      change max (-1) (Function.update m.cells t _ t).pos = _ at hmax
      rw [update_self] at hmax
      obtain ⟨-, -, t', ht', hcut, -⟩ := hr
      rw [ht] at ht'
      cases ht'
      have hpos : 0 < p0 ∧ p0 ≤ (m.cells t).pos ∧ (m.cells t).pos < p1 := by
        simpa [cutsTail] using hcut
      dsimp only at hmax
      omega
    · intro hns
      refine isolated_of_cells rfl rfl (fun _ hs' => update_of_ne hs' _ _) ?_ ?_
      · intro s' _ i
        rw [rollBack, (update_pos_seqId m _ _ i).1]
      · intro s' hs' i hi
        have hit : i ≠ t := by
          rintro rfl
          exact hns ⟨hr, s', hs', i, ht, (h.tail_iff s' i).mpr hi⟩
        change (Function.update m.cells t _ i).pos = _ ∧ (Function.update m.cells t _ i).src = _
        rw [update_of_ne hit]
        exact ⟨rfl, rfl⟩
  | removed hnr ht hp0 hpos hhead =>
    refine iff_of_true ?_ fun hr => hnr hr.1
    have hreset : Isolated s m (m.resetOnAll s p0 p1) := by
      unfold resetOnAll
      split
      · exact isolated_of_cells rfl rfl (fun _ hs' => update_of_ne hs' _ _)
          (fun _ _ _ => Iff.rfl) fun _ _ _ _ => ⟨rfl, rfl⟩
      · exact isolated_of_cells rfl rfl (fun _ _ => rfl) (fun _ _ _ => Iff.rfl)
          fun _ _ _ _ => ⟨rfl, rfl⟩
    have hleave := (h.resetOnAll s p0 p1).isolated_leave s
    exact ⟨fun s' hs' => (hleave.posMin s' hs').trans (hreset.posMin s' hs'),
      fun s' hs' => (hleave.posMax s' hs').trans (hreset.posMax s' hs'),
      fun s' hs' i => (hleave.mem s' hs' i).trans (hreset.mem s' hs' i),
      fun s' hs' => (hleave.state s' hs').trans (hreset.state s' hs')⟩

/-- **When `seq_rm` leaves the others alone**: exactly when it does not roll back a sequence that
shares its cell. -/
theorem isolated_seqRm_iff (p : RsParams)
    (h : Run.Reachable step (fun _ op => op.Called) (new p) m) (s p0 p1 : ℤ) :
    Isolated s m (m.seqRm s p0 p1).2 ↔ ¬ m.RollsBackShared s (lowPos p0) (highPos p1) :=
  ((inv_of_reachable p h).seqRm_effect s p0 p1).isolated_iff (inv_of_reachable p h)

/-- Sequence 0 is at position 1 and shares its cell with sequence 1: all of it may be removed. -/
theorem isolated_seqRm_iff_shared : ∃ m, (new (.two 1)).step (.findSlot (ubatchAt 0 1)) = some m ∧
      Isolated 0 (m.seqCp 0 1) ((m.seqCp 0 1).seqRm 0 0 (-1)).2 := by
  have hslot : ((new (.two 1)).step (.findSlot (ubatchAt 0 1))).isSome = true := by decide +kernel
  obtain ⟨m, hm⟩ := Option.isSome_iff_exists.mp hslot
  have hfind : (Op.findSlot (ubatchAt 0 1)).Called := ⟨2, fromBatch_ubatchAt (by decide +kernel)⟩
  have hcp : (Op.seqCp 0 1).Called := trivial
  refine ⟨m, hm, (isolated_seqRm_iff (.two 1) (.step (.step .init hfind hm) hcp rfl) 0 0 (-1)).mpr ?_⟩
  -- nothing is rolled back when the range starts at 0
  rintro ⟨⟨-, -, t, -, hcut, -⟩, -⟩
  simp [cutsTail, lowPos] at hcut

/-- A rollback of sequence 0 sets sequence 1 back. -/
theorem not_isolated_rollback : (ubatchAt 0 1).FromBatch 2 ∧
      ∃ m, (new (.two 1)).step (.findSlot (ubatchAt 0 1)) = some m ∧
        (m.seqCp 0 1).seqPosMax 1 = 1 ∧ ((m.seqCp 0 1).seqRm 0 1 (-1)).2.seqPosMax 1 = 0 ∧
        ¬ Isolated 0 (m.seqCp 0 1) ((m.seqCp 0 1).seqRm 0 1 (-1)).2 := by
  refine ⟨fromBatch_ubatchAt (by decide +kernel), ?_⟩
  have hrun : ((new (.two 1)).step (.findSlot (ubatchAt 0 1))).map (fun m =>
      ((m.seqCp 0 1).seqPosMax 1, ((m.seqCp 0 1).seqRm 0 1 (-1)).2.seqPosMax 1)) = some (1, 0) := by
    decide +kernel
  obtain ⟨m, hm, hpos⟩ := Option.map_eq_some_iff.mp hrun
  obtain ⟨h1, h0⟩ := Prod.ext_iff.mp hpos
  dsimp only at h1 h0
  refine ⟨m, hm, h1, h0, fun hiso => ?_⟩
  have heq := hiso.posMax 1 (by decide)
  rw [h0, h1] at heq
  cases heq

end Llama.MemoryRecurrent
