import Llama.KvCache.StreamCopy

/-!
# Pending shifts

A cell that moves accumulates in `shift` what the K-shift graph has to rotate its key by.
The key was stored for the position the cell had when the shifts were last reset, its
`origin`; the rotation is right when the origin and the shift add up to the position.

`pos_add` adds the same amount to both.  `pos_div` adds the old position less the new one,
where it should be the new one less the old, so it keeps the origin only when the position
does not change (`origin_posDiv_iff`).
-/

namespace Llama

open List

/-- The position the cell had when its shift was last reset. -/
def Cell.origin (x : Cell) : ℤ := x.pos - x.shift

lemma Cell.origin_posAdd {x : Cell} {d : ℤ} (h : (x.posAdd d).pos ≠ -1) :
    (x.posAdd d).origin = x.origin := by
  unfold Cell.posAdd at h ⊢
  split at h
  · exact absurd rfl h
  · rename_i hneg
    rw [if_neg hneg]
    simp only [Cell.origin]
    omega

/-- **A division keeps the origin** only if it keeps the position. -/
theorem Cell.origin_posDiv_iff (x : Cell) (d : ℤ) :
    (x.posDiv d).origin = x.origin ↔ x.pos.tdiv d = x.pos := by
  simp only [Cell.origin, Cell.posDiv]
  omega

lemma Cell.posDiv_eq_self {x : Cell} {d : ℤ} (h : x.pos.tdiv d = x.pos) : x.posDiv d = x := by
  simp only [Cell.posDiv, h, sub_self, add_zero]

namespace KvCells

/-- An addition to an occupied cell, or a division that leaves its position as it is. -/
def KeepsOrigin (c : KvCells) : Op → Prop
  | .posAdd i _ => c.pos i ≠ -1
  | .posDiv i d => c.pos i ≠ -1 ∧ (c.pos i).tdiv d = c.pos i
  | _ => False

/-- The occupied cells have the given origins. -/
def HasOrigins (org : ℕ → ℤ) (c : KvCells) : Prop :=
  ∀ i, c.pos i ≠ -1 → (c.cell i).origin = org i

lemma hasOrigins_step {org : ℕ → ℤ} {c : KvCells} {op : Op} (h : HasOrigins org c)
    (hop : KeepsOrigin c op) : HasOrigins org (c.run op) := by
  have hstep : ∀ {f : Cell → Cell} {i : ℕ} {op : ℕ → Op}, Local op f → c.pos i ≠ -1 →
      ((f (c.cell i)).pos ≠ -1 → (f (c.cell i)).origin = (c.cell i).origin) →
      HasOrigins org (c.run (op i)) := by
    intro f i op hloc hocc hf j hj
    have hj : ((c.run (op i)).cell j).pos ≠ -1 := hj
    rw [hloc.cell_eq] at hj ⊢
    by_cases hji : j = i
    · rw [if_pos hji] at hj ⊢
      rw [hf hj, hji]
      exact h i hocc
    · rw [if_neg hji] at hj ⊢
      exact h j hj
  cases op with
  | posAdd i d => exact hstep (local_posAdd d) hop fun hne => Cell.origin_posAdd hne
  | posDiv i d =>
    exact hstep (local_posDiv d) hop.1 fun _ => (Cell.origin_posDiv_iff _ d).mpr hop.2
  | _ => exact hop.elim

lemma hasOrigins_resetShift (c : KvCells) : HasOrigins c.pos c.resetShift := fun i _ => by
  simp [Cell.origin, cell, resetShift]

end KvCells

namespace KvCache

/-- `set_input_k_shift`: what the key of each cell is rotated by. -/
def setInputKShift (kv : KvCache) : List ℤ :=
  (List.range kv.prm.nStream).flatMap fun s =>
    (List.range (kv.vCells s).size).map fun i =>
      if (kv.vCells s).isEmpty i then 0 else (kv.vCells s).shift i

/-- The part of `update` that forgets the shifts when they have been applied. -/
def resetShifts (kv : KvCache) : KvCache :=
  (List.range kv.prm.nStream).foldl (fun kv s => kv.call s .resetShift) kv

/-- The entry of a list of blocks of equal lengths. -/
lemma getD_flatMap_range {f : ℕ → List ℤ} {n : ℕ} (hlen : ∀ s, (f s).length = n) {N t i : ℕ}
    (ht : t < N) (hi : i < n) :
    ((range N).flatMap f).getD (t * n + i) 0 = (f t).getD i 0 := by
  have hlength : ∀ N, ((range N).flatMap f).length = N * n := fun N => by
    induction N with
    | zero => simp
    | succ N ih => rw [range_succ]; simp [hlen, Nat.succ_mul]
  induction N with
  | zero => omega
  | succ N ih =>
    rw [range_succ, flatMap_append, flatMap_singleton]
    by_cases hN : t = N
    · subst hN
      rw [getD_append_right _ _ _ _ (by rw [hlength]; omega), hlength, Nat.add_sub_cancel_left]
    · have hlt : t < N := by omega
      have hidx : t * n + i < N * n :=
        calc t * n + i < (t + 1) * n := by rw [Nat.succ_mul]; omega
          _ ≤ N * n := Nat.mul_le_mul_right n hlt
      rw [getD_append _ _ _ _ (by rw [hlength]; exact hidx)]
      exact ih hlt

variable {kv : KvCache} {org : ℕ → ℕ → ℤ}

lemma getD_setInputKShift {n : ℕ} (hsize : ∀ t, (kv.vCells t).size = n) {t i : ℕ}
    (ht : t < kv.prm.nStream) (hi : i < n) (hocc : (kv.vCells t).pos i ≠ -1) :
    kv.setInputKShift.getD (t * n + i) 0 = (kv.vCells t).shift i := by
  rw [setInputKShift, getD_flatMap_range (fun s => by simp [hsize]) ht hi]
  simp [hsize, hi, KvCells.isEmpty, hocc]

lemma foldl_resetShift (kv : KvCache) (n : ℕ) :
    let kv' := (range n).foldl (fun kv s => kv.call s .resetShift) kv
    kv'.prm = kv.prm ∧
      ∀ t, kv'.vCells t = if t < n then (kv.vCells t).resetShift else kv.vCells t := by
  induction n with
  | zero => simp
  | succ n ih =>
    obtain ⟨h1, h2⟩ := ih
    simp only [range_succ, foldl_append, foldl_cons, foldl_nil]
    refine ⟨h1, fun t => ?_⟩
    by_cases ht : t = n
    · subst ht
      have h := h2 t
      rw [if_neg (Nat.lt_irrefl t)] at h
      rw [call_vCells_self, h, if_pos (Nat.lt_succ_self t)]
      rfl
    · have hlt : t < n + 1 ↔ t < n := by omega
      rw [call_vCells_of_ne _ _ ht, h2, if_congr hlt rfl rfl]

/-! ## Runs -/

/-- A call of a run, and what becomes of the positions the keys were stored for: a copy
between streams brings the rows, and with them their positions. -/
def runShift (st : KvCache × (ℕ → ℕ → ℤ)) (op : Op) : KvCache × (ℕ → ℕ → ℤ) :=
  (st.1.run op,
    match op with
    | .seqCp src dst _ _ =>
      if st.1.prm.seqToStream src = st.1.prm.seqToStream dst then st.2
      else Function.update st.2 (st.1.prm.seqToStream dst) (st.2 (st.1.prm.seqToStream src))
    | _ => st.2)

/-- An addition, a copy, or a division that leaves every position it selects as it is. -/
def KeepsOrigins (st : KvCache × (ℕ → ℕ → ℤ)) (op : Op) : Prop :=
  op.Asserts st.1 ∧
    match op with
    | .seqAdd _ _ _ _ => True
    | .seqCp _ _ _ _ => True
    | .seqDiv s p0 p1 d => ∀ i < (st.1.cellsOf s).size,
        inRange s (lowBound p0) (highBound p1) ((st.1.cellsOf s).cell i) →
          ((st.1.cellsOf s).pos i).tdiv d = (st.1.cellsOf s).pos i
    | _ => False

/-- The streams have equally many cells, no sequence is at a negative position, and the keys
were stored for the given positions. -/
structure Tracks (st : KvCache × (ℕ → ℕ → ℤ)) : Prop where
  size : ∀ t, (st.1.vCells t).size = st.1.prm.kvSize
  named : ∀ t, ∀ i < st.1.prm.kvSize, ∀ s ∈ (st.1.vCells t).seq i, 0 ≤ (st.1.vCells t).pos i
  origin : ∀ t < st.1.prm.nStream, ∀ i < st.1.prm.kvSize, (st.1.vCells t).pos i ≠ -1 →
    ((st.1.vCells t).cell i).origin = st.2 t i

/-- A change of the cells of one stream that keeps their origins. -/
lemma Tracks.cellsBy {kv' : KvCache} {strm : ℕ} {g : ℕ → Cell → Cell} (h : Tracks (kv, org))
    (hby : CellsBy strm g kv kv')
    (hnamed : ∀ j < kv.prm.kvSize, ∀ s ∈ (g j ((kv.vCells strm).cell j)).seq,
      0 ≤ (g j ((kv.vCells strm).cell j)).pos)
    (horg : ∀ j < kv.prm.kvSize, (g j ((kv.vCells strm).cell j)).pos ≠ -1 →
      (kv.vCells strm).pos j ≠ -1 ∧
        (g j ((kv.vCells strm).cell j)).origin = ((kv.vCells strm).cell j).origin) :
    Tracks (kv', org) := by
  have hcells : ∀ t, t ≠ strm → kv'.vCells t = kv.vCells t := hby.cells
  refine ⟨fun t => ?_, fun t i hi s hs => ?_, fun t ht i hi hocc => ?_⟩
  · have hsize := h.size t
    simp only [hby.prm] at hsize ⊢
    by_cases htt : t = strm
    · subst htt
      rw [hby.size_eq, hsize]
    · rw [hcells t htt, hsize]
  · simp only [hby.prm] at hi hs ⊢
    by_cases htt : t = strm
    · subst htt
      have hs : s ∈ ((kv'.vCells t).cell i).seq := hs
      change 0 ≤ ((kv'.vCells t).cell i).pos
      rw [hby.cell_eq] at hs ⊢
      exact hnamed i hi s hs
    · rw [hcells t htt] at hs ⊢
      exact h.named t i hi s hs
  · simp only [hby.prm] at ht hi hocc ⊢
    by_cases htt : t = strm
    · subst htt
      have hocc : ((kv'.vCells t).cell i).pos ≠ -1 := hocc
      rw [hby.cell_eq] at hocc ⊢
      obtain ⟨hocc', heq⟩ := horg i hi hocc
      rw [heq]
      exact h.origin t ht i hi hocc'
    · rw [hcells t htt] at hocc ⊢
      exact h.origin t ht i hi hocc

lemma seqAdd_cell (kv : KvCache) (s p0 p1 d : ℤ) : CellsBy (kv.prm.seqToStream s)
      (fun j x => if j < (kv.cellsOf s).size ∧ d ≠ 0 ∧ inRange s (lowBound p0) (highBound p1) x then
        x.posAdd d else x) kv (kv.seqAdd s p0 p1 d) := by
  have h := forCells_cell kv (kv.prm.seqToStream s)
    (fun c i => c.posIn i (lowBound p0) (highBound p1) ∧ c.seqHas i s)
    (fun c i => c.posAddEmpties i d) (inRange s (lowBound p0) (highBound p1))
    (KvCells.local_posAdd d) (sel_iff s _ _)
  simp only [seqAdd]
  by_cases hd : d = 0
  · rw [if_pos hd]
    exact (CellsBy.refl' _ kv).congr fun j => by simp [hd]
  · rw [if_neg hd]
    by_cases hp : lowBound p0 = highBound p1
    · rw [if_pos hp]
      refine (CellsBy.refl' _ kv).congr fun j => ?_
      exact (if_neg fun h => not_inRange_of_eq hp _ h.2.2).symm
    · rw [if_neg hp]
      refine (h.setHead _).congr fun j => ?_
      simp only [hd, ne_eq, not_false_eq_true, true_and]
      rfl

lemma seqDiv_cell (kv : KvCache) (s p0 p1 d : ℤ) : CellsBy (kv.prm.seqToStream s)
      (fun j x => if j < (kv.cellsOf s).size ∧ inRange s (lowBound p0) (highBound p1) x then
        x.posDiv d else x) kv (kv.seqDiv s p0 p1 d) := by
  have h := forCells_cell kv (kv.prm.seqToStream s)
    (fun c i => c.posIn i (lowBound p0) (highBound p1) ∧ c.seqHas i s)
    (fun _ _ => false) (inRange s (lowBound p0) (highBound p1))
    (KvCells.local_posDiv d) (sel_iff s _ _)
  simp only [seqDiv]
  by_cases hd : d = 1
  · rw [if_pos hd]
    refine (CellsBy.refl' _ kv).congr fun j => ?_
    rw [hd, Cell.posDiv_eq_self (Int.tdiv_one _), ite_self]
  · rw [if_neg hd]
    by_cases hp : lowBound p0 = highBound p1
    · rw [if_pos hp]
      refine (CellsBy.refl' _ kv).congr fun j => ?_
      exact (if_neg fun h => not_inRange_of_eq hp _ h.2).symm
    · rw [if_neg hp]
      exact h

lemma tracks_seqAdd (h : Tracks (kv, org)) (s p0 p1 d : ℤ) : Tracks (kv.seqAdd s p0 p1 d, org) := by
  refine h.cellsBy (seqAdd_cell kv s p0 p1 d) (fun j hj u hu => ?_) fun j hj hocc => ?_
  · split at hu
    · rename_i hc
      rw [if_pos hc]
      unfold Cell.posAdd at hu ⊢
      split at hu
      · simp at hu
      · rename_i hneg
        rw [if_neg hneg]
        exact not_lt.mp hneg
    · rename_i hc
      rw [if_neg hc]
      exact h.named _ j hj u hu
  · split at hocc
    · rename_i hc
      rw [if_pos hc]
      have hlow : lowBound p0 ≤ (kv.vCells (kv.prm.seqToStream s)).pos j := hc.2.2.1.1
      have hnonneg := lowBound_nonneg p0
      exact ⟨by omega, Cell.origin_posAdd hocc⟩
    · rename_i hc
      rw [if_neg hc]
      exact ⟨hocc, rfl⟩

lemma tracks_seqDiv (h : Tracks (kv, org)) {s p0 p1 d : ℤ} (hkeep : ∀ i < (kv.cellsOf s).size,
      inRange s (lowBound p0) (highBound p1) ((kv.cellsOf s).cell i) →
        ((kv.cellsOf s).pos i).tdiv d = (kv.cellsOf s).pos i) :
    Tracks (kv.seqDiv s p0 p1 d, org) := by
  have hby : CellsBy (kv.prm.seqToStream s) (fun _ x => x) kv (kv.seqDiv s p0 p1 d) := by
    refine (seqDiv_cell kv s p0 p1 d).congr fun j => ?_
    split
    · rename_i hc
      exact Cell.posDiv_eq_self (hkeep j hc.1 hc.2)
    · rfl
  exact h.cellsBy hby (fun j hj u hu => h.named _ j hj u hu) fun j _ hocc => ⟨hocc, rfl⟩

/-- A copy within a stream moves no cell. -/
lemma tracks_seqCp_within (h : Tracks (kv, org)) {src dst : ℤ} (p0 p1 : ℤ)
    (hsame : kv.prm.seqToStream src = kv.prm.seqToStream dst) :
    Tracks (kv.seqCp src dst p0 p1, org) := by
  by_cases hne : src = dst
  · have hval : kv.seqCp src dst p0 p1 = kv := by simp [seqCp, hne]
    rw [hval]
    exact h
  · refine h.cellsBy (seqCp_within p0 p1 hsame hne) (fun j hj u hu => ?_) fun j hj hocc => ?_
    · split at hu
      · rename_i hc
        rw [if_pos hc]
        exact h.named _ j hj src hc.2.2
      · rename_i hc
        rw [if_neg hc]
        exact h.named _ j hj u hu
    · split at hocc
      · rename_i hc
        rw [if_pos hc]
        exact ⟨hocc, rfl⟩
      · rename_i hc
        rw [if_neg hc]
        exact ⟨hocc, rfl⟩

/-- **A copy between streams** takes the shifts along with the rows. -/
theorem tracks_seqCp_across (h : Tracks (kv, org)) {src dst : ℤ} (p0 p1 : ℤ)
    (hsrc : kv.prm.SeqOk src) (hne : kv.prm.seqToStream src ≠ kv.prm.seqToStream dst) :
    Tracks (kv.seqCp src dst p0 p1,
      Function.update org (kv.prm.seqToStream dst) (org (kv.prm.seqToStream src))) := by
  have hsizes : ∀ s, (kv.cellsOf s).size = kv.prm.kvSize := fun s => h.size _
  obtain ⟨hsame, -, hframe, hsz, hcell⟩ := @seqCp_across_cell kv src dst p0 p1 hne
    (fun i hi hs => h.named _ i (hsizes src ▸ hi) src hs)
  set kv' := kv.seqCp src dst p0 p1
  set s1 := kv.prm.seqToStream dst
  refine ⟨fun t => ?_, fun t i hi s hs => ?_, fun t ht i hi hocc => ?_⟩
  · simp only [hsame.prm]
    by_cases htt : t = s1
    · rw [htt, hsz]
      exact hsizes dst
    · rw [hframe t htt]
      exact h.size t
  · simp only [hsame.prm] at hi hs ⊢
    by_cases htt : t = s1
    · subst htt
      have hs : s ∈ ((kv'.vCells s1).cell i).seq := hs
      change 0 ≤ ((kv'.vCells s1).cell i).pos
      rw [hcell] at hs ⊢
      split at hs
      · rename_i hc
        rw [if_pos hc]
        exact h.named _ i hi src hc.2
      · simp [Cell.empty] at hs
    · rw [hframe t htt] at hs ⊢
      exact h.named t i hi s hs
  · simp only [hsame.prm] at ht hi hocc ⊢
    by_cases htt : t = s1
    · subst htt
      have hocc : ((kv'.vCells s1).cell i).pos ≠ -1 := hocc
      rw [Function.update_self]
      rw [hcell] at hocc ⊢
      split at hocc
      · rename_i hc
        rw [if_pos hc]
        exact h.origin _ hsrc.stream_lt i hi hocc
      · exact absurd rfl hocc
    · rw [hframe t htt] at hocc ⊢
      rw [Function.update_of_ne htt]
      exact h.origin t ht i hi hocc

lemma tracks_runShift {st : KvCache × (ℕ → ℕ → ℤ)} {op : Op} (h : Tracks st)
    (hop : KeepsOrigins st op) : Tracks (runShift st op) := by
  obtain ⟨hassert, hkeep⟩ := hop
  cases op with
  | seqAdd s p0 p1 d => exact tracks_seqAdd h s p0 p1 d
  | seqDiv s p0 p1 d => exact tracks_seqDiv h hkeep
  | seqCp src dst p0 p1 =>
    simp only [runShift]
    split
    · rename_i hsame
      exact tracks_seqCp_within h p0 p1 hsame
    · rename_i hne
      exact tracks_seqCp_across h p0 p1 hassert.1 hne
  | clear => exact hkeep.elim
  | seqRm => exact hkeep.elim
  | seqKeep => exact hkeep.elim
  | place => exact hkeep.elim

/-- When the shifts have been reset, the keys are those of the positions. -/
lemma tracks_resetShifts (hwf : kv.CellsWF) (hsize : ∀ t, (kv.vCells t).size = kv.prm.kvSize) :
    Tracks (kv.resetShifts, fun t i => (kv.vCells t).pos i) := by
  obtain ⟨hprm, hcells⟩ := foldl_resetShift kv kv.prm.nStream
  have hpos : ∀ t i, (kv.resetShifts.vCells t).pos i = (kv.vCells t).pos i := fun t i => by
    rw [resetShifts, hcells]
    split <;> rfl
  have hseq : ∀ t i, (kv.resetShifts.vCells t).seq i = (kv.vCells t).seq i := fun t i => by
    rw [resetShifts, hcells]
    split <;> rfl
  have hprm : kv.resetShifts.prm = kv.prm := hprm
  refine ⟨fun t => ?_, fun t i hi s hs => ?_, fun t ht i _ _ => ?_⟩
  · simp only [hprm]
    rw [resetShifts, hcells, ← hsize t]
    split <;> rfl
  · simp only [hprm] at hi
    rw [hseq] at hs
    rw [hpos]
    exact (hwf t).pos_nonneg (by rw [hsize]; exact hi) hs
  · simp only [hprm] at ht
    have hzero : (kv.resetShifts.vCells t).shift i = 0 := by
      rw [resetShifts, hcells, if_pos ht]
      rfl
    change (kv.resetShifts.vCells t).pos i - (kv.resetShifts.vCells t).shift i = _
    rw [hzero, hpos, sub_zero]

/-- **Along every run of additions, of divisions that leave the positions as they are and of
copies**, the position less the shift is the one a cell had when the shifts were last
reset, so the K-shift graph rotates each key by what it has moved. -/
theorem origin_run (c : KvCells) (cops : List KvCells.Op)
    (hcops : Run.Guarded KvCells.run KvCells.KeepsOrigin c.resetShift cops) (kv : KvCache)
    (hwf : kv.CellsWF) (hsize : ∀ t, (kv.vCells t).size = kv.prm.kvSize) (ops : List Op)
    (hops : Run.Guarded runShift KeepsOrigins
      (kv.resetShifts, fun t i => (kv.vCells t).pos i) ops) :
    (∀ i, (Run.exec KvCells.run c.resetShift cops).pos i ≠ -1 →
      (Run.exec KvCells.run c.resetShift cops).pos i -
        (Run.exec KvCells.run c.resetShift cops).shift i = c.pos i) ∧
    let st := Run.exec runShift (kv.resetShifts, fun t i => (kv.vCells t).pos i) ops
    ∀ t < st.1.prm.nStream, ∀ i < st.1.prm.kvSize, (st.1.vCells t).pos i ≠ -1 →
      (st.1.vCells t).pos i - (st.1.vCells t).shift i = st.2 t i ∧
        st.2 t i + st.1.setInputKShift.getD (t * st.1.prm.kvSize + i) 0 =
          (st.1.vCells t).pos i := by
  have hcells : KvCells.HasOrigins c.pos (Run.exec KvCells.run c.resetShift cops) :=
    Run.invariant (I := KvCells.HasOrigins c.pos) (fun _ _ h hop => KvCells.hasOrigins_step h hop)
      (KvCells.hasOrigins_resetShift c) cops hcops
  have htracks := Run.invariant (I := Tracks) (fun _ _ h hop => tracks_runShift h hop)
    (tracks_resetShifts hwf hsize) ops hops
  refine ⟨fun i hi => hcells i hi, ?_⟩
  intro st t ht i hi hocc
  have horg : (st.1.vCells t).pos i - (st.1.vCells t).shift i = st.2 t i :=
    htracks.origin t ht i hi hocc
  have hshift : st.1.setInputKShift.getD (t * st.1.prm.kvSize + i) 0 = (st.1.vCells t).shift i :=
    getD_setInputKShift htracks.size ht hi hocc
  exact ⟨horg, by rw [hshift]; omega⟩

lemma asserts_shift {s : ℤ} (hs : kv.prm.SeqOk s) (hn : kv.prm.nPosPerEmbd = 1) (p0 p1 d : ℤ) :
    (Op.seqAdd s p0 p1 d).Asserts kv ∧ (Op.seqDiv s p0 p1 d).Asserts kv :=
  ⟨⟨hs, hn⟩, hs, hn⟩

/-- Moving a sequence and dividing its positions by one. -/
lemma guarded_moves (org : ℕ → ℕ → ℤ) (hprm : kv.prm = twoStreams) :
    Run.Guarded runShift KeepsOrigins (kv, org)
      [.seqAdd 0 (-1) (-1) 4, .seqDiv 0 (-1) (-1) 1] := by
  have hprm' : (kv.seqAdd 0 (-1) (-1) 4).prm = twoStreams := (seqAdd_cell kv _ _ _ _).prm.trans hprm
  refine ⟨⟨(asserts_shift ?_ ?_ _ _ _).1, trivial⟩, ⟨(asserts_shift ?_ ?_ _ _ _).2, ?_⟩, trivial⟩
  · exact hprm ▸ by decide
  · exact hprm ▸ rfl
  · exact hprm' ▸ by decide
  · exact hprm' ▸ rfl
  · exact fun i _ _ => Int.tdiv_one _

theorem origin_run_zeroSeqCache :
    let st := Run.exec runShift
      (zeroSeqCache.resetShifts, fun t i => (zeroSeqCache.vCells t).pos i)
      [.seqAdd 0 (-1) (-1) 4, .seqDiv 0 (-1) (-1) 1]
    ∀ t < st.1.prm.nStream, ∀ i < st.1.prm.kvSize, (st.1.vCells t).pos i ≠ -1 →
      (st.1.vCells t).pos i - (st.1.vCells t).shift i = st.2 t i ∧
        st.2 t i + st.1.setInputKShift.getD (t * st.1.prm.kvSize + i) 0 =
          (st.1.vCells t).pos i := by
  have hinv := inv_zeroSeqCache
  have hsize : ∀ t, (zeroSeqCache.vCells t).size = zeroSeqCache.prm.kvSize := fun t =>
    (hinv.size t).trans (by rw [hinv.prm])
  have hprm : zeroSeqCache.resetShifts.prm = twoStreams :=
    (foldl_resetShift zeroSeqCache _).1.trans hinv.prm
  exact (origin_run (.resize 1) [] trivial zeroSeqCache hinv.cellsWF hsize
    [.seqAdd 0 (-1) (-1) 4, .seqDiv 0 (-1) (-1) 1] (guarded_moves _ hprm)).2

/-- A cache with one token, which has been moved to position 4. -/
def fourCache : KvCache := (zeroSeqCache.seqAdd 0 (-1) (-1) 4).resetShifts

/-- Dividing position 4 by 2 leaves position 2, and a shift that rotates the key to 6. -/
theorem not_origin_seqDiv :
    (Op.seqDiv 0 (-1) (-1) 2).Asserts fourCache ∧ (fourCache.cellsOf 0).pos 0 = 4 ∧
      ((fourCache.seqDiv 0 (-1) (-1) 2).cellsOf 0).pos 0 = 2 ∧
      (fourCache.seqDiv 0 (-1) (-1) 2).setInputKShift.getD 0 0 = 2 ∧
      ¬ ((fourCache.seqDiv 0 (-1) (-1) 2).cellsOf 0).pos 0 -
          ((fourCache.seqDiv 0 (-1) (-1) 2).cellsOf 0).shift 0 = (fourCache.cellsOf 0).pos 0 :=
  ⟨(asserts_shift (by decide +kernel) (by decide +kernel) _ _ _).2, by decide +kernel,
    by decide +kernel, by decide +kernel, by decide +kernel⟩

end KvCache
end Llama
