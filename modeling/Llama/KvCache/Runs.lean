import Llama.KvCache.Clear
import Llama.KvCache.Place
import Llama.KvCache.Search
import Llama.Batch.Partition

/-!
# Runs of the cache

`KvCache.Op` is a call of one of the public methods, `Op.Asserts` what the method asserts.
The assertions alone do not keep the position maps exact: a cell may be given a sequence it
already holds, and `Op.Good` says when this and the other broken preconditions do not
happen.  Along every run of asserted good calls from the empty cache, all calls into the
cells meet their preconditions (`run_counts`).
-/

namespace Llama

open BatchAllocr

/-- The number of sequences a batch is checked against. -/
def KvParams.batchSeqMax (p : KvParams) : ℕ := if p.unified then maxSeq else p.nSeqMax

/-- The ubatch was cut from a batch that `init` accepts for this cache. -/
def KvParams.Accepts (p : KvParams) (ub : UBatch) : Prop :=
  ∃ inp nVocab memory nEmbd outputAll a,
    BatchAllocr.init p.nPosPerEmbd inp nVocab memory nEmbd p.batchSeqMax outputAll = some a ∧
      a.Cut ub

lemma KvParams.batchSeqMax_le (p : KvParams) : 0 < p.batchSeqMax ∧ p.batchSeqMax ≤ maxSeq := by
  have h1 := p.nSeqMax_pos
  have h2 := p.nSeqMax_le
  unfold batchSeqMax
  split
  · exact ⟨by decide, le_rfl⟩
  · exact ⟨h1, h2⟩

lemma KvParams.Accepts.wellFormed {p : KvParams} {ub : UBatch} (h : p.Accepts ub) :
    ub.WellFormed p.batchSeqMax := by
  obtain ⟨inp, nVocab, memory, nEmbd, outputAll, a, hinit, hcut⟩ := h
  have hmax : a.nSeqMax = p.batchSeqMax := by
    rw [init_eq hinit]
    rfl
  exact hmax ▸ hcut.wellFormed (validIds_of_init hinit p.batchSeqMax_le.1)

namespace KvCache

/-- A call of a public method, or the placement of a ubatch in the slot found for it. -/
inductive Op
  | clear (data : Bool)
  | seqRm (s p0 p1 : ℤ)
  | seqCp (src dst p0 p1 : ℤ)
  | seqKeep (s : ℤ)
  | seqAdd (s p0 p1 shift : ℤ)
  | seqDiv (s p0 p1 d : ℤ)
  | place (ub : UBatch)

/-- Find a slot and fill it; nothing happens when there is none. -/
def place (kv : KvCache) (ub : UBatch) : KvCache :=
  match kv.findSlot ub false with
  | none => kv
  | some si => kv.applyUbatch si ub

/-- The effect of a call. -/
def run (kv : KvCache) : Op → KvCache
  | .clear data => kv.clear data
  | .seqRm s p0 p1 => kv.seqRm s p0 p1
  | .seqCp src dst p0 p1 => kv.seqCp src dst p0 p1
  | .seqKeep s => kv.seqKeep s
  | .seqAdd s p0 p1 shift => kv.seqAdd s p0 p1 shift
  | .seqDiv s p0 p1 d => kv.seqDiv s p0 p1 d
  | .place ub => kv.place ub

/-- The assertions of the methods; a ubatch comes from an accepted batch. -/
def Op.Asserts (kv : KvCache) : Op → Prop
  | .clear _ => True
  | .seqRm s _ _ => s = -1 ∨ kv.prm.SeqOk s
  | .seqCp src dst p0 p1 => kv.prm.SeqOk src ∧ kv.prm.SeqOk dst ∧
      (kv.prm.seqToStream src ≠ kv.prm.seqToStream dst →
        ¬ (0 < p0 ∧ p0 + 1 < kv.getSize) ∧ ¬ (0 < p1 ∧ p1 + 1 < kv.getSize))
  | .seqKeep s => kv.prm.SeqOk s
  | .seqAdd s _ _ _ => kv.prm.SeqOk s ∧ kv.prm.nPosPerEmbd = 1
  | .seqDiv s _ _ _ => kv.prm.SeqOk s ∧ kv.prm.nPosPerEmbd = 1
  | .place ub => kv.prm.Accepts ub ∧ kv.FindSlotAsserts ub

/-- What the methods need beyond their assertions.  Within a stream a copy may not reach a
cell that holds the destination already; between streams the positions without the pending
shift may not be negative; `seq_keep` needs every occupied cell to name a sequence; no
position may reach the largest one, which `seq_rm` never selects; a divisor is positive; and
the tokens of a ubatch have proper positions and list no sequence twice. -/
def Op.Good (kv : KvCache) : Op → Prop
  | .seqCp src dst p0 p1 =>
    if kv.prm.seqToStream src = kv.prm.seqToStream dst then
      src ≠ dst → ∀ i < (kv.cellsOf src).size,
        inRange src (lowBound p0) (highBound p1) ((kv.cellsOf src).cell i) →
          dst ∉ (kv.cellsOf src).seq i
    else ∀ i < (kv.cellsOf src).size, src ∈ (kv.cellsOf src).seq i →
      (kv.cellsOf src).shift i ≤ (kv.cellsOf src).pos i
  | .seqKeep s => ∀ i < (kv.cellsOf s).size, (kv.cellsOf s).seq i = ∅ → (kv.cellsOf s).pos i = -1
  | .seqAdd s p0 p1 d => ∀ i < (kv.cellsOf s).size,
      inRange s (lowBound p0) (highBound p1) ((kv.cellsOf s).cell i) →
        (kv.cellsOf s).pos i + d < posLimit
  | .seqDiv s p0 p1 d => ∀ i < (kv.cellsOf s).size,
      inRange s (lowBound p0) (highBound p1) ((kv.cellsOf s).cell i) → 1 ≤ d
  | .place ub => ∀ i < ub.nTokens, 0 ≤ ub.pos i ∧ ub.pos i < posLimit ∧ (ub.seqs i).Nodup
  | _ => True

/-- The maps are exact, the heads are in range, all calls met their preconditions, and the
positions of the sequences are below the largest one. -/
structure Inv (p : KvParams) (kv : KvCache) : Prop where
  prm : kv.prm = p
  ri : ∀ t, (kv.vCells t).RI
  size : ∀ t, (kv.vCells t).size = p.kvSize
  head : ∀ t, kv.vHeads t ≤ (kv.vCells t).size
  calls : kv.CallsOk
  pos_lt : ∀ t, ∀ i < (kv.vCells t).size, ∀ s ∈ (kv.vCells t).seq i, (kv.vCells t).pos i < posLimit

variable {kv : KvCache} {p : KvParams} {s : ℤ}

lemma Inv.cellsWF (h : Inv p kv) : kv.CellsWF :=
  fun t => (h.ri t).toWF

lemma inv_new (p : KvParams) : Inv p (new p) where
  prm := rfl
  ri := fun _ => KvCells.ri_resize _
  size := fun _ => rfl
  head := fun _ => Nat.zero_le _
  calls := by intro e he; simp [new] at he
  pos_lt := by intro t i _ s hs; simp [new, KvCells.resize] at hs

/-- A sweep without excess keeps the invariant if it makes no position too large. -/
lemma Inv.sweptAll {kv' : KvCache} {g : ℕ → ℕ → Cell → Cell} {e : ℕ → ℤ → ℤ → ℕ} (h : Inv p kv)
    (hs : SweptAll g e kv kv') (he : ∀ t, e t = 0)
    (hpos : ∀ t, ∀ j < (kv.vCells t).size, ∀ s ∈ (g t j ((kv.vCells t).cell j)).seq,
      (g t j ((kv.vCells t).cell j)).pos < posLimit) : Inv p kv' where
  prm := hs.prm.trans h.prm
  ri := fun t => (he t ▸ hs.sweep t).ri (h.ri t)
  size := fun t => (hs.sweep t).size_eq.trans (h.size t)
  head := fun t => by
    have h1 := hs.head_le t
    have h2 := h.head t
    rw [(hs.sweep t).size_eq]
    omega
  calls := hs.calls he h.calls
  pos_lt := fun t i hi s hmem => by
    have hcell := (hs.sweep t).cell_eq i
    have hlt := hpos t i ((hs.sweep t).size_eq ▸ hi) s (hcell ▸ hmem)
    rw [← hcell] at hlt
    exact hlt

/-- A sweep of one stream, which changes some cells. -/
lemma Inv.swept {kv' : KvCache} {strm : ℕ} {q : ℕ → Cell → Prop} [∀ j x, Decidable (q j x)]
    {f : Cell → Cell} (h : Inv p kv)
    (hs : Swept strm (fun j x => if q j x then f x else x) 0 kv kv')
    (hpos : ∀ j, q j ((kv.vCells strm).cell j) → ∀ s ∈ (f ((kv.vCells strm).cell j)).seq,
      (f ((kv.vCells strm).cell j)).pos < posLimit) : Inv p kv' := by
  refine h.sweptAll (hs.all h.cellsWF) (fun t => by split <;> rfl) fun t j hj s hmem => ?_
  by_cases ht : t = strm
  · subst ht
    by_cases hq : q j ((kv.vCells t).cell j)
    · simp only [if_true, if_pos hq] at hmem ⊢
      exact hpos j hq s hmem
    · simp only [if_true, if_neg hq] at hmem ⊢
      exact h.pos_lt t j hj s hmem
  · simp only [if_neg ht] at hmem ⊢
    exact h.pos_lt t j hj s hmem

/-! ## The steps -/

/-- Taking a sequence away moves no cell that stays. -/
lemma seqRm_pos {x : Cell} {u : ℤ} (h : u ∈ (x.seqRm s).seq) :
    u ∈ x.seq ∧ (x.seqRm s).pos = x.pos := by
  by_cases he : x.seq.erase s = ∅
  · simp [Cell.seqRm, he, Cell.empty] at h
  · simp only [Cell.seqRm, if_neg he, Finset.mem_erase] at h ⊢
    exact ⟨h.2, trivial⟩

lemma seqKeep_pos {x : Cell} {u : ℤ} (h : u ∈ (x.seqKeep s).seq) :
    u ∈ x.seq ∧ (x.seqKeep s).pos = x.pos := by
  by_cases hs : s ∈ x.seq
  · simp only [Cell.seqKeep, if_pos hs, Finset.mem_singleton] at h ⊢
    exact ⟨h ▸ hs, trivial⟩
  · by_cases hne : x.seq.Nonempty
    · simp [Cell.seqKeep, hs, hne, Cell.empty] at h
    · simp only [Cell.seqKeep, if_neg hs, if_neg hne] at h ⊢
      exact ⟨h, trivial⟩

lemma inv_seqRm (h : Inv p kv) (s p0 p1 : ℤ) : Inv p (kv.seqRm s p0 p1) := by
  by_cases hs : 0 ≤ s
  · refine h.swept (seqRm_spec p0 p1 (h.cellsWF _) hs) fun j hc u hu => ?_
    rw [(seqRm_pos hu).2]
    exact h.pos_lt _ j hc.1 u (seqRm_pos hu).1
  · refine h.sweptAll (seqRmAny_spec p0 p1 h.cellsWF (by omega)) (fun _ => rfl) fun t j hj u hu => ?_
    split at hu
    · rename_i ht
      rw [if_pos ht]
      split at hu
      · simp [Cell.empty] at hu
      · rename_i hc
        rw [if_neg hc]
        exact h.pos_lt t j hj u hu
    · rename_i ht
      rw [if_neg ht]
      exact h.pos_lt t j hj u hu

lemma inv_clear (h : Inv p kv) (data : Bool) : Inv p (kv.clear data) := by
  have hcells := clear_vCells kv data
  have hsize : ∀ t, ((kv.clear data).vCells t).size = (kv.vCells t).size := fun t => by
    rw [hcells]
    split <;> rfl
  refine ⟨(clear_prm kv data).trans h.prm, fun t => ?_, fun t => (hsize t).trans (h.size t),
    fun t => ?_, clear_callsOk data h.calls, fun t i hi s hs => ?_⟩
  · rw [hcells]
    split
    · exact KvCells.ri_reset _
    · exact h.ri t
  · rw [clear_vHeads, hsize]
    split
    · exact Nat.zero_le _
    · exact h.head t
  · rw [hsize] at hi
    rw [hcells] at hs ⊢
    split at hs
    · simp [KvCells.reset] at hs
    · rename_i ht
      rw [if_neg ht]
      exact h.pos_lt t i hi s hs

lemma inv_seqKeep (h : Inv p kv) (hs : kv.prm.SeqOk s) (hgood : (Op.seqKeep s).Good kv) :
    Inv p (kv.seqKeep s) := by
  refine h.swept (seqKeep_spec (h.cellsWF _) hs.lt_maxSeq hgood) fun j hj u hu => ?_
  rw [(seqKeep_pos hu).2]
  exact h.pos_lt _ j hj u (seqKeep_pos hu).1

lemma inv_seqCp (h : Inv p kv) {src dst p0 p1 : ℤ} (hdst : kv.prm.SeqOk dst)
    (hgood : (Op.seqCp src dst p0 p1).Good kv) : Inv p (kv.seqCp src dst p0 p1) := by
  by_cases hsame : kv.prm.seqToStream src = kv.prm.seqToStream dst
  · by_cases hne : src = dst
    · have hval : kv.seqCp src dst p0 p1 = kv := by simp [seqCp, hne]
      rw [hval]
      exact h
    · simp only [Op.Good, if_pos hsame] at hgood
      exact h.swept (seqCp_spec p0 p1 (h.cellsWF _) hsame hne hdst.lt_maxSeq (hgood hne))
        fun j hc u _ => h.pos_lt _ j hc.1 src hc.2.2
  · simp only [Op.Good, if_neg hsame] at hgood
    have hsize : (kv.cellsOf dst).size = (kv.cellsOf src).size := (h.size _).trans (h.size _).symm
    obtain ⟨h1, -, h3, h4, h5, -, -, h6, h7, h8, h9⟩ :=
      seqCp_across p0 p1 (h.cellsWF _) hsame hsize hdst.lt_maxSeq hgood
    set s1 := kv.prm.seqToStream dst
    have hsize' : ∀ t, ((kv.seqCp src dst p0 p1).vCells t).size = p.kvSize := fun t => by
      by_cases ht : t = s1
      · rw [ht, h7]
        exact h.size _
      · rw [h3 t ht]
        exact h.size t
    refine ⟨h1.trans h.prm, fun t => ?_, hsize', fun t => ?_, h9 h.calls, fun t i hi u hu => ?_⟩
    · by_cases ht : t = s1
      · exact ht ▸ h6
      · rw [h3 t ht]
        exact h.ri t
    · by_cases ht : t = s1
      · rw [ht, h5, hsize', ← h.size (kv.prm.seqToStream src)]
        exact h.head _
      · rw [h4 t ht, h3 t ht]
        exact h.head t
    · by_cases ht : t = s1
      · subst ht
        have hcell := h8 i
        have hu : u ∈ (((kv.seqCp src dst p0 p1).vCells s1).cell i).seq := hu
        change (((kv.seqCp src dst p0 p1).vCells s1).cell i).pos < posLimit
        rw [hcell] at hu ⊢
        split at hu
        · rename_i hc
          rw [if_pos hc]
          exact h.pos_lt _ i hc.1 src hc.2
        · simp [Cell.empty] at hu
      · rw [h3 t ht] at hi hu ⊢
        exact h.pos_lt t i hi u hu

lemma inv_seqAdd (h : Inv p kv) {p0 p1 d : ℤ} (hgood : (Op.seqAdd s p0 p1 d).Good kv) :
    Inv p (kv.seqAdd s p0 p1 d) := by
  refine h.swept (seqAdd_spec p0 p1 d (h.cellsWF _)) fun j hc u hu => ?_
  have hlt := hgood j hc.1 hc.2.2
  rw [← cellsOf] at hu ⊢
  rw [Cell.posAdd] at hu ⊢
  split at hu
  · exact absurd hu (Finset.notMem_empty u)
  · rename_i hneg
    rw [if_neg hneg]
    exact hlt

lemma inv_seqDiv (h : Inv p kv) {p0 p1 d : ℤ} (hgood : (Op.seqDiv s p0 p1 d).Good kv) :
    Inv p (kv.seqDiv s p0 p1 d) := by
  refine h.swept (seqDiv_spec p0 p1 d (h.cellsWF _) hgood) fun j hc u _ => ?_
  have hmem : s ∈ (kv.cellsOf s).seq j := hc.2.2.2
  have hpos := (h.cellsWF _).pos_nonneg hc.1 hmem
  exact (Int.tdiv_le_self d hpos).trans_lt (h.pos_lt _ j hc.1 s hmem)

/-- What `findSlot` returns fits the ubatch. -/
lemma slot_tokensOk (h : Inv p kv) {ub : UBatch} {si : SlotInfo} {n : ℕ}
    (hwell : ub.WellFormed n) (hn : n ≤ maxSeq) (hassert : kv.FindSlotAsserts ub)
    (hsi : kv.findSlot ub false = some si) (hpos : ∀ i < ub.nTokens, 0 ≤ ub.pos i) :
    kv.SlotOk si ∧ TokensOk si ub kv si.tokens ∧ ∀ t ∈ si.tokens, tokenIdx si t < ub.nTokens := by
  obtain ⟨hok, -, -, hmul⟩ := findSlot_spec hwell hassert h.head hsi
  have hidx : ∀ t ∈ si.tokens, tokenIdx si t < ub.nTokens := fun t ht =>
    hmul ▸ tokenIdx_lt ht
  refine ⟨hok, fun t ht => ⟨hok.idx_lt ht, hpos _ (hidx t ht), fun s hs => ?_⟩, hidx⟩
  have h1 := hwell.unq_range s (hwell.seqs_mem _ (hidx t ht) s hs)
  omega

/-- Filling the slot found for a ubatch keeps the invariant. -/
lemma inv_applyUbatch (h : Inv p kv) {ub : UBatch} {si : SlotInfo} {n : ℕ}
    (hwell : ub.WellFormed n) (hn : n ≤ maxSeq) (hassert : kv.FindSlotAsserts ub)
    (hsi : kv.findSlot ub false = some si) (hgood : (Op.place ub).Good kv) :
    Inv p (kv.applyUbatch si ub) := by
  obtain ⟨hok, htoks, hidx⟩ := slot_tokensOk h hwell hn hassert hsi fun i hi => (hgood i hi).1
  have happ := applyUbatch_spec h.cellsWF htoks hok.nodup hok.last_le
  refine h.sweptAll happ (placedExcess_eq_zero fun t ht => (hgood _ (hidx t ht)).2.2) ?_
  intro t j hj s hs
  simp only [if_pos hj, Cell.restrict_seq] at hs ⊢
  rw [Cell.restrict_pos hs]
  have hs := keptSeqs_subset _ _ _ _ _ hs
  rcases placed_cases ub hok.nodup t j ((kv.vCells t).cell j) with
    ⟨u, hu, -, hval⟩ | ⟨-, hval⟩
  · rw [hval]
    exact (hgood _ (hidx u hu)).2.1
  · rw [hval] at hs ⊢
    exact h.pos_lt t j hj s hs

lemma inv_place (h : Inv p kv) {ub : UBatch} (hacc : kv.prm.Accepts ub)
    (hassert : kv.FindSlotAsserts ub) (hgood : (Op.place ub).Good kv) : Inv p (kv.place ub) := by
  unfold place
  cases hsi : kv.findSlot ub false with
  | none => exact h
  | some si => exact inv_applyUbatch h hacc.wellFormed kv.prm.batchSeqMax_le.2 hassert hsi hgood

/-! ## The run -/

/-- An asserted good call keeps the invariant. -/
lemma inv_run {p : KvParams} {kv : KvCache} {op : Op} (h : Inv p kv)
    (hop : op.Asserts kv ∧ op.Good kv) : Inv p (kv.run op) := by
  obtain ⟨hassert, hgood⟩ := hop
  cases op with
  | clear data => exact inv_clear h data
  | seqRm s p0 p1 => exact inv_seqRm h s p0 p1
  | seqCp src dst p0 p1 => exact inv_seqCp h hassert.2.1 hgood
  | seqKeep s => exact inv_seqKeep h hassert hgood
  | seqAdd s p0 p1 d => exact inv_seqAdd h hgood
  | seqDiv s p0 p1 d => exact inv_seqDiv h hgood
  | place ub => exact inv_place h hassert.1 hassert.2 hgood

/-- Removing all positions of a sequence leaves no cell of it. -/
lemma Inv.seqRm_all (h : Inv p kv) (hs : 0 ≤ s) :
    (kv.seqRm s (-1) (-1)).seqPosMin s = -1 ∧ (kv.seqRm s (-1) (-1)).seqPosMax s = -1 := by
  have hsw := seqRm_spec (-1) (-1) (h.cellsWF _) hs
  set kv' := kv.seqRm s (-1) (-1) with hkv'
  have hcells : kv'.cellsOf s = kv'.vCells (kv.prm.seqToStream s) := by rw [cellsOf, hsw.prm]
  have hri : (kv'.cellsOf s).RI := hcells ▸ hsw.sweep.ri (h.ri _)
  have hno : ∀ j < (kv'.cellsOf s).size, s ∉ (kv'.cellsOf s).seq j := by
    intro j hj hmem
    rw [hcells, hsw.sweep.size_eq] at hj
    have hmem : s ∈ ((kv'.cellsOf s).cell j).seq := hmem
    rw [hcells, hsw.sweep.cell_eq] at hmem
    split at hmem
    · simp only [Cell.seqRm] at hmem
      split at hmem
      · exact absurd hmem (Finset.notMem_empty s)
      · exact absurd hmem (Finset.notMem_erase s _)
    · rename_i hc
      refine hc ⟨hj, ⟨?_, ?_⟩, hmem⟩
      · exact (h.cellsWF _).pos_nonneg hj hmem
      · exact h.pos_lt _ j hj s hmem
  constructor
  · rcases hri.isSeqMin s with hmin | ⟨⟨i, hi, hmem, -⟩, -⟩
    · exact hmin.2
    · exact absurd hmem (hno i hi)
  · rcases hri.isSeqMax s with hmax | ⟨⟨i, hi, hmem, -⟩, -⟩
    · exact hmax.2
    · exact absurd hmem (hno i hi)

/-- **Runs of good calls keep the maps exact**: every call into the cells met its
precondition, every map counts the cells of its sequence, and a sequence that was removed
has no bounds left. -/
theorem run_counts (p : KvParams) (ops : List Op)
    (hops : Run.Guarded run (fun kv op => op.Asserts kv ∧ op.Good kv) (new p) ops) :
    let kv := Run.exec run (new p) ops
    kv.CallsOk ∧ (∀ t s q, ((kv.vCells t).seqPos s).count q = (kv.vCells t).cellCount s q) ∧
      ∀ s, p.SeqOk s →
        (kv.seqRm s (-1) (-1)).seqPosMin s = -1 ∧ (kv.seqRm s (-1) (-1)).seqPosMax s = -1 := by
  intro kv
  have hinv : Inv p kv :=
    Run.invariant (I := Inv p) (fun _ _ h hop => inv_run h hop) (inv_new p) ops hops
  exact ⟨hinv.calls, fun t s q => (hinv.ri t).count_eq s q, fun s hs => hinv.seqRm_all hs.1⟩

/-- A unified cache of two cells for two sequences. -/
def twoCells : KvParams where
  unified := true
  nSeqMax := 2
  kvSize := 2
  nSwa := 0
  swaType := .none
  mrope := false
  vTrans := false
  layers := []
  nSeqMax_pos := Nat.two_pos
  nSeqMax_le := two_le_maxSeq

/-- The ubatch of the one token at position 0 of sequence 0. -/
def oneUbatch : UBatch :=
  ((BatchAllocr.ofFull 1 (BatchAllocr.fill BatchAllocr.oneToken none 256 false) 0 256).ubatchAdd
    [0] 1 false).1

lemma accepts_oneUbatch : twoCells.Accepts oneUbatch := by
  have hacc : (BatchAllocr.init 1 oneToken 10 none 0 256 false).isSome = true := by
    decide +kernel
  obtain ⟨a, ha⟩ := Option.isSome_iff_exists.mp hacc
  refine ⟨oneToken, 10, none, 0, false, a, ha, [0], 1, false, by simp, ?_, ?_⟩
  · rw [init_eq ha]
    decide
  · rw [init_eq ha]
    rfl

lemma asserts_oneUbatch : (Op.place oneUbatch).Asserts (new twoCells) :=
  ⟨accepts_oneUbatch, fun h => absurd h (by decide)⟩

/-- In the unified cache a copy from sequence 0 to 1 asserts nothing more. -/
lemma asserts_seqCp (h0 : kv.prm.SeqOk 0) (h1 : kv.prm.SeqOk 1)
    (hs : kv.prm.seqToStream 0 = kv.prm.seqToStream 1) : (Op.seqCp 0 1 (-1) (-1)).Asserts kv :=
  ⟨h0, h1, fun hne => absurd hs hne⟩

theorem run_counts_shared :
    let kv := Run.exec run (new twoCells) [.place oneUbatch, .seqCp 0 1 (-1) (-1)]
    kv.CallsOk ∧ (∀ t s q, ((kv.vCells t).seqPos s).count q = (kv.vCells t).cellCount s q) ∧
      ∀ s, twoCells.SeqOk s →
        (kv.seqRm s (-1) (-1)).seqPosMin s = -1 ∧ (kv.seqRm s (-1) (-1)).seqPosMax s = -1 := by
  refine run_counts twoCells [.place oneUbatch, .seqCp 0 1 (-1) (-1)]
    ⟨⟨asserts_oneUbatch, ?_⟩, ⟨asserts_seqCp ?_ ?_ ?_, ?_⟩, trivial⟩
  · change ∀ i < oneUbatch.nTokens, 0 ≤ oneUbatch.pos i ∧ oneUbatch.pos i < posLimit ∧
      (oneUbatch.seqs i).Nodup
    decide +kernel
  · decide +kernel
  · decide +kernel
  · decide +kernel
  · have hfree : ∀ i < (((new twoCells).place oneUbatch).cellsOf 0).size,
        1 ∉ (((new twoCells).place oneUbatch).cellsOf 0).seq i := by decide +kernel
    have hsame : ((new twoCells).place oneUbatch).prm.seqToStream 0 =
        ((new twoCells).place oneUbatch).prm.seqToStream 1 := by decide +kernel
    change Op.Good ((new twoCells).place oneUbatch) _
    rw [Op.Good, if_pos hsame]
    exact fun _ i hi _ => hfree i hi

/-- Copying a sequence twice adds it twice to the same cell, and a ghost of it stays behind:
no cell holds sequence 1 after its removal, but its bounds are still 0. -/
theorem run_ghost :
    let ops : List Op := [.place oneUbatch, .seqCp 0 1 (-1) (-1), .seqCp 0 1 (-1) (-1)]
    let kv := Run.exec run (new twoCells) ops
    Run.Guarded run (fun kv op => op.Asserts kv) (new twoCells) ops ∧
      (∀ i < 2, 1 ∉ ((kv.seqRm 1 (-1) (-1)).vCells 0).seq i) ∧
      (kv.seqRm 1 (-1) (-1)).seqPosMin 1 = 0 ∧ (kv.seqRm 1 (-1) (-1)).seqPosMax 1 = 0 := by
  refine ⟨⟨asserts_oneUbatch,
    asserts_seqCp (by decide +kernel) (by decide +kernel) (by decide +kernel),
    asserts_seqCp (by decide +kernel) (by decide +kernel) (by decide +kernel), trivial⟩, ?_⟩
  simp only [Run.exec_cons, Run.exec_nil, run]
  decide +kernel

end KvCache
end Llama
