import Llama.KvCache.Rows
import Llama.KvCache.Window

/-!
# Saving and restoring one sequence

The records of the saved cells become the tokens of a ubatch (`reads_readSeqCells`), which
is placed like any other ubatch; then the rows are copied into the cells of its slot.
-/

namespace Llama.KvCache

open List Function Finset Reader

open Reader (Reads)

/-! ## The records -/

/-- The extents that are saved fit their type. -/
def ExtSized (kv : KvCache) : Prop :=
  1 < kv.prm.nPosPerEmbd →
    ∀ t i, Bytes.IsInt32 ((kv.vCells t).ext i).x ∧ Bytes.IsInt32 ((kv.vCells t).ext i).y

lemma reads_readExt {e : KvCellExt} (hx : Bytes.IsInt32 e.x) (hy : Bytes.IsInt32 e.y)
    (kv : KvCache) : Reads readExt kv (writeExt e) e kv := by
  refine (reads_readI32 hx kv).bind ?_
  exact (reads_readI32 hy kv).map fun y => (⟨e.x, y⟩ : KvCellExt)

variable {kv kv' : KvCache} {s : ℤ}

/-- The ids saved for one sequence are that sequence, if it is below `n_seq_max`. -/
lemma savedSeqs_of_lt {strm i : ℕ} (hs : 0 ≤ s) (hlt : s < kv.prm.nSeqMax)
    (hmem : s ∈ (kv.vCells strm).seq i) : kv.savedSeqs strm s i = [s] := by
  have hne : s ≠ -1 := by omega
  have hfilter : kv.savedSeqs strm s i =
      ((List.range kv.prm.nSeqMax).map fun (cur : ℕ) => (cur : ℤ)).filter (· == s) := by
    refine List.filter_congr fun cur _ => ?_
    by_cases hcur : cur = s
    · subst hcur
      simp [KvCells.seqHas, hmem]
    · simp [hcur, hne]
  rw [hfilter, List.filter_beq, List.count_eq_one_of_mem]
  · rfl
  · exact List.nodup_range.map fun a b hab => by simpa using hab
  · exact List.mem_map.mpr ⟨s.toNat, List.mem_range.mpr (by omega), by omega⟩

/-- From `n_seq_max` on no id is saved. -/
lemma savedSeqs_of_ge (strm i : ℕ) (hs : 0 ≤ s) (hge : kv.prm.nSeqMax ≤ s) :
    kv.savedSeqs strm s i = [] := by
  refine List.filter_eq_nil_iff.mpr fun cur hcur => ?_
  obtain ⟨n, hn, rfl⟩ := List.mem_map.mp hcur
  have hn := List.mem_range.mp hn
  have h1 : ¬ ((n : ℤ) = s) := by omega
  have h2 : ¬ s = -1 := by omega
  simp [h1, h2]

/-- The first `k` tokens of the ubatch are the saved cells, as tokens of `dest`. -/
structure Filled (src : KvCache) (t : ℕ) (cells : List ℕ) (dest : ℤ) (k : ℕ) (ub : UBatch) :
    Prop where
  nTokens : ub.nTokens = cells.length
  nSeqsUnq : ub.nSeqsUnq = 1
  seqIdUnq : ub.seqIdUnq = [dest]
  nPos : ub.nPos = src.prm.nPosPerEmbd
  pos : ∀ j < k, ub.pos j = (src.vCells t).pos (cells.getD j 0)
  seqs : ∀ j < k, ub.seqs j = [dest]
  ext : 1 < src.prm.nPosPerEmbd → ∀ j < k,
    (⟨ub.pos (j + ub.nTokens * 2), ub.pos (j + ub.nTokens)⟩ : KvCellExt) =
      (src.vCells t).ext (cells.getD j 0)

/-- A ubatch after the extent of token `i` was read. -/
def withExt (nPosPerEmbd i : ℕ) (e : KvCellExt) (ub : UBatch) : UBatch :=
  if 1 < nPosPerEmbd then { ub with
    pos := Function.update (Function.update ub.pos (i + ub.nTokens) e.y) (i + ub.nTokens * 2) e.x }
  else ub

lemma reads_readTokenExt {nPosPerEmbd : ℕ} (i : ℕ) {e : KvCellExt}
    (he : 1 < nPosPerEmbd → Bytes.IsInt32 e.x ∧ Bytes.IsInt32 e.y) (ub : UBatch) (kv : KvCache) :
    Reads (readTokenExt nPosPerEmbd i ub) kv (if 1 < nPosPerEmbd then writeExt e else [])
      (withExt nPosPerEmbd i e ub) kv := by
  simp only [readTokenExt, withExt]
  split
  · rename_i hn
    exact (reads_readExt (he hn).1 (he hn).2 kv).map _
  · exact Reader.reads_pure ub kv

lemma withExt_pos_of_ne {nPosPerEmbd i j : ℕ} {ub : UBatch} (e : KvCellExt)
    (h1 : j ≠ i + ub.nTokens) (h2 : j ≠ i + ub.nTokens * 2) :
    (withExt nPosPerEmbd i e ub).pos j = ub.pos j := by
  unfold withExt
  split
  · exact (update_of_ne h2 _ _).trans (update_of_ne h1 _ _)
  · rfl

/-- One more record. -/
lemma Filled.step {src : KvCache} {t : ℕ} {cells : List ℕ} {dest : ℤ} {i : ℕ} {ub : UBatch}
    (hf : Filled src t cells dest i ub) (hlen : i < cells.length) :
    let c := cells.getD i 0
    let ub1 := withExt src.prm.nPosPerEmbd i ((src.vCells t).ext c) ub
    Filled src t cells dest (i + 1) { ub1 with
      pos := Function.update ub1.pos i ((src.vCells t).pos c)
      nSeqId := Function.update ub1.nSeqId i 1
      seqId := Function.update ub1.seqId i fun _ => dest } := by
  intro c ub1
  have hnt := hf.nTokens
  have hsame : ub1.nTokens = ub.nTokens ∧ ub1.nSeqId = ub.nSeqId ∧ ub1.seqId = ub.seqId ∧
      ub1.nSeqsUnq = ub.nSeqsUnq ∧ ub1.seqIdUnq = ub.seqIdUnq ∧ ub1.nPos = ub.nPos := by
    simp only [ub1, withExt]
    split <;> exact ⟨rfl, rfl, rfl, rfl, rfl, rfl⟩
  obtain ⟨h1, h2, h3, h4, h5, h6⟩ := hsame
  refine ⟨h1.trans hnt, h4.trans hf.nSeqsUnq, h5.trans hf.seqIdUnq, h6.trans hf.nPos,
    fun j hj => ?_, fun j hj => ?_, fun hn j hj => ?_⟩
  · by_cases hji : j = i
    · subst hji
      exact update_self ..
    · refine (update_of_ne hji _ _).trans ?_
      rw [withExt_pos_of_ne _ (by omega) (by omega)]
      exact hf.pos j (by omega)
  · by_cases hji : j = i
    · subst hji
      simp [UBatch.seqs]
    · have h := hf.seqs j (by omega)
      simp only [UBatch.seqs, update_of_ne hji, h2, h3] at h ⊢
      exact h
  · have hx : j + ub.nTokens * 2 ≠ i := by omega
    have hy : j + ub.nTokens ≠ i := by omega
    simp only [h1, update_of_ne hx, update_of_ne hy]
    by_cases hji : j = i
    · subst hji
      have hne : j + ub.nTokens ≠ j + ub.nTokens * 2 := by omega
      simp only [ub1, withExt, if_pos hn, update_self, update_of_ne hne]
      rfl
    · rw [withExt_pos_of_ne _ (by omega) (by omega), withExt_pos_of_ne _ (by omega) (by omega)]
      exact hf.ext hn j (by omega)

/-- **The records** of the saved cells become the tokens of the ubatch. -/
theorem reads_readSeqCells {src : KvCache} {t : ℕ} {dest : ℤ} {cells : List ℕ} (hs : 0 ≤ s)
    (hlt : s < src.prm.nSeqMax) (hmax : s < 2147483648)
    (hcells : ∀ c ∈ cells, s ∈ (src.vCells t).seq c ∧ Bytes.IsInt32 ((src.vCells t).pos c))
    (hext : src.ExtSized) (kv : KvCache) :
    ∀ (k i : ℕ) (ub : UBatch), i + k = cells.length → Filled src t cells dest i ub →
      ∃ ub', Reads (readSeqCells src.prm.nPosPerEmbd dest k i ub) kv
        ((cells.drop i).flatMap (src.writeCell t s)) (some ub') kv ∧
          Filled src t cells dest cells.length ub' := by
  intro k
  induction k with
  | zero =>
    intro i ub hi hf
    subst hi
    refine ⟨ub, ?_, hf⟩
    rw [drop_length]
    exact Reader.reads_pure (some ub) kv
  | succ k ih =>
    intro i ub hi hf
    have hlen : i < cells.length := by omega
    have hget : cells.getD i 0 = cells[i] := getD_eq_getElem _ _ hlen
    obtain ⟨hseq, hpos⟩ := hcells cells[i] (getElem_mem hlen)
    have hf' := hf.step hlen
    simp only [hget] at hf'
    obtain ⟨ub', hreads, hdone⟩ := ih (i + 1) _ (by omega) hf'
    refine ⟨ub', ?_, hdone⟩
    rw [drop_eq_getElem_cons hlen, flatMap_cons, readSeqCells, writeCell,
      savedSeqs_of_lt hs hlt hseq]
    simp only [append_assoc]
    refine (reads_readI32 hpos kv).bind ?_
    refine (reads_readU32 (by norm_num) kv).bind ?_
    refine (reads_readTokenExt i (fun hn => hext hn t _) ub kv).bind ?_
    exact (reads_readI32 ⟨by omega, by omega⟩ kv).bind hreads

/-! ## The destination without the sequence -/

/-- What `seq_rm` of a whole sequence leaves. -/
structure Removed (p : KvParams) (kv : KvCache) (s : ℤ) (kv' : KvCache) : Prop where
  inv : Inv p kv'
  homed : kv'.Homed
  size : ∀ t, (kv'.vCells t).size = (kv.vCells t).size
  cell : ∀ t, ∀ j < (kv.vCells t).size, (kv'.vCells t).cell j =
    if s ∈ (kv.vCells t).seq j then ((kv.vCells t).cell j).seqRm s else (kv.vCells t).cell j
  kStream : kv'.kStream = kv.kStream
  vStream : kv'.vStream = kv.vStream
  scInfo : kv'.scInfo = kv.scInfo

lemma removed_seqRm {p : KvParams} (h : Inv p kv) (hhome : kv.Homed) (hs : 0 ≤ s) :
    Removed p kv s (kv.seqRm s (-1) (-1)) := by
  have hsw := (seqRm_spec (-1) (-1) (h.cellsWF _) hs).all h.cellsWF
  refine ⟨inv_seqRm h s _ _, ?_, fun t => (hsw.sweep t).size_eq, fun t j hj => ?_, hsw.kStream,
    hsw.vStream, hsw.scInfo⟩
  · refine hhome.swept h.cellsWF (seqRm_spec (-1) (-1) (h.cellsWF _) hs) fun j _ u hu => ?_
    split at hu
    · exact .inl (seqRm_pos hu).1
    · exact .inl hu
  · rw [(hsw.sweep t).cell_eq]
    by_cases hmem : s ∈ (kv.vCells t).seq j
    · have ht : t = kv.prm.seqToStream s := (hhome t j hj s hmem).symm
      subst ht
      have hlow := (h.cellsWF _).pos_nonneg hj hmem
      have hhigh := h.pos_lt _ j hj s hmem
      simp only [if_true, if_pos hmem]
      rw [if_pos ⟨hj, ⟨hlow, hhigh⟩, hmem⟩]
    · rw [if_neg hmem]
      by_cases ht : t = kv.prm.seqToStream s
      · subst ht
        simp only [if_true]
        rw [if_neg fun hc => hmem hc.2.2]
      · simp only [if_neg ht]

lemma Removed.notMem {p : KvParams} (h : Removed p kv s kv') {t j : ℕ}
    (hj : j < (kv.vCells t).size) : s ∉ (kv'.vCells t).seq j := by
  have hc := congrArg Cell.seq (h.cell t j hj)
  have hc : (kv'.vCells t).seq j = _ := hc
  rw [hc]
  split
  · unfold Cell.seqRm
    split
    · exact notMem_empty s
    · exact notMem_erase s _
  · rename_i hno
    exact hno

/-- Other sequences keep their cells. -/
lemma Removed.other {p : KvParams} {u : ℤ} (h : Removed p kv s kv') (hne : u ≠ s) {t j : ℕ}
    (hj : j < (kv.vCells t).size) :
    (u ∈ (kv'.vCells t).seq j ↔ u ∈ (kv.vCells t).seq j) ∧
      (u ∈ (kv.vCells t).seq j → (kv'.vCells t).pos j = (kv.vCells t).pos j ∧
        (kv'.vCells t).ext j = (kv.vCells t).ext j ∧
          (kv'.vCells t).shift j = (kv.vCells t).shift j) := by
  have hc := h.cell t j hj
  by_cases hmem : s ∈ (kv.vCells t).seq j
  · rw [if_pos hmem] at hc
    have hseq : (kv'.vCells t).seq j = (((kv.vCells t).cell j).seqRm s).seq := congrArg Cell.seq hc
    have hiff : u ∈ (kv'.vCells t).seq j ↔ u ∈ (kv.vCells t).seq j := by
      rw [hseq]
      unfold Cell.seqRm
      split
      · rename_i he
        refine ⟨fun hu => absurd hu (notMem_empty u), fun hu => ?_⟩
        exact absurd (he ▸ mem_erase.mpr ⟨hne, hu⟩) (notMem_empty u)
      · simp only [mem_erase, ne_eq, hne, not_false_iff, true_and]
        rfl
    refine ⟨hiff, fun hu => ?_⟩
    have hne' : ((kv.vCells t).cell j).seq.erase s ≠ ∅ := fun he =>
      absurd (he ▸ mem_erase.mpr ⟨hne, hu⟩) (notMem_empty u)
    rw [Cell.seqRm, if_neg hne'] at hc
    exact ⟨congrArg Cell.pos hc, congrArg Cell.ext hc, congrArg Cell.shift hc⟩
  · rw [if_neg hmem] at hc
    have hseq : (kv'.vCells t).seq j = (kv.vCells t).seq j := congrArg Cell.seq hc
    exact ⟨by rw [hseq], fun _ => ⟨congrArg Cell.pos hc, congrArg Cell.ext hc,
      congrArg Cell.shift hc⟩⟩

/-- The last position of a sequence depends on its cells only. -/
lemma seqPosMax_congr {c c' : KvCells} (h : c.RI) (h' : c'.RI) (hsize : c'.size = c.size)
    (hseq : ∀ i < c.size, s ∈ c'.seq i ↔ s ∈ c.seq i)
    (hpos : ∀ i < c.size, s ∈ c.seq i → c'.pos i = c.pos i) : c'.seqPosMax s = c.seqPosMax s := by
  have hmax := h.isSeqMax s
  have hmax' := h'.isSeqMax s
  simp only [KvCells.IsSeqMax, hsize] at hmax hmax'
  rcases hmax with ⟨hno, hval⟩ | ⟨⟨i, hi, hmi, hpi⟩, hle⟩
  · rcases hmax' with ⟨-, hval'⟩ | ⟨⟨j, hj, hmj, -⟩, -⟩
    · rw [hval, hval']
    · exact absurd ((hseq j hj).mp hmj) (hno j hj)
  · rcases hmax' with ⟨hno, -⟩ | ⟨⟨j, hj, hmj, hpj⟩, hle'⟩
    · exact absurd ((hseq i hi).mpr hmi) (hno i hi)
    · have hmj' := (hseq j hj).mp hmj
      have h1 := hle j hj hmj'
      have h2 := hle' i hi ((hseq i hi).mpr hmi)
      rw [hpos j hj hmj'] at hpj
      rw [hpos i hi hmi] at h2
      omega

lemma Removed.seqPosMax {p : KvParams} {u : ℤ} (hkv : Inv p kv) (h : Removed p kv s kv')
    (hne : u ≠ s) : kv'.seqPosMax u = kv.seqPosMax u := by
  unfold KvCache.seqPosMax cellsOf
  rw [h.inv.prm, hkv.prm]
  exact seqPosMax_congr (hkv.ri _) (h.inv.ri _) (h.size _) (fun i hi => (h.other hne hi).1)
    fun i hi hu => ((h.other hne hi).2 hu).1

/-! ## The placed cells -/

section Placement

variable {p : KvParams} {src kv : KvCache} {t : ℕ} {cells : List ℕ} {dest : ℤ} {ub : UBatch}
  {si : SlotInfo}

section

variable (hf : Filled src t cells dest cells.length ub)

include hf

lemma Filled.nSeqId {j : ℕ}
    (hj : j < cells.length) : ub.nSeqId j = 1 ∧ ub.seqId j 0 = dest := by
  have h := hf.seqs j hj
  have hlen : ub.nSeqId j = 1 := by
    have := congrArg List.length h
    simpa [UBatch.seqs] using this
  simpa [UBatch.seqs, hlen] using h

lemma Filled.wellFormed (hne : cells ≠ [])
    (hdest : 0 ≤ dest ∧ dest < maxSeq) : ub.WellFormed maxSeq where
  nTokens_pos := hf.nTokens ▸ List.length_pos_of_ne_nil hne
  nSeqsUnq_eq := by rw [hf.nSeqsUnq, hf.seqIdUnq, List.length_singleton]
  unq_nodup := by rw [hf.seqIdUnq]; exact List.nodup_singleton dest
  unq_range := fun s hs => by
    rw [hf.seqIdUnq, List.mem_singleton] at hs
    exact hs ▸ hdest
  seqs_mem := fun i hi s hs => by
    rw [hf.seqs i (hf.nTokens ▸ hi)] at hs
    rw [hf.seqIdUnq]
    exact hs

lemma Filled.asserts (hne : cells ≠ [])
    (kv : KvCache) : kv.FindSlotAsserts ub := by
  intro _
  rw [hf.nSeqsUnq]
  refine ⟨by decide, Nat.mod_one _, fun s hs => ?_⟩
  obtain rfl : s = 0 := by omega
  rw [zero_mul, hf.seqIdUnq]
  exact hf.nSeqId (length_pos_of_ne_nil hne)

lemma Filled.slot (kv : KvCache) :
    kv.slotTokens ub = cells.length ∧ kv.slotStreams ub = [kv.prm.seqToStream dest] := by
  by_cases hn : 1 < kv.prm.nStream
  · simp [slotTokens, slotStreams, slotSeqs, hf.nTokens, hf.nSeqsUnq, hf.seqIdUnq]
  · simp [slotTokens, slotStreams, slotSeqs, hn, hf.nTokens, hf.seqIdUnq]

lemma Filled.homed (kv : KvCache) : kv.HomedUbatch ub := by
  intro i hi s hs
  rw [hf.nTokens] at hi
  rw [hf.seqs i hi, List.mem_singleton] at hs
  obtain ⟨h1, h2⟩ := hf.slot kv
  rw [h1, h2, Nat.div_eq_of_lt hi, hs]
  rfl

lemma Filled.good
    (hpos : ∀ c ∈ cells, 0 ≤ (src.vCells t).pos c ∧ (src.vCells t).pos c < posLimit)
    (kv : KvCache) : (Op.place ub).Good kv := by
  intro i hi
  rw [hf.nTokens] at hi
  rw [hf.pos i hi, hf.seqs i hi]
  have hmem : cells.getD i 0 ∈ cells := by
    rw [getD_eq_getElem _ _ hi]
    exact getElem_mem hi
  exact ⟨(hpos _ hmem).1, (hpos _ hmem).2, nodup_singleton dest⟩

/-- The slot found for the saved cells, and what fits. -/
lemma Filled.fitting (hne : cells ≠ [])
    (hpos : ∀ c ∈ cells, 0 ≤ (src.vCells t).pos c ∧ (src.vCells t).pos c < posLimit)
    (hinv : Inv p kv) (hdest : p.SeqOk dest) (hsi : kv.findSlot ub false = some si) :
    kv.Fitting si ub ∧ Inv p (kv.applyUbatch si ub) ∧ RowSlot si cells.length p.kvSize ∧
      si.strm = [p.seqToStream dest] := by
  have hrange := hdest.lt_maxSeq
  have hwell := hf.wellFormed hne hrange
  have hassert := hf.asserts hne kv
  have hgood := hf.good hpos kv
  have hfit := fitting_of_findSlot hinv hwell le_rfl hassert (hf.homed kv) hsi
    fun i hi => (hgood i hi).1
  obtain ⟨hok, hstrm, hsize, -⟩ := findSlot_spec hwell hassert hinv.head hsi
  obtain ⟨h1, h2⟩ := hf.slot kv
  rw [h2, hinv.prm] at hstrm
  rw [h1] at hsize
  have hone : si.nStream = 1 := by rw [SlotInfo.nStream, hstrm, List.length_singleton]
  have hcell := hok.cells 0 (by omega)
  have hlen := hok.length 0 (by omega)
  have hidx : (List.range cells.length).map (si.idx 0) = si.idxs.getD 0 [] := by
    refine List.ext_getElem (by rw [hlen, hsize]; simp) fun i h3 h4 => ?_
    simp only [List.getElem_map, List.getElem_range]
    exact List.getD_eq_getElem _ _ h4
  refine ⟨hfit, inv_applyUbatch hinv hwell le_rfl hassert hsi hgood, ⟨?_, hsize, ?_, ?_⟩, hstrm⟩
  · exact (findSlot_idxs_length hsi).trans hone
  · rw [hidx]
    exact hcell.nodup
  · intro i hi
    have hmem : si.idx 0 i ∈ si.idxs.getD 0 [] := hidx ▸ List.mem_map_of_mem (List.mem_range.mpr hi)
    rw [← hinv.size]
    exact hcell.lt_size _ hmem

end

/-- The token of cell `i` of the slot. -/
lemma token_of_lt (hone : si.nStream = 1) (hsize : si.size = cells.length) {i : ℕ}
    (hi : i < cells.length) : (0, i) ∈ si.tokens ∧ tokenIdx si (0, i) = i :=
  ⟨mem_tokens.mpr ⟨by omega, by omega⟩, by simp [tokenIdx]⟩

/-- The cells of the slot hold the saved cells, as cells of `dest`, and no other cell does. -/
lemma Filled.placed (hf : Filled src t cells dest cells.length ub) (hne : cells ≠ [])
    (hpos : ∀ c ∈ cells, 0 ≤ (src.vCells t).pos c ∧ (src.vCells t).pos c < posLimit)
    (hinv : Inv p kv) (hdest : p.SeqOk dest) (hsi : kv.findSlot ub false = some si)
    (hno : ∀ t, ∀ j < (kv.vCells t).size, dest ∉ (kv.vCells t).seq j) :
    let c' := (kv.applyUbatch si ub).vCells (p.seqToStream dest)
    (∀ i < cells.length, c'.cell (si.idx 0 i) =
      tokenCell ub i ((kv.vCells (p.seqToStream dest)).cell (si.idx 0 i))) ∧
      ∀ j < c'.size, dest ∈ c'.seq j ↔ ∃ i < cells.length, si.idx 0 i = j := by
  intro c'
  obtain ⟨hfit, hinv', hrow, hstrm⟩ := hf.fitting hne hpos hinv hdest hsi
  have hone : si.nStream = 1 := by rw [SlotInfo.nStream, hstrm, List.length_singleton]
  have hslot : ∀ i, slotOf si (0, i) = (p.seqToStream dest, si.idx 0 i) := fun i => by
    simp [slotOf, hstrm]
  have hover : ∀ q, ¬ kv.Overwrites si dest q := by
    rintro q ⟨u, hu, hne', hget, -⟩
    have hlt := hfit.ok.idx_lt hu
    have hmem : dest ∈ (kv.vCells (slotOf si u).1).seq (slotOf si u).2 := by
      simp only [KvCells.seqGet] at hget
      cases hfind : seqIds.find? (fun s => s ∈ (kv.vCells (slotOf si u).1).seq (slotOf si u).2) with
      | none =>
        rw [hfind] at hget
        have := hdest.1
        simp at hget
        omega
      | some d =>
        rw [hfind] at hget
        have hd : d = dest := hget
        have := List.find?_some hfind
        simpa [hd] using this
    exact hno _ _ hlt hmem
  have hcell : ∀ i < cells.length, c'.cell (si.idx 0 i) =
      tokenCell ub i ((kv.vCells (p.seqToStream dest)).cell (si.idx 0 i)) := by
    intro i hi
    obtain ⟨hmem, hidx⟩ := token_of_lt hone hrow.size_eq hi
    have happ := applyUbatch_spec hinv.cellsWF hfit.toks hfit.ok.nodup hfit.ok.last_le
    have hval := placed_of_mem ub ((kv.vCells (p.seqToStream dest)).cell (si.idx 0 i))
      hfit.ok.nodup hmem
    rw [hslot, hidx] at hval
    have hlt : si.idx 0 i < (kv.vCells (p.seqToStream dest)).size := by
      rw [hinv.size]
      exact hrow.lt i hi
    have hc := (happ.sweep (p.seqToStream dest)).cell_eq (si.idx 0 i)
    simp only [hval, if_pos hlt] at hc
    refine hc.trans ?_
    have hkeep : keptSeqs kv.prm (kv.maxRmOf si ub) seqIds (p.seqToStream dest)
        (tokenCell ub i ((kv.vCells (p.seqToStream dest)).cell (si.idx 0 i))) =
        (tokenCell ub i ((kv.vCells (p.seqToStream dest)).cell (si.idx 0 i))).seq := by
      rw [keptSeqs, Finset.filter_eq_self]
      rintro s hs ⟨-, -, hle⟩
      simp only [tokenCell, hf.seqs i hi, List.toFinset_cons, List.toFinset_nil,
        insert_empty_eq, Finset.mem_singleton] at hs hle
      subst hs
      have h0 := ((hf.good hpos kv) i (hf.nTokens ▸ hi)).1
      exact hover _ ((le_maxRmOf_iff hinv.cellsWF hfit.toks hfit.ok.nodup h0).mp hle)
    rw [hkeep]
    exact Cell.restrict_self _
  refine ⟨hcell, fun j hj => ⟨fun hmem => ?_, ?_⟩⟩
  · have hj' : j < (kv.vCells (p.seqToStream dest)).size := by
      rw [hinv'.size] at hj
      rw [hinv.size]
      exact hj
    obtain ⟨hy, -, -⟩ := (mem_applyUbatch hinv.cellsWF hfit.fillable hj').mp ⟨hmem, rfl⟩
    rcases placed_cases ub hfit.ok.nodup (p.seqToStream dest) j
      ((kv.vCells (p.seqToStream dest)).cell j) with ⟨u, hu, heq, -⟩ | ⟨-, hval⟩
    · obtain ⟨h1, h2⟩ := mem_tokens.mp hu
      have hu0 : u = (0, u.2) := Prod.ext (by omega) rfl
      rw [hu0] at heq
      exact ⟨u.2, hrow.size_eq ▸ h2, congrArg Prod.snd heq⟩
    · rw [hval] at hy
      exact absurd hy (hno _ j hj')
  · rintro ⟨i, hi, rfl⟩
    have hseq : c'.seq (si.idx 0 i) = _ := congrArg Cell.seq (hcell i hi)
    rw [hseq]
    simp [tokenCell, hf.seqs i hi]

/-- The destination lost the sequence, and a slot was found for the saved cells. -/
structure Received (p : KvParams) (src dst : KvCache) (t : ℕ) (cells : List ℕ) (dest : ℤ)
    (ub : UBatch) (si : SlotInfo) (kv : KvCache) : Prop where
  seqOk : p.SeqOk dest
  removed : Removed p dst dest kv
  filled : Filled src t cells dest cells.length ub
  ne : cells ≠ []
  pos : ∀ c ∈ cells, 0 ≤ (src.vCells t).pos c ∧ (src.vCells t).pos c < posLimit
  slot : kv.findSlot ub false = some si

variable {dst : KvCache}

lemma Received.fitting (hr : Received p src dst t cells dest ub si kv) :
    kv.Fitting si ub ∧ Inv p (kv.applyUbatch si ub) ∧ RowSlot si cells.length p.kvSize ∧
      si.strm = [p.seqToStream dest] :=
  hr.filled.fitting hr.ne hr.pos hr.removed.inv hr.seqOk hr.slot

lemma Received.placed (hr : Received p src dst t cells dest ub si kv) :
    let c' := (kv.applyUbatch si ub).vCells (p.seqToStream dest)
    (∀ i < cells.length, c'.cell (si.idx 0 i) =
      tokenCell ub i ((kv.vCells (p.seqToStream dest)).cell (si.idx 0 i))) ∧
      ∀ j < c'.size, dest ∈ c'.seq j ↔ ∃ i < cells.length, si.idx 0 i = j :=
  hr.filled.placed hr.ne hr.pos hr.removed.inv hr.seqOk hr.slot
    fun t _ hj => hr.removed.notMem (hr.removed.size t ▸ hj)

/-- The configuration and the sizes are those of the source. -/
lemma Received.sizes (hr : Received p src dst t cells dest ub si kv) (hsrc : Inv p src) :
    (kv.applyUbatch si ub).prm = src.prm ∧
      (∀ u, ((kv.applyUbatch si ub).vCells u).size = (src.vCells t).size) ∧
      RowSlot si cells.length (src.vCells t).size := by
  obtain ⟨-, hinv, hrow, -⟩ := hr.fitting
  exact ⟨hinv.prm.trans hsrc.prm.symm, fun u => by rw [hinv.size, hsrc.size],
    by rw [hsrc.size]; exact hrow⟩

end Placement

/-! ## `state_write` of one sequence -/

/-- What a cell stores: its position, its extent when cells carry one, and its rows. -/
structure Entry where
  pos : ℤ
  ext : Option KvCellExt
  k : List (List UInt8)
  v : List (List UInt8)
  deriving DecidableEq

/-- The entry of a cell. -/
def entry (kv : KvCache) (strm i : ℕ) : Entry where
  pos := (kv.vCells strm).pos i
  ext := if 1 < kv.prm.nPosPerEmbd then some ((kv.vCells strm).ext i) else none
  k := kv.kRows strm i
  v := kv.vRows strm i

/-- The entries of a sequence. -/
def seqEntries (kv : KvCache) (s : ℤ) : List Entry :=
  ((List.range (kv.cellsOf s).size).filter fun i => s ∈ (kv.cellsOf s).seq i).map
    (kv.entry (kv.prm.seqToStream s))

/-- The entries that `state_write` saves of a sequence. -/
def savedEntries (kv : KvCache) (s : ℤ) : List Entry :=
  (kv.savedCells (kv.prm.seqToStream s) s).map (kv.entry (kv.prm.seqToStream s))

lemma mem_savedCells {strm i : ℕ} (hs : s ≠ -1) (h : i ∈ kv.savedCells strm s) :
    i < (kv.vCells strm).size ∧ s ∈ (kv.vCells strm).seq i := by
  obtain ⟨h1, h2⟩ := List.mem_filter.mp h
  refine ⟨List.mem_range.mp h1, ?_⟩
  simp only [savesCell, hs, Bool.and_eq_true] at h2
  simpa [KvCells.seqHas] using h2.1.2

/-- The ranges of the saved cells. -/
def savedRanges (kv : KvCache) (strm : ℕ) (s : ℤ) : List (ℕ × ℕ) :=
  (cellRanges (kv.savesCell strm s) (kv.vCells strm).size).2

lemma stateWriteMeta_eq (kv : KvCache) (strm : ℕ) (s : ℤ) :
    kv.stateWriteMeta strm (kv.savedRanges strm s) s =
      (kv.savedCells strm s).flatMap (kv.writeCell strm s) := by
  obtain ⟨h, -⟩ := cellRanges_spec (kv.savesCell strm s) (kv.vCells strm).size
  rw [savedCells, ← h, flatMap_assoc]
  rfl

lemma stateWriteStream_eq (kv : KvCache) (s : ℤ) (strm : ℕ) :
    kv.stateWriteStream s strm = Bytes.ofNat 4 (kv.savedCells strm s).length ++
      if (kv.savedCells strm s).length = 0 then []
      else (kv.savedCells strm s).flatMap (kv.writeCell strm s) ++
        kv.stateWriteData strm (kv.savedRanges strm s) := by
  obtain ⟨-, h⟩ := cellRanges_spec (kv.savesCell strm s) (kv.vCells strm).size
  rw [← stateWriteMeta_eq, savedCells, ← h]
  rfl

/-- Other streams than that of the sequence have nothing to save. -/
lemma savedCells_of_ne (hhome : kv.Homed) (hs : s ≠ -1) {t : ℕ} (ht : t ≠ kv.prm.seqToStream s) :
    kv.savedCells t s = [] := by
  refine eq_nil_iff_forall_not_mem.mpr fun i hi => ?_
  obtain ⟨hlt, hmem⟩ := mem_savedCells hs hi
  exact ht (hhome t i hlt s hmem).symm

lemma length_savedCells_le (kv : KvCache) (strm : ℕ) (s : ℤ) :
    (kv.savedCells strm s).length ≤ (kv.vCells strm).size := by
  have h := length_filter_le (kv.savesCell strm s) (range (kv.vCells strm).size)
  simpa [savedCells] using h

/-! ## `state_read` of one sequence -/

/-- The ubatch that `state_read_meta` starts from. -/
def restoreUbatch (p : KvParams) (n : ℕ) (dest : ℤ) : UBatch :=
  { UBatch.reserve p.nPosPerEmbd n 1 with seqIdUnq := [dest] }

/-- A search depends only on the number of tokens and the sequences. -/
lemma findSlot_congr {ub ub' : UBatch} (h1 : ub'.nTokens = ub.nTokens)
    (h2 : ub'.nSeqsUnq = ub.nSeqsUnq) (h3 : ub'.seqIdUnq = ub.seqIdUnq) (cont : Bool) :
    kv.findSlot ub' cont = kv.findSlot ub cont := by
  simp only [findSlot, slotSeqs, slotTokens, h1, h2, h3]

/-- Both caches are consistent, keep each sequence in its stream and have the same
configuration, whose values fit their types. -/
structure Pair (p : KvParams) (src dst : KvCache) : Prop where
  sized : p.Sized
  src_inv : Inv p src
  src_homed : src.Homed
  src_ext : src.ExtSized
  dst_inv : Inv p dst
  dst_homed : dst.Homed

section Restore

variable {p : KvParams} {src dst kv : KvCache} {s dest : ℤ} {t : ℕ} {cells : List ℕ} {ub : UBatch}
  {si : SlotInfo}

lemma Pair.saved_pos (h : Pair p src dst) {c : ℕ} (hs : s ≠ -1) (hc : c ∈ src.savedCells t s) :
    s ∈ (src.vCells t).seq c ∧ 0 ≤ (src.vCells t).pos c ∧ (src.vCells t).pos c < posLimit := by
  obtain ⟨hlt, hmem⟩ := mem_savedCells hs hc
  exact ⟨hmem, (h.src_inv.cellsWF t).pos_nonneg hlt hmem, h.src_inv.pos_lt t c hlt s hmem⟩

/-- The part of a stream with saved cells: the records, and then the rows. -/
lemma reads_stateReadStream {kv1 kv2 : KvCache} {d : ℤ} {k strm n : ℕ}
    {records data : List UInt8} (hn : n ≠ 0) (hlt : n < 2 ^ 32)
    (hstrm : (if d = -1 then k else kv.prm.seqToStream d) = strm)
    (hmeta : Reads (stateReadMeta strm n d) kv records (some si) kv1)
    (hdata : Reads (stateReadData strm n si) kv1 data true kv2) :
    Reads (stateReadStream d k) kv (Bytes.ofNat 4 n ++ (records ++ data)) () kv2 := by
  subst hstrm
  refine (reads_readU32 hlt kv).bind ?_
  rw [if_neg hn]
  refine (reads_get kv).bind_nil ?_
  refine hmeta.bind ?_
  rw [← append_nil data]
  exact (hdata.catchAll false).bind (Reader.reads_pure () kv2)

/-- The records of the saved cells: the destination loses the sequence, and the saved cells
are placed in the slot found then. -/
lemma reads_readMetaSeq (h : Pair p src dst) (hs : p.SeqOk s) (hlt : s < p.nSeqMax)
    (hdest : p.SeqOk dest) (hcells : src.savedCells t s = cells)
    (hne : cells ≠ []) (hkv : dst.seqRm dest (-1) (-1) = kv)
    (hroom : kv.findSlot (restoreUbatch p cells.length dest) false = some si) :
    ∃ ub, Received p src dst t cells dest ub si kv ∧
      Reads (readMetaSeq (p.seqToStream dest) cells.length dest) dst
        (cells.flatMap (src.writeCell t s)) (some si) (kv.applyUbatch si ub) := by
  have hs1 : s ≠ -1 := by have := hs.1; omega
  have hsrc : src.prm = p := h.src_inv.prm
  have hrem : Removed p dst dest kv := hkv ▸ removed_seqRm h.dst_inv h.dst_homed hdest.1
  have hsaved : ∀ c ∈ cells, s ∈ (src.vCells t).seq c ∧ 0 ≤ (src.vCells t).pos c ∧
      (src.vCells t).pos c < posLimit := fun c hc => h.saved_pos hs1 (hcells ▸ hc)
  have hints : ∀ c ∈ cells, s ∈ (src.vCells t).seq c ∧ Bytes.IsInt32 ((src.vCells t).pos c) := by
    intro c hc
    obtain ⟨hmem, h1, h2⟩ := hsaved c hc
    unfold posLimit at h2
    exact ⟨hmem, by omega, by omega⟩
  have hfill : Filled src t cells dest 0 (restoreUbatch p cells.length dest) := by
    refine ⟨by simp [restoreUbatch, UBatch.reserve], rfl, rfl, ?_, ?_, ?_, ?_⟩
    · rw [hsrc]
      rfl
    · intro j hj; omega
    · intro j hj; omega
    · intro _ j hj; omega
  have hrange := hs.lt_maxSeq
  unfold maxSeq at hrange
  obtain ⟨ub, hreads, hf⟩ := reads_readSeqCells hs.1 (hsrc ▸ hlt) (by omega) hints h.src_ext kv
    cells.length 0 _ (by omega) hfill
  have hsi : kv.findSlot ub false = some si := by
    rw [← hroom]
    refine findSlot_congr ?_ hf.nSeqsUnq hf.seqIdUnq false
    rw [hf.nTokens]
    simp [restoreUbatch, UBatch.reserve]
  have hr : Received p src dst t cells dest ub si kv :=
    ⟨hdest, hrem, hf, hne, fun c hc => (hsaved c hc).2, hsi⟩
  refine ⟨ub, hr, ?_⟩
  obtain ⟨hfit, hinv, hrow, hstrm⟩ := hr.fitting
  obtain ⟨hcell, hmem⟩ := hr.placed
  have hone : si.nStream = 1 := by rw [SlotInfo.nStream, hstrm, length_singleton]
  have hlen := hfit.ok.length 0 (by omega)
  refine (reads_modify _ dst).bind_nil ?_
  rw [hkv]
  refine (reads_get kv).bind_nil ?_
  simp only [hrem.inv.prm, hsrc] at hreads ⊢
  rw [← append_nil (cells.flatMap _)]
  refine hreads.bind ?_
  simp only [hsi]
  refine (reads_require hone _).bind_nil ?_
  refine (reads_require (hlen.trans hrow.size_eq) _).bind_nil ?_
  refine (reads_require ?_ _).bind_nil (Reader.reads_pure _ _)
  intro i hi
  have hlt : si.idx 0 i < ((kv.applyUbatch si ub).vCells (p.seqToStream dest)).size := by
    rw [hinv.size]
    exact hrow.lt i hi
  refine ⟨congrArg Cell.pos (hcell i hi), ?_⟩
  simpa [KvCells.seqHas] using (hmem _ hlt).mpr ⟨i, hi, rfl⟩

/-- **The part of the stream** of the sequence: its cells are placed and then receive the
saved rows. -/
theorem reads_seqStream (h : Pair p src dst) (hs : p.SeqOk s) (hlt : s < p.nSeqMax)
    (hdest : p.SeqOk dest) (hcells : src.savedCells t s = cells)
    (hne : cells ≠ []) (hkv : dst.seqRm dest (-1) (-1) = kv)
    (hroom : kv.findSlot (restoreUbatch p cells.length dest) false = some si)
    (hwrite : src.WriteFits t (src.savedRanges t s)) (hread : ReadFits p p.kvSize) (k : ℕ) :
    ∃ ub, Received p src dst t cells dest ub si kv ∧
      Reads (stateReadStream dest k) dst (src.stateWriteStream s t) ()
        ((kv.applyUbatch si ub).withRows (p.seqToStream dest) si src t cells) := by
  obtain ⟨ub, hr, hmeta⟩ := reads_readMetaSeq h hs hlt hdest hcells hne hkv hroom
  refine ⟨ub, hr, ?_⟩
  have hd1 : dest ≠ -1 := by have := hdest.1; omega
  obtain ⟨hprm, hsize, hrow⟩ := hr.sizes h.src_inv
  have hle := length_savedCells_le src t s
  have hlen : cells.length ≠ 0 := by simpa [length_eq_zero_iff] using hne
  have hranges : (src.savedRanges t s).flatMap rangeCells = cells :=
    (cellRanges_spec _ _).1.trans hcells
  have hread : ReadFits src.prm (src.vCells t).size := by
    rw [h.src_inv.prm, h.src_inv.size]
    exact hread
  rw [hcells] at hle
  have hdata := reads_stateReadData hranges hprm (hsize (p.seqToStream dest))
    (h.src_inv.prm.symm ▸ h.sized) hrow hle hwrite hread
  rw [h.src_inv.size] at hle
  rw [stateWriteStream_eq, hcells, if_neg hlen]
  refine reads_stateReadStream hlen (hle.trans_lt h.sized.kvSize) ?_ ?_ hdata
  · rw [if_neg hd1, h.dst_inv.prm]
  · rw [stateReadMeta, if_pos hd1]
    exact hmeta

/-- A stream without saved cells is only a count. -/
lemma reads_emptyStream (hnil : src.savedCells t s = []) (k : ℕ) :
    Reads (stateReadStream dest k) kv (src.stateWriteStream s t) () kv := by
  rw [stateWriteStream_eq, hnil]
  exact (reads_readU32 (by norm_num) kv).bind (Reader.reads_pure () kv)

/-- The whole input: only the stream of the sequence changes the cache. -/
lemma reads_stateRead (h : Pair p src dst) (hs : p.SeqOk s) (hdest : p.SeqOk dest)
    (hstream : Reads (stateReadStream dest (p.seqToStream s)) dst
      (src.stateWriteStream s (p.seqToStream s)) () kv') :
    Reads (stateRead dest) dst (src.stateWrite s) () kv' := by
  have hs1 : s ≠ -1 := by have := hs.1; omega
  have hsrc : src.prm = p := h.src_inv.prm
  have hloop : Reads (.forEach (stateReadStream dest) (.range p.nStream)) dst
      ((List.range p.nStream).flatMap (src.stateWriteStream s)) () kv' := by
    have hrounds := Reader.reads_forEach (l := .range p.nStream)
      (S := fun k => if k ≤ p.seqToStream s then dst else kv') (w := src.stateWriteStream s)
      fun k hk => (?_ : Reads (stateReadStream dest (List.range p.nStream)[k]) _ _ () _)
    · have hlt := KvParams.SeqOk.stream_lt hs
      simpa [not_le.mpr hlt] using hrounds
    · rw [List.getElem_range]
      by_cases hk' : k = p.seqToStream s
      · subst hk'
        simpa using hstream
      · have hnil := savedCells_of_ne h.src_homed hs1 (t := k) (by rw [hsrc]; exact hk')
        by_cases hle : k ≤ p.seqToStream s
        · rw [if_pos hle, if_pos (by omega)]
          exact reads_emptyStream hnil k
        · rw [if_neg hle, if_neg (by omega)]
          exact reads_emptyStream hnil k
  rw [stateWrite, hsrc]
  refine (reads_require (.inr (h.dst_inv.prm ▸ hdest)) dst).bind_nil ?_
  rw [h.dst_inv.prm]
  refine (reads_readU32 ?_ dst).bind ?_
  · have hle := p.nStream_le
    unfold maxSeq at hle
    omega
  · rw [if_neg (not_not.mpr rfl)]
    exact hloop

/-- The cells of the slot hold what the saved cells hold. -/
lemma restored_entry (h : Pair p src dst) (hr : Received p src dst t cells dest ub si kv) {i : ℕ}
    (hi : i < cells.length) :
    ((kv.applyUbatch si ub).withRows (p.seqToStream dest) si src t cells).entry
      (p.seqToStream dest) (si.idx 0 i) = src.entry t (cells.getD i 0) := by
  obtain ⟨hprm, hsize, hrow⟩ := hr.sizes h.src_inv
  have hc := hr.placed.1 i hi
  have hf := hr.filled
  simp only [entry, withRows_prm, hprm, Entry.mk.injEq]
  refine ⟨(congrArg Cell.pos hc).trans (hf.pos i hi), ?_,
    kRows_withRows (p.seqToStream dest) hprm hrow hi, vRows_withRows hprm (hsize _) hrow hi⟩
  by_cases hn : 1 < src.prm.nPosPerEmbd
  · rw [if_pos hn, if_pos hn, Option.some.injEq]
    have h2d : ub.isPos2d = true := by
      rw [UBatch.isPos2d, hf.nPos]
      unfold KvParams.nPosPerEmbd at hn ⊢
      split at hn <;> simp_all
    refine (congrArg Cell.ext hc).trans ?_
    rw [tokenCell, if_pos h2d]
    exact hf.ext hn i hi
  · rw [if_neg hn, if_neg hn]

/-- What a restored sequence is: the destination's sequence holds exactly the saved entries,
and another sequence keeps each entry that is not masked at its next position. -/
structure Restored (src dst : KvCache) (s dest : ℤ) (kv' : KvCache) : Prop where
  entries : (kv'.seqEntries dest).Perm (src.savedEntries s)
  others : ∀ u ≠ dest, ∀ t, ∀ j < (dst.vCells t).size, u ∈ (dst.vCells t).seq j →
    (u ∈ (kv'.vCells t).seq j ∧ kv'.entry t j = dst.entry t j) ∨
      isMaskedSwa dst.prm.nSwa dst.prm.swaType ((dst.vCells t).pos j) (dst.seqPosMax u + 1) = true

/-- The rows of a cell are those of the tensors. -/
lemma rows_congr (hprm : kv'.prm = kv.prm) (hk : kv'.kStream = kv.kStream)
    (hv : kv'.vStream = kv.vStream) (hsize : (kv'.vCells t).size = (kv.vCells t).size) (j : ℕ) :
    kv'.kRows t j = kv.kRows t j ∧ kv'.vRows t j = kv.vRows t j := by
  have hrow : kv'.vRow t j = kv.vRow t j := by
    funext l
    simp only [vRow, hprm, hv, hsize]
  exact ⟨by rw [kRows, kRows, hprm, hk], by rw [vRows, vRows, hrow, hprm]⟩

/-- The entries of the destination's sequence are the saved ones. -/
lemma entries_withRows (h : Pair p src dst) (hr : Received p src dst t cells dest ub si kv) :
    (((kv.applyUbatch si ub).withRows (p.seqToStream dest) si src t cells).seqEntries dest).Perm
      (cells.map (src.entry t)) := by
  obtain ⟨-, hinv, hrow, -⟩ := hr.fitting
  obtain ⟨-, hmem⟩ := hr.placed
  have hperm : ((List.range ((kv.applyUbatch si ub).vCells (p.seqToStream dest)).size).filter
      fun j => dest ∈ ((kv.applyUbatch si ub).vCells (p.seqToStream dest)).seq j).Perm
      ((List.range cells.length).map (si.idx 0)) := by
    refine (List.perm_ext_iff_of_nodup (List.nodup_range.filter _) hrow.nodup).mpr fun j => ?_
    simp only [List.mem_filter, List.mem_range, List.mem_map, decide_eq_true_eq]
    constructor
    · rintro ⟨hj, hd⟩
      exact (hmem j hj).mp hd
    · rintro ⟨i, hi, rfl⟩
      have hlt : si.idx 0 i < ((kv.applyUbatch si ub).vCells (p.seqToStream dest)).size := by
        rw [hinv.size]
        exact hrow.lt i hi
      exact ⟨hlt, (hmem _ hlt).mpr ⟨i, hi, rfl⟩⟩
  have hprm : (kv.applyUbatch si ub).prm = p := hinv.prm
  simp only [seqEntries, withRows_prm, hprm, cellsOf]
  refine (hperm.map _).trans ?_
  rw [List.map_map]
  refine List.Perm.of_eq (List.ext_getElem (by simp) fun i h1 h2 => ?_)
  have hi : i < cells.length := by simpa using h1
  rw [List.getElem_map, List.getElem_range, List.getElem_map]
  exact (restored_entry h hr hi).trans (by rw [List.getD_eq_getElem _ _ hi])

lemma restored_withRows (h : Pair p src dst) (ht : p.seqToStream s = t)
    (hcells : src.savedCells t s = cells) (hr : Received p src dst t cells dest ub si kv) :
    Restored src dst s dest
      ((kv.applyUbatch si ub).withRows (p.seqToStream dest) si src t cells) := by
  have hrem := hr.removed
  obtain ⟨hfit, hinv, hrow, hstrm⟩ := hr.fitting
  obtain ⟨hprm, hsize, hrow'⟩ := hr.sizes h.src_inv
  refine ⟨?_, fun u hu t' j hj hmemu => ?_⟩
  · rw [savedEntries, h.src_inv.prm, ht, hcells]
    exact entries_withRows h hr
  · obtain ⟨hiff, hsame⟩ := hrem.other hu hj
    obtain ⟨hp, he, -⟩ := hsame hmemu
    have hj1 : j < (kv.vCells t').size := by rw [hrem.size]; exact hj
    rcases kept_applyUbatch hrem.inv.cellsWF hrem.homed hfit hj1 (hiff.mpr hmemu) with
      ⟨hout, hkeep, hpos', hext', -⟩ | hmask
    · left
      have hslot : t' = p.seqToStream dest → ∀ i < cells.length, si.idx 0 i ≠ j := by
        rintro rfl i hi rfl
        refine hout ⟨(0, i), (mem_tokens.mpr ⟨?_, ?_⟩), ?_⟩
        · rw [SlotInfo.nStream, hstrm]
          exact Nat.one_pos
        · rw [hrow.size_eq]
          exact hi
        · simp [slotOf, hstrm]
      refine ⟨hkeep, ?_⟩
      have hlt : j < (src.vCells t).size := by
        rw [h.src_inv.size, ← h.dst_inv.size t']
        exact hj
      have happ := applyUbatch_spec hrem.inv.cellsWF hfit.toks hfit.ok.nodup hfit.ok.last_le
      obtain ⟨hk, hv⟩ := rows_congr (hinv.prm.trans h.dst_inv.prm.symm)
        (happ.kStream.trans hrem.kStream) (happ.vStream.trans hrem.vStream)
        (t := t') (by rw [hinv.size, h.dst_inv.size]) j
      have hprm' : (kv.applyUbatch si ub).prm = dst.prm := hinv.prm.trans h.dst_inv.prm.symm
      simp only [entry, withRows_prm, withRows_vCells, hprm', hpos', hp, hext', he,
        kRows_withRows_of_ne hslot, vRows_withRows_of_ne hprm hsize hrow' hlt hslot, hk, hv]
    · right
      rw [hp, hrem.seqPosMax h.dst_inv hu, hrem.inv.prm, ← h.dst_inv.prm] at hmask
      exact hmask

/-- A sequence that `state_write` does not name in its records cannot be restored. -/
lemma throws_seqStream (h : Pair p src dst) (hs : p.SeqOk s) (hge : (p.nSeqMax : ℤ) ≤ s)
    (hdest : p.SeqOk dest) (hne : src.savedCells (p.seqToStream s) s ≠ []) (k : ℕ) :
    Reader.Throws (stateReadStream dest k) dst (src.stateWriteStream s (p.seqToStream s)) := by
  have hd1 : dest ≠ -1 := by have := hdest.1; omega
  have hle := length_savedCells_le src (p.seqToStream s) s
  rw [h.src_inv.size] at hle
  have hlen : (src.savedCells (p.seqToStream s) s).length ≠ 0 := by
    simpa [List.length_eq_zero_iff] using hne
  rw [stateWriteStream_eq, if_neg hlen]
  obtain ⟨c, cs, hcs⟩ := List.exists_cons_of_ne_nil hne
  have hseqs : src.savedSeqs (p.seqToStream s) s c = [] :=
    savedSeqs_of_ge _ c hs.1 (h.src_inv.prm ▸ hge)
  have hmeta : Reads (stateReadMeta (p.seqToStream dest)
      (src.savedCells (p.seqToStream s) s).length dest) dst
      (Bytes.ofInt32 ((src.vCells (p.seqToStream s)).pos c) ++ Bytes.ofNat 4 0) none
      (dst.seqRm dest (-1) (-1)) := by
    rw [stateReadMeta, if_pos hd1]
    rw [hcs]
    exact Reader.reads_pure none _
  have hbytes : ∃ rest, (src.savedCells (p.seqToStream s) s).flatMap
        (src.writeCell (p.seqToStream s) s) ++
        src.stateWriteData (p.seqToStream s) (src.savedRanges (p.seqToStream s) s) =
      (Bytes.ofInt32 ((src.vCells (p.seqToStream s)).pos c) ++ Bytes.ofNat 4 0) ++ rest := by
    rw [hcs, List.flatMap_cons, writeCell, hseqs]
    exact ⟨_, by simp only [List.append_assoc]; rfl⟩
  obtain ⟨rest, hrest⟩ := hbytes
  rw [hrest]
  refine (reads_readU32 (hle.trans_lt h.sized.kvSize) dst).bind_throws ?_
  rw [if_neg hlen]
  refine (reads_get dst).bind_nil_throws ?_
  simp only [if_neg hd1, h.dst_inv.prm]
  refine hmeta.bind_throws ?_
  refine (Reader.Throws.append ?_ rest : Reader.Throws _ _ ([] ++ rest))
  refine (Reader.reads_pure false _).bind_nil_throws ?_
  exact (reads_modify (discard dest) _).bind_nil_throws (throws_throw _)

lemma throws_stateRead (h : Pair p src dst) (hs : p.SeqOk s) (hge : (p.nSeqMax : ℤ) ≤ s)
    (hdest : p.SeqOk dest) (hne : src.savedCells (p.seqToStream s) s ≠ []) :
    Reader.Throws (stateRead dest) dst (src.stateWrite s) := by
  have hs1 : s ≠ -1 := by have := hs.1; omega
  have hsrc : src.prm = p := h.src_inv.prm
  have hstream := KvParams.SeqOk.stream_lt hs
  have hsplit : .range p.nStream = .range (p.seqToStream s) ++
      p.seqToStream s :: .range' (p.seqToStream s + 1) (p.nStream - (p.seqToStream s + 1)) := by
    have hn : p.nStream = p.seqToStream s + (p.nStream - (p.seqToStream s + 1) + 1) := by omega
    have happ := @List.range'_append_1 0 (p.seqToStream s)
    rw [zero_add] at happ
    rw [← List.range'_succ, List.range_eq_range', List.range_eq_range', happ, ← hn]
  have hloop := throws_forEach
    (.range' (p.seqToStream s + 1) (p.nStream - (p.seqToStream s + 1)))
    (l := .range (p.seqToStream s)) (S := fun _ => dst) (w := src.stateWriteStream s)
    (fun k hk => by
      rw [List.getElem_range]
      have hne : k ≠ p.seqToStream s := by
        rw [List.length_range] at hk
        omega
      exact reads_emptyStream (savedCells_of_ne h.src_homed hs1 (by rw [hsrc]; exact hne)) k)
    (throws_seqStream h hs hge hdest hne (p.seqToStream s))
  rw [stateWrite, hsrc]
  refine (reads_require (.inr (h.dst_inv.prm ▸ hdest)) dst).bind_nil_throws ?_
  rw [h.dst_inv.prm]
  refine (reads_readU32 ?_ dst).bind_throws ?_
  · have hle := p.nStream_le
    unfold maxSeq at hle
    omega
  · rw [if_neg (not_not.mpr rfl), hsplit, List.flatMap_append, List.flatMap_cons,
      ← List.append_assoc]
    exact hloop.append _

end Restore

/-- The unified cache for two sequences after a token of sequence 0. -/
def oneStored : KvCache := Run.exec run (new twoCells) [.place oneUbatch]

lemma pair_oneStored : Pair twoCells oneStored (new twoCells) := by
  obtain ⟨hinv, hhome⟩ := inv_homed_exec twoCells [.place oneUbatch]
    ⟨⟨asserts_oneUbatch, by
      change ∀ i < oneUbatch.nTokens, 0 ≤ oneUbatch.pos i ∧ oneUbatch.pos i < posLimit ∧
        (oneUbatch.seqs i).Nodup
      decide +kernel, homedUbatch_of_one (by decide) _⟩, trivial⟩
  refine ⟨⟨by decide, by decide, by simp [twoCells]⟩, hinv, hhome, ?_, inv_new _, homed_new _⟩
  intro hn
  exact absurd (hinv.prm ▸ hn) (by decide)

lemma savedCells_oneStored : oneStored.savedCells (twoCells.seqToStream 0) 0 = [0] := by
  decide +kernel

lemma findSlot_oneStored :
    ((new twoCells).seqRm 1 (-1) (-1)).findSlot (restoreUbatch twoCells [0].length 1) false =
      some ⟨0, 0, [0], [[0]]⟩ := by
  decide +kernel

end Llama.KvCache
