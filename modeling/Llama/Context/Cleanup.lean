import Llama.Batch.Order
import Llama.KvCache.Rerun

/-!
# The clean-up after a failed ubatch

`init_batch` cuts a batch into ubatches and finds their slots.  `decode` fills the slot of an
ubatch and computes the ubatch, one after the other.  When the computation fails the slot is
filled already, and `decode` removes from the cache what the ubatch brought: for the first
sequence of each token, every position from the smallest one of these tokens on.

The other sequences of a token are not looked at, and positions that were in the cache before
are removed with those of the ubatch if they are not below them.  What the slot took from other
sequences is not given back.
-/

namespace Llama

open List Finset BatchAllocr

/-- `llama_kv_cache_context`: the ubatches of a batch and their slots, with the cache as
`init_batch` leaves it. -/
structure KvCacheContext where
  kv : KvCache
  sinfos : List SlotInfo
  ubatches : List UBatch

namespace KvCache

/-- The bounds of the sequences, as `init` asks for them. -/
def memoryPos (kv : KvCache) : MemoryPos := ⟨kv.seqPosMin, kv.seqPosMax⟩

/-- How `init_batch` splits a batch: a single stream takes the tokens in order. -/
def splitStrategy (p : KvParams) (nUbatch : ℕ) : BatchAllocr.Strategy :=
  if p.nStream = 1 then .simple nUbatch else .equal nUbatch true 0

/-- `n_used` after the calls of a strategy that started with no token used. -/
def usedAfter (steps : List (UBatch × BatchAllocr)) : ℕ :=
  match steps.getLast? with
  | none => 0
  | some (_, a) => a.nUsed

/-- `init_batch`; `none` stands for a context with a failure status. -/
def initBatch (kv : KvCache) (a : BatchAllocr) (nUbatch : ℕ) : Option KvCacheContext :=
  match BatchAllocr.drain (splitStrategy kv.prm nUbatch) (a.batch.nTokens + 1) a.splitReset with
  | none => none
  | some steps =>
    if usedAfter steps < a.batch.nTokens then none
    else
      let ubatches := steps.map Prod.fst
      let (kv, sinfos) := kv.prepare ubatches
      if sinfos = [] then none else some ⟨kv, sinfos, ubatches⟩

/-! ## The clean-up -/

/-- `pos_min`: for each sequence, the smallest position of the tokens that list it first. -/
def posMin (ub : UBatch) : ℤ → ℤ :=
  (List.range ub.nTokens).foldl
    (fun posMin i =>
      Function.update posMin (ub.seqId i 0) (min (posMin (ub.seqId i 0)) (ub.pos i)))
    fun _ => posLimit

/-- The body of the loop over the sequences. -/
def removeSeq (posMin : ℤ → ℤ) (kv : KvCache) (s : ℤ) : KvCache :=
  if posMin s = posLimit then kv else kv.seqRm s (posMin s) (-1)

/-- The clean-up: remove all positions of the ubatch. -/
def removeUbatch (kv : KvCache) (ub : UBatch) : KvCache :=
  seqIds.foldl (removeSeq (posMin ub)) kv

/-- The clean-up covers the position: a token with `s` as its first sequence is at it or
before it. -/
def Removes (ub : UBatch) (s p : ℤ) : Prop :=
  p < posLimit ∧ ∃ i < ub.nTokens, ub.seqId i 0 = s ∧ ub.pos i ≤ p

end KvCache

namespace KvCacheContext

/-- `get_ubatch` when `k` ubatches are done. -/
def ubatch (c : KvCacheContext) (k : ℕ) : UBatch := c.ubatches.getD k .empty

/-- The slot of this ubatch. -/
def sinfo (c : KvCacheContext) (k : ℕ) : SlotInfo := c.sinfos.getD k ⟨0, 0, [], []⟩

/-- The cache when the slots of the first `k` ubatches are filled. -/
def applied (c : KvCacheContext) (k : ℕ) : KvCache :=
  c.kv.applyAll ((c.sinfos.zip c.ubatches).take k)

/-- The cache when `decode` returns because the computation of ubatch `k` failed. -/
def failed (c : KvCacheContext) (k : ℕ) : KvCache :=
  ((c.applied k).applyUbatch (c.sinfo k) (c.ubatch k)).removeUbatch (c.ubatch k)

/-- What the clean-up is for: no position of the failed ubatch or of a later one is left in a
sequence of the failed ubatch, the positions of the earlier ubatches are as before, and so
are all positions of other sequences. -/
structure CleansUp (c : KvCacheContext) (k : ℕ) : Prop where
  gone : ∀ u ∈ c.ubatches.drop k, ∀ s p, KvCache.Carries u s p →
    (∃ q, KvCache.Carries (c.ubatch k) s q) → ¬ (c.failed k).Present s p
  earlier : ∀ u ∈ c.ubatches.take k, ∀ s p, KvCache.Carries u s p →
    ((c.failed k).Present s p ↔ (c.applied k).Present s p)
  others : ∀ s, (∀ q, ¬ KvCache.Carries (c.ubatch k) s q) → ∀ p,
    ((c.failed k).Present s p ↔ (c.applied k).Present s p)

/-- When the clean-up can do it: every sequence of a token of the failed ubatch is the first
sequence of a token there at its position or before; the earlier ubatches have no position
from there on; and the slot took no cell at the cost of other sequences, or of the positions
of earlier ubatches. -/
structure Undoable (c : KvCacheContext) (k : ℕ) : Prop where
  covered : ∀ s p, KvCache.Carries (c.ubatch k) s p →
    KvCache.Removes (c.ubatch k) s p ∨ (c.applied k).Overwrites (c.sinfo k) s p
  above : ∀ u ∈ c.ubatches.take k, ∀ s p, KvCache.Carries u s p → (c.applied k).Present s p →
    ¬ KvCache.Removes (c.ubatch k) s p ∧ ¬ (c.applied k).Overwrites (c.sinfo k) s p
  spared : ∀ s, (∀ q, ¬ KvCache.Carries (c.ubatch k) s q) → ∀ p, (c.applied k).Present s p →
    ¬ (c.applied k).Overwrites (c.sinfo k) s p

end KvCacheContext

variable {p s : ℤ} {kv : KvCache} {outputAll : Bool}

namespace KvCache

/-- The smallest position is the limit, or that of a token. -/
lemma posMin_le_iff (ub : UBatch) (hp : p < posLimit) :
    posMin ub s ≤ p ↔ ∃ i < ub.nTokens, ub.seqId i 0 = s ∧ ub.pos i ≤ p := by
  unfold posMin
  induction ub.nTokens with
  | zero => simpa using hp
  | succ n ih =>
    rw [range_succ, foldl_append, foldl_cons, foldl_nil]
    have hsplit : (∃ i < n + 1, ub.seqId i 0 = s ∧ ub.pos i ≤ p) ↔
        (∃ i < n, ub.seqId i 0 = s ∧ ub.pos i ≤ p) ∨ (ub.seqId n 0 = s ∧ ub.pos n ≤ p) := by
      simp only [Nat.lt_succ_iff_lt_or_eq, or_and_right, exists_or, exists_eq_left]
    rw [hsplit, ← ih]
    by_cases hs : ub.seqId n 0 = s
    · subst hs
      simp only [Function.update_self, min_le_iff, true_and]
    · rw [Function.update_of_ne (Ne.symm hs)]
      simp only [hs, false_and, or_false]

lemma posMin_nonneg {ub : UBatch} (hpos : ∀ i < ub.nTokens, 0 ≤ ub.pos i) (s : ℤ) :
    0 ≤ posMin ub s := by
  by_contra hneg
  have hlt : posMin ub s < posLimit := (not_le.mp hneg).trans (by decide)
  obtain ⟨i, hi, -, hle⟩ := (posMin_le_iff ub hlt).mp le_rfl
  exact hneg ((hpos i hi).trans hle)

/-- What `seq_rm` of an open range leaves. -/
lemma present_seqRm (hwf : kv.CellsWF) {p0 : ℤ} (hs : 0 ≤ s) (h0 : 0 ≤ p0) {u : ℤ} :
    (kv.seqRm s p0 (-1)).Present u p ↔ kv.Present u p ∧ ¬ (u = s ∧ p0 ≤ p ∧ p < posLimit) := by
  have hsw := (seqRm_spec p0 (-1) (hwf _) hs).all hwf
  have hlow : lowBound p0 = p0 := if_neg (not_lt.mpr h0)
  have hhigh : highBound (-1) = posLimit := rfl
  rw [hlow, hhigh] at hsw
  set kv' := kv.seqRm s p0 (-1) with hkv'
  set t := kv.prm.seqToStream u
  have hcells : kv'.cellsOf u = kv'.vCells t := by rw [cellsOf, hsw.prm]
  have hsize : (kv'.vCells t).size = (kv.vCells t).size := (hsw.sweep t).size_eq
  have hcell : ∀ j < (kv.vCells t).size, (kv'.vCells t).cell j =
      if t = kv.prm.seqToStream s ∧ inRange s p0 posLimit ((kv.vCells t).cell j) then
        ((kv.vCells t).cell j).seqRm s else (kv.vCells t).cell j := by
    intro j hj
    rw [(hsw.sweep t).cell_eq]
    by_cases hts : t = kv.prm.seqToStream s
    · have hj' : j < (kv.cellsOf s).size := by
        rw [cellsOf, ← hts]
        exact hj
      simp only [if_pos hts, hj']
      simp only [hts]
    · simp only [false_and, hts, if_false]
  simp only [Present, hcells, hsize]
  constructor
  · rintro ⟨j, hj, hmem, hpos⟩
    have hc := hcell j hj
    have hu : u ∈ ((kv'.vCells t).cell j).seq := hmem
    have hp : ((kv'.vCells t).cell j).pos = p := hpos
    rw [hc] at hu hp
    split at hu
    · rename_i hin
      rw [if_pos hin, (seqRm_pos hu).2] at hp
      refine ⟨⟨j, hj, (seqRm_pos hu).1, hp⟩, ?_⟩
      rintro ⟨rfl, -⟩
      rw [Cell.seqRm] at hu
      split at hu
      · exact absurd hu (notMem_empty u)
      · exact absurd hu (notMem_erase u _)
    · rename_i hin
      rw [if_neg hin] at hp
      refine ⟨⟨j, hj, hu, hp⟩, ?_⟩
      rintro ⟨rfl, hle, hlt⟩
      exact hin ⟨rfl, ⟨hp.symm ▸ hle, hp.symm ▸ hlt⟩, hu⟩
  · rintro ⟨⟨j, hj, hmem, hpos⟩, hno⟩
    have hc := hcell j hj
    have hgoal : u ∈ ((kv'.vCells t).cell j).seq ∧ ((kv'.vCells t).cell j).pos = p := by
      rw [hc]
      split
      · rename_i hin
        have hne : u ≠ s := by
          rintro rfl
          refine hno ⟨rfl, ?_, ?_⟩
          · rw [← hpos]
            exact hin.2.1.1
          · rw [← hpos]
            exact hin.2.1.2
        have hmem' : u ∈ ((kv.vCells t).cell j).seq.erase s := mem_erase.mpr ⟨hne, hmem⟩
        have hne' : ((kv.vCells t).cell j).seq.erase s ≠ ∅ := ne_empty_of_mem hmem'
        rw [Cell.seqRm, if_neg hne']
        exact ⟨hmem', hpos⟩
      · exact ⟨hmem, hpos⟩
    exact ⟨j, hj, hgoal⟩

/-- The clean-up of the sequences `l`. -/
lemma present_removeSeqs {posMin : ℤ → ℤ} (h0 : ∀ s, 0 ≤ posMin s) :
    ∀ (l : List ℤ) {kv : KvCache}, kv.CellsWF → (∀ s ∈ l, 0 ≤ s) →
      ∀ {u p : ℤ}, (l.foldl (removeSeq posMin) kv).Present u p ↔
        kv.Present u p ∧ ¬ (u ∈ l ∧ posMin u ≠ posLimit ∧ posMin u ≤ p ∧ p < posLimit) := by
  intro l
  induction l with
  | nil => simp
  | cons s l ih =>
    intro kv hwf hl u p
    have hs := hl s List.mem_cons_self
    have hl' : ∀ u ∈ l, 0 ≤ u := fun u hu => hl u (List.mem_cons_of_mem _ hu)
    rw [List.foldl_cons]
    by_cases hmin : posMin s = posLimit
    · rw [removeSeq, if_pos hmin, ih hwf hl']
      refine and_congr_right fun _ => not_congr ?_
      rw [List.mem_cons]
      constructor
      · exact fun h => ⟨.inr h.1, h.2⟩
      · rintro ⟨rfl | hu, hrest⟩
        · exact absurd hmin hrest.1
        · exact ⟨hu, hrest⟩
    · have hwf' : (kv.seqRm s (posMin s) (-1)).CellsWF :=
        ((seqRm_spec (posMin s) (-1) (hwf _) hs).all hwf).cellsWF
      rw [removeSeq, if_neg hmin, ih hwf' hl', present_seqRm hwf hs (h0 s), and_assoc, ← not_or]
      refine and_congr_right fun _ => not_congr ?_
      rw [List.mem_cons]
      constructor
      · rintro (⟨rfl, hrest⟩ | ⟨hu, hrest⟩)
        · exact ⟨.inl rfl, hmin, hrest⟩
        · exact ⟨.inr hu, hrest⟩
      · rintro ⟨rfl | hu, hrest⟩
        · exact .inl ⟨rfl, hrest.2⟩
        · exact .inr ⟨hu, hrest⟩

/-- **The clean-up** removes the positions it covers. -/
theorem present_removeUbatch (hwf : kv.CellsWF) {ub : UBatch}
    (hpos : ∀ i < ub.nTokens, 0 ≤ ub.pos i)
    (hids : ∀ i < ub.nTokens, 0 ≤ ub.seqId i 0 ∧ ub.seqId i 0 < maxSeq) :
    (kv.removeUbatch ub).Present s p ↔ kv.Present s p ∧ ¬ Removes ub s p := by
  rw [removeUbatch, present_removeSeqs (posMin_nonneg hpos) seqIds hwf
    fun s hs => (mem_seqIds.mp hs).1]
  refine and_congr_right fun _ => not_congr ?_
  constructor
  · rintro ⟨-, -, hle, hlt⟩
    exact ⟨hlt, (posMin_le_iff ub hlt).mp hle⟩
  · rintro ⟨hlt, hex⟩
    have hle := (posMin_le_iff ub hlt).mpr hex
    obtain ⟨i, hi, rfl, -⟩ := hex
    exact ⟨mem_seqIds.mpr (hids i hi), by omega, hle, hlt⟩

end KvCache

/-! ## The ubatches of a batch -/

namespace BatchAllocr

lemma SameBatch.cut {a a' : BatchAllocr} (h : SameBatch a a') {ub : UBatch} (hcut : a'.Cut ub) :
    a.Cut ub := by
  obtain ⟨idxs, nSeqs, eq, hne, hlt, rfl⟩ := hcut
  rw [h.batch] at hlt
  refine ⟨idxs, nSeqs, eq, hne, hlt, ?_⟩
  simp only [ubatchAdd, h.batch, h.nSeqMax, h.nPosPerEmbd, h.nEmbd]

/-- The ubatches of a run are cut from the batch, and in sequential mode they are blocks. -/
lemma drain_cut (st : Strategy) (fuel : ℕ) : ∀ {a : BatchAllocr}
    {steps : List (UBatch × BatchAllocr)}, a.Tables → a.ValidIds → st.Allowed a → st.Inv a →
      drain st fuel a = some steps → ∀ ub ∈ steps.map Prod.fst, a.Cut ub ∧
        ∀ n k, st = .equal n true k → ∃ base m r, Blocks base m r ub := by
  induction fuel with
  | zero => intro a steps _ _ _ _ h; cases h
  | succ fuel ih =>
    intro a steps htab hids hfit hinv h
    rcases st.split_spec htab hfit hinv with ⟨idxs, res, hres, hem, hinv'⟩ | ⟨-, hres⟩
    · obtain ⟨ub, a'⟩ := res
      simp only [drain, hres] at h
      split at h
      · cases h
        exact fun ub hub => absurd hub not_mem_nil
      · rename_i hne
        obtain ⟨steps, hdrain, rfl⟩ := Option.map_eq_some_iff.mp h
        have hsame := hem.emitted.same
        have hids' : a'.ValidIds := by
          have hbatch : a'.batch = a.batch := hsame.batch
          have hmax : a'.nSeqMax = a.nSeqMax := hsame.nSeqMax
          rw [ValidIds, hbatch, hmax]
          exact hids
        have hrest := ih (hsame.tables htab) hids' (hsame.allowed hfit) hinv' hdrain
        intro ub' hub'
        rcases mem_cons.mp hub' with rfl | hub'
        · refine ⟨hem.cut, ?_⟩
          rintro n k rfl
          rcases splitEqual_blocks htab hinv hids (.inr hfit.2.2) hres with
            ⟨hub, -⟩ | ⟨-, -, -, hblocks⟩
          · rw [hub] at hne
            exact absurd rfl hne
          · exact hblocks
        · obtain ⟨hcut, hblocks⟩ := hrest ub' hub'
          exact ⟨hsame.cut hcut, hblocks⟩
    · simp only [drain, hres] at h
      cases h
      exact fun ub hub => absurd hub not_mem_nil

/-- The positions of an accepted batch are not below those in the memory. -/
lemma memory_le_of_init {nPos nVocab nEmbd nSeqMax : ℕ} {inp : LlamaBatch} {m : MemoryPos}
    {a : BatchAllocr} (hmax : 0 < nSeqMax)
    (h : init nPos inp nVocab (some m) nEmbd nSeqMax outputAll = some a) {i : ℕ}
    (hi : i < a.batch.nTokens) (hs : s ∈ a.batch.seqs i) (h0 : 0 ≤ m.seqPosMax s) :
    m.seqPosMax s ≤ a.batch.pos i := by
  have ha := init_eq h
  obtain ⟨hs0, hs1⟩ := validIds_of_init h hmax i hi s hs
  have hsmax : a.nSeqMax = nSeqMax := by rw [ha]; rfl
  have hmem : a.batch.pos i ∈ a.seqPos s := by
    have hval : a.seqPos s = (((List.range a.batch.nTokens).filter fun i =>
        s ∈ a.batch.seqs i).map a.batch.pos).toFinset := by rw [ha]; rfl
    rw [hval, List.mem_toFinset]
    refine List.mem_map.mpr ⟨i, List.mem_filter.mpr ⟨List.mem_range.mpr hi, ?_⟩, rfl⟩
    exact decide_eq_true hs
  have hne : (a.seqPos s).Nonempty := ⟨_, hmem⟩
  have hmin : a.seqPosMin s ≤ a.batch.pos i := by
    rw [seqPosMin, dif_pos hne]
    exact Finset.min'_le _ _ hmem
  have hcons : consistentSeq a (some m) s = true := by
    simp only [init] at h
    split at h
    · rename_i hc
      cases Option.some.inj h
      have hall := List.all_eq_true.mp hc.2.2.2.2.1 s.toNat (List.mem_range.mpr (by omega))
      rwa [Int.toNat_of_nonneg hs0] at hall
    · cases h
  simp only [consistentSeq, if_neg hne.ne_empty] at hcons
  split at hcons
  · split at hcons
    · simp only [Bool.not_eq_true', decide_eq_false_iff_not] at hcons
      omega
    · simp only [Bool.not_eq_true', decide_eq_false_iff_not] at hcons
      omega
  · have heq : a.seqPosMin s = m.seqPosMax s + 1 := by
      by_contra hother
      simp [h0, hother] at hcons
    omega

end BatchAllocr

namespace KvCacheContext

/-- What `init_batch` promises of a context made on the cache `kv`: the slots fit one after
the other, the tokens name sequences and have proper positions, which are not below those in
the cache, and the ubatches have each sequence in order. -/
structure Serves (c : KvCacheContext) (kv : KvCache) : Prop where
  length : c.sinfos.length = c.ubatches.length
  takes : c.kv.TakesAll (c.sinfos.zip c.ubatches)
  sub : ∀ s p, c.kv.Present s p → kv.Present s p
  tokens : ∀ u ∈ c.ubatches, ∀ i < u.nTokens, 0 ≤ u.pos i ∧ u.seqId i 0 ∈ u.seqs i ∧
    0 ≤ u.seqId i 0 ∧ u.seqId i 0 < maxSeq
  memory : ∀ u ∈ c.ubatches, ∀ s p q, kv.Present s q → KvCache.Carries u s p → q ≤ p
  ordered : c.ubatches.Pairwise UBatch.Precedes

variable {c : KvCacheContext} {k : ℕ} {kv : KvCache}

lemma Serves.ubatch_mem (_ : c.Serves kv) (hk : k < c.ubatches.length) :
    c.ubatches[k]? = some (c.ubatch k) := by
  rw [getElem?_eq_getElem hk, ubatch, getD_eq_getElem _ _ hk]

section

variable (h : c.Serves kv)

include h

lemma Serves.getElem? (hk : k < c.ubatches.length) :
    (c.sinfos.zip c.ubatches)[k]? = some (c.sinfo k, c.ubatch k) := by
  have hk' : k < c.sinfos.length := h.length ▸ hk
  rw [getElem?_zip_eq_some]
  refine ⟨?_, h.ubatch_mem hk⟩
  rw [getElem?_eq_getElem hk', sinfo, getD_eq_getElem _ _ hk']

/-- The slot of ubatch `k` fits when its turn comes. -/
lemma Serves.takes_applied (hk : k < c.ubatches.length) :
    (c.applied k).Takes (c.sinfo k) (c.ubatch k) :=
  h.takes.takes (h.getElem? hk)

lemma Serves.applied_succ (hk : k < c.ubatches.length) :
    c.applied (k + 1) = (c.applied k).applyUbatch (c.sinfo k) (c.ubatch k) := by
  rw [applied, take_add_one, h.getElem? hk, KvCache.applyAll, foldl_append]
  rfl

/-- What is present was in the cache or came with an earlier ubatch. -/
lemma Serves.present_applied : ∀ {k : ℕ}, k ≤ c.ubatches.length → (c.applied k).Present s p →
      kv.Present s p ∨ ∃ u ∈ c.ubatches.take k, KvCache.Carries u s p := by
  intro k
  induction k with
  | zero => exact fun _ hp => .inl (h.sub s p hp)
  | succ k ih =>
    intro hk hp
    have hmem := h.ubatch_mem hk
    have htake : c.ubatches.take (k + 1) = c.ubatches.take k ++ [c.ubatch k] := by
      rw [take_add_one, hmem]
      rfl
    rw [h.applied_succ hk] at hp
    rw [htake]
    rcases ((h.takes_applied hk).present_applyUbatch.mp hp).1 with hp | hcar
    · rcases ih (by omega) hp with hp | ⟨u, hu, hcar⟩
      · exact .inl hp
      · exact .inr ⟨u, mem_append_left _ hu, hcar⟩
    · exact .inr ⟨_, mem_append_right _ mem_cons_self, hcar⟩

/-- Ubatches before the failed one, and it before those after it. -/
lemma Serves.precedes (hk : k < c.ubatches.length) :
    (∀ u ∈ c.ubatches.take k, u.Precedes (c.ubatch k)) ∧
      ∀ u ∈ c.ubatches.drop (k + 1), (c.ubatch k).Precedes u := by
  have hget : c.ubatches[k] = c.ubatch k := (List.getD_eq_getElem _ _ hk).symm
  have hsplit : c.ubatches = c.ubatches.take k ++ c.ubatch k :: c.ubatches.drop (k + 1) := by
    rw [← hget, ← List.drop_eq_getElem_cons hk, List.take_append_drop]
  have hord := h.ordered
  rw [hsplit, List.pairwise_append, List.pairwise_cons] at hord
  exact ⟨fun u hu => hord.2.2 u hu _ List.mem_cons_self, hord.2.1.1⟩

/-- The positions in the cache are not above those of the ubatch that comes next. -/
lemma Serves.present_le (hk : k < c.ubatches.length) {q : ℤ}
    (hp : (c.applied k).Present s p) (hq : KvCache.Carries (c.ubatch k) s q) : p ≤ q := by
  rcases h.present_applied hk.le hp with hp | ⟨u, hu, x, hx, hsx, rfl⟩
  · exact h.memory _ (mem_of_getElem? (h.ubatch_mem hk)) s q p hp hq
  · obtain ⟨y, hy, hsy, rfl⟩ := hq
    exact (h.precedes hk).1 u hu x hx y hy s hsx hsy

/-- **What is present after the failure**: what was before and what the ubatch brought, but for
what its slot purged and what the clean-up covers. -/
theorem Serves.present_failed (hk : k < c.ubatches.length) :
    (c.failed k).Present s p ↔ ((c.applied k).Present s p ∨ KvCache.Carries (c.ubatch k) s p) ∧
        ¬ (c.applied k).Overwrites (c.sinfo k) s p ∧ ¬ KvCache.Removes (c.ubatch k) s p := by
  have htakes := h.takes_applied hk
  have htok := h.tokens _ (mem_of_getElem? (h.ubatch_mem hk))
  have hwf := (KvCache.applyUbatch_spec htakes.wf htakes.fill.toks htakes.fill.nodup
    htakes.fill.last_le).cellsWF
  rw [failed, KvCache.present_removeUbatch hwf (fun i hi => (htok i hi).1)
    fun i hi => (htok i hi).2.2, htakes.present_applyUbatch, and_assoc]

/-- A sequence that the clean-up looks at is one of the ubatch. -/
lemma Serves.carries_of_removes (hk : k < c.ubatches.length)
    (hrm : KvCache.Removes (c.ubatch k) s p) : ∃ q, KvCache.Carries (c.ubatch k) s q := by
  obtain ⟨-, i, hi, rfl, -⟩ := hrm
  have htok := h.tokens _ (mem_of_getElem? (h.ubatch_mem hk))
  exact ⟨_, i, hi, (htok i hi).2.1, rfl⟩

/-- **The clean-up does what it is for** iff it can. -/
theorem Serves.cleansUp_undoable (hk : k < c.ubatches.length) : c.CleansUp k ↔ c.Undoable k := by
  have hpres := fun s p => h.present_failed hk (s := s) (p := p)
  have hget : c.ubatches[k] = c.ubatch k := (getD_eq_getElem _ _ hk).symm
  have hdrop : c.ubatches.drop k = c.ubatch k :: c.ubatches.drop (k + 1) := by
    rw [← hget, ← drop_eq_getElem_cons hk]
  constructor
  · intro hclean
    refine ⟨fun s p hcar => ?_, fun u hu s p hcar hp => ?_, fun s hno p hp hover => ?_⟩
    · have hgone := hclean.gone _ (hdrop ▸ mem_cons_self) s p hcar ⟨p, hcar⟩
      rw [hpres] at hgone
      by_contra hno
      rw [not_or] at hno
      exact hgone ⟨.inr hcar, hno.2, hno.1⟩
    · have hkept := (hclean.earlier u hu s p hcar).mpr hp
      rw [hpres] at hkept
      exact ⟨hkept.2.2, hkept.2.1⟩
    · have hkept := (hclean.others s hno p).mpr hp
      rw [hpres] at hkept
      exact hkept.2.1 hover
  · intro hcond
    -- a token that brings the position, which is then covered
    have hnew : ∀ s p, KvCache.Carries (c.ubatch k) s p → ¬ (c.failed k).Present s p := by
      intro s p hcar hp
      rw [hpres] at hp
      exact (hcond.covered s p hcar).elim hp.2.2 hp.2.1
    refine ⟨fun u hu s p hcar hin hp => ?_, fun u hu s p hcar => ?_, fun s hno p => ?_⟩
    · obtain ⟨q, hq⟩ := hin
      rw [hdrop] at hu
      rcases mem_cons.mp hu with rfl | hu
      · exact hnew s p hcar hp
      · -- a position that was there before is not above the ubatch, nor below a later one
        rcases ((hpres s p).mp hp).1 with hold | hcar'
        · have hle := h.present_le hk hold hq
          obtain ⟨x, hx, hsx, hqx⟩ := hq
          obtain ⟨y, hy, hsy, hpy⟩ := hcar
          have hge : (c.ubatch k).pos x ≤ u.pos y := (h.precedes hk).2 u hu x hx y hy s hsx hsy
          have heq : (c.ubatch k).pos x = p := by omega
          exact hnew s p ⟨x, hx, hsx, heq⟩ hp
        · exact hnew s p hcar' hp
    · constructor
      · intro hp
        rcases ((hpres s p).mp hp).1 with hold | hcar'
        · exact hold
        · exact absurd hp (hnew s p hcar')
      · intro hold
        obtain ⟨h1, h2⟩ := hcond.above u hu s p hcar hold
        exact (hpres s p).mpr ⟨.inl hold, h2, h1⟩
    · constructor
      · intro hp
        exact ((hpres s p).mp hp).1.resolve_right (hno p)
      · intro hold
        refine (hpres s p).mpr ⟨.inl hold, hcond.spared s hno p hold, fun hrm => ?_⟩
        obtain ⟨q, hq⟩ := h.carries_of_removes hk hrm
        exact hno q hq

end

end KvCacheContext

namespace KvCache

/-! ## The context of a batch -/

variable {a : BatchAllocr} {nUbatch : ℕ}

/-- What a successful `init_batch` went through. -/
lemma initBatch_some {c : KvCacheContext} (h : kv.initBatch a nUbatch = some c) : ∃ steps,
      BatchAllocr.drain (splitStrategy kv.prm nUbatch) (a.batch.nTokens + 1) a.splitReset =
        some steps ∧ (kv.prepare (steps.map Prod.fst)).2 ≠ [] ∧
      c = ⟨(kv.prepare (steps.map Prod.fst)).1, (kv.prepare (steps.map Prod.fst)).2,
        steps.map Prod.fst⟩ ∧ (0 < a.batch.nTokens → steps ≠ []) := by
  rw [initBatch] at h
  cases hdrain : BatchAllocr.drain (splitStrategy kv.prm nUbatch) (a.batch.nTokens + 1)
      a.splitReset with
  | none =>
    rw [hdrain] at h
    cases h
  | some steps =>
    rw [hdrain] at h
    by_cases hused : usedAfter steps < a.batch.nTokens
    · simp only [if_pos hused] at h
      cases h
    · simp only [if_neg hused] at h
      by_cases hne : (kv.prepare (steps.map Prod.fst)).2 = []
      · rw [if_pos hne] at h
        cases h
      · rw [if_neg hne] at h
        refine ⟨steps, rfl, hne, (Option.some.inj h).symm, ?_⟩
        rintro hpos rfl
        exact hused hpos

/-- In several streams only batches without coupled sequences are split. -/
lemma splitStrategy_allowed {p : KvParams}
    (hnames : ∀ i < a.batch.nTokens, 0 < a.batch.nSeqId i) {fuel : ℕ}
    {steps : List (UBatch × BatchAllocr)}
    (hdrain : BatchAllocr.drain (splitStrategy p nUbatch) fuel a = some steps) (hne : steps ≠ []) :
    (splitStrategy p nUbatch).Allowed a := by
  by_contra hno
  exact hne (drain_of_not_allowed hno hnames hdrain)

/-- The strategies of `init_batch` take the tokens of a sequence in order. -/
lemma splitStrategy_inOrder {p : KvParams} (htab : a.Tables)
    (hfit : (splitStrategy p nUbatch).Allowed a) : (splitStrategy p nUbatch).InOrder a := by
  unfold splitStrategy at hfit ⊢
  by_cases hone : p.nStream = 1
  · rw [if_pos hone]
    exact fun _ _ _ _ _ _ _ _ _ _ => id
  · rw [if_neg hone] at hfit ⊢
    obtain ⟨hcpl, -, hnames⟩ := hfit
    have hcpl : a.hasCpl = false := by simpa using hcpl
    intro k i j s hki hij hj _ _ _
    have hset := fun x (hx : x < a.batch.nTokens) =>
      (htab.seqSet_singleton hcpl hnames hx).2.2
    rintro ⟨hmeet, hne, -⟩
    rw [hset k (by omega), hset i (by omega)] at hmeet hne
    obtain ⟨s, hs⟩ := Finset.nonempty_iff_ne_empty.mpr hmeet
    simp only [Finset.mem_inter, Finset.mem_singleton] at hs
    exact hne (by rw [← hs.1, ← hs.2])

/-- The ubatches of an accepted batch suit the dry run. -/
lemma dry_of_drain {p : KvParams} (hinv : Inv p kv) (hhome : kv.Homed) {inp : LlamaBatch}
    {nVocab nEmbd : ℕ} {memory : Option MemoryPos}
    (hinit : BatchAllocr.init p.nPosPerEmbd inp nVocab memory nEmbd p.batchSeqMax outputAll = some a)
    {fuel : ℕ} {steps : List (UBatch × BatchAllocr)} (hfit : (splitStrategy p nUbatch).Allowed a)
    (hdrain : BatchAllocr.drain (splitStrategy p nUbatch) fuel a = some steps)
    (hpos : ∀ ub ∈ steps.map Prod.fst, ∀ i < ub.nTokens, 0 ≤ ub.pos i) :
    kv.Dry (steps.map Prod.fst) := by
  have ha := BatchAllocr.init_eq hinit
  have htab : a.Tables := ha ▸ tables_ofFull _ _ _ _
  have hids := BatchAllocr.validIds_of_init hinit p.batchSeqMax_le.1
  have hmax : a.nSeqMax = p.batchSeqMax := by rw [ha]; rfl
  have hcut := BatchAllocr.drain_cut _ fuel htab hids hfit
    (BatchAllocr.Strategy.inv_init hinit _) hdrain
  have hblocks : ∀ ub ∈ steps.map Prod.fst, 1 < p.nStream →
      ∃ base m r, BatchAllocr.Blocks base m r ub := by
    intro ub hub hn
    refine (hcut ub hub).2 nUbatch 0 ?_
    rw [splitStrategy, if_neg (by omega)]
  refine ⟨⟨hinv.cellsWF, hinv.head⟩, hhome, fun ub hub => ?_, fun ub hub kv1 hprm => ?_⟩
  · rw [hinv.prm]
    refine ⟨⟨inp, nVocab, memory, nEmbd, outputAll, a, hinit, (hcut ub hub).1⟩,
      fun kv1 hprm hn => ?_, hpos ub hub⟩
    rw [hprm] at hn
    obtain ⟨base, m, r, hbl⟩ := hblocks ub hub hn
    have huni : p.unified = false := by
      by_contra htrue
      rw [Bool.not_eq_false] at htrue
      simp [KvParams.nStream, htrue] at hn
    have hseq : p.batchSeqMax = p.nSeqMax := by simp [KvParams.batchSeqMax, huni]
    have hadj : kv1.Adjacent ub := by
      refine adjacent_of_cut ?_ hids ?_ (hcut ub hub).1 hbl
      · rw [hprm]
        exact huni
      · rw [hmax, hseq, hprm]
    refine hadj.asserts ?_
    rw [hprm]
    exact hn
  · rw [hinv.prm] at hprm
    by_cases hn : 1 < p.nStream
    · obtain ⟨base, m, r, hbl⟩ := hblocks ub hub hn
      exact homedUbatch_of_blocks hbl
    · exact homedUbatch_of_one (by rw [hprm]; exact hn) ub

/-- **A context serves the cache it was made on.** -/
theorem serves_initBatch {p : KvParams} (hinv : Inv p kv) (hhome : kv.Homed) {inp : LlamaBatch}
    {nVocab nEmbd : ℕ}
    (hinit : BatchAllocr.init p.nPosPerEmbd inp nVocab (some kv.memoryPos) nEmbd p.batchSeqMax
      outputAll = some a) (htok : ∀ i < a.batch.nTokens, 0 < a.batch.nSeqId i ∧ 0 ≤ a.batch.pos i)
    {c : KvCacheContext} (hc : kv.initBatch a nUbatch = some c) : c.Serves kv := by
  obtain ⟨steps, hdrain, hne, rfl, hsteps⟩ := initBatch_some hc
  have ha := BatchAllocr.init_eq hinit
  have hreset : a.splitReset = a := by rw [ha]; rfl
  have hnpos := nTokens_pos_of_init hinit
  rw [hreset, hinv.prm] at hdrain
  have htab : a.Tables := ha ▸ tables_ofFull _ _ _ _
  have hfit := splitStrategy_allowed (fun i hi => (htok i hi).1) hdrain (hsteps hnpos)
  obtain ⟨htoks, hord⟩ := drain_precedes _ _ htab hfit
    (BatchAllocr.Strategy.inv_init hinit _) (increasing_of_init hinit)
    (splitStrategy_inOrder htab hfit) hdrain
  have hids := BatchAllocr.validIds_of_init hinit p.batchSeqMax_le.1
  have hmax : a.nSeqMax = p.batchSeqMax := by rw [ha]; rfl
  have hdry := dry_of_drain hinv hhome hinit hfit hdrain fun ub hub i hi => by
    obtain ⟨x, hx, -, -, heq⟩ := htoks ub hub i hi
    rw [heq]
    exact (htok x hx).2
  obtain ⟨hlen, htakes⟩ := takesAll_prepare hdry hne
  have hprep := prepare_spec _ hdry.ready hdry.fits
  refine ⟨hlen, htakes, fun s q hq => ?_, fun u hu i hi => ?_, fun u hu s q r hr hcar => ?_, hord⟩
  · obtain ⟨j, hj, hmem, rfl⟩ := hq
    have hcells : (kv.prepare (steps.map Prod.fst)).1.cellsOf s =
        (kv.prepare (steps.map Prod.fst)).1.vCells (kv.prm.seqToStream s) := by
      rw [cellsOf, hprep.prm]
    simp only [hcells, hprep.size] at hj hmem ⊢
    exact ⟨j, hj, hprep.seq_subset _ j hmem, (prepare_pos _ hdry.ready hdry.fits _ j hj s hmem).symm⟩
  · obtain ⟨x, hx, -, hseqs, heq⟩ := htoks u hu i hi
    have hlen : (u.seqs i).length = (a.batch.seqs x).length := by rw [hseqs]
    have hcount : 0 < u.nSeqId i := by
      simp only [UBatch.seqs, FullBatch.seqs, List.length_map, List.length_range] at hlen
      have := (htok x hx).1
      omega
    have hmem : u.seqId i 0 ∈ u.seqs i := List.mem_map.mpr ⟨0, List.mem_range.mpr hcount, rfl⟩
    have hrange := hids x hx _ (hseqs ▸ hmem)
    have hle := p.batchSeqMax_le.2
    exact ⟨heq ▸ (htok x hx).2, hmem, hrange.1, by omega⟩
  · obtain ⟨h0, hle⟩ := hr.le_max hinv.cellsWF
    obtain ⟨i, hi, hs, rfl⟩ := hcar
    obtain ⟨x, hx, -, hseqs, heq⟩ := htoks u hu i hi
    rw [hseqs] at hs
    rw [heq]
    have hmem := BatchAllocr.memory_le_of_init p.batchSeqMax_le.1 hinit hx hs (h0.trans hle)
    exact hle.trans hmem

/-- The check of coupled sequences passes on an empty cache. -/
lemma consistentCpl_new (p : KvParams) (a : BatchAllocr) :
    a.consistentCpl (some (new p).memoryPos) = true := by
  have hmin : ∀ s, (new p).memoryPos.seqPosMin s = -1 := fun _ => rfl
  have hmax : ∀ s, (new p).memoryPos.seqPosMax s = -1 := fun _ => rfl
  simp [consistentCpl, hmin, hmax]

/-- One token at position 0 of the sequences 0 and 1. -/
def sharedToken : LlamaBatch :=
  { BatchAllocr.oneToken with nSeqId := some fun _ => 2, seqId := some fun _ s => s }

end KvCache
end Llama
