import Llama.Batch.Partition
import Llama.KvCache.Search

/-!
# Sequential ubatches use adjacent streams

A cache with a stream for each sequence reads the streams `s0 .. s1` of a slot as one
block of memory.  In sequential mode `split_equal` takes the same number of tokens from
each of some sequences whose ids count up by one, so the slots of its ubatches have this
shape, and `find_slot` passes its assertions on them.

A token of an accepted batch may name no sequence at all, and then `find_slot` divides by
zero; the statement is about batches without such tokens, or with coupled sequences, which
the sequential mode refuses.
-/

namespace Llama

open List
namespace BatchAllocr

/-- A call while a batch is split in sequential mode: start over, or ask for a ubatch. -/
inductive SplitCall
  | reset
  | equal (nUbatch nKeepTail : ℕ)

/-- The ubatches produced by a run of calls; a failed assertion ends it. -/
def sequentialRun : BatchAllocr → List SplitCall → List UBatch
  | _, [] => []
  | a, .reset :: calls => sequentialRun a.splitReset calls
  | a, .equal nUbatch nKeepTail :: calls =>
    match a.splitEqual nUbatch true nKeepTail with
    | none => []
    | some (ub, a) => ub :: sequentialRun a calls

/-- Every token names a sequence, unless some token couples sequences. -/
def Named (a : BatchAllocr) : Prop :=
  a.hasCpl = true ∨ ∀ i < a.batch.nTokens, 0 < a.batch.nSeqId i

/-- The unique sequences of a ubatch are listed in increasing order. -/
lemma pairwise_unq (a : BatchAllocr) (idxs : List ℕ) (nSeqs : ℕ) (eq : Bool) :
    (a.ubatchAdd idxs nSeqs eq).1.seqIdUnq.Pairwise (· < ·) := by
  refine List.Pairwise.filter _ (pairwise_lt_range.map _ fun x y hxy => ?_)
  omega

/-- A ubatch of `n` blocks of `r` tokens, block `k` of the one sequence `base + k`. -/
structure Blocks (base : ℤ) (n r : ℕ) (ub : UBatch) : Prop where
  n_pos : 0 < n
  r_pos : 0 < r
  nTokens : ub.nTokens = n * r
  nSeqsUnq : ub.nSeqsUnq = n
  seqIdUnq : ub.seqIdUnq = (List.range n).map fun (k : ℕ) => base + k
  nSeqId : ∀ k < n, ∀ ii < r, ub.nSeqId (k * r + ii) = 1
  seqId : ∀ k < n, ∀ ii < r, ub.seqId (k * r + ii) 0 = base + k

/-- Without coupled sequences, and with a sequence for every token, there is just one. -/
lemma Tables.seqSet_singleton {a : BatchAllocr} (ht : a.Tables) (hcpl : a.hasCpl = false)
    (hname : ∀ i < a.batch.nTokens, 0 < a.batch.nSeqId i) {i : ℕ} (hi : i < a.batch.nTokens) :
    a.batch.nSeqId i = 1 ∧ a.batch.seqs i = [a.batch.seqId i 0] ∧
      a.seqSet i = {a.batch.seqId i 0} := by
  have hle : ¬ 1 < a.batch.nSeqId i := by
    intro hlt
    have htrue : a.hasCpl = true := by
      rw [ht.hasCpl_eq, any_eq_true]
      exact ⟨i, mem_range.mpr hi, by simpa using hlt⟩
    rw [hcpl] at htrue
    exact absurd htrue (by simp)
  have hone : a.batch.nSeqId i = 1 := by
    have := hname i hi
    omega
  have hseqs : a.batch.seqs i = [a.batch.seqId i 0] := by
    simp [FullBatch.seqs, hone]
  exact ⟨hone, hseqs, by rw [ht.seqSet_eq, hseqs]; rfl⟩

/-- **A sequential call emits such blocks.** -/
theorem EqualRun.blocks {a : BatchAllocr} (ht : a.Tables) (hids : a.ValidIds)
    (hcpl : a.hasCpl = false) (hname : ∀ i < a.batch.nTokens, 0 < a.batch.nSeqId i)
    {r : ℕ} {cs : List SetCursor} {res : UBatch × BatchAllocr} (h : EqualRun a true r cs res) :
    ∃ base, Blocks base cs.length r res.1 := by
  obtain ⟨toks, hpfx, htoks, hbase⟩ := h.toks
  obtain ⟨base, hbase⟩ := hbase rfl
  have hlen : cs.length ≤ toks.length := by
    have := hpfx.length_le
    simpa using this
  -- the set of cursor `k` is the sequence `base + k`
  have hset : ∀ k (hk : k < cs.length), cs[k].set = {base + (k : ℤ)} := by
    intro k hk
    have hget := hpfx.getElem (i := k) (by simpa using hk)
    simp only [getElem_map] at hget
    have htok := htoks toks[k] (getElem_mem _)
    rw [hget, (ht.seqSet_singleton hcpl hname htok.1).2.2, hbase k (by omega)]
  have hcell : ∀ k (hk : k < cs.length), ∀ i ∈ cs[k].idxs, i < a.batch.nTokens ∧
      a.batch.nSeqId i = 1 ∧ a.batch.seqs i = [base + (k : ℤ)] ∧
      a.batch.seqId i 0 = base + k := by
    intro k hk i hi
    obtain ⟨_, _, hcok⟩ := h.ok.ok cs[k] (getElem_mem _)
    obtain ⟨hlt, hiset⟩ := hcok.mem_set ht hi
    obtain ⟨h1, h2, h3⟩ := ht.seqSet_singleton hcpl hname hlt
    rw [h3, hset k hk, Finset.singleton_inj] at hiset
    exact ⟨hlt, h1, hiset ▸ h2, hiset⟩
  have htaken : ∀ i, i ∈ takenBy cs ↔ ∃ k, ∃ hk : k < cs.length, i ∈ cs[k].idxs := by
    intro i
    simp only [takenBy, mem_flatMap]
    constructor
    · rintro ⟨c, hc, hi⟩
      obtain ⟨k, hk, rfl⟩ := getElem_of_mem hc
      exact ⟨k, hk, hi⟩
    · rintro ⟨k, hk, hi⟩
      exact ⟨_, getElem_mem hk, hi⟩
  obtain ⟨a', htk, rfl⟩ := h.add
  have hlt : ∀ i ∈ takenBy cs, i < a.batch.nTokens := by
    intro i hi
    obtain ⟨k, hk, hik⟩ := (htaken i).mp hi
    exact (hcell k hk i hik).1
  -- what the cursors took at place `ii` of block `k`
  have hat : ∀ k < cs.length, ∀ ii < r, ∃ hk : k < cs.length,
      (takenBy cs).getD (k * r + ii) 0 ∈ cs[k].idxs := by
    intro k hk ii hii
    obtain ⟨c, hc, hmem⟩ := takenBy_getD h.ok.rounds hk hii
    rw [getElem?_eq_getElem hk, Option.mem_some_iff] at hc
    exact ⟨hk, hc ▸ hmem⟩
  have hmem : ∀ s, s ∈ (a'.ubatchAdd (takenBy cs) cs.length true).1.seqIdUnq ↔
      s ∈ (range cs.length).map fun (k : ℕ) => base + (k : ℤ) := by
    intro s
    have hids' : a'.ValidIds := by
      rw [ValidIds, htk.batch_eq, htk.nSeqMax_eq]
      exact hids
    rw [mem_unq hids' (by rw [htk.batch_eq]; exact hlt), htk.batch_eq]
    simp only [mem_map, mem_range]
    constructor
    · rintro ⟨i, hi, hs⟩
      obtain ⟨k, hk, hik⟩ := (htaken i).mp hi
      rw [(hcell k hk i hik).2.2.1, mem_singleton] at hs
      exact ⟨k, hk, hs.symm⟩
    · rintro ⟨k, hk, rfl⟩
      obtain ⟨_, hi⟩ := hat k hk 0 h.pos
      exact ⟨_, (htaken _).mpr ⟨k, hk, hi⟩, by rw [(hcell k hk _ hi).2.2.1]; simp⟩
  have hunq : (a'.ubatchAdd (takenBy cs) cs.length true).1.seqIdUnq =
      (range cs.length).map fun (k : ℕ) => base + (k : ℤ) := by
    refine List.Pairwise.eq_of_mem_iff (r := (· < ·)) (pairwise_unq ..) ?_ (by simpa using hmem)
    refine pairwise_lt_range.map _ fun x y hxy => ?_
    omega
  refine ⟨base, length_pos_iff.mpr h.ne_nil, h.pos, ?_, ?_, hunq, ?_, ?_⟩
  · exact length_takenBy h.ok.rounds
  · change (a'.ubatchAdd (takenBy cs) cs.length true).1.seqIdUnq.length = cs.length
    rw [hunq, length_map, length_range]
  · intro k hk ii hii
    obtain ⟨_, hi⟩ := hat k hk ii hii
    simp only [ubatchAdd, htk.batch_eq]
    exact (hcell k hk _ hi).2.1
  · intro k hk ii hii
    obtain ⟨_, hi⟩ := hat k hk ii hii
    simp only [ubatchAdd, htk.batch_eq]
    exact (hcell k hk _ hi).2.2.2

/-! ## The run -/

/-- A call produces blocks, or the empty ubatch, or fails. -/
lemma splitEqual_blocks {a : BatchAllocr} (ht : a.Tables) (hpre : a.SetPrefix) (hids : a.ValidIds)
    (hnamed : a.Named) {nUbatch nKeepTail : ℕ} {ub : UBatch} {a' : BatchAllocr}
    (h : a.splitEqual nUbatch true nKeepTail = some (ub, a')) :
    (ub = .empty ∧ a' = a) ∨
      (SameBatch a a' ∧ a'.SetPrefix ∧ a.Cut ub ∧ ∃ base n r, Blocks base n r ub) := by
  by_cases hcpl : a.hasCpl = true
  · rw [splitEqual, if_pos ⟨rfl, hcpl⟩, Option.some.injEq, Prod.mk.injEq] at h
    exact .inl ⟨h.1.symm, h.2.symm⟩
  have hname : ∀ i < a.batch.nTokens, 0 < a.batch.nSeqId i := hnamed.resolve_left hcpl
  have hcpl : a.hasCpl = false := by simpa using hcpl
  have hguard : ¬ (true = true ∧ a.hasCpl = true) := by simp [hcpl]
  by_cases hsets : a.equalSets nUbatch true = []
  · rw [equalSets] at hsets
    rw [splitEqual, if_neg hguard] at h
    simp only [hsets, if_true, Option.some.injEq, Prod.mk.injEq] at h
    exact .inl ⟨h.1.symm, h.2.symm⟩
  have hfree : ∃ t < a.batch.nTokens, a.used t = false := by
    by_contra hno
    push Not at hno
    exact hsets (equalSets_eq_nil.mpr fun t ht => by simpa using hno t ht)
  by_cases hkeep : nKeepTail = 0 ∨ nKeepTail < nUbatch
  · have hset : ∀ i < a.batch.nTokens, a.used i = false → a.seqSet i ≠ ∅ := by
      intro i hi _
      rw [(ht.seqSet_singleton hcpl hname hi).2.2]
      exact Finset.singleton_ne_empty _
    obtain ⟨r, cs, res, hres, hrun, -⟩ := splitEqual_spec ht hpre hset hguard hkeep hfree
    rw [h, Option.some.injEq] at hres
    subst hres
    obtain ⟨base, hblocks⟩ := hrun.blocks ht hids hcpl hname
    have hemits := hrun.emits ht
    exact .inr ⟨hemits.emitted.same, hrun.setPrefix ht hpre, hemits.cut, base, _, r, hblocks⟩
  · rw [equalSets] at hsets
    have hbad : 0 < nKeepTail ∧ nUbatch ≤ nKeepTail := by omega
    rw [splitEqual, if_neg hguard] at h
    simp only [if_neg hsets, if_pos hbad] at h
    exact absurd h (by simp)

end BatchAllocr

namespace KvCache

/-- The assertions of `find_slot` hold, and the streams of the slot are `s0, s0 + 1, .., s1`
in order. -/
structure Adjacent (kv : KvCache) (ub : UBatch) : Prop where
  asserts : kv.FindSlotAsserts ub
  strm : ∀ cont si, kv.findSlot ub cont = some si →
    si.s0 ≤ si.s1 ∧ si.strm = (List.range (si.s1 + 1 - si.s0)).map (si.s0 + ·)

lemma foldl_min_range (b m : ℕ) (hb : b ≤ m) :
    ∀ n, 0 < n → ((range n).map (b + ·)).foldl min m = b := by
  intro n
  induction n with
  | zero => intro h; omega
  | succ n ih =>
    rw [range_succ]
    rcases Nat.eq_zero_or_pos n with rfl | hn
    · simpa using hb
    · simp [ih hn]

lemma foldl_max_range (b : ℕ) : ∀ n, 0 < n → ((range n).map (b + ·)).foldl max 0 = b + n - 1 := by
  intro n
  induction n with
  | zero => intro h; omega
  | succ n ih =>
    rw [range_succ, map_append, foldl_append]
    rcases Nat.eq_zero_or_pos n with rfl | hn
    · simp
    · simp only [map_cons, map_nil, foldl_cons, foldl_nil]
      omega

/-- Blocks of consecutive sequences get adjacent streams. -/
lemma adjacent_of_blocks {kv : KvCache} (huni : kv.prm.unified = false) {base : ℤ} {n r : ℕ}
    {ub : UBatch} (h : BatchAllocr.Blocks base n r ub) (h0 : 0 ≤ base)
    (hn : base + n ≤ kv.prm.nSeqMax) : kv.Adjacent ub := by
  have hpos := h.n_pos
  have hstream : kv.prm.nStream = kv.prm.nSeqMax := by simp [KvParams.nStream, huni]
  have hunq : ∀ k < n, ub.seqIdUnq.getD k 0 = base + k := by
    intro k hk
    rw [h.seqIdUnq, getD_eq_getElem _ _ (by simpa using hk)]
    simp
  have hstrms : kv.slotStreams ub = (range n).map (base.toNat + ·) := by
    by_cases hs : 1 < kv.prm.nStream
    · simp only [slotStreams, slotSeqs, if_pos hs, h.nSeqsUnq]
      refine map_congr_left fun k hk => ?_
      have hk := mem_range.mp hk
      rw [hunq k hk, KvParams.seqToStream, if_pos hs]
      omega
    · have hn1 : n = 1 := by omega
      have hb : base = 0 := by omega
      simp [slotStreams, slotSeqs, if_neg hs, KvParams.seqToStream, hn1, hb]
  refine ⟨fun hs => ?_, fun cont si hsi => ?_⟩
  · have htok : kv.slotTokens ub = r := by
      rw [slotTokens, if_pos hs, h.nTokens, h.nSeqsUnq, Nat.mul_div_cancel_left _ hpos]
    rw [htok, h.nSeqsUnq, h.nTokens]
    refine ⟨by omega, Nat.mul_mod_right n r, fun k hk => ⟨?_, ?_⟩⟩
    · exact h.nSeqId k hk 0 h.r_pos
    · rw [hunq k hk]
      exact h.seqId k hk 0 h.r_pos
  · simp only [findSlot, Option.map_eq_some_iff] at hsi
    obtain ⟨idxs, _, rfl⟩ := hsi
    have hle := kv.prm.nSeqMax_le
    have hmin : (kv.slotStreams ub).foldl min maxSeq = base.toNat := by
      rw [hstrms]
      exact foldl_min_range _ _ (by omega) n hpos
    have hmax : (kv.slotStreams ub).foldl max 0 = base.toNat + n - 1 := by
      rw [hstrms]
      exact foldl_max_range _ n hpos
    change (kv.slotStreams ub).foldl min maxSeq ≤ (kv.slotStreams ub).foldl max 0 ∧
      kv.slotStreams ub = (range ((kv.slotStreams ub).foldl max 0 + 1 -
        (kv.slotStreams ub).foldl min maxSeq)).map ((kv.slotStreams ub).foldl min maxSeq + ·)
    rw [hmin, hmax, hstrms]
    have hcount : base.toNat + n - 1 + 1 - base.toNat = n := by omega
    rw [hcount]
    exact ⟨by omega, rfl⟩

/-- Blocks cut from a batch the cache was configured for get adjacent streams. -/
lemma adjacent_of_cut {kv : KvCache} (huni : kv.prm.unified = false) {a : BatchAllocr}
    (hids : a.ValidIds) (hmax : a.nSeqMax = kv.prm.nSeqMax) {ub : UBatch} (hcut : a.Cut ub)
    {base : ℤ} {n r : ℕ} (h : BatchAllocr.Blocks base n r ub) : kv.Adjacent ub := by
  have hpos := h.n_pos
  have hrange : ∀ k < n, 0 ≤ base + k ∧ base + k < a.nSeqMax := by
    intro k hk
    refine (hcut.wellFormed hids).unq_range _ ?_
    rw [h.seqIdUnq]
    exact mem_map.mpr ⟨k, mem_range.mpr hk, rfl⟩
  have hfirst := hrange 0 hpos
  have hlast := hrange (n - 1) (by omega)
  exact adjacent_of_blocks huni h (by omega) (by omega)

/-- Every call of a run of the sequential mode produces such a ubatch, or the empty one. -/
lemma sequentialRun_spec {kv : KvCache} (huni : kv.prm.unified = false) :
    ∀ (calls : List BatchAllocr.SplitCall) {a : BatchAllocr}, a.Tables → a.SetPrefix →
      a.ValidIds → a.Named → a.nSeqMax = kv.prm.nSeqMax →
      ∀ ub ∈ a.sequentialRun calls, 0 < ub.nTokens → kv.Adjacent ub := by
  intro calls
  induction calls with
  | nil => intro a _ _ _ _ _ ub hub; simp [BatchAllocr.sequentialRun] at hub
  | cons call calls ih =>
    intro a ht hpre hids hnamed hmax ub hub hpos
    cases call with
    | reset =>
      refine ih (a := a.splitReset) ⟨ht.seqSet_eq, ht.seqSetMap_eq, ht.hasCpl_eq⟩ ?_ hids hnamed
        hmax ub hub hpos
      intro i j _ _ _ hj
      exact absurd hj (by simp [BatchAllocr.splitReset])
    | equal nUbatch nKeepTail =>
      simp only [BatchAllocr.sequentialRun] at hub
      cases hres : a.splitEqual nUbatch true nKeepTail with
      | none => simp [hres] at hub
      | some res =>
        obtain ⟨ub1, a1⟩ := res
        simp only [hres] at hub
        rcases BatchAllocr.splitEqual_blocks ht hpre hids hnamed hres with
          ⟨rfl, rfl⟩ | ⟨hsame, hpre1, hcut, base, n, r, hblocks⟩
        · rcases mem_cons.mp hub with rfl | hub
          · exact absurd hpos (by simp [UBatch.empty])
          · exact ih ht hpre hids hnamed hmax ub hub hpos
        · rcases mem_cons.mp hub with rfl | hub
          · exact adjacent_of_cut huni hids hmax hcut hblocks
          · refine ih (hsame.tables ht) hpre1 ?_ ?_ (hsame.nSeqMax.trans hmax) ub hub hpos
            · rw [BatchAllocr.ValidIds, hsame.batch, hsame.nSeqMax]
              exact hids
            · rw [BatchAllocr.Named, hsame.hasCpl, hsame.batch]
              exact hnamed

/-- **Sequential ubatches use adjacent streams**: whatever was split off an accepted batch
before, the next ubatch passes the assertions of `find_slot` and its streams are
consecutive. -/
theorem sequentialRun_adjacent {kv : KvCache} (huni : kv.prm.unified = false)
    {nPos nVocab nEmbd : ℕ} {inp : LlamaBatch} {memory : Option MemoryPos} {outputAll : Bool}
    {a : BatchAllocr}
    (hinit : BatchAllocr.init nPos inp nVocab memory nEmbd kv.prm.nSeqMax outputAll = some a)
    (hnamed : a.Named) (calls : List BatchAllocr.SplitCall) :
    ∀ ub ∈ a.sequentialRun calls, 0 < ub.nTokens → kv.Adjacent ub := by
  have ha := BatchAllocr.init_eq hinit
  have hids := BatchAllocr.validIds_of_init hinit kv.prm.nSeqMax_pos
  have hused : ∀ i, a.used i = false := fun i => by rw [ha]; rfl
  refine sequentialRun_spec huni calls (ha ▸ BatchAllocr.tables_ofFull _ _ _ _) ?_ hids hnamed
    (by rw [ha]; rfl)
  intro i j _ _ _ hj
  rw [hused] at hj
  exact absurd hj (by simp)

/-- A cache with two streams of four cells. -/
def twoStreams : KvParams where
  unified := false
  nSeqMax := 2
  kvSize := 4
  nSwa := 0
  swaType := .none
  mrope := false
  vTrans := false
  layers := []
  nSeqMax_pos := Nat.two_pos
  nSeqMax_le := two_le_maxSeq

theorem sequentialRun_adjacent_threeTokens :
    ∃ a, BatchAllocr.init 1 BatchAllocr.threeTokens 10 none 0 2 false = some a ∧
      ∃ ub ∈ a.sequentialRun [.equal 4 0], 0 < ub.nTokens ∧ (KvCache.new twoStreams).Adjacent ub := by
  have hacc : (BatchAllocr.init 1 BatchAllocr.threeTokens 10 none 0 2 false).isSome = true := by
    decide +kernel
  obtain ⟨a, ha⟩ := Option.isSome_iff_exists.mp hacc
  have hnamed : a.Named := by
    rw [BatchAllocr.init_eq ha]
    exact .inr (by decide)
  have hrun : (a.sequentialRun [.equal 4 0]).map (·.nTokens) = [2] := by
    rw [BatchAllocr.init_eq ha]
    decide +kernel
  obtain ⟨ub, _, hub, hn, -⟩ := List.map_eq_cons_iff.mp hrun
  have hmem : ub ∈ a.sequentialRun [.equal 4 0] := by
    rw [hub]
    exact List.mem_cons_self
  refine ⟨a, ha, ub, hmem, by omega, ?_⟩
  exact sequentialRun_adjacent rfl ha hnamed [.equal 4 0] ub hmem (by omega)

/-- An accepted token without a sequence: `find_slot` would divide by zero sequences. -/
theorem not_adjacent_bareToken :
    ∃ a, BatchAllocr.init 1 BatchAllocr.twoBareTokens 10 none 0 2 false = some a ∧
      ∃ ub ∈ a.sequentialRun [.equal 4 0], 0 < ub.nTokens ∧
        ¬ (KvCache.new twoStreams).FindSlotAsserts ub := by
  have hacc : (BatchAllocr.init 1 BatchAllocr.twoBareTokens 10 none 0 2 false).isSome = true := by
    decide +kernel
  obtain ⟨a, ha⟩ := Option.isSome_iff_exists.mp hacc
  have hrun : (a.sequentialRun [.equal 4 0]).map (fun ub => (ub.nTokens, ub.nSeqsUnq)) =
      [(2, 0)] := by
    rw [BatchAllocr.init_eq ha]
    decide +kernel
  obtain ⟨ub, _, hub, hn, -⟩ := List.map_eq_cons_iff.mp hrun
  have h1 : ub.nTokens = 2 := congrArg Prod.fst hn
  have h2 : ub.nSeqsUnq = 0 := congrArg Prod.snd hn
  refine ⟨a, ha, ub, by rw [hub]; exact List.mem_cons_self, by omega, fun hassert => ?_⟩
  exact (hassert (by decide)).1 h2

end KvCache
end Llama
