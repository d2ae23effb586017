import Llama.Batch.Split
import Mathlib.Data.List.GetD

/-!
# Ubatches of accepted batches

Every strategy ends in `ubatch_add`, so a ubatch of an accepted batch is `ubatchAdd` of some
of its tokens.  Such a ubatch is well formed: its unique sequences are valid ids, in order
and without repetition, and they cover its tokens.
-/

namespace Llama

open List

/-- There are tokens, the unique sequences are distinct ids below `nSeqMax`, and they cover
the tokens. -/
structure UBatch.WellFormed (nSeqMax : ℕ) (ub : UBatch) : Prop where
  nTokens_pos : 0 < ub.nTokens
  nSeqsUnq_eq : ub.nSeqsUnq = ub.seqIdUnq.length
  unq_nodup : ub.seqIdUnq.Nodup
  unq_range : ∀ s ∈ ub.seqIdUnq, 0 ≤ s ∧ s < nSeqMax
  seqs_mem : ∀ i < ub.nTokens, ∀ s ∈ ub.seqs i, s ∈ ub.seqIdUnq

namespace BatchAllocr

/-- Every listed sequence id is below `nSeqMax`. -/
def ValidIds (a : BatchAllocr) : Prop :=
  ∀ i < a.batch.nTokens, ∀ s ∈ a.batch.seqs i, 0 ≤ s ∧ s < a.nSeqMax

variable {memory : Option MemoryPos} {outputAll : Bool} {a : BatchAllocr}

/-- The listed ids of a batch that passes the check of the ids, none listed meaning 0. -/
lemma fill_ids {inp : LlamaBatch} {nSeqMax : ℕ} (hvalid : validSeqIds inp nSeqMax = true)
    {i : ℕ} (hi : i < inp.nTokens) :
    ∀ s ∈ (fill inp memory nSeqMax outputAll).seqs i, 0 ≤ s ∧ (s = 0 ∨ s < nSeqMax) := by
  intro s hs
  obtain ⟨j, hj, hjs⟩ := mem_map.mp hs
  have hj := mem_range.mp hj
  simp only [fill] at hj hjs
  cases hids : inp.seqId with
  | none =>
    simp only [hids, Option.getD_none] at hjs
    omega
  | some ids =>
    cases hn : inp.nSeqId with
    | none => simp [validSeqIds, hids, hn] at hvalid
    | some n =>
      simp only [hids, Option.getD_some] at hjs
      simp only [hn] at hj
      simp only [validSeqIds, hids, hn, all_eq_true, mem_range, decide_eq_true_eq]
        at hvalid
      have hrange := hvalid i hi j hj
      rw [hjs] at hrange
      exact ⟨hrange.1, .inr hrange.2⟩

/-- `init` rejects other ids; a batch without ids is of sequence 0. -/
lemma ids_of_init {nPos nVocab nEmbd nSeqMax : ℕ} {inp : LlamaBatch}
    (h : init nPos inp nVocab memory nEmbd nSeqMax outputAll = some a) :
    ∀ i < a.batch.nTokens, ∀ s ∈ a.batch.seqs i, 0 ≤ s ∧ (s = 0 ∨ s < nSeqMax) := by
  have ha := init_eq h
  have hvalid : validSeqIds inp nSeqMax = true := by
    simp only [init] at h
    split at h
    · rename_i hc
      exact hc.2.2.2.1
    · exact absurd h (by simp)
  subst ha
  exact fun i hi => fill_ids hvalid hi

lemma validIds_of_init {nPos nVocab nEmbd nSeqMax : ℕ} {inp : LlamaBatch}
    (h : init nPos inp nVocab memory nEmbd nSeqMax outputAll = some a) (hpos : 0 < nSeqMax) :
    a.ValidIds := by
  intro i hi s hs
  have hids := ids_of_init h i hi s hs
  have hmax : a.nSeqMax = nSeqMax := by
    rw [init_eq h]
    rfl
  omega

/-- `ub` is `ubatch_add` of some tokens of the batch of `a`. -/
def Cut (a : BatchAllocr) (ub : UBatch) : Prop :=
  ∃ idxs nSeqs eq, idxs ≠ [] ∧ (∀ i ∈ idxs, i < a.batch.nTokens) ∧
    ub = (a.ubatchAdd idxs nSeqs eq).1

lemma mem_unq (hids : a.ValidIds) {idxs : List ℕ} {nSeqs : ℕ} {eq : Bool}
    (hlt : ∀ i ∈ idxs, i < a.batch.nTokens) {s : ℤ} :
    s ∈ (a.ubatchAdd idxs nSeqs eq).1.seqIdUnq ↔ ∃ i ∈ idxs, s ∈ a.batch.seqs i := by
  simp only [ubatchAdd, mem_filter, mem_map, mem_range, any_eq_true, decide_eq_true_eq]
  refine ⟨And.right, fun hs => ⟨?_, hs⟩⟩
  obtain ⟨i, hi, hmem⟩ := hs
  obtain ⟨h0, h1⟩ := hids i (hlt i hi) s hmem
  exact ⟨s.toNat, by omega, by omega⟩

/-- **A ubatch of an accepted batch is well formed.** -/
theorem Cut.wellFormed (hids : a.ValidIds) {ub : UBatch} (h : a.Cut ub) :
    ub.WellFormed a.nSeqMax := by
  obtain ⟨idxs, nSeqs, eq, hne, hlt, rfl⟩ := h
  refine ⟨length_pos_iff.mpr hne, rfl, ?_, ?_, ?_⟩
  · refine (nodup_range.map fun x y hxy => ?_).filter _
    exact Int.ofNat.inj hxy
  · intro s hs
    obtain ⟨i, hi, hmem⟩ := (mem_unq hids hlt).mp hs
    exact hids i (hlt i hi) s hmem
  · intro k hk s hs
    refine (mem_unq hids hlt).mpr ⟨idxs[k], getElem_mem hk, ?_⟩
    simpa only [UBatch.seqs, FullBatch.seqs, ubatchAdd, getD_eq_getElem _ _ hk] using hs

lemma Emits.cut {idxs : List ℕ} {res : UBatch × BatchAllocr} (h : Emits a idxs res) :
    a.Cut res.1 := by
  obtain ⟨a', nSeqs, eq, ht, rfl⟩ := h.add
  refine ⟨idxs, nSeqs, eq, h.ne_nil, fun i hi => (h.free i hi).1, ?_⟩
  simp only [ubatchAdd, ht.batch_eq, ht.nSeqMax_eq, ht.nPosPerEmbd_eq, ht.nEmbd_eq]

end BatchAllocr
end Llama
