import Llama.Batch.Accepted
import Llama.Batch.Order
import Llama.Recurrent.Placed

/-!
# The ubatches of a recurrent model

A recurrent memory takes its ubatches from `split_equal`, or from `split_seq` when all tokens
are output.  Their sets list a sequence each and do not overlap (`UBatch.Sets`), whenever the
tokens of the accepted batch name a sequence.
-/

namespace Llama

open BatchAllocr
namespace BatchAllocr

/-- The strategies of `init_batch`. -/
def Strategy.MakesSets : Strategy → Prop
  | .simple _ => False
  | .equal _ _ _ => True
  | .seq _ => True

/-- Every ubatch of a run comes from a call that keeps the strategy's invariant. -/
lemma drain_mem (st : Strategy) : ∀ {fuel : ℕ} {a : BatchAllocr} {ub : UBatch}
    {steps : List (UBatch × BatchAllocr)}, a.Tables → st.Allowed a → st.Inv a →
      drain st fuel a = some steps → ub ∈ steps.map Prod.fst →
      ∃ a' idxs res, SameBatch a a' ∧ st.Inv a' ∧ Emits a' idxs res ∧ st.split a' = some res ∧
        res.1 = ub := by
  intro fuel
  induction fuel with
  | zero =>
    intro a ub steps _ _ _ hdrain
    cases hdrain
  | succ fuel ih =>
    intro a ub steps htab hallow hinv hdrain hub
    rcases st.split_spec htab hallow hinv with ⟨idxs, res, hres, hem, hinv'⟩ | ⟨-, hres⟩
    · have hsame := hem.emitted.same
      have hne : res.1.nTokens ≠ 0 := by
        rw [hem.emitted.carries.nTokens]
        exact fun h0 => hem.ne_nil (List.length_eq_zero_iff.mp h0)
      simp only [drain, hres, if_neg hne] at hdrain
      obtain ⟨rest, hrest, rfl⟩ := Option.map_eq_some_iff.mp hdrain
      rw [List.map_cons, List.mem_cons] at hub
      rcases hub with rfl | hub
      · exact ⟨a, idxs, res, .refl a, hinv, hem, hres, rfl⟩
      · obtain ⟨a', idxs', res', hs, h⟩ :=
          ih (hsame.tables htab) (hsame.allowed hallow) hinv' hrest hub
        exact ⟨a', idxs', res', hsame.trans hs, h⟩
    · simp only [drain, hres] at hdrain
      cases hdrain
      cases hub

/-- The sets of a ubatch of `split_equal` are those of tokens of the batch. -/
lemma EqualRun.sets {a : BatchAllocr} {nUbatch r : ℕ} {sequential : Bool} {cs : List SetCursor}
    {res : UBatch × BatchAllocr} (htab : a.Tables)
    (hnames : ∀ i < a.batch.nTokens, 0 < a.batch.nSeqId i) (h : EqualRun a sequential r cs res)
    (hpfx : cs.map (·.set) <+: a.equalSets nUbatch sequential) :
    res.1.Sets ∧ ∀ k < res.1.nSeqs, ∃ i < a.batch.nTokens, res.1.setIds k = a.batch.seqs i := by
  obtain ⟨a', ht, rfl⟩ := h.add
  have hlen := length_takenBy h.ok.rounds
  have hpos : 0 < cs.length := List.length_pos_iff.mpr h.ne_nil
  have hnst : (takenBy cs).length / cs.length = r := by
    rw [hlen, Nat.mul_div_cancel_left _ hpos]
  -- the first token of set `k` was taken by cursor `k`
  have hat : ∀ k (hk : k < cs.length), ∃ i ∈ cs[k].idxs,
      (a'.ubatchAdd (takenBy cs) cs.length true).1.setIds k = a.batch.seqs i := by
    intro k hk
    obtain ⟨c, hc, hmem⟩ := takenBy_getD h.ok.rounds hk h.pos
    rw [List.getElem?_eq_getElem hk, Option.mem_some_iff] at hc
    subst hc
    refine ⟨_, hmem, ?_⟩
    change a'.batch.seqs ((takenBy cs).getD (k * ((takenBy cs).length / cs.length)) 0) = _
    rw [hnst, ht.batch_eq, Nat.add_zero]
  have hset : ∀ k (hk : k < cs.length), ∀ i ∈ cs[k].idxs,
      i < a.batch.nTokens ∧ (a.batch.seqs i).toFinset = cs[k].set := by
    intro k hk i hi
    obtain ⟨pre, post, hok⟩ := h.ok.ok cs[k] (List.getElem_mem hk)
    obtain ⟨hlt, hset⟩ := hok.mem_set htab hi
    exact ⟨hlt, by rwa [htab.seqSet_eq] at hset⟩
  have hdisj : (cs.map (·.set)).Pairwise Disjoint := by
    obtain ⟨toks, h1, -, h3, -⟩ := equalSets_spec a nUbatch sequential
    rw [h1] at hpfx
    exact (h3.sublist hpfx.sublist).imp Finset.disjoint_iff_inter_eq_empty.mpr
  refine ⟨⟨rfl, hpos, fun k hk => ?_, fun k hk l hl s hsk hsl => ?_⟩, fun k hk => ?_⟩
  · obtain ⟨i, hi, heq⟩ := hat k hk
    rw [heq, FullBatch.seqs, Ne, List.map_eq_nil_iff, List.range_eq_nil]
    exact (hnames i (hset k hk i hi).1).ne'
  · by_contra hne
    obtain ⟨i, hi, heqi⟩ := hat k hk
    obtain ⟨j, hj, heqj⟩ := hat l hl
    have hsi : s ∈ cs[k].set := by
      rw [← (hset k hk i hi).2, List.mem_toFinset, ← heqi]
      exact hsk
    have hsj : s ∈ cs[l].set := by
      rw [← (hset l hl j hj).2, List.mem_toFinset, ← heqj]
      exact hsl
    have hk' : k < (cs.map (·.set)).length := by
      rw [List.length_map]
      exact hk
    have hl' : l < (cs.map (·.set)).length := by
      rw [List.length_map]
      exact hl
    rw [List.pairwise_iff_getElem] at hdisj
    rcases Nat.lt_or_gt_of_ne hne with hlt | hlt
    · have hd := hdisj k l hk' hl' hlt
      rw [List.getElem_map, List.getElem_map] at hd
      exact Finset.disjoint_left.mp hd hsi hsj
    · have hd := hdisj l k hl' hk' hlt
      rw [List.getElem_map, List.getElem_map] at hd
      exact Finset.disjoint_left.mp hd hsj hsi
  · obtain ⟨i, hi, heq⟩ := hat k hk
    exact ⟨i, (hset k hk i hi).1, heq⟩

/-- The set of a ubatch of `split_seq`. -/
lemma splitSeq_sets {a : BatchAllocr} {nUbatch : ℕ} {idxs : List ℕ} {res : UBatch × BatchAllocr}
    (hnames : ∀ i < a.batch.nTokens, 0 < a.batch.nSeqId i) (hem : Emits a idxs res)
    (hres : a.splitSeq nUbatch = res) :
    res.1.Sets ∧ ∀ k < res.1.nSeqs, ∃ i < a.batch.nTokens, res.1.setIds k = a.batch.seqs i := by
  have hpos : 0 < idxs.length := List.length_pos_iff.mpr hem.ne_nil
  obtain ⟨hlt, hfree⟩ := hem.free idxs[0] (List.getElem_mem hpos)
  have hone : res.1.nSeqs = 1 ∧ res.1.equalSeqs = true := by
    rw [← hres, splitSeq]
    cases hfu : a.firstUnused with
    | none =>
      rw [firstUnused_none hfu _ hlt] at hfree
      cases hfree
    | some cur => exact ⟨rfl, rfl⟩
  have hset : ∀ k < res.1.nSeqs, res.1.setIds k = a.batch.seqs idxs[0] := by
    intro k hk
    rw [hone.1, Nat.lt_one_iff] at hk
    rw [hk, UBatch.setIds, Nat.zero_mul, hem.emitted.carries.seqs 0 hpos]
  refine ⟨⟨hone.2, hone.1 ▸ Nat.one_pos, fun k hk => ?_, fun k hk l hl _ _ _ => ?_⟩, fun k hk => ?_⟩
  · rw [hset k hk, FullBatch.seqs, Ne, List.map_eq_nil_iff, List.range_eq_nil]
    exact (hnames _ hlt).ne'
  · rw [hone.1, Nat.lt_one_iff] at hk hl
    rw [hk, hl]
  · exact ⟨_, hlt, hset k hk⟩

end BatchAllocr

/-- A ubatch that `init_batch` makes of an accepted batch whose tokens name sequences below
`nSeqMax`. -/
def UBatch.FromBatch (nSeqMax : ℕ) (ub : UBatch) : Prop :=
  ∃ nPos inp nVocab memory nEmbd outputAll a st fuel steps,
    BatchAllocr.init nPos inp nVocab memory nEmbd nSeqMax outputAll = some a ∧
      (∀ i < a.batch.nTokens, 0 < a.batch.nSeqId i) ∧ st.MakesSets ∧
      drain st fuel a = some steps ∧ ub ∈ steps.map Prod.fst

/-- **The sets of a ubatch list a sequence each and do not overlap**, and their ids are in
range. -/
theorem UBatch.FromBatch.sets_ids {nSeqMax : ℕ} {ub : UBatch} (h : ub.FromBatch nSeqMax) :
    ub.Sets ∧ ∀ k < ub.nSeqs, ∀ s ∈ ub.setIds k, 0 ≤ s ∧ (s = 0 ∨ s < nSeqMax) := by
  obtain ⟨nPos, inp, nVocab, memory, nEmbd, outputAll, a, st, fuel, steps, hinit, hnames, hst,
    hdrain, hub⟩ := h
  have htab : a.Tables := init_eq hinit ▸ tables_ofFull _ _ _ _
  by_cases hallow : st.Allowed a
  · obtain ⟨a', idxs, res, hsame, hinv, hem, hres, rfl⟩ :=
      BatchAllocr.drain_mem st htab hallow (st.inv_init hinit) hdrain hub
    have htab' := hsame.tables htab
    have hallow' := hsame.allowed hallow
    have hnames' : ∀ i < a'.batch.nTokens, 0 < a'.batch.nSeqId i := by
      rw [hsame.batch]
      exact hnames
    have hids : ∀ {ub : UBatch}, (ub.Sets ∧ ∀ k < ub.nSeqs, ∃ i < a'.batch.nTokens,
        ub.setIds k = a'.batch.seqs i) →
        ub.Sets ∧ ∀ k < ub.nSeqs, ∀ s ∈ ub.setIds k, 0 ≤ s ∧ (s = 0 ∨ s < nSeqMax) := by
      rintro ub ⟨hsets, htoks⟩
      refine ⟨hsets, fun k hk s hs => ?_⟩
      obtain ⟨i, hi, heq⟩ := htoks k hk
      rw [hsame.batch] at hi heq
      rw [heq] at hs
      exact ids_of_init hinit i hi s hs
    cases st with
    | simple n => exact hst.elim
    | equal n sequential nKeepTail =>
      have hset : ∀ i < a'.batch.nTokens, a'.used i = false → a'.seqSet i ≠ ∅ := by
        intro i hi _
        rw [htab'.seqSet_eq, Ne, List.toFinset_eq_empty_iff, FullBatch.seqs, List.map_eq_nil_iff,
          List.range_eq_nil]
        exact (hnames' i hi).ne'
      obtain ⟨t, ht⟩ := List.exists_mem_of_ne_nil idxs hem.ne_nil
      obtain ⟨r, cs, res', hres', hrun, hpfx⟩ := splitEqual_spec htab' hinv hset
        hallow'.1 hallow'.2.1 ⟨t, hem.free t ht⟩
      obtain rfl : res' = res := Option.some.inj (hres'.symm.trans hres)
      exact hids (hrun.sets htab' hnames' hpfx)
    | seq n => exact hids (BatchAllocr.splitSeq_sets hnames' hem (Option.some.inj hres))
  · rw [drain_of_not_allowed hallow hnames hdrain] at hub
    cases hub

lemma UBatch.FromBatch.sets {nSeqMax : ℕ} {ub : UBatch} (h : ub.FromBatch nSeqMax) : ub.Sets :=
  h.sets_ids.1

end Llama
