import Llama.Batch.Accepted
import Llama.Batch.Order

/-!
# The sets along a sequence

The last check of `init` is to refuse a batch in which a sequence goes back to tokens that
it shares with others: along the tokens of a sequence the sets may only shrink.  The check
keeps the intersection of the sets of a sequence and fails when it is empty, which it never
is, because each of these sets has the sequence itself.  So a batch is refused by the other
checks or not at all, and its sets shrink only if the caller made them so.
-/

namespace Llama

open List

/-- Token `j` of sequence `s` names a sequence that the token of `s` before it does not. -/
def FullBatch.Widens (b : FullBatch) (s : ℤ) (j : ℕ) : Prop :=
  s ∈ b.seqs j ∧ ∃ i < j, s ∈ b.seqs i ∧ (∀ k < j, i < k → s ∉ b.seqs k) ∧
    ∃ t ∈ b.seqs j, t ∉ b.seqs i

namespace BatchAllocr

/-- Along the tokens of each sequence the sequence sets only shrink. -/
def Shrinks (a : BatchAllocr) : Prop :=
  ∀ i j, i < j → j < a.batch.nTokens → ∀ s ∈ a.batch.seqs i, s ∈ a.batch.seqs j →
    a.seqSet j ⊆ a.seqSet i

/-- The checks of `init` other than that of the sequence sets: the sizes, the token and
sequence ids, the positions against the memory, and the order of the positions. -/
structure OtherChecks (a : BatchAllocr) (inp : LlamaBatch) (nVocab : ℕ)
    (memory : Option MemoryPos) (nSeqMax : ℕ) : Prop where
  nTokens : 0 < inp.nTokens
  nSeqMax_le : nSeqMax ≤ maxSeq
  tokens : validTokens inp nVocab = true
  ids : validSeqIds inp nSeqMax = true
  positions : ∀ s < nSeqMax, consistentSeq a memory (s : ℕ) = true
  coupled : consistentCpl a memory = true
  start : ∀ j < inp.nTokens, ∀ s ∈ a.batch.seqs j, -1 ≤ a.batch.pos j
  order : ∀ i j, i < j → j < inp.nTokens → ∀ s ∈ a.batch.seqs i, s ∈ a.batch.seqs j →
    a.batch.pos i ≤ a.batch.pos j

/-- The loop over the sequences of a token intersects their sets with that of the token. -/
lemma orderSeqs_sets {set : Finset ℤ} {p : ℤ} (ss : List ℤ) :
    ∀ {curSet curSet' : ℤ → Finset ℤ} {curPos curPos' : ℤ → ℤ},
      orderSeqs set p ss curSet curPos = some (curSet', curPos') →
        ∀ s, curSet' s = if s ∈ ss then curSet s ∩ set else curSet s := by
  induction ss with
  | nil =>
    intro curSet curSet' curPos curPos' h s
    cases h
    simp
  | cons t ss ih =>
    intro curSet curSet' curPos curPos' h s
    simp only [orderSeqs] at h
    split at h
    · cases h
    · split at h
      · cases h
      · rw [ih h]
        by_cases hst : s = t
        · subst hst
          simp [Finset.inter_assoc]
        · simp [hst]

/-- The check passes when the positions do not decrease, whatever the sets are. -/
lemma orderTokens_of_sorted {a : BatchAllocr} (htab : a.Tables) (is : List ℕ) :
    ∀ {curSet : ℤ → Finset ℤ} {curPos : ℤ → ℤ}, (∀ j ∈ is, ∀ s ∈ a.batch.seqs j, s ∈ curSet s) →
      (∀ j ∈ is, ∀ s ∈ a.batch.seqs j, curPos s ≤ a.batch.pos j) →
      (is.Pairwise fun i j => ∀ s ∈ a.batch.seqs i, s ∈ a.batch.seqs j →
        a.batch.pos i ≤ a.batch.pos j) → orderTokens a is curSet curPos = true := by
  induction is with
  | nil => exact fun _ _ _ => rfl
  | cons i is ih =>
    intro curSet curPos hset hpos hsorted
    obtain ⟨hfirst, hsorted⟩ := pairwise_cons.mp hsorted
    have hmem : ∀ s ∈ a.batch.seqs i, s ∈ a.seqSet i := fun s hs => by
      rw [htab.seqSet_eq, mem_toFinset]
      exact hs
    have hsome := (orderSeqs_isSome_iff (a.batch.seqs i) hmem (hset i mem_cons_self)).mpr
      (hpos i mem_cons_self)
    obtain ⟨cur, hcur⟩ := Option.isSome_iff_exists.mp hsome
    rw [orderTokens, hcur]
    refine ih (fun j hj s hs => ?_) (fun j hj s hs => ?_) hsorted
    · rw [orderSeqs_sets _ hcur]
      have hs' := hset j (mem_cons_of_mem _ hj) s hs
      split
      · rename_i hsi
        exact Finset.mem_inter.mpr ⟨hs', hmem s hsi⟩
      · exact hs'
    · rw [(orderSeqs_some _ hcur).2]
      split
      · rename_i hsi
        exact hfirst j hj s hsi hs
      · exact hpos j (mem_cons_of_mem _ hj) s hs

lemma otherChecks_of_init {nPos nVocab nEmbd nSeqMax : ℕ} {inp : LlamaBatch}
    {memory : Option MemoryPos} {outputAll : Bool} {a : BatchAllocr}
    (h : init nPos inp nVocab memory nEmbd nSeqMax outputAll = some a) :
    a.OtherChecks inp nVocab memory nSeqMax := by
  have hinc := increasing_of_init h
  have ha := init_eq h
  have htab : a.Tables := ha ▸ tables_ofFull _ _ _ _
  have hn : a.batch.nTokens = inp.nTokens := by rw [ha]; rfl
  simp only [init] at h
  split at h
  · rename_i hc
    rw [← ha] at hc
    obtain ⟨h1, h2, h3, h4, h5, h6, h7⟩ := hc
    obtain ⟨hstart, -⟩ := orderTokens_spec _ h7
    refine ⟨h1, h2, h3, h4, fun s hs => ?_, h6, fun j hj => hstart j (mem_range.mpr hj), ?_⟩
    · exact all_eq_true.mp h5 s (mem_range.mpr hs)
    · intro i j hij hj s hi hjs
      refine hinc i j s hij (hn ▸ hj) ?_ ?_
      · rwa [htab.seqSet_eq, mem_toFinset]
      · rwa [htab.seqSet_eq, mem_toFinset]
  · cases h

/-- **`init` accepts what passes its other checks.** -/
theorem init_of_otherChecks {nPos nVocab nEmbd nSeqMax : ℕ} {inp : LlamaBatch}
    {memory : Option MemoryPos} {outputAll : Bool} (hpos : 0 < nSeqMax)
    (h : (ofFull nPos (fill inp memory nSeqMax outputAll) nEmbd nSeqMax).OtherChecks inp nVocab
      memory nSeqMax) :
    init nPos inp nVocab memory nEmbd nSeqMax outputAll =
      some (ofFull nPos (fill inp memory nSeqMax outputAll) nEmbd nSeqMax) := by
  set a := ofFull nPos (fill inp memory nSeqMax outputAll) nEmbd nSeqMax with ha
  have hids : ∀ j ∈ range inp.nTokens, ∀ s ∈ a.batch.seqs j, 0 ≤ s ∧ s < nSeqMax := by
    intro j hj s hs
    have hrange := fill_ids h.ids (mem_range.mp hj) s hs
    omega
  have horder : orderTokens a (range inp.nTokens)
      (fun s => if 0 ≤ s ∧ s < nSeqMax then allSeqIds else ∅) (fun _ => -1) = true := by
    refine orderTokens_of_sorted (ha ▸ tables_ofFull _ _ _ _) _ (fun j hj s hs => ?_)
      (fun j hj => h.start j (mem_range.mp hj)) ?_
    · have hrange := hids j hj s hs
      have hmax := h.nSeqMax_le
      rw [if_pos hrange, allSeqIds, Finset.mem_Ico]
      omega
    · refine pairwise_iff_getElem.mpr fun i j hi hj hij => ?_
      simp only [getElem_range]
      exact h.order i j hij (by simpa using hj)
  have hpositions : (range nSeqMax).all (fun (s : ℕ) => consistentSeq a memory s) = true :=
    all_eq_true.mpr fun s hs => h.positions s (mem_range.mp hs)
  simp only [init]
  rw [if_pos ⟨h.nTokens, h.nSeqMax_le, h.tokens, h.ids, hpositions, h.coupled, horder⟩]

lemma mem_seqSet {a : BatchAllocr} (htab : a.Tables) {i : ℕ} {s : ℤ} :
    s ∈ a.seqSet i ↔ s ∈ a.batch.seqs i := by
  rw [htab.seqSet_eq, mem_toFinset]

/-- The sets shrink when none widens: along a sequence the tokens are linked one by one. -/
lemma shrinks_iff {a : BatchAllocr} (htab : a.Tables) :
    a.Shrinks ↔ ∀ s, ∀ j < a.batch.nTokens, ¬ a.batch.Widens s j := by
  constructor
  · rintro h s j hj ⟨hsj, i, hij, hsi, -, t, ht, hnot⟩
    exact hnot ((mem_seqSet htab).mp (h i j hij hj s hsi hsj ((mem_seqSet htab).mpr ht)))
  · intro h
    -- induction on the distance of the two tokens
    suffices hd : ∀ d i j, j ≤ i + d → i < j → j < a.batch.nTokens → ∀ s ∈ a.batch.seqs i,
        s ∈ a.batch.seqs j → a.seqSet j ⊆ a.seqSet i from
      fun i j hij hj => hd j i j (Nat.le_add_left j i) hij hj
    intro d
    induction d with
    | zero => intro i j hd hij; omega
    | succ d ih =>
      intro i j hd hij hj s hsi hsj
      by_cases hbetween : ∃ k < j, i < k ∧ s ∈ a.batch.seqs k
      · obtain ⟨k, hkj, hik, hsk⟩ := hbetween
        have hki := ih i k (by omega) hik (by omega) s hsi hsk
        exact (ih k j (by omega) hkj hj s hsk hsj).trans hki
      · intro t ht
        by_contra hnot
        rw [mem_seqSet htab] at ht hnot
        refine h s j hj ⟨hsj, i, hij, hsi, fun k hkj hik hsk => ?_, t, ht, hnot⟩
        exact hbetween ⟨k, hkj, hik, hsk⟩

/-- **When the accepted batches shrink.**  On an input that passes the other checks the sets
of the accepted batch shrink if and only if no token widens a sequence. -/
theorem init_shrinks_iff (nPos : ℕ) (inp : LlamaBatch) (nVocab : ℕ) (memory : Option MemoryPos)
    (nEmbd nSeqMax : ℕ) (outputAll : Bool) :
    (∀ a, init nPos inp nVocab memory nEmbd nSeqMax outputAll = some a → a.Shrinks) ↔
      ¬ (ofFull nPos (fill inp memory nSeqMax outputAll) nEmbd nSeqMax).OtherChecks inp nVocab
          memory nSeqMax ∨
        ∀ s, ∀ j < inp.nTokens, ¬ (fill inp memory nSeqMax outputAll).Widens s j := by
  have htab := tables_ofFull nPos (fill inp memory nSeqMax outputAll) nEmbd nSeqMax
  constructor
  · intro h
    by_cases hchecks : (ofFull nPos (fill inp memory nSeqMax outputAll) nEmbd nSeqMax).OtherChecks
        inp nVocab memory nSeqMax
    · right
      by_cases hpos : 0 < nSeqMax
      · exact (shrinks_iff htab).mp (h _ (init_of_otherChecks hpos hchecks))
      · -- without sequences there is only the id 0
        rintro s j hj ⟨-, i, hij, hsi, -, t, ht, hnot⟩
        have hs := fill_ids hchecks.ids (by omega) s hsi
        have ht0 := fill_ids hchecks.ids hj t ht
        have heq : t = s := by omega
        exact hnot (heq ▸ hsi)
    · exact .inl hchecks
  · rintro (hchecks | hwidens) a ha
    · exact absurd (init_eq ha ▸ otherChecks_of_init ha) hchecks
    · rw [init_eq ha]
      exact (shrinks_iff htab).mpr hwidens

/-- Tokens of the sets `{0}` and `{0, 1}`. -/
def wideningSets : LlamaBatch where
  nTokens := 2
  token := some fun _ => 7
  embd := none
  pos := some fun i => i
  nSeqId := some fun i => i + 1
  seqId := some fun _ s => s
  logits := none

/-- The batch is accepted although the set of its second token is larger. -/
theorem not_init_shrinks : ∃ a, init 1 wideningSets 10 none 0 2 false = some a ∧ ¬ a.Shrinks := by
  have hacc : (init 1 wideningSets 10 none 0 2 false).isSome = true := by decide +kernel
  obtain ⟨a, ha⟩ := Option.isSome_iff_exists.mp hacc
  refine ⟨a, ha, fun h => ?_⟩
  have hsub := h 0 1 (by decide) (by rw [init_eq ha]; decide) 0 (by rw [init_eq ha]; decide)
  rw [init_eq ha] at hsub
  exact absurd hsub (by decide)

end BatchAllocr
end Llama
