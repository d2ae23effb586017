import Llama.Context.Rows

/-!
# The rows of the tokens

Next-token rows without the mask, and captured layer inputs, are rows of the batch tokens, but
they are stored in the order in which the splits emit the tokens, and exchanged by the swaps
that sort the outputs.  So a row is that of its token only if these swaps happen to sort all
tokens (`Context.InStep`): they do when the tokens are emitted in the order of the batch, and
when all of them are outputs.
-/

namespace Llama.Context

open List

variable {a : BatchAllocr} {parts : List (List ℕ)} {outIds : List ℕ}

/-- The emitted tokens are ordered as the emitted outputs are, as far as there are outputs, and
from there on each is in its place. -/
def InStep (a : BatchAllocr) (parts : List (List ℕ)) (outIds : List ℕ) : Prop :=
  (∀ i, a.nOutputs ≤ i → i < a.batch.nTokens → parts.flatten.getD i 0 = i) ∧
    ∀ i j, i < a.nOutputs → j < a.nOutputs →
      (parts.flatten.getD i 0 < parts.flatten.getD j 0 ↔ outIds.getD i 0 < outIds.getD j 0)

/-- `get_embeddings_nextn_ith` returns the row of each token. -/
def NextnRight (p : Params) (f : ℕ → ℕ → UInt32) (n : ℕ) (st : Outputs) : Prop :=
  ∀ t < n, ∃ offset, (getEmbeddingsNextnIth p t st).2 = some offset ∧
    ∀ k < p.nEmbdOut, (getEmbeddingsNextnIth p t st).1.embdNextn.data (offset + k) = f t k

/-- `get_embeddings_layer_inp` returns the rows of the tokens. -/
def LayerInpRight (p : Params) (lid : ℕ) (f : ℕ → ℕ → UInt32) (n : ℕ) (st : Outputs) : Prop :=
  ∀ t < n, ∀ k < p.nEmbd,
    ((Getter.embeddingsLayerInp lid).call p st |>.embdLayerInp lid).data (t * p.nEmbd + k) = f t k

/-- The rows of two tokens differ. -/
def RowsDiffer (width n : ℕ) (f : ℕ → ℕ → UInt32) : Prop :=
  ∀ t t', t < n → t' < n → (∀ k < width, f t k = f t' k) → t = t'

/-- Numbers below `m` that increase are all the numbers below `m`. -/
lemma eq_self_of_increasing {m : ℕ} {g : ℕ → ℕ} (hlt : ∀ i < m, g i < m)
    (hinc : ∀ i j, i < j → j < m → g i < g j) : ∀ i < m, g i = i := by
  have hlow : ∀ i < m, i ≤ g i := by
    intro i
    induction i with
    | zero => exact fun _ => Nat.zero_le _
    | succ i ih =>
      intro hi
      have h2 := hinc i (i + 1) (by omega) hi
      omega
  have hhigh : ∀ d < m, g (m - 1 - d) ≤ m - 1 - d := by
    intro d
    induction d with
    | zero =>
      intro hd
      have := hlt (m - 1 - 0) (by omega)
      omega
    | succ d ih =>
      intro hd
      have h2 := hinc (m - 1 - (d + 1)) (m - 1 - d) (by omega) (by omega)
      omega
  intro i hi
  have hd := hhigh (m - 1 - i) (by omega)
  have heq : m - 1 - (m - 1 - i) = i := by omega
  rw [heq] at hd
  exact le_antisymm hd (hlow i hi)

variable {st : Outputs} {f : ℕ → ℕ → UInt32}

/-- The swaps that sort the outputs sort all tokens exactly when the tokens are in step. -/
lemma Sorted.inStep_iff (hsplit : SplitInto a parts outIds) (h : Sorted outIds a.nOutputs st) :
    (∀ i < a.batch.nTokens, parts.flatten.getD (Swaps.perm st.outputSwaps i) 0 = i) ↔
      InStep a parts outIds := by
  have hle := hsplit.nOutputs_le
  have hlen : parts.flatten.length = a.batch.nTokens := by
    rw [hsplit.perm.length_eq, length_range]
  have hnd : parts.flatten.Nodup := hsplit.perm.nodup_iff.mpr nodup_range
  have hfix : ∀ i, a.nOutputs ≤ i → Swaps.perm st.outputSwaps i = i :=
    fun i hi => Swaps.perm_of_le h.bounds hi
  have hlt : ∀ i < a.nOutputs, Swaps.perm st.outputSwaps i < a.nOutputs :=
    fun i hi => Swaps.perm_lt h.bounds hi
  -- the swaps sort the outputs
  have hinc : ∀ i j, i < j → j < a.nOutputs → outIds.getD (Swaps.perm st.outputSwaps i) 0 <
      outIds.getD (Swaps.perm st.outputSwaps j) 0 := by
    intro i j hij hj
    refine lt_of_le_of_ne (h.sorted i j hij.le hj) fun heq => ?_
    have hsame := getD_injective hsplit.nodup (by rw [hsplit.length]; exact hlt i (by omega))
      (by rw [hsplit.length]; exact hlt j hj) heq
    have hij' := (Swaps.perm st.outputSwaps).injective hsame
    omega
  constructor
  · intro hid
    refine ⟨fun i hi hin => by rw [← hfix i hi, hid i hin, hfix i hi], fun i j hi hj => ?_⟩
    have hfrom : ∀ i < a.nOutputs, ∃ i' < a.nOutputs, Swaps.perm st.outputSwaps i' = i := by
      intro i hi
      obtain ⟨i', rfl⟩ := (Swaps.perm st.outputSwaps).surjective i
      refine ⟨i', ?_, rfl⟩
      by_contra hge
      rw [hfix i' (not_lt.mp hge)] at hi
      exact hge hi
    obtain ⟨i', hi', rfl⟩ := hfrom i hi
    obtain ⟨j', hj', rfl⟩ := hfrom j hj
    rw [hid i' (by omega), hid j' (by omega)]
    refine ⟨fun hij => hinc i' j' hij hj', fun hij => ?_⟩
    by_contra hge
    exact absurd (h.sorted j' i' (not_lt.mp hge) hi') (not_le.mpr hij)
  · rintro ⟨htail, horder⟩ i hi
    by_cases hge : a.nOutputs ≤ i
    · rw [hfix i hge]
      exact htail i hge hi
    · refine @eq_self_of_increasing a.nOutputs
        (fun i => parts.flatten.getD (Swaps.perm st.outputSwaps i) 0) (fun i hi => ?_)
        (fun i j hij hj => ?_) i (not_le.mp hge)
      · -- the tokens from there on are in their places, and no token stands twice
        by_contra hge
        have hpos := hlt i hi
        have hget : parts.flatten.getD (Swaps.perm st.outputSwaps i) 0 < a.batch.nTokens := by
          rw [getD_eq_getElem _ _ (by omega)]
          exact hsplit.mem_flatten.mp (getElem_mem _)
        have hself := htail _ (not_lt.mp hge) hget
        have hsame := getD_injective hnd (by omega) (by omega) hself
        omega
      · exact (horder _ _ (hlt i (hij.trans hj)) (hlt j hj)).mpr (hinc i j hij hj)

/-- A view that the loop has filled with the rows of all tokens, once the swaps are applied. -/
lemma reorderView_copyTokens {width : ℕ} {c : List ℕ → Bool} (hsplit : SplitInto a parts outIds)
    {v v' : BufferView} (hcopy : copyParts width (some f) c id parts 0 v = some v')
    (hc : ∀ tokens ∈ parts, tokens ≠ [] → c tokens = true) (hsize : 0 < v.size)
    (h : Sorted outIds a.nOutputs st) {i : ℕ} (hi : i < a.batch.nTokens) {k : ℕ} (hk : k < width) :
    (reorderView width st.outputSwaps v').data (i * width + k) =
      f (parts.flatten.getD (Swaps.perm st.outputSwaps i) 0) k := by
  have hle := hsplit.nOutputs_le
  have hnd : parts.flatten.Nodup := hsplit.perm.nodup_iff.mpr nodup_range
  have hlt : Swaps.perm st.outputSwaps i < parts.flatten.length := by
    rw [hsplit.perm.length_eq, length_range]
    refine Swaps.perm_lt (fun s hs => ?_) hi
    have hs := h.bounds s hs
    omega
  obtain ⟨hsize', -, hrows⟩ := copyParts_spec parts hcopy
  rw [reorderView_spec _ (by rw [hsize']; exact hsize) i k hk]
  -- the token that stands where the row comes from
  generalize Swaps.perm st.outputSwaps i = r at hlt ⊢
  have hr : parts.flatten[r]? = some (parts.flatten.getD r 0) := by
    rw [getD_eq_getElem _ _ hlt, getElem?_eq_getElem hlt]
  obtain ⟨tokens, hpart, htok⟩ := List.mem_flatten.mp (mem_of_getElem? hr)
  obtain ⟨r', hr', hdata⟩ := hrows tokens hpart (hc tokens hpart (ne_nil_of_mem htok)) _ htok
  rw [flatMap_id] at hr'
  obtain ⟨hlt', -⟩ := List.getElem?_eq_some_iff.mp hr'
  have hsame : r' = r := by
    refine getD_injective hnd hlt' hlt ?_
    rw [getD_eq_getElem?_getD, hr', Option.getD_some]
  rw [← hdata k hk, hsame, Nat.zero_add]

/-- Rows that are read by the token are right when all tokens are sorted, and only then if they
differ. -/
lemma rows_iff {width : ℕ} {data : ℕ → ℕ → UInt32} (hsplit : SplitInto a parts outIds)
    (h : Sorted outIds a.nOutputs st) (hdata : ∀ i < a.batch.nTokens, ∀ k < width,
      data i k = f (parts.flatten.getD (Swaps.perm st.outputSwaps i) 0) k) :
    (InStep a parts outIds → ∀ i < a.batch.nTokens, ∀ k < width, data i k = f i k) ∧
      (RowsDiffer width a.batch.nTokens f →
        (∀ i < a.batch.nTokens, ∀ k < width, data i k = f i k) → InStep a parts outIds) := by
  rw [← h.inStep_iff hsplit]
  constructor
  · intro hid i hi k hk
    rw [hdata i hi k hk, hid i hi]
  · intro hdiffer hright i hi
    have hle := hsplit.nOutputs_le
    have hlt : Swaps.perm st.outputSwaps i < a.batch.nTokens := by
      refine Swaps.perm_lt (fun s hs => ?_) hi
      have hs := h.bounds s hs
      omega
    refine hdiffer _ i ?_ hi fun k hk => (hdata i hi k hk).symm.trans (hright i hi k hk)
    have hlen : Swaps.perm st.outputSwaps i < parts.flatten.length := by
      rwa [hsplit.perm.length_eq, length_range]
    rw [getD_eq_getElem _ _ hlen]
    exact hsplit.mem_flatten.mp (getElem_mem hlen)

lemma reorderView_size (width : ℕ) (swaps : List (ℕ × ℕ)) : ∀ v : BufferView,
    (reorderView width swaps v).size = v.size := by
  induction swaps with
  | nil => exact fun v => rfl
  | cons s swaps ih => exact fun v => (ih _).trans (swapRows_size width s.1 s.2 v)

/-- The row that `get_embeddings_nextn_ith` returns for a token. -/
lemma getEmbeddingsNextnIth_eq {p : Params} {rows : TokenRows} {st' : Outputs}
    (hsplit : SplitInto a parts outIds) (h : decode p a parts outIds rows st = some st')
    (gs : List Getter) (hon : p.embeddingsNextn = true) (hmask : p.embeddingsNextnMasked = false)
    (hpool : p.poolingNone = true) (hf : rows.nextn = some f) {t : ℕ} (ht : t < a.batch.nTokens) :
    (getEmbeddingsNextnIth p t (callAll p gs st')).2 = some (t * p.nEmbdOut) ∧
      ∀ k < p.nEmbdOut, (getEmbeddingsNextnIth p t (callAll p gs st')).1.embdNextn.data
        (t * p.nEmbdOut + k) = f (parts.flatten.getD (Swaps.perm st'.outputSwaps t) 0) k := by
  obtain ⟨-, hbatch, st0, st1, h0, h1, -, -, hnextn, -, -, hsorted⟩ := decode_spec hsplit h
  obtain ⟨-, -, -, -, hcopy, -⟩ := decodeLoop_spec hsplit parts (fun _ h => h) h1
  obtain ⟨-, -, hsize, -⟩ := outputReserve_spec h0
  have hcopy := hcopy hon hmask hpool
  have hsize := hsize hon hmask
  rw [hf] at hcopy
  obtain ⟨hsize1, -⟩ := copyParts_spec parts hcopy
  have hfits : (t + 1) * p.nEmbdOut ≤ p.nEmbdOut * p.nBatch := by
    rw [Nat.mul_comm]
    exact Nat.mul_le_mul_left _ (by omega)
  rw [getEmbeddingsNextnIth, outputReorder_callAll, outputReorder_eq]
  constructor
  · have hneg : ¬ ((t : ℤ) < 0 ∨ (reorderView p.nEmbdOut st'.outputSwaps st'.embdNextn).size <
        ((t : ℤ).toNat + 1) * p.nEmbdOut) := by
      rw [reorderView_size, hnextn, Int.toNat_natCast]
      omega
    simp only [hon, hmask, Bool.not_true, Bool.not_false, Bool.false_eq_true, if_false, if_true]
    rw [if_neg hneg, Int.toNat_natCast]
  · intro k hk
    rw [hnextn]
    refine reorderView_copyTokens hsplit hcopy (fun tokens _ hne => ?_) ?_ hsorted ht hk
    · exact decide_eq_true (length_pos_of_ne_nil hne)
    · rw [hsize]
      exact Nat.mul_pos (by omega) (by omega)

/-- The rows of a captured layer. -/
lemma embdLayerInp_eq {p : Params} {rows : TokenRows} {st' : Outputs}
    (hsplit : SplitInto a parts outIds) (h : decode p a parts outIds rows st = some st')
    (gs : List Getter) {lid : ℕ} (hon : p.layerInp lid = true) (hf : rows.layerInp lid = some f)
    {t : ℕ} (ht : t < a.batch.nTokens) {k : ℕ} (hk : k < p.nEmbd) :
    ((Getter.embeddingsLayerInp lid).call p (callAll p gs st') |>.embdLayerInp lid).data
      (t * p.nEmbd + k) = f (parts.flatten.getD (Swaps.perm st'.outputSwaps t) 0) k := by
  obtain ⟨-, hbatch, st0, st1, h0, h1, -, -, -, hlayers, -, hsorted⟩ := decode_spec hsplit h
  obtain ⟨-, -, -, -, -, hcopy⟩ := decodeLoop_spec hsplit parts (fun _ h => h) h1
  obtain ⟨-, -, -, hsize⟩ := outputReserve_spec h0
  have hcopy := hcopy lid hon
  rw [hf] at hcopy
  have hcall : (Getter.embeddingsLayerInp lid).call p (callAll p gs st') =
      outputReorder p (callAll p gs st') := rfl
  rw [hcall, outputReorder_callAll, outputReorder_eq, hlayers]
  refine reorderView_copyTokens hsplit hcopy (fun _ _ _ => rfl) ?_ hsorted ht hk
  rw [hsize lid hon]
  exact Nat.mul_pos (by omega) (by omega)

/-- **The rows of the tokens** are right for every split whose tokens are in step, however many
getters have been called, and, where the rows differ, for no other split. -/
theorem token_rows_iff {p : Params} {rows : TokenRows} {st st' : Outputs}
    (hsplit : SplitInto a parts outIds) (h : decode p a parts outIds rows st = some st')
    (gs : List Getter) :
    (p.embeddingsNextn = true → p.embeddingsNextnMasked = false → p.poolingNone = true →
      ∀ f, rows.nextn = some f →
        (InStep a parts outIds → NextnRight p f a.batch.nTokens (callAll p gs st')) ∧
        (RowsDiffer p.nEmbdOut a.batch.nTokens f →
          NextnRight p f a.batch.nTokens (callAll p gs st') → InStep a parts outIds)) ∧
    ∀ lid, p.layerInp lid = true → ∀ f, rows.layerInp lid = some f →
      (InStep a parts outIds → LayerInpRight p lid f a.batch.nTokens (callAll p gs st')) ∧
      (RowsDiffer p.nEmbd a.batch.nTokens f →
        LayerInpRight p lid f a.batch.nTokens (callAll p gs st') → InStep a parts outIds) := by
  obtain ⟨-, -, -, -, -, -, -, -, -, -, -, hsorted⟩ := decode_spec hsplit h
  refine ⟨fun hon hmask hpool f hf => ?_, fun lid hon f hf => ?_⟩
  · have hget : ∀ t < a.batch.nTokens, _ := fun t ht =>
      getEmbeddingsNextnIth_eq hsplit h gs hon hmask hpool hf ht
    obtain ⟨hright, honly⟩ := rows_iff hsplit hsorted fun t ht => (hget t ht).2
    refine ⟨fun hstep t ht => ⟨_, (hget t ht).1, hright hstep t ht⟩, fun hdiffer hnextn => ?_⟩
    refine honly hdiffer fun t ht k hk => ?_
    obtain ⟨offset, hoffset, hrow⟩ := hnextn t ht
    rw [(hget t ht).1] at hoffset
    cases hoffset
    exact hrow k hk
  · exact rows_iff hsplit hsorted fun t ht k hk => embdLayerInp_eq hsplit h gs hon hf ht hk

/-- The two sequences, with the last token as the only output. -/
def lastOutput : LlamaBatch := twoSequences fun t => if t = 3 then 1 else 0

lemma exists_lastOutput : ∃ a st', BatchAllocr.init 1 lastOutput 10 none 0 2 false = some a ∧
      SplitInto a [[0, 2], [1, 3]] [3] ∧
      decode (oneColumn false) a [[0, 2], [1, 3]] [3] numberRows noOutputs = some st' := by
  have hacc : (BatchAllocr.init 1 lastOutput 10 none 0 2 false).isSome = true := by
    decide +kernel
  obtain ⟨a, ha⟩ := Option.isSome_iff_exists.mp hacc
  have hsplit : SplitInto a [[0, 2], [1, 3]] [3] := by
    rw [BatchAllocr.init_eq ha]
    exact ⟨by decide, by decide, by decide⟩
  have hdecode : (decode (oneColumn false) a [[0, 2], [1, 3]] [3] numberRows
      noOutputs).isSome = true := by
    rw [BatchAllocr.init_eq ha]
    decide +kernel
  obtain ⟨st', hst'⟩ := Option.isSome_iff_exists.mp hdecode
  exact ⟨a, st', ha, hsplit, hst'⟩

theorem token_rows_iff_lastOutput : ∃ a st',
    decode (oneColumn false) a [[0, 2], [1, 3]] [3] numberRows noOutputs = some st' ∧
      (InStep a [[0, 2], [1, 3]] [3] → NextnRight (oneColumn false) (fun t _ => t.toUInt32)
        a.batch.nTokens (callAll (oneColumn false) [.logits] st')) ∧
      (RowsDiffer 1 a.batch.nTokens (fun t _ => t.toUInt32) →
        NextnRight (oneColumn false) (fun t _ => t.toUInt32) a.batch.nTokens
          (callAll (oneColumn false) [.logits] st') → InStep a [[0, 2], [1, 3]] [3]) := by
  obtain ⟨a, st', -, hsplit, hst'⟩ := exists_lastOutput
  exact ⟨a, st', hst', (token_rows_iff hsplit hst' [.logits]).1 rfl rfl rfl _ rfl⟩

/-- The splitter emits the tokens 0 and 2, then 1 and 3.  The getter returns the row of token 2
for token 1, and so do the layer inputs. -/
theorem not_nextnRight_lastOutput : ∃ a st',
    BatchAllocr.init 1 lastOutput 10 none 0 2 false = some a ∧
      ((BatchAllocr.drain (.equal 2 true 0) 5 a).map fun steps => steps.map fun step =>
        (List.range step.1.nTokens).map fun k => step.1.token.map fun token => token k) =
          some [[some 0, some 2], [some 1, some 3]] ∧
      decode (oneColumn false) a [[0, 2], [1, 3]] [3] numberRows noOutputs = some st' ∧
      ¬ NextnRight (oneColumn false) (fun t _ => t.toUInt32) a.batch.nTokens st' ∧
      ¬ LayerInpRight (oneColumn false) 0 (fun t _ => t.toUInt32) a.batch.nTokens st' := by
  obtain ⟨a, st', ha, hsplit, hst'⟩ := exists_lastOutput
  have hdrain : ((BatchAllocr.drain (.equal 2 true 0) 5 a).map fun steps => steps.map fun step =>
      (List.range step.1.nTokens).map fun k => step.1.token.map fun token => token k) =
        some [[some 0, some 2], [some 1, some 3]] := by
    rw [BatchAllocr.init_eq ha]
    decide +kernel
  have hlt : 1 < a.batch.nTokens := by
    rw [BatchAllocr.init_eq ha]
    decide
  have hrows : ((decode (oneColumn false) a [[0, 2], [1, 3]] [3] numberRows noOutputs).map
      fun st => ((getEmbeddingsNextnIth (oneColumn false) 1 st).2,
        (getEmbeddingsNextnIth (oneColumn false) 1 st).1.embdNextn.data 1,
        ((outputReorder (oneColumn false) st).embdLayerInp 0).data 1)) = some (some 1, 2, 2) := by
    rw [BatchAllocr.init_eq ha]
    decide +kernel
  rw [hst'] at hrows
  have hrows := Option.some.inj hrows
  refine ⟨a, st', ha, hdrain, hst', fun hright => ?_, fun hright => ?_⟩
  · obtain ⟨offset, hoffset, hrow⟩ := hright 1 hlt
    have hoffset' : (getEmbeddingsNextnIth (oneColumn false) 1 st').2 = some 1 :=
      congrArg Prod.fst hrows
    have hone : offset = 1 := Option.some.inj (hoffset.symm.trans hoffset')
    have hval := hrow 0 (by decide)
    rw [hone] at hval
    have hdata : (getEmbeddingsNextnIth (oneColumn false) 1 st').1.embdNextn.data (1 + 0) = 2 :=
      congrArg (fun r => r.2.1) hrows
    exact absurd (hdata.symm.trans hval) (by decide)
  · have hval := hright 1 hlt 0 (by decide)
    have hdata : ((outputReorder (oneColumn false) st').embdLayerInp 0).data (1 * 1 + 0) = 2 :=
      congrArg (fun r => r.2.2) hrows
    exact absurd (hdata.symm.trans hval) (by decide)

end Llama.Context
