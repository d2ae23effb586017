import Llama.Context
import Llama.Batch.Partition
import Mathlib.Tactic.Linarith

/-!
# The rows of the outputs

Behind the loop over the ubatches the rows of a buffer are in the order in which the splits
emitted the outputs.  `output_ids` and the swaps come from one sort, so that the two agree
once the swaps are applied, and a getter applies them exactly once.
-/

namespace Llama.Context

open List Option Swaps

variable {width : ℕ} {st : Outputs} {tokens : List ℕ} {rows : TokenRows}

/-- Copied rows, and the rows beside them. -/
lemma copyRows_spec {offset : ℕ} {rows : List (ℕ → UInt32)} {v v' : BufferView}
    (h : copyRows width offset rows v = some v') :
    v'.size = v.size ∧ ∀ r k, k < width → v'.data (r * width + k) =
      if offset ≤ r ∧ r < offset + rows.length then rows.getD (r - offset) (fun _ => 0) k
      else v.data (r * width + k) := by
  rw [copyRows] at h
  split at h
  · cases h
    refine ⟨rfl, fun r k hk => ?_⟩
    have hlow : offset * width ≤ r * width + k ↔ offset ≤ r := by
      constructor
      · intro h
        by_contra hlt
        nlinarith only [h, hk, hlt]
      · intro h
        nlinarith only [h]
    have hhigh : r * width + k < (offset + rows.length) * width ↔ r < offset + rows.length := by
      constructor
      · intro h
        by_contra hlt
        nlinarith only [h, hlt]
      · intro h
        nlinarith only [h, hk]
    have hdiv : (r * width + k) / width = r := by
      rw [Nat.mul_comm, Nat.mul_add_div (by omega), Nat.div_eq_of_lt hk, Nat.add_zero]
    have hmod : (r * width + k) % width = k := by
      rw [Nat.mul_comm, Nat.mul_add_mod, Nat.mod_eq_of_lt hk]
    simp only [hlow, hhigh, hdiv, hmod]
  · cases h

/-- Exchanged rows. -/
lemma swapRows_data (width i0 i1 : ℕ) {v : BufferView} (hv : 0 < v.size) (r k : ℕ)
    (hk : k < width) : (swapRows width i0 i1 v).data (r * width + k) =
      Swaps.swapAt (fun r => v.data (r * width + k)) i0 i1 r := by
  -- behind `m` columns these are exchanged and the others are not
  have hloop : ∀ m ≤ width, ∀ r k, k < width → (range m).foldl
      (fun data k => Swaps.swapAt data (i0 * width + k) (i1 * width + k)) v.data (r * width + k) =
        if k < m then Swaps.swapAt (fun r => v.data (r * width + k)) i0 i1 r
        else v.data (r * width + k) := by
    intro m
    induction m with
    | zero => exact fun _ r k _ => (if_neg (Nat.not_lt_zero k)).symm
    | succ m ih =>
      intro hm r k hk
      have hcell : ∀ i : ℕ, r * width + k = i * width + m ↔ r = i ∧ k = m := by
        intro i
        constructor
        · intro h
          have hr : r = i := by
            rcases Nat.lt_trichotomy r i with hlt | rfl | hlt
            · nlinarith only [h, hlt, hk, hm]
            · rfl
            · nlinarith only [h, hlt, hk, hm]
          subst hr
          exact ⟨rfl, Nat.add_left_cancel h⟩
        · rintro ⟨rfl, rfl⟩
          rfl
      have hlast : ∀ i : ℕ, (range m).foldl
          (fun data k => Swaps.swapAt data (i0 * width + k) (i1 * width + k)) v.data
            (i * width + m) = v.data (i * width + m) := fun i => by
        rw [ih (by omega) i m (by omega), if_neg (lt_irrefl m)]
      rw [range_succ, foldl_append, foldl_cons, foldl_nil, Swaps.swapAt,
        hlast, hlast, ih (by omega) r k hk]
      simp only [hcell]
      by_cases hkm : k = m
      · subst hkm
        simp only [and_true, lt_irrefl, if_false, Nat.lt_succ_self, if_true, Swaps.swapAt]
      · have hlt : k < m + 1 ↔ k < m := by omega
        simp only [hkm, and_false, if_false, hlt]
  rw [swapRows, if_pos hv]
  exact (hloop width le_rfl r k hk).trans (if_pos hk)

lemma swapRows_size (width i0 i1 : ℕ) (v : BufferView) :
    (swapRows width i0 i1 v).size = v.size := by
  rw [swapRows]
  split <;> rfl

/-- The swaps applied to one view. -/
def reorderView (width : ℕ) (swaps : List (ℕ × ℕ)) (v : BufferView) : BufferView :=
  swaps.foldl (fun v s => swapRows width s.1 s.2 v) v

lemma reorderView_spec (swaps : List (ℕ × ℕ)) : ∀ {v : BufferView}, 0 < v.size →
    ∀ r k, k < width → (reorderView width swaps v).data (r * width + k) =
      v.data (Swaps.perm swaps r * width + k) := by
  have hreplay : ∀ {v : BufferView}, 0 < v.size → ∀ r k, k < width →
      (reorderView width swaps v).data (r * width + k) =
        replay swaps (fun r => v.data (r * width + k)) r := by
    induction swaps with
    | nil => exact fun _ r k _ => rfl
    | cons s swaps ih =>
      intro v hv r k hk
      have hstep : reorderView width (s :: swaps) v =
          reorderView width swaps (swapRows width s.1 s.2 v) := rfl
      have hrow : (fun r => (swapRows width s.1 s.2 v).data (r * width + k)) =
          Swaps.swapAt (fun r => v.data (r * width + k)) s.1 s.2 :=
        funext fun r => swapRows_data width s.1 s.2 hv r k hk
      rw [hstep, ih (by rwa [swapRows_size]) r k hk, hrow]
      rfl
  intro v hv r k hk
  rw [hreplay hv r k hk, replay_eq]

/-! ## Getters -/

lemma foldl_swapOutputs (p : Params) (swaps : List (ℕ × ℕ)) : ∀ st : Outputs,
    swaps.foldl (swapOutputs p) st = { st with
      logits := reorderView p.nVocab swaps st.logits
      embd := reorderView p.nEmbdOut swaps st.embd
      embdNextn := reorderView p.nEmbdOut swaps st.embdNextn
      embdLayerInp := fun lid => reorderView p.nEmbd swaps (st.embdLayerInp lid) } := by
  induction swaps with
  | nil => exact fun st => rfl
  | cons s swaps ih =>
    intro st
    rw [foldl_cons, ih]
    rfl

/-- `output_reorder` applies the swaps to all views. -/
lemma outputReorder_eq (p : Params) (st : Outputs) : outputReorder p st = { st with
    logits := reorderView p.nVocab st.outputSwaps st.logits
    embd := reorderView p.nEmbdOut st.outputSwaps st.embd
    embdNextn := reorderView p.nEmbdOut st.outputSwaps st.embdNextn
    embdLayerInp := fun lid => reorderView p.nEmbd st.outputSwaps (st.embdLayerInp lid)
    outputSwaps := [] } := by
  rw [outputReorder, foldl_swapOutputs]

lemma outputReorder_outputIds (p : Params) (st : Outputs) :
    (outputReorder p st).outputIds = st.outputIds := by
  rw [outputReorder_eq]

lemma outputReorder_of_nil (p : Params) (h : st.outputSwaps = []) : outputReorder p st = st := by
  obtain ⟨_, _, _, _, _, swaps, _⟩ := st
  obtain rfl : swaps = [] := h
  rfl

/-- Reordering once more changes nothing. -/
lemma outputReorder_outputReorder (p : Params) (st : Outputs) :
    outputReorder p (outputReorder p st) = outputReorder p st := outputReorder_of_nil p rfl

/-- However many getters are called, the next one finds the swaps applied once. -/
lemma outputReorder_callAll (p : Params) (gs : List Getter) : ∀ st : Outputs,
    outputReorder p (callAll p gs st) = outputReorder p st := by
  induction gs with
  | nil => exact fun st => rfl
  | cons g gs ih =>
    intro st
    have hcall : outputReorder p (g.call p st) = outputReorder p st := by
      cases g
      all_goals exact outputReorder_outputReorder p st
    exact (ih (g.call p st)).trans hcall

lemma callAll_outputIds (p : Params) (gs : List Getter) : ∀ st : Outputs,
    (callAll p gs st).outputIds = st.outputIds := by
  induction gs with
  | nil => exact fun st => rfl
  | cons g gs ih =>
    intro st
    have hcall : (g.call p st).outputIds = st.outputIds := by
      cases g
      case embeddingsSeq => rfl
      case sampledTokens => rfl
      all_goals exact outputReorder_outputIds p st
    exact (ih (g.call p st)).trans hcall

/-! ## The loop over the ubatches -/

/-- The ubatches hold each token of the batch once, and the splitter has listed their outputs
in their order. -/
structure SplitInto (a : BatchAllocr) (parts : List (List ℕ)) (outIds : List ℕ) : Prop where
  perm : parts.flatten.Perm (List.range a.batch.nTokens)
  outIds : outIds = parts.flatten.filter (isOutput a.batch)
  nOutputs : a.nOutputs = (List.range a.batch.nTokens).countP (isOutput a.batch)

variable {a : BatchAllocr} {parts : List (List ℕ)} {outIds : List ℕ}

/-- The outputs listed behind the last ubatch of a run. -/
def outIdsAfter : List ℕ → List (UBatch × BatchAllocr) → List ℕ
  | outIds, [] => outIds
  | _, (_, a) :: steps => outIdsAfter a.outIds steps

lemma outIdsAfter_of_accounts (steps : List (UBatch × BatchAllocr)) :
    ∀ {done : List ℕ} {parts : List (List ℕ)}, BatchAllocr.Accounts a done steps parts →
      outIdsAfter (done.filter (isOutput a.batch)) steps =
        (done ++ parts.flatten).filter (isOutput a.batch) := by
  induction steps with
  | nil =>
    intro done parts h
    cases parts with
    | nil => rw [outIdsAfter, flatten_nil, append_nil]
    | cons idxs parts => exact h.elim
  | cons step steps ih =>
    intro done parts h
    cases parts with
    | nil => exact h.elim
    | cons idxs parts =>
      obtain ⟨ub, a'⟩ := step
      obtain ⟨-, -, hout, hrest⟩ := h
      have hout : a'.outIds = (done ++ idxs).filter (isOutput a.batch) := hout
      rw [outIdsAfter, hout, ih hrest, flatten_cons, append_assoc]

/-- **Every strategy** splits an accepted batch so. -/
theorem splitInto_of_drain {nPos nVocab nEmbd nSeqMax : ℕ} {inp : LlamaBatch}
    {memory : Option MemoryPos} {outputAll : Bool}
    (hinit : BatchAllocr.init nPos inp nVocab memory nEmbd nSeqMax outputAll = some a)
    (st : BatchAllocr.Strategy) (hfit : st.Fits a) :
    ∃ steps parts, BatchAllocr.drain st (a.batch.nTokens + 1) a = some steps ∧
      BatchAllocr.Accounts a [] steps parts ∧ SplitInto a parts (outIdsAfter [] steps) := by
  have ha := BatchAllocr.init_eq hinit
  have hunused : a.unusedTokens = range a.batch.nTokens := by
    rw [ha]
    exact filter_eq_self.2 fun _ _ => rfl
  obtain ⟨steps, parts, hdrain, hacc, hperm⟩ := BatchAllocr.drain_spec st (a.batch.nTokens + 1) a []
    (ha ▸ BatchAllocr.tables_ofFull _ _ _ _) hfit (st.inv_init hinit) (by simp [hunused])
    (by rw [ha]; rfl) (by rw [ha]; rfl)
  refine ⟨steps, parts, hdrain, hacc, hunused ▸ hperm, outIdsAfter_of_accounts steps hacc, ?_⟩
  rw [ha]
  rfl

section

variable (h : SplitInto a parts outIds)

include h

lemma SplitInto.length : outIds.length = a.nOutputs := by
  rw [h.outIds, h.nOutputs, ← countP_eq_length_filter]
  exact h.perm.countP_eq _

lemma SplitInto.nodup : outIds.Nodup := by
  rw [h.outIds]
  exact ((h.perm.nodup_iff.mpr nodup_range).filter _)

lemma SplitInto.mem_flatten {t : ℕ} : t ∈ parts.flatten ↔ t < a.batch.nTokens := by
  rw [h.perm.mem_iff, mem_range]

lemma SplitInto.nOutputs_le : a.nOutputs ≤ a.batch.nTokens := by
  rw [h.nOutputs]
  exact countP_le_length.trans length_range.le

/-- The rows that the graphs select are those of the outputs. -/
lemma SplitInto.selectOutputs (ht : tokens ∈ parts) : Context.selectOutputs a.batch
      (countOutputs a.batch a.nOutputs tokens) tokens = tokens.filter (isOutput a.batch) ∧
        countOutputs a.batch a.nOutputs tokens = (tokens.filter (isOutput a.batch)).length := by
  have hcount : countOutputs a.batch a.nOutputs tokens =
      (tokens.filter (isOutput a.batch)).length := by
    rw [countOutputs, ← countP_eq_length_filter]
    split
    · rename_i hall
      -- all tokens of the batch are outputs
      have hout : ∀ t ∈ range a.batch.nTokens, isOutput a.batch t = true := by
        rw [← countP_eq_length, ← h.nOutputs, hall, length_range]
      refine (countP_eq_length.mpr fun t htok => hout t ?_).symm
      exact mem_range.mpr (h.mem_flatten.mp (List.mem_flatten.mpr ⟨tokens, ht, htok⟩))
    · rfl
  refine ⟨?_, hcount⟩
  rw [Context.selectOutputs, hcount]
  split
  · rename_i hlen
    exact (filter_eq_self.mpr (length_filter_eq_length_iff.mp hlen)).symm
  · rfl

end

/-- What the loop does to one buffer: rows of selected tokens, at a running offset. -/
def copyParts (width : ℕ) (tensor : Option (ℕ → ℕ → UInt32)) (c : List ℕ → Bool)
    (select : List ℕ → List ℕ) : List (List ℕ) → ℕ → BufferView → Option BufferView
  | [], _, v => some v
  | tokens :: rest, offset, v => do
    let v ← copyTokens width offset tensor (c tokens) (select tokens) v
    copyParts width tensor c select rest (offset + (select tokens).length) v

lemma copyTokens_spec {offset : ℕ} {f : ℕ → ℕ → UInt32} {c : Bool} {v v' : BufferView}
    (h : copyTokens width offset (some f) c tokens v = some v') :
    v'.size = v.size ∧
      (∀ r k, k < width → r < offset → v'.data (r * width + k) = v.data (r * width + k)) ∧
      (c = true → ∀ i t, tokens[i]? = some t → ∀ k < width,
        v'.data ((offset + i) * width + k) = f t k) := by
  cases c with
  | false =>
    cases h
    exact ⟨rfl, fun _ _ _ _ => rfl, fun h => (by cases h)⟩
  | true =>
    obtain ⟨hsize, hdata⟩ := copyRows_spec h
    refine ⟨hsize, fun r k hk hr => ?_, fun _ i t hi k hk => ?_⟩
    · rw [hdata r k hk, if_neg (by omega)]
    · obtain ⟨hlt, hget⟩ := List.getElem?_eq_some_iff.mp hi
      have hin : offset ≤ offset + i ∧ offset + i < offset + (tokens.map f).length := by
        rw [length_map]
        omega
      rw [hdata _ k hk, if_pos hin, Nat.add_sub_cancel_left, getD_eq_getElem?_getD,
        getElem?_map, hi]
      rfl

/-- A row for every token that is selected in a ubatch whose rows are copied. -/
lemma copyParts_spec {f : ℕ → ℕ → UInt32} {c : List ℕ → Bool} {select : List ℕ → List ℕ}
    (parts : List (List ℕ)) : ∀ {offset : ℕ} {v v' : BufferView},
    copyParts width (some f) c select parts offset v = some v' → v'.size = v.size ∧
      (∀ r k, k < width → r < offset → v'.data (r * width + k) = v.data (r * width + k)) ∧
      ∀ tokens ∈ parts, c tokens = true → ∀ t ∈ select tokens,
        ∃ r, (parts.flatMap select)[r]? = some t ∧
          ∀ k < width, v'.data ((offset + r) * width + k) = f t k := by
  induction parts with
  | nil =>
    intro offset v v' h
    cases h
    exact ⟨rfl, fun _ _ _ _ => rfl, fun _ h => (by cases h)⟩
  | cons tokens rest ih =>
    intro offset v v' h
    obtain ⟨v1, h1, h2⟩ := bind_eq_some_iff.mp h
    obtain ⟨hsize1, hframe1, hrows1⟩ := copyTokens_spec h1
    obtain ⟨hsize2, hframe2, hrows2⟩ := ih h2
    refine ⟨hsize2.trans hsize1, fun r k hk hr => ?_, ?_⟩
    · rw [hframe2 r k hk (by omega), hframe1 r k hk hr]
    · intro tokens' htok hc t ht
      rw [flatMap_cons]
      rcases mem_cons.mp htok with rfl | htok
      · obtain ⟨i, hi⟩ := mem_iff_getElem?.mp ht
        obtain ⟨hlt, -⟩ := List.getElem?_eq_some_iff.mp hi
        refine ⟨i, by rw [getElem?_append_left hlt, hi], fun k hk => ?_⟩
        rw [hframe2 _ k hk (by omega), hrows1 hc i t hi k hk]
      · obtain ⟨r, hr, hdata⟩ := hrows2 tokens' htok hc t ht
        refine ⟨(select tokens).length + r, ?_, fun k hk => ?_⟩
        · rw [getElem?_append_right (Nat.le_add_right _ _), Nat.add_sub_cancel_left, hr]
        · rw [← Nat.add_assoc]
          exact hdata k hk

/-- `extract_layer_inputs` copies to the views of the captured layers. -/
lemma extractLayerInputs_spec {p : Params} {offset : ℕ} (ils : List ℕ) (hnd : ils.Nodup) :
    ∀ {views views' : ℕ → BufferView},
    extractLayerInputs p rows offset tokens ils views = some views' → ∀ lid,
      (lid ∈ ils → p.layerInp lid = true → (rows.layerInp lid).isSome = true) ∧
      copyTokens p.nEmbd offset (rows.layerInp lid) (decide (lid ∈ ils) && p.layerInp lid) tokens
        (views lid) = some (views' lid) := by
  induction ils with
  | nil =>
    intro views views' h lid
    cases h
    refine ⟨fun h => (by cases h), ?_⟩
    cases rows.layerInp lid with
    | none => rfl
    | some f => simp [copyTokens]
  | cons il ils ih =>
    intro views views' h lid
    obtain ⟨hil, hnd⟩ := nodup_cons.mp hnd
    rw [extractLayerInputs] at h
    split at h
    · rename_i hon
      obtain ⟨layer, hlayer, h⟩ := bind_eq_some_iff.mp h
      split at h
      · cases h
      · obtain ⟨v, hv, h⟩ := bind_eq_some_iff.mp h
        obtain ⟨hsome, hcopy⟩ := ih hnd h lid
        by_cases hlid : lid = il
        · subst hlid
          refine ⟨fun _ _ => by rw [hlayer]; rfl, ?_⟩
          rw [Function.update_self, hlayer] at hcopy
          simp only [hil, decide_false, Bool.false_and, copyTokens, Bool.false_eq_true,
            if_false, Option.some.injEq] at hcopy
          simp only [hlayer, copyTokens, mem_cons_self, decide_true, hon, Bool.and_self,
            if_true, ← hcopy]
          exact hv
        · rw [Function.update_of_ne hlid] at hcopy
          simp only [mem_cons, hlid, false_or]
          exact ⟨hsome, hcopy⟩
    · rename_i hoff
      obtain ⟨hsome, hcopy⟩ := ih hnd h lid
      by_cases hlid : lid = il
      · subst hlid
        refine ⟨fun _ hon => absurd hon hoff, ?_⟩
        rw [Bool.not_eq_true] at hoff
        rw [hoff, Bool.and_false] at hcopy ⊢
        exact hcopy
      · simp only [mem_cons, hlid, false_or]
        exact ⟨hsome, hcopy⟩

/-- What one round extracts. -/
lemma extract_spec {p : Params} {b : FullBatch} {nOutputs no nt : ℕ} {st' : Outputs}
    (hselect : selectOutputs b nOutputs tokens = tokens.filter (isOutput b))
    (hcount : nOutputs = (tokens.filter (isOutput b)).length)
    (h : extract p b rows nOutputs no nt tokens st = some st') :
    st'.outputIds = st.outputIds ∧ st'.outputSwaps = st.outputSwaps ∧
      copyTokens p.nVocab no rows.logits (needsRawLogits p b tokens)
        (tokens.filter (isOutput b)) st.logits = some st'.logits ∧
      (p.embeddings = true → p.poolingNone = true →
        copyTokens p.nEmbdOut no rows.embd (0 < (tokens.filter (isOutput b)).length)
          (tokens.filter (isOutput b)) st.embd = some st'.embd) ∧
      (p.embeddingsNextn = true → p.embeddingsNextnMasked = false → p.poolingNone = true →
        copyTokens p.nEmbdOut nt rows.nextn (0 < tokens.length) tokens st.embdNextn =
          some st'.embdNextn) ∧
      ∀ lid, p.layerInp lid = true →
        copyTokens p.nEmbd nt (rows.layerInp lid) true tokens (st.embdLayerInp lid) =
          some (st'.embdLayerInp lid) := by
  rw [extract, hselect] at h
  obtain ⟨logits, hlogits, h⟩ := bind_eq_some_iff.mp h
  obtain ⟨embd, hembd, h⟩ := bind_eq_some_iff.mp h
  obtain ⟨layers, hlayers, h⟩ := bind_eq_some_iff.mp h
  obtain ⟨nextn, hnextn, h⟩ := bind_eq_some_iff.mp h
  cases h
  have hraw : (0 < nOutputs && needsRawLogits p b tokens) = needsRawLogits p b tokens := by
    cases hneeds : needsRawLogits p b tokens with
    | false => rw [Bool.and_false]
    | true =>
      obtain ⟨t, ht, hout⟩ := any_eq_true.mp hneeds
      rw [Bool.and_eq_true] at hout
      have hmem : t ∈ tokens.filter (isOutput b) := mem_filter.mpr ⟨ht, hout.1⟩
      simp [hcount, length_pos_of_mem hmem]
  rw [hraw] at hlogits
  refine ⟨rfl, rfl, hlogits, fun hembeddings hpool => ?_, fun hon hmask hpool => ?_, fun lid hon => ?_⟩
  · rw [← hembd, hembeddings, hpool, hcount, Bool.true_and, Bool.and_true]
  · rw [← hnextn, hon, hmask, hpool, Bool.and_true]
    rfl
  · obtain ⟨-, hcopy⟩ := extractLayerInputs_spec _ nodup_range hlayers lid
    have hlid : lid ∈ range p.embeddingsLayerInp.length := by
      rw [mem_range]
      by_contra hle
      rw [Params.layerInp, getD_eq_getElem?_getD, getElem?_eq_none (not_lt.mp hle)] at hon
      cases hon
    rw [hon, decide_eq_true hlid] at hcopy
    exact hcopy

/-- The buffers behind the loop. -/
lemma decodeLoop_spec {p : Params} (hsplit : SplitInto a parts outIds) (rest : List (List ℕ)) :
    (∀ tokens ∈ rest, tokens ∈ parts) → ∀ {no nt : ℕ} {st st' : Outputs},
    decodeLoop p a.batch rows a.nOutputs rest no nt st = some st' →
      st'.outputIds = st.outputIds ∧ st'.outputSwaps = st.outputSwaps ∧
      copyParts p.nVocab rows.logits (needsRawLogits p a.batch)
        (filter (isOutput a.batch)) rest no st.logits = some st'.logits ∧
      (p.embeddings = true → p.poolingNone = true →
        copyParts p.nEmbdOut rows.embd (fun tokens => 0 < (tokens.filter (isOutput a.batch)).length)
          (filter (isOutput a.batch)) rest no st.embd = some st'.embd) ∧
      (p.embeddingsNextn = true → p.embeddingsNextnMasked = false → p.poolingNone = true →
        copyParts p.nEmbdOut rows.nextn (fun tokens => 0 < tokens.length) id rest nt
          st.embdNextn = some st'.embdNextn) ∧
      ∀ lid, p.layerInp lid = true →
        copyParts p.nEmbd (rows.layerInp lid) (fun _ => true) id rest nt (st.embdLayerInp lid) =
          some (st'.embdLayerInp lid) := by
  induction rest with
  | nil =>
    intro _ no nt st st' h
    cases h
    exact ⟨rfl, rfl, rfl, fun _ _ => rfl, fun _ _ _ => rfl, fun _ _ => rfl⟩
  | cons tokens rest ih =>
    intro hrest no nt st st' h
    obtain ⟨hselect, hcount⟩ := hsplit.selectOutputs (hrest tokens mem_cons_self)
    obtain ⟨st1, h1, h2⟩ := bind_eq_some_iff.mp h
    obtain ⟨e1, e2, e3, e4, e5, e6⟩ := extract_spec hselect hcount h1
    obtain ⟨f1, f2, f3, f4, f5, f6⟩ :=
      ih (fun tokens' h' => hrest tokens' (mem_cons_of_mem _ h')) h2
    rw [hcount] at f3 f4
    refine ⟨f1.trans e1, f2.trans e2, ?_, fun hembeddings hpool => ?_, fun hon hmask hpool => ?_,
      fun lid hon => ?_⟩
    · rw [copyParts, e3]
      exact f3
    · rw [copyParts, e4 hembeddings hpool]
      exact f4 hembeddings hpool
    · rw [copyParts, id, e5 hon hmask hpool]
      exact f5 hon hmask hpool
    · rw [copyParts, id, e6 lid hon]
      exact f6 lid hon

/-! ## The order of the outputs -/

lemma numberOutputs_spec {ids : ℕ → ℕ} (outputIds : ℕ → ℤ) (n : ℕ) :
    (∀ i j, i < n → j < n → ids i = ids j → i = j) →
      ∀ i < n, numberOutputs n ids outputIds (ids i) = i := by
  induction n with
  | zero => exact fun _ i hi => absurd hi (Nat.not_lt_zero i)
  | succ n ih =>
    intro hinj i hi
    rw [numberOutputs, range_succ, foldl_append, foldl_cons, foldl_nil]
    by_cases hin : i = n
    · subst hin
      exact Function.update_self _ _ _
    · have hne : ids i ≠ ids n := fun heq => hin (hinj i n hi (Nat.lt_succ_self n) heq)
      rw [Function.update_of_ne hne]
      exact ih (fun i j hi hj => hinj i j (hi.trans (Nat.lt_succ_self n))
        (hj.trans (Nat.lt_succ_self n))) i (by omega)

/-- Behind the loop, `output_ids` and the swaps agree, and the outputs are sorted. -/
structure Sorted (outIds : List ℕ) (n : ℕ) (st : Outputs) : Prop where
  bounds : ∀ s ∈ st.outputSwaps, s.1 < n ∧ s.2 < n
  row : ∀ i < n, st.outputIds (outIds.getD (Swaps.perm st.outputSwaps i) 0) = i
  sorted : ∀ i j, i ≤ j → j < n → outIds.getD (Swaps.perm st.outputSwaps i) 0 ≤
    outIds.getD (Swaps.perm st.outputSwaps j) 0

lemma getD_injective (hnd : outIds.Nodup) {i j : ℕ} (hi : i < outIds.length)
    (hj : j < outIds.length) (h : outIds.getD i 0 = outIds.getD j 0) : i = j := by
  rw [getD_eq_getElem _ _ hi, getD_eq_getElem _ _ hj] at h
  exact (hnd.getElem_inj_iff).mp h

lemma sortOutputs_spec {outIds : List ℕ} {st : Outputs} (hnd : outIds.Nodup)
    (hlen : outIds.length = st.nOutputs) (hswaps : st.outputSwaps = []) :
    Sorted outIds st.nOutputs (sortOutputs outIds st) := by
  rw [sortOutputs]
  split
  · -- both `output_ids` and the swaps are those of the sort
    obtain ⟨hreplay, hbounds, hsorted⟩ :=
      selectionSort_spec st.nOutputs fun i => outIds.getD i 0
    have hsort : ∀ i, (selectionSort st.nOutputs fun i => outIds.getD i 0).1 i =
        outIds.getD (Swaps.perm
          (selectionSort st.nOutputs fun i => outIds.getD i 0).2 i) 0 := by
      intro i
      conv_lhs => rw [hreplay]
      exact replay_eq _ _ i
    refine ⟨?_, ?_, ?_⟩
    · simp only [hswaps]
      exact hbounds
    · simp only [hswaps, nil_append, ← hsort]
      refine numberOutputs_spec _ _ fun i j hi hj heq => ?_
      rw [hsort, hsort] at heq
      refine (Swaps.perm _).injective (getD_injective hnd ?_ ?_ heq)
      · rw [hlen]
        exact Swaps.perm_lt hbounds hi
      · rw [hlen]
        exact Swaps.perm_lt hbounds hj
    · simp only [hswaps, nil_append, ← hsort]
      exact hsorted
  · rename_i hcond
    have hperm : ∀ i, Swaps.perm st.outputSwaps i = i := by
      rw [hswaps]
      exact fun i => rfl
    refine ⟨?_, ?_, ?_⟩
    · rw [hswaps]
      exact fun s hs => absurd hs not_mem_nil
    · simp only [hperm]
      exact numberOutputs_spec _ _ fun i j hi hj heq => getD_injective hnd (by omega) (by omega) heq
    · simp only [hperm]
      intro i j hij hj
      by_cases hn : 1 < st.nOutputs
      · have hid : ∀ i < st.nOutputs, outIds.getD i 0 = i := by
          intro i hi
          by_contra hne
          exact hcond ⟨any_eq_true.mpr ⟨i, mem_range.mpr hi, decide_eq_true hne⟩, hn⟩
        rwa [hid i (by omega), hid j hj]
      · obtain rfl : i = j := by omega
        exact le_rfl

/-- What `decode` leaves: the buffers as the loop has filled them, and sorted outputs. -/
lemma decode_spec {p : Params} {st' : Outputs} (hsplit : SplitInto a parts outIds)
    (h : decode p a parts outIds rows st = some st') :
    (p.embeddings = true → a.nOutputs = a.batch.nTokens) ∧ a.batch.nTokens ≤ p.nBatch ∧
    ∃ st0 st1, outputReserve p a.nOutputs { st with outputSwaps := [] } = some st0 ∧
      decodeLoop p a.batch rows a.nOutputs parts 0 0 st0 = some st1 ∧
      st'.logits = st1.logits ∧ st'.embd = st1.embd ∧ st'.embdNextn = st1.embdNextn ∧
      st'.embdLayerInp = st1.embdLayerInp ∧ st'.nOutputs = a.nOutputs ∧
      Sorted outIds a.nOutputs st' := by
  rw [decode] at h
  split at h
  · cases h
  · rename_i hall
    split at h
    · cases h
    · rename_i hbatch
      obtain ⟨st0, h0, h⟩ := bind_eq_some_iff.mp h
      obtain ⟨st1, h1, h⟩ := bind_eq_some_iff.mp h
      have hswaps0 : st0.outputSwaps = [] := by
        rw [outputReserve] at h0
        split at h0
        · cases h0
          rfl
        · cases h0
      obtain ⟨-, hswaps1, -⟩ := decodeLoop_spec hsplit parts (fun _ h => h) h1
      have hswaps : st1.outputSwaps = [] := hswaps1.trans hswaps0
      refine ⟨fun he => by_contra fun hne => hall ⟨he, hne⟩, not_lt.mp hbatch, st0, st1, h0, h1, ?_⟩
      dsimp only at h
      split at h
      · split at h
        · cases h
        · obtain rfl := Option.some.inj h
          have hspec := @sortOutputs_spec outIds { st1 with nOutputs := a.nOutputs } hsplit.nodup
            hsplit.length hswaps
          refine ⟨?_, ?_, ?_, ?_, ?_, hspec⟩ <;>
            · rw [sortOutputs]
              split <;> rfl
      · obtain rfl := Option.some.inj h
        refine ⟨rfl, rfl, rfl, rfl, rfl, ?_, fun i hi => ?_, fun i j _ hj => ?_⟩
        · rw [hswaps]
          exact fun s hs => absurd hs not_mem_nil
        · omega
        · omega

/-- The sizes that `output_reserve` gives to the views. -/
lemma outputReserve_spec {p : Params} {n : ℕ} {st' : Outputs}
    (h : outputReserve p n st = some st') :
    st'.logits.size = p.nVocab * max n p.nSeqMax ∧
      (p.embeddings = true → st'.embd.size = p.nEmbdOut * max n p.nSeqMax) ∧
      (p.embeddingsNextn = true → p.embeddingsNextnMasked = false →
        st'.embdNextn.size = p.nEmbdOut * p.nBatch) ∧
      ∀ lid, p.layerInp lid = true → (st'.embdLayerInp lid).size = p.nEmbd * p.nBatch := by
  rw [outputReserve] at h
  split at h
  · cases h
    refine ⟨rfl, fun he => ?_, fun hon hmask => ?_, fun lid hon => ?_⟩
    · simp [he]
    · simp [hon, hmask]
    · simp [hon]
  · cases h

/-- A view that the loop has filled, once the swaps are applied: the row of an output. -/
lemma reorderView_copyParts {f : ℕ → ℕ → UInt32} {c : List ℕ → Bool}
    (hsplit : SplitInto a parts outIds) {v v' : BufferView}
    (hcopy : copyParts width (some f) c (filter (isOutput a.batch)) parts 0 v = some v')
    (hsize : width = 0 ∨ 0 < v.size) (hsorted : Sorted outIds a.nOutputs st)
    (hpart : tokens ∈ parts) (hc : c tokens = true) {t : ℕ} (ht : t ∈ tokens)
    (hout : isOutput a.batch t = true) {j : ℕ} (hj : st.outputIds t = j) {k : ℕ} (hk : k < width) :
    (reorderView width st.outputSwaps v').data (j * width + k) = f t k := by
  obtain ⟨hsize', -, hrows⟩ := copyParts_spec parts hcopy
  obtain ⟨r, hr, hdata⟩ := hrows tokens hpart hc t (mem_filter.mpr ⟨ht, hout⟩)
  have hflat : parts.flatMap (filter (isOutput a.batch)) = outIds := by
    rw [hsplit.outIds, filter_flatten, flatMap_def]
  rw [hflat] at hr
  obtain ⟨hlt, -⟩ := List.getElem?_eq_some_iff.mp hr
  -- the swaps take row `r`, where the row of `t` was, to row `i`
  obtain ⟨i, rfl⟩ := (Swaps.perm st.outputSwaps).surjective r
  have hi : i < a.nOutputs := by
    by_contra hle
    rw [perm_of_le hsorted.bounds (not_lt.mp hle), hsplit.length] at hlt
    exact hle hlt
  have hrow := hsorted.row i hi
  rw [getD_eq_getElem?_getD, hr, getD_some, hj] at hrow
  obtain rfl : j = i := by exact_mod_cast hrow
  rw [reorderView_spec _ (by rw [hsize']; omega) j k hk, ← hdata k hk, Nat.zero_add]

/-- **The row of an output.**  However many getters have been called, and whatever the order
in which the splits have emitted the tokens, `output_ids` has a row for every output, and
there the logits and the embeddings are those of the token, if its ubatch has them
extracted. -/
theorem outputs_of_getters {p : Params} {rows : TokenRows} {st st' : Outputs}
    (hsplit : SplitInto a parts outIds) (h : decode p a parts outIds rows st = some st')
    (gs : List Getter) {t : ℕ} (ht : t < a.batch.nTokens) (hout : isOutput a.batch t = true) :
    ∃ j : ℕ, j < a.nOutputs ∧ (callAll p gs st').outputIds t = j ∧
      ((getLogitsIth p t (callAll p gs st')).2 = some (j * p.nVocab) ∧ ∀ f, rows.logits = some f →
          (∃ tokens ∈ parts, t ∈ tokens ∧ needsRawLogits p a.batch tokens = true) →
            ∀ k < p.nVocab, (getLogitsIth p t (callAll p gs st')).1.logits.data
              (j * p.nVocab + k) = f t k) ∧
      (p.embeddings = true → (getEmbeddingsIth p t (callAll p gs st')).2 = some (j * p.nEmbdOut) ∧
          ∀ f, rows.embd = some f → p.poolingNone = true → ∀ k < p.nEmbdOut,
            (getEmbeddingsIth p t (callAll p gs st')).1.embd.data (j * p.nEmbdOut + k) =
              f t k) := by
  obtain ⟨hall, hbatch, st0, st1, h0, h1, hlogits, hembd, -, -, hn, hsorted⟩ := decode_spec hsplit h
  obtain ⟨-, -, hcopyLogits, hcopyEmbd, -⟩ := decodeLoop_spec hsplit parts (fun _ h => h) h1
  obtain ⟨hsizeLogits, hsizeEmbd, -⟩ := outputReserve_spec h0
  -- the row of the token
  have hmem : t ∈ outIds := by
    rw [hsplit.outIds]
    exact List.mem_filter.mpr ⟨hsplit.mem_flatten.mpr ht, hout⟩
  obtain ⟨r, hr⟩ := List.mem_iff_getElem?.mp hmem
  obtain ⟨hlt, -⟩ := List.getElem?_eq_some_iff.mp hr
  obtain ⟨j, rfl⟩ := (Swaps.perm st'.outputSwaps).surjective r
  have hj : j < a.nOutputs := by
    by_contra hle
    rw [Swaps.perm_of_le hsorted.bounds (not_lt.mp hle), hsplit.length] at hlt
    exact hle hlt
  have hid : st'.outputIds t = j := by
    have hrow := hsorted.row j hj
    rwa [List.getD_eq_getElem?_getD, hr] at hrow
  have hresolve : outputResolveRow p (outputReorder p (callAll p gs st')) t = some j := by
    rw [outputReorder_callAll, outputReorder_eq, outputResolveRow]
    have hpos : ¬ (t : ℤ) < 0 := by omega
    have hlast : ¬ (a.nOutputs : ℤ) ≤ j := by omega
    have hfirst : t < p.nBatch := by omega
    have hrow : ¬ (j : ℤ) < 0 := by omega
    simp [hpos, hid, hn, hlast, hfirst]
  obtain ⟨tokens, hpart, htok⟩ := List.mem_flatten.mp (hsplit.mem_flatten.mpr ht)
  have hpos : 0 < max a.nOutputs p.nSeqMax := by omega
  refine ⟨j, hj, by rw [callAll_outputIds, hid], ⟨?_, ?_⟩, fun hembeddings => ⟨?_, ?_⟩⟩
  · rw [getLogitsIth, hresolve]
    rfl
  · rintro f hf ⟨tokens', hpart', htok', hneeds⟩ k hk
    rw [getLogitsIth, outputReorder_callAll, outputReorder_eq, hlogits]
    rw [hf] at hcopyLogits
    refine reorderView_copyParts hsplit hcopyLogits (.inr ?_) hsorted hpart' hneeds htok' hout hid hk
    rw [hsizeLogits]
    exact Nat.mul_pos (by omega) hpos
  · rw [getEmbeddingsIth, hresolve, if_pos (.inl hembeddings)]
    rfl
  · intro f hf hpool k hk
    rw [getEmbeddingsIth, outputReorder_callAll, outputReorder_eq, hembd]
    have hcopy := hcopyEmbd hembeddings hpool
    rw [hf] at hcopy
    have hc : decide (0 < (tokens.filter (isOutput a.batch)).length) = true :=
      decide_eq_true (List.length_pos_of_mem (List.mem_filter.mpr ⟨htok, hout⟩))
    refine reorderView_copyParts hsplit hcopy (.inr ?_) hsorted hpart hc htok hout hid hk
    rw [hsizeEmbd hembeddings]
    exact Nat.mul_pos (by omega) hpos

/-- Two tokens of sequence 0 and two of sequence 1. -/
def twoSequences (logits : ℕ → ℤ) : LlamaBatch where
  nTokens := 4
  token := some fun i => i
  embd := none
  pos := some fun i => if i % 2 = 0 then 0 else 1
  nSeqId := some fun _ => 1
  seqId := some fun i _ => if i < 2 then 0 else 1
  logits := some logits

/-- Rows of one column. -/
def oneColumn (embeddings : Bool) : Params where
  nVocab := 1
  nEmbd := 1
  nEmbdOut := 1
  nBatch := 4
  nSeqMax := 2
  nOutputsMax := 4
  isT5 := false
  embeddings := embeddings
  poolingNone := true
  embeddingsNextn := true
  embeddingsNextnMasked := false
  embeddingsLayerInp := [true]
  samplers := []

/-- Each token's row is its number. -/
def numberRows : TokenRows where
  logits := some fun t _ => t.toUInt32
  embd := some fun t _ => t.toUInt32
  nextn := some fun t _ => t.toUInt32
  layerInp := fun _ => some fun t _ => t.toUInt32

/-- Buffers without data. -/
def noOutputs : Outputs where
  logits := ⟨fun _ => 0, 0⟩
  embd := ⟨fun _ => 0, 0⟩
  embdNextn := ⟨fun _ => 0, 0⟩
  embdLayerInp := fun _ => ⟨fun _ => 0, 0⟩
  outputIds := fun _ => -1
  outputSwaps := []
  nOutputs := 0

theorem outputs_of_getters_twoSequences :
    ∃ a st', BatchAllocr.init 1 (twoSequences fun _ => 1) 10 none 0 2 false = some a ∧
      decode (oneColumn true) a [[0, 2], [1, 3]] [0, 2, 1, 3] numberRows noOutputs = some st' ∧
      ∃ j : ℕ, j < a.nOutputs ∧ (callAll (oneColumn true) [.logits] st').outputIds 2 = j ∧
        (getLogitsIth (oneColumn true) 2 (callAll (oneColumn true) [.logits] st')).1.logits.data
          (j * 1 + 0) = 2 ∧
        (getEmbeddingsIth (oneColumn true) 2 (callAll (oneColumn true) [.logits] st')).1.embd.data
          (j * 1 + 0) = 2 := by
  have hacc : (BatchAllocr.init 1 (twoSequences fun _ => 1) 10 none 0 2 false).isSome = true := by
    decide +kernel
  obtain ⟨a, ha⟩ := Option.isSome_iff_exists.mp hacc
  have hsplit : SplitInto a [[0, 2], [1, 3]] [0, 2, 1, 3] := by
    rw [BatchAllocr.init_eq ha]
    exact ⟨by decide, by decide, by decide⟩
  have hdecode : (decode (oneColumn true) a [[0, 2], [1, 3]] [0, 2, 1, 3] numberRows
      noOutputs).isSome = true := by
    rw [BatchAllocr.init_eq ha]
    decide +kernel
  obtain ⟨st', hst'⟩ := Option.isSome_iff_exists.mp hdecode
  have hlt : 2 < a.batch.nTokens := by
    rw [BatchAllocr.init_eq ha]
    decide
  have hout : isOutput a.batch 2 = true := by
    rw [BatchAllocr.init_eq ha]
    decide
  have hneeds : needsRawLogits (oneColumn true) a.batch [0, 2] = true := by
    rw [BatchAllocr.init_eq ha]
    decide
  obtain ⟨j, hj, hid, ⟨-, hlogits⟩, hembd⟩ := outputs_of_getters hsplit hst' [.logits] hlt hout
  refine ⟨a, st', ha, hst', j, hj, hid, ?_, ?_⟩
  · exact hlogits _ rfl ⟨[0, 2], by decide, by decide, hneeds⟩ 0 (by decide)
  · exact (hembd rfl).2 _ rfl rfl 0 (by decide)

end Llama.Context
