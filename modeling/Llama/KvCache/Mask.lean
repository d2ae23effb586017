import Llama.KvCache.Runs

/-!
# The attention mask

`set_input_kq_mask_impl` fills one row for each token of a ubatch with an entry for each
cell.  The first token of a sequence in its block tests every cell and records those that
another token of the sequence might see differently; the row of a later token is a copy of
the first one in which only the recorded cells are tested again.

A cell is recorded when its position is not far below the positions of the sequence in the
ubatch.  This is tested in 32 bits, as `p0 + (n_swa + 32) >= seq_pos_min`, so a position near
the largest one is left out.
-/

namespace Llama

open List Function

/-- `llama_kv_cell_ext::is_2d_gt`: the cell comes after `(ox, oy)` in the image. -/
def KvCellExt.is2dGt (e : KvCellExt) (ox oy : ℤ) : Bool := oy < e.y ∨ (e.y = oy ∧ ox < e.x)

/-- A value kept in an `int32_t`. -/
def wrapInt32 (z : ℤ) : ℤ := Int.bmod z (2 ^ 32)

lemma wrapInt32_of_lt {z : ℤ} (hlo : -2 ^ 31 ≤ z) (hhi : z < 2 ^ 31) : wrapInt32 z = z := by
  unfold wrapInt32
  rw [Int.bmod_eq_of_le_mul_two] <;> omega

namespace KvCache

/-- An entry of the mask: minus infinity, 0, or the distance ALiBi weighs. -/
inductive MaskEntry
  | drop
  | keep
  | bias (d : ℤ)
  deriving DecidableEq, Repr

/-- `args_set_input_kq_mask`, with the flags that are passed as template arguments. -/
structure KqMaskArgs where
  kv : KvCache
  ubatch : UBatch
  causal : Bool
  alibi : Bool
  nKv : ℕ
  nStream : ℕ

namespace KqMaskArgs

variable (a : KqMaskArgs)

/-- `n_tps`: the number of tokens in each of the `nStream` blocks. -/
def nTps : ℕ := a.ubatch.nTokens / a.nStream

/-- The sequence of a token: the first one it lists. -/
def seqOf (i : ℕ) : ℤ := a.ubatch.seqId i 0

/-- The cells of the stream of a sequence. -/
def cells (s : ℤ) : KvCells := a.kv.cellsOf s

/-- `seq_pos_min`: the least position of each sequence in the ubatch. -/
def seqPosMin : ℤ → ℤ :=
  (List.range a.ubatch.nTokens).foldl
    (fun m i => Function.update m (a.seqOf i) (min (m (a.seqOf i)) (a.ubatch.pos i)))
    (fun _ => posLimit)

/-- The cell might change for another token of the sequence. -/
def records (s : ℤ) (j : ℕ) : Bool :=
  ¬ (a.cells s).isEmpty j ∧ (a.cells s).seqHas j s ∧
    a.seqPosMin s ≤ wrapInt32 ((a.cells s).pos j + wrapInt32 (a.kv.prm.nSwa + 32))

end KqMaskArgs

/-- The test of cell `j` for token `i`. -/
def maskEntry (a : KqMaskArgs) (i j : ℕ) : MaskEntry :=
  let s := a.seqOf i
  let c := a.cells s
  let p1 := a.ubatch.pos i
  let p1x := if a.ubatch.isPos2d then a.ubatch.pos (i + a.ubatch.nTokens * 2) else 0
  let p1y := if a.ubatch.isPos2d then a.ubatch.pos (i + a.ubatch.nTokens) else 0
  if c.isEmpty j then .drop
  else if ¬ c.seqHas j s then .drop
  else
    let p0 := c.pos j
    if a.causal ∧ p1 < p0 then .drop
    else if a.causal ∧ a.ubatch.isPos2d ∧ p0 = p1 ∧ (c.ext j).is2dGt p1x p1y then .drop
    else if a.kv.prm.swaType ≠ .none ∧ isMaskedSwa a.kv.prm.nSwa a.kv.prm.swaType p0 p1 then .drop
    else if a.alibi then .bias (-|p0 - p1|)
    else .keep

/-- The rows so far, and for the current block the row of the first token of each sequence
and the cells recorded for it. -/
structure MaskState where
  data : ℕ → MaskEntry
  seqSrct : ℤ → Option ℕ
  seqIdxs : ℤ → List ℕ

/-- Test cell `j` again. -/
def patchCell (a : KqMaskArgs) (i : ℕ) (data : ℕ → MaskEntry) (j : ℕ) : ℕ → MaskEntry :=
  Function.update data (a.nKv * i + j) (maskEntry a i j)

/-- Test cell `j` for the first time, and record it. -/
def testCell (a : KqMaskArgs) (i : ℕ) (st : MaskState) (j : ℕ) : MaskState :=
  { st with
    data := patchCell a i st.data j
    seqIdxs := if a.records (a.seqOf i) j then
        Function.update st.seqIdxs (a.seqOf i) (st.seqIdxs (a.seqOf i) ++ [j])
      else st.seqIdxs }

/-- `std::copy` of row `src` to row `dst`. -/
def copyRow (nKv : ℕ) (data : ℕ → MaskEntry) (src dst : ℕ) : ℕ → MaskEntry := fun k =>
  if nKv * dst ≤ k ∧ k < nKv * dst + nKv then data (nKv * src + (k - nKv * dst)) else data k

/-- The row of token `i`. -/
def maskRow (a : KqMaskArgs) (st : MaskState) (i : ℕ) : MaskState :=
  if a.alibi then { st with data := (List.range a.nKv).foldl (patchCell a i) st.data }
  else
    match st.seqSrct (a.seqOf i) with
    | some srct =>
      let idxs := (st.seqIdxs (a.seqOf i)).take a.nKv
      { st with data := idxs.foldl (patchCell a i) (copyRow a.nKv st.data srct i) }
    | none =>
      (List.range a.nKv).foldl (testCell a i)
        { st with
          seqIdxs := Function.update st.seqIdxs (a.seqOf i) []
          seqSrct := Function.update st.seqSrct (a.seqOf i) (some i) }

/-- The rows of block `s`. -/
def maskBlock (a : KqMaskArgs) (data : ℕ → MaskEntry) (s : ℕ) : ℕ → MaskEntry :=
  ((List.range a.nTps).foldl (fun st ii => maskRow a st (s * a.nTps + ii))
    ⟨data, fun _ => none, fun _ => []⟩).data

/-- `set_input_kq_mask_impl`, on the buffer `data`. -/
def setInputKqMask (a : KqMaskArgs) (data : ℕ → MaskEntry) : ℕ → MaskEntry :=
  (List.range a.nStream).foldl (maskBlock a) data

/-- Token `i` sees cell `j`: the cell is occupied, holds the token's sequence, is not in the
token's future and lies in its window. -/
def Visible (a : KqMaskArgs) (i j : ℕ) : Prop :=
  let s := a.seqOf i
  let c := a.cells s
  let p1 := a.ubatch.pos i
  c.pos j ≠ -1 ∧ s ∈ c.seq j ∧ (a.causal = true → c.pos j ≤ p1 ∧
      (a.ubatch.isPos2d = true → c.pos j = p1 →
        ¬ (a.ubatch.pos (i + a.ubatch.nTokens) < (c.ext j).y ∨
          ((c.ext j).y = a.ubatch.pos (i + a.ubatch.nTokens) ∧
            a.ubatch.pos (i + a.ubatch.nTokens * 2) < (c.ext j).x)))) ∧
    isMaskedSwa a.kv.prm.nSwa a.kv.prm.swaType (c.pos j) p1 = false

instance (a : KqMaskArgs) (i j : ℕ) : Decidable (Visible a i j) :=
  inferInstanceAs (Decidable (_ ∧ _ ∧ (_ → _ ∧ (_ → _ → ¬ (_ ∨ _))) ∧ _))

variable {a : KqMaskArgs}

/-- The test of a cell decides what the token sees. -/
lemma maskEntry_eq (halibi : a.alibi = false) (i j : ℕ) :
    maskEntry a i j = if Visible a i j then .keep else .drop := by
  have hlast : (a.cells (a.seqOf i)).pos j ≠ -1 → a.seqOf i ∈ (a.cells (a.seqOf i)).seq j →
      (maskEntry a i j = if a.causal = true ∧ a.ubatch.pos i < (a.cells (a.seqOf i)).pos j then
          .drop
        else if a.causal = true ∧ a.ubatch.isPos2d = true ∧
            (a.cells (a.seqOf i)).pos j = a.ubatch.pos i ∧
            ((a.cells (a.seqOf i)).ext j).is2dGt
              (if a.ubatch.isPos2d then a.ubatch.pos (i + a.ubatch.nTokens * 2) else 0)
              (if a.ubatch.isPos2d then a.ubatch.pos (i + a.ubatch.nTokens) else 0) = true then
          .drop
        else if isMaskedSwa a.kv.prm.nSwa a.kv.prm.swaType ((a.cells (a.seqOf i)).pos j)
            (a.ubatch.pos i) = true then .drop
        else .keep) := by
    intro hocc hseq
    simp only [maskEntry, KvCells.isEmpty, KvCells.seqHas, hocc, hseq, halibi]
    by_cases ht : a.kv.prm.swaType = .none
    · simp [ht, isMaskedSwa]
    · simp [ht]
  by_cases hocc : (a.cells (a.seqOf i)).pos j = -1
  · have hnot : ¬ Visible a i j := fun h => h.1 hocc
    rw [if_neg hnot]
    simp [maskEntry, KvCells.isEmpty, hocc]
  by_cases hseq : a.seqOf i ∈ (a.cells (a.seqOf i)).seq j
  · rw [hlast hocc hseq]
    by_cases hfut : a.causal = true ∧ a.ubatch.pos i < (a.cells (a.seqOf i)).pos j
    · have hnot : ¬ Visible a i j := fun h => by
        have := (h.2.2.1 hfut.1).1
        omega
      rw [if_pos hfut, if_neg hnot]
    rw [if_neg hfut]
    by_cases htie : a.causal = true ∧ a.ubatch.isPos2d = true ∧
        (a.cells (a.seqOf i)).pos j = a.ubatch.pos i ∧
        ((a.cells (a.seqOf i)).ext j).is2dGt
          (if a.ubatch.isPos2d then a.ubatch.pos (i + a.ubatch.nTokens * 2) else 0)
          (if a.ubatch.isPos2d then a.ubatch.pos (i + a.ubatch.nTokens) else 0) = true
    · have hnot : ¬ Visible a i j := fun h => by
        obtain ⟨hc, h2d, heq, hgt⟩ := htie
        rw [if_pos h2d, if_pos h2d] at hgt
        exact (h.2.2.1 hc).2 h2d heq (of_decide_eq_true hgt)
      rw [if_pos htie, if_neg hnot]
    rw [if_neg htie]
    by_cases hmask : isMaskedSwa a.kv.prm.nSwa a.kv.prm.swaType ((a.cells (a.seqOf i)).pos j)
        (a.ubatch.pos i) = true
    · have hnot : ¬ Visible a i j := fun h => by
        have hopen := h.2.2.2
        rw [hmask] at hopen
        cases hopen
      rw [if_pos hmask, if_neg hnot]
    · rw [if_neg hmask, if_pos]
      refine ⟨hocc, hseq, fun hc => ⟨?_, fun h2d heq hgt => htie ⟨hc, h2d, heq, ?_⟩⟩, ?_⟩
      · by_contra hlt
        exact hfut ⟨hc, not_le.mp hlt⟩
      · rw [if_pos h2d, if_pos h2d]
        exact decide_eq_true hgt
      · simpa using hmask
  · have hnot : ¬ Visible a i j := fun h => hseq h.2.1
    rw [if_neg hnot]
    simp [maskEntry, KvCells.seqHas, hseq]

/-- Testing the cells of a list again. -/
lemma foldl_patchCell (a : KqMaskArgs) (i : ℕ) (js : List ℕ) (data : ℕ → MaskEntry) :
    (∀ j, (js.foldl (patchCell a i) data) (a.nKv * i + j) =
        if j ∈ js then maskEntry a i j else data (a.nKv * i + j)) ∧
      ∀ k < a.nKv * i, (js.foldl (patchCell a i) data) k = data k := by
  induction js generalizing data with
  | nil => simp
  | cons j' js ih =>
    obtain ⟨h1, h2⟩ := ih (patchCell a i data j')
    refine ⟨fun j => ?_, fun k hk => ?_⟩
    · rw [foldl_cons, h1]
      by_cases hj : j = j'
      · subst hj
        simp [patchCell]
      · simp [patchCell, hj]
    · rw [foldl_cons, h2 k hk, patchCell, update_of_ne (by omega)]

/-- Testing the cells of a list for the first time records some of them. -/
lemma foldl_testCell (a : KqMaskArgs) (i : ℕ) (js : List ℕ) (st : MaskState) :
    js.foldl (testCell a i) st =
      { data := js.foldl (patchCell a i) st.data
        seqSrct := st.seqSrct
        seqIdxs := Function.update st.seqIdxs (a.seqOf i)
          (st.seqIdxs (a.seqOf i) ++ js.filter (a.records (a.seqOf i))) } := by
  induction js generalizing st with
  | nil => simp
  | cons j js ih =>
    rw [foldl_cons, ih]
    simp only [testCell]
    by_cases hr : a.records (a.seqOf i) j = true
    · simp [hr]
    · simp [hr]

lemma copyRow_dst (nKv : ℕ) (data : ℕ → MaskEntry) (src dst : ℕ) {j : ℕ} (hj : j < nKv) :
    copyRow nKv data src dst (nKv * dst + j) = data (nKv * src + j) := by
  unfold copyRow
  rw [if_pos (by omega), Nat.add_sub_cancel_left]

lemma copyRow_of_lt (nKv : ℕ) (data : ℕ → MaskEntry) (src dst : ℕ) {k : ℕ} (hk : k < nKv * dst) :
    copyRow nKv data src dst k = data k :=
  if_neg (by omega)

/-- What the row of token `i` holds when `f` is the first token of its sequence. -/
def rowEntry (a : KqMaskArgs) (f i j : ℕ) : MaskEntry :=
  if a.records (a.seqOf i) j then maskEntry a i j else maskEntry a f j

/-- The row of token `i` has been written, and `f` and the recorded cells are known for its
sequence. -/
structure RowDone (a : KqMaskArgs) (f i : ℕ) (st st' : MaskState) : Prop where
  row : ∀ j < a.nKv, st'.data (a.nKv * i + j) = rowEntry a f i j
  below : ∀ k < a.nKv * i, st'.data k = st.data k
  srct : st'.seqSrct = Function.update st.seqSrct (a.seqOf i) (some f)
  idxs : st'.seqIdxs =
    Function.update st.seqIdxs (a.seqOf i) ((List.range a.nKv).filter (a.records (a.seqOf i)))

/-- The row of the first token of a sequence. -/
lemma maskRow_first (halibi : a.alibi = false) {st : MaskState} {i : ℕ}
    (hnone : st.seqSrct (a.seqOf i) = none) : RowDone a i i st (maskRow a st i) := by
  have hval : maskRow a st i = (range a.nKv).foldl (testCell a i)
      { st with
        seqIdxs := Function.update st.seqIdxs (a.seqOf i) []
        seqSrct := Function.update st.seqSrct (a.seqOf i) (some i) } := by
    simp only [maskRow, halibi, Bool.false_eq_true, if_false, hnone]
  rw [hval, foldl_testCell]
  obtain ⟨hrow, hbelow⟩ := foldl_patchCell a i (range a.nKv) st.data
  refine ⟨fun j hj => ?_, hbelow, rfl, ?_⟩
  · rw [rowEntry, ite_self]
    exact (hrow j).trans (if_pos (mem_range.mpr hj))
  · simp only [update_self, nil_append, update_idem]

/-- The row of a later token. -/
lemma maskRow_later (halibi : a.alibi = false) {st : MaskState} {i f : ℕ}
    (hsome : st.seqSrct (a.seqOf i) = some f)
    (hidxs : st.seqIdxs (a.seqOf i) = (range a.nKv).filter (a.records (a.seqOf i)))
    (hfirst : ∀ j < a.nKv, st.data (a.nKv * f + j) = maskEntry a f j) :
    RowDone a f i st (maskRow a st i) := by
  have htake : (st.seqIdxs (a.seqOf i)).take a.nKv =
      (range a.nKv).filter (a.records (a.seqOf i)) := by
    rw [hidxs, take_of_length_le]
    exact (length_filter_le _ _).trans (by simp)
  have hval : maskRow a st i = { st with
        data := List.foldl (patchCell a i) (copyRow a.nKv st.data f i)
          ((range a.nKv).filter (a.records (a.seqOf i))) } := by
    simp only [maskRow, halibi, Bool.false_eq_true, if_false, hsome, htake]
  rw [hval]
  obtain ⟨hrow, hbelow⟩ := foldl_patchCell a i
    ((range a.nKv).filter (a.records (a.seqOf i))) (copyRow a.nKv st.data f i)
  refine ⟨fun j hj => ?_, fun k hk => ?_, ?_, ?_⟩
  · rw [rowEntry, ← hfirst j hj, ← copyRow_dst a.nKv st.data f i hj]
    refine (hrow j).trans ?_
    simp [hj]
  · exact (hbelow k hk).trans (copyRow_of_lt a.nKv st.data f i hk)
  · rw [← hsome, update_eq_self]
  · rw [← hidxs, update_eq_self]

/-! ## A block -/

/-- The first of the `n` tokens from `b` on that is of sequence `q`. -/
def firstToken (a : KqMaskArgs) (b n : ℕ) (q : ℤ) : Option ℕ :=
  ((List.range n).find? fun ii => a.seqOf (b + ii) = q).map (b + ·)

lemma firstToken_succ (a : KqMaskArgs) (b n : ℕ) (q : ℤ) :
    firstToken a b (n + 1) q = (firstToken a b n q).or
      (if a.seqOf (b + n) = q then some (b + n) else none) := by
  unfold firstToken
  rw [range_succ, find?_append]
  cases hf : (range n).find? fun ii => a.seqOf (b + ii) = q with
  | some ii => simp
  | none =>
    by_cases hq : a.seqOf (b + n) = q
    · simp [hq]
    · simp [hq]

lemma firstToken_eq_some {b n f : ℕ} {q : ℤ} (h : firstToken a b n q = some f) :
    ∃ ii < n, f = b + ii ∧ a.seqOf f = q := by
  obtain ⟨ii, hii, rfl⟩ := Option.map_eq_some_iff.mp h
  have hmem := mem_of_find?_eq_some hii
  exact ⟨ii, mem_range.mp hmem, rfl, by simpa using find?_some hii⟩

lemma firstToken_isSome (a : KqMaskArgs) (b : ℕ) {n ii : ℕ} (hii : ii < n) :
    ∃ f, firstToken a b n (a.seqOf (b + ii)) = some f := by
  cases h : firstToken a b n (a.seqOf (b + ii)) with
  | some f => exact ⟨f, rfl⟩
  | none =>
    have hnone := find?_eq_none.mp (Option.map_eq_none_iff.mp h) ii (mem_range.mpr hii)
    simp at hnone

/-- After `n` tokens of the block from `b` on: the first token of each sequence and the cells
recorded for it are known, and the rows of the tokens are written, those before the block
as they were. -/
structure BlockOk (a : KqMaskArgs) (b n : ℕ) (data : ℕ → MaskEntry) (st : MaskState) : Prop where
  srct : ∀ q, st.seqSrct q = firstToken a b n q
  idxs : ∀ q f, firstToken a b n q = some f → st.seqIdxs q = (List.range a.nKv).filter (a.records q)
  rows : ∀ ii < n, ∀ f, firstToken a b n (a.seqOf (b + ii)) = some f → ∀ j < a.nKv,
    st.data (a.nKv * (b + ii) + j) = rowEntry a f (b + ii) j
  frame : ∀ k < a.nKv * b, st.data k = data k

/-- An earlier row lies below a later one. -/
lemma row_lt {nKv i i' j : ℕ} (hi : i < i') (hj : j < nKv) : nKv * i + j < nKv * i' := by
  have hle : nKv * (i + 1) ≤ nKv * i' := Nat.mul_le_mul_left nKv hi
  rw [Nat.mul_succ] at hle
  omega

lemma blockOk_step (halibi : a.alibi = false) {b n : ℕ} {data : ℕ → MaskEntry} {st : MaskState}
    (h : BlockOk a b n data st) : BlockOk a b (n + 1) data (maskRow a st (b + n)) := by
  -- the new row, by the first token of its sequence
  obtain ⟨f, hnew, hdone⟩ : ∃ f, firstToken a b (n + 1) (a.seqOf (b + n)) = some f ∧
      RowDone a f (b + n) st (maskRow a st (b + n)) := by
    cases hf : firstToken a b n (a.seqOf (b + n)) with
    | none =>
      refine ⟨b + n, ?_, maskRow_first halibi ((h.srct _).trans hf)⟩
      rw [firstToken_succ, hf, if_pos rfl]
      rfl
    | some f =>
      refine ⟨f, by rw [firstToken_succ, hf]; rfl,
        maskRow_later halibi ((h.srct _).trans hf) (h.idxs _ f hf) fun j hj => ?_⟩
      obtain ⟨ff, hff, rfl, hseq⟩ := firstToken_eq_some hf
      rw [h.rows ff hff _ (by rw [hseq]; exact hf) j hj, rowEntry, ite_self]
  -- nothing changes for the other sequences
  have hother : ∀ {q}, q ≠ a.seqOf (b + n) → firstToken a b (n + 1) q = firstToken a b n q :=
    fun hq => by rw [firstToken_succ, if_neg (Ne.symm hq), Option.or_none]
  refine ⟨fun q => ?_, fun q f' hf' => ?_, fun ii hii f' hf' j hj => ?_, fun k hk => ?_⟩
  · rw [hdone.srct]
    by_cases hq : q = a.seqOf (b + n)
    · rw [hq, hnew, update_self]
    · rw [hother hq, update_of_ne hq, h.srct]
  · rw [hdone.idxs]
    by_cases hq : q = a.seqOf (b + n)
    · rw [hq, update_self]
    · rw [hother hq] at hf'
      rw [update_of_ne hq, h.idxs q f' hf']
  · rcases Nat.lt_succ_iff_lt_or_eq.mp hii with hlt | rfl
    · obtain ⟨f'', hf''⟩ := firstToken_isSome a b hlt
      have hsame : f' = f'' := by
        rw [firstToken_succ, hf''] at hf'
        exact (Option.some.inj hf').symm
      rw [hdone.below _ (row_lt (by omega) hj), hsame]
      exact h.rows ii hlt f'' hf'' j hj
    · rw [hnew, Option.some.injEq] at hf'
      rw [hdone.row j hj, hf']
  · have hlow : k < a.nKv * (b + n) := lt_of_lt_of_le hk (Nat.mul_le_mul_left _ (by omega))
    rw [hdone.below k hlow, h.frame k hk]

lemma blockOk_foldl (halibi : a.alibi = false) (b : ℕ) (data : ℕ → MaskEntry) (n : ℕ) :
    BlockOk a b n data ((range n).foldl (fun st ii => maskRow a st (b + ii))
      ⟨data, fun _ => none, fun _ => []⟩) := by
  induction n with
  | zero =>
    exact ⟨fun q => rfl, fun q f hf => by simp [firstToken] at hf, fun ii hii => by omega,
      fun k _ => rfl⟩
  | succ n ih =>
    rw [range_succ, foldl_append]
    exact blockOk_step halibi ih

/-- The rows of the first `n` blocks. -/
lemma setInputKqMask_rows (halibi : a.alibi = false) (data : ℕ → MaskEntry) :
    ∀ s < a.nStream, ∀ ii < a.nTps, ∀ f,
      firstToken a (s * a.nTps) a.nTps (a.seqOf (s * a.nTps + ii)) = some f → ∀ j < a.nKv,
        setInputKqMask a data (a.nKv * (s * a.nTps + ii) + j) =
          rowEntry a f (s * a.nTps + ii) j := by
  have hpfx : ∀ n, ∀ s < n, ∀ ii < a.nTps, ∀ f,
      firstToken a (s * a.nTps) a.nTps (a.seqOf (s * a.nTps + ii)) = some f → ∀ j < a.nKv,
        ((range n).foldl (maskBlock a) data) (a.nKv * (s * a.nTps + ii) + j) =
          rowEntry a f (s * a.nTps + ii) j := by
    intro n
    induction n with
    | zero => intro s hs; omega
    | succ n ih =>
      intro s hs ii hii f hf j hj
      rw [range_succ, foldl_append]
      have hblock := blockOk_foldl halibi (n * a.nTps) ((range n).foldl (maskBlock a) data)
        a.nTps
      rcases Nat.lt_succ_iff_lt_or_eq.mp hs with hlt | rfl
      · have hrow : s * a.nTps + ii < n * a.nTps :=
          calc s * a.nTps + ii < (s + 1) * a.nTps := by rw [Nat.succ_mul]; omega
            _ ≤ n * a.nTps := Nat.mul_le_mul_right _ hlt
        exact (hblock.frame _ (row_lt hrow hj)).trans (ih s hlt ii hii f hf j hj)
      · exact hblock.rows ii hii f hf j hj
  exact hpfx a.nStream

/-- Each cell that is not recorded for a sequence is visible to all tokens of the sequence in
a block, or to none. -/
def Alike (a : KqMaskArgs) : Prop :=
  ∀ s < a.nStream, ∀ ii < a.nTps, ∀ jj < a.nTps,
    a.seqOf (s * a.nTps + ii) = a.seqOf (s * a.nTps + jj) → ∀ j < a.nKv,
      a.records (a.seqOf (s * a.nTps + ii)) j = false →
        (Visible a (s * a.nTps + ii) j ↔ Visible a (s * a.nTps + jj) j)

/-- The rows hold what the tokens see. -/
def MaskRight (a : KqMaskArgs) (data : ℕ → MaskEntry) : Prop :=
  ∀ s < a.nStream, ∀ ii < a.nTps, ∀ j < a.nKv, data (a.nKv * (s * a.nTps + ii) + j) =
      if Visible a (s * a.nTps + ii) j then .keep else .drop

lemma maskRight_iff (halibi : a.alibi = false) (data : ℕ → MaskEntry) :
    MaskRight a (setInputKqMask a data) ↔ Alike a := by
  have hrows := setInputKqMask_rows halibi data
  constructor
  · intro h s hs ii hii jj hjj hseq j hj hrec
    obtain ⟨f, hf⟩ := firstToken_isSome a (s * a.nTps) hii
    have h1 := hrows s hs ii hii f hf j hj
    have h2 := hrows s hs jj hjj f (by rw [← hseq]; exact hf) j hj
    rw [rowEntry, hrec, if_neg (by decide)] at h1
    rw [rowEntry, ← hseq, hrec, if_neg (by decide)] at h2
    have hsame : (if Visible a (s * a.nTps + ii) j then MaskEntry.keep else .drop) =
        if Visible a (s * a.nTps + jj) j then .keep else .drop := by
      rw [← h s hs ii hii j hj, ← h s hs jj hjj j hj, h1, h2]
    by_cases hv : Visible a (s * a.nTps + ii) j <;> by_cases hw : Visible a (s * a.nTps + jj) j
    · exact iff_of_true hv hw
    · simp [hv, hw] at hsame
    · simp [hv, hw] at hsame
    · exact iff_of_false hv hw
  · intro h s hs ii hii j hj
    obtain ⟨f, hf⟩ := firstToken_isSome a (s * a.nTps) hii
    rw [hrows s hs ii hii f hf j hj, rowEntry]
    by_cases hrec : a.records (a.seqOf (s * a.nTps + ii)) j = true
    · rw [if_pos hrec, maskEntry_eq halibi]
    · obtain ⟨ff, hff, rfl, hseq⟩ := firstToken_eq_some hf
      rw [if_neg hrec, maskEntry_eq halibi]
      exact if_congr (h s hs ii hii ff hff hseq.symm j hj (by simpa using hrec)).symm rfl rfl

/-! ## Positions that are not recorded -/

/-- No sum that the test computes exceeds the largest `int32_t`. -/
def NoOverflow (a : KqMaskArgs) : Prop :=
  ∀ s, ∀ j < a.nKv, s ∈ (a.cells s).seq j →
    -1 ≤ (a.cells s).pos j ∧ (a.cells s).pos j + (a.kv.prm.nSwa + 32) < 2 ^ 31

lemma seqPosMin_le (a : KqMaskArgs) {i : ℕ} (hi : i < a.ubatch.nTokens) :
    a.seqPosMin (a.seqOf i) ≤ a.ubatch.pos i := by
  have hpfx : ∀ n, ∀ i < n, ((range n).foldl
      (fun m i => Function.update m (a.seqOf i) (min (m (a.seqOf i)) (a.ubatch.pos i)))
      (fun _ => posLimit)) (a.seqOf i) ≤ a.ubatch.pos i := by
    intro n
    induction n with
    | zero => intro i hi; omega
    | succ n ih =>
      intro i hi
      rw [range_succ, foldl_append, foldl_cons, foldl_nil]
      by_cases hq : a.seqOf i = a.seqOf n
      · rw [hq, update_self]
        rcases Nat.lt_succ_iff_lt_or_eq.mp hi with hlt | rfl
        · exact (min_le_left _ _).trans (hq ▸ ih i hlt)
        · exact min_le_right _ _
      · rw [update_of_ne hq]
        rcases Nat.lt_succ_iff_lt_or_eq.mp hi with hlt | rfl
        · exact ih i hlt
        · exact absurd rfl hq
  exact hpfx _ i hi

/-- Two tokens well past a position have it both in their windows, or both not. -/
lemma isMaskedSwa_far {n : ℕ} (t : SwaType) {p0 p1 p2 : ℤ} (h1 : p0 + (n + 32) < p1)
    (h2 : p0 + (n + 32) < p2) : isMaskedSwa n t p0 p1 = isMaskedSwa n t p0 p2 := by
  cases t with
  | none => rfl
  | standard =>
    simp only [isMaskedSwa]
    rw [decide_eq_true (by omega), decide_eq_true (by omega)]
  | chunked =>
    simp only [isMaskedSwa]
    rcases Nat.eq_zero_or_pos n with h0 | hpos
    · simp [h0]
    · have hchunk : ∀ p : ℤ, p < p / n * n + n := fun p => by
        have hmod := Int.emod_lt_of_pos p (show (0 : ℤ) < n by omega)
        have hdiv := Int.mul_ediv_add_emod p n
        rw [Int.mul_comm] at hdiv
        omega
      have hc1 := hchunk p1
      have hc2 := hchunk p2
      rw [decide_eq_true (by omega), decide_eq_true (by omega)]
  | symmetric =>
    simp only [isMaskedSwa]
    rw [decide_eq_true (by omega), decide_eq_true (by omega)]

/-- **Without overflow** the cells that are not recorded lie far behind all tokens. -/
theorem alike_of_noOverflow (h : NoOverflow a) (hswa : a.kv.prm.nSwa + 32 < 2 ^ 31) : Alike a := by
  intro s hs ii hii jj hjj hseq j hj hrec
  have htokens : a.nStream * a.nTps ≤ a.ubatch.nTokens := Nat.mul_div_le _ _
  have hlt : ∀ {k}, k < a.nTps → s * a.nTps + k < a.ubatch.nTokens := fun hk => by
    have hle := Nat.mul_le_mul_right a.nTps hs
    rw [Nat.succ_mul] at hle
    omega
  have hmin := seqPosMin_le a (hlt hii)
  have hmin' := seqPosMin_le a (hlt hjj)
  unfold Visible
  rw [← hseq] at hmin' ⊢
  set q := a.seqOf (s * a.nTps + ii)
  by_cases hocc : (a.cells q).pos j = -1
  · simp [hocc]
  by_cases hmem : q ∈ (a.cells q).seq j
  · obtain ⟨hlo, hhi⟩ := h q j hj hmem
    have hfar : (a.cells q).pos j + (a.kv.prm.nSwa + 32) < a.seqPosMin q := by
      simp only [KqMaskArgs.records, KvCells.isEmpty, KvCells.seqHas, hocc, hmem] at hrec
      rw [wrapInt32_of_lt (z := a.kv.prm.nSwa + 32) (by omega) (by omega),
        wrapInt32_of_lt (by omega) hhi] at hrec
      simpa using hrec
    have hswa := isMaskedSwa_far (n := a.kv.prm.nSwa) a.kv.prm.swaType
      (lt_of_lt_of_le hfar hmin) (lt_of_lt_of_le hfar hmin')
    have hlt1 : (a.cells q).pos j < a.ubatch.pos (s * a.nTps + ii) := by omega
    have hlt2 : (a.cells q).pos j < a.ubatch.pos (s * a.nTps + jj) := by omega
    simp only [hswa, hlt1.le, hlt2.le, hlt1.ne, hlt2.ne, false_imp_iff]
  · simp [hmem]

/-- **The rows hold what the tokens see** just when the cells that are not recorded look
alike to the tokens of a sequence; so they do when no position is near the largest one. -/
theorem setInputKqMask_iff {a : KqMaskArgs} (halibi : a.alibi = false) (data : ℕ → MaskEntry) :
    (MaskRight a (setInputKqMask a data) ↔ Alike a) ∧
      (a.kv.prm.nSwa + 32 < 2 ^ 31 → NoOverflow a → MaskRight a (setInputKqMask a data)) :=
  ⟨maskRight_iff halibi data,
    fun hswa h => (maskRight_iff halibi data).mpr (alike_of_noOverflow h hswa)⟩

/-- Two tokens at the end of the range of positions. -/
def farTokens : LlamaBatch :=
  { BatchAllocr.oneToken with nTokens := 2, pos := some fun i => 2147483640 + i }

/-- The ubatch of both. -/
def farUbatch : UBatch :=
  ((BatchAllocr.ofFull 1 (BatchAllocr.fill farTokens none 256 false) 0 256).ubatchAdd
    [0, 1] 2 false).1

lemma accepts_farUbatch : twoCells.Accepts farUbatch := by
  have hacc : (BatchAllocr.init 1 farTokens 10 none 0 256 false).isSome = true := by
    decide +kernel
  obtain ⟨a, ha⟩ := Option.isSome_iff_exists.mp hacc
  refine ⟨farTokens, 10, none, 0, false, a, ha, [0, 1], 2, false, by simp, ?_, ?_⟩
  · rw [BatchAllocr.init_eq ha]
    decide
  · rw [BatchAllocr.init_eq ha]
    rfl

/-- The causal mask of both tokens, when they are in the cache. -/
def farMask : KqMaskArgs where
  kv := (new twoCells).place farUbatch
  ubatch := farUbatch
  causal := true
  alibi := false
  nKv := 2
  nStream := 1

theorem setInputKqMask_farMask :
    MaskRight farMask (setInputKqMask farMask fun _ => .keep) ↔ Alike farMask :=
  (setInputKqMask_iff rfl _).1

/-- The second token does not see its own cell: it is in the future of the first token, and
not recorded because the sum overflows. -/
theorem not_maskRight_farMask : (Op.place farUbatch).Asserts (new twoCells) ∧
      (setInputKqMask farMask fun _ => .keep) 3 = .drop ∧ Visible farMask 1 1 ∧
      ¬ MaskRight farMask (setInputKqMask farMask fun _ => .keep) := by
  have hdrop : (setInputKqMask farMask fun _ => .keep) 3 = .drop := by decide +kernel
  have hsees : decide (Visible farMask 1 1) = true := by decide +kernel
  have hsees := of_decide_eq_true hsees
  refine ⟨⟨accepts_farUbatch, fun h => absurd h (by decide)⟩, hdrop, hsees, fun h => ?_⟩
  have hblock : 0 < farMask.nStream ∧ 1 < farMask.nTps ∧ 1 < farMask.nKv := by decide +kernel
  have hkeep := h 0 hblock.1 1 hblock.2.1 1 hblock.2.2
  have haddr : farMask.nKv * (0 * farMask.nTps + 1) + 1 = 3 := by decide +kernel
  have htok : 0 * farMask.nTps + 1 = 1 := by decide +kernel
  rw [haddr, htok, hdrop, if_pos hsees] at hkeep
  cases hkeep

end KvCache
end Llama
