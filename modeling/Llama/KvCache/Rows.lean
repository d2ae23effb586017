import Llama.KvCache.State

/-!
# The rows of saved cells

`state_write` collects the saved cells in ranges and copies the rows of a range in one
piece; the bytes are those of the saved cells one by one (`cellRanges_spec`,
`writeKLayer_eq`, `writeVLayer_eq`).  `state_read_data` puts the rows into the cells of a
slot, in one piece or row by row with the same effect (`reads_readRows`), so that each cell
of the slot receives the row of its saved cell and no other row changes.
-/

namespace Llama

open List Memory Reader

/-- The values of a layer's configuration fit their types. -/
structure KvLayer.Sized (l : KvLayer) : Prop where
  kType : Bytes.IsInt32 l.kType
  kSizeRow : l.kSizeRow < 2 ^ 64
  vType : ∀ v ∈ l.v, Bytes.IsInt32 v.type
  vSizeRow : ∀ v ∈ l.v, v.sizeRow < 2 ^ 64
  vSizeEl : ∀ v ∈ l.v, v.sizeEl < 2 ^ 32
  vNEmbdGqa : ∀ v ∈ l.v, v.nEmbdGqa < 2 ^ 32

/-- The values of the configuration fit their types. -/
structure KvParams.Sized (p : KvParams) : Prop where
  kvSize : p.kvSize < 2 ^ 32
  layers : p.layers.length < 2 ^ 32
  layer : ∀ l ∈ p.layers, l.Sized

namespace KvCache

open Reader (Reads)

/-- The cells that `state_write` saves. -/
def savedCells (kv : KvCache) (strm : ℕ) (s : ℤ) : List ℕ :=
  (List.range (kv.vCells strm).size).filter (kv.savesCell strm s)

lemma rangeCells_snoc {a k : ℕ} (h : a ≤ k) : rangeCells (a, k + 1) = rangeCells (a, k) ++ [k] := by
  have hlen : k + 1 - a = (k - a) + 1 := by omega
  simp only [rangeCells, hlen, range'_concat, Nat.one_mul, Nat.add_sub_cancel' h]

/-- After `k` cells the closed ranges and the open one hold the selected cells so far. -/
lemma scan_spec (add : ℕ → Bool) (size : ℕ) : ∀ k ≤ size,
    let sc := (range k).foldl (scanCell add size) ⟨0, size, []⟩
    sc.ranges.flatMap rangeCells ++ (if sc.rangeBegin = size then []
      else rangeCells (sc.rangeBegin, k)) = (range k).filter add ∧
      sc.cellCount = ((range k).filter add).length ∧
      (sc.rangeBegin = size ∨ sc.rangeBegin < k) := by
  intro k
  induction k with
  | zero => intro _; simp
  | succ k ih =>
    intro hk
    obtain ⟨h1, h2, h3⟩ := ih (by omega)
    rw [range_succ, foldl_append, foldl_cons, foldl_nil, filter_append]
    set sc := (range k).foldl (scanCell add size) ⟨0, size, []⟩
    by_cases hadd : add k = true
    · have hfilter : [k].filter add = [k] := by simp [hadd]
      rw [hfilter, length_append, length_singleton]
      simp only [scanCell, hadd, if_true]
      by_cases hb : sc.rangeBegin = size
      · have hne : ¬ k = size := by omega
        simp only [hb, if_true, if_neg hne, append_nil] at h1 ⊢
        exact ⟨by rw [h1]; simp [rangeCells], by omega, .inr (by omega)⟩
      · simp only [if_neg hb] at h1 ⊢
        refine ⟨?_, by omega, .inr (by omega)⟩
        rw [rangeCells_snoc (by omega), ← append_assoc, h1]
    · have hfilter : [k].filter add = [] := by simp [hadd]
      rw [hfilter, append_nil]
      simp only [scanCell, hadd, Bool.false_eq_true]
      by_cases hb : sc.rangeBegin = size
      · simp only [hb, ne_eq, not_true, if_false] at h1 ⊢
        exact ⟨h1, h2, .inl trivial⟩
      · simp only [ne_eq, hb, not_false_iff, if_true, if_false] at h1 ⊢
        refine ⟨?_, h2, .inl trivial⟩
        rw [← h1]
        simp

/-- **The ranges** hold exactly the selected cells, in order. -/
theorem cellRanges_spec (add : ℕ → Bool) (size : ℕ) :
    (cellRanges add size).2.flatMap rangeCells = (range size).filter add ∧
      (cellRanges add size).1 = ((range size).filter add).length := by
  obtain ⟨h1, h2, -⟩ := scan_spec add size size le_rfl
  refine ⟨?_, h2⟩
  rw [← h1]
  simp only [cellRanges]
  by_cases hb : ((range size).foldl (scanCell add size) ⟨0, size, []⟩).rangeBegin = size
  · simp only [hb, ne_eq, not_true, if_false, if_true, append_nil]
  · simp only [ne_eq, hb]
    simp

/-- Reading the ranges piece by piece is reading their cells one by one, when the cells of
a range lie behind each other. -/
lemma read_ranges (m : ℕ → UInt8) (row : ℕ) (base : ℕ × ℕ → ℕ) (addr : ℕ → ℕ)
    (ranges : List (ℕ × ℕ)) (h : ∀ r ∈ ranges, ∀ i, base r + i * row = addr (r.1 + i)) :
    (ranges.flatMap fun r => Memory.read m (base r) ((r.2 - r.1) * row)) =
      (ranges.flatMap rangeCells).flatMap fun i => Memory.read m (addr i) row := by
  rw [flatMap_assoc]
  refine flatMap_congr fun r hr => ?_
  rw [read_mul, rangeCells, range'_eq_map_range, flatMap_map]
  refine flatMap_congr fun i _ => ?_
  rw [h r hr i]

/-- The K rows of a cell, layer by layer. -/
def kRows (kv : KvCache) (strm i : ℕ) : List (List UInt8) :=
  kv.prm.layers.zipIdx.map fun l =>
    Memory.read (kv.kStream l.2 strm) (i * l.1.kSizeRow) l.1.kSizeRow

/-- The V row of a cell in layer `l.2`. -/
def vRow (kv : KvCache) (strm i : ℕ) (l : KvLayer × ℕ) : List UInt8 :=
  match l.1.v with
  | none => []
  | some v =>
    if kv.prm.vTrans then (List.range v.nEmbdGqa).flatMap fun j =>
      Memory.read (kv.vStream l.2 strm) ((i + j * (kv.vCells strm).size) * v.sizeEl) v.sizeEl
    else Memory.read (kv.vStream l.2 strm) (i * v.sizeRow) v.sizeRow

/-- The V rows of a cell, layer by layer. -/
def vRows (kv : KvCache) (strm i : ℕ) : List (List UInt8) :=
  kv.prm.layers.zipIdx.map (kv.vRow strm i)

/-! ## The written rows -/

/-- The part of layer `l` in `state_write_data`, for the given K rows. -/
def kBytes (n : ℕ) (rows : ℕ → List UInt8) (l : KvLayer × ℕ) : List UInt8 :=
  Bytes.ofInt32 l.1.kType ++ Bytes.ofNat 8 l.1.kSizeRow ++ (List.range n).flatMap rows

/-- The part of layer `l` for the given V rows. -/
def vBytes (n : ℕ) (rows : ℕ → List UInt8) (l : KvLayer × ℕ) : List UInt8 :=
  match l.1.v with
  | none => []
  | some v => Bytes.ofInt32 v.type ++ Bytes.ofNat 8 v.sizeRow ++ (List.range n).flatMap rows

/-- The part of layer `l` for the given elements of a transposed V, which are indexed by
row and cell. -/
def vTransBytes (n : ℕ) (els : ℕ → ℕ → List UInt8) (l : KvLayer × ℕ) : List UInt8 :=
  match l.1.v with
  | none => []
  | some v => Bytes.ofInt32 v.type ++ Bytes.ofNat 4 v.sizeEl ++ Bytes.ofNat 4 v.nEmbdGqa ++
      (List.range v.nEmbdGqa).flatMap fun j => (List.range n).flatMap (els j)

/-- No offset that the writer computes into a transposed V tensor overflows. -/
def WriteFits (kv : KvCache) (strm : ℕ) (ranges : List (ℕ × ℕ)) : Prop :=
  kv.prm.vTrans = true → ∀ l ∈ kv.prm.layers, ∀ v ∈ l.v, ∀ r ∈ ranges, ∀ j < v.nEmbdGqa,
    (r.1 + j * (kv.vCells strm).size) * v.sizeEl < wrap

lemma flatMap_getD {α : Type} (cells : List ℕ) (f : ℕ → List α) :
    cells.flatMap f = (range cells.length).flatMap fun i => f (cells.getD i 0) := by
  have hcells : cells = (range cells.length).map fun i => cells.getD i 0 := by
    refine ext_getElem (by simp) fun i h1 h2 => ?_
    rw [getElem_map, getElem_range, getD_eq_getElem _ _ h1]
  conv_lhs => rw [hcells, flatMap_map]

variable {cells : List ℕ} {kv src : KvCache} {ranges : List (ℕ × ℕ)} {strm n size t : ℕ}
  {l : KvLayer × ℕ} {si : SlotInfo}

lemma writeKLayer_eq (hcells : ranges.flatMap rangeCells = cells) (l : KvLayer × ℕ) :
    kv.writeKLayer strm ranges l = kBytes cells.length (fun i =>
      Memory.read (kv.kStream l.2 strm) (cells.getD i 0 * l.1.kSizeRow) l.1.kSizeRow) l := by
  have hread := read_ranges (kv.kStream l.2 strm) l.1.kSizeRow (fun r => r.1 * l.1.kSizeRow)
    (fun i => i * l.1.kSizeRow) ranges fun r _ i => (Nat.add_mul ..).symm
  simp only [writeKLayer, kBytes, hread, hcells]
  rw [← flatMap_getD cells fun i =>
    Memory.read (kv.kStream l.2 strm) (i * l.1.kSizeRow) l.1.kSizeRow]

lemma writeVLayer_eq (hcells : ranges.flatMap rangeCells = cells) (hv : kv.prm.vTrans = false)
    (l : KvLayer × ℕ) :
    kv.writeVLayer strm ranges l =
      vBytes cells.length (fun i => kv.vRow strm (cells.getD i 0) l) l := by
  cases hl : l.1.v with
  | none => simp [writeVLayer, vBytes, hl]
  | some v =>
    have hread := read_ranges (kv.vStream l.2 strm) v.sizeRow (fun r => r.1 * v.sizeRow)
      (fun i => i * v.sizeRow) ranges fun r _ i => (Nat.add_mul ..).symm
    simp only [writeVLayer, vBytes, vRow, hl, hv, Bool.false_eq_true, if_false, hread, hcells]
    rw [← flatMap_getD cells fun i => Memory.read (kv.vStream l.2 strm) (i * v.sizeRow) v.sizeRow]

/-- The element of row `j` of a cell in a transposed V tensor. -/
def vEl (kv : KvCache) (strm i : ℕ) (l : KvLayer × ℕ) (j : ℕ) : List UInt8 :=
  match l.1.v with
  | none => []
  | some v =>
    Memory.read (kv.vStream l.2 strm) ((i + j * (kv.vCells strm).size) * v.sizeEl) v.sizeEl

lemma writeVTransLayer_eq (hcells : ranges.flatMap rangeCells = cells)
    (hv : kv.prm.vTrans = true) (hfits : kv.WriteFits strm ranges) (hl : l.1 ∈ kv.prm.layers) :
    kv.writeVLayer strm ranges l =
      vTransBytes cells.length (fun j i => kv.vEl strm (cells.getD i 0) l j) l := by
  cases hlv : l.1.v with
  | none => simp [writeVLayer, vTransBytes, hlv]
  | some v =>
    simp only [writeVLayer, vTransBytes, vEl, hlv, hv, if_true]
    refine congrArg _ (flatMap_congr fun j hj => ?_)
    have hread := read_ranges (kv.vStream l.2 strm) v.sizeEl
      (fun r => (r.1 + j * (kv.vCells strm).size) * v.sizeEl % wrap)
      (fun i => (i + j * (kv.vCells strm).size) * v.sizeEl) ranges fun r hr i => by
        rw [Nat.mod_eq_of_lt (hfits hv l.1 hl v hlv r hr j (mem_range.mp hj)), ← Nat.add_mul]
        congr 1
        omega
    rw [hread, hcells, ← flatMap_getD cells fun i =>
      Memory.read (kv.vStream l.2 strm) ((i + j * (kv.vCells strm).size) * v.sizeEl) v.sizeEl]

/-! ## Rows read into a slot -/

/-- A function that changes one tensor of the cache. -/
structure Modifies (md : ((ℕ → UInt8) → ℕ → UInt8) → KvCache → KvCache) : Prop where
  id : ∀ kv, md (fun m => m) kv = kv
  comp : ∀ f g kv, md g (md f kv) = md (fun m => g (f m)) kv

lemma modifies_modifyK (il strm : ℕ) : Modifies (modifyK il strm) where
  id := fun kv => by simp [modifyK]
  comp := fun f g kv => by
    simp only [modifyK]
    congr
    funext l t
    split <;> rfl

lemma modifies_modifyV (il strm : ℕ) : Modifies (modifyV il strm) where
  id := fun kv => by simp [modifyV]
  comp := fun f g kv => by
    simp only [modifyV]
    congr
    funext l t
    split <;> rfl

lemma reads_readTensor (md : ((ℕ → UInt8) → ℕ → UInt8) → KvCache → KvCache) (off : ℕ)
    {bs : List UInt8} (hlen : bs.length = n) (kv : KvCache) :
    Reads (readTensor md off n) kv bs () (md (fun m => Memory.write m off bs) kv) := by
  have h : Reads (readTensor md off n) kv (bs ++ []) () _ := (reads_read hlen kv).bind
    (reads_modify (md fun m => Memory.write m off bs) kv)
  rwa [append_nil] at h

/-- The cells of a contiguous slot lie behind each other. -/
lemma idx_of_isContiguous (hc : si.isContiguous = true) (hone : si.idxs.length = 1) {i : ℕ}
    (hi : i < si.size) : si.idx 0 i = si.head + i := by
  obtain ⟨l, hl⟩ := length_eq_one_iff.mp hone
  simp only [SlotInfo.size, hl] at hi
  simp only [SlotInfo.idx, SlotInfo.head, hl]
  cases l with
  | nil => simp at hi
  | cons a l =>
    simp only [SlotInfo.isContiguous, hl, all_eq_true, mem_range, decide_eq_true_eq] at hc
    exact hc i hi

/-- **Rows read into a slot** go to the offsets of its cells, whichever path is taken. -/
theorem reads_readRows {md : ((ℕ → UInt8) → ℕ → UInt8) → KvCache → KvCache} (hmd : Modifies md)
    {row : ℕ} (addr : ℕ → ℕ) {rows : ℕ → List UInt8} (hlen : ∀ i, (rows i).length = row)
    (haddr : si.isContiguous = true → ∀ i < n, addr (si.idx 0 i) = addr si.head + i * row)
    (kv : KvCache) :
    Reads (readRows md si n addr row) kv ((range n).flatMap rows) ()
      (md (fun m => Memory.scatter m ((range n).map fun i => (addr (si.idx 0 i), rows i)))
        kv) := by
  rw [readRows]
  by_cases hn : n = 0
  · subst hn
    simp only [range_zero, map_nil, scatter_nil, hmd.id]
    exact Reader.reads_pure () kv
  rw [if_neg hn]
  by_cases hc : si.isContiguous = true
  · rw [if_pos hc]
    have hbytes : ((range n).flatMap rows).length = n * row := by
      simp [hlen]
    have hval := reads_readTensor md (addr si.head) hbytes kv
    have hscatter : (range n).map (fun i => (addr (si.idx 0 i), rows i)) =
        (range n).map fun i => (addr si.head + i * row, rows i) :=
      map_congr_left fun i hi => by rw [haddr hc i (mem_range.mp hi)]
    rw [hscatter]
    have hwrite : (fun m : ℕ → UInt8 => Memory.write m (addr si.head) ((range n).flatMap rows)) =
        fun m => Memory.scatter m
          ((range n).map fun i => (addr si.head + i * row, rows i)) :=
      funext fun m => write_flatMap m _ row rows hlen n
    rwa [hwrite] at hval
  · rw [if_neg hc]
    let S : ℕ → KvCache := fun k => md (fun m => Memory.scatter m
      ((range k).map fun i => (addr (si.idx 0 i), rows i))) kv
    have hround : ∀ k (hk : k < (range n).length),
        Reads (readTensor md (addr (si.idx 0 (range n)[k])) row) (S k)
          (rows (range n)[k]) () (S (k + 1)) := fun k hk => by
      rw [getElem_range]
      have h := reads_readTensor md (addr (si.idx 0 k)) (hlen k) (S k)
      simp only [S, hmd.comp] at h ⊢
      simp only [range_succ, map_append, scatter_append]
      exact h
    have hloop : Reads (Reader.forEach (fun i => readTensor md (addr (si.idx 0 i)) row)
        (range n)) (S 0) ((range n).flatMap rows) () (S (range n).length) :=
      Reader.reads_forEach hround
    simp only [S, range_zero, map_nil, scatter_nil, hmd.id, length_range] at hloop
    exact hloop

/-! ## The layers -/

/-- The writes to the tensor of layer `il`, when `W` gives those of each layer. -/
def layerWrites (p : KvParams) (W : KvLayer × ℕ → List (ℕ × List UInt8)) (il : ℕ) :
    List (ℕ × List UInt8) :=
  match p.layers[il]? with
  | none => []
  | some l => W (l, il)

/-- The cache once the K rows of the first `n` layers are restored. -/
def withK (kv : KvCache) (strm n : ℕ) (W : KvLayer × ℕ → List (ℕ × List UInt8)) : KvCache :=
  { kv with kStream := fun il t =>
      if il < n ∧ t = strm then Memory.scatter (kv.kStream il t) (layerWrites kv.prm W il)
      else kv.kStream il t }

/-- The cache once the V rows of the first `n` layers are restored. -/
def withV (kv : KvCache) (strm n : ℕ) (W : KvLayer × ℕ → List (ℕ × List UInt8)) : KvCache :=
  { kv with vStream := fun il t =>
      if il < n ∧ t = strm then Memory.scatter (kv.vStream il t) (layerWrites kv.prm W il)
      else kv.vStream il t }

lemma withK_succ (kv : KvCache) (strm : ℕ) (W : KvLayer × ℕ → List (ℕ × List UInt8))
    (hn : n < kv.prm.layers.length) :
    modifyK n strm (fun m => Memory.scatter m (W (kv.prm.layers[n], n))) (kv.withK strm n W) =
      kv.withK strm (n + 1) W := by
  simp only [modifyK, withK]
  congr
  funext il t
  by_cases hil : il = n
  · subst hil
    by_cases ht : t = strm <;> simp [layerWrites, getElem?_eq_getElem hn]
  · have hlt : il < n + 1 ↔ il < n := by omega
    simp [hil, hlt]

lemma withV_succ (kv : KvCache) (strm : ℕ) (W : KvLayer × ℕ → List (ℕ × List UInt8))
    (hn : n < kv.prm.layers.length) :
    modifyV n strm (fun m => Memory.scatter m (W (kv.prm.layers[n], n))) (kv.withV strm n W) =
      kv.withV strm (n + 1) W := by
  simp only [modifyV, withV]
  congr
  funext il t
  by_cases hil : il = n
  · subst hil
    by_cases ht : t = strm <;> simp [layerWrites, getElem?_eq_getElem hn]
  · have hlt : il < n + 1 ↔ il < n := by omega
    simp [hil, hlt]

/-- A slot for `n` rows: a single block of distinct cells. -/
structure RowSlot (si : SlotInfo) (n size : ℕ) : Prop where
  one : si.idxs.length = 1
  size_eq : si.size = n
  nodup : ((List.range n).map (si.idx 0)).Nodup
  lt : ∀ i < n, si.idx 0 i < size

/-- The writes of the K rows of a layer. -/
def kWrites (si : SlotInfo) (n : ℕ) (rows : KvLayer × ℕ → ℕ → List UInt8) (l : KvLayer × ℕ) :
    List (ℕ × List UInt8) :=
  (List.range n).map fun i => (si.idx 0 i * l.1.kSizeRow, rows l i)

/-- The writes of the V rows of a layer. -/
def vWrites (si : SlotInfo) (n : ℕ) (rows : KvLayer × ℕ → ℕ → List UInt8) (l : KvLayer × ℕ) :
    List (ℕ × List UInt8) :=
  match l.1.v with
  | none => []
  | some v => (List.range n).map fun i => (si.idx 0 i * v.sizeRow, rows l i)

/-- The writes of the elements of a transposed V, row by row. -/
def vTransWrites (si : SlotInfo) (n size : ℕ) (els : KvLayer × ℕ → ℕ → ℕ → List UInt8)
    (l : KvLayer × ℕ) : List (ℕ × List UInt8) :=
  match l.1.v with
  | none => []
  | some v => (List.range v.nEmbdGqa).flatMap fun j =>
      (List.range n).map fun i => ((si.idx 0 i + j * size) * v.sizeEl, els l j i)

lemma reads_readKLayer (hsi : RowSlot si n size) (strm : ℕ)
    (rows : KvLayer × ℕ → ℕ → List UInt8) (hl : l.1.Sized)
    (hlen : ∀ i, (rows l i).length = l.1.kSizeRow) (kv : KvCache) :
    Reads (readKLayer strm n si l) kv (kBytes n (rows l) l) true
      (modifyK l.2 strm (fun m => Memory.scatter m (kWrites si n rows l)) kv) := by
  have haddr : si.isContiguous = true → ∀ i < n,
      si.idx 0 i * l.1.kSizeRow = si.head * l.1.kSizeRow + i * l.1.kSizeRow := fun hc i hi => by
    rw [idx_of_isContiguous hc hsi.one (hsi.size_eq.symm ▸ hi), Nat.add_mul]
  have hrows := reads_readRows (modifies_modifyK l.2 strm) (fun h => h * l.1.kSizeRow) hlen haddr kv
  refine (reads_readI32 hl.kType kv).bind ?_
  rw [if_neg (not_not.mpr rfl)]
  refine (reads_readU64 hl.kSizeRow kv).bind ?_
  rw [if_neg (not_not.mpr rfl)]
  exact hrows.map fun _ => true

lemma reads_readVLayer (hsi : RowSlot si n size) (strm : ℕ)
    (rows : KvLayer × ℕ → ℕ → List UInt8) (hl : l.1.Sized)
    (hlen : ∀ v ∈ l.1.v, ∀ i, (rows l i).length = v.sizeRow) (kv : KvCache) :
    Reads (readVLayer strm n si l) kv (vBytes n (rows l) l) true
      (modifyV l.2 strm (fun m => Memory.scatter m (vWrites si n rows l)) kv) := by
  simp only [readVLayer, vBytes, vWrites]
  cases hv : l.1.v with
  | none =>
    simp only [scatter_nil, (modifies_modifyV l.2 strm).id]
    exact Reader.reads_pure true kv
  | some v =>
    have haddr : si.isContiguous = true → ∀ i < n,
        si.idx 0 i * v.sizeRow = si.head * v.sizeRow + i * v.sizeRow := fun hc i hi => by
      rw [idx_of_isContiguous hc hsi.one (hsi.size_eq.symm ▸ hi), Nat.add_mul]
    have hrows := reads_readRows (modifies_modifyV l.2 strm) (fun h => h * v.sizeRow) (hlen v hv)
      haddr kv
    refine (reads_readI32 (hl.vType v hv) kv).bind ?_
    rw [if_neg (not_not.mpr rfl)]
    refine (reads_readU64 (hl.vSizeRow v hv) kv).bind ?_
    rw [if_neg (not_not.mpr rfl)]
    exact hrows.map fun _ => true

/-- No offset that the reader computes into a transposed V tensor overflows. -/
def ReadFits (p : KvParams) (size : ℕ) : Prop :=
  p.vTrans = true → ∀ l ∈ p.layers, ∀ v ∈ l.v, size * v.nEmbdGqa ≤ wrap

lemma reads_readVTransLayer (hsi : RowSlot si n size) (strm : ℕ)
    (els : KvLayer × ℕ → ℕ → ℕ → List UInt8) (hl : l.1.Sized)
    (hlen : ∀ v ∈ l.1.v, ∀ j i, (els l j i).length = v.sizeEl)
    (hfits : ∀ v ∈ l.1.v, size * v.nEmbdGqa ≤ wrap) (kv : KvCache) :
    Reads (readVTransLayer size strm n si l) kv (vTransBytes n (els l) l) true
      (modifyV l.2 strm (fun m => Memory.scatter m (vTransWrites si n size els l)) kv) := by
  have hmd := modifies_modifyV l.2 strm
  simp only [readVTransLayer, vTransBytes, vTransWrites]
  cases hv : l.1.v with
  | none =>
    simp only [scatter_nil, hmd.id]
    exact Reader.reads_pure true kv
  | some v =>
    let ws : ℕ → List (ℕ × List UInt8) := fun j =>
      (range n).map fun i => ((si.idx 0 i + j * size) * v.sizeEl, els l j i)
    let S : ℕ → KvCache := fun k =>
      modifyV l.2 strm (fun m => Memory.scatter m ((range k).flatMap ws)) kv
    have hround : ∀ k (hk : k < (range v.nEmbdGqa).length), Reads (readRows (modifyV l.2 strm) si n
          (fun h => (h + (range v.nEmbdGqa)[k] * size) % wrap * v.sizeEl) v.sizeEl) (S k)
          ((range n).flatMap (els l (range v.nEmbdGqa)[k])) () (S (k + 1)) :=
      fun k hk => by
        rw [getElem_range]
        rw [length_range] at hk
        have hmul : (k + 1) * size ≤ v.nEmbdGqa * size := Nat.mul_le_mul_right _ hk
        rw [Nat.succ_mul] at hmul
        have hwrap := hfits v hv
        rw [Nat.mul_comm] at hwrap
        have hmod : ∀ i < n, (si.idx 0 i + k * size) % wrap = si.idx 0 i + k * size :=
          fun i hi => Nat.mod_eq_of_lt (by have := hsi.lt i hi; omega)
        have haddr : si.isContiguous = true → ∀ i < n, (si.idx 0 i + k * size) % wrap * v.sizeEl =
              (si.head + k * size) % wrap * v.sizeEl + i * v.sizeEl := fun hc i hi => by
          have hidx := idx_of_isContiguous hc hsi.one (hsi.size_eq.symm ▸ hi)
          have hhead : (si.head + k * size) % wrap = si.head + k * size := hmod 0 (by omega)
          rw [hmod i hi, ← Nat.add_mul]
          congr 1
          omega
        have hrows := reads_readRows hmd (fun h => (h + k * size) % wrap * v.sizeEl) (hlen v hv k)
          haddr (S k)
        have hws : (range n).map (fun i =>
            ((si.idx 0 i + k * size) % wrap * v.sizeEl, els l k i)) = ws k :=
          map_congr_left fun i hi => by rw [hmod i (mem_range.mp hi)]
        rw [hws] at hrows
        simp only [S, hmd.comp] at hrows ⊢
        simp only [range_succ, flatMap_append, flatMap_singleton, scatter_append]
        exact hrows
    have hloop : Reads (Reader.forEach (fun j => readRows (modifyV l.2 strm) si n
        (fun h => (h + j * size) % wrap * v.sizeEl) v.sizeEl) (range v.nEmbdGqa)) (S 0)
        ((range v.nEmbdGqa).flatMap fun j => (range n).flatMap (els l j)) ()
        (S (range v.nEmbdGqa).length) := Reader.reads_forEach hround
    simp only [S, range_zero, flatMap_nil, scatter_nil, hmd.id, length_range] at hloop
    refine (reads_readI32 (hl.vType v hv) kv).bind ?_
    rw [if_neg (not_not.mpr rfl)]
    refine (reads_readU32 (hl.vSizeEl v hv) kv).bind ?_
    rw [if_neg (not_not.mpr rfl)]
    refine (reads_readU32 (hl.vNEmbdGqa v hv) kv).bind ?_
    rw [if_neg (not_not.mpr rfl)]
    exact hloop.map fun _ => true

/-! ## `state_read_data` -/

/-- The K rows of the listed cells of a source. -/
def srcK (src : KvCache) (strm : ℕ) (cells : List ℕ) (l : KvLayer × ℕ) (i : ℕ) : List UInt8 :=
  Memory.read (src.kStream l.2 strm) (cells.getD i 0 * l.1.kSizeRow) l.1.kSizeRow

/-- The writes to the V tensors when the rows of the listed cells of a source are restored. -/
def restoreV (src : KvCache) (strm : ℕ) (cells : List ℕ) (si : SlotInfo) :
    KvLayer × ℕ → List (ℕ × List UInt8) :=
  if src.prm.vTrans then
    vTransWrites si cells.length (src.vCells strm).size fun l j i =>
      src.vEl strm (cells.getD i 0) l j
  else vWrites si cells.length fun l i => src.vRow strm (cells.getD i 0) l

/-- The cache after the rows of the listed cells of stream `t` of `src` are restored into a
slot of stream `strm`. -/
def withRows (kv : KvCache) (strm : ℕ) (si : SlotInfo) (src : KvCache) (t : ℕ)
    (cells : List ℕ) : KvCache :=
  let n := kv.prm.layers.length
  (kv.withK strm n (kWrites si cells.length (src.srcK t cells))).withV strm n
    (src.restoreV t cells si)

lemma getElem_zipIdx' {l : List KvLayer} {k : ℕ} (hk : k < l.zipIdx.length) :
    l.zipIdx[k] = (l.get ⟨k, by simpa using hk⟩, k) := by
  simp

/-- The written data of the listed cells. -/
lemma stateWriteData_eq (hcells : ranges.flatMap rangeCells = cells)
    (hfits : src.WriteFits t ranges) :
    src.stateWriteData t ranges =
      Bytes.ofNat 4 (if src.prm.vTrans then 1 else 0) ++ (Bytes.ofNat 4 src.prm.layers.length ++
        (src.prm.layers.zipIdx.flatMap (fun l => kBytes cells.length (src.srcK t cells l) l) ++
          src.prm.layers.zipIdx.flatMap fun l =>
            if src.prm.vTrans then
              vTransBytes cells.length (fun j i => src.vEl t (cells.getD i 0) l j) l
            else vBytes cells.length (fun i => src.vRow t (cells.getD i 0) l) l)) := by
  simp only [stateWriteData, length_zipIdx, append_assoc]
  congr 3
  · exact flatMap_congr fun l _ => writeKLayer_eq hcells l
  · refine flatMap_congr fun l hl => ?_
    have hmem : l.1 ∈ src.prm.layers := by
      exact (mem_zipIdx' hl).2 ▸ getElem_mem _
    cases hv : src.prm.vTrans with
    | true =>
      exact writeVTransLayer_eq hcells hv hfits hmem
    | false =>
      exact writeVLayer_eq hcells hv l

lemma length_vRow (hv : src.prm.vTrans = false) (t i : ℕ) {v : VTensor} (hl : l.1.v = some v) :
    (src.vRow t i l).length = v.sizeRow := by
  simp [vRow, hl, hv]

lemma length_vEl (src : KvCache) (t i j : ℕ) {v : VTensor} (hl : l.1.v = some v) :
    (src.vEl t i l j).length = v.sizeEl := by
  simp [vEl, hl]

/-- A loop over the tensors of the layers, of which each step reads one layer. -/
lemma reads_layers {ls : List KvLayer} {read : KvLayer × ℕ → Reader KvCache Bool}
    {bytes : KvLayer × ℕ → List UInt8} {S : ℕ → KvCache}
    (h : ∀ k (hk : k < ls.length), Reads (read (ls[k], k)) (S k) (bytes (ls[k], k)) true
      (S (k + 1))) :
    Reads (forAll read ls.zipIdx) (S 0) (ls.zipIdx.flatMap bytes) true (S ls.length) := by
  rw [← length_zipIdx]
  refine reads_forAll fun k hk => ?_
  rw [getElem_zipIdx' hk]
  exact h k _

/-- The loop over the K tensors. -/
lemma reads_kLayers (t strm : ℕ) (hprm : kv.prm = src.prm) (hsized : src.prm.Sized)
    (hsi : RowSlot si cells.length size) :
    Reads (forAll (readKLayer strm cells.length si) src.prm.layers.zipIdx) kv
      (src.prm.layers.zipIdx.flatMap fun l => kBytes cells.length (src.srcK t cells l) l) true
      (kv.withK strm src.prm.layers.length (kWrites si cells.length (src.srcK t cells))) := by
  let W := kWrites si cells.length (src.srcK t cells)
  refine reads_layers (S := fun k => kv.withK strm k W) fun k hk => ?_
  have hsucc := withK_succ kv strm W (hprm ▸ hk)
  simp only [hprm] at hsucc
  rw [← hsucc]
  exact reads_readKLayer hsi strm (src.srcK t cells) (hsized.layer _ (getElem_mem hk))
    (fun i => by simp [srcK]) _

/-- A loop over the V tensors. -/
lemma reads_vLayers {W : KvLayer × ℕ → List (ℕ × List UInt8)}
    {read : KvLayer × ℕ → Reader KvCache Bool} {bytes : KvLayer × ℕ → List UInt8}
    (hprm : kv.prm = src.prm)
    (h : ∀ k (hk : k < src.prm.layers.length) kv', Reads (read (src.prm.layers[k], k)) kv'
      (bytes (src.prm.layers[k], k)) true
      (modifyV k strm (fun m => Memory.scatter m (W (src.prm.layers[k], k))) kv')) :
    Reads (forAll read src.prm.layers.zipIdx) kv (src.prm.layers.zipIdx.flatMap bytes) true
      (kv.withV strm src.prm.layers.length W) := by
  refine reads_layers (S := fun k => kv.withV strm k W) fun k hk => ?_
  have hsucc := withV_succ kv strm W (hprm ▸ hk)
  simp only [hprm] at hsucc
  rw [← hsucc]
  exact h k hk _

/-- **The rows of the saved cells** are read back into the slot. -/
theorem reads_stateReadData (hcells : ranges.flatMap rangeCells = cells) (hprm : kv.prm = src.prm)
    (hsize : (kv.vCells strm).size = (src.vCells t).size) (hsized : src.prm.Sized)
    (hsi : RowSlot si cells.length (src.vCells t).size) (hle : cells.length ≤ (src.vCells t).size)
    (hwrite : src.WriteFits t ranges) (hread : ReadFits src.prm (src.vCells t).size) :
    Reads (stateReadData strm cells.length si) kv (src.stateWriteData t ranges) true
      (kv.withRows strm si src t cells) := by
  have hk := reads_kLayers t strm hprm hsized hsi
  set kv1 := kv.withK strm src.prm.layers.length (kWrites si cells.length (src.srcK t cells))
  have hprm1 : kv1.prm = src.prm := hprm
  have hval : kv.withRows strm si src t cells =
      kv1.withV strm src.prm.layers.length (src.restoreV t cells si) := by rw [withRows, hprm]
  rw [hval, stateWriteData_eq hcells hwrite]
  refine (reads_get kv).bind_nil ?_
  have hbit : (if src.prm.vTrans = true then 1 else 0) < 2 ^ 32 := by split <;> norm_num
  refine (reads_readU32 hbit kv).bind ?_
  refine (reads_readU32 hsized.layers kv).bind ?_
  have h1 : ¬ src.prm.layers.length ≠ kv.prm.layers.zipIdx.length := by simp [hprm]
  have h2 : ¬ (kv.vCells strm).size < cells.length := by omega
  have h3 : ¬ kv.prm.vTrans ≠ decide ((if src.prm.vTrans = true then 1 else 0) ≠ 0) := by
    rw [hprm]
    cases src.prm.vTrans <;> simp
  rw [if_neg h1, if_neg h2, if_neg h3, hprm]
  refine hk.bind ?_
  rw [hsize]
  cases hv : src.prm.vTrans with
  | true =>
    simp only [restoreV, hv, if_true]
    exact reads_vLayers hprm1 fun k hk => reads_readVTransLayer hsi strm
      (fun l j i => src.vEl t (cells.getD i 0) l j) (hsized.layer _ (getElem_mem hk))
      (fun v hl j i => length_vEl src t _ j hl) (hread hv _ (getElem_mem hk))
  | false =>
    simp only [restoreV, hv, Bool.false_eq_true, if_false]
    exact reads_vLayers hprm1 fun k hk => reads_readVLayer hsi strm
      (fun l i => src.vRow t (cells.getD i 0) l) (hsized.layer _ (getElem_mem hk))
      fun v hl i => length_vRow hv t _ hl

/-! ## The restored rows -/

lemma getElem?_of_mem_zipIdx {ls : List KvLayer} (hl : l ∈ ls.zipIdx) :
    l.2 < ls.length ∧ ls[l.2]? = some l.1 := by
  obtain ⟨h1, h2⟩ := mem_zipIdx' hl
  exact ⟨h1, by rw [getElem?_eq_getElem h1, ← h2]⟩

lemma layerWrites_eq {p : KvParams} (W : KvLayer × ℕ → List (ℕ × List UInt8))
    (hl : l ∈ p.layers.zipIdx) : layerWrites p W l.2 = W l := by
  rw [layerWrites, (getElem?_of_mem_zipIdx hl).2]

section

variable (kv : KvCache) (strm : ℕ) (si : SlotInfo) (src : KvCache) (t : ℕ) (cells : List ℕ)

@[simp] lemma withRows_prm : (kv.withRows strm si src t cells).prm = kv.prm := rfl

@[simp] lemma withRows_vCells : (kv.withRows strm si src t cells).vCells = kv.vCells := rfl

end

lemma withRows_kStream (hl : l ∈ kv.prm.layers.zipIdx) (u : ℕ) :
    (kv.withRows strm si src t cells).kStream l.2 u = if u = strm then
      Memory.scatter (kv.kStream l.2 u) (kWrites si cells.length (src.srcK t cells) l)
      else kv.kStream l.2 u := by
  simp only [withRows, withV, withK, (getElem?_of_mem_zipIdx hl).1, true_and, layerWrites_eq _ hl]

lemma withRows_vStream (hl : l ∈ kv.prm.layers.zipIdx) (u : ℕ) :
    (kv.withRows strm si src t cells).vStream l.2 u = if u = strm then
      Memory.scatter (kv.vStream l.2 u) (src.restoreV t cells si l)
      else kv.vStream l.2 u := by
  simp only [withRows, withV, withK, (getElem?_of_mem_zipIdx hl).1, true_and, layerWrites_eq _ hl]

/-- Each cell of the slot receives the K rows of its saved cell. -/
lemma kRows_withRows (strm : ℕ) (hprm : kv.prm = src.prm) (hsi : RowSlot si cells.length size)
    {i : ℕ} (hi : i < cells.length) :
    (kv.withRows strm si src t cells).kRows strm (si.idx 0 i) = src.kRows t (cells.getD i 0) := by
  simp only [kRows, withRows_prm, hprm]
  refine map_congr_left fun l hl => ?_
  rw [withRows_kStream (hprm ▸ hl), if_pos rfl]
  exact read_scatter_unit _ hsi.nodup (fun i => by simp [srcK]) (mem_range.mpr hi)

/-- The K rows of other cells stay. -/
lemma kRows_withRows_of_ne {u j : ℕ} (hj : u = strm → ∀ i < cells.length, si.idx 0 i ≠ j) :
    (kv.withRows strm si src t cells).kRows u j = kv.kRows u j := by
  simp only [kRows, withRows_prm]
  refine map_congr_left fun l hl => ?_
  rw [withRows_kStream hl]
  split
  · rename_i hu
    refine read_scatter_unit_of_notMem _ (fun i => by simp [srcK]) fun hmem => ?_
    obtain ⟨i, hi, heq⟩ := mem_map.mp hmem
    exact hj hu i (mem_range.mp hi) heq
  · rfl

/-- Writes row by row as writes to units of the element size. -/
lemma vTransWrites_eq {els : KvLayer × ℕ → ℕ → ℕ → List UInt8} {v : VTensor}
    (hv : l.1.v = some v) :
    vTransWrites si n size els l =
      ((range v.nEmbdGqa).flatMap fun j => (range n).map fun i => (j, i)).map
        fun x => ((si.idx 0 x.2 + x.1 * size) * v.sizeEl, els l x.1 x.2) := by
  simp only [vTransWrites, hv, map_flatMap, map_map]
  rfl

/-- Different rows and different cells have different elements. -/
lemma RowSlot.nodup_els (hsi : RowSlot si n size) (m : ℕ) :
    (((range m).flatMap fun j => (range n).map fun i => (j, i)).map
      fun x : ℕ × ℕ => si.idx 0 x.2 + x.1 * size).Nodup := by
  simp only [map_flatMap, map_map]
  refine nodup_flatMap.mpr ⟨fun j _ => ?_, ?_⟩
  · have h := hsi.nodup.map (f := fun i => i + j * size) fun a b hab => Nat.add_right_cancel hab
    rw [map_map] at h
    exact h
  · refine nodup_range.imp fun {a b} hne => ?_
    rintro x h1 h2
    obtain ⟨i, hi, rfl⟩ := mem_map.mp h1
    obtain ⟨k, hk, heq⟩ := mem_map.mp h2
    have hi := hsi.lt i (mem_range.mp hi)
    have hk := hsi.lt k (mem_range.mp hk)
    simp only [Function.comp_apply] at heq
    have h1 : (si.idx 0 k + b * size) / size = b := by
      rw [Nat.add_mul_div_right _ _ (by omega), Nat.div_eq_of_lt hk, Nat.zero_add]
    have h2 : (si.idx 0 i + a * size) / size = a := by
      rw [Nat.add_mul_div_right _ _ (by omega), Nat.div_eq_of_lt hi, Nat.zero_add]
    rw [heq, h2] at h1
    exact hne h1

/-- Each cell of the slot receives the V rows of its saved cell. -/
lemma vRows_withRows (hprm : kv.prm = src.prm)
    (hsize : (kv.vCells strm).size = (src.vCells t).size)
    (hsi : RowSlot si cells.length (src.vCells t).size) {i : ℕ} (hi : i < cells.length) :
    (kv.withRows strm si src t cells).vRows strm (si.idx 0 i) = src.vRows t (cells.getD i 0) := by
  simp only [vRows, withRows_prm, hprm]
  refine map_congr_left fun l hl => ?_
  cases hv : l.1.v with
  | none => simp [vRow, hv]
  | some v =>
    simp only [vRow, hv, withRows_prm, hprm, withRows_vCells, hsize,
      withRows_vStream (hprm ▸ hl), if_true, restoreV]
    cases hvt : src.prm.vTrans with
    | true =>
      simp only [if_true]
      refine flatMap_congr fun j hj => ?_
      rw [vTransWrites_eq hv]
      have hmem : (j, i) ∈ (range v.nEmbdGqa).flatMap fun j =>
          (range cells.length).map fun i => (j, i) :=
        mem_flatMap.mpr ⟨j, hj, mem_map_of_mem (mem_range.mpr hi)⟩
      have h := read_scatter_unit (kv.vStream l.2 strm) (n := v.sizeEl)
        (g := fun x : ℕ × ℕ => src.vEl t (cells.getD x.2 0) l x.1) (hsi.nodup_els v.nEmbdGqa)
        (fun x => length_vEl src t _ _ hv) hmem
      simpa only [vEl, hv] using h
    | false =>
      simp only [Bool.false_eq_true, if_false, vWrites]
      have h := read_scatter_unit (kv.vStream l.2 strm) (n := v.sizeRow)
        (g := fun i => src.vRow t (cells.getD i 0) l) hsi.nodup
        (fun i => length_vRow hvt t _ hv) (mem_range.mpr hi)
      simpa only [vRow, hv, hvt, Bool.false_eq_true, if_false] using h

/-- The V rows of other cells stay. -/
lemma vRows_withRows_of_ne {u j : ℕ} (hprm : kv.prm = src.prm)
    (hsize : ∀ u, (kv.vCells u).size = (src.vCells t).size)
    (hsi : RowSlot si cells.length (src.vCells t).size) (hlt : j < (src.vCells t).size)
    (hj : u = strm → ∀ i < cells.length, si.idx 0 i ≠ j) :
    (kv.withRows strm si src t cells).vRows u j = kv.vRows u j := by
  simp only [vRows, withRows_prm]
  refine map_congr_left fun l hl => ?_
  cases hv : l.1.v with
  | none => simp [vRow, hv]
  | some v =>
    simp only [vRow, hv, withRows_prm, withRows_vCells, hsize, withRows_vStream hl, restoreV]
    by_cases hu : u = strm
    · simp only [if_pos hu]
      cases hvt : src.prm.vTrans with
      | true =>
        simp only [hprm, hvt, if_true]
        refine flatMap_congr fun k hk => ?_
        rw [vTransWrites_eq hv]
        refine read_scatter_unit_of_notMem _ (fun x => length_vEl src t _ _ hv)
          fun hmem => ?_
        obtain ⟨⟨a, i⟩, hx, heq⟩ := mem_map.mp hmem
        simp only [mem_flatMap, mem_map, mem_range] at hx
        obtain ⟨_, -, _, hi, rfl, rfl⟩ := hx
        have hlt' := hsi.lt _ hi
        have hmod := congrArg (· % (src.vCells t).size) heq
        simp only [Nat.add_mul_mod_self_right, Nat.mod_eq_of_lt hlt, Nat.mod_eq_of_lt hlt'] at hmod
        exact hj hu _ hi hmod
      | false =>
        simp only [hprm, hvt, Bool.false_eq_true, if_false, vWrites, hv]
        refine read_scatter_unit_of_notMem _ (fun _ => length_read _ _ _)
          fun hmem => ?_
        obtain ⟨i, hi, heq⟩ := mem_map.mp hmem
        exact hj hu i (mem_range.mp hi) heq
    · simp only [if_neg hu]

end KvCache
end Llama
