import Llama.KvCache.Slot
import Llama.Lib.Memory
import Llama.Lib.Reader

/-!
# Saving and restoring the cache

`stateWrite` is the byte string that `state_write` produces, for one sequence or, with `-1`,
for the whole cache.  `stateRead` is `state_read` as a reader of bytes that changes the
cache and may throw.

The format holds, after the number of streams, for each stream the number of saved cells
and, when there are any, the records of the cells followed by the rows of the K and V
tensors.  Offsets into a transposed V tensor are computed in 32 bits, by the writer after
and by the reader before the multiplication by the element size.
-/

namespace Llama.KvCache

open Reader (readU32 readU64 readI32 forAll forEach)

/-- Values of type `uint32_t` are computed modulo this number. -/
def wrap : ℕ := 4294967296

/-! ## `state_write` -/

/-- Whether `state_write` saves a cell: it is occupied and, unless the whole cache is saved,
holds the sequence and is not masked at the sequence's last position. -/
def savesCell (kv : KvCache) (strm : ℕ) (s : ℤ) (i : ℕ) : Bool :=
  let c := kv.vCells strm
  !c.isEmpty i && (s = -1 || c.seqHas i s) &&
    (s = -1 || !isMaskedSwa kv.prm.nSwa kv.prm.swaType (c.pos i) (c.seqPosMax s))

/-- The state of the loop that collects the ranges of saved cells. -/
structure RangeScan where
  cellCount : ℕ
  rangeBegin : ℕ
  ranges : List (ℕ × ℕ)

/-- The body of the loop, for cell `i` of `size`; `rangeBegin` is `size` outside a range. -/
def scanCell (add : ℕ → Bool) (size : ℕ) (sc : RangeScan) (i : ℕ) : RangeScan :=
  if add i then
    { sc with
      cellCount := sc.cellCount + 1
      rangeBegin := if sc.rangeBegin = size then i else sc.rangeBegin }
  else if sc.rangeBegin ≠ size then
    { sc with rangeBegin := size, ranges := sc.ranges ++ [(sc.rangeBegin, i)] }
  else sc

/-- The number of saved cells and their ranges `[first, second)`. -/
def cellRanges (add : ℕ → Bool) (size : ℕ) : ℕ × List (ℕ × ℕ) :=
  let sc := (List.range size).foldl (scanCell add size) ⟨0, size, []⟩
  (sc.cellCount, if sc.rangeBegin ≠ size then sc.ranges ++ [(sc.rangeBegin, size)] else sc.ranges)

/-- The cells of a range. -/
def rangeCells (r : ℕ × ℕ) : List ℕ := List.range' r.1 (r.2 - r.1)

/-- The sequence ids saved with a cell. -/
def savedSeqs (kv : KvCache) (strm : ℕ) (s : ℤ) (i : ℕ) : List ℤ :=
  ((List.range kv.prm.nSeqMax).map fun (cur : ℕ) => (cur : ℤ)).filter fun cur =>
    (cur = s ∨ s = -1) ∧ (kv.vCells strm).seqHas i cur

/-- The bytes of `llama_kv_cell_ext`. -/
def writeExt (e : KvCellExt) : List UInt8 := Bytes.ofInt32 e.x ++ Bytes.ofInt32 e.y

/-- The record of a cell. -/
def writeCell (kv : KvCache) (strm : ℕ) (s : ℤ) (i : ℕ) : List UInt8 :=
  let c := kv.vCells strm
  let seqs := kv.savedSeqs strm s i
  Bytes.ofInt32 (c.pos i) ++ Bytes.ofNat 4 seqs.length ++
    (if 1 < kv.prm.nPosPerEmbd then writeExt (c.ext i) else []) ++ seqs.flatMap Bytes.ofInt32

def stateWriteMeta (kv : KvCache) (strm : ℕ) (ranges : List (ℕ × ℕ)) (s : ℤ) : List UInt8 :=
  ranges.flatMap fun r => (rangeCells r).flatMap (kv.writeCell strm s)

/-- The K rows of layer `l.2`. -/
def writeKLayer (kv : KvCache) (strm : ℕ) (ranges : List (ℕ × ℕ)) (l : KvLayer × ℕ) : List UInt8 :=
  let row := l.1.kSizeRow
  Bytes.ofInt32 l.1.kType ++ Bytes.ofNat 8 row ++
    ranges.flatMap fun r => Memory.read (kv.kStream l.2 strm) (r.1 * row) ((r.2 - r.1) * row)

/-- The V rows of layer `l.2`, or its V elements row by row when V is transposed. -/
def writeVLayer (kv : KvCache) (strm : ℕ) (ranges : List (ℕ × ℕ)) (l : KvLayer × ℕ) : List UInt8 :=
  match l.1.v with
  | none => []
  | some v =>
    let m := kv.vStream l.2 strm
    let kvSize := (kv.vCells strm).size
    if kv.prm.vTrans then
      Bytes.ofInt32 v.type ++ Bytes.ofNat 4 v.sizeEl ++ Bytes.ofNat 4 v.nEmbdGqa ++
        (List.range v.nEmbdGqa).flatMap fun j => ranges.flatMap fun r =>
          Memory.read m ((r.1 + j * kvSize) * v.sizeEl % wrap) ((r.2 - r.1) * v.sizeEl)
    else
      Bytes.ofInt32 v.type ++ Bytes.ofNat 8 v.sizeRow ++
        ranges.flatMap fun r => Memory.read m (r.1 * v.sizeRow) ((r.2 - r.1) * v.sizeRow)

def stateWriteData (kv : KvCache) (strm : ℕ) (ranges : List (ℕ × ℕ)) : List UInt8 :=
  let layers := kv.prm.layers.zipIdx
  Bytes.ofNat 4 (if kv.prm.vTrans then 1 else 0) ++ Bytes.ofNat 4 layers.length ++
    layers.flatMap (kv.writeKLayer strm ranges) ++ layers.flatMap (kv.writeVLayer strm ranges)

/-- The part of one stream; an empty stream has only its cell count. -/
def stateWriteStream (kv : KvCache) (s : ℤ) (strm : ℕ) : List UInt8 :=
  let (cellCount, ranges) := cellRanges (kv.savesCell strm s) (kv.vCells strm).size
  Bytes.ofNat 4 cellCount ++ if cellCount = 0 then []
    else kv.stateWriteMeta strm ranges s ++ kv.stateWriteData strm ranges

def stateWrite (kv : KvCache) (s : ℤ) : List UInt8 :=
  Bytes.ofNat 4 kv.prm.nStream ++ (List.range kv.prm.nStream).flatMap (kv.stateWriteStream s)

/-! ## `state_read_meta` -/

def readExt : Reader KvCache KvCellExt := do
  let x ← readI32
  let y ← readI32
  return ⟨x, y⟩

/-- The extent of a record becomes the second and third position of token `i`. -/
def readTokenExt (nPosPerEmbd i : ℕ) (ub : UBatch) : Reader KvCache UBatch := do
  if 1 < nPosPerEmbd then
    let ext ← readExt
    return { ub with
      pos := Function.update (Function.update ub.pos (i + ub.nTokens) ext.y) (i + ub.nTokens * 2)
        ext.x }
  else return ub

/-- The loop over the records of a single sequence, from cell `i` on: they are collected in
a ubatch.  A record must name one sequence, which is replaced by `dest`. -/
def readSeqCells (nPosPerEmbd : ℕ) (dest : ℤ) : ℕ → ℕ → UBatch → Reader KvCache (Option UBatch)
  | 0, _, ub => return some ub
  | k + 1, i, ub => do
    let pos ← readI32
    let nSeqId ← readU32
    if nSeqId ≠ 1 then return none
    else
      let ub ← readTokenExt nPosPerEmbd i ub
      let _ ← readI32
      readSeqCells nPosPerEmbd dest k (i + 1)
        { ub with
          pos := Function.update ub.pos i pos
          nSeqId := Function.update ub.nSeqId i nSeqId
          seqId := Function.update ub.seqId i fun _ => dest }

/-- One sequence id of a record in a whole-cache restore. -/
def readSeqId (nSeqMax strm i : ℕ) : Reader KvCache Bool := do
  let s ← readI32
  if s < 0 ∨ nSeqMax ≤ s then return false
  else
    Reader.modify fun kv => kv.call strm (.seqAdd i s)
    return true

/-- The record of cell `i` in a whole-cache restore. -/
def readCell (p : KvParams) (strm i : ℕ) : Reader KvCache Bool := do
  let pos ← readI32
  let nSeqId ← readU32
  Reader.modify fun kv => kv.call strm (.posSet i pos)
  if 1 < p.nPosPerEmbd then
    let ext ← readExt
    Reader.modify fun kv => kv.call strm (.extSet i ext)
  forAll (fun _ => readSeqId p.nSeqMax strm i) (List.range nSeqId)

/-- `state_read_meta` for a single sequence; `none` stands for the value `false`. -/
def readMetaSeq (strm cellCount : ℕ) (dest : ℤ) : Reader KvCache (Option SlotInfo) := do
  Reader.modify fun kv => kv.seqRm dest (-1) (-1)
  let kv ← Reader.get
  let ub := { UBatch.reserve kv.prm.nPosPerEmbd cellCount 1 with seqIdUnq := [dest] }
  let ub? ← readSeqCells kv.prm.nPosPerEmbd dest cellCount 0 ub
  match ub? with
  | none => return none
  | some ub =>
    match kv.findSlot ub false with
    | none => return none
    | some si =>
      Reader.modify fun kv => kv.applyUbatch si ub
      let kv ← Reader.get
      Reader.require (si.nStream = 1)
      Reader.require ((si.idxs.getD 0 []).length = cellCount)
      Reader.require (∀ i < cellCount, (kv.vCells strm).pos (si.idx 0 i) = ub.pos i ∧
        (kv.vCells strm).seqHas (si.idx 0 i) dest = true)
      return some si

/-- `state_read_meta` for the whole cache. -/
def readMetaAll (strm cellCount : ℕ) : Reader KvCache (Option SlotInfo) := do
  let kv ← Reader.get
  if (kv.vCells strm).size < cellCount then return none
  else
    Reader.modify fun kv => kv.clear true
    let res ← forAll (readCell kv.prm strm) (List.range cellCount)
    if res then
      Reader.modify fun kv => kv.setHead strm 0
      return some ⟨strm, strm, [strm], [List.range cellCount]⟩
    else return none

def stateReadMeta (strm cellCount : ℕ) (dest : ℤ) : Reader KvCache (Option SlotInfo) :=
  if dest ≠ -1 then readMetaSeq strm cellCount dest else readMetaAll strm cellCount

/-! ## `state_read_data` -/

/-- Change the K tensor of a layer and stream. -/
def modifyK (il strm : ℕ) (f : (ℕ → UInt8) → ℕ → UInt8) (kv : KvCache) : KvCache :=
  { kv with kStream := fun l t => if l = il ∧ t = strm then f (kv.kStream l t) else kv.kStream l t }

/-- Change the V tensor of a layer and stream. -/
def modifyV (il strm : ℕ) (f : (ℕ → UInt8) → ℕ → UInt8) (kv : KvCache) : KvCache :=
  { kv with vStream := fun l t => if l = il ∧ t = strm then f (kv.vStream l t) else kv.vStream l t }

/-- `io.read_tensor`: `n` bytes go to the tensor that `md` changes. -/
def readTensor (md : ((ℕ → UInt8) → ℕ → UInt8) → KvCache → KvCache) (off n : ℕ) :
    Reader KvCache Unit := do
  let bs ← Reader.read n
  Reader.modify (md fun m => Memory.write m off bs)

/-- The rows of a slot's cells: in one piece when the cells are consecutive, else row by
row.  `addr` is the offset of a cell and `row` the size of its row. -/
def readRows (md : ((ℕ → UInt8) → ℕ → UInt8) → KvCache → KvCache) (si : SlotInfo)
    (cellCount : ℕ) (addr : ℕ → ℕ) (row : ℕ) : Reader KvCache Unit :=
  if cellCount = 0 then return ()
  else if si.isContiguous then readTensor md (addr si.head) (cellCount * row)
  else forEach (fun i => readTensor md (addr (si.idx 0 i)) row) (List.range cellCount)

/-- The K rows of layer `l.2`. -/
def readKLayer (strm cellCount : ℕ) (si : SlotInfo) (l : KvLayer × ℕ) : Reader KvCache Bool := do
  let kType ← readI32
  if l.1.kType ≠ kType then return false
  else
    let kSizeRow ← readU64
    if l.1.kSizeRow ≠ kSizeRow then return false
    else
      readRows (modifyK l.2 strm) si cellCount (fun h => h * l.1.kSizeRow) l.1.kSizeRow
      return true

/-- The V rows of layer `l.2`. -/
def readVLayer (strm cellCount : ℕ) (si : SlotInfo) (l : KvLayer × ℕ) : Reader KvCache Bool :=
  match l.1.v with
  | none => return true
  | some v => do
    let vType ← readI32
    if v.type ≠ vType then return false
    else
      let vSizeRow ← readU64
      if v.sizeRow ≠ vSizeRow then return false
      else
        readRows (modifyV l.2 strm) si cellCount (fun h => h * v.sizeRow) v.sizeRow
        return true

/-- The V elements of layer `l.2` when V is transposed: `size` elements of each row. -/
def readVTransLayer (size strm cellCount : ℕ) (si : SlotInfo) (l : KvLayer × ℕ) :
    Reader KvCache Bool :=
  match l.1.v with
  | none => return true
  | some v => do
    let vType ← readI32
    if v.type ≠ vType then return false
    else
      let vSizeEl ← readU32
      if v.sizeEl ≠ vSizeEl then return false
      else
        let nEmbdGqa ← readU32
        if v.nEmbdGqa ≠ nEmbdGqa then return false
        else
          forEach (fun j => readRows (modifyV l.2 strm) si cellCount
            (fun h => (h + j * size) % wrap * v.sizeEl) v.sizeEl) (List.range v.nEmbdGqa)
          return true

def stateReadData (strm cellCount : ℕ) (si : SlotInfo) : Reader KvCache Bool := do
  let kv ← Reader.get
  let layers := kv.prm.layers.zipIdx
  let size := (kv.vCells strm).size
  let vTrans ← readU32
  let nLayer ← readU32
  if nLayer ≠ layers.length then return false
  else if size < cellCount then return false
  else if kv.prm.vTrans ≠ decide (vTrans ≠ 0) then return false
  else
    let res ← forAll (readKLayer strm cellCount si) layers
    if res then
      if kv.prm.vTrans then forAll (readVTransLayer size strm cellCount si) layers
      else forAll (readVLayer strm cellCount si) layers
    else return false

/-- What `state_read` does to the cache before it throws. -/
def discard (s : ℤ) (kv : KvCache) : KvCache :=
  if s = -1 then kv.clear true else kv.seqRm s (-1) (-1)

/-- The body of the loop over the streams of the input. -/
def stateReadStream (s : ℤ) (t : ℕ) : Reader KvCache Unit := do
  let cellCount ← readU32
  if cellCount = 0 then return ()
  else
    let kv ← Reader.get
    let strm := if s = -1 then t else kv.prm.seqToStream s
    let si? ← stateReadMeta strm cellCount s
    let res ← match si? with
      | none => pure false
      | some si => Reader.catchAll (stateReadData strm cellCount si) false
    if res then return ()
    else
      Reader.modify (discard s)
      Reader.throw

def stateRead (s : ℤ) : Reader KvCache Unit := do
  let kv ← Reader.get
  Reader.require (s = -1 ∨ kv.prm.SeqOk s)
  let nStreamCur ← readU32
  if nStreamCur ≠ kv.prm.nStream then Reader.throw
  else forEach (stateReadStream s) (List.range kv.prm.nStream)

end Llama.KvCache
