import Llama.Batch
import Llama.KvCells

/-!
# The key-value cache

`KvCache` is `llama_kv_cache`: the cells and the search head of each stream, the queued
stream copies, and the K and V tensors of each layer and stream as byte memories.  The
configuration fixed by the constructor is `KvParams`.  Cells shared with another cache
(`other`) and the graph-building methods are left out.

Every call into `llama_kv_cells` goes through `KvCache.call`, which also records it, with
the cells it was made on, in the ghost field `calls`; no operation reads this record.

A `GGML_ASSERT` stops the program; the operations here are defined when it holds, and
`Op.Asserts` states it.
-/

namespace Llama

/-- The value tensor of a layer: its type, the bytes of a row and of an element, and the
number of elements of a row (`n_embd_v_gqa`). -/
structure VTensor where
  type : ℤ
  sizeRow : ℕ
  sizeEl : ℕ
  nEmbdGqa : ℕ
  deriving DecidableEq

/-- `kv_layer`: the key tensor's type and row size, and the value tensor when there is
one. -/
structure KvLayer where
  kType : ℤ
  kSizeRow : ℕ
  v : Option VTensor
  deriving DecidableEq

/-- What the constructor of the cache fixes.  The cache is unified, with one stream for
all sequences, or has one stream for each of `nSeqMax` sequences. -/
structure KvParams where
  unified : Bool
  nSeqMax : ℕ
  kvSize : ℕ
  nSwa : ℕ
  swaType : SwaType
  mrope : Bool
  vTrans : Bool
  layers : List KvLayer
  nSeqMax_pos : 0 < nSeqMax
  nSeqMax_le : nSeqMax ≤ maxSeq

namespace KvParams

def nStream (p : KvParams) : ℕ := if p.unified then 1 else p.nSeqMax

def nPosPerEmbd (p : KvParams) : ℕ := if p.mrope then 4 else 1

def seqToStream (p : KvParams) (s : ℤ) : ℕ := if 1 < p.nStream then s.toNat else 0

/-- The number of entries of `seq_to_stream`. -/
def seqToStreamSize (p : KvParams) : ℕ := if 1 < p.nStream then p.nStream else maxSeq

/-- The sequence ids the methods accept. -/
def SeqOk (p : KvParams) (s : ℤ) : Prop := 0 ≤ s ∧ s < p.seqToStreamSize

instance (p : KvParams) (s : ℤ) : Decidable (p.SeqOk s) := inferInstanceAs (Decidable (_ ∧ _))

lemma nStream_pos (p : KvParams) : 0 < p.nStream := by
  have h := p.nSeqMax_pos
  unfold nStream
  split <;> omega

lemma nStream_le (p : KvParams) : p.nStream ≤ maxSeq := by
  have h := p.nSeqMax_le
  unfold nStream maxSeq at *
  split <;> omega

/-- A sequence lives in one of the streams. -/
lemma SeqOk.stream_lt {p : KvParams} {s : ℤ} (h : p.SeqOk s) : p.seqToStream s < p.nStream := by
  obtain ⟨h0, hlt⟩ := h
  have hpos := p.nStream_pos
  unfold seqToStreamSize at hlt
  unfold seqToStream
  split <;> rename_i hn
  · rw [if_pos hn] at hlt
    omega
  · exact hpos

lemma SeqOk.lt_maxSeq {p : KvParams} {s : ℤ} (h : p.SeqOk s) : 0 ≤ s ∧ s < maxSeq := by
  obtain ⟨h0, hlt⟩ := h
  have hle := p.nStream_le
  unfold seqToStreamSize at hlt
  split at hlt <;> omega

end KvParams

/-- `llama_kv_cache`. -/
structure KvCache where
  prm : KvParams
  vCells : ℕ → KvCells
  vHeads : ℕ → ℕ
  scInfo : List (ℕ × ℕ)
  kStream : ℕ → ℕ → ℕ → UInt8
  vStream : ℕ → ℕ → ℕ → UInt8
  calls : List (KvCells × KvCells.Op)

namespace KvCache

/-- The cache after construction: empty cells, no queued copy, zeroed tensors. -/
def new (prm : KvParams) : KvCache where
  prm := prm
  vCells := fun _ => .resize prm.kvSize
  vHeads := fun _ => 0
  scInfo := []
  kStream := fun _ _ _ => 0
  vStream := fun _ _ _ => 0
  calls := []

/-- Call a method of the cells of stream `strm`. -/
def call (kv : KvCache) (strm : ℕ) (op : KvCells.Op) : KvCache :=
  { kv with
    vCells := Function.update kv.vCells strm ((kv.vCells strm).run op)
    calls := (kv.vCells strm, op) :: kv.calls }

def setHead (kv : KvCache) (strm head : ℕ) : KvCache :=
  { kv with vHeads := Function.update kv.vHeads strm head }

/-- The cells of the stream a sequence lives in. -/
def cellsOf (kv : KvCache) (s : ℤ) : KvCells := kv.vCells (kv.prm.seqToStream s)

def getSize (kv : KvCache) : ℕ := (kv.cellsOf 0).size

def seqPosMin (kv : KvCache) (s : ℤ) : ℤ := (kv.cellsOf s).seqPosMin s

def seqPosMax (kv : KvCache) (s : ℤ) : ℤ := (kv.cellsOf s).seqPosMax s

/-- A negative lower bound means 0. -/
def lowBound (p0 : ℤ) : ℤ := if p0 < 0 then 0 else p0

/-- A negative upper bound means the largest position, which is itself excluded. -/
def highBound (p1 : ℤ) : ℤ := if p1 < 0 then posLimit else p1

/-- The loop the sequence methods share: call `op i` on every cell `i` of a stream that
satisfies `sel`.  Returns the first cell whose call `frees` it, or the number of cells. -/
def forCells (kv : KvCache) (strm : ℕ) (sel : KvCells → ℕ → Bool) (op : ℕ → KvCells.Op)
    (frees : KvCells → ℕ → Bool) : KvCache × ℕ :=
  (List.range (kv.vCells strm).size).foldl
    (fun (kv, newHead) i =>
      let cells := kv.vCells strm
      if sel cells i then
        (kv.call strm (op i), if frees cells i ∧ newHead = cells.size then i else newHead)
      else (kv, newHead))
    (kv, (kv.vCells strm).size)

/-- If we freed up a slot, set head to it so searching can start there. -/
def lowerHead (kv : KvCache) (strm newHead : ℕ) : KvCache :=
  if newHead ≠ (kv.vCells strm).size ∧ newHead < kv.vHeads strm then kv.setHead strm newHead
  else kv

/-! ## The sequence methods -/

def clear (kv : KvCache) (data : Bool) : KvCache :=
  let kv := (List.range kv.prm.nStream).foldl
    (fun kv s => (kv.call s .reset).setHead s 0) kv
  if data then { kv with kStream := fun _ _ _ => 0, vStream := fun _ _ _ => 0 } else kv

/-- The loop of `seq_rm` for one sequence. -/
def rmSeqLoop (kv : KvCache) (s p0 p1 : ℤ) : KvCache × ℕ :=
  kv.forCells (kv.prm.seqToStream s) (fun c i => c.posIn i p0 p1 ∧ c.seqHas i s)
    (fun i => .seqRm i s) (fun c i => c.seqRmEmpties i s)

/-- The loop of `seq_rm` for any sequence. -/
def rmAnyLoop (kv : KvCache) (strm : ℕ) (p0 p1 : ℤ) : KvCache × ℕ :=
  kv.forCells strm (fun c i => c.posIn i p0 p1) (fun i => .rm i) (fun _ _ => true)

/-- `seq_rm`; `-1` removes every sequence. -/
def seqRm (kv : KvCache) (s p0 p1 : ℤ) : KvCache :=
  let p0 := lowBound p0
  let p1 := highBound p1
  if 0 ≤ s then
    let strm := kv.prm.seqToStream s
    let (kv, newHead) := kv.rmSeqLoop s p0 p1
    kv.lowerHead strm newHead
  else
    (List.range kv.prm.nStream).foldl
      (fun kv strm =>
        let (kv, newHead) := kv.rmAnyLoop strm p0 p1
        kv.lowerHead strm newHead) kv

/-- One cell of a copy between streams: the position is set without the pending shift, which
is then added. -/
def cpCell (s0 s1 : ℕ) (src dst : ℤ) (kv : KvCache) (i : ℕ) : KvCache :=
  let c := kv.vCells s0
  if c.seqHas i src then
    let shift := c.shift i
    let ext := c.ext i
    let kv := kv.call s1 (.posSet i (if shift ≠ 0 then c.pos i - shift else c.pos i))
    let kv := kv.call s1 (.seqAdd i dst)
    let kv := if shift ≠ 0 then kv.call s1 (.posAdd i shift) else kv
    kv.call s1 (.extSet i ext)
  else kv

/-- `seq_cp`: within a stream the cells are shared; between streams the cells are copied and
the copy of the tensors is queued. -/
def seqCp (kv : KvCache) (src dst p0 p1 : ℤ) : KvCache :=
  let s0 := kv.prm.seqToStream src
  let s1 := kv.prm.seqToStream dst
  if s0 = s1 then
    if src = dst then kv
    else
      (kv.forCells s0
        (fun c i => c.posIn i (lowBound p0) (highBound p1) ∧ c.seqHas i src)
        (fun i => .seqAdd i dst) (fun _ _ => false)).1
  else
    let kv := { kv with scInfo := kv.scInfo ++ [(s0, s1)] }
    let kv := kv.call s1 .reset
    let kv := (List.range (kv.vCells s0).size).foldl (cpCell s0 s1 src dst) kv
    kv.setHead s1 (kv.vHeads s0)

def seqKeep (kv : KvCache) (s : ℤ) : KvCache :=
  let strm := kv.prm.seqToStream s
  let (kv, newHead) := kv.forCells strm (fun _ _ => true) (fun i => .seqKeep i s)
    (fun c i => c.seqKeepEmpties i s)
  kv.lowerHead strm newHead

/-- `seq_add`: move positions.  The next search starts at the first freed cell, or at 0. -/
def seqAdd (kv : KvCache) (s p0 p1 shift : ℤ) : KvCache :=
  let strm := kv.prm.seqToStream s
  let p0 := lowBound p0
  let p1 := highBound p1
  if shift = 0 then kv
  else if p0 = p1 then kv
  else
    let (kv, newHead) := kv.forCells strm (fun c i => c.posIn i p0 p1 ∧ c.seqHas i s)
      (fun i => .posAdd i shift) (fun c i => c.posAddEmpties i shift)
    kv.setHead strm (if newHead ≠ (kv.vCells strm).size then newHead else 0)

def seqDiv (kv : KvCache) (s p0 p1 d : ℤ) : KvCache :=
  let p0 := lowBound p0
  let p1 := highBound p1
  if d = 1 then kv
  else if p0 = p1 then kv
  else
    (kv.forCells (kv.prm.seqToStream s) (fun c i => c.posIn i p0 p1 ∧ c.seqHas i s)
      (fun i => .posDiv i d) (fun _ _ => false)).1

end KvCache
end Llama
