import Llama.Lib.Reader
import Llama.Lib.Run
import Llama.Recurrent

/-!
# Restoring a recurrent memory, and its runs

`stateRead` is `state_read` as a reader of bytes that changes the memory.  A saved sequence
is one record and one row; a saved memory is a list of them.  The sequence ids of a record
are only saved with the whole memory.

`Op` is a call of a public method, and `step` its effect: `none` when an assertion fails or
when the restore throws.
-/

namespace Llama.MemoryRecurrent

open Reader (readU32 readU64 readI32 forAll)

/-! ## `state_read_meta` -/

/-- The loop over the records of a single sequence, from token `i` on; they name no
sequence. -/
def readSeqCells : ℕ → ℕ → UBatch → Reader MemoryRecurrent (Option UBatch)
  | 0, _, ub => return some ub
  | k + 1, i, ub => do
    let pos ← readI32
    let nSeqId ← readU32
    if nSeqId ≠ 0 then return none
    else readSeqCells k (i + 1) { ub with pos := Function.update ub.pos i pos }

/-- A single sequence replaces what the memory holds of it. -/
def readMetaSeq (cellCount : ℕ) (dest : ℤ) : Reader MemoryRecurrent Bool := do
  Reader.modify fun m => (m.seqRm dest (-1) (-1)).2
  if cellCount = 0 then return true
  else
    let m ← Reader.get
    let ub? ← readSeqCells cellCount 0 (.reserve m.prm.nPosPerEmbd cellCount 1)
    match ub? with
    | none => return false
    | some ub =>
      let ub := { ub with
        nSeqId := Function.update ub.nSeqId 0 1
        seqId := Function.update ub.seqId 0 fun _ => dest }
      match m.findSlot ub with
      | none => Reader.stop
      | some (false, m) =>
        Reader.modify fun _ => m
        return false
      | some (true, m) =>
        Reader.modify fun _ => m
        let last := m.head + cellCount - 1
        Reader.require (m.head + cellCount ≤ m.prm.size)
        Reader.require ((m.cells m.head).pos = ub.pos 0)
        Reader.require ((m.cells last).pos = ub.pos (cellCount - 1))
        Reader.require (dest ∈ (m.cells m.head).seqId)
        Reader.require (dest ∈ (m.cells last).seqId)
        return true

/-- One sequence id of the record of cell `i`. -/
def readSeqId (i : ℕ) : Reader MemoryRecurrent Bool := do
  let s ← readI32
  let m ← Reader.get
  if s < 0 ∨ m.prm.nSeqMax ≤ s then return false
  else
    let cell := m.cells i
    let m := { m with
      cells := Function.update m.cells i { cell with seqId := insert s cell.seqId } }
    Reader.modify fun _ => m
    if m.tail s ≠ none then return false
    else
      Reader.modify fun m => { m with tail := Function.update m.tail s (some i) }
      return true

/-- The record of cell `i`. -/
def readCell (i : ℕ) : Reader MemoryRecurrent Bool := do
  let pos ← readI32
  let nSeqId ← readU32
  Reader.modify fun m =>
    { m with cells := Function.update m.cells i { m.cells i with pos := pos } }
  forAll (fun _ => readSeqId i) (List.range nSeqId)

/-- The whole memory is replaced. -/
def readMetaAll (cellCount : ℕ) : Reader MemoryRecurrent Bool := do
  let m ← Reader.get
  if m.prm.size < cellCount then return false
  else
    Reader.modify fun m => m.clear true
    let res ← forAll readCell (List.range cellCount)
    if res then
      Reader.modify fun m => { m with head := 0, used := UInt32.ofNat cellCount }
      return true
    else return false

/-- The restored cells keep their restored rows. -/
def keepRows (m : MemoryRecurrent) (cellCount : ℕ) : MemoryRecurrent :=
  { m with
    cells := fun i =>
      if m.head ≤ i ∧ i < m.head + cellCount then { m.cells i with src := some i }
      else m.cells i }

/-- `state_read_meta`.  The last loop has no cells to keep when a single sequence was saved
without a state. -/
def stateReadMeta (cellCount : ℕ) (dest : ℤ) : Reader MemoryRecurrent Bool := do
  let res ← (if dest ≠ -1 then readMetaSeq cellCount dest else readMetaAll cellCount)
  if res then
    Reader.modify fun m => m.keepRows cellCount
    return true
  else return false

/-- Row `k` of a run of rows of `size` bytes each. -/
def chunk (bs : List UInt8) (size k : ℕ) : List UInt8 := (bs.drop (k * size)).take size

/-- The rows of one tensor: type, row size and the rows, which `set` stores. -/
def readTensor (set : RsRow → List UInt8 → RsRow) (cellCount : ℕ) :
    Option RsTensor → Reader MemoryRecurrent Bool
  | none => return true
  | some t => do
    let typeRef ← readI32
    if t.type ≠ typeRef then return false
    else
      let rowSizeRef ← readU64
      if t.rowSize ≠ rowSizeRef then return false
      else
        let bs ← Reader.read (cellCount * t.rowSize)
        Reader.modify fun m => { m with
          rows := fun i =>
            if m.head ≤ i ∧ i < m.head + cellCount then
              set (m.rows i) (chunk bs t.rowSize (i - m.head))
            else m.rows i }
        return true

/-- The R tensor of layer `l.2`. -/
def readRLayer (cellCount : ℕ) (l : Option RsTensor × ℕ) : Reader MemoryRecurrent Bool :=
  readTensor (fun row bs => { row with r := Function.update row.r l.2 bs }) cellCount l.1

/-- The S tensor of layer `l.2`. -/
def readSLayer (cellCount : ℕ) (l : Option RsTensor × ℕ) : Reader MemoryRecurrent Bool :=
  readTensor (fun row bs => { row with s := Function.update row.s l.2 bs }) cellCount l.1

/-- `state_read_data`.  Transposed S tensors are refused, so that the branch for them is
never taken. -/
def stateReadData (cellCount : ℕ) : Reader MemoryRecurrent Bool := do
  let m ← Reader.get
  let sTrans ← readU32
  let nLayer ← readU32
  if nLayer ≠ m.prm.rl.length then return false
  else if m.prm.size < cellCount then return false
  else if sTrans ≠ 0 then return false
  else
    let res ← forAll (readRLayer cellCount) m.prm.rl.zipIdx
    if res then forAll (readSLayer cellCount) m.prm.sl.zipIdx else return false

/-- What `state_read` does to the memory before it throws. -/
def discard (s : ℤ) (m : MemoryRecurrent) : MemoryRecurrent :=
  if s = -1 then m.clear true else (m.seqRm s (-1) (-1)).2

/-- `set_rs_idx(s, 0)`. -/
def resetRsIdx (s : ℤ) : Reader MemoryRecurrent Unit := do
  let m ← Reader.get
  if s < 0 then Reader.modify fun m => { m with rsIdx := fun _ => 0 }
  else
    Reader.require (s < m.prm.nSeqMax)
    Reader.modify fun m => m.setRsIdx s 0

def stateRead (s : ℤ) : Reader MemoryRecurrent Unit := do
  let cellCount ← readU32
  let res ← stateReadMeta cellCount s
  let res ← (if res then Reader.catchAll (stateReadData cellCount) false else pure false)
  if res then
    let m ← Reader.get
    if m.prm.nRsSeq ≠ 0 then resetRsIdx s else return ()
  else
    Reader.modify (discard s)
    Reader.throw

/-- A call of a public method. -/
inductive Op
  | clear (data : Bool)
  | seqRm (s p0 p1 : ℤ)
  | seqCp (src dst : ℤ)
  | seqKeep (s : ℤ)
  | seqAdd (s p0 p1 shift : ℤ)
  | seqDiv (s p0 p1 d : ℤ)
  | prepare (ubs : List UBatch)
  | findSlot (ub : UBatch)
  | compute (nSeqs : ℕ) (state : ℕ → ℕ → RsRow)
  | stateRead (s : ℤ) (bytes : List UInt8)

/-- The memory that a successful restore leaves. -/
def restored (o : Reader.Outcome MemoryRecurrent Unit) : Option MemoryRecurrent :=
  match o.result with
  | .ok () => some o.state
  | _ => none

/-- The effect of a call; `none` when an assertion fails or a restore does not succeed. -/
def step (m : MemoryRecurrent) : Op → Option MemoryRecurrent
  | .clear data => some (m.clear data)
  | .seqRm s p0 p1 => some (m.seqRm s p0 p1).2
  | .seqCp src dst => some (m.seqCp src dst)
  | .seqKeep s => some (m.seqKeep s)
  | .seqAdd s p0 p1 shift => some (m.seqAdd s p0 p1 shift)
  | .seqDiv s p0 p1 d => some (m.seqDiv s p0 p1 d)
  | .prepare ubs => (m.prepare ubs).map Prod.snd
  | .findSlot ub => (m.findSlot ub).map Prod.snd
  | .compute nSeqs state => some (m.compute nSeqs state)
  | .stateRead s bytes => restored (stateRead s m bytes)

end Llama.MemoryRecurrent
