import Llama.Batch
import Llama.Lib.Arrange

/-!
# The memory of a recurrent model

`MemoryRecurrent` is `llama_memory_recurrent`.  One cell holds the state of a whole
sequence, or of several that share it: its position and the set of its sequences.  The
state itself is a row of every layer's R and S tensors; `src` names the row that holds it
and `src0` the row that the next graph copies it from.

An entry of the source's cell array has a second role: `cells[s].tail` is the cell that
holds sequence `s`.  Here it is a table of its own, `tail`.  An index of `-1` is `none`.
A loop whose rounds touch one cell each is written cell by cell.

With `nRsSeq` snapshots a tensor has `1 + nRsSeq` planes of `size` rows, and `rsIdx s`
tells from which plane sequence `s` continues: by how many tokens it has been rolled back.
-/

namespace Llama

/-- The R or S tensor of a layer: its type and the number of bytes of a row. -/
structure RsTensor where
  type : ℤ
  rowSize : ℕ

/-- The parameters of the constructor.  The callers pass `max(1, n_seq_max)` as the number
of cells. -/
structure RsParams where
  size : ℕ
  nSeqMax : ℕ
  nRsSeq : ℕ
  nPosPerEmbd : ℕ
  rl : List (Option RsTensor)
  sl : List (Option RsTensor)
  size_pos : 0 < size
  size_lt : size < 2 ^ 32
  nSeqMax_le : nSeqMax ≤ size
  length_sl : sl.length = rl.length

/-- Row `i` of all tensors. -/
structure RsRow where
  r : ℕ → List UInt8
  s : ℕ → List UInt8

/-- A row of a cleared tensor. -/
def zeroBytes : Option RsTensor → List UInt8
  | none => []
  | some t => List.replicate t.rowSize 0

/-- The state of a sequence that has seen nothing. -/
def RsParams.zeroRow (p : RsParams) : RsRow :=
  ⟨fun il => zeroBytes (p.rl.getD il none), fun il => zeroBytes (p.sl.getD il none)⟩

/-- `mem_cell`, without `tail`. -/
structure MemCell where
  pos : ℤ
  src : Option ℕ
  src0 : Option ℕ
  seqId : Finset ℤ

def MemCell.isEmpty (c : MemCell) : Bool := c.seqId = ∅

/-- The first element of the set, `*seq_id.begin()`. -/
def MemCell.firstSeq (c : MemCell) : Option ℤ :=
  if h : c.seqId.Nonempty then some (c.seqId.min' h) else none

/-- The cell without its position and its row. -/
def MemCell.freed (c : MemCell) : MemCell := { c with pos := -1, src := none, seqId := ∅ }

/-- `llama_memory_recurrent`. -/
@[ext] structure MemoryRecurrent where
  prm : RsParams
  cells : ℕ → MemCell
  tail : ℤ → Option ℕ
  head : ℕ
  used : UInt32
  n : ℕ
  rsZ : Option ℕ
  rsIdx : ℤ → ℕ
  rows : ℕ → RsRow

/-- The sequence ids of set `s` of a ubatch: those of its first token. -/
def UBatch.setIds (ub : UBatch) (s : ℕ) : List ℤ := ub.seqs (s * ub.nSeqTokens)

/-- `seq_id[i][0]` for every set. -/
def UBatch.firstIds (ub : UBatch) : List ℤ :=
  (List.range ub.nSeqs).map fun s => ub.seqId (s * ub.nSeqTokens) 0

/-- The position of the last token of set `s`. -/
def UBatch.lastPos (ub : UBatch) (s : ℕ) : ℤ := ub.pos (s * ub.nSeqTokens + ub.nSeqTokens - 1)

namespace MemoryRecurrent

/-- The memory after construction. -/
def new (p : RsParams) : MemoryRecurrent where
  prm := p
  cells := fun _ => ⟨-1, none, none, ∅⟩
  tail := fun _ => none
  head := 0
  used := 0
  n := 0
  rsZ := none
  rsIdx := fun _ => 0
  rows := fun _ => p.zeroRow

/-- The indices of the cells. -/
def cellIds (m : MemoryRecurrent) : List ℕ := List.range m.prm.size

/-- The number of cells that satisfy `p`. -/
def countCells (m : MemoryRecurrent) (p : MemCell → Bool) : ℕ :=
  ((Finset.range m.prm.size).filter fun i => p (m.cells i)).card

/-- The number of cells with a sequence. -/
def countUsed (m : MemoryRecurrent) : ℕ := m.countCells fun c => !c.isEmpty

/-! ## Sequence operations -/

def clear (m : MemoryRecurrent) (data : Bool) : MemoryRecurrent :=
  { m with
    cells := fun i => (m.cells i).freed
    tail := fun _ => none
    head := 0
    used := 0
    rows := if data then fun _ => m.prm.zeroRow else m.rows
    rsIdx := fun _ => 0 }

/-- `set_rs_idx` for one sequence. -/
def setRsIdx (m : MemoryRecurrent) (s : ℤ) (idx : ℕ) : MemoryRecurrent :=
  { m with rsIdx := Function.update m.rsIdx s idx }

/-- If a slot was freed, searching starts there. -/
def lowerHead (head : ℕ) : Option ℕ → ℕ
  | none => head
  | some newHead => if newHead < head then newHead else head

/-- Whether the loop of `seq_rm` takes sequence `s` out of a cell. -/
def selects (s p0 p1 : ℤ) (c : MemCell) : Bool := p0 ≤ c.pos ∧ c.pos < p1 ∧ s ∈ c.seqId

/-- Whether the cell is then empty. -/
def vacates (s p0 p1 : ℤ) (c : MemCell) : Bool := selects s p0 p1 c ∧ c.seqId.erase s = ∅

/-- The loop of `seq_rm` over the cells, and the new head. -/
def removeRange (m : MemoryRecurrent) (s p0 p1 : ℤ) : MemoryRecurrent :=
  { m with
    cells := fun i =>
      let c := m.cells i
      if vacates s p0 p1 c then c.freed
      else if selects s p0 p1 c then { c with seqId := c.seqId.erase s }
      else c
    used := m.used - UInt32.ofNat (m.countCells fun c => vacates s p0 p1 c ∧ 0 ≤ c.pos)
    head := lowerHead m.head (m.cellIds.find? fun i => vacates s p0 p1 (m.cells i)) }

/-- The condition for a rollback: a suffix of the sequence is removed. -/
def cutsTail (c : MemCell) (p0 p1 : ℤ) : Bool := 0 < p0 ∧ p0 ≤ c.pos ∧ c.pos < p1

/-- `seq_rm` of a whole sequence resets its rollback. -/
def resetOnAll (m : MemoryRecurrent) (s p0 p1 : ℤ) : MemoryRecurrent :=
  if p0 = 0 ∧ p1 = posLimit then m.setRsIdx s 0 else m

/-- Sequence `s` in cell `t` is rolled back to the position before `p0`. -/
def rollBack (m : MemoryRecurrent) (s : ℤ) (t : ℕ) (p0 : ℤ) : MemoryRecurrent :=
  let cell := m.cells t
  let rollback := cell.pos - (p0 - 1)
  { m.setRsIdx s rollback.toNat with
    cells := Function.update m.cells t { cell with pos := p0 - 1 } }

/-- The rest of `seq_rm`, when the id is in range. -/
def seqRmCell (m : MemoryRecurrent) (s p0 p1 : ℤ) : Bool × MemoryRecurrent :=
  match m.tail s with
  | none => (true, m.removeRange s p0 p1)
  | some t =>
    let cell := m.cells t
    if cutsTail cell p0 p1 then
      -- partial rollback via a snapshot, bounded by `nRsSeq` and single-use
      let rollback := cell.pos - (p0 - 1)
      if m.rsIdx s = 0 ∧ 1 ≤ rollback ∧ rollback ≤ m.prm.nRsSeq then (true, m.rollBack s t p0)
      else (false, m)
    else
      let m := if p0 ≤ cell.pos ∧ cell.pos < p1 then
        { m with tail := Function.update m.tail s none } else m
      (true, m.removeRange s p0 p1)

/-- `seq_rm` on a valid range.  The ids below 0 fail the first test, which compares unsigned
numbers, so that the branches for them are never taken. -/
def seqRmRange (m : MemoryRecurrent) (s p0 p1 : ℤ) : Bool × MemoryRecurrent :=
  if s < 0 ∨ m.prm.nSeqMax ≤ s then (false, m)
  else
    let m := m.resetOnAll s p0 p1
    if m.prm.size ≤ s then (false, m) else m.seqRmCell s p0 p1

/-- The lower end of a range: negative means from the beginning. -/
def lowPos (p0 : ℤ) : ℤ := if p0 < 0 then 0 else p0

/-- The upper end of a range: negative means to the end. -/
def highPos (p1 : ℤ) : ℤ := if p1 < 0 then posLimit else p1

def seqRm (m : MemoryRecurrent) (s p0 p1 : ℤ) : Bool × MemoryRecurrent :=
  m.seqRmRange s (lowPos p0) (highPos p1)

/-- Sequence `s` leaves its cell, which is freed if nothing is left in it. -/
def leave (m : MemoryRecurrent) (s : ℤ) : MemoryRecurrent :=
  match m.tail s with
  | none => m
  | some t =>
    let cell := m.cells t
    let m := { m with tail := Function.update m.tail s none }
    if cell.seqId.erase s = ∅ then
      { m with cells := Function.update m.cells t cell.freed, used := m.used - 1 }
    else
      { m with cells := Function.update m.cells t { cell with seqId := cell.seqId.erase s } }

/-- Sequence `s` joins those of cell `t`. -/
def join (m : MemoryRecurrent) (s : ℤ) (t : ℕ) : MemoryRecurrent :=
  let cell := m.cells t
  { m with
    cells := Function.update m.cells t { cell with seqId := insert s cell.seqId }
    tail := Function.update m.tail s (some t) }

/-- `0 <= s && s < size`. -/
def InSize (m : MemoryRecurrent) (s : ℤ) : Prop := 0 ≤ s ∧ s < m.prm.size

instance (m : MemoryRecurrent) (s : ℤ) : Decidable (m.InSize s) := inferInstanceAs (Decidable (_ ∧ _))

/-- `seq_cp`; the range is ignored. -/
def seqCp (m : MemoryRecurrent) (src dst : ℤ) : MemoryRecurrent :=
  if src = dst then m
  else if m.InSize dst ∧ m.InSize src then
    let m := m.leave dst
    match m.tail src with
    | none => m
    | some t => m.join dst t
  else m

def seqKeep (m : MemoryRecurrent) (s : ℤ) : MemoryRecurrent :=
  { m with
    tail := fun j => if j = s then m.tail j else none
    cells := fun i =>
      let c := m.cells i
      if s ∈ c.seqId then { c with seqId := {s} } else c.freed
    used := m.used - UInt32.ofNat (m.countCells fun c => s ∉ c.seqId ∧ 0 ≤ c.pos)
    head := lowerHead m.head (m.cellIds.find? fun i => s ∉ (m.cells i).seqId) }

/-- The part that `seq_add` and `seq_div` share: the position of the cell of `s` changes if
it lies in the range. -/
def mapPos (m : MemoryRecurrent) (s p0 p1 : ℤ) (f : ℤ → ℤ) : MemoryRecurrent :=
  if lowPos p0 = highPos p1 then m
  else if m.InSize s then
    match m.tail s with
    | none => m
    | some t =>
      let cell := m.cells t
      if s ∈ cell.seqId ∧ lowPos p0 ≤ cell.pos ∧ cell.pos < highPos p1 then
        { m with cells := Function.update m.cells t { cell with pos := f cell.pos } }
      else m
  else m

def seqAdd (m : MemoryRecurrent) (s p0 p1 shift : ℤ) : MemoryRecurrent :=
  if shift = 0 then m else m.mapPos s p0 p1 fun p => p + shift

def seqDiv (m : MemoryRecurrent) (s p0 p1 d : ℤ) : MemoryRecurrent :=
  if d = 1 then m else m.mapPos s p0 p1 fun p => p.tdiv d

def seqPosMin (m : MemoryRecurrent) (s : ℤ) : ℤ :=
  let result := m.cellIds.foldl
    (fun r i => if s ∈ (m.cells i).seqId then min r (m.cells i).pos else r) posLimit
  if result = posLimit then -1 else result

def seqPosMax (m : MemoryRecurrent) (s : ℤ) : ℤ :=
  m.cellIds.foldl
    (fun r i => if s ∈ (m.cells i).seqId then max r (m.cells i).pos else r) (-1)

/-! ## `find_slot` -/

/-- The ids of a set after the first one: a sequence that becomes shared leaves its cell.
The result is `false` when an id is out of range. -/
def checkIds : List ℤ → MemoryRecurrent → Bool × MemoryRecurrent
  | [], m => (true, m)
  | s :: ss, m => if m.InSize s then checkIds ss (m.leave s) else (false, m)

/-- The ids of one set. -/
def checkSet (m : MemoryRecurrent) : List ℤ → Bool × MemoryRecurrent
  | [] => (true, m)
  | s :: ss => if m.InSize s then checkIds ss m else (false, m)

/-- The first loop of `find_slot`, over the ids of all sets. -/
def checkSets : List (List ℤ) → MemoryRecurrent → Bool × MemoryRecurrent
  | [], m => (true, m)
  | ids :: sets, m =>
    match m.checkSet ids with
    | (true, m) => checkSets sets m
    | (false, m) => (false, m)

/-- The search for an empty cell from index `i` on.  When there is none the index is not one
of an empty cell. -/
def nextEmpty (m : MemoryRecurrent) (i : ℕ) : ℕ :=
  Arrange.search m.prm.size (fun i => (m.cells i).isEmpty) m.prm.size i

/-- Whether the sequence is alone in its cell; its cell must name it. -/
def ownsCell (m : MemoryRecurrent) (s : ℤ) : Option Bool :=
  match m.tail s with
  | none => some false
  | some t => if s ∈ (m.cells t).seqId then some ((m.cells t).seqId.card = 1) else none

/-- The sequence takes the empty cell `e`.  If it shared a cell it is copied from there, and
the shared cell must not become empty. -/
def takeCell (m : MemoryRecurrent) (s : ℤ) (e : ℕ) : Option MemoryRecurrent :=
  if ¬ (e < m.prm.size ∧ (m.cells e).isEmpty) then none
  else
    match m.tail s with
    | none => some { m with tail := Function.update m.tail s (some e) }
    | some t =>
      let orig := m.cells t
      if orig.seqId.erase s = ∅ then none
      else
        let cell := { m.cells e with pos := orig.pos, src := orig.src, seqId := {s} }
        some { m with
          cells := Function.update
            (Function.update m.cells t { orig with seqId := orig.seqId.erase s }) e cell
          tail := Function.update m.tail s (some e) }

/-- The state of the loop that finds the range of cells: the next empty cell and the range. -/
structure Claim where
  mem : MemoryRecurrent
  next : ℕ
  min : ℕ
  max : ℕ

/-- The first sequence of a set gets a cell of its own; `last` if it is that of the last
set. -/
def Claim.step (c : Claim) (s : ℤ) (last : Bool) : Option Claim := do
  let hasCell ← c.mem.ownsCell s
  let c ← if hasCell then some c else do
    let m ← c.mem.takeCell s c.next
    some { c with mem := m, next := if last then c.next else m.nextEmpty (c.next + 1) }
  let t ← c.mem.tail s
  return { c with min := Min.min c.min t, max := Max.max c.max t }

/-- The loop that finds the range of cells. -/
def claimAll : List ℤ → Claim → Option Claim
  | [], c => some c
  | s :: ss, c => do
    let c ← c.step s ss.isEmpty
    claimAll ss c

/-- Swap what two cells hold, and the tails. -/
def swapCells (m : MemoryRecurrent) (a b : ℕ) : MemoryRecurrent :=
  { m with
    cells := fun i =>
      let c := m.cells (Equiv.swap a b i)
      { m.cells i with pos := c.pos, src := c.src, seqId := c.seqId }
    tail := fun s => (m.tail s).map (Equiv.swap a b) }

/-- Bring the cells of the sequences to `dst`, `dst + 1`, and so on. -/
def gather : List ℤ → ℕ → MemoryRecurrent → Option MemoryRecurrent
  | [], _, m => some m
  | s :: ss, dst, m => do
    let src ← m.tail s
    gather ss (dst + 1) (if dst = src then m else m.swapCells dst src)

/-- A cell gets its new position and sequences. -/
def emplace (m : MemoryRecurrent) (cell : ℕ) (pos : ℤ) (ids : List ℤ) : MemoryRecurrent :=
  { m with
    cells := Function.update m.cells cell { m.cells cell with pos := pos, seqId := ids.toFinset }
    tail := ids.foldl (fun tail s => Function.update tail s (some cell)) m.tail }

/-- The loop that updates the cells of the ubatch, from `cell` on. -/
def emplaceAll : List (ℤ × List ℤ) → ℕ → MemoryRecurrent → MemoryRecurrent
  | [], _, m => m
  | (pos, ids) :: sets, cell, m => emplaceAll sets (cell + 1) (m.emplace cell pos ids)

/-- How many cells are to be copied from row `i`. -/
def refcount (m : MemoryRecurrent) (i : ℕ) : ℕ := m.cellIds.countP fun j => (m.cells j).src = some i

/-- The cells `min .. max`. -/
def between (min max : ℕ) : List ℕ := List.range' min (max + 1 - min)

/-- Choose the row to be zeroed, and stage the rows to copy from: a cell without a row gets
the zeroed one, which must exist. -/
def stage (m : MemoryRecurrent) (min max : ℕ) : Option MemoryRecurrent :=
  let rsZ := (between min max).find? fun i => m.refcount i = 0
  if (∃ i ∈ between min max, (m.cells i).src = none) ∧ rsZ = none then none
  else
    some { m with
      rsZ := rsZ
      cells := fun i =>
        let c := m.cells i
        if min ≤ i ∧ i ≤ max then { c with src0 := c.src.or rsZ, src := some i } else c }

/-- If there are enough unused cells before the head, the search starts at the beginning. -/
def wrapHead (m : MemoryRecurrent) (nSeqs : ℕ) : MemoryRecurrent :=
  if m.used + UInt32.ofNat (2 * nSeqs) < UInt32.ofNat m.head then { m with head := 0 } else m

/-- The rest of `find_slot`, when all ids are in range. -/
def placeSets (m : MemoryRecurrent) (ub : UBatch) : Option (Bool × MemoryRecurrent) := do
  let c ← claimAll ub.firstIds ⟨m, m.nextEmpty m.head, m.prm.size - 1, 0⟩
  let m ← gather ub.firstIds c.min c.mem
  let m := emplaceAll ((List.range ub.nSeqs).map fun s => (ub.lastPos s, ub.setIds s)) c.min m
  let m ← m.stage c.min c.max
  let n := c.max + 1 - c.min
  return (ub.nSeqs ≤ n, { m with head := c.min, n := n, used := UInt32.ofNat m.countUsed })

/-- `find_slot`; `none` when one of its assertions fails. -/
def findSlot (m : MemoryRecurrent) (ub : UBatch) : Option (Bool × MemoryRecurrent) :=
  let m := m.wrapHead ub.nSeqs
  if ub.equalSeqs = false then none
  else
    match checkSets ((List.range ub.nSeqs).map ub.setIds) m with
    | (false, m) => some (false, m)
    | (true, m) => m.placeSets ub

/-- The loop of `prepare`. -/
def findSlots : List UBatch → MemoryRecurrent → Option (Bool × MemoryRecurrent)
  | [], m => some (true, m)
  | ub :: ubs, m => do
    let (success, m) ← m.findSlot ub
    if success then findSlots ubs m else return (false, m)

/-- `prepare`: whether all ubatches find a slot; the cells, `used` and `head` are restored. -/
def prepare (m : MemoryRecurrent) (ubs : List UBatch) : Option (Bool × MemoryRecurrent) := do
  let (success, m') ← findSlots ubs m
  return (success, { m' with cells := m.cells, tail := m.tail, used := m.used, head := m.head })

/-- `s_copy`: the row that cell `head + i` continues from.  A pending rollback of the cell's
first sequence selects the plane, and is reset. -/
def sCopy (m : MemoryRecurrent) (i : ℕ) : Option ℕ × MemoryRecurrent :=
  let cell := m.cells (m.head + i)
  if m.prm.nRsSeq = 0 then (cell.src0, m)
  else
    match cell.firstSeq with
    | none => (cell.src0, m)
    | some s =>
      if 0 ≤ s ∧ s < m.prm.nSeqMax then
        (cell.src0.map fun row => m.rsIdx s * m.prm.size + row, m.setRsIdx s 0)
      else (cell.src0, m)

/-- The loop of `set_input` that fills the row indices. -/
def sCopies : List ℕ → MemoryRecurrent → List (Option ℕ) × MemoryRecurrent
  | [], m => ([], m)
  | i :: is, m =>
    let (row, m) := m.sCopy i
    let (rows, m) := sCopies is m
    (row :: rows, m)

/-- The copies of `build_rs`: row `rsZ` is zeroed, then rows `head ..` are replaced by the
listed rows, all of them read before any is written. -/
def copyRows {α : Type} (zero : α) (rsZ : Option ℕ) (head : ℕ) (idx : List (Option ℕ))
    (rows : ℕ → α) : ℕ → α :=
  let rows := match rsZ with
    | none => rows
    | some z => Function.update rows z zero
  fun i => if head ≤ i then (match idx[i - head]? with
    | some (some row) => rows row
    | _ => rows i) else rows i

/-- The rows that the model writes for `nSeqs` sequences: `state d s` is the state of the
`s`-th sequence `d` tokens before its last one. -/
def writeRows {α : Type} (size nRsSeq head nSeqs : ℕ) (state : ℕ → ℕ → α) (rows : ℕ → α) :
    ℕ → α := fun i =>
  if i / size ≤ nRsSeq ∧ head ≤ i % size ∧ i % size < head + nSeqs then
    state (i / size) (i % size - head)
  else rows i

/-- The graph of a ubatch in its slot: the inputs are set, the rows are copied, and the model
writes the new states. -/
def compute (m : MemoryRecurrent) (nSeqs : ℕ) (state : ℕ → ℕ → RsRow) : MemoryRecurrent :=
  let (idx, m) := sCopies (List.range m.n) m
  { m with
    rows := writeRows m.prm.size m.prm.nRsSeq m.head nSeqs state
      (copyRows m.prm.zeroRow m.rsZ m.head idx m.rows) }

end MemoryRecurrent
end Llama
