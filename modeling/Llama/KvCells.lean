import Llama.Basic
import Llama.Lib.CountMap
import Mathlib.Data.Finset.Max

/-!
# The cells of a key-value cache

`KvCells` is `llama_kv_cells`: for each cell its position, extent, pending shift and
sequence set, and beside these vectors the set of used cells and, for each sequence,
the ordered map from a position to the number of times it is present.  The vectors are
functions on the cell index, read below `size`; the bitset of a cell is the finite set
of its sequence ids.  `llama_pos` and `llama_seq_id` are `ℤ`.

An `assert` of the source is compiled out of a release build, so it does not stop a
method here; `KvCells.Op.Pre` collects what the methods ask of their caller.  Where the
source would read past the end of a map (`seq_pos_dec` of a missing position) the map
is left as it is.
-/

namespace Llama

/-- `llama_kv_cell_ext`: the 2D position used by M-RoPE. -/
structure KvCellExt where
  x : ℤ
  y : ℤ
  deriving DecidableEq, Repr

/-- `llama_kv_cell_ext::reset` clears both fields. -/
def KvCellExt.zero : KvCellExt := ⟨0, 0⟩

/-- `llama_kv_cells`. -/
structure KvCells where
  size : ℕ
  hasShift : Bool
  used : Finset ℕ
  pos : ℕ → ℤ
  ext : ℕ → KvCellExt
  shift : ℕ → ℤ
  seq : ℕ → Finset ℤ
  seqPos : ℤ → CountMap ℤ

/-- What the four vectors hold at one index. -/
structure Cell where
  pos : ℤ
  ext : KvCellExt
  shift : ℤ
  seq : Finset ℤ
  deriving DecidableEq

/-- The entries of an empty cell. -/
def Cell.empty : Cell := ⟨-1, .zero, 0, ∅⟩

namespace KvCells

/-- The vectors read at one index. -/
def cell (c : KvCells) (i : ℕ) : Cell := ⟨c.pos i, c.ext i, c.shift i, c.seq i⟩

/-- `reset`: every cell becomes empty. -/
def reset (c : KvCells) : KvCells where
  size := c.size
  hasShift := false
  used := ∅
  pos := fun _ => -1
  ext := fun _ => .zero
  shift := fun _ => 0
  seq := fun _ => ∅
  seqPos := fun _ => .empty

/-- `resize`: `n` empty cells. -/
def resize (n : ℕ) : KvCells where
  size := n
  hasShift := false
  used := ∅
  pos := fun _ => -1
  ext := fun _ => .zero
  shift := fun _ => 0
  seq := fun _ => ∅
  seqPos := fun _ => .empty

/-- `reset_shift`: forget the accumulated shifts. -/
def resetShift (c : KvCells) : KvCells := { c with hasShift := false, shift := fun _ => 0 }

/-! ## Reading -/

def isEmpty (c : KvCells) (i : ℕ) : Bool := c.pos i = -1

def getUsed (c : KvCells) : ℕ := c.used.card

/-- The first used cell, 0 when there is none. -/
def usedMin (c : KvCells) : ℕ := if h : c.used.Nonempty then c.used.min' h else 0

/-- One past the last used cell, 0 when there is none. -/
def usedMaxP1 (c : KvCells) : ℕ := if h : c.used.Nonempty then c.used.max' h + 1 else 0

/-- `seq_count`: the number of sequences of a cell. -/
def seqCount (c : KvCells) (i : ℕ) : ℕ := (c.seq i).card

def seqHas (c : KvCells) (i : ℕ) (s : ℤ) : Bool := s ∈ c.seq i

/-- `seq_get`: the first sequence of a cell, `-1` when there is none. -/
def seqGet (c : KvCells) (i : ℕ) : ℤ := (seqIds.find? fun s => s ∈ c.seq i).getD (-1)

/-- `seq_pos_min`: the first key of the sequence's map, `-1` when it is empty. -/
def seqPosMin (c : KvCells) (s : ℤ) : ℤ := (c.seqPos s).minKey?.getD (-1)

/-- `seq_pos_max`: the last key of the sequence's map, `-1` when it is empty. -/
def seqPosMax (c : KvCells) (s : ℤ) : ℤ := (c.seqPos s).maxKey?.getD (-1)

/-- `pos_in`: the position lies in `[p0, p1)`. -/
def posIn (c : KvCells) (i : ℕ) (p0 p1 : ℤ) : Bool := p0 ≤ c.pos i ∧ c.pos i < p1

/-! ## The position maps

The loops over all sequence ids touch each map once, so they are written map by map. -/

def seqPosDec (c : KvCells) (s : ℤ) (p : ℤ) : KvCells :=
  { c with seqPos := Function.update c.seqPos s ((c.seqPos s).dec p) }

def seqPosInc (c : KvCells) (s : ℤ) (p : ℤ) : KvCells :=
  { c with seqPos := Function.update c.seqPos s ((c.seqPos s).inc p) }

/-- `seq_pos_rm`: remove cell `i` from the maps of its sequences. -/
def seqPosRm (c : KvCells) (i : ℕ) : KvCells :=
  { c with seqPos := fun s =>
      if s ∈ c.seq i then (c.seqPos s).dec (c.pos i) else c.seqPos s }

/-- `seq_pos_add`: add cell `i` to the maps of its sequences. -/
def seqPosAdd (c : KvCells) (i : ℕ) : KvCells :=
  { c with seqPos := fun s =>
      if s ∈ c.seq i then (c.seqPos s).inc (c.pos i) else c.seqPos s }

/-! ## Changing one cell -/

/-- The vectors with the entries of cell `i` replaced. -/
def put (c : KvCells) (i : ℕ) (x : Cell) : KvCells :=
  { c with
    pos := Function.update c.pos i x.pos
    ext := Function.update c.ext i x.ext
    shift := Function.update c.shift i x.shift
    seq := Function.update c.seq i x.seq }

/-- `rm`: clear a non-empty cell. -/
def rm (c : KvCells) (i : ℕ) : KvCells :=
  let c := c.seqPosRm i
  { c.put i .empty with used := c.used.erase i }

/-- `seq_rm`: take one sequence out of a cell. -/
def seqRm (c : KvCells) (i : ℕ) (s : ℤ) : KvCells :=
  let c := { c with seq := Function.update c.seq i ((c.seq i).erase s) }
  let c := c.seqPosDec s (c.pos i)
  if c.seq i = ∅ then
    { c with
      pos := Function.update c.pos i (-1)
      ext := Function.update c.ext i .zero
      shift := Function.update c.shift i 0
      used := c.used.erase i }
  else c

/-- The value `seq_rm` returns: the cell became empty. -/
def seqRmEmpties (c : KvCells) (i : ℕ) (s : ℤ) : Bool := (c.seq i).erase s = ∅

/-- `seq_keep`: keep at most the given sequence in a cell. -/
def seqKeep (c : KvCells) (i : ℕ) (s : ℤ) : KvCells :=
  if s ∈ c.seq i then
    let c := c.seqPosRm i
    let c := { c with seq := Function.update c.seq i {s} }
    c.seqPosInc s (c.pos i)
  else if (c.seq i).Nonempty then
    let c := c.seqPosRm i
    { c.put i .empty with used := c.used.erase i }
  else c

/-- The value `seq_keep` returns: the cell became empty. -/
def seqKeepEmpties (c : KvCells) (i : ℕ) (s : ℤ) : Bool := s ∉ c.seq i ∧ (c.seq i).Nonempty

/-- `seq_add`: put a sequence into a cell. -/
def seqAdd (c : KvCells) (i : ℕ) (s : ℤ) : KvCells :=
  let c := { c with seq := Function.update c.seq i (insert s (c.seq i)) }
  c.seqPosInc s (c.pos i)

/-- `pos_set`: give an empty cell a position. -/
def posSet (c : KvCells) (i : ℕ) (p : ℤ) : KvCells :=
  { c with pos := Function.update c.pos i p, used := insert i c.used }

def extSet (c : KvCells) (i : ℕ) (e : KvCellExt) : KvCells :=
  { c with ext := Function.update c.ext i e }

/-- `pos_add`: move a cell by `d`; a cell that turns negative is dropped, without
clearing its extent. -/
def posAdd (c : KvCells) (i : ℕ) (d : ℤ) : KvCells :=
  let c := c.seqPosRm i
  let c := { c with
    pos := Function.update c.pos i (c.pos i + d)
    shift := Function.update c.shift i (c.shift i + d)
    hasShift := true }
  if c.pos i < 0 then
    { c with
      seq := Function.update c.seq i ∅
      pos := Function.update c.pos i (-1)
      shift := Function.update c.shift i 0
      used := c.used.erase i }
  else c.seqPosAdd i

/-- The value `pos_add` returns: the cell was dropped. -/
def posAddEmpties (c : KvCells) (i : ℕ) (d : ℤ) : Bool := c.pos i + d < 0

/-- `pos_div`: divide a position, truncating as C++ does.  The shift accumulates the
old position minus the new one. -/
def posDiv (c : KvCells) (i : ℕ) (d : ℤ) : KvCells :=
  let pOld := c.pos i
  let c := c.seqPosRm i
  let c := { c with pos := Function.update c.pos i ((c.pos i).tdiv d) }
  let c := { c with shift := Function.update c.shift i (c.shift i + (pOld - c.pos i)) }
  let c := c.seqPosAdd i
  { c with hasShift := true }

/-- `cp`: copy positions, extents and sequence sets of the listed cells.  The copy keeps
neither shifts nor the used set nor the position maps. -/
def cp (c : KvCells) (idxs : List ℕ) : KvCells :=
  { resize idxs.length with
    pos := fun j => if j < idxs.length then c.pos (idxs.getD j 0) else -1
    ext := fun j => if j < idxs.length then c.ext (idxs.getD j 0) else .zero
    seq := fun j => if j < idxs.length then c.seq (idxs.getD j 0) else ∅ }

/-- The body of the loop of `set`: cell `idx` receives entry `j` of `other`. -/
def setCell (other : KvCells) (c : KvCells) (idx j : ℕ) : KvCells :=
  let used :=
    if c.pos idx = -1 ∧ other.pos j ≠ -1 then insert idx c.used
    else if c.pos idx ≠ -1 ∧ other.pos j = -1 then c.used.erase idx
    else c.used
  let c := { c with used := used }
  let c := if c.pos idx ≠ -1 then c.seqPosRm idx else c
  let c := c.put idx ⟨other.pos j, other.ext j, c.shift idx, other.seq j⟩
  if c.pos idx ≠ -1 then c.seqPosAdd idx else c

/-- `set`: restore the listed cells from a copy. -/
def set (c : KvCells) (idxs : List ℕ) (other : KvCells) : KvCells :=
  (List.range other.size).foldl (fun c j => setCell other c (idxs.getD j 0) j) c

/-- A call of a method that changes cells. -/
inductive Op
  | reset
  | resetShift
  | rm (i : ℕ)
  | seqRm (i : ℕ) (s : ℤ)
  | seqKeep (i : ℕ) (s : ℤ)
  | seqAdd (i : ℕ) (s : ℤ)
  | posSet (i : ℕ) (p : ℤ)
  | posAdd (i : ℕ) (d : ℤ)
  | posDiv (i : ℕ) (d : ℤ)
  | extSet (i : ℕ) (e : KvCellExt)
  | set (idxs : List ℕ) (other : KvCells)

/-- The effect of a call. -/
def run (c : KvCells) : Op → KvCells
  | .reset => c.reset
  | .resetShift => c.resetShift
  | .rm i => c.rm i
  | .seqRm i s => c.seqRm i s
  | .seqKeep i s => c.seqKeep i s
  | .seqAdd i s => c.seqAdd i s
  | .posSet i p => c.posSet i p
  | .posAdd i d => c.posAdd i d
  | .posDiv i d => c.posDiv i d
  | .extSet i e => c.extSet i e
  | .set idxs other => c.set idxs other

end KvCells
end Llama
