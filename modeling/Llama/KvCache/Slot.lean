import Llama.KvCache

/-!
# Finding and filling slots

`findSlot` looks for cells for the tokens of a ubatch, `applyUbatch` puts the tokens into
them, `prepare` does both for a list of ubatches and undoes it.

The search visits the cells of a stream from a start index on and wraps around once.  It is
given fuel; `2 * size + 2` rounds are always enough (`KvCache.searchLoop_scans`).
-/

namespace Llama

/-- `slot_info`: for each stream used, the cells of its tokens. -/
structure SlotInfo where
  s0 : ℕ
  s1 : ℕ
  strm : List ℕ
  idxs : List (List ℕ)
  deriving DecidableEq, Repr

namespace SlotInfo

/-- `size`: the number of tokens per stream. -/
def size (si : SlotInfo) : ℕ := (si.idxs.getD 0 []).length

def nStream (si : SlotInfo) : ℕ := si.strm.length

/-- The cell of token `ii` of block `s`. -/
def idx (si : SlotInfo) (s ii : ℕ) : ℕ := (si.idxs.getD s []).getD ii 0

/-- `head`: the first cell. -/
def head (si : SlotInfo) : ℕ := si.idx 0 0

/-- `is_contiguous`: a single block of consecutive cells. -/
def isContiguous (si : SlotInfo) : Bool :=
  match si.idxs with
  | [] => true
  | [] :: _ => true
  | [is] => (List.range is.length).all fun i => is.getD i 0 = is.getD 0 0 + i
  | _ => false

/-- The tokens of a slot: block and index within the block. -/
def tokens (si : SlotInfo) : List (ℕ × ℕ) :=
  (List.range si.nStream).flatMap fun s => (List.range si.size).map fun ii => (s, ii)

end SlotInfo

namespace KvCache

/-! ## `find_slot` -/

/-- A cell may be used when it is empty, or holds a single sequence whose window has moved
past it. -/
def canUse (p : KvParams) (c : KvCells) (idx : ℕ) : Bool :=
  c.isEmpty idx ∨ (c.seqCount idx = 1 ∧
    isMaskedSwa p.nSwa p.swaType (c.pos idx) (c.seqPosMax (c.seqGet idx) + 1))

/-- The inner loop: test `k` cells from `head` on.  A contiguous search stops at the first
unusable cell. -/
def testCells (p : KvParams) (c : KvCells) (cont : Bool) : ℕ → ℕ → ℕ → List ℕ → ℕ × ℕ × List ℕ
  | 0, head, tested, idxs => (head, tested, idxs)
  | k + 1, head, tested, idxs =>
    if canUse p c head then testCells p c cont k (head + 1) (tested + 1) (idxs ++ [head])
    else if cont then (head + 1, tested + 1, idxs)
    else testCells p c cont k (head + 1) (tested + 1) idxs

/-- The loop over the cells of a stream; `none` when it gives up. -/
def searchLoop (p : KvParams) (c : KvCells) (nTokens : ℕ) (cont : Bool) :
    ℕ → ℕ → ℕ → List ℕ → Option (List ℕ)
  | 0, _, _, _ => none
  | fuel + 1, head, tested, idxs =>
    let nTest := if cont then nTokens else 1
    if c.size < head + nTest then
      searchLoop p c nTokens cont fuel 0 (tested + (c.size - head)) idxs
    else
      let (head, tested, idxs) := testCells p c cont nTest head tested idxs
      if idxs.length = nTokens then some idxs
      else
        let idxs := if cont then [] else idxs
        if c.size ≤ tested then none else searchLoop p c nTokens cont fuel head tested idxs

/-- The search in one stream.  It starts from the beginning of the cache when there are
enough unused cells before the head. -/
def searchStream (kv : KvCache) (strm nTokens : ℕ) (cont : Bool) : Option (List ℕ) :=
  let c := kv.vCells strm
  let head := kv.vHeads strm
  let head := if c.getUsed + 2 * nTokens < head then 0 else head
  if c.size < nTokens then none
  else searchLoop kv.prm c nTokens cont (2 * c.size + 2) head 0 []

/-- The search in each of the streams, in order; `none` as soon as one fails. -/
def searchStreams (kv : KvCache) (nTokens : ℕ) (cont : Bool) : List ℕ → Option (List (List ℕ))
  | [] => some []
  | strm :: strms =>
    match kv.searchStream strm nTokens cont with
    | none => none
    | some idxs => (kv.searchStreams nTokens cont strms).map (idxs :: ·)

/-- The number of sequences of the ubatch that get a stream of their own. -/
def slotSeqs (kv : KvCache) (ub : UBatch) : ℕ := if 1 < kv.prm.nStream then ub.nSeqsUnq else 1

/-- The number of tokens in each of these streams. -/
def slotTokens (kv : KvCache) (ub : UBatch) : ℕ :=
  if 1 < kv.prm.nStream then ub.nTokens / ub.nSeqsUnq else ub.nTokens

/-- `find_slot`; `none` stands for the empty slot. -/
def findSlot (kv : KvCache) (ub : UBatch) (cont : Bool) : Option SlotInfo :=
  let strms := (List.range (kv.slotSeqs ub)).map fun s =>
    kv.prm.seqToStream (ub.seqIdUnq.getD s 0)
  (kv.searchStreams (kv.slotTokens ub) cont strms).map fun idxs =>
    { s0 := strms.foldl min maxSeq
      s1 := strms.foldl max 0
      strm := strms
      idxs := idxs }

/-- The assertions of `find_slot`, and the division by the number of sequences. -/
def FindSlotAsserts (kv : KvCache) (ub : UBatch) : Prop :=
  1 < kv.prm.nStream → ub.nSeqsUnq ≠ 0 ∧ ub.nTokens % ub.nSeqsUnq = 0 ∧
    ∀ s < ub.nSeqsUnq, ub.nSeqId (s * kv.slotTokens ub) = 1 ∧
      ub.seqId (s * kv.slotTokens ub) 0 = ub.seqIdUnq.getD s 0

instance (kv : KvCache) (ub : UBatch) : Decidable (kv.FindSlotAsserts ub) :=
  inferInstanceAs (Decidable (_ → _ ∧ _ ∧ ∀ s < _, _))

/-! ## `apply_ubatch` -/

/-- `cells.seq_add` for each sequence of a token. -/
def addSeqs (kv : KvCache) (strm idx : ℕ) (seqs : List ℤ) : KvCache :=
  seqs.foldl (fun kv s => kv.call strm (.seqAdd idx s)) kv

/-- The cell a token goes to: its stream and its index. -/
def slotOf (si : SlotInfo) (t : ℕ × ℕ) : ℕ × ℕ := (si.strm.getD t.1 0, si.idx t.1 t.2)

/-- The index of a token in the ubatch. -/
def tokenIdx (si : SlotInfo) (t : ℕ × ℕ) : ℕ := t.1 * si.size + t.2

/-- `cells.rm` unless the cell is empty. -/
def freeCell (kv : KvCache) (strm idx : ℕ) : KvCache :=
  if (kv.vCells strm).isEmpty idx then kv else kv.call strm (.rm idx)

/-- `cells.ext_set` when the positions carry an image coordinate. -/
def setExt (kv : KvCache) (strm idx : ℕ) (ub : UBatch) (i : ℕ) : KvCache :=
  if ub.isPos2d then
    kv.call strm (.extSet idx ⟨ub.pos (i + ub.nTokens * 2), ub.pos (i + ub.nTokens)⟩)
  else kv

/-- `seq_pos_max_rm` after cell `idx` is overwritten. -/
def noteRm (c : KvCells) (idx : ℕ) (maxRm : ℤ → ℤ) : ℤ → ℤ :=
  if c.isEmpty idx then maxRm
  else Function.update maxRm (c.seqGet idx) (max (maxRm (c.seqGet idx)) (c.pos idx))

/-- The body of the loop over the tokens, for token `t.2` of block `t.1`.  The second
component is `seq_pos_max_rm`, the largest position overwritten so far of each sequence. -/
def placeToken (si : SlotInfo) (ub : UBatch) (st : KvCache × (ℤ → ℤ)) (t : ℕ × ℕ) :
    KvCache × (ℤ → ℤ) :=
  let (kv, maxRm) := st
  let (strm, idx) := slotOf si t
  let i := tokenIdx si t
  let maxRm := noteRm (kv.vCells strm) idx maxRm
  let kv := kv.freeCell strm idx
  let kv := kv.call strm (.posSet idx (ub.pos i))
  let kv := kv.setExt strm idx ub i
  (kv.addSeqs strm idx (ub.seqs i), maxRm)

/-- Purge the positions of a sequence up to the largest overwritten one, so that all
positions between its bounds stay present. -/
def purgeSeq (maxRm : ℤ → ℤ) (kv : KvCache) (s : ℤ) : KvCache :=
  if maxRm s = -1 then kv
  else if kv.seqPosMin s ≤ maxRm s then kv.seqRm s (kv.seqPosMin s) (maxRm s + 1)
  else kv

/-- Move the heads to the end of the slot. -/
def moveHeads (kv : KvCache) (si : SlotInfo) : KvCache :=
  (List.range si.nStream).foldl
    (fun kv s => kv.setHead (si.strm.getD s 0) ((si.idxs.getD s []).getLastD 0 + 1)) kv

def applyUbatch (kv : KvCache) (si : SlotInfo) (ub : UBatch) : KvCache :=
  let (kv, maxRm) := si.tokens.foldl (placeToken si ub) (kv, fun _ => -1)
  (seqIds.foldl (purgeSeq maxRm) kv).moveHeads si

/-- `state_t`: a slot, the heads and the slot's cells before it was filled. -/
structure PrepState where
  sinfo : SlotInfo
  vHeadsOld : ℕ → ℕ
  vCells : List KvCells

/-- The forward loop: the recovery stack, the filled cache and whether every ubatch found a
slot. -/
def prepareLoop : KvCache → List UBatch → List PrepState × KvCache × Bool
  | kv, [] => ([], kv, true)
  | kv, ub :: ubs =>
    match kv.findSlot ub false with
    | none => ([], kv, false)
    | some si =>
      let state : PrepState :=
        { sinfo := si
          vHeadsOld := kv.vHeads
          vCells := (List.range si.nStream).map fun s =>
            (kv.vCells (si.strm.getD s 0)).cp (si.idxs.getD s []) }
      let (states, kv, success) := prepareLoop (kv.applyUbatch si ub) ubs
      (state :: states, kv, success)

/-- The body of the backward loop: the slot's cells are set back, block by block.  The head
of a stream is taken from the entry at the index of the block. -/
def restoreState (state : PrepState) (kv : KvCache) : KvCache :=
  (List.range state.sinfo.nStream).foldl
    (fun kv s =>
      let strm := state.sinfo.strm.getD s 0
      let kv := kv.call strm (.set (state.sinfo.idxs.getD s []) (state.vCells.getD s (.resize 0)))
      kv.setHead strm (state.vHeadsOld s)) kv

/-- `prepare`: the cache afterwards, and the slots, `[]` on failure. -/
def prepare (kv : KvCache) (ubs : List UBatch) : KvCache × List SlotInfo :=
  let (states, kv, success) := kv.prepareLoop ubs
  let kv := states.foldr restoreState kv
  (kv, if success then states.map (·.sinfo) else [])

end KvCache
end Llama
