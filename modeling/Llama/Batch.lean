import Llama.Basic
import Mathlib.Data.Finset.Max
import Mathlib.Data.Int.Interval

/-!
# Batches and their splitter

`BatchAllocr` is `llama_batch_allocr`: `init` checks a caller's batch and fills in the
missing arrays, and the three strategies `splitSimple`, `splitEqual` and `splitSeq` cut
it into `UBatch`es, marking the tokens they take in the shared `used` flags.

An array of the source is a function on the index, read below its length; a null pointer
is `none`.  A loop that fills one slot of a table per token is written slot by slot:
`seqPos`, `seqSetMap` and `seqCpl` say what their tables hold when the loop is done.
A failed `GGML_ASSERT` stops the program: a strategy then returns `none`.
-/

namespace Llama

/-- `llama_batch`, as the caller passes it. -/
structure LlamaBatch where
  nTokens : ℕ
  token : Option (ℕ → ℤ)
  embd : Option (ℕ → UInt32)
  pos : Option (ℕ → ℤ)
  nSeqId : Option (ℕ → ℕ)
  seqId : Option (ℕ → ℕ → ℤ)
  logits : Option (ℕ → ℤ)

/-- A batch whose missing arrays have been generated. -/
structure FullBatch where
  nTokens : ℕ
  token : Option (ℕ → ℤ)
  embd : Option (ℕ → UInt32)
  pos : ℕ → ℤ
  nSeqId : ℕ → ℕ
  seqId : ℕ → ℕ → ℤ
  logits : ℕ → ℤ

/-- The sequence ids of token `i`, in the order they are listed. -/
def FullBatch.seqs (b : FullBatch) (i : ℕ) : List ℤ := (List.range (b.nSeqId i)).map (b.seqId i)

/-- `llama_ubatch`. -/
structure UBatch where
  equalSeqs : Bool
  nTokens : ℕ
  nSeqTokens : ℕ
  nSeqs : ℕ
  nSeqsUnq : ℕ
  nPos : ℕ
  token : Option (ℕ → ℤ)
  embd : Option (ℕ → UInt32)
  pos : ℕ → ℤ
  nSeqId : ℕ → ℕ
  seqId : ℕ → ℕ → ℤ
  seqIdUnq : List ℤ
  seqIdx : ℤ → ℤ
  output : ℕ → ℤ

namespace UBatch

/-- The ubatch `{}`. -/
def empty : UBatch where
  equalSeqs := false
  nTokens := 0
  nSeqTokens := 0
  nSeqs := 0
  nSeqsUnq := 0
  nPos := 0
  token := none
  embd := none
  pos := fun _ => 0
  nSeqId := fun _ => 0
  seqId := fun _ _ => 0
  seqIdUnq := []
  seqIdx := fun _ => 0
  output := fun _ => 0

/-- `is_pos_2d`: the positions carry an image coordinate. -/
def isPos2d (ub : UBatch) : Bool := 3 ≤ ub.nPos

/-- The sequence ids of token `i`, in the order they are listed. -/
def seqs (ub : UBatch) (i : ℕ) : List ℤ := (List.range (ub.nSeqId i)).map (ub.seqId i)

/-- `ubatch_reserve`: `nSeqTokens` zeroed tokens for each of the first `nSeqs` sequences. -/
def reserve (nPosPerEmbd nSeqTokens nSeqs : ℕ) : UBatch where
  equalSeqs := true
  nTokens := nSeqTokens * nSeqs
  nSeqTokens := nSeqTokens
  nSeqs := nSeqs
  nSeqsUnq := nSeqs
  nPos := nPosPerEmbd
  token := some fun _ => 0
  embd := none
  pos := fun _ => 0
  nSeqId := fun _ => 0
  seqId := fun _ _ => 0
  seqIdUnq := (List.range nSeqs).map fun (s : ℕ) => (s : ℤ)
  seqIdx := fun s => if 0 ≤ s ∧ s < nSeqs then s else -1
  output := fun _ => 0

end UBatch

/-- The two queries `init` makes to a `llama_memory_i`. -/
structure MemoryPos where
  seqPosMin : ℤ → ℤ
  seqPosMax : ℤ → ℤ

/-- `llama_batch_allocr`.  The vector `used` has `batch.nTokens` entries. -/
structure BatchAllocr where
  nPosPerEmbd : ℕ
  batch : FullBatch
  nEmbd : ℕ
  nSeqMax : ℕ
  nOutputs : ℕ
  seqIdUnq : List ℤ
  seqIdx : ℤ → ℤ
  hasCpl : Bool
  seqPos : ℤ → Finset ℤ
  seqCpl : ℤ → ℤ → Bool
  seqSet : ℕ → Finset ℤ
  seqSetMap : Finset ℤ → List ℕ
  outIds : List ℕ
  nUsed : ℕ
  used : ℕ → Bool

namespace BatchAllocr

/-! ## Validation -/

/-- Every token id is below the vocabulary size. -/
def validTokens (inp : LlamaBatch) (nVocab : ℕ) : Bool :=
  match inp.token with
  | none => true
  | some t => (List.range inp.nTokens).all fun i => 0 ≤ t i ∧ t i < nVocab

/-- Every listed sequence id is in `[0, nSeqMax)`.  Ids without counts would be read
through a null pointer. -/
def validSeqIds (inp : LlamaBatch) (nSeqMax : ℕ) : Bool :=
  match inp.seqId, inp.nSeqId with
  | none, _ => true
  | some _, none => false
  | some ids, some n => (List.range inp.nTokens).all fun i =>
      (List.range (n i)).all fun s => 0 ≤ ids i s ∧ ids i s < nSeqMax

/-- Generated positions: each token takes the next position of its first sequence, and
all its sequences continue after it. -/
def genPos (seqId : ℕ → ℕ → ℤ) (nSeqId : ℕ → ℕ) : List ℕ → (ℤ → ℤ) → List ℤ
  | [], _ => []
  | i :: is, p0 =>
    let p := p0 (seqId i 0)
    let p0 := ((List.range (nSeqId i)).map (seqId i)).foldl
      (fun p0 s => Function.update p0 s (p + 1)) p0
    p :: genPos seqId nSeqId is p0

/-- The arrays the caller left out. -/
def fill (inp : LlamaBatch) (memory : Option MemoryPos) (nSeqMax : ℕ) (outputAll : Bool) :
    FullBatch :=
  let nSeqId := inp.nSeqId.getD fun _ => 1
  let seqId := inp.seqId.getD fun _ _ => 0
  let p0 : ℤ → ℤ := fun s =>
    match memory with
    | none => 0
    | some m => if 0 ≤ s ∧ s < nSeqMax then m.seqPosMax s + 1 else 0
  let gen := genPos seqId nSeqId (List.range inp.nTokens) p0
  { nTokens := inp.nTokens
    token := inp.token
    embd := inp.embd
    pos := inp.pos.getD fun i => gen.getD i 0
    nSeqId := nSeqId
    seqId := seqId
    logits :=
      match inp.logits with
      | none => fun i => if outputAll ∨ i + 1 = inp.nTokens then 1 else 0
      | some l =>
        if outputAll ∧ (List.range inp.nTokens).any (fun i => l i = 0) then fun _ => 1 else l }

def splitReset (a : BatchAllocr) : BatchAllocr :=
  { a with outIds := [], nUsed := 0, used := fun _ => false }

/-- The tables computed from a full batch, and the flags of `split_reset`. -/
def ofFull (nPosPerEmbd : ℕ) (b : FullBatch) (nEmbd nSeqMax : ℕ) : BatchAllocr :=
  let tokens := List.range b.nTokens
  let unq := ((List.range nSeqMax).map fun (s : ℕ) => (s : ℤ)).filter fun s =>
    tokens.any fun i => s ∈ b.seqs i
  splitReset
    { nPosPerEmbd := nPosPerEmbd
      batch := b
      nEmbd := nEmbd
      nSeqMax := nSeqMax
      nOutputs := tokens.countP fun i => b.logits i ≠ 0
      seqIdUnq := unq
      seqIdx := fun s => if s ∈ unq then unq.idxOf s else -1
      hasCpl := tokens.any fun i => 1 < b.nSeqId i
      seqPos := fun s => ((tokens.filter fun i => s ∈ b.seqs i).map b.pos).toFinset
      seqCpl := fun s1 s0 => tokens.any fun i => b.seqId i 0 = s0 ∧ s1 ∈ (b.seqs i).tail
      seqSet := fun i => (b.seqs i).toFinset
      seqSetMap := fun k => tokens.filter fun i => (b.seqs i).toFinset = k
      outIds := []
      nUsed := 0
      used := fun _ => false }

/-- `seq_pos_min` of the batch. -/
def seqPosMin (a : BatchAllocr) (s : ℤ) : ℤ :=
  if h : (a.seqPos s).Nonempty then (a.seqPos s).min' h else -1

/-- `seq_pos_max` of the batch. -/
def seqPosMax (a : BatchAllocr) (s : ℤ) : ℤ :=
  if h : (a.seqPos s).Nonempty then (a.seqPos s).max' h else -1

/-- The positions of one sequence fit what the memory holds of it. -/
def consistentSeq (a : BatchAllocr) (memory : Option MemoryPos) (s : ℤ) : Bool :=
  let p0 := match memory with
    | none => -1
    | some m => m.seqPosMax s
  if a.seqPos s = ∅ then true
  else if 1 < a.nPosPerEmbd then
    -- M-RoPE: positions may jump forward; embeddings may repeat the last one
    if a.batch.token.isSome then !(0 ≤ p0 ∧ a.seqPosMin s ≤ p0)
    else !(0 ≤ p0 ∧ a.seqPosMin s < p0)
  else
    !(0 ≤ p0 ∧ a.seqPosMin s ≠ p0 + 1) ∧ !((a.seqPos s).card < a.seqPosMax s - a.seqPosMin s + 1)

/-- Coupled sequences have the same bounds in the memory. -/
def consistentCpl (a : BatchAllocr) (memory : Option MemoryPos) : Bool :=
  match memory with
  | none => true
  | some m =>
    (List.range a.nSeqMax).all fun (s0 : ℕ) => (List.range a.nSeqMax).all fun (s1 : ℕ) =>
      !a.seqCpl s0 s1 ∨ (m.seqPosMin s0 = m.seqPosMin s1 ∧ m.seqPosMax s0 = m.seqPosMax s1)

/-- The loop over the sequences of one token in the last check: the sequence sets a
sequence belongs to are nested, and its positions do not decrease. -/
def orderSeqs (set : Finset ℤ) (p : ℤ) :
    List ℤ → (ℤ → Finset ℤ) → (ℤ → ℤ) → Option ((ℤ → Finset ℤ) × (ℤ → ℤ))
  | [], curSet, curPos => some (curSet, curPos)
  | s :: ss, curSet, curPos =>
    let cur := curSet s ∩ set
    if cur = ∅ then none
    else if p < curPos s then none
    else orderSeqs set p ss (Function.update curSet s cur) (Function.update curPos s p)

/-- The loop over the tokens in the last check. -/
def orderTokens (a : BatchAllocr) : List ℕ → (ℤ → Finset ℤ) → (ℤ → ℤ) → Bool
  | [], _, _ => true
  | i :: is, curSet, curPos =>
    match orderSeqs (a.seqSet i) (a.batch.pos i) (a.batch.seqs i) curSet curPos with
    | none => false
    | some (curSet, curPos) => orderTokens a is curSet curPos

/-- The full set of sequence ids, `cur_seq_set[s].set()`. -/
def allSeqIds : Finset ℤ :=
  @Finset.Ico ℤ Int.instLinearOrder.toPartialOrder.toPreorder Int.instLocallyFiniteOrder 0 maxSeq

/-- `init`: check the batch and fill it in; `none` when it is rejected. -/
def init (nPosPerEmbd : ℕ) (inp : LlamaBatch) (nVocab : ℕ) (memory : Option MemoryPos)
    (nEmbd nSeqMax : ℕ) (outputAll : Bool) : Option BatchAllocr :=
  let a := ofFull nPosPerEmbd (fill inp memory nSeqMax outputAll) nEmbd nSeqMax
  if 0 < inp.nTokens ∧ nSeqMax ≤ maxSeq ∧ validTokens inp nVocab ∧ validSeqIds inp nSeqMax ∧
      ((List.range nSeqMax).all fun (s : ℕ) => consistentSeq a memory s) ∧
      consistentCpl a memory ∧
      orderTokens a (List.range inp.nTokens)
        (fun s => if 0 ≤ s ∧ s < nSeqMax then allSeqIds else ∅) (fun _ => -1) then
    some a
  else none

/-- `used[idx] = true; ++n_used`. -/
def use (a : BatchAllocr) (idx : ℕ) : BatchAllocr :=
  { a with used := Function.update a.used idx true, nUsed := a.nUsed + 1 }

/-- `used[idx] = false; --n_used`. -/
def unuse (a : BatchAllocr) (idx : ℕ) : BatchAllocr :=
  { a with used := Function.update a.used idx false, nUsed := a.nUsed - 1 }

/-- The first unused token, `none` when the batch is consumed. -/
def firstUnused (a : BatchAllocr) : Option ℕ :=
  (List.range a.batch.nTokens).find? fun i => !a.used i

/-- `ubatch_add`: the ubatch of the listed tokens; their outputs are appended to
`out_ids`. -/
def ubatchAdd (a : BatchAllocr) (idxs : List ℕ) (nSeqs : ℕ) (equalSeqs : Bool) :
    UBatch × BatchAllocr :=
  let n := idxs.length
  let at' := fun k => idxs.getD k 0
  let unq := ((List.range a.nSeqMax).map fun (s : ℕ) => (s : ℤ)).filter fun s =>
    idxs.any fun i => s ∈ a.batch.seqs i
  ({ equalSeqs := equalSeqs
     nTokens := n
     nSeqTokens := n / nSeqs
     nSeqs := nSeqs
     nSeqsUnq := unq.length
     nPos := a.nPosPerEmbd
     token := a.batch.token.map fun t k => t (at' k)
     embd := a.batch.embd.map fun e k => e (at' (k / a.nEmbd) * a.nEmbd + k % a.nEmbd)
     -- text is broadcast over the position rows, embeddings bring all rows
     pos := fun k =>
       let srcOff := if a.batch.token.isSome then 0 else k / n * a.batch.nTokens
       a.batch.pos (srcOff + at' (k % n))
     nSeqId := fun k => a.batch.nSeqId (at' k)
     seqId := fun k s => a.batch.seqId (at' k) s
     seqIdUnq := unq
     seqIdx := fun s => if s ∈ unq then unq.idxOf s else -1
     output := fun k => a.batch.logits (at' k) },
   { a with outIds := a.outIds ++ idxs.filter fun i => a.batch.logits i ≠ 0 })

/-- Take consecutive tokens; `k` tokens of the batch are left from `cur` on. -/
def simpleLoop (nUbatch : ℕ) : ℕ → ℕ → List ℕ → BatchAllocr → List ℕ × BatchAllocr
  | 0, _, idxs, a => (idxs, a)
  | k + 1, cur, idxs, a =>
    let idxs := idxs ++ [cur]
    let a := a.use cur
    if nUbatch ≤ idxs.length then (idxs, a) else simpleLoop nUbatch k (cur + 1) idxs a

def splitSimple (a : BatchAllocr) (nUbatch : ℕ) : UBatch × BatchAllocr :=
  match a.firstUnused with
  | none => (.empty, a)
  | some cur =>
    let (idxs, a) := simpleLoop nUbatch (a.batch.nTokens - cur) cur [] a
    a.ubatchAdd idxs idxs.length false

/-! ## `split_equal` -/

/-- The sequence sets that take part: unused tokens bring their set when it overlaps no
chosen one; in sequential mode first ids must be consecutive. -/
def chooseSets (a : BatchAllocr) (nUbatch : ℕ) (sequential : Bool) :
    List ℕ → List (Finset ℤ) → ℤ → List (Finset ℤ)
  | [], sets, _ => sets
  | i :: is, sets, last =>
    if a.used i then chooseSets a nUbatch sequential is sets last
    else
      let add := sets.all (fun c => c ∩ a.seqSet i = ∅) ∧
        (sequential → sets = [] ∨ a.batch.seqId i 0 = last + 1)
      if add then
        let sets := sets ++ [a.seqSet i]
        if nUbatch < sets.length then sets
        else chooseSets a nUbatch sequential is sets (a.batch.seqId i 0)
      else chooseSets a nUbatch sequential is sets last

/-- The cursor of one chosen set: `cur_idx[s]` and `idxs_per_seq[s]`. -/
structure SetCursor where
  set : Finset ℤ
  cur : ℕ
  idxs : List ℕ

/-- The tokens of the cursor's set that it has not reached. -/
def nRemaining (a : BatchAllocr) (c : SetCursor) : ℕ := (a.seqSetMap c.set).length - c.cur

/-- The cursor starts at the first unused token of its set. -/
def startCursor (a : BatchAllocr) (set : Finset ℤ) : SetCursor :=
  ⟨set, (a.seqSetMap set).findIdx fun i => !a.used i, []⟩

/-- Take the token under a cursor. -/
def advance (a : BatchAllocr) (c : SetCursor) : SetCursor × BatchAllocr :=
  let idx := (a.seqSetMap c.set).getD c.cur 0
  ({ c with cur := c.cur + 1, idxs := c.idxs ++ [idx] }, a.use idx)

/-- Take one token of every set. -/
def advanceAll : List SetCursor → BatchAllocr → List SetCursor × BatchAllocr
  | [], a => ([], a)
  | c :: cs, a =>
    let (c, a) := a.advance c
    let (cs, a) := advanceAll cs a
    (c :: cs, a)

/-- Take rounds of tokens until some set is exhausted or the next round would not fit. -/
def expandLoop (nUbatch : ℕ) : ℕ → List SetCursor → BatchAllocr → List SetCursor × BatchAllocr
  | 0, cs, a => (cs, a)
  | fuel + 1, cs, a =>
    if cs.any fun c => (a.seqSetMap c.set).length ≤ c.cur then (cs, a)
    else
      let (cs, a) := advanceAll cs a
      let rounds := match cs with
        | [] => 0
        | c :: _ => c.idxs.length
      if nUbatch < (rounds + 1) * cs.length then (cs, a)
      else expandLoop nUbatch fuel cs a

/-- A set may be cut here: it is finished, or a whole tail is left. -/
def keeps (a : BatchAllocr) (nKeepTail : ℕ) (c : SetCursor) : Bool :=
  a.nRemaining c = 0 ∨ nKeepTail ≤ a.nRemaining c

/-- Take `k` more tokens of a set. -/
def extendLoop : ℕ → SetCursor → BatchAllocr → SetCursor × BatchAllocr
  | 0, c, a => (c, a)
  | k + 1, c, a =>
    let (c, a) := a.advance c
    extendLoop k c a

/-- Give back the last `k` tokens of a set. -/
def truncateLoop : ℕ → SetCursor → BatchAllocr → SetCursor × BatchAllocr
  | 0, c, a => (c, a)
  | k + 1, c, a =>
    let a := a.unuse (c.idxs.getLastD 0)
    truncateLoop k { c with cur := c.cur - 1, idxs := c.idxs.dropLast } a

/-- When even the first set may not be cut: finish it, or give back tokens until a whole
tail is left. -/
def resolveFirst (a : BatchAllocr) (nUbatch nKeepTail : ℕ) (c : SetCursor) :
    SetCursor × BatchAllocr :=
  if c.idxs.length + a.nRemaining c ≤ nUbatch then extendLoop (a.nRemaining c) c a
  else truncateLoop (nKeepTail - a.nRemaining c) c a

/-- The block under `n_keep_tail > 0`: keep the longest prefix of sets that may be cut and
return the tokens of the others. -/
def keepTail (a : BatchAllocr) (nUbatch nKeepTail : ℕ) (cs : List SetCursor) :
    List SetCursor × BatchAllocr :=
  let kept := cs.takeWhile (a.keeps nKeepTail)
  let rest := cs.drop kept.length
  match kept, cs with
  | [], c :: cs =>
    let (c, a) := a.resolveFirst nUbatch nKeepTail c
    ([c], cs.foldl (fun a c => c.idxs.foldl unuse a) a)
  | kept, _ => (kept, rest.foldl (fun a c => c.idxs.foldl unuse a) a)

/-- `split_equal`; `none` when its `GGML_ASSERT` fails. -/
def splitEqual (a : BatchAllocr) (nUbatch : ℕ) (sequential : Bool) (nKeepTail : ℕ) :
    Option (UBatch × BatchAllocr) :=
  if sequential ∧ a.hasCpl then some (.empty, a)
  else
    let sets := a.chooseSets nUbatch sequential (List.range a.batch.nTokens) [] (-1)
    if sets = [] then some (.empty, a)
    else
      let (cs, a) := expandLoop nUbatch (a.batch.nTokens + 1) (sets.map a.startCursor) a
      if 0 < nKeepTail ∧ nUbatch ≤ nKeepTail then none
      else
        let (cs, a) := if 0 < nKeepTail then a.keepTail nUbatch nKeepTail cs else (cs, a)
        some (a.ubatchAdd (cs.flatMap (·.idxs)) cs.length true)

/-- The next unused token after `cur` whose set lies inside the current one; `k` tokens of
the batch are left after `cur`. -/
def nextSubset (a : BatchAllocr) (set : Finset ℤ) : ℕ → ℕ → Option ℕ
  | 0, _ => none
  | k + 1, cur =>
    if a.used (cur + 1) ∨ ¬ a.seqSet (cur + 1) ⊆ set then nextSubset a set k (cur + 1)
    else some (cur + 1)

/-- Take tokens with ever smaller sets. -/
def seqLoop (nUbatch : ℕ) : ℕ → ℕ → Finset ℤ → List ℕ → BatchAllocr → List ℕ × BatchAllocr
  | 0, _, _, idxs, a => (idxs, a)
  | fuel + 1, cur, set, idxs, a =>
    let idxs := idxs ++ [cur]
    let a := a.use cur
    if nUbatch ≤ idxs.length then (idxs, a)
    else
      match a.nextSubset set (a.batch.nTokens - (cur + 1)) cur with
      | none => (idxs, a)
      | some cur => seqLoop nUbatch fuel cur (a.seqSet cur) idxs a

def splitSeq (a : BatchAllocr) (nUbatch : ℕ) : UBatch × BatchAllocr :=
  match a.firstUnused with
  | none => (.empty, a)
  | some cur =>
    let (idxs, a) := seqLoop nUbatch a.batch.nTokens cur (a.seqSet cur) [] a
    a.ubatchAdd idxs 1 true

end BatchAllocr
end Llama
