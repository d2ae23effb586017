import Llama.Batch
import Llama.Lib.Swaps

/-!
# The outputs of a context

`llama_context::decode` copies the rows that the graphs compute for the ubatches of a batch
into the output buffers, in the order of the ubatches.  Then it sorts the outputs as they
are in the batch: `output_ids` at once, and the rows of the buffers when a getter asks for
them, from a list of swaps.

A float is given by its bits, and a ubatch by the tokens of the batch that it holds.  What a
view of a buffer shows before it is written is what the memory holds.  The buffers of backend
sampling are left out.
-/

namespace Llama

/-- `buffer_view`; a view of size `0` shows no data. -/
structure BufferView where
  data : ℕ → UInt32
  size : ℕ

namespace Context

/-- What the outputs depend on of the context's and of the model's parameters; `samplers` are
the sequences with a backend sampler. -/
structure Params where
  nVocab : ℕ
  nEmbd : ℕ
  nEmbdOut : ℕ
  nBatch : ℕ
  nSeqMax : ℕ
  nOutputsMax : ℕ
  isT5 : Bool
  embeddings : Bool
  poolingNone : Bool
  embeddingsNextn : Bool
  embeddingsNextnMasked : Bool
  embeddingsLayerInp : List Bool
  samplers : List ℤ

/-- The output buffers of a context, `output_ids` and `output_swaps`. -/
structure Outputs where
  logits : BufferView
  embd : BufferView
  embdNextn : BufferView
  embdLayerInp : ℕ → BufferView
  outputIds : ℕ → ℤ
  outputSwaps : List (ℕ × ℕ)
  nOutputs : ℕ

/-- The rows that the graphs compute for the tokens of the batch; `none` stands for a tensor
that the graphs do not have. -/
structure TokenRows where
  logits : Option (ℕ → ℕ → UInt32)
  embd : Option (ℕ → ℕ → UInt32)
  nextn : Option (ℕ → ℕ → UInt32)
  layerInp : ℕ → Option (ℕ → ℕ → UInt32)

/-- Whether a batch token is an output. -/
def isOutput (b : FullBatch) (t : ℕ) : Bool := b.logits t ≠ 0

/-- Whether the layer's input is captured. -/
def Params.layerInp (p : Params) (lid : ℕ) : Bool := p.embeddingsLayerInp.getD lid false

/-- `output_reserve`: views of the sizes that `n` outputs need, and no row for any token. -/
def outputReserve (p : Params) (n : ℕ) (st : Outputs) : Option Outputs :=
  let nMax := max n p.nSeqMax
  if nMax ≤ p.nOutputsMax then
    some
      { logits := { st.logits with size := p.nVocab * nMax }
        embd := { st.embd with
          size := if p.embeddings ∨ p.isT5 = true then p.nEmbdOut * nMax else 0 }
        embdNextn := { st.embdNextn with
          size := if p.embeddingsNextn then
              if p.embeddingsNextnMasked then p.nEmbdOut * nMax else p.nEmbdOut * p.nBatch
            else 0 }
        embdLayerInp := fun lid => { st.embdLayerInp lid with
          size := if p.layerInp lid then p.nEmbd * p.nBatch else 0 }
        outputIds := fun _ => -1
        outputSwaps := st.outputSwaps
        nOutputs := 0 }
  else none

/-! ## Extraction -/

/-- Copy rows of a tensor to the rows of a view from `offset` on. -/
def copyRows (width offset : ℕ) (rows : List (ℕ → UInt32)) (v : BufferView) : Option BufferView :=
  if (offset + rows.length) * width ≤ v.size then
    some { v with
      data := fun pos =>
        if offset * width ≤ pos ∧ pos < (offset + rows.length) * width then
          rows.getD (pos / width - offset) (fun _ => 0) (pos % width)
        else v.data pos }
  else none

/-- Copy the rows of some tokens, if the graph has the tensor and `c` holds. -/
def copyTokens (width offset : ℕ) (tensor : Option (ℕ → ℕ → UInt32)) (c : Bool) (tokens : List ℕ)
    (v : BufferView) : Option BufferView :=
  match tensor with
  | none => some v
  | some rows => if c then copyRows width offset (tokens.map rows) v else some v

/-- `needs_raw_logits`: an output token has a sequence without a backend sampler. -/
def needsRawLogits (p : Params) (b : FullBatch) (tokens : List ℕ) : Bool :=
  tokens.any fun t => isOutput b t && (b.seqs t).any fun s => s ∉ p.samplers

/-- `extract_layer_inputs`, for the layers listed. -/
def extractLayerInputs (p : Params) (rows : TokenRows) (tokenOffset : ℕ) (tokens : List ℕ) :
    List ℕ → (ℕ → BufferView) → Option (ℕ → BufferView)
  | [], views => some views
  | il :: ils, views =>
    if p.layerInp il then do
      let layer ← rows.layerInp il
      if tokens = [] then none
      else
        let v ← copyRows p.nEmbd tokenOffset (tokens.map layer) (views il)
        extractLayerInputs p rows tokenOffset tokens ils (Function.update views il v)
    else extractLayerInputs p rows tokenOffset tokens ils views

/-- `n_outputs` of a ubatch. -/
def countOutputs (b : FullBatch) (nOutputsAll : ℕ) (tokens : List ℕ) : ℕ :=
  if nOutputsAll = b.nTokens then tokens.length else tokens.countP (isOutput b)

/-- The tokens whose rows the graph of a ubatch selects, `llm_graph_input_out_ids`. -/
def selectOutputs (b : FullBatch) (nOutputs : ℕ) (tokens : List ℕ) : List ℕ :=
  if nOutputs = tokens.length then tokens else tokens.filter (isOutput b)

/-- What `decode` extracts of one ubatch. -/
def extract (p : Params) (b : FullBatch) (rows : TokenRows) (nOutputs nOutputsPrev nTokensPrev : ℕ)
    (tokens : List ℕ) (st : Outputs) : Option Outputs := do
  let outs := selectOutputs b nOutputs tokens
  let logits ← copyTokens p.nVocab nOutputsPrev rows.logits
    (0 < nOutputs && needsRawLogits p b tokens) outs st.logits
  -- with pooling the embeddings go to the sequences
  let embd ← copyTokens p.nEmbdOut nOutputsPrev rows.embd
    (p.embeddings && 0 < nOutputs && p.poolingNone) outs st.embd
  let embdLayerInp ← extractLayerInputs p rows nTokensPrev tokens
    (List.range p.embeddingsLayerInp.length) st.embdLayerInp
  let nRows := if p.embeddingsNextnMasked then nOutputs else tokens.length
  let embdNextn ← copyTokens p.nEmbdOut
    (if p.embeddingsNextnMasked then nOutputsPrev else nTokensPrev) rows.nextn
    (p.embeddingsNextn && 0 < nRows && p.poolingNone)
    (if p.embeddingsNextnMasked then outs else tokens) st.embdNextn
  return { st with
    logits := logits, embd := embd, embdNextn := embdNextn, embdLayerInp := embdLayerInp }

/-- The loop of `decode` over the ubatches. -/
def decodeLoop (p : Params) (b : FullBatch) (rows : TokenRows) (nOutputsAll : ℕ) :
    List (List ℕ) → ℕ → ℕ → Outputs → Option Outputs
  | [], _, _, st => some st
  | tokens :: rest, nOutputsPrev, nTokensPrev, st => do
    let nOutputs := countOutputs b nOutputsAll tokens
    let st ← extract p b rows nOutputs nOutputsPrev nTokensPrev tokens st
    decodeLoop p b rows nOutputsAll rest (nOutputsPrev + nOutputs) (nTokensPrev + tokens.length) st

/-- `output_ids[out_ids[i]] = i` for the first `n` outputs. -/
def numberOutputs (n : ℕ) (outIds : ℕ → ℕ) (outputIds : ℕ → ℤ) : ℕ → ℤ :=
  (List.range n).foldl (fun ids i => Function.update ids (outIds i) i) outputIds

/-- `decode` sorts the outputs: `output_ids` at once, and the swaps for later. -/
def sortOutputs (outIds : List ℕ) (st : Outputs) : Outputs :=
  let n := st.nOutputs
  let ids := fun i => outIds.getD i 0
  let outputIds := numberOutputs n ids st.outputIds
  if ((List.range n).any fun i => ids i ≠ i) ∧ 1 < n then
    let (ids, swaps) := Swaps.selectionSort n ids
    { st with
      outputIds := numberOutputs n ids fun _ => -1
      outputSwaps := st.outputSwaps ++ swaps }
  else { st with outputIds := outputIds }

/-- `decode`, behind the splitting of the batch and up to the computation itself: `parts` are
the tokens of the ubatches, and `outIds` the outputs that the splitter has listed. -/
def decode (p : Params) (a : BatchAllocr) (parts : List (List ℕ)) (outIds : List ℕ)
    (rows : TokenRows) (st : Outputs) : Option Outputs := do
  if p.embeddings ∧ a.nOutputs ≠ a.batch.nTokens then none
  else if p.nBatch < a.batch.nTokens then none
  else
    let st ← outputReserve p a.nOutputs { st with outputSwaps := [] }
    let st ← decodeLoop p a.batch rows a.nOutputs parts 0 0 st
    let st := { st with nOutputs := a.nOutputs }
    if 0 < st.nOutputs then
      if outIds.length ≠ st.nOutputs then none else some (sortOutputs outIds st)
    else some st

/-! ## Getters -/

/-- The loop that exchanges two rows of a view. -/
def swapRows (width i0 i1 : ℕ) (v : BufferView) : BufferView :=
  if 0 < v.size then
    { v with
      data := (List.range width).foldl
        (fun data k => Swaps.swapAt data (i0 * width + k) (i1 * width + k)) v.data }
  else v

/-- One round of `output_reorder`. -/
def swapOutputs (p : Params) (st : Outputs) (s : ℕ × ℕ) : Outputs :=
  { st with
    logits := swapRows p.nVocab s.1 s.2 st.logits
    embd := swapRows p.nEmbdOut s.1 s.2 st.embd
    embdNextn := swapRows p.nEmbdOut s.1 s.2 st.embdNextn
    embdLayerInp := fun lid => swapRows p.nEmbd s.1 s.2 (st.embdLayerInp lid) }

def outputReorder (p : Params) (st : Outputs) : Outputs :=
  { st.outputSwaps.foldl (swapOutputs p) st with outputSwaps := [] }

/-- `output_resolve_row`; `none` stands for an exception. -/
def outputResolveRow (p : Params) (st : Outputs) (i : ℤ) : Option ℕ :=
  let j : ℤ := if i < 0 then st.nOutputs + i else st.outputIds i.toNat
  if 0 ≤ i ∧ p.nBatch ≤ i then none
  else if j < 0 then none
  else if st.nOutputs ≤ j then none
  else some j.toNat

/-- `get_logits_ith`: the offset of the row. -/
def getLogitsIth (p : Params) (i : ℤ) (st : Outputs) : Outputs × Option ℕ :=
  let st := outputReorder p st
  (st, (outputResolveRow p st i).map (· * p.nVocab))

def getEmbeddingsIth (p : Params) (i : ℤ) (st : Outputs) : Outputs × Option ℕ :=
  let st := outputReorder p st
  (st, if p.embeddings ∨ p.isT5 = true then
      (outputResolveRow p st i).map (· * p.nEmbdOut)
    else none)

/-- `get_embeddings_nextn_ith`; without the mask the rows are those of the batch tokens. -/
def getEmbeddingsNextnIth (p : Params) (i : ℤ) (st : Outputs) : Outputs × Option ℕ :=
  let st := outputReorder p st
  (st, if !p.embeddingsNextn then none
    else if !p.embeddingsNextnMasked then
      if i < 0 ∨ st.embdNextn.size < (i.toNat + 1) * p.nEmbdOut then none
      else some (i.toNat * p.nEmbdOut)
    else (outputResolveRow p st i).map (· * p.nEmbdOut))

/-- The getters of the outputs. -/
inductive Getter
  | logits
  | logitsIth (i : ℤ)
  | embeddings
  | embeddingsIth (i : ℤ)
  | embeddingsSeq (s : ℤ)
  | embeddingsNextn
  | embeddingsNextnIth (i : ℤ)
  | embeddingsLayerInp (lid : ℕ)
  | sampledTokens
  | sampledIth (i : ℤ)

/-- What a getter does to the outputs: all but two of them reorder first. -/
def Getter.call (p : Params) (st : Outputs) : Getter → Outputs
  | .embeddingsSeq _ | .sampledTokens => st
  | .logits | .logitsIth _ | .embeddings | .embeddingsIth _ | .embeddingsNextn
  | .embeddingsNextnIth _ | .embeddingsLayerInp _ | .sampledIth _ => outputReorder p st

/-- Call some getters. -/
def callAll (p : Params) (gs : List Getter) (st : Outputs) : Outputs := gs.foldl (Getter.call p) st

end Context
end Llama
