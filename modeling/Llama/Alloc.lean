import Llama.Basic
import Mathlib.Data.List.Basic
import Mathlib.Data.List.TakeWhile

/-!
# The dynamic tensor allocator

`ggml_dyn_tallocr` plans where tensors lie before any memory exists.  It holds up to sixteen
chunks; a chunk is a sorted array of free blocks and the largest end of an allocation made in
it.  An allocation takes the front of the best fitting block that is not the last one of its
chunk, else of a last block, else of a new chunk.  Freed bytes are merged with the blocks they
touch.

Sizes and offsets are `size_t`: natural numbers whose sums and differences are taken modulo
`2 ^ 64`.  A failed assertion is `none`.
-/

namespace Llama

/-- `aligned_offset` with a null buffer. -/
def alignedOffset (offset alignment : ℕ) : ℕ :=
  addSize offset ((alignment - offset % alignment) % alignment)

/-! ## Blocks and chunks -/

structure FreeBlock where
  offset : ℕ
  size : ℕ
  deriving DecidableEq, Repr

/-- The `size_t` behind the last byte of a block. -/
def FreeBlock.stop (b : FreeBlock) : ℕ := addSize b.offset b.size

structure TallocrChunk where
  freeBlocks : List FreeBlock
  maxSize : ℕ
  deriving DecidableEq, Repr

def maxFreeBlocks : ℕ := 256

/-- `GGML_VBUFFER_MAX_CHUNKS`. -/
def vbufferMaxChunks : ℕ := 16

structure BufferAddress where
  chunk : ℕ
  offset : ℕ
  deriving DecidableEq, Repr

/-- `ggml_dyn_tallocr`. -/
structure DynTallocr where
  alignment : ℕ
  maxChunkSize : ℕ
  chunks : List TallocrChunk
  deriving DecidableEq, Repr

/-- `ggml_dyn_tallocr_insert_block`: before the first block that does not start earlier. -/
def insertBlock (blocks : List FreeBlock) (offset size : ℕ) : Option (List FreeBlock) :=
  if blocks.length < maxFreeBlocks then
    let before := fun (b : FreeBlock) => decide (b.offset < offset)
    some (blocks.takeWhile before ++ ⟨offset, size⟩ :: blocks.dropWhile before)
  else none

/-- `ggml_dyn_tallocr_remove_block`. -/
def removeBlock (blocks : List FreeBlock) (idx : ℕ) : List FreeBlock := blocks.eraseIdx idx

/-- The free block of a chunk that `ggml_dyn_tallocr_new_chunk` makes as number `nChunks`. -/
def newChunkSize (maxChunkSize nChunks minSize : ℕ) : ℕ :=
  if nChunks = vbufferMaxChunks - 1 then sizeMax / 2 else max minSize maxChunkSize

/-- The chunk that `ggml_dyn_tallocr_new_chunk` makes as number `nChunks`. -/
def newChunk (maxChunkSize nChunks minSize : ℕ) : TallocrChunk :=
  ⟨[⟨0, newChunkSize maxChunkSize nChunks minSize⟩], 0⟩

/-- Take `size` bytes from the front of block `i`, which is `b`. -/
def TallocrChunk.take (ch : TallocrChunk) (i : ℕ) (b : FreeBlock) (size : ℕ) : TallocrChunk where
  freeBlocks :=
    if subSize b.size size = 0 then removeBlock ch.freeBlocks i
    else ch.freeBlocks.set i ⟨addSize b.offset size, subSize b.size size⟩
  maxSize := max ch.maxSize (addSize b.offset size)

/-- The loop of `ggml_dyn_tallocr_free_bytes` over the blocks behind `pre`, or `none` when no
block touches the bytes. -/
def mergeBlock (offset size : ℕ) (pre : List FreeBlock) : List FreeBlock → Option (List FreeBlock)
  | [] => none
  | b :: post =>
    if b.stop = offset then
      let b : FreeBlock := ⟨b.offset, addSize b.size size⟩
      match post with
      | [] => some (pre ++ [b])
      | next :: rest =>
        if b.stop = next.offset then some (pre ++ ⟨b.offset, addSize b.size next.size⟩ :: rest)
        else some (pre ++ b :: next :: rest)
    else if addSize offset size = b.offset then
      let b : FreeBlock := ⟨offset, addSize b.size size⟩
      match pre.getLast? with
      | none => some (pre ++ b :: post)
      | some prev =>
        if prev.stop = b.offset then
          some (pre.dropLast ++ ⟨prev.offset, addSize prev.size b.size⟩ :: post)
        else some (pre ++ b :: post)
    else mergeBlock offset size (pre ++ [b]) post

/-- The body of `ggml_dyn_tallocr_free_bytes`: merge the bytes with the blocks they touch, or
else insert them. -/
def giveBack (blocks : List FreeBlock) (offset size : ℕ) : Option (List FreeBlock) :=
  match mergeBlock offset size [] blocks with
  | some blocks => some blocks
  | none => insertBlock blocks offset size

namespace DynTallocr

/-- `ggml_dyn_tallocr_new` and `ggml_dyn_tallocr_reset`. -/
def new (alignment maxBufferSize : ℕ) : DynTallocr := ⟨alignment, min maxBufferSize (sizeMax / 2), []⟩

/-- The best fitting block of a chunk besides its last block, from index `i` on. -/
def bestFitIn (size : ℕ) : List FreeBlock → ℕ → ℕ → Option ℕ → Option ℕ
  | [], _, _, best => best
  | [_], _, _, best => best
  | b :: next :: rest, i, bestSize, best =>
    if size ≤ b.size ∧ b.size ≤ bestSize then bestFitIn size (next :: rest) (i + 1) b.size (some i)
    else bestFitIn size (next :: rest) (i + 1) bestSize best

/-- The first search of `ggml_dyn_tallocr_alloc`, from chunk `c` on.  `best_fit_size` starts
anew in each chunk. -/
def bestFit (size : ℕ) : List TallocrChunk → ℕ → Option (ℕ × ℕ) → Option (ℕ × ℕ)
  | [], _, best => best
  | ch :: chunks, c, best =>
    match bestFitIn size ch.freeBlocks 0 sizeMax none with
    | none => bestFit size chunks (c + 1) best
    | some i => bestFit size chunks (c + 1) (some (c, i))

/-- `max_size - offset - size`, computed in `size_t` and stored as `int64_t`. -/
def reuseFactor (ch : TallocrChunk) (b : FreeBlock) (size : ℕ) : ℤ :=
  Int.bmod ((ch.maxSize : ℤ) - b.offset - size) (2 ^ 64)

/-- The second search of `ggml_dyn_tallocr_alloc`, over the last blocks, from chunk `c` on. -/
def lastFit (size : ℕ) : List TallocrChunk → ℕ → ℤ → Option (ℕ × ℕ) → Option (ℕ × ℕ)
  | [], _, _, best => best
  | ch :: chunks, c, bestReuse, best =>
    match ch.freeBlocks.getLast? with
    | none => lastFit size chunks (c + 1) bestReuse best
    | some b =>
      let reuse := reuseFactor ch b size
      if size ≤ b.size ∧ (bestReuse < 0 ∧ bestReuse < reuse ∨ 0 ≤ reuse ∧ reuse < bestReuse) then
        lastFit size chunks (c + 1) reuse (some (c, ch.freeBlocks.length - 1))
      else lastFit size chunks (c + 1) bestReuse best

/-- The block that an existing chunk offers for `size` bytes. -/
def fit (chunks : List TallocrChunk) (size : ℕ) : Option (ℕ × ℕ) :=
  match bestFit size chunks 0 none with
  | some found => some found
  | none => lastFit size chunks 0 (-2 ^ 63) none

/-- Take `size` bytes from block `i` of chunk `c`. -/
def takeAt (a : DynTallocr) (chunks : List TallocrChunk) (c i size : ℕ) :
    Option (BufferAddress × DynTallocr) := do
  let ch ← chunks[c]?
  let b ← ch.freeBlocks[i]?
  return (⟨c, b.offset⟩, { a with chunks := chunks.set c (ch.take i b size) })

/-- `ggml_dyn_tallocr_alloc`. -/
def alloc (a : DynTallocr) (size : ℕ) : Option (BufferAddress × DynTallocr) :=
  let size := alignedOffset size a.alignment
  match fit a.chunks size with
  | some (c, i) => a.takeAt a.chunks c i size
  | none =>
    if a.chunks.length < vbufferMaxChunks then
      a.takeAt (a.chunks ++ [newChunk a.maxChunkSize a.chunks.length size]) a.chunks.length 0 size
    else none

/-- `ggml_dyn_tallocr_free_bytes`. -/
def freeBytes (a : DynTallocr) (addr : BufferAddress) (size : ℕ) : Option DynTallocr := do
  let size := alignedOffset size a.alignment
  let ch ← a.chunks[addr.chunk]?
  let blocks ← giveBack ch.freeBlocks addr.offset size
  return { a with chunks := a.chunks.set addr.chunk { ch with freeBlocks := blocks } }

end DynTallocr
end Llama
