import Llama.Alloc.Space
import Llama.Lib.Run

/-!
# Runs of the tensor allocator

`alloc_spec` and `freeBytes_spec` say once what the operations do to the free bytes of every
chunk.  A `Plan` is an allocator together with what its caller knows: the regions that were
allocated and not yet freed, and every region that was ever allocated.  In the runs in which
each free matches a live region, or the aligned tail of one, the plan is `Plan.Safe`, unless an
allocation is so large that its size wraps when it is padded or does not fit in the last chunk.
No byte of a chunk is lost in them.
-/

namespace Llama

open Extent List Option

variable {a a' : DynTallocr} {chunks : List TallocrChunk} {ch : TallocrChunk} {b : FreeBlock}
  {addr : BufferAddress} {size k c i x : ℕ}

/-! ## Padding -/

/-- The least multiple of the alignment from `size` on. -/
def padUp (size alignment : ℕ) : ℕ := size + (alignment - size % alignment) % alignment

lemma alignedOffset_of_lt (h : padUp size k < 2 ^ 64) : alignedOffset size k = padUp size k :=
  addSize_of_lt h

lemma le_padUp (size k : ℕ) : size ≤ padUp size k := Nat.le_add_right _ _

lemma dvd_padUp (size : ℕ) (hk : 0 < k) : k ∣ padUp size k := by
  have hlt := Nat.mod_lt size hk
  have hdiv := Nat.div_add_mod size k
  unfold padUp
  rcases Nat.eq_zero_or_pos (size % k) with h0 | hpos
  · rw [h0, Nat.sub_zero, Nat.mod_self]
    exact Nat.dvd_of_mod_eq_zero h0
  · rw [Nat.mod_eq_of_lt (by omega : k - size % k < k)]
    refine ⟨size / k + 1, ?_⟩
    rw [Nat.mul_add]
    omega

lemma padUp_of_dvd (h : k ∣ size) : padUp size k = size := by
  rw [padUp, Nat.mod_eq_zero_of_dvd h, Nat.sub_zero, Nat.mod_self, Nat.add_zero]

lemma padUp_mono {size' : ℕ} (hk : 0 < k) (h : size ≤ size') : padUp size k ≤ padUp size' k := by
  obtain ⟨q, hq⟩ := dvd_padUp size hk
  obtain ⟨q', hq'⟩ := dvd_padUp size' hk
  have hle := le_padUp size' k
  have hlt : padUp size k < size + k := Nat.add_lt_add_left (Nat.mod_lt _ hk) size
  -- both are multiples of `k`, and no multiple lies between `size` and the first
  by_contra hcon
  rw [hq, hq'] at hcon
  have hqq : q' + 1 ≤ q := Nat.lt_of_mul_lt_mul_left (Nat.not_le.mp hcon)
  have hmul := Nat.mul_le_mul_left k hqq
  rw [Nat.mul_add] at hmul
  omega

/-- Taking bytes of a block out of its chunk. -/
lemma TallocrChunk.take_spec (hs : Llama.Sound ch.freeBlocks) (hb : ch.freeBlocks[i]? = some b)
    (hsize : size ≤ b.size) :
    Llama.Sound (ch.take i b size).freeBlocks ∧
    (∀ x, x ∈ space (ch.take i b size).freeBlocks ↔
      x ∈ space ch.freeBlocks ∧ ¬ (b.offset ≤ x ∧ x < b.offset + size)) ∧
    ∀ k, Llama.Tidy k ch.freeBlocks → k ∣ size → Llama.Tidy k (ch.take i b size).freeBlocks := by
  obtain ⟨hlt, hget⟩ := List.getElem?_eq_some_iff.mp hb
  have hsplit : ch.freeBlocks = ch.freeBlocks.take i ++ b :: ch.freeBlocks.drop (i + 1) := by
    rw [← hget, ← drop_eq_getElem_cons hlt, take_append_drop]
  rw [TallocrChunk.take_freeBlocks hs hsplit (length_take_of_le hlt.le) hsize]
  obtain ⟨hsound, hspace⟩ := (hsplit ▸ hs).take hsize
  refine ⟨hsound, fun x => ?_, fun k ht hk => ?_⟩
  · rw [hspace, ← hsplit]
  · rw [hsplit] at ht
    exact ht.take hsize hk

namespace DynTallocr

/-- Block `i` of chunk `c` has `size` bytes. -/
def HasRoom (chunks : List TallocrChunk) (size : ℕ) (found : ℕ × ℕ) : Prop :=
  ∃ ch b, chunks[found.1]? = some ch ∧ ch.freeBlocks[found.2]? = some b ∧ size ≤ b.size

lemma bestFitIn_spec (size : ℕ) : ∀ (blocks pre : List FreeBlock) (bestSize : ℕ)
    (best : Option ℕ), (∀ j ∈ best, ∃ b, (pre ++ blocks)[j]? = some b ∧ size ≤ b.size) →
      ∀ j ∈ bestFitIn size blocks pre.length bestSize best,
        ∃ b, (pre ++ blocks)[j]? = some b ∧ size ≤ b.size := by
  intro blocks
  induction blocks with
  | nil => exact fun pre bestSize best h => h
  | cons b rest ih =>
    intro pre bestSize best h
    rcases rest with _ | ⟨next, rest⟩
    · exact h
    · have hsplit : pre ++ b :: next :: rest = pre ++ [b] ++ next :: rest := by simp
      have hlen : pre.length + 1 = (pre ++ [b]).length := by simp
      unfold bestFitIn
      rw [hsplit] at h ⊢
      rw [hlen]
      split
      · rename_i hfit
        refine ih (pre ++ [b]) _ _ fun j hj => ?_
        rw [mem_some_iff] at hj
        subst hj
        exact ⟨b, by simp, hfit.1⟩
      · exact ih (pre ++ [b]) _ _ h

lemma bestFit_spec (size : ℕ) : ∀ (chunks pre : List TallocrChunk) (best : Option (ℕ × ℕ)),
    (∀ f ∈ best, HasRoom (pre ++ chunks) size f) →
      ∀ f ∈ bestFit size chunks pre.length best, HasRoom (pre ++ chunks) size f := by
  intro chunks
  induction chunks with
  | nil => exact fun pre best h => h
  | cons ch rest ih =>
    intro pre best h
    have hsplit : pre ++ ch :: rest = pre ++ [ch] ++ rest := by simp
    have hlen : pre.length + 1 = (pre ++ [ch]).length := by simp
    have hin := bestFitIn_spec size ch.freeBlocks [] sizeMax none (by simp)
    unfold bestFit
    rw [hlen]
    cases hbest : bestFitIn size ch.freeBlocks 0 sizeMax none with
    | none =>
      rw [hsplit] at h ⊢
      exact ih (pre ++ [ch]) _ h
    | some j =>
      obtain ⟨b, hb, hroom⟩ := hin j hbest
      rw [hsplit]
      refine ih (pre ++ [ch]) _ fun f hf => ?_
      rw [mem_some_iff] at hf
      subst hf
      exact ⟨ch, b, by simp, hb, hroom⟩

lemma lastFit_spec (size : ℕ) : ∀ (chunks pre : List TallocrChunk) (bestReuse : ℤ)
    (best : Option (ℕ × ℕ)), (∀ f ∈ best, HasRoom (pre ++ chunks) size f) →
      ∀ f ∈ lastFit size chunks pre.length bestReuse best, HasRoom (pre ++ chunks) size f := by
  intro chunks
  induction chunks with
  | nil => exact fun pre bestReuse best h => h
  | cons ch rest ih =>
    intro pre bestReuse best h
    have hsplit : pre ++ ch :: rest = pre ++ [ch] ++ rest := by simp
    have hlen : pre.length + 1 = (pre ++ [ch]).length := by simp
    unfold lastFit
    rw [hlen, hsplit]
    rw [hsplit] at h
    cases hlast : ch.freeBlocks.getLast? with
    | none => exact ih (pre ++ [ch]) _ _ h
    | some b =>
      simp only
      split
      · rename_i hfit
        refine ih (pre ++ [ch]) _ _ fun f hf => ?_
        rw [mem_some_iff] at hf
        subst hf
        exact ⟨ch, b, by simp, by rw [← getLast?_eq_getElem?, hlast], hfit.1⟩
      · exact ih (pre ++ [ch]) _ _ h

/-- **A block that the searches return has room.** -/
theorem fit_spec {f : ℕ × ℕ} (h : fit chunks size = some f) :
    HasRoom chunks size f := by
  unfold fit at h
  have hbest := bestFit_spec size chunks [] none (by simp)
  have hlast := lastFit_spec size chunks [] (-2 ^ 63) none (by simp)
  cases hf : bestFit size chunks 0 none with
  | some found =>
    rw [hf] at h
    cases h
    exact hbest _ hf
  | none =>
    rw [hf] at h
    exact hlast _ h

/-! ## The operations -/

/-- The free blocks of chunk `c`. -/
def blocksAt (a : DynTallocr) (c : ℕ) : List FreeBlock :=
  ((a.chunks[c]?).map TallocrChunk.freeBlocks).getD []

/-- `ggml_dyn_tallocr_max_size`. -/
def maxSizeAt (a : DynTallocr) (c : ℕ) : ℕ := ((a.chunks[c]?).map TallocrChunk.maxSize).getD 0

lemma blocksAt_of_getElem? (h : a.chunks[c]? = some ch) :
    a.blocksAt c = ch.freeBlocks := by simp [blocksAt, h]

lemma maxSizeAt_of_getElem? (h : a.chunks[c]? = some ch) :
    a.maxSizeAt c = ch.maxSize := by simp [maxSizeAt, h]

/-- The invariant of the allocator, for sizes that may be zero. -/
structure Sound (a : DynTallocr) : Prop where
  alignment_pos : 0 < a.alignment
  maxChunkSize_lt : a.maxChunkSize < 2 ^ 64
  blocks : ∀ ch ∈ a.chunks, Llama.Sound ch.freeBlocks

/-- The blocks of every chunk are sorted, apart and aligned. -/
def Tidy (a : DynTallocr) : Prop := ∀ ch ∈ a.chunks, Llama.Tidy a.alignment ch.freeBlocks

/-- The size does not wrap when it is padded, and if only the last chunk is left for it then it
is not larger than that chunk. -/
structure Room (a : DynTallocr) (size : ℕ) : Prop where
  padded : padUp size a.alignment < 2 ^ 64
  last : fit a.chunks (padUp size a.alignment) = none →
    a.chunks.length = vbufferMaxChunks - 1 → padUp size a.alignment ≤ sizeMax / 2

/-- What an allocation of `size` bytes, padded, at `addr` does. -/
structure Allocated (a : DynTallocr) (addr : BufferAddress) (size : ℕ) (a' : DynTallocr) : Prop where
  sound : a'.Sound
  alignment : a'.alignment = a.alignment
  bounded : addr.offset + size < 2 ^ 64
  chunk_lt : addr.chunk < a'.chunks.length
  length_le : a.chunks.length ≤ a'.chunks.length
  was_free : addr.chunk < a.chunks.length →
    ∀ x, addr.offset ≤ x → x < addr.offset + size → x ∈ space (a.blocksAt addr.chunk)
  free : ∀ c x, x ∈ space (a'.blocksAt c) → (c < a.chunks.length → x ∈ space (a.blocksAt c)) ∧
      (c = addr.chunk → ¬ (addr.offset ≤ x ∧ x < addr.offset + size))
  maxSize_le : ∀ c, a.maxSizeAt c ≤ a'.maxSizeAt c
  le_maxSize : addr.offset + size ≤ a'.maxSizeAt addr.chunk
  tidy : a.Tidy → 0 < size → a'.Tidy ∧ a.alignment ∣ addr.offset

/-- The bytes that are taken were free, and all others are left as they are. -/
lemma mem_space_takeAt (hs : Llama.Sound ch.freeBlocks) (hch : chunks[c]? = some ch)
    (hb : ch.freeBlocks[i]? = some b) (hsize : size ≤ b.size)
    (h : a.takeAt chunks c i size = some (addr, a')) (d x : ℕ) :
      (x ∈ space (a'.blocksAt d) ↔ x ∈ space ({ a with chunks }.blocksAt d) ∧
        ¬ (d = addr.chunk ∧ x ∈ (bytes addr.offset size).points)) ∧
      (d = addr.chunk → x ∈ (bytes addr.offset size).points →
        x ∈ space ({ a with chunks }.blocksAt d)) := by
  simp only [takeAt, hch, hb, Option.bind_eq_bind, Option.bind_some, Option.pure_def,
    Option.some.injEq, Prod.mk.injEq] at h
  obtain ⟨rfl, rfl⟩ := h
  obtain ⟨-, hspace, -⟩ := TallocrChunk.take_spec hs hb hsize
  generalize ch.take i b size = taken at hspace ⊢
  by_cases heq : d = c
  · subst heq
    rw [blocksAt, blocksAt, getElem?_set_self (List.getElem?_eq_some_iff.mp hch).1, hch,
      Option.map_some, Option.getD_some, hspace]
    exact ⟨by simp, fun _ hx =>
      mem_space.mpr ⟨b, mem_of_getElem? hb, hx.1, hx.2.trans_le (Nat.add_le_add_left hsize _)⟩⟩
  · simp [blocksAt, getElem?_set_ne (Ne.symm heq), heq]

lemma takeAt_spec (ha : a.Sound) (hpre : a.chunks <+: chunks)
    (hsound : ∀ ch ∈ chunks, Llama.Sound ch.freeBlocks) (hch : chunks[c]? = some ch)
    (hb : ch.freeBlocks[i]? = some b) (hsize : size ≤ b.size) (hk : a.alignment ∣ size)
    (htidy : a.Tidy → 0 < size → ∀ ch ∈ chunks, Llama.Tidy a.alignment ch.freeBlocks)
    (h : a.takeAt chunks c i size = some (addr, a')) : a.Allocated addr size a' := by
  have hmem : ch ∈ chunks := mem_of_getElem? hch
  have hs := hsound ch hmem
  have htook := mem_space_takeAt hs hch hb hsize h
  simp only [takeAt, hch, hb, Option.bind_eq_bind, Option.bind_some, Option.pure_def,
    Option.some.injEq, Prod.mk.injEq] at h
  obtain ⟨rfl, rfl⟩ := h
  have hc : c < chunks.length := (List.getElem?_eq_some_iff.mp hch).1
  have hbound := hs.bounded b (mem_of_getElem? hb)
  obtain ⟨hsound', -, htaken⟩ := TallocrChunk.take_spec hs hb hsize
  have hmax : (ch.take i b size).maxSize = max ch.maxSize (b.offset + size) := by
    simp only [TallocrChunk.take, addSize_of_lt (by omega : b.offset + size < 2 ^ 64)]
  have hold : ∀ c' < a.chunks.length, chunks[c']? = a.chunks[c']? := by
    intro c' hc'
    obtain ⟨t, rfl⟩ := hpre
    exact getElem?_append_left hc'
  have hblocks : ∀ c' < a.chunks.length,
      DynTallocr.blocksAt { a with chunks } c' = a.blocksAt c' := fun c' hc' => by
    rw [blocksAt, blocksAt, hold c' hc']
  set a' : DynTallocr := { a with chunks := chunks.set c (ch.take i b size) } with ha'
  have hself : a'.chunks[c]? = some (ch.take i b size) := getElem?_set_self hc
  have hother : ∀ c' < a.chunks.length, c' ≠ c → a'.chunks[c']? = a.chunks[c']? := by
    intro c' hc' hne
    rw [← hold c' hc']
    exact getElem?_set_ne (Ne.symm hne)
  refine ⟨⟨ha.alignment_pos, ha.maxChunkSize_lt, fun ch' h' => ?_⟩, rfl, ?_, ?_, ?_, ?_, ?_, ?_, ?_,
    ?_⟩
  · rcases mem_or_eq_of_mem_set h' with h' | rfl
    · exact hsound ch' h'
    · exact hsound'
  · show b.offset + size < 2 ^ 64
    omega
  · simpa [ha'] using hc
  · simpa [ha'] using hpre.length_le
  · intro hc' x hlo hhi
    rw [← hblocks _ hc']
    exact (htook _ x).2 rfl ⟨hlo, hhi⟩
  · intro c' x hx
    obtain ⟨hx, hnot⟩ := (htook c' x).1.mp hx
    exact ⟨fun hc' => by rwa [← hblocks c' hc'], fun heq h => hnot ⟨heq, h⟩⟩
  · intro c'
    rcases Nat.lt_or_ge c' a.chunks.length with hc' | hc'
    · by_cases heq : c' = c
      · subst heq
        rw [maxSizeAt_of_getElem? hself, maxSizeAt_of_getElem? ((hold c' hc').symm.trans hch)]
        exact Nat.le_max_left _ _
      · rw [maxSizeAt, maxSizeAt, hother c' hc' heq]
    · simp [maxSizeAt, getElem?_eq_none hc']
  · rw [maxSizeAt_of_getElem? hself, hmax]
    exact Nat.le_max_right _ _
  · intro ht hpos
    have htidy' := htidy ht hpos
    have hch' := htidy' ch hmem
    refine ⟨fun ch' h' => ?_, hch'.aligned b (mem_of_getElem? hb)⟩
    rcases mem_or_eq_of_mem_set h' with h' | rfl
    · exact htidy' ch' h'
    · exact htaken _ hch' hk

/-- An allocation makes a chunk first, or none, and takes its bytes from a block with room. -/
lemma alloc_cases (ha : a.Sound) (hroom : a.Room size) (h : a.alloc size = some (addr, a')) :
    ∃ new c i ch b, (new = [] ∨ ∃ m, padUp size a.alignment ≤ m ∧ new = [⟨[⟨0, m⟩], 0⟩]) ∧
      (∀ ch ∈ a.chunks ++ new, Llama.Sound ch.freeBlocks) ∧
      (a.chunks ++ new)[c]? = some ch ∧ ch.freeBlocks[i]? = some b ∧
      padUp size a.alignment ≤ b.size ∧
      a.takeAt (a.chunks ++ new) c i (padUp size a.alignment) = some (addr, a') := by
  obtain ⟨hpad, hlast⟩ := hroom
  unfold alloc at h
  simp only [alignedOffset_of_lt hpad] at h
  set n := padUp size a.alignment
  cases hfit : fit a.chunks n with
  | some f =>
    rw [hfit] at h
    obtain ⟨ch, b, hch, hb, hsize⟩ := fit_spec hfit
    refine ⟨[], f.1, f.2, ch, b, .inl rfl, ?_⟩
    rw [append_nil]
    exact ⟨ha.blocks, hch, hb, hsize, h⟩
  | none =>
    rw [hfit] at h
    simp only [ite_none_right_eq_some] at h
    obtain ⟨hlen, h⟩ := h
    set m := newChunkSize a.maxChunkSize a.chunks.length n with hm
    have hle : n ≤ m := by
      rw [hm, newChunkSize]
      split
      · rename_i hlen'
        exact hlast hfit hlen'
      · exact Nat.le_max_left _ _
    have hlt : m < 2 ^ 64 := by
      have hmax := ha.maxChunkSize_lt
      rw [hm, newChunkSize]
      split
      · decide
      · exact Nat.max_lt.mpr ⟨hpad, hmax⟩
    refine ⟨_, _, 0, ⟨[⟨0, m⟩], 0⟩, ⟨0, m⟩, .inr ⟨m, hle, rfl⟩, fun ch hch => ?_, by simp, rfl, hle,
      h⟩
    rcases mem_append.mp hch with hch | hch
    · exact ha.blocks ch hch
    · rw [mem_singleton.mp hch]
      exact ⟨by simpa using hlt, parted_singleton _⟩

/-- **An allocation with room takes free bytes, or bytes of a new chunk.** -/
theorem alloc_spec (ha : a.Sound) (hroom : a.Room size) (h : a.alloc size = some (addr, a')) :
    a.Allocated addr (padUp size a.alignment) a' := by
  obtain ⟨new, c, i, ch, b, hnew, hsound, hch, hb, hsize, h⟩ := alloc_cases ha hroom h
  refine takeAt_spec ha (prefix_append _ _) hsound hch hb hsize (dvd_padUp size ha.alignment_pos)
    (fun ht hpos ch hch => ?_) h
  rcases mem_append.mp hch with hch | hch
  · exact ht ch hch
  · rcases hnew with rfl | ⟨m, hle, rfl⟩
    · cases hch
    · rw [mem_singleton.mp hch]
      exact ⟨pairwise_singleton _ _, by simpa using hpos.trans_le hle, by simp⟩

/-- What freeing `size` bytes, padded, at `addr` does. -/
structure FreedAt (a : DynTallocr) (addr : BufferAddress) (size : ℕ) (a' : DynTallocr) : Prop where
  sound : a'.Sound
  alignment : a'.alignment = a.alignment
  length : a'.chunks.length = a.chunks.length
  free : ∀ c x, x ∈ space (a'.blocksAt c) ↔ x ∈ space (a.blocksAt c) ∨
    c = addr.chunk ∧ addr.offset ≤ x ∧ x < addr.offset + size
  maxSize : ∀ c, a'.maxSizeAt c = a.maxSizeAt c
  tidy : a.Tidy → 0 < size → a.alignment ∣ addr.offset → a'.Tidy

/-- **Freeing bytes that are not free adds them to the free bytes.** -/
theorem freeBytes_spec (ha : a.Sound) (hpad : padUp size a.alignment < 2 ^ 64)
    (hbound : addr.offset + padUp size a.alignment < 2 ^ 64)
    (hd : Disjoint (bytes addr.offset (padUp size a.alignment)).points
      (space (a.blocksAt addr.chunk)))
    (h : a.freeBytes addr size = some a') : a.FreedAt addr (padUp size a.alignment) a' := by
  unfold freeBytes at h
  simp only [alignedOffset_of_lt hpad] at h
  obtain ⟨ch, hch, h⟩ := bind_eq_some_iff.mp h
  obtain ⟨blocks, hgive, h⟩ := bind_eq_some_iff.mp h
  cases h
  have hfreed := giveBack_spec hgive
  have hmem : ch ∈ a.chunks := mem_of_getElem? hch
  have hc : addr.chunk < a.chunks.length := (List.getElem?_eq_some_iff.mp hch).1
  rw [blocksAt_of_getElem? hch] at hd
  obtain ⟨hsound, hspace⟩ := hfreed.sound (ha.blocks ch hmem) hbound hd
  set a' : DynTallocr :=
    { a with chunks := a.chunks.set addr.chunk { ch with freeBlocks := blocks } } with ha'
  have hself : a'.chunks[addr.chunk]? = some { ch with freeBlocks := blocks } :=
    getElem?_set_self hc
  have hother : ∀ c ≠ addr.chunk, a'.chunks[c]? = a.chunks[c]? := fun c hne =>
    getElem?_set_ne (Ne.symm hne)
  refine ⟨⟨ha.alignment_pos, ha.maxChunkSize_lt, fun ch' h' => ?_⟩, rfl, by simp [ha'],
    fun c x => ?_, fun c => ?_, fun ht hpos hk ch' h' => ?_⟩
  · rcases mem_or_eq_of_mem_set h' with h' | rfl
    · exact ha.blocks ch' h'
    · exact hsound
  · by_cases heq : c = addr.chunk
    · subst heq
      rw [blocksAt_of_getElem? hself, blocksAt_of_getElem? hch, hspace]
      simp
    · rw [blocksAt, blocksAt, hother c heq]
      simp [heq]
  · by_cases heq : c = addr.chunk
    · subst heq
      rw [maxSizeAt_of_getElem? hself, maxSizeAt_of_getElem? hch]
    · rw [maxSizeAt, maxSizeAt, hother c heq]
  · rcases mem_or_eq_of_mem_set h' with h' | rfl
    · exact ht ch' h'
    · exact hfreed.tidy (ha.blocks ch hmem) hbound hd (ht ch hmem) hpos hk

lemma sound_new (hk : 0 < k) (m : ℕ) : (new k m).Sound := by
  refine ⟨hk, ?_, by simp [new]⟩
  have hle := Nat.min_le_right m (sizeMax / 2)
  have hlt : sizeMax / 2 < 2 ^ 64 := by decide
  exact lt_of_le_of_lt hle hlt

end DynTallocr

/-! ## An allocator and its caller -/

/-- Bytes of a chunk. -/
structure Region where
  chunk : ℕ
  offset : ℕ
  size : ℕ
  deriving DecidableEq, Repr

/-- The bytes of a region, in its chunk. -/
def Region.extent (r : Region) : Extent ℕ := bytes r.offset r.size

/-- No byte lies in both regions. -/
def Region.Apart (r r' : Region) : Prop :=
  r.chunk = r'.chunk → Disjoint r.extent.points r'.extent.points

lemma Region.Apart.symm {r r' : Region} (h : r.Apart r') : r'.Apart r :=
  fun hc => (h hc.symm).symm

/-- An allocator with the regions that its caller holds, and every region ever allocated. -/
structure Plan where
  tallocr : DynTallocr
  live : List Region
  made : List Region
  deriving DecidableEq, Repr

/-- The calls: an allocation, or freeing bytes of the live region `r`. -/
inductive TallocrOp
  | alloc (size : ℕ)
  | freeBytes (r : Region) (addr : BufferAddress) (size : ℕ)

namespace Plan

variable {s s' : Plan} {r r' : Region}

/-- The plan before the first allocation. -/
def start (alignment maxBufferSize : ℕ) : Plan := ⟨.new alignment maxBufferSize, [], []⟩

/-- What is left of a region when its bytes from `offset` on are freed. -/
def remains (r : Region) (offset : ℕ) : List Region :=
  if offset = r.offset then [] else [⟨r.chunk, r.offset, offset - r.offset⟩]

/-- One call. -/
def step (s : Plan) : TallocrOp → Option Plan
  | .alloc size => (s.tallocr.alloc size).map fun res =>
    let r : Region := ⟨res.1.chunk, res.1.offset, padUp size s.tallocr.alignment⟩
    ⟨res.2, r :: s.live, r :: s.made⟩
  | .freeBytes r addr size => (s.tallocr.freeBytes addr size).map fun a =>
    ⟨a, remains r addr.offset ++ s.live.erase r, s.made⟩

/-- Sizes are positive, and each free matches a live region or the aligned tail of one. -/
def Matched (s : Plan) : TallocrOp → Prop
  | .alloc size => 0 < size ∧ size < 2 ^ 64
  | .freeBytes r addr size => r ∈ s.live ∧ 0 < size ∧ addr.chunk = r.chunk ∧
    r.offset ≤ addr.offset ∧ s.tallocr.alignment ∣ addr.offset ∧
    addr.offset + padUp size s.tallocr.alignment = r.offset + r.size

/-- An allocation has room. -/
def Fits (s : Plan) : TallocrOp → Prop
  | .alloc size => s.tallocr.Room size
  | .freeBytes _ _ _ => True

/-- Within each chunk the free blocks are sorted, disjoint and coalesced; live regions are
disjoint from each other and from the free blocks; offsets are aligned; and `max_size` is at
least the end of every region ever allocated. -/
structure Safe (s : Plan) : Prop where
  sorted : ∀ ch ∈ s.tallocr.chunks, ch.freeBlocks.Pairwise fun b b' => b.offset + b.size < b'.offset
  filled : ∀ ch ∈ s.tallocr.chunks, ∀ b ∈ ch.freeBlocks, 0 < b.size
  live : s.live.Pairwise Region.Apart
  free : ∀ r ∈ s.live, ∀ ch ∈ s.tallocr.chunks[r.chunk]?, ∀ b ∈ ch.freeBlocks,
    Disjoint r.extent.points b.extent.points
  aligned_blocks : ∀ ch ∈ s.tallocr.chunks, ∀ b ∈ ch.freeBlocks, s.tallocr.alignment ∣ b.offset
  aligned_live : ∀ r ∈ s.live, s.tallocr.alignment ∣ r.offset
  max_size : ∀ r ∈ s.made, ∃ ch, s.tallocr.chunks[r.chunk]? = some ch ∧
    r.offset + r.size ≤ ch.maxSize

/-! ## The invariant of the runs -/

/-- The invariant. -/
structure Inv (s : Plan) : Prop where
  sound : s.tallocr.Sound
  tidy : s.tallocr.Tidy
  apart : s.live.Pairwise Region.Apart
  free : ∀ r ∈ s.live, Disjoint r.extent.points (space (s.tallocr.blocksAt r.chunk))
  live : ∀ r ∈ s.live, 0 < r.size ∧ r.offset + r.size < 2 ^ 64 ∧ s.tallocr.alignment ∣ r.offset
  chunk_lt : ∀ r ∈ s.live, r.chunk < s.tallocr.chunks.length
  made : ∀ r ∈ s.made, r.chunk < s.tallocr.chunks.length ∧
    r.offset + r.size ≤ s.tallocr.maxSizeAt r.chunk

lemma inv_start (hk : 0 < k) (m : ℕ) : (start k m).Inv where
  sound := DynTallocr.sound_new hk m
  tidy := by simp [start, DynTallocr.Tidy, DynTallocr.new]
  apart := List.Pairwise.nil
  free := by simp [start]
  live := by simp [start]
  chunk_lt := by simp [start]
  made := by simp [start]

lemma Inv.safe (h : s.Inv) : s.Safe where
  sorted := by
    intro ch hch
    have hapart := (h.tidy ch hch).apart
    rw [Apart, extents, pairwise_map] at hapart
    exact hapart
  filled := fun ch hch => (h.tidy ch hch).filled
  live := h.apart
  free := by
    intro r hr ch hch b hb
    have hd := h.free r hr
    rw [DynTallocr.blocksAt_of_getElem? hch] at hd
    refine hd.mono_right fun x hx => ?_
    exact mem_space.mpr ⟨b, hb, hx⟩
  aligned_blocks := fun ch hch => (h.tidy ch hch).aligned
  aligned_live := fun r hr => (h.live r hr).2.2
  max_size := by
    intro r hr
    obtain ⟨hlt, hle⟩ := h.made r hr
    refine ⟨_, getElem?_eq_getElem hlt, ?_⟩
    rwa [DynTallocr.maxSizeAt_of_getElem? (getElem?_eq_getElem hlt)] at hle

lemma Inv.alloc (h : s.Inv) (hpos : 0 < size) (hroom : s.tallocr.Room size)
    (hs : s.step (.alloc size) = some s') : s'.Inv := by
  obtain ⟨⟨addr, a'⟩, halloc, rfl⟩ := map_eq_some_iff.mp hs
  have ha := DynTallocr.alloc_spec h.sound hroom halloc
  set n := padUp size s.tallocr.alignment
  set r : Region := ⟨addr.chunk, addr.offset, n⟩
  have hnpos : 0 < n := hpos.trans_le (le_padUp size _)
  obtain ⟨htidy, halign⟩ := ha.tidy h.tidy hnpos
  -- the bytes lie in a chunk that the caller holds nothing in, or they were free
  have hnew : ∀ r' ∈ s.live, r.Apart r' := by
    intro r' hr' hc
    refine Set.disjoint_left.mpr fun x hx hx' => ?_
    have hlt := h.chunk_lt r' hr'
    have hc : addr.chunk = r'.chunk := hc
    have hwas := ha.was_free (by rw [hc]; exact hlt) x hx.1 hx.2
    rw [hc] at hwas
    exact Set.disjoint_left.mp (h.free r' hr') hx' hwas
  refine ⟨ha.sound, htidy, pairwise_cons.mpr ⟨hnew, h.apart⟩, fun r' hr' => ?_,
    fun r' hr' => ?_, fun r' hr' => ?_, fun r' hr' => ?_⟩
  · refine Set.disjoint_left.mpr fun x hx hfree => ?_
    obtain ⟨hold, hout⟩ := ha.free _ x hfree
    rcases mem_cons.mp hr' with rfl | hr'
    · exact hout rfl hx
    · exact Set.disjoint_left.mp (h.free r' hr') hx (hold (h.chunk_lt r' hr'))
  · rcases mem_cons.mp hr' with rfl | hr'
    · refine ⟨hnpos, ha.bounded, ?_⟩
      rw [ha.alignment]
      exact halign
    · obtain ⟨h0, h1, h2⟩ := h.live r' hr'
      refine ⟨h0, h1, ?_⟩
      rw [ha.alignment]
      exact h2
  · rcases mem_cons.mp hr' with rfl | hr'
    · exact ha.chunk_lt
    · exact (h.chunk_lt r' hr').trans_le ha.length_le
  · rcases mem_cons.mp hr' with rfl | hr'
    · exact ⟨ha.chunk_lt, ha.le_maxSize⟩
    · obtain ⟨h0, h1⟩ := h.made r' hr'
      exact ⟨h0.trans_le ha.length_le, h1.trans (ha.maxSize_le _)⟩

/-- The live regions besides `r`. -/
lemma Inv.pairwise_erase (h : s.Inv) (hr : r ∈ s.live) :
    (∀ r' ∈ s.live.erase r, r.Apart r') ∧ (s.live.erase r).Pairwise Region.Apart :=
  pairwise_cons.mp (h.apart.perm (perm_cons_erase hr) Region.Apart.symm)

/-- What remains of a region are bytes of it before `offset`. -/
lemma mem_remains (hle : r.offset ≤ c) (hr' : r' ∈ remains r c) :
    r'.chunk = r.chunk ∧ r'.offset = r.offset ∧ r.offset + r'.size = c ∧ 0 < r'.size := by
  unfold remains at hr'
  split at hr'
  · simp at hr'
  · rw [mem_singleton] at hr'
    subst hr'
    exact ⟨rfl, rfl, by simp only; omega, by simp only; omega⟩

lemma Inv.freedAt (h : s.Inv) (hm : s.Matched (.freeBytes r addr size))
    (hs : s.step (.freeBytes r addr size) = some s') :
    ∃ a', s.tallocr.FreedAt addr (padUp size s.tallocr.alignment) a' ∧
      ⟨a', remains r addr.offset ++ s.live.erase r, s.made⟩ = s' := by
  obtain ⟨a', hfree, rfl⟩ := map_eq_some_iff.mp hs
  obtain ⟨hr, -, hchunk, hle, -, hend⟩ := hm
  have hlt := (h.live r hr).2.1
  have hd : Disjoint (bytes addr.offset (padUp size s.tallocr.alignment)).points
      (space (s.tallocr.blocksAt addr.chunk)) := by
    rw [hchunk]
    refine (h.free r hr).mono_left fun x hx => ?_
    exact ⟨hle.trans hx.1, hx.2.trans_le hend.le⟩
  exact ⟨a', DynTallocr.freeBytes_spec h.sound (by omega) (by omega) hd hfree, rfl⟩

lemma Inv.freeBytes (h : s.Inv) (hm : s.Matched (.freeBytes r addr size))
    (hs : s.step (.freeBytes r addr size) = some s') : s'.Inv := by
  obtain ⟨a', ha, rfl⟩ := h.freedAt hm hs
  obtain ⟨hr, hpos, hchunk, hle, hk, hend⟩ := hm
  obtain ⟨hrpos, hrlt, hralign⟩ := h.live r hr
  set n := padUp size s.tallocr.alignment
  have hnpos : 0 < n := hpos.trans_le (le_padUp size _)
  have hin : ∀ x, addr.offset ≤ x → x < addr.offset + n → x ∈ r.extent.points := fun x hlo hhi =>
    ⟨hle.trans hlo, by show x < r.offset + r.size; omega⟩
  obtain ⟨hothers, herase⟩ := h.pairwise_erase hr
  have hpart : ∀ r' ∈ remains r addr.offset, r'.chunk = r.chunk ∧
      ∀ x ∈ r'.extent.points, x ∈ r.extent.points ∧ x < addr.offset := by
    intro r' hr'
    obtain ⟨hc, ho, hsize, -⟩ := mem_remains hle hr'
    refine ⟨hc, fun x hx => ?_⟩
    simp only [Region.extent, mem_points, bytes_lo, bytes_hi] at hx ⊢
    omega
  have hpair : (remains r addr.offset).Pairwise Region.Apart := by
    unfold remains
    split
    · exact List.Pairwise.nil
    · exact pairwise_singleton _ _
  have hlive : ∀ r' ∈ remains r addr.offset ++ s.live.erase r,
      r' ∈ remains r addr.offset ∨ r' ∈ s.live ∧ r.Apart r' := fun r' hr' =>
    (mem_append.mp hr').imp_right fun hr' => ⟨mem_of_mem_erase hr', hothers r' hr'⟩
  refine ⟨ha.sound, ha.tidy h.tidy hnpos hk, pairwise_append.mpr ⟨hpair, herase, ?_⟩,
    fun r' hr' => ?_, fun r' hr' => ?_, fun r' hr' => ?_, fun r' hr' => ?_⟩
  · intro r1 h1 r2 h2 hc
    obtain ⟨hc1, hsub⟩ := hpart r1 h1
    exact (hothers r2 h2 (hc1.symm.trans hc)).mono_left fun x hx => (hsub x hx).1
  · refine Set.disjoint_left.mpr fun x hx hfree' => ?_
    rcases (ha.free _ x).mp hfree' with hold | ⟨hc, hlo, hhi⟩
    · rcases hlive r' hr' with hrem | ⟨hmem, -⟩
      · obtain ⟨hc, hsub⟩ := hpart r' hrem
        rw [hc] at hold
        exact Set.disjoint_left.mp (h.free r hr) (hsub x hx).1 hold
      · exact Set.disjoint_left.mp (h.free r' hmem) hx hold
    · rcases hlive r' hr' with hrem | ⟨-, hapart⟩
      · exact absurd ((hpart r' hrem).2 x hx).2 (Nat.not_lt.mpr hlo)
      · exact Set.disjoint_left.mp (hapart (by rw [hc, hchunk])) (hin x hlo hhi) hx
  · rw [ha.alignment]
    rcases hlive r' hr' with hrem | ⟨hmem, -⟩
    · obtain ⟨-, ho, hsize, hpos'⟩ := mem_remains hle hrem
      exact ⟨hpos', by omega, by rw [ho]; exact hralign⟩
    · exact h.live r' hmem
  · rw [ha.length]
    rcases hlive r' hr' with hrem | ⟨hmem, -⟩
    · rw [(hpart r' hrem).1]
      exact h.chunk_lt r hr
    · exact h.chunk_lt r' hmem
  · rw [ha.length, ha.maxSize]
    exact h.made r' hr'

/-- **Every plan is safe** in the runs in which the allocations have room. -/
theorem safe_of_reachable {m : ℕ} (hk : 0 < k)
    (h : Run.Reachable step (fun s op => s.Matched op ∧ s.Fits op) (start k m) s) : s.Safe := by
  refine (h.invariant (inv_start hk m) fun s op s' hinv hg hs => ?_).safe
  cases op with
  | alloc size => exact hinv.alloc hg.1.1 hg.2 hs
  | freeBytes r addr size => exact hinv.freeBytes hg.1 hs

/-- The tail of a live region is freed. -/
theorem safe_of_reachable_tail : ∃ s, Run.Reachable step (fun s op => s.Matched op ∧ s.Fits op)
    (start 32 1024) s ∧ s.live = [⟨0, 0, 32⟩] ∧ s.Safe := by
  have hroom : (start 32 1024).Fits (.alloc 100) := ⟨by decide, fun _ => by decide⟩
  have halloc : (start 32 1024).step (.alloc 100) =
      some ⟨⟨32, 1024, [⟨[⟨128, 896⟩], 128⟩]⟩, [⟨0, 0, 128⟩], [⟨0, 0, 128⟩]⟩ := by decide +kernel
  set s1 : Plan := ⟨⟨32, 1024, [⟨[⟨128, 896⟩], 128⟩]⟩, [⟨0, 0, 128⟩], [⟨0, 0, 128⟩]⟩
  have hfree : s1.step (.freeBytes ⟨0, 0, 128⟩ ⟨0, 32⟩ 90) =
      some ⟨⟨32, 1024, [⟨[⟨32, 992⟩], 128⟩]⟩, [⟨0, 0, 32⟩], [⟨0, 0, 128⟩]⟩ := by decide +kernel
  have hmatch : (start 32 1024).Matched (.alloc 100) := ⟨by decide, by decide⟩
  have hmatch1 : s1.Matched (.freeBytes ⟨0, 0, 128⟩ ⟨0, 32⟩ 90) :=
    ⟨by decide, by decide, rfl, by decide, by decide, by decide⟩
  have hreach : Run.Reachable step (fun s op => s.Matched op ∧ s.Fits op) (start 32 1024) s1 :=
    .step .init ⟨hmatch, hroom⟩ halloc
  have hreach2 := hreach.step ⟨hmatch1, trivial⟩ hfree
  exact ⟨_, hreach2, rfl, safe_of_reachable (by decide) hreach2⟩

/-- A size whose padding wraps takes no bytes: the next allocation lies at the same address. -/
theorem not_safe_wrapped : ∃ s, Run.Reachable step Matched (start 32 1024) s ∧
    s.live = [⟨0, 0, 64⟩, ⟨0, 0, 2 ^ 64⟩] ∧ ¬ s.Safe := by
  have hrun : (((start 32 1024).step (.alloc (2 ^ 64 - 1))).bind (step · (.alloc 64))).map live =
      some [⟨0, 0, 64⟩, ⟨0, 0, 2 ^ 64⟩] := by decide +kernel
  obtain ⟨s2, hrun, hlive⟩ := Option.map_eq_some_iff.mp hrun
  obtain ⟨s1, hs1, hs2⟩ := Option.bind_eq_some_iff.mp hrun
  have hmatch : (start 32 1024).Matched (.alloc (2 ^ 64 - 1)) := ⟨by decide, by decide⟩
  have hmatch1 : s1.Matched (.alloc 64) := ⟨by decide, by decide⟩
  refine ⟨s2, .step (.step .init hmatch hs1) hmatch1 hs2, hlive, fun hsafe => ?_⟩
  have hpair := hsafe.live
  rw [hlive, List.pairwise_cons] at hpair
  have hd := hpair.1 ⟨0, 0, 2 ^ 64⟩ (by simp) rfl
  have hin : (0 : ℕ) ∈ (Region.mk 0 0 64).extent.points := ⟨le_rfl, by decide⟩
  have hin' : (0 : ℕ) ∈ (Region.mk 0 0 (2 ^ 64)).extent.points := ⟨le_rfl, by decide⟩
  exact Set.disjoint_left.mp hd hin hin'

/-! ## No byte is lost -/

/-- The bytes of chunk `c` that are free or lie in a live region. -/
def held (s : Plan) (c : ℕ) : Set ℕ :=
  {x | x ∈ space (s.tallocr.blocksAt c) ∨ ∃ r ∈ s.live, r.chunk = c ∧ x ∈ r.extent.points}

lemma Inv.held_alloc (h : s.Inv) (hpos : 0 < size) (hroom : s.tallocr.Room size)
    (hs : s.step (.alloc size) = some s') (c : ℕ) :
    s'.held c = s.held c ∨ s.held c = ∅ ∧ ∃ n > 0, s'.held c = Set.Ico 0 n := by
  obtain ⟨⟨addr, a'⟩, halloc, rfl⟩ := map_eq_some_iff.mp hs
  obtain ⟨new, d, i, ch, b, hnew, hsound, hch, hb, hsize, htake⟩ :=
    DynTallocr.alloc_cases h.sound hroom halloc
  have htook := DynTallocr.mem_space_takeAt (hsound ch (mem_of_getElem? hch)) hch hb hsize htake c
  set r : Region := ⟨addr.chunk, addr.offset, padUp size s.tallocr.alignment⟩
  -- what was allocated was free before
  have hheld : held ⟨a', r :: s.live, r :: s.made⟩ c =
      held ⟨{ s.tallocr with chunks := s.tallocr.chunks ++ new }, s.live, s.made⟩ c := by
    ext x
    obtain ⟨hleft, htaken⟩ := htook x
    rw [held, Set.mem_ofPred_eq, hleft, exists_mem_cons_iff]
    by_cases hin : r.chunk = c ∧ x ∈ r.extent.points
    · exact iff_of_true (.inr (.inl hin)) (.inl (htaken hin.1.symm hin.2))
    · exact or_congr (and_iff_left fun h => hin ⟨h.1.symm, h.2⟩) (or_iff_right hin)
  rw [hheld]
  obtain rfl | ⟨m, hle, rfl⟩ := hnew
  · exact .inl (by rw [append_nil])
  by_cases hc : c = s.tallocr.chunks.length
  · have hspace : ∀ a, held ⟨a, s.live, s.made⟩ c = space (a.blocksAt c) := by
      refine fun a => Set.ext fun x => or_iff_left ?_
      rintro ⟨r, hr, hrc, -⟩
      exact (h.chunk_lt r hr).ne (hrc.trans hc)
    rw [hspace, hspace]
    refine .inr ⟨?_, m, (hpos.trans_le (le_padUp size _)).trans_le hle, ?_⟩ <;>
      simp [DynTallocr.blocksAt, hc, Set.ext_iff, mem_space]
  · have hget : (s.tallocr.chunks ++ [⟨[⟨0, m⟩], 0⟩])[c]? = s.tallocr.chunks[c]? := by grind
    exact .inl (by simp only [held, DynTallocr.blocksAt, hget])

lemma Inv.held_freeBytes (h : s.Inv) (hm : s.Matched (.freeBytes r addr size))
    (hs : s.step (.freeBytes r addr size) = some s') : s'.held = s.held := by
  obtain ⟨a', ha, rfl⟩ := h.freedAt hm hs
  obtain ⟨hr, -, hchunk, hle, -, hend⟩ := hm
  ext c x
  have hsplit : r.chunk = c ∧ x ∈ r.extent.points ↔
      (c = addr.chunk ∧ addr.offset ≤ x ∧ x < addr.offset + padUp size s.tallocr.alignment) ∨
        ∃ r' ∈ remains r addr.offset, r'.chunk = c ∧ x ∈ r'.extent.points := by
    unfold remains
    split <;> simp [Region.extent] <;> omega
  have hmem : ∀ r', r' ∈ s.live ↔ r' ∈ r :: s.live.erase r := fun _ => (perm_cons_erase hr).mem_iff
  simp only [held, Set.mem_ofPred_eq, ha.free, hmem, exists_mem_cons_iff, hsplit, mem_append,
    or_and_right, exists_or]
  exact iff_of_eq (by ac_rfl)

/-- A call keeps the bytes of a chunk, or makes a chunk of some first bytes. -/
lemma Inv.held_step {op : TallocrOp} (h : s.Inv) (hg : s.Matched op ∧ s.Fits op)
    (hs : s.step op = some s') : s'.Inv ∧ ∀ c,
      s'.held c = s.held c ∨ s.held c = ∅ ∧ ∃ n > 0, s'.held c = Set.Ico 0 n := by
  cases op with
  | alloc size => exact ⟨h.alloc hg.1.1 hg.2 hs, h.held_alloc hg.1.1 hg.2 hs⟩
  | freeBytes r addr size =>
    exact ⟨h.freeBytes hg.1 hs, fun c => .inl (congrFun (h.held_freeBytes hg.1 hs) c)⟩

/-- All bytes are one free block when no region is live. -/
lemma Inv.blocksAt_of_held {n : ℕ} (h : s.Inv) (hpos : 0 < n) (hheld : s.held c = Set.Ico 0 n)
    (hlive : s.live = []) : s.tallocr.blocksAt c = [⟨0, n⟩] := by
  have hspace : space (s.tallocr.blocksAt c) = Set.Ico 0 n := by simpa [held, hlive] using hheld
  rw [DynTallocr.blocksAt] at hspace ⊢
  cases hch : s.tallocr.chunks[c]? with
  | none =>
    rw [hch] at hspace
    simpa [mem_space] using hspace.superset ⟨le_rfl, hpos⟩
  | some ch =>
    rw [hch] at hspace
    have htidy := h.tidy ch (mem_of_getElem? hch)
    have hone := htidy.apart.eq_singleton htidy.filled_extents hpos hspace
    obtain ⟨⟨offset, size⟩, hblocks, hb⟩ := map_eq_singleton_iff.mp hone
    obtain ⟨rfl, rfl⟩ := Extent.mk.inj hb
    exact hblocks.trans (by rw [Nat.zero_add])

/-- **No byte is lost**: the free bytes and the live regions of a chunk are together the same
first bytes of it throughout a run, and one free block when no region is live. -/
theorem held_of_reachable {m : ℕ} (hk : 0 < k)
    (h : Run.Reachable step (fun s op => s.Matched op ∧ s.Fits op) (start k m) s)
    (hx : x ∈ s.held c) : ∃ n > x, ∀ s',
      Run.Reachable step (fun s op => s.Matched op ∧ s.Fits op) s s' →
        s'.held c = Set.Ico 0 n ∧ (s'.live = [] → s'.tallocr.blocksAt c = [⟨0, n⟩]) := by
  have hstart : (start k m).held c = ∅ := by
    simp [held, start, DynTallocr.new, DynTallocr.blocksAt, mem_space]
  obtain ⟨hinv, hn⟩ := h.invariant (I := fun s => s.Inv ∧ (s.held c = ∅ ∨
    ∃ n > 0, s.held c = Set.Ico 0 n)) ⟨inv_start hk m, .inl hstart⟩
    fun s op s' hs hg hstep => by
      obtain ⟨hinv, hheld⟩ := hs.1.held_step hg hstep
      rcases hheld c with hheld | ⟨-, hheld⟩
      · exact ⟨hinv, hheld ▸ hs.2⟩
      · exact ⟨hinv, .inr hheld⟩
  obtain hn | ⟨n, hpos, hn⟩ := hn
  · simp [hn] at hx
  refine ⟨n, (hn ▸ hx).2, fun s' h' => ?_⟩
  obtain ⟨hinv, hn⟩ := h'.invariant (I := fun s => s.Inv ∧ s.held c = Set.Ico 0 n) ⟨hinv, hn⟩
    fun s op s' hs hg hstep => by
      obtain ⟨hinv, hheld⟩ := hs.1.held_step hg hstep
      rcases hheld c with hheld | ⟨hheld, -⟩
      · exact ⟨hinv, hheld.trans hs.2⟩
      · exact absurd (hs.2 ▸ ⟨le_rfl, hpos⟩ : 0 ∈ s.held c) (by simp [hheld])
  exact ⟨hn, hinv.blocksAt_of_held hpos hn⟩

theorem held_of_reachable_alloc : ∃ n > 0, ∀ s', Run.Reachable step
    (fun s op => s.Matched op ∧ s.Fits op)
    ⟨⟨32, 1024, [⟨[⟨128, 896⟩], 128⟩]⟩, [⟨0, 0, 128⟩], [⟨0, 0, 128⟩]⟩ s' →
      s'.held 0 = Set.Ico 0 n ∧ (s'.live = [] → s'.tallocr.blocksAt 0 = [⟨0, n⟩]) :=
  have hgood : (start 32 1024).Matched (.alloc 100) ∧ (start 32 1024).Fits (.alloc 100) :=
    ⟨⟨by decide, by decide⟩, by decide, fun _ => by decide⟩
  held_of_reachable (by decide) (.step .init hgood (by decide +kernel))
    (.inr ⟨_, mem_singleton_self _, rfl, le_rfl, by decide⟩)

end Plan
end Llama
