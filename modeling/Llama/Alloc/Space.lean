import Llama.Alloc
import Llama.Lib.Extents

/-!
# The free space of a chunk

The free blocks of a chunk are extents of bytes.  As long as their ends are sizes and no byte
lies in two of them, an allocation takes its bytes out of the free space and freeing puts them
back: this is all that `take_spec` and `free_spec` need, for any sizes.  For positive sizes
the blocks also stay sorted, with a gap between any two of them, and aligned.
-/

namespace Llama

open Extent List

/-- The bytes of a free block. -/
def FreeBlock.extent (b : FreeBlock) : Extent ℕ := ⟨b.offset, b.offset + b.size⟩

@[simp] lemma FreeBlock.extent_lo (b : FreeBlock) : b.extent.lo = b.offset := rfl

@[simp] lemma FreeBlock.extent_hi (b : FreeBlock) : b.extent.hi = b.offset + b.size := rfl

variable {ch : TallocrChunk} {blocks pre post : List FreeBlock} {b : FreeBlock}
  {i k offset size x : ℕ}

/-- The extents of a list of blocks. -/
def extents (blocks : List FreeBlock) : List (Extent ℕ) := blocks.map FreeBlock.extent

@[simp] lemma extents_cons (b : FreeBlock) (post : List FreeBlock) :
    extents (b :: post) = b.extent :: extents post := rfl

@[simp] lemma extents_append (pre post : List FreeBlock) :
    extents (pre ++ post) = extents pre ++ extents post := map_append

lemma mem_extents {e : Extent ℕ} : e ∈ extents blocks ↔ ∃ b ∈ blocks, b.extent = e :=
  mem_map

lemma forall_middle {P : FreeBlock → Prop} :
    (∀ c ∈ pre ++ b :: post, P c) ↔ P b ∧ ∀ c ∈ pre ++ post, P c := by
  simp only [mem_append]
  grind

/-- The free blocks end at a `size_t`, and no byte lies in two of them. -/
structure Sound (blocks : List FreeBlock) : Prop where
  bounded : ∀ b ∈ blocks, b.offset + b.size < 2 ^ 64
  parted : Parted (extents blocks)

/-- The free blocks are sorted with gaps between them, not empty, and start at multiples of the
alignment `k`. -/
structure Tidy (k : ℕ) (blocks : List FreeBlock) : Prop where
  apart : Apart (extents blocks)
  filled : ∀ b ∈ blocks, 0 < b.size
  aligned : ∀ b ∈ blocks, k ∣ b.offset

/-- The free bytes. -/
def space (blocks : List FreeBlock) : Set ℕ := covered (extents blocks)

lemma mem_space : x ∈ space blocks ↔ ∃ b ∈ blocks, b.offset ≤ x ∧ x < b.offset + b.size := by
  simp only [space, mem_covered, mem_extents]
  constructor
  · rintro ⟨e, ⟨b, hb, rfl⟩, hx⟩
    exact ⟨b, hb, hx⟩
  · rintro ⟨b, hb, hx⟩
    exact ⟨_, ⟨b, hb, rfl⟩, hx⟩

lemma Sound.stop_eq (h : Sound blocks) (hb : b ∈ blocks) : b.stop = b.offset + b.size :=
  addSize_of_lt (h.bounded b hb)

lemma Tidy.filled_extents (h : Tidy k blocks) : Filled (extents blocks) := by
  intro e he
  obtain ⟨b, hb, rfl⟩ := mem_extents.mp he
  exact Nat.lt_add_of_pos_right (h.filled b hb)

/-- What is left of the blocks when `size` bytes are taken from the front of `b`. -/
def leftOver (pre : List FreeBlock) (b : FreeBlock) (post : List FreeBlock) (size : ℕ) :
    List FreeBlock :=
  if b.size = size then pre ++ post else pre ++ ⟨b.offset + size, b.size - size⟩ :: post

lemma TallocrChunk.take_freeBlocks (h : Sound ch.freeBlocks)
    (hch : ch.freeBlocks = pre ++ b :: post) (hi : pre.length = i) (hsize : size ≤ b.size) :
    (ch.take i b size).freeBlocks = leftOver pre b post size := by
  have hb : b ∈ ch.freeBlocks := by simp [hch]
  have hbound := h.bounded b hb
  have hsub : subSize b.size size = b.size - size := subSize_of_le hsize (by omega)
  have hadd : addSize b.offset size = b.offset + size := addSize_of_lt (by omega)
  subst hi
  simp only [TallocrChunk.take, hsub, hadd, removeBlock, hch, leftOver]
  by_cases heq : b.size = size
  · rw [if_pos (by omega), if_pos heq, eraseIdx_append_of_length_le le_rfl]
    simp
  · rw [if_neg (by omega), if_neg heq]
    simp

lemma Sound.take (h : Sound (pre ++ b :: post)) (hsize : size ≤ b.size) :
    Sound (leftOver pre b post size) ∧ ∀ x, x ∈ space (leftOver pre b post size) ↔
        x ∈ space (pre ++ b :: post) ∧ ¬ (b.offset ≤ x ∧ x < b.offset + size) := by
  obtain ⟨hbound, hparted⟩ := h
  rw [extents_append, extents_cons] at hparted
  unfold leftOver
  by_cases heq : b.size = size
  · subst heq
    rw [if_pos rfl]
    obtain ⟨hp, hx⟩ := hparted.erase
    exact ⟨⟨(forall_middle.mp hbound).2, by simpa using hp⟩, fun x => by simpa [space] using hx x⟩
  · rw [if_neg heq]
    have hlast : b.offset + size + (b.size - size) = b.offset + b.size := by omega
    set rest : FreeBlock := ⟨b.offset + size, b.size - size⟩ with hrest
    have hlo : rest.extent.lo = b.offset + size := rfl
    have hhi : rest.extent.hi = b.offset + b.size := hlast
    have hwhole : (⟨b.offset, rest.extent.hi⟩ : Extent ℕ) = b.extent := by rw [hhi]; rfl
    rw [← hwhole] at hparted
    obtain ⟨hp, hx⟩ := Parted.take (a := ⟨b.offset, b.offset + size⟩) (b := rest.extent)
      hparted hlo.symm (Nat.le_add_right ..) (by omega)
    obtain ⟨hb, hothers⟩ := forall_middle.mp hbound
    refine ⟨⟨forall_middle.mpr ⟨?_, hothers⟩, by simpa using hp⟩, fun x => ?_⟩
    · rw [← hlast] at hb
      exact hb
    · have hx := hx x
      rw [hwhole] at hx
      simpa [space] using hx

lemma Tidy.take (h : Tidy k (pre ++ b :: post)) (hsize : size ≤ b.size) (hk : k ∣ size) :
    Tidy k (leftOver pre b post size) := by
  obtain ⟨hapart, hfilled, haligned⟩ := h
  rw [extents_append, extents_cons] at hapart
  unfold leftOver
  by_cases heq : b.size = size
  · rw [if_pos heq]
    exact ⟨by simpa using hapart.erase, (forall_middle.mp hfilled).2, (forall_middle.mp haligned).2⟩
  · rw [if_neg heq]
    have hlast : b.offset + size + (b.size - size) = b.offset + b.size := by omega
    obtain ⟨hb, hothers⟩ := forall_middle.mp haligned
    refine ⟨?_, forall_middle.mpr ⟨?_, (forall_middle.mp hfilled).2⟩,
      forall_middle.mpr ⟨Nat.dvd_add hb hk, hothers⟩⟩
    · have := hapart.narrow (Nat.le_add_right b.offset size)
      simpa [FreeBlock.extent, hlast] using this
    · show 0 < b.size - size
      omega

/-! ## Giving bytes back -/

/-- What freeing `size` bytes at `offset` can do to the blocks. -/
inductive Freed (offset size : ℕ) (blocks : List FreeBlock) : List FreeBlock → Prop
  /-- The bytes lie behind a block and do not reach the next one. -/
  | behind {pre post : List FreeBlock} {b : FreeBlock} (hblocks : blocks = pre ++ b :: post)
      (hb : b.stop = offset)
      (hnext : ∀ n ∈ post.head?, (FreeBlock.mk b.offset (addSize b.size size)).stop ≠ n.offset) :
      Freed offset size blocks (pre ++ ⟨b.offset, addSize b.size size⟩ :: post)
  /-- The bytes fill the gap between two blocks. -/
  | between {pre post : List FreeBlock} {b n : FreeBlock} (hblocks : blocks = pre ++ b :: n :: post)
      (hb : b.stop = offset)
      (hn : (FreeBlock.mk b.offset (addSize b.size size)).stop = n.offset) :
      Freed offset size blocks
        (pre ++ ⟨b.offset, addSize (addSize b.size size) n.size⟩ :: post)
  /-- The bytes lie before a block and behind none. -/
  | before {pre post : List FreeBlock} {b : FreeBlock} (hblocks : blocks = pre ++ b :: post)
      (hb : addSize offset size = b.offset) (hprev : ∀ c ∈ pre, c.stop ≠ offset) :
      Freed offset size blocks (pre ++ ⟨offset, addSize b.size size⟩ :: post)
  /-- The bytes touch no block. -/
  | apart {pre post : List FreeBlock} (hblocks : blocks = pre ++ post)
      (htouch : ∀ c ∈ blocks, c.stop ≠ offset ∧ addSize offset size ≠ c.offset)
      (hpre : ∀ c ∈ pre, c.offset < offset) (hpost : ∀ c ∈ post.head?, offset ≤ c.offset) :
      Freed offset size blocks (pre ++ ⟨offset, size⟩ :: post)

/-- The loop stops at the first block that the bytes touch.  Its test for a block in front of
one that starts behind the bytes never succeeds: the loop would have stopped there. -/
lemma mergeBlock_spec (offset size : ℕ) : ∀ (post pre : List FreeBlock),
    (∀ c ∈ pre, c.stop ≠ offset ∧ addSize offset size ≠ c.offset) →
      (∀ blocks, mergeBlock offset size pre post = some blocks →
        Freed offset size (pre ++ post) blocks) ∧
      (mergeBlock offset size pre post = none →
        ∀ c ∈ pre ++ post, c.stop ≠ offset ∧ addSize offset size ≠ c.offset) := by
  intro post
  induction post with
  | nil =>
    intro pre hpre
    refine ⟨fun blocks h => by simp [mergeBlock] at h, fun _ => by simpa using hpre⟩
  | cons b post ih =>
    intro pre hpre
    unfold mergeBlock
    by_cases hb : b.stop = offset
    · rw [if_pos hb]
      refine ⟨fun blocks h => ?_, fun h => ?_⟩
      · cases post with
        | nil =>
          cases h
          exact .behind rfl hb (by simp)
        | cons n post =>
          simp only at h
          split at h
          · rename_i hn
            cases h
            exact .between rfl hb hn
          · rename_i hn
            cases h
            exact .behind rfl hb (by simpa using hn)
      · cases post <;> simp only [reduceCtorEq] at h
        split at h <;> cases h
    · rw [if_neg hb]
      by_cases hb' : addSize offset size = b.offset
      · rw [if_pos hb']
        have hprev : ∀ c ∈ pre, c.stop ≠ offset := fun c hc => (hpre c hc).1
        have hkeep : Freed offset size (pre ++ b :: post)
            (pre ++ ⟨offset, addSize b.size size⟩ :: post) := .before rfl hb' hprev
        cases hlast : pre.getLast? with
        | none => exact ⟨fun blocks h => by cases h; exact hkeep, fun h => by cases h⟩
        | some prev =>
          have hne := hprev prev (mem_of_getLast? hlast)
          simp only
          rw [if_neg hne]
          exact ⟨fun blocks h => by cases h; exact hkeep, fun h => by cases h⟩
      · rw [if_neg hb']
        have hpre' : ∀ c ∈ pre ++ [b], c.stop ≠ offset ∧ addSize offset size ≠ c.offset := by
          intro c hc
          rcases mem_append.mp hc with hc | hc
          · exact hpre c hc
          · rw [mem_singleton.mp hc]
            exact ⟨hb, hb'⟩
        have hsplit : pre ++ b :: post = pre ++ [b] ++ post := by simp
        rw [hsplit]
        exact ih _ hpre'

lemma insertBlock_spec {blocks' : List FreeBlock}
    (htouch : ∀ c ∈ blocks, c.stop ≠ offset ∧ addSize offset size ≠ c.offset)
    (h : insertBlock blocks offset size = some blocks') : Freed offset size blocks blocks' := by
  unfold insertBlock at h
  split at h
  · cases h
    refine .apart takeWhile_append_dropWhile.symm htouch (fun c hc => ?_) fun c hc => ?_
    · simpa using mem_takeWhile_imp hc
    · have := head?_dropWhile_not (fun b : FreeBlock => decide (b.offset < offset)) blocks
      rw [Option.mem_def.mp hc] at this
      simpa using this
  · cases h

lemma giveBack_spec {blocks' : List FreeBlock} (h : giveBack blocks offset size = some blocks') :
    Freed offset size blocks blocks' := by
  obtain ⟨hsome, hnone⟩ := mergeBlock_spec offset size blocks [] (by simp)
  unfold giveBack at h
  cases hm : mergeBlock offset size [] blocks with
  | some merged =>
    rw [hm] at h
    cases h
    exact hsome _ hm
  | none =>
    rw [hm] at h
    exact insertBlock_spec (hnone hm) h

/-- The bytes that are given back. -/
def bytes (offset size : ℕ) : Extent ℕ := ⟨offset, offset + size⟩

@[simp] lemma bytes_lo : (bytes offset size).lo = offset := rfl

@[simp] lemma bytes_hi : (bytes offset size).hi = offset + size := rfl

section

variable {blocks' : List FreeBlock} (hf : Freed offset size blocks blocks') (h : Sound blocks)
  (hbound : offset + size < 2 ^ 64) (hd : Disjoint (bytes offset size).points (space blocks))
include hf h hbound hd

/-- **Freeing adds the bytes to the free space.** -/
theorem Freed.sound : Sound blocks' ∧
    ∀ x, x ∈ space blocks' ↔ x ∈ space blocks ∨ offset ≤ x ∧ x < offset + size := by
  have hadd : addSize offset size = offset + size := addSize_of_lt hbound
  cases hf with
  | @behind pre post b hblocks hb hnext =>
    subst hblocks
    rw [h.stop_eq (by simp)] at hb
    have hsum : addSize b.size size = b.size + size := addSize_of_lt (by omega)
    obtain ⟨hlt, hparted⟩ := h
    rw [extents_append, extents_cons] at hparted
    rw [space, extents_append] at hd
    obtain ⟨hp, hx⟩ := hparted.extend (e := (FreeBlock.mk b.offset (b.size + size)).extent) hd
      fun x => by simp only [mem_points, bytes, FreeBlock.extent]; omega
    rw [hsum]
    refine ⟨⟨forall_middle.mpr ⟨?_, (forall_middle.mp hlt).2⟩, by simpa using hp⟩,
      fun x => by simpa [space] using hx x⟩
    show b.offset + (b.size + size) < 2 ^ 64
    omega
  | @between pre post b n hblocks hb hn =>
    subst hblocks
    rw [h.stop_eq (by simp)] at hb
    have hsum : addSize b.size size = b.size + size := addSize_of_lt (by omega)
    obtain ⟨hlt, hparted⟩ := h
    have hbn := hlt n (by simp)
    rw [hsum] at hn ⊢
    have hn' : b.offset + (b.size + size) = n.offset := by
      rw [← hn]
      exact (addSize_of_lt (by omega)).symm
    have hsum' : addSize (b.size + size) n.size = b.size + size + n.size :=
      addSize_of_lt (by omega)
    rw [hsum']
    rw [extents_append, extents_cons] at hparted
    rw [space, extents_append] at hd
    -- the bytes are joined to the block before them, then the next block to both
    obtain ⟨hp, hx⟩ := hparted.extend (e := (FreeBlock.mk b.offset (b.size + size)).extent) hd
      fun x => by simp only [mem_points, bytes, FreeBlock.extent]; omega
    rw [extents_cons] at hp
    obtain ⟨hp', hx'⟩ := hp.join (e := (FreeBlock.mk b.offset (b.size + size + n.size)).extent)
      fun x => by simp only [mem_points, FreeBlock.extent]; omega
    refine ⟨⟨forall_middle.mpr ⟨?_, ?_⟩, by simpa using hp'⟩,
      fun x => by simpa [space] using (hx' x).trans (hx x)⟩
    · show b.offset + (b.size + size + n.size) < 2 ^ 64
      omega
    · exact (forall_middle.mp (forall_middle.mp hlt).2).2
  | @before pre post b hblocks hb hprev =>
    subst hblocks
    obtain ⟨hlt, hparted⟩ := h
    have hbb := hlt b (by simp)
    have hsum : addSize b.size size = b.size + size := addSize_of_lt (by omega)
    rw [extents_append, extents_cons] at hparted
    rw [space, extents_append] at hd
    obtain ⟨hp, hx⟩ := hparted.extend (e := (FreeBlock.mk offset (b.size + size)).extent) hd
      fun x => by simp only [mem_points, bytes, FreeBlock.extent]; omega
    rw [hsum]
    refine ⟨⟨forall_middle.mpr ⟨?_, (forall_middle.mp hlt).2⟩, by simpa using hp⟩,
      fun x => by simpa [space] using hx x⟩
    show offset + (b.size + size) < 2 ^ 64
    omega
  | @apart pre post hblocks htouch hpre hpost =>
    subst hblocks
    obtain ⟨hlt, hparted⟩ := h
    rw [extents_append] at hparted
    rw [space, extents_append] at hd
    obtain ⟨hp, hx⟩ := hparted.insert (r := bytes offset size) hd
    exact ⟨⟨forall_middle.mpr ⟨hbound, hlt⟩, by simpa [bytes, FreeBlock.extent] using hp⟩,
      fun x => by simpa [space, bytes, FreeBlock.extent] using hx x⟩

/-- **Freeing keeps the blocks sorted, apart and aligned.** -/
theorem Freed.tidy (ht : Tidy k blocks) (hpos : 0 < size) (hk : k ∣ offset) : Tidy k blocks' := by
  have hadd : addSize offset size = offset + size := addSize_of_lt hbound
  have hr : (bytes offset size).lo < (bytes offset size).hi := by simp [hpos]
  have hfilled := ht.filled_extents
  have hlt := h.bounded
  obtain ⟨hapart, hfill, haligned⟩ := ht
  cases hf with
  | @behind pre post b hblocks hb hnext =>
    subst hblocks
    rw [h.stop_eq (by simp)] at hb
    have hsum : addSize b.size size = b.size + size := addSize_of_lt (by omega)
    have hstop : addSize b.offset (b.size + size) = offset + size := by
      rw [← hb, Nat.add_assoc]
      exact addSize_of_lt (by omega)
    rw [hsum] at hnext ⊢
    rw [extents_append, extents_cons] at hapart hfilled
    rw [space, extents_append, extents_cons] at hd
    have hnext' : ∀ n ∈ (extents post).head?, (bytes offset size).hi ≠ n.lo := by
      intro e he
      rw [extents, head?_map, Option.mem_map] at he
      obtain ⟨n, hn, rfl⟩ := he
      rw [bytes_hi, ← hstop]
      exact hnext n hn
    have hjoin := hapart.extend_hi hfilled hr hd hb hnext'
    refine ⟨?_, forall_middle.mpr ⟨?_, (forall_middle.mp hfill).2⟩,
      forall_middle.mpr ⟨(forall_middle.mp haligned).1, (forall_middle.mp haligned).2⟩⟩
    · rw [bytes_hi, ← hb, Nat.add_assoc] at hjoin
      simpa [FreeBlock.extent] using hjoin
    · show 0 < b.size + size
      omega
  | @between pre post b n hblocks hb hn =>
    subst hblocks
    rw [h.stop_eq (by simp)] at hb
    have hbn := hlt n (by simp)
    have hsum : addSize b.size size = b.size + size := addSize_of_lt (by omega)
    rw [hsum] at hn ⊢
    have hn' : b.offset + (b.size + size) = n.offset := by
      rw [← hn]
      exact (addSize_of_lt (by omega)).symm
    have hsum' : addSize (b.size + size) n.size = b.size + size + n.size :=
      addSize_of_lt (by omega)
    rw [hsum']
    rw [extents_append, extents_cons, extents_cons] at hapart
    have hend : b.offset + (b.size + size + n.size) = n.offset + n.size := by omega
    refine ⟨?_, forall_middle.mpr ⟨?_, (forall_middle.mp (forall_middle.mp hfill).2).2⟩,
      forall_middle.mpr ⟨(forall_middle.mp haligned).1,
        (forall_middle.mp (forall_middle.mp haligned).2).2⟩⟩
    · simpa [FreeBlock.extent, hend] using hapart.join
    · show 0 < b.size + size + n.size
      omega
  | @before pre post b hblocks hb hprev =>
    subst hblocks
    have hbb := hlt b (by simp)
    have hsum : addSize b.size size = b.size + size := addSize_of_lt (by omega)
    rw [hadd] at hb
    rw [hsum]
    rw [extents_append, extents_cons] at hapart hfilled
    rw [space, extents_append, extents_cons] at hd
    have hprev' : ∀ c ∈ extents pre, c.hi ≠ (bytes offset size).lo := by
      intro e he
      obtain ⟨c, hc, rfl⟩ := mem_extents.mp he
      have hne := hprev c hc
      rwa [h.stop_eq (by simp [hc])] at hne
    have hjoin := hapart.extend_lo hfilled hr hd hb hprev'
    have hend : b.offset + b.size = offset + (b.size + size) := by omega
    refine ⟨?_, forall_middle.mpr ⟨?_, (forall_middle.mp hfill).2⟩,
      forall_middle.mpr ⟨hk, (forall_middle.mp haligned).2⟩⟩
    · simpa [FreeBlock.extent, hend] using hjoin
    · show 0 < b.size + size
      omega
  | @apart pre post hblocks htouch hpre hpost =>
    subst hblocks
    rw [extents_append] at hapart hfilled
    rw [space, extents_append] at hd
    have hpre' : ∀ e ∈ extents pre, e.lo < (bytes offset size).lo := by
      intro e he
      obtain ⟨c, hc, rfl⟩ := mem_extents.mp he
      exact hpre c hc
    have hpost' : ∀ e ∈ (extents post).head?, (bytes offset size).lo ≤ e.lo := by
      intro e he
      rw [extents, head?_map, Option.mem_map] at he
      obtain ⟨c, hc, rfl⟩ := he
      exact hpost c hc
    have htouch' : ∀ e ∈ extents pre ++ extents post,
        e.hi ≠ (bytes offset size).lo ∧ (bytes offset size).hi ≠ e.lo := by
      intro e he
      rw [← extents_append] at he
      obtain ⟨c, hc, rfl⟩ := mem_extents.mp he
      have hne := htouch c hc
      rwa [h.stop_eq hc, hadd] at hne
    have hins := hapart.insert hfilled hr hd hpre' hpost' htouch'
    exact ⟨by simpa [bytes, FreeBlock.extent] using hins, forall_middle.mpr ⟨hpos, hfill⟩,
      forall_middle.mpr ⟨hk, haligned⟩⟩

end

end Llama
