import Llama.Batch.Accepted
import Llama.KvCache.Slot
import Mathlib.Tactic.Linarith

/-!
# What `find_slot` returns

The search visits each cell of a stream at most once: it runs from the start index to the
end and then from 0 up to the start index.  So the cells it collects are distinct, usable,
and as many as asked for (`searchStream_spec`).
-/

namespace Llama.KvCache

open List

/-! ## The loop over the cells -/

/-- A search that need not be contiguous tests one cell a round. -/
lemma testCells_one (p : KvParams) (c : KvCells) (head tested : ℕ) (idxs : List ℕ) :
    testCells p c false 1 head tested idxs =
      (head + 1, tested + 1, if canUse p c head then idxs ++ [head] else idxs) := by
  by_cases h : canUse p c head = true
  · simp [testCells, h]
  · simp [testCells, h]

/-- Distinct usable cells. -/
structure UsableCells (p : KvParams) (c : KvCells) (idxs : List ℕ) : Prop where
  nodup : idxs.Nodup
  lt_size : ∀ i ∈ idxs, i < c.size
  usable : ∀ i ∈ idxs, canUse p c i = true

variable {c : KvCells} {idxs : List ℕ} {start tested nTokens : ℕ} {kv : KvCache} {si : SlotInfo}
  {t : ℕ × ℕ}

lemma UsableCells.snoc {p : KvParams} (h : UsableCells p c idxs) {i : ℕ} (hi : i < c.size)
    (hnot : i ∉ idxs) (huse : canUse p c i = true) :
    UsableCells p c (idxs ++ [i]) where
  nodup := by
    rw [nodup_append]
    refine ⟨h.nodup, nodup_singleton _, fun a ha b hb => ?_⟩
    rw [mem_singleton] at hb
    rintro rfl
    exact hnot (hb ▸ ha)
  lt_size := by
    intro j hj
    rcases mem_append.mp hj with hj | hj
    · exact h.lt_size j hj
    · exact mem_singleton.mp hj ▸ hi
  usable := by
    intro j hj
    rcases mem_append.mp hj with hj | hj
    · exact h.usable j hj
    · exact mem_singleton.mp hj ▸ huse

/-- The cells visited since the search started at `start`: those up to the head, or, once
the search has wrapped around, those from the start on and those below the head. -/
structure Visited (c : KvCells) (start head tested : ℕ) (idxs : List ℕ) : Prop where
  start_le : start ≤ c.size
  tested_lt : tested < c.size
  place : (tested + start = head ∧ head ≤ c.size ∧ ∀ i ∈ idxs, start ≤ i ∧ i < head) ∨
    (tested + start = c.size + head ∧ ∀ i ∈ idxs, start ≤ i ∨ i < head)

/-- The head is never beyond the last cell. -/
lemma Visited.head_le {head : ℕ} (h : Visited c start head tested idxs) : head ≤ c.size := by
  have h1 := h.start_le
  have h2 := h.tested_lt
  rcases h.place with ⟨-, h3, -⟩ | ⟨h3, -⟩
  · exact h3
  · omega

/-- The cell at the head has not been visited. -/
lemma Visited.head_notMem {head : ℕ} (h : Visited c start head tested idxs) : head ∉ idxs := by
  intro hmem
  have h2 := h.tested_lt
  rcases h.place with ⟨-, -, h3⟩ | ⟨h3, h4⟩
  · have := (h3 _ hmem).2
    omega
  · rcases h4 _ hmem with h5 | h5 <;> omega

/-- Wrapping around. -/
lemma Visited.wrap {head : ℕ} (h : Visited c start head tested idxs) (hwrap : c.size < head + 1) :
    Visited c start 0 (tested + (c.size - head)) idxs := by
  have h1 := h.start_le
  have h2 := h.tested_lt
  have h3 := h.head_le
  rcases h.place with ⟨h4, -, h5⟩ | ⟨h4, -⟩
  · exact ⟨h1, by omega, .inr ⟨by omega, fun i hi => .inl (h5 i hi).1⟩⟩
  · omega

/-- Testing the cell at the head. -/
lemma Visited.test {head : ℕ} {idxs' : List ℕ} (h : Visited c start head tested idxs)
    (hhead : head < c.size) (hlt : tested + 1 < c.size) (hsub : ∀ i ∈ idxs', i ∈ idxs ∨ i = head) :
    Visited c start (head + 1) (tested + 1) idxs' := by
  refine ⟨h.start_le, hlt, ?_⟩
  rcases h.place with ⟨h4, -, h5⟩ | ⟨h4, h5⟩
  · refine .inl ⟨by omega, hhead, fun i hi => ?_⟩
    rcases hsub i hi with hi | rfl
    · have := h5 i hi
      omega
    · omega
  · refine .inr ⟨by omega, fun i hi => ?_⟩
    rcases hsub i hi with hi | rfl
    · rcases h5 i hi with h6 | h6 <;> omega
    · omega

/-- The search loop finds distinct usable cells, as many as asked for. -/
lemma searchLoop_spec {p : KvParams} :
    ∀ (fuel head tested : ℕ) (idxs res : List ℕ), UsableCells p c idxs →
      Visited c start head tested idxs →
      searchLoop p c nTokens false fuel head tested idxs = some res →
      UsableCells p c res ∧ res.length = nTokens := by
  intro fuel
  induction fuel with
  | zero => intro head tested idxs res _ _ h; simp [searchLoop] at h
  | succ fuel ih =>
    intro head tested idxs res hus hvis h
    by_cases hwrap : c.size < head + 1
    · simp only [searchLoop, Bool.false_eq_true, if_false, if_pos hwrap] at h
      exact ih _ _ _ _ hus (hvis.wrap hwrap) h
    · simp only [searchLoop, Bool.false_eq_true, if_false, if_neg hwrap, testCells_one] at h
      set idxs' := if canUse p c head = true then idxs ++ [head] else idxs with hidxs'
      have hus' : UsableCells p c idxs' := by
        by_cases huse : canUse p c head = true
        · rw [hidxs', if_pos huse]
          exact hus.snoc (by omega) hvis.head_notMem huse
        · rw [hidxs', if_neg huse]
          exact hus
      have hsub : ∀ i ∈ idxs', i ∈ idxs ∨ i = head := by
        intro i hi
        by_cases huse : canUse p c head = true
        · rw [hidxs', if_pos huse, mem_append, mem_singleton] at hi
          exact hi
        · rw [hidxs', if_neg huse] at hi
          exact .inl hi
      by_cases hlen : idxs'.length = nTokens
      · rw [if_pos hlen, Option.some.injEq] at h
        exact ⟨h ▸ hus', h ▸ hlen⟩
      · rw [if_neg hlen] at h
        by_cases hdone : c.size ≤ tested + 1
        · simp [hdone] at h
        · rw [if_neg hdone] at h
          exact ih _ _ _ _ hus' (hvis.test (by omega) (by omega) hsub) h

/-- The search in a stream whose head is in range. -/
lemma searchStream_spec {strm : ℕ} (hpos : 0 < nTokens)
    (hhead : kv.vHeads strm ≤ (kv.vCells strm).size)
    (h : kv.searchStream strm nTokens false = some idxs) :
    UsableCells kv.prm (kv.vCells strm) idxs ∧ idxs.length = nTokens := by
  simp only [searchStream] at h
  by_cases hsize : (kv.vCells strm).size < nTokens
  · simp [hsize] at h
  rw [if_neg hsize] at h
  set head := if (kv.vCells strm).getUsed + 2 * nTokens < kv.vHeads strm then 0
    else kv.vHeads strm with hhead'
  have hle : head ≤ (kv.vCells strm).size := by
    rw [hhead']
    split <;> omega
  exact searchLoop_spec _ _ _ _ _ ⟨nodup_nil, by simp, by simp⟩
    ⟨hle, by omega, .inl ⟨Nat.zero_add head, hle, by simp⟩⟩ h

/-- The searches of all streams. -/
lemma searchStreams_spec (hpos : 0 < nTokens) : ∀ (strms : List ℕ) (idxs : List (List ℕ)),
      (∀ strm ∈ strms, kv.vHeads strm ≤ (kv.vCells strm).size) →
      kv.searchStreams nTokens false strms = some idxs →
      idxs.length = strms.length ∧ ∀ k < strms.length,
        UsableCells kv.prm (kv.vCells (strms.getD k 0)) (idxs.getD k []) ∧
          (idxs.getD k []).length = nTokens := by
  intro strms
  induction strms with
  | nil =>
    intro idxs _ h
    simp only [searchStreams, Option.some.injEq] at h
    subst h
    simp
  | cons strm strms ih =>
    intro idxs hheads h
    simp only [searchStreams] at h
    cases hs : kv.searchStream strm nTokens false with
    | none => simp [hs] at h
    | some is =>
      simp only [hs, Option.map_eq_some_iff] at h
      obtain ⟨rest, hrest, rfl⟩ := h
      obtain ⟨hlen, hall⟩ := ih rest (fun s hs => hheads s (mem_cons_of_mem _ hs)) hrest
      refine ⟨by simp [hlen], fun k hk => ?_⟩
      cases k with
      | zero => exact searchStream_spec hpos (hheads strm mem_cons_self) hs
      | succ k =>
        exact hall k (by simpa using hk)

/-! ## The slot -/

/-- A slot whose streams are distinct and whose blocks are equally many usable cells. -/
structure SlotOk (kv : KvCache) (si : SlotInfo) : Prop where
  strm_nodup : si.strm.Nodup
  size_pos : 0 < si.size
  cells : ∀ k < si.nStream, UsableCells kv.prm (kv.vCells (si.strm.getD k 0)) (si.idxs.getD k [])
  length : ∀ k < si.nStream, (si.idxs.getD k []).length = si.size

lemma mem_tokens : t ∈ si.tokens ↔ t.1 < si.nStream ∧ t.2 < si.size := by
  obtain ⟨s, ii⟩ := t
  simp [SlotInfo.tokens]

lemma tokenIdx_lt (ht : t ∈ si.tokens) : tokenIdx si t < si.nStream * si.size := by
  obtain ⟨h1, h2⟩ := mem_tokens.mp ht
  have hle : (t.1 + 1) * si.size ≤ si.nStream * si.size := Nat.mul_le_mul_right _ h1
  rw [Nat.succ_mul] at hle
  unfold tokenIdx
  omega

/-- Every index below the number of tokens is that of a token. -/
lemma exists_token {n i : ℕ} (hmul : si.nStream * si.size = n) (hi : i < n) :
    ∃ u ∈ si.tokens, tokenIdx si u = i := by
  have hpos : 0 < si.size := by
    rcases Nat.eq_zero_or_pos si.size with h0 | h0
    · rw [h0] at hmul
      omega
    · exact h0
  refine ⟨(i / si.size, i % si.size), mem_tokens.mpr ⟨?_, Nat.mod_lt _ hpos⟩, ?_⟩
  · exact Nat.div_lt_of_lt_mul (by rw [Nat.mul_comm, hmul]; exact hi)
  · exact Nat.div_add_mod' i si.size

/-- Block and place of a token from its index. -/
lemma SlotOk.tokenIdx_div_mod (h : kv.SlotOk si) {u : ℕ × ℕ} (hu : u ∈ si.tokens) :
    (tokenIdx si u / si.size, tokenIdx si u % si.size) = u := by
  obtain ⟨-, h2⟩ := mem_tokens.mp hu
  refine Prod.ext ?_ ?_
  · change (u.1 * si.size + u.2) / si.size = u.1
    rw [Nat.mul_comm, Nat.mul_add_div h.size_pos, Nat.div_eq_of_lt h2, Nat.add_zero]
  · change (u.1 * si.size + u.2) % si.size = u.2
    rw [Nat.mul_comm, Nat.mul_add_mod, Nat.mod_eq_of_lt h2]

/-- The cell of a token is one of its block's. -/
lemma SlotOk.idx_mem (h : kv.SlotOk si) (ht : t ∈ si.tokens) :
    si.idx t.1 t.2 ∈ si.idxs.getD t.1 [] := by
  obtain ⟨h1, h2⟩ := mem_tokens.mp ht
  rw [← h.length _ h1] at h2
  rw [SlotInfo.idx, getD_eq_getElem _ _ h2]
  exact getElem_mem h2

lemma SlotOk.idx_lt (h : kv.SlotOk si) (ht : t ∈ si.tokens) :
    (slotOf si t).2 < (kv.vCells (slotOf si t).1).size :=
  (h.cells _ (mem_tokens.mp ht).1).lt_size _ (h.idx_mem ht)

lemma SlotOk.idx_usable (h : kv.SlotOk si) (ht : t ∈ si.tokens) :
    canUse kv.prm (kv.vCells (slotOf si t).1) (slotOf si t).2 = true :=
  (h.cells _ (mem_tokens.mp ht).1).usable _ (h.idx_mem ht)

lemma nodup_tokens (si : SlotInfo) : si.tokens.Nodup := by
  refine nodup_flatMap.mpr ⟨fun s _ => ?_, ?_⟩
  · exact nodup_range.map fun a b hab => congrArg Prod.snd hab
  · refine nodup_range.imp fun {a b} hne => ?_
    rintro ⟨s, ii⟩ h1 h2
    simp only [mem_map, Prod.mk.injEq] at h1 h2
    obtain ⟨_, _, rfl, _⟩ := h1
    obtain ⟨_, _, h, _⟩ := h2
    exact hne h.symm

/-- Different tokens go to different cells. -/
lemma SlotOk.nodup (h : kv.SlotOk si) : (si.tokens.map (slotOf si)).Nodup := by
  refine (nodup_tokens si).map_on fun t ht u hu heq => ?_
  obtain ⟨ht1, ht2⟩ := mem_tokens.mp ht
  obtain ⟨hu1, hu2⟩ := mem_tokens.mp hu
  have hs : si.strm.getD t.1 0 = si.strm.getD u.1 0 := congrArg Prod.fst heq
  have hi : si.idx t.1 t.2 = si.idx u.1 u.2 := congrArg Prod.snd heq
  have h1 : t.1 = u.1 := by
    rw [getD_eq_getElem _ _ ht1, getD_eq_getElem _ _ hu1] at hs
    exact (h.strm_nodup.getElem_inj_iff).mp hs
  have h2 : t.2 = u.2 := by
    rw [← h1] at hi
    rw [← h.length _ ht1] at ht2 hu2
    rw [SlotInfo.idx, SlotInfo.idx, getD_eq_getElem _ _ ht2, getD_eq_getElem _ _ hu2] at hi
    exact ((h.cells _ ht1).nodup.getElem_inj_iff).mp hi
  exact Prod.ext h1 h2

/-- The head moves to a place within the cells. -/
lemma SlotOk.last_le (h : kv.SlotOk si) : ∀ s < si.nStream,
      (si.idxs.getD s []).getLastD 0 + 1 ≤ (kv.vCells (si.strm.getD s 0)).size := by
  intro s hs
  have hlen := h.length s hs
  have hpos := h.size_pos
  have hne : si.idxs.getD s [] ≠ [] := fun hnil => by
    rw [hnil, length_nil] at hlen
    omega
  have hmem : (si.idxs.getD s []).getLastD 0 ∈ si.idxs.getD s [] := by
    rw [getLastD_eq_getLast?, getLast?_eq_some_getLast hne]
    exact getLast_mem hne
  exact (h.cells s hs).lt_size _ hmem

/-- The streams of the sequences of a ubatch. -/
def slotStreams (kv : KvCache) (ub : UBatch) : List ℕ :=
  (List.range (kv.slotSeqs ub)).map fun s => kv.prm.seqToStream (ub.seqIdUnq.getD s 0)

lemma nodup_slotStreams {ub : UBatch} {n : ℕ} (hub : ub.WellFormed n) :
    (kv.slotStreams ub).Nodup := by
  by_cases hn : 1 < kv.prm.nStream
  · refine nodup_range.map_on fun a ha b hb heq => ?_
    simp only [mem_range, slotSeqs, if_pos hn, hub.nSeqsUnq_eq] at ha hb
    simp only [KvParams.seqToStream, if_pos hn, getD_eq_getElem _ _ ha,
      getD_eq_getElem _ _ hb] at heq
    have h1 := hub.unq_range _ (getElem_mem ha)
    have h2 := hub.unq_range _ (getElem_mem hb)
    exact (hub.unq_nodup.getElem_inj_iff).mp (by omega)
  · simp [slotStreams, slotSeqs, if_neg hn]

/-- The blocks of the slot have room for all tokens. -/
lemma slotSeqs_mul_slotTokens {ub : UBatch} (hassert : kv.FindSlotAsserts ub) :
    kv.slotSeqs ub * kv.slotTokens ub = ub.nTokens ∧ 0 < kv.slotSeqs ub := by
  by_cases hn : 1 < kv.prm.nStream
  · obtain ⟨h1, h2, -⟩ := hassert hn
    simp only [slotSeqs, slotTokens, if_pos hn]
    exact ⟨Nat.mul_div_cancel' (Nat.dvd_of_mod_eq_zero h2), by omega⟩
  · simp [slotSeqs, slotTokens, if_neg hn]

/-- **A found slot** has a block of usable cells in the stream of each sequence, room for all
tokens. -/
theorem findSlot_spec {ub : UBatch} {n : ℕ} (hub : ub.WellFormed n)
    (hassert : kv.FindSlotAsserts ub) (hheads : ∀ t, kv.vHeads t ≤ (kv.vCells t).size)
    (h : kv.findSlot ub false = some si) :
    kv.SlotOk si ∧ si.strm = kv.slotStreams ub ∧ si.size = kv.slotTokens ub ∧
      si.nStream * si.size = ub.nTokens := by
  obtain ⟨hmul, hseqs⟩ := slotSeqs_mul_slotTokens hassert
  have htok := hub.nTokens_pos
  have hpos : 0 < kv.slotTokens ub := by
    rcases Nat.eq_zero_or_pos (kv.slotTokens ub) with h0 | h0
    · rw [h0] at hmul
      omega
    · exact h0
  have hstrms : (kv.slotStreams ub).length = kv.slotSeqs ub := by simp [slotStreams]
  simp only [findSlot, Option.map_eq_some_iff] at h
  obtain ⟨idxs, hs, rfl⟩ := h
  obtain ⟨hlen, hall⟩ := searchStreams_spec hpos (kv.slotStreams ub) idxs
    (fun t _ => hheads t) hs
  have hsize : (idxs.getD 0 []).length = kv.slotTokens ub := (hall 0 (by omega)).2
  refine ⟨⟨nodup_slotStreams hub, ?_, fun k hk => (hall k hk).1, fun k hk => ?_⟩, rfl, hsize, ?_⟩
  · change 0 < (idxs.getD 0 []).length
    omega
  · exact (hall k hk).2.trans hsize.symm
  · change (kv.slotStreams ub).length * (idxs.getD 0 []).length = ub.nTokens
    rw [hstrms, hsize, hmul]

lemma searchStreams_length {cont : Bool} : ∀ {strms : List ℕ} {idxs : List (List ℕ)},
      kv.searchStreams nTokens cont strms = some idxs → idxs.length = strms.length := by
  intro strms
  induction strms with
  | nil =>
    intro idxs h
    obtain rfl : [] = idxs := by simpa [searchStreams] using h
    rfl
  | cons strm strms ih =>
    intro idxs h
    rw [searchStreams] at h
    split at h
    · simp at h
    · obtain ⟨rest, hrest, rfl⟩ := Option.map_eq_some_iff.mp h
      rw [length_cons, length_cons, ih hrest]

/-- The slot has one list of cells for each stream. -/
lemma findSlot_idxs_length {ub : UBatch} {cont : Bool} (h : kv.findSlot ub cont = some si) :
    si.idxs.length = si.nStream := by
  simp only [findSlot, Option.map_eq_some_iff] at h
  obtain ⟨idxs, hs, rfl⟩ := h
  exact searchStreams_length hs

end Llama.KvCache
