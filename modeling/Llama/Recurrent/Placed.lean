import Llama.Recurrent.Slot

/-!
# The slot that was found

The second half of `find_slot`.  Bringing the claimed cells together permutes the memory
(`permute`, `gather_eq`): only cells of the slot move, within the slot.  Then the cells of the
ubatch are filled and the rows are staged; a zeroed row exists whenever one is needed, since
the cells of the slot point into it from fewer cells than it has.
-/

namespace Llama

open List Finset UBatch Arrange

/-- The ids of all sets. -/
def UBatch.listed (ub : UBatch) : List ℤ := ((List.range ub.nSeqs).map ub.setIds).flatten

variable {ub : UBatch}

lemma UBatch.mem_listed {s : ℤ} : s ∈ ub.listed ↔ ∃ k < ub.nSeqs, s ∈ ub.setIds k := by
  simp [UBatch.listed]

/-- A listed sequence is the first of its set or listed after it. -/
lemma UBatch.Sets.mem_listed_iff (h : ub.Sets) {s : ℤ} :
    s ∈ ub.listed ↔ s ∈ ub.firstIds ∨ s ∈ ub.joined := by
  rw [mem_listed, mem_joined, ub.firstIds_eq]
  simp only [List.mem_map, List.mem_range]
  constructor
  · rintro ⟨k, hk, hs⟩
    rw [h.setIds_eq hk, List.mem_cons] at hs
    rcases hs with rfl | hs
    · exact .inl ⟨k, hk, rfl⟩
    · exact .inr ⟨k, hk, hs⟩
  · rintro (⟨k, hk, rfl⟩ | ⟨k, hk, hs⟩)
    · exact ⟨k, hk, h.firstId_mem hk⟩
    · exact ⟨k, hk, List.mem_of_mem_tail hs⟩

namespace MemoryRecurrent

variable {m m' : MemoryRecurrent} {s : ℤ} {t : ℕ}

/-- What cell `i` held is in cell `π i`. -/
def permute (m : MemoryRecurrent) (π : Equiv.Perm ℕ) : MemoryRecurrent :=
  { m with
    cells := fun i =>
      let c := m.cells (π.symm i)
      { m.cells i with pos := c.pos, src := c.src, seqId := c.seqId }
    tail := fun s => (m.tail s).map π }

lemma permute_one (m : MemoryRecurrent) : m.permute 1 = m := by
  refine MemoryRecurrent.ext rfl rfl (funext fun s => ?_) rfl rfl rfl rfl rfl rfl
  exact Option.map_id_apply

lemma swapCells_eq (m : MemoryRecurrent) (a b : ℕ) :
    m.swapCells a b = m.permute (Equiv.swap a b) := by
  rw [swapCells, permute, Equiv.symm_swap]

lemma permute_permute (m : MemoryRecurrent) (π ρ : Equiv.Perm ℕ) :
    (m.permute π).permute ρ = m.permute (ρ * π) := by
  refine MemoryRecurrent.ext rfl rfl (funext fun s => ?_) rfl rfl rfl rfl rfl rfl
  change ((m.tail s).map π).map ρ = (m.tail s).map (ρ * π)
  rw [Option.map_map]
  rfl

/-- **The cells of the listed sequences are brought to adjacent places.** -/
theorem gather_eq {f : ℤ → ℕ} : ∀ {ss : List ℤ} {dst : ℕ} {π : Equiv.Perm ℕ},
    (∀ s ∈ ss, m.tail s = some (f s)) →
      gather ss dst (m.permute π) = some (m.permute (arrange (ss.map f) dst π)) := by
  intro ss
  induction ss with
  | nil => exact fun _ => rfl
  | cons s ss ih =>
    intro dst π hf
    have ht : (m.permute π).tail s = some (π (f s)) := by
      change (m.tail s).map π = _
      rw [hf s List.mem_cons_self]
      rfl
    have hmove : (if dst = π (f s) then m.permute π else (m.permute π).swapCells dst (π (f s))) =
        m.permute (Equiv.swap dst (π (f s)) * π) := by
      split
      · rename_i heq
        rw [← heq, Equiv.swap_self]
        rfl
      · rw [swapCells_eq, permute_permute]
    rw [gather, ht]
    change gather ss (dst + 1) _ = _
    rw [hmove, ih fun s' hs' => hf s' (List.mem_cons_of_mem _ hs'), List.map_cons, arrange]

lemma foldl_update_tail (ids : List ℤ) (cell : ℕ) (tail : ℤ → Option ℕ) (s : ℤ) :
    ids.foldl (fun tail s => Function.update tail s (some cell)) tail s =
      if s ∈ ids then some cell else tail s := by
  induction ids generalizing tail with
  | nil => rfl
  | cons s' ids ih =>
    rw [foldl_cons, ih]
    by_cases hs : s = s'
    · simp [hs]
    · simp [hs]

/-- The cells from `cell` on have the listed positions and sequences, the others are as
before; so are the tails of sequences that are not listed. -/
lemma emplaceAll_spec : ∀ (sets : List (ℤ × List ℤ)) (cell : ℕ) (m : MemoryRecurrent),
    emplaceAll sets cell m =
        { m with cells := (emplaceAll sets cell m).cells, tail := (emplaceAll sets cell m).tail } ∧
      (∀ k (hk : k < sets.length), (emplaceAll sets cell m).cells (cell + k) =
        { m.cells (cell + k) with pos := sets[k].1, seqId := sets[k].2.toFinset }) ∧
      (∀ i, ¬ (cell ≤ i ∧ i < cell + sets.length) → (emplaceAll sets cell m).cells i = m.cells i) ∧
      (∀ s, (∀ p ∈ sets, s ∉ p.2) → (emplaceAll sets cell m).tail s = m.tail s) ∧
      (∀ s k (hk : k < sets.length), s ∈ sets[k].2 →
        (∀ l (hl : l < sets.length), s ∈ sets[l].2 → l = k) →
        (emplaceAll sets cell m).tail s = some (cell + k)) := by
  intro sets
  induction sets with
  | nil => exact fun cell m => ⟨rfl, by simp, fun _ _ => rfl, fun _ _ => rfl, by simp⟩
  | cons p sets ih =>
    intro cell m
    obtain ⟨pos, ids⟩ := p
    obtain ⟨hframe, hin, hout, htail, htail'⟩ := ih (cell + 1) (m.emplace cell pos ids)
    have hcell : ∀ i ≠ cell, (m.emplace cell pos ids).cells i = m.cells i := fun i hi =>
      Function.update_of_ne hi _ _
    have htails : ∀ s, (m.emplace cell pos ids).tail s = if s ∈ ids then some cell else m.tail s :=
      foldl_update_tail ids cell m.tail
    rw [emplaceAll]
    refine ⟨?_, ?_, ?_, ?_, ?_⟩
    · conv_lhs => rw [hframe]
      rfl
    · intro k hk
      cases k with
      | zero =>
        change (emplaceAll sets (cell + 1) (m.emplace cell pos ids)).cells cell = _
        rw [hout cell (by omega)]
        exact Function.update_self _ _ _
      | succ k =>
        rw [length_cons] at hk
        have heq : cell + (k + 1) = cell + 1 + k := by omega
        rw [heq, hin k (by omega), hcell _ (by omega)]
        rfl
    · intro i hi
      rw [length_cons] at hi
      rw [hout i (by omega), hcell i (by omega)]
    · intro s hs
      rw [htail s fun p hp => hs p (mem_cons_of_mem _ hp), htails, if_neg (hs _ mem_cons_self)]
    · intro s k hk hmem huniq
      cases k with
      | zero =>
        have hrest : ∀ p ∈ sets, s ∉ p.2 := by
          intro p hp hs
          obtain ⟨l, hl, rfl⟩ := getElem_of_mem hp
          have := huniq (l + 1) (by simpa using hl) hs
          omega
        rw [htail s hrest, htails]
        exact if_pos hmem
      | succ k =>
        rw [length_cons] at hk
        have heq : cell + (k + 1) = cell + 1 + k := by omega
        rw [heq]
        refine htail' s k (by omega) hmem fun l hl hs => ?_
        have := huniq (l + 1) (by simpa using hl) hs
        omega

lemma mem_between {min max i : ℕ} : i ∈ between min max ↔ min ≤ i ∧ i ≤ max := by
  rw [between, mem_range'_1]
  omega

lemma refcount_eq_zero {i : ℕ} : m.refcount i = 0 ↔ ∀ j < m.prm.size, (m.cells j).src ≠ some i := by
  simp [refcount, cellIds]

/-- **A zeroed row is found when one is needed.**  No cell outside the range points into it. -/
theorem stage_spec {lo hi : ℕ}
    (hout : ∀ j < m.prm.size, ¬ (lo ≤ j ∧ j ≤ hi) → ∀ i, (m.cells j).src = some i →
      ¬ (lo ≤ i ∧ i ≤ hi)) :
    ∃ m', m.stage lo hi = some m' ∧ m' = { m with cells := m'.cells, rsZ := m'.rsZ } ∧
      (∀ r, m'.rsZ = some r → (lo ≤ r ∧ r ≤ hi) ∧ ∀ j < m.prm.size, (m.cells j).src ≠ some r) ∧
      (∀ i, (m'.cells i).pos = (m.cells i).pos ∧ (m'.cells i).seqId = (m.cells i).seqId) ∧
      (∀ i, lo ≤ i ∧ i ≤ hi → (m'.cells i).src = some i ∧
        (m'.cells i).src0 = (m.cells i).src.or m'.rsZ ∧ (m'.cells i).src0 ≠ none) ∧
      ∀ i, ¬ (lo ≤ i ∧ i ≤ hi) → m'.cells i = m.cells i := by
  have hfound : (∃ i ∈ between lo hi, (m.cells i).src = none) →
      (between lo hi).find? (fun i => m.refcount i = 0) ≠ none := by
    rintro ⟨j0, hj0, hnone⟩ hz
    rw [mem_between] at hj0
    obtain ⟨i, hi', hi''⟩ := @Arrange.exists_unreferenced lo hi m.prm.size
      (fun j => (m.cells j).src)
      (fun j hj hjout i hi' => by
        rw [mem_Icc] at hjout ⊢
        exact hout j hj hjout i hi')
      j0 (mem_Icc.mpr hj0) hnone
    have := find?_eq_none.mp hz i (mem_between.mpr (mem_Icc.mp hi'))
    rw [decide_eq_true_iff, refcount_eq_zero] at this
    exact this hi''
  unfold stage
  rw [if_neg fun h => hfound h.1 h.2]
  refine ⟨_, rfl, rfl, fun r hr => ?_, fun i => ?_, fun i hi' => ?_, fun i hi' => ?_⟩
  · refine ⟨mem_between.mp (mem_of_find?_eq_some hr), refcount_eq_zero.mp ?_⟩
    simpa using find?_some hr
  · dsimp only
    split <;> exact ⟨rfl, rfl⟩
  · simp only [hi', if_true, true_and]
    intro hnone
    rw [Option.or_eq_none_iff] at hnone
    exact hfound ⟨i, mem_between.mpr hi', hnone.1⟩ hnone.2
  · simp only [hi', if_false]

/-! ## `find_slot` -/

/-- Cell `i` is in the slot. -/
def InSlot (m : MemoryRecurrent) (i : ℕ) : Prop := m.head ≤ i ∧ i < m.head + m.n

instance (m : MemoryRecurrent) (i : ℕ) : Decidable (m.InSlot i) := inferInstanceAs (Decidable (_ ∧ _))

/-- The memory `m'` with the ubatch in its slot.  `m0` is the memory whose shared sequences
have left their cells, `m2` the one with the cells claimed, and `π` the permutation that has
brought them together. -/
structure Placed (m0 : MemoryRecurrent) (ub : UBatch) (m2 : MemoryRecurrent) (π : Equiv.Perm ℕ)
    (m' : MemoryRecurrent) : Prop where
  claimed : Claimed m0 ub.firstIds.toFinset m2
  prm : m'.prm = m0.prm
  rsIdx : m'.rsIdx = m0.rsIdx
  rows : m'.rows = m0.rows
  used : m'.used = UInt32.ofNat m'.countUsed
  nSeqs_le : ub.nSeqs ≤ m'.n
  fits : m'.head + m'.n ≤ m0.prm.size
  first : ∀ k < ub.nSeqs, ∃ t, m2.tail (ub.firstId k) = some t ∧ m'.InSlot t ∧ π t = m'.head + k
  lowest : ∃ k < ub.nSeqs, m2.tail (ub.firstId k) = some m'.head
  highest : ∃ k < ub.nSeqs, m2.tail (ub.firstId k) = some (m'.head + m'.n - 1)
  stay : ∀ i, ¬ m'.InSlot i → π i = i
  inside : ∀ i, m'.InSlot i → m'.InSlot (π i)
  cell_new : ∀ k < ub.nSeqs, (m'.cells (m'.head + k)).seqId = (ub.setIds k).toFinset ∧
    (m'.cells (m'.head + k)).pos = ub.lastPos k
  cell_old : ∀ i, ¬ (m'.head ≤ i ∧ i < m'.head + ub.nSeqs) →
    (m'.cells i).seqId = (m2.cells (π.symm i)).seqId ∧ (m'.cells i).pos = (m2.cells (π.symm i)).pos
  tail_new : ∀ k < ub.nSeqs, ∀ s ∈ ub.setIds k, m'.tail s = some (m'.head + k)
  tail_old : ∀ s ∉ ub.listed, m'.tail s = (m2.tail s).map π
  src_in : ∀ i, m'.InSlot i → (m'.cells i).src = some i ∧
    (m'.cells i).src0 = (m2.cells (π.symm i)).src.or m'.rsZ ∧ (m'.cells i).src0 ≠ none
  src_out : ∀ i, ¬ m'.InSlot i → (m'.cells i).src = (m2.cells i).src
  zero : ∀ r, m'.rsZ = some r → m'.InSlot r ∧ ∀ j < m0.prm.size, (m2.cells j).src ≠ some r

lemma wrapHead_cases (m : MemoryRecurrent) (nSeqs : ℕ) :
    m.wrapHead nSeqs = m ∨ m.wrapHead nSeqs = { m with head := 0 } := by
  unfold wrapHead
  split
  · exact .inr rfl
  · exact .inl rfl

lemma Inv.wrapHead (h : Inv m) (nSeqs : ℕ) : Inv (m.wrapHead nSeqs) := by
  rcases wrapHead_cases m nSeqs with heq | heq
  · rwa [heq]
  · rw [heq]
    exact h.congr rfl rfl rfl m.prm.size_pos

/-- The head is all that changes. -/
lemma wrapHead_frame (m : MemoryRecurrent) (nSeqs : ℕ) :
    m.wrapHead nSeqs = { m with head := (m.wrapHead nSeqs).head } := by
  rcases wrapHead_cases m nSeqs with heq | heq
  · rw [heq]
  · rw [heq]

/-- The memory whose shared sequences have left their cells. -/
def detached (m : MemoryRecurrent) (ub : UBatch) : MemoryRecurrent :=
  (m.wrapHead ub.nSeqs).leaveAll ub.joined

lemma Inv.detached (h : Inv m) (ub : UBatch) : Inv (m.detached ub) :=
  (h.wrapHead ub.nSeqs).leaveAll ub.joined

lemma detached_prm (m : MemoryRecurrent) (ub : UBatch) : (m.detached ub).prm = m.prm := by
  rw [MemoryRecurrent.detached, (leaveAll_frame _ _).1, wrapHead_frame]

/-- The search for empty cells starts at the head. -/
lemma Inv.scan_start (h : Inv m) :
    ∃ d, Scan m.prm.size m.head ∅ ⟨m, m.nextEmpty m.head, m.prm.size - 1, 0⟩ d := by
  have hlt := h.head_lt
  refine scan_search (d := 0) (i := m.head) m.prm.size_pos hlt rfl (by omega) rfl rfl
    (fun _ _ _ => Nat.zero_le _) fun j _ _ hempty => ⟨hempty, fun s hs => by cases hs⟩

/-- The range at the start. -/
lemma covers_empty {next : ℕ} : Claim.Covers ⟨m, next, m.prm.size - 1, 0⟩ ∅ where
  max_lt := m.prm.size_pos
  range := fun s hs => by cases hs
  start := fun _ => ⟨rfl, rfl⟩
  min_mem := fun h => absurd rfl h
  max_mem := fun h => absurd rfl h

/-- The cells of `ss`, which are distinct and in the range, are no more than the range has. -/
lemma Claimed.length_le {m0 : MemoryRecurrent} {ss : List ℤ} {c : Claim} {f : ℤ → ℕ}
    (hc : Claimed m0 ss.toFinset c.mem) (hcov : c.Covers ss.toFinset) (hnd : ss.Nodup)
    (hf : ∀ s ∈ ss, c.mem.tail s = some (f s)) :
    (ss.map f).Nodup ∧ (∀ x ∈ ss.map f, x ∈ Finset.Icc c.min c.max) ∧
      c.min + ss.length ≤ c.max + 1 ∨ ss = [] := by
  by_cases hne : ss = []
  · exact .inr hne
  have hinj : (ss.map f).Nodup := by
    refine List.Nodup.map_on (fun s hs s' hs' heq => ?_) hnd
    exact (hc.excl s (mem_toFinset.mpr hs) _ (hf s hs) s' (heq ▸ hf s' hs')).symm
  have hrange : ∀ x ∈ ss.map f, x ∈ Finset.Icc c.min c.max := by
    intro x hx
    obtain ⟨s, hs, rfl⟩ := mem_map.mp hx
    exact mem_Icc.mpr (hcov.range s (mem_toFinset.mpr hs) _ (hf s hs))
  have hcard : (ss.map f).toFinset.card ≤ (Finset.Icc c.min c.max).card :=
    card_le_card fun x hx => hrange x (mem_toFinset.mp hx)
  rw [toFinset_card_of_nodup hinj, length_map, Nat.card_Icc] at hcard
  have hpos : 0 < ss.length := length_pos_iff.mpr hne
  exact .inl ⟨hinj, hrange, by omega⟩

/-- The cells of the slot are filled and staged. -/
lemma Claimed.placed {m : MemoryRecurrent} {ub : UBatch} {c : Claim} {π : Equiv.Perm ℕ}
    (hc : Claimed m ub.firstIds.toFinset c.mem) (h : Inv m) (hub : ub.Sets)
    (hcov : c.Covers ub.firstIds.toFinset) (hfit : c.min + ub.nSeqs ≤ c.max + 1)
    (hplace : ∀ k < ub.nSeqs, ∃ t, c.mem.tail (ub.firstId k) = some t ∧ π t = c.min + k)
    (hmove : ∀ i, ((c.min ≤ i ∧ i ≤ c.max) → (c.min ≤ π i ∧ π i ≤ c.max)) ∧
      (¬ (c.min ≤ i ∧ i ≤ c.max) → π i = i)) :
    ∃ m5, (emplaceAll ((List.range ub.nSeqs).map fun s => (ub.lastPos s, ub.setIds s)) c.min
        (c.mem.permute π)).stage c.min c.max = some m5 ∧
      Placed m ub c.mem π { m5 with
        head := c.min, n := c.max + 1 - c.min, used := UInt32.ofNat m5.countUsed } := by
  have hfix : ∀ i, ¬ (c.min ≤ i ∧ i ≤ c.max) → π.symm i = i := fun i hi =>
    (Equiv.symm_apply_eq π).mpr ((hmove i).2 hi).symm
  have hmax : c.max < m.prm.size := hc.prm ▸ hcov.max_lt
  set sets := (List.range ub.nSeqs).map fun s => (ub.lastPos s, ub.setIds s) with hsets
  have hsetsLen : sets.length = ub.nSeqs := by rw [List.length_map, List.length_range]
  have hset : ∀ k (hk : k < sets.length), sets[k] = (ub.lastPos k, ub.setIds k) := by
    simp [hsets]
  obtain ⟨hframe, hin, hout, htail, htail'⟩ := emplaceAll_spec sets c.min (c.mem.permute π)
  set m4 := emplaceAll sets c.min (c.mem.permute π) with hm4
  rw [hsetsLen] at hout
  have hsrc : ∀ i, (m4.cells i).src = (c.mem.cells (π.symm i)).src := by
    intro i
    by_cases hi : c.min ≤ i ∧ i < c.min + ub.nSeqs
    · obtain ⟨k, rfl⟩ := Nat.exists_eq_add_of_le hi.1
      rw [hin k (by omega)]
      rfl
    · rw [hout i hi]
      rfl
  -- a cell outside the range has not been claimed, so that it has its own row or none
  have hself : ∀ i, ¬ (c.min ≤ i ∧ i ≤ c.max) → ∀ j, (m4.cells i).src = some j → j = i := by
    intro i hi j hj
    rw [hsrc, hfix i hi, (hc.rest i fun s hs ht => hi (hcov.range s hs i ht)).2.1] at hj
    rcases h.src_self i with hnone | hsome
    · rw [hnone] at hj
      cases hj
    · exact (Option.some.inj (hsome.symm.trans hj)).symm
  obtain ⟨m5, hstage, hframe5, hzero, hids, hinside, houtside⟩ := @stage_spec m4 c.min c.max
    fun i _ hi j hj => by rwa [hself i hi j hj]
  have hprm4 : m4.prm = m.prm := by
    rw [hframe]
    exact hc.prm
  have hprm5 : m5.prm = m.prm := by rw [hframe5, hprm4]
  have htail5 : m5.tail = m4.tail := by rw [hframe5]
  refine ⟨m5, hstage, ?_⟩
  have hslot : ∀ i, InSlot { m5 with
      head := c.min, n := c.max + 1 - c.min, used := UInt32.ofNat m5.countUsed } i ↔
      c.min ≤ i ∧ i ≤ c.max := by
    intro i
    change c.min ≤ i ∧ i < c.min + (c.max + 1 - c.min) ↔ _
    omega
  have hnSeqs := hub.nSeqs_pos
  have hdone : ub.firstIds.toFinset ≠ ∅ := by
    refine Finset.ne_empty_of_mem (a := ub.firstId 0) (List.mem_toFinset.mpr ?_)
    exact List.mem_map_of_mem (List.mem_range.mpr hnSeqs)
  have hends : ∀ t, (∃ s ∈ ub.firstIds.toFinset, c.mem.tail s = some t) →
      ∃ k < ub.nSeqs, c.mem.tail (ub.firstId k) = some t := by
    rintro t ⟨s, hs, ht⟩
    rw [List.mem_toFinset] at hs
    obtain ⟨k, hk, rfl⟩ := List.mem_map.mp hs
    exact ⟨k, List.mem_range.mp hk, ht⟩
  exact {
    claimed := hc
    prm := hprm5
    rsIdx := by
      rw [hframe5, hframe, hc.frame]
      rfl
    rows := by
      rw [hframe5, hframe, hc.frame]
      rfl
    used := rfl
    nSeqs_le := by
      change ub.nSeqs ≤ c.max + 1 - c.min
      omega
    fits := by
      change c.min + (c.max + 1 - c.min) ≤ m.prm.size
      omega
    first := by
      intro k hk
      obtain ⟨t, ht, hπ⟩ := hplace k hk
      refine ⟨t, ht, (hslot t).mpr ?_, hπ⟩
      refine hcov.range _ (List.mem_toFinset.mpr ?_) t ht
      exact List.mem_map_of_mem (List.mem_range.mpr hk)
    lowest := hends c.min (hcov.min_mem hdone)
    highest := by
      have hhi : c.min + (c.max + 1 - c.min) - 1 = c.max := by omega
      rw [hhi]
      exact hends c.max (hcov.max_mem hdone)
    stay := fun i hi => (hmove i).2 fun hr => hi ((hslot i).mpr hr)
    inside := fun i hi => (hslot _).mpr ((hmove i).1 ((hslot i).mp hi))
    cell_new := by
      intro k hk
      rw [(hids _).1, (hids _).2, hin k (by omega), hset]
      exact ⟨rfl, rfl⟩
    cell_old := by
      intro i hi
      rw [(hids _).1, (hids _).2, hout i hi]
      exact ⟨rfl, rfl⟩
    tail_new := by
      intro k hk s hs
      rw [htail5]
      refine htail' s k (by omega) (by rwa [hset]) fun l hl hs' => ?_
      rw [hset] at hs'
      exact hub.disjoint l (by omega) k hk s hs' hs
    tail_old := by
      intro s hs
      rw [htail5]
      refine htail s fun p hp hmem => hs ?_
      obtain ⟨k, hk, rfl⟩ := List.mem_map.mp hp
      exact mem_listed.mpr ⟨k, List.mem_range.mp hk, hmem⟩
    src_in := by
      intro i hi
      rw [← hsrc]
      exact hinside i ((hslot i).mp hi)
    src_out := by
      intro i hi
      have hi' : ¬ (c.min ≤ i ∧ i ≤ c.max) := fun hr => hi ((hslot i).mpr hr)
      rw [houtside i hi', hsrc, hfix i hi']
    zero := by
      intro r hr
      obtain ⟨hr', hun⟩ := hzero r hr
      refine ⟨(hslot r).mpr hr', fun j hj => ?_⟩
      have hπj : π j < m.prm.size := by
        by_cases hj' : c.min ≤ j ∧ j ≤ c.max
        · exact lt_of_le_of_lt ((hmove j).1 hj').2 hmax
        · rwa [(hmove j).2 hj']
      have := hun (π j) (hprm4 ▸ hπj)
      rwa [hsrc, Equiv.symm_apply_apply] at this }

/-- The first sequences claim cells, which are brought together, filled and staged. -/
lemma Inv.placeSets_spec (h : Inv m) (hub : ub.Sets) (hin : ∀ s ∈ ub.firstIds, m.InSize s) :
    ∃ m2 π m', m.placeSets ub = some (true, m') ∧ Placed m ub m2 π m' := by
  obtain ⟨d, hscan⟩ := h.scan_start
  obtain ⟨c, hclaim, hc, hcov⟩ := claimAll_spec h h.head_lt (claimed_empty h) hscan
    covers_empty hub.nodup_firstIds (fun s _ hs => by cases hs) hin
  have hf : ∀ s ∈ ub.firstIds, c.mem.tail s = some ((c.mem.tail s).getD 0) := by
    intro s hs
    obtain ⟨t, ht⟩ := hc.own s (List.mem_toFinset.mpr hs)
    rw [ht]
    rfl
  have hlen : ub.firstIds.length = ub.nSeqs := by
    rw [ub.firstIds_eq, List.length_map, List.length_range]
  have hne : ub.firstIds ≠ [] := by
    rw [← List.length_pos_iff, hlen]
    exact hub.nSeqs_pos
  obtain ⟨hnd, hrange, hfit⟩ := (hc.length_le hcov hub.nodup_firstIds hf).resolve_right hne
  rw [hlen] at hfit
  set f : ℤ → ℕ := fun s => (c.mem.tail s).getD 0 with hfdef
  have hgather : gather ub.firstIds c.min c.mem =
      some (c.mem.permute (arrange (ub.firstIds.map f) c.min 1)) := by
    have hgather := @gather_eq c.mem f ub.firstIds c.min 1 hf
    rwa [permute_one] at hgather
  -- the permutation moves the claimed cells to their places within the range
  have hplace : ∀ k < ub.nSeqs, ∃ t, c.mem.tail (ub.firstId k) = some t ∧
      arrange (ub.firstIds.map f) c.min 1 t = c.min + k := by
    intro k hk
    have hk' : k < (ub.firstIds.map f).length := by rwa [List.length_map, hlen]
    have hget : arrange (ub.firstIds.map f) c.min 1 (ub.firstIds.map f)[k] = c.min + k :=
      arrange_getElem hnd k hk'
    have hat : (ub.firstIds.map f)[k] = f (ub.firstId k) := by simp [ub.firstIds_eq]
    refine ⟨f (ub.firstId k), hf _ ?_, by rwa [hat] at hget⟩
    exact List.mem_map_of_mem (List.mem_range.mpr hk)
  have hmove : ∀ i, ((c.min ≤ i ∧ i ≤ c.max) → (c.min ≤ arrange (ub.firstIds.map f) c.min 1 i ∧
        arrange (ub.firstIds.map f) c.min 1 i ≤ c.max)) ∧
      (¬ (c.min ≤ i ∧ i ≤ c.max) → arrange (ub.firstIds.map f) c.min 1 i = i) := by
    intro i
    have harr := @Arrange.arrange_range c.min c.max i (ub.firstIds.map f) c.min 1 hrange le_rfl
      (by rw [List.length_map, hlen]; exact hfit)
    simpa only [Finset.mem_Icc, Equiv.Perm.one_apply] using harr
  obtain ⟨m5, hstage, hplaced⟩ := hc.placed h hub hcov hfit hplace hmove
  refine ⟨c.mem, _, _, ?_, hplaced⟩
  have hn : ub.nSeqs ≤ c.max + 1 - c.min := by omega
  simp only [placeSets, hclaim, hgather, hstage, Option.bind_eq_bind, Option.bind_some, hn,
    decide_true, Option.pure_def]

/-- **What `find_slot` does.**  If all ids are in range it finds a slot and places the ubatch;
otherwise it fails after some sequences have left their cells. -/
theorem Inv.findSlot_spec (h : Inv m) (hub : ub.Sets) :
    ((∀ s ∈ ub.listed, m.InSize s) → ∃ m2 π m', m.findSlot ub = some (true, m') ∧
        Placed (m.detached ub) ub m2 π m') ∧
      ((∃ s ∈ ub.listed, ¬ m.InSize s) → ∃ ss, ss ⊆ ub.joined ∧
          m.findSlot ub = some (false, (m.wrapHead ub.nSeqs).leaveAll ss)) := by
  have hsize : ∀ s, (m.wrapHead ub.nSeqs).InSize s ↔ m.InSize s := fun s => by
    rw [wrapHead_frame]
    rfl
  obtain ⟨hT, hF⟩ := checkSets_spec ((List.range ub.nSeqs).map ub.setIds) (m.wrapHead ub.nSeqs)
  unfold findSlot
  rw [hub.equalSeqs, if_neg Bool.true_eq_false.mp]
  refine ⟨fun hall => ?_, fun hex => ?_⟩
  · rw [hT fun ids hids s hs => (hsize s).mpr (hall s (List.mem_flatten.mpr ⟨ids, hids, hs⟩))]
    refine (h.detached ub).placeSets_spec hub fun s hs => ?_
    rw [InSize, detached_prm]
    exact hall s (hub.mem_listed_iff.mpr (.inl hs))
  · have hex' : ∃ ids ∈ (List.range ub.nSeqs).map ub.setIds, ∃ s ∈ ids,
        ¬ (m.wrapHead ub.nSeqs).InSize s := by
      obtain ⟨s, hs, hnot⟩ := hex
      obtain ⟨ids, hids, hs⟩ := List.mem_flatten.mp hs
      exact ⟨ids, hids, s, hs, fun hin => hnot ((hsize s).mp hin)⟩
    obtain ⟨ss, hsub, heq⟩ := hF hex'
    exact ⟨ss, hsub, by rw [heq]⟩

/-! ## The invariant -/

section Placed

variable {m0 m2 : MemoryRecurrent} {ub : UBatch} {π : Equiv.Perm ℕ}

/-- Place `i` is one of those of the ubatch. -/
def InPlace (m : MemoryRecurrent) (ub : UBatch) (i : ℕ) : Prop :=
  m.head ≤ i ∧ i < m.head + ub.nSeqs

variable {i : ℕ}

lemma InPlace.exists_eq (h : InPlace m ub i) : ∃ k < ub.nSeqs, i = m.head + k := by
  obtain ⟨k, rfl⟩ := Nat.exists_eq_add_of_le h.1
  exact ⟨k, by have := h.2; omega, rfl⟩

lemma inPlace_add {k : ℕ} (hk : k < ub.nSeqs) : InPlace m ub (m.head + k) :=
  ⟨Nat.le_add_right _ _, by omega⟩

section

variable (hp : Placed m0 ub m2 π m')

include hp

lemma Placed.inSlot (hi : InPlace m' ub i) : m'.InSlot i :=
  ⟨hi.1, by have := hi.2; have := hp.nSeqs_le; omega⟩

lemma Placed.inSlot_lt (hi : m'.InSlot i) : i < m0.prm.size :=
  lt_of_lt_of_le hi.2 hp.fits

/-- The permutation moves cells of the memory to cells of the memory. -/
lemma Placed.perm_lt (hi : i < m0.prm.size) : π i < m0.prm.size := by
  by_cases h : m'.InSlot i
  · exact hp.inSlot_lt (hp.inside i h)
  · rwa [hp.stay i h]

/-- A cell outside the slot has not moved. -/
lemma Placed.symm_of_notIn (hi : ¬ m'.InSlot i) : π.symm i = i :=
  (Equiv.symm_apply_eq π).mpr (hp.stay i hi).symm

/-- The place of a sequence that has claimed a cell. -/
lemma Placed.claimed_place (hs : s ∈ ub.firstIds.toFinset)
    (ht : m2.tail s = some t) : ∃ k < ub.nSeqs, s = ub.firstId k ∧ π t = m'.head + k := by
  rw [List.mem_toFinset, ub.firstIds_eq] at hs
  obtain ⟨k, hk, rfl⟩ := List.mem_map.mp hs
  rw [List.mem_range] at hk
  obtain ⟨t', ht', -, hπ⟩ := hp.first k hk
  rw [ht] at ht'
  cases ht'
  exact ⟨k, hk, rfl, hπ⟩

/-- The cell that came to a place of the ubatch was claimed by its first sequence. -/
lemma Placed.tail_first {k : ℕ} (hk : k < ub.nSeqs) :
    m2.tail (ub.firstId k) = some (π.symm (m'.head + k)) := by
  obtain ⟨t, ht, -, hπ⟩ := hp.first k hk
  rw [ht, ← hπ, Equiv.symm_apply_apply]

/-- The cells that came to other places were not claimed. -/
lemma Placed.unclaimed (hi : ¬ InPlace m' ub i) :
    ∀ s ∈ ub.firstIds.toFinset, m2.tail s ≠ some (π.symm i) := by
  intro s hs ht
  obtain ⟨k, hk, -, hπ⟩ := hp.claimed_place hs ht
  rw [Equiv.apply_symm_apply] at hπ
  exact hi (hπ ▸ inPlace_add hk)

/-- What a cell outside the places of the ubatch holds: what the cell it came from held, without
the first sequences. -/
lemma Placed.cell_rest (hi : ¬ InPlace m' ub i) : (m'.cells i).pos = (m0.cells (π.symm i)).pos ∧
      (m'.cells i).seqId = (m0.cells (π.symm i)).seqId.filter (· ∉ ub.firstIds.toFinset) ∧
      (m2.cells (π.symm i)).src = (m0.cells (π.symm i)).src := by
  obtain ⟨hids, hpos⟩ := hp.cell_old i hi
  obtain ⟨h1, h2, h3⟩ := hp.claimed.rest _ (hp.unclaimed hi)
  exact ⟨hpos.trans h1, hids.trans h3, h2⟩

lemma Placed.tail_old' (hub : ub.Sets) (hs : s ∉ ub.listed) : m'.tail s = (m0.tail s).map π := by
  rw [hp.tail_old s hs, hp.claimed.other s fun hd => hs ?_]
  exact hub.mem_listed_iff.mpr (.inl (mem_toFinset.mp hd))

/-- A sequence in a cell outside the places is not listed. -/
lemma Placed.not_listed (h0 : Inv m0) (hub : ub.Sets)
    (hdet : ∀ s ∈ ub.joined, m0.tail s = none) (hi : ¬ InPlace m' ub i)
    (hs : s ∈ (m'.cells i).seqId) : s ∉ ub.listed ∧ s ∈ (m0.cells (π.symm i)).seqId := by
  rw [(hp.cell_rest hi).2.1, Finset.mem_filter, List.mem_toFinset] at hs
  refine ⟨fun hlist => ?_, hs.1⟩
  rcases hub.mem_listed_iff.mp hlist with hfirst | hjoin
  · exact hs.2 hfirst
  · exact h0.notMem (hdet s hjoin) _ hs.1

lemma Placed.tail_iff (h0 : Inv m0) (hub : ub.Sets)
    (hdet : ∀ s ∈ ub.joined, m0.tail s = none) (s : ℤ) (t : ℕ) :
    m'.tail s = some t ↔ s ∈ (m'.cells t).seqId := by
  by_cases hlist : s ∈ ub.listed
  · obtain ⟨k, hk, hsk⟩ := mem_listed.mp hlist
    rw [hp.tail_new k hk s hsk]
    constructor
    · rintro ⟨⟩
      rw [(hp.cell_new k hk).1, List.mem_toFinset]
      exact hsk
    · intro hmem
      by_cases hplace : InPlace m' ub t
      · obtain ⟨l, hl, rfl⟩ := hplace.exists_eq
        rw [(hp.cell_new l hl).1, List.mem_toFinset] at hmem
        rw [hub.disjoint k hk l hl s hsk hmem]
      · exact absurd hlist (hp.not_listed h0 hub hdet hplace hmem).1
  · rw [hp.tail_old' hub hlist]
    have hfirst : s ∉ ub.firstIds.toFinset := fun hd =>
      hlist (hub.mem_listed_iff.mpr (.inl (List.mem_toFinset.mp hd)))
    constructor
    · intro ht
      obtain ⟨t', ht', rfl⟩ := Option.map_eq_some_iff.mp ht
      have hplace : ¬ InPlace m' ub (π t') := by
        intro hplace
        obtain ⟨k, hk, heq⟩ := hplace.exists_eq
        -- the cell of a place belongs to its first sequence alone
        have hfirst' := hp.tail_first hk
        rw [← heq, Equiv.symm_apply_apply] at hfirst'
        refine hfirst (hp.claimed.excl (ub.firstId k) ?_ t' hfirst' s ?_ ▸ ?_)
        · rw [List.mem_toFinset]
          exact List.mem_map_of_mem (List.mem_range.mpr hk)
        · rw [hp.claimed.other s hfirst, ht']
        · rw [List.mem_toFinset]
          exact List.mem_map_of_mem (List.mem_range.mpr hk)
      rw [(hp.cell_rest hplace).2.1, Equiv.symm_apply_apply, Finset.mem_filter]
      exact ⟨h0.mem ht', hfirst⟩
    · intro hmem
      have hplace : ¬ InPlace m' ub t := by
        intro hplace
        obtain ⟨k, hk, rfl⟩ := hplace.exists_eq
        rw [(hp.cell_new k hk).1, List.mem_toFinset] at hmem
        exact hlist (mem_listed.mpr ⟨k, hk, hmem⟩)
      rw [(h0.tail_iff s _).mpr (hp.not_listed h0 hub hdet hplace hmem).2, Option.map_some,
        Equiv.apply_symm_apply]

/-- **A ubatch in its slot keeps the invariant.** -/
theorem Placed.inv (h0 : Inv m0) (hub : ub.Sets)
    (hdet : ∀ s ∈ ub.joined, m0.tail s = none) (hin : ∀ s ∈ ub.listed, m0.InSize s) : Inv m' where
  tail_iff := hp.tail_iff h0 hub hdet
  lt := by
    intro t hne
    rw [hp.prm]
    by_cases hplace : InPlace m' ub t
    · exact hp.inSlot_lt (hp.inSlot hplace)
    · obtain ⟨s, hs⟩ := nonempty_iff_ne_empty.mpr hne
      have hmem := (hp.not_listed h0 hub hdet hplace hs).2
      have hlt := hp.perm_lt (h0.lt _ (ne_empty_of_mem hmem))
      rwa [Equiv.apply_symm_apply] at hlt
  inSize := by
    intro t s hs
    rw [InSize, hp.prm]
    by_cases hplace : InPlace m' ub t
    · obtain ⟨k, hk, rfl⟩ := hplace.exists_eq
      rw [(hp.cell_new k hk).1, mem_toFinset] at hs
      exact hin s (mem_listed.mpr ⟨k, hk, hs⟩)
    · exact h0.inSize _ s (hp.not_listed h0 hub hdet hplace hs).2
  src_full := by
    intro t hne
    by_cases hslot : m'.InSlot t
    · exact (hp.src_in t hslot).1
    · have hplace : ¬ InPlace m' ub t := fun h => hslot (hp.inSlot h)
      obtain ⟨hpos, hids, hsrc⟩ := hp.cell_rest hplace
      rw [hp.symm_of_notIn hslot] at hids hsrc
      rw [hp.src_out t hslot, hsrc]
      refine h0.src_full t fun hempty => hne ?_
      rw [hids, hempty, filter_empty]
  src_self := by
    intro t
    by_cases hslot : m'.InSlot t
    · exact .inr (hp.src_in t hslot).1
    · have hplace : ¬ InPlace m' ub t := fun h => hslot (hp.inSlot h)
      have hsrc := (hp.cell_rest hplace).2.2
      rw [hp.symm_of_notIn hslot] at hsrc
      rw [hp.src_out t hslot, hsrc]
      exact h0.src_self t
  head_lt := by
    rw [hp.prm]
    have h1 := hp.fits
    have h2 := hp.nSeqs_le
    have h3 := hub.nSeqs_pos
    omega

lemma Placed.freePos (hf : FreePos m0) (hub : ub.Sets) : FreePos m' := by
  intro i hempty
  by_cases hplace : InPlace m' ub i
  · obtain ⟨k, hk, rfl⟩ := hplace.exists_eq
    rw [(hp.cell_new k hk).1, toFinset_eq_empty_iff] at hempty
    exact absurd hempty (hub.ne_nil k hk)
  · rw [(hp.cell_rest hplace).1]
    refine hf _ ?_
    by_contra hne
    exact hp.claimed.full _ hne ((hp.cell_old i hplace).1 ▸ hempty)

end

end Placed

/-- The sequences that become shared have left. -/
lemma detached_tail (m : MemoryRecurrent) (ub : UBatch) : ∀ s ∈ ub.joined,
    (m.detached ub).tail s = none := fun s hs => by
  rw [MemoryRecurrent.detached, leaveAll_tail, if_pos hs]

lemma detached_tail_of_notMem (hs : s ∉ ub.joined) : (m.detached ub).tail s = m.tail s := by
  rw [MemoryRecurrent.detached, leaveAll_tail, if_neg hs, wrapHead_frame]

/-- The two outcomes of `find_slot`. -/
lemma Inv.findSlot_cases (h : Inv m) (hub : ub.Sets) {r : Bool × MemoryRecurrent}
    (hr : m.findSlot ub = some r) :
    ((∀ s ∈ ub.listed, m.InSize s) ∧
      ∃ m2 π m', r = (true, m') ∧ Placed (m.detached ub) ub m2 π m') ∨
    (∃ s ∈ ub.listed, ¬ m.InSize s) ∧
      ∃ ss, ss ⊆ ub.joined ∧ r = (false, (m.wrapHead ub.nSeqs).leaveAll ss) := by
  obtain ⟨hT, hF⟩ := h.findSlot_spec hub
  by_cases hin : ∀ s ∈ ub.listed, m.InSize s
  · obtain ⟨m2, π, m', heq, hp⟩ := hT hin
    exact .inl ⟨hin, m2, π, m', Option.some.inj (hr.symm.trans heq), hp⟩
  · push Not at hin
    obtain ⟨ss, hss, heq⟩ := hF hin
    exact .inr ⟨hin, ss, hss, Option.some.inj (hr.symm.trans heq)⟩

lemma Inv.findSlot (h : Inv m) (hub : ub.Sets) {r : Bool × MemoryRecurrent}
    (hr : m.findSlot ub = some r) : Inv r.2 := by
  obtain ⟨hin, _, _, m', rfl, hp⟩ | ⟨-, ss, -, rfl⟩ := h.findSlot_cases hub hr
  · refine hp.inv (h.detached ub) hub (m.detached_tail ub) fun s hs => ?_
    rw [InSize, detached_prm]
    exact hin s hs
  · exact (h.wrapHead ub.nSeqs).leaveAll ss

end MemoryRecurrent
end Llama
