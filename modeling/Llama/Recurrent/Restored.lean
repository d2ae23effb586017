import Llama.Recurrent.Batches

/-!
# A restored recurrent memory

What a successful `state_read` leaves (`RestoreEffect`).  The loops of the reader keep
`Filling`: the cells read so far and the tails name each other, and nothing else is in the
memory.  A single sequence is brought in by `find_slot`, and its slot is one cell.
-/

namespace Llama.MemoryRecurrent

open Reader List Function Finset Bytes

variable {m m' : MemoryRecurrent} {s : ℤ} {t : ℕ}

/-! ## The records of a saved memory -/

/-- The number of ids in the record at the front. -/
def recordIds (bs : List UInt8) : ℕ := Bytes.toNat ((bs.drop 4).take 4)

/-- What follows the record at the front: a position, the number of ids, and the ids. -/
def afterRecord (bs : List UInt8) : List UInt8 := bs.drop (8 + 4 * recordIds bs)

/-- Each of the `k` records at the front names a sequence. -/
def NamesIds : ℕ → List UInt8 → Prop
  | 0, _ => True
  | k + 1, bs => recordIds bs ≠ 0 ∧ NamesIds k (afterRecord bs)

/-- The records of a saved memory name sequences; those of a single sequence do not. -/
def RecordsNamed (s : ℤ) (bytes : List UInt8) : Prop :=
  s = -1 → NamesIds (Bytes.toNat (bytes.take 4)) (bytes.drop 4)

/-- While a whole memory is restored: only the first `k` cells are in use. -/
structure Filling (p : RsParams) (k : ℕ) (m : MemoryRecurrent) : Prop where
  prm : m.prm = p
  tail_iff : ∀ s t, m.tail s = some t ↔ s ∈ (m.cells t).seqId
  lt : ∀ t, (m.cells t).seqId ≠ ∅ → t < k
  inSize : ∀ t, ∀ s ∈ (m.cells t).seqId, m.InSize s
  src : ∀ t, (m.cells t).src = none
  free : ∀ t, k ≤ t → (m.cells t).pos = -1
  rsIdx : m.rsIdx = fun _ => 0

lemma filling_clear (m : MemoryRecurrent) (data : Bool) : Filling m.prm 0 (m.clear data) where
  prm := rfl
  tail_iff := fun s t => by simp [clear]
  lt := fun t hne => absurd rfl hne
  inSize := fun t s hs => by cases hs
  src := fun t => rfl
  free := fun t _ => rfl
  rsIdx := rfl

variable {p : RsParams} {k i : ℕ} {bs : List UInt8}

/-- A record is begun. -/
lemma Filling.setPos (h : Filling p i m) (pos : ℤ) : Filling p (i + 1)
      { m with cells := Function.update m.cells i { m.cells i with pos := pos } } where
  prm := h.prm
  tail_iff := fun s t => by
    rw [(update_pos_seqId m i pos t).1]
    exact h.tail_iff s t
  lt := fun t hne => by
    rw [(update_pos_seqId m i pos t).1] at hne
    exact (h.lt t hne).trans (Nat.lt_succ_self i)
  inSize := fun t s hs => by
    rw [(update_pos_seqId m i pos t).1] at hs
    exact h.inSize t s hs
  src := fun t => by
    rw [(update_pos_seqId m i pos t).2]
    exact h.src t
  free := fun t ht => by
    have hti : t ≠ i := by omega
    change (Function.update m.cells i _ t).pos = -1
    rw [update_of_ne hti]
    exact h.free t (by omega)
  rsIdx := h.rsIdx

/-- A sequence that is in no cell enters the cell of the record. -/
lemma Filling.enter (h : Filling p (i + 1) m) (hs : m.tail s = none)
    (hin : 0 ≤ s ∧ s < m.prm.nSeqMax) : Filling p (i + 1) (m.join s i) where
  prm := h.prm
  tail_iff := by
    intro s' t
    rw [join_seqId]
    change Function.update m.tail s (some i) s' = some t ↔ _
    by_cases hs' : s' = s
    · subst hs'
      have hout : ∀ t, s' ∉ (m.cells t).seqId := fun t hmem => by
        rw [(h.tail_iff s' t).mpr hmem] at hs
        cases hs
      rw [update_self]
      split
      · simp_all
      · rename_i hti
        exact iff_of_false (fun heq => hti (Option.some.inj heq).symm) (hout t)
    · rw [update_of_ne hs', h.tail_iff]
      split <;> simp [hs']
  lt := by
    intro t hne
    rw [join_seqId] at hne
    split at hne
    · omega
    · exact h.lt t hne
  inSize := by
    have hsize := m.prm.nSeqMax_le
    intro t s' hs'
    rw [join_seqId] at hs'
    split at hs'
    · rcases mem_insert.mp hs' with rfl | hs'
      · exact ⟨hin.1, lt_of_lt_of_le hin.2 (by exact_mod_cast hsize)⟩
      · exact h.inSize t s' hs'
    · exact h.inSize t s' hs'
  src := fun t => by
    rw [(join_pos_src m s i t).2]
    exact h.src t
  free := fun t ht => by
    rw [(join_pos_src m s i t).1]
    exact h.free t ht
  rsIdx := h.rsIdx

lemma Filling.readSeqId_ensures (h : Filling p (i + 1) m) :
    Ensures (readSeqId i) m bs fun b m' rest => b = true →
      Filling p (i + 1) m' ∧ (m'.cells i).seqId ≠ ∅ ∧ (∀ t ≠ i, m'.cells t = m.cells t) ∧
        rest = bs.drop 4 := by
  refine ensures_readI32_bind (ensures_get_bind ?_)
  split
  · exact ensures_pure fun hb => by cases hb
  · refine ensures_modify_bind ?_
    split
    · exact ensures_pure fun hb => by cases hb
    · rename_i hs
      rw [not_not] at hs
      refine ensures_modify_bind (ensures_pure fun _ => ?_)
      have henter := h.enter hs ⟨by omega, by omega⟩
      have hne : ((m.join (toInt32 (bs.take 4)) i).cells i).seqId ≠ ∅ := by
        rw [join_seqId, if_pos rfl]
        exact insert_ne_empty _ _
      exact ⟨henter, hne, fun t ht => update_of_ne ht _ _, rfl⟩

/-- One record. -/
lemma Filling.readCell_ensures (h : Filling p i m) :
    Ensures (readCell i) m bs fun b m' rest => b = true →
      Filling p (i + 1) m' ∧ (recordIds bs ≠ 0 → (m'.cells i).seqId ≠ ∅) ∧
        (∀ t ≠ i, m'.cells t = m.cells t) ∧ rest = afterRecord bs := by
  refine ensures_readI32_bind (ensures_readU32_bind (ensures_modify_bind ?_))
  set m1 : MemoryRecurrent := { m with
    cells := Function.update m.cells i { m.cells i with pos := toInt32 (bs.take 4) } }
  have hother : ∀ t ≠ i, m1.cells t = m.cells t := fun t ht => update_of_ne ht _ _
  refine ensures_forAll (I := fun j m' rest => Filling p (i + 1) m' ∧
      (j ≠ 0 → (m'.cells i).seqId ≠ ∅) ∧ (∀ t ≠ i, m'.cells t = m.cells t) ∧
        rest = bs.drop (8 + 4 * j)) ?_ ?_ ?_
  · exact ⟨h.setPos _, fun h0 => absurd rfl h0, hother, by rw [drop_drop]⟩
  · rintro j hj m2 rest ⟨hfill, -, hcells, rfl⟩
    refine hfill.readSeqId_ensures.mono fun b m' rest hb => ?_
    split
    · rename_i hbt
      obtain ⟨hfill', hne, hcells', rfl⟩ := hb hbt
      refine ⟨hfill', fun _ => hne, fun t ht => (hcells' t ht).trans (hcells t ht), ?_⟩
      rw [drop_drop]
      congr 1
    · exact fun hbf => by cases hbf
  · rintro m' rest ⟨hfill, hne, hcells, rfl⟩ -
    rw [length_range] at hne ⊢
    exact ⟨hfill, hne, hcells, rfl⟩

/-- The loop over the records. -/
lemma Filling.readCells_ensures (n : ℕ) (h : Filling p 0 m) :
    Ensures (forAll readCell (range n)) m bs fun b m' _ => b = true →
      Filling p n m' ∧ (NamesIds n bs → ∀ t < n, (m'.cells t).seqId ≠ ∅) := by
  refine ensures_forAll (I := fun j m' rest => Filling p j m' ∧
      (NamesIds n bs → NamesIds (n - j) rest ∧ ∀ t < j, (m'.cells t).seqId ≠ ∅)) ?_ ?_ ?_
  · exact ⟨h, fun hn => ⟨hn, fun t ht => absurd ht (Nat.not_lt_zero t)⟩⟩
  · rintro j hj m1 rest ⟨hfill, hnames⟩
    rw [length_range] at hj
    rw [getElem_range]
    refine hfill.readCell_ensures.mono fun b m' rest' hb => ?_
    split
    · rename_i hbt
      obtain ⟨hfill', hne, hcells, rfl⟩ := hb hbt
      refine ⟨hfill', fun hn => ?_⟩
      obtain ⟨hrest, hfull⟩ := hnames hn
      have hsub : n - j = n - (j + 1) + 1 := by omega
      rw [hsub] at hrest
      refine ⟨hrest.2, fun t ht => ?_⟩
      by_cases htj : t = j
      · rw [htj]
        exact hne hrest.1
      · rw [hcells t htj]
        exact hfull t (by omega)
    · exact fun hbf => by cases hbf
  · rintro m' rest ⟨hfill, hnames⟩ -
    rw [length_range] at hfill hnames
    exact ⟨hfill, fun hn => (hnames hn).2⟩

/-! ## The rows -/

/-- Only rows of the `n` cells from the head on change. -/
def RowsOnly (n : ℕ) (m m' : MemoryRecurrent) : Prop :=
  m' = { m with rows := m'.rows } ∧ ∀ i, ¬ (m.head ≤ i ∧ i < m.head + n) → m'.rows i = m.rows i

lemma RowsOnly.refl (n : ℕ) (m : MemoryRecurrent) : RowsOnly n m m := ⟨rfl, fun _ _ => rfl⟩

lemma RowsOnly.trans {n : ℕ} {m1 m2 m3 : MemoryRecurrent} (h : RowsOnly n m1 m2)
    (h' : RowsOnly n m2 m3) : RowsOnly n m1 m3 := by
  have hhead : m2.head = m1.head := by rw [h.1]
  refine ⟨?_, fun i hi => (h'.2 i (hhead ▸ hi)).trans (h.2 i hi)⟩
  rw [h'.1, h.1]

lemma readTensor_ensures (set : RsRow → List UInt8 → RsRow) (n : ℕ) (o : Option RsTensor) :
    Ensures (readTensor set n o) m bs fun _ m' _ => RowsOnly n m m' := by
  cases o with
  | none => exact ensures_pure (.refl n m)
  | some t =>
    refine ensures_readI32_bind ?_
    split
    · exact ensures_pure (.refl n m)
    · refine ensures_readU64_bind ?_
      split
      · exact ensures_pure (.refl n m)
      · refine (ensures_read (Q := fun _ m' _ => m' = m) fun _ => rfl).bind ?_
        rintro rows m' rest rfl
        exact ensures_modify_bind (ensures_pure ⟨rfl, fun i hi => if_neg hi⟩)

/-- A loop over tensors. -/
lemma forAll_ensures_rows {ι : Type} {n : ℕ} (body : ι → Reader MemoryRecurrent Bool)
    (hbody : ∀ l m bs, Ensures (body l) m bs fun _ m' _ => RowsOnly n m m') (ls : List ι) :
    Ensures (forAll body ls) m bs fun _ m' _ => RowsOnly n m m' := by
  refine ensures_forAll (I := fun _ m' _ => RowsOnly n m m') (.refl n m) ?_ fun _ _ h => h
  intro k hk m1 rest h
  refine (hbody ls[k] m1 rest).mono fun b m' _ h' => ?_
  split <;> exact h.trans h'

lemma stateReadData_ensures (n : ℕ) :
    Ensures (stateReadData n) m bs fun _ m' _ => RowsOnly n m m' := by
  refine ensures_get_bind (ensures_readU32_bind (ensures_readU32_bind ?_))
  split
  · exact ensures_pure (.refl n m)
  · split
    · exact ensures_pure (.refl n m)
    · split
      · exact ensures_pure (.refl n m)
      · refine (forAll_ensures_rows (readRLayer n) (fun l _ _ => readTensor_ensures _ n l.1) _).bind
          ?_
        intro b m1 rest h1
        split
        · exact (forAll_ensures_rows (readSLayer n) (fun l _ _ => readTensor_ensures _ n l.1) _).mono
            fun _ _ _ h2 => h1.trans h2
        · exact ensures_pure h1

/-- The loop over the records of a single sequence only reads positions. -/
lemma readSeqCells_ensures : ∀ (k i : ℕ) (ub : UBatch) (bs : List UInt8),
    Ensures (readSeqCells k i ub) m bs fun o m' _ => m' = m ∧
      ∀ ub', o = some ub' → ∃ pos, ub' = { ub with pos := pos } := by
  intro k
  induction k with
  | zero =>
    intro i ub bs
    refine ensures_pure ⟨rfl, ?_⟩
    rintro _ ⟨⟩
    exact ⟨ub.pos, rfl⟩
  | succ k ih =>
    intro i ub bs
    refine ensures_readI32_bind (ensures_readU32_bind ?_)
    split
    · exact ensures_pure ⟨rfl, fun _ h => by cases h⟩
    · refine (ih _ _ _).mono fun o m' _ h => ⟨h.1, fun ub' hub' => ?_⟩
      obtain ⟨pos, rfl⟩ := h.2 ub' hub'
      exact ⟨pos, rfl⟩

/-- What `state_read_meta` has done for sequence `s` with `n` records: `find_slot` has placed a
ubatch of one set, if there is a record. -/
def SeqRead (m : MemoryRecurrent) (s : ℤ) (n : ℕ) (m' : MemoryRecurrent) : Prop :=
  n = 0 ∧ m' = (m.seqRm s (-1) (-1)).2 ∨
    n = 1 ∧ ∃ ub : UBatch, ub.Sets ∧ ub.nSeqs = 1 ∧ ub.setIds 0 = [s] ∧
      (m.seqRm s (-1) (-1)).2.findSlot ub = some (true, m')

lemma Inv.readMetaSeq_ensures (h : Inv m) (s : ℤ) (n : ℕ) :
    Ensures (readMetaSeq n s) m bs fun b m' _ => b = true → SeqRead m s n m' := by
  have h1 : Inv (m.seqRm s (-1) (-1)).2 := (h.seqRm_effect s (-1) (-1)).inv h
  refine ensures_modify_bind ?_
  by_cases hn : n = 0
  · rw [if_pos hn]
    exact ensures_pure fun _ => .inl ⟨hn, rfl⟩
  rw [if_neg hn]
  refine ensures_get_bind ((readSeqCells_ensures _ _ _ _).bind ?_)
  rintro o m1 rest ⟨rfl, hub⟩
  cases o with
  | none => exact ensures_pure fun hb => by cases hb
  | some ub =>
    obtain ⟨pos, rfl⟩ := hub ub rfl
    set ub : UBatch := { UBatch.reserve (m.seqRm s (-1) (-1)).2.prm.nPosPerEmbd n 1 with
      pos := pos
      nSeqId := Function.update (fun _ => 0) 0 1
      seqId := Function.update (fun _ _ => 0) 0 fun _ => s } with hubdef
    have hset : ub.setIds 0 = [s] := by
      rw [UBatch.setIds, Nat.zero_mul]
      rfl
    have hsets : ub.Sets := by
      refine ⟨rfl, Nat.one_pos, fun k hk => ?_, fun k hk l hl _ _ _ => ?_⟩
      · obtain rfl : k = 0 := Nat.lt_one_iff.mp hk
        rw [hset]
        exact cons_ne_nil _ _
      · exact (Nat.lt_one_iff.mp hk).trans (Nat.lt_one_iff.mp hl).symm
    dsimp only
    split
    · exact ensures_stop
    · exact ensures_modify_bind (ensures_pure fun hb => by cases hb)
    · rename_i m2 hslot
      refine ensures_modify_bind (ensures_require_bind fun _ => ensures_require_bind fun _ =>
        ensures_require_bind fun _ => ensures_require_bind fun hfirst => ensures_require_bind
          fun hlast => ensures_pure fun _ => .inr ⟨?_, ub, hsets, rfl, hset, hslot⟩)
      -- the sequence is in one cell, so that there is one record
      have h2 : Inv m2 := h1.findSlot hsets hslot
      have heq := h2.eq_tail ((h2.tail_iff s m2.head).mpr hfirst) hlast
      omega

/-! ## The whole restore -/

/-- The rollback indices after the `set_rs_idx` at the end of `state_read`. -/
def resetIdx (m : MemoryRecurrent) (s : ℤ) : ℤ → ℕ :=
  if m.prm.nRsSeq = 0 then m.rsIdx
  else if s < 0 then fun _ => 0
  else Function.update m.rsIdx s 0

/-- What a successful `state_read` can do: the whole memory is replaced, a sequence is removed,
or it is brought in by `find_slot` and gets the saved row. -/
inductive RestoreEffect (m : MemoryRecurrent) (s : ℤ) (bytes : List UInt8) : MemoryRecurrent → Prop
  | whole {m1 : MemoryRecurrent} {n : ℕ} (rows : ℕ → RsRow) (hs : s = -1) (hn : n ≤ m.prm.size)
    (hfill : Filling m.prm n m1)
    (hnamed : RecordsNamed s bytes → ∀ t < n, (m1.cells t).seqId ≠ ∅) :
    RestoreEffect m s bytes { m1 with
      cells := fun i => if i < n then { m1.cells i with src := some i } else m1.cells i
      head := 0
      used := UInt32.ofNat n
      rows := rows }
  | gone (hs : s ≠ -1) : RestoreEffect m s bytes { (m.seqRm s (-1) (-1)).2 with
      rsIdx := (m.seqRm s (-1) (-1)).2.resetIdx s }
  | placed {ub : UBatch} {m1 : MemoryRecurrent} (rows : ℕ → RsRow) (hs : s ≠ -1) (hub : ub.Sets)
    (hone : ub.nSeqs = 1) (hset : ub.setIds 0 = [s])
    (hslot : (m.seqRm s (-1) (-1)).2.findSlot ub = some (true, m1))
    (hrows : ∀ i ≠ m1.head, rows i = m1.rows i) :
    RestoreEffect m s bytes { m1 with rows := rows, rsIdx := m1.resetIdx s }

/-- What `state_read_meta` leaves before the rows are kept. -/
def MetaRead (m : MemoryRecurrent) (s : ℤ) (n : ℕ) (bs : List UInt8) (m' : MemoryRecurrent) : Prop :=
  s ≠ -1 ∧ SeqRead m s n m' ∨ s = -1 ∧ n ≤ m.prm.size ∧ ∃ m1, Filling m.prm n m1 ∧
      (NamesIds n bs → ∀ t < n, (m1.cells t).seqId ≠ ∅) ∧
      m' = { m1 with head := 0, used := UInt32.ofNat n }

lemma Inv.stateReadMeta_ensures (h : Inv m) (s : ℤ) (n : ℕ) :
    Ensures (stateReadMeta n s) m bs fun b m' _ => b = true →
      ∃ m1, MetaRead m s n bs m1 ∧ m' = m1.keepRows n := by
  refine Ensures.bind (Q := fun b m1 _ => b = true → MetaRead m s n bs m1) ?_ fun b m1 rest hb => ?_
  · split
    · rename_i hs
      exact (h.readMetaSeq_ensures s n).mono fun b m1 _ hb hbt => .inl ⟨hs, hb hbt⟩
    · rename_i hs
      rw [not_not] at hs
      refine ensures_get_bind ?_
      split
      · exact ensures_pure fun hb => by cases hb
      · refine ensures_modify_bind (((filling_clear m true).readCells_ensures n).bind ?_)
        intro b m1 rest hb
        split
        · rename_i hbt
          obtain ⟨hfill, hnamed⟩ := hb hbt
          exact ensures_modify_bind (ensures_pure fun _ =>
            .inr ⟨hs, by omega, m1, hfill, hnamed, rfl⟩)
        · exact ensures_pure fun hbf => by cases hbf
  · split
    · rename_i hbt
      exact ensures_modify_bind (ensures_pure fun _ => ⟨m1, hb hbt, rfl⟩)
    · exact ensures_pure fun hbf => by cases hbf

/-- The rollback indices are reset. -/
lemma resetRsIdx_ensures (s : ℤ) (hrs : m.prm.nRsSeq ≠ 0) :
    Ensures (resetRsIdx s) m bs fun _ m' _ => m' = { m with rsIdx := m.resetIdx s } := by
  unfold resetRsIdx
  rw [resetIdx]
  split
  · exact ensures_modify rfl
  · exact ensures_require_bind fun _ => ensures_modify rfl

lemma Inv.stateRead_ensures (h : Inv m) (s : ℤ) (bytes : List UInt8) :
    Ensures (stateRead s) m bytes fun _ m' _ => ∃ m1 m2,
      MetaRead m s (toNat (bytes.take 4)) (bytes.drop 4) m1 ∧
      RowsOnly (toNat (bytes.take 4)) (m1.keepRows (toNat (bytes.take 4))) m2 ∧
      m' = { m2 with rsIdx := m2.resetIdx s } := by
  refine ensures_readU32_bind ?_
  set n := toNat (bytes.take 4)
  refine (h.stateReadMeta_ensures s n).bind fun b m1 rest hmeta => ?_
  refine Ensures.bind (Q := fun b' m2 _ => b' = true → b = true ∧ RowsOnly n m1 m2) ?_
    fun b' m2 rest' hdata => ?_
  · split
    · rename_i hbt
      exact ((stateReadData_ensures n).mono fun _ _ _ hrows _ => ⟨hbt, hrows⟩).catchAll
        fun _ _ hf => by cases hf
    · exact ensures_pure fun hf => by cases hf
  · split
    · rename_i hbt
      obtain ⟨hbt', hrows⟩ := hdata hbt
      obtain ⟨m0, hread, rfl⟩ := hmeta hbt'
      refine ensures_get_bind ?_
      split
      · rename_i hrs
        exact (resetRsIdx_ensures s hrs).mono fun _ m' _ heq => ⟨m0, m2, hread, hrows, heq⟩
      · rename_i hrs
        rw [not_not] at hrs
        refine ensures_pure ⟨m0, m2, hread, hrows, ?_⟩
        rw [resetIdx, if_pos hrs]
    · exact ensures_modify_bind ensures_throw

/-- The slot of a ubatch of one set is one cell. -/
lemma Placed.n_eq_one {m0 m2 : MemoryRecurrent} {ub : UBatch} {π : Equiv.Perm ℕ}
    (hp : Placed m0 ub m2 π m') (hone : ub.nSeqs = 1) : m'.n = 1 := by
  obtain ⟨k, hk, hlo⟩ := hp.lowest
  obtain ⟨l, hl, hhi⟩ := hp.highest
  have hkl : k = l := by omega
  rw [hkl, hhi] at hlo
  have hlo := Option.some.inj hlo
  have hle := hp.nSeqs_le
  omega

/-- What a successful `find_slot` has done. -/
lemma Inv.findSlot_true (h : Inv m) {ub : UBatch} (hub : ub.Sets)
    (hr : m.findSlot ub = some (true, m')) :
    (∀ s ∈ ub.listed, m.InSize s) ∧ ∃ m2 π, Placed (m.detached ub) ub m2 π m' := by
  obtain ⟨hin, m2, π, _, heq, hp⟩ | ⟨-, ss, -, heq⟩ := h.findSlot_cases hub hr
  · cases heq
    exact ⟨hin, m2, π, hp⟩
  · cases heq

/-- Keeping the rows of cells that keep theirs changes nothing. -/
lemma keepRows_eq_self {n : ℕ}
    (h : ∀ i, m.head ≤ i ∧ i < m.head + n → (m.cells i).src = some i) : m.keepRows n = m := by
  refine MemoryRecurrent.ext rfl (funext fun i => ?_) rfl rfl rfl rfl rfl rfl rfl
  change (if m.head ≤ i ∧ i < m.head + n then { m.cells i with src := some i } else m.cells i) = _
  split
  · rename_i hi
    rw [← h i hi]
  · rfl

variable {bytes : List UInt8}

/-- **What a successful restore can do.** -/
theorem Inv.restore_effect (h : Inv m) (hr : restored (stateRead s m bytes) = some m') :
    RestoreEffect m s bytes m' := by
  have hout : ∃ rest, stateRead s m bytes = ⟨.ok (), m', rest⟩ := by
    unfold restored at hr
    split at hr
    · rename_i hres
      cases hr
      exact ⟨(stateRead s m bytes).rest, by rw [← hres]⟩
    · cases hr
  obtain ⟨rest, hout⟩ := hout
  obtain ⟨m1, m2, hread, hrows, rfl⟩ := h.stateRead_ensures s bytes () m' rest hout
  set n := toNat (bytes.take 4) with hn
  rcases hread with ⟨hs, ⟨hn0, rfl⟩ | ⟨hn1, ub, hub, hone, hset, hslot⟩⟩ |
    ⟨hs, hle, m0, hfill, hnamed, rfl⟩
  · rw [keepRows_eq_self fun i hi => by omega] at hrows
    have hm2 : m2 = (m.seqRm s (-1) (-1)).2 := by
      rw [hrows.1]
      refine MemoryRecurrent.ext rfl rfl rfl rfl rfl rfl rfl rfl (funext fun i => ?_)
      exact hrows.2 i (by omega)
    rw [hm2]
    exact .gone hs
  · obtain ⟨-, m0, π, hp⟩ := ((h.seqRm_effect s (-1) (-1)).inv h).findSlot_true hub hslot
    have hn1' := hp.n_eq_one hone
    rw [hn1, keepRows_eq_self fun i hi => (hp.src_in i (by rwa [InSlot, hn1'])).1] at hrows
    have heq : { m2 with rsIdx := m2.resetIdx s } =
        { m1 with rows := m2.rows, rsIdx := m1.resetIdx s } := by
      rw [hrows.1]
      rfl
    rw [heq]
    exact .placed m2.rows hs hub hone hset hslot fun i hi => hrows.2 i (by omega)
  · have heq : { m2 with rsIdx := m2.resetIdx s } = { m0 with
        cells := fun i => if i < n then { m0.cells i with src := some i } else m0.cells i
        head := 0
        used := UInt32.ofNat n
        rows := m2.rows } := by
      rw [hrows.1]
      refine MemoryRecurrent.ext rfl (funext fun i => ?_) rfl rfl rfl rfl rfl ?_ rfl
      · change (if 0 ≤ i ∧ i < 0 + n then _ else _) = _
        simp only [Nat.zero_le, true_and, Nat.zero_add]
      · change (if m0.prm.nRsSeq = 0 then m0.rsIdx else if s < 0 then fun _ => 0
          else Function.update m0.rsIdx s 0) = _
        rw [hfill.rsIdx]
        simp
    rw [heq]
    exact .whole m2.rows hs hle hfill fun hnamed' => hnamed (hnamed' hs)

/-! ## The invariant -/

/-- A memory that has been filled, with its rows kept. -/
lemma Filling.inv {n : ℕ} (hfill : Filling p n m) (hn : n ≤ p.size) (hprm : m'.prm = m.prm)
    (hcells : m'.cells = fun i => if i < n then { m.cells i with src := some i } else m.cells i)
    (htail : m'.tail = m.tail) (hhead : m'.head = 0) : Inv m' := by
  have hids : ∀ i, (m'.cells i).seqId = (m.cells i).seqId := fun i => by
    rw [hcells]
    dsimp only
    split <;> rfl
  have hsrc : ∀ i, (m'.cells i).src = if i < n then some i else none := fun i => by
    rw [hcells]
    dsimp only
    split
    · rfl
    · exact hfill.src i
  refine ⟨fun s t => ?_, fun t hne => ?_, fun t s hs => ?_, fun t hne => ?_, fun t => ?_, ?_⟩
  · rw [htail, hids]
    exact hfill.tail_iff s t
  · rw [hids] at hne
    rw [hprm, hfill.prm]
    exact lt_of_lt_of_le (hfill.lt t hne) hn
  · rw [hids] at hs
    rw [InSize, hprm]
    exact hfill.inSize t s hs
  · rw [hids] at hne
    rw [hsrc, if_pos (hfill.lt t hne)]
  · rw [hsrc]
    split
    · exact .inr rfl
    · exact .inl rfl
  · rw [hhead]
    exact m'.prm.size_pos

lemma RestoreEffect.inv (he : RestoreEffect m s bytes m') (h : Inv m) : Inv m' := by
  cases he with
  | whole rows hs hn hfill hnamed => exact hfill.inv hn rfl rfl rfl rfl
  | gone hs =>
    have h1 := (h.seqRm_effect s (-1) (-1)).inv h
    exact h1.congr rfl rfl rfl h1.head_lt
  | placed rows hs hub hone hset hslot hrows =>
    have h1 := ((h.seqRm_effect s (-1) (-1)).inv h).findSlot hub hslot
    exact h1.congr rfl rfl rfl h1.head_lt

/-- The slot is counted anew. -/
lemma Inv.findSlot_usedOk (h : Inv m) (hu : UsedOk m) {ub : UBatch} (hub : ub.Sets)
    {r : Bool × MemoryRecurrent} (hr : m.findSlot ub = some r) : UsedOk r.2 := by
  obtain ⟨-, _, _, m', rfl, hp⟩ | ⟨-, ss, -, rfl⟩ := h.findSlot_cases hub hr
  · exact usedOk_ofNat hp.used
  · have hw : UsedOk (m.wrapHead ub.nSeqs) := by
      rw [wrapHead_frame]
      exact hu
    exact hw.leaveAll (h.wrapHead ub.nSeqs) ss

lemma Inv.findSlot_freePos (h : Inv m) (hf : FreePos m) {ub : UBatch} (hub : ub.Sets)
    {r : Bool × MemoryRecurrent} (hr : m.findSlot ub = some r) : FreePos r.2 := by
  have hw : FreePos (m.wrapHead ub.nSeqs) := by
    rw [wrapHead_frame]
    exact hf
  obtain ⟨-, _, _, m', rfl, hp⟩ | ⟨-, ss, -, rfl⟩ := h.findSlot_cases hub hr
  · exact hp.freePos (hw.leaveAll (h.wrapHead ub.nSeqs) ub.joined) hub
  · exact hw.leaveAll (h.wrapHead ub.nSeqs) ss

/-- The first `n` cells are in use, and no other. -/
lemma Filling.countUsed_eq {n : ℕ} (hfill : Filling p n m) (hn : n ≤ p.size)
    (hfull : ∀ t < n, (m.cells t).seqId ≠ ∅) : m.countUsed = n := by
  have hset : (Finset.range m.prm.size).filter (fun i => !(m.cells i).isEmpty) = Finset.range n := by
    ext i
    rw [Finset.mem_filter, Finset.mem_range, Finset.mem_range, hfill.prm]
    simp only [MemCell.isEmpty, Bool.not_eq_true', decide_eq_false_iff_not]
    exact ⟨fun hi => hfill.lt i hi.2, fun hi => ⟨by omega, hfull i hi⟩⟩
  rw [countUsed, countCells, hset, Finset.card_range]

lemma RestoreEffect.usedOk (he : RestoreEffect m s bytes m') (h : Inv m) (hu : UsedOk m)
    (hnamed : RecordsNamed s bytes) : UsedOk m' := by
  cases he with
  | @whole m1 n rows hs hn hfill hfull =>
    have hcount := hfill.countUsed_eq hn (hfull hnamed)
    refine usedOk_ofNat (congrArg UInt32.ofNat (hcount.symm.trans (Eq.symm ?_)))
    refine countUsed_congr rfl fun i => ?_
    dsimp only
    split <;> rfl
  | gone hs => exact ((h.seqRm_effect s (-1) (-1)).usedOk h hu).congr rfl rfl fun _ => Iff.rfl
  | placed rows hs hub hone hset hslot hrows =>
    have he := h.seqRm_effect s (-1) (-1)
    exact ((he.inv h).findSlot_usedOk (he.usedOk h hu) hub hslot).congr rfl rfl fun _ => Iff.rfl

lemma RestoreEffect.freePos (he : RestoreEffect m s bytes m') (h : Inv m) (hf : FreePos m)
    (hnamed : RecordsNamed s bytes) : FreePos m' := by
  cases he with
  | @whole m1 n rows hs hn hfill hfull =>
    intro i hempty
    dsimp only at hempty ⊢
    split at hempty
    · rename_i hi
      exact absurd hempty (hfull hnamed i hi)
    · rename_i hi
      rw [if_neg hi]
      exact hfill.free i (by omega)
  | gone hs => exact (h.seqRm_effect s (-1) (-1)).freePos h hf
  | placed rows hs hub hone hset hslot hrows =>
    have he := h.seqRm_effect s (-1) (-1)
    exact (he.inv h).findSlot_freePos (he.freePos h hf) hub hslot

end Llama.MemoryRecurrent
