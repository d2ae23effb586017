import Llama.Recurrent.Decode

/-!
# The rows that a decode moves

Without rollback snapshots the graph of a ubatch copies a row to every cell of the slot.  No
sequence loses its state: the row that is zeroed is one that no cell points into, and all rows
are read before any is written.  Only the sequences that are listed after the first one of a
set get another state, that of the first one.

A sequence without a cell may be given an empty cell that already has a row.  That this row
is zeroed needs the graph to run after every `find_slot` (`IdleZero`).
-/

namespace Llama.MemoryRecurrent

open List

variable {m m' m0 m2 : MemoryRecurrent} {ub : UBatch} {π : Equiv.Perm ℕ} {s : ℤ} {t i : ℕ}

/-! ## The copies -/

/-- The state of a sequence: the row of its cell. -/
def stateOf (m : MemoryRecurrent) (s : ℤ) : RsRow :=
  match m.tail s with
  | none => m.prm.zeroRow
  | some t => m.rows t

lemma stateOf_some (ht : m.tail s = some t) : m.stateOf s = m.rows t := by
  rw [stateOf, ht]

/-- The memory after the copies of the graph. -/
def copied (m : MemoryRecurrent) : MemoryRecurrent :=
  let (idx, m) := sCopies (List.range m.n) m
  { m with rows := copyRows m.prm.zeroRow m.rsZ m.head idx m.rows }

/-- The rows that the copies read. -/
def zeroed (m : MemoryRecurrent) : ℕ → RsRow :=
  match m.rsZ with
  | none => m.rows
  | some z => Function.update m.rows z m.prm.zeroRow

lemma zeroed_of_ne (h : m.rsZ ≠ some i) : m.zeroed i = m.rows i := by
  unfold zeroed
  cases hz : m.rsZ with
  | none => rfl
  | some z => exact Function.update_of_ne (fun heq => h (hz.trans (congrArg some heq.symm))) _ _

lemma zeroed_of_zero (h : m.rsZ = some i ∨ m.rows i = m.prm.zeroRow) :
    m.zeroed i = m.prm.zeroRow := by
  by_cases hz : m.rsZ = some i
  · unfold zeroed
    rw [hz]
    exact Function.update_self _ _ _
  · rw [zeroed_of_ne hz]
    exact h.resolve_left hz

section

variable (hrs : m.prm.nRsSeq = 0)

include hrs

/-- Without snapshots nothing is reset. -/
lemma sCopies_of_zero (is : List ℕ) :
    sCopies is m = (is.map fun i => (m.cells (m.head + i)).src0, m) := by
  have hcopy : ∀ i, m.sCopy i = ((m.cells (m.head + i)).src0, m) := fun i => by
    exact if_pos hrs
  induction is with
  | nil => rfl
  | cons i is ih =>
    unfold sCopies
    rw [hcopy]
    dsimp only
    rw [ih, map_cons]

/-- The copies change rows only, and those of the slot. -/
lemma copied_eq : m.copied = { m with rows := m.copied.rows } ∧
      ∀ i, m.copied.rows i = if m.InSlot i then (match (m.cells i).src0 with
        | some r => m.zeroed r
        | none => m.zeroed i) else m.zeroed i := by
  unfold copied
  rw [sCopies_of_zero hrs]
  refine ⟨rfl, fun i => ?_⟩
  change (if m.head ≤ i then _ else _) = _
  by_cases hi : m.InSlot i
  · have hidx : ((range m.n).map fun i => (m.cells (m.head + i)).src0)[i - m.head]? =
        some (m.cells i).src0 := by
      have hlt : i - m.head < m.n := by
        have := hi.1
        have := hi.2
        omega
      rw [getElem?_map, getElem?_range hlt, Option.map_some, Nat.add_sub_cancel' hi.1]
    rw [if_pos hi, if_pos hi.1, hidx]
    cases (m.cells i).src0 <;> rfl
  · split
    · rename_i hle
      have hidx : ((range m.n).map fun i => (m.cells (m.head + i)).src0)[i - m.head]? = none := by
        refine getElem?_eq_none ?_
        rw [length_map, length_range]
        by_contra hlt
        exact hi ⟨hle, by omega⟩
      rw [hidx]
      rfl
    · rfl

lemma copied_rows_of_src0 (hi : m.InSlot i) {r : ℕ}
    (hsrc : (m.cells i).src0 = some r) : m.copied.rows i = m.zeroed r := by
  rw [(copied_eq hrs).2, if_pos hi, hsrc]

lemma copied_rows_of_notIn (hi : ¬ m.InSlot i) : m.copied.rows i = m.zeroed i := by
  rw [(copied_eq hrs).2, if_neg hi]

lemma copied_stateOf (s : ℤ) : m.copied.stateOf s = match m.tail s with
      | none => m.prm.zeroRow
      | some t => m.copied.rows t := by
  unfold stateOf
  have hframe := (copied_eq hrs).1
  have htail : m.copied.tail = m.tail := by rw [hframe]
  have hprm : m.copied.prm = m.prm := by rw [hframe]
  rw [htail, hprm]

end

/-- The row that is zeroed is not one that a claimed cell points into. -/
lemma Placed.zeroed_src (hp : Placed m0 ub m2 π m') {j r : ℕ} (hj : j < m0.prm.size)
    (hsrc : (m2.cells j).src = some r) : m'.zeroed r = m0.rows r := by
  rw [zeroed_of_ne fun hz => (hp.zero r hz).2 j hj hsrc, hp.rows]

/-- A sequence that has a cell keeps its state, unless it is listed after the first one of its
set. -/
lemma Placed.stateOf_copied (hp : Placed m0 ub m2 π m') (h0 : Inv m0) (hub : ub.Sets)
    (hrs : m'.prm.nRsSeq = 0) (hs : s ∉ ub.joined) (ht : m0.tail s = some t) :
    m'.copied.stateOf s = m0.rows t := by
  rw [copied_stateOf hrs]
  by_cases hlist : s ∈ ub.listed
  · -- its row moves to its place
    have hfirst : s ∈ ub.firstIds := (hub.mem_listed_iff.mp hlist).resolve_right hs
    rw [ub.firstIds_eq] at hfirst
    obtain ⟨k, hk, rfl⟩ := mem_map.mp hfirst
    rw [mem_range] at hk
    have htail := hp.tail_first hk
    rw [hp.tail_new k hk _ (hub.firstId_mem hk)]
    dsimp only
    rw [copied_rows_of_src0 hrs (hp.inSlot (inPlace_add hk)) (hp.src0_first hk ht)]
    exact hp.zeroed_src (hp.claimed.lt _ _ htail)
      (hp.claimed.moved _ (firstId_mem_firstIds hk) t ht _ htail)
  · rw [hp.tail_old' hub hlist, ht]
    change m'.copied.rows (π t) = _
    by_cases hslot : m'.InSlot (π t)
    · have hsrc : (m2.cells t).src = some t := by
        have hrest := (hp.cell_rest (hp.not_inPlace hub hlist ht)).2.2
        rw [Equiv.symm_apply_apply] at hrest
        rw [hrest, h0.src_full t (h0.ne_empty ht)]
      rw [copied_rows_of_src0 hrs hslot (hp.src0_other h0 hub hlist ht hslot)]
      exact hp.zeroed_src (h0.tail_lt ht) hsrc
    · rw [copied_rows_of_notIn hrs hslot, zeroed_of_ne fun hz => hslot (hp.zero _ hz).1,
        hp.stay_of_notIn hslot, hp.rows]

/-- An empty cell has a zeroed row, if it has one. -/
def IdleZero (m : MemoryRecurrent) : Prop :=
  ∀ i, (m.cells i).seqId = ∅ → (m.cells i).src ≠ none → m.rows i = m.prm.zeroRow

/-- A sequence that has no cell starts from the zeroed state. -/
lemma Placed.stateOf_copied_fresh (hp : Placed m0 ub m2 π m') (h0 : Inv m0) (hub : ub.Sets)
    (hrs : m'.prm.nRsSeq = 0) (hz : IdleZero m0) (hs : s ∉ ub.joined) (ht : m0.tail s = none) :
    m'.copied.stateOf s = m0.prm.zeroRow := by
  rw [copied_stateOf hrs]
  by_cases hlist : s ∈ ub.listed
  · have hfirst : s ∈ ub.firstIds := (hub.mem_listed_iff.mp hlist).resolve_right hs
    rw [ub.firstIds_eq] at hfirst
    obtain ⟨k, hk, rfl⟩ := mem_map.mp hfirst
    rw [mem_range] at hk
    obtain ⟨r, hsrc, hr⟩ := hp.src0_fresh h0 hk ht
    rw [hp.tail_new k hk _ (hub.firstId_mem hk)]
    dsimp only
    rw [copied_rows_of_src0 hrs (hp.inSlot (inPlace_add hk)) hsrc, ← hp.prm]
    refine zeroed_of_zero (hr.imp_right fun ⟨hempty, hself⟩ => ?_)
    rw [hp.rows, hp.prm]
    exact hz r hempty (hself ▸ Option.some_ne_none r)
  · rw [hp.tail_old' hub hlist, ht, ← hp.prm]
    rfl

/-! ## The empty cells -/

lemma IdleZero.of_cells (hz : IdleZero m) (hprm : m'.prm = m.prm) (hrows : m'.rows = m.rows)
    (hcells : ∀ i, (m'.cells i).seqId = ∅ → (m'.cells i).src ≠ none →
      (m.cells i).seqId = ∅ ∧ (m.cells i).src ≠ none) : IdleZero m' := by
  intro i hempty hsrc
  obtain ⟨hempty', hsrc'⟩ := hcells i hempty hsrc
  rw [hrows, hprm]
  exact hz i hempty' hsrc'

lemma idleZero_of_none (h : ∀ i, (m.cells i).seqId = ∅ → (m.cells i).src = none) : IdleZero m :=
  fun i hempty hsrc => absurd (h i hempty) hsrc

/-- A cell that becomes empty loses its row. -/
lemma IdleZero.leave (hz : IdleZero m) (h : Inv m) (s : ℤ) : IdleZero (m.leave s) := by
  refine hz.of_cells (leave_prm m s) (leave_rows m s) fun i hempty hsrc => ?_
  rw [h.leave_cells] at hempty hsrc
  unfold MemCell.without at hempty hsrc
  by_cases hone : (m.cells i).seqId = {s}
  · rw [if_pos hone] at hsrc
    exact absurd rfl hsrc
  · rw [if_neg hone] at hempty hsrc
    exact ⟨((Finset.erase_eq_empty_iff _ _).mp hempty).resolve_right hone, hsrc⟩

lemma IdleZero.leaveAll (hz : IdleZero m) (h : Inv m) (ss : List ℤ) : IdleZero (m.leaveAll ss) := by
  induction ss generalizing m with
  | nil => exact hz
  | cons s ss ih => exact ih (hz.leave h s) (h.leave s)

lemma IdleZero.wrapHead (hz : IdleZero m) (nSeqs : ℕ) : IdleZero (m.wrapHead nSeqs) := by
  rw [wrapHead_frame]
  exact hz

lemma IdleZero.detached (hz : IdleZero m) (h : Inv m) (ub : UBatch) : IdleZero (m.detached ub) :=
  (hz.wrapHead ub.nSeqs).leaveAll (h.wrapHead ub.nSeqs) ub.joined

lemma RmEffect.idleZero {p0 p1 : ℤ} (he : RmEffect m s p0 p1 m') (h : Inv m)
    (hz : IdleZero m) : IdleZero m' := by
  cases he with
  | kept _ => exact hz
  | reset _ => exact hz
  | rolledBack _ ht _ =>
    refine hz.of_cells rfl rfl fun i hempty hsrc => ?_
    rw [rollBack, (update_pos_seqId m _ _ i).1] at hempty
    rw [rollBack, (update_pos_seqId m _ _ i).2] at hsrc
    exact ⟨hempty, hsrc⟩
  | removed _ ht _ _ hhead =>
    have hreset : IdleZero (m.resetOnAll s p0 p1) := by
      unfold MemoryRecurrent.resetOnAll
      split <;> exact hz
    exact hreset.leave (h.resetOnAll s p0 p1) s

lemma IdleZero.seqCp (hz : IdleZero m) (h : Inv m) (src dst : ℤ) : IdleZero (m.seqCp src dst) := by
  rcases seqCp_cases (m := m) src dst with heq | ⟨-, -, -, -, heq⟩ | ⟨t, hne, -, -, ht, heq⟩
  · rwa [heq]
  · rw [heq]
    exact hz.leave h dst
  · rw [heq]
    refine (hz.leave h dst).of_cells rfl rfl fun i hempty hsrc => ?_
    rw [join_eq_empty_iff (h.leave_ne_empty hne ht)] at hempty
    rw [(join_pos_src _ dst t i).2] at hsrc
    exact ⟨hempty, hsrc⟩

lemma idleZero_seqKeep (m : MemoryRecurrent) (s : ℤ) : IdleZero (m.seqKeep s) := by
  refine idleZero_of_none fun i hempty => ?_
  rw [seqKeep_seqId] at hempty
  split at hempty
  · exact absurd hempty (Finset.singleton_ne_empty s)
  · rename_i hmem
    simp only [MemoryRecurrent.seqKeep, if_neg hmem]
    rfl

lemma IdleZero.mapPos (hz : IdleZero m) (s p0 p1 : ℤ) (f : ℤ → ℤ) :
    IdleZero (m.mapPos s p0 p1 f) := by
  rcases mapPos_cases (m := m) s p0 p1 f with heq | ⟨t, -, heq⟩
  · rwa [heq]
  · rw [heq]
    refine hz.of_cells rfl rfl fun i hempty hsrc => ?_
    rw [(update_pos_seqId m _ _ i).1] at hempty
    rw [(update_pos_seqId m _ _ i).2] at hsrc
    exact ⟨hempty, hsrc⟩

/-- An empty cell was empty before, in its old place. -/
lemma Placed.empty_before (hp : Placed m0 ub m2 π m') (hub : ub.Sets)
    (hempty : (m'.cells i).seqId = ∅) :
    ¬ InPlace m' ub i ∧ (m0.cells (π.symm i)).seqId = ∅ := by
  have hplace : ¬ InPlace m' ub i := by
    intro hplace
    obtain ⟨k, hk, rfl⟩ := hplace.exists_eq
    rw [(hp.cell_new k hk).1, toFinset_eq_empty_iff] at hempty
    exact hub.ne_nil k hk hempty
  refine ⟨hplace, ?_⟩
  by_contra hne
  exact hp.claimed.full _ hne ((hp.cell_old i hplace).1 ▸ hempty)

/-- An empty cell outside the slot is as it was. -/
lemma Placed.idle_out (hp : Placed m0 ub m2 π m') (hub : ub.Sets) (hz : IdleZero m0)
    (hslot : ¬ m'.InSlot i) (hempty : (m'.cells i).seqId = ∅) (hsrc : (m'.cells i).src ≠ none) :
    m0.rows i = m0.prm.zeroRow := by
  obtain ⟨hplace, hempty0⟩ := hp.empty_before hub hempty
  have hrest := (hp.cell_rest hplace).2.2
  rw [hp.symm_of_notIn hslot] at hrest hempty0
  rw [hp.src_out i hslot, hrest] at hsrc
  exact hz i hempty0 hsrc

/-- An empty cell of the slot gets a zeroed row. -/
lemma Placed.idle_in (hp : Placed m0 ub m2 π m') (h0 : Inv m0) (hub : ub.Sets)
    (hz : IdleZero m0) (hrs : m'.prm.nRsSeq = 0) (hslot : m'.InSlot i)
    (hempty : (m'.cells i).seqId = ∅) : m'.copied.rows i = m'.prm.zeroRow := by
  obtain ⟨hplace, hempty0⟩ := hp.empty_before hub hempty
  obtain ⟨-, hsrc, hne⟩ := hp.src_in i hslot
  rw [(hp.cell_rest hplace).2.2] at hsrc
  obtain ⟨r, hr⟩ := Option.ne_none_iff_exists'.mp hne
  rw [copied_rows_of_src0 hrs hslot hr]
  refine zeroed_of_zero ?_
  rcases h0.src_self (π.symm i) with hnone | hself
  · rw [hnone, Option.none_or] at hsrc
    exact .inl (hsrc ▸ hr)
  · rw [hself, hr] at hsrc
    cases hsrc
    refine .inr ?_
    rw [hp.rows, hp.prm]
    exact hz _ hempty0 (hself ▸ Option.some_ne_none _)

lemma compute_eq (hrs : m.prm.nRsSeq = 0) (nSeqs : ℕ) (state : ℕ → ℕ → RsRow) :
    m.compute nSeqs state = { m with
      rows := writeRows m.prm.size 0 m.head nSeqs state m.copied.rows } := by
  unfold compute copied
  rw [sCopies_of_zero hrs]
  dsimp only
  rw [hrs]

/-- The model writes the rows of the ubatch only. -/
lemma Placed.idleZero_compute (hp : Placed m0 ub m2 π m') (h0 : Inv m0) (hub : ub.Sets)
    (hz : IdleZero m0) (hrs : m'.prm.nRsSeq = 0) (state : ℕ → ℕ → RsRow) :
    IdleZero (m'.compute ub.nSeqs state) := by
  intro i hempty hsrc
  rw [compute_eq hrs] at hempty hsrc ⊢
  have hplace := (hp.empty_before hub hempty).1
  have hout : ¬ (i / m'.prm.size ≤ 0 ∧ m'.head ≤ i % m'.prm.size ∧
      i % m'.prm.size < m'.head + ub.nSeqs) := by
    rintro ⟨hdiv, hmod⟩
    have hlt : i < m'.prm.size :=
      (Nat.div_eq_zero_iff_lt m'.prm.size_pos).mp (Nat.le_zero.mp hdiv)
    rw [Nat.mod_eq_of_lt hlt] at hmod
    exact hplace hmod
  change writeRows m'.prm.size 0 m'.head ub.nSeqs state m'.copied.rows i = m'.prm.zeroRow
  unfold writeRows
  rw [if_neg hout]
  by_cases hslot : m'.InSlot i
  · exact hp.idle_in h0 hub hz hrs hslot hempty
  · rw [copied_rows_of_notIn hrs hslot, zeroed_of_ne fun heq => hslot (hp.zero _ heq).1, hp.rows,
      hp.prm]
    exact hp.idle_out hub hz hslot hempty hsrc

/-- A restored sequence is in the one cell whose row is restored. -/
lemma RestoreEffect.idleZero {bytes : List UInt8} (he : RestoreEffect m s bytes m') (h : Inv m)
    (hz : IdleZero m) (hnamed : RecordsNamed s bytes) : IdleZero m' := by
  cases he with
  | @whole m1 n rows hs hn hfill hfull =>
    refine idleZero_of_none fun i hempty => ?_
    dsimp only at hempty ⊢
    split at hempty
    · rename_i hi
      exact absurd hempty (hfull hnamed i hi)
    · rename_i hi
      rw [if_neg hi]
      exact hfill.src i
  | gone hs => exact (h.seqRm_effect s (-1) (-1)).idleZero h hz
  | @placed ub m1 rows hs hub hone hset hslot hrows =>
    have he := h.seqRm_effect s (-1) (-1)
    obtain ⟨-, m2, π, hp⟩ := (he.inv h).findSlot_true hub hslot
    have hz0 := (he.idleZero h hz).detached (he.inv h) ub
    intro i hempty hsrc
    have hplace := (hp.empty_before hub hempty).1
    have hhead : i ≠ m1.head := fun heq => hplace ⟨heq.ge, by omega⟩
    have hout : ¬ m1.InSlot i := fun hslot => by
      have := hp.n_eq_one hone
      have := hslot.1
      have := hslot.2
      omega
    change rows i = m1.prm.zeroRow
    rw [hrows i hhead, hp.rows, hp.prm]
    exact hp.idle_out hub hz0 hout hempty hsrc

/-! ## Runs -/

lemma RmEffect.prm {p0 p1 : ℤ} (he : RmEffect m s p0 p1 m') : m'.prm = m.prm := by
  cases he with
  | kept _ => rfl
  | reset _ => rfl
  | rolledBack _ _ _ => rfl
  | removed _ _ _ _ _ =>
    rw [leave_prm, resetOnAll_prm]

lemma mapPos_prm (m : MemoryRecurrent) (s p0 p1 : ℤ) (f : ℤ → ℤ) :
    (m.mapPos s p0 p1 f).prm = m.prm := by
  rcases mapPos_cases (m := m) s p0 p1 f with heq | ⟨t, -, heq⟩
  · rw [heq]
  · rw [heq]

/-- The parameters are those of the constructor. -/
lemma Inv.step_prm (h : Inv m) {op : Op} (hcall : op.Called) (hs : m.step op = some m') :
    m'.prm = m.prm := by
  cases op with
  | clear data =>
    cases hs
    rfl
  | seqRm s p0 p1 =>
    cases hs
    exact (h.seqRm_effect s p0 p1).prm
  | seqCp src dst =>
    cases hs
    rcases seqCp_cases (m := m) src dst with heq | ⟨-, -, -, -, heq⟩ | ⟨t, -, -, -, -, heq⟩
    · rw [heq]
    · rw [heq, leave_prm]
    · rw [heq]
      exact leave_prm m dst
  | seqKeep s =>
    cases hs
    rfl
  | seqAdd s p0 p1 shift =>
    cases hs
    unfold MemoryRecurrent.seqAdd
    split
    · rfl
    · exact mapPos_prm m s p0 p1 _
  | seqDiv s p0 p1 d =>
    cases hs
    unfold MemoryRecurrent.seqDiv
    split
    · rfl
    · exact mapPos_prm m s p0 p1 _
  | prepare ubs =>
    obtain ⟨r, hr, rfl⟩ := Option.map_eq_some_iff.mp hs
    have hubs : ∀ ub ∈ ubs, ub.Sets := fun ub hub => (hcall ub hub).choose_spec.sets
    obtain ⟨n, rsZ, heq⟩ := h.prepare_frame hubs hr
    rw [heq]
  | findSlot ub =>
    obtain ⟨r, hr, rfl⟩ := Option.map_eq_some_iff.mp hs
    exact (h.findSlot_frame hcall.choose_spec.sets hr).1
  | compute nSeqs state =>
    cases hs
    rw [compute_frame]
  | stateRead s bytes =>
    have hrm := h.seqRm_effect s (-1) (-1)
    cases h.restore_effect hs with
    | whole rows hs hn hfill hnamed => exact hfill.prm
    | gone hs => exact hrm.prm
    | placed rows hs hub hone hset hslot hrows =>
      exact ((hrm.inv h).findSlot_frame hub hslot).1.trans hrm.prm

/-- A call of a context, which runs the graph of every slot that it finds. -/
inductive Call
  | op (op : Op)
  | decode (ub : UBatch) (state : ℕ → ℕ → RsRow)

/-- The effect of a call. -/
def callStep (m : MemoryRecurrent) : Call → Option MemoryRecurrent
  | .op op => m.step op
  | .decode ub state =>
    (m.findSlot ub).map fun r => if r.1 then r.2.compute ub.nSeqs state else r.2

/-- Slots are found by decodes only, and the records of a restored memory name sequences. -/
def Call.Whole : Call → Prop
  | .op (.findSlot _) => False
  | .op (.compute _ _) => False
  | .op (.stateRead s bytes) => RecordsNamed s bytes
  | .op o => o.Called
  | .decode ub _ => ∃ n, ub.FromBatch n

/-- What the calls of a context keep. -/
structure Idle (p : RsParams) (m : MemoryRecurrent) : Prop where
  inv : Inv m
  prm : m.prm = p
  zero : IdleZero m

lemma Idle.decode {p : RsParams} (h : Idle p m) (hrs : p.nRsSeq = 0) (hub : ub.Sets)
    (state : ℕ → ℕ → RsRow) (hs : m.callStep (.decode ub state) = some m') : Idle p m' := by
  obtain ⟨r, hr, rfl⟩ := Option.map_eq_some_iff.mp hs
  have hinv := h.inv.findSlot hub hr
  have hprm := ((h.inv.findSlot_frame hub hr).1).trans h.prm
  obtain ⟨hin, _, _, m', rfl, hp⟩ | ⟨-, ss, -, rfl⟩ := h.inv.findSlot_cases hub hr
  · have hrs' : m'.prm.nRsSeq = 0 := by
      rw [show m'.prm = p from hprm]
      exact hrs
    refine ⟨?_, ?_, ?_⟩
    · rw [compute_frame]
      exact hinv.congr rfl rfl rfl hinv.head_lt
    · rw [compute_frame]
      exact hprm
    · exact hp.idleZero_compute (h.inv.detached ub) hub (h.zero.detached h.inv ub) hrs' state
  · exact ⟨hinv, hprm, (h.zero.wrapHead ub.nSeqs).leaveAll (h.inv.wrapHead ub.nSeqs) ss⟩

lemma Idle.step {p : RsParams} (h : Idle p m) (hrs : p.nRsSeq = 0) {c : Call} (hw : c.Whole)
    (hs : m.callStep c = some m') : Idle p m' := by
  cases c with
  | decode ub state => exact h.decode hrs hw.choose_spec.sets state hs
  | op op =>
    have hcall : op.Called := by
      cases op with
      | _ => first | exact hw | trivial
    refine ⟨h.inv.step hcall hs, (h.inv.step_prm hcall hs).trans h.prm, ?_⟩
    cases op with
    | clear data =>
      cases hs
      exact idleZero_of_none fun _ _ => rfl
    | seqRm s p0 p1 =>
      cases hs
      exact (h.inv.seqRm_effect s p0 p1).idleZero h.inv h.zero
    | seqCp src dst =>
      cases hs
      exact h.zero.seqCp h.inv src dst
    | seqKeep s =>
      cases hs
      exact idleZero_seqKeep m s
    | seqAdd s p0 p1 shift =>
      cases hs
      unfold MemoryRecurrent.seqAdd
      split
      · exact h.zero
      · exact h.zero.mapPos s p0 p1 _
    | seqDiv s p0 p1 d =>
      cases hs
      unfold MemoryRecurrent.seqDiv
      split
      · exact h.zero
      · exact h.zero.mapPos s p0 p1 _
    | prepare ubs =>
      obtain ⟨r, hr, rfl⟩ := Option.map_eq_some_iff.mp hs
      have hubs : ∀ ub ∈ ubs, ub.Sets := fun ub hub => (hcall ub hub).choose_spec.sets
      obtain ⟨n, rsZ, heq⟩ := h.inv.prepare_frame hubs hr
      rw [heq]
      exact h.zero
    | findSlot ub => exact hw.elim
    | compute nSeqs state => exact hw.elim
    | stateRead s bytes => exact (h.inv.restore_effect hs).idleZero h.inv h.zero hw

lemma idle_new (p : RsParams) : Idle p (new p) :=
  ⟨inv_new p, rfl, idleZero_of_none fun _ _ => rfl⟩

/-! ## No state is lost -/

/-- The sequences of the ubatch are in their places, in order, and after the copies of the graph
every sequence has its state, but for those that are listed after the first one of a set, which
get that of the first one. -/
structure Carried (m : MemoryRecurrent) (ub : UBatch) (m' : MemoryRecurrent) : Prop where
  nSeqs_le : ub.nSeqs ≤ m'.n
  fits : m'.head + m'.n ≤ m.prm.size
  cells : ∀ k < ub.nSeqs, (m'.cells (m'.head + k)).seqId = (ub.setIds k).toFinset
  tails : ∀ k < ub.nSeqs, ∀ s ∈ ub.setIds k, m'.tail s = some (m'.head + k)
  kept : ∀ s ∉ ub.joined, ∀ t, m.tail s = some t → m'.copied.stateOf s = m.stateOf s
  shared : ∀ k < ub.nSeqs, ∀ s ∈ ub.setIds k, m'.copied.stateOf s = m'.copied.stateOf (ub.firstId k)

lemma detached_rows (m : MemoryRecurrent) (ub : UBatch) : (m.detached ub).rows = m.rows := by
  rw [MemoryRecurrent.detached, (leaveAll_frame _ _).2.2.2, wrapHead_frame]

lemma Placed.carried (hp : Placed (m.detached ub) ub m2 π m') (h : Inv m) (hub : ub.Sets)
    (hrs : m'.prm.nRsSeq = 0) : Carried m ub m' where
  nSeqs_le := hp.nSeqs_le
  fits := by
    rw [← detached_prm m ub]
    exact hp.fits
  cells := fun k hk => (hp.cell_new k hk).1
  tails := hp.tail_new
  kept := by
    intro s hs t ht
    rw [stateOf_some ht, ← detached_rows m ub]
    exact hp.stateOf_copied (h.detached ub) hub hrs hs ((detached_tail_of_notMem hs).trans ht)
  shared := by
    intro k hk s hs
    rw [copied_stateOf hrs, copied_stateOf hrs, hp.tail_new k hk s hs,
      hp.tail_new k hk _ (hub.firstId_mem hk)]

/-- **No state is lost.**  The ids of the ubatch are below `nSeqMax`, so that it finds a slot.  In
runs of a context a sequence without a cell starts from the zeroed state. -/
theorem carried_of_reachable (p : RsParams) (hrs : p.nRsSeq = 0)
    (h : Run.Reachable step (fun _ op => op.Called) (new p) m) (hub : ub.FromBatch p.nSeqMax) :
    ∃ m', m.findSlot ub = some (true, m') ∧ Carried m ub m' ∧
      (Run.Reachable callStep (fun _ c => c.Whole) (new p) m →
        ∀ s ∉ ub.joined, m.tail s = none → m'.copied.stateOf s = p.zeroRow) := by
  obtain ⟨hinv, hprm⟩ : Inv m ∧ m.prm = p :=
    h.invariant (I := fun m => Inv m ∧ m.prm = p) ⟨inv_new p, rfl⟩ fun _ _ _ hm hg hs =>
      ⟨hm.1.step hg hs, (hm.1.step_prm hg hs).trans hm.2⟩
  obtain ⟨hsets, hids⟩ := hub.sets_ids
  have hin : ∀ s ∈ ub.listed, m.InSize s := by
    intro s hs
    obtain ⟨k, hk, hmem⟩ := UBatch.mem_listed.mp hs
    obtain ⟨h0, h1⟩ := hids k hk s hmem
    have h2 := p.nSeqMax_le
    have h3 := p.size_pos
    rw [InSize, hprm]
    omega
  obtain ⟨m2, π, m', hfind, hp⟩ := (hinv.findSlot_spec hsets).1 hin
  have hrs' : m'.prm.nRsSeq = 0 := by
    rw [hp.prm, detached_prm, hprm]
    exact hrs
  refine ⟨m', hfind, hp.carried hinv hsets hrs', fun hcalls s hs ht => ?_⟩
  have hidle : Idle p m :=
    hcalls.invariant (idle_new p) fun _ _ _ hm hg hs => hm.step hrs hg hs
  have hfresh := hp.stateOf_copied_fresh (hinv.detached ub) hsets hrs'
    (hidle.zero.detached hinv ub) hs ((detached_tail_of_notMem hs).trans ht)
  rwa [detached_prm, hprm] at hfresh

/-- A row whose R tensors hold one byte. -/
def byteRow (b : UInt8) : RsRow := ⟨fun _ => [b], fun _ => []⟩

/-- A token of sequence 1 is decoded after one of sequence 0. -/
theorem carried_of_reachable_twoTokens :
    ∃ m1, (new (.two 0)).findSlot (ubatchAt 0 0) = some (true, m1) ∧
      ∃ m', (m1.compute 1 fun _ _ => byteRow 7).findSlot (ubatchAt 1 0) = some (true, m') ∧
        (m'.copied.stateOf 0).r 0 = [7] ∧ m'.copied.stateOf 1 = (RsParams.two 0).zeroRow := by
  have hub : (ubatchAt 0 0).FromBatch 2 := fromBatch_ubatchAt (by decide +kernel)
  have hub' : (ubatchAt 1 0).FromBatch 2 := fromBatch_ubatchAt (by decide +kernel)
  have hrun : ((new (.two 0)).findSlot (ubatchAt 0 0)).map (fun r =>
      (r.1, r.2.tail 0, r.2.tail 1, ((r.2.compute 1 fun _ _ => byteRow 7).rows 0).r 0)) =
      some (true, some 0, none, [7]) := by decide +kernel
  obtain ⟨⟨b, m1⟩, hm1, hvals⟩ := Option.map_eq_some_iff.mp hrun
  simp only [Prod.mk.injEq] at hvals
  obtain ⟨rfl, htail0, htail1, hrow⟩ := hvals
  set m := m1.compute 1 fun _ _ => byteRow 7 with hmdef
  have hop : (Op.findSlot (ubatchAt 0 0)).Called := ⟨2, hub⟩
  have hslot : (new (.two 0)).step (.findSlot (ubatchAt 0 0)) = some m1 :=
    Option.map_eq_some_iff.mpr ⟨_, hm1, rfl⟩
  have hcompute : (Op.compute 1 fun _ _ => byteRow 7).Called := trivial
  have hreach : Run.Reachable step (fun _ op => op.Called) (new (.two 0)) m :=
    .step (.step .init hop hslot) hcompute rfl
  have hdecode : (new (.two 0)).callStep (.decode (ubatchAt 0 0) fun _ _ => byteRow 7) = some m := by
    rw [callStep, hm1]
    rfl
  have hwhole : (Call.decode (ubatchAt 0 0) fun _ _ => byteRow 7).Whole := ⟨2, hub⟩
  have hcalls : Run.Reachable callStep (fun _ c => c.Whole) (new (.two 0)) m :=
    .step .init hwhole hdecode
  obtain ⟨m', hfind, hcarried, hfresh⟩ := carried_of_reachable (.two 0) rfl hreach hub'
  have htails : m.tail = m1.tail := by rw [hmdef, compute_frame]
  have hjoin : (ubatchAt 1 0).joined = [] := by decide +kernel
  refine ⟨m1, hm1, m', hfind, ?_, hfresh hcalls 1 (by simp [hjoin]) (by rw [htails, htail1])⟩
  have ht : m.tail 0 = some 0 := by rw [htails, htail0]
  rw [hcarried.kept 0 (by simp [hjoin]) 0 ht, stateOf_some ht, hrow]

/-- One token of the sequences 0 and 1 at position 1. -/
def coupledToken : LlamaBatch where
  nTokens := 1
  token := some fun _ => 7
  embd := none
  pos := some fun _ => 1
  nSeqId := some fun _ => 2
  seqId := some fun _ j => j
  logits := none

/-- A token of sequence `s` at position 0 is decoded; its state is `byteRow b`. -/
def decodeAt (m : MemoryRecurrent) (s : ℤ) (b : UInt8) : MemoryRecurrent :=
  match m.findSlot (ubatchAt s 0) with
  | none => m
  | some r => r.2.compute 1 fun _ _ => byteRow b

lemma reachable_decodeAt {b : UInt8} (h : Run.Reachable step (fun _ op => op.Called) m0 m)
    (hub : (ubatchAt s 0).FromBatch 2) :
    Run.Reachable step (fun _ op => op.Called) m0 (m.decodeAt s b) := by
  unfold decodeAt
  split
  · exact h
  · rename_i r hr
    have hfind : (Op.findSlot (ubatchAt s 0)).Called := ⟨2, hub⟩
    have hcompute : (Op.compute 1 fun _ _ => byteRow b).Called := trivial
    exact .step (.step h hfind (Option.map_eq_some_iff.mpr ⟨r, hr, rfl⟩)) hcompute rfl

/-- Two sequences, each with a state of its own. -/
def twoStates : MemoryRecurrent := ((new (.two 0)).decodeAt 0 1).decodeAt 1 2

/-- A token that names both sequences is accepted; sequence 1 loses its state. -/
theorem not_carried_coupled : Run.Reachable step (fun _ op => op.Called) (new (.two 0)) twoStates ∧
      twoStates.tail 1 = some 1 ∧
      ∃ a ub a' m', BatchAllocr.init 1 coupledToken 10
          (some ⟨twoStates.seqPosMin, twoStates.seqPosMax⟩) 0 2 false = some a ∧
        a.splitEqual 1 false 0 = some (ub, a') ∧ twoStates.findSlot ub = some (true, m') ∧
        m'.copied.stateOf 1 ≠ twoStates.stateOf 1 := by
  have hub : (ubatchAt 0 0).FromBatch 2 := fromBatch_ubatchAt (by decide +kernel)
  have hub' : (ubatchAt 1 0).FromBatch 2 := fromBatch_ubatchAt (by decide +kernel)
  refine ⟨reachable_decodeAt (reachable_decodeAt .init hub) hub', by decide +kernel, ?_⟩
  have hrun : ((BatchAllocr.init 1 coupledToken 10
      (some ⟨twoStates.seqPosMin, twoStates.seqPosMax⟩) 0 2 false).bind fun a =>
        (a.splitEqual 1 false 0).bind fun x => (twoStates.findSlot x.1).map fun r =>
          (r.1, (r.2.copied.stateOf 1).r 0, (twoStates.stateOf 1).r 0)) =
      some (true, [1], [2]) := by decide +kernel
  obtain ⟨a, ha, hrun⟩ := Option.bind_eq_some_iff.mp hrun
  obtain ⟨⟨ub, a'⟩, hsplit, hrun⟩ := Option.bind_eq_some_iff.mp hrun
  obtain ⟨⟨b, m'⟩, hfind, hvals⟩ := Option.map_eq_some_iff.mp hrun
  simp only [Prod.mk.injEq] at hvals
  obtain ⟨rfl, hnew, hold⟩ := hvals
  refine ⟨a, ub, a', m', ha, hsplit, hfind, fun heq => ?_⟩
  rw [heq] at hnew
  exact absurd hnew (by decide)

end Llama.MemoryRecurrent
