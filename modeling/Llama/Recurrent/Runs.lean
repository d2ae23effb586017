import Llama.Recurrent.Restored

/-!
# Runs of a recurrent memory

Every call keeps `Inv`, so that the tails are right in every state a run reaches.  The count
of used cells is right as well (`Consistent`), as long as `seq_keep` drops no cell with a
negative position, which it does not count, and no record of a restored memory is without a
sequence, whose cell `state_read` counts as used.
-/

namespace Llama
namespace MemoryRecurrent

variable {m m' : MemoryRecurrent} {s : ℤ}

/-- The ubatches come from accepted batches whose tokens name sequences. -/
def Op.Called : Op → Prop
  | .prepare ubs => ∀ ub ∈ ubs, ∃ n, ub.FromBatch n
  | .findSlot ub => ∃ n, ub.FromBatch n
  | _ => True

/-! ## Calls that leave the cells alone -/

/-- A failed `find_slot` and a successful one change neither parameters nor rows. -/
lemma Inv.findSlot_frame (h : Inv m) {ub : UBatch} (hub : ub.Sets) {r : Bool × MemoryRecurrent}
    (hr : m.findSlot ub = some r) :
    r.2.prm = m.prm ∧ r.2.rsIdx = m.rsIdx ∧ r.2.rows = m.rows := by
  have hw : ∀ ss, ((m.wrapHead ub.nSeqs).leaveAll ss).prm = m.prm ∧
      ((m.wrapHead ub.nSeqs).leaveAll ss).rsIdx = m.rsIdx ∧
      ((m.wrapHead ub.nSeqs).leaveAll ss).rows = m.rows := by
    intro ss
    obtain ⟨h1, -, h2, h3⟩ := leaveAll_frame (m.wrapHead ub.nSeqs) ss
    rw [h1, h2, h3, wrapHead_frame]
    exact ⟨rfl, rfl, rfl⟩
  obtain ⟨-, _, _, m', rfl, hp⟩ | ⟨-, ss, -, rfl⟩ := h.findSlot_cases hub hr
  · obtain ⟨h1, h2, h3⟩ := hw ub.joined
    exact ⟨hp.prm.trans h1, hp.rsIdx.trans h2, hp.rows.trans h3⟩
  · exact hw ss

lemma findSlots_frame : ∀ {ubs : List UBatch} {m : MemoryRecurrent} {r : Bool × MemoryRecurrent},
    Inv m → (∀ ub ∈ ubs, ub.Sets) → findSlots ubs m = some r →
      r.2.prm = m.prm ∧ r.2.rsIdx = m.rsIdx ∧ r.2.rows = m.rows := by
  intro ubs
  induction ubs with
  | nil =>
    rintro m r - - ⟨⟩
    exact ⟨rfl, rfl, rfl⟩
  | cons ub ubs ih =>
    intro m r h hubs hr
    obtain ⟨⟨b, m1⟩, hslot, hr⟩ := Option.bind_eq_some_iff.mp hr
    have hub := hubs ub List.mem_cons_self
    obtain ⟨h1, h2, h3⟩ := h.findSlot_frame hub hslot
    dsimp only at hr h1 h2 h3
    split at hr
    · obtain ⟨h4, h5, h6⟩ := ih (h.findSlot hub hslot)
        (fun ub' hub' => hubs ub' (List.mem_cons_of_mem _ hub')) hr
      exact ⟨h4.trans h1, h5.trans h2, h6.trans h3⟩
    · cases hr
      exact ⟨h1, h2, h3⟩

/-- `prepare` changes nothing that a later call looks at. -/
lemma Inv.prepare_frame (h : Inv m) {ubs : List UBatch} (hubs : ∀ ub ∈ ubs, ub.Sets)
    {r : Bool × MemoryRecurrent} (hr : m.prepare ubs = some r) :
    ∃ n rsZ, r.2 = { m with n := n, rsZ := rsZ } := by
  obtain ⟨⟨b, m1⟩, hslots, hr⟩ := Option.bind_eq_some_iff.mp hr
  cases hr
  obtain ⟨h1, h2, h3⟩ := findSlots_frame h hubs hslots
  refine ⟨m1.n, m1.rsZ, ?_⟩
  rw [h1, h2, h3]

/-- Reading an index resets a rollback. -/
lemma sCopy_frame (m : MemoryRecurrent) (i : ℕ) :
    (m.sCopy i).2 = { m with rsIdx := (m.sCopy i).2.rsIdx } := by
  unfold sCopy
  dsimp only
  split
  · rfl
  · split
    · rfl
    · split <;> rfl

lemma sCopies_frame (is : List ℕ) (m : MemoryRecurrent) :
    (sCopies is m).2 = { m with rsIdx := (sCopies is m).2.rsIdx } := by
  induction is generalizing m with
  | nil => rfl
  | cons i is ih =>
    change (sCopies is (m.sCopy i).2).2 = { m with rsIdx := (sCopies is (m.sCopy i).2).2.rsIdx }
    rw [ih, sCopy_frame]

lemma compute_frame (m : MemoryRecurrent) (nSeqs : ℕ) (state : ℕ → ℕ → RsRow) :
    m.compute nSeqs state = { m with
      rsIdx := (m.compute nSeqs state).rsIdx, rows := (m.compute nSeqs state).rows } := by
  unfold compute
  dsimp only
  rw [sCopies_frame]

/-! ## All calls -/

/-- **Every call keeps the invariant.** -/
theorem Inv.step (h : Inv m) {op : Op} (hcall : op.Called) (hs : m.step op = some m') : Inv m' := by
  cases op with
  | clear data =>
    cases hs
    exact inv_clear m data
  | seqRm s p0 p1 =>
    cases hs
    exact (h.seqRm_effect s p0 p1).inv h
  | seqCp src dst =>
    cases hs
    exact h.seqCp src dst
  | seqKeep s =>
    cases hs
    exact h.seqKeep s
  | seqAdd s p0 p1 shift =>
    cases hs
    unfold MemoryRecurrent.seqAdd
    split
    · exact h
    · exact h.mapPos s p0 p1 _
  | seqDiv s p0 p1 d =>
    cases hs
    unfold MemoryRecurrent.seqDiv
    split
    · exact h
    · exact h.mapPos s p0 p1 _
  | prepare ubs =>
    obtain ⟨r, hr, rfl⟩ := Option.map_eq_some_iff.mp hs
    have hubs : ∀ ub ∈ ubs, ub.Sets := fun ub hub => (hcall ub hub).choose_spec.sets
    obtain ⟨n, rsZ, heq⟩ := h.prepare_frame hubs hr
    rw [heq]
    exact h.congr rfl rfl rfl h.head_lt
  | findSlot ub =>
    obtain ⟨r, hr, rfl⟩ := Option.map_eq_some_iff.mp hs
    exact h.findSlot hcall.choose_spec.sets hr
  | compute nSeqs state =>
    cases hs
    rw [compute_frame]
    exact h.congr rfl rfl rfl h.head_lt
  | stateRead s bytes => exact (h.restore_effect hs).inv h

lemma inv_of_reachable (p : RsParams)
    (h : Run.Reachable step (fun _ op => op.Called) (new p) m) : Inv m :=
  h.invariant (inv_new p) fun _ _ _ hm hg hs => hm.step hg hs

/-- The condition on a call: `seq_keep` drops no cell with a negative position, and the records
of a restored memory name sequences. -/
def Op.Counts (m : MemoryRecurrent) : Op → Prop
  | .seqKeep s => ∀ i, (m.cells i).seqId ≠ ∅ → s ∉ (m.cells i).seqId → 0 ≤ (m.cells i).pos
  | .stateRead s bytes => RecordsNamed s bytes
  | _ => True

/-- What a run whose calls meet the condition keeps. -/
structure Counted (m : MemoryRecurrent) : Prop where
  inv : Inv m
  used : UsedOk m
  free : FreePos m

lemma counted_new (p : RsParams) : Counted (new p) where
  inv := inv_new p
  used := (countUsed_of_empty fun _ => rfl).symm
  free := fun _ _ => rfl

lemma counted_clear (m : MemoryRecurrent) (data : Bool) : Counted (m.clear data) where
  inv := inv_clear m data
  used := (countUsed_of_empty fun _ => rfl).symm
  free := fun _ _ => rfl

lemma Counted.mapPos (h : Counted m) (s p0 p1 : ℤ) (f : ℤ → ℤ) : Counted (m.mapPos s p0 p1 f) :=
  ⟨h.inv.mapPos s p0 p1 f, h.used.mapPos s p0 p1 f, h.free.mapPos h.inv s p0 p1 f⟩

lemma Counted.step (h : Counted m) {op : Op} (hcall : op.Called) (hcount : op.Counts m)
    (hs : m.step op = some m') : Counted m' := by
  have hinv := h.inv.step hcall hs
  cases op with
  | clear data =>
    cases hs
    exact counted_clear m data
  | seqRm s p0 p1 =>
    cases hs
    have he := h.inv.seqRm_effect s p0 p1
    exact ⟨hinv, he.usedOk h.inv h.used, he.freePos h.inv h.free⟩
  | seqCp src dst =>
    cases hs
    exact ⟨hinv, h.used.seqCp h.inv src dst, h.free.seqCp h.inv src dst⟩
  | seqKeep s =>
    cases hs
    exact ⟨hinv, h.used.seqKeep h.free hcount, freePos_seqKeep m s⟩
  | seqAdd s p0 p1 shift =>
    cases hs
    unfold MemoryRecurrent.seqAdd
    split
    · exact h
    · exact h.mapPos s p0 p1 _
  | seqDiv s p0 p1 d =>
    cases hs
    unfold MemoryRecurrent.seqDiv
    split
    · exact h
    · exact h.mapPos s p0 p1 _
  | prepare ubs =>
    obtain ⟨r, hr, rfl⟩ := Option.map_eq_some_iff.mp hs
    have hubs : ∀ ub ∈ ubs, ub.Sets := fun ub hub => (hcall ub hub).choose_spec.sets
    obtain ⟨n, rsZ, heq⟩ := h.inv.prepare_frame hubs hr
    rw [heq] at hinv ⊢
    exact ⟨hinv, h.used, h.free⟩
  | findSlot ub =>
    obtain ⟨r, hr, rfl⟩ := Option.map_eq_some_iff.mp hs
    have hub := hcall.choose_spec.sets
    exact ⟨hinv, h.inv.findSlot_usedOk h.used hub hr, h.inv.findSlot_freePos h.free hub hr⟩
  | compute nSeqs state =>
    cases hs
    rw [compute_frame] at hinv ⊢
    exact ⟨hinv, h.used, h.free⟩
  | stateRead s bytes =>
    have he := h.inv.restore_effect hs
    exact ⟨hinv, he.usedOk h.inv h.used hcount, he.freePos h.inv h.free hcount⟩

/-- A tail names the one cell that has the sequence, there is no tail when no cell has it, and
`used` is the number of cells with a sequence. -/
structure Consistent (m : MemoryRecurrent) : Prop where
  tail_some : ∀ s t, m.tail s = some t ↔
    t < m.prm.size ∧ ∀ i < m.prm.size, (s ∈ (m.cells i).seqId ↔ i = t)
  tail_none : ∀ s, m.tail s = none ↔ ∀ i < m.prm.size, s ∉ (m.cells i).seqId
  used : m.used.toNat = m.countUsed

lemma Counted.consistent (h : Counted m) : Consistent m where
  tail_some := by
    intro s t
    constructor
    · intro ht
      refine ⟨h.inv.tail_lt ht, fun i _ => ⟨h.inv.eq_tail ht, ?_⟩⟩
      rintro rfl
      exact h.inv.mem ht
    · rintro ⟨hlt, hiff⟩
      exact (h.inv.tail_iff s t).mpr ((hiff t hlt).mpr rfl)
  tail_none := by
    intro s
    constructor
    · exact fun hs i _ => h.inv.notMem hs i
    · intro hall
      rw [Option.eq_none_iff_forall_ne_some]
      exact fun t ht => hall t (h.inv.tail_lt ht) (h.inv.mem ht)
  used := h.used

/-- **The invariant of all runs.**  The calls of the run meet the condition. -/
theorem consistent_of_reachable (p : RsParams)
    (h : Run.Reachable step (fun m op => op.Called ∧ op.Counts m) (new p) m) : Consistent m :=
  (h.invariant (counted_new p) fun _ _ _ hm hg hs => hm.step hg.1 hg.2 hs).consistent

end MemoryRecurrent

/-! ## Concrete runs -/

open BatchAllocr

/-- One token of sequence `s` at position `pos`. -/
def tokenAt (s pos : ℤ) : LlamaBatch where
  nTokens := 1
  token := some fun _ => 7
  embd := none
  pos := some fun _ => pos
  nSeqId := some fun _ => 1
  seqId := some fun _ _ => s
  logits := none

/-- The ubatch of one token. -/
def ubatchAt (s pos : ℤ) : UBatch :=
  ((ofFull 1 (fill (tokenAt s pos) none 2 false) 0 2).splitSeq 1).1

lemma fromBatch_ubatchAt {s pos : ℤ}
    (hacc : (init 1 (tokenAt s pos) 10 none 0 2 false).isSome = true) :
    (ubatchAt s pos).FromBatch 2 := by
  obtain ⟨a, ha⟩ := Option.isSome_iff_exists.mp hacc
  obtain rfl := init_eq ha
  exact ⟨1, tokenAt s pos, 10, none, 0, false, _, .seq 1, 2, [BatchAllocr.splitSeq _ 1], ha,
    fun _ _ => Nat.one_pos, trivial, rfl, List.mem_singleton_self _⟩

/-- Two cells, no layers. -/
def RsParams.two (nRsSeq : ℕ) : RsParams where
  size := 2
  nSeqMax := 2
  nRsSeq := nRsSeq
  nPosPerEmbd := 1
  rl := []
  sl := []
  size_pos := Nat.two_pos
  size_lt := by decide
  nSeqMax_le := le_rfl
  length_sl := rfl

namespace MemoryRecurrent

/-- A token of sequence 0, whose state is then shared with sequence 1. -/
theorem consistent_of_reachable_seqCp :
    ∃ m, (new (.two 0)).step (.findSlot (ubatchAt 0 0)) = some m ∧ Consistent (m.seqCp 0 1) := by
  have hslot : ((new (.two 0)).step (.findSlot (ubatchAt 0 0))).isSome = true := by decide +kernel
  obtain ⟨m, hm⟩ := Option.isSome_iff_exists.mp hslot
  have hfind : (Op.findSlot (ubatchAt 0 0)).Called ∧
      (Op.findSlot (ubatchAt 0 0)).Counts (new (.two 0)) :=
    ⟨⟨2, fromBatch_ubatchAt (by decide +kernel)⟩, trivial⟩
  have hcp : (Op.seqCp 0 1).Called ∧ (Op.seqCp 0 1).Counts m := ⟨trivial, trivial⟩
  exact ⟨m, hm, consistent_of_reachable (.two 0) (.step (.step .init hfind hm) hcp rfl)⟩

/-- The bytes of a memory of one cell at position 0 without a sequence, and of no layers. -/
def bareRecord : List UInt8 := [1, 0, 0, 0, 0, 0, 0, 0, 0, 0, 0, 0, 0, 0, 0, 0, 0, 0, 0, 0]

/-- The restored record is counted as used; and a cell at position -1 that `seq_keep` drops
stays counted. -/
theorem not_consistent_bareRecord :
    (∃ m, (new (.two 0)).step (.stateRead (-1) bareRecord) = some m ∧ ¬ Consistent m) ∧
      (ubatchAt 0 (-1)).FromBatch 2 ∧
      ∃ m1 m, (new (.two 0)).step (.findSlot (ubatchAt 0 (-1))) = some m1 ∧
        m1.step (.seqKeep 1) = some m ∧ ¬ Consistent m := by
  refine ⟨?_, fromBatch_ubatchAt (by decide +kernel), ?_⟩
  · have hrun : ((new (.two 0)).step (.stateRead (-1) bareRecord)).map
        (fun m => (m.used, m.countUsed)) = some (1, 0) := by decide +kernel
    obtain ⟨m, hm, hcount⟩ := Option.map_eq_some_iff.mp hrun
    obtain ⟨hused, hzero⟩ := Prod.ext_iff.mp hcount
    dsimp only at hused hzero
    refine ⟨m, hm, fun hc => ?_⟩
    have := hc.used
    rw [hused, hzero] at this
    cases this
  · have hrun : ((new (.two 0)).step (.findSlot (ubatchAt 0 (-1)))).map
        (fun m => ((m.seqKeep 1).used, (m.seqKeep 1).countUsed)) = some (1, 0) := by decide +kernel
    obtain ⟨m, hm, hcount⟩ := Option.map_eq_some_iff.mp hrun
    obtain ⟨hused, hzero⟩ := Prod.ext_iff.mp hcount
    dsimp only at hused hzero
    refine ⟨m, m.seqKeep 1, hm, rfl, fun hc => ?_⟩
    have := hc.used
    rw [hused, hzero] at this
    cases this

end MemoryRecurrent
end Llama
