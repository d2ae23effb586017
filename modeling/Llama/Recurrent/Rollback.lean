import Llama.Recurrent.Decode

/-!
# Pending rollbacks

`rsIdx` belongs to sequences and the states belong to cells.  To say that a rollback is really
pending, a run remembers the cells whose state waits to be rolled back (`Tracked`): `seq_rm`
adds a cell, `find_slot` moves it along with its row, and the graph applies the rollback.

An index that is left behind when its sequence leaves the cell, or that is not copied with the
cell, breaks the correspondence.  `Op.KeepsRollback` excludes just these calls.
-/

namespace Llama.MemoryRecurrent

open List Function

variable {m m' : MemoryRecurrent} {s : ℤ} {t : ℕ} {rolled : Set ℕ}

/-- A memory and the cells whose state waits to be rolled back. -/
structure Tracked where
  mem : MemoryRecurrent
  rolled : Set ℕ

/-- The cells of `rolled` that are still in use. -/
def inUse (m : MemoryRecurrent) (rolled : Set ℕ) : Set ℕ :=
  {i | i ∈ rolled ∧ (m.cells i).seqId ≠ ∅}

/-- The cells whose state waits to be rolled back after a call that has led to `m'`. -/
def Tracked.rolledAfter (x : Tracked) (m' : MemoryRecurrent) : Op → Set ℕ
  | .clear _ => ∅
  | .seqRm s p0 p1 =>
    m'.inUse {i | i ∈ x.rolled ∨ x.mem.RollsBack s (lowPos p0) (highPos p1) ∧ x.mem.tail s = some i}
  | .findSlot ub =>
    -- the cells of the slot continue from the row of another cell
    m'.inUse {i | if (x.mem.findSlot ub).map Prod.fst = some true ∧ m'.InSlot i
      then ∃ r ∈ x.rolled, (m'.cells i).src0 = some r else i ∈ x.rolled}
  | .compute _ _ => {i | i ∈ x.rolled ∧ ¬ m'.InSlot i}
  | .stateRead s _ => if s = -1 then ∅ else m'.inUse x.rolled
  | _ => m'.inUse x.rolled

/-- A call. -/
def Tracked.step (x : Tracked) (op : Op) : Option Tracked :=
  (x.mem.step op).map fun m' => ⟨m', x.rolledAfter m' op⟩

/-- The pending indices belong to sequences in cells that wait to be rolled back. -/
def PendingOnly (x : Tracked) : Prop :=
  ∀ s, x.mem.rsIdx s ≠ 0 → ∃ t, x.mem.tail s = some t ∧ t ∈ x.rolled

/-- The row that the `k`-th set of a ubatch continues from. -/
def decodeRow (m : MemoryRecurrent) (ub : UBatch) (k : ℕ) : Option (Option ℕ) :=
  match m.findSlot ub with
  | some (true, m) => (sCopies (List.range m.n) m).1[k]?
  | _ => none

/-- In whichever ubatches the two sequences are decoded next, they continue from the same
row. -/
def SameSnapshot (m : MemoryRecurrent) (s s' : ℤ) : Prop :=
  ∀ ub ub' : UBatch, ub.Sets → ub'.Sets → (∀ o ∈ ub.listed, m.InSize o) →
    (∀ o ∈ ub'.listed, m.InSize o) → ∀ k < ub.nSeqs, ∀ k' < ub'.nSeqs,
      ub.setIds k = [s] → ub'.setIds k' = [s'] → ∃ row, m.decodeRow ub k = some (some row) ∧
        m.decodeRow ub' k' = some (some row)

/-- The condition on a call.  `seq_rm` of a part, up to a position, resets no index; `seq_cp`
copies none; `seq_keep` resets none.  `find_slot` puts sequences into the cell of the first
one of their set, and the graph applies the index of one sequence of a cell. -/
def Op.KeepsRollback (x : Tracked) : Op → Prop
  | .seqRm s p0 p1 => lowPos p0 = 0 → highPos p1 ≠ posLimit →
      (∃ t, x.mem.tail s = some t ∧ 0 ≤ (x.mem.cells t).pos ∧ (x.mem.cells t).pos < highPos p1) →
      x.mem.rsIdx s = 0
  | .seqCp src dst => src ≠ dst → x.mem.InSize src → x.mem.InSize dst →
      x.mem.rsIdx src = x.mem.rsIdx dst
  | .seqKeep s => ∀ s' ≠ s, x.mem.rsIdx s' = 0
  | .findSlot ub => ∀ k < ub.nSeqs, ∀ s ∈ (ub.setIds k).tail, x.mem.rsIdx s ≠ 0 →
      (∀ s' ∈ ub.listed, x.mem.InSize s') ∧ ub.firstId k ∉ ub.joined ∧
        ∃ t ∈ x.rolled, x.mem.tail (ub.firstId k) = some t
  | .compute _ _ => ∀ i, x.mem.InSlot i → ∀ s ∈ (x.mem.cells i).seqId,
      (x.mem.cells i).firstSeq ≠ some s → x.mem.rsIdx s = 0
  | _ => True

/-- What a run whose calls meet the condition keeps. -/
structure RollInv (m : MemoryRecurrent) (rolled : Set ℕ) : Prop where
  inv : Inv m
  roll : ∀ s, m.rsIdx s ≠ 0 → m.prm.nRsSeq ≠ 0 ∧ (0 ≤ s ∧ s < m.prm.nSeqMax) ∧
    ∃ t ∈ rolled, m.tail s = some t

lemma rollInv_of_zero (h : Inv m) (hidx : m.rsIdx = fun _ => 0) : RollInv m rolled :=
  ⟨h, fun s hs => absurd (congrFun hidx s) hs⟩

/-- The indices that are left belong to sequences that are still in their cells. -/
lemma RollInv.of_same_tail (h : RollInv m rolled) (h' : Inv m') (hprm : m'.prm = m.prm)
    (hroll : ∀ s, m'.rsIdx s ≠ 0 → m.rsIdx s ≠ 0 ∧ m'.tail s = m.tail s) :
    RollInv m' (m'.inUse rolled) := by
  refine ⟨h', fun s hs => ?_⟩
  obtain ⟨hne, htail⟩ := hroll s hs
  obtain ⟨hrs, hin, t, ht, hst⟩ := h.roll s hne
  rw [hprm]
  rw [← htail] at hst
  exact ⟨hrs, hin, t, ⟨ht, h'.ne_empty hst⟩, hst⟩

lemma RollInv.mono {rolled' : Set ℕ} (h : RollInv m rolled) (hsub : rolled ⊆ rolled') :
    RollInv m rolled' := by
  refine ⟨h.inv, fun s hs => ?_⟩
  obtain ⟨hrs, hin, t, ht, hst⟩ := h.roll s hs
  exact ⟨hrs, hin, t, hsub ht, hst⟩

lemma resetOnAll_rsIdx (m : MemoryRecurrent) (s p0 p1 : ℤ) : (m.resetOnAll s p0 p1).rsIdx =
      if p0 = 0 ∧ p1 = posLimit then Function.update m.rsIdx s 0 else m.rsIdx := by
  unfold resetOnAll
  split <;> rfl

/-- The cells that wait after `seq_rm`. -/
lemma RmEffect.rollInv {p0 p1 : ℤ} (he : RmEffect m s p0 p1 m') (h : RollInv m rolled)
    (hkeep : p0 = 0 → p1 ≠ posLimit →
      (∃ t, m.tail s = some t ∧ 0 ≤ (m.cells t).pos ∧ (m.cells t).pos < p1) → m.rsIdx s = 0) :
    RollInv m' (m'.inUse {i | i ∈ rolled ∨ m.RollsBack s p0 p1 ∧ m.tail s = some i}) := by
  have h' := he.inv h.inv
  have hmono : ∀ i ∈ m'.inUse rolled,
      i ∈ m'.inUse {i | i ∈ rolled ∨ m.RollsBack s p0 p1 ∧ m.tail s = some i} :=
    fun i hi => ⟨.inl hi.1, hi.2⟩
  cases he with
  | kept hnr => exact (h.of_same_tail h' rfl fun o ho => ⟨ho, rfl⟩).mono hmono
  | reset hnr =>
    refine (h.of_same_tail h' rfl fun o ho => ⟨fun hzero => ho ?_, rfl⟩).mono hmono
    change Function.update m.rsIdx s 0 o = 0
    rw [update_apply, hzero, ite_self]
  | @rolledBack t hr ht hp0 =>
    refine ⟨h', fun o ho => ?_⟩
    by_cases hos : o = s
    · subst hos
      obtain ⟨h0, h1, t', ht', hcut, -, hle⟩ := id hr
      rw [ht] at ht'
      cases ht'
      have hpos : 0 < p0 ∧ p0 ≤ (m.cells t).pos ∧ (m.cells t).pos < p1 := by
        simpa [cutsTail] using hcut
      have hrs : m.prm.nRsSeq ≠ 0 := by omega
      exact ⟨hrs, ⟨h0, h1⟩, t, ⟨.inr ⟨hr, ht⟩, h'.ne_empty ht⟩, ht⟩
    · have hne : m.rsIdx o ≠ 0 := fun hzero => ho ((update_of_ne hos _ _).trans hzero)
      obtain ⟨hrs, hin, t', ht', hot⟩ := h.roll o hne
      exact ⟨hrs, hin, t', ⟨.inl ht', h'.ne_empty hot⟩, hot⟩
  | @removed t head hnr ht hp0 hpos hhead =>
    refine (h.of_same_tail h' (by simp) fun o ho => ?_).mono hmono
    rw [leave_rsIdx, resetOnAll_rsIdx] at ho
    have hos : o ≠ s := by
      rintro rfl
      split at ho
      · exact ho (update_self _ _ _)
      · rename_i hall
        exact ho (hkeep hp0 (fun h1 => hall ⟨hp0, h1⟩) ⟨t, ht, hpos⟩)
    refine ⟨fun hzero => ho ?_, ?_⟩
    · split
      · rw [update_of_ne hos, hzero]
      · exact hzero
    · rw [leave_tail, update_of_ne hos, resetOnAll_tail]

/-- The cells that wait after `find_slot`. -/
lemma RollInv.findSlot (h : RollInv m rolled) {ub : UBatch} (hub : ub.Sets)
    {r : Bool × MemoryRecurrent} (hr : m.findSlot ub = some r)
    (hkeep : ∀ k < ub.nSeqs, ∀ s ∈ (ub.setIds k).tail, m.rsIdx s ≠ 0 →
      (∀ s' ∈ ub.listed, m.InSize s') ∧ ub.firstId k ∉ ub.joined ∧
        ∃ t ∈ rolled, m.tail (ub.firstId k) = some t) :
    RollInv r.2 (r.2.inUse {i | if r.1 = true ∧ r.2.InSlot i
      then ∃ q ∈ rolled, (r.2.cells i).src0 = some q else i ∈ rolled}) := by
  have h' := h.inv.findSlot hub hr
  obtain ⟨hprm, hidx, -⟩ := h.inv.findSlot_frame hub hr
  obtain ⟨-, m2, π, m', rfl, hp⟩ | ⟨hout, ss, hsub, rfl⟩ := h.inv.findSlot_cases hub hr
  · have h0 := h.inv.detached ub
    refine ⟨h', fun o ho => ?_⟩
    rw [hidx] at ho
    obtain ⟨hrs, hrange, t, ht, hot⟩ := h.roll o ho
    rw [hprm]
    refine ⟨hrs, hrange, ?_⟩
    -- the cell of a listed sequence continues from the cell of the first one of its set
    have hset : ∀ k < ub.nSeqs, o ∈ ub.setIds k → ∀ q ∈ rolled,
        (m.detached ub).tail (ub.firstId k) = some q →
        ∃ t ∈ m'.inUse {i | if true = true ∧ m'.InSlot i
          then ∃ q ∈ rolled, (m'.cells i).src0 = some q else i ∈ rolled}, m'.tail o = some t := by
      intro k hk hmem q hq hfirst
      have htail := hp.tail_new k hk o hmem
      refine ⟨_, ⟨?_, h'.ne_empty htail⟩, htail⟩
      rw [Set.mem_ofPred_eq, if_pos ⟨rfl, hp.inSlot (inPlace_add hk)⟩]
      exact ⟨q, hq, hp.src0_first hk hfirst⟩
    by_cases hjoin : o ∈ ub.joined
    · obtain ⟨k, hk, hmem⟩ := UBatch.mem_joined.mp hjoin
      obtain ⟨-, hfirst, q, hq, hqt⟩ := hkeep k hk o hmem ho
      exact hset k hk (mem_of_mem_tail hmem) q hq
        ((detached_tail_of_notMem hfirst).trans hqt)
    · have hot0 := (detached_tail_of_notMem hjoin).trans hot
      by_cases hlist : o ∈ ub.listed
      · have hfirst := (hub.mem_listed_iff.mp hlist).resolve_right hjoin
        obtain ⟨k, hk, rfl⟩ := mem_map.mp hfirst
        rw [mem_range] at hk
        exact hset k hk (hub.firstId_mem hk) t ht hot0
      · have htail := hp.tail_old' hub hlist
        rw [hot0] at htail
        refine ⟨π t, ⟨?_, h'.ne_empty htail⟩, htail⟩
        rw [Set.mem_ofPred_eq]
        by_cases hslot : m'.InSlot (π t)
        · rw [if_pos ⟨rfl, hslot⟩]
          exact ⟨t, ht, hp.src0_other h0 hub hlist hot0 hslot⟩
        · rw [if_neg fun hc => hslot hc.2, hp.stay_of_notIn hslot]
          exact ht
  · refine (h.of_same_tail h' hprm fun o ho => ?_).mono fun i hi => ⟨?_, hi.2⟩
    · rw [hidx] at ho
      refine ⟨ho, ?_⟩
      have hnotin : o ∉ ss := by
        intro hss
        obtain ⟨k, hk, hmem⟩ := UBatch.mem_joined.mp (hsub hss)
        obtain ⟨s, hs, hnot⟩ := hout
        exact hnot ((hkeep k hk o hmem ho).1 s hs)
      rw [leaveAll_tail, if_neg hnotin, wrapHead_frame]
    · exact hi.1

/-- The cells that wait after the graph. -/
lemma RollInv.compute (h : RollInv m rolled) (nSeqs : ℕ) (state : ℕ → ℕ → RsRow)
    (hkeep : ∀ i, m.InSlot i → ∀ s ∈ (m.cells i).seqId, (m.cells i).firstSeq ≠ some s →
      m.rsIdx s = 0) :
    RollInv (m.compute nSeqs state) {i | i ∈ rolled ∧ ¬ (m.compute nSeqs state).InSlot i} := by
  have hidx : ∀ s, (m.compute nSeqs state).rsIdx s =
      if ∃ i ∈ range m.n, m.rollSeq (m.head + i) = some s then 0 else m.rsIdx s :=
    (h.inv.sCopies_spec nodup_range).2
  have hslot : ∀ i, (m.compute nSeqs state).InSlot i ↔ m.InSlot i := fun i => by
    rw [compute_frame]
    rfl
  have hframe := compute_frame m nSeqs state
  refine ⟨?_, fun s hs => ?_⟩
  · rw [hframe]
    exact h.inv.congr rfl rfl rfl h.inv.head_lt
  · rw [hidx] at hs
    split at hs
    · exact absurd rfl hs
    · rename_i hno
      obtain ⟨hrs, hrange, t, ht, hst⟩ := h.roll s hs
      have htail : (m.compute nSeqs state).tail s = some t := by rw [hframe]; exact hst
      have hprm : (m.compute nSeqs state).prm = m.prm := by rw [hframe]
      rw [hprm]
      refine ⟨hrs, hrange, t, ⟨ht, fun hin => ?_⟩, htail⟩
      -- otherwise the index has been applied
      rw [hslot] at hin
      have hfirst : (m.cells t).firstSeq = some s := by
        by_contra hne
        exact hs (hkeep t hin s (h.inv.mem hst) hne)
      refine hno ⟨t - m.head, mem_range.mpr (by have := hin.1; have := hin.2; omega), ?_⟩
      rw [Nat.add_sub_cancel' hin.1, rollSeq, if_neg hrs, hfirst, Option.filter_eq_some_iff]
      exact ⟨rfl, decide_eq_true hrange⟩

/-- An index that `set_rs_idx` has left. -/
lemma resetIdx_ne_zero {o : ℤ} (h : m.resetIdx s o ≠ 0) :
    m.rsIdx o ≠ 0 ∧ (m.prm.nRsSeq ≠ 0 → o ≠ s) := by
  unfold resetIdx at h
  split at h
  · rename_i hrs
    exact ⟨h, fun hne => absurd hrs hne⟩
  · split at h
    · exact absurd rfl h
    · rw [update_apply] at h
      split at h
      · exact absurd rfl h
      · rename_i hos
        exact ⟨h, fun _ => hos⟩

/-- Removing a whole sequence needs no condition, and rolls nothing back. -/
lemma RollInv.seqRm_all (h : RollInv m rolled) (s : ℤ) :
    RollInv (m.seqRm s (-1) (-1)).2 ((m.seqRm s (-1) (-1)).2.inUse rolled) := by
  have he := h.inv.seqRm_effect s (-1) (-1)
  refine (he.rollInv h fun _ hne => absurd rfl hne).mono fun i hi => ⟨hi.1.resolve_right ?_, hi.2⟩
  rintro ⟨⟨-, -, t, -, hcut, -⟩, -⟩
  simp [cutsTail, lowPos] at hcut

/-- The cells that wait after a restore. -/
lemma RestoreEffect.rollInv {bytes : List UInt8} (he : RestoreEffect m s bytes m')
    (h : RollInv m rolled) : RollInv m' (if s = -1 then ∅ else m'.inUse rolled) := by
  have h' := he.inv h.inv
  cases he with
  | whole rows hs hn hfill hnamed => exact rollInv_of_zero h' hfill.rsIdx
  | gone hs =>
    have h1 := h.seqRm_all s
    rw [if_neg hs]
    refine ⟨h', fun o ho => ?_⟩
    obtain ⟨hrs, hrange, t, ht, hot⟩ := h1.roll o (resetIdx_ne_zero ho).1
    exact ⟨hrs, hrange, t, ht, hot⟩
  | @placed ub m1 rows hs hub hone hset hslot hrows =>
    have h1 := h.seqRm_all s
    have hempty : ∀ k < ub.nSeqs, (ub.setIds k).tail = [] := by
      intro k hk
      obtain rfl : k = 0 := by omega
      rw [hset]
      rfl
    have h2 := h1.findSlot hub hslot fun k hk o ho => by
      rw [hempty k hk] at ho
      cases ho
    obtain ⟨-, m2, π, hp⟩ := h1.inv.findSlot_true hub hslot
    rw [if_neg hs]
    refine ⟨h', fun o ho => ?_⟩
    obtain ⟨hne, hos⟩ := resetIdx_ne_zero ho
    obtain ⟨hrs, hrange, t, ht, hot⟩ := h2.roll o hne
    refine ⟨hrs, hrange, t, ⟨?_, ht.2⟩, hot⟩
    have hout : ¬ m1.InSlot t := by
      intro hin
      have hn := hp.n_eq_one hone
      have hplace : InPlace m1 ub t := ⟨hin.1, by have := hin.2; omega⟩
      obtain ⟨k, hk, rfl⟩ := hplace.exists_eq
      have hmem := h2.inv.mem hot
      obtain rfl : k = 0 := by omega
      rw [(hp.cell_new 0 hk).1, hset] at hmem
      exact hos hrs (by simpa using hmem)
    have hmem := ht.1
    rw [Set.mem_ofPred_eq, if_neg fun hc => hout hc.2] at hmem
    exact hmem.1

lemma seqCp_of_tail {src dst : ℤ} (hne : src ≠ dst) (hd : m.InSize dst) (hs : m.InSize src)
    (ht : m.tail src = some t) : m.seqCp src dst = (m.leave dst).join dst t := by
  have htail : (m.leave dst).tail src = some t := by
    rw [leave_tail, update_of_ne hne, ht]
  unfold MemoryRecurrent.seqCp
  rw [if_neg hne, if_pos ⟨hd, hs⟩]
  dsimp only
  rw [htail]

/-- A copied sequence has the index of the one it is copied from. -/
lemma RollInv.seqCp (h : RollInv m rolled) {src dst : ℤ}
    (hkeep : src ≠ dst → m.InSize src → m.InSize dst → m.rsIdx src = m.rsIdx dst) :
    RollInv (m.seqCp src dst) ((m.seqCp src dst).inUse rolled) := by
  have h' := h.inv.seqCp src dst
  rcases seqCp_cases (m := m) src dst with heq | ⟨hne, hd, hsrc, hnone, heq⟩ |
    ⟨t, hne, hd, hsrc, ht, heq⟩
  · rw [heq] at h' ⊢
    exact h.of_same_tail h' rfl fun o ho => ⟨ho, rfl⟩
  · rw [heq] at h' ⊢
    refine h.of_same_tail h' (leave_prm m dst) fun o ho => ?_
    rw [leave_rsIdx] at ho
    have hod : o ≠ dst := by
      rintro rfl
      rw [← hkeep hne hsrc hd] at ho
      obtain ⟨-, -, t, -, ht⟩ := h.roll src ho
      rw [hnone] at ht
      cases ht
    exact ⟨ho, by rw [leave_tail, update_of_ne hod]⟩
  · rw [heq] at h' ⊢
    refine ⟨h', fun o ho => ?_⟩
    change (m.leave dst).rsIdx o ≠ 0 at ho
    rw [leave_rsIdx] at ho
    change (m.leave dst).prm.nRsSeq ≠ 0 ∧ (0 ≤ o ∧ o < (m.leave dst).prm.nSeqMax) ∧ _
    rw [leave_prm]
    obtain ⟨hrs, hrange, t', ht', hot⟩ := h.roll o ho
    by_cases hod : o = dst
    · subst hod
      rw [← hkeep hne hsrc hd] at ho
      obtain ⟨-, -, t1, ht1, hst⟩ := h.roll src ho
      rw [ht] at hst
      cases hst
      have htail : ((m.leave o).join o t).tail o = some t := update_self _ _ _
      exact ⟨hrs, hrange, t, ⟨ht1, h'.ne_empty htail⟩, htail⟩
    · have htail : ((m.leave dst).join dst t).tail o = some t' := by
        change Function.update (m.leave dst).tail dst (some t) o = some t'
        rw [update_of_ne hod, leave_tail, update_of_ne hod, hot]
      exact ⟨hrs, hrange, t', ⟨ht', h'.ne_empty htail⟩, htail⟩

/-- **Every call that meets the condition keeps the pending rollbacks right.** -/
theorem RollInv.step {x x' : Tracked} (h : RollInv x.mem x.rolled) {op : Op} (hcall : op.Called)
    (hkeep : op.KeepsRollback x) (hs : x.step op = some x') : RollInv x'.mem x'.rolled := by
  obtain ⟨m', hm', rfl⟩ := Option.map_eq_some_iff.mp hs
  have h' := h.inv.step hcall hm'
  have hsame : ∀ {p0 p1 : ℤ} {f : ℤ → ℤ} {o : ℤ}, RollInv (x.mem.mapPos o p0 p1 f)
      ((x.mem.mapPos o p0 p1 f).inUse x.rolled) := by
    intro p0 p1 f o
    have h' := h.inv.mapPos o p0 p1 f
    rcases mapPos_cases (m := x.mem) o p0 p1 f with heq | ⟨t, -, heq⟩
    · rw [heq] at h' ⊢
      exact h.of_same_tail h' rfl fun o ho => ⟨ho, rfl⟩
    · rw [heq] at h' ⊢
      exact h.of_same_tail h' rfl fun o ho => ⟨ho, rfl⟩
  cases op with
  | clear data =>
    cases hm'
    exact rollInv_of_zero h' rfl
  | seqRm s p0 p1 =>
    cases hm'
    exact (h.inv.seqRm_effect s p0 p1).rollInv h hkeep
  | seqCp src dst =>
    cases hm'
    exact h.seqCp hkeep
  | seqKeep s =>
    cases hm'
    refine h.of_same_tail h' rfl fun o ho => ⟨ho, ?_⟩
    have hos : o = s := by
      by_contra hne
      exact ho (hkeep o hne)
    exact if_pos hos
  | seqAdd s p0 p1 shift =>
    cases hm'
    change RollInv (x.mem.seqAdd s p0 p1 shift) ((x.mem.seqAdd s p0 p1 shift).inUse x.rolled)
    unfold MemoryRecurrent.seqAdd
    split
    · exact h.of_same_tail h.inv rfl fun o ho => ⟨ho, rfl⟩
    · exact hsame
  | seqDiv s p0 p1 d =>
    cases hm'
    change RollInv (x.mem.seqDiv s p0 p1 d) ((x.mem.seqDiv s p0 p1 d).inUse x.rolled)
    unfold MemoryRecurrent.seqDiv
    split
    · exact h.of_same_tail h.inv rfl fun o ho => ⟨ho, rfl⟩
    · exact hsame
  | prepare ubs =>
    obtain ⟨r, hr, rfl⟩ := Option.map_eq_some_iff.mp hm'
    have hubs : ∀ ub ∈ ubs, ub.Sets := fun ub hub => (hcall ub hub).choose_spec.sets
    obtain ⟨n, rsZ, heq⟩ := h.inv.prepare_frame hubs hr
    rw [heq] at h' ⊢
    exact h.of_same_tail h' rfl fun o ho => ⟨ho, rfl⟩
  | findSlot ub =>
    obtain ⟨r, hr, rfl⟩ := Option.map_eq_some_iff.mp hm'
    have hslot := h.findSlot hcall.choose_spec.sets hr hkeep
    dsimp only [Tracked.rolledAfter]
    rw [hr]
    simpa only [Option.map_some, Option.some.injEq] using hslot
  | compute nSeqs state =>
    cases hm'
    exact h.compute nSeqs state hkeep
  | stateRead s bytes => exact (h.inv.restore_effect hm').rollInv h

lemma firstSeq_singleton {c : MemCell} (h : c.seqId = {s}) : c.firstSeq = some s := by
  unfold MemCell.firstSeq
  simp [h]

/-- A sequence that is decoded alone in its set continues from the row of its cell, in the plane
of its own index. -/
lemma Inv.decodeRow_eq (h : Inv m) (hidx : m.rsIdx s ≠ 0 → m.prm.nRsSeq ≠ 0 ∧
      0 ≤ s ∧ s < m.prm.nSeqMax) (ht : m.tail s = some t) {ub : UBatch} (hub : ub.Sets)
    (hin : ∀ o ∈ ub.listed, m.InSize o) {k : ℕ} (hk : k < ub.nSeqs) (hset : ub.setIds k = [s]) :
    m.decodeRow ub k = some (some (m.rsIdx s * m.prm.size + t)) := by
  obtain ⟨m2, π, m', hslot, hp⟩ := (h.findSlot_spec hub).1 hin
  have h' := h.findSlot hub hslot
  obtain ⟨hprm, hrsIdx, -⟩ := h.findSlot_frame hub hslot
  have hfirst : ub.firstId k = s := by
    have heq := hub.setIds_eq hk
    rw [hset] at heq
    exact (List.cons.inj heq).1.symm
  have hjoin : s ∉ ub.joined := by
    intro hj
    obtain ⟨l, hl, hmem⟩ := UBatch.mem_joined.mp hj
    obtain rfl := hub.disjoint l hl k hk s (mem_of_mem_tail hmem) (hset ▸ mem_singleton_self s)
    rw [hset] at hmem
    cases hmem
  have ht0 : (m.detached ub).tail (ub.firstId k) = some t := by
    rw [hfirst, detached_tail_of_notMem hjoin, ht]
  have hcell : (m'.cells (m'.head + k)).seqId = {s} := by
    rw [(hp.cell_new k hk).1, hset]
    rfl
  have hkn : k < m'.n := lt_of_lt_of_le hk hp.nSeqs_le
  have hget : (sCopies (range m'.n) m').1[k]? = some (m'.copyRow k) := by
    rw [(h'.sCopies_spec nodup_range).1, getElem?_map, getElem?_range hkn]
    rfl
  unfold decodeRow
  rw [hslot]
  dsimp only
  rw [hget, copyRow_eq, hp.src0_first hk ht0, rollSeq_eq (firstSeq_singleton hcell), hprm, hrsIdx]
  by_cases hroll : m.prm.nRsSeq ≠ 0 ∧ 0 ≤ s ∧ s < m.prm.nSeqMax
  · rw [if_pos hroll]
    rfl
  · have hzero : m.rsIdx s = 0 := by
      by_contra hne
      exact hroll (hidx hne)
    rw [if_neg hroll, hzero, Nat.zero_mul, Nat.zero_add]

/-- Sequences with the same tail and the same index continue from the same row. -/
lemma RollInv.sameSnapshot (h : RollInv m rolled) {s' : ℤ} (ht : m.tail s = some t)
    (ht' : m.tail s' = some t) (hidx : m.rsIdx s = m.rsIdx s') : SameSnapshot m s s' := by
  intro ub ub' hub hub' hin hin' k hk k' hk' hset hset'
  have hroll : ∀ o, m.rsIdx o ≠ 0 → m.prm.nRsSeq ≠ 0 ∧ 0 ≤ o ∧ o < m.prm.nSeqMax := by
    intro o ho
    obtain ⟨hrs, hrange, -⟩ := h.roll o ho
    exact ⟨hrs, hrange⟩
  refine ⟨_, h.inv.decodeRow_eq (hroll s) ht hub hin hk hset, ?_⟩
  rw [hidx]
  exact h.inv.decodeRow_eq (hroll s') ht' hub' hin' hk' hset'

/-! ## Runs -/

/-- What the calls of a run keep when they meet the condition. -/
lemma rollInv_of_reachable (p : RsParams) {x : Tracked}
    (h : Run.Reachable Tracked.step (fun x op => op.Called ∧ op.KeepsRollback x) ⟨new p, ∅⟩ x) :
    RollInv x.mem x.rolled :=
  h.invariant (I := fun x => RollInv x.mem x.rolled) (rollInv_of_zero (inv_new p) rfl)
    fun _ _ _ hx hg hs => hx.step hg.1 hg.2 hs

/-- The sequence has no state: its next decode starts from a zeroed row. -/
def StartsAfresh (m : MemoryRecurrent) (s : ℤ) : Prop := m.tail s = none ∧ m.rsIdx s = 0

lemma RollInv.startsAfresh (h : RollInv m rolled) (hs : m.tail s = none) : m.StartsAfresh s := by
  refine ⟨hs, ?_⟩
  by_contra hne
  obtain ⟨-, -, t, -, ht⟩ := h.roll s hne
  rw [hs] at ht
  cases ht

/-- **Pending rollbacks in all runs.**  When the calls meet the condition, a pending index
belongs to a sequence whose cell waits to be rolled back, and a sequence that is copied from
another one continues from the same row, or starts afresh like that one. -/
theorem rollback_of_reachable (p : RsParams) {x : Tracked}
    (h : Run.Reachable Tracked.step (fun x op => op.Called ∧ op.KeepsRollback x) ⟨new p, ∅⟩ x) :
    PendingOnly x ∧ ∀ src dst, src ≠ dst → x.mem.InSize src → x.mem.InSize dst →
      (Op.seqCp src dst).KeepsRollback x →
      SameSnapshot (x.mem.seqCp src dst) src dst ∨
        x.mem.tail src = none ∧ (x.mem.seqCp src dst).StartsAfresh src ∧
          (x.mem.seqCp src dst).StartsAfresh dst := by
  have hx := rollInv_of_reachable p h
  refine ⟨fun s hs => ?_, fun src dst hne hsrc hdst hkeep => ?_⟩
  · obtain ⟨-, -, t, ht, hst⟩ := hx.roll s hs
    exact ⟨t, hst, ht⟩
  · have hcp := hx.seqCp hkeep
    cases ht : x.mem.tail src with
    | none =>
      have htail : (x.mem.leave dst).tail src = none := by
        rw [leave_tail, Function.update_of_ne hne, ht]
      have heq : x.mem.seqCp src dst = x.mem.leave dst := by
        unfold MemoryRecurrent.seqCp
        rw [if_neg hne, if_pos ⟨hdst, hsrc⟩]
        dsimp only
        rw [htail]
      rw [heq] at hcp ⊢
      have htail' : (x.mem.leave dst).tail dst = none := by rw [leave_tail, Function.update_self]
      exact .inr ⟨rfl, hcp.startsAfresh htail, hcp.startsAfresh htail'⟩
    | some t =>
      left
      rw [seqCp_of_tail hne hdst hsrc ht] at hcp ⊢
      have htsrc : ((x.mem.leave dst).join dst t).tail src = some t := by
        change Function.update (x.mem.leave dst).tail dst (some t) src = some t
        rw [Function.update_of_ne hne, leave_tail, Function.update_of_ne hne, ht]
      have htdst : ((x.mem.leave dst).join dst t).tail dst = some t := Function.update_self _ _ _
      have hrsIdx : ((x.mem.leave dst).join dst t).rsIdx = x.mem.rsIdx := leave_rsIdx x.mem dst
      exact hcp.sameSnapshot htsrc htdst (by rw [hrsIdx, hkeep hne hsrc hdst])

/-- The graph of a token of sequence 0, and a rollback by that token. -/
def rolledBack (m : MemoryRecurrent) : MemoryRecurrent :=
  ((m.compute 1 fun _ _ => m.prm.zeroRow).seqRm 0 1 (-1)).2

/-- The rollback is pending. -/
theorem rollback_of_reachable_rolledBack :
    ∃ m x, (new (.two 1)).step (.findSlot (ubatchAt 0 1)) = some m ∧ x.mem = m.rolledBack ∧
      x.mem.rsIdx 0 = 1 ∧ PendingOnly x := by
  have hrun : ((new (.two 1)).step (.findSlot (ubatchAt 0 1))).map (fun m =>
      (m.rsIdx 0, m.rsIdx 1, m.rolledBack.rsIdx 0)) = some (0, 0, 1) := by decide +kernel
  obtain ⟨m, hm, hidx⟩ := Option.map_eq_some_iff.mp hrun
  obtain ⟨h0, hidx⟩ := Prod.ext_iff.mp hidx
  obtain ⟨h1, hroll⟩ := Prod.ext_iff.mp hidx
  have hzero : m.rsIdx = fun _ => 0 := by
    have hm' : ((new (.two 1)).findSlot (ubatchAt 0 1)).map Prod.snd = some m := hm
    obtain ⟨r, hr, rfl⟩ := Option.map_eq_some_iff.mp hm'
    have hub : (ubatchAt 0 1).FromBatch 2 := fromBatch_ubatchAt (by decide +kernel)
    rw [((inv_new (.two 1)).findSlot_frame hub.sets hr).2.1]
    rfl
  set x1 : Tracked := ⟨m, Tracked.rolledAfter ⟨new (.two 1), ∅⟩ m (.findSlot (ubatchAt 0 1))⟩
  set compute : Op := .compute 1 fun _ _ => m.prm.zeroRow
  set x2 : Tracked := ⟨m.compute 1 fun _ _ => m.prm.zeroRow, x1.rolledAfter _ compute⟩
  have hfind : (Op.findSlot (ubatchAt 0 1)).Called ∧
      (Op.findSlot (ubatchAt 0 1)).KeepsRollback ⟨new (.two 1), ∅⟩ :=
    ⟨⟨2, fromBatch_ubatchAt (by decide +kernel)⟩, fun _ _ _ _ hne => absurd rfl hne⟩
  have hcompute : compute.Called ∧ compute.KeepsRollback x1 :=
    ⟨trivial, fun _ _ _ _ _ => congrFun hzero _⟩
  have hrm : (Op.seqRm 0 1 (-1)).Called ∧ (Op.seqRm 0 1 (-1)).KeepsRollback x2 :=
    ⟨trivial, fun h => absurd h (by decide)⟩
  have h1 : Run.Reachable Tracked.step (fun x op => op.Called ∧ op.KeepsRollback x)
      ⟨new (.two 1), ∅⟩ x1 :=
    .step .init hfind (Option.map_eq_some_iff.mpr ⟨m, hm, rfl⟩)
  have h2 : Run.Reachable Tracked.step (fun x op => op.Called ∧ op.KeepsRollback x)
      ⟨new (.two 1), ∅⟩ x2 := .step h1 hcompute rfl
  exact ⟨m, _, hm, rfl, hroll, (rollback_of_reachable (.two 1) (.step h2 hrm rfl)).1⟩

/-- After a rollback of sequence 0 its index is not copied with the cell, so that sequence 1
continues from another row; and `seq_keep` leaves the index behind. -/
theorem not_rollback : (ubatchAt 0 1).FromBatch 2 ∧ (ubatchAt 1 1).FromBatch 2 ∧
      ∃ m, (new (.two 1)).step (.findSlot (ubatchAt 0 1)) = some m ∧
        ¬ SameSnapshot (m.rolledBack.seqCp 0 1) 0 1 ∧
        ∀ rolled, ¬ PendingOnly ⟨m.rolledBack.seqKeep 1, rolled⟩ := by
  have hub : (ubatchAt 0 1).FromBatch 2 := fromBatch_ubatchAt (by decide +kernel)
  have hub' : (ubatchAt 1 1).FromBatch 2 := fromBatch_ubatchAt (by decide +kernel)
  refine ⟨hub, hub', ?_⟩
  have hrun : ((new (.two 1)).step (.findSlot (ubatchAt 0 1))).map (fun m =>
      ((m.rolledBack.seqCp 0 1).decodeRow (ubatchAt 0 1) 0,
        (m.rolledBack.seqCp 0 1).decodeRow (ubatchAt 1 1) 0,
        (m.rolledBack.seqKeep 1).rsIdx 0, (m.rolledBack.seqKeep 1).tail 0,
        (m.rolledBack.seqCp 0 1).prm.size)) =
      some (some (some 2), some (some 0), 1, none, 2) := by decide +kernel
  obtain ⟨m, hm, hvals⟩ := Option.map_eq_some_iff.mp hrun
  simp only [Prod.mk.injEq] at hvals
  obtain ⟨hrow, hrow', hidx, htail, hsize⟩ := hvals
  refine ⟨m, hm, fun hsame => ?_, fun rolled hp => ?_⟩
  · have hin : ∀ o ∈ (ubatchAt 0 1).listed, (m.rolledBack.seqCp 0 1).InSize o := by
      rw [show (ubatchAt 0 1).listed = [0] by decide +kernel]
      simp [InSize, hsize]
    have hin' : ∀ o ∈ (ubatchAt 1 1).listed, (m.rolledBack.seqCp 0 1).InSize o := by
      rw [show (ubatchAt 1 1).listed = [1] by decide +kernel]
      simp [InSize, hsize]
    obtain ⟨row, h1, h2⟩ := hsame _ _ hub.sets hub'.sets hin hin' 0 (by decide +kernel) 0
      (by decide +kernel) (by decide +kernel) (by decide +kernel)
    rw [hrow] at h1
    rw [hrow'] at h2
    cases h1
    cases h2
  · obtain ⟨t, ht, -⟩ := hp 0 (by rw [hidx]; decide)
    cases ht

end Llama.MemoryRecurrent
