import Llama.Recurrent.Invariant

/-!
# Finding a slot

The loops of `find_slot` in stages.  The sequences that become shared leave their cells
(`leaveAll`).  Every first sequence of a set then gets a cell of its own: `Claimed` says what
holds after some of them have got theirs, and `exists_free` that an empty cell is left for the
next one, since there are no more cells in use than sequences.
-/

namespace Llama

open List Function Finset Arrange

/-- Every set lists a sequence, and no sequence is in two sets. -/
structure UBatch.Sets (ub : UBatch) : Prop where
  equalSeqs : ub.equalSeqs = true
  nSeqs_pos : 0 < ub.nSeqs
  ne_nil : ∀ k < ub.nSeqs, ub.setIds k ≠ []
  disjoint : ∀ k < ub.nSeqs, ∀ l < ub.nSeqs, ∀ s, s ∈ ub.setIds k → s ∈ ub.setIds l → k = l

/-- The sequences listed after the first one of their set. -/
def UBatch.joined (ub : UBatch) : List ℤ :=
  ((List.range ub.nSeqs).map ub.setIds).flatMap List.tail

/-- The first sequence of set `k`. -/
def UBatch.firstId (ub : UBatch) (k : ℕ) : ℤ := ub.seqId (k * ub.nSeqTokens) 0

lemma UBatch.firstIds_eq (ub : UBatch) : ub.firstIds = (List.range ub.nSeqs).map ub.firstId := rfl

variable {ub : UBatch}

/-- A list of ids that is not empty starts with `seq_id[i][0]`. -/
lemma UBatch.Sets.setIds_eq (h : ub.Sets) {k : ℕ} (hk : k < ub.nSeqs) :
    ub.setIds k = ub.firstId k :: (ub.setIds k).tail := by
  have hne := h.ne_nil k hk
  unfold UBatch.setIds UBatch.seqs at hne ⊢
  cases hn : ub.nSeqId (k * ub.nSeqTokens) with
  | zero => simp [hn] at hne
  | succ n => simp [range_succ_eq_map, UBatch.firstId]

lemma UBatch.Sets.firstId_mem (h : ub.Sets) {k : ℕ} (hk : k < ub.nSeqs) :
    ub.firstId k ∈ ub.setIds k := by
  rw [h.setIds_eq hk]
  exact mem_cons_self

/-- The first sequences are distinct. -/
lemma UBatch.Sets.firstId_inj (h : ub.Sets) {k l : ℕ} (hk : k < ub.nSeqs) (hl : l < ub.nSeqs)
    (heq : ub.firstId k = ub.firstId l) : k = l :=
  h.disjoint k hk l hl _ (h.firstId_mem hk) (heq ▸ h.firstId_mem hl)

lemma UBatch.Sets.nodup_firstIds (h : ub.Sets) : ub.firstIds.Nodup := by
  refine List.Nodup.map_on (fun k hk l hl heq => ?_) List.nodup_range
  exact h.firstId_inj (List.mem_range.mp hk) (List.mem_range.mp hl) heq

lemma UBatch.mem_joined {s : ℤ} : s ∈ ub.joined ↔ ∃ k < ub.nSeqs, s ∈ (ub.setIds k).tail := by
  simp [UBatch.joined]

namespace MemoryRecurrent

variable {m m' : MemoryRecurrent} {s : ℤ} {t : ℕ}

/-! ## Sequences that become shared -/

/-- The sequences of a list leave their cells. -/
def leaveAll (m : MemoryRecurrent) (ss : List ℤ) : MemoryRecurrent := ss.foldl leave m

@[simp] lemma leaveAll_nil (m : MemoryRecurrent) : m.leaveAll [] = m := rfl

@[simp] lemma leaveAll_cons (m : MemoryRecurrent) (s : ℤ) (ss : List ℤ) :
    m.leaveAll (s :: ss) = (m.leave s).leaveAll ss := rfl

lemma leaveAll_append (m : MemoryRecurrent) (ss ss' : List ℤ) :
    m.leaveAll (ss ++ ss') = (m.leaveAll ss).leaveAll ss' :=
  foldl_append

/-- Only cells, tails and the count change. -/
lemma leaveAll_frame (m : MemoryRecurrent) (ss : List ℤ) :
    (m.leaveAll ss).prm = m.prm ∧ (m.leaveAll ss).head = m.head ∧
      (m.leaveAll ss).rsIdx = m.rsIdx ∧ (m.leaveAll ss).rows = m.rows := by
  induction ss generalizing m with
  | nil => exact ⟨rfl, rfl, rfl, rfl⟩
  | cons s ss ih => simpa using ih (m.leave s)

lemma Inv.leaveAll (h : Inv m) (ss : List ℤ) : Inv (m.leaveAll ss) := by
  induction ss generalizing m with
  | nil => exact h
  | cons s ss ih => exact ih (h.leave s)

lemma UsedOk.leaveAll (hu : UsedOk m) (h : Inv m) (ss : List ℤ) : UsedOk (m.leaveAll ss) := by
  induction ss generalizing m with
  | nil => exact hu
  | cons s ss ih => exact ih (hu.leave h s) (h.leave s)

lemma FreePos.leaveAll (hf : FreePos m) (h : Inv m) (ss : List ℤ) : FreePos (m.leaveAll ss) := by
  induction ss generalizing m with
  | nil => exact hf
  | cons s ss ih => exact ih (hf.leave h s) (h.leave s)

lemma leaveAll_tail (m : MemoryRecurrent) (ss : List ℤ) (s : ℤ) :
    (m.leaveAll ss).tail s = if s ∈ ss then none else m.tail s := by
  induction ss generalizing m with
  | nil => rfl
  | cons s' ss ih =>
    rw [leaveAll_cons, ih]
    by_cases hs : s = s'
    · simp [hs]
    · simp [hs]

lemma inSize_leave {s' : ℤ} : (m.leave s).InSize s' ↔ m.InSize s' := by
  rw [InSize, InSize, leave_prm]

lemma checkIds_spec (ss : List ℤ) (m : MemoryRecurrent) :
    ((∀ s ∈ ss, m.InSize s) → checkIds ss m = (true, m.leaveAll ss)) ∧ ((∃ s ∈ ss, ¬ m.InSize s) →
        ∃ ss', ss' ⊆ ss ∧ checkIds ss m = (false, m.leaveAll ss')) := by
  induction ss generalizing m with
  | nil => simp [checkIds]
  | cons s ss ih =>
    obtain ⟨ihT, ihF⟩ := ih (m.leave s)
    simp only [inSize_leave] at ihT ihF
    rw [checkIds]
    refine ⟨fun hall => ?_, fun hex => ?_⟩
    · rw [if_pos (hall s mem_cons_self), ihT fun s' hs' => hall s' (mem_cons_of_mem _ hs'),
        leaveAll_cons]
    · by_cases hs : m.InSize s
      · have hex' : ∃ s' ∈ ss, ¬ m.InSize s' := by
          obtain ⟨s', hs', hnot⟩ := hex
          rcases mem_cons.mp hs' with rfl | hs'
          · exact absurd hs hnot
          · exact ⟨s', hs', hnot⟩
        obtain ⟨ss', hsub, heq⟩ := ihF hex'
        exact ⟨s :: ss', cons_subset_cons s hsub, by rw [if_pos hs, heq, leaveAll_cons]⟩
      · exact ⟨[], nil_subset _, by rw [if_neg hs, leaveAll_nil]⟩

lemma checkSet_spec (ids : List ℤ) (m : MemoryRecurrent) :
    ((∀ s ∈ ids, m.InSize s) → m.checkSet ids = (true, m.leaveAll ids.tail)) ∧
      ((∃ s ∈ ids, ¬ m.InSize s) →
        ∃ ss', ss' ⊆ ids.tail ∧ m.checkSet ids = (false, m.leaveAll ss')) := by
  cases ids with
  | nil => simp [checkSet]
  | cons s ss =>
    obtain ⟨hT, hF⟩ := checkIds_spec ss m
    rw [checkSet]
    refine ⟨fun hall => ?_, fun hex => ?_⟩
    · rw [if_pos (hall s mem_cons_self), hT fun s' hs' => hall s' (mem_cons_of_mem _ hs'),
        tail_cons]
    · by_cases hs : m.InSize s
      · rw [if_pos hs]
        refine hF ?_
        obtain ⟨s', hs', hnot⟩ := hex
        rcases mem_cons.mp hs' with rfl | hs'
        · exact absurd hs hnot
        · exact ⟨s', hs', hnot⟩
      · exact ⟨[], nil_subset _, by rw [if_neg hs, leaveAll_nil]⟩

/-- **The first loop of `find_slot`.**  If all ids are in range, the sequences after the first
one of each set leave their cells; otherwise some have left theirs. -/
theorem checkSets_spec (sets : List (List ℤ)) (m : MemoryRecurrent) :
    ((∀ ids ∈ sets, ∀ s ∈ ids, m.InSize s) →
        checkSets sets m = (true, m.leaveAll (sets.flatMap List.tail))) ∧
      ((∃ ids ∈ sets, ∃ s ∈ ids, ¬ m.InSize s) →
        ∃ ss', ss' ⊆ sets.flatMap List.tail ∧ checkSets sets m = (false, m.leaveAll ss')) := by
  induction sets generalizing m with
  | nil => simp [checkSets]
  | cons ids sets ih =>
    have hprm : ∀ ss s, (m.leaveAll ss).InSize s ↔ m.InSize s := fun ss s => by
      rw [InSize, InSize, (leaveAll_frame m ss).1]
    obtain ⟨hT, hF⟩ := checkSet_spec ids m
    rw [checkSets]
    refine ⟨fun hall => ?_, fun hex => ?_⟩
    · rw [hT (hall ids mem_cons_self)]
      have hrest := (ih (m.leaveAll ids.tail)).1 fun ids' hids' s hs =>
        (hprm _ s).mpr (hall ids' (mem_cons_of_mem _ hids') s hs)
      dsimp only
      rw [hrest, flatMap_cons, leaveAll_append]
    · by_cases hids : ∀ s ∈ ids, m.InSize s
      · have hex' : ∃ ids' ∈ sets, ∃ s ∈ ids', ¬ m.InSize s := by
          obtain ⟨ids', hids', s, hs, hnot⟩ := hex
          rcases mem_cons.mp hids' with rfl | hids'
          · exact absurd (hids s hs) hnot
          · exact ⟨ids', hids', s, hs, hnot⟩
        simp only [← hprm ids.tail] at hex'
        obtain ⟨ss', hsub, heq⟩ := (ih (m.leaveAll ids.tail)).2 hex'
        refine ⟨ids.tail ++ ss', ?_, ?_⟩
        · exact append_subset.mpr
            ⟨subset_append_left _ _, List.Subset.trans hsub (subset_append_right _ _)⟩
        · rw [hT hids]
          dsimp only
          rw [heq, leaveAll_append]
      · obtain ⟨ss', hsub, heq⟩ := hF (by simpa only [not_forall, exists_prop] using hids)
        refine ⟨ss', ?_, by rw [heq]⟩
        exact List.Subset.trans hsub (subset_append_left _ _)

/-! ## Cells of their own -/

/-- After the sequences of `done` have got cells of their own: no other sequence is in these,
a sequence that had a cell continues from its row, and a sequence without one is not in the
set of its cell yet.  The other cells have at most lost sequences. -/
structure Claimed (m0 : MemoryRecurrent) (done : Finset ℤ) (m : MemoryRecurrent) : Prop where
  frame : m = { m0 with cells := m.cells, tail := m.tail }
  inSize : ∀ s ∈ done, m0.InSize s
  other : ∀ s ∉ done, m.tail s = m0.tail s
  own : ∀ s ∈ done, ∃ t, m.tail s = some t
  lt : ∀ s t, m.tail s = some t → t < m0.prm.size
  excl : ∀ s ∈ done, ∀ t, m.tail s = some t → ∀ s', m.tail s' = some t → s' = s
  mem : ∀ i, ∀ s ∈ (m.cells i).seqId, m.tail s = some i
  held : ∀ s i, m.tail s = some i →
    s ∈ (m.cells i).seqId ∨ s ∈ done ∧ m0.tail s = none ∧ (m.cells i).seqId = ∅
  moved : ∀ s ∈ done, ∀ t0, m0.tail s = some t0 → ∀ t, m.tail s = some t → (m.cells t).src = some t0
  fresh : ∀ s ∈ done, m0.tail s = none → ∀ t, m.tail s = some t →
    (m0.cells t).seqId = ∅ ∧ (m.cells t).src = (m0.cells t).src
  rest : ∀ i, (∀ s ∈ done, m.tail s ≠ some i) →
    (m.cells i).pos = (m0.cells i).pos ∧ (m.cells i).src = (m0.cells i).src ∧
      (m.cells i).seqId = (m0.cells i).seqId.filter (· ∉ done)
  full : ∀ i, (m0.cells i).seqId ≠ ∅ → (m.cells i).seqId ≠ ∅

variable {m0 : MemoryRecurrent} {done : Finset ℤ}

lemma Claimed.prm (hc : Claimed m0 done m) : m.prm = m0.prm := by
  rw [hc.frame]

lemma claimed_empty (h : Inv m) : Claimed m ∅ m where
  frame := rfl
  inSize := fun s hs => by cases hs
  other := fun _ _ => rfl
  own := fun s hs => by cases hs
  lt := fun _ _ ht => h.tail_lt ht
  excl := fun s hs => by cases hs
  mem := fun i s hs => (h.tail_iff s i).mpr hs
  held := fun s i ht => .inl (h.mem ht)
  moved := fun s hs => by cases hs
  fresh := fun s hs => by cases hs
  rest := fun i _ => ⟨rfl, rfl, by simp⟩
  full := fun _ hne => hne

/-- A cell that no sequence has: it is empty and nobody has claimed it. -/
def FreeCell (m : MemoryRecurrent) (done : Finset ℤ) (i : ℕ) : Prop :=
  (m.cells i).seqId = ∅ ∧ ∀ s ∈ done, m.tail s ≠ some i

/-- The tail of a sequence that has no cell of its own yet. -/
lemma Claimed.not_done (hc : Claimed m0 done m) (hs : s ∉ done) (ht : m.tail s = some t) :
    ∀ s' ∈ done, m.tail s' ≠ some t := by
  intro s' hs' ht'
  exact hs ((hc.excl s' hs' t ht' s ht).symm ▸ hs')

lemma Claimed.mem_cell (hc : Claimed m0 done m) (hs : s ∉ done) (ht : m.tail s = some t) :
    s ∈ (m.cells t).seqId :=
  (hc.held s t ht).resolve_right fun h => hs h.1

/-- The row of a sequence that has no cell of its own yet. -/
lemma Claimed.src_eq (hc : Claimed m0 done m) (h : Inv m0) (hs : s ∉ done)
    (ht : m.tail s = some t) : (m.cells t).src = some t := by
  have ht0 : m0.tail s = some t := hc.other s hs ▸ ht
  rw [(hc.rest t (hc.not_done hs ht)).2.1]
  exact h.src_full t (h.ne_empty ht0)

lemma filter_insert_notMem {ids : Finset ℤ} :
    ids.filter (· ∉ insert s done) = (ids.filter (· ∉ done)).erase s := by
  ext x
  simp only [Finset.mem_filter, Finset.mem_insert, Finset.mem_erase]
  tauto

/-- A sequence gets cell `e` of its own, and the other ones stay where they are. -/
lemma Claimed.addDone (hc : Claimed m0 done m) (hs : s ∉ done) (hin : m0.InSize s) {e : ℕ}
    (he : e < m0.prm.size) (hframe : m' = { m0 with cells := m'.cells, tail := m'.tail })
    (hself : m'.tail s = some e) (hne : ∀ s' ≠ s, m'.tail s' = m.tail s')
    (honly : ∀ s' ≠ s, m.tail s' ≠ some e)
    (hsrc : ∀ s' ∈ done, ∀ i, m.tail s' = some i → (m'.cells i).src = (m.cells i).src)
    (hmoved : ∀ i, m0.tail s = some i → (m'.cells e).src = some i)
    (hfresh : m0.tail s = none → (m0.cells e).seqId = ∅ ∧ (m'.cells e).src = (m0.cells e).src)
    (hmem : ∀ i, ∀ s' ∈ (m'.cells i).seqId, m'.tail s' = some i)
    (hheld : ∀ s' i, m'.tail s' = some i → s' ∈ (m'.cells i).seqId ∨
      s' ∈ insert s done ∧ m0.tail s' = none ∧ (m'.cells i).seqId = ∅)
    (hrest : ∀ i ≠ e, (∀ s' ∈ done, m.tail s' ≠ some i) →
      (m'.cells i).pos = (m0.cells i).pos ∧ (m'.cells i).src = (m0.cells i).src ∧
        (m'.cells i).seqId = (m0.cells i).seqId.filter (· ∉ insert s done))
    (hfull : ∀ i, (m0.cells i).seqId ≠ ∅ → (m'.cells i).seqId ≠ ∅) :
    Claimed m0 (insert s done) m' := by
  have hdone : ∀ s' ∈ done, m'.tail s' = m.tail s' := fun s' hd =>
    hne s' fun heq => hs (heq ▸ hd)
  have hof : ∀ i, m'.tail s = some i → i = e := fun i hi =>
    Option.some.inj (hi.symm.trans hself)
  exact {
    frame := hframe
    inSize := forall_mem_insert _ _ _ |>.mpr ⟨hin, hc.inSize⟩
    other := by
      intro s' hs'
      rw [mem_insert, not_or] at hs'
      exact (hne s' hs'.1).trans (hc.other s' hs'.2)
    own := by
      refine forall_mem_insert _ _ _ |>.mpr ⟨⟨e, hself⟩, fun s' hd => ?_⟩
      rw [hdone s' hd]
      exact hc.own s' hd
    lt := by
      intro s' i hi
      by_cases hn : s' = s
      · subst hn
        rwa [hof i hi]
      · rw [hne s' hn] at hi
        exact hc.lt s' i hi
    excl := by
      refine forall_mem_insert _ _ _ |>.mpr ⟨fun i hi s' hs' => ?_, fun s1 hd i hi s' hs' => ?_⟩
      · by_contra hn
        rw [hne s' hn, hof i hi] at hs'
        exact honly s' hn hs'
      · rw [hdone s1 hd] at hi
        by_cases hn : s' = s
        · subst hn
          rw [hof i hs'] at hi
          exact absurd hi (honly s1 fun heq => hs (heq ▸ hd))
        · rw [hne s' hn] at hs'
          exact hc.excl s1 hd i hi s' hs'
    mem := hmem
    held := hheld
    moved := by
      refine forall_mem_insert _ _ _ |>.mpr ⟨fun t0 ht0 i hi => ?_, fun s1 hd t0 ht0 i hi => ?_⟩
      · rw [hof i hi]
        exact hmoved t0 ht0
      · rw [hdone s1 hd] at hi
        rw [hsrc s1 hd i hi]
        exact hc.moved s1 hd t0 ht0 i hi
    fresh := by
      refine forall_mem_insert _ _ _ |>.mpr ⟨fun hnone i hi => ?_, fun s1 hd hnone i hi => ?_⟩
      · rw [hof i hi]
        exact hfresh hnone
      · rw [hdone s1 hd] at hi
        rw [hsrc s1 hd i hi]
        exact hc.fresh s1 hd hnone i hi
    rest := by
      intro i hi
      rw [forall_mem_insert] at hi
      refine hrest i (fun heq => hi.1 (heq ▸ hself)) fun s1 hd => ?_
      rw [← hdone s1 hd]
      exact hi.2 s1 hd
    full := hfull }

/-- A sequence alone in its cell keeps it. -/
lemma Claimed.keep (hc : Claimed m0 done m) (h : Inv m0) (hs : s ∉ done) (hin : m0.InSize s)
    (ht : m.tail s = some t) (hone : (m.cells t).seqId = {s}) : Claimed m0 (insert s done) m := by
  have ht0 : m0.tail s = some t := hc.other s hs ▸ ht
  refine hc.addDone hs hin (hc.lt s t ht) hc.frame ht (fun _ _ => rfl) (fun s' hn hs' => ?_)
    (fun _ _ _ _ => rfl) (fun i hi => ?_) (fun hnone => ?_) hc.mem (fun s' i hs' => ?_)
    (fun i hi hdone => ?_) hc.full
  · rcases hc.held s' t hs' with hmem | ⟨-, -, hempty⟩
    · rw [hone] at hmem
      exact hn (Finset.mem_singleton.mp hmem)
    · rw [hone] at hempty
      exact Finset.singleton_ne_empty s hempty
  · obtain rfl : t = i := Option.some.inj (ht0.symm.trans hi)
    exact hc.src_eq h hs ht
  · rw [ht0] at hnone
    cases hnone
  · exact (hc.held s' i hs').imp_right fun hd => ⟨Finset.mem_insert_of_mem hd.1, hd.2⟩
  · obtain ⟨hpos, hsrc, hids⟩ := hc.rest i hdone
    refine ⟨hpos, hsrc, ?_⟩
    have hout : s ∉ (m.cells i).seqId := fun hmem =>
      hi (Option.some.inj ((hc.mem i s hmem).symm.trans ht))
    rw [filter_insert_notMem, ← hids, Finset.erase_eq_of_notMem hout]

/-- Nobody has a free cell. -/
lemma Claimed.tail_ne_free (hc : Claimed m0 done m) {e : ℕ} (hfree : FreeCell m done e) (s' : ℤ) :
    m.tail s' ≠ some e := by
  intro hs'
  rcases hc.held s' e hs' with hmem | ⟨hd, -, -⟩
  · rw [hfree.1] at hmem
    cases hmem
  · exact hfree.2 s' hd hs'

/-- The memory after a sequence without a cell has claimed cell `e`. -/
lemma Claimed.takeFresh (hc : Claimed m0 done m) (hs : s ∉ done) (hin : m0.InSize s)
    (hnone : m.tail s = none) {e : ℕ} (he : e < m0.prm.size) (hfree : FreeCell m done e) :
    Claimed m0 (insert s done) { m with tail := Function.update m.tail s (some e) } := by
  have hnone0 : m0.tail s = none := hc.other s hs ▸ hnone
  have hne : ∀ s' ≠ s, Function.update m.tail s (some e) s' = m.tail s' :=
    fun _ h => update_of_ne h _ _
  have hout : ∀ i, s ∉ (m.cells i).seqId := fun i hmem => by
    have ht := hc.mem i s hmem
    rw [hnone] at ht
    cases ht
  refine hc.addDone hs hin he ?_ (update_self _ _ _) hne
    (fun s' _ => hc.tail_ne_free hfree s') (fun _ _ _ _ => rfl) (fun i hi => ?_) (fun _ => ?_)
    (fun i s' hmem => ?_) (fun s' i hs' => ?_) (fun i _ hdone => ?_) hc.full
  · conv_lhs => rw [hc.frame]
  · rw [hnone0] at hi
    cases hi
  · refine ⟨?_, (hc.rest e hfree.2).2.1⟩
    by_contra hfull
    exact hc.full e hfull hfree.1
  · have hn : s' ≠ s := by
      rintro rfl
      exact hout i hmem
    exact (hne s' hn).trans (hc.mem i s' hmem)
  · dsimp only at hs'
    by_cases hn : s' = s
    · subst hn
      rw [update_self] at hs'
      cases hs'
      exact .inr ⟨mem_insert_self _ _, hnone0, hfree.1⟩
    · rw [hne s' hn] at hs'
      exact (hc.held s' i hs').imp_right fun hd => ⟨mem_insert_of_mem hd.1, hd.2⟩
  · obtain ⟨hpos, hsrc, hids⟩ := hc.rest i hdone
    refine ⟨hpos, hsrc, ?_⟩
    rw [filter_insert_notMem, ← hids, erase_eq_of_notMem (hout i)]

/-- The memory after sequence `s` has been copied from cell `t`, which it shared, to `e`. -/
def copyCell (m : MemoryRecurrent) (s : ℤ) (t e : ℕ) : MemoryRecurrent :=
  { m with
    cells := Function.update
      (Function.update m.cells t { m.cells t with seqId := (m.cells t).seqId.erase s }) e
      { m.cells e with pos := (m.cells t).pos, src := (m.cells t).src, seqId := {s} }
    tail := Function.update m.tail s (some e) }

/-- A sequence that shared a cell is copied to cell `e`. -/
lemma Claimed.takeCopy (hc : Claimed m0 done m) (h : Inv m0) (hs : s ∉ done) (hin : m0.InSize s)
    (ht : m.tail s = some t) (hshared : (m.cells t).seqId.erase s ≠ ∅) {e : ℕ}
    (he : e < m0.prm.size) (hfree : FreeCell m done e) :
    Claimed m0 (insert s done) (m.copyCell s t e) := by
  have ht0 : m0.tail s = some t := hc.other s hs ▸ ht
  have hmem : s ∈ (m.cells t).seqId := hc.mem_cell hs ht
  have honly := hc.tail_ne_free hfree
  have het : e ≠ t := by
    rintro rfl
    exact honly s ht
  have hne : ∀ s' ≠ s, (m.copyCell s t e).tail s' = m.tail s' :=
    fun _ h => Function.update_of_ne h _ _
  have hself : (m.copyCell s t e).tail s = some e := Function.update_self _ _ _
  have hat : (m.copyCell s t e).cells e =
      { m.cells e with pos := (m.cells t).pos, src := (m.cells t).src, seqId := {s} } :=
    Function.update_self _ _ _
  have horig : (m.copyCell s t e).cells t = { m.cells t with seqId := (m.cells t).seqId.erase s } :=
    (Function.update_of_ne het.symm _ _).trans (Function.update_self _ _ _)
  have hcell : ∀ i, i ≠ e → i ≠ t → (m.copyCell s t e).cells i = m.cells i := fun i h1 h2 =>
    (Function.update_of_ne h1 _ _).trans (Function.update_of_ne h2 _ _)
  refine hc.addDone hs hin he ?_ hself hne (fun s' _ => honly s') (fun s' hd i hi => ?_)
    (fun i hi => ?_) (fun hnone => ?_) (fun i s' hs' => ?_) (fun s' i hs' => ?_)
    (fun i hie hdone => ?_) fun i hfull => ?_
  · unfold copyCell
    conv_lhs => rw [hc.frame]
  · have h1 : i ≠ e := by
      rintro rfl
      exact honly s' hi
    have h2 : i ≠ t := by
      rintro rfl
      exact hc.not_done hs ht s' hd hi
    rw [hcell i h1 h2]
  · obtain rfl : t = i := Option.some.inj (ht0.symm.trans hi)
    rw [hat]
    exact hc.src_eq h hs ht
  · rw [ht0] at hnone
    cases hnone
  · by_cases hie : i = e
    · rw [hie, hat] at hs'
      rw [Finset.mem_singleton.mp hs', hself, hie]
    · have hm : s' ∈ (m.cells i).seqId ∧ s' ≠ s := by
        by_cases hit : i = t
        · rw [hit, horig] at hs'
          rw [hit]
          exact (Finset.mem_erase.mp hs').symm
        · rw [hcell i hie hit] at hs'
          refine ⟨hs', ?_⟩
          rintro rfl
          exact hit (Option.some.inj ((hc.mem i _ hs').symm.trans ht))
      exact (hne s' hm.2).trans (hc.mem i s' hm.1)
  · by_cases hn : s' = s
    · rw [hn, hself] at hs'
      cases hs'
      rw [hn, hat]
      exact .inl (Finset.mem_singleton_self s)
    · rw [hne s' hn] at hs'
      have hie : i ≠ e := by
        rintro rfl
        exact honly s' hs'
      by_cases hit : i = t
      · subst hit
        rw [horig]
        rcases hc.held s' i hs' with hm | ⟨-, -, hempty⟩
        · exact .inl (Finset.mem_erase.mpr ⟨hn, hm⟩)
        · rw [hempty] at hmem
          cases hmem
      · rw [hcell i hie hit]
        exact (hc.held s' i hs').imp_right fun hd => ⟨Finset.mem_insert_of_mem hd.1, hd.2⟩
  · obtain ⟨hpos, hsrc, hids⟩ := hc.rest i hdone
    rw [filter_insert_notMem, ← hids]
    by_cases hit : i = t
    · subst hit
      rw [horig]
      exact ⟨hpos, hsrc, rfl⟩
    · rw [hcell i hie hit]
      refine ⟨hpos, hsrc, (Finset.erase_eq_of_notMem fun hm => ?_).symm⟩
      exact hit (Option.some.inj ((hc.mem i s hm).symm.trans ht))
  · by_cases hie : i = e
    · rw [hie, hat]
      exact Finset.singleton_ne_empty s
    · by_cases hit : i = t
      · rw [hit, horig]
        exact hshared
      · rw [hcell i hie hit]
        exact hc.full i hfull

/-- **A cell is left.**  There are no more cells in use than sequences that have one, and `s`
has none or shares one. -/
theorem Claimed.exists_free (hc : Claimed m0 done m) (h : Inv m0) (hs : s ∉ done)
    (hin : m0.InSize s) (hneeds : ∀ t, m.tail s = some t → (m.cells t).seqId.erase s ≠ ∅) :
    ∃ i < m0.prm.size, FreeCell m done i := by
  by_contra hnot
  have hin' : ∀ s', ∀ i, m.tail s' = some i → m0.InSize s' := by
    intro s' i hs'
    by_cases hd : s' ∈ done
    · exact hc.inSize s' hd
    · rw [hc.other s' hd] at hs'
      exact h.inSize i s' (h.mem hs')
  -- every cell has a sequence other than `s`
  have hother : ∀ i ∈ Finset.range m0.prm.size, ∃ s', s' ≠ s ∧ m.tail s' = some i := by
    intro i hi
    by_cases hempty : (m.cells i).seqId = ∅
    · by_contra hno
      refine hnot ⟨i, Finset.mem_range.mp hi, hempty, fun s1 hd ht1 => hno ⟨s1, ?_, ht1⟩⟩
      rintro rfl
      exact hs hd
    · obtain ⟨s1, hs1⟩ := Finset.nonempty_iff_ne_empty.mpr hempty
      by_cases h1 : s1 = s
      · subst h1
        have hti := hc.mem i s1 hs1
        obtain ⟨s2, hs2⟩ := Finset.nonempty_iff_ne_empty.mpr (hneeds i hti)
        exact ⟨s2, (Finset.mem_erase.mp hs2).1, hc.mem i s2 (Finset.mem_of_mem_erase hs2)⟩
      · exact ⟨s1, h1, hc.mem i s1 hs1⟩
  choose! f hf using hother
  have hmaps : ∀ i ∈ Finset.range m0.prm.size, f i ∈ (Finset.Ico (0 : ℤ) m0.prm.size).erase s := by
    intro i hi
    have hsize := hin' _ _ (hf i hi).2
    exact Finset.mem_erase.mpr ⟨(hf i hi).1, Finset.mem_Ico.mpr hsize⟩
  have hinj : Set.InjOn f (Finset.range m0.prm.size) := by
    intro i hi j hj heq
    have hti := (hf i hi).2
    rw [heq, (hf j hj).2] at hti
    exact (Option.some.inj hti).symm
  have hcard := Finset.card_le_card_of_injOn f hmaps hinj
  rw [Finset.card_range, Finset.card_erase_of_mem (Finset.mem_Ico.mpr hin), Int.card_Ico] at hcard
  have hpos := m0.prm.size_pos
  omega

/-! ## The loop that claims cells -/

/-- A sequence without a cell of its own takes a free cell. -/
lemma Claimed.takeCell_spec (hc : Claimed m0 done m) (h : Inv m0) (hs : s ∉ done)
    (hin : m0.InSize s) (hneeds : ∀ t, m.tail s = some t → (m.cells t).seqId.erase s ≠ ∅) {e : ℕ}
    (he : e < m0.prm.size) (hfree : FreeCell m done e) :
    ∃ m', m.takeCell s e = some m' ∧ Claimed m0 (insert s done) m' ∧
      m'.tail = Function.update m.tail s (some e) ∧
      ∀ i ≠ e, ((m'.cells i).seqId = ∅ ↔ (m.cells i).seqId = ∅) := by
  have htest : ¬ ¬ (e < m.prm.size ∧ (m.cells e).isEmpty = true) := by
    rw [not_not, hc.prm, MemCell.isEmpty, decide_eq_true_iff]
    exact ⟨he, hfree.1⟩
  unfold takeCell
  rw [if_neg htest]
  cases ht : m.tail s with
  | none =>
    exact ⟨_, rfl, hc.takeFresh hs hin ht he hfree, rfl, fun _ _ => Iff.rfl⟩
  | some t =>
    have hshared := hneeds t ht
    dsimp only
    rw [if_neg hshared]
    refine ⟨_, rfl, hc.takeCopy h hs hin ht hshared he hfree, rfl, fun i hie => ?_⟩
    dsimp only
    rw [update_of_ne hie]
    by_cases hit : i = t
    · subst hit
      rw [update_self]
      exact iff_of_false hshared (ne_empty_of_mem (hc.mem_cell hs ht))
    · rw [update_of_ne hit]

/-- Whether a sequence is alone in its cell. -/
lemma Claimed.ownsCell_eq (hc : Claimed m0 done m) (hs : s ∉ done) :
    m.ownsCell s = some (decide (∃ t, m.tail s = some t ∧ (m.cells t).seqId = {s})) := by
  unfold ownsCell
  cases ht : m.tail s with
  | none => simp
  | some t =>
    have hmem := hc.mem_cell hs ht
    dsimp only
    rw [if_pos hmem]
    simp only [Option.some.injEq, exists_eq_left', decide_eq_decide]
    rw [Finset.card_eq_one]
    constructor
    · rintro ⟨a, ha⟩
      rw [ha, Finset.mem_singleton] at hmem
      rw [ha, hmem]
    · exact fun hone => ⟨s, hone⟩

/-- The search for empty cells goes around from `start` and has come to distance `d`: the free
cells are not behind it, the empty cells ahead are free, and it stands on a free cell if there
is one. -/
structure Scan (size start : ℕ) (done : Finset ℤ) (c : Claim) (d : ℕ) : Prop where
  ahead : ∀ j < size, FreeCell c.mem done (Arrange.around size start j) → d ≤ j
  free : ∀ j < size, d ≤ j → (c.mem.cells (Arrange.around size start j)).seqId = ∅ →
    FreeCell c.mem done (Arrange.around size start j)
  next : ∀ i < size, FreeCell c.mem done i →
    d < size ∧ c.next = Arrange.around size start d ∧ FreeCell c.mem done c.next

variable {start : ℕ}

/-- A search from distance `d`, behind which nothing is free. -/
lemma scan_search {size d i : ℕ} (hsize : 0 < size) (hstart : start < size) {c : Claim}
    (hprm : c.mem.prm.size = size) (hi : i < 2 * size)
    (hmod : i % size = around size start d) (hnext : c.next = c.mem.nextEmpty i)
    (hahead : ∀ j < size, FreeCell c.mem done (around size start j) → d ≤ j)
    (hfree : ∀ j < size, d ≤ j → (c.mem.cells (around size start j)).seqId = ∅ →
      FreeCell c.mem done (around size start j)) : ∃ d', Scan size start done c d' := by
  by_cases hex : ∃ j < size, FreeCell c.mem done (around size start j)
  · obtain ⟨j, hj, hjfree⟩ := hex
    have hempty : ∀ x, (c.mem.cells x).isEmpty = true ↔ (c.mem.cells x).seqId = ∅ := fun x => by
      rw [MemCell.isEmpty, decide_eq_true_iff]
    have hdj := hahead j hj hjfree
    obtain ⟨d', hdd', -, hp, hmin, hs⟩ :=
      search_spec (p := fun x => (c.mem.cells x).isEmpty) (k := size) hsize hi hmod
        ⟨j, hdj, by omega, (hempty _).mpr hjfree.1⟩
    have hle : ∀ x < size, FreeCell c.mem done (around size start x) → d' ≤ x := by
      intro x hx hxfree
      by_contra hlt
      exact hmin x (hahead x hx hxfree) (by omega) ((hempty _).mpr hxfree.1)
    have hd' : d' < size := by
      have := hle j hj hjfree
      omega
    have heq : c.next = around size start d' := by
      rw [hnext, nextEmpty, hprm, hs]
    refine ⟨d', hle, fun x hx hdx => hfree x hx (by omega), fun _ _ _ => ⟨hd', heq, ?_⟩⟩
    rw [heq]
    exact hfree d' hd' hdd' ((hempty _).mp hp)
  · refine ⟨d, hahead, hfree, fun x hx hxfree => absurd ?_ hex⟩
    obtain ⟨j, hj, hjx⟩ := exists_around hstart hx
    exact ⟨j, hj, hjx.symm ▸ hxfree⟩

/-- After the free cell in front has been claimed, the search goes on behind it. -/
lemma Scan.advance {size d : ℕ} {c c' : Claim} (hscan : Scan size start done c d)
    (hsize : 0 < size) (hstart : start < size) (hd : d < size)
    (hat : c.next = around size start d) (hprm : c'.mem.prm.size = size)
    (htail : c'.mem.tail = Function.update c.mem.tail s (some c.next)) (hs : s ∉ done)
    (hids : ∀ i ≠ c.next, ((c'.mem.cells i).seqId = ∅ ↔ (c.mem.cells i).seqId = ∅))
    (hnext : c'.next = c'.mem.nextEmpty (c.next + 1)) :
    ∃ d', Scan size start (insert s done) c' d' := by
  have hfree : ∀ i, FreeCell c'.mem (insert s done) i ↔ FreeCell c.mem done i ∧ i ≠ c.next := by
    intro i
    have hdone : (∀ s' ∈ done, c'.mem.tail s' ≠ some i) ↔ ∀ s' ∈ done, c.mem.tail s' ≠ some i := by
      refine forall₂_congr fun s' hs' => ?_
      have hne : s' ≠ s := fun heq => hs (heq ▸ hs')
      rw [htail, update_of_ne hne]
    rw [FreeCell, forall_mem_insert, hdone, htail, update_self]
    constructor
    · rintro ⟨hempty, hnot, hun⟩
      have hie : i ≠ c.next := fun heq => hnot (heq ▸ rfl)
      exact ⟨⟨(hids i hie).mp hempty, hun⟩, hie⟩
    · rintro ⟨⟨hempty, hun⟩, hie⟩
      exact ⟨(hids i hie).mpr hempty, fun heq => hie (Option.some.inj heq).symm, hun⟩
  have hlt := around_lt hsize start d
  refine scan_search hsize hstart hprm (d := d + 1) (i := c.next + 1) (by omega) ?_ hnext ?_ ?_
  · rw [hat]
    simp only [around, Nat.mod_add_mod, Nat.add_assoc]
  · intro j hj hjfree
    obtain ⟨hf, hne⟩ := (hfree _).mp hjfree
    have hle := hscan.ahead j hj hf
    have hjd : j ≠ d := fun heq => hne (heq ▸ hat.symm)
    omega
  · intro j hj hdj hempty
    have hne : around size start j ≠ c.next := by
      rw [hat]
      intro heq
      have := around_injective hj hd heq
      omega
    exact (hfree _).mpr ⟨hscan.free j hj (by omega) ((hids _ hne).mp hempty), hne⟩

/-- The range goes from the first to the last cell of `done`. -/
structure Claim.Covers (c : Claim) (done : Finset ℤ) : Prop where
  max_lt : c.max < c.mem.prm.size
  range : ∀ s ∈ done, ∀ t, c.mem.tail s = some t → c.min ≤ t ∧ t ≤ c.max
  start : done = ∅ → c.min = c.mem.prm.size - 1 ∧ c.max = 0
  min_mem : done ≠ ∅ → ∃ s ∈ done, c.mem.tail s = some c.min
  max_mem : done ≠ ∅ → ∃ s ∈ done, c.mem.tail s = some c.max

/-- The range extended by the cell of another sequence. -/
lemma covers_extend {c : Claim} (hcov : c.Covers done) (hs : s ∉ done)
    (hm : m.prm = c.mem.prm) (ht : m.tail s = some t) (hlt : t < m.prm.size)
    (hother : ∀ s' ≠ s, m.tail s' = c.mem.tail s') (next : ℕ) :
    Claim.Covers ⟨m, next, min c.min t, max c.max t⟩ (insert s done) := by
  have hold : ∀ s' ∈ done, m.tail s' = c.mem.tail s' := fun s' hd =>
    hother s' fun heq => hs (heq ▸ hd)
  refine ⟨max_lt (hm ▸ hcov.max_lt) hlt, ?_, fun h => absurd h (insert_ne_empty s done),
    fun _ => ?_, fun _ => ?_⟩
  · refine forall_mem_insert _ _ _ |>.mpr ⟨fun t' ht' => ?_, fun s' hd t' ht' => ?_⟩
    · obtain rfl : t = t' := Option.some.inj (ht.symm.trans ht')
      exact ⟨min_le_right _ _, le_max_right _ _⟩
    · obtain ⟨h1, h2⟩ := hcov.range s' hd t' ((hold s' hd).symm.trans ht')
      exact ⟨(min_le_left _ _).trans h1, h2.trans (le_max_left _ _)⟩
  · rcases le_total t c.min with hle | hle
    · exact ⟨s, mem_insert_self s done, by rw [min_eq_right hle, ht]⟩
    · by_cases hd : done = ∅
      · have hmin := (hcov.start hd).1
        rw [← hm] at hmin
        have heq : c.min = t := by omega
        exact ⟨s, mem_insert_self s done, by rw [heq, min_self, ht]⟩
      · obtain ⟨s', hs', ht'⟩ := hcov.min_mem hd
        exact ⟨s', mem_insert_of_mem hs', by rw [min_eq_left hle, hold s' hs', ht']⟩
  · rcases le_total c.max t with hle | hle
    · exact ⟨s, mem_insert_self s done, by rw [max_eq_right hle, ht]⟩
    · by_cases hd : done = ∅
      · have hmax := (hcov.start hd).2
        have heq : c.max = t := by omega
        exact ⟨s, mem_insert_self s done, by rw [heq, max_self, ht]⟩
      · obtain ⟨s', hs', ht'⟩ := hcov.max_mem hd
        exact ⟨s', mem_insert_of_mem hs', by rw [max_eq_left hle, hold s' hs', ht']⟩

/-- **One round.**  The first sequence of a set has a cell of its own afterwards. -/
theorem Claimed.step_spec {c : Claim} {d : ℕ} (hc : Claimed m0 done c.mem) (h : Inv m0)
    (hscan : Scan m0.prm.size start done c d) (hcov : c.Covers done)
    (hstart : start < m0.prm.size) (hs : s ∉ done) (hin : m0.InSize s) (last : Bool) :
    ∃ c', c.step s last = some c' ∧ Claimed m0 (insert s done) c'.mem ∧
      (last = false → ∃ d', Scan m0.prm.size start (insert s done) c' d') ∧
      c'.Covers (insert s done) := by
  unfold Claim.step
  rw [hc.ownsCell_eq hs]
  by_cases hown : ∃ t, c.mem.tail s = some t ∧ (c.mem.cells t).seqId = {s}
  · simp only [hown, Option.bind_eq_bind]
    obtain ⟨t, ht, hone⟩ := hown
    have hkeep := hc.keep h hs hin ht hone
    simp only [ht, Option.bind_some]
    refine ⟨_, rfl, hkeep, fun _ => ⟨d, ?_⟩,
      covers_extend hcov hs rfl ht (hc.prm ▸ hc.lt s t ht) (fun _ _ => rfl) _⟩
    -- the cell that is kept is not empty
    have hfree : ∀ i, FreeCell c.mem (insert s done) i ↔ FreeCell c.mem done i := by
      intro i
      rw [FreeCell, forall_mem_insert]
      refine and_congr_right fun hempty => and_iff_right fun hti => ?_
      rw [ht] at hti
      cases hti
      rw [hone] at hempty
      exact singleton_ne_empty s hempty
    exact ⟨fun j hj hf => hscan.ahead j hj ((hfree _).mp hf),
      fun j hj hdj he => (hfree _).mpr (hscan.free j hj hdj he),
      fun i hi hf => (hscan.next i hi ((hfree _).mp hf)).imp_right fun hn =>
        ⟨hn.1, (hfree _).mpr hn.2⟩⟩
  · have hneeds : ∀ t, c.mem.tail s = some t → (c.mem.cells t).seqId.erase s ≠ ∅ := by
      intro t ht hone
      exact hown ⟨t, ht, (erase_eq_empty_iff (hc.mem_cell hs ht)).mp hone⟩
    obtain ⟨i, hi, hifree⟩ := hc.exists_free h hs hin hneeds
    obtain ⟨hd, hat, hnfree⟩ := hscan.next i hi hifree
    have hlt : c.next < m0.prm.size := hat ▸ around_lt m0.prm.size_pos start d
    obtain ⟨m', htake, hc', htail, hids⟩ := hc.takeCell_spec h hs hin hneeds hlt hnfree
    have ht' : m'.tail s = some c.next := by rw [htail, update_self]
    simp only [hown, decide_false, Bool.false_eq_true, if_false, htake, Option.bind_eq_bind,
      Option.bind_some, ht', Option.pure_def]
    refine ⟨_, rfl, hc', fun hlast => ?_, ?_⟩
    · refine hscan.advance m0.prm.size_pos hstart hd hat ?_ htail hs hids ?_
      · rw [hc'.prm]
      · rw [if_neg (by rw [hlast]; exact Bool.false_ne_true)]
    · refine covers_extend hcov hs (hc'.prm.trans hc.prm.symm) ht' (hc'.prm ▸ hlt) (fun s' hne => ?_) _
      rw [htail, update_of_ne hne]

/-- **The loop.**  All first sequences get cells of their own. -/
theorem claimAll_spec (h : Inv m0) (hstart : start < m0.prm.size) :
    ∀ {ss : List ℤ} {done : Finset ℤ} {c : Claim} {d : ℕ}, Claimed m0 done c.mem →
      Scan m0.prm.size start done c d → c.Covers done → ss.Nodup → (∀ s ∈ ss, s ∉ done) →
      (∀ s ∈ ss, m0.InSize s) →
      ∃ c', claimAll ss c = some c' ∧ Claimed m0 (done ∪ ss.toFinset) c'.mem ∧
        c'.Covers (done ∪ ss.toFinset) := by
  intro ss
  induction ss with
  | nil =>
    intro done c d hc _ hcov _ _ _
    exact ⟨c, rfl, by simpa using hc, by simpa using hcov⟩
  | cons s ss ih =>
    intro done c d hc hscan hcov hnd hnot hin
    rw [nodup_cons] at hnd
    obtain ⟨c1, hstep, hc1, hscan1, hcov1⟩ := hc.step_spec h hscan hcov hstart
      (hnot s mem_cons_self) (hin s mem_cons_self) ss.isEmpty
    have hunion : done ∪ (s :: ss).toFinset = insert s done ∪ ss.toFinset := by
      rw [toFinset_cons, union_insert, insert_union]
    rw [claimAll, hstep, hunion]
    cases hss : ss with
    | nil => exact ⟨c1, rfl, by simpa using hc1, by simpa using hcov1⟩
    | cons s' ss' =>
      obtain ⟨d1, hscan1⟩ := hscan1 (by rw [hss]; rfl)
      rw [← hss]
      refine ih hc1 hscan1 hcov1 hnd.2 (fun x hx => ?_) fun x hx => hin x (mem_cons_of_mem _ hx)
      rw [mem_insert, not_or]
      exact ⟨fun heq => hnd.1 (heq ▸ hx), hnot x (mem_cons_of_mem _ hx)⟩

end MemoryRecurrent
end Llama
