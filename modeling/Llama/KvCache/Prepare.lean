import Llama.KvCache.Restore
import Llama.KvCache.Runs
import Llama.KvCache.Sequential

/-!
# The dry run `prepare`

`prepare` fills the slots of all ubatches and then restores them in reverse order from
partial snapshots.  A snapshot covers the cells of its slot without their shifts, and it
gives the stream of block `s` the old head of stream `s`.  `Restores` collects what this
needs so that nothing is left changed; `prepare_restores_iff` shows that it is exactly what
is needed.
-/

namespace Llama.KvCache

open List BatchAllocr

/-- The rounds of the two loops nest. -/
lemma prepare_cons (kv : KvCache) (ub : UBatch) (ubs : List UBatch) : (kv.prepare (ub :: ubs)).1 =
      match kv.findSlot ub false with
      | none => kv
      | some si => restoreState (kv.saved si) ((kv.applyUbatch si ub).prepare ubs).1 := by
  simp only [prepare, prepareLoop]
  cases kv.findSlot ub false <;> rfl

/-! ## The condition -/

/-- One round is undone completely, when the cells `T` are restored by earlier rounds: no
other cell of the slot has a pending shift, no token lists a sequence twice, the purge
reaches no cell beyond the slot and `T`, and a stream used for the first time gets its own
head back. -/
structure StepRestores (kv : KvCache) (T : List (ℕ × ℕ)) (si : SlotInfo) (ub : UBatch) : Prop where
  shift : ∀ t j, si.Holds t j → (t, j) ∉ T → (kv.vCells t).shift j = 0
  ids : ∀ u ∈ si.tokens, (ub.seqs (tokenIdx si u)).Nodup
  purge : ∀ t, ∀ j < (kv.vCells t).size, kv.Purges si t j → (t, j) ∈ T ∨ si.Holds t j
  head : ∀ s < si.nStream, (∀ c ∈ T, c.1 ≠ si.strm.getD s 0) →
    kv.vHeads s = kv.vHeads (si.strm.getD s 0)

/-- Every round of the forward loop is undone completely. -/
def Restores : KvCache → List (ℕ × ℕ) → List UBatch → Prop
  | _, _, [] => True
  | kv, T, ub :: ubs => ∀ si, kv.findSlot ub false = some si → StepRestores kv T si ub ∧
        Restores (kv.applyUbatch si ub) (si.tokens.map (slotOf si) ++ T) ubs

/-- The ubatches `prepare` is called with: cut from accepted batches, `find_slot` passes its
assertions on them, and no position is negative. -/
structure Fits (p : KvParams) (ub : UBatch) : Prop where
  accepts : p.Accepts ub
  asserts : ∀ kv : KvCache, kv.prm = p → kv.FindSlotAsserts ub
  pos : ∀ i < ub.nTokens, 0 ≤ ub.pos i

/-- A state with consistent cells and heads in range. -/
structure Ready (kv : KvCache) : Prop where
  wf : kv.CellsWF
  head : ∀ t, kv.vHeads t ≤ (kv.vCells t).size

variable {si : SlotInfo}

lemma fits_slot {kv : KvCache} (h : kv.Ready) {ub : UBatch} (hub : Fits kv.prm ub)
    (hsi : kv.findSlot ub false = some si) : kv.SlotOk si ∧ TokensOk si ub kv si.tokens := by
  have hwell := hub.accepts.wellFormed
  obtain ⟨hok, -, -, hmul⟩ := findSlot_spec hwell (hub.asserts kv rfl) h.head hsi
  have hidx : ∀ t ∈ si.tokens, tokenIdx si t < ub.nTokens := fun t ht => hmul ▸ tokenIdx_lt ht
  refine ⟨hok, fun t ht => ⟨hok.idx_lt ht, hub.pos _ (hidx t ht), fun s hs => ?_⟩⟩
  have h1 := hwell.unq_range s (hwell.seqs_mem _ (hidx t ht) s hs)
  have h2 := kv.prm.batchSeqMax_le.2
  omega

lemma Placed.ready {kv kv' : KvCache} {ub : UBatch} (hp : Placed kv si ub kv') (h : kv.Ready) :
    kv'.Ready where
  wf := hp.wf
  head := fun t => by
    have h1 := hp.head_le t
    have h2 := h.head t
    rw [hp.size]
    omega

/-- What the maps count too much after all rounds. -/
def prepExcess : KvCache → List UBatch → ℕ → ℤ → ℤ → ℕ
  | _, [] => 0
  | kv, ub :: ubs =>
    match kv.findSlot ub false with
    | none => 0
    | some si => placedExcess si ub si.tokens + prepExcess (kv.applyUbatch si ub) ubs

/-- What `prepare` leaves in any case. -/
structure Prepared (kv : KvCache) (e : ℕ → ℤ → ℤ → ℕ) (kv' : KvCache) : Prop where
  prm : kv'.prm = kv.prm
  wf : kv'.CellsWF
  size : ∀ t, (kv'.vCells t).size = (kv.vCells t).size
  hasShift : ∀ t, (kv'.vCells t).hasShift = (kv.vCells t).hasShift
  excess : ∀ t s p, ((kv'.vCells t).seqPos s).count p + (kv.vCells t).cellCount s p =
    ((kv.vCells t).seqPos s).count p + (kv'.vCells t).cellCount s p + e t s p
  shift_zero : ∀ t j, (kv.vCells t).shift j = 0 → (kv'.vCells t).shift j = 0
  seq_subset : ∀ t j, (kv'.vCells t).seq j ⊆ (kv.vCells t).seq j

lemma Prepared.refl {kv : KvCache} (h : kv.CellsWF) : Prepared kv 0 kv :=
  ⟨rfl, h, fun _ => rfl, fun _ => rfl, fun _ _ _ => rfl, fun _ _ => id, fun _ _ => subset_rfl⟩

/-- One round around what the inner rounds leave. -/
lemma Placed.restore {kv kv1 kv2 : KvCache} {ub : UBatch} {e : ℕ → ℤ → ℤ → ℕ}
    (hok : kv.SlotOk si) (hwf : kv.CellsWF) (hp : Placed kv si ub kv1) (hr : Prepared kv1 e kv2) :
    let kv3 := restoreState (kv.saved si) kv2
    Prepared kv (placedExcess si ub si.tokens + e) kv3 ∧
      (∀ t j, si.Holds t j → (kv3.vCells t).cell j = ((kv.vCells t).cell j).unshifted) ∧
      (∀ t j, ¬ si.Holds t j → (kv3.vCells t).cell j = (kv2.vCells t).cell j) ∧
      (∀ s < si.nStream, kv3.vHeads (si.strm.getD s 0) = kv.vHeads s) ∧
      ∀ t, (∀ s < si.nStream, si.strm.getD s 0 ≠ t) → kv3.vHeads t = kv2.vHeads t := by
  intro kv3
  have hsize : ∀ t, (kv2.vCells t).size = (kv.vCells t).size := fun t =>
    (hr.size t).trans (hp.size t)
  obtain ⟨h1, h2, h3, h4, h5⟩ := restoreState_spec hok hwf hr.wf hsize fun t j hj =>
    hr.shift_zero t j (hp.shift_holds t j hj)
  have hcell : ∀ t j, (kv3.vCells t).cell j =
      if si.Holds t j then ((kv.vCells t).cell j).unshifted else (kv2.vCells t).cell j :=
    fun t j => (h2 t).cell_eq j
  have hin : ∀ t j, si.Holds t j →
      (kv3.vCells t).cell j = ((kv.vCells t).cell j).unshifted := fun t j hj => by
    rw [hcell, if_pos hj]
  have hout : ∀ t j, ¬ si.Holds t j → (kv3.vCells t).cell j = (kv2.vCells t).cell j :=
    fun t j hj => by rw [hcell, if_neg hj]
  refine ⟨⟨h1.trans (hr.prm.trans hp.prm), fun t => (h2 t).wf,
    fun t => (h2 t).size_eq.trans (hsize t),
    fun t => (h3 t).trans ((hr.hasShift t).trans (hp.hasShift t)), ?_, ?_, ?_⟩, hin, hout, h4, h5⟩
  · intro t s p
    have e1 : ((kv3.vCells t).seqPos s).count p + (kv2.vCells t).cellCount s p =
        ((kv2.vCells t).seqPos s).count p + (kv3.vCells t).cellCount s p + 0 := (h2 t).excess s p
    have e2 := hr.excess t s p
    have e3 := hp.excess t s p
    simp only [Pi.add_apply]
    omega
  · intro t j h0
    by_cases hj : si.Holds t j
    · exact congrArg Cell.shift (hin t j hj)
    · exact (congrArg Cell.shift (hout t j hj)).trans (hr.shift_zero t j (hp.shift_zero t j h0))
  · intro t j
    by_cases hj : si.Holds t j
    · have hseq : (kv3.vCells t).seq j = (kv.vCells t).seq j := congrArg Cell.seq (hin t j hj)
      exact hseq.subset
    · have hseq : (kv3.vCells t).seq j = (kv2.vCells t).seq j := congrArg Cell.seq (hout t j hj)
      rw [hseq]
      exact (hr.seq_subset t j).trans (hp.seq_subset t j hj)

/-- **What `prepare` leaves in any case**: consistent cells of the same size, no new
sequences, and no new shifts. -/
theorem prepare_spec : ∀ (ubs : List UBatch) {kv : KvCache}, kv.Ready →
    (∀ ub ∈ ubs, Fits kv.prm ub) → Prepared kv (kv.prepExcess ubs) (kv.prepare ubs).1 := by
  intro ubs
  induction ubs with
  | nil => intro kv h _; exact Prepared.refl h.wf
  | cons ub ubs ih =>
    intro kv h hubs
    rw [prepare_cons, prepExcess]
    cases hsi : kv.findSlot ub false with
    | none => exact Prepared.refl h.wf
    | some si =>
      obtain ⟨hok, htoks⟩ := fits_slot h (hubs ub mem_cons_self) hsi
      have hp := applyUbatch_placed h.wf hok htoks
      have hr := ih (hp.ready h) fun ub' hub' =>
        hp.prm ▸ hubs ub' (mem_cons_of_mem _ hub')
      exact (hp.restore hok h.wf hr).1

/-! ## When everything is restored -/

/-- Outside the cells `T`, and the heads of their streams, nothing changed. -/
structure AgreeOff (T : List (ℕ × ℕ)) (kv kv' : KvCache) : Prop where
  cell : ∀ t j, (t, j) ∉ T → (kv'.vCells t).cell j = (kv.vCells t).cell j
  head : ∀ t, (∀ c ∈ T, c.1 ≠ t) → kv'.vHeads t = kv.vHeads t

lemma mem_touched {T : List (ℕ × ℕ)} {t j : ℕ} :
    (t, j) ∈ si.tokens.map (slotOf si) ++ T ↔ si.Holds t j ∨ (t, j) ∈ T := by
  simp only [mem_append, mem_map]
  rfl

/-- The streams of the touched cells are those of the slot and those of `T`. -/
lemma off_touched {kv : KvCache} (hok : kv.SlotOk si) {T : List (ℕ × ℕ)} {t : ℕ} :
    (∀ c ∈ si.tokens.map (slotOf si) ++ T, c.1 ≠ t) ↔
      (∀ s < si.nStream, si.strm.getD s 0 ≠ t) ∧ ∀ c ∈ T, c.1 ≠ t := by
  simp only [mem_append, mem_map]
  constructor
  · intro h
    refine ⟨fun s hs => ?_, fun c hc => h c (.inr hc)⟩
    exact h _ (.inl ⟨(s, 0), mem_tokens.mpr ⟨hs, hok.size_pos⟩, rfl⟩)
  · rintro ⟨h1, h2⟩ c (⟨u, hu, rfl⟩ | hc)
    · exact h1 u.1 (mem_tokens.mp hu).1
    · exact h2 c hc

/-- The excess of a slot is zero iff its tokens list no sequence twice. -/
lemma placedExcess_eq_zero_iff {ub : UBatch} :
    placedExcess si ub si.tokens = 0 ↔ ∀ u ∈ si.tokens, (ub.seqs (tokenIdx si u)).Nodup := by
  constructor
  · intro h u hu
    have hone : tokenExcess ub (tokenIdx si u) = 0 := by
      have hall : ∀ (ts : List (ℕ × ℕ)), (∀ strm, placedExcess si ub ts strm = 0) → ∀ u ∈ ts,
          tokenExcess ub (tokenIdx si u) = 0 := by
        intro ts
        induction ts with
        | nil => intro _ u hu; simp at hu
        | cons t ts ih =>
          intro hz u hu
          have hsplit := fun strm => add_eq_zero_pi (hz strm)
          rcases mem_cons.mp hu with rfl | hu
          · simpa using (hsplit (slotOf si u).1).1
          · exact ih (fun strm => (hsplit strm).2) u hu
      exact hall si.tokens (fun strm => congrFun h strm) u hu
    refine nodup_iff_count_le_one.mpr fun s => ?_
    have := congrFun (congrFun hone s) (ub.pos (tokenIdx si u))
    simp only [tokenExcess, if_true, Pi.zero_apply] at this
    omega
  · intro h
    exact funext fun strm => placedExcess_eq_zero h strm

/-- **The rounds restore everything outside `T` iff each of them is undone completely.** -/
theorem agree_iff : ∀ (ubs : List UBatch) {kv : KvCache} (T : List (ℕ × ℕ)), kv.Ready →
    (∀ ub ∈ ubs, Fits kv.prm ub) →
    ((AgreeOff T kv (kv.prepare ubs).1 ∧ kv.prepExcess ubs = 0) ↔ Restores kv T ubs) := by
  intro ubs
  induction ubs with
  | nil =>
    intro kv T _ _
    exact ⟨fun _ => trivial, fun _ => ⟨⟨fun _ _ _ => rfl, fun _ _ => rfl⟩, rfl⟩⟩
  | cons ub ubs ih =>
    intro kv T h hubs
    rw [prepare_cons, prepExcess]
    simp only [Restores]
    cases hsi : kv.findSlot ub false with
    | none =>
      exact ⟨fun _ si h0 => absurd h0 (by simp), fun _ => ⟨⟨fun _ _ _ => rfl, fun _ _ => rfl⟩, rfl⟩⟩
    | some si =>
      obtain ⟨hok, htoks⟩ := fits_slot h (hubs ub mem_cons_self) hsi
      have hp := applyUbatch_placed h.wf hok htoks
      have hubs1 : ∀ ub' ∈ ubs, Fits (kv.applyUbatch si ub).prm ub' := fun ub' hub' =>
        hp.prm ▸ hubs ub' (mem_cons_of_mem _ hub')
      have hr := prepare_spec ubs (hp.ready h) hubs1
      have ih := ih (si.tokens.map (slotOf si) ++ T) (hp.ready h) hubs1
      set kv1 := kv.applyUbatch si ub with hkv1
      set kv2 := (kv1.prepare ubs).1 with hkv2
      obtain ⟨-, hin, hout, hhin, hhout⟩ := hp.restore hok h.wf hr
      have hsum : placedExcess si ub si.tokens + kv1.prepExcess ubs = 0 ↔
          placedExcess si ub si.tokens = 0 ∧ kv1.prepExcess ubs = 0 := by
        constructor
        · intro hz
          have hall := fun t => add_eq_zero_pi (congrFun hz t)
          exact ⟨funext fun t => (hall t).1, funext fun t => (hall t).2⟩
        · rintro ⟨h1, h2⟩
          rw [h1, h2]
          rfl
      simp only [Option.some.injEq, forall_eq']
      constructor
      · rintro ⟨hag, hzero⟩
        obtain ⟨hids, hexc⟩ := hsum.mp hzero
        have hids := placedExcess_eq_zero_iff.mp hids
        -- a cell outside `T` and the slot lost nothing in this round
        have hpurge : ∀ t, ∀ j < (kv.vCells t).size, ¬ si.Holds t j → (t, j) ∉ T →
            ¬ kv.Purges si t j := by
          intro t j hj hno hT hpu
          refine hp.seq_ne t j hj hno hpu (Finset.Subset.antisymm (hp.seq_subset t j hno) ?_)
          have heq : (kv2.vCells t).seq j = (kv.vCells t).seq j :=
            congrArg Cell.seq ((hout t j hno).symm.trans (hag.cell t j hT))
          exact heq ▸ hr.seq_subset t j
        have hstep : StepRestores kv T si ub := by
          refine ⟨fun t j hj hT => ?_, hids, fun t j hj hpu => ?_, fun s hs hT => ?_⟩
          · have hc := (hag.cell t j hT).symm.trans (hin t j hj)
            exact (congrArg Cell.shift hc :)
          · by_contra hno
            rw [not_or] at hno
            exact hpurge t j hj hno.2 hno.1 hpu
          · exact (hhin s hs).symm.trans (hag.head _ hT)
        refine ⟨hstep, ih.mp ⟨⟨fun t j hT => ?_, fun t hT => ?_⟩, hexc⟩⟩
        · rw [mem_touched, not_or] at hT
          rw [hp.cell_eq t j hT.1 fun hj => hpurge t j hj hT.1 hT.2, ← hout t j hT.1]
          exact hag.cell t j hT.2
        · obtain ⟨hS, hT⟩ := (off_touched hok).mp hT
          rw [← hhout t hS, hag.head t hT]
          refine (hp.head_eq t hS fun j hj hpu => ?_).symm
          rcases hstep.purge t j hj hpu with hmem | ⟨u, hu, heq⟩
          · exact hT _ hmem rfl
          · exact hS u.1 (mem_tokens.mp hu).1 (congrArg Prod.fst heq)
      · rintro ⟨hstep, hrest⟩
        obtain ⟨hag, hexc⟩ := ih.mpr hrest
        refine ⟨⟨fun t j hT => ?_, fun t hT => ?_⟩,
          hsum.mpr ⟨placedExcess_eq_zero_iff.mpr hstep.ids, hexc⟩⟩
        · by_cases hH : si.Holds t j
          · rw [hin t j hH]
            exact Cell.unshifted_eq.mpr (hstep.shift t j hH hT)
          · rw [hout t j hH, hag.cell t j fun hmem => (mem_touched.mp hmem).elim hH hT]
            refine hp.cell_eq t j hH fun hj hpu => ?_
            exact (hstep.purge t j hj hpu).elim hT hH
        · by_cases hS : ∃ s < si.nStream, si.strm.getD s 0 = t
          · obtain ⟨s, hs, rfl⟩ := hS
            exact (hhin s hs).trans (hstep.head s hs hT)
          · have hS : ∀ s < si.nStream, si.strm.getD s 0 ≠ t := fun s hs heq => hS ⟨s, hs, heq⟩
            rw [hhout t hS, hag.head t ((off_touched hok).mpr ⟨hS, hT⟩)]
            refine hp.head_eq t hS fun j hj hpu => ?_
            rcases hstep.purge t j hj hpu with hmem | ⟨u, hu, heq⟩
            · exact hT _ hmem rfl
            · exact hS u.1 (mem_tokens.mp hu).1 (congrArg Prod.fst heq)

lemma fits_oneUbatch : Fits twoCells oneUbatch := by
  refine ⟨accepts_oneUbatch, fun kv hprm hn => ?_, by decide +kernel⟩
  rw [hprm] at hn
  exact absurd hn (by decide)

lemma ready_new (p : KvParams) : (new p).Ready :=
  ⟨(inv_new p).cellsWF, (inv_new p).head⟩

/-- One token at position 0 of the given sequence. -/
def tokenOf (s : ℤ) : LlamaBatch :=
  { BatchAllocr.oneToken with nSeqId := some fun _ => 1, seqId := some fun _ _ => s }

/-- The ubatch of that token, for two streams. -/
def ubatchOf (s : ℤ) : UBatch :=
  ((BatchAllocr.ofFull 1 (BatchAllocr.fill (tokenOf s) none 2 false) 0 2).ubatchAdd [0] 1 true).1

lemma accepts_ubatchOf {s : ℤ} (h : (BatchAllocr.init 1 (tokenOf s) 10 none 0 2 false).isSome) :
    twoStreams.Accepts (ubatchOf s) := by
  obtain ⟨a, ha⟩ := Option.isSome_iff_exists.mp h
  refine ⟨tokenOf s, 10, none, 0, false, a, ha, [0], 1, true, by simp, ?_, ?_⟩
  · rw [init_eq ha]
    simp [ofFull, splitReset, BatchAllocr.fill, tokenOf,
      oneToken]
  · rw [init_eq ha]
    rfl

end Llama.KvCache
