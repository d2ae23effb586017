import Llama.KvCache.Prepare
import Llama.KvCache.Window

/-!
# Filling the slots of the dry run

`prepare` finds the slots of all ubatches on a cache that it fills on the way, and then sets
the cells back.  `apply_ubatch` later fills these slots one after the other, on what the dry
run left, which need not be the cache it started from: a purge may have reached cells beyond
the slots.  The cells of a slot are the same both times, so that the slots still fit.
-/

namespace Llama.KvCache

open List

/-- Every slot fits when those before it are filled. -/
def TakesAll : KvCache → List (SlotInfo × UBatch) → Prop
  | _, [] => True
  | kv, (si, ub) :: rest => kv.Takes si ub ∧ TakesAll (kv.applyUbatch si ub) rest

/-- The slots are filled one after the other. -/
def applyAll (kv : KvCache) (l : List (SlotInfo × UBatch)) : KvCache :=
  l.foldl (fun kv x => kv.applyUbatch x.1 x.2) kv

lemma TakesAll.takes {l : List (SlotInfo × UBatch)} : ∀ {kv : KvCache} {k : ℕ} {si : SlotInfo}
    {ub : UBatch}, kv.TakesAll l → l[k]? = some (si, ub) → (kv.applyAll (l.take k)).Takes si ub := by
  induction l with
  | nil => intro kv k si ub _ hk; simp at hk
  | cons x l ih =>
    intro kv k si ub h hk
    cases k with
    | zero =>
      obtain ⟨rfl, rfl⟩ := hk
      exact h.1
    | succ k => exact ih h.2 (by simpa using hk)

variable {j t : ℕ} {kv kv' : KvCache} {si : SlotInfo} {ub : UBatch} {ubs : List UBatch}

/-- An overwritten position of a sequence is not above all present ones. -/
lemma Takes.present_of_overwrites (h : kv.Takes si ub) {s p : ℤ} (hover : kv.Overwrites si s p) :
    ∃ q, p ≤ q ∧ kv.Present s q := by
  obtain ⟨u, hu, hne, hget, hle⟩ := hover
  have hlt := (h.fill.toks u hu).1
  have hone : (kv.vCells (slotOf si u).1).seqCount (slotOf si u).2 = 1 :=
    h.single _ _ ⟨u, hu, rfl⟩ hne
  obtain ⟨v, hv⟩ := Finset.card_eq_one.mp hone
  have hmem : v ∈ (kv.vCells (slotOf si u).1).seq (slotOf si u).2 := by
    rw [hv]
    exact Finset.mem_singleton_self v
  have hvs : v = s := by
    rw [← hget]
    exact (seqGet_eq hone hmem (((h.wf _).valid _ hlt).seq_range v hmem)).symm
  subst hvs
  have hcells : kv.cellsOf v = kv.vCells (slotOf si u).1 := by
    rw [cellsOf, h.home _ _ hlt v hmem]
  refine ⟨_, hle, (slotOf si u).2, ?_⟩
  rw [hcells]
  exact ⟨hlt, hmem, rfl⟩

/-- The cell has the same position and the same sequences. -/
def SameCell (kv kv' : KvCache) (t j : ℕ) : Prop :=
  (kv'.vCells t).pos j = (kv.vCells t).pos j ∧ (kv'.vCells t).seq j = (kv.vCells t).seq j

lemma SameCell.trans {kv'' : KvCache} (h : kv.SameCell kv' t j) (h' : kv'.SameCell kv'' t j) :
    kv.SameCell kv'' t j := ⟨h'.1.trans h.1, h'.2.trans h.2⟩

lemma sameCell_of_cell (h : (kv'.vCells t).cell j = (kv.vCells t).cell j) : kv.SameCell kv' t j :=
  ⟨congrArg Cell.pos h, congrArg Cell.seq h⟩

/-- One round of the dry run: the cells of the slot are as before, the others as the inner
rounds leave them. -/
lemma prepare_round (h : kv.Ready) (hub : Fits kv.prm ub) (hubs : ∀ ub' ∈ ubs, Fits kv.prm ub')
    (hsi : kv.findSlot ub false = some si) :
    (∀ t j, si.Holds t j → kv.SameCell (kv.prepare (ub :: ubs)).1 t j) ∧ ∀ t j, ¬ si.Holds t j →
        ((kv.applyUbatch si ub).prepare ubs).1.SameCell (kv.prepare (ub :: ubs)).1 t j := by
  obtain ⟨hok, htoks⟩ := fits_slot h hub hsi
  have hp := applyUbatch_placed h.wf hok htoks
  have hr := prepare_spec ubs (hp.ready h) fun ub' hub' => hp.prm ▸ hubs ub' hub'
  obtain ⟨-, hin, hout, -, -⟩ := hp.restore hok h.wf hr
  have hval : (kv.prepare (ub :: ubs)).1 =
      restoreState (kv.saved si) ((kv.applyUbatch si ub).prepare ubs).1 := by
    rw [prepare_cons, hsi]
  rw [hval]
  refine ⟨fun t j hj => ?_, fun t j hj => sameCell_of_cell (hout t j hj)⟩
  have hcell := hin t j hj
  exact ⟨(congrArg Cell.pos hcell :), (congrArg Cell.seq hcell :)⟩

/-- A sequence that the dry run leaves in a cell is at its old position there. -/
lemma prepare_pos : ∀ (ubs : List UBatch) {kv : KvCache}, kv.Ready →
    (∀ ub ∈ ubs, Fits kv.prm ub) → ∀ t, ∀ j < (kv.vCells t).size,
      ∀ s ∈ ((kv.prepare ubs).1.vCells t).seq j,
        ((kv.prepare ubs).1.vCells t).pos j = (kv.vCells t).pos j := by
  intro ubs
  induction ubs with
  | nil => exact fun _ _ _ _ _ _ _ => rfl
  | cons ub ubs ih =>
    intro kv h hubs t j hj s hs
    cases hsi : kv.findSlot ub false with
    | none =>
      rw [prepare_cons, hsi]
    | some si =>
      have hub := hubs ub mem_cons_self
      have hubs' : ∀ ub' ∈ ubs, Fits kv.prm ub' := fun ub' h' => hubs ub' (mem_cons_of_mem _ h')
      obtain ⟨hin, hout⟩ := prepare_round h hub hubs' hsi
      by_cases hH : si.Holds t j
      · exact (hin t j hH).1
      · obtain ⟨hok, htoks⟩ := fits_slot h hub hsi
        have hp := applyUbatch_placed h.wf hok htoks
        have hubs1 : ∀ ub' ∈ ubs, Fits (kv.applyUbatch si ub).prm ub' := fun ub' h' =>
          hp.prm ▸ hubs' ub' h'
        have hr := prepare_spec ubs (hp.ready h) hubs1
        rw [(hout t j hH).2] at hs
        have hj1 : j < ((kv.applyUbatch si ub).vCells t).size := (hp.size t).symm ▸ hj
        rw [(hout t j hH).1, ih (hp.ready h) hubs1 t j hj1 s hs]
        have hmem := (mem_applyUbatch h.wf ⟨htoks, hok.nodup, hok.last_le⟩ hj).mp
          ⟨hr.seq_subset t j hs, rfl⟩
        have hval : placed si ub si.tokens t j ((kv.vCells t).cell j) = (kv.vCells t).cell j :=
          placed_of_notMem _ fun u hu heq => hH ⟨u, hu, heq⟩
        rw [hval] at hmem
        exact hmem.2.1.symm

/-! ## The second run -/

/-- The second run has reached a state that shows, in the cells `T` of the slots filled so
far, what the dry run had there, and in the others what it left. -/
structure Follows (kv : KvCache) (T : List (ℕ × ℕ)) (ubs : List UBatch) (kv' : KvCache) : Prop where
  prm : kv'.prm = kv.prm
  wf : kv'.CellsWF
  size : ∀ t, (kv'.vCells t).size = (kv.vCells t).size
  touched : ∀ t j, (t, j) ∈ T → kv.SameCell kv' t j
  rest : ∀ t j, (t, j) ∉ T → (kv.prepare ubs).1.SameCell kv' t j

lemma follows_prepare (h : kv.Ready) (hubs : ∀ ub ∈ ubs, Fits kv.prm ub) :
    kv.Follows [] ubs (kv.prepare ubs).1 := by
  have hr := prepare_spec ubs h hubs
  exact ⟨hr.prm, hr.wf, hr.size, fun t j hmem => absurd hmem not_mem_nil, fun t j _ => ⟨rfl, rfl⟩⟩

/-- The overwritten positions are read off the cells of the slot. -/
lemma overwrites_congr (h : ∀ t j, si.Holds t j → kv.SameCell kv' t j) {s p : ℤ} :
    kv'.Overwrites si s p ↔ kv.Overwrites si s p := by
  refine exists_congr fun u => and_congr_right fun hu => ?_
  obtain ⟨hpos, hseq⟩ := h (slotOf si u).1 (slotOf si u).2 ⟨u, hu, rfl⟩
  have hget : (kv'.vCells (slotOf si u).1).seqGet (slotOf si u).2 =
      (kv.vCells (slotOf si u).1).seqGet (slotOf si u).2 := by
    simp only [KvCells.seqGet, hseq]
  rw [hpos, hget]

/-- The result of cutting a cell down depends on its position and its sequences only. -/
lemma restrict_congr {x y : Cell} (hpos : y.pos = x.pos) (hseq : y.seq = x.seq)
    (keep : Finset ℤ) : (y.restrict keep).pos = (x.restrict keep).pos := by
  unfold Cell.restrict
  rw [hseq]
  split
  · exact hpos
  · split
    · rfl
    · exact hpos

/-- A cell before the purge: a token, or what was there. -/
lemma placed_congr (ub : UBatch) (hnd : (si.tokens.map (slotOf si)).Nodup)
    (h : ¬ si.Holds t j → kv.SameCell kv' t j) :
    (placed si ub si.tokens t j ((kv'.vCells t).cell j)).pos =
        (placed si ub si.tokens t j ((kv.vCells t).cell j)).pos ∧
      (placed si ub si.tokens t j ((kv'.vCells t).cell j)).seq =
        (placed si ub si.tokens t j ((kv.vCells t).cell j)).seq := by
  by_cases hH : si.Holds t j
  · obtain ⟨u, hu, heq⟩ := hH
    have hval := fun x => placed_of_mem ub x hnd hu
    rw [heq] at hval
    simp only [hval]
    exact ⟨rfl, rfl⟩
  · have hval : ∀ x, placed si ub si.tokens t j x = x :=
      fun x => placed_of_notMem x fun u hu heq => hH ⟨u, hu, heq⟩
    rw [hval, hval]
    exact h hH

/-- A sequence of a cell before the purge is at a proper position. -/
lemma Fillable.pos_nonneg (hwf : kv.CellsWF) (h : kv.Fillable si ub)
    (hj : j < (kv.vCells t).size) {s : ℤ}
    (hs : s ∈ (placed si ub si.tokens t j ((kv.vCells t).cell j)).seq) :
    0 ≤ (placed si ub si.tokens t j ((kv.vCells t).cell j)).pos := by
  rcases placed_cases ub h.nodup t j ((kv.vCells t).cell j) with ⟨u, hu, -, hval⟩ | ⟨-, hval⟩
  · rw [hval]
    exact (h.toks u hu).2.1
  · rw [hval] at hs ⊢
    exact (hwf t).pos_nonneg hj hs

/-- **Filling the same slot** of two caches that agree on its cells gives the same cell
wherever they agree. -/
theorem sameCell_applyUbatch (hwf : kv.CellsWF) (hwf' : kv'.CellsWF) (hprm : kv'.prm = kv.prm)
    (hsize : ∀ t, (kv'.vCells t).size = (kv.vCells t).size) (h : kv.Fillable si ub)
    (h' : kv'.Fillable si ub) (hslot : ∀ t j, si.Holds t j → kv.SameCell kv' t j)
    (hcell : ¬ si.Holds t j → kv.SameCell kv' t j) :
    (kv.applyUbatch si ub).SameCell (kv'.applyUbatch si ub) t j := by
  have hc := ((applyUbatch_spec hwf h.toks h.nodup h.last_le).sweep t).cell_eq j
  have hc' := ((applyUbatch_spec hwf' h'.toks h'.nodup h'.last_le).sweep t).cell_eq j
  obtain ⟨hpos, hseq⟩ := placed_congr ub h.nodup hcell
  simp only [hsize, hprm] at hc'
  by_cases hj : j < (kv.vCells t).size
  · simp only [if_pos hj] at hc hc'
    set x := placed si ub si.tokens t j ((kv.vCells t).cell j) with hx
    set y := placed si ub si.tokens t j ((kv'.vCells t).cell j) with hy
    have hkeep : keptSeqs kv.prm (kv'.maxRmOf si ub) seqIds t y =
        keptSeqs kv.prm (kv.maxRmOf si ub) seqIds t x := by
      unfold keptSeqs
      rw [hseq]
      refine Finset.filter_congr fun s hs => not_congr ?_
      have h0 : 0 ≤ x.pos := h.pos_nonneg hwf hj hs
      rw [hpos, le_maxRmOf_iff hwf h.toks h.nodup h0, le_maxRmOf_iff hwf' h'.toks h'.nodup h0,
        overwrites_congr hslot]
    rw [hkeep] at hc'
    constructor
    · have e := congrArg Cell.pos hc
      have e' := congrArg Cell.pos hc'
      exact e'.trans ((restrict_congr hpos hseq _).trans e.symm)
    · have e := congrArg Cell.seq hc
      have e' := congrArg Cell.seq hc'
      rw [Cell.restrict_seq] at e e'
      exact e'.trans e.symm
  · simp only [if_neg hj] at hc hc'
    exact ⟨(congrArg Cell.pos hc').trans (hpos.trans (congrArg Cell.pos hc).symm),
      (congrArg Cell.seq hc').trans (hseq.trans (congrArg Cell.seq hc).symm)⟩

/-- A cell outside the slot stays as it is when none of its sequences is purged. -/
lemma sameCell_of_not_purges (hwf : kv.CellsWF) (h : kv.Fillable si ub) (hH : ¬ si.Holds t j)
    (hno : j < (kv.vCells t).size → ¬ kv.Purges si t j) :
    kv.SameCell (kv.applyUbatch si ub) t j := by
  have hc := ((applyUbatch_spec hwf h.toks h.nodup h.last_le).sweep t).cell_eq j
  have hval : placed si ub si.tokens t j ((kv.vCells t).cell j) = (kv.vCells t).cell j :=
    placed_of_notMem _ fun u hu heq => hH ⟨u, hu, heq⟩
  simp only [hval] at hc
  by_cases hj : j < (kv.vCells t).size
  · have hkeep : keptSeqs kv.prm (kv.maxRmOf si ub) seqIds t ((kv.vCells t).cell j) =
        ((kv.vCells t).cell j).seq := by
      refine Finset.filter_eq_self.mpr fun s hs => ?_
      rintro ⟨-, hst, hle⟩
      exact hno hj ⟨s, hs, hst,
        (le_maxRmOf_iff hwf h.toks h.nodup ((hwf t).pos_nonneg hj hs)).mp hle⟩
    rw [if_pos hj, hkeep, Cell.restrict_self] at hc
    exact sameCell_of_cell hc
  · rw [if_neg hj] at hc
    exact sameCell_of_cell hc

/-! ## The slots fit again -/

/-- What the dry run needs of its ubatches. -/
structure Dry (kv : KvCache) (ubs : List UBatch) : Prop where
  ready : kv.Ready
  home : kv.Homed
  fits : ∀ ub ∈ ubs, Fits kv.prm ub
  homed : ∀ ub ∈ ubs, ∀ kv1 : KvCache, kv1.prm = kv.prm → kv1.HomedUbatch ub

lemma Dry.fitting (h : kv.Dry (ub :: ubs)) (hsi : kv.findSlot ub false = some si) :
    kv.Fitting si ub := by
  have hub := h.fits ub mem_cons_self
  obtain ⟨hok, htoks⟩ := fits_slot h.ready hub hsi
  obtain ⟨-, hstrm, hsize, hmul⟩ :=
    findSlot_spec hub.accepts.wellFormed (hub.asserts kv rfl) h.ready.head hsi
  refine ⟨hok, htoks, hmul, fun u hu s hs => ?_⟩
  have hdiv : tokenIdx si u / si.size = u.1 := congrArg Prod.fst (hok.tokenIdx_div_mod hu)
  rw [h.homed ub mem_cons_self kv rfl _ (hmul ▸ tokenIdx_lt hu) s hs, ← hsize, hdiv, ← hstrm]
  rfl

lemma Dry.tail {kv : KvCache} {ub : UBatch} {ubs : List UBatch} (h : kv.Dry (ub :: ubs))
    {si : SlotInfo} (hsi : kv.findSlot ub false = some si) : (kv.applyUbatch si ub).Dry ubs := by
  have hfit := h.fitting hsi
  have hp := applyUbatch_placed h.ready.wf hfit.ok hfit.toks
  refine ⟨hp.ready h.ready, homed_applyUbatch h.ready.wf h.home hfit, fun ub' hub' => ?_,
    fun ub' hub' kv1 hprm => ?_⟩
  · rw [hp.prm]
    exact h.fits ub' (mem_cons_of_mem _ hub')
  · exact h.homed ub' (mem_cons_of_mem _ hub') kv1 (hprm.trans hp.prm)

/-- The cells of the next slot are those that the dry run found. -/
lemma Follows.slot {T : List (ℕ × ℕ)} (hf : kv.Follows T (ub :: ubs) kv')
    (h : kv.Dry (ub :: ubs)) (hsi : kv.findSlot ub false = some si) (hH : si.Holds t j) :
    kv.SameCell kv' t j := by
  by_cases hT : (t, j) ∈ T
  · exact hf.touched t j hT
  · have hin := (prepare_round h.ready (h.fits ub mem_cons_self)
      (fun ub' hub' => h.fits ub' (mem_cons_of_mem _ hub')) hsi).1
    exact (hin t j hH).trans (hf.rest t j hT)

/-- The next slot fits. -/
lemma Follows.takes {T : List (ℕ × ℕ)} (hf : kv.Follows T (ub :: ubs) kv')
    (h : kv.Dry (ub :: ubs)) (hsi : kv.findSlot ub false = some si) : kv'.Takes si ub := by
  have hfit := h.fitting hsi
  refine ⟨hf.wf, fun t j hj s hs => ?_, ⟨fun u hu => ?_, hfit.ok.nodup, fun s hs => ?_⟩,
    fun t j hH hne => ?_, hfit.nTokens, fun u hu s hs => ?_⟩
  · rw [hf.size] at hj
    rw [hf.prm]
    by_cases hT : (t, j) ∈ T
    · rw [(hf.touched t j hT).2] at hs
      exact h.home t j hj s hs
    · rw [(hf.rest t j hT).2] at hs
      exact h.home t j hj s ((prepare_spec _ h.ready h.fits).seq_subset t j hs)
  · rw [hf.size]
    exact hfit.toks u hu
  · rw [hf.size]
    exact hfit.ok.last_le s hs
  · obtain ⟨hpos, hseq⟩ := hf.slot h hsi hH
    rw [hpos] at hne
    obtain ⟨u, hu, heq⟩ := hH
    have huse := hfit.ok.idx_usable hu
    have h1 : (slotOf si u).1 = t := congrArg Prod.fst heq
    have h2 : (slotOf si u).2 = j := congrArg Prod.snd heq
    rw [h1, h2] at huse
    simp only [canUse, KvCells.isEmpty, hne, decide_false, Bool.false_eq_true, false_or,
      decide_eq_true_eq] at huse
    rw [KvCells.seqCount, hseq]
    exact huse.1
  · rw [hf.prm]
    exact hfit.homed u hu s hs

/-- **One round of the second run**: it shows in the cells of one more slot what the dry run
had there. -/
theorem Follows.step {kv kv' : KvCache} {T : List (ℕ × ℕ)} {ub : UBatch} {ubs : List UBatch}
    (hf : kv.Follows T (ub :: ubs) kv') (h : kv.Dry (ub :: ubs)) {si : SlotInfo}
    (hsi : kv.findSlot ub false = some si) :
    (kv.applyUbatch si ub).Follows (si.tokens.map (slotOf si) ++ T) ubs
      (kv'.applyUbatch si ub) := by
  have hfit := h.fitting hsi
  have htakes := hf.takes h hsi
  have hdry := h.tail hsi
  have hp := applyUbatch_placed h.ready.wf hfit.ok hfit.toks
  have happ := applyUbatch_spec htakes.wf htakes.fill.toks htakes.fill.nodup htakes.fill.last_le
  have hslot : ∀ t j, si.Holds t j → kv.SameCell kv' t j := fun t j => hf.slot h hsi
  have hout := (prepare_round h.ready (h.fits ub mem_cons_self)
    (fun ub' hub' => h.fits ub' (mem_cons_of_mem _ hub')) hsi).2
  refine ⟨happ.prm.trans (hf.prm.trans hp.prm.symm), happ.cellsWF,
    fun t => (happ.sweep t).size_eq.trans ((hf.size t).trans (hp.size t).symm),
    fun t j hmem => ?_, fun t j hmem => ?_⟩
  · refine sameCell_applyUbatch h.ready.wf hf.wf hf.prm hf.size hfit.fillable htakes.fill hslot
      fun hH => ?_
    exact hf.touched t j ((mem_touched.mp hmem).resolve_left hH)
  · rw [mem_touched, not_or] at hmem
    have hsame := (hout t j hmem.1).trans (hf.rest t j hmem.2)
    refine hsame.trans (sameCell_of_not_purges hf.wf htakes.fill hmem.1 fun hj => ?_)
    -- what the dry run left here it did not purge when it filled this slot
    rintro ⟨s, hs, hst, hover⟩
    rw [hsame.2] at hs
    rw [hf.size] at hj
    have hj1 : j < ((kv.applyUbatch si ub).vCells t).size := (hp.size t).symm ▸ hj
    have hpos := prepare_pos ubs hdry.ready hdry.fits t j hj1 s hs
    have hs1 := (prepare_spec ubs hdry.ready hdry.fits).seq_subset t j hs
    rw [hsame.1, hpos, overwrites_congr hslot] at hover
    rw [hf.prm] at hst
    exact ((mem_applyUbatch h.ready.wf hfit.fillable hj).mp ⟨hs1, rfl⟩).2.2 ⟨hst, hover⟩

/-- The slots of the dry run, when it finds them all. -/
lemma prepareLoop_cons (h : (kv.prepareLoop (ub :: ubs)).2.2 = true) :
    ∃ si, kv.findSlot ub false = some si ∧ ((kv.applyUbatch si ub).prepareLoop ubs).2.2 = true ∧
      (kv.prepareLoop (ub :: ubs)).1.map PrepState.sinfo =
        si :: ((kv.applyUbatch si ub).prepareLoop ubs).1.map PrepState.sinfo := by
  cases hsi : kv.findSlot ub false with
  | none =>
    simp only [prepareLoop, hsi] at h
    cases h
  | some si =>
    simp only [prepareLoop, hsi] at h ⊢
    exact ⟨si, rfl, h, rfl⟩

/-- From a state that follows the dry run every further slot fits. -/
lemma Follows.takesAll : ∀ (ubs : List UBatch) {kv kv' : KvCache} {T : List (ℕ × ℕ)},
    kv.Follows T ubs kv' → kv.Dry ubs → (kv.prepareLoop ubs).2.2 = true →
      kv'.TakesAll (((kv.prepareLoop ubs).1.map PrepState.sinfo).zip ubs) := by
  intro ubs
  induction ubs with
  | nil =>
    intro kv kv' T _ _ _
    trivial
  | cons ub ubs ih =>
    intro kv kv' T hf h hok
    obtain ⟨si, hsi, hok', hslots⟩ := prepareLoop_cons hok
    rw [hslots]
    exact ⟨hf.takes h hsi, ih (hf.step h hsi) (h.tail hsi) hok'⟩

lemma length_prepareLoop : ∀ (ubs : List UBatch) {kv : KvCache},
    (kv.prepareLoop ubs).2.2 = true → (kv.prepareLoop ubs).1.length = ubs.length := by
  intro ubs
  induction ubs with
  | nil => exact fun _ => rfl
  | cons ub ubs ih =>
    intro kv hok
    obtain ⟨si, -, hok', hslots⟩ := prepareLoop_cons hok
    have hlen := congrArg List.length hslots
    rw [length_cons, length_map, length_map, ih hok'] at hlen
    exact hlen

/-- **The slots of the dry run fit when they are filled again**, one after the other, on the
cache as the dry run left it. -/
theorem takesAll_prepare (h : kv.Dry ubs) (hne : (kv.prepare ubs).2 ≠ []) :
    (kv.prepare ubs).2.length = ubs.length ∧
      (kv.prepare ubs).1.TakesAll ((kv.prepare ubs).2.zip ubs) := by
  have hval : (kv.prepare ubs).2 = if (kv.prepareLoop ubs).2.2 then
      (kv.prepareLoop ubs).1.map PrepState.sinfo else [] := rfl
  by_cases hok : (kv.prepareLoop ubs).2.2 = true
  · rw [hval, if_pos hok]
    refine ⟨?_, (follows_prepare h.ready h.fits).takesAll ubs h hok⟩
    rw [length_map]
    exact length_prepareLoop ubs hok
  · rw [hval, if_neg hok] at hne
    exact absurd rfl hne

end Llama.KvCache
