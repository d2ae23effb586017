import Llama.KvCache.Restore
import Llama.KvCache.Runs
import Llama.KvCache.Sequential

/-!
# Placing a ubatch keeps the positions of a sequence without gaps

A sliding window cache reuses the cells of old tokens in any order, and `apply_ubatch` then
drops every position up to the largest one it overwrote.  So the positions of a sequence stay
an interval, and nothing is dropped that the window of the next token still reaches.

The cells of a sequence all lie in its own stream (`Homed`), which placing a ubatch keeps when
each of its blocks holds tokens of one sequence.
-/

namespace Llama.KvCache

/-- Some cell of its stream holds sequence `s` at position `p`. -/
def Present (kv : KvCache) (s p : ℤ) : Prop :=
  ∃ i < (kv.cellsOf s).size, s ∈ (kv.cellsOf s).seq i ∧ (kv.cellsOf s).pos i = p

/-- Every position between the bounds of the sequence is present. -/
def NoGap (kv : KvCache) (s : ℤ) : Prop :=
  ∀ p, 0 ≤ p → kv.seqPosMin s ≤ p → p ≤ kv.seqPosMax s → kv.Present s p

/-- The cells of a stream hold only sequences of this stream. -/
def Homed (kv : KvCache) : Prop :=
  ∀ t, ∀ i < (kv.vCells t).size, ∀ s ∈ (kv.vCells t).seq i, kv.prm.seqToStream s = t

/-- The tokens of each block of the ubatch name only sequences of the block's stream. -/
def HomedUbatch (kv : KvCache) (ub : UBatch) : Prop :=
  ∀ i < ub.nTokens, ∀ s ∈ ub.seqs i,
    kv.prm.seqToStream s = (kv.slotStreams ub).getD (i / kv.slotTokens ub) 0

/-- The position of a token of sequence `s` in the ubatch. -/
def Carries (ub : UBatch) (s p : ℤ) : Prop := ∃ i < ub.nTokens, s ∈ ub.seqs i ∧ ub.pos i = p

/-- The positions of each sequence in the ubatch have no gap and come right after those in
the cache. -/
def Continues (kv : KvCache) (ub : UBatch) : Prop :=
  ∀ s p, Carries ub s p → kv.seqPosMax s < p ∧ ∀ q, kv.seqPosMax s < q → q ≤ p →
      (0 ≤ kv.seqPosMax s ∨ ∃ p₀ ≤ q, Carries ub s p₀) → Carries ub s q

variable {kv : KvCache} {s : ℤ} {si : SlotInfo} {ub : UBatch}

/-- With exact maps, a gap would lie between two present positions. -/
lemma noGap_iff (h : (kv.cellsOf s).RI) :
    kv.NoGap s ↔ ∀ a b p, kv.Present s a → kv.Present s b → a ≤ p → p ≤ b → kv.Present s p := by
  constructor
  · rintro hgap a b p ⟨i, hi, hmi, rfl⟩ ⟨j, hj, hmj, rfl⟩ ha hb
    have h1 := h.toWF.seqPos_bounds hi hmi
    have h2 := h.toWF.seqPos_bounds hj hmj
    have h3 := h.toWF.pos_nonneg hi hmi
    exact hgap p (by omega) (h1.1.trans ha) (hb.trans h2.2)
  · intro hconv p hp hmin hmax
    rcases h.isSeqMin s with ⟨hno, -⟩ | ⟨⟨i, hi, hmi, hpi⟩, -⟩
    · rcases h.isSeqMax s with ⟨-, hneg⟩ | ⟨⟨j, hj, hmj, -⟩, -⟩
      · have hneg : kv.seqPosMax s = -1 := hneg
        omega
      · exact absurd hmj (hno j hj)
    · rcases h.isSeqMax s with ⟨hno, -⟩ | ⟨⟨j, hj, hmj, hpj⟩, -⟩
      · exact absurd hmi (hno i hi)
      · exact hconv _ _ p ⟨i, hi, hmi, rfl⟩ ⟨j, hj, hmj, rfl⟩ (hpi ▸ hmin) (hpj ▸ hmax)

/-- A present position is at most the largest one. -/
lemma Present.le_max {p : ℤ} (hwf : kv.CellsWF) (h : kv.Present s p) :
    0 ≤ p ∧ p ≤ kv.seqPosMax s := by
  obtain ⟨i, hi, hm, rfl⟩ := h
  exact ⟨(hwf _).pos_nonneg hi hm, ((hwf _).seqPos_bounds hi hm).2⟩

lemma seqGet_eq {c : KvCells} {i : ℕ} (hone : c.seqCount i = 1) (hs : s ∈ c.seq i)
    (hrange : 0 ≤ s ∧ s < maxSeq) : c.seqGet i = s := by
  obtain ⟨u, hu⟩ := Finset.card_eq_one.mp hone
  have hsu : s = u := by
    rw [hu, Finset.mem_singleton] at hs
    exact hs
  have hfind : seqIds.find? (fun v => v ∈ c.seq i) = some s := by
    cases hf : seqIds.find? (fun v => v ∈ c.seq i) with
    | none =>
      have := List.find?_eq_none.mp hf s (mem_seqIds.mpr hrange)
      simp [hs] at this
    | some v =>
      have hv : v ∈ c.seq i := by simpa using List.find?_some hf
      rw [hu, Finset.mem_singleton] at hv
      rw [hv, hsu]
  rw [KvCells.seqGet, hfind]
  rfl

/-- An overwritten position of a homed sequence was in its stream, and masked for the next
position. -/
lemma Overwrites.masked (hwf : kv.CellsWF) (hhome : kv.Homed) (hok : kv.SlotOk si) {p : ℤ}
    (h : kv.Overwrites si s p) :
    ∃ q, p ≤ q ∧ q ≤ kv.seqPosMax s ∧
      isMaskedSwa kv.prm.nSwa kv.prm.swaType q (kv.seqPosMax s + 1) = true := by
  obtain ⟨u, hu, hne, hget, hle⟩ := h
  have hlt := hok.idx_lt hu
  have huse := hok.idx_usable hu
  set c := kv.vCells (slotOf si u).1
  set i := (slotOf si u).2
  simp only [canUse, KvCells.isEmpty, hne, decide_false, Bool.false_eq_true, false_or,
    decide_eq_true_eq] at huse
  obtain ⟨hone, hmask⟩ := huse
  obtain ⟨v, hv⟩ := Finset.card_eq_one.mp hone
  have hmem : v ∈ c.seq i := by rw [hv]; exact Finset.mem_singleton_self v
  have hvs : v = s := by
    rw [← hget]
    exact (seqGet_eq hone hmem (((hwf _).valid _ hlt).seq_range v hmem)).symm
  subst hvs
  have hstream := hhome _ _ hlt v hmem
  have hcells : kv.cellsOf v = c := by rw [cellsOf, hstream]
  refine ⟨c.pos i, hle, ?_, ?_⟩
  · rw [seqPosMax, hcells]
    exact ((hwf _).seqPos_bounds hlt hmem).2
  · rw [seqPosMax, hcells]
    rw [hget] at hmask
    exact hmask

/-! ## The cells after a placement -/

/-- What a found slot and a ubatch for it satisfy: the tokens fit, and each goes to the
stream of its sequences. -/
structure Fitting (kv : KvCache) (si : SlotInfo) (ub : UBatch) : Prop where
  ok : kv.SlotOk si
  toks : TokensOk si ub kv si.tokens
  nTokens : si.nStream * si.size = ub.nTokens
  homed : ∀ u ∈ si.tokens, ∀ s ∈ ub.seqs (tokenIdx si u), kv.prm.seqToStream s = (slotOf si u).1

/-- Where a slot may be filled: its cells are distinct cells of the cache. -/
structure Fillable (kv : KvCache) (si : SlotInfo) (ub : UBatch) : Prop where
  toks : TokensOk si ub kv si.tokens
  nodup : (si.tokens.map (slotOf si)).Nodup
  last_le : ∀ s < si.nStream,
    (si.idxs.getD s []).getLastD 0 + 1 ≤ (kv.vCells (si.strm.getD s 0)).size

/-- The slot fits the ubatch: its cells are empty or hold one sequence, and each token goes
to the stream of its sequences. -/
structure Takes (kv : KvCache) (si : SlotInfo) (ub : UBatch) : Prop where
  wf : kv.CellsWF
  home : kv.Homed
  fill : kv.Fillable si ub
  single : ∀ t j, si.Holds t j → (kv.vCells t).pos j ≠ -1 → (kv.vCells t).seqCount j = 1
  nTokens : si.nStream * si.size = ub.nTokens
  homed : ∀ u ∈ si.tokens, ∀ s ∈ ub.seqs (tokenIdx si u), kv.prm.seqToStream s = (slotOf si u).1

lemma Fitting.fillable (h : kv.Fitting si ub) :
    kv.Fillable si ub := ⟨h.toks, h.ok.nodup, h.ok.last_le⟩

/-- A cell holds `s` at `p` after the placement iff it did, or received a token that does,
and no position of `s` at or above `p` was overwritten. -/
lemma mem_applyUbatch (hwf : kv.CellsWF) (h : kv.Fillable si ub) {t j : ℕ}
    (hj : j < (kv.vCells t).size) {p : ℤ} :
    let y := placed si ub si.tokens t j ((kv.vCells t).cell j)
    (s ∈ ((kv.applyUbatch si ub).vCells t).seq j ∧ ((kv.applyUbatch si ub).vCells t).pos j = p) ↔
      s ∈ y.seq ∧ y.pos = p ∧ ¬ (kv.prm.seqToStream s = t ∧ kv.Overwrites si s p) := by
  intro y
  have happ := applyUbatch_spec hwf h.toks h.nodup h.last_le
  have hc := (happ.sweep t).cell_eq j
  simp only [if_pos hj] at hc
  have hseq : ((kv.applyUbatch si ub).vCells t).seq j =
      keptSeqs kv.prm (kv.maxRmOf si ub) seqIds t y := by
    have := congrArg Cell.seq hc
    rwa [Cell.restrict_seq] at this
  have hpos : s ∈ keptSeqs kv.prm (kv.maxRmOf si ub) seqIds t y →
      ((kv.applyUbatch si ub).vCells t).pos j = y.pos := fun hs =>
    (congrArg Cell.pos hc).trans (Cell.restrict_pos hs)
  have hy : s ∈ y.seq → 0 ≤ y.pos ∧ s ∈ seqIds := by
    intro hs
    rcases placed_cases ub h.nodup t j ((kv.vCells t).cell j) with
      ⟨u, hu, -, hval⟩ | ⟨-, hval⟩
    · have hval : y = _ := hval
      rw [hval] at hs ⊢
      obtain ⟨hp, hids⟩ := (h.toks u hu).2
      exact ⟨hp, mem_seqIds.mpr (hids s (List.mem_toFinset.mp hs))⟩
    · have hval : y = _ := hval
      rw [hval] at hs ⊢
      exact ⟨(hwf t).pos_nonneg hj hs, mem_seqIds.mpr (((hwf t).valid j hj).seq_range s hs)⟩
  rw [hseq]
  constructor
  · rintro ⟨hs, hp⟩
    rw [hpos hs] at hp
    simp only [keptSeqs, Finset.mem_filter] at hs
    obtain ⟨hs, hno⟩ := hs
    refine ⟨hs, hp, fun hov => hno ⟨(hy hs).2, hov.1, ?_⟩⟩
    exact (le_maxRmOf_iff hwf h.toks h.nodup (hy hs).1).mpr (hp ▸ hov.2)
  · rintro ⟨hs, hp, hno⟩
    have hk : s ∈ keptSeqs kv.prm (kv.maxRmOf si ub) seqIds t y := by
      simp only [keptSeqs, Finset.mem_filter]
      refine ⟨hs, fun hrm => hno ⟨hrm.2.1, ?_⟩⟩
      exact hp ▸ (le_maxRmOf_iff hwf h.toks h.nodup (hy hs).1).mp hrm.2.2
    exact ⟨hk, (hpos hk).trans hp⟩

/-- A cell that is overwritten counts as overwritten for its sequence. -/
lemma Takes.overwrites_of_holds (h : kv.Takes si ub) {t j : ℕ}
    (hj : si.Holds t j) (hlt : j < (kv.vCells t).size) {s : ℤ} (hs : s ∈ (kv.vCells t).seq j) :
    kv.Overwrites si s ((kv.vCells t).pos j) := by
  have hne := (h.wf t).pos_ne hlt hs
  have hone := h.single t j hj hne
  obtain ⟨u, hu, heq⟩ := hj
  have h1 : (slotOf si u).1 = t := congrArg Prod.fst heq
  have h2 : (slotOf si u).2 = j := congrArg Prod.snd heq
  refine ⟨u, hu, ?_⟩
  rw [h1, h2]
  exact ⟨hne, seqGet_eq hone hs (((h.wf t).valid j hlt).seq_range s hs), le_rfl⟩

lemma Fitting.takes (h : kv.Fitting si ub) (hwf : kv.CellsWF) (hhome : kv.Homed) :
    kv.Takes si ub := by
  refine ⟨hwf, hhome, h.fillable, fun t j hj hne => ?_, h.nTokens, h.homed⟩
  obtain ⟨u, hu, heq⟩ := hj
  have huse := h.ok.idx_usable hu
  have h1 : (slotOf si u).1 = t := congrArg Prod.fst heq
  have h2 : (slotOf si u).2 = j := congrArg Prod.snd heq
  rw [h1, h2] at huse
  simp only [canUse, KvCells.isEmpty, hne, decide_false, Bool.false_eq_true, false_or,
    decide_eq_true_eq] at huse
  exact huse.1

/-- **What is present after a slot was filled**: what was before and what the tokens bring, but
for the positions up to an overwritten one. -/
theorem Takes.present_applyUbatch (h : kv.Takes si ub) {s p : ℤ} :
    (kv.applyUbatch si ub).Present s p ↔
      (kv.Present s p ∨ Carries ub s p) ∧ ¬ kv.Overwrites si s p := by
  have happ := applyUbatch_spec h.wf h.fill.toks h.fill.nodup h.fill.last_le
  set kv' := kv.applyUbatch si ub with hkv'
  set t := kv.prm.seqToStream s with ht
  have hcells : kv'.cellsOf s = kv'.vCells t := by rw [cellsOf, happ.prm]
  have hsize : (kv'.vCells t).size = (kv.vCells t).size := (happ.sweep t).size_eq
  simp only [Present, hcells, hsize]
  constructor
  · rintro ⟨j, hj, hmem, hpos⟩
    obtain ⟨hs, hp, hno⟩ := (mem_applyUbatch h.wf h.fill hj).mp ⟨hmem, hpos⟩
    refine ⟨?_, fun hover => hno ⟨rfl, hover⟩⟩
    rcases placed_cases ub h.fill.nodup t j ((kv.vCells t).cell j) with
      ⟨u, hu, -, hval⟩ | ⟨-, hval⟩
    · rw [hval] at hs hp
      exact .inr ⟨tokenIdx si u, h.nTokens ▸ tokenIdx_lt hu, List.mem_toFinset.mp hs, hp⟩
    · rw [hval] at hs hp
      exact .inl ⟨j, hj, hs, hp⟩
  · rintro ⟨⟨j, hj, hs, hp⟩ | ⟨i, hi, hs, hp⟩, hno⟩
    · refine ⟨j, hj, (mem_applyUbatch h.wf h.fill hj).mpr ?_⟩
      have hout : ¬ si.Holds t j := fun hH => hno (hp ▸ h.overwrites_of_holds hH hj hs)
      rcases placed_cases ub h.fill.nodup t j ((kv.vCells t).cell j) with
        ⟨u, hu, heq, -⟩ | ⟨-, hval⟩
      · exact absurd ⟨u, hu, heq⟩ hout
      · rw [hval]
        exact ⟨hs, hp, fun hover => hno hover.2⟩
    · obtain ⟨u, hu, rfl⟩ := exists_token h.nTokens hi
      have hst : (slotOf si u).1 = t := (h.homed u hu s hs).symm
      have hlt := (h.fill.toks u hu).1
      have hval := placed_of_mem ub ((kv.vCells (slotOf si u).1).cell (slotOf si u).2)
        h.fill.nodup hu
      rw [hst] at hlt hval
      refine ⟨(slotOf si u).2, hlt, (mem_applyUbatch h.wf h.fill hlt).mpr ?_⟩
      rw [hval]
      exact ⟨List.mem_toFinset.mpr hs, hp, fun hover => hno hover.2⟩

/-- **A cell of a sequence** stays as it is for that sequence, unless its position is masked
at the sequence's next one. -/
theorem kept_applyUbatch (hwf : kv.CellsWF) (hhome : kv.Homed) (h : kv.Fitting si ub) {t j : ℕ}
    (hj : j < (kv.vCells t).size) (hs : s ∈ (kv.vCells t).seq j) :
    (¬ si.Holds t j ∧ s ∈ ((kv.applyUbatch si ub).vCells t).seq j ∧
      ((kv.applyUbatch si ub).vCells t).pos j = (kv.vCells t).pos j ∧
      ((kv.applyUbatch si ub).vCells t).ext j = (kv.vCells t).ext j ∧
      ((kv.applyUbatch si ub).vCells t).shift j = (kv.vCells t).shift j) ∨
      isMaskedSwa kv.prm.nSwa kv.prm.swaType ((kv.vCells t).pos j) (kv.seqPosMax s + 1) = true := by
  have happ := applyUbatch_spec hwf h.toks h.ok.nodup h.ok.last_le
  by_cases hover : kv.Overwrites si s ((kv.vCells t).pos j)
  · obtain ⟨q, hq, hmax, hmask⟩ := hover.masked hwf hhome h.ok
    exact .inr (isMaskedSwa_mono hq (by omega) le_rfl hmask)
  · have hout : ¬ si.Holds t j := fun hH => hover ((h.takes hwf hhome).overwrites_of_holds hH hj hs)
    have hval : placed si ub si.tokens t j ((kv.vCells t).cell j) = (kv.vCells t).cell j :=
      placed_of_notMem _ fun u hu heq => hout ⟨u, hu, heq⟩
    have hmem : s ∈ ((kv.applyUbatch si ub).vCells t).seq j ∧
        ((kv.applyUbatch si ub).vCells t).pos j = (kv.vCells t).pos j := by
      refine (mem_applyUbatch hwf h.fillable hj).mpr ?_
      rw [hval]
      exact ⟨hs, rfl, fun hc => hover hc.2⟩
    have hc := (happ.sweep t).cell_eq j
    simp only [hval, if_pos hj] at hc
    have hseq : ((kv.applyUbatch si ub).vCells t).seq j = _ := congrArg Cell.seq hc
    have hkeep : s ∈ keptSeqs kv.prm (kv.maxRmOf si ub) seqIds t ((kv.vCells t).cell j) := by
      have := hmem.1
      rwa [hseq, Cell.restrict_seq] at this
    rw [Cell.restrict_of_mem hkeep] at hc
    exact .inl ⟨hout, hmem.1, hmem.2, congrArg Cell.ext hc, congrArg Cell.shift hc⟩

/-- **The positions of a sequence after a placement**: the old ones above the overwritten
ones, and those of the tokens. -/
theorem present_applyUbatch (hwf : kv.CellsWF) (hhome : kv.Homed) (h : kv.Fitting si ub)
    (hnew : ∀ s p, Carries ub s p → kv.seqPosMax s < p) {p : ℤ} :
    (kv.applyUbatch si ub).Present s p ↔
      (kv.Present s p ∧ ¬ kv.Overwrites si s p) ∨ Carries ub s p := by
  -- new positions are above every overwritten one
  have hfree : Carries ub s p → ¬ kv.Overwrites si s p := by
    intro hcar hover
    obtain ⟨q, hpq, hq, -⟩ := hover.masked hwf hhome h.ok
    have := hnew s p hcar
    omega
  rw [(h.takes hwf hhome).present_applyUbatch, or_and_right, and_iff_left_of_imp hfree]

/-- Placing tokens that continue their sequences opens no gap. -/
lemma noGap_applyUbatch (hwf : kv.CellsWF) (hhome : kv.Homed) (h : kv.Fitting si ub)
    (hcont : kv.Continues ub) (hri : (kv.cellsOf s).RI)
    (hri' : ((kv.applyUbatch si ub).cellsOf s).RI) (hgap : kv.NoGap s) :
    (kv.applyUbatch si ub).NoGap s := by
  have hconv := (noGap_iff hri).mp hgap
  have hpres := fun q => present_applyUbatch (s := s) (p := q) hwf hhome h fun s p hc =>
    (hcont s p hc).1
  have hdown : ∀ {a q : ℤ}, a ≤ q → kv.Overwrites si s q → kv.Overwrites si s a := by
    rintro a q haq ⟨u, hu, h1, h2, h3⟩
    exact ⟨u, hu, h1, h2, haq.trans h3⟩
  refine (noGap_iff hri').mpr fun a b p ha hb hap hpb => ?_
  rw [hpres] at ha hb ⊢
  rcases ha with ⟨ha, hna⟩ | ha
  · obtain ⟨ha0, hamax⟩ := ha.le_max hwf
    by_cases hp : p ≤ kv.seqPosMax s
    · -- below the old bound the old positions are without gaps
      have hmax : kv.Present s (kv.seqPosMax s) := by
        rcases hri.isSeqMax s with ⟨hno, -⟩ | ⟨⟨j, hj, hmj, hpj⟩, -⟩
        · obtain ⟨i, hi, hmi, -⟩ := ha
          exact absurd hmi (hno i hi)
        · exact ⟨j, hj, hmj, hpj⟩
      exact .inl ⟨hconv a _ p ha hmax hap hp, fun hover => hna (hdown hap hover)⟩
    · rcases hb with ⟨hb, -⟩ | hb
      · have := (hb.le_max hwf).2
        omega
      · exact .inr ((hcont s b hb).2 p (by omega) hpb (.inl (by omega)))
  · have hgt := (hcont s a ha).1
    rcases hb with ⟨hb, -⟩ | hb
    · have := (hb.le_max hwf).2
      omega
    · exact .inr ((hcont s b hb).2 p (by omega) hpb (.inr ⟨a, hap, ha⟩))

/-- The number of tokens of the ubatch that hold `s` at `p`. -/
def tokenCount (ub : UBatch) (s p : ℤ) : ℕ :=
  ((Finset.range ub.nTokens).filter fun i => s ∈ ub.seqs i ∧ ub.pos i = p).card

/-- **Every token is stored in a cell of its own**, and no other cell holds its pair. -/
theorem cellCount_applyUbatch (hwf : kv.CellsWF) (hhome : kv.Homed) (h : kv.Fitting si ub)
    (hnew : ∀ s p, Carries ub s p → kv.seqPosMax s < p) {p : ℤ} (hcar : Carries ub s p) :
    ((kv.applyUbatch si ub).cellsOf s).cellCount s p = tokenCount ub s p := by
  have happ := applyUbatch_placed hwf h.ok h.toks
  set kv' := kv.applyUbatch si ub with hkv'
  set t := kv.prm.seqToStream s with ht
  have hcells : kv'.cellsOf s = kv'.vCells t := by rw [cellsOf, happ.prm]
  have hno : ¬ kv.Overwrites si s p := by
    intro hover
    obtain ⟨q, hpq, hq, -⟩ := hover.masked hwf hhome h.ok
    have := hnew s p hcar
    omega
  have hsize : (kv'.vCells t).size = (kv.vCells t).size := happ.size t
  have htoken : ∀ i < ub.nTokens, ∃ u ∈ si.tokens, tokenIdx si u = i := fun i hi =>
    exists_token h.nTokens hi
  rw [hcells, KvCells.cellCount, hsize]
  refine (Finset.card_bij (fun i _ => (slotOf si (i / si.size, i % si.size)).2) ?_ ?_ ?_).symm
  · intro i hi
    simp only [Finset.mem_filter, Finset.mem_range] at hi ⊢
    obtain ⟨hi, hs, hp⟩ := hi
    obtain ⟨u, hu, rfl⟩ := htoken i hi
    rw [h.ok.tokenIdx_div_mod hu]
    have hst : (slotOf si u).1 = t := (h.homed u hu s hs).symm
    have hlt := h.ok.idx_lt hu
    have hval := placed_of_mem ub ((kv.vCells (slotOf si u).1).cell (slotOf si u).2)
      h.ok.nodup hu
    rw [hst] at hlt hval
    refine ⟨hlt, (mem_applyUbatch hwf h.fillable hlt).mpr ?_⟩
    rw [hval]
    exact ⟨List.mem_toFinset.mpr hs, hp, fun hover => hno hover.2⟩
  · intro i hi j hj heq
    simp only [Finset.mem_filter, Finset.mem_range] at hi hj
    obtain ⟨u, hu, rfl⟩ := htoken i hi.1
    obtain ⟨v, hv, rfl⟩ := htoken j hj.1
    rw [h.ok.tokenIdx_div_mod hu, h.ok.tokenIdx_div_mod hv] at heq
    have h1 : (slotOf si u).1 = (slotOf si v).1 :=
      (h.homed u hu s hi.2.1).symm.trans (h.homed v hv s hj.2.1)
    exact congrArg _ (List.inj_on_of_nodup_map h.ok.nodup hu hv (Prod.ext h1 heq))
  · intro j hj
    simp only [Finset.mem_filter, Finset.mem_range] at hj
    obtain ⟨hj, hmem⟩ := hj
    obtain ⟨hs, hp, -⟩ := (mem_applyUbatch hwf h.fillable hj).mp hmem
    rcases placed_cases ub h.ok.nodup t j ((kv.vCells t).cell j) with
      ⟨u, hu, heq, hval⟩ | ⟨-, hval⟩
    · rw [hval] at hs hp
      refine ⟨tokenIdx si u, ?_, ?_⟩
      · simp only [Finset.mem_filter, Finset.mem_range]
        exact ⟨h.nTokens ▸ tokenIdx_lt hu, List.mem_toFinset.mp hs, hp⟩
      · rw [h.ok.tokenIdx_div_mod hu, heq]
    · -- an old cell is below the new positions
      rw [hval] at hs hp
      have hle := (Present.le_max hwf ⟨j, hj, hs, hp⟩).2
      have := hnew s p hcar
      omega

/-! ## Homed states -/

/-- A placed ubatch fits the streams. -/
def Op.Homed (kv : KvCache) : Op → Prop
  | .place ub => kv.HomedUbatch ub
  | _ => True

lemma Homed.sweptAll {kv' : KvCache} {g : ℕ → ℕ → Cell → Cell} {e : ℕ → ℤ → ℤ → ℕ}
    (h : kv.Homed) (hs : SweptAll g e kv kv')
    (hg : ∀ t, ∀ j < (kv.vCells t).size, ∀ s ∈ (g t j ((kv.vCells t).cell j)).seq,
      s ∈ (kv.vCells t).seq j ∨ kv.prm.seqToStream s = t) : kv'.Homed := by
  intro t j hj s hmem
  have hcell := congrArg Cell.seq ((hs.sweep t).cell_eq j)
  have hmem : s ∈ ((kv'.vCells t).cell j).seq := hmem
  rw [hcell] at hmem
  rw [(hs.sweep t).size_eq] at hj
  rw [hs.prm]
  exact (hg t j hj s hmem).elim (h t j hj s) id

/-- A sweep of one stream. -/
lemma Homed.swept {kv' : KvCache} {strm : ℕ} {g : ℕ → Cell → Cell} {e : ℤ → ℤ → ℕ}
    (h : kv.Homed) (hwf : kv.CellsWF) (hs : Swept strm g e kv kv')
    (hg : ∀ j < (kv.vCells strm).size, ∀ s ∈ (g j ((kv.vCells strm).cell j)).seq,
      s ∈ (kv.vCells strm).seq j ∨ kv.prm.seqToStream s = strm) : kv'.Homed := by
  refine h.sweptAll (hs.all hwf) fun t j hj s hmem => ?_
  by_cases ht : t = strm
  · subst ht
    simp only [if_true] at hmem
    exact hg j hj s hmem
  · simp only [if_neg ht] at hmem
    exact .inl hmem

/-- The slot found for a homed ubatch sends each token to the stream of its sequences. -/
lemma fitting_of_findSlot {p : KvParams} (h : Inv p kv) {n : ℕ} (hwell : ub.WellFormed n)
    (hn : n ≤ maxSeq) (hassert : kv.FindSlotAsserts ub) (hhub : kv.HomedUbatch ub)
    (hsi : kv.findSlot ub false = some si) (hpos : ∀ i < ub.nTokens, 0 ≤ ub.pos i) :
    kv.Fitting si ub := by
  obtain ⟨hok, htoks, hidx⟩ := slot_tokensOk h hwell hn hassert hsi hpos
  obtain ⟨-, hstrm, hsize, hmul⟩ := findSlot_spec hwell hassert h.head hsi
  refine ⟨hok, htoks, hmul, fun u hu s hs => ?_⟩
  have hdiv : tokenIdx si u / si.size = u.1 := congrArg Prod.fst (hok.tokenIdx_div_mod hu)
  rw [hhub _ (hidx u hu) s hs, ← hsize, hdiv, ← hstrm]
  rfl

lemma homed_applyUbatch (hwf : kv.CellsWF) (hhome : kv.Homed) (hfit : kv.Fitting si ub) :
    (kv.applyUbatch si ub).Homed := by
  refine hhome.sweptAll (applyUbatch_spec hwf hfit.toks hfit.ok.nodup hfit.ok.last_le)
    fun t j hj s hs => ?_
  simp only [if_pos hj, Cell.restrict_seq] at hs
  have hs := keptSeqs_subset _ _ _ _ _ hs
  rcases placed_cases ub hfit.ok.nodup t j ((kv.vCells t).cell j) with
    ⟨u, hu, heq, hval⟩ | ⟨-, hval⟩
  · rw [hval] at hs
    refine .inr ?_
    rw [hfit.homed u hu s (List.mem_toFinset.mp hs), heq]
  · rw [hval] at hs
    exact .inl hs

/-- **The methods keep every sequence in its stream.** -/
theorem homed_run {p : KvParams} {op : Op} (h : Inv p kv) (hhome : kv.Homed)
    (hassert : op.Asserts kv) (hgood : op.Good kv) (hop : op.Homed kv) : (kv.run op).Homed := by
  cases op with
  | clear data =>
    intro t j hj s hmem
    simp only [run] at hj hmem ⊢
    rw [clear_vCells] at hj hmem
    rw [clear_prm]
    split at hmem
    · simp [KvCells.reset] at hmem
    · rename_i ht
      rw [if_neg ht] at hj
      exact hhome t j hj s hmem
  | seqRm s p0 p1 =>
    by_cases hs : 0 ≤ s
    · refine hhome.swept h.cellsWF (seqRm_spec p0 p1 (h.cellsWF _) hs) fun j _ u hu => ?_
      split at hu
      · exact .inl (seqRm_pos hu).1
      · exact .inl hu
    · refine hhome.sweptAll (seqRmAny_spec p0 p1 h.cellsWF (by omega)) fun t j _ u hu => ?_
      split at hu
      · split at hu
        · simp [Cell.empty] at hu
        · exact .inl hu
      · exact .inl hu
  | seqCp src dst p0 p1 =>
    by_cases hsame : kv.prm.seqToStream src = kv.prm.seqToStream dst
    · by_cases hne : src = dst
      · have hval : kv.seqCp src dst p0 p1 = kv := by simp [seqCp, hne]
        change (kv.seqCp src dst p0 p1).Homed
        rw [hval]
        exact hhome
      · simp only [Op.Good, if_pos hsame] at hgood
        refine hhome.swept h.cellsWF (seqCp_spec p0 p1 (h.cellsWF _) hsame hne
          hassert.2.1.lt_maxSeq (hgood hne)) fun j _ u hu => ?_
        split at hu
        · rcases Finset.mem_insert.mp hu with rfl | hu
          · exact .inr hsame.symm
          · exact .inl hu
        · exact .inl hu
    · simp only [Op.Good, if_neg hsame] at hgood
      have hsize : (kv.cellsOf dst).size = (kv.cellsOf src).size := (h.size _).trans (h.size _).symm
      obtain ⟨h1, -, h3, -, -, -, -, -, -, h8, -⟩ :=
        seqCp_across p0 p1 (h.cellsWF _) hsame hsize hassert.2.1.lt_maxSeq hgood
      intro t j hj u hu
      change u ∈ ((kv.seqCp src dst p0 p1).vCells t).seq j at hu
      change j < ((kv.seqCp src dst p0 p1).vCells t).size at hj
      change (kv.seqCp src dst p0 p1).prm.seqToStream u = t
      rw [h1]
      by_cases ht : t = kv.prm.seqToStream dst
      · subst ht
        have hc := congrArg Cell.seq (h8 j)
        have hu : u ∈ (((kv.seqCp src dst p0 p1).vCells (kv.prm.seqToStream dst)).cell j).seq := hu
        rw [hc] at hu
        split at hu
        · rw [Finset.mem_singleton.mp hu]
        · simp [Cell.empty] at hu
      · rw [h3 t ht] at hj hu
        exact hhome t j hj u hu
  | seqKeep s =>
    refine hhome.swept h.cellsWF (seqKeep_spec (h.cellsWF _) hassert.lt_maxSeq hgood)
      fun j _ u hu => ?_
    split at hu
    · exact .inl (seqKeep_pos hu).1
    · exact .inl hu
  | seqAdd s p0 p1 d =>
    refine hhome.swept h.cellsWF (seqAdd_spec p0 p1 d (h.cellsWF _)) fun j _ u hu => ?_
    split at hu
    · unfold Cell.posAdd at hu
      split at hu
      · exact absurd hu (Finset.notMem_empty u)
      · exact .inl hu
    · exact .inl hu
  | seqDiv s p0 p1 d =>
    refine hhome.swept h.cellsWF (seqDiv_spec p0 p1 d (h.cellsWF _) hgood) fun j _ u hu => ?_
    split at hu
    · exact .inl hu
    · exact .inl hu
  | place ub =>
    change (kv.place ub).Homed
    unfold place
    cases hsi : kv.findSlot ub false with
    | none => exact hhome
    | some si =>
      have hfit := fitting_of_findSlot h hassert.1.wellFormed kv.prm.batchSeqMax_le.2 hassert.2 hop
        hsi fun i hi => (hgood i hi).1
      exact homed_applyUbatch h.cellsWF hhome hfit

/-- The ubatches of a cache with one stream are homed. -/
lemma homedUbatch_of_one (hn : ¬ 1 < kv.prm.nStream) (ub : UBatch) : kv.HomedUbatch ub := by
  intro i hi s _
  have hdiv : i / ub.nTokens = 0 := Nat.div_eq_of_lt hi
  simp [slotStreams, if_neg hn, KvParams.seqToStream]

/-- The ubatches of the sequential mode are homed. -/
lemma homedUbatch_of_blocks {base : ℤ} {n r : ℕ} (h : BatchAllocr.Blocks base n r ub) :
    kv.HomedUbatch ub := by
  by_cases hn : 1 < kv.prm.nStream
  · intro i hi s hs
    rw [h.nTokens] at hi
    have htok : kv.slotTokens ub = r := by
      rw [slotTokens, if_pos hn, h.nTokens, h.nSeqsUnq, Nat.mul_div_cancel_left _ h.n_pos]
    have hk : i / r < n := Nat.div_lt_of_lt_mul (by rw [Nat.mul_comm]; exact hi)
    have hii : i % r < r := Nat.mod_lt _ h.r_pos
    have hi' : i / r * r + i % r = i := Nat.div_add_mod' i r
    have hcount := h.nSeqId _ hk _ hii
    have hid := h.seqId _ hk _ hii
    rw [hi'] at hcount hid
    have hseqs : ub.seqs i = [base + ((i / r : ℕ) : ℤ)] := by
      simp [UBatch.seqs, hcount, hid]
    rw [hseqs, List.mem_singleton] at hs
    have hunq : ub.seqIdUnq.getD (i / r) 0 = base + ((i / r : ℕ) : ℤ) := by
      rw [h.seqIdUnq, List.getD_eq_getElem _ _ (by simpa using hk)]
      simp
    have hlen : i / r < (kv.slotStreams ub).length := by
      simpa [slotStreams, slotSeqs, if_pos hn, h.nSeqsUnq] using hk
    rw [htok, List.getD_eq_getElem _ _ hlen, hs, ← hunq]
    simp only [slotStreams, List.getElem_map, List.getElem_range]
  · exact homedUbatch_of_one hn ub

/-! ## The window -/

lemma homed_new (p : KvParams) : (new p).Homed := by
  intro t j _ s hs
  simp [new, KvCells.resize] at hs

/-- Runs of good calls keep the caches consistent and each sequence in its stream. -/
lemma inv_homed_exec (p : KvParams) (ops : List Op)
    (hops : Run.Guarded run (fun kv op => op.Asserts kv ∧ op.Good kv ∧ op.Homed kv) (new p) ops) :
    Inv p (Run.exec run (new p) ops) ∧ (Run.exec run (new p) ops).Homed := by
  refine Run.invariant (I := fun kv => Inv p kv ∧ kv.Homed) ?_ ⟨inv_new p, homed_new p⟩ ops hops
  rintro kv op ⟨h1, h2⟩ ⟨ha, hg, hh⟩
  exact ⟨inv_run h1 ⟨ha, hg⟩, homed_run h1 h2 ha hg hh⟩

lemma noGap_new (p : KvParams) (s : ℤ) : (new p).NoGap s := by
  intro q hq _ hle
  have hmax : (new p).seqPosMax s = -1 := rfl
  omega

/-- Two tokens of sequence 0, both at position 0. -/
def twoAtZero : LlamaBatch := { BatchAllocr.oneToken with nTokens := 2 }

/-- The ubatch of both. -/
def ubatchAtZero : UBatch :=
  ((BatchAllocr.ofFull 1 (BatchAllocr.fill twoAtZero none 256 false) 0 256).ubatchAdd
    [0, 1] 2 false).1

end Llama.KvCache
