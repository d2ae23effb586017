import Llama.KvCache.Effect

/-!
# Emptying streams

`clear` and a copy between streams reset whole streams.  A copy then rebuilds the cells of
the source sequence in the destination stream, at the same indices: it sets the position the
stored row was made for and adds the pending shift again.
-/

namespace Llama.KvCache

open List KvCells

/-! ## `clear` -/

/-- The streams below `n` are reset. -/
lemma foldl_reset (kv : KvCache) (n : ℕ) :
    let kv' := (range n).foldl (fun kv s => (kv.call s .reset).setHead s 0) kv
    kv'.prm = kv.prm ∧ kv'.scInfo = kv.scInfo ∧
      (∀ t, kv'.vCells t = if t < n then (kv.vCells t).reset else kv.vCells t) ∧
      (∀ t, kv'.vHeads t = if t < n then 0 else kv.vHeads t) ∧
      kv'.kStream = kv.kStream ∧ kv'.vStream = kv.vStream ∧ (kv.CallsOk → kv'.CallsOk) := by
  induction n with
  | zero => simp
  | succ n ih =>
    obtain ⟨h1, h2, h3, h4, h5, h6, h7⟩ := ih
    simp only [range_succ, foldl_append, foldl_cons, foldl_nil]
    set kv1 := (range n).foldl (fun kv s => (kv.call s .reset).setHead s 0) kv
    refine ⟨h1, h2, fun t => ?_, fun t => ?_, h5, h6, fun hk => (h7 hk).call trivial⟩
    · by_cases ht : t = n
      · subst ht
        have h := h3 t
        simp [KvCells.run, h]
      · have hlt : t < n + 1 ↔ t < n := by omega
        rw [setHead_vCells, call_vCells_of_ne _ _ ht, h3, if_congr hlt rfl rfl]
    · by_cases ht : t = n
      · subst ht
        simp [setHead]
      · have hlt : t < n + 1 ↔ t < n := by omega
        simp only [setHead, Function.update_of_ne ht, call_vHeads, h4, hlt]

@[simp] lemma clear_prm (kv : KvCache) (data : Bool) : (kv.clear data).prm = kv.prm := by
  have h := (foldl_reset kv kv.prm.nStream).1
  unfold clear
  split <;> exact h

/-- **`clear` resets every stream.** -/
theorem clear_vCells (kv : KvCache) (data : Bool) (t : ℕ) : (kv.clear data).vCells t =
      if t < kv.prm.nStream then (kv.vCells t).reset else kv.vCells t := by
  have h := (foldl_reset kv kv.prm.nStream).2.2.1 t
  unfold clear
  split <;> exact h

lemma clear_vHeads (kv : KvCache) (data : Bool) (t : ℕ) :
    (kv.clear data).vHeads t = if t < kv.prm.nStream then 0 else kv.vHeads t := by
  have h := (foldl_reset kv kv.prm.nStream).2.2.2.1 t
  unfold clear
  split <;> exact h

lemma clear_callsOk {kv : KvCache} (data : Bool) (h : kv.CallsOk) : (kv.clear data).CallsOk := by
  have h := (foldl_reset kv kv.prm.nStream).2.2.2.2.2.2 h
  unfold clear
  split <;> exact h

/-- A cell of the destination stream: the source cell with the one new sequence. -/
def copied (dst : ℤ) (x : Cell) : Cell := { x with seq := {dst} }

/-- One cell of a copy between streams, into an empty cell. -/
lemma cpCell_spec (kv : KvCache) (s0 : ℕ) {s1 : ℕ} (i : ℕ) (src : ℤ) {dst : ℤ}
    (hwf : (kv.vCells s1).WF) (hi : i < (kv.vCells s1).size)
    (hempty : (kv.vCells s1).cell i = .empty)
    (hdst : 0 ≤ dst ∧ dst < maxSeq)
    (hsrc : src ∈ (kv.vCells s0).seq i → 0 ≤ (kv.vCells s0).pos i ∧
      (kv.vCells s0).shift i ≤ (kv.vCells s0).pos i) :
    Swept s1 (fun j x => if j = i ∧ src ∈ (kv.vCells s0).seq i then
      copied dst ((kv.vCells s0).cell i) else x) 0 kv (cpCell s0 s1 src dst kv i) := by
  by_cases hmem : src ∈ (kv.vCells s0).seq i
  · obtain ⟨hpos, hshift⟩ := hsrc hmem
    set pos := (kv.vCells s0).pos i with hposdef
    set sh := (kv.vCells s0).shift i with hshdef
    set ext := (kv.vCells s0).ext i with hextdef
    -- the position without the pending shift
    set p := if sh ≠ 0 then pos - sh else pos with hp
    have hp0 : 0 ≤ p := by
      rw [hp]
      split <;> omega
    have hval : cpCell s0 s1 src dst kv i =
        (if sh ≠ 0 then ((kv.call s1 (.posSet i p)).call s1 (.seqAdd i dst)).call s1 (.posAdd i sh)
          else (kv.call s1 (.posSet i p)).call s1 (.seqAdd i dst)).call s1 (.extSet i ext) := by
      simp only [cpCell, seqHas, hmem]
      rfl
    have hpos0 : (kv.vCells s1).pos i = -1 := congrArg Cell.pos hempty
    have hseq0 : (kv.vCells s1).seq i = ∅ := congrArg Cell.seq hempty
    have h1 := swept_call (.posSet i p) hwf hi ⟨hi, hpos0, hseq0, hp0⟩
      (rewrites_posSet hseq0 (by omega)) ((hwf.valid i hi).posSet hp0)
    set kv1 := kv.call s1 (.posSet i p)
    have hi1 : i < (kv1.vCells s1).size := h1.sweep.size_eq ▸ hi
    have hcell1 : (kv1.vCells s1).cell i = { (kv.vCells s1).cell i with pos := p } := by
      rw [h1.sweep.cell_eq, if_pos rfl]
    have hpos1 : (kv1.vCells s1).pos i = p := congrArg Cell.pos hcell1
    have hseq1 : (kv1.vCells s1).seq i = ∅ := (congrArg Cell.seq hcell1).trans hseq0
    have hne1 : (kv1.vCells s1).pos i ≠ -1 := by omega
    have hnot1 : dst ∉ (kv1.vCells s1).seq i := by simp [hseq1]
    have h2 := h1.trans' (swept_call (.seqAdd i dst) h1.sweep.wf hi1
      ⟨hi1, hne1, hnot1, hdst⟩ (rewrites_seqAdd h1.sweep.wf hi1 hnot1)
      ((h1.sweep.wf.valid i hi1).seqAdd hne1 hdst))
    set kv2 := kv1.call s1 (.seqAdd i dst)
    have hi2 : i < (kv2.vCells s1).size := h2.sweep.size_eq ▸ hi
    have hcell2 : (kv2.vCells s1).cell i = ⟨p, .zero, 0, {dst}⟩ := by
      rw [h2.sweep.cell_eq, hcell1, hempty]
      simp [Cell.seqAdd, Cell.empty]
    have hne2 : (kv2.vCells s1).pos i ≠ -1 := by
      have : (kv2.vCells s1).pos i = p := congrArg Cell.pos hcell2
      omega
    -- the shift is pending again
    have h3 : Swept s1 (fun j x => if j = i then ⟨pos, x.ext, sh, x.seq⟩ else x) 0 kv2
        (if sh ≠ 0 then kv2.call s1 (.posAdd i sh) else kv2) := by
      by_cases hsh : sh = 0
      · rw [if_neg (not_not.mpr hsh)]
        refine (Swept.refl' h2.sweep.wf).congr fun j => ?_
        by_cases hj : j = i
        · subst hj
          rw [if_pos rfl, hcell2, hp, if_neg (not_not.mpr hsh), hsh]
        · rw [if_neg hj]
      · rw [if_pos hsh]
        refine (swept_call (.posAdd i sh) h2.sweep.wf hi2 ⟨hi2, hne2⟩
          (rewrites_posAdd h2.sweep.wf hi2 hne2 sh)
          ((h2.sweep.wf.valid i hi2).posAdd sh)).congr fun j => ?_
        by_cases hj : j = i
        · subst hj
          have hback : p + sh = pos := by
            omega
          rw [if_pos rfl, hcell2]
          simp only [Cell.posAdd, hback]
          rw [if_neg (by omega)]
          simp
        · rw [if_neg hj, if_neg hj]
    have h4 := h2.trans' h3
    set kv3 := if sh ≠ 0 then kv2.call s1 (.posAdd i sh) else kv2
    have hi3 : i < (kv3.vCells s1).size := h4.sweep.size_eq ▸ hi
    have h5 := h4.trans' (swept_call (.extSet i ext) h4.sweep.wf hi3 hi3
      (rewrites_extSet h4.sweep.wf hi3 _) ((h4.sweep.wf.valid i hi3).extSet _))
    have hcell3 : (kv3.vCells s1).cell i = ⟨pos, .zero, sh, {dst}⟩ := by
      rw [h3.sweep.cell_eq, if_pos rfl, hcell2]
    rw [hval]
    refine h5.congr fun j => ?_
    by_cases hj : j = i
    · subst hj
      rw [if_pos rfl, if_pos ⟨rfl, hmem⟩, hcell3]
      rfl
    · simp only [hj, false_and, if_false]
  · have hval : cpCell s0 s1 src dst kv i = kv := by
      simp [cpCell, seqHas, hmem]
    rw [hval]
    refine (Swept.refl' hwf).congr fun j => ?_
    simp [hmem]

/-- **`seq_cp` between streams** leaves in the destination stream just the cells of the
source sequence; the position each stored row was made for may not be negative. -/
theorem seqCp_across {kv : KvCache} {src dst : ℤ} (p0 p1 : ℤ) (hwf : (kv.cellsOf src).WF)
    (hne : kv.prm.seqToStream src ≠ kv.prm.seqToStream dst)
    (hsize : (kv.cellsOf dst).size = (kv.cellsOf src).size)
    (hdst : 0 ≤ dst ∧ dst < maxSeq)
    (hshift : ∀ i < (kv.cellsOf src).size, src ∈ (kv.cellsOf src).seq i →
      (kv.cellsOf src).shift i ≤ (kv.cellsOf src).pos i) :
    let kv' := kv.seqCp src dst p0 p1
    let s1 := kv.prm.seqToStream dst
    kv'.prm = kv.prm ∧ kv'.scInfo = kv.scInfo ++ [(kv.prm.seqToStream src, s1)] ∧
      (∀ t, t ≠ s1 → kv'.vCells t = kv.vCells t) ∧
      (∀ t, t ≠ s1 → kv'.vHeads t = kv.vHeads t) ∧
      kv'.vHeads s1 = kv.vHeads (kv.prm.seqToStream src) ∧
      kv'.kStream = kv.kStream ∧ kv'.vStream = kv.vStream ∧
      (kv'.vCells s1).RI ∧ (kv'.vCells s1).size = (kv.cellsOf dst).size ∧
      (∀ j, (kv'.vCells s1).cell j =
        if j < (kv.cellsOf src).size ∧ src ∈ (kv.cellsOf src).seq j then
          copied dst ((kv.cellsOf src).cell j) else .empty) ∧
      (kv.CallsOk → kv'.CallsOk) := by
  intro kv' s1
  set s0 := kv.prm.seqToStream src with hs0
  set kv1 : KvCache := { kv with scInfo := kv.scInfo ++ [(s0, s1)] } with hkv1
  set kv2 := kv1.call s1 .reset with hkv2
  have hs10 : s0 ≠ s1 := hne
  have hri2 : (kv2.vCells s1).RI := by
    rw [call_vCells_self]
    exact ri_reset _
  have hcell2 : ∀ j, (kv2.vCells s1).cell j = .empty := fun j => by
    rw [call_vCells_self]
    rfl
  have hsize2 : (kv2.vCells s1).size = (kv.cellsOf dst).size := by
    rw [call_vCells_self]
    rfl
  have hsrc2 : kv2.vCells s0 = kv.cellsOf src := call_vCells_of_ne kv1 _ hs10
  -- round `n` copies cell `n`
  have hfold : Swept s1 (fun j x => if j < (kv.cellsOf src).size ∧ src ∈ (kv.cellsOf src).seq j then
      copied dst ((kv.cellsOf src).cell j) else x) 0 kv2
      ((range (kv.cellsOf src).size).foldl (cpCell s0 s1 src dst) kv2) := by
    refine (Run.foldl_entries (c := (kv2.vCells s1).cell) (R := fun g r => Swept s1 g 0 kv2 r)
      (h := fun j x => if src ∈ (kv.cellsOf src).seq j then copied dst ((kv.cellsOf src).cell j)
        else x) Swept.congr (.refl' hri2.toWF) fun n hn g r h hself => ?_).congr fun j => by
          simp only [ite_and]
    have hsrcn : r.vCells s0 = kv.cellsOf src := (h.cells s0 hs10).trans hsrc2
    have hstep := cpCell_spec r s0 n src h.sweep.wf
      (by rw [h.sweep.size_eq, hsize2, hsize]; omega)
      ((h.sweep.cell_eq n).trans (hself.trans (hcell2 n))) hdst
      (by
        rw [hsrcn]
        exact fun hmem => ⟨hwf.pos_nonneg (by omega) hmem, hshift n (by omega) hmem⟩)
    rw [hsrcn] at hstep
    refine (h.trans' hstep).congr fun j => ?_
    by_cases hj : j = n
    · subst hj
      simp [hself]
    · simp only [hj, false_and, if_false]
  have hval : kv' = ((range (kv.cellsOf src).size).foldl (cpCell s0 s1 src dst) kv2).setHead s1
      (kv.vHeads s0) := by
    have hheads : ((range (kv.cellsOf src).size).foldl (cpCell s0 s1 src dst) kv2).vHeads s0 =
        kv.vHeads s0 := hfold.heads s0 hs10
    rw [← hheads, ← hsrc2]
    exact if_neg hne
  rw [hval]
  refine ⟨hfold.prm, hfold.scInfo, fun t ht => ?_, fun t ht => ?_, ?_, hfold.kStream, hfold.vStream,
    hfold.sweep.ri hri2, hfold.sweep.size_eq.trans hsize2, fun j => ?_, fun hk => ?_⟩
  · rw [setHead_vCells, hfold.cells t ht]
    exact call_vCells_of_ne kv1 _ ht
  · simp only [setHead, Function.update_of_ne ht, hfold.heads t ht]
    rfl
  · exact Function.update_self ..
  · rw [setHead_vCells, hfold.sweep.cell_eq, hcell2]
  · have hk1 : kv1.CallsOk := hk
    have hk2 : kv2.CallsOk := hk1.call trivial
    exact hfold.calls rfl hk2

end Llama.KvCache
