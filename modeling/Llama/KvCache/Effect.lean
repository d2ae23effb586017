import Llama.KvCache.Slot
import Llama.KvCells.Invariant

/-!
# What the sequence methods do to the cells

A method of the cache calls the cells of one stream many times, at most one rewrite per
cell in each loop.  `KvCells.Sweep g c c'` says what such a loop leaves: cell `j` became
`g j` of what it was, and what the position maps count too much did not change, so that
`WF` and `RI` carry over.  `KvCache.OnStream strm kv kv'` is the frame: only the cells of
one stream changed.

`forCells_spec` is the one loop lemma; each method is an instance of it.
-/

namespace Llama

open List KvCells

variable {g' : ℕ → Cell → Cell}

namespace KvCells

/-- Cell `j` became `g j` of what it was, the invariant holds, and the maps count `e` more
too much than before. -/
structure Sweep (g : ℕ → Cell → Cell) (e : ℤ → ℤ → ℕ) (c c' : KvCells) : Prop where
  size_eq : c'.size = c.size
  cell_eq : ∀ j, c'.cell j = g j (c.cell j)
  wf : c'.WF
  excess : ∀ s p, (c'.seqPos s).count p + c.cellCount s p =
    (c.seqPos s).count p + c'.cellCount s p + e s p

lemma Sweep.refl {c : KvCells} (h : c.WF) : Sweep (fun _ x => x) 0 c c :=
  ⟨rfl, fun _ => rfl, h, fun _ _ => rfl⟩

lemma Sweep.trans {g : ℕ → Cell → Cell} {e e' : ℤ → ℤ → ℕ} {c c' c'' : KvCells}
    (h : Sweep g e c c') (h' : Sweep g' e' c' c'') :
    Sweep (fun j x => g' j (g j x)) (e + e') c c'' where
  size_eq := h'.size_eq.trans h.size_eq
  cell_eq := fun j => by rw [h'.cell_eq, h.cell_eq]
  wf := h'.wf
  excess := fun s p => by
    have h1 := h.excess s p
    have h2 := h'.excess s p
    simp only [Pi.add_apply]
    omega

lemma Sweep.congr {g : ℕ → Cell → Cell} {e : ℤ → ℤ → ℕ} {c c' : KvCells} (h : Sweep g e c c')
    (hg : ∀ j, g j (c.cell j) = g' j (c.cell j)) : Sweep g' e c c' :=
  ⟨h.size_eq, fun j => (h.cell_eq j).trans (hg j), h.wf, h.excess⟩

lemma Rewrites.sweep {c c' : KvCells} {i : ℕ} {x : Cell} (h : Rewrites c i x c') (hc : c.WF)
    (hi : i < c.size) (hx : x.Valid) : Sweep (fun j y => if j = i then x else y) 0 c c' where
  size_eq := h.size_eq
  cell_eq := fun j => by
    by_cases hj : j = i
    · rw [if_pos hj, hj, h.cell_self]
    · rw [if_neg hj, h.cell_of_ne hj]
  wf := h.wf hc hi hx
  excess := h.excess_eq hi

/-- Exact counts stay exact. -/
lemma Sweep.ri {g : ℕ → Cell → Cell} {c c' : KvCells} (h : Sweep g 0 c c') (hc : c.RI) : c'.RI where
  toWF := h.wf
  count_eq := fun s p => by
    have h1 := h.excess s p
    have h2 := hc.count_eq s p
    simp only [Pi.zero_apply] at h1
    omega

/-- Cells with the same vectors and the same excess are equal. -/
lemma ext_of_cells {c c' : KvCells} (hsize : c'.size = c.size) (hshift : c'.hasShift = c.hasShift)
    (hcell : ∀ j, c'.cell j = c.cell j) (hwf : c.WF) (hwf' : c'.WF)
    (hcount : ∀ s p, (c'.seqPos s).count p = (c.seqPos s).count p) : c' = c := by
  have hpos : c'.pos = c.pos := funext fun j => congrArg Cell.pos (hcell j)
  have hext : c'.ext = c.ext := funext fun j => congrArg Cell.ext (hcell j)
  have hsh : c'.shift = c.shift := funext fun j => congrArg Cell.shift (hcell j)
  have hseq : c'.seq = c.seq := funext fun j => congrArg Cell.seq (hcell j)
  have hused : c'.used = c.used := by
    ext i
    rw [hwf.mem_used, hwf'.mem_used, hsize, hpos]
  have hmaps : c'.seqPos = c.seqPos :=
    funext fun s => (hwf'.positive s).ext (hwf.positive s) (hcount s)
  cases c; cases c'
  simp_all

end KvCells

namespace KvCache

/-- Only the cells and the head of stream `strm` changed. -/
structure OnStream (strm : ℕ) (kv kv' : KvCache) : Prop where
  prm : kv'.prm = kv.prm
  cells : ∀ t, t ≠ strm → kv'.vCells t = kv.vCells t
  heads : ∀ t, t ≠ strm → kv'.vHeads t = kv.vHeads t
  scInfo : kv'.scInfo = kv.scInfo
  kStream : kv'.kStream = kv.kStream
  vStream : kv'.vStream = kv.vStream

lemma OnStream.refl (strm : ℕ) (kv : KvCache) : OnStream strm kv kv :=
  ⟨rfl, fun _ _ => rfl, fun _ _ => rfl, rfl, rfl, rfl⟩

variable {kv kv' : KvCache} {strm : ℕ} {e : ℤ → ℤ → ℕ} {g : ℕ → Cell → Cell} {s : ℤ}

lemma OnStream.trans {kv'' : KvCache} (h : OnStream strm kv kv') (h' : OnStream strm kv' kv'') :
    OnStream strm kv kv'' where
  prm := h'.prm.trans h.prm
  cells := fun t ht => (h'.cells t ht).trans (h.cells t ht)
  heads := fun t ht => (h'.heads t ht).trans (h.heads t ht)
  scInfo := h'.scInfo.trans h.scInfo
  kStream := h'.kStream.trans h.kStream
  vStream := h'.vStream.trans h.vStream

@[simp] lemma call_vHeads (kv : KvCache) (strm : ℕ) (op : KvCells.Op) :
    (kv.call strm op).vHeads = kv.vHeads := rfl

@[simp] lemma call_vCells_self (kv : KvCache) (strm : ℕ) (op : KvCells.Op) :
    (kv.call strm op).vCells strm = (kv.vCells strm).run op := Function.update_self ..

lemma call_vCells_of_ne (kv : KvCache) {t : ℕ} (op : KvCells.Op) (h : t ≠ strm) :
    (kv.call strm op).vCells t = kv.vCells t := Function.update_of_ne h ..

lemma onStream_call (kv : KvCache) (strm : ℕ) (op : KvCells.Op) :
    OnStream strm kv (kv.call strm op) :=
  ⟨rfl, fun _ ht => call_vCells_of_ne kv op ht, fun _ _ => rfl, rfl, rfl, rfl⟩

lemma onStream_setHead (kv : KvCache) (strm head : ℕ) : OnStream strm kv (kv.setHead strm head) :=
  ⟨rfl, fun _ _ => rfl, fun _ ht => Function.update_of_ne ht .., rfl, rfl, rfl⟩

@[simp] lemma setHead_vCells (kv : KvCache) (strm head : ℕ) :
    (kv.setHead strm head).vCells = kv.vCells := rfl

/-- Every call made so far met the precondition of its method. -/
def CallsOk (kv : KvCache) : Prop := ∀ e ∈ kv.calls, e.2.Pre e.1

lemma CallsOk.call (h : kv.CallsOk) {op : KvCells.Op} (hpre : op.Pre (kv.vCells strm)) :
    (kv.call strm op).CallsOk := by
  intro e he
  rcases mem_cons.mp he with rfl | he
  · exact hpre
  · exact h e he

lemma CallsOk.setHead (h : kv.CallsOk) (strm head : ℕ) : (kv.setHead strm head).CallsOk := h

/-- From `kv` to `kv'` the cells of one stream were swept by `g`; the calls met their
preconditions if they left no excess, and the head stays within the cells. -/
structure Swept (strm : ℕ) (g : ℕ → Cell → Cell) (e : ℤ → ℤ → ℕ) (kv kv' : KvCache) : Prop
    extends OnStream strm kv kv' where
  sweep : KvCells.Sweep g e (kv.vCells strm) (kv'.vCells strm)
  calls : e = 0 → kv.CallsOk → kv'.CallsOk
  head_le : kv'.vHeads strm ≤ max (kv.vHeads strm) (kv.vCells strm).size

lemma Swept.refl' (h : (kv.vCells strm).WF) : Swept strm (fun _ x => x) 0 kv kv :=
  ⟨.refl strm kv, .refl h, fun _ => id, le_max_left _ _⟩

lemma add_eq_zero_pi {e' : ℤ → ℤ → ℕ} (h : e + e' = 0) : e = 0 ∧ e' = 0 := by
  simpa [funext_iff, forall_and] using h

section

variable (h : Swept strm g e kv kv')

include h

lemma Swept.trans' {e' : ℤ → ℤ → ℕ} {kv'' : KvCache}
    (h' : Swept strm g' e' kv' kv'') : Swept strm (fun j x => g' j (g j x)) (e + e') kv kv'' := by
  refine ⟨h.toOnStream.trans h'.toOnStream, h.sweep.trans h'.sweep, fun he hk => ?_, ?_⟩
  · obtain ⟨he1, he2⟩ := add_eq_zero_pi he
    exact h'.calls he2 (h.calls he1 hk)
  · have h1 := h.head_le
    have h2 := h'.head_le
    rw [h.sweep.size_eq] at h2
    omega

lemma Swept.congr
    (hg : ∀ j, g j ((kv.vCells strm).cell j) = g' j ((kv.vCells strm).cell j)) :
    Swept strm g' e kv kv' :=
  ⟨h.toOnStream, h.sweep.congr hg, h.calls, h.head_le⟩

/-- Moving the head inside the cells changes no cell. -/
lemma Swept.setHead {head : ℕ}
    (hh : head ≤ max (kv.vHeads strm) (kv.vCells strm).size) :
    Swept strm g e kv (kv'.setHead strm head) where
  toOnStream := h.toOnStream.trans (onStream_setHead kv' strm head)
  sweep := h.sweep
  calls := h.calls
  head_le := by
    have heq : (kv'.setHead strm head).vHeads strm = head := Function.update_self ..
    rw [heq]
    exact hh

lemma Swept.lowerHead {newHead : ℕ}
    (hh : newHead ≤ (kv.vCells strm).size) : Swept strm g e kv (kv'.lowerHead strm newHead) := by
  unfold KvCache.lowerHead
  split
  · exact h.setHead (by omega)
  · exact h

end

/-- A call that rewrites one cell. -/
lemma swept_call {i : ℕ} (op : KvCells.Op) {x : Cell} (hwf : (kv.vCells strm).WF)
    (hi : i < (kv.vCells strm).size) (hpre : op.Pre (kv.vCells strm))
    (hrw : KvCells.Rewrites (kv.vCells strm) i x ((kv.vCells strm).run op)) (hx : x.Valid) :
    Swept strm (fun j y => if j = i then x else y) 0 kv (kv.call strm op) where
  toOnStream := onStream_call kv strm op
  sweep := by
    rw [call_vCells_self]
    exact hrw.sweep hwf hi hx
  calls := fun _ hk => hk.call hpre
  head_le := le_max_left _ _

/-- **The loop lemma.**  A loop that calls `op i` on the cells selected by `sel`, which
rewrites cell `i` to `f` of it, applies `f` to every selected cell.  `good` is what the call
needs of the cell beyond the invariant. -/
theorem forCells_spec (kv : KvCache) (strm : ℕ) (sel : KvCells → ℕ → Bool) (op : ℕ → KvCells.Op)
    (frees : KvCells → ℕ → Bool) (q : Cell → Prop) [DecidablePred q] (good : Cell → Prop)
    (f : Cell → Cell) (hwf : (kv.vCells strm).WF)
    (hsel : ∀ c i, sel c i = true ↔ q (c.cell i))
    (hop : ∀ c i, c.WF → i < c.size → q (c.cell i) → good (c.cell i) →
      (op i).Pre c ∧ KvCells.Rewrites c i (f (c.cell i)) (c.run (op i)) ∧ (f (c.cell i)).Valid)
    (hgood : ∀ i < (kv.vCells strm).size, q ((kv.vCells strm).cell i) →
      good ((kv.vCells strm).cell i)) :
    Swept strm (fun j x => if j < (kv.vCells strm).size ∧ q x then f x else x) 0 kv
        (kv.forCells strm sel op frees).1 ∧
      (kv.forCells strm sel op frees).2 ≤ (kv.vCells strm).size := by
  suffices h : Swept strm
      (fun j x => if j < (kv.vCells strm).size then (if q x then f x else x) else x) 0 kv
        (kv.forCells strm sel op frees).1 ∧
      (kv.forCells strm sel op frees).2 ≤ (kv.vCells strm).size from
    ⟨h.1.congr fun j => by simp only [ite_and], h.2⟩
  refine Run.foldl_entries (c := (kv.vCells strm).cell)
    (R := fun g (r : KvCache × ℕ) => Swept strm g 0 kv r.1 ∧ r.2 ≤ (kv.vCells strm).size)
    (fun h hg => ⟨h.1.congr hg, h.2⟩) ⟨.refl' hwf, le_rfl⟩ fun n hn g r h hself => ?_
  obtain ⟨hs, hh⟩ := h
  have hsize := hs.sweep.size_eq
  have hcell := (hs.sweep.cell_eq n).trans hself
  by_cases hq : q ((kv.vCells strm).cell n)
  · have hselt : sel (r.1.vCells strm) n = true := (hsel _ _).mpr (hcell ▸ hq)
    obtain ⟨hpre, hrw, hvalid⟩ := hop (r.1.vCells strm) n hs.sweep.wf (by omega) (hcell ▸ hq)
      (hcell ▸ hgood n hn hq)
    simp only [hselt, if_true]
    refine ⟨(hs.trans' (swept_call (op n) hs.sweep.wf (by omega) hpre hrw hvalid)).congr
      fun j => ?_, by split <;> omega⟩
    rw [hcell, if_pos hq]
  · have hselt : ¬ sel (r.1.vCells strm) n = true := fun h => hq (hcell ▸ (hsel _ _).mp h)
    simp only [if_neg hselt]
    refine ⟨hs.congr fun j => ?_, hh⟩
    rw [if_neg hq]
    split
    · rename_i hj
      rw [hj, hself]
    · rfl

/-! ## `seq_rm` -/

/-- The cells `seq_rm` selects. -/
def inRange (s p0 p1 : ℤ) (x : Cell) : Prop := (p0 ≤ x.pos ∧ x.pos < p1) ∧ s ∈ x.seq

instance (s p0 p1 : ℤ) : DecidablePred (inRange s p0 p1) := fun _ => inferInstanceAs (Decidable (_ ∧ _))

lemma sel_iff (s p0 p1 : ℤ) (c : KvCells) (i : ℕ) :
    (decide (c.posIn i p0 p1 ∧ c.seqHas i s) : Bool) = true ↔ inRange s p0 p1 (c.cell i) := by
  simp [posIn, seqHas, inRange, cell]

lemma lowBound_nonneg (p0 : ℤ) : 0 ≤ lowBound p0 := by
  unfold lowBound
  split <;> omega

lemma inRange.pos_ne {p0 p1 : ℤ} {c : KvCells} {i : ℕ} (h : inRange s p0 p1 (c.cell i))
    (hp0 : 0 ≤ p0) : c.pos i ≠ -1 := by
  have hlo : p0 ≤ c.pos i := h.1.1
  omega

lemma not_inRange_of_eq {p0 p1 : ℤ} (h : p0 = p1) (x : Cell) : ¬ inRange s p0 p1 x := by
  rintro ⟨⟨h1, h2⟩, _⟩
  omega

/-- The loop of `seq_rm` takes the sequence out of every cell in the range. -/
lemma rmSeqLoop_spec {p0 : ℤ} (p1 : ℤ) (hwf : (kv.cellsOf s).WF) (hs : 0 ≤ s) (hp0 : 0 ≤ p0) :
    Swept (kv.prm.seqToStream s)
        (fun j x => if j < (kv.cellsOf s).size ∧ inRange s p0 p1 x then x.seqRm s else x) 0 kv
        (kv.rmSeqLoop s p0 p1).1 ∧
      (kv.rmSeqLoop s p0 p1).2 ≤ (kv.cellsOf s).size := by
  refine forCells_spec _ _ _ _ _ (inRange s p0 p1) (fun _ => True) (fun x => x.seqRm s) hwf
    (sel_iff s p0 p1) ?_ (fun _ _ _ => trivial)
  intro c i hc hi hr _
  exact ⟨⟨hi, hr.2, hr.pos_ne hp0, hs⟩, rewrites_seqRm hc hi hr.2, (hc.valid i hi).seqRm s⟩

/-- The loop of `seq_rm` for any sequence clears every cell in the range. -/
lemma rmAnyLoop_spec {p0 : ℤ} (p1 : ℤ) (hwf : (kv.vCells strm).WF) (hp0 : 0 ≤ p0) : Swept strm
        (fun j x => if j < (kv.vCells strm).size ∧ (p0 ≤ x.pos ∧ x.pos < p1) then .empty else x) 0 kv
        (kv.rmAnyLoop strm p0 p1).1 ∧
      (kv.rmAnyLoop strm p0 p1).2 ≤ (kv.vCells strm).size := by
  refine forCells_spec _ _ _ _ _ (fun x => p0 ≤ x.pos ∧ x.pos < p1) (fun _ => True)
    (fun _ => .empty) hwf ?_ ?_ (fun _ _ _ => trivial)
  · simp [posIn, cell]
  · rintro c i hc hi ⟨hlo, _⟩ _
    have hne : c.pos i ≠ -1 := by
      have hlo : p0 ≤ c.pos i := hlo
      omega
    exact ⟨⟨hi, hne⟩, rewrites_rm hc hi, Cell.valid_empty⟩

/-- **`seq_rm` of a sequence** takes it out of every cell of its stream in the range. -/
theorem seqRm_spec (p0 p1 : ℤ) (hwf : (kv.cellsOf s).WF) (hs : 0 ≤ s) : Swept (kv.prm.seqToStream s)
      (fun j x => if j < (kv.cellsOf s).size ∧ inRange s (lowBound p0) (highBound p1) x then
        x.seqRm s else x) 0 kv (kv.seqRm s p0 p1) := by
  obtain ⟨h1, h2⟩ := rmSeqLoop_spec (highBound p1) hwf hs (lowBound_nonneg p0)
  simp only [seqRm, if_pos hs]
  exact h1.lowerHead h2

/-- `seq_rm` of any sequence, in one stream. -/
lemma rmAny_spec (strm : ℕ) (p0 p1 : ℤ) (hwf : (kv.vCells strm).WF) : Swept strm
      (fun j x => if j < (kv.vCells strm).size ∧ (lowBound p0 ≤ x.pos ∧ x.pos < highBound p1) then
        .empty else x) 0 kv
      ((kv.rmAnyLoop strm (lowBound p0) (highBound p1)).1.lowerHead strm
        (kv.rmAnyLoop strm (lowBound p0) (highBound p1)).2) := by
  obtain ⟨h1, h2⟩ := rmAnyLoop_spec (highBound p1) hwf (lowBound_nonneg p0)
  exact h1.lowerHead h2

/-- **`seq_keep`** clears the cells that do not hold the sequence; every occupied cell of the
stream has to name a sequence. -/
theorem seqKeep_spec (hwf : (kv.cellsOf s).WF) (hs : 0 ≤ s ∧ s < maxSeq)
    (hnamed : ∀ i < (kv.cellsOf s).size, (kv.cellsOf s).seq i = ∅ → (kv.cellsOf s).pos i = -1) :
    Swept (kv.prm.seqToStream s)
      (fun j x => if j < (kv.cellsOf s).size then x.seqKeep s else x) 0 kv (kv.seqKeep s) := by
  obtain ⟨h1, h2⟩ := forCells_spec kv (kv.prm.seqToStream s) (fun _ _ => true)
    (fun i => .seqKeep i s) (fun c i => c.seqKeepEmpties i s)
    (fun _ => True) (fun x => x.seq = ∅ → x.pos = -1) (fun x => x.seqKeep s) hwf (by simp)
    (fun c i hc hi _ hne => ⟨⟨hi, hs.1, hs.2, hne⟩, rewrites_seqKeep hc hi s,
      (hc.valid i hi).seqKeep s⟩) (fun i hi _ => hnamed i hi)
  refine (h1.congr fun j => ?_).lowerHead h2
  simp only [and_true]
  rfl

/-- **`seq_cp` within a stream** adds the sequence to the selected cells; none of them may
hold it already. -/
theorem seqCp_spec {src dst : ℤ} (p0 p1 : ℤ) (hwf : (kv.cellsOf src).WF)
    (hsame : kv.prm.seqToStream src = kv.prm.seqToStream dst) (hne : src ≠ dst)
    (hdst : 0 ≤ dst ∧ dst < maxSeq) (hfresh : ∀ i < (kv.cellsOf src).size,
      inRange src (lowBound p0) (highBound p1) ((kv.cellsOf src).cell i) →
        dst ∉ (kv.cellsOf src).seq i) :
    Swept (kv.prm.seqToStream src)
      (fun j x => if j < (kv.cellsOf src).size ∧ inRange src (lowBound p0) (highBound p1) x then
        x.seqAdd dst else x) 0 kv (kv.seqCp src dst p0 p1) := by
  simp only [seqCp, if_pos hsame, if_neg hne]
  refine (forCells_spec _ _ _ _ _ (inRange src (lowBound p0) (highBound p1)) (fun x => dst ∉ x.seq)
    (fun x => x.seqAdd dst) hwf (sel_iff src _ _) ?_ hfresh).1
  intro c i hc hi hr hnot
  have hp := hr.pos_ne (lowBound_nonneg p0)
  exact ⟨⟨hi, hp, hnot, hdst⟩, rewrites_seqAdd hc hi hnot, (hc.valid i hi).seqAdd hp hdst⟩

/-- **`seq_add`** moves the selected cells. -/
theorem seqAdd_spec (p0 p1 d : ℤ) (hwf : (kv.cellsOf s).WF) : Swept (kv.prm.seqToStream s)
      (fun j x => if j < (kv.cellsOf s).size ∧ d ≠ 0 ∧ inRange s (lowBound p0) (highBound p1) x then
        x.posAdd d else x) 0 kv (kv.seqAdd s p0 p1 d) := by
  simp only [seqAdd]
  by_cases hd : d = 0
  · rw [if_pos hd]
    refine (Swept.refl' hwf).congr fun j => ?_
    simp [hd]
  · rw [if_neg hd]
    by_cases hp : lowBound p0 = highBound p1
    · rw [if_pos hp]
      refine (Swept.refl' hwf).congr fun j => ?_
      exact (if_neg fun h => not_inRange_of_eq hp _ h.2.2).symm
    · rw [if_neg hp]
      obtain ⟨h1, h2⟩ := forCells_spec kv (kv.prm.seqToStream s)
        (fun c i => c.posIn i (lowBound p0) (highBound p1) ∧ c.seqHas i s)
        (fun i => .posAdd i d) (fun c i => c.posAddEmpties i d)
        (inRange s (lowBound p0) (highBound p1)) (fun _ => True) (fun x => x.posAdd d) hwf
        (sel_iff s _ _)
        (by
          intro c i hc hi hr _
          have hne := hr.pos_ne (lowBound_nonneg p0)
          exact ⟨⟨hi, hne⟩, rewrites_posAdd hc hi hne d, (hc.valid i hi).posAdd d⟩)
        (fun _ _ _ => trivial)
      refine (h1.congr fun j => ?_).setHead ?_
      · simp [hd, cellsOf]
      · split <;> omega

/-- **`seq_div`** divides the selected positions; the divisor has to be positive. -/
theorem seqDiv_spec (p0 p1 d : ℤ) (hwf : (kv.cellsOf s).WF) (hpos : ∀ i < (kv.cellsOf s).size,
      inRange s (lowBound p0) (highBound p1) ((kv.cellsOf s).cell i) → 1 ≤ d) :
    Swept (kv.prm.seqToStream s)
      (fun j x => if j < (kv.cellsOf s).size ∧ d ≠ 1 ∧ inRange s (lowBound p0) (highBound p1) x then
        x.posDiv d else x) 0 kv (kv.seqDiv s p0 p1 d) := by
  simp only [seqDiv]
  by_cases hd : d = 1
  · rw [if_pos hd]
    refine (Swept.refl' hwf).congr fun j => ?_
    simp [hd]
  · rw [if_neg hd]
    by_cases hp : lowBound p0 = highBound p1
    · rw [if_pos hp]
      refine (Swept.refl' hwf).congr fun j => ?_
      exact (if_neg fun h => not_inRange_of_eq hp _ h.2.2).symm
    · rw [if_neg hp]
      obtain ⟨h1, _⟩ := forCells_spec kv (kv.prm.seqToStream s)
        (fun c i => c.posIn i (lowBound p0) (highBound p1) ∧ c.seqHas i s)
        (fun i => .posDiv i d) (fun _ _ => false)
        (inRange s (lowBound p0) (highBound p1)) (fun _ => 1 ≤ d) (fun x => x.posDiv d) hwf
        (sel_iff s _ _)
        (by
          intro c i hc hi hr hd1
          have hne := hr.pos_ne (lowBound_nonneg p0)
          exact ⟨⟨hi, hne, hd1⟩, rewrites_posDiv hc hi hne hd1,
            (hc.valid i hi).posDiv hne hd1⟩)
        hpos
      refine h1.congr fun j => ?_
      simp [hd, cellsOf]

/-! ## Several streams -/

/-- From `kv` to `kv'` the cells of every stream `t` were swept by `g t`, leaving the excess
`e t`; the calls met their preconditions if there is none. -/
structure SweptAll (g : ℕ → ℕ → Cell → Cell) (e : ℕ → ℤ → ℤ → ℕ) (kv kv' : KvCache) : Prop where
  prm : kv'.prm = kv.prm
  sweep : ∀ t, KvCells.Sweep (g t) (e t) (kv.vCells t) (kv'.vCells t)
  calls : (∀ t, e t = 0) → kv.CallsOk → kv'.CallsOk
  head_le : ∀ t, kv'.vHeads t ≤ max (kv.vHeads t) (kv.vCells t).size
  kStream : kv'.kStream = kv.kStream
  vStream : kv'.vStream = kv.vStream
  scInfo : kv'.scInfo = kv.scInfo

/-- The cells of all streams satisfy the invariant. -/
def CellsWF (kv : KvCache) : Prop := ∀ t, (kv.vCells t).WF

lemma SweptAll.refl {kv : KvCache} (h : kv.CellsWF) :
    SweptAll (fun _ _ x => x) (fun _ => 0) kv kv :=
  ⟨rfl, fun t => .refl (h t), fun _ => id, fun _ => le_max_left _ _, rfl, rfl, rfl⟩

lemma SweptAll.cellsWF {g : ℕ → ℕ → Cell → Cell} {e : ℕ → ℤ → ℤ → ℕ} {kv kv' : KvCache}
    (h : SweptAll g e kv kv') : kv'.CellsWF := fun t => (h.sweep t).wf

lemma SweptAll.trans {g g' : ℕ → ℕ → Cell → Cell} {e e' : ℕ → ℤ → ℤ → ℕ}
    {kv kv' kv'' : KvCache} (h : SweptAll g e kv kv') (h' : SweptAll g' e' kv' kv'') :
    SweptAll (fun t j x => g' t j (g t j x)) (fun t => e t + e' t) kv kv'' where
  prm := h'.prm.trans h.prm
  sweep := fun t => (h.sweep t).trans (h'.sweep t)
  calls := fun he hk => h'.calls (fun t => (add_eq_zero_pi (he t)).2)
    (h.calls (fun t => (add_eq_zero_pi (he t)).1) hk)
  head_le := fun t => by
    have h1 := h.head_le t
    have h2 := h'.head_le t
    rw [(h.sweep t).size_eq] at h2
    omega
  kStream := h'.kStream.trans h.kStream
  vStream := h'.vStream.trans h.vStream
  scInfo := h'.scInfo.trans h.scInfo

lemma SweptAll.congr {g g' : ℕ → ℕ → Cell → Cell} {e e' : ℕ → ℤ → ℤ → ℕ} {kv kv' : KvCache}
    (h : SweptAll g e kv kv')
    (hg : ∀ t j, g t j ((kv.vCells t).cell j) = g' t j ((kv.vCells t).cell j))
    (he : ∀ t, e t = e' t) : SweptAll g' e' kv kv' := by
  obtain rfl : e = e' := funext he
  exact ⟨h.prm, fun t => (h.sweep t).congr (hg t), h.calls, h.head_le, h.kStream, h.vStream,
    h.scInfo⟩

/-- A change of one stream, seen from all of them. -/
lemma Swept.all (h : Swept strm g e kv kv') (hwf : kv.CellsWF) :
    SweptAll (fun t => if t = strm then g else fun _ x => x) (fun t => if t = strm then e else 0)
      kv kv' where
  prm := h.prm
  sweep := fun t => by
    by_cases ht : t = strm
    · subst ht
      simpa using h.sweep
    · simpa only [if_neg ht, h.cells t ht] using KvCells.Sweep.refl (hwf t)
  calls := fun he hk => h.calls (by simpa using he strm) hk
  head_le := fun t => by
    by_cases ht : t = strm
    · subst ht
      exact h.head_le
    · rw [h.heads t ht]
      exact le_max_left _ _
  kStream := h.kStream
  vStream := h.vStream
  scInfo := h.scInfo

/-- The streams below `n` were swept by `g`. -/
lemma foldl_streams_spec (step : KvCache → ℕ → KvCache) (g : ℕ → ℕ → Cell → Cell) {kv : KvCache}
    (hwf : kv.CellsWF)
    (hstep : ∀ kv' t, kv'.CellsWF → (kv'.vCells t).size = (kv.vCells t).size →
      Swept t (g t) 0 kv' (step kv' t)) (n : ℕ) :
    SweptAll (fun t j x => if t < n then g t j x else x) (fun _ => 0) kv
      ((range n).foldl step kv) := by
  induction n with
  | zero => exact (SweptAll.refl hwf).congr (by simp) (by simp)
  | succ n ih =>
    rw [range_succ, foldl_append]
    refine (ih.trans ((hstep _ n ih.cellsWF (ih.sweep n).size_eq).all ih.cellsWF)).congr ?_ ?_
    · intro t j
      by_cases ht : t = n
      · subst ht
        simp
      · have hlt : t < n + 1 ↔ t < n := by omega
        simp only [if_neg ht, hlt]
    · intro t
      by_cases ht : t = n <;> simp [ht]

/-- **`seq_rm` of every sequence** clears every cell in the range. -/
theorem seqRmAny_spec (p0 p1 : ℤ) (hwf : kv.CellsWF) (hs : s < 0) :
    SweptAll (fun t j x => if t < kv.prm.nStream then
        (if j < (kv.vCells t).size ∧ (lowBound p0 ≤ x.pos ∧ x.pos < highBound p1) then .empty
          else x) else x) (fun _ => 0) kv (kv.seqRm s p0 p1) := by
  simp only [seqRm, if_neg (not_le.mpr hs)]
  refine foldl_streams_spec _ _ hwf (fun kv' t hwf' hsize => ?_) _
  rw [← hsize]
  exact rmAny_spec t p0 p1 (hwf' t)

end KvCache
end Llama
