import Llama.KvCache.Effect

/-!
# What placing a ubatch does to the cells

`placeToken` rewrites one cell to `tokenCell`, whatever the cell held; a sequence id that the
token lists twice is counted twice, which is the excess `tokenExcess`.  The purge takes a
sequence out of every cell at or below the largest position of it that was overwritten.
-/

namespace Llama

open List Function Cell

namespace KvCells

/-- Adding a sequence the cell already holds only counts it once more. -/
lemma sweep_seqAdd {c : KvCells} (hc : c.WF) {i : ℕ} (hi : i < c.size) (hp : c.pos i ≠ -1)
    {s : ℤ} (hs : 0 ≤ s ∧ s < maxSeq) :
    Sweep (fun j x => if j = i then x.seqAdd s else x)
      (fun t p => if t = s ∧ p = c.pos i ∧ s ∈ c.seq i then 1 else 0) c (c.seqAdd i s) := by
  by_cases hmem : s ∈ c.seq i
  · have hcell : ∀ j, (c.seqAdd i s).cell j = c.cell j := by
      intro j
      rw [cell_seqAdd]
      by_cases hj : j = i
      · subst hj
        simp [Cell.seqAdd, cell, hmem]
      · rw [update_of_ne hj]
    have hcount : ∀ t p, ((c.seqAdd i s).seqPos t).count p =
        (c.seqPos t).count p + if t = s ∧ p = c.pos i then 1 else 0 :=
      fun t p => count_seqPosInc c s (c.pos i) t p
    have hcc : ∀ t p, (c.seqAdd i s).cellCount t p = c.cellCount t p := by
      intro t p
      simp only [cellCount_eq_sum, hcell]
      rfl
    refine ⟨rfl, fun j => ?_, ⟨?_, ?_, ?_, ?_⟩, ?_⟩
    · rw [hcell]
      by_cases hj : j = i
      · subst hj
        simp [Cell.seqAdd, cell, hmem]
      · rw [if_neg hj]
    · intro j
      exact hc.mem_used j
    · exact fun t => positive_seqPosInc hc.positive s (c.pos i) t
    · intro t p
      have h1 := hc.count_ge t p
      rw [hcc, hcount]
      omega
    · intro j hj
      rw [hcell]
      exact hc.valid j hj
    · intro t p
      rw [hcc, hcount]
      simp only [hmem, and_true]
      omega
  · have hrw := (rewrites_seqAdd hc hi hmem).sweep hc hi ((hc.valid i hi).seqAdd hp hs)
    refine ⟨hrw.size_eq, fun j => ?_, hrw.wf, fun t p => ?_⟩
    · by_cases hj : j = i
      · subst hj
        simp
      · simp [hj]
    · have := hrw.excess t p
      simp only [hmem, and_false] at this ⊢
      exact this

end KvCells

variable {kv : KvCache}

namespace KvCache

/-! ## One token -/

lemma addSeqs_cons (kv : KvCache) (strm idx : ℕ) (s : ℤ) (l : List ℤ) :
    kv.addSeqs strm idx (s :: l) = (kv.call strm (.seqAdd idx s)).addSeqs strm idx l := rfl

/-- Adding the listed sequences to an occupied cell. -/
lemma addSeqs_spec {strm idx : ℕ} :
    ∀ (l : List ℤ) {kv : KvCache}, (kv.vCells strm).WF → idx < (kv.vCells strm).size →
      (kv.vCells strm).pos idx ≠ -1 → (∀ s ∈ l, 0 ≤ s ∧ s < maxSeq) →
      Swept strm (fun j x => if j = idx then { x with seq := x.seq ∪ l.toFinset } else x)
        (fun s p => if p = (kv.vCells strm).pos idx then
          l.count s - (if s ∈ (kv.vCells strm).seq idx then 0 else 1) else 0)
        kv (kv.addSeqs strm idx l) := by
  intro l
  induction l with
  | nil =>
    intro kv hwf hi hp _
    have hzero : (fun s p : ℤ => if p = (kv.vCells strm).pos idx then
        ([] : List ℤ).count s - (if s ∈ (kv.vCells strm).seq idx then 0 else 1) else 0) = 0 := by
      funext s p
      simp
    rw [hzero]
    refine (Swept.refl' hwf).congr fun j => ?_
    by_cases hj : j = idx <;> simp [hj]
  | cons s l ih =>
    intro kv hwf hi hp hl
    have hs := hl s mem_cons_self
    have hsw := KvCells.sweep_seqAdd hwf hi hp hs
    have hcall : Swept strm (fun j x => if j = idx then x.seqAdd s else x)
        (fun t p => if t = s ∧ p = (kv.vCells strm).pos idx ∧ s ∈ (kv.vCells strm).seq idx then 1
          else 0) kv (kv.call strm (.seqAdd idx s)) := by
      refine ⟨onStream_call kv strm _, ?_, fun he hk => hk.call ⟨hi, hp, ?_, hs⟩, le_max_left _ _⟩
      · rw [call_vCells_self]
        exact hsw
      · intro hmem
        have := congrFun (congrFun he s) ((kv.vCells strm).pos idx)
        simp [hmem] at this
    have hcell : ((kv.call strm (.seqAdd idx s)).vCells strm).cell idx =
        ((kv.vCells strm).cell idx).seqAdd s := by
      rw [hcall.sweep.cell_eq, if_pos rfl]
    have hpos : ((kv.call strm (.seqAdd idx s)).vCells strm).pos idx = (kv.vCells strm).pos idx :=
      congrArg Cell.pos hcell
    have hseq : ((kv.call strm (.seqAdd idx s)).vCells strm).seq idx =
        insert s ((kv.vCells strm).seq idx) := congrArg Cell.seq hcell
    have hrest := ih hcall.sweep.wf (hcall.sweep.size_eq ▸ hi) (hpos ▸ hp)
      fun t ht => hl t (mem_cons_of_mem _ ht)
    have htrans := hcall.trans' hrest
    have hexc : (fun t p : ℤ => if p = (kv.vCells strm).pos idx then
        (s :: l).count t - (if t ∈ (kv.vCells strm).seq idx then 0 else 1) else 0) =
        (fun t p => if t = s ∧ p = (kv.vCells strm).pos idx ∧ s ∈ (kv.vCells strm).seq idx then 1
          else 0) +
        (fun t p => if p = ((kv.call strm (.seqAdd idx s)).vCells strm).pos idx then
          l.count t - (if t ∈ ((kv.call strm (.seqAdd idx s)).vCells strm).seq idx then 0 else 1)
          else 0) := by
      funext t p
      simp only [hpos, hseq]
      by_cases hpp : p = (kv.vCells strm).pos idx
      · by_cases hts : t = s
        · subst hts
          by_cases hm : t ∈ (kv.vCells strm).seq idx <;> simp [hpp, hm]
          omega
        · simp [hts, Ne.symm hts]
      · simp [hpp]
    rw [hexc]
    refine htrans.congr fun j => ?_
    by_cases hj : j = idx
    · simp [hj, Cell.seqAdd]
    · simp [hj]

/-- The cell of token `i` once it is placed over `x`.  Without image coordinates an empty
cell keeps its extent. -/
def tokenCell (ub : UBatch) (i : ℕ) (x : Cell) : Cell where
  pos := ub.pos i
  ext := if ub.isPos2d then ⟨ub.pos (i + ub.nTokens * 2), ub.pos (i + ub.nTokens)⟩
    else if x.pos = -1 then x.ext else .zero
  shift := 0
  seq := (ub.seqs i).toFinset

/-- What the maps count too much for a token that lists an id repeatedly. -/
def tokenExcess (ub : UBatch) (i : ℕ) : ℤ → ℤ → ℕ :=
  fun s p => if p = ub.pos i then (ub.seqs i).count s - 1 else 0

/-- Token `i` can be placed: its position is not negative and its ids fit the bitset. -/
def TokenOk (ub : UBatch) (i : ℕ) : Prop :=
  0 ≤ ub.pos i ∧ ∀ s ∈ ub.seqs i, 0 ≤ s ∧ s < maxSeq

lemma freeCell_spec {strm idx : ℕ} (hwf : (kv.vCells strm).WF)
    (hi : idx < (kv.vCells strm).size) :
    Swept strm (fun j x => if j = idx ∧ x.pos ≠ -1 then .empty else x) 0 kv
      (kv.freeCell strm idx) := by
  by_cases he : (kv.vCells strm).pos idx = -1
  · have hfree : kv.freeCell strm idx = kv := by simp [freeCell, KvCells.isEmpty, he]
    rw [hfree]
    refine (Swept.refl' hwf).congr fun j => ?_
    by_cases hj : j = idx
    · subst hj
      simp [KvCells.cell, he]
    · simp [hj]
  · have hfree : kv.freeCell strm idx = kv.call strm (.rm idx) := by
      simp [freeCell, KvCells.isEmpty, he]
    rw [hfree]
    refine (swept_call (.rm idx) hwf hi ⟨hi, he⟩ (KvCells.rewrites_rm hwf hi) valid_empty).congr ?_
    intro j
    by_cases hj : j = idx
    · subst hj
      simp [KvCells.cell, he]
    · simp [hj]

variable {si : SlotInfo} {ub : UBatch}

/-- **A placed token** fills its cell, whatever the cell held. -/
theorem placeToken_spec {t : ℕ × ℕ} (maxRm : ℤ → ℤ) (hwf : (kv.vCells (slotOf si t).1).WF)
    (hi : (slotOf si t).2 < (kv.vCells (slotOf si t).1).size) (hok : TokenOk ub (tokenIdx si t)) :
    Swept (slotOf si t).1
      (fun j x => if j = (slotOf si t).2 then tokenCell ub (tokenIdx si t) x else x)
      (tokenExcess ub (tokenIdx si t)) kv (placeToken si ub (kv, maxRm) t).1 := by
  set strm := (slotOf si t).1
  set idx := (slotOf si t).2
  set i := tokenIdx si t
  -- the cell is made empty
  have h1 := freeCell_spec hwf hi
  set kv1 := kv.freeCell strm idx
  have hi1 : idx < (kv1.vCells strm).size := h1.sweep.size_eq ▸ hi
  have hcell1 : (kv1.vCells strm).cell idx =
      if ((kv.vCells strm).cell idx).pos = -1 then (kv.vCells strm).cell idx else .empty := by
    rw [h1.sweep.cell_eq]
    by_cases he : ((kv.vCells strm).cell idx).pos = -1 <;> simp [he]
  have hempty : ((kv1.vCells strm).cell idx).pos = -1 := by
    rw [hcell1]
    by_cases he : ((kv.vCells strm).cell idx).pos = -1 <;> simp [he, Cell.empty]
  have hv1 := h1.sweep.wf.valid idx hi1
  -- it gets its position
  have hseq1 : (kv1.vCells strm).seq idx = ∅ := hv1.empty_seq hempty
  have hp := hok.1
  have h2 := h1.trans' (swept_call (.posSet idx (ub.pos i)) h1.sweep.wf hi1
    ⟨hi1, hempty, hseq1, hp⟩ (KvCells.rewrites_posSet hseq1 (by omega)) (hv1.posSet hp))
  set kv2 := kv1.call strm (.posSet idx (ub.pos i))
  have hi2 : idx < (kv2.vCells strm).size := h2.sweep.size_eq ▸ hi
  have hcell2 : (kv2.vCells strm).cell idx = { (kv1.vCells strm).cell idx with pos := ub.pos i } := by
    rw [h2.sweep.cell_eq]
    simp
  -- its extent
  have h3 : Swept strm (fun j x => if j = idx ∧ ub.isPos2d = true then
      { x with ext := ⟨ub.pos (i + ub.nTokens * 2), ub.pos (i + ub.nTokens)⟩ } else x) 0 kv2
      (kv2.setExt strm idx ub i) := by
    by_cases h2d : ub.isPos2d = true
    · simp only [setExt, if_pos h2d]
      refine (swept_call (.extSet idx _) h2.sweep.wf hi2 hi2
        (KvCells.rewrites_extSet h2.sweep.wf hi2 _)
        ((h2.sweep.wf.valid idx hi2).extSet _)).congr fun j => ?_
      by_cases hj : j = idx
      · simp [hj, h2d]
      · simp [hj]
    · simp only [setExt, if_neg h2d]
      refine (Swept.refl' h2.sweep.wf).congr fun j => ?_
      simp [h2d]
  set kv3 := kv2.setExt strm idx ub i
  have h4 := h2.trans' h3
  have hi3 : idx < (kv3.vCells strm).size := h4.sweep.size_eq ▸ hi
  have hcell3 : (kv3.vCells strm).cell idx = if ub.isPos2d = true then
        { (kv2.vCells strm).cell idx with ext := ⟨ub.pos (i + ub.nTokens * 2), ub.pos (i + ub.nTokens)⟩ }
      else (kv2.vCells strm).cell idx := by
    rw [h3.sweep.cell_eq]
    by_cases h2d : ub.isPos2d = true <;> simp [h2d]
  have hpos3 : (kv3.vCells strm).pos idx = ub.pos i := by
    have : ((kv3.vCells strm).cell idx).pos = ub.pos i := by
      rw [hcell3, hcell2]
      split <;> rfl
    exact this
  have hseq3 : (kv3.vCells strm).seq idx = ∅ := by
    have : ((kv3.vCells strm).cell idx).seq = (kv1.vCells strm).seq idx := by
      rw [hcell3, hcell2]
      split <;> rfl
    exact this.trans hseq1
  -- and its sequences
  have h5 := addSeqs_spec (ub.seqs i) h4.sweep.wf hi3 (by rw [hpos3]; omega) hok.2
  have hexc : (fun s p : ℤ => if p = (kv3.vCells strm).pos idx then
      (ub.seqs i).count s - (if s ∈ (kv3.vCells strm).seq idx then 0 else 1) else 0) =
      tokenExcess ub i := by
    funext s p
    simp [tokenExcess, hpos3, hseq3]
  rw [hexc] at h5
  have h6 := h4.trans' h5
  have hzero : (0 + 0 + 0 + tokenExcess ub i : ℤ → ℤ → ℕ) = tokenExcess ub i := by simp
  rw [hzero] at h6
  refine h6.congr fun j => ?_
  by_cases hj : j = idx
  · subst hj
    have hold := hwf.valid idx hi
    simp only [hcell1]
    generalize (kv.vCells strm).cell idx = x at hold
    by_cases he : x.pos = -1 <;> by_cases h2d : ub.isPos2d = true
    · simp [tokenCell, he, h2d, hold.empty_shift he, hold.empty_seq he]
    · simp [tokenCell, he, h2d, hold.empty_shift he, hold.empty_seq he]
    · simp [tokenCell, he, h2d, Cell.empty]
    · simp [tokenCell, he, h2d, Cell.empty]
  · simp [hj]

/-! ## The tokens of a slot -/

/-- The cells once the tokens of a list have been placed. -/
def placed (si : SlotInfo) (ub : UBatch) : List (ℕ × ℕ) → ℕ → ℕ → Cell → Cell
  | [], _, _, x => x
  | t :: ts, strm, j, x =>
    placed si ub ts strm j
      (if slotOf si t = (strm, j) then tokenCell ub (tokenIdx si t) x else x)

/-- What the maps of a stream count too much for a list of placed tokens. -/
def placedExcess (si : SlotInfo) (ub : UBatch) : List (ℕ × ℕ) → ℕ → ℤ → ℤ → ℕ
  | [], _ => 0
  | t :: ts, strm =>
    (if strm = (slotOf si t).1 then tokenExcess ub (tokenIdx si t) else 0) +
      placedExcess si ub ts strm

lemma placed_of_notMem {strm j : ℕ} :
    ∀ {ts : List (ℕ × ℕ)} (x : Cell), (∀ t ∈ ts, slotOf si t ≠ (strm, j)) →
      placed si ub ts strm j x = x := by
  intro ts
  induction ts with
  | nil => intro x _; rfl
  | cons t ts ih =>
    intro x h
    rw [placed, if_neg (h t mem_cons_self)]
    exact ih x fun u hu => h u (mem_cons_of_mem _ hu)

/-- A token alone in its cell determines it. -/
lemma placed_of_mem (ub : UBatch) {t : ℕ × ℕ} :
    ∀ {ts : List (ℕ × ℕ)} (x : Cell), (ts.map (slotOf si)).Nodup → t ∈ ts →
      placed si ub ts (slotOf si t).1 (slotOf si t).2 x = tokenCell ub (tokenIdx si t) x := by
  intro ts
  induction ts with
  | nil => intro x _ h; simp at h
  | cons u ts ih =>
    intro x hnd ht
    have hnd' := nodup_cons.mp hnd
    rcases mem_cons.mp ht with rfl | ht
    · rw [placed, if_pos rfl]
      exact placed_of_notMem _ fun v hv heq => hnd'.1 (mem_map.mpr ⟨v, hv, heq⟩)
    · have hne : slotOf si u ≠ slotOf si t := fun heq =>
        hnd'.1 (mem_map.mpr ⟨t, ht, heq.symm⟩)
      rw [placed, if_neg hne]
      exact ih x hnd'.2 ht

/-- Tokens that list no sequence twice are counted exactly. -/
lemma placedExcess_eq_zero {ts : List (ℕ × ℕ)} (h : ∀ t ∈ ts, (ub.seqs (tokenIdx si t)).Nodup)
    (strm : ℕ) : placedExcess si ub ts strm = 0 := by
  induction ts with
  | nil => rfl
  | cons t ts ih =>
    have hzero : tokenExcess ub (tokenIdx si t) = 0 := by
      funext s q
      have hcount := nodup_iff_count_le_one.mp (h t mem_cons_self) s
      simp only [tokenExcess, Pi.zero_apply]
      split <;> omega
    rw [placedExcess, ih fun u hu => h u (mem_cons_of_mem _ hu), hzero]
    simp

/-- A cell after the tokens were placed holds one of them or is as before. -/
lemma placed_cases (ub : UBatch) {ts : List (ℕ × ℕ)} (hnd : (ts.map (slotOf si)).Nodup)
    (strm j : ℕ) (x : Cell) :
    (∃ t ∈ ts, slotOf si t = (strm, j) ∧
        placed si ub ts strm j x = tokenCell ub (tokenIdx si t) x) ∨
      ((∀ t ∈ ts, slotOf si t ≠ (strm, j)) ∧ placed si ub ts strm j x = x) := by
  by_cases h : ∃ t ∈ ts, slotOf si t = (strm, j)
  · obtain ⟨t, ht, heq⟩ := h
    have hval := placed_of_mem ub x hnd ht
    rw [heq] at hval
    exact .inl ⟨t, ht, heq, hval⟩
  · push Not at h
    exact .inr ⟨h, placed_of_notMem x h⟩

/-- The tokens of a list can be placed in their cells. -/
def TokensOk (si : SlotInfo) (ub : UBatch) (kv : KvCache) (ts : List (ℕ × ℕ)) : Prop :=
  ∀ t ∈ ts, (slotOf si t).2 < (kv.vCells (slotOf si t).1).size ∧ TokenOk ub (tokenIdx si t)

/-- One token, seen from all streams. -/
lemma placeToken_all {t : ℕ × ℕ} (maxRm : ℤ → ℤ) (hwf : kv.CellsWF)
    (hi : (slotOf si t).2 < (kv.vCells (slotOf si t).1).size) (hok : TokenOk ub (tokenIdx si t)) :
    SweptAll (placed si ub [t]) (placedExcess si ub [t]) kv (placeToken si ub (kv, maxRm) t).1 := by
  refine ((placeToken_spec maxRm (hwf _) hi hok).all hwf).congr ?_ ?_
  · intro strm j
    simp only [placed]
    by_cases hs : strm = (slotOf si t).1 <;> by_cases hj : j = (slotOf si t).2
    · subst hs; subst hj; simp
    · have hne : slotOf si t ≠ (strm, j) := fun h => hj (congrArg Prod.snd h).symm
      simp [hs, hj, hs ▸ hne]
    · have hne : slotOf si t ≠ (strm, j) := fun h => hs (congrArg Prod.fst h).symm
      simp [hs, hne]
    · have hne : slotOf si t ≠ (strm, j) := fun h => hs (congrArg Prod.fst h).symm
      simp [hs, hne]
  · simp [placedExcess]

lemma placeTokens_spec :
    ∀ (ts : List (ℕ × ℕ)) {kv : KvCache} (maxRm : ℤ → ℤ), kv.CellsWF → TokensOk si ub kv ts →
      SweptAll (placed si ub ts) (placedExcess si ub ts) kv
        (ts.foldl (placeToken si ub) (kv, maxRm)).1 := by
  intro ts
  induction ts with
  | nil => intro kv maxRm hwf _; exact (SweptAll.refl hwf).congr (fun _ _ => rfl) (fun _ => rfl)
  | cons t ts ih =>
    intro kv maxRm hwf hok
    obtain ⟨hi, ht⟩ := hok t mem_cons_self
    have h1 := placeToken_all maxRm hwf hi ht
    have hok' : TokensOk si ub (placeToken si ub (kv, maxRm) t).1 ts := by
      intro u hu
      obtain ⟨hui, hut⟩ := hok u (mem_cons_of_mem _ hu)
      exact ⟨(h1.sweep _).size_eq ▸ hui, hut⟩
    have h2 := ih (placeToken si ub (kv, maxRm) t).2 h1.cellsWF hok'
    refine (h1.trans h2).congr (fun _ _ => rfl) (fun strm => ?_)
    simp [placedExcess]

/-- The largest overwritten positions: each is one of an overwritten cell, and none is
larger. -/
lemma placeTokens_maxRm :
    ∀ (ts : List (ℕ × ℕ)) {kv : KvCache} (maxRm : ℤ → ℤ), kv.CellsWF → TokensOk si ub kv ts →
      (ts.map (slotOf si)).Nodup →
      (∀ q, (ts.foldl (placeToken si ub) (kv, maxRm)).2 q = maxRm q ∨
        ∃ t ∈ ts, (kv.vCells (slotOf si t).1).pos (slotOf si t).2 ≠ -1 ∧
          (kv.vCells (slotOf si t).1).seqGet (slotOf si t).2 = q ∧
          (ts.foldl (placeToken si ub) (kv, maxRm)).2 q =
            (kv.vCells (slotOf si t).1).pos (slotOf si t).2) ∧
      (∀ q, maxRm q ≤ (ts.foldl (placeToken si ub) (kv, maxRm)).2 q) ∧
      ∀ t ∈ ts, (kv.vCells (slotOf si t).1).pos (slotOf si t).2 ≠ -1 →
        (kv.vCells (slotOf si t).1).pos (slotOf si t).2 ≤
          (ts.foldl (placeToken si ub) (kv, maxRm)).2
            ((kv.vCells (slotOf si t).1).seqGet (slotOf si t).2) := by
  intro ts
  induction ts with
  | nil => intro kv maxRm _ _ _; exact ⟨fun _ => .inl rfl, fun _ => le_rfl, by simp⟩
  | cons t ts ih =>
    intro kv maxRm hwf hok hnd
    obtain ⟨hi, ht⟩ := hok t mem_cons_self
    have hnd' := nodup_cons.mp hnd
    have h1 := placeToken_all maxRm hwf hi ht
    set kv1 := (placeToken si ub (kv, maxRm) t).1 with hkv1
    set m1 := (placeToken si ub (kv, maxRm) t).2 with hm1
    have hok' : TokensOk si ub kv1 ts := by
      intro u hu
      obtain ⟨hui, hut⟩ := hok u (mem_cons_of_mem _ hu)
      exact ⟨(h1.sweep _).size_eq ▸ hui, hut⟩
    have hfold : (t :: ts).foldl (placeToken si ub) (kv, maxRm) =
        ts.foldl (placeToken si ub) (kv1, m1) := rfl
    -- the cells of the other tokens are still as before
    have hsame : ∀ u ∈ ts, (kv1.vCells (slotOf si u).1).cell (slotOf si u).2 =
        (kv.vCells (slotOf si u).1).cell (slotOf si u).2 := by
      intro u hu
      rw [(h1.sweep _).cell_eq]
      refine placed_of_notMem _ fun v hv heq => ?_
      rw [mem_singleton.mp hv] at heq
      exact hnd'.1 (mem_map.mpr ⟨u, hu, heq.symm⟩)
    have hpos : ∀ u ∈ ts, (kv1.vCells (slotOf si u).1).pos (slotOf si u).2 =
        (kv.vCells (slotOf si u).1).pos (slotOf si u).2 := fun u hu =>
      congrArg Cell.pos (hsame u hu)
    have hget : ∀ u ∈ ts, (kv1.vCells (slotOf si u).1).seqGet (slotOf si u).2 =
        (kv.vCells (slotOf si u).1).seqGet (slotOf si u).2 := fun u hu => by
      have hseq : (kv1.vCells (slotOf si u).1).seq (slotOf si u).2 =
          (kv.vCells (slotOf si u).1).seq (slotOf si u).2 := congrArg Cell.seq (hsame u hu)
      simp only [KvCells.seqGet, hseq]
    have hm1val : m1 = noteRm (kv.vCells (slotOf si t).1) (slotOf si t).2 maxRm := rfl
    obtain ⟨ha, hb, hc⟩ := ih m1 h1.cellsWF hok' hnd'.2
    rw [hfold]
    refine ⟨?_, ?_, ?_⟩
    · intro q
      rcases ha q with heq | ⟨u, hu, hne, hq, hval⟩
      · by_cases hempty : (kv.vCells (slotOf si t).1).pos (slotOf si t).2 = -1
        · rw [heq, hm1val]
          simp [noteRm, KvCells.isEmpty, hempty]
        · by_cases hq : (kv.vCells (slotOf si t).1).seqGet (slotOf si t).2 = q
          · have hval : m1 q = max (maxRm q) ((kv.vCells (slotOf si t).1).pos (slotOf si t).2) := by
              rw [hm1val]
              simp [noteRm, KvCells.isEmpty, hempty, hq]
            by_cases hle : (kv.vCells (slotOf si t).1).pos (slotOf si t).2 ≤ maxRm q
            · left
              rw [heq, hval, max_eq_left hle]
            · right
              refine ⟨t, mem_cons_self, hempty, hq, ?_⟩
              rw [heq, hval, max_eq_right (by omega)]
          · rw [heq, hm1val]
            simp [noteRm, KvCells.isEmpty, hempty, update_of_ne (Ne.symm hq)]
      · right
        rw [hpos u hu] at hne hval
        rw [hget u hu] at hq
        exact ⟨u, mem_cons_of_mem _ hu, hne, hq, hval⟩
    · intro q
      refine le_trans ?_ (hb q)
      rw [hm1val]
      by_cases hempty : (kv.vCells (slotOf si t).1).pos (slotOf si t).2 = -1
      · simp [noteRm, KvCells.isEmpty, hempty]
      · by_cases hq : q = (kv.vCells (slotOf si t).1).seqGet (slotOf si t).2
        · subst hq
          simp [noteRm, KvCells.isEmpty, hempty]
        · simp [noteRm, KvCells.isEmpty, hempty, update_of_ne hq]
    · intro u hu hne
      rcases mem_cons.mp hu with rfl | hu
      · refine le_trans ?_ (hb _)
        rw [hm1val]
        simp [noteRm, KvCells.isEmpty, hne]
      · have h := hc u hu (by rw [hpos u hu]; exact hne)
        rw [hpos u hu, hget u hu] at h
        exact h

/-! ## The purge -/

end KvCache

/-- A cell whose sequences were cut down to `keep`. -/
def Cell.restrict (x : Cell) (keep : Finset ℤ) : Cell :=
  if keep = x.seq then x else if keep = ∅ then .empty else { x with seq := keep }

@[simp] lemma Cell.restrict_self (x : Cell) : x.restrict x.seq = x := by simp [restrict]

@[simp] lemma Cell.restrict_seq (x : Cell) (keep : Finset ℤ) : (x.restrict keep).seq = keep := by
  unfold restrict
  split
  · rename_i h
    exact h.symm
  · split
    · rename_i h
      rw [h]
      rfl
    · rfl

lemma Cell.restrict_of_mem {x : Cell} {keep : Finset ℤ} {s : ℤ} (hs : s ∈ keep) :
    x.restrict keep = { x with seq := keep } := by
  have hne : keep ≠ ∅ := fun h => by simp [h] at hs
  unfold restrict
  split
  · rename_i h
    rw [h]
  · rfl

lemma Cell.restrict_pos {x : Cell} {keep : Finset ℤ} {s : ℤ} (hs : s ∈ keep) :
    (x.restrict keep).pos = x.pos := by rw [restrict_of_mem hs]

lemma Cell.restrict_seqRm {x : Cell} {keep : Finset ℤ} (hsub : keep ⊆ x.seq) {s : ℤ}
    (hs : s ∈ keep) : (x.restrict keep).seqRm s = x.restrict (keep.erase s) := by
  have hne : keep ≠ ∅ := fun h => by simp [h] at hs
  have hne' : keep.erase s ≠ x.seq := fun h => by
    have := h ▸ hsub hs
    simp at this
  by_cases he : keep.erase s = ∅
  · have hx : (∅ : Finset ℤ) ≠ x.seq := fun h => by
      have := hsub hs
      rw [← h] at this
      simp at this
    have hr : x.restrict ∅ = .empty := by rw [restrict, if_neg hx, if_pos rfl]
    rw [he, hr, Cell.seqRm, restrict_seq, if_pos he]
  · by_cases hk : keep = x.seq
    · subst hk
      simp [Cell.seqRm, restrict, hne']
    · simp [Cell.seqRm, restrict, hk, hne, hne']

namespace KvCache

/-- **One round of the purge** takes the sequence out of every cell at or below the largest
overwritten position. -/
theorem purgeSeq_spec {s : ℤ} {maxRm : ℤ → ℤ} (hwf : (kv.cellsOf s).WF) (hs : 0 ≤ s)
    (hm : -1 ≤ maxRm s) :
    Swept (kv.prm.seqToStream s)
      (fun j x => if j < (kv.cellsOf s).size ∧ s ∈ x.seq ∧ x.pos ≤ maxRm s then x.seqRm s else x) 0
      kv (purgeSeq maxRm kv s) := by
  have hnone : (∀ j < (kv.cellsOf s).size, s ∈ (kv.cellsOf s).seq j →
      ¬ (kv.cellsOf s).pos j ≤ maxRm s) → Swept (kv.prm.seqToStream s)
      (fun j x => if j < (kv.cellsOf s).size ∧ s ∈ x.seq ∧ x.pos ≤ maxRm s then x.seqRm s else x) 0
      kv kv := by
    intro hno
    refine (Swept.refl' hwf).congr fun j => ?_
    refine (if_neg ?_).symm
    rintro ⟨hj, hmem, hle⟩
    exact hno j hj hmem hle
  unfold purgeSeq
  by_cases hm1 : maxRm s = -1
  · rw [if_pos hm1]
    refine hnone fun j hj hmem hle => ?_
    have := hwf.pos_nonneg hj hmem
    omega
  · rw [if_neg hm1]
    by_cases hle : kv.seqPosMin s ≤ maxRm s
    · rw [if_pos hle]
      refine (seqRm_spec (kv.seqPosMin s) (maxRm s + 1) hwf hs).congr fun j => ?_
      refine if_congr (and_congr_right fun hj => ?_) rfl rfl
      have hhigh : highBound (maxRm s + 1) = maxRm s + 1 := by
        rw [highBound, if_neg (by omega)]
      constructor
      · rintro ⟨⟨_, hlt⟩, hmem⟩
        exact ⟨hmem, by omega⟩
      · rintro ⟨hmem, hpos⟩
        have h0 := hwf.pos_nonneg hj hmem
        have hmin : kv.seqPosMin s ≤ (kv.cellsOf s).pos j := (hwf.seqPos_bounds hj hmem).1
        have hlow : lowBound (kv.seqPosMin s) ≤ (kv.cellsOf s).pos j := by
          unfold lowBound
          split <;> omega
        exact ⟨⟨hlow, by omega⟩, hmem⟩
    · rw [if_neg hle]
      refine hnone fun j hj hmem hpos => ?_
      have hmin : kv.seqPosMin s ≤ (kv.cellsOf s).pos j := (hwf.seqPos_bounds hj hmem).1
      omega

/-- The sequences of a cell of stream `t` that the purge of the sequences `l` leaves. -/
def keptSeqs (p : KvParams) (maxRm : ℤ → ℤ) (l : List ℤ) (t : ℕ) (x : Cell) : Finset ℤ :=
  x.seq.filter fun s => ¬ (s ∈ l ∧ p.seqToStream s = t ∧ x.pos ≤ maxRm s)

lemma keptSeqs_subset (p : KvParams) (maxRm : ℤ → ℤ) (l : List ℤ) (t : ℕ) (x : Cell) :
    keptSeqs p maxRm l t x ⊆ x.seq := Finset.filter_subset _ _

lemma purge_spec {maxRm : ℤ → ℤ} (hm : ∀ s, -1 ≤ maxRm s) :
    ∀ (l done : List ℤ) {kv0 kv : KvCache}, (∀ s ∈ l, 0 ≤ s) →
      SweptAll (fun t j x => if j < (kv0.vCells t).size then
        x.restrict (keptSeqs kv0.prm maxRm done t x) else x) (fun _ => 0) kv0 kv →
      SweptAll (fun t j x => if j < (kv0.vCells t).size then
        x.restrict (keptSeqs kv0.prm maxRm (done ++ l) t x) else x) (fun _ => 0) kv0
        (l.foldl (purgeSeq maxRm) kv) := by
  intro l
  induction l with
  | nil => intro done kv0 kv _ h; simpa using h
  | cons s l ih =>
    intro done kv0 kv hl h
    have hs := hl s mem_cons_self
    have hstep := (purgeSeq_spec (h.cellsWF _) hs (hm s)).all h.cellsWF
    rw [append_cons done s l]
    refine ih (done ++ [s]) (fun u hu => hl u (mem_cons_of_mem _ hu)) ?_
    refine (h.trans hstep).congr (fun t j => ?_) (fun t => by simp)
    have hsize : (kv.cellsOf s).size = (kv0.vCells (kv.prm.seqToStream s)).size :=
      (h.sweep _).size_eq
    generalize (kv0.vCells t).cell j = x
    by_cases hj : j < (kv0.vCells t).size
    · simp only [if_pos hj]
      set K := keptSeqs kv0.prm maxRm done t x with hK
      by_cases ht : t = kv.prm.seqToStream s
      · have ht0 : kv0.prm.seqToStream s = t := by rw [← h.prm, ht]
        simp only [hsize, ← ht, if_true, hj, true_and, restrict_seq]
        by_cases hrm : s ∈ K ∧ x.pos ≤ maxRm s
        · have hcond : s ∈ K ∧ (x.restrict K).pos ≤ maxRm s :=
            ⟨hrm.1, by rw [restrict_pos hrm.1]; exact hrm.2⟩
          rw [if_pos hcond, restrict_seqRm (keptSeqs_subset _ _ _ _ _) hrm.1]
          congr 1
          ext u
          simp only [keptSeqs, Finset.mem_erase, Finset.mem_filter, mem_append, mem_singleton]
          by_cases hus : u = s
          · subst hus
            simp [ht0, hrm.2]
          · simp [hus]
        · have hcond : ¬ (s ∈ K ∧ (x.restrict K).pos ≤ maxRm s) := by
            rintro ⟨h1, h2⟩
            rw [restrict_pos h1] at h2
            exact hrm ⟨h1, h2⟩
          rw [if_neg hcond]
          congr 1
          ext u
          simp only [hK, keptSeqs, Finset.mem_filter, mem_append]
          by_cases hus : u = s
          · subst hus
            constructor
            · rintro ⟨h1, h2⟩
              refine ⟨h1, fun hbad => hrm ⟨?_, hbad.2.2⟩⟩
              exact Finset.mem_filter.mpr ⟨h1, h2⟩
            · rintro ⟨h1, h2⟩
              exact ⟨h1, fun hbad => h2 ⟨.inl hbad.1, hbad.2⟩⟩
          · simp [hus]
      · have ht0 : ¬ kv0.prm.seqToStream s = t := by
          rw [← h.prm]
          exact fun heq => ht heq.symm
        simp only [if_neg ht]
        congr 1
        ext u
        simp only [hK, keptSeqs]
        by_cases hus : u = s
        · subst hus
          simp [ht0]
        · simp [hus]
    · simp only [if_neg hj]
      by_cases ht : t = kv.prm.seqToStream s
      · simp only [hsize, ← ht, if_true, hj, false_and, if_false]
      · simp only [if_neg ht]

@[simp] lemma moveHeads_vCells (kv : KvCache) (si : SlotInfo) :
    (kv.moveHeads si).vCells = kv.vCells := by
  unfold moveHeads
  induction si.nStream with
  | zero => rfl
  | succ n ih => rw [range_succ, foldl_append]; exact ih

/-- Moving the heads changes nothing else, and the heads stay within the cells. -/
lemma moveHeads_spec (si : SlotInfo) (hwf : kv.CellsWF) (hle : ∀ s < si.nStream,
      (si.idxs.getD s []).getLastD 0 + 1 ≤ (kv.vCells (si.strm.getD s 0)).size) :
    SweptAll (fun _ _ x => x) (fun _ => 0) kv (kv.moveHeads si) := by
  refine Run.foldl_range (fun _ => SweptAll (fun _ _ x => x) (fun _ => 0) kv) (.refl hwf)
    fun n hn kv' h => ?_
  refine ⟨h.prm, h.sweep, h.calls, fun t => ?_, h.kStream, h.vStream, h.scInfo⟩
  by_cases ht : t = si.strm.getD n 0
  · subst ht
    simp only [setHead, update_self]
    have := hle n hn
    omega
  · simp only [setHead, update_of_ne ht]
    exact h.head_le t

/-- `seq_pos_max_rm` after the tokens of a slot were placed. -/
def maxRmOf (kv : KvCache) (si : SlotInfo) (ub : UBatch) : ℤ → ℤ :=
  (si.tokens.foldl (placeToken si ub) (kv, fun _ => -1)).2

/-- **The effect of `apply_ubatch`** on the cells: the tokens are placed, then every cell
loses the sequences of which a position at or above its own was overwritten. -/
theorem applyUbatch_spec {si : SlotInfo} {ub : UBatch} (hwf : kv.CellsWF)
    (hok : TokensOk si ub kv si.tokens) (hnd : (si.tokens.map (slotOf si)).Nodup)
    (hle : ∀ s < si.nStream,
      (si.idxs.getD s []).getLastD 0 + 1 ≤ (kv.vCells (si.strm.getD s 0)).size) :
    SweptAll (fun t j x =>
        let y := placed si ub si.tokens t j x
        if j < (kv.vCells t).size then
          y.restrict (keptSeqs kv.prm (maxRmOf kv si ub) seqIds t y) else y)
      (placedExcess si ub si.tokens) kv (kv.applyUbatch si ub) := by
  have h1 := placeTokens_spec si.tokens (fun _ => -1) hwf hok
  have hm : ∀ s, -1 ≤ maxRmOf kv si ub s := fun s =>
    (placeTokens_maxRm si.tokens (fun _ => -1) hwf hok hnd).2.1 s
  set kv1 := (si.tokens.foldl (placeToken si ub) (kv, fun _ => -1)).1 with hkv1
  have h0 : SweptAll (fun t j x => if j < (kv1.vCells t).size then
      x.restrict (keptSeqs kv1.prm (maxRmOf kv si ub) [] t x) else x) (fun _ => 0) kv1 kv1 := by
    refine (SweptAll.refl h1.cellsWF).congr (fun t j => ?_) (fun _ => rfl)
    simp [keptSeqs]
  have h2 := purge_spec hm seqIds [] (fun s hs => (mem_seqIds.mp hs).1) h0
  have h12 := h1.trans h2
  have hsize : ∀ t, ((seqIds.foldl (purgeSeq (maxRmOf kv si ub)) kv1).vCells t).size =
      (kv.vCells t).size := fun t => (h12.sweep t).size_eq
  have h3 := moveHeads_spec si h2.cellsWF fun s hs => by
    rw [hsize]
    exact hle s hs
  refine (h12.trans h3).congr (fun t j => ?_) (fun t => by simp)
  have hs1 : (kv1.vCells t).size = (kv.vCells t).size := (h1.sweep t).size_eq
  simp only [hs1, h1.prm, nil_append]

end KvCache
end Llama
