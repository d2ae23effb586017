import Llama.KvCache.Place
import Llama.KvCache.Search

/-!
# Undoing a placement

`prepare` saves the cells of a slot with `cp` and puts them back with `set`.  A snapshot has
no shifts: a restored cell keeps the shift it has at that time (`set_spec`).  What the
snapshot does not hold is covered here as well: the cells outside the slot that the purge
reaches, the heads, and the flag `hasShift`.
-/

namespace Llama

open List

/-- A cell without its pending shift. -/
def Cell.unshifted (x : Cell) : Cell := { x with shift := 0 }

lemma Cell.unshifted_eq {x : Cell} : x.unshifted = x ↔ x.shift = 0 := by
  constructor
  · intro h
    rw [← h]
    rfl
  · intro h
    rw [unshifted, ← h]

namespace KvCells

/-! ## `set` -/

/-- **`set` of a snapshot** gives the listed cells back without their shifts, when no shift
is pending for them now. -/
theorem set_spec {c₀ c : KvCells} {idxs : List ℕ} (hwf : c.WF) (hwf₀ : c₀.WF)
    (hidx : ∀ i ∈ idxs, i < c.size ∧ i < c₀.size) (hnd : idxs.Nodup)
    (hshift : ∀ i ∈ idxs, c.shift i = 0) :
    Sweep (fun j x => if j ∈ idxs then (c₀.cell j).unshifted else x) 0 c
      (c.set idxs (c₀.cp idxs)) := by
  have hpfx : ∀ n ≤ idxs.length,
      Sweep (fun j x => if j ∈ idxs.take n then (c₀.cell j).unshifted else x) 0 c
        ((range n).foldl (fun c j => setCell (c₀.cp idxs) c (idxs.getD j 0) j) c) := by
    intro n
    induction n with
    | zero => intro _; exact (Sweep.refl hwf).congr fun j => by simp
    | succ n ih =>
      intro hn
      have h := ih (by omega)
      have hlt : n < idxs.length := by omega
      rw [range_succ, foldl_append]
      simp only [foldl_cons]
      set cn := (range n).foldl (fun c j => setCell (c₀.cp idxs) c (idxs.getD j 0) j) c
      have hget : idxs.getD n 0 = idxs[n] := getD_eq_getElem _ _ hlt
      have hmem : idxs[n] ∈ idxs := getElem_mem hlt
      have htake : idxs.take (n + 1) = idxs.take n ++ [idxs[n]] := take_succ_eq_append_getElem hlt
      have hfresh : idxs[n] ∉ idxs.take n := by
        have := hnd.sublist (take_sublist (n + 1) idxs)
        rw [htake] at this
        exact fun hm => disjoint_of_nodup_append this hm (mem_singleton.mpr rfl)
      have hcell : cn.cell idxs[n] = c.cell idxs[n] := by
        rw [h.cell_eq, if_neg hfresh]
      have hsh : cn.shift idxs[n] = 0 := (congrArg Cell.shift hcell).trans (hshift _ hmem)
      have hi : idxs[n] < cn.size := h.size_eq ▸ (hidx _ hmem).1
      have hsnap : snapCell (c₀.cp idxs) n (cn.shift idxs[n]) = (c₀.cell idxs[n]).unshifted := by
        rw [snapCell_cp hlt, hget, hsh]
        rfl
      have hvalid : (snapCell (c₀.cp idxs) n (cn.shift idxs[n])).Valid := by
        have hv := hwf₀.valid _ (hidx _ hmem).2
        rw [hsnap]
        exact ⟨hv.empty_seq, fun _ => rfl, hv.pos_ge, hv.seq_range⟩
      rw [hget]
      refine (h.trans ((rewrites_setCell h.wf hi hvalid.empty_seq).sweep h.wf hi hvalid)).congr
        fun j => ?_
      rw [hsnap, htake]
      by_cases hj : j = idxs[n]
      · simp only [hj, mem_append, mem_singleton, or_true, if_true]
      · simp only [hj, mem_append, mem_singleton, or_false, if_false]
  have hall := hpfx _ le_rfl
  rw [take_length] at hall
  exact hall

@[simp] lemma hasShift_setCell (other c : KvCells) (i j : ℕ) :
    (setCell other c i j).hasShift = c.hasShift := by
  by_cases hp : c.pos i = -1 <;> by_cases hq : other.pos j = -1 <;>
    simp [setCell, seqPosRm, seqPosAdd, put, hp, hq]

@[simp] lemma hasShift_set (c other : KvCells) (idxs : List ℕ) :
    (c.set idxs other).hasShift = c.hasShift := by
  unfold set
  induction other.size with
  | zero => rfl
  | succ n ih =>
    rw [range_succ]
    simpa using ih

/-- Calls that move no position leave the flag. -/
lemma hasShift_run (c : KvCells) {op : Op}
    (hop : op ≠ .reset ∧ op ≠ .resetShift ∧ (∀ i d, op ≠ .posAdd i d) ∧ ∀ i d, op ≠ .posDiv i d) :
    (c.run op).hasShift = c.hasShift := by
  obtain ⟨h1, h2, h3, h4⟩ := hop
  cases op with
  | reset => exact absurd rfl h1
  | resetShift => exact absurd rfl h2
  | rm i => rfl
  | seqRm i s =>
    by_cases he : (c.seq i).erase s = ∅ <;> simp [run, seqRm, seqPosDec, he]
  | seqKeep i s =>
    by_cases hs : s ∈ c.seq i <;> by_cases hne : (c.seq i).Nonempty <;>
      simp [run, seqKeep, seqPosRm, seqPosInc, put, hs, hne]
  | seqAdd i s => rfl
  | posSet i q => rfl
  | posAdd i d => exact absurd rfl (h3 i d)
  | posDiv i d => exact absurd rfl (h4 i d)
  | extSet i e => rfl
  | set idxs other => exact hasShift_set c other idxs

end KvCells

/-- Cell `j` of stream `t` is one of the slot's. -/
def SlotInfo.Holds (si : SlotInfo) (t j : ℕ) : Prop :=
  ∃ u ∈ si.tokens, KvCache.slotOf si u = (t, j)

instance (si : SlotInfo) (t j : ℕ) : Decidable (si.Holds t j) :=
  inferInstanceAs (Decidable (∃ u ∈ si.tokens, KvCache.slotOf si u = (t, j)))

namespace KvCache

variable {kv : KvCache} {si : SlotInfo}

/-- The cells of a slot are those of its blocks. -/
lemma SlotOk.holds_iff (h : kv.SlotOk si) {t j : ℕ} :
    si.Holds t j ↔ ∃ s < si.nStream, si.strm.getD s 0 = t ∧ j ∈ si.idxs.getD s [] := by
  constructor
  · rintro ⟨u, hu, heq⟩
    refine ⟨u.1, (mem_tokens.mp hu).1, congrArg Prod.fst heq, ?_⟩
    have hj : si.idx u.1 u.2 = j := congrArg Prod.snd heq
    exact hj ▸ h.idx_mem hu
  · rintro ⟨s, hs, rfl, hj⟩
    obtain ⟨ii, hii, rfl⟩ := getElem_of_mem hj
    refine ⟨(s, ii), mem_tokens.mpr ⟨hs, (h.length s hs) ▸ hii⟩, Prod.ext rfl ?_⟩
    exact getD_eq_getElem _ _ hii

/-- What `prepare` saves before it fills a slot. -/
def saved (kv : KvCache) (si : SlotInfo) : PrepState where
  sinfo := si
  vHeadsOld := kv.vHeads
  vCells := (List.range si.nStream).map fun s =>
    (kv.vCells (si.strm.getD s 0)).cp (si.idxs.getD s [])

/-- **One round of the backward loop** gives the cells of the slot back without their
shifts.  The head of the stream of block `s` becomes the old head of stream `s`. -/
theorem restoreState_spec {kvIn : KvCache} (hok : kv.SlotOk si) (hwf : kv.CellsWF)
    (hwfIn : kvIn.CellsWF) (hsize : ∀ t, (kvIn.vCells t).size = (kv.vCells t).size)
    (hshift : ∀ t j, si.Holds t j → (kvIn.vCells t).shift j = 0) :
    let kv' := restoreState (kv.saved si) kvIn
    kv'.prm = kvIn.prm ∧
      (∀ t, KvCells.Sweep (fun j x => if si.Holds t j then ((kv.vCells t).cell j).unshifted else x)
        0 (kvIn.vCells t) (kv'.vCells t)) ∧
      (∀ t, (kv'.vCells t).hasShift = (kvIn.vCells t).hasShift) ∧
      (∀ s < si.nStream, kv'.vHeads (si.strm.getD s 0) = kv.vHeads s) ∧
      ∀ t, (∀ s < si.nStream, si.strm.getD s 0 ≠ t) → kv'.vHeads t = kvIn.vHeads t := by
  -- after the first `n` blocks, those are restored
  have hpfx : ∀ n ≤ si.nStream,
      let kv' := (range n).foldl (fun kv1 s =>
        (kv1.call (si.strm.getD s 0) (.set (si.idxs.getD s [])
          ((kv.saved si).vCells.getD s (.resize 0)))).setHead (si.strm.getD s 0)
            (kv.vHeads s)) kvIn
      kv'.prm = kvIn.prm ∧ (∀ t, KvCells.Sweep (fun j x =>
          if ∃ s < n, si.strm.getD s 0 = t ∧ j ∈ si.idxs.getD s [] then
            ((kv.vCells t).cell j).unshifted else x) 0 (kvIn.vCells t) (kv'.vCells t)) ∧
        (∀ t, (kv'.vCells t).hasShift = (kvIn.vCells t).hasShift) ∧
        (∀ s < n, kv'.vHeads (si.strm.getD s 0) = kv.vHeads s) ∧
        ∀ t, (∀ s < n, si.strm.getD s 0 ≠ t) → kv'.vHeads t = kvIn.vHeads t := by
    intro n
    induction n with
    | zero =>
      intro _
      exact ⟨rfl, fun t => (KvCells.Sweep.refl (hwfIn t)).congr fun j => by simp, fun _ => rfl,
        by simp, fun _ _ => rfl⟩
    | succ n ih =>
      intro hn
      obtain ⟨h1, h2, h3, h4, h5⟩ := ih (by omega)
      simp only [range_succ, foldl_append, foldl_cons, foldl_nil]
      have hlt : n < si.nStream := by omega
      -- earlier blocks belong to other streams
      have hother : ∀ s < n, si.strm.getD s 0 ≠ si.strm.getD n 0 := by
        intro s hs heq
        have hs' : s < si.strm.length := by
          have : si.nStream = si.strm.length := rfl
          omega
        rw [getD_eq_getElem _ _ hs', getD_eq_getElem _ _ hlt] at heq
        have := (hok.strm_nodup.getElem_inj_iff).mp heq
        omega
      have hsnap : (kv.saved si).vCells.getD n (.resize 0) =
          (kv.vCells (si.strm.getD n 0)).cp (si.idxs.getD n []) := by
        rw [getD_eq_getElem _ _ (by simpa [saved] using hlt)]
        simp [saved]
      set strm := si.strm.getD n 0
      have hnone : ∀ j, ¬ ∃ s < n, si.strm.getD s 0 = strm ∧ j ∈ si.idxs.getD s [] := by
        rintro j ⟨s, hs, heq, -⟩
        exact hother s hs heq
      have hset := KvCells.set_spec (h2 strm).wf (hwf strm)
        (fun i hi => by
          have := (hok.cells n hlt).lt_size i hi
          rw [(h2 strm).size_eq, hsize]
          exact ⟨this, this⟩)
        (hok.cells n hlt).nodup
        (fun i hi => by
          have hcell := (h2 strm).cell_eq i
          rw [if_neg (hnone i)] at hcell
          exact (congrArg Cell.shift hcell).trans
            (hshift strm i (hok.holds_iff.mpr ⟨n, hlt, rfl, hi⟩)))
      rw [hsnap]
      refine ⟨h1, fun t => ?_, fun t => ?_, fun s hs => ?_, fun t ht => ?_⟩
      · by_cases ht : t = strm
        · subst ht
          rw [setHead_vCells, call_vCells_self]
          refine ((h2 strm).trans hset).congr fun j => ?_
          rw [if_neg (hnone j)]
          refine if_congr ⟨fun hj => ⟨n, by omega, rfl, hj⟩, ?_⟩ rfl rfl
          rintro ⟨s, hs, heq, hj⟩
          by_cases hsn : s = n
          · exact hsn ▸ hj
          · exact absurd heq (hother s (by omega))
        · rw [setHead_vCells, call_vCells_of_ne _ _ ht]
          refine (h2 t).congr fun j => if_congr ⟨?_, ?_⟩ rfl rfl
          · rintro ⟨s, hs, heq⟩
            exact ⟨s, by omega, heq⟩
          · rintro ⟨s, hs, heq, hj⟩
            by_cases hsn : s = n
            · exact absurd (hsn ▸ heq).symm ht
            · exact ⟨s, by omega, heq, hj⟩
      · by_cases ht : t = strm
        · subst ht
          rw [setHead_vCells, call_vCells_self]
          exact (KvCells.hasShift_set _ _ _).trans (h3 strm)
        · rw [setHead_vCells, call_vCells_of_ne _ _ ht]
          exact h3 t
      · by_cases hsn : s = n
        · subst hsn
          exact Function.update_self ..
        · have hs : s < n := by omega
          simp only [setHead, Function.update_of_ne (hother s hs)]
          exact h4 s hs
      · have hne : t ≠ strm := (ht n (by omega)).symm
        simp only [setHead, Function.update_of_ne hne]
        exact h5 t fun s hs => ht s (by omega)
  obtain ⟨h1, h2, h3, h4, h5⟩ := hpfx si.nStream le_rfl
  refine ⟨h1, fun t => ?_, h3, h4, h5⟩
  exact (h2 t).congr fun j => if_congr hok.holds_iff.symm rfl rfl

/-! ## The flag `hasShift` -/

/-- A call that moves no position leaves the flags. -/
lemma call_hasShift (kv : KvCache) (strm : ℕ) {op : KvCells.Op}
    (hop : op ≠ .reset ∧ op ≠ .resetShift ∧ (∀ i d, op ≠ .posAdd i d) ∧ ∀ i d, op ≠ .posDiv i d)
    (t : ℕ) : ((kv.call strm op).vCells t).hasShift = (kv.vCells t).hasShift := by
  by_cases ht : t = strm
  · subst ht
    rw [call_vCells_self]
    exact KvCells.hasShift_run _ hop
  · rw [call_vCells_of_ne _ _ ht]

lemma addSeqs_hasShift (strm idx : ℕ) (t : ℕ) : ∀ (l : List ℤ) (kv : KvCache),
      ((kv.addSeqs strm idx l).vCells t).hasShift = (kv.vCells t).hasShift := by
  intro l
  induction l with
  | nil => intro kv; rfl
  | cons s l ih =>
    intro kv
    rw [addSeqs_cons, ih]
    exact call_hasShift kv strm (by simp) t

lemma placeToken_hasShift (si : SlotInfo) (ub : UBatch) (st : KvCache × (ℤ → ℤ)) (u : ℕ × ℕ)
    (t : ℕ) : ((placeToken si ub st u).1.vCells t).hasShift = (st.1.vCells t).hasShift := by
  obtain ⟨kv, maxRm⟩ := st
  have hval : (placeToken si ub (kv, maxRm) u).1 =
      (((kv.freeCell (slotOf si u).1 (slotOf si u).2).call (slotOf si u).1
        (.posSet (slotOf si u).2 (ub.pos (tokenIdx si u)))).setExt (slotOf si u).1 (slotOf si u).2
        ub (tokenIdx si u)).addSeqs (slotOf si u).1 (slotOf si u).2 (ub.seqs (tokenIdx si u)) := rfl
  have hfree : ((kv.freeCell (slotOf si u).1 (slotOf si u).2).vCells t).hasShift =
      (kv.vCells t).hasShift := by
    unfold freeCell
    split
    · rfl
    · exact call_hasShift kv _ (by simp) t
  have hext : ∀ kv' : KvCache, ((kv'.setExt (slotOf si u).1 (slotOf si u).2 ub
      (tokenIdx si u)).vCells t).hasShift = (kv'.vCells t).hasShift := by
    intro kv'
    unfold setExt
    split
    · exact call_hasShift kv' _ (by simp) t
    · rfl
  rw [hval, addSeqs_hasShift, hext, call_hasShift _ _ (by simp), hfree]

lemma forCells_hasShift {sel : KvCells → ℕ → Bool} {op : ℕ → KvCells.Op}
    {frees : KvCells → ℕ → Bool} (hop : ∀ i, op i ≠ .reset ∧ op i ≠ .resetShift ∧
      (∀ j d, op i ≠ .posAdd j d) ∧ ∀ j d, op i ≠ .posDiv j d) (kv : KvCache) (strm t : ℕ) :
    ((kv.forCells strm sel op frees).1.vCells t).hasShift = (kv.vCells t).hasShift := by
  refine Run.foldl_range (fun _ (r : KvCache × ℕ) => (r.1.vCells t).hasShift =
    (kv.vCells t).hasShift) rfl fun n _ r h => ?_
  dsimp only
  split
  · exact (call_hasShift _ _ (hop n) t).trans h
  · exact h

lemma lowerHead_vCells (kv : KvCache) (strm newHead : ℕ) :
    (kv.lowerHead strm newHead).vCells = kv.vCells := by
  unfold lowerHead
  split <;> rfl

lemma purgeSeq_hasShift (maxRm : ℤ → ℤ) (kv : KvCache) {s : ℤ} (hs : 0 ≤ s) (t : ℕ) :
    ((purgeSeq maxRm kv s).vCells t).hasShift = (kv.vCells t).hasShift := by
  unfold purgeSeq
  split
  · rfl
  · split
    · simp only [seqRm, if_pos hs, lowerHead_vCells]
      exact forCells_hasShift (fun i => by simp) kv _ t
    · rfl

/-- **A placement leaves the flags.** -/
theorem applyUbatch_hasShift (kv : KvCache) (si : SlotInfo) (ub : UBatch) (t : ℕ) :
    ((kv.applyUbatch si ub).vCells t).hasShift = (kv.vCells t).hasShift := by
  have hplace : ∀ (us : List (ℕ × ℕ)) (st : KvCache × (ℤ → ℤ)),
      ((us.foldl (placeToken si ub) st).1.vCells t).hasShift = (st.1.vCells t).hasShift := by
    intro us
    induction us with
    | nil => intro st; rfl
    | cons u us ih => intro st; rw [foldl_cons, ih, placeToken_hasShift]
  have hpurge : ∀ (maxRm : ℤ → ℤ) (l : List ℤ) (kv : KvCache), (∀ s ∈ l, 0 ≤ s) →
      ((l.foldl (purgeSeq maxRm) kv).vCells t).hasShift = (kv.vCells t).hasShift := by
    intro maxRm l
    induction l with
    | nil => intro kv _; rfl
    | cons s l ih =>
      intro kv hl
      rw [foldl_cons, ih _ fun u hu => hl u (mem_cons_of_mem _ hu)]
      exact purgeSeq_hasShift maxRm kv (hl s mem_cons_self) t
  simp only [applyUbatch, moveHeads_vCells]
  rw [hpurge _ _ _ fun s hs => (mem_seqIds.mp hs).1, hplace]

/-! ## The heads -/

/-- A loop that selects no cell does nothing. -/
lemma forCells_eq_self {strm : ℕ} {sel : KvCells → ℕ → Bool} {op : ℕ → KvCells.Op}
    {frees : KvCells → ℕ → Bool} (h : ∀ i < (kv.vCells strm).size, sel (kv.vCells strm) i = false) :
    kv.forCells strm sel op frees = (kv, (kv.vCells strm).size) := by
  refine Run.foldl_range (fun _ r => r = (kv, (kv.vCells strm).size)) rfl fun n hn r hr => ?_
  rw [hr]
  simp [h n hn]

/-- `seq_rm` that finds no cell does nothing. -/
lemma seqRm_eq_self {s p0 p1 : ℤ} (hs : 0 ≤ s) (h : ∀ i < (kv.cellsOf s).size,
      ¬ inRange s (lowBound p0) (highBound p1) ((kv.cellsOf s).cell i)) :
    kv.seqRm s p0 p1 = kv := by
  have hloop : kv.rmSeqLoop s (lowBound p0) (highBound p1) = (kv, (kv.cellsOf s).size) := by
    refine forCells_eq_self fun i hi => ?_
    by_contra hne
    exact h i hi ((sel_iff s _ _ _ i).mp (eq_true_of_ne_false hne))
  simp only [seqRm, if_pos hs, hloop, lowerHead, cellsOf, ne_eq, not_true, false_and, if_false]

/-- Where the purge finds nothing, a stream and its head stay as they are. -/
lemma purge_frame {maxRm : ℤ → ℤ} (hm : ∀ s, -1 ≤ maxRm s) (t : ℕ) :
    ∀ (l : List ℤ) (kv : KvCache), (∀ s ∈ l, 0 ≤ s) → kv.CellsWF →
      (∀ j < (kv.vCells t).size, ∀ s ∈ (kv.vCells t).seq j, s ∈ l → kv.prm.seqToStream s = t →
        maxRm s < (kv.vCells t).pos j) →
      (l.foldl (purgeSeq maxRm) kv).vCells t = kv.vCells t ∧
        (l.foldl (purgeSeq maxRm) kv).vHeads t = kv.vHeads t := by
  intro l
  induction l with
  | nil => intro kv _ _ _; exact ⟨rfl, rfl⟩
  | cons s l ih =>
    intro kv hl hwf hno
    have hs := hl s mem_cons_self
    have hstep := purgeSeq_spec (hwf _) hs (hm s)
    have hsame : (purgeSeq maxRm kv s).vCells t = kv.vCells t ∧
        (purgeSeq maxRm kv s).vHeads t = kv.vHeads t := by
      by_cases ht : t = kv.prm.seqToStream s
      · have hself : purgeSeq maxRm kv s = kv := by
          unfold purgeSeq
          by_cases h1 : maxRm s = -1
          · rw [if_pos h1]
          · rw [if_neg h1]
            split
            · refine seqRm_eq_self hs fun i hi hin => ?_
              have hmi := hm s
              have hhigh : highBound (maxRm s + 1) = maxRm s + 1 := by
                rw [highBound, if_neg (by omega)]
              obtain ⟨⟨-, hlt⟩, hmem⟩ := hin
              rw [hhigh] at hlt
              have hlt : (kv.cellsOf s).pos i < maxRm s + 1 := hlt
              have hgt := hno i (by rw [ht]; exact hi) s (by rw [ht]; exact hmem)
                mem_cons_self ht.symm
              have hgt : maxRm s < (kv.cellsOf s).pos i := by
                rw [ht] at hgt
                exact hgt
              omega
            · rfl
        rw [hself]
        exact ⟨rfl, rfl⟩
      · exact ⟨hstep.cells t ht, hstep.heads t ht⟩
    obtain ⟨h1, h2⟩ := hsame
    obtain ⟨h3, h4⟩ := ih _ (fun u hu => hl u (mem_cons_of_mem _ hu))
      (hstep.all hwf).cellsWF (by
        rw [h1, hstep.prm]
        exact fun j hj u hu hul => hno j hj u hu (mem_cons_of_mem _ hul))
    exact ⟨h3.trans h1, h4.trans h2⟩

lemma addSeqs_vHeads (strm idx : ℕ) :
    ∀ (l : List ℤ) (kv : KvCache), (kv.addSeqs strm idx l).vHeads = kv.vHeads := by
  intro l
  induction l with
  | nil => intro kv; rfl
  | cons s l ih => intro kv; rw [addSeqs_cons, ih]; rfl

/-- Placing tokens moves no head. -/
lemma placeTokens_vHeads (si : SlotInfo) (ub : UBatch) :
    ∀ (us : List (ℕ × ℕ)) (st : KvCache × (ℤ → ℤ)),
      (us.foldl (placeToken si ub) st).1.vHeads = st.1.vHeads := by
  intro us
  induction us with
  | nil => intro st; rfl
  | cons u us ih =>
    intro st
    rw [foldl_cons, ih]
    simp only [placeToken, addSeqs_vHeads, setExt, freeCell]
    split <;> split <;> rfl

lemma moveHeads_vHeads {t : ℕ} (ht : ∀ s < si.nStream, si.strm.getD s 0 ≠ t) :
    (kv.moveHeads si).vHeads t = kv.vHeads t := by
  refine Run.foldl_range (fun _ (r : KvCache) => r.vHeads t = kv.vHeads t) rfl
    fun n hn r hr => ?_
  simp only [setHead, Function.update_of_ne (ht n hn).symm]
  exact hr

/-! ## A placement, seen from outside its slot -/

/-- The slot takes a cell of sequence `s` at position `p` or above. -/
def Overwrites (kv : KvCache) (si : SlotInfo) (s p : ℤ) : Prop :=
  ∃ u ∈ si.tokens, (kv.vCells (slotOf si u).1).pos (slotOf si u).2 ≠ -1 ∧
    (kv.vCells (slotOf si u).1).seqGet (slotOf si u).2 = s ∧
    p ≤ (kv.vCells (slotOf si u).1).pos (slotOf si u).2

/-- Filling the slot purges a sequence from cell `j` of stream `t`. -/
def Purges (kv : KvCache) (si : SlotInfo) (t j : ℕ) : Prop :=
  ∃ s ∈ (kv.vCells t).seq j, kv.prm.seqToStream s = t ∧ kv.Overwrites si s ((kv.vCells t).pos j)

lemma le_maxRmOf_iff {ub : UBatch} (hwf : kv.CellsWF) (htoks : TokensOk si ub kv si.tokens)
    (hnd : (si.tokens.map (slotOf si)).Nodup) {s p : ℤ} (hp : 0 ≤ p) :
    p ≤ kv.maxRmOf si ub s ↔ kv.Overwrites si s p := by
  obtain ⟨h1, -, h3⟩ := placeTokens_maxRm si.tokens (fun _ => -1) hwf htoks hnd
  constructor
  · intro hle
    rcases h1 s with heq | ⟨u, hu, hne, hget, heq⟩
    · have heq : kv.maxRmOf si ub s = -1 := heq
      omega
    · exact ⟨u, hu, hne, hget, heq ▸ hle⟩
  · rintro ⟨u, hu, hne, hget, hle⟩
    exact hle.trans (hget ▸ h3 u hu hne)

/-- What a placement leaves: the placed cells have no shift; outside the slot cells only
lose the purged sequences; and other streams keep their heads if nothing of them is
purged. -/
structure Placed (kv : KvCache) (si : SlotInfo) (ub : UBatch) (kv' : KvCache) : Prop where
  prm : kv'.prm = kv.prm
  wf : kv'.CellsWF
  size : ∀ t, (kv'.vCells t).size = (kv.vCells t).size
  hasShift : ∀ t, (kv'.vCells t).hasShift = (kv.vCells t).hasShift
  head_le : ∀ t, kv'.vHeads t ≤ max (kv.vHeads t) (kv.vCells t).size
  excess : ∀ t s p, ((kv'.vCells t).seqPos s).count p + (kv.vCells t).cellCount s p =
    ((kv.vCells t).seqPos s).count p + (kv'.vCells t).cellCount s p +
      placedExcess si ub si.tokens t s p
  shift_holds : ∀ t j, si.Holds t j → (kv'.vCells t).shift j = 0
  shift_zero : ∀ t j, (kv.vCells t).shift j = 0 → (kv'.vCells t).shift j = 0
  seq_subset : ∀ t j, ¬ si.Holds t j → (kv'.vCells t).seq j ⊆ (kv.vCells t).seq j
  cell_eq : ∀ t j, ¬ si.Holds t j → (j < (kv.vCells t).size → ¬ kv.Purges si t j) →
    (kv'.vCells t).cell j = (kv.vCells t).cell j
  seq_ne : ∀ t, ∀ j < (kv.vCells t).size, ¬ si.Holds t j → kv.Purges si t j →
    (kv'.vCells t).seq j ≠ (kv.vCells t).seq j
  head_eq : ∀ t, (∀ s < si.nStream, si.strm.getD s 0 ≠ t) → (∀ j < (kv.vCells t).size,
    ¬ kv.Purges si t j) → kv'.vHeads t = kv.vHeads t

lemma Cell.restrict_shift {x : Cell} (keep : Finset ℤ) (h : x.shift = 0) :
    (x.restrict keep).shift = 0 := by
  unfold Cell.restrict
  split
  · exact h
  · split
    · rfl
    · exact h

lemma applyUbatch_placed {ub : UBatch} (hwf : kv.CellsWF) (hok : kv.SlotOk si)
    (htoks : TokensOk si ub kv si.tokens) : Placed kv si ub (kv.applyUbatch si ub) := by
  have happ := applyUbatch_spec hwf htoks hok.nodup hok.last_le
  have hout : ∀ t j, ¬ si.Holds t j → ∀ x, placed si ub si.tokens t j x = x := by
    intro t j hno x
    exact placed_of_notMem x fun u hu heq => hno ⟨u, hu, heq⟩
  -- a cell outside the slot keeps the sequences that are not purged
  have hkept : ∀ t, ∀ j < (kv.vCells t).size,
      keptSeqs kv.prm (kv.maxRmOf si ub) seqIds t ((kv.vCells t).cell j) =
        (kv.vCells t).seq j ↔ ¬ kv.Purges si t j := by
    intro t j hj
    rw [keptSeqs, show ((kv.vCells t).cell j).seq = (kv.vCells t).seq j from rfl,
      Finset.filter_eq_self]
    constructor
    · rintro hall ⟨s, hs, hst, hover⟩
      have hrange := ((hwf t).valid j hj).seq_range s hs
      refine hall s hs ⟨mem_seqIds.mpr hrange, hst, ?_⟩
      exact (le_maxRmOf_iff hwf htoks hok.nodup ((hwf t).pos_nonneg hj hs)).mpr hover
    · rintro hno s hs ⟨-, hst, hle⟩
      exact hno ⟨s, hs, hst, (le_maxRmOf_iff hwf htoks hok.nodup ((hwf t).pos_nonneg hj hs)).mp hle⟩
  have hcell : ∀ t j, ¬ si.Holds t j → ((kv.applyUbatch si ub).vCells t).cell j =
      if j < (kv.vCells t).size then ((kv.vCells t).cell j).restrict
        (keptSeqs kv.prm (kv.maxRmOf si ub) seqIds t ((kv.vCells t).cell j))
      else (kv.vCells t).cell j := by
    intro t j hno
    rw [(happ.sweep t).cell_eq]
    simp only [hout t j hno]
  have hshift : ∀ t j x, x.shift = 0 → (if j < (kv.vCells t).size then Cell.restrict x
      (keptSeqs kv.prm (kv.maxRmOf si ub) seqIds t x) else x).shift = 0 := by
    intro t j x hx
    split
    · exact Cell.restrict_shift _ hx
    · exact hx
  refine ⟨happ.prm, happ.cellsWF, fun t => (happ.sweep t).size_eq, applyUbatch_hasShift kv si ub,
    happ.head_le, fun t => (happ.sweep t).excess, ?_, ?_, ?_, ?_, ?_, ?_⟩
  · rintro t j ⟨u, hu, heq⟩
    have hval := placed_of_mem ub ((kv.vCells t).cell j) hok.nodup hu
    rw [heq] at hval
    have hc := (happ.sweep t).cell_eq j
    simp only [hval] at hc
    exact (congrArg Cell.shift hc).trans (hshift t j _ rfl)
  · intro t j h0
    have hc := (happ.sweep t).cell_eq j
    refine (congrArg Cell.shift hc).trans (hshift t j _ ?_)
    rcases placed_cases ub hok.nodup t j ((kv.vCells t).cell j) with
      ⟨u, -, -, hval⟩ | ⟨-, hval⟩
    · rw [hval]
      rfl
    · rw [hval]
      exact h0
  · intro t j hno
    have hc := congrArg Cell.seq (hcell t j hno)
    have hc : ((kv.applyUbatch si ub).vCells t).seq j = _ := hc
    rw [hc]
    split
    · rw [Cell.restrict_seq]
      exact keptSeqs_subset _ _ _ _ _
    · exact subset_rfl
  · intro t j hno hnp
    rw [hcell t j hno]
    split
    · rename_i hj
      rw [(hkept t j hj).mpr (hnp hj)]
      exact Cell.restrict_self _
    · rfl
  · intro t j hj hno hp heq
    have hc := congrArg Cell.seq (hcell t j hno)
    rw [if_pos hj, Cell.restrict_seq] at hc
    exact (hkept t j hj).mp (hc.symm.trans heq) hp
  · intro t hstrm hnp
    have hno : ∀ j, ¬ si.Holds t j := by
      rintro j ⟨u, hu, heq⟩
      exact hstrm u.1 (mem_tokens.mp hu).1 (congrArg Prod.fst heq)
    set kv1 := (si.tokens.foldl (placeToken si ub) (kv, fun _ => -1)).1
    have h1 := placeTokens_spec si.tokens (fun _ => -1) hwf htoks
    have hm : ∀ s, -1 ≤ kv.maxRmOf si ub s := fun s =>
      (placeTokens_maxRm si.tokens (fun _ => -1) hwf htoks hok.nodup).2.1 s
    have hcell1 : ∀ j, (kv1.vCells t).cell j = (kv.vCells t).cell j := fun j => by
      rw [(h1.sweep t).cell_eq]
      exact hout t j (hno j) _
    have hsize1 : (kv1.vCells t).size = (kv.vCells t).size := (h1.sweep t).size_eq
    obtain ⟨-, h2⟩ := purge_frame hm t seqIds kv1 (fun s hs => (mem_seqIds.mp hs).1)
      h1.cellsWF (by
        intro j hj s hs _ hst
        have hs : s ∈ (kv.vCells t).seq j := by
          have : (kv1.vCells t).seq j = (kv.vCells t).seq j := congrArg Cell.seq (hcell1 j)
          exact this ▸ hs
        have hpos : (kv1.vCells t).pos j = (kv.vCells t).pos j := congrArg Cell.pos (hcell1 j)
        rw [hsize1] at hj
        rw [hpos]
        by_contra hle
        refine hnp j hj ⟨s, hs, h1.prm ▸ hst, ?_⟩
        exact (le_maxRmOf_iff hwf htoks hok.nodup ((hwf t).pos_nonneg hj hs)).mp (not_lt.mp hle))
    have hheads : kv1.vHeads = kv.vHeads := placeTokens_vHeads si ub si.tokens _
    calc (kv.applyUbatch si ub).vHeads t
      _ = (seqIds.foldl (purgeSeq (kv.maxRmOf si ub)) kv1).vHeads t := moveHeads_vHeads hstrm
      _ = kv1.vHeads t := h2
      _ = kv.vHeads t := by rw [hheads]

end KvCache
end Llama
