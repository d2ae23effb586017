import Llama.KvCache.CellLoops
import Llama.KvCache.Rows

/-!
# Copies between streams

`seq_cp` between two streams copies the cells of the source sequence at once and queues the
copy of the tensors, which `update` makes.  Both copy everything: the range is only tested
for being wide enough.  `seqCp_across_iff` says when the outcome is that of the range.
-/

namespace Llama.KvCache

open List KvCells

/-! ## The queue -/

/-- The tensor copies of layer `l` for a queued pair of streams. -/
def copyLayer (e : ℕ × ℕ) (kv : KvCache) (l : KvLayer × ℕ) : KvCache :=
  let kv := modifyK l.2 e.2 (fun _ => kv.kStream l.2 e.1) kv
  if l.1.v.isSome then modifyV l.2 e.2 (fun _ => kv.vStream l.2 e.1) kv else kv

/-- The tensor copies for a queued pair of streams. -/
def copyStream (kv : KvCache) (e : ℕ × ℕ) : KvCache :=
  kv.prm.layers.zipIdx.foldl (copyLayer e) kv

/-- The part of `update` that makes the queued copies, in order. -/
def copyStreams (kv : KvCache) : KvCache := { kv.scInfo.foldl copyStream kv with scInfo := [] }

/-- Only the tensors changed. -/
structure OnTensors (kv kv' : KvCache) : Prop where
  prm : kv'.prm = kv.prm
  vCells : kv'.vCells = kv.vCells

variable {kv kv' : KvCache}

lemma OnTensors.trans {kv'' : KvCache} (h : OnTensors kv kv') (h' : OnTensors kv' kv'') :
    OnTensors kv kv'' := ⟨h'.prm.trans h.prm, h'.vCells.trans h.vCells⟩

lemma onTensors_copyLayer (e : ℕ × ℕ) (kv : KvCache) (l : KvLayer × ℕ) :
    OnTensors kv (copyLayer e kv l) := by
  unfold copyLayer
  split <;> exact ⟨rfl, rfl⟩

lemma onTensors_foldl {α : Type} {step : KvCache → α → KvCache}
    (hstep : ∀ kv a, OnTensors kv (step kv a)) (as : List α) (kv : KvCache) :
    OnTensors kv (as.foldl step kv) := by
  induction as generalizing kv with
  | nil => exact ⟨rfl, rfl⟩
  | cons a as ih => exact (hstep kv a).trans (ih (step kv a))

lemma onTensors_copyStream (kv : KvCache) (e : ℕ × ℕ) : OnTensors kv (kv.copyStream e) :=
  onTensors_foldl (onTensors_copyLayer e) _ kv

/-- The copies of the layers in `ls` have been made, of those alone, and of V where a layer
has one. -/
structure LayersCopied (e : ℕ × ℕ) (ls : List (KvLayer × ℕ)) (kv kv' : KvCache) : Prop where
  kDst : ∀ l ∈ ls, kv'.kStream l.2 e.2 = kv.kStream l.2 e.1
  vDst : ∀ l ∈ ls, l.1.v.isSome = true → kv'.vStream l.2 e.2 = kv.vStream l.2 e.1
  kRest : ∀ il t, (t ≠ e.2 ∨ ∀ l ∈ ls, l.2 ≠ il) → kv'.kStream il t = kv.kStream il t
  vRest : ∀ il t, (t ≠ e.2 ∨ ∀ l ∈ ls, l.2 ≠ il) → kv'.vStream il t = kv.vStream il t

lemma copyLayer_kStream (e : ℕ × ℕ) (kv : KvCache) (l : KvLayer × ℕ) (il t : ℕ) :
    (copyLayer e kv l).kStream il t =
      if il = l.2 ∧ t = e.2 then kv.kStream l.2 e.1 else kv.kStream il t := by
  unfold copyLayer
  split <;> rfl

lemma copyLayer_vStream (e : ℕ × ℕ) (kv : KvCache) (l : KvLayer × ℕ) (il t : ℕ) :
    (copyLayer e kv l).vStream il t =
      if l.1.v.isSome = true ∧ il = l.2 ∧ t = e.2 then kv.vStream l.2 e.1
      else kv.vStream il t := by
  unfold copyLayer
  split <;> rename_i hv
  · simp only [hv, true_and]
    rfl
  · simp only [hv]
    rfl

lemma layersCopied_foldl {e : ℕ × ℕ} (hne : e.1 ≠ e.2) (ls : List (KvLayer × ℕ))
    (hls : (ls.map (·.2)).Nodup) (kv : KvCache) :
    LayersCopied e ls kv (ls.foldl (copyLayer e) kv) := by
  induction ls generalizing kv with
  | nil => exact ⟨by simp, by simp, fun _ _ _ => rfl, fun _ _ _ => rfl⟩
  | cons l ls ih =>
    rw [map_cons, nodup_cons] at hls
    obtain ⟨hnot, hls⟩ := hls
    have hother : ∀ m ∈ ls, m.2 ≠ l.2 := fun m hm heq =>
      hnot (heq ▸ mem_map_of_mem (f := fun x : KvLayer × ℕ => x.2) hm)
    have h := ih hls (copyLayer e kv l)
    refine ⟨fun m hm => ?_, fun m hm hv => ?_, fun il t ht => ?_, fun il t ht => ?_⟩
    · rcases mem_cons.mp hm with rfl | hm
      · rw [foldl_cons, h.kRest _ _ (.inr hother), copyLayer_kStream, if_pos ⟨rfl, rfl⟩]
      · rw [foldl_cons, h.kDst m hm, copyLayer_kStream, if_neg (fun hc => hne hc.2)]
    · rcases mem_cons.mp hm with rfl | hm
      · rw [foldl_cons, h.vRest _ _ (.inr hother), copyLayer_vStream, if_pos ⟨hv, rfl, rfl⟩]
      · rw [foldl_cons, h.vDst m hm hv, copyLayer_vStream, if_neg (fun hc => hne hc.2.2)]
    · have htail : t ≠ e.2 ∨ ∀ m ∈ ls, m.2 ≠ il :=
        ht.imp_right fun hall m hm => hall m (mem_cons_of_mem _ hm)
      rw [foldl_cons, h.kRest il t htail, copyLayer_kStream, if_neg]
      rintro ⟨rfl, rfl⟩
      rcases ht with ht | ht
      · exact ht rfl
      · exact ht l mem_cons_self rfl
    · have htail : t ≠ e.2 ∨ ∀ m ∈ ls, m.2 ≠ il :=
        ht.imp_right fun hall m hm => hall m (mem_cons_of_mem _ hm)
      rw [foldl_cons, h.vRest il t htail, copyLayer_vStream, if_neg]
      rintro ⟨-, rfl, rfl⟩
      rcases ht with ht | ht
      · exact ht rfl
      · exact ht l mem_cons_self rfl

/-- **A queued copy** gives each cell of the destination the rows of the source. -/
theorem copyStream_rows {e : ℕ × ℕ} (hne : e.1 ≠ e.2)
    (hsize : (kv.vCells e.2).size = (kv.vCells e.1).size) (j : ℕ) :
    (kv.copyStream e).kRows e.2 j = kv.kRows e.1 j ∧
      (kv.copyStream e).vRows e.2 j = kv.vRows e.1 j := by
  have hon := onTensors_copyStream kv e
  have hnodup : (kv.prm.layers.zipIdx.map (·.2)).Nodup := by
    rw [zipIdx_map_snd]
    exact nodup_range' ..
  have h := layersCopied_foldl hne kv.prm.layers.zipIdx hnodup kv
  constructor
  · rw [kRows, hon.prm]
    refine map_congr_left fun l hl => ?_
    rw [copyStream, h.kDst l hl]
  · rw [vRows, hon.prm]
    refine map_congr_left fun l hl => ?_
    cases hv : l.1.v with
    | none => simp only [vRow, hv]
    | some v =>
      have hsome : l.1.v.isSome = true := by rw [hv]; rfl
      have hval : (kv.copyStream e).vStream l.2 e.2 = kv.vStream l.2 e.1 := h.vDst l hl hsome
      simp only [vRow, hval, hon.prm, hon.vCells, hsize]

/-- The same configuration and tensors; the cells may differ. -/
structure SameTensors (kv kv' : KvCache) : Prop where
  prm : kv'.prm = kv.prm
  kStream : kv'.kStream = kv.kStream
  vStream : kv'.vStream = kv.vStream

lemma SameTensors.copyLayer (h : SameTensors kv kv') (e : ℕ × ℕ) (l : KvLayer × ℕ) :
    SameTensors (copyLayer e kv l) (copyLayer e kv' l) := by
  refine ⟨?_, ?_, ?_⟩
  · rw [(onTensors_copyLayer e kv' l).prm, (onTensors_copyLayer e kv l).prm, h.prm]
  · funext il t
    rw [copyLayer_kStream, copyLayer_kStream, h.kStream]
  · funext il t
    rw [copyLayer_vStream, copyLayer_vStream, h.vStream]

lemma SameTensors.foldl {α : Type} {step : KvCache → α → KvCache}
    (hstep : ∀ kv kv' a, SameTensors kv kv' → SameTensors (step kv a) (step kv' a)) (as : List α)
    (h : SameTensors kv kv') : SameTensors (as.foldl step kv) (as.foldl step kv') := by
  induction as generalizing kv kv' with
  | nil => exact h
  | cons a as ih => exact ih (hstep kv kv' a h)

lemma SameTensors.copyStream (h : SameTensors kv kv') (e : ℕ × ℕ) :
    SameTensors (kv.copyStream e) (kv'.copyStream e) := by
  unfold KvCache.copyStream
  rw [h.prm]
  exact SameTensors.foldl (fun _ _ l h => h.copyLayer e l) _ h

lemma SameTensors.rows (h : SameTensors kv kv') {t : ℕ}
    (hsize : (kv'.vCells t).size = (kv.vCells t).size) (j : ℕ) :
    kv'.kRows t j = kv.kRows t j ∧ kv'.vRows t j = kv.vRows t j := by
  have hrow : ∀ l, kv'.vRow t j l = kv.vRow t j l := fun l => by
    unfold vRow
    rw [h.prm, h.vStream, hsize]
  constructor
  · rw [kRows, kRows, h.prm, h.kStream]
  · rw [vRows, h.prm]
    exact map_congr_left fun l _ => hrow l

/-- One cell of a copy between streams, into an empty cell. -/
lemma cpCell_cell (kv : KvCache) (s0 : ℕ) {s1 : ℕ} (i : ℕ) (src dst : ℤ)
    (hempty : (kv.vCells s1).cell i = .empty)
    (hpos : src ∈ (kv.vCells s0).seq i → 0 ≤ (kv.vCells s0).pos i) :
    CellsBy s1 (fun j x => if j = i ∧ src ∈ (kv.vCells s0).seq i then
      copied dst ((kv.vCells s0).cell i) else x) kv (cpCell s0 s1 src dst kv i) := by
  by_cases hmem : src ∈ (kv.vCells s0).seq i
  · have hpos := hpos hmem
    set pos := (kv.vCells s0).pos i with hposdef
    set sh := (kv.vCells s0).shift i with hshdef
    set ext := (kv.vCells s0).ext i with hextdef
    -- the position without the pending shift
    set p := if sh ≠ 0 then pos - sh else pos with hp
    set kv1 := (kv.call s1 (.posSet i p)).call s1 (.seqAdd i dst) with hkv1
    have hval : cpCell s0 s1 src dst kv i =
        (if sh ≠ 0 then kv1.call s1 (.posAdd i sh) else kv1).call s1 (.extSet i ext) := by
      simp only [cpCell, seqHas, hmem]
      rfl
    have h1 : CellsBy s1 (fun j x => if j = i then ⟨p, .zero, 0, {dst}⟩ else x) kv kv1 := by
      refine ((cellsBy_call kv s1 i (local_posSet p)).trans'
        (cellsBy_call _ s1 i (local_seqAdd dst))).congr fun j => ?_
      by_cases hj : j = i
      · subst hj
        simp only [hempty]
        simp [Cell.seqAdd, Cell.empty]
      · simp only [if_neg hj]
    -- the shift is pending again
    have h2 : CellsBy s1 (fun j x => if j = i then ⟨pos, .zero, sh, {dst}⟩ else x) kv
        (if sh ≠ 0 then kv1.call s1 (.posAdd i sh) else kv1) := by
      by_cases hsh : sh = 0
      · rw [if_neg (not_not.mpr hsh)]
        refine h1.congr fun j => ?_
        by_cases hj : j = i
        · rw [if_pos hj, if_pos hj, hp, if_neg (not_not.mpr hsh), hsh]
        · rw [if_neg hj, if_neg hj]
      · rw [if_pos hsh]
        refine (h1.trans' (cellsBy_call kv1 s1 i (local_posAdd sh))).congr fun j => ?_
        by_cases hj : j = i
        · have hback : p + sh = pos := by
            omega
          simp only [if_pos hj, Cell.posAdd, hback]
          rw [if_neg (by omega)]
          simp
        · simp only [if_neg hj]
    rw [hval]
    refine (h2.trans' (cellsBy_call _ s1 i (local_extSet ext))).congr fun j => ?_
    by_cases hj : j = i
    · simp only [hj, hmem]
      rfl
    · simp only [hj, false_and, if_false]
  · have hval : cpCell s0 s1 src dst kv i = kv := by
      simp [cpCell, seqHas, hmem]
    rw [hval]
    refine (CellsBy.refl' s1 kv).congr fun j => ?_
    simp [hmem]

/-- **A copy between streams** leaves in the destination stream the cells of the source
sequence, all of them, and queues the copy of the tensors. -/
theorem seqCp_across_cell {kv : KvCache} {src dst : ℤ} (p0 p1 : ℤ)
    (hne : kv.prm.seqToStream src ≠ kv.prm.seqToStream dst)
    (hpos : ∀ i < (kv.cellsOf src).size, src ∈ (kv.cellsOf src).seq i →
      0 ≤ (kv.cellsOf src).pos i) :
    SameTensors kv (kv.seqCp src dst p0 p1) ∧ (kv.seqCp src dst p0 p1).scInfo =
        kv.scInfo ++ [(kv.prm.seqToStream src, kv.prm.seqToStream dst)] ∧
      (∀ t, t ≠ kv.prm.seqToStream dst → (kv.seqCp src dst p0 p1).vCells t = kv.vCells t) ∧
      ((kv.seqCp src dst p0 p1).vCells (kv.prm.seqToStream dst)).size = (kv.cellsOf dst).size ∧
      ∀ j, ((kv.seqCp src dst p0 p1).vCells (kv.prm.seqToStream dst)).cell j =
        if j < (kv.cellsOf src).size ∧ src ∈ (kv.cellsOf src).seq j then
          copied dst ((kv.cellsOf src).cell j) else .empty := by
  set s0 := kv.prm.seqToStream src with hs0
  set s1 := kv.prm.seqToStream dst with hs1
  set kv1 : KvCache := { kv with scInfo := kv.scInfo ++ [(s0, s1)] } with hkv1
  set kv2 := kv1.call s1 .reset with hkv2
  have hcell2 : ∀ j, (kv2.vCells s1).cell j = .empty := fun j => by
    rw [call_vCells_self]
    rfl
  have hsize2 : (kv2.vCells s1).size = (kv.cellsOf dst).size := by
    rw [call_vCells_self]
    rfl
  have hsrc2 : kv2.vCells s0 = kv.cellsOf src := call_vCells_of_ne kv1 _ hne
  -- round `n` copies cell `n`
  have hfold : CellsBy s1 (fun j x => if j < (kv.cellsOf src).size ∧ src ∈ (kv.cellsOf src).seq j then
      copied dst ((kv.cellsOf src).cell j) else x) kv2
      ((range (kv.cellsOf src).size).foldl (cpCell s0 s1 src dst) kv2) := by
    refine (Run.foldl_entries (c := (kv2.vCells s1).cell) (R := fun g r => CellsBy s1 g kv2 r)
      (h := fun j x => if src ∈ (kv.cellsOf src).seq j then copied dst ((kv.cellsOf src).cell j)
        else x) CellsBy.congr (.refl' s1 kv2) fun n hn g r h hself => ?_).congr fun j => by
          simp only [ite_and]
    have hsrcn : r.vCells s0 = kv.cellsOf src := (h.cells s0 hne).trans hsrc2
    have hstep := cpCell_cell r s0 n src dst ((h.cell_eq n).trans (hself.trans (hcell2 n)))
      (by rw [hsrcn]; exact hpos n hn)
    rw [hsrcn] at hstep
    refine (h.trans' hstep).congr fun j => ?_
    by_cases hj : j = n
    · subst hj
      simp [hself]
    · simp only [hj, false_and, if_false]
  have hval : kv.seqCp src dst p0 p1 =
      ((range (kv.cellsOf src).size).foldl (cpCell s0 s1 src dst) kv2).setHead s1
        (((range (kv.cellsOf src).size).foldl (cpCell s0 s1 src dst) kv2).vHeads s0) := by
    rw [← hsrc2]
    exact if_neg hne
  rw [hval]
  refine ⟨⟨hfold.prm, hfold.kStream, hfold.vStream⟩, hfold.scInfo, fun t ht => ?_,
    hfold.size_eq.trans hsize2, fun j => ?_⟩
  · rw [setHead_vCells, hfold.cells t ht]
    exact call_vCells_of_ne kv1 _ ht
  · rw [setHead_vCells, hfold.cell_eq, hcell2]

/-- Within a stream the selected cells are given the second sequence. -/
lemma seqCp_within {src dst : ℤ} (p0 p1 : ℤ)
    (hsame : kv.prm.seqToStream src = kv.prm.seqToStream dst) (hne : src ≠ dst) :
    CellsBy (kv.prm.seqToStream src)
      (fun j x => if j < (kv.cellsOf src).size ∧ inRange src (lowBound p0) (highBound p1) x then
        x.seqAdd dst else x) kv (kv.seqCp src dst p0 p1) := by
  have h := forCells_cell kv (kv.prm.seqToStream src)
    (fun c i => c.posIn i (lowBound p0) (highBound p1) ∧ c.seqHas i src) (fun _ _ => false)
    (inRange src (lowBound p0) (highBound p1)) (local_seqAdd dst) (sel_iff src _ _)
  have hval : kv.seqCp src dst p0 p1 = (kv.forCells (kv.prm.seqToStream src)
      (fun c i => c.posIn i (lowBound p0) (highBound p1) ∧ c.seqHas i src)
      (fun i => .seqAdd i dst) (fun _ _ => false)).1 := by
    rw [seqCp, if_pos hsame, if_neg hne]
  rw [hval]
  exact h

/-! ## The range -/

/-- From `kv` to `kv'`, the destination sequence has in its stream just the cells of the
source sequence in the range, at the same positions and, when the queued copies are made,
with the rows of the source. -/
def CopiesRange (src dst p0 p1 : ℤ) (kv kv' : KvCache) : Prop :=
  ∀ j < (kv.cellsOf src).size, (dst ∈ (kv'.cellsOf dst).seq j ↔
      inRange src (lowBound p0) (highBound p1) ((kv.cellsOf src).cell j)) ∧
    (dst ∈ (kv'.cellsOf dst).seq j → (kv'.cellsOf dst).pos j = (kv.cellsOf src).pos j ∧
      kv'.copyStreams.kRows (kv.prm.seqToStream dst) j =
        kv.copyStreams.kRows (kv.prm.seqToStream src) j ∧
      kv'.copyStreams.vRows (kv.prm.seqToStream dst) j =
        kv.copyStreams.vRows (kv.prm.seqToStream src) j)

lemma CopiesRange.lowBound_le {src dst p0 p1 : ℤ} (h : CopiesRange src dst p0 p1 kv kv') {j : ℕ}
    (hj : j < (kv.cellsOf src).size) (hd : (kv'.cellsOf dst).seqHas j dst = true) :
    lowBound p0 ≤ (kv.cellsOf src).pos j :=
  ((h j hj).1.mp (of_decide_eq_true hd)).1.1

/-- The queued copies give the destination the rows of the source. -/
lemma seqCp_across_rows {src dst : ℤ} (p0 p1 : ℤ)
    (hne : kv.prm.seqToStream src ≠ kv.prm.seqToStream dst)
    (hsize : (kv.cellsOf dst).size = (kv.cellsOf src).size)
    (hpos : ∀ i < (kv.cellsOf src).size, src ∈ (kv.cellsOf src).seq i →
      0 ≤ (kv.cellsOf src).pos i) (j : ℕ) :
    (kv.seqCp src dst p0 p1).copyStreams.kRows (kv.prm.seqToStream dst) j =
        kv.copyStreams.kRows (kv.prm.seqToStream src) j ∧
      (kv.seqCp src dst p0 p1).copyStreams.vRows (kv.prm.seqToStream dst) j =
        kv.copyStreams.vRows (kv.prm.seqToStream src) j := by
  obtain ⟨hsame, hsc, hframe, hsz, -⟩ := seqCp_across_cell p0 p1 hne hpos
  set kv' := kv.seqCp src dst p0 p1
  set e := (kv.prm.seqToStream src, kv.prm.seqToStream dst) with he
  -- the earlier copies of the queue, on either cache
  set a := kv.scInfo.foldl copyStream kv with ha
  set b := kv.scInfo.foldl copyStream kv' with hb
  have hab : SameTensors a b := SameTensors.foldl (fun _ _ e h => h.copyStream e) _ hsame
  have hacells : a.vCells = kv.vCells := (onTensors_foldl onTensors_copyStream _ kv).vCells
  have hbcells : b.vCells = kv'.vCells := (onTensors_foldl onTensors_copyStream _ kv').vCells
  have hsrc : kv'.vCells e.1 = kv.vCells e.1 := hframe _ hne
  have hsizes : (b.vCells e.2).size = (b.vCells e.1).size := by
    rw [hbcells, hsrc]
    exact hsz.trans hsize
  have hfold : kv'.scInfo.foldl copyStream kv' = b.copyStream e := by
    rw [hsc, foldl_append]
    rfl
  have hrows := copyStream_rows (e := e) hne hsizes j
  have hsrows := hab.rows (t := e.1) (by rw [hacells, hbcells, hsrc]) j
  constructor
  · calc kv'.copyStreams.kRows e.2 j = (b.copyStream e).kRows e.2 j := by rw [← hfold]; rfl
      _ = b.kRows e.1 j := hrows.1
      _ = a.kRows e.1 j := hsrows.1
  · calc kv'.copyStreams.vRows e.2 j = (b.copyStream e).vRows e.2 j := by rw [← hfold]; rfl
      _ = b.vRows e.1 j := hrows.2
      _ = a.vRows e.1 j := hsrows.2
/-- **A copy between streams is that of the range** just when every cell of the source
sequence has its position in the range. -/
theorem seqCp_across_iff {kv : KvCache} {src dst : ℤ} (p0 p1 : ℤ) (hwf : (kv.cellsOf src).WF)
    (hsize : (kv.cellsOf dst).size = (kv.cellsOf src).size)
    (hne : kv.prm.seqToStream src ≠ kv.prm.seqToStream dst) :
    CopiesRange src dst p0 p1 kv (kv.seqCp src dst p0 p1) ↔
      ∀ j < (kv.cellsOf src).size, src ∈ (kv.cellsOf src).seq j →
        lowBound p0 ≤ (kv.cellsOf src).pos j ∧ (kv.cellsOf src).pos j < highBound p1 := by
  have hpos : ∀ i < (kv.cellsOf src).size, src ∈ (kv.cellsOf src).seq i →
      0 ≤ (kv.cellsOf src).pos i := fun i hi hs => hwf.pos_nonneg hi hs
  obtain ⟨hsame, -, -, -, hcell⟩ := seqCp_across_cell p0 p1 hne hpos
  have hof : (kv.seqCp src dst p0 p1).cellsOf dst =
      (kv.seqCp src dst p0 p1).vCells (kv.prm.seqToStream dst) := by
    rw [cellsOf, hsame.prm]
  -- a cell of the destination is one of the source
  have hmem : ∀ j < (kv.cellsOf src).size,
      (dst ∈ ((kv.seqCp src dst p0 p1).cellsOf dst).seq j ↔ src ∈ (kv.cellsOf src).seq j) := by
    intro j hj
    have hc := hcell j
    have hseq : ((kv.seqCp src dst p0 p1).cellsOf dst).seq j =
        (((kv.seqCp src dst p0 p1).vCells (kv.prm.seqToStream dst)).cell j).seq := by
      rw [hof]
      rfl
    rw [hseq, hc]
    by_cases hs : src ∈ (kv.cellsOf src).seq j
    · simp [hj, hs, copied]
    · simp [hs, Cell.empty]
  constructor
  · intro h j hj hs
    exact ((h j hj).1.mp ((hmem j hj).mpr hs)).1
  · intro h j hj
    refine ⟨(hmem j hj).trans ⟨fun hs => ⟨h j hj hs, hs⟩, fun hr => hr.2⟩, fun hd => ?_⟩
    have hs := (hmem j hj).mp hd
    have hposj : ((kv.seqCp src dst p0 p1).cellsOf dst).pos j =
        (((kv.seqCp src dst p0 p1).vCells (kv.prm.seqToStream dst)).cell j).pos := by
      rw [hof]
      rfl
    refine ⟨?_, seqCp_across_rows p0 p1 hne hsize hpos j⟩
    rw [hposj, hcell, if_pos ⟨hj, hs⟩]
    rfl

/-- A cache with one token, of sequence 0. -/
def zeroSeqCache : KvCache := (new twoStreams).place (seqUbatch 0)

lemma inv_zeroSeqCache : Inv twoStreams zeroSeqCache := by
  refine @inv_run _ _ (.place (seqUbatch 0)) (inv_new twoStreams) ⟨asserts_seqUbatch (.inl rfl), ?_⟩
  change ∀ i < (seqUbatch 0).nTokens, 0 ≤ (seqUbatch 0).pos i ∧ (seqUbatch 0).pos i < posLimit ∧
    ((seqUbatch 0).seqs i).Nodup
  decide +kernel

/-- Copying the whole sequence. -/
theorem copiesRange_zeroSeqCache :
    CopiesRange 0 1 (-1) (-1) zeroSeqCache (zeroSeqCache.seqCp 0 1 (-1) (-1)) := by
  have hinv := inv_zeroSeqCache
  exact (seqCp_across_iff (-1) (-1) (hinv.ri _).toWF ((hinv.size _).trans (hinv.size _).symm)
    (by decide +kernel)).mpr (by decide +kernel)

/-- Positions from 3 on are admitted as a full range of a cache of four cells, and the token at
position 0 is copied. -/
theorem not_copiesRange_zeroSeqCache : Run.Guarded run (fun kv op => op.Asserts kv) (new twoStreams)
        [.place (seqUbatch 0), .seqCp 0 1 3 (-1)] ∧
      ¬ CopiesRange 0 1 3 (-1) zeroSeqCache (zeroSeqCache.seqCp 0 1 3 (-1)) := by
  refine ⟨⟨asserts_seqUbatch (.inl rfl), ?_, trivial⟩, fun h => ?_⟩
  · exact ⟨by decide +kernel, by decide +kernel, fun _ => by decide +kernel⟩
  · have hcell : 0 < (zeroSeqCache.cellsOf 0).size := by decide +kernel
    have hcopied : ((zeroSeqCache.seqCp 0 1 3 (-1)).cellsOf 1).seqHas 0 1 = true := by
      decide +kernel
    have hpos : (zeroSeqCache.cellsOf 0).pos 0 = 0 := by decide +kernel
    have hlow := h.lowBound_le hcell hcopied
    rw [hpos] at hlow
    exact absurd hlow (by decide)

end Llama.KvCache
