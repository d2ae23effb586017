import Llama.KvCache.Window
import Mathlib.Data.Set.Card

/-!
# The search misses no slot

The search of `findSlot` passes every cell of a stream before it gives up: it starts at some
cell, wraps around once and stops when it has tested as many cells as there are.  A search
cell by cell collects every usable cell it passes; a contiguous search passes a cell only
when no free run begins there.  So a search fails just when there is no room.

`Scans` is the loop of the source, round after round and without fuel; `searchLoop_scans`
says that it ends, with the result of `searchLoop`.
-/

namespace Llama.KvCache

open List Finset

/-! ## What is looked for -/

/-- The cell is empty, or holds exactly one sequence, whose window has moved past it. -/
def Usable (p : KvParams) (c : KvCells) (i : ℕ) : Prop :=
  c.pos i = -1 ∨
    ∃ s, c.seq i = {s} ∧ isMaskedSwa p.nSwa p.swaType (c.pos i) (c.seqPosMax s + 1) = true

/-- Distinct usable cells. -/
structure FreeCells (p : KvParams) (c : KvCells) (idxs : List ℕ) : Prop where
  nodup : idxs.Nodup
  lt_size : ∀ i ∈ idxs, i < c.size
  usable : ∀ i ∈ idxs, Usable p c i

/-- The `n` cells from `a` on are usable. -/
def IsFreeRun (p : KvParams) (c : KvCells) (n a : ℕ) : Prop :=
  a + n ≤ c.size ∧ ∀ j < n, Usable p c (a + j)

/-- The ids the bitset of a cell can hold. -/
def IdsInRange (c : KvCells) : Prop := ∀ i < c.size, ∀ s ∈ c.seq i, 0 ≤ s ∧ s < maxSeq

variable {c : KvCells} {p : KvParams} {nTokens head size start tested strm : ℕ} {kv : KvCache}

lemma canUse_iff (hids : IdsInRange c) {i : ℕ} (hi : i < c.size) :
    canUse p c i = true ↔ Usable p c i := by
  simp only [canUse, KvCells.isEmpty, decide_eq_true_eq]
  refine or_congr Iff.rfl ⟨?_, ?_⟩
  · rintro ⟨hone, hm⟩
    obtain ⟨s, hs⟩ := card_eq_one.mp hone
    have hmem : s ∈ c.seq i := by simp [hs]
    rw [seqGet_eq hone hmem (hids i hi s hmem)] at hm
    exact ⟨s, hs, hm⟩
  · rintro ⟨s, hs, hm⟩
    have hone : c.seqCount i = 1 := by rw [KvCells.seqCount, hs, card_singleton]
    have hmem : s ∈ c.seq i := by simp [hs]
    rw [seqGet_eq hone hmem (hids i hi s hmem)]
    exact ⟨hone, hm⟩

lemma UsableCells.free {idxs : List ℕ} (hids : IdsInRange c) (h : UsableCells p c idxs) :
    FreeCells p c idxs :=
  ⟨h.nodup, h.lt_size, fun i hi => (canUse_iff hids (h.lt_size i hi)).mp (h.usable i hi)⟩

/-- With exact maps the bound is the greatest position of the sequence. -/
lemma usable_iff_isSeqMax (hri : c.RI) {i : ℕ} (hi : i < c.size) :
    Usable p c i ↔ c.pos i = -1 ∨ ∃ s m, c.seq i = {s} ∧ c.IsSeqMax s m ∧
      isMaskedSwa p.nSwa p.swaType (c.pos i) (m + 1) = true := by
  refine or_congr Iff.rfl ⟨?_, ?_⟩
  · rintro ⟨s, hs, hm⟩
    exact ⟨s, _, hs, hri.isSeqMax s, hm⟩
  · rintro ⟨s, m, hs, hmax, hm⟩
    refine ⟨s, hs, ?_⟩
    have hmem : s ∈ c.seq i := by simp [hs]
    rcases hmax with ⟨hno, -⟩ | ⟨⟨j, hj, hmj, hpj⟩, hle⟩
    · exact absurd hmem (hno i hi)
    · rcases hri.isSeqMax s with ⟨hno, -⟩ | ⟨⟨k, hk, hmk, hpk⟩, hle'⟩
      · exact absurd hmem (hno i hi)
      · have h1 := hle k hk hmk
        have h2 := hle' j hj hmj
        have heq : c.seqPosMax s = m := by omega
        rw [heq]
        exact hm

/-- The number of cells tested in a round. -/
def testWidth (cont : Bool) (nTokens : ℕ) : ℕ := if cont then nTokens else 1

/-- The rounds of `while (true)`: from a head, a number of tested cells and the collected
cells, to the result. -/
inductive Scans (p : KvParams) (c : KvCells) (nTokens : ℕ) (cont : Bool) :
    ℕ → ℕ → List ℕ → Option (List ℕ) → Prop
  | wrap {head tested : ℕ} {idxs : List ℕ} {r : Option (List ℕ)}
      (h : c.size < head + testWidth cont nTokens)
      (rest : Scans p c nTokens cont 0 (tested + (c.size - head)) idxs r) :
      Scans p c nTokens cont head tested idxs r
  | found {head tested head' tested' : ℕ} {idxs idxs' : List ℕ}
      (h : head + testWidth cont nTokens ≤ c.size)
      (ht : testCells p c cont (testWidth cont nTokens) head tested idxs = (head', tested', idxs'))
      (hlen : idxs'.length = nTokens) : Scans p c nTokens cont head tested idxs (some idxs')
  | full {head tested head' tested' : ℕ} {idxs idxs' : List ℕ}
      (h : head + testWidth cont nTokens ≤ c.size)
      (ht : testCells p c cont (testWidth cont nTokens) head tested idxs = (head', tested', idxs'))
      (hlen : idxs'.length ≠ nTokens) (hdone : c.size ≤ tested') :
      Scans p c nTokens cont head tested idxs none
  | again {head tested head' tested' : ℕ} {idxs idxs' : List ℕ} {r : Option (List ℕ)}
      (h : head + testWidth cont nTokens ≤ c.size)
      (ht : testCells p c cont (testWidth cont nTokens) head tested idxs = (head', tested', idxs'))
      (hlen : idxs'.length ≠ nTokens) (hmore : tested' < c.size)
      (rest : Scans p c nTokens cont head' tested' (if cont then [] else idxs') r) :
      Scans p c nTokens cont head tested idxs r

/-- Testing `k` cells passes at least one of them, and at most all. -/
lemma testCells_advance (p : KvParams) (c : KvCells) (cont : Bool) :
    ∀ (k head tested : ℕ) (idxs : List ℕ), ∃ m ≤ k, (0 < k → 0 < m) ∧
      (testCells p c cont k head tested idxs).1 = head + m ∧
      (testCells p c cont k head tested idxs).2.1 = tested + m := by
  intro k
  induction k with
  | zero => exact fun _ _ _ => ⟨0, le_rfl, id, rfl, rfl⟩
  | succ k ih =>
    intro head tested idxs
    simp only [testCells]
    split
    · obtain ⟨m, hm, -, h1, h2⟩ := ih (head + 1) (tested + 1) (idxs ++ [head])
      exact ⟨m + 1, by omega, fun _ => by omega, by rw [h1]; omega, by rw [h2]; omega⟩
    · split
      · exact ⟨1, by omega, fun _ => by omega, rfl, rfl⟩
      · obtain ⟨m, hm, -, h1, h2⟩ := ih (head + 1) (tested + 1) idxs
        exact ⟨m + 1, by omega, fun _ => by omega, by rw [h1]; omega, by rw [h2]; omega⟩

/-- **The loop ends**, with the result of `searchLoop`: a round that tests cells leaves fewer
untested ones, and no two rounds in a row wrap around. -/
theorem searchLoop_scans {cont : Bool} (hpos : 0 < nTokens) (hle : nTokens ≤ c.size) :
    ∀ (fuel head tested : ℕ) (idxs : List ℕ),
      2 * (c.size - tested) + (if c.size < head + testWidth cont nTokens then 1 else 0) + 1 ≤ fuel →
      Scans p c nTokens cont head tested idxs (searchLoop p c nTokens cont fuel head tested idxs) := by
  have hwidth : 0 < testWidth cont nTokens ∧ testWidth cont nTokens ≤ c.size := by
    unfold testWidth
    split <;> omega
  intro fuel
  induction fuel with
  | zero => intro head tested idxs hfuel; omega
  | succ fuel ih =>
    intro head tested idxs hfuel
    have hval : searchLoop p c nTokens cont (fuel + 1) head tested idxs =
        if c.size < head + testWidth cont nTokens then
          searchLoop p c nTokens cont fuel 0 (tested + (c.size - head)) idxs
        else
          let t := testCells p c cont (testWidth cont nTokens) head tested idxs
          if t.2.2.length = nTokens then some t.2.2
          else if c.size ≤ t.2.1 then none
          else searchLoop p c nTokens cont fuel t.1 t.2.1 (if cont then [] else t.2.2) := rfl
    rw [hval]
    by_cases hwrap : c.size < head + testWidth cont nTokens
    · rw [if_pos hwrap] at hfuel ⊢
      refine .wrap hwrap (ih _ _ _ ?_)
      rw [if_neg (by omega)]
      omega
    · rw [if_neg hwrap] at hfuel ⊢
      obtain ⟨m, -, hm, -, hadv⟩ :=
        testCells_advance p c cont (testWidth cont nTokens) head tested idxs
      rcases ht : testCells p c cont (testWidth cont nTokens) head tested idxs with
        ⟨head', tested', idxs'⟩
      rw [ht] at hadv
      dsimp only at hadv ⊢
      by_cases hlen : idxs'.length = nTokens
      · rw [if_pos hlen]
        exact .found (by omega) ht hlen
      · rw [if_neg hlen]
        by_cases hdone : c.size ≤ tested'
        · rw [if_pos hdone]
          exact .full (by omega) ht hlen hdone
        · rw [if_neg hdone]
          refine .again (by omega) ht hlen (by omega) (ih _ _ _ ?_)
          split <;> omega

/-! ## The cells a search has passed -/

/-- A search from `start` stands at `head`: it has not wrapped around yet, or it has, or it
has passed the last cell. -/
def Standing (size start head tested : ℕ) : Prop :=
  start ≤ size ∧ head ≤ size ∧
    (start + tested = head ∨ start + tested = size + head ∨ size ≤ tested ∧ head = 0)

/-- The search has moved over cell `i`. -/
def Passed (size start tested i : ℕ) : Prop :=
  (start ≤ i ∧ i < start + tested) ∨ i + size < start + tested

lemma Standing.wrap {k : ℕ} (h : Standing size start head tested) (hk : k ≤ size)
    (hwrap : size < head + k) :
    Standing size start 0 (tested + (size - head)) ∧
      ∀ i < size, Passed size start (tested + (size - head)) i →
        Passed size start tested i ∨ head ≤ i := by
  unfold Standing Passed at *
  refine ⟨by omega, fun i hi hp => ?_⟩
  omega

lemma Standing.test {m : ℕ} (h : Standing size start head tested) (hm : head + m ≤ size)
    (hmore : tested + m < size) : Standing size start (head + m) (tested + m) := by
  unfold Standing at *
  omega

lemma Standing.passed_test {m i : ℕ} (h : Standing size start head tested)
    (hm : head + m ≤ size) (hi : i < size) (hp : Passed size start (tested + m) i) :
    Passed size start tested i ∨ (head ≤ i ∧ i < head + m) := by
  unfold Standing Passed at *
  omega

/-- Before the first test nothing has been passed. -/
lemma Standing.not_passed (h : Standing size start head 0) (i : ℕ) : ¬ Passed size start 0 i := by
  unfold Standing Passed at *
  omega

/-- Once as many cells are tested as there are, all have been passed. -/
lemma passed_all {m i : ℕ} (hdone : size ≤ m) (hi : i < size) : Passed size start m i := by
  unfold Passed
  omega

/-- A search cell by cell that fails has collected all usable cells, too few of them. -/
lemma Scans.collected {idxs : List ℕ} {r : Option (List ℕ)}
    (h : Scans p c nTokens false head tested idxs r) (hsize : 0 < c.size)
    (hst : Standing c.size start head tested) (hlen : idxs.length < nTokens)
    (hcol : ∀ i < c.size, canUse p c i = true → Passed c.size start tested i → i ∈ idxs)
    (hr : r = none) :
    ∃ idxs' : List ℕ, idxs'.length < nTokens ∧ ∀ i < c.size, canUse p c i = true → i ∈ idxs' := by
  have hwidth : testWidth false nTokens = 1 := rfl
  -- what one tested cell adds
  have hround : ∀ {head tested head' tested' : ℕ} {idxs idxs' : List ℕ},
      head + testWidth false nTokens ≤ c.size →
      testCells p c false (testWidth false nTokens) head tested idxs = (head', tested', idxs') →
      Standing c.size start head tested → idxs.length < nTokens → idxs'.length ≠ nTokens →
      (∀ i < c.size, canUse p c i = true → Passed c.size start tested i → i ∈ idxs) →
      head' = head + 1 ∧ tested' = tested + 1 ∧ idxs'.length < nTokens ∧
        ∀ i < c.size, canUse p c i = true → Passed c.size start tested' i → i ∈ idxs' := by
    intro head tested head' tested' idxs idxs' hle ht hst hlen hne hcol
    rw [hwidth, testCells_one] at ht
    obtain ⟨rfl, rfl, rfl⟩ := ht
    refine ⟨rfl, rfl, ?_, fun i hi huse hp => ?_⟩
    · by_cases huse : canUse p c head = true
      · rw [if_pos huse, length_append, length_singleton] at hne ⊢
        omega
      · rw [if_neg huse]
        exact hlen
    · rcases hst.passed_test (m := 1) (by omega) hi hp with hp | hat
      · have hmem := hcol i hi huse hp
        split
        · exact mem_append_left _ hmem
        · exact hmem
      · have hih : i = head := by omega
        rw [hih] at huse ⊢
        simp [huse]
  induction h with
  | wrap hwrap _ ih =>
    obtain ⟨hst', hpass⟩ := hst.wrap (by omega) hwrap
    refine ih hst' hlen (fun i hi huse hp => ?_) hr
    rcases hpass i hi hp with hp | hge
    · exact hcol i hi huse hp
    · omega
  | found => simp at hr
  | full hle ht hne hdone =>
    obtain ⟨-, -, hlen', hcol'⟩ := hround hle ht hst hlen hne hcol
    exact ⟨_, hlen', fun i hi huse => hcol' i hi huse (passed_all hdone hi)⟩
  | again hle ht hne hmore _ ih =>
    obtain ⟨rfl, rfl, hlen', hcol'⟩ := hround hle ht hst hlen hne hcol
    exact ih (hst.test (m := 1) hle hmore) hlen' hcol' hr

/-- A contiguous search tests usable cells up to the first unusable one. -/
lemma testCells_run (p : KvParams) (c : KvCells) : ∀ (k head tested : ℕ) (idxs : List ℕ),
      ((∀ j < k, canUse p c (head + j) = true) ∧ testCells p c true k head tested idxs =
          (head + k, tested + k, idxs ++ range' head k)) ∨
      ∃ m < k, canUse p c (head + m) = false ∧ testCells p c true k head tested idxs =
          (head + (m + 1), tested + (m + 1), idxs ++ range' head m) := by
  intro k
  induction k with
  | zero => exact fun head tested idxs => .inl ⟨by simp, by simp [testCells]⟩
  | succ k ih =>
    intro head tested idxs
    by_cases huse : canUse p c head = true
    · have hval : testCells p c true (k + 1) head tested idxs =
          testCells p c true k (head + 1) (tested + 1) (idxs ++ [head]) := by
        simp [testCells, huse]
      have hrange : ∀ m, idxs ++ [head] ++ range' (head + 1) m =
          idxs ++ range' head (m + 1) := fun m => by
        rw [append_assoc]
        rfl
      rw [hval]
      rcases ih (head + 1) (tested + 1) (idxs ++ [head]) with ⟨hall, heq⟩ | ⟨m, hm, hno, heq⟩
      · refine .inl ⟨fun j hj => ?_, ?_⟩
        · rcases j with - | j
          · exact huse
          · rw [← Nat.add_assoc, Nat.add_right_comm]
            exact hall j (by omega)
        · rw [heq, hrange, Nat.add_right_comm head, Nat.add_right_comm tested]
          rfl
      · refine .inr ⟨m + 1, by omega, ?_, ?_⟩
        · rw [Nat.add_right_comm] at hno
          exact hno
        · rw [heq, hrange, Nat.add_right_comm head, Nat.add_right_comm tested]
          rfl
    · simp [testCells, huse]

/-- The `n` cells from `a` on pass the test of the search. -/
def RunFits (p : KvParams) (c : KvCells) (n a : ℕ) : Prop :=
  a + n ≤ c.size ∧ ∀ j < n, canUse p c (a + j) = true

/-- **A contiguous search** returns a run, or there is none. -/
theorem Scans.run {idxs : List ℕ} {r : Option (List ℕ)}
    (h : Scans p c nTokens true head tested idxs r) (hpos : 0 < nTokens) (hle : nTokens ≤ c.size)
    (hst : Standing c.size start head tested) (hidxs : idxs = [])
    (hno : ∀ a, Passed c.size start tested a → ¬ RunFits p c nTokens a) :
    (∀ res, r = some res → ∃ a, RunFits p c nTokens a ∧ res = range' a nTokens) ∧
      (r = none → ∀ a, ¬ RunFits p c nTokens a) := by
  have hwidth : testWidth true nTokens = nTokens := rfl
  -- a round that ends at an unusable cell passes no run
  have hround : ∀ {head tested head' tested' : ℕ} {idxs' : List ℕ},
      head + testWidth true nTokens ≤ c.size →
      testCells p c true (testWidth true nTokens) head tested [] = (head', tested', idxs') →
      Standing c.size start head tested → idxs'.length ≠ nTokens →
      (∀ a, Passed c.size start tested a → ¬ RunFits p c nTokens a) →
      ∃ m, head + m ≤ c.size ∧ head' = head + m ∧ tested' = tested + m ∧
        ∀ a, Passed c.size start tested' a → ¬ RunFits p c nTokens a := by
    intro head tested head' tested' idxs' hfit ht hst hne hno
    rw [hwidth] at ht hfit
    rcases testCells_run p c nTokens head tested [] with ⟨-, heq⟩ | ⟨m, hm, hbad, heq⟩
    · rw [heq] at ht
      obtain ⟨-, -, rfl⟩ := ht
      simp at hne
    · rw [heq] at ht
      obtain ⟨rfl, rfl, -⟩ := ht
      refine ⟨m + 1, by omega, rfl, rfl, fun a hp hrun => ?_⟩
      obtain ⟨hin, hall⟩ := hrun
      rcases hst.passed_test (m := m + 1) (by omega) (by omega : a < c.size) hp with hp | hat
      · exact hno a hp ⟨hin, hall⟩
      · have huse := hall (head + m - a) (by omega)
        rw [show a + (head + m - a) = head + m by omega, hbad] at huse
        simp at huse
  induction h with
  | wrap hwrap _ ih =>
    obtain ⟨hst', hpass⟩ := hst.wrap hle hwrap
    refine ih hst' hidxs fun a hp hrun => ?_
    have hin := hrun.1
    rcases hpass a (by omega) hp with hp | hge
    · exact hno a hp hrun
    · omega
  | @found head tested head' tested' idxs idxs' hfit ht hlen =>
    subst hidxs
    refine ⟨fun res hres => ⟨head, ?_⟩, by simp⟩
    rw [Option.some.injEq] at hres
    subst hres
    rw [hwidth] at ht hfit
    rcases testCells_run p c nTokens head tested [] with ⟨hall, heq⟩ | ⟨m, hm, -, heq⟩
    · rw [heq, Prod.mk.injEq, Prod.mk.injEq] at ht
      exact ⟨⟨hfit, hall⟩, ht.2.2.symm⟩
    · rw [heq, Prod.mk.injEq, Prod.mk.injEq] at ht
      rw [← ht.2.2, nil_append, length_range'] at hlen
      omega
  | full hfit ht hne hdone =>
    subst hidxs
    obtain ⟨m, -, -, -, hno'⟩ := hround hfit ht hst hne hno
    refine ⟨by simp, fun _ a hrun => ?_⟩
    have hin := hrun.1
    exact hno' a (passed_all hdone (by omega)) hrun
  | again hfit ht hne hmore _ ih =>
    subst hidxs
    obtain ⟨m, hm, rfl, rfl, hno'⟩ := hround hfit ht hst hne hno
    exact ih (hst.test hm hmore) rfl hno'

/-! ## The streams of a ubatch -/

/-- The cell the search of a stream starts at. -/
def startHead (kv : KvCache) (strm nTokens : ℕ) : ℕ :=
  if (kv.vCells strm).getUsed + 2 * nTokens < kv.vHeads strm then 0 else kv.vHeads strm

lemma searchStream_eq (cont : Bool) (hle : nTokens ≤ (kv.vCells strm).size) :
    kv.searchStream strm nTokens cont = searchLoop kv.prm (kv.vCells strm) nTokens cont
      (2 * (kv.vCells strm).size + 2) (kv.startHead strm nTokens) 0 [] :=
  if_neg (by omega)

lemma searchStream_scans (cont : Bool) (hpos : 0 < nTokens)
    (hle : nTokens ≤ (kv.vCells strm).size) :
    Scans kv.prm (kv.vCells strm) nTokens cont (kv.startHead strm nTokens) 0 []
      (kv.searchStream strm nTokens cont) := by
  rw [searchStream_eq cont hle]
  refine searchLoop_scans hpos hle _ _ _ _ ?_
  split <;> omega

lemma standing_startHead (nTokens : ℕ) (hhead : kv.vHeads strm ≤ (kv.vCells strm).size) :
    Standing (kv.vCells strm).size (kv.startHead strm nTokens) (kv.startHead strm nTokens) 0 := by
  have hle : kv.startHead strm nTokens ≤ (kv.vCells strm).size := by
    unfold startHead
    split <;> omega
  exact ⟨hle, hle, .inl rfl⟩

/-- A search cell by cell succeeds just when there are enough usable cells. -/
lemma searchStream_isSome_iff (hpos : 0 < nTokens) (hids : IdsInRange (kv.vCells strm))
    (hhead : kv.vHeads strm ≤ (kv.vCells strm).size) :
    (kv.searchStream strm nTokens false).isSome ↔
      nTokens ≤ {i | i < (kv.vCells strm).size ∧ Usable kv.prm (kv.vCells strm) i}.ncard := by
  set free := {i | i < (kv.vCells strm).size ∧ Usable kv.prm (kv.vCells strm) i} with hfree
  have hsub : free ⊆ ↑(Finset.range (kv.vCells strm).size) := fun i hi => by
    simpa using hi.1
  have hfin : free.Finite := (Finset.finite_toSet _).subset hsub
  constructor
  · intro h
    obtain ⟨idxs, hsome⟩ := Option.isSome_iff_exists.mp h
    obtain ⟨hus, hlen⟩ := searchStream_spec hpos hhead hsome
    have hcells := hus.free hids
    have hin : ↑idxs.toFinset ⊆ free := fun i hi => by
      have hi : i ∈ idxs := by simpa using hi
      exact ⟨hcells.lt_size i hi, hcells.usable i hi⟩
    have hcard := Set.ncard_le_ncard hin hfin
    rw [Set.ncard_coe_finset, List.toFinset_card_of_nodup hcells.nodup, hlen] at hcard
    exact hcard
  · intro hroom
    have hcard := Set.ncard_le_ncard hsub (Finset.finite_toSet _)
    rw [Set.ncard_coe_finset, Finset.card_range] at hcard
    rw [Option.isSome_iff_ne_none]
    intro hnone
    have hscan := searchStream_scans false hpos (hroom.trans hcard)
    have hst := standing_startHead nTokens hhead
    obtain ⟨idxs, hlen, hall⟩ := hscan.collected (by omega) hst hpos
      (fun i _ _ hp => absurd hp (hst.not_passed i)) hnone
    have hin : free ⊆ ↑idxs.toFinset := fun i hi => by
      have hmem := hall i hi.1 ((canUse_iff hids hi.1).mpr hi.2)
      simpa using hmem
    have hfew := Set.ncard_le_ncard hin (Finset.finite_toSet _)
    rw [Set.ncard_coe_finset] at hfew
    have hdup := List.toFinset_card_le idxs
    omega

lemma runFits_iff (hids : IdsInRange c) {n a : ℕ} : RunFits p c n a ↔ IsFreeRun p c n a :=
  and_congr_right fun hin => forall₂_congr fun j hj => canUse_iff hids (by omega)

/-- A contiguous search returns a free run; it fails just when there is none. -/
lemma searchStream_cont (hpos : 0 < nTokens) (hids : IdsInRange (kv.vCells strm))
    (hhead : kv.vHeads strm ≤ (kv.vCells strm).size) :
    ((kv.searchStream strm nTokens true).isSome ↔
        ∃ a, IsFreeRun kv.prm (kv.vCells strm) nTokens a) ∧
      ∀ idxs, kv.searchStream strm nTokens true = some idxs →
        ∃ a, IsFreeRun kv.prm (kv.vCells strm) nTokens a ∧ idxs = range' a nTokens := by
  by_cases hle : nTokens ≤ (kv.vCells strm).size
  · have hst := standing_startHead nTokens hhead
    obtain ⟨hsome, hnone⟩ := (searchStream_scans true hpos hle).run hpos hle hst rfl
      (fun i hp => absurd hp (hst.not_passed i))
    have hruns : ∀ idxs, kv.searchStream strm nTokens true = some idxs →
        ∃ a, IsFreeRun kv.prm (kv.vCells strm) nTokens a ∧ idxs = range' a nTokens := by
      intro idxs h
      obtain ⟨a, hrun, heq⟩ := hsome idxs h
      exact ⟨a, (runFits_iff hids).mp hrun, heq⟩
    refine ⟨⟨fun h => ?_, ?_⟩, hruns⟩
    · obtain ⟨idxs, h⟩ := Option.isSome_iff_exists.mp h
      obtain ⟨a, hrun, -⟩ := hruns idxs h
      exact ⟨a, hrun⟩
    · rintro ⟨a, hrun⟩
      rw [Option.isSome_iff_ne_none]
      exact fun h => hnone h a ((runFits_iff hids).mpr hrun)
  · have hval : kv.searchStream strm nTokens true = none := if_pos (by omega)
    rw [hval]
    refine ⟨⟨by simp, ?_⟩, by simp⟩
    rintro ⟨a, hin, -⟩
    omega

/-- The searches of all streams succeed just when each of them does. -/
lemma searchStreams_isSome_iff {cont : Bool} (strms : List ℕ) :
    (kv.searchStreams nTokens cont strms).isSome ↔
      ∀ strm ∈ strms, (kv.searchStream strm nTokens cont).isSome := by
  induction strms with
  | nil => simp [searchStreams]
  | cons strm strms ih =>
    rw [List.forall_mem_cons, ← ih, searchStreams]
    cases kv.searchStream strm nTokens cont with
    | none => simp
    | some idxs => simp

lemma searchStreams_getD {cont : Bool} : ∀ {strms : List ℕ} {idxs : List (List ℕ)},
      kv.searchStreams nTokens cont strms = some idxs → ∀ k < strms.length,
        kv.searchStream (strms.getD k 0) nTokens cont = some (idxs.getD k []) := by
  intro strms
  induction strms with
  | nil => intro idxs _ k hk; simp at hk
  | cons strm strms ih =>
    intro idxs h k hk
    rw [searchStreams] at h
    cases hs : kv.searchStream strm nTokens cont with
    | none => simp [hs] at h
    | some is =>
      simp only [hs, Option.map_eq_some_iff] at h
      obtain ⟨rest, hrest, rfl⟩ := h
      rcases k with - | k
      · exact hs
      · exact ih hrest k (by simpa using hk)

lemma slotTokens_pos {ub : UBatch} (hassert : kv.FindSlotAsserts ub) (htok : 0 < ub.nTokens) :
    0 < kv.slotTokens ub := by
  have hmul := (slotSeqs_mul_slotTokens hassert).1
  rcases Nat.eq_zero_or_pos (kv.slotTokens ub) with h0 | h0
  · rw [h0] at hmul
    omega
  · exact h0

end Llama.KvCache
