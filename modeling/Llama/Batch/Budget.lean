import Llama.Batch.Order
import Mathlib.Data.List.TakeWhile

/-!
# The size of a ubatch

A strategy is asked for at most `n_ubatch` tokens.  `split_simple` and `split_seq` stop
there.  `split_equal` takes one token of each chosen set in a round and stops before a round
that does not fit, but never before the first; the choice of the sets stops only when there
are more than `n_ubatch`, so that a first round can be one token too long (`Overfull`).
-/

namespace Llama

open List

/-- The sequence set of token `k`. -/
def UBatch.setOf (ub : UBatch) (k : ℕ) : Finset ℤ := (ub.seqs k).toFinset

/-- The number of tokens of the ubatch with one sequence set. -/
def UBatch.countSet (ub : UBatch) (S : Finset ℤ) : ℕ :=
  (List.range ub.nTokens).countP fun k => ub.setOf k = S

/-- All sequence sets of the ubatch have the same number of tokens. -/
def UBatch.SameCounts (ub : UBatch) : Prop :=
  ∀ x < ub.nTokens, ∀ y < ub.nTokens, ub.setOf x ≠ ∅ → ub.setOf y ≠ ∅ →
    ub.countSet (ub.setOf x) = ub.countSet (ub.setOf y)

namespace BatchAllocr

/-- The number of tokens that a strategy is asked for. -/
def Strategy.nUbatch : Strategy → ℕ
  | .simple n => n
  | .equal n _ _ => n
  | .seq n => n

/-- The strategy is `split_equal`. -/
def Strategy.isEqual : Strategy → Bool
  | .equal _ _ _ => true
  | _ => false

/-- A call of a run: its strategy, the state it is made in, and what it returns. -/
structure Call where
  st : Strategy
  before : BatchAllocr
  ubatch : UBatch
  after : BatchAllocr

/-- Calls one after the other; `none` when an assertion of one fails. -/
def calls : List Strategy → BatchAllocr → Option (List Call)
  | [], _ => some []
  | st :: sts, a =>
    match st.split a with
    | none => none
    | some (ub, a') => (calls sts a').map (⟨st, a, ub, a'⟩ :: ·)

/-- Token `i` is unused and shares no sequence with the tokens in `chosen`; in sequential
mode its first sequence is the one after that of the last of them. -/
def opens (a : BatchAllocr) (sequential : Bool) (chosen : List ℕ) (i : ℕ) : Bool :=
  !a.used i && chosen.all (fun t => a.seqSet t ∩ a.seqSet i = ∅) &&
    (!sequential || chosen.getLast?.all fun t => a.batch.seqId i 0 = a.batch.seqId t 0 + 1)

/-- Add the token when it opens a set. -/
def addOpener (a : BatchAllocr) (sequential : Bool) (chosen : List ℕ) (i : ℕ) : List ℕ :=
  if a.opens sequential chosen i then chosen ++ [i] else chosen

/-- The unused tokens that do not overlap one another, each the first one in the batch that
goes with those before it. -/
def openers (a : BatchAllocr) (sequential : Bool) : List ℕ :=
  (List.range a.batch.nTokens).foldl (a.addOpener sequential) []

/-- The number of tokens of a set from its first unused one on. -/
def tokensLeft (a : BatchAllocr) (S : Finset ℤ) : ℕ := ((a.seqSetMap S).dropWhile a.used).length

/-- More sets can be opened than there is room for, and with a tail to keep none of the first
`n_ubatch + 1` of them would be cut inside its tail after one token. -/
def Strategy.Overfull (a : BatchAllocr) : Strategy → Prop
  | .equal n sequential nKeepTail =>
    ¬ (sequential = true ∧ a.hasCpl = true) ∧ n < (a.openers sequential).length ∧
      (nKeepTail = 0 ∨ ∀ t ∈ (a.openers sequential).take (n + 1),
        a.tokensLeft (a.seqSet t) = 1 ∨ nKeepTail < a.tokensLeft (a.seqSet t))
  | _ => False

/-! ## The calls keep the batch -/

lemma sameBatch_use (a : BatchAllocr) (i : ℕ) : SameBatch a (a.use i) :=
  ⟨rfl, rfl, rfl, rfl, rfl, rfl, rfl⟩

lemma sameBatch_unuse (a : BatchAllocr) (i : ℕ) : SameBatch a (a.unuse i) :=
  ⟨rfl, rfl, rfl, rfl, rfl, rfl, rfl⟩

lemma sameBatch_ubatchAdd (a : BatchAllocr) (idxs : List ℕ) (nSeqs : ℕ) (eq : Bool) :
    SameBatch a (a.ubatchAdd idxs nSeqs eq).2 := ⟨rfl, rfl, rfl, rfl, rfl, rfl, rfl⟩

lemma sameBatch_unuseAll (l : List ℕ) : ∀ a : BatchAllocr, SameBatch a (l.foldl unuse a) := by
  induction l with
  | nil => exact SameBatch.refl
  | cons i l ih => exact fun a => (sameBatch_unuse a i).trans (ih _)

lemma sameBatch_simpleLoop (n : ℕ) : ∀ (k cur : ℕ) (idxs : List ℕ) (a : BatchAllocr),
    SameBatch a (simpleLoop n k cur idxs a).2 := by
  intro k
  induction k with
  | zero => exact fun _ _ a => SameBatch.refl a
  | succ k ih =>
    intro cur idxs a
    simp only [simpleLoop]
    split
    · exact sameBatch_use a cur
    · exact (sameBatch_use a cur).trans (ih _ _ _)

lemma sameBatch_seqLoop (n : ℕ) : ∀ (fuel cur : ℕ) (set : Finset ℤ) (idxs : List ℕ)
    (a : BatchAllocr), SameBatch a (seqLoop n fuel cur set idxs a).2 := by
  intro fuel
  induction fuel with
  | zero => exact fun _ _ _ a => SameBatch.refl a
  | succ fuel ih =>
    intro cur set idxs a
    simp only [seqLoop]
    split
    · exact sameBatch_use a cur
    · split
      · exact sameBatch_use a cur
      · exact (sameBatch_use a cur).trans (ih _ _ _ _)

/-- The choice of the sets stops after `n_ubatch + 1` of the openers. -/
lemma chooseSets_eq_take (a : BatchAllocr) (n : ℕ) (sequential : Bool) (is : List ℕ) :
    ∀ (chosen : List ℕ) (last : ℤ), chosen.length ≤ n →
      (∀ t ∈ chosen.getLast?, last = a.batch.seqId t 0) →
      a.chooseSets n sequential is (chosen.map a.seqSet) last =
        ((is.foldl (a.addOpener sequential) chosen).take (n + 1)).map a.seqSet := by
  have hgrow : ∀ (is chosen : List ℕ), chosen <+: is.foldl (a.addOpener sequential) chosen := by
    intro is
    induction is with
    | nil => exact fun chosen => prefix_rfl
    | cons i is ih =>
      intro chosen
      refine List.IsPrefix.trans ?_ (ih _)
      rw [addOpener]
      split
      · exact prefix_append _ _
      · exact prefix_rfl
  induction is with
  | nil =>
    intro chosen last hlen _
    rw [chooseSets, foldl_nil, take_of_length_le (by omega)]
  | cons i is ih =>
    intro chosen last hlen hlast
    rw [foldl_cons]
    by_cases hused : a.used i = true
    · have hno : a.addOpener sequential chosen i = chosen := by
        simp [addOpener, opens, hused]
      rw [hno, chooseSets, if_pos hused]
      exact ih chosen last hlen hlast
    · have hadd : (a.opens sequential chosen i = true) ↔
          (chosen.map a.seqSet).all (fun c => c ∩ a.seqSet i = ∅) = true ∧
            (sequential = true → chosen.map a.seqSet = [] ∨ a.batch.seqId i 0 = last + 1) := by
        have hids : (chosen.getLast?.all fun t => a.batch.seqId i 0 = a.batch.seqId t 0 + 1) = true ↔
            chosen.map a.seqSet = [] ∨ a.batch.seqId i 0 = last + 1 := by
          cases hg : chosen.getLast? with
          | none => simp [getLast?_eq_none_iff.mp hg]
          | some t =>
            have hne : chosen ≠ [] := by
              rintro rfl
              cases hg
            simp [hlast t hg, hne]
        simp only [opens, hused, Bool.not_false, Bool.true_and, Bool.and_eq_true, Bool.or_eq_true,
          Bool.not_eq_true', all_map, Function.comp_def, hids]
        cases sequential <;> simp
      rw [chooseSets, if_neg hused]
      by_cases hopen : a.opens sequential chosen i = true
      · have hyes : a.addOpener sequential chosen i = chosen ++ [i] := by
          rw [addOpener, if_pos hopen]
        have hmap : chosen.map a.seqSet ++ [a.seqSet i] = (chosen ++ [i]).map a.seqSet := by simp
        rw [hyes, if_pos (hadd.mp hopen), hmap]
        simp only [length_map]
        split
        · have hlen' : (chosen ++ [i]).length = n + 1 := by
            have happend : (chosen ++ [i]).length = chosen.length + 1 := by simp
            omega
          rw [← hlen', ← prefix_iff_eq_take.mp (hgrow is (chosen ++ [i]))]
        · exact ih (chosen ++ [i]) _ (by omega) (by simp)
      · have hno : a.addOpener sequential chosen i = chosen := by
          rw [addOpener, if_neg hopen]
        rw [hno, if_neg (fun h => hopen (hadd.mpr h))]
        exact ih chosen last hlen hlast

/-! ## The rounds of a call -/

/-- The cursor took `r` tokens of its set, from the first unused one on. -/
structure Walked (a0 : BatchAllocr) (r : ℕ) (c : SetCursor) : Prop where
  length : c.idxs.length = r
  cur : c.cur + a0.tokensLeft c.set = (a0.seqSetMap c.set).length + r
  le : r ≤ a0.tokensLeft c.set
  mem : ∀ i ∈ c.idxs, i ∈ a0.seqSetMap c.set

variable {a0 a : BatchAllocr} {r : ℕ} {sequential : Bool} {res : UBatch × BatchAllocr}

lemma Walked.nRemaining_eq {c : SetCursor} (h : Walked a0 r c) :
    a0.nRemaining c = a0.tokensLeft c.set - r := by
  have hcur := h.cur
  simp only [nRemaining]
  omega

lemma SameBatch.nRemaining (h : SameBatch a0 a) (c : SetCursor) :
    a.nRemaining c = a0.nRemaining c := by
  rw [BatchAllocr.nRemaining, h.seqSetMap, BatchAllocr.nRemaining]

lemma walked_startCursor (a : BatchAllocr) (S : Finset ℤ) : Walked a 0 (a.startCursor S) where
  length := rfl
  cur := by
    have hle : (a.seqSetMap S).findIdx (fun i => !a.used i) ≤ (a.seqSetMap S).length :=
      findIdx_le_length
    simp only [startCursor, tokensLeft, dropWhile_eq_drop_findIdx_not, length_drop]
    omega
  le := Nat.zero_le _
  mem := by
    intro i hi
    cases hi

/-- A set with an unused token has one left. -/
lemma tokensLeft_pos (htab : a.Tables) {t : ℕ} (hlt : t < a.batch.nTokens)
    (hfree : a.used t = false) : 0 < a.tokensLeft (a.seqSet t) := by
  refine length_pos_iff.mpr fun hnil => ?_
  have hall := dropWhile_eq_nil_iff.mp hnil t (htab.mem_seqSetMap.mpr ⟨hlt, rfl⟩)
  rw [hfree] at hall
  cases hall

lemma walked_advance (hsame : SameBatch a0 a) {c : SetCursor} (h : Walked a0 r c)
    (hrem : 0 < a0.nRemaining c) :
    Walked a0 (r + 1) (a.advance c).1 ∧ SameBatch a0 (a.advance c).2 := by
  have hn := h.nRemaining_eq
  have hcur := h.cur
  have hlen := h.length
  refine ⟨⟨?_, ?_, ?_, ?_⟩, hsame.trans (sameBatch_use a _)⟩
  · simp [advance, hlen]
  · simp only [advance]
    omega
  · simp only [advance]
    omega
  · intro i hi
    simp only [advance, hsame.seqSetMap, mem_append, mem_singleton] at hi ⊢
    rcases hi with hi | rfl
    · exact h.mem i hi
    · have hlt : c.cur < (a0.seqSetMap c.set).length := by
        omega
      rw [getD_eq_getElem _ _ hlt]
      exact getElem_mem hlt

lemma walked_advanceAll : ∀ (cs : List SetCursor) (a : BatchAllocr),
    SameBatch a0 a → (∀ c ∈ cs, Walked a0 r c) → (∀ c ∈ cs, 0 < a0.nRemaining c) →
      (advanceAll cs a).1.map (·.set) = cs.map (·.set) ∧
        (∀ c ∈ (advanceAll cs a).1, Walked a0 (r + 1) c) ∧ SameBatch a0 (advanceAll cs a).2 := by
  intro cs
  induction cs with
  | nil =>
    intro a hsame _ _
    exact ⟨rfl, fun c hc => (by cases hc), hsame⟩
  | cons c cs ih =>
    intro a hsame hcs hrem
    obtain ⟨hc, hsame'⟩ := walked_advance hsame (hcs c mem_cons_self)
      (hrem c mem_cons_self)
    obtain ⟨h1, h2, h3⟩ := ih _ hsame' (fun d hd => hcs d (mem_cons_of_mem _ hd))
      fun d hd => hrem d (mem_cons_of_mem _ hd)
    refine ⟨?_, fun d hd => ?_, h3⟩
    · simp only [advanceAll, map_cons, h1]
      rfl
    · rcases mem_cons.mp hd with rfl | hd
      · exact hc
      · exact h2 d hd

/-- A round is taken only when it fits, except for the first one. -/
lemma walked_expandLoop (n : ℕ) : ∀ (fuel : ℕ) (cs : List SetCursor)
    (a : BatchAllocr) (r : ℕ), cs ≠ [] → SameBatch a0 a → (∀ c ∈ cs, Walked a0 r c) →
      (expandLoop n fuel cs a).1.map (·.set) = cs.map (·.set) ∧
        SameBatch a0 (expandLoop n fuel cs a).2 ∧
        ∃ r', (∀ c ∈ (expandLoop n fuel cs a).1, Walked a0 r' c) ∧ r ≤ r' ∧
          ((∀ c ∈ cs, 0 < a0.nRemaining c) → 0 < fuel → r < r') ∧
          r' * cs.length ≤ max n ((r + 1) * cs.length) := by
  intro fuel
  induction fuel with
  | zero =>
    intro cs a r _ hsame hcs
    refine ⟨rfl, hsame, r, hcs, le_rfl, fun _ h => absurd h (lt_irrefl 0), ?_⟩
    rw [Nat.succ_mul]
    omega
  | succ fuel ih =>
    intro cs a r hne hsame hcs
    by_cases hany : cs.any (fun c => (a.seqSetMap c.set).length ≤ c.cur) = true
    · have hres : expandLoop n (fuel + 1) cs a = (cs, a) := by
        simp only [expandLoop, if_pos hany]
      rw [hres]
      refine ⟨rfl, hsame, r, hcs, le_rfl, fun hall _ => ?_, ?_⟩
      · obtain ⟨c, hc, hex⟩ := any_eq_true.mp hany
        have hex : (a0.seqSetMap c.set).length ≤ c.cur := by
          rw [hsame.seqSetMap] at hex
          simpa using hex
        have hpos := hall c hc
        simp only [nRemaining] at hpos
        omega
      · rw [Nat.succ_mul]
        omega
    · have hrem : ∀ c ∈ cs, 0 < a0.nRemaining c := by
        intro c hc
        have hlt : ¬ (a.seqSetMap c.set).length ≤ c.cur := fun hle =>
          hany (any_eq_true.mpr ⟨c, hc, by simpa using hle⟩)
        rw [hsame.seqSetMap] at hlt
        simp only [nRemaining]
        omega
      obtain ⟨hsets, hwalk, hsame'⟩ := walked_advanceAll cs a hsame hcs hrem
      obtain ⟨hlen, hne', hstep⟩ := expandLoop_succ hne hany hsets fun c hc => (hwalk c hc).length
      rw [hstep]
      split
      · exact ⟨hsets, hsame', r + 1, hwalk, by omega, fun _ _ => by omega, le_max_right _ _⟩
      · obtain ⟨h1, h2, r', h3, h4, -, h6⟩ :=
          ih (advanceAll cs a).1 (advanceAll cs a).2 (r + 1) hne' hsame' hwalk
        rw [hlen] at h6
        exact ⟨h1.trans hsets, h2, r', h3, by omega, fun _ _ => by omega, by omega⟩

lemma walked_extendLoop : ∀ (k r : ℕ) (c : SetCursor) (a : BatchAllocr),
    SameBatch a0 a → Walked a0 r c → k ≤ a0.nRemaining c →
      Walked a0 (r + k) (extendLoop k c a).1 ∧ (extendLoop k c a).1.set = c.set ∧
        SameBatch a0 (extendLoop k c a).2 := by
  intro k
  induction k with
  | zero => exact fun r c a hsame h _ => ⟨h, rfl, hsame⟩
  | succ k ih =>
    intro r c a hsame h hk
    obtain ⟨h', hsame'⟩ := walked_advance hsame h (by omega)
    have hn := h.nRemaining_eq
    have hn' := h'.nRemaining_eq
    have hset : (a.advance c).1.set = c.set := rfl
    rw [hset] at hn'
    obtain ⟨h1, h2, h3⟩ := ih (r + 1) _ _ hsame' h' (by omega)
    rw [Nat.add_assoc, Nat.add_comm 1 k] at h1
    exact ⟨h1, h2, h3⟩

lemma walked_truncateLoop : ∀ (k r : ℕ) (c : SetCursor) (a : BatchAllocr),
    SameBatch a0 a → Walked a0 r c → k ≤ r →
      Walked a0 (r - k) (truncateLoop k c a).1 ∧ (truncateLoop k c a).1.set = c.set ∧
        SameBatch a0 (truncateLoop k c a).2 := by
  intro k
  induction k with
  | zero => exact fun r c a hsame h _ => ⟨h, rfl, hsame⟩
  | succ k ih =>
    intro r c a hsame h hk
    have hlen := h.length
    have hcur := h.cur
    have hle := h.le
    have hleft : a0.tokensLeft c.set ≤ (a0.seqSetMap c.set).length := by
      simp only [tokensLeft, dropWhile_eq_drop_findIdx_not, length_drop]
      omega
    have h' : Walked a0 (r - 1) { c with cur := c.cur - 1, idxs := c.idxs.dropLast } := by
      refine ⟨?_, ?_, ?_, ?_⟩
      · rw [length_dropLast, hlen]
      · show c.cur - 1 + a0.tokensLeft c.set = (a0.seqSetMap c.set).length + (r - 1)
        omega
      · show r - 1 ≤ a0.tokensLeft c.set
        omega
      · exact fun i hi => h.mem i (mem_of_mem_dropLast hi)
    obtain ⟨h1, h2, h3⟩ := ih (r - 1) _ _ (hsame.trans (sameBatch_unuse a _)) h' (by omega)
    rw [Nat.sub_sub, Nat.add_comm 1 k] at h1
    exact ⟨h1, h2, h3⟩

lemma sameBatch_unuseCursors (cs : List SetCursor) (a : BatchAllocr) :
    SameBatch a (cs.foldl (fun a c => c.idxs.foldl unuse a) a) := by
  rw [foldl_unuse_eq]
  exact sameBatch_unuseAll _ a

/-- The block keeps all cursors when every set may be cut, and otherwise fewer of them or the
first one alone. -/
lemma walked_keepTail (hsame : SameBatch a0 a) {n k : ℕ} (hk : k < n) {cs : List SetCursor}
    (hne : cs ≠ []) (hcs : ∀ c ∈ cs, Walked a0 r c) :
    SameBatch a0 (a.keepTail n k cs).2 ∧ (a.keepTail n k cs).1 ≠ [] ∧
      (a.keepTail n k cs).1.map (·.set) <+: cs.map (·.set) ∧
      ∃ r', (∀ c ∈ (a.keepTail n k cs).1, Walked a0 r' c) ∧ ((∀ c ∈ cs, a0.keeps k c = true) →
          (a.keepTail n k cs).1.length = cs.length ∧ r' = r) ∧
        (¬ (∀ c ∈ cs, a0.keeps k c = true) →
          (a.keepTail n k cs).1.length * r' ≤ max n (max r ((cs.length - 1) * r))) := by
  have hkeeps : a.keeps k = a0.keeps k := by
    funext c
    simp only [keeps, hsame.nRemaining]
  have hpre : cs.takeWhile (a0.keeps k) <+: cs := takeWhile_prefix _
  have hall : cs.takeWhile (a0.keeps k) = cs ↔ ∀ c ∈ cs, a0.keeps k c = true :=
    takeWhile_eq_self_iff
  cases hkept : cs.takeWhile (a0.keeps k) with
  | nil =>
    obtain ⟨c, cs, rfl⟩ := exists_cons_of_ne_nil hne
    have hc := hcs c mem_cons_self
    have hval : a.keepTail n k (c :: cs) = ([(a.resolveFirst n k c).1],
        cs.foldl (fun a c => c.idxs.foldl unuse a) (a.resolveFirst n k c).2) := by
      simp only [keepTail, hkeeps, hkept]
    have hnot : ¬ ∀ d ∈ c :: cs, a0.keeps k d = true := fun h => by
      rw [← hall, hkept] at h
      cases h
    have hfirst : ∃ r', Walked a0 r' (a.resolveFirst n k c).1 ∧ r' ≤ max n r ∧
        (a.resolveFirst n k c).1.set = c.set ∧ SameBatch a0 (a.resolveFirst n k c).2 := by
      rw [resolveFirst, hsame.nRemaining, hc.length]
      split
      · rename_i hfit
        obtain ⟨h1, h2, h3⟩ := walked_extendLoop (a0.nRemaining c) r c a hsame hc le_rfl
        exact ⟨_, h1, le_max_of_le_left hfit, h2, h3⟩
      · obtain ⟨h1, h2, h3⟩ :=
          walked_truncateLoop (k - a0.nRemaining c) r c a hsame hc (by omega)
        exact ⟨_, h1, le_max_of_le_right (Nat.sub_le _ _), h2, h3⟩
    obtain ⟨r', h1, h2, h3, h4⟩ := hfirst
    rw [hval]
    refine ⟨h4.trans (sameBatch_unuseCursors cs _), by simp, by simp [h3], r', fun d hd => ?_,
      fun h => absurd h hnot, fun _ => ?_⟩
    · rw [mem_singleton.mp hd]
      exact h1
    · rw [length_singleton]
      omega
  | cons c kept =>
    have hval : a.keepTail n k cs = (c :: kept,
        (cs.drop (c :: kept).length).foldl (fun a c => c.idxs.foldl unuse a) a) := by
      simp only [keepTail, hkeeps, hkept]
    rw [hkept] at hpre hall
    rw [hval]
    refine ⟨hsame.trans (sameBatch_unuseCursors _ _), by simp, hpre.map _, r,
      fun d hd => hcs d (hpre.subset hd), fun h => ⟨?_, rfl⟩, fun h => ?_⟩
    · rw [hall.mpr h]
    · have hlt : (c :: kept).length < cs.length := by
        refine lt_of_le_of_ne hpre.length_le fun heq => h (hall.mp (hpre.eq_of_length heq))
      have hmul : (c :: kept).length * r ≤ (cs.length - 1) * r :=
        Nat.mul_le_mul_right r (by omega)
      exact le_max_of_le_right (le_max_of_le_right hmul)

lemma equalSets_eq_take (a : BatchAllocr) (n : ℕ) (sequential : Bool) :
    a.equalSets n sequential = ((a.openers sequential).take (n + 1)).map a.seqSet :=
  chooseSets_eq_take a n sequential _ [] (-1) (Nat.zero_le n) (by simp)

/-- A set may be cut after one token when nothing or a whole tail is left of it. -/
lemma Walked.keeps_iff {c : SetCursor} (h : Walked a 1 c) {k : ℕ} :
    a.keeps k c = true ↔ a.tokensLeft c.set = 1 ∨ k < a.tokensLeft c.set := by
  have hle := h.le
  rw [keeps, decide_eq_true_eq, h.nRemaining_eq]
  omega

/-- The cursors of a call after its rounds: the openers that were chosen, and as many rounds
as fit, or a single one. -/
lemma walked_rounds (htab : a.Tables) {n : ℕ} (hsets : a.equalSets n sequential ≠ [])
    {cs : List SetCursor} {a1 : BatchAllocr} (hrounds : expandLoop n (a.batch.nTokens + 1)
      ((a.equalSets n sequential).map a.startCursor) a = (cs, a1)) :
    SameBatch a a1 ∧ cs.map (·.set) = a.equalSets n sequential ∧ cs ≠ [] ∧
      ∃ r, (∀ c ∈ cs, Walked a r c) ∧ r ≤ cs.length * r ∧
        ((a.openers sequential).length ≤ n → cs.length * r ≤ n) ∧
        (n < (a.openers sequential).length → cs.length = n + 1 ∧ r = 1) := by
  set cs0 := (a.equalSets n sequential).map a.startCursor with hcs0
  have hset0 : cs0.map (·.set) = a.equalSets n sequential := by
    rw [map_map]
    exact map_id _
  have hwalk0 : ∀ c ∈ cs0, Walked a 0 c := by
    intro c hc
    obtain ⟨S, -, rfl⟩ := mem_map.mp hc
    exact walked_startCursor a S
  have hrem0 : ∀ c ∈ cs0, 0 < a.nRemaining c := by
    obtain ⟨toks, h1, h2, -⟩ := equalSets_spec a n sequential
    intro c hc
    have hS : c.set ∈ a.equalSets n sequential := hset0 ▸ mem_map_of_mem hc
    rw [h1] at hS
    obtain ⟨t, ht, hset⟩ := mem_map.mp hS
    rw [(hwalk0 c hc).nRemaining_eq, ← hset]
    exact tokensLeft_pos htab (h2 t ht).1 (h2 t ht).2
  obtain ⟨hset, hsame, r, hwalk, -, hpos, hbound⟩ :=
    walked_expandLoop n (a.batch.nTokens + 1) cs0 a 0 (fun h => hsets (map_eq_nil_iff.mp h))
      (SameBatch.refl a) hwalk0
  rw [hrounds] at hset hsame hwalk
  have hpos : 0 < r := hpos hrem0 (Nat.succ_pos _)
  have hset : cs.map (·.set) = a.equalSets n sequential := hset.trans hset0
  have hlen0 : cs0.length = cs.length := by
    simpa using congrArg List.length (hset0.trans hset.symm)
  have hlen : cs.length = min (n + 1) (a.openers sequential).length := by
    have heq := congrArg List.length hset
    rwa [equalSets_eq_take, length_map, length_map, length_take] at heq
  have hne : cs ≠ [] := by
    rintro rfl
    exact hsets hset.symm
  have hm : 1 ≤ cs.length := length_pos_iff.mpr hne
  rw [hlen0, Nat.mul_comm] at hbound
  refine ⟨hsame, hset, hne, r, hwalk, Nat.le_mul_of_pos_left r hm, fun hfew => by omega, ?_⟩
  by_contra hr
  have hmul : cs.length * 2 ≤ cs.length * r := Nat.mul_le_mul_left _ (by omega)
  omega

/-- After a single round the sets that may be cut are told by what was left of them. -/
lemma keeps_openers {n k : ℕ} {cs : List SetCursor}
    (hset : cs.map (·.set) = a.equalSets n sequential) (hwalk : ∀ c ∈ cs, Walked a 1 c) :
    (∀ c ∈ cs, a.keeps k c = true) ↔ ∀ t ∈ (a.openers sequential).take (n + 1),
      a.tokensLeft (a.seqSet t) = 1 ∨ k < a.tokensLeft (a.seqSet t) := by
  rw [equalSets_eq_take] at hset
  calc (∀ c ∈ cs, a.keeps k c = true)
      ↔ ∀ S ∈ cs.map (·.set), a.tokensLeft S = 1 ∨ k < a.tokensLeft S := by
        rw [forall_mem_map]
        exact forall₂_congr fun c hc => (hwalk c hc).keeps_iff
    _ ↔ _ := by
        rw [hset, forall_mem_map]

/-- **One call of `split_equal`**: cursors that have walked the same number of tokens, and
more tokens than were asked for exactly when the call is overfull. -/
theorem splitEqual_walked (htab : a.Tables) {n k : ℕ} (hn : 1 ≤ n)
    (hres : a.splitEqual n sequential k = some res) :
    SameBatch a res.2 ∧ (res = (.empty, a) ∨ ∃ cs r a', (∀ c ∈ cs, Walked a r c) ∧
        cs.map (·.set) <+: a.equalSets n sequential ∧ SameBatch a a' ∧
        res = a'.ubatchAdd (takenBy cs) cs.length true) ∧
      (res.1.nTokens ≤ n ↔ ¬ (Strategy.equal n sequential k).Overfull a) := by
  by_cases hcpl : sequential = true ∧ a.hasCpl = true
  · rw [splitEqual, if_pos hcpl] at hres
    cases hres
    exact ⟨SameBatch.refl a, .inl rfl, by simp [Strategy.Overfull, hcpl, UBatch.empty]⟩
  have hchoose : a.chooseSets n sequential (range a.batch.nTokens) [] (-1) =
      a.equalSets n sequential := rfl
  by_cases hsets : a.equalSets n sequential = []
  · rw [splitEqual, if_neg hcpl, hchoose, if_pos hsets] at hres
    cases hres
    have hnone : a.openers sequential = [] := by
      rw [equalSets_eq_take] at hsets
      simpa using hsets
    exact ⟨SameBatch.refl a, .inl rfl, by simp [Strategy.Overfull, hnone, UBatch.empty]⟩
  cases hrounds : expandLoop n (a.batch.nTokens + 1)
      ((a.equalSets n sequential).map a.startCursor) a with
  | mk cs a1 =>
    obtain ⟨hsame, hset, hne, r, hwalk, hr, hfew, hmany⟩ := walked_rounds htab hsets hrounds
    have htotal : ∀ {cs : List SetCursor} {r : ℕ}, (∀ c ∈ cs, Walked a r c) →
        (takenBy cs).length = cs.length * r :=
      fun h => length_takenBy fun c hc => (h c hc).length
    by_cases hassert : 0 < k ∧ n ≤ k
    · rw [splitEqual, if_neg hcpl, hchoose, if_neg hsets] at hres
      simp only [if_pos hassert] at hres
      cases hres
    rw [splitEqual, if_neg hcpl, hchoose, if_neg hsets, hrounds] at hres
    simp only [if_neg hassert] at hres
    by_cases hk : 0 < k
    · obtain ⟨hsame', hne', hpre, r', hwalk', hkept, hcut⟩ :=
        walked_keepTail (n := n) (k := k) hsame (by omega) hne hwalk
      rw [if_pos hk] at hres
      cases hres
      refine ⟨hsame'.trans (sameBatch_ubatchAdd _ _ _ _),
        .inr ⟨_, r', _, hwalk', hset ▸ hpre, hsame', rfl⟩, ?_⟩
      show (takenBy (a1.keepTail n k cs).1).length ≤ n ↔ _
      rw [htotal hwalk']
      simp only [Strategy.Overfull, hcpl, not_false_eq_true, true_and, hk.ne', false_or]
      by_cases hlt : n < (a.openers sequential).length
      · obtain ⟨h1, rfl⟩ := hmany hlt
        rw [and_iff_right hlt, ← keeps_openers hset hwalk]
        by_cases hall : ∀ c ∈ cs, a.keeps k c = true
        · obtain ⟨h2, h3⟩ := hkept hall
          rw [h3]
          exact iff_of_false (by omega) (not_not_intro hall)
        · have h2 := hcut hall
          exact iff_of_true (by omega) hall
      · refine iff_of_true ?_ fun h => hlt h.1
        have hfit := hfew (not_lt.mp hlt)
        by_cases hall : ∀ c ∈ cs, a.keeps k c = true
        · obtain ⟨h2, h3⟩ := hkept hall
          rw [h2, h3]
          exact hfit
        · have h2 := hcut hall
          have h3 : (cs.length - 1) * r ≤ cs.length * r :=
            Nat.mul_le_mul_right r (Nat.sub_le _ _)
          omega
    · rw [if_neg hk] at hres
      cases hres
      refine ⟨hsame.trans (sameBatch_ubatchAdd _ _ _ _),
        .inr ⟨cs, r, a1, hwalk, hset ▸ prefix_rfl, hsame, rfl⟩, ?_⟩
      show (takenBy cs).length ≤ n ↔ _
      rw [htotal hwalk]
      have hk : k = 0 := by omega
      simp only [Strategy.Overfull, hcpl, hk, not_false_eq_true, true_and, true_or, and_true,
        not_lt]
      refine ⟨fun h => ?_, hfew⟩
      by_contra hlt
      obtain ⟨h1, h2⟩ := hmany (not_le.mp hlt)
      rw [h2] at h
      omega

lemma Carries.countSet_eq (htab : a.Tables) {idxs : List ℕ} {ub : UBatch}
    (h : Carries a idxs ub) (S : Finset ℤ) :
    ub.countSet S = idxs.countP fun i => a.seqSet i = S := by
  have hmap : (range ub.nTokens).map ub.setOf = idxs.map a.seqSet := by
    refine ext_getElem (by simp [h.nTokens]) fun k h1 h2 => ?_
    have hk : k < idxs.length := by simpa using h2
    simp only [getElem_map, getElem_range, UBatch.setOf, h.seqs k hk, htab.seqSet_eq]
  calc ub.countSet S = ((range ub.nTokens).map ub.setOf).countP (· = S) := by
        rw [countP_map]
        rfl
    _ = idxs.countP fun i => a.seqSet i = S := by
        rw [hmap, countP_map]
        rfl

/-- The tokens of a cursor all have its set. -/
lemma Walked.countP_idxs (htab : a.Tables) {c : SetCursor} (h : Walked a r c) (S : Finset ℤ) :
    (c.idxs.countP fun i => a.seqSet i = S) = if c.set = S then r else 0 := by
  have hset : ∀ i ∈ c.idxs, a.seqSet i = c.set := fun i hi => (htab.mem_seqSetMap.mp (h.mem i hi)).2
  split
  · rename_i heq
    rw [← h.length, countP_eq_length]
    intro i hi
    simp [hset i hi, heq]
  · rename_i hne
    rw [countP_eq_zero]
    intro i hi
    simp [hset i hi, hne]

lemma countP_takenBy_other (htab : a.Tables) {S : Finset ℤ} :
    ∀ {cs : List SetCursor}, (∀ c ∈ cs, Walked a r c) → (∀ c ∈ cs, c.set ≠ S) →
      ((takenBy cs).countP fun i => a.seqSet i = S) = 0 := by
  intro cs hcs hne
  rw [countP_eq_zero]
  intro i hi
  obtain ⟨c, hc, hic⟩ := mem_flatMap.mp hi
  have hset := (htab.mem_seqSetMap.mp ((hcs c hc).mem i hic)).2
  simp [hset, hne c hc]

/-- Sets that do not overlap are walked by one cursor each. -/
lemma countP_takenBy (htab : a.Tables) {S : Finset ℤ} (hS : S ≠ ∅) :
    ∀ {cs : List SetCursor}, (∀ c ∈ cs, Walked a r c) →
      (cs.map (·.set)).Pairwise (fun c d => c ∩ d = ∅) → (∃ c ∈ cs, c.set = S) →
      ((takenBy cs).countP fun i => a.seqSet i = S) = r := by
  intro cs
  induction cs with
  | nil =>
    rintro _ _ ⟨c, hc, -⟩
    cases hc
  | cons c cs ih =>
    intro hcs hdisj hmem
    obtain ⟨hc, hdisj⟩ := pairwise_cons.mp hdisj
    rw [takenBy_cons, countP_append, (hcs c mem_cons_self).countP_idxs htab]
    by_cases heq : c.set = S
    · have hother : ∀ d ∈ cs, d.set ≠ S := by
        intro d hd hdS
        have hempty : c.set ∩ d.set = ∅ := hc d.set (mem_map_of_mem hd)
        rw [heq, hdS, Finset.inter_self] at hempty
        exact hS hempty
      rw [if_pos heq, countP_takenBy_other htab (fun d hd => hcs d (mem_cons_of_mem _ hd))
        hother, Nat.add_zero]
    · rw [if_neg heq, Nat.zero_add]
      refine ih (fun d hd => hcs d (mem_cons_of_mem _ hd)) hdisj ?_
      obtain ⟨d, hd, hdS⟩ := hmem
      rcases mem_cons.mp hd with rfl | hd
      · exact absurd hdS heq
      · exact ⟨d, hd, hdS⟩

/-- **`split_equal` takes the same number of tokens of every sequence set.** -/
theorem splitEqual_sameCounts (htab : a.Tables) {n k : ℕ} (hn : 1 ≤ n)
    (hres : a.splitEqual n sequential k = some res) : res.1.SameCounts := by
  obtain ⟨-, rfl | ⟨cs, r, a', hwalk, hpre, hsame, rfl⟩, -⟩ := splitEqual_walked htab hn hres
  · exact fun x hx => absurd hx (Nat.not_lt_zero x)
  have hcar := hsame.carries (carries_ubatchAdd a' (takenBy cs) cs.length true)
  have hdisj : (cs.map (·.set)).Pairwise (fun c d => c ∩ d = ∅) := by
    obtain ⟨toks, h1, -, h3, -⟩ := equalSets_spec a n sequential
    rw [← h1] at h3
    exact h3.sublist hpre.sublist
  have hcount : ∀ x < (a'.ubatchAdd (takenBy cs) cs.length true).1.nTokens,
      (a'.ubatchAdd (takenBy cs) cs.length true).1.setOf x ≠ ∅ →
        (a'.ubatchAdd (takenBy cs) cs.length true).1.countSet
          ((a'.ubatchAdd (takenBy cs) cs.length true).1.setOf x) = r := by
    intro x hx hne
    have hset : (a'.ubatchAdd (takenBy cs) cs.length true).1.setOf x = a.seqSet (takenBy cs)[x] := by
      rw [UBatch.setOf, hcar.seqs x hx, htab.seqSet_eq]
    rw [hcar.countSet_eq htab]
    refine countP_takenBy htab hne hwalk hdisj ?_
    obtain ⟨c, hc, hic⟩ := mem_flatMap.mp (getElem_mem hx)
    exact ⟨c, hc, by rw [hset, (htab.mem_seqSetMap.mp ((hwalk c hc).mem _ hic)).2]⟩
  intro x hx y hy hxne hyne
  rw [hcount x hx hxne, hcount y hy hyne]

lemma length_simpleLoop (n : ℕ) : ∀ (k cur : ℕ) (idxs : List ℕ) (a : BatchAllocr),
    idxs.length < n → (simpleLoop n k cur idxs a).1.length ≤ n := by
  intro k
  induction k with
  | zero => exact fun _ _ _ h => h.le
  | succ k ih =>
    intro cur idxs a h
    have hlen : (idxs ++ [cur]).length = idxs.length + 1 := length_append
    simp only [simpleLoop]
    split
    · show (idxs ++ [cur]).length ≤ n
      omega
    · exact ih _ _ _ (by omega)

lemma length_seqLoop (n : ℕ) : ∀ (fuel cur : ℕ) (set : Finset ℤ) (idxs : List ℕ)
    (a : BatchAllocr), idxs.length < n → (seqLoop n fuel cur set idxs a).1.length ≤ n := by
  intro fuel
  induction fuel with
  | zero => exact fun _ _ _ _ h => h.le
  | succ fuel ih =>
    intro cur set idxs a h
    have hlen : (idxs ++ [cur]).length = idxs.length + 1 := length_append
    simp only [seqLoop]
    split
    · show (idxs ++ [cur]).length ≤ n
      omega
    · split
      · show (idxs ++ [cur]).length ≤ n
        omega
      · exact ih _ _ _ _ (by omega)

/-- **One call of a strategy** keeps to its budget unless it is overfull. -/
theorem Strategy.split_budget (htab : a.Tables) {st : Strategy} (hn : 1 ≤ st.nUbatch)
    (hres : st.split a = some res) :
    SameBatch a res.2 ∧ (res.1.nTokens ≤ st.nUbatch ↔ ¬ st.Overfull a) ∧
      (st.isEqual = true → res.1.SameCounts) := by
  cases st with
  | simple n =>
    cases hres
    refine ⟨?_, iff_of_true ?_ id, fun h => (by cases h)⟩
    · rw [splitSimple]
      split
      · exact SameBatch.refl a
      · exact (sameBatch_simpleLoop _ _ _ _ _).trans (sameBatch_ubatchAdd _ _ _ _)
    · rw [splitSimple]
      split
      · exact Nat.zero_le _
      · exact length_simpleLoop n _ _ [] a hn
  | equal n sequential k =>
    obtain ⟨h1, -, h3⟩ := splitEqual_walked htab hn hres
    exact ⟨h1, h3, fun _ => splitEqual_sameCounts htab hn hres⟩
  | seq n =>
    cases hres
    refine ⟨?_, iff_of_true ?_ id, fun h => (by cases h)⟩
    · rw [splitSeq]
      split
      · exact SameBatch.refl a
      · exact (sameBatch_seqLoop _ _ _ _ _ _).trans (sameBatch_ubatchAdd _ _ _ _)
    · rw [splitSeq]
      split
      · exact Nat.zero_le _
      · exact length_seqLoop n _ _ _ [] a hn

/-- **Every run**, each call keeping to its budget unless it is overfull. -/
theorem calls_spec (sts : List Strategy) : ∀ {a : BatchAllocr} {l : List Call}, a.Tables →
    (∀ st ∈ sts, 1 ≤ st.nUbatch) → calls sts a = some l →
      ∀ c ∈ l, (c.ubatch.nTokens ≤ c.st.nUbatch ∧ (c.st.isEqual = true → c.ubatch.SameCounts) ↔
        ¬ c.st.Overfull c.before) := by
  induction sts with
  | nil =>
    intro a l _ _ h
    cases h
    exact fun c hc => (by cases hc)
  | cons st sts ih =>
    intro a l htab hn h
    simp only [calls] at h
    split at h
    · cases h
    · rename_i ub a' hres
      obtain ⟨l, hl, rfl⟩ := Option.map_eq_some_iff.mp h
      obtain ⟨hsame, hbudget, hcounts⟩ := st.split_budget htab (hn st mem_cons_self) hres
      intro c hc
      rcases mem_cons.mp hc with rfl | hc
      · rw [← hbudget]
        exact and_iff_left hcounts
      · exact ih (hsame.tables htab) (fun st hst => hn st (mem_cons_of_mem _ hst)) hl c hc

/-- **The budget of every run.**  Whatever the calls made to an accepted batch are, each
emits at most as many tokens as it was asked for, in equal numbers for the sequence sets of
an equal split, if and only if it is not overfull. -/
theorem calls_budget {nPos nVocab nEmbd nSeqMax : ℕ} {inp : LlamaBatch}
    {memory : Option MemoryPos} {outputAll : Bool} {a : BatchAllocr}
    (hinit : init nPos inp nVocab memory nEmbd nSeqMax outputAll = some a) {sts : List Strategy}
    (hn : ∀ st ∈ sts, 1 ≤ st.nUbatch) {l : List Call} (hl : calls sts a = some l) :
    ∀ c ∈ l, (c.ubatch.nTokens ≤ c.st.nUbatch ∧ (c.st.isEqual = true → c.ubatch.SameCounts) ↔
      ¬ c.st.Overfull c.before) :=
  calls_spec sts (init_eq hinit ▸ tables_ofFull _ _ _ _) hn hl

theorem calls_budget_threeTokens : ∃ a l, init 1 threeTokens 10 none 0 2 false = some a ∧
      calls [.equal 2 true 1, .simple 1, .seq 4] a = some l ∧
      ∀ c ∈ l, (c.ubatch.nTokens ≤ c.st.nUbatch ∧ (c.st.isEqual = true → c.ubatch.SameCounts) ↔
        ¬ c.st.Overfull c.before) := by
  have hacc : (init 1 threeTokens 10 none 0 2 false).isSome = true := by decide +kernel
  obtain ⟨a, ha⟩ := Option.isSome_iff_exists.mp hacc
  have hsome : (calls [.equal 2 true 1, .simple 1, .seq 4] a).isSome = true := by
    rw [init_eq ha]
    decide +kernel
  obtain ⟨l, hl⟩ := Option.isSome_iff_exists.mp hsome
  exact ⟨a, l, ha, hl, calls_budget ha (by decide) hl⟩

/-- Tokens of two sequences are emitted together although one was asked for. -/
theorem not_budget_threeTokens : ∃ a ub a', init 1 threeTokens 10 none 0 2 false = some a ∧
      Strategy.split a (.equal 1 false 0) = some (ub, a') ∧ ub.nTokens = 2 := by
  have hacc : (init 1 threeTokens 10 none 0 2 false).isSome = true := by decide +kernel
  obtain ⟨a, ha⟩ := Option.isSome_iff_exists.mp hacc
  have htwo : (Strategy.split a (.equal 1 false 0)).map (·.1.nTokens) = some 2 := by
    rw [init_eq ha]
    decide +kernel
  obtain ⟨res, hres, hn⟩ := Option.map_eq_some_iff.mp htwo
  exact ⟨a, res.1, res.2, ha, hres, hn⟩

end BatchAllocr
end Llama
