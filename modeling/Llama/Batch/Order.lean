import Llama.Batch.Partition

/-!
# The order of the tokens of a sequence

The tokens of a sequence come in order of position in an accepted batch.  The ubatches keep
this order unless a call takes a token past an earlier one of the same sequence: `split_seq`
skips the tokens whose set is not inside the current one, and `split_equal` those whose set
overlaps one that it has chosen.  The check of `init` that is meant to rule this out never
fails, since a token that belongs to a sequence always has it in its set.
-/

namespace Llama

open List

/-- Each sequence that two ubatches share is at larger positions in the second. -/
def UBatch.Precedes (u u' : UBatch) : Prop :=
  ∀ x < u.nTokens, ∀ y < u'.nTokens, ∀ s ∈ u.seqs x, s ∈ u'.seqs y → u.pos x ≤ u'.pos y

instance : DecidableRel UBatch.Precedes := fun u u' =>
  inferInstanceAs (Decidable (∀ x < u.nTokens, ∀ y < u'.nTokens, ∀ s ∈ u.seqs x,
    s ∈ u'.seqs y → u.pos x ≤ u'.pos y))

namespace BatchAllocr

/-- The loop over the sequences of a token sets their positions to that of the token, which
is not below any of them. -/
lemma orderSeqs_some {set : Finset ℤ} {p : ℤ} (ss : List ℤ) :
    ∀ {curSet curSet' : ℤ → Finset ℤ} {curPos curPos' : ℤ → ℤ},
      orderSeqs set p ss curSet curPos = some (curSet', curPos') →
        (∀ s ∈ ss, curPos s ≤ p) ∧ ∀ s, curPos' s = if s ∈ ss then p else curPos s := by
  induction ss with
  | nil =>
    intro curSet curSet' curPos curPos' h
    cases h
    simp
  | cons t ss ih =>
    intro curSet curSet' curPos curPos' h
    simp only [orderSeqs] at h
    split at h
    · cases h
    · split at h
      · cases h
      · rename_i hle
        obtain ⟨h1, h2⟩ := ih h
        have ht : curPos t ≤ p := not_lt.mp hle
        refine ⟨fun s hs => ?_, fun s => ?_⟩
        · by_cases hst : s = t
          · rw [hst]
            exact ht
          · have hs := h1 s ((mem_cons.mp hs).resolve_left hst)
            rwa [Function.update_of_ne hst] at hs
        · rw [h2]
          by_cases hst : s = t
          · simp [hst]
          · simp [hst]

/-- **The sets are never refused**: the loop fails only on a position that decreases, since
the sets of the tokens of a sequence all have the sequence in common. -/
theorem orderSeqs_isSome_iff {set : Finset ℤ} {p : ℤ} (ss : List ℤ) (hset : ∀ s ∈ ss, s ∈ set) :
    ∀ {curSet : ℤ → Finset ℤ} {curPos : ℤ → ℤ}, (∀ s ∈ ss, s ∈ curSet s) →
      ((orderSeqs set p ss curSet curPos).isSome = true ↔ ∀ s ∈ ss, curPos s ≤ p) := by
  induction ss with
  | nil => simp [orderSeqs]
  | cons t ss ih =>
    intro curSet curPos hcur
    have ht : t ∈ curSet t ∩ set := Finset.mem_inter.mpr
      ⟨hcur t mem_cons_self, hset t mem_cons_self⟩
    have hne : curSet t ∩ set ≠ ∅ := Finset.Nonempty.ne_empty ⟨t, ht⟩
    simp only [orderSeqs, if_neg hne, forall_mem_cons]
    by_cases hlt : p < curPos t
    · simp [hlt]
    · have hcur' : ∀ s ∈ ss, s ∈ Function.update curSet t (curSet t ∩ set) s := by
        intro s hs
        by_cases hst : s = t
        · rwa [hst, Function.update_self]
        · rw [Function.update_of_ne hst]
          exact hcur s (mem_cons_of_mem _ hs)
      rw [if_neg hlt, ih (fun s hs => hset s (mem_cons_of_mem _ hs)) hcur',
        and_iff_right (not_lt.mp hlt)]
      refine forall₂_congr fun s _ => ?_
      by_cases hst : s = t
      · simp [hst, not_lt.mp hlt]
      · rw [Function.update_of_ne hst]

variable {a : BatchAllocr} {sequential : Bool} {res : UBatch × BatchAllocr}

/-- The tokens of a sequence come in order of position. -/
lemma orderTokens_spec (is : List ℕ) :
    ∀ {curSet : ℤ → Finset ℤ} {curPos : ℤ → ℤ}, orderTokens a is curSet curPos = true →
      (∀ j ∈ is, ∀ s ∈ a.batch.seqs j, curPos s ≤ a.batch.pos j) ∧
      is.Pairwise fun i j => ∀ s ∈ a.batch.seqs i, s ∈ a.batch.seqs j →
        a.batch.pos i ≤ a.batch.pos j := by
  induction is with
  | nil => exact fun _ => ⟨fun j hj => absurd hj not_mem_nil, .nil⟩
  | cons i is ih =>
    intro curSet curPos h
    rw [orderTokens] at h
    split at h
    · cases h
    · rename_i curSet' curPos' heq
      obtain ⟨hle, hpos⟩ := orderSeqs_some _ heq
      obtain ⟨h1, h2⟩ := ih h
      refine ⟨fun j hj s hs => ?_, pairwise_cons.mpr ⟨fun j hj s hi hs => ?_, h2⟩⟩
      · rcases mem_cons.mp hj with rfl | hj
        · exact hle s hs
        · have hrest := h1 j hj s hs
          rw [hpos] at hrest
          split at hrest
          · rename_i hmem
            exact (hle s hmem).trans hrest
          · exact hrest
      · have hrest := h1 j hj s hs
        rwa [hpos, if_pos hi] at hrest

/-- The tokens of a sequence come in order of position. -/
def Increasing (a : BatchAllocr) : Prop :=
  ∀ i j s, i < j → j < a.batch.nTokens → s ∈ a.seqSet i → s ∈ a.seqSet j →
    a.batch.pos i ≤ a.batch.pos j

lemma increasing_of_init {nPos nVocab nEmbd nSeqMax : ℕ} {inp : LlamaBatch}
    {memory : Option MemoryPos} {outputAll : Bool}
    (h : init nPos inp nVocab memory nEmbd nSeqMax outputAll = some a) : a.Increasing := by
  have ha := init_eq h
  have htab : a.Tables := ha ▸ tables_ofFull _ _ _ _
  have horder : ∃ curSet curPos, orderTokens a (range a.batch.nTokens) curSet curPos = true := by
    simp only [init] at h
    split at h
    · rename_i hc
      cases Option.some.inj h
      exact ⟨_, _, hc.2.2.2.2.2.2⟩
    · cases h
  obtain ⟨curSet, curPos, horder⟩ := horder
  have hpair := (orderTokens_spec _ horder).2
  intro i j s hij hj hi hjs
  rw [htab.seqSet_eq, mem_toFinset] at hi hjs
  have hget := pairwise_iff_getElem.mp hpair i j (by simp; omega) (by simpa using hj) hij
  simp only [getElem_range] at hget
  exact hget s hi hjs

/-! ## One call -/

/-- A call that takes token `k` may take `j` before `i`. -/
def Strategy.Overtakes (a : BatchAllocr) (k i j : ℕ) : Strategy → Prop
  | .simple _ => False
  | .equal _ _ _ => a.seqSet k ∩ a.seqSet i ≠ ∅ ∧ a.seqSet k ≠ a.seqSet i ∧
      (a.seqSet j = a.seqSet k ∨ a.seqSet j ∩ a.seqSet k = ∅)
  | .seq _ => a.seqSet j ⊆ a.seqSet k ∧ ¬ a.seqSet i ⊆ a.seqSet k

/-- The tokens `idxs` were taken past no other unused token of the same sequence, unless
there is an unused token before both with which the strategy overtakes. -/
def Strategy.Passes (a : BatchAllocr) (st : Strategy) (idxs : List ℕ) : Prop :=
  ∀ j ∈ idxs, ∀ i < j, a.used i = false → i ∉ idxs → ∀ s, s ∈ a.seqSet i → s ∈ a.seqSet j →
    ∃ k < i, st.Overtakes a k i j

/-- The tokens between two taken by `split_seq` are used or outside the current set. -/
lemma nextSubset_skips {set : Finset ℤ} {j : ℕ} : ∀ {k cur : ℕ},
    a.nextSubset set k cur = some j → ∀ i, cur < i → i < j → a.used i = false →
      ¬ a.seqSet i ⊆ set := by
  intro k
  induction k with
  | zero => intro cur h; simp [nextSubset] at h
  | succ k ih =>
    intro cur h i hi hij hfree
    simp only [nextSubset] at h
    split at h
    · rename_i hskip
      by_cases hcur : i = cur + 1
      · subst hcur
        exact hskip.resolve_left (by simp [hfree])
      · exact ih h i (by omega) hij hfree
    · cases Option.some.inj h
      omega

lemma mem_seqLoop (nUbatch : ℕ) : ∀ (fuel cur : ℕ) (set : Finset ℤ) (idxs : List ℕ)
    (a : BatchAllocr), ∀ j ∈ idxs, j ∈ (seqLoop nUbatch fuel cur set idxs a).1 := by
  intro fuel
  induction fuel with
  | zero => exact fun cur set idxs a j hj => hj
  | succ fuel ih =>
    intro cur set idxs a j hj
    have hj := mem_append_left [cur] hj
    simp only [seqLoop]
    split
    · exact hj
    · split
      · exact hj
      · exact ih _ _ _ _ j hj

/-- What the loop of `split_seq` takes from a token on: sets inside the set of that token,
and no token past an unused one without a token before it whose set excludes it. -/
lemma seqLoop_passes (nUbatch : ℕ) {a0 : BatchAllocr} :
    ∀ (fuel cur : ℕ) (idxs : List ℕ) (a : BatchAllocr), Taken a0 idxs a →
      (∀ i ∈ idxs, i < cur) → ∀ j ∈ (seqLoop nUbatch fuel cur (a0.seqSet cur) idxs a).1,
        j ∈ idxs ∨ cur ≤ j ∧ a0.seqSet j ⊆ a0.seqSet cur ∧
          ∀ i, cur ≤ i → i < j → a0.used i = false →
            i ∉ (seqLoop nUbatch fuel cur (a0.seqSet cur) idxs a).1 →
              ∃ k < i, a0.seqSet j ⊆ a0.seqSet k ∧ ¬ a0.seqSet i ⊆ a0.seqSet k := by
  intro fuel
  induction fuel with
  | zero => exact fun cur idxs a _ _ j hj => .inl hj
  | succ fuel ih =>
    intro cur idxs a htaken hbelow j
    have huse := htaken.use_append cur
    -- the loop ends with `cur`
    have hlast : j ∈ idxs ++ [cur] → j ∈ idxs ∨ cur ≤ j ∧ a0.seqSet j ⊆ a0.seqSet cur ∧
        ∀ i, cur ≤ i → i < j → a0.used i = false →
          i ∉ (seqLoop nUbatch (fuel + 1) cur (a0.seqSet cur) idxs a).1 →
            ∃ k < i, a0.seqSet j ⊆ a0.seqSet k ∧ ¬ a0.seqSet i ⊆ a0.seqSet k := by
      intro hj
      rcases mem_append.mp hj with hj | hj
      · exact .inl hj
      · obtain rfl := mem_singleton.mp hj
        exact .inr ⟨le_rfl, subset_rfl, fun i h1 h2 => absurd h2 (by omega)⟩
    by_cases hstop : nUbatch ≤ (idxs ++ [cur]).length
    · simp only [seqLoop, if_pos hstop] at hlast ⊢
      exact hlast
    · cases hnext : (a.use cur).nextSubset (a0.seqSet cur)
          ((a.use cur).batch.nTokens - (cur + 1)) cur with
      | none =>
        simp only [seqLoop, if_neg hstop, hnext] at hlast ⊢
        exact hlast
      | some next =>
        simp only [seqLoop, if_neg hstop, hnext]
        obtain ⟨hcn, -, -, hsub⟩ := nextSubset_some hnext
        rw [huse.seqSet_eq] at hsub ⊢
        have hbelow' : ∀ i ∈ idxs ++ [cur], i < next := by
          intro i hi
          rcases mem_append.mp hi with hi | hi
          · exact (hbelow i hi).trans hcn
          · rw [mem_singleton.mp hi]
            exact hcn
        intro hj
        rcases ih next (idxs ++ [cur]) (a.use cur) huse hbelow' j hj with hj | ⟨hle, hset, hrest⟩
        · rcases mem_append.mp hj with hj | hj
          · exact .inl hj
          · obtain rfl := mem_singleton.mp hj
            exact .inr ⟨le_rfl, subset_rfl, fun i h1 h2 => absurd h2 (by omega)⟩
        · refine .inr ⟨by omega, hset.trans hsub, fun i hi hij hfree hout => ?_⟩
          by_cases hni : next ≤ i
          · exact hrest i hni hij hfree hout
          · have hne : i ≠ cur := by
              rintro rfl
              exact hout (mem_seqLoop _ _ _ _ _ _ i (mem_append_right _ mem_cons_self))
            -- `i` was skipped, since its set is not inside that of `cur`
            have hused : (a.use cur).used i = false := by
              by_contra htrue
              rcases (huse.used_iff i).mp (by simpa using htrue) with hmem | hmem
              · rcases mem_append.mp hmem with hmem | hmem
                · exact absurd (hbelow i hmem) (by omega)
                · exact hne (mem_singleton.mp hmem)
              · rw [hfree] at hmem
                cases hmem
            have hskip := nextSubset_skips hnext i (by omega) (by omega) hused
            rw [huse.seqSet_eq] at hskip
            exact ⟨cur, by omega, hset.trans hsub, hskip⟩

lemma mem_chooseSets {nUbatch : ℕ} {S : Finset ℤ} (is : List ℕ) :
    ∀ {sets : List (Finset ℤ)} {last : ℤ}, S ∈ sets →
      S ∈ a.chooseSets nUbatch sequential is sets last := by
  induction is with
  | nil => exact fun h => h
  | cons i is ih =>
    intro sets last h
    have happ := mem_append_left [a.seqSet i] h
    simp only [chooseSets]
    split
    · exact ih h
    · split
      · split
        · exact happ
        · exact ih happ
      · exact ih h

/-- Without coupled sequences a token of a sequence has no other. -/
lemma seqSet_eq_singleton (htab : a.Tables) (hcpl : a.hasCpl = false) {i : ℕ}
    (hi : i < a.batch.nTokens) {s : ℤ} (hs : s ∈ a.seqSet i) : a.seqSet i = {s} := by
  rw [htab.hasCpl_eq, any_eq_false] at hcpl
  have hle : ¬ 1 < a.batch.nSeqId i := by simpa using hcpl i (mem_range.mpr hi)
  rw [htab.seqSet_eq, mem_toFinset] at hs
  rw [htab.seqSet_eq]
  have hlen : (a.batch.seqs i).length ≤ 1 := by
    rw [FullBatch.seqs, length_map, length_range]
    omega
  obtain ⟨t, ht⟩ := length_eq_one_iff.mp (le_antisymm hlen (length_pos_of_mem hs))
  rw [ht] at hs ⊢
  rw [mem_singleton.mp hs]
  rfl

/-- **The sets that `split_equal` chooses.**  Each comes from an unused token, and the set of
an unused token before that one is chosen too or overlaps one chosen from a token before it. -/
theorem chooseSets_skips (a : BatchAllocr) (nUbatch : ℕ) (is : List ℕ) :
    ∀ {sets : List (Finset ℤ)} {last : ℤ}, is.Pairwise (· < ·) →
      ∀ S ∈ a.chooseSets nUbatch false is sets last, S ∈ sets ∨
        ∃ t ∈ is, a.used t = false ∧ a.seqSet t = S ∧ ∀ i ∈ is, i < t → a.used i = false →
          (∃ c ∈ sets, c ∩ a.seqSet i ≠ ∅) ∨
          a.seqSet i ∈ a.chooseSets nUbatch false is sets last ∨
          ∃ k < i, a.seqSet k ∈ a.chooseSets nUbatch false is sets last ∧
            a.seqSet k ∩ a.seqSet i ≠ ∅ := by
  induction is with
  | nil => exact fun _ S hS => .inl hS
  | cons i0 is ih =>
    intro sets last hsorted S hS
    obtain ⟨hfirst, hsorted⟩ := pairwise_cons.mp hsorted
    -- the first token is before all others
    have hleast : ∀ i ∈ i0 :: is, ¬ i < i0 := by
      intro i hi
      rcases mem_cons.mp hi with rfl | hi
      · exact lt_irrefl i
      · exact (hfirst i hi).asymm
    by_cases hused : a.used i0 = true
    · have hR : a.chooseSets nUbatch false (i0 :: is) sets last =
          a.chooseSets nUbatch false is sets last := by simp [chooseSets, hused]
      rw [hR] at hS ⊢
      refine (ih hsorted S hS).imp_right ?_
      rintro ⟨t, ht, hfree, hset, hrest⟩
      refine ⟨t, mem_cons_of_mem _ ht, hfree, hset, fun i hi hit hfi => ?_⟩
      rcases mem_cons.mp hi with rfl | hi
      · rw [hused] at hfi
        cases hfi
      · exact hrest i hi hit hfi
    · have hfree0 : a.used i0 = false := by simpa using hused
      by_cases hadd : sets.all (fun c => c ∩ a.seqSet i0 = ∅) = true
      · by_cases hstop : nUbatch < (sets ++ [a.seqSet i0]).length
        · have hR : a.chooseSets nUbatch false (i0 :: is) sets last = sets ++ [a.seqSet i0] := by
            simp only [chooseSets, hfree0, hadd, if_pos hstop]
            simp
          rw [hR] at hS ⊢
          rcases mem_append.mp hS with hS | hS
          · exact .inl hS
          · obtain rfl := mem_singleton.mp hS
            exact .inr ⟨i0, mem_cons_self, hfree0, rfl, fun i hi hit => absurd hit (hleast i hi)⟩
        · have hR : a.chooseSets nUbatch false (i0 :: is) sets last =
              a.chooseSets nUbatch false is (sets ++ [a.seqSet i0]) (a.batch.seqId i0 0) := by
            simp only [chooseSets, hfree0, hadd, if_neg hstop]
            simp
          rw [hR] at hS ⊢
          have h0 : a.seqSet i0 ∈
              a.chooseSets nUbatch false is (sets ++ [a.seqSet i0]) (a.batch.seqId i0 0) :=
            mem_chooseSets is (mem_append_right _ mem_cons_self)
          rcases ih hsorted S hS with hS | ⟨t, ht, hfree, hset, hrest⟩
          · rcases mem_append.mp hS with hS | hS
            · exact .inl hS
            · obtain rfl := mem_singleton.mp hS
              exact .inr ⟨i0, mem_cons_self, hfree0, rfl, fun i hi hit => absurd hit (hleast i hi)⟩
          · refine .inr ⟨t, mem_cons_of_mem _ ht, hfree, hset, fun i hi hit hfi => ?_⟩
            rcases mem_cons.mp hi with rfl | hi
            · exact .inr (.inl h0)
            · rcases hrest i hi hit hfi with ⟨c, hc, hover⟩ | h
              · rcases mem_append.mp hc with hc | hc
                · exact .inl ⟨c, hc, hover⟩
                · obtain rfl := mem_singleton.mp hc
                  exact .inr (.inr ⟨i0, hfirst i hi, h0, hover⟩)
              · exact .inr h
      · have hR : a.chooseSets nUbatch false (i0 :: is) sets last =
            a.chooseSets nUbatch false is sets last := by
          simp only [chooseSets, hadd]
          simp
        have hover : ∃ c ∈ sets, c ∩ a.seqSet i0 ≠ ∅ := by simpa using hadd
        rw [hR] at hS ⊢
        refine (ih hsorted S hS).imp_right ?_
        rintro ⟨t, ht, hfree, hset, hrest⟩
        refine ⟨t, mem_cons_of_mem _ ht, hfree, hset, fun i hi hit hfi => ?_⟩
        rcases mem_cons.mp hi with rfl | hi
        · exact .inl hover
        · exact hrest i hi hit hfi

/-- Tokens of one set are taken in order. -/
lemma EqualRun.mem_of_lt {r : ℕ} {cs : List SetCursor} (htab : a.Tables)
    (h : EqualRun a sequential r cs res) {i j : ℕ} (hj : j ∈ takenBy cs) (hij : i < j)
    (hset : a.seqSet i = a.seqSet j) (hfree : a.used i = false) : i ∈ takenBy cs := by
  obtain ⟨c, hc, hjc⟩ := mem_flatMap.mp hj
  obtain ⟨pre, post, hcok⟩ := h.ok.ok c hc
  obtain ⟨hlt, hjset⟩ := hcok.mem_set htab hjc
  have hi : i ∈ a.seqSetMap c.set := htab.mem_seqSetMap.mpr ⟨by omega, hset.trans hjset⟩
  have hsorted : (a.seqSetMap c.set).Pairwise (· < ·) := by
    rw [htab.seqSetMap_eq]
    exact pairwise_lt_range.filter _
  rw [hcok.list_eq] at hi hsorted
  rcases mem_append.mp hi with hi | hi
  · rcases mem_append.mp hi with hi | hi
    · rw [hcok.pre_used i hi] at hfree
      cases hfree
    · exact mem_flatMap.mpr ⟨c, hc, hi⟩
  · have hji : j < i :=
      (pairwise_append.mp hsorted).2.2 j (mem_append_right _ hjc) i hi
    omega

lemma EqualRun.passes {nUbatch nKeepTail : ℕ} {r : ℕ} {cs : List SetCursor} (htab : a.Tables)
    (hcpl : ¬ (sequential = true ∧ a.hasCpl = true)) (h : EqualRun a sequential r cs res)
    (hsets : cs.map (·.set) <+: a.equalSets nUbatch sequential) :
    Strategy.Passes a (.equal nUbatch sequential nKeepTail) (takenBy cs) := by
  intro j hj i hij hfree hi s hsi hsj
  obtain ⟨toks, h1, h2, h3, -⟩ := equalSets_spec a nUbatch sequential
  rw [← h1] at h3
  have hS : a.seqSet j ∈ a.equalSets nUbatch sequential := by
    obtain ⟨c, hc, hjc⟩ := mem_flatMap.mp hj
    obtain ⟨_, _, hcok⟩ := h.ok.ok c hc
    rw [(hcok.mem_set htab hjc).2]
    exact hsets.subset (mem_map_of_mem hc)
  have hjlt : j < a.batch.nTokens := by
    obtain ⟨c, hc, hjc⟩ := mem_flatMap.mp hj
    obtain ⟨_, _, hcok⟩ := h.ok.ok c hc
    exact (hcok.mem_set htab hjc).1
  -- chosen sets do not overlap
  have hdisj : ∀ c ∈ a.equalSets nUbatch sequential, ∀ d ∈ a.equalSets nUbatch sequential,
      c = d ∨ c ∩ d = ∅ := by
    have hsymm : Std.Symm fun c d : Finset ℤ => c ∩ d = ∅ :=
      ⟨fun c d h => by rwa [Finset.inter_comm]⟩
    intro c hc d hd
    by_cases hcd : c = d
    · exact .inl hcd
    · exact .inr (h3.forall hc hd hcd)
  have hover : ∀ {k j : ℕ}, s ∈ a.seqSet k → s ∈ a.seqSet j → a.seqSet k ∩ a.seqSet j ≠ ∅ :=
    fun hk hj => Finset.Nonempty.ne_empty ⟨s, Finset.mem_inter.mpr ⟨hk, hj⟩⟩
  have hnot : a.seqSet i ∉ a.equalSets nUbatch sequential := by
    intro hmem
    rcases hdisj _ hmem _ hS with heq | hempty
    · exact hi (h.mem_of_lt htab hj hij heq hfree)
    · exact hover hsi hsj hempty
  cases sequential with
  | true =>
    -- without coupled sequences all sets that overlap are equal
    have hsingle : ∀ i < a.batch.nTokens, s ∈ a.seqSet i → a.seqSet i = {s} :=
      fun i hi => seqSet_eq_singleton htab (by simpa using hcpl) hi
    rw [hsingle i (by omega) hsi, ← hsingle j hjlt hsj] at hnot
    exact absurd hS hnot
  | false =>
    have hskip := @chooseSets_skips a nUbatch (range a.batch.nTokens) [] (-1)
      pairwise_lt_range _ hS
    obtain ⟨t, ht, htfree, htset, hrest⟩ := hskip.resolve_left not_mem_nil
    rcases lt_trichotomy t i with hti | rfl | hit
    · refine ⟨t, hti, ?_, fun heq => ?_, .inl htset.symm⟩
      · exact hover (htset ▸ hsj) hsi
      · exact hnot (heq ▸ htset ▸ hS)
    · exact absurd (htset ▸ hS) hnot
    · rcases hrest i (mem_range.mpr (by omega)) hit hfree with ⟨c, hc, -⟩ | hmem | hk
      · cases hc
      · exact absurd hmem hnot
      · obtain ⟨k, hki, hmem, hne⟩ := hk
        exact ⟨k, hki, hne, fun heq => hnot (heq ▸ hmem), hdisj _ hS _ hmem⟩

/-- What a call emits can be read off the flags. -/
lemma Emits.mem_iff {idxs : List ℕ} (h : Emits a idxs res) {i : ℕ} :
    i ∈ idxs ↔ a.used i = false ∧ res.2.used i = true := by
  rw [h.emitted.used_iff]
  constructor
  · exact fun hi => ⟨(h.free i hi).2, .inl hi⟩
  · rintro ⟨hfree, hi | hused⟩
    · exact hi
    · rw [hfree] at hused
      cases hused

lemma Emits.passes_congr {st : Strategy} {idxs idxs' : List ℕ} (h : Emits a idxs res)
    (h' : Emits a idxs' res) (hp : st.Passes a idxs') : st.Passes a idxs := by
  intro j hj i hij hfree hi
  rw [h.mem_iff, ← h'.mem_iff] at hj hi
  exact hp j hj i hij hfree hi

/-- **One call** takes a token past an unused one of the same sequence only by overtaking. -/
theorem Strategy.split_passes (htab : a.Tables) {st : Strategy} (hfit : st.Allowed a)
    (hinv : st.Inv a) {idxs : List ℕ} (hres : st.split a = some res) (hem : Emits a idxs res) :
    st.Passes a idxs := by
  obtain ⟨t, ht⟩ := exists_mem_of_ne_nil _ hem.ne_nil
  obtain ⟨htlt, htfree⟩ := hem.free t ht
  have hfirst : ∃ cur, a.firstUnused = some cur := by
    cases hfu : a.firstUnused with
    | some cur => exact ⟨cur, rfl⟩
    | none =>
      rw [firstUnused_none hfu t htlt] at htfree
      cases htfree
  obtain ⟨cur, hfu⟩ := hfirst
  -- an unused token is not before the first one
  have hcur : ∀ i, a.used i = false → cur ≤ i := by
    intro i hi
    by_contra hlt
    rw [used_of_lt_firstUnused hfu (by omega)] at hi
    cases hi
  obtain ⟨hlt, hfree⟩ := firstUnused_some hfu
  cases st with
  | simple n =>
    obtain ⟨m, hm⟩ := hinv
    have hpre : ∀ i, cur ≤ i → a.used i = false := by
      intro i hi
      by_contra hne
      have hmi := (hm i).mp (by simpa using hne)
      rw [(hm cur).mpr (by omega)] at hfree
      cases hfree
    obtain ⟨k, -, -, hem'⟩ := splitSimple_spec n hfu hpre
    cases hres
    refine hem.passes_congr hem' fun j hj i hij hfi hi => absurd ?_ hi
    rw [mem_range'_1] at hj ⊢
    exact ⟨hcur i hfi, by omega⟩
  | equal n sequential nKeepTail =>
    obtain ⟨hcpl, hkeep, hids⟩ := hfit
    have hset : ∀ i < a.batch.nTokens, a.used i = false → a.seqSet i ≠ ∅ :=
      fun i hi _ => htab.seqSet_ne_empty (hids i hi)
    obtain ⟨r, cs, res', hres', hrun, hsets⟩ :=
      splitEqual_spec htab hinv hset hcpl hkeep ⟨t, htlt, htfree⟩
    rw [Strategy.split, hres'] at hres
    cases hres
    exact hem.passes_congr (hrun.emits htab) (hrun.passes htab hcpl hsets)
  | seq n =>
    obtain ⟨new, hne, hnd, hnew, heq, htaken⟩ :=
      seqLoop_spec n a.batch.nTokens cur (a.seqSet cur) [] a (Taken.refl a) hlt hfree (by simp)
    have hpass := seqLoop_passes n a.batch.nTokens cur [] a (Taken.refl a) (by simp)
    simp only [nil_append] at heq htaken
    rw [heq] at hpass
    have hem' : Emits a new (a.splitSeq n) := by
      refine ⟨hne (by omega), hnd, fun i hi => (hnew i hi).2, _, 1, true, htaken, ?_⟩
      simp only [splitSeq, hfu, heq]
    cases hres
    refine hem.passes_congr hem' fun j hj i hij hfi hi s hsi hsj => ?_
    obtain ⟨-, -, hrest⟩ := (hpass j hj).resolve_left not_mem_nil
    obtain ⟨k, hki, hk⟩ := hrest i (hcur i hfi) hij hfi hi
    exact ⟨k, hki, hk⟩

/-! ## The run -/

/-- No token can be taken before an earlier one of the same sequence at a smaller position. -/
def Strategy.InOrder (a : BatchAllocr) (st : Strategy) : Prop :=
  ∀ k i j s, k < i → i < j → j < a.batch.nTokens → s ∈ a.seqSet i → s ∈ a.seqSet j →
    a.batch.pos i < a.batch.pos j → ¬ st.Overtakes a k i j

lemma SameBatch.increasing {a' : BatchAllocr} (h : SameBatch a a') (hinc : a.Increasing) :
    a'.Increasing := by
  unfold Increasing
  rw [h.batch, h.seqSet]
  exact hinc

lemma SameBatch.inOrder {a' : BatchAllocr} (h : SameBatch a a') {st : Strategy}
    (hord : st.InOrder a) : st.InOrder a' := by
  cases st with
  | simple n => exact fun _ _ _ _ _ _ _ _ _ _ => id
  | equal n sequential nKeepTail =>
    unfold Strategy.InOrder Strategy.Overtakes at hord ⊢
    rw [h.batch, h.seqSet]
    exact hord
  | seq n =>
    unfold Strategy.InOrder Strategy.Overtakes at hord ⊢
    rw [h.batch, h.seqSet]
    exact hord

/-- The tokens of a ubatch are tokens that the call took. -/
lemma Emits.token {a : BatchAllocr} {idxs : List ℕ} {res : UBatch × BatchAllocr}
    (h : Emits a idxs res) {x : ℕ} (hx : x < res.1.nTokens) :
    ∃ i ∈ idxs, res.1.seqs x = a.batch.seqs i ∧ res.1.pos x = a.batch.pos i := by
  obtain ⟨a', nSeqs, eq, ht, rfl⟩ := h.add
  have hx : x < idxs.length := hx
  refine ⟨idxs[x], getElem_mem hx, ?_, ?_⟩
  · rw [(carries_ubatchAdd a' idxs nSeqs eq).seqs x hx, ht.batch_eq]
  · simp [ubatchAdd, Nat.div_eq_of_lt hx, Nat.mod_eq_of_lt hx, ht.batch_eq, getElem?_eq_getElem hx]

/-- **A run** emits tokens that were unused, each sequence in order of position. -/
theorem drain_precedes (st : Strategy) (fuel : ℕ) : ∀ {a : BatchAllocr}
    {steps : List (UBatch × BatchAllocr)}, a.Tables → st.Allowed a → st.Inv a → a.Increasing →
      st.InOrder a → drain st fuel a = some steps →
      (∀ ub ∈ steps.map Prod.fst, ∀ x < ub.nTokens, ∃ i < a.batch.nTokens, a.used i = false ∧
        ub.seqs x = a.batch.seqs i ∧ ub.pos x = a.batch.pos i) ∧
      (steps.map Prod.fst).Pairwise UBatch.Precedes := by
  induction fuel with
  | zero => intro a steps _ _ _ _ _ h; cases h
  | succ fuel ih =>
    intro a steps htab hfit hinv hinc hord h
    rcases st.split_spec htab hfit hinv with ⟨idxs, res, hres, hem, hinv'⟩ | ⟨-, hres⟩
    · obtain ⟨ub, a'⟩ := res
      simp only [drain, hres] at h
      split at h
      · cases h
        exact ⟨fun ub hub => absurd hub not_mem_nil, .nil⟩
      · obtain ⟨steps, hdrain, rfl⟩ := Option.map_eq_some_iff.mp h
        have hsame := hem.emitted.same
        obtain ⟨htoks, hpair⟩ := ih (hsame.tables htab) (hsame.allowed hfit) hinv'
          (hsame.increasing hinc) (hsame.inOrder hord) hdrain
        have hbatch : a'.batch = a.batch := hsame.batch
        rw [hbatch] at htoks
        refine ⟨fun ub' hub' x hx => ?_, pairwise_cons.mpr ⟨fun ub' hub' => ?_, hpair⟩⟩
        · rcases mem_cons.mp hub' with rfl | hub'
          · obtain ⟨i, hi, heq⟩ := hem.token hx
            exact ⟨i, (hem.free i hi).1, (hem.free i hi).2, heq⟩
          · obtain ⟨i, hi, hfree, heq⟩ := htoks ub' hub' x hx
            refine ⟨i, hi, ?_, heq⟩
            by_contra hused
            have hused' : a'.used i = true :=
              (hem.emitted.used_iff i).mpr (.inr (by simpa using hused))
            rw [hused'] at hfree
            cases hfree
        · intro x hx y hy s hsx hsy
          obtain ⟨j, hj, hjseqs, hjpos⟩ := hem.token hx
          obtain ⟨i, hi, hfree, hiseqs, hipos⟩ := htoks ub' hub' y hy
          have hjmem : s ∈ a.seqSet j := by
            rw [htab.seqSet_eq, mem_toFinset, ← hjseqs]
            exact hsx
          have himem : s ∈ a.seqSet i := by
            rw [htab.seqSet_eq, mem_toFinset, ← hiseqs]
            exact hsy
          have hout : i ∉ idxs := by
            intro hmem
            rw [(hem.mem_iff.mp hmem).2] at hfree
            cases hfree
          rw [hjpos, hipos]
          rcases lt_trichotomy i j with hij | rfl | hji
          · -- `i` was passed over, so that it is not at a smaller position
            have hfi : a.used i = false := by
              by_contra hused
              have hused' : a'.used i = true :=
                (hem.emitted.used_iff i).mpr (.inr (by simpa using hused))
              rw [hused'] at hfree
              cases hfree
            obtain ⟨k, hki, hk⟩ :=
              st.split_passes htab hfit hinv hres hem j hj i hij hfi hout s himem hjmem
            by_contra hlt
            exact hord k i j s hki hij (hem.free j hj).1 himem hjmem (not_le.mp hlt) hk
          · exact absurd hj hout
          · exact hinc j i s hji hi hjmem himem
    · simp only [drain, hres] at h
      cases h
      exact ⟨fun ub hub => absurd hub not_mem_nil, .nil⟩

/-- A call that `split_equal` refuses ends the run, or the program. -/
lemma drain_of_not_allowed {st : Strategy} (h : ¬ st.Allowed a)
    (hnames : ∀ i < a.batch.nTokens, 0 < a.batch.nSeqId i) {fuel : ℕ}
    {steps : List (UBatch × BatchAllocr)} (hdrain : drain st fuel a = some steps) : steps = [] := by
  cases fuel with
  | zero => cases hdrain
  | succ fuel =>
    cases st with
    | simple n => exact absurd trivial h
    | seq n => exact absurd trivial h
    | equal n sequential nKeepTail =>
      by_cases hcpl : sequential = true ∧ a.hasCpl = true
      · simp only [drain, Strategy.split, splitEqual, if_pos hcpl] at hdrain
        cases hdrain
        rfl
      · have hkeep : 0 < nKeepTail ∧ n ≤ nKeepTail := by
          by_contra hno
          exact h ⟨hcpl, by omega, hnames⟩
        by_cases hsets : a.chooseSets n sequential (range a.batch.nTokens) [] (-1) = []
        · simp only [drain, Strategy.split, splitEqual, if_neg hcpl, if_pos hsets, UBatch.empty,
            if_true] at hdrain
          cases hdrain
          rfl
        · simp only [drain, Strategy.split, splitEqual, if_neg hcpl, if_neg hsets, if_pos hkeep]
            at hdrain
          cases hdrain

/-- **The order of a run.**  The ubatches of an accepted batch whose tokens name a sequence
keep the tokens of each sequence in order of position, if no token can be taken before an
earlier one. -/
theorem drain_ordered {nPos nVocab nEmbd nSeqMax : ℕ} {inp : LlamaBatch}
    {memory : Option MemoryPos} {outputAll : Bool} {a : BatchAllocr}
    (hinit : init nPos inp nVocab memory nEmbd nSeqMax outputAll = some a)
    (hnames : ∀ i < a.batch.nTokens, 0 < a.batch.nSeqId i) (st : Strategy) (hord : st.InOrder a)
    {fuel : ℕ} {steps : List (UBatch × BatchAllocr)} (hdrain : drain st fuel a = some steps) :
    (steps.map Prod.fst).Pairwise UBatch.Precedes := by
  by_cases hfit : st.Allowed a
  · have ha := init_eq hinit
    exact (drain_precedes st fuel (ha ▸ tables_ofFull _ _ _ _) hfit (st.inv_init hinit)
      (increasing_of_init hinit) hord hdrain).2
  · rw [drain_of_not_allowed hfit hnames hdrain]
    exact .nil

theorem drain_ordered_threeTokens : ∃ a steps, init 1 threeTokens 10 none 0 2 false = some a ∧
      drain (.equal 4 false 0) 4 a = some steps ∧
      (steps.map Prod.fst).Pairwise UBatch.Precedes := by
  have hacc : (init 1 threeTokens 10 none 0 2 false).isSome = true := by decide +kernel
  obtain ⟨a, ha⟩ := Option.isSome_iff_exists.mp hacc
  have hsome : (drain (.equal 4 false 0) 4 a).isSome = true := by
    rw [init_eq ha]
    decide +kernel
  obtain ⟨steps, hsteps⟩ := Option.isSome_iff_exists.mp hsome
  refine ⟨a, steps, ha, hsteps, drain_ordered ha ?_ (.equal 4 false 0) ?_ hsteps⟩
  · rw [init_eq ha]
    decide
  · intro k i j s hki hij hj hsi hsj
    have hn : a.batch.nTokens = 3 := by rw [init_eq ha]; rfl
    obtain rfl : i = 1 := by omega
    obtain rfl : j = 2 := by omega
    have hdisj : a.seqSet 1 ∩ a.seqSet 2 = ∅ := by
      rw [init_eq ha]
      decide +kernel
    exact absurd (Finset.mem_inter.mpr ⟨hsi, hsj⟩) (hdisj ▸ Finset.notMem_empty s)

/-- Tokens of the sets `{0}`, `{0, 1}` and `{0}` at positions 0, 1 and 2. -/
def growingSets : LlamaBatch where
  nTokens := 3
  token := some fun _ => 7
  embd := none
  pos := some fun i => i
  nSeqId := some fun i => if i = 1 then 2 else 1
  seqId := some fun _ s => s
  logits := none

/-- The batch is accepted, but the token at position 2 is emitted before the one at
position 1. -/
theorem not_ordered_growingSets : ∃ a, init 1 growingSets 10 none 0 2 false = some a ∧
      (∀ i < a.batch.nTokens, 0 < a.batch.nSeqId i) ∧
      ∀ st ∈ [Strategy.seq 4, .equal 4 false 0], ∃ steps, drain st 4 a = some steps ∧
        ¬ (steps.map Prod.fst).Pairwise UBatch.Precedes := by
  have hacc : (init 1 growingSets 10 none 0 2 false).isSome = true := by decide +kernel
  obtain ⟨a, ha⟩ := Option.isSome_iff_exists.mp hacc
  have hbad : ∀ st ∈ [Strategy.seq 4, .equal 4 false 0], (drain st 4 a).any fun steps =>
      !decide ((steps.map Prod.fst).Pairwise UBatch.Precedes) := by
    rw [init_eq ha]
    decide +kernel
  refine ⟨a, ha, by rw [init_eq ha]; decide, fun st hst => ?_⟩
  have hst := hbad st hst
  cases hdrain : drain st 4 a with
  | none =>
    rw [hdrain] at hst
    cases hst
  | some steps =>
    rw [hdrain] at hst
    exact ⟨steps, rfl, by simpa using hst⟩

end BatchAllocr
end Llama
