import Llama.Batch

/-!
# What one call of a strategy emits

`Taken a0 l a` says that `a` is `a0` after the tokens `l` were marked; giving tokens back
undoes it.  Each strategy is described by `Emits a0 idxs r`: the call took exactly the
tokens `idxs`, all of them free before, and turned them into a ubatch.

`splitEqual` walks the index lists of the chosen sets with one cursor each.  A cursor cuts
the list of its set into a used part, the tokens of this call and the tokens that stay
(`CursorOk`); every loop of the strategy moves the second cut only.
-/

namespace Llama.BatchAllocr

open List

/-- The tables of a batch hold what `init` computed from it. -/
structure Tables (a : BatchAllocr) : Prop where
  seqSet_eq : ∀ i, a.seqSet i = (a.batch.seqs i).toFinset
  seqSetMap_eq : ∀ k, a.seqSetMap k = (List.range a.batch.nTokens).filter fun i => a.seqSet i = k
  hasCpl_eq : a.hasCpl = (List.range a.batch.nTokens).any fun i => 1 < a.batch.nSeqId i

lemma tables_ofFull (nPos : ℕ) (b : FullBatch) (nEmbd nSeqMax : ℕ) :
    (ofFull nPos b nEmbd nSeqMax).Tables :=
  ⟨fun _ => rfl, fun _ => rfl, rfl⟩

variable {a a0 : BatchAllocr} {i nKeepTail nUbatch : ℕ} {l post pre : List ℕ} {cs : List SetCursor}
  {sequential : Bool}

/-- An accepted batch is the filled-in batch with its tables. -/
lemma init_eq {nPos nVocab nEmbd nSeqMax : ℕ} {inp : LlamaBatch} {memory : Option MemoryPos}
    {outputAll : Bool} (h : init nPos inp nVocab memory nEmbd nSeqMax outputAll = some a) :
    a = ofFull nPos (fill inp memory nSeqMax outputAll) nEmbd nSeqMax := by
  simp only [init] at h
  split at h
  · exact (Option.some.inj h).symm
  · exact absurd h (by simp)

/-- A batch without tokens is rejected. -/
lemma nTokens_pos_of_init {nPos nVocab nEmbd nSeqMax : ℕ} {inp : LlamaBatch}
    {memory : Option MemoryPos} {outputAll : Bool}
    (h : init nPos inp nVocab memory nEmbd nSeqMax outputAll = some a) : 0 < a.batch.nTokens := by
  have ha := init_eq h
  simp only [init] at h
  split at h
  · next hc =>
    rw [ha]
    exact hc.1
  · cases h

lemma Tables.mem_seqSetMap (h : a.Tables) {k : Finset ℤ} :
    i ∈ a.seqSetMap k ↔ i < a.batch.nTokens ∧ a.seqSet i = k := by
  simp [h.seqSetMap_eq]

lemma Tables.nodup_seqSetMap (h : a.Tables) (k : Finset ℤ) : (a.seqSetMap k).Nodup := by
  rw [h.seqSetMap_eq]
  exact nodup_range.filter _

lemma Tables.length_seqSetMap_le (h : a.Tables) (k : Finset ℤ) :
    (a.seqSetMap k).length ≤ a.batch.nTokens := by
  rw [h.seqSetMap_eq]
  exact (length_filter_le _ _).trans_eq length_range

/-- A token that names a sequence does not have the empty set. -/
lemma Tables.seqSet_ne_empty (h : a.Tables) (hi : 0 < a.batch.nSeqId i) : a.seqSet i ≠ ∅ := by
  intro hempty
  have hid : a.batch.seqId i 0 ∈ a.seqSet i := by
    rw [h.seqSet_eq, mem_toFinset]
    exact mem_map_of_mem (mem_range.mpr hi)
  rw [hempty] at hid
  exact absurd hid (Finset.notMem_empty _)

/-! ## Taking and giving back -/

/-- `a` is `a0` after the tokens `l` were taken. -/
structure Taken (a0 : BatchAllocr) (l : List ℕ) (a : BatchAllocr) : Prop where
  frame : a = { a0 with used := a.used, nUsed := a.nUsed }
  used_iff : ∀ i, a.used i = true ↔ i ∈ l ∨ a0.used i = true
  nUsed_eq : a.nUsed = a0.nUsed + l.length

lemma Taken.refl (a : BatchAllocr) : Taken a [] a := ⟨rfl, by simp, by simp⟩

section

variable (h : Taken a0 l a)

include h

lemma Taken.batch_eq : a.batch = a0.batch := by rw [h.frame]

lemma Taken.seqSet_eq : a.seqSet = a0.seqSet := by rw [h.frame]

lemma Taken.seqSetMap_eq : a.seqSetMap = a0.seqSetMap := by rw [h.frame]

lemma Taken.hasCpl_eq : a.hasCpl = a0.hasCpl := by rw [h.frame]

lemma Taken.outIds_eq : a.outIds = a0.outIds := by rw [h.frame]

lemma Taken.nSeqMax_eq : a.nSeqMax = a0.nSeqMax := by rw [h.frame]

lemma Taken.nPosPerEmbd_eq : a.nPosPerEmbd = a0.nPosPerEmbd := by rw [h.frame]

lemma Taken.nEmbd_eq : a.nEmbd = a0.nEmbd := by rw [h.frame]

lemma Taken.perm {k : List ℕ} (hp : l.Perm k) : Taken a0 k a where
  frame := h.frame
  used_iff := fun i => by rw [h.used_iff, hp.mem_iff]
  nUsed_eq := by rw [h.nUsed_eq, hp.length_eq]

lemma Taken.use (i : ℕ) : Taken a0 (i :: l) (a.use i) where
  frame := by
    have hf := h.frame
    rw [BatchAllocr.use]
    conv_lhs => rw [hf]
  used_iff := by
    intro j
    by_cases hj : j = i
    · simp [BatchAllocr.use, hj]
    · simp [BatchAllocr.use, hj, h.used_iff]
  nUsed_eq := by
    have hn := h.nUsed_eq
    simp only [BatchAllocr.use, length_cons]
    omega

lemma Taken.use_append (i : ℕ) : Taken a0 (l ++ [i]) (a.use i) :=
  (h.use i).perm (perm_append_singleton i l).symm

end

lemma Taken.unuse (h : Taken a0 (i :: l) a) (hi : i ∉ l) (hfree : a0.used i = false) :
    Taken a0 l (a.unuse i) where
  frame := by
    have hf := h.frame
    rw [BatchAllocr.unuse]
    conv_lhs => rw [hf]
  used_iff := by
    intro j
    by_cases hj : j = i
    · simp [BatchAllocr.unuse, hj, hi, hfree]
    · simp [BatchAllocr.unuse, hj, h.used_iff]
  nUsed_eq := by
    have hn := h.nUsed_eq
    simp only [length_cons] at hn
    simp only [BatchAllocr.unuse]
    omega

/-- Giving back a whole list of free tokens. -/
lemma Taken.unuseAll {k : List ℕ} (l : List ℕ) :
    ∀ {a : BatchAllocr}, Taken a0 (l ++ k) a → (l ++ k).Nodup →
      (∀ i ∈ l, a0.used i = false) → Taken a0 k (l.foldl BatchAllocr.unuse a) := by
  induction l with
  | nil => intro a h _ _; exact h
  | cons i l ih =>
    intro a h hnd hfree
    have hnd' := nodup_cons.mp hnd
    refine ih ?_ hnd'.2 fun j hj => hfree j (mem_cons_of_mem _ hj)
    exact h.unuse hnd'.1 (hfree i mem_cons_self)

/-- A call took exactly the tokens `idxs`, all free before it, and made them a ubatch. -/
structure Emits (a0 : BatchAllocr) (idxs : List ℕ) (r : UBatch × BatchAllocr) : Prop where
  ne_nil : idxs ≠ []
  nodup : idxs.Nodup
  free : ∀ i ∈ idxs, i < a0.batch.nTokens ∧ a0.used i = false
  add : ∃ a nSeqs eq, Taken a0 idxs a ∧ r = a.ubatchAdd idxs nSeqs eq

lemma firstUnused_some (h : a.firstUnused = some i) : i < a.batch.nTokens ∧ a.used i = false := by
  have hmem := mem_of_find?_eq_some h
  have hp := find?_some h
  exact ⟨mem_range.mp hmem, by simpa using hp⟩

lemma firstUnused_none (h : a.firstUnused = none) : ∀ i < a.batch.nTokens, a.used i = true := by
  intro i hi
  have hno := find?_eq_none.mp h i (mem_range.mpr hi)
  simpa using hno

/-- The tokens before the first unused one are used. -/
lemma used_of_lt_firstUnused {cur : ℕ} (h : a.firstUnused = some cur) (hi : i < cur) :
    a.used i = true := by
  obtain ⟨-, as, bs, hsplit, hall⟩ := find?_eq_some_iff_append.mp h
  have hir : i ∈ range a.batch.nTokens := by
    have := (firstUnused_some h).1
    exact mem_range.mpr (by omega)
  have hsorted : (range a.batch.nTokens).Pairwise (· < ·) := pairwise_lt_range
  rw [hsplit] at hir hsorted
  rcases mem_append.mp hir with hia | hib
  · simpa using hall i hia
  · rcases mem_cons.mp hib with rfl | hib
    · omega
    · have := (pairwise_cons.mp (pairwise_append.mp hsorted).2.1).1 i hib
      omega

/-- The loop takes a run of consecutive tokens, at least one when any is left. -/
lemma simpleLoop_spec (nUbatch : ℕ) :
    ∀ (k cur : ℕ) (idxs : List ℕ) (a : BatchAllocr), Taken a0 idxs a → ∃ m ≤ k, (k ≠ 0 → m ≠ 0) ∧
        (simpleLoop nUbatch k cur idxs a).1 = idxs ++ range' cur m ∧
        Taken a0 (idxs ++ range' cur m) (simpleLoop nUbatch k cur idxs a).2 := by
  intro k
  induction k with
  | zero =>
    intro cur idxs a h
    exact ⟨0, le_rfl, absurd rfl, by simp [simpleLoop], by simpa [simpleLoop] using h⟩
  | succ k ih =>
    intro cur idxs a h
    have huse := h.use_append cur
    by_cases hstop : nUbatch ≤ (idxs ++ [cur]).length
    · refine ⟨1, by omega, by omega, ?_, ?_⟩
      · simp only [simpleLoop, if_pos hstop]
        rfl
      · simp only [simpleLoop, if_pos hstop]
        exact huse
    · obtain ⟨m, hm, _, heq, htaken⟩ := ih (cur + 1) (idxs ++ [cur]) (a.use cur) huse
      have hcons : idxs ++ range' cur (m + 1) = idxs ++ [cur] ++ range' (cur + 1) m := by
        simp [range'_succ]
      refine ⟨m + 1, by omega, by omega, ?_, ?_⟩
      · simp only [simpleLoop, if_neg hstop]
        rw [heq, hcons]
      · simp only [simpleLoop, if_neg hstop]
        rw [hcons]
        exact htaken

/-- **`split_simple` takes a run of tokens from the first unused one on**, all of them free
when the used tokens form a prefix of the batch. -/
theorem splitSimple_spec (nUbatch : ℕ) {cur : ℕ} (hcur : a.firstUnused = some cur)
    (hpre : ∀ i, cur ≤ i → a.used i = false) :
    ∃ m, m ≠ 0 ∧ cur + m ≤ a.batch.nTokens ∧ Emits a (range' cur m) (a.splitSimple nUbatch) := by
  obtain ⟨hlt, _⟩ := firstUnused_some hcur
  obtain ⟨m, hm, hm0, heq, htaken⟩ :=
    simpleLoop_spec nUbatch (a.batch.nTokens - cur) cur [] a (.refl a)
  have hm0 : m ≠ 0 := hm0 (by omega)
  simp only [nil_append] at heq htaken
  refine ⟨m, hm0, by omega, ?_, nodup_range', ?_, ?_⟩
  · simpa using hm0
  · intro i hi
    simp only [mem_range'_1] at hi
    exact ⟨by omega, hpre i hi.1⟩
  · refine ⟨_, m, false, htaken, ?_⟩
    simp only [splitSimple, hcur, heq, length_range']

lemma nextSubset_some {set : Finset ℤ} {j : ℕ} : ∀ {k cur : ℕ}, a.nextSubset set k cur = some j →
      cur < j ∧ j ≤ cur + k ∧ a.used j = false ∧ a.seqSet j ⊆ set := by
  intro k
  induction k with
  | zero => intro cur h; simp [nextSubset] at h
  | succ k ih =>
    intro cur h
    simp only [nextSubset] at h
    split at h
    · obtain ⟨hlt, hle, hrest⟩ := ih h
      exact ⟨by omega, by omega, hrest⟩
    · rename_i hok
      push Not at hok
      obtain rfl : cur + 1 = j := Option.some.inj h
      exact ⟨by omega, by omega, by simpa using hok.1, hok.2⟩

lemma seqLoop_spec (nUbatch : ℕ) :
    ∀ (fuel cur : ℕ) (set : Finset ℤ) (idxs : List ℕ) (a : BatchAllocr), Taken a0 idxs a →
      cur < a0.batch.nTokens → a0.used cur = false → (∀ i ∈ idxs, i < cur) →
      ∃ new : List ℕ, (fuel ≠ 0 → new ≠ []) ∧
        new.Nodup ∧ (∀ i ∈ new, cur ≤ i ∧ i < a0.batch.nTokens ∧ a0.used i = false) ∧
        (seqLoop nUbatch fuel cur set idxs a).1 = idxs ++ new ∧
        Taken a0 (idxs ++ new) (seqLoop nUbatch fuel cur set idxs a).2 := by
  intro fuel
  induction fuel with
  | zero =>
    intro cur set idxs a h _ _ _
    exact ⟨[], absurd rfl, nodup_nil, by simp, by simp [seqLoop],
      by simpa [seqLoop] using h⟩
  | succ fuel ih =>
    intro cur set idxs a h hlt hfree hbelow
    have huse := h.use_append cur
    have hone : ∀ i ∈ [cur], cur ≤ i ∧ i < a0.batch.nTokens ∧ a0.used i = false := by
      intro i hi
      rw [mem_singleton.mp hi]
      exact ⟨le_rfl, hlt, hfree⟩
    by_cases hstop : nUbatch ≤ (idxs ++ [cur]).length
    · refine ⟨[cur], by simp, nodup_singleton cur, hone, ?_, ?_⟩
      · simp only [seqLoop, if_pos hstop]
      · simp only [seqLoop, if_pos hstop]
        exact huse
    · cases hnext : (a.use cur).nextSubset set ((a.use cur).batch.nTokens - (cur + 1)) cur with
      | none =>
        refine ⟨[cur], by simp, nodup_singleton cur, hone, ?_, ?_⟩
        · simp only [seqLoop, if_neg hstop, hnext]
        · simp only [seqLoop, if_neg hstop, hnext]
          exact huse
      | some j =>
        obtain ⟨hcj, hjn, hju, _⟩ := nextSubset_some hnext
        have hjfree : a0.used j = false := by
          by_contra hne
          have := (huse.used_iff j).mpr (.inr (by simpa using hne))
          rw [this] at hju
          exact absurd hju (by simp)
        have hjn : j < a0.batch.nTokens := by
          rw [huse.batch_eq] at hjn
          omega
        have hbelow' : ∀ i ∈ idxs ++ [cur], i < j := by
          intro i hi
          rcases mem_append.mp hi with hi | hi
          · exact (hbelow i hi).trans hcj
          · rw [mem_singleton.mp hi]
            exact hcj
        obtain ⟨new, _, hnd, hnew, heq, htaken⟩ :=
          ih j ((a.use cur).seqSet j) (idxs ++ [cur]) (a.use cur) huse hjn hjfree hbelow'
        refine ⟨cur :: new, by simp, ?_, ?_, ?_, ?_⟩
        · refine nodup_cons.mpr ⟨fun hmem => ?_, hnd⟩
          have := (hnew cur hmem).1
          omega
        · intro i hi
          rcases mem_cons.mp hi with rfl | hi
          · exact ⟨le_rfl, hlt, hfree⟩
          · obtain ⟨h1, h2⟩ := hnew i hi
            exact ⟨by omega, h2⟩
        · simp only [seqLoop, if_neg hstop, hnext]
          rw [heq]
          simp
        · simp only [seqLoop, if_neg hstop, hnext]
          rw [append_cons]
          exact htaken

/-- **`split_seq` takes free tokens**, the first unused one among them. -/
theorem splitSeq_spec (nUbatch : ℕ) {cur : ℕ} (hcur : a.firstUnused = some cur) :
    ∃ idxs, Emits a idxs (a.splitSeq nUbatch) := by
  obtain ⟨hlt, hfree⟩ := firstUnused_some hcur
  obtain ⟨new, hne, hnd, hnew, heq, htaken⟩ :=
    seqLoop_spec nUbatch a.batch.nTokens cur (a.seqSet cur) [] a (.refl a) hlt hfree (by simp)
  simp only [nil_append] at heq htaken
  refine ⟨new, hne (by omega), hnd, fun i hi => (hnew i hi).2, ?_⟩
  refine ⟨_, 1, true, htaken, ?_⟩
  simp only [splitSeq, hcur, heq]

/-! ## The sets of `split_equal` -/

/-- The used tokens of a set come before its unused ones. -/
def SetPrefix (a : BatchAllocr) : Prop :=
  ∀ i j, i < j → j < a.batch.nTokens → a.seqSet i = a.seqSet j → a.used j = true → a.used i = true

/-- The tokens whose sets are chosen after `sets`: they are unused, the sets do not overlap, and in
sequential mode the first ids of the tokens count up by one. -/
structure Chosen (a : BatchAllocr) (sequential : Bool) (is : List ℕ) (sets : List (Finset ℤ))
    (last : ℤ) (toks : List ℕ) : Prop where
  free : ∀ t ∈ toks, t ∈ is ∧ a.used t = false
  disjoint : (sets ++ toks.map a.seqSet).Pairwise fun c d => c ∩ d = ∅
  ne_nil : sets = [] → (∃ t ∈ is, a.used t = false) → toks ≠ []
  ids : sequential = true → ∃ base : ℤ, (sets ≠ [] → base = last + 1) ∧
    ∀ k (hk : k < toks.length), a.batch.seqId toks[k] 0 = base + k

section

variable {is toks : List ℕ} {sets : List (Finset ℤ)} {last : ℤ}

lemma chosen_nil (hdisj : sets.Pairwise fun c d => c ∩ d = ∅) (hne : sets = [] → is = []) :
    Chosen a sequential is sets last [] where
  free := by simp
  disjoint := by simpa using hdisj
  ne_nil := by
    rintro hnil ⟨t, ht, -⟩
    rw [hne hnil] at ht
    cases ht
  ids := fun _ => ⟨last + 1, fun _ => rfl, by simp⟩

lemma Chosen.skip (h : Chosen a sequential is sets last toks)
    (hused : sets = [] → a.used i = true) : Chosen a sequential (i :: is) sets last toks where
  free := fun t ht => ⟨mem_cons_of_mem _ (h.free t ht).1, (h.free t ht).2⟩
  disjoint := h.disjoint
  ne_nil := by
    rintro hnil ⟨t, ht, hfree⟩
    rcases mem_cons.mp ht with rfl | ht
    · exact absurd (hused hnil) (by simp [hfree])
    · exact h.ne_nil hnil ⟨t, ht, hfree⟩
  ids := h.ids

lemma Chosen.add (h : Chosen a sequential is (sets ++ [a.seqSet i]) (a.batch.seqId i 0) toks)
    (hfree : a.used i = false)
    (hid : sequential = true → sets = [] ∨ a.batch.seqId i 0 = last + 1) :
    Chosen a sequential (i :: is) sets last (i :: toks) where
  free := by
    intro t ht
    rcases mem_cons.mp ht with rfl | ht
    · exact ⟨mem_cons_self, hfree⟩
    · exact ⟨mem_cons_of_mem _ (h.free t ht).1, (h.free t ht).2⟩
  disjoint := by simpa using h.disjoint
  ne_nil := by simp
  ids := by
    intro hseq
    obtain ⟨base, hb, hall⟩ := h.ids hseq
    refine ⟨a.batch.seqId i 0, fun hne => (hid hseq).resolve_left hne, fun k hk => ?_⟩
    cases k with
    | zero => simp
    | succ k =>
      have hb := hb (by simp)
      have := hall k (by simpa using hk)
      simp only [getElem_cons_succ]
      omega

end

/-- The chosen sets are those of some unused tokens. -/
lemma chooseSets_spec (a : BatchAllocr) (nUbatch : ℕ) (sequential : Bool) (is : List ℕ)
    (sets : List (Finset ℤ)) (last : ℤ) (hdisj : sets.Pairwise fun c d => c ∩ d = ∅) :
    ∃ toks, a.chooseSets nUbatch sequential is sets last = sets ++ toks.map a.seqSet ∧
      Chosen a sequential is sets last toks := by
  induction is generalizing sets last with
  | nil => exact ⟨[], by simp [chooseSets], chosen_nil hdisj fun _ => rfl⟩
  | cons i is ih =>
    by_cases hu : a.used i = true
    · obtain ⟨toks, heq, h⟩ := ih sets last hdisj
      exact ⟨toks, by simpa [chooseSets, hu] using heq, h.skip fun _ => hu⟩
    have hfree : a.used i = false := by simpa using hu
    by_cases hadd : sets.all (fun c => c ∩ a.seqSet i = ∅) = true ∧
        (sequential = true → sets = [] ∨ a.batch.seqId i 0 = last + 1)
    · have hdisj' : (sets ++ [a.seqSet i]).Pairwise fun c d => c ∩ d = ∅ := by
        refine pairwise_append.mpr ⟨hdisj, pairwise_singleton _ _, ?_⟩
        intro c hc d hd
        rw [mem_singleton.mp hd]
        simpa using all_eq_true.mp hadd.1 c hc
      by_cases hstop : nUbatch < (sets ++ [a.seqSet i]).length
      · refine ⟨[i], ?_, (chosen_nil hdisj' (by simp)).add hfree hadd.2⟩
        simp only [chooseSets, hfree, if_pos hadd, if_pos hstop]
        rfl
      · obtain ⟨toks, heq, h⟩ := ih _ (a.batch.seqId i 0) hdisj'
        refine ⟨i :: toks, ?_, h.add hfree hadd.2⟩
        simp only [chooseSets, hfree, if_pos hadd, if_neg hstop]
        rw [heq]
        simp
    · obtain ⟨toks, heq, h⟩ := ih sets last hdisj
      refine ⟨toks, ?_, h.skip fun hnil => ?_⟩
      · simp only [chooseSets, hfree, if_neg hadd]
        exact heq
      · exact absurd ⟨by simp [hnil], fun _ => .inl hnil⟩ hadd

/-! ## Cursors -/

/-- A cursor cuts the list of its set into the tokens used before the call, the tokens it
took, and the tokens that stay free. -/
structure CursorOk (a0 : BatchAllocr) (c : SetCursor) (pre post : List ℕ) : Prop where
  list_eq : a0.seqSetMap c.set = pre ++ c.idxs ++ post
  cur_eq : c.cur = pre.length + c.idxs.length
  pre_used : ∀ i ∈ pre, a0.used i = true
  free : ∀ i ∈ c.idxs ++ post, a0.used i = false

lemma CursorOk.nRemaining_eq {c : SetCursor} (h : CursorOk a0 c pre post) :
    a0.nRemaining c = post.length := by
  simp only [nRemaining, h.list_eq, h.cur_eq, length_append]
  omega

lemma CursorOk.exhausted_iff {c : SetCursor} (h : CursorOk a0 c pre post) :
    (a0.seqSetMap c.set).length ≤ c.cur ↔ post = [] := by
  rw [← length_eq_zero_iff, ← h.nRemaining_eq, nRemaining]
  omega

lemma startCursor_ok (ht : a.Tables) (hp : a.SetPrefix) {t : ℕ} (hlt : t < a.batch.nTokens)
    (hfree : a.used t = false) :
    ∃ pre post, CursorOk a (a.startCursor (a.seqSet t)) pre post ∧ post ≠ [] := by
  set L := a.seqSetMap (a.seqSet t) with hL
  set n := L.findIdx (fun i => !a.used i) with hn
  have hmem : t ∈ L := ht.mem_seqSetMap.mpr ⟨hlt, rfl⟩
  have hnl : n < L.length := findIdx_lt_length_of_exists ⟨t, hmem, by simp [hfree]⟩
  have hx : a.used L[n] = false := by
    have hfound := findIdx_getElem (w := hnl)
    simpa using hfound
  have hdrop : L.drop n = L[n] :: L.drop (n + 1) := drop_eq_getElem_cons hnl
  have hsorted : (L.drop n).Pairwise (· < ·) := by
    have hr : L.Pairwise (· < ·) := by
      rw [hL, ht.seqSetMap_eq]
      exact pairwise_lt_range.filter _
    exact hr.sublist (drop_sublist n L)
  refine ⟨L.take n, L.drop n, ⟨?_, ?_, ?_, ?_⟩, by rw [hdrop]; exact cons_ne_nil _ _⟩
  · simp [startCursor, ← hL]
  · have hlen : (L.take n).length = n := length_take_of_le hnl.le
    simp only [startCursor, ← hL, ← hn, hlen, length_nil, add_zero]
  · intro i hi
    obtain ⟨k, hk, rfl⟩ := getElem_of_mem hi
    have hkn : k < n := by
      rw [length_take] at hk
      omega
    have hbefore := not_of_lt_findIdx hkn
    simpa using hbefore
  · intro i hi
    by_contra hne
    have hused : a.used i = true := by simpa using hne
    rw [hdrop] at hi hsorted
    rcases mem_cons.mp hi with rfl | hi'
    · rw [hx] at hused
      exact absurd hused (by simp)
    · have hlt' : L[n] < i := (pairwise_cons.mp hsorted).1 i hi'
      have hin := ht.mem_seqSetMap.mp (mem_of_mem_drop hi' : i ∈ L)
      have hxn := ht.mem_seqSetMap.mp (getElem_mem hnl : L[n] ∈ L)
      have := hp L[n] i hlt' hin.1 (hxn.2.trans hin.2.symm) hused
      rw [hx] at this
      exact absurd this (by simp)

/-- Moving a cursor takes the first free token of its set. -/
lemma advance_spec {c : SetCursor} {x : ℕ} (h : CursorOk a0 c pre (x :: post))
    (ht : Taken a0 l a) : (a.advance c).1 = { c with cur := c.cur + 1, idxs := c.idxs ++ [x] } ∧
      CursorOk a0 (a.advance c).1 pre post ∧ Taken a0 (l ++ [x]) (a.advance c).2 := by
  have hx : (a.seqSetMap c.set).getD c.cur 0 = x := by
    rw [ht.seqSetMap_eq, h.list_eq, h.cur_eq]
    simp [getD_eq_getElem?_getD]
  have hc : (a.advance c).1 = { c with cur := c.cur + 1, idxs := c.idxs ++ [x] } := by
    simp only [advance, hx]
  refine ⟨hc, ?_, ?_⟩
  · rw [hc]
    refine ⟨by simp [h.list_eq], ?_, h.pre_used, ?_⟩
    · have := h.cur_eq
      simp only [length_append, length_singleton]
      omega
    · intro i hi
      exact h.free i (by simpa using hi)
  · simp only [advance, hx]
    exact ht.use_append x

/-- All tokens taken by the cursors so far. -/
def takenBy (cs : List SetCursor) : List ℕ := cs.flatMap (·.idxs)

@[simp] lemma takenBy_nil : takenBy [] = [] := rfl

@[simp] lemma takenBy_cons (c : SetCursor) (cs : List SetCursor) :
    takenBy (c :: cs) = c.idxs ++ takenBy cs := rfl

/-- Every cursor cuts the list of its set, and each has taken `r` tokens. -/
structure CursorsOk (a0 : BatchAllocr) (cs : List SetCursor) (r : ℕ) : Prop where
  ok : ∀ c ∈ cs, ∃ pre post, CursorOk a0 c pre post
  rounds : ∀ c ∈ cs, c.idxs.length = r

lemma advanceAll_spec {r : ℕ} :
    ∀ (cs : List SetCursor) (a : BatchAllocr) (extra : List ℕ), CursorsOk a0 cs r →
      (∀ c ∈ cs, c.cur < (a0.seqSetMap c.set).length) → Taken a0 (takenBy cs ++ extra) a →
      (advanceAll cs a).1.map (·.set) = cs.map (·.set) ∧ CursorsOk a0 (advanceAll cs a).1 (r + 1) ∧
        (∀ m, (∀ c ∈ cs, a0.nRemaining c < m + 1) →
          ∀ c ∈ (advanceAll cs a).1, a0.nRemaining c < m) ∧
        Taken a0 (takenBy (advanceAll cs a).1 ++ extra) (advanceAll cs a).2 := by
  intro cs
  induction cs with
  | nil =>
    intro a extra _ _ ht
    exact ⟨rfl, ⟨by simp [advanceAll], by simp [advanceAll]⟩, by simp [advanceAll],
      by simpa [advanceAll] using ht⟩
  | cons c cs ih =>
    intro a extra hok hlt ht
    obtain ⟨pre, post, hc⟩ := hok.ok c mem_cons_self
    have hpost : post ≠ [] := fun hnil =>
      absurd (hc.exhausted_iff.mpr hnil) (not_le.mpr (hlt c mem_cons_self))
    obtain ⟨x, post, rfl⟩ := exists_cons_of_ne_nil hpost
    obtain ⟨hval, hc', ht'⟩ := advance_spec hc ht
    have hperm : (takenBy (c :: cs) ++ extra ++ [x]).Perm
        (takenBy cs ++ ((c.idxs ++ [x]) ++ extra)) := by
      simp only [takenBy_cons, append_assoc]
      refine (perm_append_comm_assoc _ _ _).trans (List.Perm.append_left _ ?_)
      exact List.Perm.append_left _ perm_append_comm
    obtain ⟨hsets, hok', hrem, htaken⟩ :=
      ih (a.advance c).2 ((c.idxs ++ [x]) ++ extra)
        ⟨fun d hd => hok.ok d (mem_cons_of_mem _ hd),
          fun d hd => hok.rounds d (mem_cons_of_mem _ hd)⟩
        (fun d hd => hlt d (mem_cons_of_mem _ hd)) (ht'.perm hperm)
    have hadv : advanceAll (c :: cs) a = ((a.advance c).1 :: (advanceAll cs (a.advance c).2).1,
        (advanceAll cs (a.advance c).2).2) := rfl
    have hset : (a.advance c).1.set = c.set := by rw [hval]
    have hidxs : (a.advance c).1.idxs = c.idxs ++ [x] := by rw [hval]
    rw [hadv]
    refine ⟨?_, ⟨?_, ?_⟩, ?_, ?_⟩
    · simp only [map_cons, hsets, hset]
    · intro d hd
      rcases mem_cons.mp hd with rfl | hd
      · exact ⟨pre, post, hc'⟩
      · exact hok'.ok d hd
    · intro d hd
      rcases mem_cons.mp hd with heq | hd
      · have := hok.rounds c mem_cons_self
        rw [heq, hidxs]
        simp [this]
      · exact hok'.rounds d hd
    · intro m hm d hd
      rcases mem_cons.mp hd with heq | hd
      · have := hm c mem_cons_self
        rw [hc.nRemaining_eq] at this
        rw [heq, hc'.nRemaining_eq]
        simpa using this
      · exact hrem m (fun e he => hm e (mem_cons_of_mem _ he)) d hd
    · refine htaken.perm ?_
      simp only [takenBy_cons, hidxs]
      rw [← append_assoc]
      exact List.Perm.append_right _ perm_append_comm

/-- A round of the loop, which is the next one for every set. -/
lemma expandLoop_succ {nUbatch fuel r : ℕ} {cs : List SetCursor} {a : BatchAllocr}
    (hne : cs ≠ []) (hany : ¬ cs.any (fun c => (a.seqSetMap c.set).length ≤ c.cur) = true)
    (hsets : (advanceAll cs a).1.map (·.set) = cs.map (·.set))
    (hround : ∀ c ∈ (advanceAll cs a).1, c.idxs.length = r + 1) :
    (advanceAll cs a).1.length = cs.length ∧ (advanceAll cs a).1 ≠ [] ∧
      expandLoop nUbatch (fuel + 1) cs a = if nUbatch < (r + 1 + 1) * cs.length then advanceAll cs a
        else expandLoop nUbatch fuel (advanceAll cs a).1 (advanceAll cs a).2 := by
  have hlen : (advanceAll cs a).1.length = cs.length := by
    simpa using congrArg List.length hsets
  have hne' : (advanceAll cs a).1 ≠ [] := by
    intro hnil
    rw [hnil] at hlen
    exact hne (length_eq_zero_iff.mp hlen.symm)
  refine ⟨hlen, hne', ?_⟩
  obtain ⟨d, ds, hd⟩ := exists_cons_of_ne_nil hne'
  have hd1 := hround d (by rw [hd]; exact mem_cons_self)
  simp only [expandLoop, if_neg hany]
  rw [← hlen]
  generalize advanceAll cs a = p at hd
  obtain ⟨cs', a'⟩ := p
  subst hd
  simp only [hd1]

/-- The loop keeps the sets and the equal number of rounds, takes at least one round when
every set has a free token, and with enough fuel it stops because a set is exhausted or
another round would not fit. -/
lemma expandLoop_spec (nUbatch : ℕ) :
    ∀ (fuel : ℕ) (cs : List SetCursor) (a : BatchAllocr) (r : ℕ), cs ≠ [] → CursorsOk a0 cs r →
      Taken a0 (takenBy cs) a → (∀ c ∈ cs, a0.nRemaining c < fuel) →
      ∃ r', (expandLoop nUbatch fuel cs a).1.map (·.set) = cs.map (·.set) ∧
        CursorsOk a0 (expandLoop nUbatch fuel cs a).1 r' ∧
        Taken a0 (takenBy (expandLoop nUbatch fuel cs a).1) (expandLoop nUbatch fuel cs a).2 ∧
        r ≤ r' ∧ ((∀ c ∈ cs, c.cur < (a0.seqSetMap c.set).length) → r < r') ∧
        ((∃ c ∈ (expandLoop nUbatch fuel cs a).1, a0.nRemaining c = 0) ∨
          nUbatch < (r' + 1) * cs.length) := by
  intro fuel
  induction fuel with
  | zero =>
    intro cs a r hne _ _ hfuel
    obtain ⟨c, cs, rfl⟩ := exists_cons_of_ne_nil hne
    exact absurd (hfuel c mem_cons_self) (Nat.not_lt_zero _)
  | succ fuel ih =>
    intro cs a r hne hok ht hfuel
    by_cases hany : cs.any (fun c => (a.seqSetMap c.set).length ≤ c.cur) = true
    · have hres : expandLoop nUbatch (fuel + 1) cs a = (cs, a) := by
        simp only [expandLoop, if_pos hany]
      obtain ⟨c, hc, hex⟩ := any_eq_true.mp hany
      have hex : (a0.seqSetMap c.set).length ≤ c.cur := by
        rw [ht.seqSetMap_eq] at hex
        simpa using hex
      rw [hres]
      refine ⟨r, rfl, hok, ht, le_rfl, fun hall => ?_, .inl ⟨c, hc, ?_⟩⟩
      · exact absurd (hall c hc) (not_lt.mpr hex)
      · simp only [nRemaining]
        omega
    · have hlt : ∀ c ∈ cs, c.cur < (a0.seqSetMap c.set).length := by
        intro c hc
        by_contra hge
        refine hany (any_eq_true.mpr ⟨c, hc, ?_⟩)
        rw [ht.seqSetMap_eq]
        simpa using not_lt.mp hge
      obtain ⟨hsets, hok', hrem, ht'⟩ := advanceAll_spec cs a [] hok hlt (by simpa using ht)
      simp only [append_nil] at ht'
      obtain ⟨hlen, hne', hstep⟩ := expandLoop_succ hne hany
        hsets hok'.rounds
      by_cases hfull : nUbatch < (r + 1 + 1) * cs.length
      · rw [hstep, if_pos hfull]
        exact ⟨r + 1, hsets, hok', ht', by omega, fun _ => by omega, .inr hfull⟩
      · rw [hstep, if_neg hfull]
        obtain ⟨r', h1, h2, h3, h4, _, h6⟩ :=
          ih (advanceAll cs a).1 (advanceAll cs a).2 (r + 1) hne' hok' ht' (hrem fuel hfuel)
        exact ⟨r', h1.trans hsets, h2, h3, by omega, fun _ => by omega, hlen ▸ h6⟩

/-! ## Keeping the tail -/

lemma extendLoop_spec : ∀ (k : ℕ) (c : SetCursor) (a : BatchAllocr) (pre post extra : List ℕ),
      CursorOk a0 c pre post → k ≤ post.length → Taken a0 (c.idxs ++ extra) a →
      ∃ post', CursorOk a0 (extendLoop k c a).1 pre post' ∧
        (extendLoop k c a).1.set = c.set ∧ (extendLoop k c a).1.idxs.length = c.idxs.length + k ∧
        (extendLoop k c a).1.idxs ++ post' = c.idxs ++ post ∧
        Taken a0 ((extendLoop k c a).1.idxs ++ extra) (extendLoop k c a).2 := by
  intro k
  induction k with
  | zero =>
    intro c a pre post extra hc _ ht
    exact ⟨post, hc, rfl, rfl, rfl, ht⟩
  | succ k ih =>
    intro c a pre post extra hc hk ht
    obtain ⟨x, post, rfl⟩ : ∃ x p, post = x :: p :=
      exists_cons_of_ne_nil (by rintro rfl; simp at hk)
    obtain ⟨hval, hc', ht'⟩ := advance_spec hc ht
    have hset : (a.advance c).1.set = c.set := by rw [hval]
    have hidxs : (a.advance c).1.idxs = c.idxs ++ [x] := by rw [hval]
    have hperm : (c.idxs ++ extra ++ [x]).Perm ((a.advance c).1.idxs ++ extra) := by
      rw [hidxs]
      simp only [append_assoc]
      exact List.Perm.append_left _ perm_append_comm
    obtain ⟨post', h1, h2, h3, h4, h5⟩ :=
      ih (a.advance c).1 (a.advance c).2 pre post extra hc' (by simpa using hk) (ht'.perm hperm)
    refine ⟨post', h1, h2.trans hset, ?_, ?_, h5⟩
    · have hlen : (a.advance c).1.idxs.length = c.idxs.length + 1 := by simp [hidxs]
      rw [extendLoop, h3]
      omega
    · refine h4.trans ?_
      rw [hidxs]
      simp

lemma truncateLoop_spec : ∀ (k : ℕ) (c : SetCursor) (a : BatchAllocr) (pre post extra : List ℕ),
      CursorOk a0 c pre post → k ≤ c.idxs.length → (c.idxs ++ extra).Nodup →
      Taken a0 (c.idxs ++ extra) a →
      ∃ post', CursorOk a0 (truncateLoop k c a).1 pre post' ∧ (truncateLoop k c a).1.set = c.set ∧
        (truncateLoop k c a).1.idxs.length = c.idxs.length - k ∧
        (truncateLoop k c a).1.idxs ++ post' = c.idxs ++ post ∧
        Taken a0 ((truncateLoop k c a).1.idxs ++ extra) (truncateLoop k c a).2 := by
  intro k
  induction k with
  | zero =>
    intro c a pre post extra hc _ _ ht
    exact ⟨post, hc, rfl, rfl, rfl, ht⟩
  | succ k ih =>
    intro c a pre post extra hc hk hnd ht
    have hne : c.idxs ≠ [] := by
      intro hnil
      simp [hnil] at hk
    obtain ⟨l, x, hlx⟩ : ∃ l x, c.idxs = l ++ [x] :=
      ⟨_, _, (dropLast_append_getLast hne).symm⟩
    have hlast : c.idxs.getLastD 0 = x := by simp [hlx]
    set d : SetCursor := { c with cur := c.cur - 1, idxs := c.idxs.dropLast } with hd
    have hdl : d.idxs = l := by simp [hd, hlx]
    have hdok : CursorOk a0 d pre (x :: post) := by
      refine ⟨?_, ?_, hc.pre_used, ?_⟩
      · rw [hdl]
        simpa [hlx] using hc.list_eq
      · have hcur := hc.cur_eq
        rw [hlx, length_append, length_singleton] at hcur
        rw [hdl]
        show c.cur - 1 = pre.length + l.length
        omega
      · intro i hi
        rw [hdl] at hi
        exact hc.free i (by simpa [hlx] using hi)
    have hperm : (c.idxs ++ extra).Perm (x :: (d.idxs ++ extra)) := by
      rw [hlx, hdl, append_assoc]
      exact perm_middle
    have hnd' := nodup_cons.mp (hperm.nodup_iff.mp hnd)
    have ht' : Taken a0 (d.idxs ++ extra) (a.unuse x) :=
      (ht.perm hperm).unuse hnd'.1 (hc.free x (by simp [hlx]))
    have hdlen : d.idxs.length = c.idxs.length - 1 := by simp [hd]
    obtain ⟨post', h1, h2, h3, h4, h5⟩ :=
      ih d (a.unuse x) pre (x :: post) extra hdok (by omega) hnd'.2 ht'
    have hstep : truncateLoop (k + 1) c a = truncateLoop k d (a.unuse x) := by
      simp only [truncateLoop, hlast, hd]
    rw [hstep]
    refine ⟨post', h1, h2, by omega, ?_, h5⟩
    rw [h4, hdl, hlx]
    simp

lemma CursorOk.mem_set {c : SetCursor} (h : CursorOk a0 c pre post) (ht : a0.Tables)
    (hi : i ∈ c.idxs) : i < a0.batch.nTokens ∧ a0.seqSet i = c.set := by
  refine ht.mem_seqSetMap.mp ?_
  rw [h.list_eq]
  simp [hi]

/-- Cursors on different sets take different tokens. -/
lemma nodup_takenBy (ht : a0.Tables) :
    ∀ {cs : List SetCursor}, (∀ c ∈ cs, ∃ pre post, CursorOk a0 c pre post) →
      (cs.map (·.set)).Nodup → (takenBy cs).Nodup := by
  intro cs
  induction cs with
  | nil => intro _ _; exact nodup_nil
  | cons c cs ih =>
    intro hok hnd
    have hnd' := nodup_cons.mp hnd
    obtain ⟨pre, post, hc⟩ := hok c mem_cons_self
    refine nodup_append.mpr ⟨?_, ?_, ?_⟩
    · have hl := ht.nodup_seqSetMap c.set
      rw [hc.list_eq, append_assoc] at hl
      exact (nodup_append.mp (nodup_append.mp hl).2.1).1
    · exact ih (fun d hd => hok d (mem_cons_of_mem _ hd)) hnd'.2
    · intro i hi j hj hij
      subst hij
      obtain ⟨d, hd, hid⟩ := mem_flatMap.mp hj
      obtain ⟨_, _, hdok⟩ := hok d (mem_cons_of_mem _ hd)
      have heq : c.set = d.set := (hc.mem_set ht hi).2.symm.trans (hdok.mem_set ht hid).2
      exact hnd'.1 (mem_map.mpr ⟨d, hd, heq.symm⟩)

lemma free_takenBy (hok : ∀ c ∈ cs, ∃ pre post, CursorOk a0 c pre post) :
    ∀ i ∈ takenBy cs, a0.used i = false := by
  intro i hi
  obtain ⟨c, hc, hic⟩ := mem_flatMap.mp hi
  obtain ⟨_, _, hcok⟩ := hok c hc
  exact hcok.free i (mem_append_left _ hic)

lemma foldl_unuse_eq (cs : List SetCursor) (a : BatchAllocr) :
    cs.foldl (fun a c => c.idxs.foldl unuse a) a = (takenBy cs).foldl unuse a := by
  rw [takenBy, foldl_flatMap]

/-- Either the kept prefix, or the first set alone, cut where it may be cut. -/
lemma keepTail_spec (htab : a0.Tables) {r : ℕ} (hkeep : nKeepTail < nUbatch) (hne : cs ≠ [])
    (hok : CursorsOk a0 cs r) (hr : 0 < r) (hnd : (cs.map (·.set)).Nodup)
    (ht : Taken a0 (takenBy cs) a) :
    ∃ r', 0 < r' ∧ (a.keepTail nUbatch nKeepTail cs).1 ≠ [] ∧
      CursorsOk a0 (a.keepTail nUbatch nKeepTail cs).1 r' ∧
      (a.keepTail nUbatch nKeepTail cs).1.map (·.set) <+: cs.map (·.set) ∧
      (∀ c ∈ (a.keepTail nUbatch nKeepTail cs).1, a0.keeps nKeepTail c = true) ∧
      Taken a0 (takenBy (a.keepTail nUbatch nKeepTail cs).1)
        (a.keepTail nUbatch nKeepTail cs).2 := by
  have hrem : ∀ c, a.nRemaining c = a0.nRemaining c := fun c => by
    rw [nRemaining, ht.seqSetMap_eq, nRemaining]
  have hpre : cs.takeWhile (a.keeps nKeepTail) <+: cs := takeWhile_prefix _
  cases hkept : cs.takeWhile (a.keeps nKeepTail) with
  | nil =>
    obtain ⟨c, cs, rfl⟩ := exists_cons_of_ne_nil hne
    obtain ⟨pre, post, hc⟩ := hok.ok c mem_cons_self
    have hclen : c.idxs.length = r := hok.rounds c mem_cons_self
    have hval : a.keepTail nUbatch nKeepTail (c :: cs) = ([(a.resolveFirst nUbatch nKeepTail c).1],
          (takenBy cs).foldl unuse (a.resolveFirst nUbatch nKeepTail c).2) := by
      simp only [keepTail, hkept, foldl_unuse_eq]
    have hfirst : ∃ post', CursorOk a0 (a.resolveFirst nUbatch nKeepTail c).1 pre post' ∧
        (a.resolveFirst nUbatch nKeepTail c).1.set = c.set ∧
        0 < (a.resolveFirst nUbatch nKeepTail c).1.idxs.length ∧
        (post'.length = 0 ∨ nKeepTail ≤ post'.length) ∧
        Taken a0 ((a.resolveFirst nUbatch nKeepTail c).1.idxs ++ takenBy cs)
          (a.resolveFirst nUbatch nKeepTail c).2 := by
      simp only [resolveFirst, hrem, hc.nRemaining_eq]
      split
      · obtain ⟨post', h1, h2, h3, h4, h5⟩ :=
          extendLoop_spec post.length c a pre post (takenBy cs) hc le_rfl ht
        have hlen := congrArg List.length h4
        simp only [length_append] at hlen
        exact ⟨post', h1, h2, by omega, .inl (by omega), h5⟩
      · obtain ⟨post', h1, h2, h3, h4, h5⟩ :=
          truncateLoop_spec (nKeepTail - post.length) c a pre post (takenBy cs) hc (by omega)
            (nodup_takenBy htab hok.ok hnd) ht
        have hlen := congrArg List.length h4
        simp only [length_append] at hlen
        exact ⟨post', h1, h2, by omega, .inr (by omega), h5⟩
    obtain ⟨post', h1, h2, h3, hcut, h4⟩ := hfirst
    set d := (a.resolveFirst nUbatch nKeepTail c).1 with hd
    have hdok : ∀ e ∈ d :: cs, ∃ pre post, CursorOk a0 e pre post := by
      intro e he
      rcases mem_cons.mp he with rfl | he
      · exact ⟨pre, post', h1⟩
      · exact hok.ok e (mem_cons_of_mem _ he)
    have hdnd : (takenBy (d :: cs)).Nodup := nodup_takenBy htab hdok (by simpa [h2] using hnd)
    rw [hval]
    refine ⟨d.idxs.length, h3, by simp, ⟨?_, ?_⟩, ?_, ?_, ?_⟩
    · intro e he
      exact hdok e (by rw [mem_singleton.mp he]; exact mem_cons_self)
    · intro e he
      rw [mem_singleton.mp he]
    · simp [h2]
    · intro e he
      rw [mem_singleton.mp he, keeps, h1.nRemaining_eq]
      exact decide_eq_true hcut
    · refine .unuseAll (takenBy cs) (h4.perm ?_) ?_ ?_
      · simp only [takenBy_cons, takenBy_nil, append_nil]
        exact perm_append_comm
      · rw [takenBy_cons] at hdnd
        simpa using (perm_append_comm.nodup_iff).mp hdnd
      · exact free_takenBy fun e he => hok.ok e (mem_cons_of_mem _ he)
  | cons c kept =>
    rw [hkept] at hpre
    have hsplit : (c :: kept) ++ cs.drop (c :: kept).length = cs :=
      (prefix_iff_eq_append.mp hpre)
    have hval : a.keepTail nUbatch nKeepTail cs =
        (c :: kept, (takenBy (cs.drop (c :: kept).length)).foldl unuse a) := by
      simp only [keepTail, hkept, foldl_unuse_eq]
    have hsub : ∀ e ∈ c :: kept, e ∈ cs := fun e he => hpre.subset he
    have htb : takenBy cs = takenBy (c :: kept) ++ takenBy (cs.drop (c :: kept).length) := by
      conv_lhs => rw [← hsplit]
      exact flatMap_append
    have hnd' := nodup_takenBy htab hok.ok hnd
    rw [hval]
    have hkeeps : ∀ e ∈ c :: kept, a0.keeps nKeepTail e = true := by
      intro e he
      rw [← hkept] at he
      have hk := all_eq_true.mp all_takeWhile e he
      simpa only [keeps, hrem] using hk
    refine ⟨r, hr, by simp, ⟨fun e he => hok.ok e (hsub e he),
      fun e he => hok.rounds e (hsub e he)⟩, hpre.map _, hkeeps, ?_⟩
    refine .unuseAll _ (ht.perm ?_) ?_ ?_
    · rw [htb]
      exact perm_append_comm
    · rw [htb] at hnd'
      exact (perm_append_comm.nodup_iff).mp hnd'
    · intro i hi
      refine free_takenBy hok.ok i ?_
      rw [htb]
      exact mem_append_right _ hi

/-! ## `split_equal` -/

/-- Sets that are chosen twice would have to overlap, so nonempty ones are distinct. -/
lemma nodup_of_disjoint {sets : List (Finset ℤ)} (hd : sets.Pairwise fun c d => c ∩ d = ∅)
    (hne : ∀ c ∈ sets, c ≠ ∅) : sets.Nodup := by
  refine hd.imp_of_mem ?_
  intro c d hc _ hcd heq
  subst heq
  rw [Finset.inter_self] at hcd
  exact hne c hc hcd

/-- What a call of `split_equal` that does not refuse does: cursors on the sets of some
unused tokens, an equal number `r` of tokens from each. -/
structure EqualRun (a : BatchAllocr) (sequential : Bool) (r : ℕ) (cs : List SetCursor)
    (res : UBatch × BatchAllocr) : Prop where
  ne_nil : cs ≠ []
  pos : 0 < r
  ok : CursorsOk a cs r
  nodup : (cs.map (·.set)).Nodup
  toks : ∃ toks : List ℕ, cs.map (·.set) <+: toks.map a.seqSet ∧
    (∀ t ∈ toks, t < a.batch.nTokens ∧ a.used t = false) ∧
    (sequential = true → ∃ base : ℤ, ∀ k (hk : k < toks.length), a.batch.seqId toks[k] 0 = base + k)
  add : ∃ a', Taken a (takenBy cs) a' ∧ res = a'.ubatchAdd (takenBy cs) cs.length true

lemma EqualRun.emits {r : ℕ} {res : UBatch × BatchAllocr} (ht : a.Tables)
    (h : EqualRun a sequential r cs res) :
    Emits a (takenBy cs) res where
  ne_nil := by
    obtain ⟨c, cs', rfl⟩ := exists_cons_of_ne_nil h.ne_nil
    have hlen := h.ok.rounds c mem_cons_self
    intro hnil
    have hc : c.idxs = [] := by
      exact (append_eq_nil_iff.mp hnil).1
    rw [hc] at hlen
    exact h.pos.ne hlen
  nodup := nodup_takenBy ht h.ok.ok h.nodup
  free := by
    intro i hi
    obtain ⟨c, hc, hic⟩ := mem_flatMap.mp hi
    obtain ⟨_, _, hcok⟩ := h.ok.ok c hc
    exact ⟨(hcok.mem_set ht hic).1, hcok.free i (mem_append_left _ hic)⟩
  add := by
    obtain ⟨a', h1, h2⟩ := h.add
    exact ⟨a', cs.length, true, h1, h2⟩

/-- The sets `split_equal` starts from. -/
def equalSets (a : BatchAllocr) (nUbatch : ℕ) (sequential : Bool) : List (Finset ℤ) :=
  a.chooseSets nUbatch sequential (List.range a.batch.nTokens) [] (-1)

lemma equalSets_spec (a : BatchAllocr) (nUbatch : ℕ) (sequential : Bool) :
    ∃ toks : List ℕ, a.equalSets nUbatch sequential = toks.map a.seqSet ∧
      (∀ t ∈ toks, t < a.batch.nTokens ∧ a.used t = false) ∧
      (toks.map a.seqSet).Pairwise (fun c d => c ∩ d = ∅) ∧
      ((∃ t < a.batch.nTokens, a.used t = false) → toks ≠ []) ∧
      (sequential = true → ∃ base : ℤ,
        ∀ k (hk : k < toks.length), a.batch.seqId toks[k] 0 = base + k) := by
  obtain ⟨toks, h1, h⟩ :=
    chooseSets_spec a nUbatch sequential (range a.batch.nTokens) [] (-1) List.Pairwise.nil
  refine ⟨toks, h1, fun t ht => ?_, by simpa using h.disjoint, ?_, ?_⟩
  · exact ⟨mem_range.mp (h.free t ht).1, (h.free t ht).2⟩
  · rintro ⟨t, ht, hfree⟩
    exact h.ne_nil rfl ⟨t, mem_range.mpr ht, hfree⟩
  · intro hseq
    obtain ⟨base, _, hall⟩ := h.ids hseq
    exact ⟨base, hall⟩

/-- Nothing is chosen exactly when every token is used. -/
lemma equalSets_eq_nil :
    a.equalSets nUbatch sequential = [] ↔ ∀ t < a.batch.nTokens, a.used t = true := by
  obtain ⟨toks, h1, h2, _, h4, _⟩ := equalSets_spec a nUbatch sequential
  rw [h1, map_eq_nil_iff]
  constructor
  · intro hnil t ht
    by_contra hne
    exact h4 ⟨t, ht, by simpa using hne⟩ hnil
  · intro hall
    refine eq_nil_iff_forall_not_mem.mpr fun t ht => ?_
    have := h2 t ht
    rw [hall t this.1] at this
    exact absurd this.2 (by simp)

/-- The cursors of a call of `split_equal`; with a tail to keep, each stops where its set may
be cut. -/
lemma splitEqual_keeps (htab : a.Tables) (hpre : a.SetPrefix)
    (hset : ∀ i < a.batch.nTokens, a.used i = false → a.seqSet i ≠ ∅)
    (hcpl : ¬ (sequential = true ∧ a.hasCpl = true)) (hkeep : nKeepTail = 0 ∨ nKeepTail < nUbatch)
    (hfree : ∃ t < a.batch.nTokens, a.used t = false) :
    ∃ r cs res, a.splitEqual nUbatch sequential nKeepTail = some res ∧
      EqualRun a sequential r cs res ∧ cs.map (·.set) <+: a.equalSets nUbatch sequential ∧
      (0 < nKeepTail → ∀ c ∈ cs, a.keeps nKeepTail c = true) := by
  obtain ⟨toks, h1, h2, h3, h4, h5⟩ := equalSets_spec a nUbatch sequential
  have htoks : toks ≠ [] := h4 hfree
  set cs0 := (toks.map a.seqSet).map a.startCursor with hcs0
  have hcs0set : cs0.map (·.set) = toks.map a.seqSet := by
    rw [map_map]
    exact map_id _
  have hstart : ∀ c ∈ cs0, ∃ pre post, CursorOk a c pre post ∧ post ≠ [] := by
    intro c hc
    obtain ⟨S, hS, rfl⟩ := mem_map.mp hc
    obtain ⟨t, ht, rfl⟩ := mem_map.mp hS
    exact startCursor_ok htab hpre (h2 t ht).1 (h2 t ht).2
  have hempty : ∀ c ∈ cs0, c.idxs = [] := by
    intro c hc
    obtain ⟨S, _, rfl⟩ := mem_map.mp hc
    rfl
  have hok0 : CursorsOk a cs0 0 := by
    refine ⟨fun c hc => ?_, fun c hc => by rw [hempty c hc]; rfl⟩
    obtain ⟨pre, post, hcok, _⟩ := hstart c hc
    exact ⟨pre, post, hcok⟩
  have htb0 : takenBy cs0 = [] := flatMap_eq_nil_iff.mpr hempty
  have hnd0 : (cs0.map (·.set)).Nodup := by
    rw [hcs0set]
    refine nodup_of_disjoint h3 fun S hS => ?_
    obtain ⟨t, ht, rfl⟩ := mem_map.mp hS
    exact hset t (h2 t ht).1 (h2 t ht).2
  have hfuel : ∀ c ∈ cs0, a.nRemaining c < a.batch.nTokens + 1 := by
    intro c _
    have := htab.length_seqSetMap_le c.set
    simp only [nRemaining]
    omega
  have hcs0ne : cs0 ≠ [] := by
    intro hnil
    rw [hnil] at hcs0set
    exact htoks (map_eq_nil_iff.mp hcs0set.symm)
  obtain ⟨r, hsets, hok, htaken, _, hpos, _⟩ :=
    expandLoop_spec nUbatch (a.batch.nTokens + 1) cs0 a 0 hcs0ne hok0
      (by rw [htb0]; exact .refl a) hfuel
  have hpos : 0 < r := hpos fun c hc => by
    obtain ⟨pre, post, hcok, hpost⟩ := hstart c hc
    exact not_le.mp fun hle => hpost (hcok.exhausted_iff.mp hle)
  set cs1 := (expandLoop nUbatch (a.batch.nTokens + 1) cs0 a).1 with hcs1
  set a1 := (expandLoop nUbatch (a.batch.nTokens + 1) cs0 a).2 with ha1
  have hnd1 : (cs1.map (·.set)).Nodup := by rw [hsets]; exact hnd0
  have hcs1ne : cs1 ≠ [] := by
    intro hnil
    rw [hnil] at hsets
    exact hcs0ne (map_eq_nil_iff.mp hsets.symm)
  have hval : a.splitEqual nUbatch sequential nKeepTail =
      some ((if 0 < nKeepTail then a1.keepTail nUbatch nKeepTail cs1 else (cs1, a1)).2.ubatchAdd
        (takenBy (if 0 < nKeepTail then a1.keepTail nUbatch nKeepTail cs1 else (cs1, a1)).1)
        (if 0 < nKeepTail then a1.keepTail nUbatch nKeepTail cs1 else (cs1, a1)).1.length
        true) := by
    have hguard : ¬ (0 < nKeepTail ∧ nUbatch ≤ nKeepTail) := by omega
    have hsetsne : ¬ a.chooseSets nUbatch sequential (range a.batch.nTokens) [] (-1) = [] := by
      intro hnil
      have hnil : a.equalSets nUbatch sequential = [] := hnil
      rw [h1] at hnil
      exact htoks (map_eq_nil_iff.mp hnil)
    have hsetseq : a.chooseSets nUbatch sequential (range a.batch.nTokens) [] (-1) =
        toks.map a.seqSet := h1
    rw [splitEqual, if_neg hcpl]
    simp only [if_neg hsetsne, if_neg hguard]
    rw [hsetseq]
    rfl
  by_cases hk : 0 < nKeepTail
  · have hlt : nKeepTail < nUbatch := by omega
    obtain ⟨r', hr', hne', hok', hpfx, hkeeps, htaken'⟩ :=
      keepTail_spec htab hlt hcs1ne hok hpos hnd1 htaken
    simp only [if_pos hk] at hval
    have hnd' := hnd1.sublist hpfx.sublist
    rw [hsets, hcs0set] at hpfx
    exact ⟨r', _, _, hval,
      ⟨hne', hr', hok', hnd', ⟨toks, hpfx, h2, h5⟩, _, htaken', rfl⟩, h1 ▸ hpfx, fun _ => hkeeps⟩
  · simp only [if_neg hk] at hval
    have hpfx : cs1.map (·.set) <+: toks.map a.seqSet := by rw [hsets, hcs0set]
    exact ⟨r, _, _, hval,
      ⟨hcs1ne, hpos, hok, hnd1, ⟨toks, hpfx, h2, h5⟩, _, htaken, rfl⟩, h1 ▸ hpfx,
      fun h => absurd h hk⟩

/-- **`split_equal` takes the same number of free tokens from each of the sets it keeps**,
provided no unused token has an empty sequence set. -/
theorem splitEqual_spec (htab : a.Tables) (hpre : a.SetPrefix)
    (hset : ∀ i < a.batch.nTokens, a.used i = false → a.seqSet i ≠ ∅)
    (hcpl : ¬ (sequential = true ∧ a.hasCpl = true)) (hkeep : nKeepTail = 0 ∨ nKeepTail < nUbatch)
    (hfree : ∃ t < a.batch.nTokens, a.used t = false) :
    ∃ r cs res, a.splitEqual nUbatch sequential nKeepTail = some res ∧
      EqualRun a sequential r cs res ∧ cs.map (·.set) <+: a.equalSets nUbatch sequential := by
  obtain ⟨r, cs, res, hres, hrun, hpre, -⟩ := splitEqual_keeps htab hpre hset hcpl hkeep hfree
  exact ⟨r, cs, res, hres, hrun, hpre⟩

/-- A call keeps the used tokens of every set in front. -/
lemma EqualRun.setPrefix {r : ℕ} {res : UBatch × BatchAllocr} (htab : a.Tables)
    (hpre : a.SetPrefix) (h : EqualRun a sequential r cs res) : res.2.SetPrefix := by
  obtain ⟨a', ht, rfl⟩ := h.add
  intro i j hij hj hset hused
  have hj : j < a.batch.nTokens := by rw [← ht.batch_eq]; exact hj
  have hset : a.seqSet i = a.seqSet j := by rw [← ht.seqSet_eq]; exact hset
  refine (ht.used_iff i).mpr ?_
  rcases (ht.used_iff j).mp hused with hjt | hju
  · -- `j` was taken by the cursor of its set, and `i` stands before it in the same list
    obtain ⟨c, hc, hjc⟩ := mem_flatMap.mp hjt
    obtain ⟨pre, post, hcok⟩ := h.ok.ok c hc
    have hjset := (hcok.mem_set htab hjc).2
    have hi : i ∈ a.seqSetMap c.set := htab.mem_seqSetMap.mpr ⟨by omega, hset.trans hjset⟩
    have hsorted : (a.seqSetMap c.set).Pairwise (· < ·) := by
      rw [htab.seqSetMap_eq]
      exact pairwise_lt_range.filter _
    rw [hcok.list_eq] at hi hsorted
    rcases mem_append.mp hi with hi | hi
    · rcases mem_append.mp hi with hi | hi
      · exact .inr (hcok.pre_used i hi)
      · exact .inl (mem_flatMap.mpr ⟨c, hc, hi⟩)
    · have hji : j < i :=
        (pairwise_append.mp hsorted).2.2 j (mem_append_right _ hjc) i hi
      omega
  · exact .inr (hpre i j hij hj hset hju)

end Llama.BatchAllocr
