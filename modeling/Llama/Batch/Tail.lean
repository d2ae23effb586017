import Llama.Batch.Order

/-!
# Keeping the tail of a sequence together

With `n_keep_tail = k` a call of `split_equal` stops a set where it is finished or where at
least `k` of its tokens are left, and gives back the tokens of the sets that it could only
cut elsewhere.  So a sequence that has been started is never left with a part of its tail,
and its last `k` tokens are emitted together.

Every token has to name a sequence: the sets of tokens that name none do not overlap, so
that such tokens are taken and given back by several cursors at once.
-/

namespace Llama.BatchAllocr

open List

/-- The tokens of a sequence, in the order of the batch. -/
def seqTokens (a : BatchAllocr) (s : ℤ) : List ℕ :=
  (List.range a.batch.nTokens).filter fun i => s ∈ a.batch.seqs i

/-- The tokens of a sequence that are still to be emitted. -/
def seqUnused (a : BatchAllocr) (s : ℤ) : List ℕ := (a.seqTokens s).filter fun i => !a.used i

/-- The last `k` tokens of a sequence, or all of them. -/
def lastTokens (a : BatchAllocr) (k : ℕ) (s : ℤ) : List ℕ :=
  (a.seqTokens s).drop ((a.seqTokens s).length - k)

/-- Each sequence is not started, or finished, or at least `k` of its tokens are left. -/
def TailSafe (a : BatchAllocr) (k : ℕ) : Prop :=
  ∀ s, a.seqUnused s = a.seqTokens s ∨ a.seqUnused s = [] ∨ k ≤ (a.seqUnused s).length

variable {a : BatchAllocr}

lemma SameBatch.seqTokens_eq {a' : BatchAllocr} (h : SameBatch a a') (s : ℤ) :
    a'.seqTokens s = a.seqTokens s := by
  rw [seqTokens, h.batch, seqTokens]

lemma SameBatch.lastTokens_eq {a' : BatchAllocr} (h : SameBatch a a') (k : ℕ) (s : ℤ) :
    a'.lastTokens k s = a.lastTokens k s := by
  rw [lastTokens, h.seqTokens_eq, lastTokens]

/-- Without coupled sequences the tokens of a sequence are those of its set. -/
lemma seqSetMap_singleton (htab : a.Tables) (hcpl : a.hasCpl = false) (s : ℤ) :
    a.seqSetMap {s} = a.seqTokens s := by
  rw [htab.seqSetMap_eq]
  refine filter_congr fun i hi => ?_
  have hmem : s ∈ a.batch.seqs i ↔ s ∈ a.seqSet i := by rw [htab.seqSet_eq, mem_toFinset]
  rw [decide_eq_decide, hmem]
  constructor
  · intro h
    rw [h]
    exact Finset.mem_singleton_self s
  · exact seqSet_eq_singleton htab hcpl (mem_range.mp hi)

/-- What a call does to one sequence: it takes nothing of it, or it takes all that comes
before a rest that is empty or as long as a tail. -/
lemma EqualRun.cut (htab : a.Tables) (hcpl : a.hasCpl = false) {sequential : Bool} {r k : ℕ}
    {cs : List SetCursor} {res : UBatch × BatchAllocr} (h : EqualRun a sequential r cs res)
    (hkeeps : ∀ c ∈ cs, a.keeps k c = true) (s : ℤ) :
    (∀ i ∈ a.seqTokens s, i ∉ takenBy cs) ∨
      ∃ pre idxs post, a.seqTokens s = pre ++ idxs ++ post ∧ (∀ i ∈ pre, a.used i = true) ∧
        (∀ i ∈ idxs, a.used i = false ∧ i ∈ takenBy cs) ∧
        (∀ i ∈ post, a.used i = false ∧ i ∉ takenBy cs) ∧ (post = [] ∨ k ≤ post.length) := by
  -- a token of the sequence is taken by the cursor of its set
  have howner : ∀ i ∈ a.seqTokens s, ∀ c ∈ cs, i ∈ c.idxs → c.set = {s} := by
    intro i hi c hc hic
    obtain ⟨pre, post, hcok⟩ := h.ok.ok c hc
    rw [← (hcok.mem_set htab hic).2]
    rw [← seqSetMap_singleton htab hcpl] at hi
    exact (htab.mem_seqSetMap.mp hi).2
  by_cases hcur : ∃ c ∈ cs, c.set = {s}
  · obtain ⟨c, hc, hset⟩ := hcur
    obtain ⟨pre, post, hcok⟩ := h.ok.ok c hc
    have hlist : a.seqTokens s = pre ++ c.idxs ++ post := by
      rw [← seqSetMap_singleton htab hcpl, ← hset, hcok.list_eq]
    refine .inr ⟨pre, c.idxs, post, hlist, hcok.pre_used, fun i hi => ⟨?_, ?_⟩,
      fun i hi => ⟨?_, fun hmem => ?_⟩, ?_⟩
    · exact hcok.free i (mem_append_left _ hi)
    · exact mem_flatMap.mpr ⟨c, hc, hi⟩
    · exact hcok.free i (mem_append_right _ hi)
    · obtain ⟨d, hd, hid⟩ := mem_flatMap.mp hmem
      have hdset := howner i (by rw [hlist]; exact mem_append_right _ hi) d hd hid
      have hdc : d = c := inj_on_of_nodup_map h.nodup hd hc (hdset.trans hset.symm)
      subst hdc
      have hnd := htab.nodup_seqSetMap d.set
      rw [hcok.list_eq] at hnd
      exact (nodup_append.mp hnd).2.2 i (mem_append_right _ hid) i hi rfl
    · have hk := hkeeps c hc
      simp only [keeps, hcok.nRemaining_eq, decide_eq_true_eq, length_eq_zero_iff] at hk
      exact hk
  · refine .inl fun i hi hmem => ?_
    obtain ⟨c, hc, hic⟩ := mem_flatMap.mp hmem
    exact hcur ⟨c, hc, howner i hi c hc hic⟩

/-- The tokens of a sequence that are free before and after a call that has cut it. -/
lemma unused_of_cut {used used' : ℕ → Bool} {pre idxs post taken : List ℕ}
    (hpre : ∀ i ∈ pre, used i = true) (hidxs : ∀ i ∈ idxs, used i = false ∧ i ∈ taken)
    (hpost : ∀ i ∈ post, used i = false ∧ i ∉ taken)
    (hused : ∀ i, used' i = true ↔ i ∈ taken ∨ used i = true) :
    ((pre ++ idxs ++ post).filter fun i => !used i) = idxs ++ post ∧
      ((pre ++ idxs ++ post).filter fun i => !used' i) = post := by
  have hkeep : ∀ l : List ℕ, (∀ i ∈ l, used i = false) → (l.filter fun i => !used i) = l :=
    fun l h => filter_eq_self.mpr fun i hi => by simp [h i hi]
  have hdrop : ∀ (f : ℕ → Bool) (l : List ℕ), (∀ i ∈ l, f i = true) →
      (l.filter fun i => !f i) = [] :=
    fun f l h => filter_eq_nil_iff.mpr fun i hi => by simp [h i hi]
  constructor
  · rw [filter_append, filter_append, hdrop used pre hpre,
      hkeep idxs fun i hi => (hidxs i hi).1, hkeep post fun i hi => (hpost i hi).1,
      nil_append]
  · have hpost' : (post.filter fun i => !used' i) = post := by
      refine filter_eq_self.mpr fun i hi => ?_
      obtain ⟨hfree, hout⟩ := hpost i hi
      have hno : ¬ used' i = true := by
        rw [hused]
        rintro (hmem | hmem)
        · exact hout hmem
        · rw [hfree] at hmem
          cases hmem
      simpa using hno
    rw [filter_append, filter_append, hpost',
      hdrop used' pre fun i hi => (hused i).mpr (.inr (hpre i hi)),
      hdrop used' idxs fun i hi => (hused i).mpr (.inl (hidxs i hi).2), nil_append,
      nil_append]

/-- The last `k` tokens are all in the middle part if one of them is: what follows is empty or
as long as they are, and what is not used yet is everything or at least as long. -/
lemma last_subset_idxs {k : ℕ} {pre idxs post : List ℕ} (hcut : post = [] ∨ k ≤ post.length)
    (hleft : idxs ++ post = pre ++ idxs ++ post ∨ idxs ++ post = [] ∨ k ≤ (idxs ++ post).length)
    {i : ℕ} (hi : i ∈ (pre ++ idxs ++ post).drop ((pre ++ idxs ++ post).length - k))
    (hmem : i ∈ idxs) (hpost : i ∉ post) :
    ∀ j ∈ (pre ++ idxs ++ post).drop ((pre ++ idxs ++ post).length - k), j ∈ idxs := by
  intro j hj
  rcases hcut with rfl | hcut
  · rw [append_nil] at hleft hj
    rcases hleft with hall | hnil | hk
    · rw [append_nil] at hall
      rw [hall]
      exact mem_of_mem_drop hj
    · rw [hnil] at hmem
      cases hmem
    · have hlen : (pre ++ idxs).length - k = pre.length + (idxs.length - k) := by
        rw [length_append]
        omega
      rw [hlen, drop_append, Nat.add_sub_cancel_left,
        drop_eq_nil_of_le (Nat.le_add_right _ _), nil_append] at hj
      exact mem_of_mem_drop hj
  · have hlen : (pre ++ idxs ++ post).length - k = (pre ++ idxs).length + (post.length - k) := by
      have happend : (pre ++ idxs ++ post).length = (pre ++ idxs).length + post.length :=
        length_append
      omega
    rw [hlen, drop_append, Nat.add_sub_cancel_left,
      drop_eq_nil_of_le (Nat.le_add_right _ _), nil_append] at hi
    exact absurd (mem_of_mem_drop hi) hpost

/-- **One call** leaves no sequence inside its tail, and emits a tail as a whole. -/
theorem EqualRun.tailSafe (htab : a.Tables) (hcpl : a.hasCpl = false) {sequential : Bool}
    {r k : ℕ} {cs : List SetCursor} {res : UBatch × BatchAllocr}
    (h : EqualRun a sequential r cs res) (hkeeps : ∀ c ∈ cs, a.keeps k c = true)
    (hsafe : a.TailSafe k) :
    res.2.TailSafe k ∧ ∀ s, (∃ i ∈ a.lastTokens k s, i ∈ takenBy cs) →
      ∀ i ∈ a.lastTokens k s, i ∈ takenBy cs := by
  have hem := (h.emits htab).emitted
  have hunused : ∀ s, res.2.seqUnused s = (a.seqTokens s).filter fun i => !res.2.used i := by
    intro s
    rw [seqUnused, hem.same.seqTokens_eq]
  constructor
  · intro s
    rw [hem.same.seqTokens_eq, hunused]
    rcases h.cut htab hcpl hkeeps s with hnone | ⟨pre, idxs, post, hlist, hpre, hidxs, hpost, hcut⟩
    · -- nothing of the sequence was taken
      have hsame : ((a.seqTokens s).filter fun i => !res.2.used i) = a.seqUnused s := by
        refine filter_congr fun i hi => ?_
        have hiff := hem.used_iff i
        rw [or_iff_right (hnone i hi)] at hiff
        rw [Bool.eq_iff_iff.mpr hiff]
      rw [hsame]
      exact hsafe s
    · rw [hlist, (unused_of_cut hpre hidxs hpost hem.used_iff).2]
      exact .inr hcut
  · rintro s ⟨i, hi, htaken⟩
    have hitok : i ∈ a.seqTokens s := mem_of_mem_drop hi
    rcases h.cut htab hcpl hkeeps s with hnone | ⟨pre, idxs, post, hlist, hpre, hidxs, hpost, hcut⟩
    · exact absurd htaken (hnone i hitok)
    · have hleft := hsafe s
      rw [seqUnused] at hleft
      rw [hlist] at hleft hitok
      rw [lastTokens, hlist] at hi ⊢
      rw [(unused_of_cut hpre hidxs hpost hem.used_iff).1] at hleft
      have hnotpost : i ∉ post := fun hmem => (hpost i hmem).2 htaken
      have hmid : i ∈ idxs := by
        rcases mem_append.mp hitok with hmem | hmem
        · rcases mem_append.mp hmem with hmem | hmem
          · have hfree := free_takenBy h.ok.ok i htaken
            rw [hpre i hmem] at hfree
            cases hfree
          · exact hmem
        · exact absurd hmem hnotpost
      intro j hj
      exact (hidxs j (last_subset_idxs hcut hleft hi hmid hnotpost j hj)).2

/-! ## The run -/

lemma forall_of_forall₂ {α β : Type} {P : α → Prop} {Q : β → Prop} {l : List α} {l' : List β}
    (h : List.Forall₂ (fun x y => P x ∧ Q y) l l') : (∀ x ∈ l, P x) ∧ ∀ y ∈ l', Q y := by
  induction h with
  | nil => exact ⟨fun x hx => (by cases hx), fun y hy => (by cases hy)⟩
  | cons hxy _ ih =>
    exact ⟨forall_mem_cons.mpr ⟨hxy.1, ih.1⟩, forall_mem_cons.mpr ⟨hxy.2, ih.2⟩⟩

lemma tailSafe_init {nPos nVocab nEmbd nSeqMax : ℕ} {inp : LlamaBatch}
    {memory : Option MemoryPos} {outputAll : Bool}
    (hinit : init nPos inp nVocab memory nEmbd nSeqMax outputAll = some a) (k : ℕ) :
    a.TailSafe k := by
  intro s
  left
  refine filter_eq_self.mpr fun i _ => ?_
  rw [init_eq hinit]
  rfl

/-- **The tails of an accepted batch** without coupled sequences, in which every token names
a sequence.  Draining it ends, each call emits a token, no call leaves a sequence inside its
tail, and the last `k` tokens of every sequence are in one ubatch. -/
theorem drain_tail {nPos nVocab nEmbd nSeqMax : ℕ} {inp : LlamaBatch}
    {memory : Option MemoryPos} {outputAll : Bool} {a : BatchAllocr}
    (hinit : init nPos inp nVocab memory nEmbd nSeqMax outputAll = some a)
    (hnames : ∀ i < a.batch.nTokens, 0 < a.batch.nSeqId i) (hcpl : a.hasCpl = false)
    {n k : ℕ} (sequential : Bool) (hk : 0 < k) (hkn : k < n) :
    ∃ steps parts, drain (.equal n sequential k) (a.batch.nTokens + 1) a = some steps ∧
      Accounts a [] steps parts ∧ parts.flatten.Perm (List.range a.batch.nTokens) ∧
      (∀ idxs ∈ parts, idxs ≠ []) ∧ (∀ res ∈ steps, res.2.TailSafe k) ∧
      ∀ s, ∃ idxs ∈ parts, ∀ i ∈ a.lastTokens k s, i ∈ idxs := by
  have ha := init_eq hinit
  have htab : a.Tables := ha ▸ tables_ofFull _ _ _ _
  have hused : ∀ i, a.used i = false := fun i => by rw [ha]; rfl
  have hunused : a.unusedTokens = List.range a.batch.nTokens := by
    simp [unusedTokens, hused]
  have hstep : ∀ b, SameBatch a b → (b.SetPrefix ∧ b.TailSafe k) →
      (∃ idxs res, (Strategy.equal n sequential k).split b = some res ∧ Emits b idxs res ∧
        (res.2.SetPrefix ∧ res.2.TailSafe k) ∧
          (idxs ≠ [] ∧ ∀ s, (∃ i ∈ a.lastTokens k s, i ∈ idxs) →
            ∀ i ∈ a.lastTokens k s, i ∈ idxs) ∧ res.2.TailSafe k) ∨
        (b.unusedTokens = [] ∧ (Strategy.equal n sequential k).split b = some (.empty, b)) := by
    rintro b hsame ⟨hpre, hsafe⟩
    have htab' := hsame.tables htab
    have hcpl' : b.hasCpl = false := by rw [hsame.hasCpl, hcpl]
    have hnot : ¬ (sequential = true ∧ b.hasCpl = true) := by simp [hcpl']
    by_cases hall : ∀ i < b.batch.nTokens, b.used i = true
    · right
      have hnil : b.chooseSets n sequential (List.range b.batch.nTokens) [] (-1) = [] :=
        equalSets_eq_nil.mpr hall
      exact ⟨unusedTokens_eq_nil.mpr hall,
        by simp only [Strategy.split, splitEqual, if_neg hnot, hnil, if_true]⟩
    · left
      push Not at hall
      obtain ⟨t, ht, hfree⟩ := hall
      have hset : ∀ i < b.batch.nTokens, b.used i = false → b.seqSet i ≠ ∅ := by
        intro i hi _
        rw [hsame.batch] at hi
        exact htab'.seqSet_ne_empty (by rw [hsame.batch]; exact hnames i hi)
      obtain ⟨r, cs, res, hres, hrun, -, hkeeps⟩ :=
        splitEqual_keeps htab' hpre hset hnot (.inr hkn) ⟨t, ht, by simpa using hfree⟩
      obtain ⟨hsafe', hlast⟩ := hrun.tailSafe htab' hcpl' (hkeeps hk) hsafe
      have hem := hrun.emits htab'
      refine ⟨_, res, hres, hem, ⟨hrun.setPrefix htab' hpre, hsafe'⟩, ⟨hem.ne_nil, fun s => ?_⟩,
        hsafe'⟩
      rw [← hsame.lastTokens_eq]
      exact hlast s
  obtain ⟨steps, parts, h1, h2, h3, h4⟩ := drain_run (.equal n sequential k) hstep
    (a.batch.nTokens + 1) a [] (SameBatch.refl a)
    ⟨Strategy.inv_init hinit (.equal n sequential k), tailSafe_init hinit k⟩
    (by simp [hunused]) (by rw [ha]; rfl) (by rw [ha]; rfl)
  have hperm : parts.flatten.Perm (List.range a.batch.nTokens) := hunused ▸ h3
  obtain ⟨hpart, hsafe⟩ := forall_of_forall₂ h4
  refine ⟨steps, parts, h1, h2, hperm, fun idxs h => (hpart idxs h).1, hsafe, fun s => ?_⟩
  -- the ubatch of one of the last tokens has them all
  cases hlast : a.lastTokens k s with
  | nil =>
    have h0 : 0 ∈ parts.flatten :=
      hperm.mem_iff.mpr (List.mem_range.mpr (nTokens_pos_of_init hinit))
    obtain ⟨idxs, hidxs, -⟩ := List.mem_flatten.mp h0
    exact ⟨idxs, hidxs, fun i hi => (by cases hi)⟩
  | cons i0 is =>
    have hi0 : i0 ∈ a.lastTokens k s := by
      rw [hlast]
      exact List.mem_cons_self
    have hlt : i0 < a.batch.nTokens := by
      have hmem : i0 ∈ a.seqTokens s := List.mem_of_mem_drop hi0
      exact List.mem_range.mp (List.mem_of_mem_filter hmem)
    have hmem : i0 ∈ parts.flatten := hperm.mem_iff.mpr (List.mem_range.mpr hlt)
    obtain ⟨idxs, hidxs, hi0s⟩ := List.mem_flatten.mp hmem
    rw [← hlast]
    exact ⟨idxs, hidxs, (hpart idxs hidxs).2 s ⟨i0, hi0, hi0s⟩⟩

/-- Five tokens of sequence 0. -/
def fiveTokens : LlamaBatch where
  nTokens := 5
  token := some fun _ => 7
  embd := none
  pos := some fun i => i
  nSeqId := some fun _ => 1
  seqId := some fun _ _ => 0
  logits := none

theorem drain_tail_fiveTokens : ∃ a, init 1 fiveTokens 10 none 0 4 false = some a ∧
      ∃ steps parts, drain (.equal 4 true 2) (a.batch.nTokens + 1) a = some steps ∧
        Accounts a [] steps parts ∧ parts.flatten.Perm (List.range a.batch.nTokens) ∧
        (∀ idxs ∈ parts, idxs ≠ []) ∧ (∀ res ∈ steps, res.2.TailSafe 2) ∧
        ∀ s, ∃ idxs ∈ parts, ∀ i ∈ a.lastTokens 2 s, i ∈ idxs := by
  have hacc : (init 1 fiveTokens 10 none 0 4 false).isSome = true := by decide +kernel
  obtain ⟨a, ha⟩ := Option.isSome_iff_exists.mp hacc
  refine ⟨a, ha, drain_tail ha ?_ ?_ true (by decide) (by decide)⟩
  · rw [init_eq ha]
    decide
  · rw [init_eq ha]
    decide

/-- Tokens 1, 3 and 4 are of sequence 0, the others name no sequence. -/
def bareBetween : LlamaBatch where
  nTokens := 5
  token := some fun _ => 7
  embd := none
  pos := some fun i => if i = 1 then 0 else if i = 3 then 1 else 2
  nSeqId := some fun i => if i = 0 ∨ i = 2 then 0 else 1
  seqId := some fun _ _ => 0
  logits := none

/-- The tokens that name no sequence are emitted, but given back with the tokens of sequence
0: the call makes no progress. -/
theorem not_tail_bareBetween :
    ∃ a, init 1 bareBetween 10 none 0 1 false = some a ∧ a.hasCpl = false ∧
      ∃ ub a', a.splitEqual 6 false 2 = some (ub, a') ∧ ub.nTokens = 2 ∧
        a'.unusedTokens = a.unusedTokens := by
  have hacc : (init 1 bareBetween 10 none 0 1 false).isSome = true := by decide +kernel
  obtain ⟨a, ha⟩ := Option.isSome_iff_exists.mp hacc
  have hsplit : (a.splitEqual 6 false 2).map (fun r => (r.1.nTokens, r.2.unusedTokens)) =
      some (2, a.unusedTokens) := by
    rw [init_eq ha]
    decide +kernel
  obtain ⟨res, hres, hpair⟩ := Option.map_eq_some_iff.mp hsplit
  refine ⟨a, ha, by rw [init_eq ha]; decide, res.1, res.2, hres, ?_, ?_⟩
  · exact congrArg Prod.fst hpair
  · exact congrArg Prod.snd hpair

end Llama.BatchAllocr
