import Llama.Batch.Split
import Mathlib.Data.List.GetD

/-!
# Every strategy partitions the batch

`drain` calls one strategy until it returns an empty ubatch.  Whatever the strategy, the
ubatches it returns are made of token lists that partition the batch, each token with its
own data; `n_used` and `out_ids` follow.

One call is `Strategy.split_spec`: it takes free tokens and keeps the strategy's own
invariant (`Strategy.Inv`), or nothing is free.  The run lemma `drain_spec` is an induction
on the number of free tokens.
-/

namespace Llama.BatchAllocr

open List Nat

/-- A splitting strategy with its arguments. -/
inductive Strategy
  | simple (nUbatch : ℕ)
  | equal (nUbatch : ℕ) (sequential : Bool) (nKeepTail : ℕ)
  | seq (nUbatch : ℕ)

/-- One call; `none` when an assertion of the strategy fails. -/
def Strategy.split (a : BatchAllocr) : Strategy → Option (UBatch × BatchAllocr)
  | .simple n => some (a.splitSimple n)
  | .equal n sequential nKeepTail => a.splitEqual n sequential nKeepTail
  | .seq n => some (a.splitSeq n)

/-- Call the strategy until the ubatch is empty; `none` when a call fails or `fuel` calls
were not enough. -/
def drain (st : Strategy) : ℕ → BatchAllocr → Option (List (UBatch × BatchAllocr))
  | 0, _ => none
  | fuel + 1, a =>
    match st.split a with
    | none => none
    | some (ub, a) => if ub.nTokens = 0 then some [] else (drain st fuel a).map ((ub, a) :: ·)

/-- The ubatch holds the tokens `idxs` of the batch, each with its own data. -/
structure Carries (a : BatchAllocr) (idxs : List ℕ) (ub : UBatch) : Prop where
  nTokens : ub.nTokens = idxs.length
  token : ∀ k (hk : k < idxs.length), ub.token.map (· k) = a.batch.token.map (· idxs[k])
  embd : ∀ k (hk : k < idxs.length), ∀ e < a.nEmbd,
    ub.embd.map (· (k * a.nEmbd + e)) = a.batch.embd.map (· (idxs[k] * a.nEmbd + e))
  pos : ∀ j < a.nPosPerEmbd, ∀ k (hk : k < idxs.length), ub.pos (j * ub.nTokens + k) =
    a.batch.pos ((if a.batch.token.isSome then 0 else j * a.batch.nTokens) + idxs[k])
  seqs : ∀ k (hk : k < idxs.length), ub.seqs k = a.batch.seqs idxs[k]
  output : ∀ k (hk : k < idxs.length), ub.output k = a.batch.logits idxs[k]

/-- The ubatches of a run hold the token lists `parts` one by one; after each, `n_used` and
`out_ids` account for all tokens emitted so far, `done` being those of earlier calls. -/
def Accounts (a : BatchAllocr) : List ℕ → List (UBatch × BatchAllocr) → List (List ℕ) → Prop
  | _, [], [] => True
  | done, (ub, a') :: steps, idxs :: parts =>
    Carries a idxs ub ∧ a'.nUsed = (done ++ idxs).length ∧
      a'.outIds = (done ++ idxs).filter (fun i => a.batch.logits i ≠ 0) ∧
      Accounts a (done ++ idxs) steps parts
  | _, _, _ => False

/-- A ubatch is asked for at least one token, `split_equal` may not refuse coupled
sequences, its tail fits a ubatch, and its tokens name a sequence. -/
def Strategy.Fits (a : BatchAllocr) : Strategy → Prop
  | .simple n => 1 ≤ n
  | .equal n sequential nKeepTail => 1 ≤ n ∧ ¬ (sequential = true ∧ a.hasCpl = true) ∧
      (nKeepTail = 0 ∨ nKeepTail < n) ∧ ∀ i < a.batch.nTokens, 0 < a.batch.nSeqId i
  | .seq n => 1 ≤ n

/-- `split_equal` does not refuse coupled sequences, its tail fits a ubatch, and its tokens
name a sequence. -/
def Strategy.Allowed (a : BatchAllocr) : Strategy → Prop
  | .simple _ => True
  | .equal n sequential nKeepTail => ¬ (sequential = true ∧ a.hasCpl = true) ∧
      (nKeepTail = 0 ∨ nKeepTail < n) ∧ ∀ i < a.batch.nTokens, 0 < a.batch.nSeqId i
  | .seq _ => True

variable {a a' : BatchAllocr}

lemma Strategy.Fits.allowed {st : Strategy} (h : st.Fits a) : st.Allowed a := by
  cases st with
  | simple n => trivial
  | equal n sequential nKeepTail => exact h.2
  | seq n => trivial

/-- Token `ii` of block `k` was taken by cursor `k`. -/
lemma takenBy_getD {r : ℕ} : ∀ {cs : List SetCursor} {k ii : ℕ}, (∀ c ∈ cs, c.idxs.length = r) →
    k < cs.length → ii < r → ∃ c ∈ cs[k]?, (takenBy cs).getD (k * r + ii) 0 ∈ c.idxs := by
  intro cs
  induction cs with
  | nil => intro k ii _ hk; simp at hk
  | cons c cs ih =>
    intro k ii hlen hk hii
    have hc := hlen c mem_cons_self
    rw [takenBy_cons]
    cases k with
    | zero =>
      refine ⟨c, by simp, ?_⟩
      have hlt : 0 * r + ii < c.idxs.length := by omega
      rw [getD_append _ _ _ _ hlt, getD_eq_getElem _ _ hlt]
      exact getElem_mem hlt
    | succ k =>
      have hle : c.idxs.length ≤ (k + 1) * r + ii := by
        rw [succ_mul]
        omega
      have heq : (k + 1) * r + ii - c.idxs.length = k * r + ii := by
        rw [succ_mul]
        omega
      rw [getD_append_right _ _ _ _ hle, heq]
      simpa using ih (fun d hd => hlen d (mem_cons_of_mem _ hd)) (by simpa using hk) hii

lemma length_takenBy {r : ℕ} {cs : List SetCursor} (hlen : ∀ c ∈ cs, c.idxs.length = r) :
    (takenBy cs).length = cs.length * r := by
  induction cs with
  | nil => simp
  | cons c cs ih =>
    rw [takenBy_cons, length_append, hlen c mem_cons_self,
      ih fun d hd => hlen d (mem_cons_of_mem _ hd), length_cons, succ_mul]
    omega

/-! ## One call -/

lemma carries_ubatchAdd (a : BatchAllocr) (idxs : List ℕ) (nSeqs : ℕ) (eq : Bool) :
    Carries a idxs (a.ubatchAdd idxs nSeqs eq).1 where
  nTokens := rfl
  token := by
    intro k hk
    simp [ubatchAdd, Function.comp_def, getElem?_eq_getElem hk]
  embd := by
    intro k hk e he
    have hdiv : (k * a.nEmbd + e) / a.nEmbd = k := by
      rw [Nat.mul_comm, mul_add_div (by omega), div_eq_of_lt he, Nat.add_zero]
    have hmod : (k * a.nEmbd + e) % a.nEmbd = e := by
      rw [Nat.mul_comm, mul_add_mod, mod_eq_of_lt he]
    simp [ubatchAdd, Function.comp_def, hdiv, hmod, getElem?_eq_getElem hk]
  pos := by
    intro j _ k hk
    have hdiv : (j * idxs.length + k) / idxs.length = j := by
      rw [Nat.mul_comm, mul_add_div (by omega), div_eq_of_lt hk, Nat.add_zero]
    have hmod : (j * idxs.length + k) % idxs.length = k := by
      rw [Nat.mul_comm, mul_add_mod, mod_eq_of_lt hk]
    simp only [ubatchAdd, hdiv, hmod, getD_eq_getElem _ _ hk]
  seqs := by
    intro k hk
    simp only [UBatch.seqs, FullBatch.seqs, ubatchAdd, getD_eq_getElem _ _ hk]
  output := by
    intro k hk
    simp only [ubatchAdd, getD_eq_getElem _ _ hk]

/-- `a` and `a'` split the same batch. -/
structure SameBatch (a a' : BatchAllocr) : Prop where
  nPosPerEmbd : a'.nPosPerEmbd = a.nPosPerEmbd
  batch : a'.batch = a.batch
  nEmbd : a'.nEmbd = a.nEmbd
  nSeqMax : a'.nSeqMax = a.nSeqMax
  hasCpl : a'.hasCpl = a.hasCpl
  seqSet : a'.seqSet = a.seqSet
  seqSetMap : a'.seqSetMap = a.seqSetMap

lemma SameBatch.refl (a : BatchAllocr) : SameBatch a a := ⟨rfl, rfl, rfl, rfl, rfl, rfl, rfl⟩

lemma SameBatch.trans {a'' : BatchAllocr} (h : SameBatch a a') (h' : SameBatch a' a'') :
    SameBatch a a'' :=
  ⟨h'.nPosPerEmbd.trans h.nPosPerEmbd, h'.batch.trans h.batch, h'.nEmbd.trans h.nEmbd,
    h'.nSeqMax.trans h.nSeqMax, h'.hasCpl.trans h.hasCpl, h'.seqSet.trans h.seqSet,
    h'.seqSetMap.trans h.seqSetMap⟩

lemma SameBatch.tables (h : SameBatch a a') (ht : a.Tables) : a'.Tables where
  seqSet_eq := by rw [h.seqSet, h.batch]; exact ht.seqSet_eq
  seqSetMap_eq := by rw [h.seqSet, h.seqSetMap, h.batch]; exact ht.seqSetMap_eq
  hasCpl_eq := by rw [h.hasCpl, h.batch]; exact ht.hasCpl_eq

lemma SameBatch.carries (h : SameBatch a a') {idxs : List ℕ} {ub : UBatch}
    (hc : Carries a' idxs ub) : Carries a idxs ub := by
  obtain ⟨h1, h2, h3, h4, h5, h6⟩ := hc
  rw [h.batch] at h2 h3 h4 h5 h6
  rw [h.nEmbd] at h3
  rw [h.nPosPerEmbd] at h4
  exact ⟨h1, h2, h3, h4, h5, h6⟩

lemma SameBatch.accounts (h : SameBatch a a') :
    ∀ {done : List ℕ} {steps : List (UBatch × BatchAllocr)} {parts : List (List ℕ)},
      Accounts a' done steps parts → Accounts a done steps parts := by
  intro done steps
  induction steps generalizing done with
  | nil =>
    intro parts hacc
    cases parts with
    | nil => trivial
    | cons _ _ => exact hacc.elim
  | cons s steps ih =>
    intro parts hacc
    cases parts with
    | nil => exact hacc.elim
    | cons idxs parts =>
      obtain ⟨h1, h2, h3, h4⟩ := hacc
      rw [h.batch] at h3
      exact ⟨h.carries h1, h2, h3, ih h4⟩

/-- The tokens not used yet. -/
def unusedTokens (a : BatchAllocr) : List ℕ :=
  (List.range a.batch.nTokens).filter fun i => !a.used i

lemma unusedTokens_eq_nil : a.unusedTokens = [] ↔ ∀ i < a.batch.nTokens, a.used i = true := by
  simp [unusedTokens]

/-- A call that emits `idxs` carries them, counts them, lists their outputs, and leaves the
other free tokens free. -/
structure Emitted (a : BatchAllocr) (idxs : List ℕ) (res : UBatch × BatchAllocr) : Prop where
  ne_nil : idxs ≠ []
  same : SameBatch a res.2
  carries : Carries a idxs res.1
  nUsed : res.2.nUsed = a.nUsed + idxs.length
  outIds : res.2.outIds = a.outIds ++ idxs.filter fun i => a.batch.logits i ≠ 0
  used_iff : ∀ i, res.2.used i = true ↔ i ∈ idxs ∨ a.used i = true
  perm : a.unusedTokens.Perm (idxs ++ res.2.unusedTokens)

lemma Emits.emitted {idxs : List ℕ} {res : UBatch × BatchAllocr} (h : Emits a idxs res) :
    Emitted a idxs res := by
  obtain ⟨a', nSeqs, eq, ht, rfl⟩ := h.add
  have hsame : SameBatch a (a'.ubatchAdd idxs nSeqs eq).2 :=
    ⟨ht.nPosPerEmbd_eq, ht.batch_eq, ht.nEmbd_eq, ht.nSeqMax_eq, ht.hasCpl_eq, ht.seqSet_eq,
      ht.seqSetMap_eq⟩
  have hsame' : SameBatch a a' :=
    ⟨ht.nPosPerEmbd_eq, ht.batch_eq, ht.nEmbd_eq, ht.nSeqMax_eq, ht.hasCpl_eq, ht.seqSet_eq,
      ht.seqSetMap_eq⟩
  refine ⟨h.ne_nil, hsame, hsame'.carries (carries_ubatchAdd a' idxs nSeqs eq), ht.nUsed_eq, ?_,
    ht.used_iff, ?_⟩
  · simp only [ubatchAdd, ht.outIds_eq, ht.batch_eq]
  · -- both sides list every unused token once
    have hnd : a.unusedTokens.Nodup := nodup_range.filter _
    have hnd' : (a'.ubatchAdd idxs nSeqs eq).2.unusedTokens.Nodup := nodup_range.filter _
    have hmem : ∀ i, i ∈ (a'.ubatchAdd idxs nSeqs eq).2.unusedTokens ↔
        i < a.batch.nTokens ∧ i ∉ idxs ∧ a.used i = false := by
      intro i
      have hu : a'.used i = false ↔ i ∉ idxs ∧ a.used i = false := by
        have := ht.used_iff i
        cases h1 : a'.used i <;> cases h2 : a.used i <;> simp_all
      simp only [unusedTokens, ubatchAdd, ht.batch_eq, mem_filter, mem_range, Bool.not_eq_true', hu]
    refine (perm_ext_iff_of_nodup hnd ?_).mpr ?_
    · refine nodup_append.mpr ⟨h.nodup, hnd', ?_⟩
      intro i hi j hj hij
      subst hij
      exact ((hmem i).mp hj).2.1 hi
    · intro i
      rw [mem_append, hmem]
      simp only [unusedTokens, mem_filter, mem_range, Bool.not_eq_true']
      constructor
      · rintro ⟨hlt, hfree⟩
        by_cases hi : i ∈ idxs
        · exact .inl hi
        · exact .inr ⟨hlt, hi, hfree⟩
      · rintro (hi | ⟨hlt, _, hfree⟩)
        · exact h.free i hi
        · exact ⟨hlt, hfree⟩

/-- What a strategy relies on and keeps from one call to the next. -/
def Strategy.Inv (a : BatchAllocr) : Strategy → Prop
  | .simple _ => ∃ m, ∀ i, a.used i = true ↔ i < m
  | .equal _ _ _ => a.SetPrefix
  | .seq _ => True

lemma SameBatch.allowed (h : SameBatch a a') {st : Strategy} (hf : st.Allowed a) :
    st.Allowed a' := by
  cases st with
  | simple n => trivial
  | equal n sequential nKeepTail =>
    simp only [Strategy.Allowed] at hf ⊢
    rw [h.hasCpl, h.batch]
    exact hf
  | seq n => trivial

lemma SameBatch.fits (h : SameBatch a a') {st : Strategy} (hf : st.Fits a) : st.Fits a' := by
  cases st with
  | simple n => exact hf
  | equal n sequential nKeepTail =>
    simp only [Strategy.Fits] at hf ⊢
    rw [h.hasCpl, h.batch]
    exact hf
  | seq n => exact hf

/-- **One call of a strategy**: it emits free tokens and keeps the invariant, or every
token is used and the ubatch is empty. -/
theorem Strategy.split_spec (htab : a.Tables) (st : Strategy) (hfit : st.Allowed a)
    (hinv : st.Inv a) :
    (∃ idxs res, st.split a = some res ∧ Emits a idxs res ∧ st.Inv res.2) ∨
      (a.unusedTokens = [] ∧ st.split a = some (.empty, a)) := by
  rw [unusedTokens_eq_nil]
  cases st with
  | simple n =>
    obtain ⟨m, hm⟩ := hinv
    cases hfu : a.firstUnused with
    | none =>
      right
      exact ⟨firstUnused_none hfu, by simp only [Strategy.split, splitSimple, hfu]⟩
    | some cur =>
      left
      obtain ⟨_, hcur⟩ := firstUnused_some hfu
      have hmc : m ≤ cur := by
        by_contra hlt
        have := (hm cur).mpr (by omega)
        rw [hcur] at this
        exact absurd this (by simp)
      have hpre : ∀ i, cur ≤ i → a.used i = false := by
        intro i hi
        by_contra hne
        have := (hm i).mp (by simpa using hne)
        omega
      obtain ⟨k, _, _, hem⟩ := splitSimple_spec n hfu hpre
      refine ⟨_, _, rfl, hem, cur + k, fun i => ?_⟩
      rw [hem.emitted.used_iff, hm, mem_range'_1]
      constructor
      · rintro (h | h) <;> omega
      · intro h
        by_cases hi : cur ≤ i
        · exact .inl ⟨hi, h⟩
        · right
          exact (hm i).mp (used_of_lt_firstUnused hfu (by omega))
  | equal n sequential nKeepTail =>
    obtain ⟨hcpl, hkeep, hids⟩ := hfit
    by_cases hall : ∀ i < a.batch.nTokens, a.used i = true
    · right
      refine ⟨hall, ?_⟩
      have hnil : a.chooseSets n sequential (range a.batch.nTokens) [] (-1) = [] :=
        equalSets_eq_nil.mpr hall
      simp only [Strategy.split, splitEqual, if_neg hcpl, hnil, if_true]
    · left
      push Not at hall
      obtain ⟨t, ht, hfree⟩ := hall
      have hset : ∀ i < a.batch.nTokens, a.used i = false → a.seqSet i ≠ ∅ :=
        fun i hi _ => htab.seqSet_ne_empty (hids i hi)
      obtain ⟨r, cs, res, hres, hrun, -⟩ :=
        splitEqual_spec htab hinv hset hcpl hkeep ⟨t, ht, by simpa using hfree⟩
      exact ⟨_, res, hres, hrun.emits htab, hrun.setPrefix htab hinv⟩
  | seq n =>
    cases hfu : a.firstUnused with
    | none =>
      right
      exact ⟨firstUnused_none hfu, by simp only [Strategy.split, splitSeq, hfu]⟩
    | some cur =>
      left
      obtain ⟨idxs, hem⟩ := splitSeq_spec n hfu
      exact ⟨idxs, _, rfl, hem, trivial⟩

/-- The invariant holds of an accepted batch. -/
lemma Strategy.inv_init {nPos nVocab nEmbd nSeqMax : ℕ} {inp : LlamaBatch}
    {memory : Option MemoryPos} {outputAll : Bool}
    (hinit : init nPos inp nVocab memory nEmbd nSeqMax outputAll = some a) (st : Strategy) :
    st.Inv a := by
  have hused : ∀ i, a.used i = false := fun i => by rw [init_eq hinit]; rfl
  cases st with
  | simple n => exact ⟨0, fun i => by simp [hused]⟩
  | equal n sequential nKeepTail =>
    intro i j _ _ _ hj
    rw [hused] at hj
    exact absurd hj (by simp)
  | seq n => trivial

/-! ## The run -/

/-- The run lemma: what each call keeps (`P`) and what it does (`R`) holds of a whole run,
which ends when nothing is free and has emitted what was free. -/
lemma drain_run (st : Strategy) {a0 : BatchAllocr} {P : BatchAllocr → Prop}
    {R : List ℕ → UBatch × BatchAllocr → Prop}
    (hstep : ∀ a, SameBatch a0 a → P a →
      (∃ idxs res, st.split a = some res ∧ Emits a idxs res ∧ P res.2 ∧ R idxs res) ∨
        (a.unusedTokens = [] ∧ st.split a = some (.empty, a))) :
    ∀ (fuel : ℕ) (a : BatchAllocr) (done : List ℕ), SameBatch a0 a → P a →
      a.unusedTokens.length < fuel → a.nUsed = done.length →
      a.outIds = done.filter (fun i => a.batch.logits i ≠ 0) →
      ∃ steps parts, drain st fuel a = some steps ∧ Accounts a done steps parts ∧
        parts.flatten.Perm a.unusedTokens ∧ List.Forall₂ R parts steps := by
  intro fuel
  induction fuel with
  | zero => intro a done _ _ hfuel; exact absurd hfuel (Nat.not_lt_zero _)
  | succ fuel ih =>
    intro a done hsame hP hfuel hn hout
    rcases hstep a hsame hP with ⟨idxs, res, hres, hemits, hP', hR⟩ | ⟨hnil, hres⟩
    · obtain ⟨ub, a'⟩ := res
      have hem := hemits.emitted
      have hlen : idxs.length ≠ 0 := fun h0 => hem.ne_nil (length_eq_zero_iff.mp h0)
      have hnt : ub.nTokens ≠ 0 := by
        rw [hem.carries.nTokens]
        exact hlen
      have hperm := hem.perm
      have hlt : a'.unusedTokens.length < fuel := by
        have := hperm.length_eq
        simp only [length_append] at this
        omega
      have hn' : a'.nUsed = (done ++ idxs).length := by
        have hn1 : a'.nUsed = a.nUsed + idxs.length := hem.nUsed
        simp only [length_append]
        omega
      have hout' : a'.outIds = (done ++ idxs).filter (fun i => a'.batch.logits i ≠ 0) := by
        have h1 : a'.outIds = a.outIds ++ _ := hem.outIds
        have h2 : a'.batch = a.batch := hem.same.batch
        rw [h1, hout, h2, filter_append]
      obtain ⟨steps, parts, hd, hacc, hp, hRs⟩ :=
        ih a' (done ++ idxs) (hsame.trans hem.same) hP' hlt hn' hout'
      refine ⟨(ub, a') :: steps, idxs :: parts, ?_, ?_, ?_, .cons hR hRs⟩
      · simp only [drain, hres, if_neg hnt, hd, Option.map_some]
      · refine ⟨hem.carries, hn', ?_, hem.same.accounts hacc⟩
        rw [hout', hem.same.batch]
      · exact (List.Perm.append_left idxs hp).trans hperm.symm
    · refine ⟨[], [], ?_, trivial, ?_, .nil⟩
      · simp only [drain, hres, UBatch.empty, if_true]
      · rw [hnil]
        exact List.Perm.refl _

/-- **Draining the free tokens**: enough calls empty the batch, and their token lists
together are exactly the tokens that were free. -/
theorem drain_spec (st : Strategy) :
    ∀ (fuel : ℕ) (a : BatchAllocr) (done : List ℕ), a.Tables → st.Fits a → st.Inv a →
      a.unusedTokens.length < fuel → a.nUsed = done.length →
      a.outIds = done.filter (fun i => a.batch.logits i ≠ 0) →
      ∃ steps parts, drain st fuel a = some steps ∧ Accounts a done steps parts ∧
        parts.flatten.Perm a.unusedTokens := by
  intro fuel a done htab hfit hinv hfuel hn hout
  have hstep : ∀ b, SameBatch a b → st.Inv b →
      (∃ idxs res, st.split b = some res ∧ Emits b idxs res ∧ st.Inv res.2 ∧ True) ∨
        (b.unusedTokens = [] ∧ st.split b = some (.empty, b)) := by
    intro b hsame hinv
    refine (st.split_spec (hsame.tables htab) (hsame.fits hfit).allowed hinv).imp_left ?_
    rintro ⟨idxs, res, hres, hem, hinv'⟩
    exact ⟨idxs, res, hres, hem, hinv', trivial⟩
  obtain ⟨steps, parts, h1, h2, h3, -⟩ :=
    drain_run st hstep fuel a done (SameBatch.refl a) hinv hfuel hn hout
  exact ⟨steps, parts, h1, h2, h3⟩

/-- **Every strategy partitions every accepted batch**: within one call per token and a
last one the ubatch is empty, and the ubatches before it hold every token exactly once. -/
theorem drain_partition {nPos nVocab nEmbd nSeqMax : ℕ} {inp : LlamaBatch}
    {memory : Option MemoryPos} {outputAll : Bool} {a : BatchAllocr}
    (hinit : init nPos inp nVocab memory nEmbd nSeqMax outputAll = some a)
    (st : Strategy) (hfit : st.Fits a) :
    ∃ steps parts, drain st (a.batch.nTokens + 1) a = some steps ∧ Accounts a [] steps parts ∧
      parts.flatten.Perm (List.range a.batch.nTokens) := by
  have ha := init_eq hinit
  have htab : a.Tables := ha ▸ tables_ofFull _ _ _ _
  have hused : ∀ i, a.used i = false := fun i => by rw [ha]; rfl
  have hunused : a.unusedTokens = List.range a.batch.nTokens := by
    simp [unusedTokens, hused]
  have hinv := st.inv_init hinit
  have hnused : a.nUsed = 0 := by rw [ha]; rfl
  have hout : a.outIds = [] := by rw [ha]; rfl
  obtain ⟨steps, parts, h1, h2, h3⟩ :=
    drain_spec st (a.batch.nTokens + 1) a [] htab hfit hinv (by simp [hunused]) (by simpa using hnused)
      (by simpa using hout)
  exact ⟨steps, parts, h1, h2, hunused ▸ h3⟩

/-- Tokens of sequences 0, 1, 0 at positions 0, 0, 1. -/
def threeTokens : LlamaBatch where
  nTokens := 3
  token := some fun _ => 7
  embd := none
  pos := some fun i => if i = 2 then 1 else 0
  nSeqId := some fun _ => 1
  seqId := some fun i _ => if i = 1 then 1 else 0
  logits := none

theorem drain_partition_threeTokens : ∃ a, init 1 threeTokens 10 none 0 2 false = some a ∧
      ∃ steps parts, drain (.equal 4 true 1) (a.batch.nTokens + 1) a = some steps ∧
        Accounts a [] steps parts ∧ parts.flatten.Perm (List.range a.batch.nTokens) := by
  have hacc : (init 1 threeTokens 10 none 0 2 false).isSome = true := by decide +kernel
  obtain ⟨a, ha⟩ := Option.isSome_iff_exists.mp hacc
  refine ⟨a, ha, drain_partition ha (.equal 4 true 1) ⟨by decide, ?_, by decide, ?_⟩⟩
  · rw [init_eq ha]
    decide
  · rw [init_eq ha]
    decide

/-- One token of sequence 0. -/
def oneToken : LlamaBatch where
  nTokens := 1
  token := some fun _ => 7
  embd := none
  pos := some fun _ => 0
  nSeqId := none
  seqId := none
  logits := none

/-- Two tokens that name no sequence. -/
def twoBareTokens : LlamaBatch where
  nTokens := 2
  token := some fun _ => 7
  embd := none
  pos := some fun i => i
  nSeqId := some fun _ => 0
  seqId := some fun _ _ => 0
  logits := none

/-- An accepted batch is not partitioned when the tail to keep is as long as a ubatch, and
two tokens without sequences are emitted twice each. -/
theorem not_partition_long_tail :
    (∃ a, init 1 oneToken 10 none 0 1 false = some a ∧ a.hasCpl = false ∧
      ∀ fuel, drain (.equal 1 false 1) fuel a = none) ∧
    ∃ a, init 1 twoBareTokens 10 none 0 1 false = some a ∧ a.hasCpl = false ∧
      ∀ fuel steps parts, drain (.equal 4 false 0) fuel a = some steps →
        Accounts a [] steps parts → ¬ parts.flatten.Perm (List.range a.batch.nTokens) := by
  constructor
  · have hacc : (init 1 oneToken 10 none 0 1 false).isSome = true := by decide +kernel
    obtain ⟨a, ha⟩ := Option.isSome_iff_exists.mp hacc
    refine ⟨a, ha, by rw [init_eq ha]; decide, fun fuel => ?_⟩
    have hnone : (a.splitEqual 1 false 1).isNone = true := by
      rw [init_eq ha]
      decide +kernel
    cases fuel with
    | zero => rfl
    | succ fuel => simp only [drain, Strategy.split, Option.isNone_iff_eq_none.mp hnone]
  · have hacc : (init 1 twoBareTokens 10 none 0 1 false).isSome = true := by decide +kernel
    obtain ⟨a, ha⟩ := Option.isSome_iff_exists.mp hacc
    refine ⟨a, ha, by rw [init_eq ha]; decide, fun fuel steps parts hd hacc hperm => ?_⟩
    have hfour : (a.splitEqual 4 false 0).map (·.1.nTokens) = some 4 := by
      rw [init_eq ha]
      decide +kernel
    obtain ⟨⟨ub, a'⟩, hres, hub⟩ := Option.map_eq_some_iff.mp hfour
    have hlen := hperm.length_eq
    have hn : a.batch.nTokens = 2 := by rw [init_eq ha]; rfl
    rw [List.length_range] at hlen
    cases fuel with
    | zero => simp [drain] at hd
    | succ fuel =>
      have hub : ub.nTokens = 4 := hub
      simp only [drain, Strategy.split, hres, hub] at hd
      obtain ⟨steps', _, rfl⟩ := Option.map_eq_some_iff.mp hd
      cases parts with
      | nil => exact hacc.elim
      | cons idxs parts =>
        have hc := hacc.1.nTokens
        rw [List.flatten_cons, List.length_append] at hlen
        omega

end Llama.BatchAllocr
