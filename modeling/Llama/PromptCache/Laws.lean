import Llama.PromptCache
import Llama.Lib.Run
import Mathlib.Algebra.Order.BigOperators.Group.List
import Mathlib.Data.List.Pairwise

/-!
# The laws of the prompt cache

In every run of `alloc`, `load` and `update` no cached prompt is a prefix of another one, and the
size of the cache is within its limit.  A prompt that is refused because an entry contains it, or
because it is too large, leaves the cache as it is.
-/

namespace Llama

open List

/-! ## Removing the oldest entries -/

lemma popWhile_suffix (exceeds : List PromptCacheState → Bool) :
    ∀ states, popWhile exceeds states <:+ states
  | [] => suffix_rfl
  | s :: states => by
    unfold popWhile
    split
    · exact (popWhile_suffix exceeds states).trans (suffix_cons s states)
    · exact suffix_rfl

lemma popWhile_stops (exceeds : List PromptCacheState → Bool) :
    ∀ states, popWhile exceeds states = [] ∨ exceeds (popWhile exceeds states) = false
  | [] => .inl rfl
  | s :: states => by
    unfold popWhile
    split
    · exact popWhile_stops exceeds states
    · next h => exact .inr (by simpa using h)

lemma sizeOfStates_le_of_sublist {l l' : List PromptCacheState} (h : l.Sublist l') :
    sizeOfStates l ≤ sizeOfStates l' := (h.map _).sum_le_sum fun _ _ => Nat.zero_le _

lemma sizeOfStates_concat (l : List PromptCacheState) (s : PromptCacheState) :
    sizeOfStates (l ++ [s]) = sizeOfStates l + s.size := by
  rw [sizeOfStates, map_append, sum_append, map_singleton, sum_singleton, sizeOfStates]

namespace PromptCache

variable {F M : Type} {fl : Floats F} {io : StateIO M} {cache : PromptCache}

/-- No entry is a prefix of another one. -/
def Apart (cache : PromptCache) : Prop :=
  cache.states.Pairwise fun s t =>
    ¬ s.prompt.tokens.IsPrefix t.prompt.tokens ∧ ¬ t.prompt.tokens.IsPrefix s.prompt.tokens

/-- The invariant of the runs. -/
structure Laws (cache : PromptCache) : Prop where
  apart : cache.Apart
  size_le : 0 < cache.limitSize → cache.size ≤ cache.limitSize

lemma laws_new (limitSizeMib : ℤ) (limitTokens : ℕ) : (new limitSizeMib limitTokens).Laws where
  apart := List.Pairwise.nil
  size_le := fun _ => Nat.zero_le _

/-- Removing entries keeps the laws. -/
lemma Laws.sublist {states : List PromptCacheState} (h : cache.Laws)
    (hsub : states.Sublist cache.states) : ({ cache with states := states } : PromptCache).Laws where
  apart := h.apart.sublist hsub
  size_le := fun hlimit => (sizeOfStates_le_of_sublist hsub).trans (h.size_le hlimit)

/-! ## The calls -/

lemma update_limitSize : (cache.update fl).limitSize = cache.limitSize := by
  unfold update dropOverSize
  dsimp only
  split <;> split <;> rfl

lemma dropOverSize_sublist : cache.dropOverSize.states.Sublist cache.states := by
  unfold dropOverSize
  split
  · exact (popWhile_suffix _ _).sublist
  · exact List.Sublist.refl _

lemma update_sublist_dropOverSize : (cache.update fl).states.Sublist cache.dropOverSize.states := by
  unfold update
  dsimp only
  split
  · exact (popWhile_suffix _ _).sublist
  · exact List.Sublist.refl _

lemma size_dropOverSize (hlimit : 0 < cache.limitSize) :
    sizeOfStates cache.dropOverSize.states ≤ cache.limitSize := by
  unfold dropOverSize
  rw [if_pos hlimit]
  dsimp only
  rcases popWhile_stops (fun states => decide (cache.limitSize < sizeOfStates states))
    cache.states with hnil | hle
  · rw [hnil]
    exact Nat.zero_le _
  · exact Nat.not_lt.mp (of_decide_eq_false hle)

/-- `update` enforces the limit, whatever the size was. -/
lemma laws_update (h : cache.Apart) : (cache.update fl).Laws where
  apart := h.sublist (update_sublist_dropOverSize.trans dropOverSize_sublist)
  size_le := by
    rw [update_limitSize]
    intro hlimit
    exact (sizeOfStates_le_of_sublist update_sublist_dropOverSize).trans (size_dropOverSize hlimit)

variable {prompt : ServerPrompt}

lemma containsPrompt_iff : cache.containsPrompt prompt = true ↔
    ∃ s ∈ cache.states, prompt.tokens.IsPrefix s.prompt.tokens := by
  simp only [containsPrompt, any_eq_true, decide_eq_true_eq,
    ServerTokens.commonPrefix_eq_length_right]

lemma mem_removeContained {s : PromptCacheState}
    (hs : s ∈ (cache.removeContained prompt).states) :
    s ∈ cache.states ∧ ¬ s.prompt.tokens.IsPrefix prompt.tokens := by
  obtain ⟨hmem, hne⟩ := mem_filter.mp hs
  refine ⟨hmem, fun hpre => ?_⟩
  rw [decide_eq_true_eq] at hne
  exact hne (ServerTokens.commonPrefix_eq_length_left.mpr hpre)

lemma makeRoom_sublist (n : ℕ) : (cache.makeRoom n).states.Sublist cache.states := by
  unfold makeRoom
  split
  · exact (popWhile_suffix _ _).sublist
  · exact List.Sublist.refl _

lemma makeRoom_limitSize (n : ℕ) : (cache.makeRoom n).limitSize = cache.limitSize := by
  unfold makeRoom
  split <;> rfl

lemma size_makeRoom {n : ℕ} (hlimit : 0 < cache.limitSize) (hn : n ≤ cache.limitSize) :
    sizeOfStates (cache.makeRoom n).states + n ≤ cache.limitSize := by
  unfold makeRoom
  rw [if_pos hlimit]
  dsimp only
  rcases popWhile_stops (fun states => decide (cache.limitSize < sizeOfStates states + n))
    cache.states with hnil | hle
  · rw [hnil]
    exact (Nat.zero_add n).le.trans hn
  · exact Nat.not_lt.mp (of_decide_eq_false hle)

lemma laws_alloc {sizeTgt sizeDft : ℕ} {badAlloc : Bool} (h : cache.Laws) :
    (cache.alloc fl prompt sizeTgt sizeDft badAlloc).1.Laws := by
  unfold alloc
  split
  · exact h
  next hnew =>
  dsimp only
  split
  · exact h
  next hsize =>
  obtain ⟨room, hroom⟩ : ∃ room, room = (cache.removeContained prompt).makeRoom
    (sizeTgt + sizeDft + prompt.checkpointsSize) := ⟨_, rfl⟩
  rw [← hroom]
  have hsub : room.states.Sublist (cache.removeContained prompt).states := by
    rw [hroom]
    exact makeRoom_sublist _
  have hapart : room.Apart := h.apart.sublist (hsub.trans filter_sublist)
  split
  · exact laws_update hapart
  · refine ⟨pairwise_append.mpr ⟨hapart, pairwise_singleton _ _, fun s hs t ht => ?_⟩,
      fun hlimit => ?_⟩
    · obtain ⟨hmem, hne⟩ := mem_removeContained (hsub.subset hs)
      rw [mem_singleton.mp ht]
      refine ⟨hne, fun hpre => hnew ?_⟩
      exact containsPrompt_iff.mpr ⟨s, hmem, hpre⟩
    · have hlimitEq : room.limitSize = cache.limitSize := by
        rw [hroom, makeRoom_limitSize]
        rfl
      have hlimit' : 0 < cache.limitSize := hlimitEq ▸ hlimit
      have hfit : sizeTgt + sizeDft + prompt.checkpointsSize ≤ cache.limitSize := by
        by_contra hlt
        exact hsize ⟨hlimit', Nat.not_le.mp hlt⟩
      have hroomSize : sizeOfStates ((cache.removeContained prompt).makeRoom
          (sizeTgt + sizeDft + prompt.checkpointsSize)).states +
            (sizeTgt + sizeDft + prompt.checkpointsSize) ≤ cache.limitSize :=
        size_makeRoom hlimit' hfit
      rw [← hroom] at hroomSize
      change sizeOfStates (room.states ++ [_]) ≤ room.limitSize
      rw [sizeOfStates_concat, hlimitEq]
      rw [PromptCacheState.size, length_replicate, length_replicate]
      exact hroomSize

/-- A prompt that is refused leaves the cache as it is. -/
lemma alloc_refused {sizeTgt sizeDft : ℕ} {badAlloc : Bool}
    (h : (∃ s ∈ cache.states, prompt.tokens.IsPrefix s.prompt.tokens) ∨
      0 < cache.limitSize ∧ cache.limitSize < sizeTgt + sizeDft + prompt.checkpointsSize) :
    cache.alloc fl prompt sizeTgt sizeDft badAlloc = (cache, false) := by
  unfold alloc
  split
  · rfl
  · next hnew =>
    rw [if_pos (h.resolve_left fun hex => hnew (containsPrompt_iff.mpr hex))]

/-- The laws are about the prompts and the size. -/
lemma Laws.congr {states : List PromptCacheState} (h : cache.Laws)
    (hprompt : states.map PromptCacheState.prompt = cache.states.map PromptCacheState.prompt)
    (hsize : sizeOfStates states ≤ cache.size) :
    ({ cache with states := states } : PromptCache).Laws where
  apart := by
    have hmap : (cache.states.map PromptCacheState.prompt).Pairwise fun p q =>
        ¬ p.tokens.IsPrefix q.tokens ∧ ¬ q.tokens.IsPrefix p.tokens :=
      pairwise_map.mpr h.apart
    rw [← hprompt] at hmap
    exact pairwise_map.mp hmap
  size_le := fun hlimit => hsize.trans (h.size_le hlimit)

lemma sizeOfStates_set_le {s' : PromptCacheState} : ∀ {states : List PromptCacheState} {i : ℕ},
    (∀ s, states[i]? = some s → s'.size ≤ s.size) →
      sizeOfStates (states.set i s') ≤ sizeOfStates states
  | [], _, _ => Nat.le_refl _
  | s :: states, 0, h => Nat.add_le_add_right (h s rfl) _
  | s :: states, i + 1, h => by
    have hrec : sizeOfStates (states.set i s') ≤ sizeOfStates states :=
      sizeOfStates_set_le fun t ht => h t ht
    exact Nat.add_le_add_left hrec s.size

/-- An entry that lost the state of the target. -/
lemma Laws.clearMain {i : ℕ} {s : PromptCacheState} (h : cache.Laws)
    (hs : cache.states[i]? = some s) :
    ({ cache with states := cache.states.set i { s with main := [] } } : PromptCache).Laws := by
  refine h.congr ?_ (sizeOfStates_set_le fun t ht => ?_)
  · obtain ⟨hi, rfl⟩ := List.getElem?_eq_some_iff.mp hs
    rw [map_set]
    refine ext_getElem? fun j => ?_
    rw [getElem?_set]
    split
    · next hij =>
      subst hij
      simp [hi]
    · rfl
  · obtain rfl : s = t := Option.some.inj (hs.symm.trans ht)
    simp only [PromptCacheState.size, length_nil]
    omega

lemma Laws.restore {i : ℕ} {s : PromptCacheState} {tgt : M} {dft : Option M}
    {failTgt failDft : Bool} {r : Loaded M} (h : cache.Laws) (hs : cache.states[i]? = some s)
    (hr : cache.restore io i s prompt tgt dft failTgt failDft = some r) : r.cache.Laws := by
  have htaken := h.sublist (eraseIdx_sublist cache.states i)
  unfold PromptCache.restore at hr
  dsimp only at hr
  split at hr
  · cases hr
    exact h
  split at hr
  · cases hr
    exact htaken
  split at hr
  · cases hr
  split at hr
  · cases hr
    exact h.clearMain hs
  · cases hr
    exact htaken

lemma Laws.load {tokensNew : ServerTokens} {tgt : M} {dft : Option M} {failTgt failDft : Bool}
    {r : Loaded M} (h : cache.Laws)
    (hr : cache.load fl io prompt tokensNew tgt dft failTgt failDft = some r) : r.cache.Laws := by
  unfold PromptCache.load at hr
  split at hr
  · cases hr
    exact h
  · next i s heq =>
    obtain ⟨j, -, hj⟩ := Option.bind_eq_some_iff.mp heq
    obtain ⟨t, ht, hpair⟩ := Option.map_eq_some_iff.mp hj
    cases hpair
    exact h.restore ht hr

lemma Laws.writeBack {main drft : List UInt8} (h : cache.Laws)
    (hlen : ∀ s, cache.states.getLast? = some s →
      main.length = s.main.length ∧ drft.length = s.drft.length) :
    (cache.writeBack main drft).Laws := by
  refine h.congr ?_ ?_ <;> rcases eq_nil_or_concat' cache.states with hnil | ⟨l, s, hl⟩
  · rw [hnil]
    rfl
  · rw [hl]
    simp
  · rw [size, hnil]
    exact Nat.le_refl _
  · obtain ⟨hm, hd⟩ := hlen s (by rw [hl]; exact getLast?_concat)
    rw [size, hl, dropLast_concat, getLast?_concat]
    simp only [Option.map_some, Option.toList_some, sizeOfStates_concat, PromptCacheState.size]
    omega

end PromptCache

/-! ## Runs -/

/-- The calls of the cache.  `write` is the caller's writing of the entry that `alloc` returned. -/
inductive CacheOp (M : Type)
  | alloc (prompt : ServerPrompt) (sizeTgt sizeDft : ℕ) (badAlloc : Bool)
  | write (main drft : List UInt8)
  | load (prompt : ServerPrompt) (tokensNew : ServerTokens) (tgt : M) (dft : Option M)
      (failTgt failDft : Bool)
  | update

namespace PromptCache

variable {F M : Type} {fl : Floats F} {io : StateIO M} {cache : PromptCache}

/-- One call. -/
def step (fl : Floats F) (io : StateIO M) (cache : PromptCache) : CacheOp M → Option PromptCache
  | .alloc prompt sizeTgt sizeDft badAlloc =>
    some (cache.alloc fl prompt sizeTgt sizeDft badAlloc).1
  | .write main drft => some (cache.writeBack main drft)
  | .load prompt tokensNew tgt dft failTgt failDft =>
    (cache.load fl io prompt tokensNew tgt dft failTgt failDft).map Loaded.cache
  | .update => some (cache.update fl)

/-- Writing does not change the sizes. -/
def Writes (cache : PromptCache) : CacheOp M → Prop
  | .write main drft => ∀ s, cache.states.getLast? = some s →
      main.length = s.main.length ∧ drft.length = s.drft.length
  | _ => True

lemma Laws.step {op : CacheOp M} {cache' : PromptCache} (h : cache.Laws) (hw : cache.Writes op)
    (hs : cache.step fl io op = some cache') : cache'.Laws := by
  cases op with
  | alloc prompt sizeTgt sizeDft badAlloc =>
    cases hs
    exact laws_alloc h
  | write main drft =>
    cases hs
    exact h.writeBack hw
  | load prompt tokensNew tgt dft failTgt failDft =>
    obtain ⟨r, hr, rfl⟩ := Option.map_eq_some_iff.mp hs
    exact h.load hr
  | update =>
    cases hs
    exact laws_update h.apart

/-- **The laws of the cache.**  In every run no entry is a prefix of another one, the size is
within the limit, and a prompt that is refused leaves the cache as it is. -/
theorem laws_of_reachable {limitSizeMib : ℤ} {limitTokens : ℕ}
    (h : Run.Reachable (step fl io) Writes (new limitSizeMib limitTokens) cache) :
    cache.Apart ∧ (0 < cache.limitSize → cache.size ≤ cache.limitSize) ∧
      ∀ prompt sizeTgt sizeDft badAlloc,
        (∃ s ∈ cache.states, prompt.tokens.IsPrefix s.prompt.tokens) ∨
        0 < cache.limitSize ∧ cache.limitSize < sizeTgt + sizeDft + prompt.checkpointsSize →
          cache.alloc fl prompt sizeTgt sizeDft badAlloc = (cache, false) := by
  have hlaws := h.invariant (laws_new limitSizeMib limitTokens) fun c op c' hc hw hs => hc.step hw hs
  exact ⟨hlaws.apart, hlaws.size_le, fun prompt sizeTgt sizeDft badAlloc hrefuse =>
    alloc_refused hrefuse⟩

/-- A prompt replaces the shorter one that it contains. -/
theorem laws_of_reachable_replaced : ∃ cache : PromptCache,
    Run.Reachable (step .exact StateIO.plain) Writes (new 1 0) cache ∧ cache.states.length = 1 ∧
      cache.Apart ∧ (0 < cache.limitSize → cache.size ≤ cache.limitSize) ∧
        ∀ prompt sizeTgt sizeDft badAlloc,
          (∃ s ∈ cache.states, prompt.tokens.IsPrefix s.prompt.tokens) ∨ 0 < cache.limitSize ∧
            cache.limitSize < sizeTgt + sizeDft + prompt.checkpointsSize →
          cache.alloc .exact prompt sizeTgt sizeDft badAlloc = (cache, false) := by
  obtain ⟨p1, h1⟩ : ∃ p : ServerPrompt,
      p = ⟨⟨false, [.text 1, .text 2], by decide, by decide⟩, []⟩ := ⟨_, rfl⟩
  obtain ⟨p2, h2⟩ : ∃ p : ServerPrompt,
      p = ⟨⟨false, [.text 1, .text 2, .text 3], by decide, by decide⟩, []⟩ := ⟨_, rfl⟩
  have hrun : (((new 1 0).step .exact StateIO.plain (.alloc p1 4 0 false)).bind
      (step .exact StateIO.plain · (.alloc p2 6 0 false))).map (fun c => c.states.length) =
        some 1 := by
    rw [h1, h2]
    decide +kernel
  obtain ⟨cache, hrun, hlen⟩ := Option.map_eq_some_iff.mp hrun
  obtain ⟨c1, hs1, hs2⟩ := Option.bind_eq_some_iff.mp hrun
  have hw : ∀ (c : PromptCache) (p : ServerPrompt) (n : ℕ),
      c.Writes (.alloc p n 0 false : CacheOp (List UInt8)) := fun _ _ _ => trivial
  have hreach : Run.Reachable (step .exact StateIO.plain) Writes (new 1 0) cache :=
    (Run.Reachable.step .init (hw _ p1 4) hs1).step (hw c1 p2 6) hs2
  exact ⟨cache, hreach, hlen, laws_of_reachable hreach⟩

end PromptCache

end Llama
