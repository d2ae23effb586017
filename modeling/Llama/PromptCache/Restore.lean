import Llama.PromptCache.Laws

/-!
# Restoring cached prompts

Restoring the state of a context may fail at any load.  An entry that is picked gives up the
state of the target before the state of the draft is restored, so that an entry whose draft could
not be restored stays in the cache without the state of the target; a later load takes this for an
empty state that was restored.  In the runs in which that does not happen, every entry is
complete, and a prompt that is loaded comes with the memory that holds it.
-/

namespace Llama

open List Option

variable {F M : Type}

/-- A state that was saved is restored as a whole, unless restoring it fails, and is never empty.
`Holds` tells which tokens a memory holds. -/
structure StateIO.Restores (io : StateIO M) (Holds : M → ServerTokens → Prop) : Prop where
  get_ne : ∀ m, io.get m ≠ []
  set_fails : ∀ data m, (io.set data true m).1 = 0
  set_get : ∀ m m', (io.set (io.get m) false m').1 = (io.get m).length
  holds : ∀ m m' st, Holds m st → Holds (io.set (io.get m) false m').2 st

/-- The saved states of an entry are there: that of the target, and that of the draft if there is
one. -/
structure PromptCacheState.Complete (io : StateIO M) (Holds : M → ServerTokens → Prop)
    (hasDft : Bool) (s : PromptCacheState) : Prop where
  main : ∃ m, s.main = io.get m ∧ Holds m s.prompt.tokens
  drft : hasDft = true → ∃ d, s.drft = io.get d ∧ Holds d s.prompt.tokens
  noDrft : hasDft = false → s.drft = []

/-- The calls that a slot with a prompt and two memories makes. -/
inductive CacheCall (M : Type)
  | save (prompt : ServerPrompt) (tgt : M) (dft : Option M) (badAlloc : Bool)
  | load (prompt : ServerPrompt) (tokensNew : ServerTokens) (tgt : M) (dft : Option M)
      (failTgt failDft : Bool)
  | update

namespace CacheCall

/-- A slot has a draft context or not, as all slots do, and a slot that is saved holds the tokens
of its prompt. -/
def InSync (Holds : M → ServerTokens → Prop) (hasDft : Bool) : CacheCall M → Prop
  | save prompt tgt dft _ => dft.isSome = hasDft ∧ Holds tgt prompt.tokens ∧
      ∀ d, dft = some d → Holds d prompt.tokens
  | load _ _ _ dft _ _ => dft.isSome = hasDft
  | update => True

/-- Where an entry is picked, restoring the draft does not fail unless restoring the target
does. -/
def Whole (fl : Floats F) (cache : PromptCache) : CacheCall M → Prop
  | load prompt tokensNew _ dft failTgt failDft => (cache.pick fl prompt tokensNew).isSome = true →
      dft.isSome = true → failDft = true → failTgt = true
  | _ => True

end CacheCall

namespace PromptCache

variable {fl : Floats F} {io : StateIO M} {Holds : M → ServerTokens → Prop} {hasDft : Bool}
  {cache : PromptCache}

/-- One call. -/
def call (fl : Floats F) (io : StateIO M) (cache : PromptCache) : CacheCall M → Option PromptCache
  | .save prompt tgt dft badAlloc => some (cache.save fl io prompt tgt dft badAlloc).1
  | .load prompt tokensNew tgt dft failTgt failDft =>
    (cache.load fl io prompt tokensNew tgt dft failTgt failDft).map Loaded.cache
  | .update => some (cache.update fl)

lemma update_subset : (cache.update fl).states ⊆ cache.states :=
  (update_sublist_dropOverSize.trans dropOverSize_sublist).subset

variable {prompt : ServerPrompt} {tokensNew : ServerTokens}

lemma alloc_states {sizeTgt sizeDft : ℕ} {badAlloc : Bool} {r : PromptCache × Bool}
    (hr : cache.alloc fl prompt sizeTgt sizeDft badAlloc = r) :
    (r.2 = false → r.1.states ⊆ cache.states) ∧
      (r.2 = true → ∃ states s, states ⊆ cache.states ∧ s.prompt = prompt ∧
        r.1.states = states ++ [s]) := by
  unfold alloc at hr
  split at hr
  · subst hr
    refine ⟨fun _ => ?_, fun h => by cases h⟩
    exact List.Subset.refl _
  dsimp only at hr
  split at hr
  · subst hr
    refine ⟨fun _ => ?_, fun h => by cases h⟩
    exact List.Subset.refl _
  obtain ⟨room, hroom⟩ : ∃ room, room = (cache.removeContained prompt).makeRoom
    (sizeTgt + sizeDft + prompt.checkpointsSize) := ⟨_, rfl⟩
  rw [← hroom] at hr
  have hsub : room.states ⊆ cache.states := by
    rw [hroom]
    exact ((makeRoom_sublist _).trans filter_sublist).subset
  split at hr
  · subst hr
    exact ⟨fun _ => List.Subset.trans update_subset hsub, fun h => by cases h⟩
  · subst hr
    refine ⟨fun h => ?_, fun _ => ⟨room.states, _, hsub, rfl, rfl⟩⟩
    cases h

/-- An entry after saving a slot was there before, or is that of the slot. -/
lemma mem_save {tgt : M} {dft : Option M} {badAlloc : Bool} {s : PromptCacheState}
    (hs : s ∈ (cache.save fl io prompt tgt dft badAlloc).1.states) :
    s ∈ cache.states ∨ s = ⟨prompt, io.get tgt, (dft.map io.get).getD []⟩ := by
  unfold save at hs
  split at hs
  · exact .inl hs
  dsimp only at hs
  generalize hr : cache.alloc fl prompt (io.get tgt).length
    ((dft.map io.get).getD []).length badAlloc = r at hs
  have halloc := alloc_states hr
  split at hs
  · next hok =>
    obtain ⟨states, s0, hsub, hprompt, heq⟩ := halloc.2 hok
    rw [writeBack, heq, dropLast_concat, getLast?_concat] at hs
    rcases mem_append.mp hs with hs | hs
    · exact .inl (hsub hs)
    · simp only [map_some, toList_some, mem_singleton, hprompt] at hs
      exact .inr hs
  · next hno => exact .inl (halloc.1 (by simpa using hno) hs)

lemma search_idx {states : List PromptCacheState} :
    ∀ {best : Best F} {i j : ℕ}, (search fl tokensNew best i states).idx = some j →
      best.idx = some j ∨ i ≤ j ∧ j < i + states.length := by
  induction states with
  | nil => exact fun h => .inl h
  | cons s states ih =>
    intro best i j h
    rcases ih (by simpa only [search] using h) with h | ⟨hle, hlt⟩
    · unfold consider at h
      dsimp only at h
      split at h
      · exact .inl h
      split at h
      · cases h
        exact .inr ⟨le_rfl, by simp⟩
      · exact .inl h
    · exact .inr ⟨by omega, by simp only [length_cons]; omega⟩

/-- An entry that is picked is one of the cache. -/
lemma pick_lt {i : ℕ} (h : cache.pick fl prompt tokensNew = some i) : i < cache.states.length := by
  rcases search_idx h with h | ⟨-, h⟩
  · cases h
  · simpa using h

lemma pick_load {tgt : M} {dft : Option M} {failTgt failDft : Bool} {r : Loaded M}
    (hr : cache.load fl io prompt tokensNew tgt dft failTgt failDft = some r) :
    cache.pick fl prompt tokensNew = none ∧ r = ⟨true, cache, prompt, tgt, dft⟩ ∨
      ∃ i s, cache.pick fl prompt tokensNew = some i ∧ cache.states[i]? = some s ∧
        cache.restore io i s prompt tgt dft failTgt failDft = some r := by
  unfold load at hr
  cases hpick : cache.pick fl prompt tokensNew with
  | none =>
    simp only [hpick, bind_none] at hr
    cases hr
    exact .inl ⟨rfl, rfl⟩
  | some i =>
    have hget := getElem?_eq_getElem (pick_lt hpick)
    simp only [hpick, hget, bind_some, map_some] at hr
    exact .inr ⟨i, _, rfl, hget, hr⟩

/-- A complete entry is restored as a whole, or stays. -/
lemma restore_complete {i : ℕ} {s : PromptCacheState} {tgt : M} {dft : Option M}
    {failTgt failDft : Bool} {r : Loaded M} (hio : io.Restores Holds)
    (hs : s.Complete io Holds hasDft) (hdft : dft.isSome = hasDft)
    (hr : cache.restore io i s prompt tgt dft failTgt failDft = some r) :
    (r.ok = true ∧ r.cache.states = cache.states.eraseIdx i ∧ r.prompt = s.prompt ∧
      Holds r.tgt r.prompt.tokens ∧ ∀ d, r.dft = some d → Holds d r.prompt.tokens) ∨
    (r.ok = false ∧ failTgt = true ∧ r.cache = cache) ∨
    (r.ok = false ∧ failTgt = false ∧ failDft = true ∧ dft.isSome = true) := by
  obtain ⟨m, hmain, hm⟩ := hs.main
  have hlen : 0 < s.main.length := by
    rw [hmain]
    exact length_pos_of_ne_nil (hio.get_ne m)
  unfold restore at hr
  dsimp only at hr
  cases failTgt with
  | true =>
    rw [hio.set_fails, if_pos hlen.ne] at hr
    cases hr
    exact .inr (.inl ⟨rfl, rfl, rfl⟩)
  | false =>
    have hset : (io.set s.main false tgt).1 = s.main.length := by
      rw [hmain]
      exact hio.set_get m tgt
    have hheld : Holds (io.set s.main false tgt).2 s.prompt.tokens := by
      rw [hmain]
      exact hio.holds m tgt _ hm
    rw [if_neg (not_not.mpr hset)] at hr
    cases dft with
    | none =>
      rw [if_pos (hs.noDrft (by simpa using hdft.symm))] at hr
      cases hr
      exact .inl ⟨rfl, rfl, rfl, hheld, fun d hd => by cases hd⟩
    | some d0 =>
      obtain ⟨d, hdrft, hd⟩ := hs.drft (by simpa using hdft.symm)
      have hne : s.drft ≠ [] := by
        rw [hdrft]
        exact hio.get_ne d
      rw [if_neg hne] at hr
      dsimp only at hr
      cases failDft with
      | true =>
        have hlen' : 0 < s.drft.length := length_pos_of_ne_nil hne
        rw [hio.set_fails, if_pos hlen'.ne] at hr
        cases hr
        exact .inr (.inr ⟨rfl, rfl, rfl, rfl⟩)
      | false =>
        have hset' : (io.set s.drft false d0).1 = s.drft.length := by
          rw [hdrft]
          exact hio.set_get d d0
        have hheld' : Holds (io.set s.drft false d0).2 s.prompt.tokens := by
          rw [hdrft]
          exact hio.holds d d0 _ hd
        rw [if_neg (not_not.mpr hset')] at hr
        cases hr
        refine .inl ⟨rfl, rfl, rfl, hheld, ?_⟩
        rintro d' ⟨⟩
        exact hheld'

/-- Every entry is complete. -/
def AllComplete (io : StateIO M) (Holds : M → ServerTokens → Prop) (hasDft : Bool)
    (cache : PromptCache) : Prop :=
  ∀ s ∈ cache.states, s.Complete io Holds hasDft

lemma AllComplete.call {c : CacheCall M} {cache' : PromptCache} (hio : io.Restores Holds)
    (h : cache.AllComplete io Holds hasDft) (hsync : c.InSync Holds hasDft)
    (hwhole : c.Whole fl cache)
    (hc : cache.call fl io c = some cache') : cache'.AllComplete io Holds hasDft := by
  cases c with
  | save prompt tgt dft badAlloc =>
    obtain ⟨hdft, htgt, hd⟩ := hsync
    cases hc
    intro s hs
    rcases mem_save hs with hs | rfl
    · exact h s hs
    · refine ⟨⟨tgt, rfl, htgt⟩, fun hhas => ?_, fun hno => ?_⟩
      · obtain ⟨d, rfl⟩ := isSome_iff_exists.mp (hdft.trans hhas)
        exact ⟨d, rfl, hd d rfl⟩
      · rw [isSome_eq_false_iff.mp (hdft.trans hno) |> isNone_iff_eq_none.mp]
        rfl
  | load prompt tokensNew tgt dft failTgt failDft =>
    obtain ⟨r, hr, rfl⟩ := map_eq_some_iff.mp hc
    rcases pick_load hr with ⟨-, rfl⟩ | ⟨i, s, hpick, hs, hr⟩
    · exact h
    rcases restore_complete hio (h s (mem_of_getElem? hs)) hsync hr with
      ⟨-, hstates, -⟩ | ⟨-, -, heq⟩ | ⟨-, hft, hfd, hsome⟩
    · intro t ht
      rw [hstates] at ht
      exact h t (mem_of_mem_eraseIdx ht)
    · rwa [heq]
    · have htrue := hwhole (by rw [hpick, isSome_some]) hsome hfd
      exact absurd (hft.symm.trans htrue) Bool.false_ne_true
  | update =>
    cases hc
    exact fun s hs => h s (update_subset hs)

/-- **Entries are complete and loaded prompts are held**, in the runs in which no load fails to
restore a draft after it restored the target: every entry keeps its saved states, and where a
load picks an entry and returns true, the memory holds the tokens of the prompt. -/
theorem complete_of_reachable {limitSizeMib : ℤ} {limitTokens : ℕ} (hio : io.Restores Holds)
    (h : Run.Reachable (PromptCache.call fl io) (fun s c => c.InSync Holds hasDft ∧ c.Whole fl s)
      (new limitSizeMib limitTokens) cache) :
    cache.AllComplete io Holds hasDft ∧
      ∀ prompt tokensNew tgt dft failTgt failDft i r, dft.isSome = hasDft →
        cache.pick fl prompt tokensNew = some i →
          cache.load fl io prompt tokensNew tgt dft failTgt failDft = some r → r.ok = true →
            Holds r.tgt r.prompt.tokens ∧ ∀ d, r.dft = some d → Holds d r.prompt.tokens := by
  have hall : cache.AllComplete io Holds hasDft := by
    refine h.invariant ?_ ?_
    · intro s hs
      cases hs
    · rintro s c s' hs ⟨hsync, hwhole⟩ hc
      exact hs.call hio hsync hwhole hc
  refine ⟨hall, ?_⟩
  intro prompt tokensNew tgt dft failTgt failDft i r hdft hpick hr hok
  rcases pick_load hr with ⟨hnone, -⟩ | ⟨j, s, -, hs, hr⟩
  · rw [hnone] at hpick
    cases hpick
  rcases restore_complete hio (hall s (List.mem_of_getElem? hs)) hdft hr with
    ⟨-, -, -, hheld⟩ | ⟨hno, -⟩ | ⟨hno, -⟩
  · exact hheld
  · rw [hok] at hno
    cases hno
  · rw [hok] at hno
    cases hno

/-! ## Concrete runs -/

/-- A memory that holds a byte for each token. -/
def HoldsBytes (m : List UInt8) (st : ServerTokens) : Prop :=
  m = st.tokens.map fun token => UInt8.ofNat token.toNat

instance (m : List UInt8) (st : ServerTokens) : Decidable (HoldsBytes m st) :=
  inferInstanceAs (Decidable (m = _))

lemma plain_restores : StateIO.plain.Restores HoldsBytes where
  get_ne _ := cons_ne_nil _ _
  set_fails _ _ := rfl
  set_get _ _ := rfl
  holds _ _ _ h := h

/-- A prompt of two tokens, and one that continues it. -/
def twoTokens : ServerPrompt := ⟨⟨false, [.text 1, .text 2], by decide, by decide⟩, []⟩

/-- The tokens of a prompt that continues `twoTokens`. -/
def threeTokens : ServerTokens := ⟨false, [.text 1, .text 2, .text 3], by decide, by decide⟩

/-- A cache with one entry, that of a slot with a draft context. -/
def oneSaved : PromptCache :=
  ((new 1 0).save .exact StateIO.plain twoTokens [1, 2] (some [1, 2]) false).1

lemma oneSaved_reachable {guard : PromptCache → CacheCall (List UInt8) → Prop}
    (h : guard (new 1 0) (.save twoTokens [1, 2] (some [1, 2]) false)) :
    Run.Reachable (PromptCache.call .exact StateIO.plain) guard (new 1 0) oneSaved :=
  Run.Reachable.step .init h rfl

theorem complete_of_reachable_saved : ∃ cache r,
    Run.Reachable (PromptCache.call .exact StateIO.plain)
      (fun s c => c.InSync HoldsBytes true ∧ c.Whole .exact s) (new 1 0) cache ∧
    cache.AllComplete StateIO.plain HoldsBytes true ∧
    cache.load .exact StateIO.plain ⟨.empty false, []⟩ threeTokens [] (some []) false false =
      some r ∧ r.prompt = twoTokens ∧ HoldsBytes r.tgt r.prompt.tokens ∧
      ∀ d, r.dft = some d → HoldsBytes d r.prompt.tokens := by
  have hreach : Run.Reachable (PromptCache.call .exact StateIO.plain)
      (fun s c => c.InSync HoldsBytes true ∧ c.Whole .exact s) (new 1 0) oneSaved :=
    oneSaved_reachable ⟨⟨rfl, by decide, by rintro d ⟨⟩; decide⟩, trivial⟩
  have hpick : oneSaved.pick .exact ⟨.empty false, []⟩ threeTokens = some 0 := by decide +kernel
  have hload : (oneSaved.load .exact StateIO.plain ⟨.empty false, []⟩ threeTokens [] (some [])
      false false).map (fun r => (r.ok, r.prompt)) = some (true, twoTokens) := by
    decide +kernel
  obtain ⟨r, hr, heq⟩ := Option.map_eq_some_iff.mp hload
  obtain ⟨hall, hheld⟩ := complete_of_reachable plain_restores hreach
  exact ⟨oneSaved, r, hreach, hall, hr, (Prod.mk.inj heq).2,
    hheld _ _ _ _ _ _ _ _ rfl hpick hr (Prod.mk.inj heq).1⟩

/-- The draft of the entry is not restored; the entry stays, and the next load returns true with
the empty memory. -/
theorem not_complete_failedDraft : ∃ cache r,
    Run.Reachable (PromptCache.call .exact StateIO.plain) (fun _ c => c.InSync HoldsBytes true)
      (new 1 0) cache ∧
    ¬cache.AllComplete StateIO.plain HoldsBytes true ∧
    (cache.pick .exact ⟨.empty false, []⟩ threeTokens).isSome = true ∧
    cache.load .exact StateIO.plain ⟨.empty false, []⟩ threeTokens [] (some []) false false =
      some r ∧ r.ok = true ∧ r.prompt = twoTokens ∧ ¬HoldsBytes r.tgt r.prompt.tokens := by
  have hrun : (oneSaved.load .exact StateIO.plain ⟨.empty false, []⟩ threeTokens [] (some [])
      false true).map (fun r => (r.cache.states.map PromptCacheState.main,
        (r.cache.pick .exact ⟨.empty false, []⟩ threeTokens).isSome)) = some ([[]], true) := by
    decide +kernel
  have hsecond : (oneSaved.load .exact StateIO.plain ⟨.empty false, []⟩ threeTokens [] (some [])
      false true).bind (fun r => (r.cache.load .exact StateIO.plain ⟨.empty false, []⟩ threeTokens
        [] (some []) false false).map fun r => (r.ok, r.prompt, r.tgt)) =
      some (true, twoTokens, []) := by
    decide +kernel
  obtain ⟨first, hfirst, heq⟩ := Option.map_eq_some_iff.mp hrun
  obtain ⟨hmain, hpick⟩ := Prod.mk.inj heq
  rw [hfirst] at hsecond
  obtain ⟨r, hr, hres⟩ := Option.map_eq_some_iff.mp hsecond
  obtain ⟨hok, hres⟩ := Prod.mk.inj hres
  obtain ⟨hprompt, htgt⟩ := Prod.mk.inj hres
  have hreach : Run.Reachable (PromptCache.call .exact StateIO.plain)
      (fun _ c => c.InSync HoldsBytes true) (new 1 0) first.cache := by
    have hsave : (CacheCall.save twoTokens [1, 2] (some [1, 2]) false).InSync HoldsBytes true :=
      ⟨rfl, by decide, by rintro d ⟨⟩; decide⟩
    have hload : oneSaved.call .exact StateIO.plain
        (.load ⟨.empty false, []⟩ threeTokens [] (some []) false true) = some first.cache := by
      rw [PromptCache.call, hfirst]
      rfl
    refine (oneSaved_reachable hsave).step ?_ hload
    rfl
  refine ⟨first.cache, r, hreach, fun hall => ?_, hpick, hr, hok, hprompt, ?_⟩
  · obtain ⟨s, hs, hnil⟩ := List.mem_map.mp (hmain ▸ List.mem_singleton_self [])
    obtain ⟨m, hm, -⟩ := (hall s hs).main
    rw [hnil] at hm
    cases hm
  · rw [hprompt, htgt]
    decide

end PromptCache

end Llama
