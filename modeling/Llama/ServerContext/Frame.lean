import Llama.PromptCache.Restore
import Llama.ServerContext

/-!
# What choosing a slot changes

Choosing a slot may update the prompt cache, which saves the prompt of the slot and may load
another one into it.  Whether the slot is processing, and whether there are slots for the child
tasks, is looked at only then.  A slot that was asked for by its id may be processing, so its
prompt and its memory may be replaced while it is in use; and an idle slot may be given another
prompt although the task is deferred.  These are the only ways in which anything but the slot that
is about to be launched changes.
-/

namespace Llama

open List Option

variable {F M : Type} {fl : Floats F} {io : StateIO M} {noMem : M} {faults : CacheFaults}

/-- The comparison of floating-point numbers is irreflexive and transitive. -/
structure Floats.Ordered (fl : Floats F) : Prop where
  irrefl : ∀ x, fl.lt x x = false
  trans : ∀ x y z, fl.lt x y = true → fl.lt y z = true → fl.lt x z = true

namespace PromptCache

/-- How similar a prompt is to the tokens of a task. -/
def similarity (fl : Floats F) (tokensNew : ServerTokens) (prompt : ServerPrompt) : F :=
  fl.div (fl.ofSize (prompt.tokens.commonPrefix tokensNew)) (fl.ofSize tokensNew.length)

/-- The best entry is that at the beginning, or one that is more similar. -/
lemma search_similar (hfl : fl.Ordered) {tokensNew : ServerTokens} (sim0 : F)
    {states : List PromptCacheState} : ∀ {best : Best F} {i : ℕ},
      (best.idx = none ∧ best.sim = sim0 ∨ fl.lt sim0 best.sim = true) →
      ∀ {j : ℕ}, (search fl tokensNew best i states).idx = some j → best.idx = some j ∨
        ∃ s, states[j - i]? = some s ∧ i ≤ j ∧
          fl.lt sim0 (similarity fl tokensNew s.prompt) = true := by
  induction states with
  | nil => exact fun _ _ h => .inl h
  | cons s states ih =>
    intro best i hbest j h
    have hstep : (consider fl tokensNew best i s) = best ∨
        (consider fl tokensNew best i s).idx = some i ∧
        (consider fl tokensNew best i s).sim = similarity fl tokensNew s.prompt ∧
        fl.lt best.sim (similarity fl tokensNew s.prompt) = true := by
      unfold consider
      dsimp only
      split
      · exact .inl rfl
      split
      · next hlt => exact .inr ⟨rfl, rfl, (Bool.and_eq_true_iff.mp hlt).2⟩
      · exact .inl rfl
    rw [search] at h
    rcases hstep with heq | ⟨hidx, hsim, hlt⟩
    · rw [heq] at h
      rcases ih hbest h with h | ⟨t, ht, hle, hsim⟩
      · exact .inl h
      · refine .inr ⟨t, ?_, by omega, hsim⟩
        rw [← ht, show j - i = j - (i + 1) + 1 by omega, getElem?_cons_succ]
    · have hlt0 : fl.lt sim0 (similarity fl tokensNew s.prompt) = true := by
        rcases hbest with ⟨-, rfl⟩ | hbest
        · exact hlt
        · exact hfl.trans _ _ _ hbest hlt
      rcases ih (.inr (by rw [hsim]; exact hlt0)) h with h | ⟨t, ht, hle, hsim⟩
      · rw [hidx] at h
        cases h
        exact .inr ⟨s, by simp, le_rfl, hlt0⟩
      · refine .inr ⟨t, ?_, by omega, hsim⟩
        rw [← ht, show j - i = j - (i + 1) + 1 by omega, getElem?_cons_succ]

/-- An entry that is picked does not have the tokens of the prompt it replaces. -/
lemma pick_tokens_ne (hfl : fl.Ordered) {cache : PromptCache} {prompt : ServerPrompt}
    {tokensNew : ServerTokens} {i : ℕ} {s : PromptCacheState}
    (hpick : cache.pick fl prompt tokensNew = some i) (hs : cache.states[i]? = some s) :
    s.prompt.tokens ≠ prompt.tokens := by
  intro heq
  rcases search_similar hfl (similarity fl tokensNew prompt) (.inl ⟨rfl, rfl⟩) hpick with
    h | ⟨t, ht, -, hlt⟩
  · cases h
  · rw [Nat.sub_zero, hs] at ht
    cases ht
    have hsim : similarity fl tokensNew s.prompt = similarity fl tokensNew prompt := by
      rw [similarity, similarity, heq]
    rw [hsim, hfl.irrefl] at hlt
    cases hlt

/-- What restoring an entry leaves of the prompt and of the draft. -/
lemma restore_leaves {cache : PromptCache} {i : ℕ} {s : PromptCacheState}
    {prompt : ServerPrompt} {tgt : M} {dft : Option M} {failTgt failDft : Bool} {r : Loaded M}
    (hr : cache.restore io i s prompt tgt dft failTgt failDft = some r) :
    (r.ok = true → r.prompt = s.prompt) ∧
      (r.ok = false → r.prompt = prompt ∧ r.dft.isSome = dft.isSome) := by
  unfold restore at hr
  dsimp only at hr
  split at hr
  · cases hr
    exact ⟨by simp, fun _ => ⟨rfl, rfl⟩⟩
  split at hr
  · cases hr
    exact ⟨fun _ => rfl, by simp⟩
  cases dft with
  | none => cases hr
  | some d =>
    dsimp only at hr
    split at hr
    · cases hr
      exact ⟨by simp, fun _ => ⟨rfl, rfl⟩⟩
    · cases hr
      exact ⟨fun _ => rfl, by simp⟩

end PromptCache

variable {slot : ServerSlot M}

namespace ServerSlot

/-- The prompt with its checkpoints, and the memory. -/
def contents (slot : ServerSlot M) : ServerPrompt × M × Option M :=
  (slot.prompt, slot.tgt, slot.dft)

/-- Clearing the prompt changes nothing. -/
structure Blank (noMem : M) (slot : ServerSlot M) : Prop where
  prompt : slot.prompt.clear = slot.prompt
  tgt : slot.tgt = noMem
  dft : ∀ d, slot.dft = some d → d = noMem

/-- The prompt cache, once the prompt of the slot was saved, has an entry that replaces what is
in the slot: the entry can be restored, or there is something to lose when it cannot. -/
def Loses (fl : Floats F) (io : StateIO M) (noMem : M) (faults : CacheFaults)
    (slot : ServerSlot M) (cache : PromptCache) (tokens : ServerTokens) : Prop :=
  let saved := (cache.save fl io slot.prompt slot.tgt slot.dft faults.badAlloc).1
  ∃ r, (saved.pick fl slot.prompt tokens).isSome = true ∧
    saved.load fl io slot.prompt tokens slot.tgt slot.dft faults.failTgt faults.failDft = some r ∧
    (r.ok = true ∨ ¬slot.Blank noMem)

lemma contents_promptClear {r : PromptCache.Loaded M} (hprompt : r.prompt = slot.prompt)
    (hdft : r.dft.isSome = slot.dft.isSome) :
    (promptClear noMem { slot with prompt := r.prompt, tgt := r.tgt, dft := r.dft }).contents =
      slot.contents ↔ slot.Blank noMem := by
  have hmap : r.dft.map (fun _ => noMem) = slot.dft.map fun _ => noMem := by
    revert hdft
    cases r.dft <;> cases slot.dft <;> simp
  simp only [promptClear, contents, hprompt, hmap, Prod.mk.injEq]
  constructor
  · rintro ⟨hp, ht, hd⟩
    refine ⟨hp, ht.symm, ?_⟩
    intro d heq
    rw [heq] at hd
    exact (Option.some.inj hd).symm
  · intro h
    refine ⟨h.prompt, h.tgt.symm, ?_⟩
    cases hd : slot.dft with
    | none => rfl
    | some d => rw [map_some, h.dft d hd]

/-- **One slot.**  Updating the prompt cache replaces what is in the slot exactly when the cache
has an entry that replaces it. -/
theorem exchange_spec (hfl : fl.Ordered) {cache : PromptCache} {tokens : ServerTokens}
    {r : ServerSlot M × PromptCache} (hr : slot.exchange fl io noMem faults cache tokens = some r) :
    r.1.id = slot.id ∧ r.1.state = slot.state ∧
      (r.1.contents ≠ slot.contents ↔ slot.Loses fl io noMem faults cache tokens) := by
  obtain ⟨r1, hload, rfl⟩ := map_eq_some_iff.mp hr
  obtain ⟨l, hl, rfl⟩ := map_eq_some_iff.mp hload
  dsimp only
  have hloses : slot.Loses fl io noMem faults cache tokens ↔
      ((cache.save fl io slot.prompt slot.tgt slot.dft faults.badAlloc).1.pick fl slot.prompt
        tokens).isSome = true ∧ (l.ok = true ∨ ¬slot.Blank noMem) := by
    constructor
    · rintro ⟨l', hpick, hl', h⟩
      rw [hl] at hl'
      cases hl'
      exact ⟨hpick, h⟩
    · rintro ⟨hpick, h⟩
      exact ⟨l, hpick, hl, h⟩
  rw [hloses]
  rcases PromptCache.pick_load hl with ⟨hnone, rfl⟩ | ⟨i, s, hpick, hs, hrestore⟩
  · rw [hnone]
    simp [contents]
  · have hne := PromptCache.pick_tokens_ne hfl hpick hs
    obtain ⟨hok, hno⟩ := PromptCache.restore_leaves hrestore
    rw [hpick]
    cases hlok : l.ok with
    | true =>
      have hprompt : l.prompt ≠ slot.prompt := by
        rw [hok hlok]
        exact fun heq => hne (congrArg ServerPrompt.tokens heq)
      simp [contents, hprompt]
    | false =>
      refine ⟨rfl, rfl, ?_⟩
      obtain ⟨hprompt, hdft⟩ := hno hlok
      rw [if_neg Bool.false_ne_true, ne_eq, contents_promptClear hprompt hdft]
      simp

end ServerSlot

/-! ## The slots -/

namespace ServerContext

variable {ctx : ServerContext F M} {task : ServerTask}

/-- Which slots are free depends only on which slots are processing. -/
lemma freeSlots_congr {n : ℕ} {ex : ℤ} {slots slots' : List (ServerSlot M)}
    (h : slots'.map (fun s => (s.id, s.state)) = slots.map fun s => (s.id, s.state)) :
    ∀ free i, freeSlots n ex free i slots' = freeSlots n ex free i slots := by
  induction slots generalizing slots' with
  | nil =>
    rw [map_nil, map_eq_nil_iff] at h
    exact fun _ _ => h ▸ rfl
  | cons s slots ih =>
    cases slots' with
    | nil => cases h
    | cons s' slots' =>
      rw [map_cons, map_cons, List.cons.injEq, Prod.mk.injEq] at h
      obtain ⟨⟨hid, hstate⟩, htail⟩ := h
      have hproc : s'.isProcessing = s.isProcessing := by
        rw [ServerSlot.isProcessing, ServerSlot.isProcessing, hstate]
      intro free i
      rw [freeSlots, freeSlots, hproc, hid]
      simp only [ih htail]

/-- The slots that are processing keep their prompts, checkpoints and memory, and so does every
slot but the one that is about to be launched, which is idle. -/
def Frames (ctx : ServerContext F M) (r : ServerContext F M × Scheduled) : Prop :=
  r.1.slots.length = ctx.slots.length ∧ ∀ i s s', ctx.slots[i]? = some s → r.1.slots[i]? = some s' →
      s'.id = s.id ∧ s'.state = s.state ∧
      (s.isProcessing = true → s'.contents = s.contents) ∧
      (s'.contents ≠ s.contents → s.isProcessing = false ∧ ∃ childSlots, r.2 = .launch i childSlots)

/-- The slot that is chosen loses what it holds, and it is processing, or there are too few slots
for the child tasks. -/
def Replaces (fl : Floats F) (io : StateIO M) (noMem : M) (faults : CacheFaults)
    (ctx : ServerContext F M) (task : ServerTask) : Prop :=
  ∃ i updateCache cache slot, ctx.choose fl task = some (i, updateCache) ∧
    ctx.cacheFor task updateCache = some cache ∧ ctx.slots[i]? = some slot ∧
    slot.Loses fl io noMem faults cache task.tokens ∧
    (slot.isProcessing = true ∨
      (ctx.getFreeSlots task.nChildTasks slot.id).length < task.nChildTasks)

/-- What is done with a task for which a slot was chosen. -/
lemma schedule_eq {i : ℕ} (hslot : ctx.slots[i]? = some slot) : (slot.isProcessing = true ∨
      (ctx.getFreeSlots task.nChildTasks slot.id).length < task.nChildTasks) ∧
      ctx.schedule task (some i) = .deferred ∨
    ¬(slot.isProcessing = true ∨
      (ctx.getFreeSlots task.nChildTasks slot.id).length < task.nChildTasks) ∧
      ∃ childSlots, ctx.schedule task (some i) = .launch i childSlots := by
  unfold schedule
  simp only [hslot, bind_some, map_some]
  by_cases hproc : slot.isProcessing = true
  · exact .inl ⟨.inl hproc, if_pos hproc⟩
  rw [if_neg hproc]
  by_cases hfew : (ctx.getFreeSlots task.nChildTasks slot.id).length < task.nChildTasks
  · have hparent : task.isParent = true := decide_eq_true (by omega)
    rw [if_pos hparent, if_pos hfew]
    exact .inl ⟨.inr hfew, rfl⟩
  · refine .inr ⟨by tauto, ?_⟩
    split
    · exact ⟨_, rfl⟩
    · exact ⟨_, rfl⟩

lemma frames_of_slots {r : ServerContext F M × Scheduled} (h : r.1.slots = ctx.slots) :
    ctx.Frames r := by
  refine ⟨congrArg List.length h, ?_⟩
  intro i s s' hs hs'
  rw [h, hs] at hs'
  cases hs'
  exact ⟨rfl, rfl, fun _ => rfl, fun hne => absurd rfl hne⟩

/-- Replacing a slot by one with the same id and state does not change what is done. -/
lemma schedule_set {i : ℕ} {slot' : ServerSlot M} {cache : Option PromptCache}
    (hslot : ctx.slots[i]? = some slot) (hid : slot'.id = slot.id)
    (hstate : slot'.state = slot.state) :
    ({ ctx with slots := ctx.slots.set i slot', promptCache := cache } :
      ServerContext F M).schedule task (some i) = ctx.schedule task (some i) := by
  have hlt : i < ctx.slots.length := (List.getElem?_eq_some_iff.mp hslot).1
  have hmap : (ctx.slots.set i slot').map (fun s => (s.id, s.state)) =
      ctx.slots.map fun s => (s.id, s.state) := by
    rw [map_set, hid, hstate]
    refine ext_getElem? fun j => ?_
    rcases eq_or_ne i j with rfl | hj
    · rw [getElem?_set_self (by simpa using hlt), getElem?_map, hslot]
      rfl
    · rw [getElem?_set_ne hj]
  unfold schedule getFreeSlots
  simp only [getElem?_set_self hlt, hslot, bind_some, map_some,
    freeSlots_congr hmap, ServerSlot.isProcessing, hid, hstate]

/-- **Choosing a slot changes only the slot that is launched**, exactly when it does not replace
what is in a slot that is processing, or whose task is deferred for want of slots for its child
tasks. -/
theorem processTask_frames (hfl : fl.Ordered) {r : ServerContext F M × Scheduled}
    (hr : ctx.processTask fl io noMem faults task = some r) :
    ctx.Frames r ↔ ¬ctx.Replaces fl io noMem faults task := by
  obtain ⟨a, ha, rfl⟩ := Option.map_eq_some_iff.mp hr
  unfold getAvailableSlot at ha
  split at ha
  · next hchoose =>
    cases ha
    refine ⟨?_, fun _ => frames_of_slots rfl⟩
    rintro - ⟨i, u, cache, slot, hch, -⟩
    rw [hchoose] at hch
    cases hch
  next i u hchoose =>
  split at ha
  · next cache slot hcache hslot =>
    obtain ⟨e, he, rfl⟩ := Option.map_eq_some_iff.mp ha
    obtain ⟨hid, hstate, hcontents⟩ := ServerSlot.exchange_spec hfl he
    have hlt : i < ctx.slots.length := (List.getElem?_eq_some_iff.mp hslot).1
    rw [schedule_set hslot hid hstate]
    constructor
    · rintro ⟨-, hframe⟩ ⟨j, v, cache', slot', hch, hca, hsl, hloses, hbad⟩
      rw [hchoose] at hch
      cases hch
      rw [hcache] at hca
      cases hca
      rw [hslot] at hsl
      cases hsl
      obtain ⟨-, -, -, hlaunch⟩ := hframe i slot e.1 hslot (List.getElem?_set_self hlt)
      obtain ⟨-, childSlots, heq⟩ := hlaunch (hcontents.mpr hloses)
      rcases schedule_eq hslot with ⟨-, hdeferred⟩ | ⟨hgood, -⟩
      · rw [hdeferred] at heq
        cases heq
      · exact hgood hbad
    · intro hno
      refine ⟨List.length_set, ?_⟩
      intro j s s' hs hs'
      rcases eq_or_ne i j with rfl | hj
      · rw [List.getElem?_set_self hlt] at hs'
        rw [hslot] at hs
        cases hs
        cases hs'
        have hkeep : slot.isProcessing = true ∨
            (ctx.getFreeSlots task.nChildTasks slot.id).length < task.nChildTasks →
            e.1.contents = slot.contents := by
          intro hbad
          by_contra hne
          exact hno ⟨i, u, cache, slot, hchoose, hcache, hslot, hcontents.mp hne, hbad⟩
        refine ⟨hid, hstate, fun hproc => hkeep (.inl hproc), fun hne => ?_⟩
        rcases schedule_eq hslot with ⟨hbad, -⟩ | ⟨hgood, hlaunch⟩
        · exact absurd (hkeep hbad) hne
        · exact ⟨by simpa using fun hproc => hgood (.inl hproc), hlaunch⟩
      · rw [List.getElem?_set_ne hj, hs] at hs'
        cases hs'
        exact ⟨rfl, rfl, fun _ => rfl, fun hne => absurd rfl hne⟩
  · next hnone =>
    cases ha
    refine ⟨?_, fun _ => frames_of_slots rfl⟩
    rintro - ⟨j, v, cache, slot, hch, hca, hsl, -⟩
    rw [hchoose] at hch
    cases hch
    exact hnone cache slot hca hsl

/-! ## Concrete tasks -/

lemma exact_ordered : Floats.exact.Ordered where
  irrefl x := by cases x <;> simp [Floats.exact]
  trans x y z hxy hyz := by
    cases x <;> cases y <;> cases z <;>
      simp_all [Floats.exact]
    exact lt_trans hxy hyz

/-- A slot whose prompt has nothing to do with that of the task. -/
def otherSlot (state : SlotState) : ServerSlot (List UInt8) :=
  ⟨0, state, ⟨⟨false, [.text 9], by decide, by decide⟩, []⟩, [9], none, 0⟩

/-- A server with that slot only, and with a cached prompt that the task continues. -/
def oneSlot (state : SlotState) : ServerContext (Option ℚ) (List UInt8) :=
  ⟨[otherSlot state], some ⟨[⟨PromptCache.twoTokens, [1, 1, 2], []⟩], 0, 0⟩, some (1 / 10)⟩

/-- A completion that asks for the slot. -/
def pinnedTask : ServerTask := ⟨.completion, 0, PromptCache.threeTokens, 0⟩

theorem processTask_frames_idle : ∃ r,
    (oneSlot .idle).processTask .exact StateIO.plain [] ⟨false, false, false⟩ pinnedTask =
      some r ∧ r.2 = .launch 0 [] ∧ r.1.slots.map ServerSlot.tgt = [[1, 2]] ∧
      (oneSlot .idle).Frames r := by
  have hrun : ((oneSlot .idle).processTask .exact StateIO.plain [] ⟨false, false, false⟩
      pinnedTask).map (fun r => (r.2, r.1.slots.map ServerSlot.tgt)) =
      some (.launch 0 [], [[1, 2]]) := by
    decide +kernel
  obtain ⟨r, hr, heq⟩ := Option.map_eq_some_iff.mp hrun
  obtain ⟨hlaunch, htgt⟩ := Prod.mk.inj heq
  refine ⟨r, hr, hlaunch, htgt, (processTask_frames exact_ordered hr).mpr ?_⟩
  rintro ⟨i, u, cache, slot, -, -, hslot, -, hbad⟩
  have hmem : slot ∈ [otherSlot .idle] := List.mem_of_getElem? hslot
  rw [List.mem_singleton.mp hmem] at hbad
  rcases hbad with h | h
  · exact absurd h (by decide)
  · exact absurd h (Nat.not_lt_zero _)

/-- The slot that was asked for is generating; its prompt and its memory are replaced, and the
task is deferred. -/
theorem not_frames_pinned : ∃ r,
    (oneSlot .generating).processTask .exact StateIO.plain [] ⟨false, false, false⟩ pinnedTask =
      some r ∧ r.2 = .deferred ∧ r.1.slots.map ServerSlot.tgt = [[1, 2]] ∧
      ¬(oneSlot .generating).Frames r := by
  have hrun : ((oneSlot .generating).processTask .exact StateIO.plain [] ⟨false, false, false⟩
      pinnedTask).map (fun r => (r.2, r.1.slots.map ServerSlot.tgt)) =
      some (.deferred, [[1, 2]]) := by
    decide +kernel
  obtain ⟨r, hr, heq⟩ := Option.map_eq_some_iff.mp hrun
  obtain ⟨hdeferred, htgt⟩ := Prod.mk.inj heq
  refine ⟨r, hr, hdeferred, htgt, ?_⟩
  rintro ⟨-, hframe⟩
  have hget : (r.1.slots.map ServerSlot.tgt)[0]? = some [1, 2] := by
    rw [htgt]
    rfl
  rw [List.getElem?_map] at hget
  obtain ⟨s', hs', hheld⟩ := Option.map_eq_some_iff.mp hget
  obtain ⟨-, -, hkeep, -⟩ := hframe 0 (otherSlot .generating) s' rfl hs'
  have htgt' : s'.tgt = [9] := congrArg (fun c => c.2.1) (hkeep rfl)
  rw [hheld] at htgt'
  exact absurd htgt' (by decide)

end ServerContext

end Llama
