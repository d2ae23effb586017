import Llama.ServerContext.Loop

/-!
# What a step does to a slot

The prompt of a slot is its memory and its tokens in the rest of the batch.  `SlotOk` says so, and
`Moves` that it is kept for every slot.  Every step moves the slots so, apart from the launch of a
task and from a sub-batch that is decoded, behind which children are activated.

A step that breaks a round off does so only if no slot that keeps its prompt has tokens in the rest
of the batch.
-/

namespace Llama

open List Function

/-! ## Lists -/

@[simp] lemma tokensOf_nil (k : ℕ) : tokensOf k [] = [] := rfl

@[simp] lemma tokensOf_append (k : ℕ) (l l' : List BatchToken) :
    tokensOf k (l ++ l') = tokensOf k l ++ tokensOf k l' := by
  rw [tokensOf, filter_append, map_append]
  rfl

lemma tokensOf_eq_nil_iff {k : ℕ} {l : List BatchToken} :
    tokensOf k l = [] ↔ ∀ t ∈ l, t.idSlot ≠ k := by
  rw [tokensOf, map_eq_nil_iff, filter_eq_nil_iff]
  exact forall₂_congr fun t _ => not_congr decide_eq_true_iff

@[simp] lemma tokensOf_map_self (k : ℕ) (text : List ℤ) :
    tokensOf k (text.map (BatchToken.mk k)) = text := by
  induction text with
  | nil => rfl
  | cons t text ih => rw [map_cons, tokensOf, filter_cons_of_pos (by simp), map_cons,
      ← tokensOf, ih]

lemma tokensOf_map_of_ne {k k' : ℕ} (h : k' ≠ k) (text : List ℤ) :
    tokensOf k' (text.map (BatchToken.mk k)) = [] := by
  rw [tokensOf_eq_nil_iff]
  intro t ht
  obtain ⟨_, -, rfl⟩ := mem_map.mp ht
  exact h.symm

/-- The elements at places of a first part. -/
lemma pick_eq_of_isPrefix {places : List ℕ} {l l' : List ℤ} (h : l <+: l')
    (hplaces : ∀ i ∈ places, i < l.length) : pick places l' = pick places l := by
  obtain ⟨rest, rfl⟩ := h
  exact filterMap_congr fun i hi => getElem?_append_left (hplaces i hi)

/-- The states in which the prompt is all that is in the memory and in the batch. -/
def SlotState.Active (state : SlotState) : Prop :=
  state = .processingPrompt ∨ state = .donePrompt ∨ state = .generating

/-- The prompt of a slot, its memory and its tokens in the rest of the batch. -/
structure SlotOk (slot : CmplSlot) (memory pending : List ℤ) : Prop where
  held : slot.prompt <+: memory ++ pending
  exact : slot.state.Active → slot.prompt = memory ++ pending
  waiting : slot.state = .waitOther ∨ slot.state = .started → pending = []
  processing : slot.state = .processingPrompt →
    ∃ task, slot.task = some task ∧ slot.prompt <+: task.tokens
  done : slot.state = .donePrompt → ∃ task, slot.task = some task ∧ slot.prompt = task.tokens

lemma SlotOk.of_idle {slot : CmplSlot} {memory pending : List ℤ} (h : slot.state = .idle)
    (hheld : slot.prompt <+: memory ++ pending) : SlotOk slot memory pending := by
  refine ⟨hheld, ?_, ?_, ?_, ?_⟩ <;> rw [h]
  · rintro (h | h | h) <;> cases h
  · rintro (h | h) <;> cases h
  · exact fun h => (by cases h)
  · exact fun h => (by cases h)

/-- A slot that generates: there is nothing but its memory to say about it. -/
lemma slotOk_generating {slot : CmplSlot} {memory pending : List ℤ}
    (hstate : slot.state = .generating) (h : slot.prompt = memory ++ pending) :
    SlotOk slot memory pending := by
  refine ⟨h ▸ prefix_rfl, fun _ => h, ?_, ?_, ?_⟩ <;> rw [hstate]
  · rintro (h | h) <;> cases h
  · exact fun h => (by cases h)
  · exact fun h => (by cases h)

/-! ## Releasing -/

lemma isProcessing_iff {slot : CmplSlot} : slot.isProcessing ↔ slot.state ≠ .idle :=
  decide_eq_true_iff

lemma state_release (slot : CmplSlot) : slot.release.state = .idle := by
  unfold CmplSlot.release
  by_cases hstate : slot.state = .idle
  · rw [if_neg (mt isProcessing_iff.mp (not_not_intro hstate))]
    exact hstate
  · rw [if_pos (isProcessing_iff.mpr hstate)]

lemma task_release {slot : CmplSlot} {task : CmplTask} (h : slot.release.task = some task) :
    slot.task = some task := by
  unfold CmplSlot.release at h
  split_ifs at h with hprocessing
  exact h

lemma state_fail (slot : CmplSlot) : slot.fail.state = .idle := by
  unfold CmplSlot.fail
  by_cases hstate : slot.state = .idle
  · rw [if_neg (mt isProcessing_iff.mp (not_not_intro hstate))]
    exact hstate
  · rw [if_pos (isProcessing_iff.mpr hstate)]
    exact state_release slot

lemma task_fail {slot : CmplSlot} {task : CmplTask} (h : slot.fail.task = some task) :
    slot.task = some task := by
  unfold CmplSlot.fail at h
  split_ifs at h with hprocessing
  · exact task_release h
  · exact h

/-- A slot keeps its prompt and its memory, or loses both. -/
lemma release_eq (slot : CmplSlot) (memory : List ℤ) :
    slot.release.prompt = slot.prompt ∧ slot.releaseMemory memory = memory ∨
      slot.release.prompt = [] := by
  unfold CmplSlot.release CmplSlot.releaseMemory
  cases hprocessing : slot.isProcessing with
  | false => exact .inl ⟨rfl, rfl⟩
  | true =>
    cases hchild : slot.isChild with
    | false => exact .inl ⟨rfl, rfl⟩
    | true => exact .inr rfl

lemma fail_eq (slot : CmplSlot) (memory : List ℤ) :
    slot.fail.prompt = slot.prompt ∧ slot.failMemory memory = memory ∨ slot.fail.prompt = [] := by
  unfold CmplSlot.fail CmplSlot.failMemory
  cases slot.isProcessing with
  | false => exact .inl ⟨rfl, rfl⟩
  | true => exact .inr rfl

namespace ServerLoop

/-- The part of the batch that is not decoded. -/
def rest (s : ServerLoop) : List BatchToken :=
  match s.phase with
  | .between => []
  | .building => s.batch
  | .decoding off _ => s.batch.drop off
  | .decoded off n => s.batch.drop (off + n)

/-- The tokens of a slot that are not decoded. -/
def pending (s : ServerLoop) (k : ℕ) : List ℤ := tokensOf k s.rest

/-! ## Breaking a round off -/

/-- The slot has no prompt once a round was broken off: by a fatal error, after which the contexts
of the slots that are processing are cleared, or by an exception. -/
def Forgets (fatal : Bool) (slot : CmplSlot) : Prop :=
  slot.prompt = [] ∨ slot.isProcessing ∧ (fatal ∨ slot.isChild)

/-- If the step breaks a round off, then no slot that keeps its prompt has a token in the rest of
the batch. -/
def Unbroken (s : ServerLoop) (op : LoopOp) : Prop :=
  match s.phase, op with
  | _, .abort => ∀ t ∈ s.rest, Forgets false (s.slots t.idSlot)
  | .decoding off nBatch, .decode .notSpeculated =>
    ∀ t ∈ s.batch.drop (off + s.nTokens off nBatch), Forgets false (s.slots t.idSlot)
  | .decoding off _, .decode (.failed _) =>
    ∀ t ∈ s.batch.drop off, Forgets true (s.slots t.idSlot)
  | .decoding off nBatch, .decode .noSlot =>
    nBatch = 1 → ∀ t ∈ s.batch.drop off, Forgets true (s.slots t.idSlot)
  | _, _ => True

lemma release_of_forgets {slot : CmplSlot} (h : Forgets false slot) : slot.release.prompt = [] := by
  rcases h with hnil | ⟨hprocessing, hfatal | hchild⟩
  · rcases release_eq slot [] with h | h
    · rw [h.1, hnil]
    · exact h
  · exact absurd hfatal Bool.false_ne_true
  · rw [CmplSlot.release, if_pos hprocessing, if_pos hchild]

lemma fail_of_forgets {slot : CmplSlot} (h : Forgets true slot) : slot.fail.prompt = [] := by
  rcases h with hnil | ⟨hprocessing, -⟩
  · rcases fail_eq slot [] with h | h
    · rw [h.1, hnil]
    · exact h
  · rw [CmplSlot.fail, if_pos hprocessing]

lemma slotOk_release {slot : CmplSlot} {memory pending : List ℤ}
    (h : SlotOk slot memory pending) :
    SlotOk slot.release (slot.releaseMemory memory) pending := by
  refine .of_idle (state_release slot) ?_
  rcases release_eq slot memory with ⟨hprompt, hmemory⟩ | hnil
  · rw [hprompt, hmemory]
    exact h.held
  · rw [hnil]
    exact nil_prefix

/-- A slot after an exception: the memory of a slot that keeps its prompt holds it. -/
lemma slotOk_abort {slot : CmplSlot} {memory : List ℤ}
    (h : slot.prompt <+: memory ∨ Forgets false slot) :
    SlotOk slot.release (slot.releaseMemory memory) [] := by
  refine .of_idle (state_release slot) ?_
  rw [append_nil]
  rcases h with hheld | hforgets
  · rcases release_eq slot memory with ⟨hprompt, hmemory⟩ | hnil
    · rw [hprompt, hmemory]
      exact hheld
    · rw [hnil]
      exact nil_prefix
  · rw [release_of_forgets hforgets]
    exact nil_prefix

/-- A slot after a fatal error. -/
lemma slotOk_fail {slot : CmplSlot} {memory : List ℤ}
    (h : slot.prompt <+: memory ∨ Forgets true slot) :
    SlotOk slot.fail (slot.failMemory memory) [] := by
  refine .of_idle (state_fail slot) ?_
  rw [append_nil]
  rcases h with hheld | hforgets
  · rcases fail_eq slot memory with ⟨hprompt, hmemory⟩ | hnil
    · rw [hprompt, hmemory]
      exact hheld
    · rw [hnil]
      exact nil_prefix
  · rw [fail_of_forgets hforgets]
    exact nil_prefix

variable {p : LoopParams} {P : Prop} {s s' : ServerLoop} {op : LoopOp} {k : ℕ}

/-- A slot without tokens in the rest of the batch has its prompt in its memory. -/
lemma held_or {fatal : Bool} {l : List BatchToken} {memory : List ℤ}
    (h : SlotOk (s.slots k) memory (tokensOf k l))
    (hforgets : ∀ t ∈ l, Forgets fatal (s.slots t.idSlot)) :
    (s.slots k).prompt <+: memory ∨ Forgets fatal (s.slots k) := by
  by_cases hk : ∃ t ∈ l, t.idSlot = k
  · obtain ⟨t, ht, rfl⟩ := hk
    exact .inr (hforgets t ht)
  · refine .inl ?_
    have hnil : tokensOf k l = [] := tokensOf_eq_nil_iff.mpr fun t ht heq => hk ⟨t, ht, heq⟩
    have hheld := h.held
    rwa [hnil, append_nil] at hheld

/-! ## Moves -/

/-- Every slot stays as the invariant wants it, and no slot that waits is activated. -/
structure Moves (P : Prop) (s s' : ServerLoop) : Prop where
  ok : P → ∀ k, SlotOk (s.slots k) (s.memory k) (s.pending k) →
    SlotOk (s'.slots k) (s'.memory k) (s'.pending k)
  waits : ∀ k, (s.slots k).state = .waitOther → (s'.slots k).state ≠ .donePrompt
  task : ∀ k task, (s'.slots k).task = some task → (s.slots k).task = some task
  launched : s'.launched = s.launched

lemma not_donePrompt {state : SlotState} (h : state = .waitOther) : state ≠ .donePrompt := by
  rw [h]
  exact fun h => (by cases h)

/-- Nothing changes. -/
lemma Moves.congr (hslots : s'.slots = s.slots) (hmemory : s'.memory = s.memory)
    (hlaunched : s'.launched = s.launched) (hrest : s'.rest = s.rest) : Moves P s s' := by
  refine ⟨fun _ k h => ?_, fun k h => ?_, fun k task h => ?_, hlaunched⟩
  · rw [pending, hslots, hmemory, hrest]
    exact h
  · rw [hslots]
    exact not_donePrompt h
  · rwa [hslots] at h

/-- A slot, its memory and its tokens change, and no other slot. -/
lemma Moves.update {slot : CmplSlot} {tokens : List ℤ}
    (hslots : s'.slots = Function.update s.slots k slot)
    (hmemory : s'.memory = Function.update s.memory k tokens)
    (hlaunched : s'.launched = s.launched)
    (hpending : ∀ k', k' ≠ k → s'.pending k' = s.pending k')
    (htask : ∀ task, slot.task = some task → (s.slots k).task = some task)
    (hwaits : (s.slots k).state = .waitOther → slot.state ≠ .donePrompt)
    (hok : SlotOk (s.slots k) (s.memory k) (s.pending k) → SlotOk slot tokens (s'.pending k)) :
    Moves P s s' := by
  refine ⟨fun _ k' h => ?_, fun k' h => ?_, fun k' task h => ?_, hlaunched⟩
  · rcases eq_or_ne k' k with rfl | hne
    · rw [hslots, hmemory, update_self, update_self]
      exact hok h
    · rw [hslots, hmemory, update_of_ne hne, update_of_ne hne, hpending k' hne]
      exact h
  · rcases eq_or_ne k' k with rfl | hne
    · rw [hslots, update_self]
      exact hwaits h
    · rw [hslots, update_of_ne hne]
      exact not_donePrompt h
  · rcases eq_or_ne k' k with rfl | hne
    · rw [hslots, update_self] at h
      exact htask task h
    · rwa [hslots, update_of_ne hne] at h

/-- An idle slot gets another prompt. -/
lemma Moves.updateIdle {slot : CmplSlot} {tokens : List ℤ}
    (hslots : s'.slots = Function.update s.slots k slot)
    (hmemory : s'.memory = Function.update s.memory k tokens)
    (hlaunched : s'.launched = s.launched) (hrest : s'.rest = s.rest)
    (htask : ∀ task, slot.task = some task → (s.slots k).task = some task)
    (hidle : slot.state = .idle)
    (hok : SlotOk (s.slots k) (s.memory k) (s.pending k) →
      slot.prompt <+: tokens ++ s.pending k) : Moves P s s' := by
  refine .update hslots hmemory hlaunched (fun _ _ => ?_) htask ?_ fun h => .of_idle hidle ?_
  · rw [pending, hrest, pending]
  · rw [hidle]
    exact fun _ h => (by cases h)
  · rw [pending, hrest]
    exact hok h

lemma moves_release (k : ℕ) : Moves P s (s.release k) := by
  refine .update rfl rfl rfl (fun _ _ => rfl) (fun task => task_release) ?_ slotOk_release
  rw [state_release]
  exact fun _ h => (by cases h)

/-- The end of a round by an exception, behind some tokens that were decoded. -/
lemma moves_abort {l : List BatchToken} {s1 : ServerLoop} (hslots : s1.slots = s.slots)
    (hlaunched : s1.launched = s.launched)
    (hok : ∀ k, SlotOk (s.slots k) (s.memory k) (s.pending k) →
      SlotOk (s.slots k) (s1.memory k) (tokensOf k l)) :
    Moves (∀ t ∈ l, Forgets false (s.slots t.idSlot)) s s1.abortAllSlots := by
  refine ⟨fun hforgets k h => ?_, fun k _ => ?_, fun k task h => ?_, hlaunched⟩
  · show SlotOk (s1.slots k).release ((s1.slots k).releaseMemory (s1.memory k)) []
    rw [hslots]
    exact slotOk_abort (held_or (hok k h) hforgets)
  · show (s1.slots k).release.state ≠ _
    rw [state_release]
    exact fun h => (by cases h)
  · rw [← hslots]
    exact task_release h

/-- The end of a round by a fatal error, behind some tokens that were decoded. -/
lemma moves_fail {l : List BatchToken} {s1 : ServerLoop} (hslots : s1.slots = s.slots)
    (hlaunched : s1.launched = s.launched) (hpending : ∀ k, s.pending k = tokensOf k l)
    (hmemory : ∀ k, s.memory k <+: s1.memory k) :
    Moves (∀ t ∈ l, Forgets true (s.slots t.idSlot)) s s1.failAllSlots := by
  refine ⟨fun hforgets k h => ?_, fun k _ => ?_, fun k task h => ?_, hlaunched⟩
  · show SlotOk (s1.slots k).fail ((s1.slots k).failMemory (s1.memory k)) []
    rw [hslots]
    rw [hpending] at h
    exact slotOk_fail ((held_or h hforgets).imp_left fun hheld => hheld.trans (hmemory k))
  · show (s1.slots k).fail.state ≠ _
    rw [state_fail]
    exact fun h => (by cases h)
  · rw [← hslots]
    exact task_fail h

/-! ## Decoding -/

lemma drop_eq_view (s : ServerLoop) (off nBatch : ℕ) :
    s.batch.drop off = s.view off nBatch ++ s.batch.drop (off + s.nTokens off nBatch) := by
  rw [view, ← drop_drop, take_append_drop]

lemma rest_of_decoding {off nBatch : ℕ} (hphase : s.phase = .decoding off nBatch) :
    s.rest = s.batch.drop off := by
  rw [rest, hphase]

/-- The tokens of the sub-batch have gone from the rest of the batch to the memory. -/
lemma slotOk_processed {off nBatch : ℕ} (hphase : s.phase = .decoding off nBatch)
    (h : SlotOk (s.slots k) (s.memory k) (s.pending k)) :
    SlotOk (s.slots k) ((s.processed off nBatch).memory k)
      (tokensOf k (s.batch.drop (off + s.nTokens off nBatch))) := by
  have hpending : s.pending k = tokensOf k (s.view off nBatch) ++
      tokensOf k (s.batch.drop (off + s.nTokens off nBatch)) := by
    rw [← tokensOf_append, ← drop_eq_view, pending, rest_of_decoding hphase]
  rw [hpending] at h
  have heq : (s.processed off nBatch).memory k ++
      tokensOf k (s.batch.drop (off + s.nTokens off nBatch)) =
        s.memory k ++ (tokensOf k (s.view off nBatch) ++
          tokensOf k (s.batch.drop (off + s.nTokens off nBatch))) := append_assoc ..
  exact ⟨heq ▸ h.held, fun hactive => (h.exact hactive).trans heq.symm,
    fun hstate => (append_eq_nil_iff.mp (h.waiting hstate)).2, h.processing, h.done⟩

lemma moves_processed {off nBatch : ℕ} (hphase : s.phase = .decoding off nBatch) :
    Moves P s (s.processed off nBatch) where
  ok _ _ h := slotOk_processed hphase h
  waits _ h := not_donePrompt h
  task _ _ h := h
  launched := rfl

lemma state_of_not_isProcessing {slot : CmplSlot} (h : ¬ slot.isProcessing) :
    slot.state = .idle := of_not_not fun hne => h (isProcessing_iff.mpr hne)

lemma moves_tryClearIdleSlots (hclear : s.tryClearIdleSlots p = some s') :
    ∃ k, s' = s.promptClear k ∧ (s.slots k).state = .idle := by
  unfold ServerLoop.tryClearIdleSlots at hclear
  split_ifs at hclear
  obtain ⟨k, hfind, rfl⟩ := Option.map_eq_some_iff.mp hclear
  have hfound := find?_some hfind
  have hidle := (Bool.and_eq_true_iff.mp hfound).1
  refine ⟨k, rfl, state_of_not_isProcessing fun hprocessing => ?_⟩
  rw [hprocessing] at hidle
  cases hidle

lemma moves_retry {off nBatch : ℕ} (hphase : s.phase = .decoding off nBatch) :
    Moves P s (s.retry p off nBatch) := by
  have hrest := rest_of_decoding hphase
  unfold ServerLoop.retry
  cases hclear : s.tryClearIdleSlots p with
  | none => exact .congr rfl rfl rfl hrest.symm
  | some s' =>
    obtain ⟨k, rfl, hidle⟩ := moves_tryClearIdleSlots hclear
    exact .updateIdle rfl rfl rfl hrest.symm (fun _ h => h) hidle fun _ => nil_prefix

/-! ## The batch -/

lemma rest_of_building (hphase : s.phase = .building) : s.rest = s.batch := by rw [rest, hphase]

/-- Tokens of a slot are added to the batch. -/
lemma pending_add {tokens : List ℤ} (hphase : s.phase = .building)
    (hrest : s'.rest = s.batch ++ tokens.map (BatchToken.mk k)) :
    s'.pending k = s.pending k ++ tokens ∧ ∀ k', k' ≠ k → s'.pending k' = s.pending k' := by
  refine ⟨?_, fun k' hne => ?_⟩
  · rw [pending, hrest, tokensOf_append, tokensOf_map_self, pending, rest_of_building hphase]
  · rw [pending, hrest, tokensOf_append, tokensOf_map_of_ne hne, append_nil, pending,
      rest_of_building hphase]

lemma rest_of_batch {batch : List BatchToken} (hphase : s'.phase = s.phase)
    (hbuilding : s.phase = .building) (hbatch : s'.batch = batch) : s'.rest = batch := by
  rw [rest_of_building (hphase.trans hbuilding), hbatch]

lemma moves_sampled {tokens : List ℤ} (hphase : s.phase = .building)
    (hstate : (s.slots k).state = .generating) :
    Moves P s (s.handleLastSampledToken k tokens) := by
  have hrest : (s.handleLastSampledToken k tokens).rest =
      s.batch ++ tokens.map (BatchToken.mk k) := rest_of_batch rfl hphase rfl
  obtain ⟨hself, hother⟩ := pending_add hphase hrest
  refine .update rfl (update_eq_self ..).symm rfl hother (fun _ h => h) ?_ fun h => ?_
  · exact fun hwaits => absurd (hstate.symm.trans hwaits) (by decide)
  · refine slotOk_generating hstate ?_
    rw [hself]
    show (s.slots k).prompt ++ tokens = s.memory k ++ (s.pending k ++ tokens)
    rw [← append_assoc, ← h.exact (.inr (.inr hstate))]

/-- What is next in a prompt. -/
lemma next_isPrefix {prompt tokens : List ℤ} (h : prompt <+: tokens) (m n : ℕ) :
    prompt ++ (tokens.drop prompt.length).take m ++
      (((tokens.drop prompt.length).drop m).take n) <+: tokens := by
  obtain ⟨rest, rfl⟩ := h
  rw [drop_left, append_assoc, prefix_append_right_inj]
  refine ⟨(rest.drop m).drop n, ?_⟩
  rw [append_assoc, take_append_drop, take_append_drop]

lemma moves_fill {task : CmplTask} {m n : ℕ} (hphase : s.phase = .building)
    (htask : (s.slots k).task = some task) (hstate : (s.slots k).state = .processingPrompt)
    (hfree : ∀ t ∈ s.batch, t.idSlot ≠ k) :
    Moves P s (s.fill k task ((task.tokens.drop (s.slots k).prompt.length).take m)
      (((task.tokens.drop (s.slots k).prompt.length).drop m).take n)) := by
  have hrest : (s.fill k task ((task.tokens.drop (s.slots k).prompt.length).take m)
      (((task.tokens.drop (s.slots k).prompt.length).drop m).take n)).rest =
        s.batch ++ (((task.tokens.drop (s.slots k).prompt.length).drop m).take n).map
          (BatchToken.mk k) := rest_of_batch rfl hphase rfl
  obtain ⟨hself, hother⟩ := pending_add hphase hrest
  have hnil : s.pending k = [] := by
    rw [pending, rest_of_building hphase]
    exact tokensOf_eq_nil_iff.mpr hfree
  refine .update rfl rfl rfl hother (fun _ h => h) ?_ fun h => ?_
  · exact fun hwaits => absurd (hstate.symm.trans hwaits) (by decide)
  · have hexact := h.exact (.inl hstate)
    rw [hnil, append_nil] at hexact
    obtain ⟨task', htask', htokens⟩ := h.processing hstate
    obtain rfl : task' = task := Option.some.inj (htask'.symm.trans htask)
    have hnext := next_isPrefix htokens m n
    have hmemory : (s.memory k).take (s.slots k).prompt.length = (s.slots k).prompt := by
      rw [hexact, take_length]
    rw [hself, hnil, hmemory]
    by_cases hdone : ((s.slots k).prompt ++ (task'.tokens.drop (s.slots k).prompt.length).take m ++
        (((task'.tokens.drop (s.slots k).prompt.length).drop m).take n)).length =
          task'.tokens.length
    · simp only [if_pos hdone]
      refine ⟨prefix_rfl, fun _ => rfl, ?_, fun h => (by cases h), fun _ => ?_⟩
      · rintro (h | h) <;> cases h
      · exact ⟨task', htask, hnext.eq_of_length hdone⟩
    · simp only [if_neg hdone]
      refine ⟨prefix_rfl, fun _ => rfl, ?_, fun _ => ⟨task', htask, hnext⟩, fun h => (by cases h)⟩
      rintro (h | h) <;> cases h

lemma moves_start {kept : List ℕ} {task : CmplTask} (htask : (s.slots k).task = some task)
    (hstate : (s.slots k).state = .started) (hkept : ∀ i ∈ kept, i < (s.slots k).prompt.length)
    (hcommon : pick kept (s.slots k).prompt = task.tokens.take kept.length) :
    Moves P s ((s.setMemory k (pick kept (s.memory k))).setSlot k
      { s.slots k with prompt := pick kept (s.slots k).prompt, state := .processingPrompt }) := by
  refine .update rfl rfl rfl (fun _ _ => rfl) (fun _ h => h) (fun _ h => by cases h) fun h => ?_
  show SlotOk _ _ (s.pending k)
  have hnil := h.waiting (.inr hstate)
  have hheld := h.held
  rw [hnil, append_nil] at hheld
  rw [hnil, pick_eq_of_isPrefix hheld hkept]
  refine ⟨prefix_append _ _, fun _ => (append_nil _).symm, fun _ => rfl,
    fun _ => ⟨task, htask, ?_⟩, fun h => (by cases h)⟩
  rw [hcommon]
  exact take_prefix _ _

/-- The memory of a slot that generates is cut like its prompt. -/
lemma moves_cut {cut : List ℤ → List ℤ} (hstate : (s.slots k).state = .generating)
    (hnil : s.pending k = []) :
    Moves P s ((s.setMemory k (cut (s.memory k))).setSlot k
      { s.slots k with prompt := cut (s.slots k).prompt }) := by
  refine .update rfl rfl rfl (fun _ _ => rfl) (fun _ h => h) ?_ fun h => ?_
  · exact fun hwaits => absurd (hstate.symm.trans hwaits) (by decide)
  · refine slotOk_generating hstate ?_
    have hexact := h.exact (.inr (.inr hstate))
    rw [hnil, append_nil] at hexact
    show _ = _ ++ s.pending k
    rw [hnil, append_nil, hexact]

/-- A step between two rounds. -/
lemma moves_between (hphase : s.phase = .between) (hs : s.step p op = some s')
    (hop : ∀ k task children, op ≠ .launch k task children) : Moves P s s' := by
  unfold step at hs
  rw [hphase] at hs
  cases op with
  | exchange k tokens =>
    dsimp only at hs
    split_ifs at hs with hbusy
    cases hs
    exact .updateIdle rfl rfl rfl rfl (fun _ h => h) (state_of_not_isProcessing hbusy)
      fun _ => prefix_append _ _
  | clear k =>
    dsimp only at hs
    split_ifs at hs with hbusy
    cases hs
    exact .updateIdle rfl (update_eq_self ..).symm rfl rfl (fun _ h => h)
      (state_of_not_isProcessing hbusy) fun _ => nil_prefix
  | launch k task children => exact absurd rfl (hop k task children)
  | cancel k =>
    cases hs
    exact moves_release k
  | shift k kept =>
    dsimp only at hs
    split_ifs at hs with hguard
    cases hs
    refine moves_cut hguard.1 ?_
    rw [pending, rest, hphase, tokensOf_nil]
  | begin =>
    cases hs
    refine .congr rfl rfl rfl ?_
    rw [rest, rest, hphase]
  | sampled | start | fill | release | render | decode | accept | rollback | next | abort => cases hs

/-- A step that builds the batch. -/
lemma moves_building (hphase : s.phase = .building) (hs : s.step p op = some s') :
    Moves (s.Unbroken op) s s' := by
  have hrest := rest_of_building hphase
  unfold step at hs
  rw [hphase] at hs
  cases op with
  | sampled k tokens =>
    dsimp only at hs
    split_ifs at hs with hstate
    cases hs
    exact moves_sampled hphase hstate
  | start k kept =>
    dsimp only at hs
    cases htask : (s.slots k).task with
    | none =>
      rw [htask] at hs
      cases hs
    | some task =>
      rw [htask] at hs
      dsimp only at hs
      split_ifs at hs with hguard
      cases hs
      rw [← htask]
      exact moves_start htask hguard.1 hguard.2.1 hguard.2.2.1
  | fill k nMedia nText =>
    dsimp only at hs
    cases htask : (s.slots k).task with
    | none =>
      rw [htask] at hs
      cases hs
    | some task =>
      rw [htask] at hs
      dsimp only at hs
      split_ifs at hs with hguard
      cases hs
      exact moves_fill hphase htask hguard.1 hguard.2.1
  | release k =>
    cases hs
    exact moves_release k
  | render =>
    cases hs
    refine .congr rfl rfl rfl ?_
    rw [hrest]
    split_ifs with hempty
    · exact hempty.symm
    · rfl
  | abort =>
    cases hs
    exact moves_abort rfl rfl fun _ h => h
  | exchange | clear | launch | cancel | shift | begin | decode | accept | rollback | next => cases hs

/-- A sub-batch that is not decoded, or behind which the round is broken off. -/
lemma moves_decode {off nBatch : ℕ} {outcome : DecodeOutcome}
    (hphase : s.phase = .decoding off nBatch) (hout : outcome ≠ .ok) :
    Moves (s.Unbroken (.decode outcome)) s (s.decode p off nBatch outcome) := by
  have hpending : ∀ k, s.pending k = tokensOf k (s.batch.drop off) := fun k => by
    rw [pending, rest_of_decoding hphase]
  unfold Unbroken
  rw [hphase]
  cases outcome with
  | ok => exact absurd rfl hout
  | notSpeculated => exact moves_abort rfl rfl fun k h => slotOk_processed hphase h
  | noSlot =>
    unfold ServerLoop.decode
    split_ifs with hone
    · have hmoves : Moves (∀ t ∈ s.batch.drop off, Forgets true (s.slots t.idSlot)) s
          s.failAllSlots := moves_fail rfl rfl hpending fun _ => prefix_rfl
      exact ⟨fun hforgets => hmoves.ok (hforgets hone), hmoves.waits, hmoves.task, hmoves.launched⟩
    · exact moves_retry hphase
  | failed n => exact moves_fail rfl rfl hpending fun _ => prefix_append _ _

/-- A step behind a sub-batch. -/
lemma moves_decoded {off n : ℕ} (hphase : s.phase = .decoded off n)
    (hs : s.step p op = some s') : Moves (s.Unbroken op) s s' := by
  have hrest : s.rest = s.batch.drop (off + n) := by rw [rest, hphase]
  unfold step at hs
  rw [hphase] at hs
  cases op with
  | accept k =>
    dsimp only at hs
    split_ifs at hs with hguard
    cases hs
    refine .update rfl (update_eq_self ..).symm rfl (fun _ _ => rfl) (fun _ h => h)
      (fun _ h => by cases h) fun h => slotOk_generating rfl ?_
    exact h.exact (hguard.2.elim (fun h => .inr (.inl h)) fun h => .inr (.inr h))
  | rollback k m =>
    dsimp only at hs
    split_ifs at hs with hguard
    cases hs
    refine moves_cut hguard.1 ?_
    rw [pending, hrest]
    exact tokensOf_eq_nil_iff.mpr hguard.2
  | release k =>
    cases hs
    exact moves_release k
  | next =>
    cases hs
    refine .congr rfl rfl rfl ?_
    rw [hrest]
    split_ifs with hmore
    · rfl
    · exact (drop_eq_nil_of_le (Nat.le_of_not_lt hmore)).symm
  | abort =>
    cases hs
    exact moves_abort rfl rfl fun _ h => h
  | exchange | clear | launch | cancel | shift | begin | sampled | start | fill | render | decode =>
    cases hs

/-- **A step** moves the slots, launches a task, or decodes a sub-batch. -/
theorem moves_of_step (hs : s.step p op = some s') :
    (op ≠ .decode .ok ∧ Moves (s.Unbroken op) s s') ∨
      (s.phase = .between ∧ ∃ k task children, op = .launch k task children) ∨
      ∃ off nBatch, s.phase = .decoding off nBatch ∧ op = .decode .ok ∧
        s' = s.decode p off nBatch .ok := by
  have hdecode : (∀ off nBatch, s.phase ≠ .decoding off nBatch) → op ≠ .decode .ok := by
    rintro hphase rfl
    unfold ServerLoop.step at hs
    cases hp : s.phase with
    | between | building | decoded =>
      rw [hp] at hs
      cases hs
    | decoding off nBatch => exact hphase off nBatch hp
  cases hphase : s.phase with
  | between =>
    by_cases hop : ∀ k task children, op ≠ .launch k task children
    · exact .inl ⟨hdecode (by rw [hphase]; simp), moves_between hphase hs hop⟩
    · push Not at hop
      exact .inr (.inl ⟨rfl, hop⟩)
  | building => exact .inl ⟨hdecode (by rw [hphase]; simp), moves_building hphase hs⟩
  | decoded off n => exact .inl ⟨hdecode (by rw [hphase]; simp), moves_decoded hphase hs⟩
  | decoding off nBatch =>
    unfold ServerLoop.step at hs
    rw [hphase] at hs
    cases op with
    | decode outcome =>
      dsimp only at hs
      split_ifs at hs
      cases hs
      by_cases hout : outcome = .ok
      · subst hout
        exact .inr (.inr ⟨off, nBatch, rfl, rfl, rfl⟩)
      · exact .inl ⟨fun heq => hout (LoopOp.decode.inj heq), moves_decode hphase hout⟩
    | exchange | clear | launch | cancel | shift | begin | sampled | start | fill | release | render
    | accept | rollback | next | abort => cases hs

end ServerLoop

end Llama
