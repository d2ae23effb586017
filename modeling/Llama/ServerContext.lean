import Llama.PromptCache
import Llama.ServerQueue

/-!
# Choosing a slot

A task for a completion, an infill, an embedding or a reranking is given to a slot, or is
deferred.  `get_available_slot` chooses the slot: the one that was asked for, the idle slot with
the most similar prompt, or the idle slot that was used least recently.  It may then save the
prompt of the slot in the prompt cache and load a better one; only after that its caller looks at
whether the slot is processing and at whether there are slots for the child tasks.

A slot has the memory of its sequence in the target context and, if there is one, in the draft
context.
-/

namespace Llama

inductive SlotState
  | idle
  | waitOther
  | started
  | processingPrompt
  | donePrompt
  | generating
  deriving DecidableEq, Repr

structure ServerSlot (M : Type) where
  id : ℤ
  state : SlotState
  prompt : ServerPrompt
  tgt : M
  dft : Option M
  tLastUsed : ℤ

/-- `server_task`, of a type that is given to slots. -/
structure ServerTask where
  type : ServerTaskType
  idSlot : ℤ
  tokens : ServerTokens
  nChildTasks : ℕ

def ServerTask.isParent (task : ServerTask) : Bool := 0 < task.nChildTasks

/-- `server_context_impl`. -/
structure ServerContext (F M : Type) where
  slots : List (ServerSlot M)
  promptCache : Option PromptCache
  slotPromptSimilarity : F

/-- What may go wrong in an update of the prompt cache. -/
structure CacheFaults where
  badAlloc : Bool
  failTgt : Bool
  failDft : Bool
  deriving DecidableEq, Repr

namespace ServerSlot

variable {F M : Type}

def isProcessing (slot : ServerSlot M) : Bool := slot.state ≠ .idle

/-- `prompt_clear`, where `noMem` is the memory of a sequence that was removed. -/
def promptClear (noMem : M) (slot : ServerSlot M) : ServerSlot M :=
  { slot with prompt := slot.prompt.clear, tgt := noMem, dft := slot.dft.map fun _ => noMem }

/-- `prompt_load`, followed by `prompt_clear` if it failed. -/
def promptLoad (fl : Floats F) (io : StateIO M) (noMem : M) (faults : CacheFaults)
    (slot : ServerSlot M) (cache : PromptCache) (tokens : ServerTokens) :
    Option (ServerSlot M × PromptCache) :=
  (cache.load fl io slot.prompt tokens slot.tgt slot.dft faults.failTgt faults.failDft).map
    fun r =>
      let slot := { slot with prompt := r.prompt, tgt := r.tgt, dft := r.dft }
      (if r.ok then slot else slot.promptClear noMem, r.cache)

/-- The update of the prompt cache for a slot. -/
def exchange (fl : Floats F) (io : StateIO M) (noMem : M) (faults : CacheFaults)
    (slot : ServerSlot M) (cache : PromptCache) (tokens : ServerTokens) :
    Option (ServerSlot M × PromptCache) :=
  let cache := (cache.save fl io slot.prompt slot.tgt slot.dft faults.badAlloc).1
  (slot.promptLoad fl io noMem faults cache tokens).map fun r => (r.1, r.2.update fl)

end ServerSlot

namespace ServerContext

variable {F M : Type}

/-! ## The choice -/

/-- `get_slot_by_id`.  The id is reduced as an unsigned number. -/
def getSlotById (ctx : ServerContext F M) (idSlot : ℤ) : Option ℕ :=
  let id := idSlot % 2 ^ 64 % ctx.slots.length
  ctx.slots.findIdx? fun slot => slot.id = id

/-- One round of the search for a similar prompt.  The similarity of the best slot so far, and
the slot that was chosen so far. -/
def considerSlot (fl : Floats F) (thold : F) (task : ServerTask) (best : F × Option ℕ) (i : ℕ)
    (slot : ServerSlot M) : F × Option ℕ :=
  if task.idSlot ≠ -1 ∧ slot.id ≠ task.idSlot then best
  else if slot.isProcessing then best
  else if slot.prompt.tokens.length = 0 then best
  else
    let sim := fl.div (fl.ofSize (slot.prompt.tokens.commonPrefix task.tokens))
      (fl.ofSize task.tokens.length)
    if fl.lt best.1 sim && fl.lt thold sim then (sim, some i) else best

/-- The search for a similar prompt, from the slot `i` on. -/
def mostSimilar (fl : Floats F) (thold : F) (task : ServerTask) :
    F × Option ℕ → ℕ → List (ServerSlot M) → F × Option ℕ
  | best, _, [] => best
  | best, i, slot :: slots =>
    mostSimilar fl thold task (considerSlot fl thold task best i slot) (i + 1) slots

/-- The search for the slot that was used least recently, from the slot `i` on. -/
def leastRecent : Option (ℤ × ℕ) → ℕ → List (ServerSlot M) → Option (ℤ × ℕ)
  | best, _, [] => best
  | best, i, slot :: slots =>
    let earlier := match best with
      | none => true
      | some (t, _) => decide (slot.tLastUsed ≤ t)
    leastRecent (if !slot.isProcessing && earlier then some (slot.tLastUsed, i) else best) (i + 1)
      slots

/-- The slot by id or by similarity, and whether much of its prompt is about to be lost. -/
def chooseKnown (fl : Floats F) (ctx : ServerContext F M) (task : ServerTask) : Option ℕ × Bool :=
  let byId := if task.idSlot ≠ -1 then ctx.getSlotById task.idSlot else none
  if fl.ne ctx.slotPromptSimilarity (fl.lit 0) then
    let best := mostSimilar fl ctx.slotPromptSimilarity task (fl.lit 0, byId) 0 ctx.slots
    match best.2.bind fun i => ctx.slots[i]? with
    | none => (best.2, false)
    | some slot =>
      let keep := fl.div (fl.mul best.1 (fl.ofSize task.tokens.length))
        (fl.ofSize slot.prompt.tokens.length)
      (best.2, fl.lt keep (fl.lit (1 / 2)))
  else (byId, false)

/-- The slot that is chosen, and whether the prompt cache is to be updated. -/
def choose (fl : Floats F) (ctx : ServerContext F M) (task : ServerTask) : Option (ℕ × Bool) :=
  match ctx.chooseKnown fl task with
  | (some i, updateCache) => some (i, updateCache)
  | (none, _) => (leastRecent none 0 ctx.slots).map fun best => (best.2, true)

/-- The prompt cache, if it is updated for the task. -/
def cacheFor (ctx : ServerContext F M) (task : ServerTask) (updateCache : Bool) :
    Option PromptCache :=
  if updateCache && task.type = .completion then ctx.promptCache else none

def getAvailableSlot (fl : Floats F) (io : StateIO M) (noMem : M) (faults : CacheFaults)
    (ctx : ServerContext F M) (task : ServerTask) : Option (ServerContext F M × Option ℕ) :=
  match ctx.choose fl task with
  | none => some (ctx, none)
  | some (i, updateCache) =>
    match ctx.cacheFor task updateCache, ctx.slots[i]? with
    | some cache, some slot =>
      (slot.exchange fl io noMem faults cache task.tokens).map fun r =>
        ({ ctx with slots := ctx.slots.set i r.1, promptCache := some r.2 }, some i)
    | _, _ => some (ctx, some i)

/-- The loop of `get_free_slots`, from the slot `i` on. -/
def freeSlots (nSlotsNeeded : ℕ) (excludeIdSlot : ℤ) : List ℕ → ℕ → List (ServerSlot M) → List ℕ
  | free, _, [] => free
  | free, i, slot :: slots =>
    let free := if !slot.isProcessing && slot.id ≠ excludeIdSlot then free ++ [i] else free
    if nSlotsNeeded ≤ free.length then free
    else freeSlots nSlotsNeeded excludeIdSlot free (i + 1) slots

def getFreeSlots (ctx : ServerContext F M) (nSlotsNeeded : ℕ) (excludeIdSlot : ℤ) : List ℕ :=
  freeSlots nSlotsNeeded excludeIdSlot [] 0 ctx.slots

/-- What is done with a task. -/
inductive Scheduled
  | deferred
  | launch (slot : ℕ) (childSlots : List ℕ)
  deriving DecidableEq, Repr

/-- What is done with a task once a slot was chosen. -/
def schedule (ctx : ServerContext F M) (task : ServerTask) (chosen : Option ℕ) : Scheduled :=
  match chosen.bind fun i => ctx.slots[i]?.map fun slot => (i, slot) with
  | none => .deferred
  | some (i, slot) =>
    if slot.isProcessing then .deferred
    else if task.isParent then
      let childSlots := ctx.getFreeSlots task.nChildTasks slot.id
      if childSlots.length < task.nChildTasks then .deferred else .launch i childSlots
    else .launch i []

/-- The slot scheduling of `process_single_task`, up to where the slots are launched. -/
def processTask (fl : Floats F) (io : StateIO M) (noMem : M) (faults : CacheFaults)
    (ctx : ServerContext F M) (task : ServerTask) : Option (ServerContext F M × Scheduled) :=
  (ctx.getAvailableSlot fl io noMem faults task).map fun r => (r.1, r.1.schedule task r.2)

end ServerContext

end Llama
