import Llama.ServerContext

/-!
# The loop over the slots

A task for several completions is a parent with child tasks, each in a slot of its own.  The
children wait while the prompt of the parent is processed, and are then given its memory.  A round
of `update_slots` puts tokens of the slots in a batch, and decodes the batch in sub-batches: one if
all goes well, several if the memory has no room and the sub-batch is halved.

The prompt of a slot is what the server believes its memory to hold.  It is extended when a token
is put in the batch, not when the token is decoded.

A memory is the list of the tokens of a sequence, by position; the tokens of a media chunk are
`LLAMA_TOKEN_NULL`.  Left open are which tokens are sampled and drafted, which part of an old prompt
is used again, and how many tokens a round takes from a prompt.
-/

namespace Llama

/-- `server_task`: the parts that the loop reads. -/
structure CmplTask where
  id : ℤ
  idParent : Option ℤ
  tokens : List ℤ
  nChildTasks : ℕ
  deriving DecidableEq, Repr

def CmplTask.isParent (task : CmplTask) : Bool := 0 < task.nChildTasks

def CmplTask.isChild (task : CmplTask) : Bool := task.idParent.isSome

/-- `add_child`. -/
def CmplTask.child (task : CmplTask) (id : ℤ) : CmplTask := ⟨id, some task.id, task.tokens, 0⟩

/-- `server_slot`: the parts that the loop reads. -/
structure CmplSlot where
  state : SlotState
  task : Option CmplTask
  prompt : List ℤ
  iBatch : ℤ
  deriving DecidableEq, Repr

namespace CmplSlot

/-- A slot before its first task. -/
def new : CmplSlot := ⟨.idle, none, [], -1⟩

def isProcessing (slot : CmplSlot) : Bool := slot.state ≠ .idle

/-- The task of the slot has child tasks. -/
def isParent (slot : CmplSlot) : Bool := slot.task.any CmplTask.isParent

/-- The task of the slot is a child task. -/
def isChild (slot : CmplSlot) : Bool := slot.task.any CmplTask.isChild

/-- The slot waits for the parent. -/
def waitsFor (slot parent : CmplSlot) : Bool :=
  slot.state = .waitOther &&
    parent.task.any fun task => slot.task.bind CmplTask.idParent = some task.id

/-- `server_slot::release`.  The context of a child slot is not kept. -/
def release (slot : CmplSlot) : CmplSlot :=
  if slot.isProcessing then
    { slot with
      state := .idle
      task := none
      prompt := if slot.isChild then [] else slot.prompt }
  else slot

/-- What `release` does to the memory of the slot. -/
def releaseMemory (slot : CmplSlot) (memory : List ℤ) : List ℤ :=
  if slot.isProcessing && slot.isChild then [] else memory

/-- `release`, followed by `prompt_clear`, of a slot that is processing. -/
def fail (slot : CmplSlot) : CmplSlot :=
  if slot.isProcessing then { slot.release with prompt := [] } else slot

/-- What `fail` does to the memory of the slot. -/
def failMemory (slot : CmplSlot) (memory : List ℤ) : List ℤ :=
  if slot.isProcessing then [] else memory

/-- A slot that was given a task. -/
def launch (slot : CmplSlot) (task : CmplTask) : CmplSlot :=
  { slot with state := if task.isChild then .waitOther else .started, task := some task }

/-- A child slot to which the state of the parent was copied. -/
def activated (slot parent : CmplSlot) : CmplSlot :=
  { slot with iBatch := parent.iBatch, prompt := parent.prompt, state := .donePrompt }

end CmplSlot

/-- `server_batch::token`. -/
structure BatchToken where
  idSlot : ℕ
  token : ℤ
  deriving DecidableEq, Repr

/-- Where the loop is: between two rounds, building the batch, before a sub-batch, or behind one
that was decoded. -/
inductive LoopPhase
  | between
  | building
  | decoding (off nBatch : ℕ)
  | decoded (off nTokens : ℕ)
  deriving DecidableEq, Repr

/-- The slots, the memories of their sequences and the batch.  Recorded are the ids of the tasks
that were launched. -/
structure ServerLoop where
  slots : ℕ → CmplSlot
  memory : ℕ → List ℤ
  batch : List BatchToken
  phase : LoopPhase
  launched : List ℤ

/-- What the loop is started with: the number of slots, `llama_n_batch`, and `kv_unified`. -/
structure LoopParams where
  nSlots : ℕ
  nBatch : ℕ
  kvUnified : Bool
  deriving DecidableEq, Repr

/-- What `llama_decode`, and after it `common_speculative_process`, may do with a sub-batch.  The
first tokens of a sub-batch that fails may remain. -/
inductive DecodeOutcome
  | ok
  | notSpeculated
  | noSlot
  | failed (processed : ℕ)
  deriving DecidableEq, Repr

/-- What may happen. -/
inductive LoopOp
  | exchange (k : ℕ) (tokens : List ℤ)
  | clear (k : ℕ)
  | launch (k : ℕ) (task : CmplTask) (children : List (ℕ × ℤ))
  | cancel (k : ℕ)
  | shift (k : ℕ) (kept : List ℕ)
  | begin
  | sampled (k : ℕ) (tokens : List ℤ)
  | start (k : ℕ) (kept : List ℕ)
  | fill (k nMedia nText : ℕ)
  | release (k : ℕ)
  | render
  | decode (outcome : DecodeOutcome)
  | accept (k : ℕ)
  | rollback (k n : ℕ)
  | next
  | abort
  deriving DecidableEq, Repr

/-- The elements at some places. -/
def pick {α : Type} (places : List ℕ) (l : List α) : List α := places.filterMap fun i => l[i]?

/-- The tokens of a slot. -/
def tokensOf (k : ℕ) (l : List BatchToken) : List ℤ :=
  (l.filter fun t => t.idSlot = k).map BatchToken.token

namespace ServerLoop

/-- Nothing was launched. -/
def init : ServerLoop := ⟨fun _ => .new, fun _ => [], [], .between, []⟩

/-- A slot changes. -/
def setSlot (s : ServerLoop) (k : ℕ) (slot : CmplSlot) : ServerLoop :=
  { s with slots := Function.update s.slots k slot }

/-- The memory of a sequence changes. -/
def setMemory (s : ServerLoop) (k : ℕ) (tokens : List ℤ) : ServerLoop :=
  { s with memory := Function.update s.memory k tokens }

def promptClear (s : ServerLoop) (k : ℕ) : ServerLoop :=
  (s.setMemory k []).setSlot k { s.slots k with prompt := [] }

/-- A slot is released. -/
def release (s : ServerLoop) (k : ℕ) : ServerLoop :=
  (s.setMemory k ((s.slots k).releaseMemory (s.memory k))).setSlot k (s.slots k).release

/-- `abort_all_slots`, after which the round is over. -/
def abortAllSlots (s : ServerLoop) : ServerLoop :=
  { s with
    slots := fun k => (s.slots k).release
    memory := fun k => (s.slots k).releaseMemory (s.memory k)
    phase := .between }

/-- The end of a round after a fatal error: every slot that is processing is released, and its
context is cleared. -/
def failAllSlots (s : ServerLoop) : ServerLoop :=
  { s with
    slots := fun k => (s.slots k).fail
    memory := fun k => (s.slots k).failMemory (s.memory k)
    phase := .between }

/-- `try_clear_idle_slots`: the first idle slot with a prompt is cleared. -/
def tryClearIdleSlots (p : LoopParams) (s : ServerLoop) : Option ServerLoop :=
  if p.kvUnified then
    ((List.range p.nSlots).find? fun k =>
      !(s.slots k).isProcessing && 0 < (s.slots k).prompt.length).map s.promptClear
  else none

/-- `copy_state_to`, and the new state of the child. -/
def copyStateTo (s : ServerLoop) (i j : ℕ) : ServerLoop :=
  (s.setMemory j (s.memory i)).setSlot j ((s.slots j).activated (s.slots i))

/-- The children of a parent that are to be activated. -/
def children (p : LoopParams) (s : ServerLoop) (i : ℕ) : List ℕ :=
  (List.range p.nSlots).filter fun j => (s.slots j).waitsFor (s.slots i)

/-- The round for a slot of the loop that activates the children. -/
def activateChildren (p : LoopParams) (s : ServerLoop) (i : ℕ) : ServerLoop :=
  if (s.slots i).state = .donePrompt ∧ (s.slots i).isParent then
    (s.children p i).foldl (fun s j => s.copyStateTo i j) s
  else s

/-- When the main prompt is processed, activate all child tasks too. -/
def activate (p : LoopParams) (s : ServerLoop) : ServerLoop :=
  (List.range p.nSlots).foldl (activateChildren p) s

/-! ## Decoding -/

/-- The tokens of the view are in the memories of their sequences. -/
def process (s : ServerLoop) (view : List BatchToken) : ServerLoop :=
  { s with memory := fun k => s.memory k ++ tokensOf k view }

/-- A sub-batch for which there was no room is tried again: as it is if an idle slot could be
cleared, and halved otherwise. -/
def retry (p : LoopParams) (s : ServerLoop) (off nBatch : ℕ) : ServerLoop :=
  match s.tryClearIdleSlots p with
  | some s => { s with phase := .decoding off nBatch }
  | none => { s with phase := .decoding off (nBatch / 2) }

/-- The number of tokens of a sub-batch. -/
def nTokens (s : ServerLoop) (off nBatch : ℕ) : ℕ := min nBatch (s.batch.length - off)

/-- `get_view`. -/
def view (s : ServerLoop) (off nBatch : ℕ) : List BatchToken :=
  (s.batch.drop off).take (s.nTokens off nBatch)

/-- The state behind a sub-batch that was decoded. -/
def processed (s : ServerLoop) (off nBatch : ℕ) : ServerLoop :=
  { s.process (s.view off nBatch) with phase := .decoded off (s.nTokens off nBatch) }

def decode (p : LoopParams) (s : ServerLoop) (off nBatch : ℕ) : DecodeOutcome → ServerLoop
  | .ok => (s.processed off nBatch).activate p
  | .notSpeculated => (s.processed off nBatch).abortAllSlots
  | .noSlot => if nBatch = 1 then s.failAllSlots else s.retry p off nBatch
  | .failed processed => (s.process ((s.view off nBatch).take processed)).failAllSlots

/-! ## A step -/

/-- `launch_slot_with_task`. -/
def launchSlot (s : ServerLoop) (k : ℕ) (task : CmplTask) : ServerLoop :=
  { s.setSlot k ((s.slots k).launch task) with launched := task.id :: s.launched }

/-- The slots of the child tasks are launched. -/
def launchChildren (s : ServerLoop) (task : CmplTask) (children : List (ℕ × ℤ)) : ServerLoop :=
  children.foldl (fun s c => s.launchSlot c.1 (task.child c.2)) s

/-- `launch_slots_with_parent_task`, or `launch_slot_with_task` if there are no children. -/
def launch (s : ServerLoop) (k : ℕ) (task : CmplTask) (children : List (ℕ × ℤ)) : ServerLoop :=
  (s.launchChildren task children).launchSlot k task

/-- `handle_last_sampled_token`: the sampled token, and the tokens of a draft. -/
def handleLastSampledToken (s : ServerLoop) (k : ℕ) (tokens : List ℤ) : ServerLoop :=
  { s.setSlot k { s.slots k with
      prompt := (s.slots k).prompt ++ tokens
      iBatch := s.batch.length } with
    batch := s.batch ++ tokens.map (BatchToken.mk k) }

/-- The slot gets the tokens that are next in its prompt: media tokens, which are processed at
once, and text tokens, which are put in the batch. -/
def fill (s : ServerLoop) (k : ℕ) (task : CmplTask) (media text : List ℤ) : ServerLoop :=
  let slot := s.slots k
  let prompt := slot.prompt ++ media ++ text
  let batch := s.batch ++ text.map (BatchToken.mk k)
  let done := prompt.length = task.tokens.length
  { s with
    -- the tokens beyond the prompt are truncated
    memory := Function.update s.memory k ((s.memory k).take slot.prompt.length ++ media)
    batch := batch
    slots := Function.update s.slots k { slot with
      prompt := prompt
      state := if done then .donePrompt else .processingPrompt
      iBatch := if done then (batch.length : ℤ) - 1 else slot.iBatch } }

/-- The index is inside the sub-batch. -/
def insideView (off nTokens : ℕ) (idx : ℤ) : Bool := (off : ℤ) ≤ idx ∧ idx < off + nTokens

/-- A step.  There is none where the code does not allow it. -/
def step (p : LoopParams) (s : ServerLoop) (op : LoopOp) : Option ServerLoop :=
  match s.phase, op with
  -- a prompt is loaded from the prompt cache, restored or erased
  | .between, .exchange k tokens =>
    if (s.slots k).isProcessing then none
    else some ((s.setMemory k tokens).setSlot k { s.slots k with prompt := tokens })
  -- the adapters change, and the old prompt is of no use
  | .between, .clear k =>
    if (s.slots k).isProcessing then none
    else some (s.setSlot k { s.slots k with prompt := [] })
  | .between, .launch k task children =>
    if (∀ i ∈ k :: children.map Prod.fst, ¬ (s.slots i).isProcessing) ∧
        (k :: children.map Prod.fst).Nodup ∧ (task.id :: children.map Prod.snd).Nodup ∧
        (∀ id ∈ task.id :: children.map Prod.snd, id ∉ s.launched) ∧
        task.idParent = none ∧ task.nChildTasks = children.length then
      some (s.launch k task children)
    else none
  | .between, .cancel k => some (s.release k)
  -- context shift, which is not for shared prompts
  | .between, .shift k kept =>
    if (s.slots k).state = .generating ∧ ¬ (s.slots k).isParent ∧ ¬ (s.slots k).isChild then
      some ((s.setMemory k (pick kept (s.memory k))).setSlot k
        { s.slots k with prompt := pick kept (s.slots k).prompt })
    else none
  | .between, .begin => some { s with batch := [], phase := .building }
  | .building, .sampled k tokens =>
    if (s.slots k).state = .generating then
      some (s.handleLastSampledToken k tokens)
    else none
  -- the part of the old prompt that is used again; some token is always left to process
  | .building, .start k kept =>
    match (s.slots k).task with
    | some task =>
      if (s.slots k).state = .started ∧ (∀ i ∈ kept, i < (s.slots k).prompt.length) ∧
          pick kept (s.slots k).prompt = task.tokens.take kept.length ∧
          kept.length < task.tokens.length then
        some ((s.setMemory k (pick kept (s.memory k))).setSlot k
          { s.slots k with prompt := pick kept (s.slots k).prompt, state := .processingPrompt })
      else none
    | none => none
  | .building, .fill k nMedia nText =>
    match (s.slots k).task with
    | some task =>
      let rest := task.tokens.drop (s.slots k).prompt.length
      let media := rest.take nMedia
      let text := (rest.drop nMedia).take nText
      let s' := s.fill k task media text
      if (s.slots k).state = .processingPrompt ∧ (∀ t ∈ s.batch, t.idSlot ≠ k) ∧
          (∀ t ∈ media, t = tokenNull) ∧ (∀ t ∈ text, t ≠ tokenNull) ∧
          (text = [] ∨ s'.batch.length ≤ p.nBatch) ∧
          ((s'.slots k).state = .donePrompt → s'.batch ≠ []) then
        some s'
      else none
    | none => none
  | .building, .release k => some (s.release k)
  | .building, .render =>
    some { s with phase := if s.batch = [] then .between else .decoding 0 p.nBatch }
  | .building, .abort => some s.abortAllSlots
  | .decoding off nBatch, .decode outcome =>
    if 0 < nBatch then some (s.decode p off nBatch outcome) else none
  -- the slots whose token was decoded
  | .decoded off n, .accept k =>
    if insideView off n (s.slots k).iBatch ∧
        ((s.slots k).state = .donePrompt ∨ (s.slots k).state = .generating) then
      some (s.setSlot k { s.slots k with state := .generating, iBatch := -1 })
    else none
  -- drafted tokens are rejected, all of which are in the sub-batch
  | .decoded off n, .rollback k m =>
    if (s.slots k).state = .generating ∧ (∀ t ∈ s.batch.drop (off + n), t.idSlot ≠ k) then
      some ((s.setMemory k ((s.memory k).take m)).setSlot k
        { s.slots k with prompt := (s.slots k).prompt.take m })
    else none
  | .decoded _ _, .release k => some (s.release k)
  | .decoded off n, .next =>
    some { s with
      phase := if off + n < s.batch.length then .decoding (off + n) p.nBatch else .between }
  | .decoded _ _, .abort => some s.abortAllSlots
  | _, _ => none

end ServerLoop

end Llama
