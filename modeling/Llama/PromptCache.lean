import Llama.ServerTokens
import Mathlib.Algebra.Order.Field.Rat

/-!
# The prompt cache

`server_prompt_cache` keeps prompts with the saved state of the target context and of the draft
context.  `alloc` makes room for a prompt, `load` restores the cached prompt that is most similar
to a new one, and `update` enforces the limits.

Floating-point numbers are a parameter, and so is what a context does when the state of a
sequence is saved or restored: restoring may fail.  A failed assertion is `none`.
-/

namespace Llama

/-- The operations on `float` that are used.  `scale` is a `double` times a size. -/
structure Floats (F : Type) where
  ofSize : ℕ → F
  lit : ℚ → F
  div : F → F → F
  mul : F → F → F
  max : F → F → F
  lt : F → F → Bool
  ne : F → F → Bool
  toSize : F → ℕ
  scale : ℚ → ℕ → ℕ

/-- `llama_state_seq_get_data_ext` and `llama_state_seq_set_data_ext` for a sequence with the
memory `M`.  Setting may fail; it returns the number of bytes that were read. -/
structure StateIO (M : Type) where
  get : M → List UInt8
  set : List UInt8 → Bool → M → ℕ × M

/-- Exact arithmetic, in which what is not a finite number is `none`. -/
def Floats.exact : Floats (Option ℚ) where
  ofSize n := some n
  lit q := some q
  div x y := x.bind fun a => y.bind fun b => if b = 0 then none else some (a / b)
  mul x y := x.bind fun a => y.map fun b => a * b
  max x y := if (x.bind fun a => y.map fun b => decide (a < b)).getD false then y else x
  lt x y := (x.bind fun a => y.map fun b => decide (a < b)).getD false
  ne x y := x = none || x ≠ y
  toSize x := (x.getD 0).floor.toNat
  scale c n := (c * n).floor.toNat

/-- A context that saves its memory behind a byte, and whose memory is lost when restoring it
fails. -/
def StateIO.plain : StateIO (List UInt8) where
  get m := 1 :: m
  set data fails _ := if fails then (0, []) else
    if data.head? = some 1 then (data.length, data.tail) else (0, [])

/-- `common_prompt_checkpoint`. -/
structure PromptCheckpoint where
  nTokens : ℤ
  idTask : ℤ
  posMin : ℤ
  posMax : ℤ
  dataTgt : List UInt8
  dataDft : List UInt8
  dataSpec : List UInt8
  deriving DecidableEq, Repr

def PromptCheckpoint.size (c : PromptCheckpoint) : ℕ :=
  c.dataTgt.length + c.dataDft.length + c.dataSpec.length

structure ServerPrompt where
  tokens : ServerTokens
  checkpoints : List PromptCheckpoint
  deriving DecidableEq

namespace ServerPrompt

def nTokens (p : ServerPrompt) : ℕ := p.tokens.length

def clear (p : ServerPrompt) : ServerPrompt := ⟨.empty p.tokens.hasMtmd, []⟩

/-- The size of the checkpoints. -/
def checkpointsSize (p : ServerPrompt) : ℕ := (p.checkpoints.map PromptCheckpoint.size).sum

end ServerPrompt

/-- `server_prompt_cache_state`: a prompt and its saved states. -/
structure PromptCacheState where
  prompt : ServerPrompt
  main : List UInt8
  drft : List UInt8
  deriving DecidableEq

def PromptCacheState.size (s : PromptCacheState) : ℕ :=
  s.main.length + s.drft.length + s.prompt.checkpointsSize

/-- `server_prompt_cache`, the oldest entry first.  A limit of zero is no limit. -/
structure PromptCache where
  states : List PromptCacheState
  limitSize : ℕ
  limitTokens : ℕ
  deriving DecidableEq

/-- The sizes of entries. -/
def sizeOfStates (states : List PromptCacheState) : ℕ := (states.map PromptCacheState.size).sum

/-- The numbers of tokens of entries. -/
def tokensOfStates (states : List PromptCacheState) : ℕ :=
  (states.map fun s => s.prompt.nTokens).sum

/-- Remove the oldest entries as long as `over` holds. -/
def popWhile (exceeds : List PromptCacheState → Bool) : List PromptCacheState → List PromptCacheState
  | [] => []
  | s :: states => if exceeds (s :: states) then popWhile exceeds states else s :: states

namespace PromptCache

variable {F M : Type}

/-- The constructor, for a limit in MiB that is not negative. -/
def new (limitSizeMib : ℤ) (limitTokens : ℕ) : PromptCache :=
  ⟨[], 1024 * 1024 * limitSizeMib.toNat, limitTokens⟩

def size (cache : PromptCache) : ℕ := sizeOfStates cache.states

def nTokens (cache : PromptCache) : ℕ := tokensOfStates cache.states

/-- The limit of tokens that `update` enforces. -/
def limitTokensCur (fl : Floats F) (cache : PromptCache) : ℕ :=
  let sizePerToken := fl.max (fl.lit 1) (fl.div (fl.ofSize cache.size)
    (fl.ofSize (max 1 cache.nTokens)))
  if 0 < cache.limitSize then
    max cache.limitTokens (fl.toSize (fl.div (fl.ofSize cache.limitSize) sizePerToken))
  else cache.limitTokens

/-- The first loop of `update`. -/
def dropOverSize (cache : PromptCache) : PromptCache :=
  if 0 < cache.limitSize then
    let exceeds := fun states => decide (cache.limitSize < sizeOfStates states)
    { cache with states := popWhile exceeds cache.states }
  else cache

def update (fl : Floats F) (cache : PromptCache) : PromptCache :=
  let cache := cache.dropOverSize
  let limit := cache.limitTokensCur fl
  if 0 < cache.limitTokens then
    let exceeds := fun states => decide (limit < tokensOfStates states)
    { cache with states := popWhile exceeds cache.states }
  else cache

/-- Whether an entry contains a prompt. -/
def containsPrompt (cache : PromptCache) (prompt : ServerPrompt) : Bool :=
  cache.states.any fun s => s.prompt.tokens.commonPrefix prompt.tokens = prompt.tokens.length

/-- Remove the entries that are contained in a prompt. -/
def removeContained (cache : PromptCache) (prompt : ServerPrompt) : PromptCache :=
  { cache with states := cache.states.filter fun s =>
      s.prompt.tokens.commonPrefix prompt.tokens ≠ s.prompt.tokens.length }

/-- Make room for `sizeNew` bytes. -/
def makeRoom (cache : PromptCache) (sizeNew : ℕ) : PromptCache :=
  if 0 < cache.limitSize then
    let exceeds := fun states => decide (cache.limitSize < sizeOfStates states + sizeNew)
    { cache with states := popWhile exceeds cache.states }
  else cache

/-- What is done when the memory for a state could not be allocated. -/
def reduceLimit (fl : Floats F) (cache : PromptCache) : PromptCache :=
  { cache with limitSize := max 1 (fl.scale (2 / 5) cache.size) }.update fl

/-- `alloc`, and whether it returned an entry, which is the last one.  Allocating memory may
fail. -/
def alloc (fl : Floats F) (cache : PromptCache) (prompt : ServerPrompt) (sizeTgt sizeDft : ℕ)
    (badAlloc : Bool) : PromptCache × Bool :=
  if cache.containsPrompt prompt then (cache, false)
  else
    let sizeNew := sizeTgt + sizeDft + prompt.checkpointsSize
    if 0 < cache.limitSize ∧ cache.limitSize < sizeNew then (cache, false)
    else
      let cache := (cache.removeContained prompt).makeRoom sizeNew
      if badAlloc then (cache.reduceLimit fl, false)
      else
        let state : PromptCacheState :=
          ⟨prompt, List.replicate sizeTgt 0, List.replicate sizeDft 0⟩
        ({ cache with states := cache.states ++ [state] }, true)

/-- Write the data of the last entry. -/
def writeBack (cache : PromptCache) (main drft : List UInt8) : PromptCache :=
  { cache with states := cache.states.dropLast ++
      (cache.states.getLast?.map fun s => { s with main := main, drft := drft }).toList }

/-! ## Loading -/

/-- The best entry so far: how much of it is kept, how similar it is, and where it is. -/
structure Best (F : Type) where
  keep : F
  sim : F
  idx : Option ℕ

/-- One round of the search. -/
def consider (fl : Floats F) (tokensNew : ServerTokens) (best : Best F) (i : ℕ)
    (s : PromptCacheState) : Best F :=
  let lcp := fl.ofSize (s.prompt.tokens.commonPrefix tokensNew)
  let keep := fl.div lcp (fl.ofSize s.prompt.tokens.length)
  let sim := fl.div lcp (fl.ofSize tokensNew.length)
  if fl.lt keep (fl.lit (1 / 4)) then best
  else if fl.lt best.keep keep && fl.lt best.sim sim then ⟨keep, sim, some i⟩ else best

/-- The search, from the entry `i` on. -/
def search (fl : Floats F) (tokensNew : ServerTokens) : Best F → ℕ → List PromptCacheState → Best F
  | best, _, [] => best
  | best, i, s :: states => search fl tokensNew (consider fl tokensNew best i s) (i + 1) states

/-- The entry that is loaded for a slot with a prompt. -/
def pick (fl : Floats F) (cache : PromptCache) (prompt : ServerPrompt) (tokensNew : ServerTokens) :
    Option ℕ :=
  let lcp := fl.ofSize (prompt.tokens.commonPrefix tokensNew)
  let keep := if 0 < prompt.tokens.length then fl.div lcp (fl.ofSize prompt.tokens.length)
    else fl.lit (-1)
  (search fl tokensNew ⟨keep, fl.div lcp (fl.ofSize tokensNew.length), none⟩ 0 cache.states).idx

/-- What `load` leaves: what it returns, the cache, and the prompt and the memory of the slot. -/
structure Loaded (M : Type) where
  ok : Bool
  cache : PromptCache
  prompt : ServerPrompt
  tgt : M
  dft : Option M

/-- Restore the entry `s` at `i`. -/
def restore (io : StateIO M) (cache : PromptCache) (i : ℕ) (s : PromptCacheState)
    (prompt : ServerPrompt) (tgt : M) (dft : Option M) (failTgt failDft : Bool) :
    Option (Loaded M) :=
  let rTgt := io.set s.main failTgt tgt
  if rTgt.1 ≠ s.main.length then some ⟨false, cache, prompt, rTgt.2, dft⟩
  else
    let taken := { cache with states := cache.states.eraseIdx i }
    if s.drft = [] then some ⟨true, taken, s.prompt, rTgt.2, dft⟩
    else
      match dft with
      | none => none
      | some d =>
        let rDft := io.set s.drft failDft d
        if rDft.1 ≠ s.drft.length then
          some ⟨false, { cache with states := cache.states.set i { s with main := [] } }, prompt,
            rTgt.2, some rDft.2⟩
        else some ⟨true, taken, s.prompt, rTgt.2, some rDft.2⟩

/-- `load` into a slot with a prompt and with the memories `tgt` and `dft`. -/
def load (fl : Floats F) (io : StateIO M) (cache : PromptCache) (prompt : ServerPrompt)
    (tokensNew : ServerTokens) (tgt : M) (dft : Option M) (failTgt failDft : Bool) :
    Option (Loaded M) :=
  match (cache.pick fl prompt tokensNew).bind fun i => cache.states[i]?.map fun s => (i, s) with
  | none => some ⟨true, cache, prompt, tgt, dft⟩
  | some (i, s) => cache.restore io i s prompt tgt dft failTgt failDft

/-- `server_slot::prompt_save`. -/
def save (fl : Floats F) (io : StateIO M) (cache : PromptCache) (prompt : ServerPrompt) (tgt : M)
    (dft : Option M) (badAlloc : Bool) : PromptCache × Bool :=
  if prompt.tokens.length = 0 then (cache, false)
  else
    let main := io.get tgt
    let drft := (dft.map io.get).getD []
    let r := cache.alloc fl prompt main.length drft.length badAlloc
    if r.2 then (r.1.writeBack main drft, true) else (r.1, false)

end PromptCache

end Llama
