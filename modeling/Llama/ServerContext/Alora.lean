import Llama.Lib.Occurs
import Llama.Lib.Restart
import Llama.ServerContext.Frame

/-!
# Adapters that are invoked

An activated adapter is in effect from its invocation tokens on.  When a task is launched, its
prompt is searched for them, from the end.  The search starts over when a token differs, and does
not look at that token again.
-/

namespace Llama

open List

/-- `llama_adapter_lora`: which one it is, and its invocation tokens. -/
structure LlamaAdapterLora where
  id : ℕ
  invocationTokens : List ℤ
  deriving DecidableEq, Repr

/-- `common_adapter_lora_info`: the adapter and its scale. -/
structure LoraInfo (F : Type) where
  ptr : LlamaAdapterLora
  scale : F
  deriving DecidableEq, Repr

/-- `server_task`: the prompt, and the scales that the request gives. -/
structure LoraTask (F : Type) where
  tokens : List ℤ
  lora : List (ℤ × F)
  deriving DecidableEq, Repr

/-- `server_slot`: what the choice of the adapters reads and sets. -/
structure LoraSlot (F : Type) where
  lora : List (LoraInfo F)
  aloraInvocationStart : ℤ
  prompt : ServerPrompt
  deriving DecidableEq

variable {F : Type} {fl : Floats F}

/-- `lora_all_alora`, when `found` is whether an adapter was found so far. -/
def loraAllAlora (fl : Floats F) (found : Bool) : List (LoraInfo F) → Bool
  | [] => found
  | lora :: loras =>
    if fl.ne lora.scale (fl.lit 0) then
      if lora.ptr.invocationTokens.length = 0 then false else loraAllAlora fl true loras
    else loraAllAlora fl found loras

def loraGetEnabledIds (fl : Floats F) (loras : List (LoraInfo F)) : List ℕ :=
  (List.range loras.length).filter fun i => loras[i]?.any fun lora => fl.lt (fl.lit 0) lora.scale

def areLoraEqual (fl : Floats F) (l1 l2 : List (LoraInfo F)) : Bool :=
  l1.length = l2.length && (l1.zip l2).all fun l => !(fl.ne l.1.scale l.2.scale || l.1.ptr ≠ l.2.ptr)

/-- `lora_should_clear_cache`.  It is asserted that the adapters are not equal; the caller has
compared them. -/
def loraShouldClearCache (fl : Floats F) (current next : List (LoraInfo F)) : Bool :=
  !(loraGetEnabledIds fl current = [] || loraAllAlora fl false current) ||
    !loraAllAlora fl false next

/-- `construct_lora_list`, from the adapters of the server. -/
def constructLoraList (fl : Floats F) (adapters : List (LoraInfo F)) (config : List (ℤ × F)) :
    List (LoraInfo F) :=
  adapters.mapIdx fun i lora => { lora with scale := (config.lookup (i : ℤ)).getD (fl.lit 0) }

/-- The search for the invocation tokens, backwards: the tokens that are left have the last one
first, and `matchIdx` is the place of the invocation token that comes next. -/
def aloraScan (invocation : List ℤ) : List ℤ → ℕ → Option ℕ
  | [], _ => none
  | x :: left, matchIdx =>
    if invocation[matchIdx]? = some x then
      if matchIdx = 0 then some left.length else aloraScan invocation left (matchIdx - 1)
    else aloraScan invocation left (invocation.length - 1)

namespace LoraSlot

/-- The adapters of the request. -/
def requestLora (fl : Floats F) (adapters : List (LoraInfo F)) (slot : LoraSlot F)
    (task : LoraTask F) : LoraSlot F :=
  if task.lora.isEmpty then { slot with lora := adapters }
  else
    let taskLoras := constructLoraList fl adapters task.lora
    if areLoraEqual fl taskLoras slot.lora then slot
    else
      { slot with
        prompt := if loraShouldClearCache fl slot.lora taskLoras then slot.prompt.clear
          else slot.prompt
        lora := taskLoras }

/-- The adapter is switched off if the prompt does not invoke it. -/
def searchAlora (fl : Floats F) (slot : LoraSlot F) (tokens : List ℤ) :
    Except String (LoraSlot F) :=
  if loraAllAlora fl false slot.lora then
    match loraGetEnabledIds fl slot.lora with
    | [id] =>
      let invocation := (slot.lora[id]?.map fun lora => lora.ptr.invocationTokens).getD []
      match aloraScan invocation tokens.reverse (invocation.length - 1) with
      | none =>
        .ok { slot with lora := slot.lora.modify id fun lora => { lora with scale := fl.lit 0 } }
      | some start => .ok { slot with aloraInvocationStart := start }
    | _ => .error "Cannot run multiple aLoRAs in a single request"
  else .ok slot

/-- The part of `launch_slot_with_task` that chooses the adapters. -/
def launchLora (fl : Floats F) (adapters : List (LoraInfo F)) (slot : LoraSlot F)
    (task : LoraTask F) : Except String (LoraSlot F) :=
  (slot.requestLora fl adapters task).searchAlora fl task.tokens

/-- The adapter is in effect from the last invocation on, and is disabled if there is none. -/
structure Invoked (fl : Floats F) (invocation tokens : List ℤ) (id : ℕ) (slot : LoraSlot F) :
    Prop where
  start : ∀ i, Occurs.Last invocation tokens i → slot.aloraInvocationStart = i
  disabled : id ∉ loraGetEnabledIds fl slot.lora ↔ ∀ i, ¬ Occurs.At invocation tokens i

end LoraSlot

variable {invocation tokens : List ℤ} {i : ℕ}

/-- The search is the matcher that starts over, on what is read backwards. -/
lemma aloraScan_eq (left : List ℤ) : ∀ {matchIdx : ℕ}, matchIdx < invocation.length →
    aloraScan invocation left matchIdx =
      Restart.scan invocation.reverse left (invocation.length - 1 - matchIdx) := by
  induction left with
  | nil => exact fun _ => rfl
  | cons x left ih =>
    intro matchIdx hlt
    have hget : invocation.reverse[invocation.length - 1 - matchIdx]? = invocation[matchIdx]? := by
      rw [getElem?_reverse (by omega)]
      congr 1
      omega
    unfold aloraScan Restart.scan
    rw [hget, length_reverse]
    split_ifs with hx hzero hlast hlast
    · rfl
    · omega
    · omega
    · rw [ih (by omega)]
      congr 1
      omega
    · rw [ih (by omega), Nat.sub_self]

/-- The search stops at an occurrence if and only if what follows it, read backwards, consists of
failed attempts. -/
lemma aloraScan_eq_some_iff (hne : invocation ≠ []) :
    aloraScan invocation tokens.reverse (invocation.length - 1) = some i ↔
      Occurs.At invocation tokens i ∧
        Restart.Attempts invocation.reverse (tokens.drop (i + invocation.length)).reverse := by
  have hpos := length_pos_iff.mpr hne
  rw [aloraScan_eq _ (by omega), Nat.sub_self,
    Restart.scan_eq_some_iff (reverse_ne_nil_iff.mpr hne)]
  constructor
  · rintro ⟨l, rest, ht, rfl, hl⟩
    have htokens : tokens = rest.reverse ++ (invocation ++ l.reverse) := by
      rw [← reverse_reverse tokens, ht]
      simp
    have hdrop : tokens.drop rest.length = invocation ++ l.reverse := by
      rw [htokens]
      exact drop_left' (by simp)
    refine ⟨⟨⟨l.reverse, hdrop.symm⟩, by rw [htokens]; simp⟩, ?_⟩
    rw [← drop_drop, hdrop, drop_left, reverse_reverse]
    exact hl
  · rintro ⟨⟨⟨after, hafter⟩, hle⟩, hl⟩
    have htokens : tokens = tokens.take i ++ (invocation ++ after) := by
      rw [hafter, take_append_drop]
    rw [← drop_drop, ← hafter, drop_left] at hl
    refine ⟨after.reverse, (tokens.take i).reverse, ?_, by simpa using hle, hl⟩
    conv_lhs => rw [htokens]
    simp

/-! ## The launch -/

lemma mem_loraGetEnabledIds {loras : List (LoraInfo F)} {id : ℕ} : id ∈ loraGetEnabledIds fl loras ↔
      ∃ lora, loras[id]? = some lora ∧ fl.lt (fl.lit 0) lora.scale = true := by
  unfold loraGetEnabledIds
  rw [mem_filter, mem_range, Option.any_eq_true]
  refine ⟨And.right, fun h => ⟨?_, h⟩⟩
  obtain ⟨lora, hlora, -⟩ := h
  exact (List.getElem?_eq_some_iff.mp hlora).1

namespace LoraSlot

variable {slot : LoraSlot F} {adapters : List (LoraInfo F)} {task : LoraTask F} {id : ℕ}
  {lora : LoraInfo F}

/-- The adapter whose scale is set to zero is disabled. -/
lemma not_mem_enabled_modify (hfl : fl.Ordered) (loras : List (LoraInfo F)) (id : ℕ) :
    id ∉ loraGetEnabledIds fl (loras.modify id fun lora => { lora with scale := fl.lit 0 }) := by
  rw [mem_loraGetEnabledIds]
  rintro ⟨lora, hlora, hlt⟩
  rw [getElem?_modify_eq] at hlora
  obtain ⟨old, -, rfl⟩ := Option.map_eq_some_iff.mp hlora
  rw [hfl.irrefl] at hlt
  cases hlt

/-- **The invocation that is found.**  A task whose only enabled adapter is one that is invoked is
launched.  The adapter is in effect from the last invocation on, or is disabled if there is none, if
and only if what follows the last invocation, read backwards, consists of failed attempts. -/
theorem launchLora_invoked_iff (hfl : fl.Ordered)
    (hall : loraAllAlora fl false (slot.requestLora fl adapters task).lora = true)
    (hids : loraGetEnabledIds fl (slot.requestLora fl adapters task).lora = [id])
    (hlora : (slot.requestLora fl adapters task).lora[id]? = some lora)
    (hne : lora.ptr.invocationTokens ≠ []) :
    ∃ slot', slot.launchLora fl adapters task = .ok slot' ∧
      (slot'.Invoked fl lora.ptr.invocationTokens task.tokens id ↔
        ∀ i, Occurs.Last lora.ptr.invocationTokens task.tokens i →
          Restart.Attempts lora.ptr.invocationTokens.reverse
            (task.tokens.drop (i + lora.ptr.invocationTokens.length)).reverse) := by
  unfold launchLora searchAlora
  rw [if_pos hall, hids]
  dsimp only
  rw [hlora, Option.map_some, Option.getD_some]
  cases hscan : aloraScan lora.ptr.invocationTokens task.tokens.reverse
      (lora.ptr.invocationTokens.length - 1) with
  | none =>
    refine ⟨_, rfl, fun h i hlast => ?_, fun h => ?_⟩
    · exact absurd hlast.occurs (h.disabled.mp (not_mem_enabled_modify hfl _ id) i)
    · have hnone : ∀ i, ¬ Occurs.At lora.ptr.invocationTokens task.tokens i := by
        intro i hat
        obtain ⟨last, hlast⟩ := Occurs.exists_last ⟨i, hat⟩
        rw [(aloraScan_eq_some_iff hne).mpr ⟨hlast.occurs, h last hlast⟩] at hscan
        cases hscan
      exact ⟨fun i hlast => absurd hlast.occurs (hnone i),
        iff_of_true (not_mem_enabled_modify hfl _ id) hnone⟩
  | some start =>
    obtain ⟨hat, hattempts⟩ := (aloraScan_eq_some_iff hne).mp hscan
    have henabled : id ∈ loraGetEnabledIds fl (slot.requestLora fl adapters task).lora := by
      rw [hids]
      exact List.mem_singleton_self id
    refine ⟨_, rfl, fun h i hlast => ?_, fun h => ⟨fun i hlast => ?_, ?_⟩⟩
    · rw [← Int.ofNat_inj.mp (h.start i hlast)]
      exact hattempts
    · rw [(aloraScan_eq_some_iff hne).mpr ⟨hlast.occurs, h i hlast⟩] at hscan
      rw [Option.some.inj hscan]
    · exact iff_of_false (not_not_intro henabled) fun hnone => hnone start hat

/-- A slot of a server with one adapter, which the tokens 1 and 2 invoke. -/
def withAdapter : LoraSlot (Option ℚ) := ⟨[⟨⟨0, [1, 2]⟩, some 1⟩], -1, ⟨.empty false, []⟩⟩

/-- The adapter is invoked at the beginning, and the token behind is another one. -/
theorem launchLora_invoked_iff_withAdapter :
    ∃ slot', withAdapter.launchLora .exact withAdapter.lora ⟨[1, 2, 3], []⟩ = .ok slot' ∧
      (slot'.Invoked .exact [1, 2] [1, 2, 3] 0 ↔ ∀ i, Occurs.Last ([1, 2] : List ℤ) [1, 2, 3] i →
          Restart.Attempts [2, 1] (([1, 2, 3] : List ℤ).drop (i + 2)).reverse) :=
  @launchLora_invoked_iff _ .exact withAdapter withAdapter.lora ⟨[1, 2, 3], []⟩ 0
    ⟨⟨0, [1, 2]⟩, some 1⟩ ServerContext.exact_ordered rfl rfl rfl (by decide)

/-- The last token of the prompt is the last one of the invocation, and hides the one before it. -/
theorem not_invoked_withAdapter :
    ∃ slot', withAdapter.launchLora .exact withAdapter.lora ⟨[1, 2, 2], []⟩ = .ok slot' ∧
      Occurs.At [1, 2] ([1, 2, 2] : List ℤ) 0 ∧ ¬ slot'.Invoked .exact [1, 2] [1, 2, 2] 0 := by
  have hat : Occurs.At [1, 2] ([1, 2, 2] : List ℤ) 0 := ⟨⟨[2], rfl⟩, Nat.zero_le _⟩
  refine ⟨_, rfl, hat, fun h => ?_⟩
  exact h.disabled.mp
    (not_mem_enabled_modify ServerContext.exact_ordered withAdapter.lora 0) 0 hat

end LoraSlot

end Llama
