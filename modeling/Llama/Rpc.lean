import Llama.Rpc.Tensor

/-!
# The tensors of the RPC server

`rpc_server::deserialize_tensor` turns the record of a tensor back into a tensor in a context of
the server.  Every field comes from the client.  A record that names a buffer of the server has to
lie inside it, which is an assertion; an unknown type gives a null pointer.
-/

namespace Llama.Rpc

/-! ## Outcomes -/

/-- How the handler of a request ends.  It returns, it refuses the request, which ends the
connection, an assertion stops the server, or it does what it must not: it reads behind its
message, writes outside of an array, or does not come to an end. -/
inductive Outcome (α : Type)
  | ok (a : α)
  | refused
  | aborted
  | readOutside
  | wroteOutside
  | outOfFuel
  deriving DecidableEq, Repr

namespace Outcome

variable {α β : Type}

def bind : Outcome α → (α → Outcome β) → Outcome β
  | ok a, f => f a
  | refused, _ => refused
  | aborted, _ => aborted
  | readOutside, _ => readOutside
  | wroteOutside, _ => wroteOutside
  | outOfFuel, _ => outOfFuel

instance : Monad Outcome where
  pure := ok
  bind := bind

instance : LawfulMonad Outcome :=
  LawfulMonad.mk' Outcome (fun x => by cases x <;> rfl) (fun _ _ => rfl)
    (fun x _ _ => by cases x <;> rfl)

/-- `GGML_ASSERT`. -/
def require (c : Prop) [Decidable c] : Outcome Unit := if c then ok () else aborted

/-- `return false` when `c` holds. -/
def refuseIf (c : Prop) [Decidable c] : Outcome Unit := if c then refused else ok ()

/-- What is returned, if something is. -/
def toOption : Outcome α → Option α
  | ok a => some a
  | _ => none

@[simp] lemma ok_bind (a : α) (f : α → Outcome β) : (ok a >>= f) = f a := rfl

variable {x : Outcome α}

lemma bind_eq_ok {f : α → Outcome β} {b : β} : x >>= f = ok b ↔ ∃ a, x = ok a ∧ f a = ok b := by
  constructor
  · intro h
    cases x with
    | ok a => exact ⟨a, rfl, h⟩
    | _ => cases h
  · rintro ⟨a, rfl, h⟩
    exact h

lemma require_bind_eq_ok {c : Prop} [Decidable c] {f : Unit → Outcome β} {b : β} :
    require c >>= f = ok b ↔ c ∧ f () = ok b := by
  unfold require
  split
  · rename_i hc
    exact (and_iff_right hc).symm
  · rename_i hc
    exact ⟨fun h => (by cases h), fun h => absurd h.1 hc⟩

lemma refuseIf_bind_eq_ok {c : Prop} [Decidable c] {f : Unit → Outcome β} {b : β} :
    refuseIf c >>= f = ok b ↔ ¬c ∧ f () = ok b := by
  unfold refuseIf
  split
  · rename_i hc
    exact ⟨fun h => (by cases h), fun h => absurd hc h.1⟩
  · rename_i hc
    exact (and_iff_right hc).symm

/-- Nothing is read or written outside, and the handler comes to an end. -/
def Safe : Outcome α → Prop
  | ok _ => True
  | refused => True
  | aborted => True
  | readOutside => False
  | wroteOutside => False
  | outOfFuel => False

lemma Safe.ne_wroteOutside (h : x.Safe) : x ≠ .wroteOutside := by
  rintro rfl
  exact h

lemma Safe.bind {f : α → Outcome β} (h : x.Safe) (hf : ∀ a, x = ok a → (f a).Safe) :
    (x >>= f).Safe := by
  cases x with
  | ok a => exact hf a rfl
  | _ => exact h

lemma safe_require (c : Prop) [Decidable c] : (require c).Safe := by
  unfold require
  split <;> trivial

lemma safe_refuseIf_bind {c : Prop} [Decidable c] {f : Unit → Outcome β}
    (h : ¬c → (f ()).Safe) : (refuseIf c >>= f).Safe := by
  unfold refuseIf
  split
  · trivial
  · rename_i hc
    exact h hc

/-- The handler is safe, and what it returns has the property. -/
def Ensures (x : Outcome α) (P : α → Prop) : Prop := x.Safe ∧ ∀ a, x = ok a → P a

lemma ensures_ok {P : α → Prop} {a : α} (h : P a) : (ok a).Ensures P :=
  ⟨trivial, fun b hb => (by cases hb; exact h)⟩

lemma ensures_refused (P : α → Prop) : (refused : Outcome α).Ensures P :=
  ⟨trivial, fun b hb => (by cases hb)⟩

lemma ensures_aborted (P : α → Prop) : (aborted : Outcome α).Ensures P :=
  ⟨trivial, fun b hb => (by cases hb)⟩

lemma Safe.ensures (h : x.Safe) : x.Ensures fun a => x = ok a :=
  ⟨h, fun _ ha => ha⟩

lemma Ensures.bind {f : α → Outcome β} {P : α → Prop} {Q : β → Prop} (h : x.Ensures P)
    (hf : ∀ a, P a → (f a).Ensures Q) : (x >>= f).Ensures Q := by
  refine ⟨h.1.bind fun a ha => (hf a (h.2 a ha)).1, fun b hb => ?_⟩
  obtain ⟨a, ha, hb⟩ := bind_eq_ok.mp hb
  exact (hf a (h.2 a ha)).2 b hb

@[simp] lemma toOption_eq_some {a : α} : x.toOption = some a ↔ x = ok a := by
  cases x <;> simp [toOption]

end Outcome

/-! ## Records become tensors -/

/-- The assertions on a tensor that is in a buffer: its end does not wrap, and it is between the
ends of the buffer. -/
def GgmlTensor.Checked {π : Type} (t : GgmlTensor Buffer π) : Prop :=
  ∀ b ∈ t.buffer, t.data ≤ t.data + t.nbytes ∧ b.base ≤ t.data ∧ t.data + t.nbytes ≤ b.base + b.size

instance {π : Type} (t : GgmlTensor Buffer π) : Decidable t.Checked :=
  inferInstanceAs (Decidable (∀ b ∈ t.buffer, _))

/-- `rpc_server::deserialize_tensor` in a context with room for the tensor; `none` is the null
pointer. -/
def deserializeTensor (buffers : List Buffer) (t : RpcTensor) :
    Outcome (Option (GgmlTensor Buffer ℕ)) :=
  if h : t.type.toNat < ggmlTypeCount then
    -- the deprecated types
    if GgmlType.blckSize ⟨t.type.toNat, h⟩ = 0 then .ok none
    else do
      let result := t.tensor ⟨t.type.toNat, h⟩ buffers
      Outcome.require result.Checked
      return some result
  else .ok none

/-- What `deserialize_tensor` returns. -/
lemma deserializeTensor_eq_some {buffers : List Buffer} {t : RpcTensor}
    {r : GgmlTensor Buffer ℕ} (h : deserializeTensor buffers t = .ok (some r)) :
    ∃ type : GgmlType, t.type.toNat = type ∧ type.blckSize ≠ 0 ∧ r = t.tensor type buffers ∧
      r.Checked := by
  unfold deserializeTensor at h
  split at h
  · rename_i htype
    split at h
    · cases h
    · rename_i hblck
      obtain ⟨hchecked, hr⟩ := Outcome.require_bind_eq_ok.mp h
      cases hr
      exact ⟨⟨t.type.toNat, htype⟩, rfl, hblck, rfl, hchecked⟩
  · cases h

lemma safe_deserializeTensor (buffers : List Buffer) (t : RpcTensor) :
    (deserializeTensor buffers t).Safe := by
  unfold deserializeTensor
  split
  · split
    · trivial
    · exact (Outcome.safe_require _).bind fun _ _ => trivial
  · trivial

/-- The buffer of a tensor is one of the server. -/
lemma mem_of_buffer {buffers : List Buffer} {t : RpcTensor} {type : GgmlType} {b : Buffer}
    (h : (t.tensor type buffers).buffer = some b) : b ∈ buffers := List.mem_of_find?_eq_some h

/-- A `ggml_context`: its tensors, to which their places point, and the number of tensors for
which it has memory. -/
structure Context where
  tensors : List (GgmlTensor Buffer ℕ)
  capacity : ℕ
  deriving DecidableEq, Repr

namespace Context

/-- `ggml_new_tensor_impl`, which stops the server when the memory of the context is used up. -/
def newTensor (ctx : Context) (t : GgmlTensor Buffer ℕ) : Outcome (ℕ × Context) := do
  Outcome.require (ctx.tensors.length < ctx.capacity)
  return (ctx.tensors.length, { ctx with tensors := ctx.tensors ++ [t] })

/-- Change the tensor at a place. -/
def modify (ctx : Context) (p : ℕ) (f : GgmlTensor Buffer ℕ → GgmlTensor Buffer ℕ) : Context :=
  { ctx with tensors := ctx.tensors.modify p f }

lemma newTensor_eq_ok {ctx : Context} {r : GgmlTensor Buffer ℕ} {new : ℕ × Context}
    (h : ctx.newTensor r = .ok new) :
    ctx.tensors.length < ctx.capacity ∧
      new = (ctx.tensors.length, { ctx with tensors := ctx.tensors ++ [r] }) := by
  obtain ⟨hroom, h⟩ := Outcome.require_bind_eq_ok.mp h
  cases h
  exact ⟨hroom, rfl⟩

lemma safe_newTensor (ctx : Context) (r : GgmlTensor Buffer ℕ) : (ctx.newTensor r).Safe :=
  (Outcome.safe_require _).bind fun _ _ => trivial

end Context

end Llama.Rpc
