import Llama.Rpc.Graph
import Mathlib.Data.Fintype.Prod

/-!
# What `create_node` makes

A call makes a tensor for the id it is given and for every id that it meets on the way, and enters
each of them in the map; it does not change the tensors that were there.  `Grows` says this of two
states, and `Linked` that the references of a tensor are resolved as its record asks.  While a
tensor is being linked its references are not yet all there, so the loop over them keeps all tensors
but this one.

An id is entered in the map before its references are followed, so that the number of records whose
id is not in the map goes down with every level of the recursion.
-/

namespace Llama.Rpc

open List hiding Vector

/-! ## Tensors and references -/

namespace GgmlTensor

variable {β π : Type}

@[simp] lemma ref_setRef_self (r : GgmlTensor β π) (s : Slot) (p : Option π) :
    (r.setRef s p).ref s = p := by
  cases s with
  | src i => simp [setRef, ref]
  | view => rfl

lemma ref_setRef_of_ne (r : GgmlTensor β π) {s s' : Slot} (p : Option π) (h : s' ≠ s) :
    (r.setRef s p).ref s' = r.ref s' := by
  cases s with
  | src i => cases s' with
    | src j =>
      have hij : i.val ≠ j.val := fun hij => h (by rw [Fin.ext hij])
      simp [setRef, ref, hij]
    | view => rfl
  | view => cases s' with
    | src j => rfl
    | view => exact absurd rfl h

/-- A tensor with other references. -/
def withRefs (r : GgmlTensor β π) (src : Vector (Option π) 10) (viewSrc : Option π) :
    GgmlTensor β π := { r with src := src, viewSrc := viewSrc }

lemma setRef_eq (r : GgmlTensor β π) (s : Slot) (p : Option π) :
    r.setRef s p = r.withRefs (r.setRef s p).src (r.setRef s p).viewSrc := by
  cases s <;> rfl

end GgmlTensor

/-- A tensor has the data of its record, apart from the references and the offset of a view. -/
def MadeFrom (buffers : List Buffer) (t : RpcTensor) (r : GgmlTensor Buffer ℕ) : Prop :=
  ∃ type : GgmlType, t.type.toNat = type ∧ type.blckSize ≠ 0 ∧ (t.tensor type buffers).Checked ∧
    ¬((t.tensor type buffers).buffer = none ∧ t.data ≠ 0) ∧
    r = { t.tensor type buffers with src := r.src, viewSrc := r.viewSrc, viewOffs := r.viewOffs }

variable {r : GgmlTensor Buffer ℕ} {t : RpcTensor} {b b' : Build} {p : ℕ} {keep : ℕ → Prop}
  {id : UInt64} {create : UInt64 → Build → Outcome (Option ℕ × Build)}

lemma MadeFrom.withRefs {buffers : List Buffer} (h : MadeFrom buffers t r)
    (src : Vector (Option ℕ) 10) (viewSrc : Option ℕ) :
    MadeFrom buffers t (r.withRefs src viewSrc) := by
  obtain ⟨type, htype, hblck, hchecked, hdata, hr⟩ := h
  refine ⟨type, htype, hblck, hchecked, hdata, ?_⟩
  rw [hr, GgmlTensor.withRefs]

lemma MadeFrom.withOffs {buffers : List Buffer} (h : MadeFrom buffers t r) (viewOffs : UInt64) :
    MadeFrom buffers t { r with viewOffs := viewOffs } := by
  obtain ⟨type, htype, hblck, hchecked, hdata, hr⟩ := h
  refine ⟨type, htype, hblck, hchecked, hdata, ?_⟩
  rw [hr]

/-! ## States -/

namespace Build

/-- The number of tensors. -/
def length (b : Build) : ℕ := b.ctx.tensors.length

@[simp] lemma length_modify (b : Build) (p : ℕ) (f : GgmlTensor Buffer ℕ → GgmlTensor Buffer ℕ) :
    (b.modify p f).length = b.length := by
  simp [length, modify, Context.modify]

@[simp] lemma map_modify (b : Build) (p : ℕ) (f : GgmlTensor Buffer ℕ → GgmlTensor Buffer ℕ) :
    (b.modify p f).map = b.map := rfl

lemma tensors_modify_self (f : GgmlTensor Buffer ℕ → GgmlTensor Buffer ℕ)
    (h : b.ctx.tensors[p]? = some r) : (b.modify p f).ctx.tensors[p]? = some (f r) := by
  simp [modify, Context.modify, h]

lemma tensors_modify_of_ne (b : Build) {q : ℕ} (f : GgmlTensor Buffer ℕ → GgmlTensor Buffer ℕ)
    (h : q ≠ p) : (b.modify p f).ctx.tensors[q]? = b.ctx.tensors[q]? := by
  simp [modify, Context.modify, Ne.symm h]

end Build

/-- What is added to a state and what is kept of it: ids get new tensors, each its own, and the
tensors of `keep` stay as they are. -/
structure Grows (keep : ℕ → Prop) (b b' : Build) : Prop where
  lookup {id : UInt64} {p : ℕ} (h : b.map.lookup id = some p) : b'.map.lookup id = some p
  fresh {id : UInt64} {p : ℕ} (h : b'.map.lookup id = some p) (hnew : b.map.lookup id = none) :
    b.length ≤ p ∧ p < b'.length
  inj {id id' : UInt64} {p : ℕ} (h : b'.map.lookup id = some p) (h' : b'.map.lookup id' = some p)
    (hnew : b.map.lookup id = none) (hnew' : b.map.lookup id' = none) : id = id'
  tensors {q : ℕ} (hq : q < b.length) (hkeep : keep q) : b'.ctx.tensors[q]? = b.ctx.tensors[q]?
  length : b.length ≤ b'.length
  capacity : b'.ctx.capacity = b.ctx.capacity
  room (h : b.length ≤ b.ctx.capacity) : b'.length ≤ b'.ctx.capacity

namespace Grows

variable {keep keep' : ℕ → Prop} {b b' b'' : Build}

lemma refl (keep : ℕ → Prop) (b : Build) : Grows keep b b where
  lookup h := h
  fresh h hnew := by simp [hnew] at h
  inj h h' hnew _ := by simp [hnew] at h
  tensors _ _ := rfl
  length := Nat.le_refl _
  capacity := rfl
  room h := h

lemma weaken (h : Grows keep b b') (himp : ∀ q, keep' q → keep q) : Grows keep' b b' where
  lookup := h.lookup
  fresh := h.fresh
  inj := h.inj
  tensors hq hkeep := h.tensors hq (himp _ hkeep)
  length := h.length
  capacity := h.capacity
  room := h.room

/-- An id that is new is new in the first part or in the second. -/
lemma new_cases (h : Grows keep b b') (id : UInt64) (hnew : b.map.lookup id = none) :
    b'.map.lookup id = none ∨ ∃ q, b'.map.lookup id = some q ∧ b.length ≤ q ∧ q < b'.length := by
  cases hq : b'.map.lookup id with
  | none => exact Or.inl rfl
  | some q => exact Or.inr ⟨q, rfl, h.fresh hq hnew⟩

lemma trans (h : Grows keep b b') (h' : Grows keep b' b'') : Grows keep b b'' where
  lookup hp := h'.lookup (h.lookup hp)
  fresh hp hnew := by
    have hlen := h.length
    have hlen' := h'.length
    rcases h.new_cases _ hnew with hnone | ⟨q, hq, hlo, hhi⟩
    · obtain ⟨hlo, hhi⟩ := h'.fresh hp hnone
      exact ⟨by omega, hhi⟩
    · cases (h'.lookup hq).symm.trans hp
      exact ⟨hlo, by omega⟩
  inj := by
    intro id id' p hp hp' hnew hnew'
    rcases h.new_cases _ hnew with hnone | ⟨q, hq, -, hhi⟩ <;>
      rcases h.new_cases _ hnew' with hnone' | ⟨q', hq', -, hhi'⟩
    · exact h'.inj hp hp' hnone hnone'
    · -- one pointer is below the tensors of the first part, the other is not
      cases (h'.lookup hq').symm.trans hp'
      have hlo := (h'.fresh hp hnone).1
      omega
    · cases (h'.lookup hq).symm.trans hp
      have hlo := (h'.fresh hp' hnone').1
      omega
    · cases (h'.lookup hq).symm.trans hp
      cases (h'.lookup hq').symm.trans hp'
      exact h.inj hq hq' hnew hnew'
  tensors hq hkeep := by
    rw [h'.tensors (Nat.lt_of_lt_of_le hq h.length) hkeep, h.tensors hq hkeep]
  length := h.length.trans h'.length
  capacity := h'.capacity.trans h.capacity
  room hroom := h'.room (h.room hroom)

lemma modify (b : Build) (p : ℕ) (f : GgmlTensor Buffer ℕ → GgmlTensor Buffer ℕ) :
    Grows (· ≠ p) b (b.modify p f) where
  lookup h := h
  fresh h hnew := by simp [hnew] at h
  inj h h' hnew _ := by simp [hnew] at h
  tensors _ hkeep := b.tensors_modify_of_ne f hkeep
  length := (b.length_modify p f).ge
  capacity := rfl
  room h := (b.length_modify p f).trans_le h

end Grows

/-! ## Linked tensors -/

/-- A reference of a tensor is the tensor of the id in its record. -/
def Build.Resolves (b : Build) (t : RpcTensor) (r : GgmlTensor Buffer ℕ) (s : Slot) : Prop :=
  if t.ref s = 0 then r.ref s = none
  else ∃ q, r.ref s = some q ∧ b.map.lookup (t.ref s) = some q

variable {buffers : List Buffer} {recs : List RpcTensor}

/-- The tensor of an id is made from the record with this id, and its references are resolved. -/
def Linked (buffers : List Buffer) (recs : List RpcTensor) (b : Build) (id : UInt64) (p : ℕ) :
    Prop :=
  ∃ t r, recs.find? (fun t => t.id = id) = some t ∧ b.ctx.tensors[p]? = some r ∧
    MadeFrom buffers t r ∧ r.viewOffs = t.viewOffs ∧ ∀ s, b.Resolves t r s

/-- The tensors that are new are linked. -/
def NewLinked (buffers : List Buffer) (recs : List RpcTensor) (b b' : Build) : Prop :=
  ∀ id p, b'.map.lookup id = some p → b.map.lookup id = none → Linked buffers recs b' id p

lemma Grows.resolves (h : Grows keep b b') {s : Slot} (hr : b.Resolves t r s) :
    b'.Resolves t r s := by
  unfold Build.Resolves at hr ⊢
  split at hr
  · rename_i hzero
    rwa [if_pos hzero]
  · rename_i hzero
    obtain ⟨q, hq, hlookup⟩ := hr
    rw [if_neg hzero]
    exact ⟨q, hq, h.lookup hlookup⟩

/-- A linked tensor that is kept stays linked. -/
lemma Linked.mono (hl : Linked buffers recs b id p) (h : Grows keep b b') (hp : p < b.length)
    (hkeep : keep p) : Linked buffers recs b' id p := by
  obtain ⟨t, r, ht, hr, hmade, hoffs, hrefs⟩ := hl
  exact ⟨t, r, ht, (h.tensors hp hkeep).trans hr, hmade, hoffs, fun s => h.resolves (hrefs s)⟩

/-- New tensors of two parts are linked, if the second part keeps those of the first. -/
lemma NewLinked.trans {b'' : Build} (h : Grows keep b b') (h' : Grows keep b' b'')
    (hl : NewLinked buffers recs b b') (hl' : NewLinked buffers recs b' b'')
    (hkeep : ∀ q, b.length ≤ q → keep q) : NewLinked buffers recs b b'' := by
  intro id p hp hnew
  rcases h.new_cases id hnew with hnone | ⟨q, hq, hlo, hhi⟩
  · exact hl' id p hp hnone
  · cases (h'.lookup hq).symm.trans hp
    exact (hl id _ hq hnew).mono h' hhi (hkeep _ hlo)

/-- What is asked of the function that makes a tensor. -/
def Creates (buffers : List Buffer) (recs : List RpcTensor)
    (create : UInt64 → Build → Outcome (Option ℕ × Build)) : Prop :=
  ∀ id b o b', create id b = .ok (o, b') → Grows (fun _ => True) b b' ∧
    ∀ q, o = some q → b'.map.lookup id = some q ∧ NewLinked buffers recs b b'

lemma newLinked_refl (b : Build) : NewLinked buffers recs b b := by
  intro id q hq hnew
  simp [hnew] at hq

/-- The references in `slots` of tensor `p` are resolved, the others are left. -/
def LinksSlots (t : RpcTensor) (p : ℕ) (slots : List Slot) (r : GgmlTensor Buffer ℕ)
    (b' : Build) : Prop :=
  ∃ src viewSrc, b'.ctx.tensors[p]? = some (r.withRefs src viewSrc) ∧
    (∀ s ∈ slots, b'.Resolves t (r.withRefs src viewSrc) s) ∧
    ∀ s ∉ slots, (r.withRefs src viewSrc).ref s = r.ref s

/-- One more reference is resolved before the others. -/
lemma LinksSlots.cons {t : RpcTensor} {p : ℕ} {s : Slot} {slots : List Slot}
    {r : GgmlTensor Buffer ℕ} {o : Option ℕ} {b' : Build} (hs : s ∉ slots)
    (h : LinksSlots t p slots (r.setRef s o) b') (ho : b'.Resolves t (r.setRef s o) s) :
    LinksSlots t p (s :: slots) r b' := by
  obtain ⟨src, viewSrc, hr, hin, hout⟩ := h
  have hrefs : (r.setRef s o).withRefs src viewSrc = r.withRefs src viewSrc := by
    cases s <;> rfl
  rw [hrefs] at hr hin hout
  refine ⟨src, viewSrc, hr, ?_, ?_⟩
  · intro s' hs'
    rcases mem_cons.mp hs' with rfl | hs'
    · unfold Build.Resolves at ho ⊢
      rwa [hout s' hs]
    · exact hin s' hs'
  · intro s' hs'
    rw [mem_cons, not_or] at hs'
    rw [hout s' hs'.2, GgmlTensor.ref_setRef_of_ne r o hs'.1]

/-- **The loop over the references keeps all tensors but one, and links it.** -/
theorem linkAll_spec (hc : Creates buffers recs create) {slots : List Slot} {flag : Bool}
    (hr : b.ctx.tensors[p]? = some r) (hnodup : slots.Nodup)
    (h : linkAll create t p slots b = .ok (flag, b')) :
    Grows (· ≠ p) b b' ∧ (flag = true → NewLinked buffers recs b b' ∧ LinksSlots t p slots r b') := by
  induction slots generalizing b r with
  | nil =>
    cases h
    refine ⟨Grows.refl _ _, fun _ => ⟨newLinked_refl _, r.src, r.viewSrc, hr, ?_, ?_⟩⟩
    · exact fun s hs => absurd hs not_mem_nil
    · exact fun s _ => rfl
  | cons s slots ih =>
    rw [nodup_cons] at hnodup
    rw [linkAll] at h
    split at h
    · -- the null pointer
      rename_i hzero
      have hmod := Grows.modify b p fun r => r.setRef s none
      obtain ⟨hgrows, hlinks⟩ := ih (b.tensors_modify_self _ hr) hnodup.2 h
      refine ⟨hmod.trans hgrows, fun hflag => ?_⟩
      obtain ⟨hnew, hslots⟩ := hlinks hflag
      refine ⟨hnew, hslots.cons hnodup.1 ?_⟩
      rw [Build.Resolves, if_pos hzero, GgmlTensor.ref_setRef_self]
    · rename_i hne
      obtain ⟨made, hmade, h⟩ := Outcome.bind_eq_ok.mp h
      obtain ⟨hcreate, hsome⟩ := hc _ _ made.1 made.2 hmade
      have hp : p < b.length := (List.getElem?_eq_some_iff.mp hr).1
      have hr1 : made.2.ctx.tensors[p]? = some r := (hcreate.tensors hp trivial).trans hr
      have hcreate : Grows (· ≠ p) b made.2 := hcreate.weaken fun _ _ => trivial
      have hmod := Grows.modify made.2 p fun r => r.setRef s made.1
      have hgrown := hcreate.trans hmod
      cases hq : made.1 with
      | none =>
        rw [if_pos hq] at h
        cases h
        exact ⟨hgrown, fun hflag => (by cases hflag)⟩
      | some q =>
        obtain ⟨hlookup, hnew1⟩ := hsome q hq
        rw [if_neg (by rw [hq]; exact Option.some_ne_none q)] at h
        obtain ⟨hgrows, hlinks⟩ := ih (made.2.tensors_modify_self _ hr1) hnodup.2 h
        refine ⟨hgrown.trans hgrows, fun hflag => ?_⟩
        obtain ⟨hnew, hslots⟩ := hlinks hflag
        have hge : ∀ q, b.length ≤ q → q ≠ p := fun q hq => by omega
        refine ⟨NewLinked.trans hcreate (hmod.trans hgrows) hnew1 hnew hge, hslots.cons hnodup.1 ?_⟩
        rw [Build.Resolves, if_neg hne, GgmlTensor.ref_setRef_self]
        exact ⟨q, hq, hgrows.lookup (hmod.lookup hlookup)⟩

/-! ## Making a tensor -/

lemma Slot.nodup_all : Slot.all.Nodup := by decide

/-- A new tensor at the end of the context. -/
lemma grows_push (r : GgmlTensor Buffer ℕ) (hroom : b.length < b.ctx.capacity) :
    Grows (fun _ => True) b
      { b with ctx := { b.ctx with tensors := b.ctx.tensors ++ [r] } } where
  lookup h := h
  fresh h hnew := by simp [hnew] at h
  inj h h' hnew _ := by simp [hnew] at h
  tensors hq _ := getElem?_append_left hq
  length := by simp [Build.length]
  capacity := rfl
  room _ := by simpa [Build.length] using Nat.succ_le_of_lt hroom

/-- A new tensor, which is entered in the map. -/
def Build.enter (b : Build) (id : UInt64) (r : GgmlTensor Buffer ℕ) : Build :=
  { ctx := { b.ctx with tensors := b.ctx.tensors ++ [r] }, map := (id, b.length) :: b.map }

lemma Build.length_enter (b : Build) (id : UInt64) (r : GgmlTensor Buffer ℕ) :
    (b.enter id r).length = b.length + 1 := by
  simp [length, enter]

lemma Build.lookup_enter_self (b : Build) (id : UInt64) (r : GgmlTensor Buffer ℕ) :
    (b.enter id r).map.lookup id = some b.length := by
  simp [enter]

lemma Build.lookup_enter_of_ne {id' : UInt64} (r : GgmlTensor Buffer ℕ) (h : id' ≠ id) :
    (b.enter id r).map.lookup id' = b.map.lookup id' := by
  rw [enter, lookup_cons, beq_false_of_ne h]

lemma grows_enter (r : GgmlTensor Buffer ℕ) (hid : b.map.lookup id = none)
    (hroom : b.length < b.ctx.capacity) :
    Grows (· ≠ b.length) b (b.enter id r) where
  lookup := by
    intro id' p h
    have hne : id' ≠ id := fun hid' => by simp [hid', hid] at h
    rwa [b.lookup_enter_of_ne r hne]
  fresh := by
    intro id' p h hnew
    by_cases heq : id' = id
    · rw [heq, b.lookup_enter_self] at h
      cases h
      rw [b.length_enter]
      exact ⟨Nat.le_refl _, Nat.lt_succ_self _⟩
    · rw [b.lookup_enter_of_ne r heq, hnew] at h
      cases h
  inj := by
    intro id' id'' p h h' hnew hnew'
    by_cases heq : id' = id
    · by_cases heq' : id'' = id
      · rw [heq, heq']
      · rw [b.lookup_enter_of_ne r heq', hnew'] at h'
        cases h'
    · rw [b.lookup_enter_of_ne r heq, hnew] at h
      cases h
  tensors hq _ := getElem?_append_left hq
  length := by
    rw [b.length_enter]
    exact Nat.le_succ _
  capacity := rfl
  room _ := (b.length_enter id r).trans_le hroom

/-- The tensors of a state are all below its length. -/
lemma Grows.all (h : Grows (· ≠ b.length) b b') : Grows (fun _ => True) b b' :=
  { h with tensors := fun hq _ => h.tensors hq (Nat.ne_of_lt hq) }

/-- A tensor whose references are all resolved is linked when the offset of its view is set. -/
lemma linked_of_linksSlots (ht : recs.find? (fun t => t.id = id) = some t)
    (hmade : MadeFrom buffers t r) (h : LinksSlots t p Slot.all r b) :
    Linked buffers recs (b.modify p fun r => { r with viewOffs := t.viewOffs }) id p := by
  obtain ⟨src, viewSrc, hr, hslots, -⟩ := h
  refine ⟨t, _, ht, b.tensors_modify_self _ hr, (hmade.withRefs src viewSrc).withOffs _, rfl, ?_⟩
  intro s
  have hs := hslots s s.mem_all
  cases s <;> exact hs

/-- The tensor that is linked is new, and so are those that were made for its references. -/
lemma newLinked_enter (ht : recs.find? (fun t => t.id = id) = some t)
    (hmade : MadeFrom buffers t r) (hgrows : Grows (· ≠ b.length) (b.enter id r) b')
    (hnew : NewLinked buffers recs (b.enter id r) b')
    (hslots : LinksSlots t b.length Slot.all r b') :
    NewLinked buffers recs b
      (b'.modify b.length fun r => { r with viewOffs := t.viewOffs }) := by
  intro id' p hp hnone
  by_cases heq : id' = id
  · rw [heq] at hp ⊢
    cases (hgrows.lookup (b.lookup_enter_self id r)).symm.trans hp
    exact linked_of_linksSlots ht hmade hslots
  · have hnone' : (b.enter id r).map.lookup id' = none := by rw [b.lookup_enter_of_ne r heq, hnone]
    obtain ⟨hlo, hhi⟩ := hgrows.fresh hp hnone'
    rw [b.length_enter] at hlo
    exact (hnew id' p hp hnone').mono (Grows.modify b' b.length _) hhi (by omega)

/-- **A call adds tensors for new ids, all of them linked when it does not fail.** -/
theorem createNode_spec (fuel : ℕ) : Creates buffers recs (createNode buffers recs fuel) := by
  induction fuel with
  | zero => exact fun id b o b' h => (by cases h)
  | succ fuel ih =>
    intro id b o b' h
    rw [createNode] at h
    cases hid : b.map.lookup id with
    | some p =>
      simp only [hid] at h
      cases h
      exact ⟨Grows.refl _ _, fun q hq => (by cases hq; exact ⟨hid, newLinked_refl _⟩)⟩
    | none =>
      simp only [hid] at h
      cases ht : recs.find? fun t => t.id = id with
      | none =>
        simp only [ht] at h
        cases h
        exact ⟨Grows.refl _ _, fun q hq => (by cases hq)⟩
      | some t =>
        simp only [ht] at h
        obtain ⟨result, hresult, h⟩ := Outcome.bind_eq_ok.mp h
        cases result with
        | none =>
          cases h
          exact ⟨Grows.refl _ _, fun q hq => (by cases hq)⟩
        | some r =>
          obtain ⟨new, hnew, h⟩ := Outcome.bind_eq_ok.mp h
          obtain ⟨hroom, rfl⟩ := Context.newTensor_eq_ok hnew
          split at h
          · cases h
            exact ⟨grows_push r hroom, fun q hq => (by cases hq)⟩
          · rename_i hdata
            obtain ⟨linked, hlinked, h⟩ := Outcome.bind_eq_ok.mp h
            obtain ⟨type, htype, hblck, rfl, hchecked⟩ := deserializeTensor_eq_some hresult
            have hmade : MadeFrom buffers t (t.tensor type buffers) :=
              ⟨type, htype, hblck, hchecked, hdata, rfl⟩
            have henter := grows_enter (t.tensor type buffers) hid hroom
            have hr : (b.enter id (t.tensor type buffers)).ctx.tensors[b.length]? =
                some (t.tensor type buffers) := getElem?_concat_length
            obtain ⟨hgrows, hlinks⟩ := linkAll_spec ih hr Slot.nodup_all hlinked
            split at h
            · rename_i hflag
              cases h
              obtain ⟨hnewLinked, hslots⟩ := hlinks hflag
              have hmod := Grows.modify linked.2 b.length fun r =>
                { r with viewOffs := t.viewOffs }
              refine ⟨((henter.trans hgrows).trans hmod).all, fun q hq => ?_⟩
              cases hq
              exact ⟨hgrows.lookup (b.lookup_enter_self id _),
                newLinked_enter ht hmade hgrows hnewLinked hslots⟩
            · cases h
              exact ⟨(henter.trans hgrows).all, fun q hq => (by cases hq)⟩

/-- The number of records whose id is not in the map. -/
def Build.unmapped (recs : List RpcTensor) (b : Build) : ℕ :=
  (recs.filter fun t => (b.map.lookup t.id).isNone).length

lemma Grows.unmapped_le (h : Grows keep b b') (recs : List RpcTensor) :
    b'.unmapped recs ≤ b.unmapped recs := by
  refine (monotone_filter_right recs fun t ht => ?_).length_le
  cases hb : b.map.lookup t.id with
  | none => rfl
  | some p =>
    rw [h.lookup hb] at ht
    cases ht

/-- An id that has a record and is entered in the map. -/
lemma unmapped_enter_lt (r : GgmlTensor Buffer ℕ)
    (ht : recs.find? (fun t => t.id = id) = some t) (hid : b.map.lookup id = none) :
    (b.enter id r).unmapped recs < b.unmapped recs := by
  have hmem : t ∈ recs.filter fun t => (b.map.lookup t.id).isNone := by
    rw [mem_filter]
    refine ⟨mem_of_find?_eq_some ht, ?_⟩
    have heq : t.id = id := by simpa using find?_some ht
    rw [heq, hid]
    rfl
  have hfilter : recs.filter (fun t => ((b.enter id r).map.lookup t.id).isNone) =
      (recs.filter fun t => (b.map.lookup t.id).isNone).filter
        fun t => ((b.enter id r).map.lookup t.id).isNone := by
    rw [filter_filter]
    refine filter_congr fun t _ => ?_
    by_cases heq : t.id = id
    · rw [heq, b.lookup_enter_self]
      rfl
    · rw [b.lookup_enter_of_ne r heq, Bool.and_self]
  rw [Build.unmapped, hfilter]
  refine length_filter_lt_length_iff_exists.mpr ⟨t, hmem, ?_⟩
  have heq : t.id = id := by simpa using find?_some ht
  rw [heq, b.lookup_enter_self]
  exact Bool.false_ne_true

lemma linkAll_safe {n : ℕ} (hc : Creates buffers recs create)
    (hsafe : ∀ id b, b.unmapped recs < n → (create id b).Safe) (t : RpcTensor) (p : ℕ)
    {slots : List Slot} (hn : b.unmapped recs < n) : (linkAll create t p slots b).Safe := by
  induction slots generalizing b with
  | nil => trivial
  | cons s slots ih =>
    rw [linkAll]
    split
    · exact ih hn
    · refine (hsafe _ b hn).bind fun made hmade => ?_
      have hle := (hc _ _ made.1 made.2 hmade).1.unmapped_le recs
      split
      · trivial
      · exact ih (Nat.lt_of_le_of_lt hle hn)

/-- **A call with fuel for the records that are not in the map comes to an end.** -/
theorem createNode_safe {fuel : ℕ} (id : UInt64) (h : b.unmapped recs < fuel) :
    (createNode buffers recs fuel id b).Safe := by
  induction fuel generalizing id b with
  | zero => exact absurd h (Nat.not_lt_zero _)
  | succ fuel ih =>
    rw [createNode]
    cases hid : b.map.lookup id with
    | some p => trivial
    | none =>
      cases ht : recs.find? fun t => t.id = id with
      | none => trivial
      | some t =>
        refine (safe_deserializeTensor buffers t).bind fun result _ => ?_
        cases result with
        | none => trivial
        | some r =>
          refine (Context.safe_newTensor b.ctx r).bind fun new hnew => ?_
          obtain ⟨-, rfl⟩ := Context.newTensor_eq_ok hnew
          split
          · trivial
          · have hlt := unmapped_enter_lt r ht hid
            have hlink : (linkAll (createNode buffers recs fuel) t b.length Slot.all
                (b.enter id r)).Safe :=
              linkAll_safe (createNode_spec fuel) (fun id b h => ih id h) t _ (by omega)
            refine hlink.bind fun linked _ => ?_
            split <;> trivial

/-! ## Calls that do not fail -/

/-- A record describes a tensor that may be in a graph: its type is known, and its data is in a
buffer of the server or null. -/
def RpcTensor.Readable (buffers : List Buffer) (t : RpcTensor) : Prop :=
  ∃ type : GgmlType, t.type.toNat = type ∧ type.blckSize ≠ 0 ∧
    ¬((∀ b ∈ buffers, b.ptr ≠ t.buffer) ∧ t.data ≠ 0)

/-- The ids of a set have readable records, whose references are zero or in the set. -/
def Closed (buffers : List Buffer) (recs : List RpcTensor) (ids : Set UInt64) : Prop :=
  ∀ id ∈ ids, ∃ t, recs.find? (fun t => t.id = id) = some t ∧ t.Readable buffers ∧
    ∀ s, t.ref s ≠ 0 → t.ref s ∈ ids

/-- Everything that is reached from an id has a readable record. -/
def Resolvable (buffers : List Buffer) (recs : List RpcTensor) (id : UInt64) : Prop :=
  ∃ ids, Closed buffers recs ids ∧ id ∈ ids

lemma RpcTensor.Readable.deserializeTensor_ne_none (h : t.Readable buffers) :
    deserializeTensor buffers t ≠ .ok none := by
  obtain ⟨type, htype, hblck, -⟩ := h
  have hlt : t.type.toNat < ggmlTypeCount := htype ▸ type.isLt
  have heq : (⟨t.type.toNat, hlt⟩ : GgmlType) = type := Fin.ext htype
  intro hnone
  rw [deserializeTensor, dif_pos hlt, heq, if_neg hblck] at hnone
  obtain ⟨-, h⟩ := Outcome.require_bind_eq_ok.mp hnone
  cases h

lemma linkAll_ne_false {ids : Set UInt64}
    (hc : ∀ id ∈ ids, ∀ b o b', create id b = .ok (o, b') → o ≠ none) {slots : List Slot}
    {flag : Bool} (hrefs : ∀ s, t.ref s ≠ 0 → t.ref s ∈ ids)
    (h : linkAll create t p slots b = .ok (flag, b')) : flag = true := by
  induction slots generalizing b with
  | nil =>
    cases h
    rfl
  | cons s slots ih =>
    rw [linkAll] at h
    split at h
    · exact ih h
    · rename_i hne
      obtain ⟨made, hmade, h⟩ := Outcome.bind_eq_ok.mp h
      rw [if_neg (hc _ (hrefs s hne) _ made.1 made.2 hmade)] at h
      exact ih h

/-- **A call for an id from which only readable records are reached does not fail.** -/
theorem createNode_ne_none {ids : Set UInt64} (hclosed : Closed buffers recs ids) {fuel : ℕ}
    (hid : id ∈ ids) {o : Option ℕ} (h : createNode buffers recs fuel id b = .ok (o, b')) :
    o ≠ none := by
  induction fuel generalizing id b o b' with
  | zero => cases h
  | succ fuel ih =>
    obtain ⟨t, ht, hread, hrefs⟩ := hclosed id hid
    rw [createNode] at h
    cases hlookup : b.map.lookup id with
    | some p =>
      simp only [hlookup] at h
      cases h
      exact Option.some_ne_none p
    | none =>
      simp only [hlookup, ht] at h
      obtain ⟨result, hresult, h⟩ := Outcome.bind_eq_ok.mp h
      cases result with
      | none => exact absurd hresult hread.deserializeTensor_ne_none
      | some r =>
        obtain ⟨new, hnew, h⟩ := Outcome.bind_eq_ok.mp h
        obtain ⟨type, -, -, rfl, -⟩ := deserializeTensor_eq_some hresult
        have hdata : ¬((t.tensor type buffers).buffer = none ∧
            (t.tensor type buffers).data ≠ 0) := by
          obtain ⟨-, -, -, hbuffer⟩ := hread
          refine fun hnone => hbuffer ⟨fun b hb => ?_, hnone.2⟩
          simpa using find?_eq_none.mp hnone.1 b hb
        rw [if_neg hdata] at h
        obtain ⟨linked, hlinked, h⟩ := Outcome.bind_eq_ok.mp h
        have hflag := linkAll_ne_false (fun id hid b o b' h => ih hid h) hrefs hlinked
        rw [if_pos hflag] at h
        cases h
        exact Option.some_ne_none _

end Llama.Rpc
