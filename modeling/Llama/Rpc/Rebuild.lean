import Llama.Rpc.Nodes

/-!
# Messages from which a graph is made

A message whose records are all readable and pass the assertions, and whose nodes are distinct, is
not refused.  There is memory for a tensor for each record that is not yet in the map, and an empty
slot in the visited set for each node that is not yet added; no call takes more than that.
-/

namespace Llama.Rpc

open List Layout UInt32

variable {hash : ℕ → ℕ} {buffers : List Buffer} {recs : List RpcTensor}

namespace Outcome

variable {α β : Type}

/-- The handler returns something with the property. -/
def Returns (x : Outcome α) (P : α → Prop) : Prop := ∃ a, x = ok a ∧ P a

lemma returns_ok {P : α → Prop} {a : α} (h : P a) : (ok a).Returns P := ⟨a, rfl, h⟩

lemma Returns.bind {x : Outcome α} {f : α → Outcome β} {P : α → Prop} {Q : β → Prop}
    (h : x.Returns P) (hf : ∀ a, x = ok a → P a → (f a).Returns Q) : (x >>= f).Returns Q := by
  obtain ⟨a, rfl, ha⟩ := h
  exact hf a rfl ha

end Outcome

/-! ## Making nodes -/

/-- There is memory for the records that are not in the map. -/
def Build.Room (recs : List RpcTensor) (b : Build) : Prop :=
  b.length + b.unmapped recs ≤ b.ctx.capacity

lemma Build.Room.modify {b : Build} (h : b.Room recs) (p : ℕ)
    (f : GgmlTensor Buffer ℕ → GgmlTensor Buffer ℕ) : (b.modify p f).Room recs := by
  rw [Room, length_modify]
  exact h

/-- The assertions on a record hold. -/
def RpcTensor.Passes (buffers : List Buffer) (t : RpcTensor) : Prop :=
  ∀ type : GgmlType, t.type.toNat = type → (t.tensor type buffers).Checked

lemma RpcTensor.Readable.deserializeTensor_eq {t : RpcTensor} (h : t.Readable buffers)
    (hpass : t.Passes buffers) :
    ∃ type : GgmlType, deserializeTensor buffers t = .ok (some (t.tensor type buffers)) ∧
      ¬((t.tensor type buffers).buffer = none ∧ (t.tensor type buffers).data ≠ 0) := by
  obtain ⟨type, htype, hblck, hbuffer⟩ := h
  have hlt : t.type.toNat < ggmlTypeCount := htype ▸ type.isLt
  have heq : (⟨t.type.toNat, hlt⟩ : GgmlType) = type := Fin.ext htype
  refine ⟨type, ?_, fun hnone => hbuffer ⟨fun b hb => ?_, hnone.2⟩⟩
  · have hrequire : Outcome.require (t.tensor type buffers).Checked = .ok () :=
      if_pos (hpass type htype)
    rw [deserializeTensor, dif_pos hlt, heq, if_neg hblck]
    simp only [hrequire]
    rfl
  · simpa using find?_eq_none.mp hnone.1 b hb

/-- A call makes a tensor, and leaves memory for the other records. -/
def Makes (recs : List RpcTensor) (o : Outcome (Option ℕ × Build)) : Prop :=
  o.Returns fun made => made.1 ≠ none ∧ made.2.Room recs

lemma linkAll_returns {create : UInt64 → Build → Outcome (Option ℕ × Build)} {n : ℕ}
    {ids : Set UInt64} (hc : Creates buffers recs create)
    (hmakes : ∀ id ∈ ids, ∀ b : Build, b.Room recs → b.unmapped recs < n → Makes recs (create id b))
    {t : RpcTensor} (hrefs : ∀ s, t.ref s ≠ 0 → t.ref s ∈ ids) (p : ℕ) {slots : List Slot}
    {b : Build} (hroom : b.Room recs) (hn : b.unmapped recs < n) :
    (linkAll create t p slots b).Returns fun linked => linked.1 = true ∧ linked.2.Room recs := by
  induction slots generalizing b with
  | nil => exact Outcome.returns_ok ⟨rfl, hroom⟩
  | cons s slots ih =>
    rw [linkAll]
    split
    · exact ih (hroom.modify p _) hn
    · rename_i hne
      refine (hmakes _ (hrefs s hne) b hroom hn).bind fun made hmade hgood => ?_
      have hle := (hc _ _ made.1 made.2 hmade).1.unmapped_le recs
      rw [if_neg hgood.1]
      exact ih (hgood.2.modify p _) (Nat.lt_of_le_of_lt hle hn)

/-- **A call for an id from which only good records are reached makes a tensor.** -/
theorem createNode_returns {ids : Set UInt64} (hclosed : Closed buffers recs ids)
    (hpass : ∀ t ∈ recs, t.Passes buffers) {fuel : ℕ} {id : UInt64} (hid : id ∈ ids) {b : Build}
    (hroom : b.Room recs) (hfuel : b.unmapped recs < fuel) :
    Makes recs (createNode buffers recs fuel id b) := by
  induction fuel generalizing id b with
  | zero => exact absurd hfuel (Nat.not_lt_zero _)
  | succ fuel ih =>
    obtain ⟨t, ht, hread, hrefs⟩ := hclosed id hid
    rw [createNode]
    cases hlookup : b.map.lookup id with
    | some p => exact Outcome.returns_ok ⟨Option.some_ne_none p, hroom⟩
    | none =>
      obtain ⟨type, hresult, hdata⟩ :=
        hread.deserializeTensor_eq (hpass t (mem_of_find?_eq_some ht))
      have hlt := unmapped_enter_lt (t.tensor type buffers) ht hlookup
      have henter : (b.enter id (t.tensor type buffers)).Room recs := by
        have hcapacity : (b.enter id (t.tensor type buffers)).ctx.capacity = b.ctx.capacity := rfl
        rw [Build.Room] at hroom ⊢
        rw [b.length_enter]
        omega
      have hnew : b.ctx.newTensor (t.tensor type buffers) = .ok (b.length,
          { b.ctx with tensors := b.ctx.tensors ++ [t.tensor type buffers] }) := by
        have hlength : b.ctx.tensors.length < b.ctx.capacity := by
          change b.length < _
          rw [Build.Room] at hroom
          omega
        rw [Context.newTensor, Outcome.require, if_pos hlength]
        rfl
      simp only [ht, hresult, Outcome.ok_bind, hnew, if_neg hdata]
      have hlinked : (linkAll (createNode buffers recs fuel) t b.length Slot.all
          (b.enter id (t.tensor type buffers))).Returns fun linked =>
            linked.1 = true ∧ linked.2.Room recs :=
        linkAll_returns (createNode_spec fuel) (fun id hid b hroom hn => ih hid hroom hn) hrefs
          b.length henter (by omega)
      refine hlinked.bind fun linked _ hgood => ?_
      rw [if_pos hgood.1]
      exact Outcome.returns_ok ⟨Option.some_ne_none _, hgood.2.modify _ _⟩

/-- A key that is not in the visited set is inserted when a slot is empty. -/
lemma insert_returns {g : Cgraph ℕ} {p : ℕ} (hp : some p ∉ g.visited)
    (hsizes : g.useCounts.length = g.visited.length) (hnone : none ∈ g.visited) (count : Int32) :
    ∃ i, Probing.find g.visited (hash p) p = some i ∧ g.visited[i]? = some none ∧
      (g.hashInsert hash p >>= fun inserted => inserted.2.setUseCount inserted.1 count) =
        .ok { g with visited := g.visited.set i (some p), useCounts := g.useCounts.set i count } := by
  cases hfind : Probing.find g.visited (hash p) p with
  | none => exact absurd hfind (Probing.find_ne_none hnone)
  | some i =>
    exact ⟨i, rfl, insert_eq hp hsizes count hfind⟩

/-- An insertion fills one empty slot. -/
lemma count_none_set {slots : List (Option ℕ)} {i : ℕ} (h : slots[i]? = some none) (p : ℕ) :
    (slots.set i (some p)).count none + 1 = slots.count none := by
  obtain ⟨hi, hslot⟩ := List.getElem?_eq_some_iff.mp h
  have hpos : 0 < slots.count none := List.count_pos_iff.mpr (mem_of_getElem? h)
  have hcount := count_set (a := some p) (b := none) hi
  rw [hslot] at hcount
  simp only [if_true, reduceCtorEq, beq_iff_eq, if_false] at hcount
  omega

/-- **The loop adds all nodes.** -/
theorem addNodes_returns {ids : Set UInt64} (hclosed : Closed buffers recs ids)
    (hpass : ∀ t ∈ recs, t.Passes buffers) {capacity : ℕ} {done nodes : List UInt64} {b : Build}
    {g : Cgraph ℕ} (h : Added hash buffers recs capacity done b g)
    (hnodes : ∀ id ∈ nodes, id ∈ ids) (hnodup : (done ++ nodes).Nodup) (hroom : b.Room recs)
    (hfree : nodes.length ≤ g.visited.count none) :
    (addNodes hash buffers recs nodes b g).Returns fun r =>
      Added hash buffers recs capacity (done ++ nodes) r.1 r.2 := by
  induction nodes generalizing done b g with
  | nil =>
    rw [append_nil]
    exact Outcome.returns_ok h
  | cons id nodes ih =>
    have hid := hnodes id mem_cons_self
    have hfuel : b.unmapped recs < recs.length + 1 :=
      Nat.lt_succ_of_le (length_filter_le _ _)
    refine (createNode_returns hclosed hpass hid hroom hfuel).bind fun made hmade hgood => ?_
    obtain ⟨hgrows, hsome⟩ := createNode_spec _ id b made.1 made.2 hmade
    obtain ⟨p, hp⟩ := Option.ne_none_iff_exists'.mp hgood.1
    obtain ⟨hlookup, hnew⟩ := hsome p hp
    obtain ⟨t, ht, -, -⟩ := hclosed id hid
    have hdone : id ∉ done := fun hmem =>
      (nodup_append.mp hnodup).2.2 id hmem id mem_cons_self rfl
    have hkey := h.notMem_visited hdone hgrows hlookup
    have hnone : none ∈ g.visited := by
      rw [length_cons] at hfree
      exact List.count_pos_iff.mp (by omega)
    obtain ⟨i, hfind, hslot, hinsert⟩ := @insert_returns hash
      { g with nodes := g.nodes ++ [some p] } p hkey h.sizes hnone t.useCount
    have hadded := h.push hgrows hnew hlookup hfind hslot ht
    simp only [hp, ht]
    rw [← bind_assoc, hinsert, append_cons done id nodes]
    refine ih hadded (fun id hid => hnodes id (mem_cons_of_mem _ hid))
      (by rwa [← append_cons]) hgood.2 ?_
    have hcount := count_none_set hslot p
    rw [length_cons] at hfree
    change nodes.length ≤ (g.visited.set i (some p)).count none
    change (g.visited.set i (some p)).count none + 1 = g.visited.count none at hcount
    omega

/-! ## The message -/

lemma le_getD_find (l : List ℕ) {n d : ℕ} (hd : n ≤ d) : n ≤ (l.find? fun p => n ≤ p).getD d := by
  cases h : l.find? fun p => n ≤ p with
  | none => exact hd
  | some p => simpa using find?_some h

/-- The visited set has at least the slots that are asked for. -/
lemma le_ggmlHashSize (n : ℕ) : n ≤ ggmlHashSize n := le_getD_find _ Nat.left_le_or

lemma readAt_encode {α : Type} {l : Layout α} {input pre post : List UInt8} {a : α} {off : ℕ}
    (h : input = pre ++ (l.encode a ++ post)) (hoff : off = pre.length) :
    readAt l input off = .ok a := by
  have hlen : off + l.width ≤ input.length := by
    rw [h, length_append, length_append, l.length_encode]
    omega
  rw [readAt_eq_ok hlen, h, hoff, drop_left, take_left' (l.length_encode a), l.decode_encode]

lemma mapM_eq_ok {α β : Type} {f : α → Outcome β} {g : α → β} {l : List α}
    (h : ∀ a ∈ l, f a = .ok (g a)) : l.mapM f = .ok (l.map g) := by
  induction l with
  | nil => rfl
  | cons a l ih =>
    rw [mapM_cons, h a mem_cons_self, ih fun a ha => h a (mem_cons_of_mem _ ha)]
    rfl

lemma readMany_many {α : Type} {l : Layout α} {input pre post : List UInt8} {as : List α}
    {off : ℕ} (h : input = pre ++ (l.many as ++ post)) (hoff : off = pre.length) :
    readMany l input off as.length = .ok as := by
  have hread : ∀ i ∈ range as.length, readAt l input (off + i * l.width) =
      .ok (l.nth (l.many as ++ post) i) := by
    intro i hi
    have hle : (i + 1) * l.width ≤ as.length * l.width :=
      Nat.mul_le_mul_right _ (mem_range.mp hi)
    rw [Nat.succ_mul] at hle
    have hlen : off + i * l.width + l.width ≤ input.length := by
      rw [h, length_append, length_append, l.length_many]
      omega
    rw [readAt_eq_ok hlen, nth, h, hoff, ← drop_drop, drop_left]
  rw [readMany, mapM_eq_ok hread]
  refine congrArg Outcome.ok (ext_getElem (by simp) fun i hi hi' => ?_)
  rw [getElem_map, getElem_range, l.nth_many as post hi']

lemma length_graphBytes (device : UInt32) (nodes : List UInt64) (recs : List RpcTensor) :
    (graphBytes device nodes recs).length = 12 + nodes.length * 8 + recs.length * 296 := by
  have h32 : u32.width = 4 := rfl
  have h64 : u64.width = 8 := rfl
  simp only [graphBytes, length_append, Layout.length_encode, length_many, h32, h64,
    width_rpcTensor]
  omega

/-- **What was written into a message is read from it.** -/
theorem parseGraph_graphBytes {nBackends : ℕ} {device : UInt32} (hdevice : device.toNat < nBackends)
    {nodes : List UInt64} (hnodes : nodes.length < 2 ^ 32) (hrecs : recs.length < 2 ^ 32) :
    parseGraph nBackends (graphBytes device nodes recs) =
      .ok { device := device, nodes := nodes, tensors := recs } := by
  have h32 : u32.width = 4 := rfl
  have hlen := length_graphBytes device nodes recs
  -- the places of the five parts
  have hpre : (u32.encode device ++ u32.encode (ofNat nodes.length)).length =
      8 := by
    rw [length_append, Layout.length_encode, Layout.length_encode, h32]
  have hpre' : (u32.encode device ++ u32.encode (ofNat nodes.length) ++
      u64.many nodes).length = 8 + nodes.length * 8 := by
    rw [length_append, length_many]
    rfl
  have hpre'' : (u32.encode device ++ u32.encode (ofNat nodes.length) ++
      u64.many nodes ++ u32.encode (ofNat recs.length)).length =
        8 + nodes.length * 8 + 4 := by
    rw [length_append, hpre', Layout.length_encode, h32]
  have hsplit : graphBytes device nodes recs =
      (u32.encode device ++ u32.encode (ofNat nodes.length)) ++
        (u64.many nodes ++
          (u32.encode (ofNat recs.length) ++ rpcTensor.many recs)) := by
    simp only [graphBytes, append_assoc]
  have hsplit' : graphBytes device nodes recs =
      (u32.encode device ++ u32.encode (ofNat nodes.length) ++
        u64.many nodes) ++
          (u32.encode (ofNat recs.length) ++ rpcTensor.many recs) := by
    simp only [graphBytes, append_assoc]
  have hsplit'' : graphBytes device nodes recs =
      (u32.encode device ++ u32.encode (ofNat nodes.length) ++
        u64.many nodes ++ u32.encode (ofNat recs.length)) ++
          (rpcTensor.many recs ++ []) := by
    simp only [graphBytes, append_assoc, append_nil]
  have hnNodes : (ofNat nodes.length).toNat = nodes.length := UInt32.toNat_ofNat_of_lt' hnodes
  have hnRecs : (ofNat recs.length).toNat = recs.length := UInt32.toNat_ofNat_of_lt' hrecs
  have hreadDevice : readAt u32 (graphBytes device nodes recs) 0 = .ok device :=
    readAt_encode (nil_append _).symm rfl
  have hreadNodes : readAt u32 (graphBytes device nodes recs) 4 =
      .ok (ofNat nodes.length) :=
    readAt_encode rfl (u32.length_encode device).symm
  have hreadRecs : readAt u32 (graphBytes device nodes recs) (8 + nodes.length * 8) =
      .ok (ofNat recs.length) :=
    readAt_encode hsplit' hpre'.symm
  have hrecords : readMany rpcTensor (graphBytes device nodes recs) (8 + nodes.length * 8 + 4)
      recs.length = .ok recs :=
    readMany_many hsplit'' hpre''.symm
  have hids : readMany u64 (graphBytes device nodes recs) 8 nodes.length = .ok nodes :=
    readMany_many hsplit hpre.symm
  have hpass : ∀ {c : Prop} [Decidable c], ¬c → Outcome.refuseIf c = .ok () := fun h => if_neg h
  rw [parseGraph, hpass (c := (graphBytes device nodes recs).length < 8) (by omega),
    Outcome.ok_bind, hreadDevice, Outcome.ok_bind, hpass (c := nBackends ≤ device.toNat) (by omega),
    Outcome.ok_bind, hreadNodes, Outcome.ok_bind, hnNodes,
    hpass (c := (graphBytes device nodes recs).length < 8 + nodes.length * 8 + 4) (by omega),
    Outcome.ok_bind, hreadRecs, Outcome.ok_bind, hnRecs,
    hpass (c := (graphBytes device nodes recs).length <
      8 + nodes.length * 8 + 4 + recs.length * 296) (by omega),
    Outcome.ok_bind, hrecords, Outcome.ok_bind, hids]
  rfl

end Llama.Rpc
