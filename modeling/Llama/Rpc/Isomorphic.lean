import Llama.Rpc.Flatten
import Llama.Rpc.GraphRuns
import Llama.Rpc.Rebuild

/-!
# The graph of the server is that of the client

The server makes one tensor for each that is reached from the client's nodes, with the same data
and with references to the tensors of the same ids.  What a record does not carry is lost: the upper
halves of dimensions and strides, and, as the server enters only nodes in its visited set, the use
counts of the other tensors.
-/

namespace Llama.Rpc

open ClientGraph Address UInt32 Build
open List hiding Vector

variable {hash : Address → ℕ} {hash' : ℕ → ℕ} {c : ClientGraph}

/-- A tensor has the data of another one, with references that are moved by `f`. -/
structure SameTensor {β β' π π' : Type} (f : π → π') (t : GgmlTensor β π) (r : GgmlTensor β' π') :
    Prop where
  type : r.type = t.type
  ne : r.ne = t.ne
  nb : r.nb = t.nb
  op : r.op = t.op
  opParams : r.opParams = t.opParams
  flags : r.flags = t.flags
  data : r.data = t.data
  viewOffs : r.viewOffs = t.viewOffs
  refs : ∀ s, r.ref s = (t.ref s).map f

/-- The graph of the server is that of the client, where `f` gives the tensor of the server. -/
structure Isomorphic (hash : Address → ℕ) (hash' : ℕ → ℕ) (c : ClientGraph) (g : StoredGraph)
    (f : Address → ℕ) : Prop where
  nodes : g.graph.nodes = c.graph.nodes.map (Option.map f)
  injective : ∀ a a', c.Reached a → c.Reached a' → f a = f a' → a = a'
  surjective : ∀ p, Reaches g.graph.nodes g.mem p → ∃ a, c.Reached a ∧ f a = p
  tensors : ∀ a t, c.Reached a → c.mem a = some t → ∃ r, g.mem (f a) = some r ∧ SameTensor f t r
  useCounts : ∀ a, c.Reached a → g.graph.useCount hash' (f a) = c.graph.useCount hash a

/-- The server makes the graph again from the message of the client. -/
def Rebuilds (hash : Address → ℕ) (hash' : ℕ → ℕ) (s : Server) (device : UInt32)
    (c : ClientGraph) : Prop :=
  ∃ bytes r g f, serializeGraph hash device c = .ok bytes ∧ s.graphCompute hash' bytes = .ok r ∧
    r.ran = some g ∧ Isomorphic hash hash' c g f

/-- The tensors are in buffers of the server, and of types that tensors have. -/
def Server.Hosts (s : Server) (c : ClientGraph) : Prop :=
  ∀ a t, c.Reached a → c.mem a = some t → t.type.blckSize ≠ 0 ∧
    ∃ b, t.buffer = some (.rpc b.ptr) ∧ s.findBuffer b.ptr = some b ∧ t.Inside b

/-- Dimensions and strides have 32 bits, only nodes are used, and the size of the message is an
`int`. -/
structure ClientGraph.Fits (hash : Address → ℕ) (c : ClientGraph) : Prop where
  narrow : ∀ a t, c.Reached a → c.mem a = some t → t.Narrow
  unused : ∀ a, c.Reached a → some a ∉ c.graph.nodes → c.graph.useCount hash a = 0
  size : ∃ order, c.Order order ∧ 12 + c.graph.nodes.length * 8 + order.length * 296 < 2 ^ 31

/-! ## The size of the message -/

lemma outputSize_eq (nNodes nTensors : UInt32) : outputSize nNodes nTensors =
    Int32.ofNat (12 + nNodes.toNat * 8 + nTensors.toNat * 296) := by
  have hnodes : nNodes.toUInt64 = UInt64.ofNat nNodes.toNat := by
    rw [← UInt32.toNat_toUInt64, UInt64.ofNat_toNat]
  have htensors : nTensors.toUInt64 = UInt64.ofNat nTensors.toNat := by
    rw [← UInt32.toNat_toUInt64, UInt64.ofNat_toNat]
  have hsum : (2 * 4 + nNodes.toUInt64 * 8 + 4 + nTensors.toUInt64 * 296 : UInt64) =
      UInt64.ofNat (8 + nNodes.toNat * 8 + 4 + nTensors.toNat * 296) := by
    rw [hnodes, htensors]
    simp only [UInt64.ofNat_add, UInt64.ofNat_mul]
    rfl
  rw [outputSize, hsum, UInt64.toUInt32_ofNat', UInt32.toInt32_ofNat']
  congr 1
  omega

lemma toInt_ofNat (n : ℕ) : (Int32.ofNat n).toInt =
    if (n : ℤ) % 2 ^ 32 < 2 ^ 31 then (n : ℤ) % 2 ^ 32 else (n : ℤ) % 2 ^ 32 - 2 ^ 32 := by
  rw [Int32.toInt_ofNat']
  rfl

lemma ofNat_nonneg_iff (n : ℕ) : 0 ≤ Int32.ofNat n ↔ n % 2 ^ 32 < 2 ^ 31 := by
  rw [Int32.le_iff_toInt_le, Int32.toInt_zero, toInt_ofNat]
  split <;> omega

lemma toNatClampNeg_ofNat {n : ℕ} (h : n % 2 ^ 32 < 2 ^ 31) :
    (Int32.ofNat n).toNatClampNeg = n % 2 ^ 32 := by
  rw [Int32.toNatClampNeg, toInt_ofNat]
  split <;> omega

/-- The nodes in a message. -/
def ClientGraph.ids (c : ClientGraph) : List UInt64 := c.graph.nodes.map Address.ofPtr

/-- **When a message is written, and what it holds.** -/
theorem serializeGraph_eq_ok {device : UInt32} {bytes : List UInt8} {f : Flat}
    (hf : c.addTensors hash = .ok f) :
    serializeGraph hash device c = .ok bytes ↔
      12 + c.graph.nodes.length * 8 + (f.tensors.length % 2 ^ 32) * 296 < 2 ^ 31 ∧
        bytes = graphBytes device c.ids (f.tensors.take (f.tensors.length % 2 ^ 32)) := by
  have hlt := c.length_lt
  have hnodes : (ofNat c.graph.nodes.length).toNat = c.graph.nodes.length :=
    UInt32.toNat_ofNat_of_lt' (by change _ < 2 ^ 32; omega)
  have hrecs : (ofNat f.tensors.length).toNat = f.tensors.length % 2 ^ 32 :=
    UInt32.toNat_ofNat'
  have htake : (f.tensors.take (f.tensors.length % 2 ^ 32)).length = f.tensors.length % 2 ^ 32 := by
    rw [length_take]
    exact Nat.min_eq_left (Nat.mod_le _ _)
  have hlen : (graphBytes device c.ids (f.tensors.take (f.tensors.length % 2 ^ 32))).length =
      12 + c.graph.nodes.length * 8 + (f.tensors.length % 2 ^ 32) * 296 := by
    rw [length_graphBytes, htake, ids, length_map]
  set size := 12 + c.graph.nodes.length * 8 + (f.tensors.length % 2 ^ 32) * 296 with hsize
  have hwrite : serializeGraph hash device c = (do
      Outcome.require (0 ≤ Int32.ofNat size)
      if size ≤ (Int32.ofNat size).toNatClampNeg then
        return graphBytes device c.ids (f.tensors.take (f.tensors.length % 2 ^ 32)) ++
          List.replicate ((Int32.ofNat size).toNatClampNeg - size) 0
      else .wroteOutside) := by
    rw [serializeGraph, hf, Outcome.ok_bind]
    simp only [outputSize_eq, hnodes, hrecs]
    rw [← ids, hlen]
  rw [hwrite, Outcome.require_bind_eq_ok, ofNat_nonneg_iff]
  constructor
  · rintro ⟨hnonneg, h⟩
    rw [toNatClampNeg_ofNat hnonneg] at h
    split at h
    · rename_i hle
      have heq : size % 2 ^ 32 = size := Nat.le_antisymm (Nat.mod_le _ _) hle
      rw [heq] at h hnonneg
      cases h
      refine ⟨hnonneg, ?_⟩
      rw [Nat.sub_self, replicate_zero, append_nil]
    · cases h
  · rintro ⟨hsmall, rfl⟩
    have heq : size % 2 ^ 32 = size := Nat.mod_eq_of_lt (by omega)
    rw [toNatClampNeg_ofNat (by rwa [heq]), heq, if_pos le_rfl, Nat.sub_self, replicate_zero,
      append_nil]
    exact ⟨hsmall, rfl⟩

/-! ## Records and tensors -/

/-- A list that does not have a key twice finds the element of a key. -/
lemma find_of_nodup {α κ : Type} [DecidableEq κ] {key : α → κ} {l : List α} {a : α}
    (h : (l.map key).Nodup) (ha : a ∈ l) : l.find? (fun b => key b = key a) = some a := by
  induction l with
  | nil => exact absurd ha not_mem_nil
  | cons b l ih =>
    rw [map_cons, nodup_cons] at h
    rcases mem_cons.mp ha with rfl | ha
    · rw [find?_cons_of_pos (by simp)]
    · have hne : key b ≠ key a := fun heq => h.1 (heq ▸ mem_map_of_mem ha)
      rw [find?_cons_of_neg (by simpa using hne)]
      exact ih h.2 ha

lemma Address.ofPtr_eq_zero {p : Option Address} : ofPtr p = 0 ↔ p = none := by
  cases p with
  | none => simp [ofPtr]
  | some a => simpa [ofPtr] using a.property

namespace ClientGraph

variable {order : List (Address × ClientTensor)} {a : Address} {t : ClientTensor}

/-- The records of the tensors in this order. -/
def records (hash : Address → ℕ) (c : ClientGraph) (order : List (Address × ClientTensor)) :
    List RpcTensor := order.map fun e => c.record hash e.1 e.2

lemma Order.mem_iff (h : c.Order order) : (a, t) ∈ order ↔ c.Reached a ∧ c.mem a = some t := by
  constructor
  · exact fun he => ⟨(h.reached a).mp (mem_map_of_mem he), h.mem _ he⟩
  · rintro ⟨ha, ht⟩
    obtain ⟨e, he, rfl⟩ := mem_map.mp ((h.reached a).mpr ha)
    cases (h.mem e he).symm.trans ht
    exact he

/-- A tensor is found by its address. -/
lemma Order.find (h : c.Order order) (ha : c.Reached a) (ht : c.mem a = some t) :
    (c.records hash order).find? (fun r => r.id = a.val) = some (c.record hash a t) := by
  have hkeys : ((c.records hash order).map RpcTensor.id).Nodup := by
    have hids : (c.records hash order).map RpcTensor.id = (order.map Prod.fst).map Subtype.val := by
      rw [records, map_map, map_map]
      rfl
    rw [hids]
    exact h.nodup.map Subtype.val_injective
  have hmem : c.record hash a t ∈ c.records hash order :=
    mem_map.mpr ⟨(a, t), h.mem_iff.mpr ⟨ha, ht⟩, rfl⟩
  exact find_of_nodup hkeys hmem

@[simp] lemma ref_record (s : Slot) : (c.record hash a t).ref s = ofPtr (t.ref s) := by
  cases s with
  | src i => simp [record, serializeTensor, RpcTensor.ref, GgmlTensor.ref]
  | view => rfl

lemma toNat_type_record : (c.record hash a t).type.toNat = t.type := by
  have hlt : (t.type : ℕ) < 2 ^ 32 := t.type.isLt.trans (by decide)
  exact UInt32.toNat_ofNat_of_lt' hlt

end ClientGraph

/-- A dimension of 32 bits is what the server reads. -/
lemma toInt64_narrowed {x : Int64} (hlo : 0 ≤ x) (hhi : x.toInt < 2 ^ 32) :
    x.toUInt64.toUInt32.toUInt64.toInt64 = x := by
  have hnat : x.toUInt64.toNat = x.toNatClampNeg := Int64.toNat_toUInt64_of_le hlo
  have hlt : x.toUInt64.toNat < 2 ^ 32 := by
    rw [hnat, Int64.toNatClampNeg]
    omega
  have hval : x.toUInt64.toUInt32.toUInt64 = x.toUInt64 := by
    rw [← UInt64.toNat_inj, UInt32.toNat_toUInt64, UInt64.toNat_toUInt32, Nat.mod_eq_of_lt hlt]
  rw [hval, Int64.toInt64_toUInt64]

lemma toUInt64_narrowed {x : UInt64} (h : x.toNat < 2 ^ 32) : x.toUInt32.toUInt64 = x := by
  rw [← UInt64.toNat_inj, UInt32.toNat_toUInt64, UInt64.toNat_toUInt32, Nat.mod_eq_of_lt h]

variable {t : ClientTensor} {a : Address}

/-- The tensor that the server makes from the record of a narrow tensor. -/
lemma tensor_record (hash : Address → ℕ) (c : ClientGraph) (a : Address) (hn : t.Narrow)
    (type : GgmlType) (buffers : List Buffer) :
    ((c.record hash a t).tensor type buffers).ne = t.ne ∧
      ((c.record hash a t).tensor type buffers).nb = t.nb := by
  constructor
  · refine Vector.ext fun i hi => ?_
    obtain ⟨hlo, hhi, -⟩ := hn ⟨i, hi⟩
    simpa [RpcTensor.tensor, ClientGraph.record, serializeTensor] using toInt64_narrowed hlo hhi
  · refine Vector.ext fun i hi => ?_
    obtain ⟨-, -, hnb⟩ := hn ⟨i, hi⟩
    simpa [RpcTensor.tensor, ClientGraph.record, serializeTensor] using toUInt64_narrowed hnb

/-! ## From the records to the graph -/

/-- The place of the tensor that was made for an address. -/
def Build.place (b : Build) (a : Address) : ℕ := (b.map.lookup a.val).getD 0

lemma Build.place_eq {b : Build} {p : ℕ} (h : b.map.lookup a.val = some p) : b.place a = p := by
  rw [place, h, Option.getD_some]

lemma Server.Hosts.place {s : Server} (h : s.Hosts c) (hash : Address → ℕ) (ha : c.Reached a)
    (ht : c.mem a = some t) :
    ∃ b, s.findBuffer b.ptr = some b ∧ t.Inside b ∧ (c.record hash a t).buffer = b.ptr ∧
      (c.record hash a t).data = t.data := by
  obtain ⟨-, b, hbuffer, hfind, hinside⟩ := h a t ha ht
  refine ⟨b, hfind, hinside, ?_, ?_⟩
  · simp [ClientGraph.record, serializeTensor, ClientTensor.place, hbuffer]
  · simp [ClientGraph.record, serializeTensor, ClientTensor.place, hbuffer]

section

variable {s : Server} {order : List (Address × ClientTensor)} {capacity : ℕ} {b : Build}
  {g : Cgraph ℕ} {done : List UInt64}

/-- A tensor that is linked has the data of the client's. -/
lemma same_of_linked {p : ℕ} (horder : c.Order order) (hhosts : s.Hosts c) (ha : c.Reached a)
    (ht : c.mem a = some t) (hn : t.Narrow)
    (h : Linked s.buffers (c.records hash order) b a.val p) :
    ∃ r, b.ctx.tensors[p]? = some r ∧ SameTensor b.place t r := by
  obtain ⟨t', r, ht', hr, ⟨type, htype, -, -, -, heq⟩, hoffs, hrefs⟩ := h
  cases (horder.find ha ht).symm.trans ht'
  obtain ⟨-, -, -, -, hdata⟩ := hhosts.place hash ha ht
  obtain ⟨hne, hnb⟩ := tensor_record hash c a hn type s.buffers
  rw [ClientGraph.toNat_type_record] at htype
  refine ⟨r, hr, ?_⟩
  constructor
  · rw [heq]
    exact (Fin.ext htype).symm
  · rw [heq]
    exact hne
  · rw [heq]
    exact hnb
  · rw [heq]
    rfl
  · rw [heq]
    rfl
  · rw [heq]
    rfl
  · rw [heq]
    exact hdata
  · exact hoffs
  · intro slot
    have hres := hrefs slot
    rw [Build.Resolves, ClientGraph.ref_record] at hres
    split at hres
    · rename_i hnull
      rw [hres, ofPtr_eq_zero.mp hnull, Option.map_none]
    · rename_i hnull
      obtain ⟨q, hq, hlookup⟩ := hres
      obtain ⟨a', ha'⟩ := Option.ne_none_iff_exists'.mp fun hnone =>
        hnull (ofPtr_eq_zero.mpr hnone)
      rw [ha'] at hlookup ⊢
      rw [hq, Option.map_some, place_eq hlookup]

/-- Every tensor that is reached has been made. -/
lemma lookup_of_reached (horder : c.Order order)
    (h : Added hash' s.buffers (c.records hash order) capacity c.ids b g) (ha : c.Reached a) :
    ∃ p, b.map.lookup a.val = some p := by
  induction ha with
  | node hnode => exact h.nonnull _ (mem_map.mpr ⟨_, hnode, rfl⟩)
  | @ref a a' t slot ha ht hq ih =>
    obtain ⟨p, hp⟩ := ih
    obtain ⟨t', r, ht', hr, -, -, hrefs⟩ := h.linked _ p hp rfl
    cases (horder.find ha ht).symm.trans ht'
    have hres := hrefs slot
    rw [Build.Resolves, ClientGraph.ref_record, hq, if_neg (by exact a'.property)] at hres
    obtain ⟨q, -, hlookup⟩ := hres
    exact ⟨q, hlookup⟩

/-- The nodes of the server are those of the client. -/
lemma nodes_eq (horder : c.Order order)
    (h : Added hash' s.buffers (c.records hash order) capacity c.ids b g) :
    g.nodes = c.graph.nodes.map (Option.map b.place) := by
  rw [h.nodes, ids, map_map]
  refine map_congr_left fun o ho => ?_
  cases o with
  | none => exact absurd ho c.nonnull
  | some a =>
    obtain ⟨p, hp⟩ := lookup_of_reached horder h (Reaches.node ho)
    change b.map.lookup a.val = some (b.place a)
    rw [hp, place_eq hp]

/-- A tensor that is reached on the server is that of a tensor of the client. -/
lemma reached_of_reaches (horder : c.Order order) (hhosts : s.Hosts c)
    (hnarrow : ∀ a t, c.Reached a → c.mem a = some t → t.Narrow)
    (h : Added hash' s.buffers (c.records hash order) capacity c.ids b g) {p : ℕ}
    (hp : Reaches g.nodes (fun p => b.ctx.tensors[p]?) p) :
    ∃ a, c.Reached a ∧ b.place a = p := by
  induction hp with
  | node hnode =>
    rw [nodes_eq horder h] at hnode
    obtain ⟨o, ho, heq⟩ := mem_map.mp hnode
    obtain ⟨a, rfl, rfl⟩ := Option.map_eq_some_iff.mp heq
    exact ⟨a, Reaches.node ho, rfl⟩
  | @ref p q r slot hp hr hq ih =>
    obtain ⟨a, ha, rfl⟩ := ih
    obtain ⟨t, ht⟩ := ha.mem
    obtain ⟨p, hlookup⟩ := lookup_of_reached horder h ha
    obtain ⟨r', hr', hsame⟩ := same_of_linked horder hhosts ha ht (hnarrow a t ha ht)
      (h.linked _ p hlookup rfl)
    rw [place_eq hlookup] at hr
    cases hr.symm.trans hr'
    rw [hsame.refs slot] at hq
    obtain ⟨a', ha', rfl⟩ := Option.map_eq_some_iff.mp hq
    exact ⟨a', ha.ref ht ha', rfl⟩

/-- The server finds the use count of a node, and none for another tensor. -/
lemma useCount_node (h : Added hash' s.buffers (c.records hash order) capacity c.ids b g)
    (horder : c.Order order) (ha : some a ∈ c.graph.nodes) (ht : c.mem a = some t) :
    g.useCount hash' (b.place a) = c.graph.useCount hash a := by
  have hid : a.val ∈ c.ids := mem_map.mpr ⟨some a, ha, rfl⟩
  obtain ⟨p, hp⟩ := h.nonnull _ hid
  obtain ⟨i, t', hfind, hkey, ht', hcount⟩ := h.counts _ hid p hp
  cases (horder.find (Reaches.node ha) ht).symm.trans ht'
  rw [place_eq hp, Cgraph.useCount, hfind]
  simp only [hkey, hcount]
  rfl

lemma useCount_of_notMem {recs : List RpcTensor}
    (h : Added hash' s.buffers recs capacity done b g) {p : ℕ} (hp : some p ∉ g.nodes) :
    g.useCount hash' p = 0 := by
  have hkey : some p ∉ g.visited := by
    intro hmem
    obtain ⟨id, hid, hlookup⟩ := h.keys p hmem
    rw [h.nodes] at hp
    exact hp (mem_map.mpr ⟨id, hid, hlookup⟩)
  rw [Cgraph.useCount]
  cases hfind : Probing.find g.visited (hash' p) p with
  | none => rfl
  | some i =>
    have hslot := Probing.find_of_notMem hkey hfind
    simp [hslot]

/-- **The graph that was made is that of the client.** -/
theorem isomorphic_of_added (horder : c.Order order) (hhosts : s.Hosts c)
    (hnarrow : ∀ a t, c.Reached a → c.mem a = some t → t.Narrow)
    (hunused : ∀ a, c.Reached a → some a ∉ c.graph.nodes → c.graph.useCount hash a = 0)
    (h : Added hash' s.buffers (c.records hash order) capacity c.ids b g) :
    Isomorphic hash hash' c { ctx := b.ctx, graph := g } b.place := by
  have hinj : ∀ a a', c.Reached a → c.Reached a' → b.place a = b.place a' → a = a' := by
    intro a a' ha ha' heq
    obtain ⟨p, hp⟩ := lookup_of_reached horder h ha
    obtain ⟨p', hp'⟩ := lookup_of_reached horder h ha'
    rw [place_eq hp, place_eq hp'] at heq
    rw [← heq] at hp'
    exact Subtype.ext (h.inj hp hp')
  refine ⟨nodes_eq horder h, hinj, fun p hp => reached_of_reaches horder hhosts hnarrow h hp,
    fun a t ha ht => ?_, fun a ha => ?_⟩
  · obtain ⟨p, hp⟩ := lookup_of_reached horder h ha
    have hsame := same_of_linked horder hhosts ha ht (hnarrow a t ha ht) (h.linked _ p hp rfl)
    rwa [← place_eq hp] at hsame
  · by_cases hnode : some a ∈ c.graph.nodes
    · obtain ⟨t, ht⟩ := ha.mem
      exact useCount_node h horder hnode ht
    · rw [hunused a ha hnode]
      refine useCount_of_notMem h fun hmem => ?_
      rw [nodes_eq horder h] at hmem
      obtain ⟨o, ho, heq⟩ := mem_map.mp hmem
      obtain ⟨a', rfl, hplace⟩ := Option.map_eq_some_iff.mp heq
      exact hnode (hinj a' a (Reaches.node ho) ha hplace ▸ ho)

end

/-! ## Messages that the server accepts -/

lemma extent_congr {β β' π π' : Type} {t : GgmlTensor β π} {r : GgmlTensor β' π'}
    (htype : r.type = t.type) (hne : r.ne = t.ne) (hnb : r.nb = t.nb) : r.extent = t.extent := by
  unfold GgmlTensor.extent GgmlTensor.exactSpan
  rw [htype, hne, hnb]

lemma narrow_congr {β β' π π' : Type} {t : GgmlTensor β π} {r : GgmlTensor β' π'}
    (hne : r.ne = t.ne) (hnb : r.nb = t.nb) (h : r.Narrow) : t.Narrow := by
  intro i
  rw [← hne, ← hnb]
  exact h i

/-- The records of a graph in the buffers of the server pass the assertions. -/
lemma passes_records {s : Server} {order : List (Address × ClientTensor)}
    (horder : c.Order order) (hhosts : s.Hosts c)
    (hnarrow : ∀ a t, c.Reached a → c.mem a = some t → t.Narrow) :
    ∀ r ∈ c.records hash order, r.Passes s.buffers := by
  intro r hr type htype
  obtain ⟨⟨a, t⟩, he, rfl⟩ := mem_map.mp hr
  obtain ⟨ha, ht⟩ := horder.mem_iff.mp he
  have hn := hnarrow a t ha ht
  obtain ⟨b, hfind, ⟨hlo, hhi⟩, hbuffer, hdata⟩ := hhosts.place hash ha ht
  obtain ⟨hne, hnb⟩ := tensor_record hash c a hn type s.buffers
  rw [ClientGraph.toNat_type_record] at htype
  have hb : ((c.record hash a t).tensor type s.buffers).buffer = some b := by
    change s.findBuffer (c.record hash a t).buffer = some b
    rw [hbuffer, hfind]
  have hext : ((c.record hash a t).tensor type s.buffers).extent = t.extent :=
    extent_congr (Fin.ext htype).symm hne hnb
  have hsize := (RpcTensor.narrow_tensor (c.record hash a t) type s.buffers).toNat_nbytes
  refine (checked_iff hb).mpr ?_
  change b.base.toNat ≤ (c.record hash a t).data.toNat ∧ (c.record hash a t).data.toNat + _ ≤ _
  rw [hdata]
  exact ⟨hlo, by omega⟩

/-- The records of a graph in the buffers of the server can be read. -/
lemma closed_records {s : Server} {order : List (Address × ClientTensor)}
    (hash : Address → ℕ) (horder : c.Order order) (hhosts : s.Hosts c) :
    Closed s.buffers (c.records hash order) {id | ∃ a, c.Reached a ∧ id = a.val} := by
  rintro _ ⟨a, ha, rfl⟩
  obtain ⟨t, ht⟩ := ha.mem
  obtain ⟨b, hfind, -, hbuffer, -⟩ := hhosts.place hash ha ht
  refine ⟨_, horder.find ha ht, ⟨t.type, ClientGraph.toNat_type_record, (hhosts a t ha ht).1, ?_⟩, ?_⟩
  · rintro ⟨hnone, -⟩
    exact hnone b (mem_of_find?_eq_some hfind) hbuffer.symm
  · intro slot hslot
    rw [ClientGraph.ref_record] at hslot ⊢
    obtain ⟨a', ha'⟩ := Option.ne_none_iff_exists'.mp fun hnone =>
      hslot (ofPtr_eq_zero.mpr hnone)
    rw [ha']
    exact ⟨a', ha.ref ht ha', rfl⟩

lemma ClientGraph.mem_ids {id : UInt64} (h : id ∈ c.ids) :
    ∃ a, some a ∈ c.graph.nodes ∧ id = a.val := by
  obtain ⟨o, ho, rfl⟩ := mem_map.mp h
  cases o with
  | none => exact absurd ho c.nonnull
  | some a => exact ⟨a, ho, rfl⟩

lemma ClientGraph.nodup_ids (c : ClientGraph) : c.ids.Nodup := by
  refine c.nodup.map_on fun o ho o' ho' heq => ?_
  cases o with
  | none => exact absurd ho c.nonnull
  | some a =>
    cases o' with
    | none => exact absurd ho' c.nonnull
    | some a' => exact congrArg some (Subtype.ext heq)

/-- The nodes of a client are distinct and not null. -/
lemma sound_ids (buffers : List Buffer) (recs : List RpcTensor) : Sound buffers recs [] c.ids := by
  intro pre id post heq _
  have hnodup := c.nodup_ids
  rw [heq] at hnodup
  refine ⟨fun hmem => ?_, fun hzero => ?_⟩
  · exact (nodup_append.mp hnodup).2.2 id hmem id mem_cons_self rfl
  · have hid : id ∈ c.ids := heq ▸ mem_append_right pre mem_cons_self
    obtain ⟨a, -, ha⟩ := mem_ids hid
    exact absurd (ha ▸ hzero) a.property

/-- The order of the records is unique up to permutations. -/
lemma ClientGraph.Order.length_eq {order order' : List (Address × ClientTensor)}
    (h : c.Order order) (h' : c.Order order') : order.length = order'.length := by
  have hperm : (order.map Prod.fst).Perm (order'.map Prod.fst) :=
    (perm_ext_iff_of_nodup h.nodup h'.nodup).mpr fun a => by rw [h.reached, h'.reached]
  simpa using hperm.length_eq

/-- **A graph that fits is made again.** -/
theorem rebuilds_of_fits {s : Server} {device : UInt32}
    (hdevice : device.toNat < s.storedGraphs.length) (hhosts : s.Hosts c) (h : c.Fits hash) :
    Rebuilds hash hash' s device c := by
  obtain ⟨order, f, hf, horder, htensors⟩ := c.addTensors_spec hash
  obtain ⟨order', horder', hsize⟩ := h.size
  rw [← horder.length_eq horder'] at hsize
  have htensors : f.tensors = c.records hash order := htensors
  have hm : f.tensors.length = order.length := by rw [htensors, ClientGraph.records, length_map]
  have hmod : f.tensors.length % 2 ^ 32 = f.tensors.length := Nat.mod_eq_of_lt (by omega)
  have hbytes : serializeGraph hash device c =
      .ok (graphBytes device c.ids (c.records hash order)) := by
    have hsmall : 12 + c.graph.nodes.length * 8 + (f.tensors.length % 2 ^ 32) * 296 < 2 ^ 31 := by
      rwa [hmod, hm]
    have hwritten : graphBytes device c.ids (c.records hash order) =
        graphBytes device c.ids (f.tensors.take (f.tensors.length % 2 ^ 32)) := by
      rw [hmod, take_length, htensors]
    exact (serializeGraph_eq_ok hf).mpr (And.intro hsmall hwritten)
  have hids : c.ids.length = c.graph.nodes.length := length_map _
  have hrecs : (c.records hash order).length = order.length := length_map _
  have hparse : parseGraph s.storedGraphs.length
      (graphBytes device c.ids (c.records hash order)) =
        .ok { device := device, nodes := c.ids, tensors := c.records hash order } :=
    parseGraph_graphBytes hdevice (by omega) (by omega)
  -- there is memory for all records, and a slot for each node
  set capacity := (ofNat c.ids.length + ofNat (c.records hash order).length).toNat
    with hcapacity
  have hroom : (Build.start capacity).Room (c.records hash order) := by
    have hle : (Build.start capacity).unmapped (c.records hash order) ≤ order.length :=
      hrecs ▸ length_filter_le _ _
    have hcap : capacity = c.ids.length + order.length := by
      have h1 : (ofNat c.ids.length).toNat = c.ids.length :=
        UInt32.toNat_ofNat_of_lt' (by change _ < 2 ^ 32; omega)
      have h2 : (ofNat (c.records hash order).length).toNat = order.length := by
        rw [UInt32.toNat_ofNat_of_lt' (by change _ < 2 ^ 32; omega), hrecs]
      rw [hcapacity, UInt32.toNat_add, h1, h2, Nat.mod_eq_of_lt (by omega)]
    change 0 + (Build.start capacity).unmapped _ ≤ capacity
    omega
  have hfree : c.ids.length ≤
      (List.replicate (ggmlHashSize (c.ids.length * 2)) (none : Option ℕ)).count none := by
    rw [count_replicate_self]
    exact (Nat.le_mul_of_pos_right _ (by decide)).trans (le_ggmlHashSize _)
  have hnodes : ∀ id ∈ c.ids, ∃ a, c.Reached a ∧ id = a.val := fun id hid =>
    (mem_ids hid).imp fun a ha => ⟨Reaches.node ha.1, ha.2⟩
  have hadd := addNodes_returns (closed_records hash horder hhosts)
    (passes_records horder hhosts h.narrow)
    (added_nil hash' s.buffers (c.records hash order) capacity (ggmlHashSize (c.ids.length * 2)))
    hnodes c.nodup_ids hroom hfree
  obtain ⟨built, hbuilt, hadded⟩ := hadd
  have hgraph : buildGraph hash' s.buffers
      { device := device, nodes := c.ids, tensors := c.records hash order } =
        .ok { ctx := built.1.ctx, graph := built.2 } := by
    change (addNodes hash' s.buffers (c.records hash order) c.ids (Build.start capacity) _ >>= _) = _
    rw [hbuilt]
    rfl
  have hrun : ∃ r, s.graphCompute hash' (graphBytes device c.ids (c.records hash order)) = .ok r ∧
      r.ran = some { ctx := built.1.ctx, graph := built.2 } := by
    rw [Server.graphCompute, hparse, Outcome.ok_bind, hgraph]
    exact ⟨_, rfl, rfl⟩
  obtain ⟨r, hr, hran⟩ := hrun
  exact ⟨_, r, _, built.1.place, hbytes, hr, hran,
    isomorphic_of_added horder hhosts h.narrow h.unused hadded⟩

/-! ## Graphs that were made again -/

lemma Isomorphic.reaches {g : StoredGraph} {f : Address → ℕ} (h : Isomorphic hash hash' c g f)
    (ha : c.Reached a) : Reaches g.graph.nodes g.mem (f a) := by
  induction ha with
  | node hnode =>
    refine Reaches.node ?_
    rw [h.nodes]
    exact mem_map.mpr ⟨_, hnode, rfl⟩
  | @ref a a' t slot ha ht hq ih =>
    obtain ⟨r, hr, hsame⟩ := h.tensors a t ha ht
    have hslot : r.ref slot = some (f a') := by rw [hsame.refs, hq, Option.map_some]
    exact ih.ref hr hslot

/-- The graph of a sound message satisfies the invariant of its loop. -/
lemma buildGraph_added {buffers : List Buffer} {m : GraphMsg} {g : StoredGraph}
    (hsound : Sound buffers m.tensors [] m.nodes) (h : buildGraph hash' buffers m = .ok g) :
    ∃ capacity b, capacity < 2 ^ 32 ∧ b.ctx = g.ctx ∧
      Added hash' buffers m.tensors capacity m.nodes b g.graph := by
  obtain ⟨built, hbuilt, h⟩ := Outcome.bind_eq_ok.mp h
  cases h
  refine ⟨(ofNat m.nodes.length + ofNat m.tensors.length).toNat, built.1,
    toNat_lt _, rfl, ?_⟩
  exact (addNodes_spec hsound (added_nil hash' buffers m.tensors _ _)).2 built hbuilt

/-- The tensors of an invariant fit in its memory. -/
lemma Added.length_le {buffers : List Buffer} {recs : List RpcTensor} {capacity : ℕ}
    {done : List UInt64} {b : Build} {g : Cgraph ℕ}
    (h : Added hash' buffers recs capacity done b g) : b.length ≤ capacity := by
  have hroom := h.grows.room (Nat.zero_le _)
  rwa [h.grows.capacity] at hroom

/-- The tensors of the client are as many as those of the server. -/
lemma Isomorphic.length_le {g : StoredGraph} {f : Address → ℕ}
    (h : Isomorphic hash hash' c g f) {order : List (Address × ClientTensor)}
    (horder : c.Order order) : order.length ≤ g.ctx.tensors.length := by
  have hnodup : ((order.map Prod.fst).map f).Nodup :=
    horder.nodup.map_on fun a ha a' ha' heq =>
      h.injective a a' ((horder.reached a).mp ha) ((horder.reached a').mp ha') heq
  have hsub : (order.map Prod.fst).map f ⊆ range g.ctx.tensors.length := by
    intro p hp
    obtain ⟨a, ha, rfl⟩ := mem_map.mp hp
    have hreached := (horder.reached a).mp ha
    obtain ⟨t, ht⟩ := hreached.mem
    obtain ⟨r, hr, -⟩ := h.tensors a t hreached ht
    exact mem_range.mpr (List.getElem?_eq_some_iff.mp hr).1
  simpa using (hnodup.subperm hsub).length_le

/-- A tensor that was made from a record is narrow. -/
lemma MadeFrom.narrow {buffers : List Buffer} {t : RpcTensor} {r : GgmlTensor Buffer ℕ}
    (h : MadeFrom buffers t r) : r.Narrow := by
  obtain ⟨type, -, -, -, -, heq⟩ := h
  rw [heq]
  exact RpcTensor.narrow_tensor t type buffers

/-- **A graph that is made again fits.** -/
theorem fits_of_rebuilds {s : Server} {device : UInt32}
    (hdevice : device.toNat < s.storedGraphs.length) (h : Rebuilds hash hash' s device c) :
    c.Fits hash := by
  obtain ⟨bytes, r, g, f, hbytes, hrun, hran, hiso⟩ := h
  obtain ⟨order, fl, hfl, horder, htensors⟩ := c.addTensors_spec hash
  obtain ⟨hsize, rfl⟩ := (serializeGraph_eq_ok hfl).mp hbytes
  have hids : c.ids.length = c.graph.nodes.length := length_map _
  have htake : (fl.tensors.take (fl.tensors.length % 2 ^ 32)).length < 2 ^ 32 := by
    rw [length_take]
    exact (Nat.min_le_left _ _).trans_lt (Nat.mod_lt _ (by decide))
  have hparse := @parseGraph_graphBytes _ _ device hdevice c.ids (by omega) htake
  obtain ⟨m, hm, hrun⟩ := Outcome.bind_eq_ok.mp hrun
  cases hparse.symm.trans hm
  obtain ⟨g', hg', hrun⟩ := Outcome.bind_eq_ok.mp hrun
  cases hrun
  cases hran
  obtain ⟨capacity, b, hcapacity, hctx, hadded⟩ := buildGraph_added (sound_ids _ _) hg'
  have hm : fl.tensors.length = order.length := by rw [htensors, length_map]
  refine ⟨fun a t ha ht => ?_, fun a ha hnode => ?_, order, horder, ?_⟩
  · obtain ⟨r, hr, hsame⟩ := hiso.tensors a t ha ht
    obtain ⟨map, id, t', r', -, hr', hmade, -⟩ :=
      (Added.graphOk (m := ⟨device, c.ids, _⟩) hadded).reaches
        (by rw [hctx]; exact hiso.reaches ha)
    cases (hctx ▸ hr').symm.trans hr
    exact narrow_congr hsame.ne hsame.nb hmade.narrow
  · rw [← hiso.useCounts a ha]
    refine useCount_of_notMem hadded fun hmem => ?_
    rw [hiso.nodes] at hmem
    obtain ⟨o, ho, heq⟩ := mem_map.mp hmem
    obtain ⟨a', rfl, hplace⟩ := Option.map_eq_some_iff.mp heq
    exact hnode (hiso.injective a' a (Reaches.node ho) ha hplace ▸ ho)
  · -- all tensors are in the memory of the server, so that none was left out of the message
    have hle := hiso.length_le horder
    have hroom := hadded.length_le
    rw [Build.length, hctx] at hroom
    rwa [Nat.mod_eq_of_lt (by omega), hm] at hsize

/-- The address of the tensor of a graph with one tensor. -/
def oneAddress : Address := ⟨1, by decide⟩

/-- A tensor without references at the start of a buffer. -/
def clientTensor (ne : Vector Int64 4) (nb : Vector UInt64 4) : ClientTensor :=
  { type := GgmlType.f32, buffer := some (.rpc 16), ne := ne, nb := nb, op := 0
    opParams := Vector.replicate 16 0, flags := 0, src := Vector.replicate 10 none
    viewSrc := none, viewOffs := 0, data := 64, name := Vector.replicate 64 0 }

lemma ref_clientTensor (ne : Vector Int64 4) (nb : Vector UInt64 4) (s : Slot) :
    (clientTensor ne nb).ref s = none := by
  cases s with
  | src i => simp [clientTensor, GgmlTensor.ref]
  | view => rfl

lemma reaches_one {ne : Vector Int64 4} {nb : Vector UInt64 4}
    (h : Reaches [some oneAddress] (fun a => [(oneAddress, clientTensor ne nb)].lookup a) a) :
    a = oneAddress := by
  induction h with
  | node h => exact Option.some.inj (mem_singleton.mp h)
  | ref hp hr hq ih =>
    rw [ih] at hr
    cases hr
    rw [ref_clientTensor] at hq
    cases hq

/-- The graph of one tensor. -/
def oneTensor (ne : Vector Int64 4) (nb : Vector UInt64 4) : ClientGraph where
  heap := [(oneAddress, clientTensor ne nb)]
  graph := { nodes := [some oneAddress], visited := [], useCounts := [] }
  nonnull := by simp
  nodup := List.nodup_singleton _
  length_lt := by decide
  closed := fun p hp => ⟨clientTensor ne nb, by rw [reaches_one hp, List.lookup_cons_self]⟩

lemma mem_oneTensor {ne : Vector Int64 4} {nb : Vector UInt64 4}
    (ha : (oneTensor ne nb).Reached a) (ht : (oneTensor ne nb).mem a = some t) :
    a = oneAddress ∧ t = clientTensor ne nb := by
  have ha := reaches_one ha
  rw [ha] at ht
  exact ⟨ha, (Option.some.inj ht).symm⟩

lemma bufferPtr_ne : (16 : UInt64) ≠ 0 := by decide

/-- A server with a buffer of this size. -/
def serverWith (size : UInt64) (h : 64 + size.toNat < 2 ^ 63) : Server :=
  { buffers := [{ ptr := 16, base := 64, size := size, ptr_ne := bufferPtr_ne, fits := h }]
    storedGraphs := [none] }

lemma hosts_oneTensor {ne : Vector Int64 4} {nb : Vector UInt64 4} {size : UInt64}
    (h : 64 + size.toNat < 2 ^ 63) (hext : (clientTensor ne nb).extent ≤ size.toNat) :
    (serverWith size h).Hosts (oneTensor ne nb) := by
  intro a t ha ht
  obtain ⟨-, rfl⟩ := mem_oneTensor ha ht
  have hblck : GgmlType.blckSize GgmlType.f32 ≠ 0 := by decide
  exact ⟨hblck, { ptr := 16, base := 64, size := size, ptr_ne := bufferPtr_ne, fits := h }, rfl, rfl,
    Nat.le_refl 64, Nat.add_le_add_left hext 64⟩

end Llama.Rpc
