import Llama.Rpc.Resolve
import Llama.Rpc.Server

/-!
# The nodes of a graph

The loop of `graph_compute` makes the node of each id, enters it in the visited set and writes its
use count.  `Added` is its invariant: the tensors that were made are linked, the keys of the visited
set are the nodes, and the use count of each node is that of its record.

The loop does not look at what `ggml_hash_insert` returns.  As long as no id comes twice it is the
slot of a new key.  An id of zero is not refused when its node cannot be made, so it has to have
readable records where it occurs.
-/

namespace Llama.Rpc

open List Outcome

variable {hash : ℕ → ℕ} {buffers : List Buffer} {recs : List RpcTensor}

/-! ## The invariant -/

/-- The state before the loop. -/
def Build.start (capacity : ℕ) : Build :=
  { ctx := { tensors := [], capacity := capacity }, map := [] }

/-- The use count of a node is found in the slot of its key. -/
def Counted (hash : ℕ → ℕ) (recs : List RpcTensor) (g : Cgraph ℕ) (id : UInt64) (p : ℕ) : Prop :=
  ∃ i t, Probing.find g.visited (hash p) p = some i ∧ g.visited[i]? = some (some p) ∧
    recs.find? (fun t => t.id = id) = some t ∧ g.useCounts[i]? = some t.useCount

/-- The nodes of the ids in `done` have been added. -/
structure Added (hash : ℕ → ℕ) (buffers : List Buffer) (recs : List RpcTensor) (capacity : ℕ)
    (done : List UInt64) (b : Build) (g : Cgraph ℕ) : Prop where
  grows : Grows (fun _ => True) (Build.start capacity) b
  linked : NewLinked buffers recs (Build.start capacity) b
  nodes : g.nodes = done.map fun id => b.map.lookup id
  nonnull : ∀ id ∈ done, ∃ p, b.map.lookup id = some p
  keys : ∀ p, some p ∈ g.visited → ∃ id ∈ done, b.map.lookup id = some p
  counts : ∀ id ∈ done, ∀ p, b.map.lookup id = some p → Counted hash recs g id p
  sizes : g.useCounts.length = g.visited.length

namespace Added

variable {capacity : ℕ} {done : List UInt64} {b : Build} {g : Cgraph ℕ}

section

variable (h : Added hash buffers recs capacity done b g)

include h

/-- Two ids do not have one tensor. -/
lemma inj {id id' : UInt64} {p : ℕ}
    (hp : b.map.lookup id = some p) (hp' : b.map.lookup id' = some p) : id = id' :=
  h.grows.inj hp hp' rfl rfl

/-- What has been made is made of readable records. -/
lemma resolvable {id : UInt64} (hid : id ∈ done) : Resolvable buffers recs id := by
  refine ⟨{id | ∃ p, b.map.lookup id = some p}, ?_, h.nonnull id hid⟩
  rintro id ⟨p, hp⟩
  obtain ⟨t, r, ht, -, ⟨type, htype, hblck, -, hdata, -⟩, -, hrefs⟩ := h.linked id p hp rfl
  refine ⟨t, ht, ⟨type, htype, hblck, fun hnone => hdata ⟨?_, hnone.2⟩⟩, fun s hs => ?_⟩
  · exact find?_eq_none.mpr fun b hb => by simpa using hnone.1 b hb
  · have hres := hrefs s
    rw [Build.Resolves, if_neg hs] at hres
    obtain ⟨q, -, hq⟩ := hres
    exact ⟨q, hq⟩

/-- One more node. -/
lemma push {b' : Build} {id : UInt64} {p i : ℕ} {t : RpcTensor}
    (hgrows : Grows (fun _ => True) b b') (hnew : NewLinked buffers recs b b')
    (hp : b'.map.lookup id = some p) (hfind : Probing.find g.visited (hash p) p = some i)
    (hslot : g.visited[i]? = some none) (ht : recs.find? (fun t => t.id = id) = some t) :
    Added hash buffers recs capacity (done ++ [id]) b'
      { nodes := g.nodes ++ [some p]
        visited := g.visited.set i (some p)
        useCounts := g.useCounts.set i t.useCount } where
  grows := h.grows.trans hgrows
  linked := NewLinked.trans h.grows hgrows h.linked hnew fun _ _ => trivial
  nodes := by
    have hdone : done.map (fun id => b'.map.lookup id) = done.map fun id => b.map.lookup id := by
      refine map_congr_left fun id' hid' => ?_
      obtain ⟨q, hq⟩ := h.nonnull id' hid'
      rw [hq, hgrows.lookup hq]
    rw [map_append, hdone, h.nodes, map_singleton, hp]
  nonnull := by
    intro id' hid'
    rcases mem_append.mp hid' with hid' | hid'
    · obtain ⟨q, hq⟩ := h.nonnull id' hid'
      exact ⟨q, hgrows.lookup hq⟩
    · rw [mem_singleton.mp hid']
      exact ⟨p, hp⟩
  keys := by
    intro q hq
    rcases mem_or_eq_of_mem_set hq with hq | hq
    · obtain ⟨id', hid', hq⟩ := h.keys q hq
      exact ⟨id', mem_append_left _ hid', hgrows.lookup hq⟩
    · cases hq
      exact ⟨id, mem_append_right _ (mem_singleton.mpr rfl), hp⟩
  counts := by
    have hi : i < g.visited.length := Probing.find_lt hfind
    intro id' hid' q hq
    rcases mem_append.mp hid' with hid' | hid'
    · obtain ⟨q', hq'⟩ := h.nonnull id' hid'
      cases (hgrows.lookup hq').symm.trans hq
      obtain ⟨j, t', hj, hkey, ht', hcount⟩ := h.counts id' hid' _ hq'
      have hij : i ≠ j := fun hij => by simp [← hij, hslot] at hkey
      refine ⟨j, t', Probing.find_set_of_empty hj hkey hslot, ?_, ht', ?_⟩
      · rw [getElem?_set_ne hij, hkey]
      · rw [getElem?_set_ne hij, hcount]
    · rw [mem_singleton.mp hid'] at hq ⊢
      cases hp.symm.trans hq
      refine ⟨i, t, Probing.find_set_self hfind, getElem?_set_self hi, ht, ?_⟩
      exact getElem?_set_self (h.sizes ▸ hi)
  sizes := by
    rw [length_set, length_set, h.sizes]

/-- A tensor that is new is not in the visited set. -/
lemma notMem_visited {b' : Build} {id : UInt64} {p : ℕ}
    (hid : id ∉ done)
    (hgrows : Grows (fun _ => True) b b') (hp : b'.map.lookup id = some p) :
    some p ∉ g.visited := by
  intro hmem
  obtain ⟨id', hid', hp'⟩ := h.keys p hmem
  have heq := (h.grows.trans hgrows).inj (hgrows.lookup hp') hp rfl rfl
  exact hid (heq ▸ hid')

end

end Added

lemma added_nil (hash : ℕ → ℕ) (buffers : List Buffer) (recs : List RpcTensor)
    (capacity size : ℕ) : Added hash buffers recs capacity [] (Build.start capacity)
      { nodes := [], visited := List.replicate size none
        useCounts := List.replicate size 0 } where
  grows := Grows.refl _ _
  linked := newLinked_refl _
  nodes := rfl
  nonnull := fun _ h => absurd h not_mem_nil
  keys := fun p h => absurd (eq_of_mem_replicate h) (Option.some_ne_none p)
  counts := fun _ h => absurd h not_mem_nil
  sizes := by simp

/-! ## The loop -/

/-- Up to the first node that cannot be made, no id of a node comes twice, and the id zero is that
of a readable record if it occurs. -/
def Sound (buffers : List Buffer) (recs : List RpcTensor) (done ids : List UInt64) : Prop :=
  ∀ pre id post, ids = pre ++ id :: post → (∀ x ∈ done ++ pre, Resolvable buffers recs x) →
    id ∉ done ++ pre ∧ (id = 0 → Resolvable buffers recs 0)

lemma Sound.head {done ids : List UInt64} {id : UInt64}
    (h : Sound buffers recs done (id :: ids)) (hdone : ∀ x ∈ done, Resolvable buffers recs x) :
    id ∉ done ∧ (id = 0 → Resolvable buffers recs 0) := by
  have hhead := h [] id ids rfl (by simpa using hdone)
  rwa [append_nil] at hhead

lemma Sound.tail {done ids : List UInt64} {id : UInt64}
    (h : Sound buffers recs done (id :: ids)) : Sound buffers recs (done ++ [id]) ids := by
  intro pre id' post heq hpre
  have htail := h (id :: pre) id' post (by rw [heq, cons_append])
  rw [← append_cons] at hpre ⊢
  exact htail hpre

/-- A key that is not in the visited set is inserted, and its use count is written in the array. -/
lemma insert_eq {g : Cgraph ℕ} {p i : ℕ} (hp : some p ∉ g.visited)
    (hsizes : g.useCounts.length = g.visited.length) (count : Int32)
    (hfind : Probing.find g.visited (hash p) p = some i) :
    g.visited[i]? = some none ∧
      (g.hashInsert hash p >>= fun inserted => inserted.2.setUseCount inserted.1 count) =
        .ok { g with visited := g.visited.set i (some p), useCounts := g.useCounts.set i count } := by
  have hslot := Probing.find_of_notMem hp hfind
  have hi : i < g.useCounts.length := by
    rw [hsizes]
    exact Probing.find_lt hfind
  refine ⟨hslot, ?_⟩
  simp only [Cgraph.hashInsert, hfind, hslot, Option.some.injEq, reduceCtorEq, if_false,
    Outcome.ok_bind, Cgraph.setUseCount, if_pos hi]

lemma insert_spec {g : Cgraph ℕ} {p : ℕ} (hp : some p ∉ g.visited)
    (hsizes : g.useCounts.length = g.visited.length) (count : Int32) :
    (g.hashInsert hash p >>= fun inserted => inserted.2.setUseCount inserted.1 count).Ensures
      fun g' => ∃ i, Probing.find g.visited (hash p) p = some i ∧ g.visited[i]? = some none ∧
        g' = { g with visited := g.visited.set i (some p), useCounts := g.useCounts.set i count } := by
  cases hfind : Probing.find g.visited (hash p) p with
  | none =>
    rw [Cgraph.hashInsert, hfind]
    exact ensures_aborted _
  | some i =>
    obtain ⟨hslot, heq⟩ := insert_eq hp hsizes count hfind
    rw [heq]
    exact ensures_ok ⟨i, rfl, hslot, rfl⟩

/-- **The loop adds the nodes, and writes only in its arrays.** -/
theorem addNodes_spec {capacity : ℕ} {done ids : List UInt64} {b : Build} {g : Cgraph ℕ}
    (hsound : Sound buffers recs done ids) (h : Added hash buffers recs capacity done b g) :
    (addNodes hash buffers recs ids b g).Ensures fun r =>
      Added hash buffers recs capacity (done ++ ids) r.1 r.2 := by
  induction ids generalizing done b g with
  | nil =>
    refine ensures_ok ?_
    rwa [append_nil]
  | cons id ids ih =>
    obtain ⟨hid, hzero⟩ := hsound.head fun x hx => h.resolvable hx
    have hfuel : b.unmapped recs < recs.length + 1 :=
      Nat.lt_succ_of_le (length_filter_le _ _)
    refine (createNode_safe id hfuel).ensures.bind fun made hmade => ?_
    obtain ⟨hgrows, hsome⟩ := createNode_spec _ id b made.1 made.2 hmade
    cases hp : made.1 with
    | none =>
      simp only
      split
      · exact ensures_refused _
      · -- an id of zero that has readable records does not give the null pointer
        rename_i hne
        obtain ⟨ids, hclosed, hmem⟩ := hzero (not_not.mp hne)
        rw [not_not.mp hne] at hmade
        exact absurd hp (createNode_ne_none hclosed hmem hmade)
    | some p =>
      obtain ⟨hlookup, hnew⟩ := hsome p hp
      cases ht : recs.find? fun t => t.id = id with
      | none => exact ensures_aborted _
      | some t =>
        have hkey := h.notMem_visited hid hgrows hlookup
        have hinsert := @insert_spec hash { g with nodes := g.nodes ++ [some p] } p hkey h.sizes
          t.useCount
        simp only
        rw [← bind_assoc]
        refine hinsert.bind fun g' hg' => ?_
        obtain ⟨i, hfind, hslot, rfl⟩ := hg'
        have hadded := h.push hgrows hnew hlookup hfind hslot ht
        rw [append_cons done id ids]
        exact ih hsound.tail hadded

/-! ## The handler -/

/-- The nodes of a graph are the tensors of the ids of the message, none of them null, and
everything that they refer to is made from a record of the message. -/
structure GraphOk (buffers : List Buffer) (m : GraphMsg) (g : StoredGraph) : Prop where
  nonnull : none ∉ g.graph.nodes
  resolved : ∃ map : List (UInt64 × ℕ), g.graph.nodes = m.nodes.map (fun id => map.lookup id) ∧
    ∀ id p, map.lookup id = some p → Linked buffers m.tensors { ctx := g.ctx, map := map } id p

lemma Added.graphOk {capacity : ℕ} {m : GraphMsg} {b : Build} {g : Cgraph ℕ}
    (h : Added hash buffers m.tensors capacity m.nodes b g) :
    GraphOk buffers m { ctx := b.ctx, graph := g } where
  nonnull := by
    intro hnull
    rw [h.nodes, mem_map] at hnull
    obtain ⟨id, hid, hnone⟩ := hnull
    obtain ⟨p, hp⟩ := h.nonnull id hid
    rw [hp] at hnone
    cases hnone
  resolved := ⟨b.map, h.nodes, fun id p hp => h.linked id p hp rfl⟩

lemma buildGraph_spec {m : GraphMsg} (h : Sound buffers m.tensors [] m.nodes) :
    (buildGraph hash buffers m).Ensures fun g => GraphOk buffers m g := by
  have hnodes := addNodes_spec h (added_nil hash buffers m.tensors
    (UInt32.ofNat m.nodes.length + UInt32.ofNat m.tensors.length).toNat
    (ggmlHashSize (m.nodes.length * 2)))
  exact hnodes.bind fun built hbuilt => ensures_ok hbuilt.graphOk

lemma safe_readAt {α : Type} {l : Layout α} {input : List UInt8} {off : ℕ}
    (h : off + l.width ≤ input.length) : (readAt l input off).Safe := by
  rw [readAt_eq_ok h]
  trivial

lemma safe_mapM {α β : Type} {f : α → Outcome β} {l : List α} (h : ∀ a ∈ l, (f a).Safe) :
    (l.mapM f).Safe := by
  induction l with
  | nil => trivial
  | cons a l ih =>
    rw [mapM_cons]
    refine (h a mem_cons_self).bind fun b _ => ?_
    exact (ih fun a ha => h a (mem_cons_of_mem _ ha)).bind fun bs _ => trivial

lemma safe_readMany {α : Type} {l : Layout α} {input : List UInt8} {off n : ℕ}
    (h : off + n * l.width ≤ input.length) : (readMany l input off n).Safe := by
  refine safe_mapM fun i hi => safe_readAt ?_
  have hle : (i + 1) * l.width ≤ n * l.width :=
    Nat.mul_le_mul_right _ (mem_range.mp hi)
  rw [Nat.succ_mul] at hle
  omega

/-- **The handler of a graph reads only in its message.** -/
theorem safe_parseGraph (nBackends : ℕ) (input : List UInt8) :
    (parseGraph nBackends input).Safe := by
  have h32 : Layout.u32.width = 4 := rfl
  have h64 : Layout.u64.width = 8 := rfl
  refine safe_refuseIf_bind fun hlen => ?_
  refine (safe_readAt (by omega)).bind fun device _ => ?_
  refine safe_refuseIf_bind fun _ => ?_
  refine (safe_readAt (by omega)).bind fun nNodes _ => ?_
  refine safe_refuseIf_bind fun hnodes => ?_
  refine (safe_readAt (by omega)).bind fun nTensors _ => ?_
  refine safe_refuseIf_bind fun htensors => ?_
  refine (safe_readMany (by rw [width_rpcTensor]; omega)).bind fun tensors _ => ?_
  exact (safe_readMany (by rw [h64]; omega)).bind fun nodes _ => trivial

namespace Server

variable {s : Server}

/-- **The handler of a graph is safe for a sound message, and runs a graph that is right.** -/
theorem graphCompute_spec {input : List UInt8}
    (h : ∀ m, parseGraph s.storedGraphs.length input = .ok m →
      Sound s.buffers m.tensors [] m.nodes) :
    (s.graphCompute hash input).Ensures fun r =>
      ∃ m g, parseGraph s.storedGraphs.length input = .ok m ∧ GraphOk s.buffers m g ∧
        r.ran = some g ∧ r.server =
          { s with storedGraphs := s.storedGraphs.set m.device.toNat (some g) } := by
  refine (safe_parseGraph _ input).ensures.bind fun m hm => ?_
  refine (buildGraph_spec (h m hm)).bind fun g hg => ?_
  exact ensures_ok ⟨m, g, hm, hg, rfl, rfl⟩

end Server

end Llama.Rpc
