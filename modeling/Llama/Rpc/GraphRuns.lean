import Llama.Rpc.Bounds
import Llama.Rpc.Nodes

/-!
# Graphs over whole connections

A graph that was computed is stored and may be computed again.  It keeps the pointers to its
buffers, and `free_buffer` does not look at the graphs.  `Tracked` is a server with the addresses
that have been freed since the graph of each device was stored; as long as no graph is computed
again after one of its buffers was freed, all graphs that run have their buffers.
-/

namespace Llama.Rpc

open List

variable {hash : ℕ → ℕ}

/-! ## Every message -/

/-- Nothing is read outside of the message, and the handler comes to an end. -/
def Outcome.Ends {α : Type} (x : Outcome α) : Prop := x ≠ .readOutside ∧ x ≠ .outOfFuel

lemma Outcome.Safe.ends {α : Type} {x : Outcome α} (h : x.Safe) : x.Ends := by
  constructor <;> rintro rfl <;> exact h

lemma Outcome.ends_wroteOutside {α : Type} : (Outcome.wroteOutside : Outcome α).Ends :=
  ⟨fun h => (by cases h), fun h => (by cases h)⟩

lemma Outcome.Ends.bind {α β : Type} {x : Outcome α} {f : α → Outcome β} (h : x.Ends)
    (hf : ∀ a, (f a).Ends) : (x >>= f).Ends := by
  cases x with
  | ok a => exact hf a
  | refused => exact Safe.ends trivial
  | aborted => exact Safe.ends trivial
  | readOutside => exact absurd rfl h.1
  | wroteOutside => exact ends_wroteOutside
  | outOfFuel => exact absurd rfl h.2

lemma hashInsert_ends (g : Cgraph ℕ) (p : ℕ) : (g.hashInsert hash p).Ends := by
  unfold Cgraph.hashInsert
  split
  · exact Outcome.Safe.ends trivial
  · split <;> exact Outcome.Safe.ends trivial

lemma setUseCount_ends (g : Cgraph ℕ) (i : ℕ) (count : Int32) : (g.setUseCount i count).Ends := by
  unfold Cgraph.setUseCount
  split
  · exact Outcome.Safe.ends trivial
  · exact Outcome.ends_wroteOutside

lemma addNodes_ends (buffers : List Buffer) (recs : List RpcTensor) (ids : List UInt64)
    (b : Build) (g : Cgraph ℕ) : (addNodes hash buffers recs ids b g).Ends := by
  induction ids generalizing b g with
  | nil => exact Outcome.Safe.ends trivial
  | cons id ids ih =>
    have hfuel : b.unmapped recs < recs.length + 1 :=
      Nat.lt_succ_of_le (length_filter_le _ _)
    refine (createNode_safe id hfuel).ends.bind fun made => ?_
    cases made.1 with
    | none =>
      simp only
      split
      · exact Outcome.Safe.ends trivial
      · exact ih _ _
    | some p =>
      simp only
      split
      · exact Outcome.Safe.ends trivial
      · refine (hashInsert_ends _ p).bind fun inserted => ?_
        exact (setUseCount_ends _ _ _).bind fun g => ih _ g

/-- **For every message the handler reads only in it and comes to an end.** -/
theorem graphCompute_ends (s : Server) (input : List UInt8) : (s.graphCompute hash input).Ends := by
  refine (safe_parseGraph _ input).ends.bind fun m => ?_
  have hbuild : (buildGraph hash s.buffers m).Ends :=
    (addNodes_ends _ _ _ _ _).bind fun built => Outcome.Safe.ends trivial
  exact hbuild.bind fun g => Outcome.Safe.ends trivial

/-- What a graph reaches are the tensors of its map. -/
lemma GraphOk.reaches {buffers : List Buffer} {m : GraphMsg} {g : StoredGraph}
    (h : GraphOk buffers m g) {p : ℕ} (hp : Reaches g.graph.nodes g.mem p) :
    ∃ (map : List (UInt64 × ℕ)) (id : UInt64),
      Linked buffers m.tensors { ctx := g.ctx, map := map } id p := by
  obtain ⟨map, hnodes, hlinked⟩ := h.resolved
  suffices hid : ∃ id, map.lookup id = some p from
    hid.elim fun id hid => ⟨map, id, hlinked id p hid⟩
  induction hp with
  | node hp =>
    rw [hnodes] at hp
    obtain ⟨id, -, hid⟩ := mem_map.mp hp
    exact ⟨id, hid⟩
  | @ref p q r s hp hr hq ih =>
    obtain ⟨id, hid⟩ := ih
    obtain ⟨t, r', -, hr', -, -, hrefs⟩ := hlinked id p hid
    cases hr.symm.trans hr'
    have hres := hrefs s
    unfold Build.Resolves at hres
    split at hres
    · rw [hres] at hq
      cases hq
    · obtain ⟨q', hq', hlookup⟩ := hres
      cases hq.symm.trans hq'
      exact ⟨t.ref s, hlookup⟩

/-- The buffers of a new graph are those of the server. -/
lemma GraphOk.live {buffers : List Buffer} {m : GraphMsg} {g : StoredGraph}
    (h : GraphOk buffers m g) : g.Live buffers := by
  intro p r b hp hr hb
  obtain ⟨map, id, t, r', -, hr', ⟨type, -, -, -, -, hmade⟩, -, -⟩ := h.reaches hp
  cases hr.symm.trans hr'
  rw [hmade] at hb
  exact mem_of_find?_eq_some hb

/-! ## Connections -/

/-- A server, and for each device the addresses of buffers that have been freed since its graph was
stored. -/
structure Tracked where
  server : Server
  freed : ℕ → List UInt64

namespace Tracked

/-- A new connection. -/
def init (nBackends : ℕ) : Tracked := { server := Server.init nBackends, freed := fun _ => [] }

/-- The addresses that have been freed after a command. -/
def freedAfter (t : Tracked) : Cmd → ℕ → List UInt64
  | .freeBuffer remotePtr => fun d => remotePtr :: t.freed d
  | .graphCompute input => fun d =>
    match parseGraph t.server.storedGraphs.length input with
    | .ok m => if d = m.device.toNat then [] else t.freed d
    | _ => t.freed d
  | _ => t.freed

/-- One command. -/
def step (hash : ℕ → ℕ) (t : Tracked) (cmd : Cmd) : Option Tracked :=
  (t.server.serve hash cmd).toOption.map fun r =>
    { server := r.server, freed := t.freedAfter cmd }

/-- The nodes of a graph are sound, and a graph is not computed again when one of its buffers has
been freed. -/
def Guard (t : Tracked) : Cmd → Prop
  | .graphCompute input => ∀ m, parseGraph t.server.storedGraphs.length input = .ok m →
      Sound t.server.buffers m.tensors [] m.nodes
  | .graphRecompute device => ∀ g, t.server.storedGraphs[device.toNat]? = some (some g) →
      ∀ p r b, Reaches g.graph.nodes g.mem p → g.mem p = some r → r.buffer = some b →
        b.ptr ∉ t.freed device.toNat
  | _ => True

/-- A buffer of a stored graph that is not there any more has been freed. -/
def Inv (t : Tracked) : Prop :=
  ∀ (d : ℕ) g, t.server.storedGraphs[d]? = some (some g) →
    ∀ p r b, Reaches g.graph.nodes g.mem p → g.mem p = some r → r.buffer = some b →
      b ∈ t.server.buffers ∨ b.ptr ∈ t.freed d

lemma inv_init (nBackends : ℕ) : (init nBackends).Inv := by
  intro d g hg
  have hmem := mem_of_getElem? hg
  cases eq_of_mem_replicate hmem

lemma freedAfter_of_plain {t : Tracked} {cmd : Cmd} (h : cmd.Plain) :
    t.freedAfter cmd = t.freed := by
  cases cmd <;> first | rfl | exact absurd h not_false

/-- **The invariant is kept by every command.** -/
theorem inv_step {t t' : Tracked} {cmd : Cmd} (hinv : t.Inv) (hguard : t.Guard cmd)
    (h : t.step hash cmd = some t') : t'.Inv := by
  obtain ⟨r, hr, rfl⟩ := Option.map_eq_some_iff.mp h
  have hr := Outcome.toOption_eq_some.mp hr
  rcases Server.serve_cases hr with ⟨hplain, ht⟩ | ⟨device, size, buffer, rfl, rfl⟩ |
    ⟨remotePtr, rfl, rfl⟩ | ⟨input, rfl, hg⟩
  · rw [ht.same, freedAfter_of_plain hplain]
    exact hinv
  · intro d g hg p r b hp hr hb
    exact (hinv d g hg p r b hp hr hb).imp_left fun hmem => mem_append_right _ hmem
  · intro d g hg p r b hp hr hb
    rcases hinv d g hg p r b hp hr hb with hmem | hfreed
    · by_cases hptr : b.ptr = remotePtr
      · exact Or.inr (hptr ▸ mem_cons_self)
      · exact Or.inl (mem_filter.mpr ⟨hmem, by simpa using hptr⟩)
    · exact Or.inr (mem_cons_of_mem _ hfreed)
  · obtain ⟨m, g', hm, hok, -, hserver⟩ := (Server.graphCompute_spec hguard).2 r hg
    intro d g hd p r' b hp hr' hb
    simp only [hserver] at hd ⊢
    simp only [freedAfter, hm]
    by_cases hdev : d = m.device.toNat
    · -- the new graph
      rw [hdev, getElem?_set] at hd
      split at hd
      · split at hd
        · cases hd
          exact Or.inl (hok.live p r' b hp hr' hb)
        · cases hd
      · rename_i hne
        exact absurd rfl hne
    · rw [getElem?_set_ne (Ne.symm hdev)] at hd
      rw [if_neg hdev]
      exact hinv d g hd p r' b hp hr' hb

lemma inv_reachable {nBackends : ℕ} {t : Tracked}
    (h : Run.Reachable (step hash) Guard (init nBackends) t) : t.Inv :=
  h.invariant (inv_init nBackends) fun _ _ _ hinv hguard hstep => inv_step hinv hguard hstep

/-- **In every connection that computes no graph again without its buffers, and for sound messages,
a graph is handled within its message and its arrays, is right, and has its buffers whenever it
runs.** -/
theorem graphs_run {nBackends : ℕ} {t : Tracked}
    (h : Run.Reachable (step hash) Guard (init nBackends) t) :
    (∀ input, (t.server.graphCompute hash input).Ends) ∧
    (∀ input, t.Guard (.graphCompute input) →
      (t.server.graphCompute hash input).Ensures fun r => ∃ m g,
        parseGraph t.server.storedGraphs.length input = .ok m ∧ r.ran = some g ∧
          GraphOk t.server.buffers m g ∧ g.Live t.server.buffers) ∧
    ∀ device, t.Guard (.graphRecompute device) → ∀ r,
      t.server.graphRecompute device = .ok r → ∃ g, r.ran = some g ∧ g.Live t.server.buffers := by
  refine ⟨graphCompute_ends t.server, fun input hguard => ?_, fun device hguard r hr => ?_⟩
  · obtain ⟨hsafe, hok⟩ := Server.graphCompute_spec hguard
    refine ⟨hsafe, fun r hr => ?_⟩
    obtain ⟨m, g, hm, hg, hran, -⟩ := hok r hr
    exact ⟨m, g, hm, hran, hg, hg.live⟩
  · obtain ⟨-, hr⟩ := Outcome.refuseIf_bind_eq_ok.mp hr
    cases hg : t.server.storedGraphs[device.toNat]?.join with
    | none =>
      simp only [hg] at hr
      cases hr
    | some g =>
      simp only [hg] at hr
      cases hr
      have hg : t.server.storedGraphs[device.toNat]? = some (some g) := Option.join_eq_some_iff.mp hg
      refine ⟨g, rfl, fun p r b hp hr hb => ?_⟩
      exact (inv_reachable h _ g hg p r b hp hr hb).resolve_right (hguard g hg p r b hp hr hb)

/-! ### Runs -/

/-- A tensor of 16 bytes at the start of the small buffer. -/
def smallRecord : RpcTensor := Server.recordWith #v[4, 1, 1, 1] #v[4, 16, 16, 16]

/-- A message with this tensor as its node. -/
def smallMessage : List UInt8 := graphBytes 0 [1] [smallRecord]

/-- A tensor that is in no buffer. -/
def looseRecord : RpcTensor :=
  { Server.recordWith #v[4, 1, 1, 1] #v[4, 16, 16, 16] with buffer := 0, data := 0 }

/-- A message with one tensor as two nodes. -/
def twiceMessage : List UInt8 := graphBytes 0 [1, 1] [looseRecord]

/-- The graph of the small message. -/
def smallGraph : StoredGraph :=
  { ctx := { tensors := [smallRecord.tensor GgmlType.f32 [Server.smallBuffer]], capacity := 2 }
    graph := { nodes := [some 0], visited := [some 0, none], useCounts := [0, 0] } }

/-- A server that has computed the small message. -/
def smallServer (buffers : List Buffer) : Server :=
  { buffers := buffers, storedGraphs := [some smallGraph] }

/-- A server with a buffer. -/
def bufferServer : Server := { buffers := [Server.smallBuffer], storedGraphs := [none] }

lemma parseGraph_small : parseGraph 1 smallMessage =
    .ok { device := 0, nodes := [1], tensors := [smallRecord] } := by decide +kernel

lemma sound_singleton (buffers : List Buffer) (recs : List RpcTensor) {id : UInt64}
    (h : id ≠ 0) : Sound buffers recs [] [id] := by
  intro pre id' post heq _
  cases pre with
  | nil =>
    cases heq
    exact ⟨not_mem_nil, fun hzero => absurd hzero h⟩
  | cons x pre =>
    have hlen := congrArg List.length heq
    simp at hlen

theorem graphs_run_small : ∃ t : Tracked, t.server = smallServer [Server.smallBuffer] ∧
    ∀ r, t.server.graphRecompute 0 = .ok r → ∃ g, r.ran = some g ∧ g.Live t.server.buffers := by
  have hgraph : bufferServer.serve id (.graphCompute smallMessage) =
      .ok { server := smallServer [Server.smallBuffer], accesses := []
            ran := some smallGraph } := by decide +kernel
  have hguard : Guard (init 1) (.allocBuffer 0 64 (some Server.smallBuffer)) := trivial
  have hstep : (init 1).step id (.allocBuffer 0 64 (some Server.smallBuffer)) =
      some { server := bufferServer, freed := fun _ => [] } := by
    rfl
  have h1 := Run.Reachable.init.step hguard hstep
  have hguard' : Guard { server := bufferServer, freed := fun _ => [] }
      (.graphCompute smallMessage) := by
    intro m hm
    cases parseGraph_small.symm.trans hm
    exact sound_singleton _ _ (by decide)
  have hstep' : step id { server := bufferServer, freed := fun _ => [] }
      (.graphCompute smallMessage) = some
        { server := smallServer [Server.smallBuffer]
          freed := freedAfter { server := bufferServer, freed := fun _ => [] }
            (.graphCompute smallMessage) } := by
    rw [step, hgraph]
    rfl
  have h2 := h1.step hguard' hstep'
  have hfreed : freedAfter { server := bufferServer, freed := fun _ => [] }
      (.graphCompute smallMessage) = fun _ => [] := by
    funext device
    simp only [freedAfter]
    split
    · split <;> rfl
    · rfl
  rw [hfreed] at h2
  exact ⟨_, rfl, (graphs_run h2).2.2 0 fun g _ p r b _ _ _ => List.not_mem_nil⟩

/-- A node that comes twice makes the server write outside of its use counts, and a graph runs after
its buffer was freed. -/
theorem not_safe_message :
    (¬∀ (cmds : List Cmd) (s : Server), cmds.foldlM (Server.step id) (Server.init 1) = some s →
      ∀ input, (s.graphCompute id input).Safe) ∧
    ¬∀ (cmds : List Cmd) (s : Server), cmds.foldlM (Server.step id) (Server.init 1) = some s →
      ∀ r g, s.graphRecompute 0 = .ok r → r.ran = some g → g.Live s.buffers := by
  constructor
  · intro hall
    have hnil : ([] : List Cmd).foldlM (Server.step id) (Server.init 1) =
        some (Server.init 1) := List.foldlM_nil ..
    have hwrite : (Server.init 1).graphCompute id twiceMessage = .wroteOutside := by
      decide +kernel
    have hne : ∀ input, (Server.init 1).graphCompute id input ≠ .wroteOutside :=
      fun input => (hall [] _ hnil input).ne_wroteOutside
    exact hne twiceMessage hwrite
  · intro hall
    have hrun : [Cmd.allocBuffer 0 64 (some Server.smallBuffer), .graphCompute smallMessage,
        .freeBuffer 16].foldlM (Server.step id) (Server.init 1) = some (smallServer []) := by
      decide +kernel
    have hlive := hall _ _ hrun { server := smallServer [], accesses := [], ran := some smallGraph }
      smallGraph (by decide +kernel) rfl
    have hreach : Reaches smallGraph.graph.nodes smallGraph.mem 0 :=
      .node (List.mem_singleton.mpr rfl)
    have hmem := hlive 0 (smallRecord.tensor GgmlType.f32 [Server.smallBuffer]) Server.smallBuffer
      hreach rfl (by decide +kernel)
    exact absurd hmem List.not_mem_nil

end Tracked

end Llama.Rpc
