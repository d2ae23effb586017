import Llama.Gallocr.Plan

/-!
# Reusing a plan for another graph

`ggml_gallocr_reserve` keeps, for every node and leaf of a graph, where it lies and how large it
was, and the same for the sources of every node.  `ggml_gallocr_alloc_graph` gives these places
to the nodes and leafs of another graph, unless `ggml_gallocr_needs_realloc` says that a new
plan is needed.  It compares the numbers of nodes and leafs and the sizes, but not which node
reads which.

The old places are safe for the new graph when it needs no tensor for longer than the old graph
needed the tensor at the same position: this is `Covers`.
-/

namespace Llama

open Extent List

/-- `tensor_alloc`.  The invalid address is `none`. -/
structure TensorAlloc where
  bufferId : ℤ
  addr : Option BufferAddress
  sizeMax : ℕ
  deriving DecidableEq, Repr

/-- The entry of a tensor that is given no memory. -/
def TensorAlloc.unused : TensorAlloc := ⟨-1, none, 0⟩

structure NodeAlloc where
  dst : TensorAlloc
  src : List TensorAlloc
  deriving DecidableEq, Repr

/-- The tables of a plan: `node_allocs` and `leaf_allocs`. -/
structure Reserved where
  nodeAllocs : List NodeAlloc
  leafAllocs : List TensorAlloc
  deriving DecidableEq, Repr

namespace Gallocr

open Cgraph

/-! ## The tables -/

/-- The entry of a tensor. -/
def tensorAlloc (B : Bufts) (g : Cgraph) (s : Gallocr) (t : ℕ) : TensorAlloc :=
  if g.isView t || (g.tensor t).data != 0 then .unused
  else ⟨(s.hash t).bufferId, some (s.hash t).addr, s.sizeOf B t⟩

/-- The entry of a node. -/
def nodeAlloc (B : Bufts) (g : Cgraph) (s : Gallocr) (n : ℕ) : NodeAlloc :=
  ⟨s.tensorAlloc B g n, (g.tensor n).src.map fun p => p.elim .unused (s.tensorAlloc B g)⟩

/-- The tables that `ggml_gallocr_reserve_n_impl` sets from the hash table. -/
def reserved (B : Bufts) (g : Cgraph) (s : Gallocr) : Reserved :=
  ⟨g.nodes.map (s.nodeAlloc B g), g.leafs.map (s.tensorAlloc B g)⟩

/-- `ggml_gallocr_node_needs_realloc`, which is true when the tensor fits. -/
def nodeNeedsRealloc (B : Bufts) (g : Cgraph) (t : ℕ) (talloc : TensorAlloc) : Bool :=
  if (g.tensor t).data = 0 ∧ g.isView t = false then
    if talloc.bufferId < 0 then false
    else B.allocSize (B.buft talloc.bufferId) t ≤ talloc.sizeMax
  else true

/-- A source of a node fits in the entry of its slot. -/
def srcFits (B : Bufts) (g : Cgraph) (src : List TensorAlloc) (slot : Option ℕ × ℕ) : Bool :=
  slot.1.elim true fun p => nodeNeedsRealloc B g p (src[slot.2]?.getD .unused)

/-- `ggml_gallocr_needs_realloc`. -/
def needsRealloc (B : Bufts) (res : Reserved) (g : Cgraph) : Bool :=
  res.nodeAllocs.length ≠ g.nodes.length || res.leafAllocs.length ≠ g.leafs.length ||
    (g.nodes.zip res.nodeAllocs).any fun x =>
      !nodeNeedsRealloc B g x.1 x.2.dst ||
        (g.tensor x.1).src.zipIdx.any fun slot => !srcFits B g x.2.src slot

/-- `ggml_gallocr_init_tensor`.  A tensor gets its memory once; `none` is a tensor with a
buffer, or an entry without one. -/
def initTensor (g : Cgraph) (data : ℕ → Option TensorAlloc) (x : ℕ × TensorAlloc) :
    Option (ℕ → Option TensorAlloc) :=
  if g.isView x.1 || (g.tensor x.1).data != 0 || (data x.1).isSome then some data
  else if (g.tensor x.1).buffer || x.2.bufferId < 0 then none
  else some (Function.update data x.1 (some x.2))

/-- The sources of a node and the node itself, with their entries. -/
def nodeInits (g : Cgraph) (x : ℕ × NodeAlloc) : List (ℕ × TensorAlloc) :=
  ((g.tensor x.1).src.zipIdx.filterMap fun slot =>
    slot.1.map fun p => (p, x.2.src[slot.2]?.getD .unused)) ++ [(x.1, x.2.dst)]

/-- The part of `ggml_gallocr_alloc_graph` that gives the places of the tables to the tensors. -/
def initGraph (res : Reserved) (g : Cgraph) : Option (ℕ → Option TensorAlloc) :=
  ((g.leafs.zip res.leafAllocs).foldlM (initTensor g) fun _ => none).bind fun data =>
    (g.nodes.zip res.nodeAllocs).foldlM (fun data x => (nodeInits g x).foldlM (initTensor g) data)
      data

/-- The memory of a tensor that has been given a place. -/
def initPlace (B : Bufts) (data : ℕ → Option TensorAlloc) (t : ℕ) : Place :=
  let talloc := (data t).getD .unused
  let addr := talloc.addr.getD ⟨0, 0⟩
  ⟨⟨addr.chunk, addr.offset, B.allocSize (B.buft talloc.bufferId) t⟩, B.buft talloc.bufferId⟩

/-! ## When the old places are safe -/

/-- The graph `g2` needs no tensor for longer than `g1` needed the tensor at the same position.
The function `pos` takes a tensor of `g2` to the tensor of `g1` at its position. -/
structure Covers (B1 B2 : Bufts) (g1 g2 : Cgraph) (pos : ℕ → ℕ) : Prop where
  /-- The positions. -/
  nodes : g2.nodes.map pos = g1.nodes
  leafs : g2.leafs.map pos = g1.leafs
  injective : ∀ t ∈ g2.nodes ++ g2.leafs, ∀ u ∈ g2.nodes ++ g2.leafs, pos t = pos u → t = u
  /-- What is given memory was given memory, and a leaf is not larger than the old one. -/
  own : ∀ t ∈ g2.nodes ++ g2.leafs, g2.Own t → g1.Own (pos t)
  leaf_size : ∀ t ∈ g2.leafs, g2.Own t → ∀ b, B2.allocSize b t ≤ B1.allocSize b (pos t)
  /-- A node writes where the old node wrote. -/
  root : ∀ n ∈ g2.nodes, g2.Own (g2.root n) → g1.root (pos n) = pos (g2.root n)
  view_op : ∀ n ∈ g2.nodes, (g2.isView n = true → (g2.tensor n).op ≠ .none) →
    g1.isView (pos n) = true → (g1.tensor (pos n)).op ≠ .none
  /-- Inputs were inputs, and outputs were outputs. -/
  input : ∀ n ∈ g2.nodes, (g2.tensor n).input = true → (g1.tensor (pos n)).input = true
  output : ∀ o ∈ g2.nodes ++ g2.leafs, (g2.tensor o).output = true → g2.Own (g2.root o) →
    ∃ o1 ∈ g1.nodes ++ g1.leafs, (g1.tensor o1).output = true ∧ g1.root o1 = pos (g2.root o)
  /-- Data that is read was still read by the old graph at that node or later. -/
  reads : ∀ pre post, g2.nodes = pre ++ post → ∀ r ∈ g2.reads post, g2.Own (g2.root r) →
    ∃ r1 ∈ g1.reads (post.map pos), g1.root r1 = pos (g2.root r)
  /-- Data that is read by a node that was computed in place of it can be overwritten by it. -/
  inPlace : ∀ n ∈ g2.nodes, ∀ r ∈ (g2.tensor n).sources, g2.Own (g2.root r) →
    InPlace g1 (pos n) (pos (g2.root r)) → InPlace g2 n (g2.root r)

variable {B1 B2 : Bufts} {g1 g2 : Cgraph} {pos : ℕ → ℕ} {s : Gallocr}

/-- What holds while the leafs and the nodes `done` have been given their places. -/
structure Placed (B1 : Bufts) (g1 g2 : Cgraph) (pos : ℕ → ℕ) (s : Gallocr) (given : List ℕ)
    (data : ℕ → Option TensorAlloc) : Prop where
  mem : ∀ t talloc, data t = some talloc → t ∈ given ∧ talloc = s.tensorAlloc B1 g1 (pos t)
  given : ∀ t ∈ given, g2.Own t → (data t).isSome = true

variable {data : ℕ → Option TensorAlloc}

lemma Placed.init {given : List ℕ} {data' : ℕ → Option TensorAlloc} {t : ℕ}
    (h : Placed B1 g1 g2 pos s given data)
    (hs : initTensor g2 data (t, s.tensorAlloc B1 g1 (pos t)) = some data') :
    Placed B1 g1 g2 pos s (given ++ [t]) data' := by
  unfold initTensor at hs
  split at hs
  · rename_i hcond
    cases hs
    refine ⟨fun u talloc hu => ⟨mem_append_left _ (h.mem u talloc hu).1, (h.mem u talloc hu).2⟩,
      fun u hu ho => ?_⟩
    rcases mem_append.mp hu with hu | hu
    · exact h.given u hu ho
    · rw [mem_singleton.mp hu] at ho ⊢
      simp only [ho.1, ho.2.1] at hcond
      exact hcond
  · split at hs
    · cases hs
    · cases hs
      refine ⟨fun u talloc hu => ?_, fun u hu ho => ?_⟩
      · by_cases hut : u = t
        · subst hut
          rw [Function.update_self, Option.some.injEq] at hu
          exact ⟨by simp, hu.symm⟩
        · rw [Function.update_of_ne hut] at hu
          exact ⟨mem_append_left _ (h.mem u talloc hu).1, (h.mem u talloc hu).2⟩
      · by_cases hut : u = t
        · rw [hut, Function.update_self]
          rfl
        · rw [Function.update_of_ne hut]
          refine h.given u ?_ ho
          rcases mem_append.mp hu with hu | hu
          · exact hu
          · exact absurd (mem_singleton.mp hu) hut

/-- A tensor that has its place keeps it, whatever entry comes with it. -/
lemma Placed.init_again {given : List ℕ} {data' : ℕ → Option TensorAlloc} {t : ℕ}
    {talloc : TensorAlloc} (h : Placed B1 g1 g2 pos s given data) (ht : t ∈ given)
    (hs : initTensor g2 data (t, talloc) = some data') : data' = data := by
  unfold initTensor at hs
  split at hs
  · cases hs
    rfl
  · rename_i hcond
    simp only [Bool.or_eq_true, not_or, Bool.not_eq_true, bne_eq_false_iff_eq] at hcond
    split at hs
    · cases hs
    · rename_i hbuf
      simp only [Bool.or_eq_true, not_or, Bool.not_eq_true] at hbuf
      have hsome := h.given t ht ⟨hcond.1.1, hcond.1.2, hbuf.1⟩
      rw [hcond.2] at hsome
      cases hsome

lemma Placed.leafs : ∀ (leafs : List ℕ) {given : List ℕ} {data data' : ℕ → Option TensorAlloc},
    Placed B1 g1 g2 pos s given data →
    (leafs.zip (leafs.map fun t => s.tensorAlloc B1 g1 (pos t))).foldlM (initTensor g2) data =
      some data' → Placed B1 g1 g2 pos s (given ++ leafs) data' := by
  intro leafs
  induction leafs with
  | nil =>
    intro given data data' h hs
    cases hs
    simpa using h
  | cons t leafs ih =>
    intro given data data' h hs
    obtain ⟨data1, hs1, hrest⟩ := Option.bind_eq_some_iff.mp hs
    simpa using ih (h.init hs1) hrest

lemma Placed.again : ∀ (inits : List (ℕ × TensorAlloc)) {given : List ℕ}
    {data data' : ℕ → Option TensorAlloc}, Placed B1 g1 g2 pos s given data →
      (∀ x ∈ inits, x.1 ∈ given) → inits.foldlM (initTensor g2) data = some data' →
      data' = data := by
  intro inits
  induction inits with
  | nil =>
    intro given data data' _ _ hs
    cases hs
    rfl
  | cons x inits ih =>
    intro given data data' h hsub hs
    obtain ⟨hx, hsub⟩ := forall_mem_cons.mp hsub
    obtain ⟨data1, hs1, hrest⟩ := Option.bind_eq_some_iff.mp hs
    have heq := h.init_again hx hs1
    rw [heq] at hrest
    exact ih h hsub hrest

lemma mem_sources {t : Tensor} {p : ℕ} : p ∈ t.sources ↔ some p ∈ t.src := by
  simp [Tensor.sources]

/-- **The nodes are given their places, one after another.**  The sources of a node have theirs. -/
theorem Placed.nodes (hg : g2.Topological) : ∀ (nodes : List ℕ) {pre : List ℕ}
    {data data' : ℕ → Option TensorAlloc}, g2.nodes = pre ++ nodes →
      Placed B1 g1 g2 pos s (g2.leafs ++ pre) data →
      (nodes.zip (nodes.map fun n => s.nodeAlloc B1 g1 (pos n))).foldlM
        (fun data x => (nodeInits g2 x).foldlM (initTensor g2) data) data = some data' →
      Placed B1 g1 g2 pos s (g2.leafs ++ g2.nodes) data' := by
  intro nodes
  induction nodes with
  | nil =>
    intro pre data data' hn h hs
    cases hs
    rw [append_nil] at hn
    rwa [hn]
  | cons n nodes ih =>
    intro pre data data' hn h hs
    rw [map_cons, zip_cons_cons, foldlM_cons] at hs
    obtain ⟨data1, hs1, hrest⟩ := Option.bind_eq_some_iff.mp hs
    rw [nodeInits, foldlM_append] at hs1
    obtain ⟨data0, hs0, hs1⟩ := Option.bind_eq_some_iff.mp hs1
    have heq : data0 = data := by
      refine h.again _ (fun x hx => ?_) hs0
      obtain ⟨slot, hslot, hx⟩ := mem_filterMap.mp hx
      obtain ⟨p, hp, rfl⟩ := Option.map_eq_some_iff.mp hx
      have hmem : p ∈ (g2.tensor n).sources := by
        rw [mem_sources, ← hp]
        exact fst_mem_of_mem_zipIdx hslot
      rcases hg.src_mem _ _ _ hn p hmem with hleaf | hpre
      · exact mem_append_left _ hleaf
      · exact mem_append_right _ hpre
    rw [heq] at hs1
    obtain ⟨data2, hs2, hs1⟩ := Option.bind_eq_some_iff.mp hs1
    cases hs1
    have h1 := h.init hs2
    rw [append_assoc] at h1
    exact ih (by simp [hn]) h1 hrest

lemma placed_initGraph (hg : g2.Topological) (hcov : Covers B1 B2 g1 g2 pos)
    (hs : initGraph (s.reserved B1 g1) g2 = some data) :
    Placed B1 g1 g2 pos s (g2.leafs ++ g2.nodes) data := by
  obtain ⟨data1, hs1, hs2⟩ := Option.bind_eq_some_iff.mp hs
  simp only [reserved, ← hcov.leafs, map_map] at hs1
  simp only [reserved, ← hcov.nodes, map_map] at hs2
  have hstart : Placed B1 g1 g2 pos s [] fun _ => none := ⟨by simp, by simp⟩
  have h1 := Placed.leafs _ hstart hs1
  have hn : g2.nodes = [] ++ g2.nodes := rfl
  refine Placed.nodes hg _ hn ?_ hs2
  simpa using h1

/-- The place of a tensor of the new graph lies in the place of the old tensor. -/
lemma Placed.front {t : ℕ} (h : Placed B1 g1 g2 pos s (g2.leafs ++ g2.nodes) data)
    (hcov : Covers B1 B2 g1 g2 pos) (hbuft : B2.buft = B1.buft)
    (hfits : needsRealloc B2 (s.reserved B1 g1) g2 = false) (ht : t ∈ g2.nodes ++ g2.leafs)
    (ho : g2.Own t) :
    (initPlace B2 data t).buft = (s.place B1 (pos t)).buft ∧
      (initPlace B2 data t).chunk = (s.place B1 (pos t)).chunk ∧
      (initPlace B2 data t).offset = (s.place B1 (pos t)).offset ∧
      (initPlace B2 data t).size ≤ (s.place B1 (pos t)).size := by
  have ho1 := hcov.own t ht ho
  have hentry : s.tensorAlloc B1 g1 (pos t) =
      ⟨(s.hash (pos t)).bufferId, some (s.hash (pos t)).addr, s.sizeOf B1 (pos t)⟩ := by
    rw [tensorAlloc, ho1.1, ho1.2.1]
    rfl
  have hsome := h.given t (by simpa [or_comm] using ht) ho
  obtain ⟨talloc, hdata⟩ := Option.isSome_iff_exists.mp hsome
  have htalloc := (h.mem t talloc hdata).2
  rw [hentry] at htalloc
  have hplace : initPlace B2 data t = ⟨⟨(s.hash (pos t)).addr.chunk, (s.hash (pos t)).addr.offset,
      B2.allocSize (B1.buft (s.hash (pos t)).bufferId) t⟩, B1.buft (s.hash (pos t)).bufferId⟩ := by
    simp [initPlace, hdata, htalloc, hbuft]
  have hsize : B2.allocSize (B1.buft (s.hash (pos t)).bufferId) t ≤ s.sizeOf B1 (pos t) := by
    rcases mem_append.mp ht with hnode | hleaf
    · -- the node was compared with its entry
      simp only [needsRealloc, reserved, ← hcov.nodes, map_map, Bool.or_eq_false_iff,
        any_eq_false] at hfits
      have hmem : (t, s.nodeAlloc B1 g1 (pos t)) ∈
          g2.nodes.zip (g2.nodes.map (s.nodeAlloc B1 g1 ∘ pos)) := by
        rw [zip_map_right, mem_map]
        refine ⟨(t, t), ?_, rfl⟩
        obtain ⟨i, hi⟩ := mem_iff_getElem?.mp hnode
        exact mem_of_getElem? (i := i) (by rw [getElem?_zip_eq_some]; exact ⟨hi, hi⟩)
      have hcheck := hfits.2 _ hmem
      simp only [Bool.or_eq_true, not_or, Bool.not_eq_true', Bool.not_eq_false] at hcheck
      have hdst := hcheck.1
      rw [nodeAlloc, hentry, nodeNeedsRealloc, if_pos ⟨ho.2.1, ho.1⟩] at hdst
      split at hdst
      · cases hdst
      · rw [hbuft] at hdst
        exact of_decide_eq_true hdst
    · exact hcov.leaf_size t hleaf ho _
  rw [hplace]
  exact ⟨rfl, rfl, rfl, hsize.trans (le_padUp _ _)⟩

lemma Ready.mem {g : Cgraph} {pre post : List ℕ} {t : ℕ} (hn : g.nodes = pre ++ post)
    (h : g.Ready pre t) : t ∈ g.nodes ++ g.leafs := by
  rcases h with h | h | h
  · exact mem_append_right _ h
  · rw [hn]
    exact mem_append_left _ (mem_append_left _ h)
  · exact mem_append_left _ h.1

lemma Covers.ready {pre post : List ℕ} {t : ℕ} (hcov : Covers B1 B2 g1 g2 pos)
    (hn : g2.nodes = pre ++ post) (h : g2.Ready pre t) : g1.Ready (pre.map pos) (pos t) := by
  rcases h with h | h | ⟨h, hin⟩
  · refine Or.inl ?_
    rw [← hcov.leafs]
    exact mem_map_of_mem h
  · exact Or.inr (Or.inl (mem_map_of_mem h))
  · refine Or.inr (Or.inr ⟨?_, hcov.input t h hin⟩)
    rw [← hcov.nodes]
    exact mem_map_of_mem h

/-- Node 2 reads the tensor `a` and node 4 the tensor `b`. -/
def chainGraph (a b : ℕ) : Cgraph where
  tensor := fun t =>
    if t = 1 then plainTensor (.other 0) [0]
    else if t = 2 then plainTensor (.other 0) [a]
    else if t = 3 then plainTensor (.other 1) [2, 0]
    else if t = 4 then plainTensor (.other 0) [b]
    else plainTensor .none []
  nodes := [1, 2, 3, 4]
  leafs := [0]

lemma chainGraph_tensor (a b t : ℕ) : ((chainGraph a b).tensor t).viewSrc = none ∧
    ((chainGraph a b).tensor t).data = 0 ∧ ((chainGraph a b).tensor t).buffer = false ∧
    ((chainGraph a b).tensor t).input = false ∧ ((chainGraph a b).tensor t).output = false ∧
    ((chainGraph a b).tensor t).op.canInplace = false := by
  simp only [chainGraph]
  split
  · exact ⟨rfl, rfl, rfl, rfl, rfl, rfl⟩
  · split
    · exact ⟨rfl, rfl, rfl, rfl, rfl, rfl⟩
    · split
      · exact ⟨rfl, rfl, rfl, rfl, rfl, rfl⟩
      · split <;> exact ⟨rfl, rfl, rfl, rfl, rfl, rfl⟩

lemma topological_chainGraph {a b : ℕ} (h : ∀ pre n post, (chainGraph a b).nodes = pre ++ n :: post →
    ∀ s ∈ ((chainGraph a b).tensor n).sources, s ∈ (chainGraph a b).leafs ∨ s ∈ pre) :
    (chainGraph a b).Topological where
  nodup := by simp [chainGraph]
  leaf_notMem := by simp [chainGraph]
  leaf_op := by simp [chainGraph, plainTensor]
  src_mem := h
  view_mem := by
    intro pre n post _ x hx
    rw [(chainGraph_tensor a b n).1] at hx
    cases hx
  view_root := by
    intro v x hx
    rw [(chainGraph_tensor a b v).1] at hx
    cases hx

lemma plain_chainGraph (a b : ℕ) : (chainGraph a b).Plain where
  inputs := by
    intro t _ hin
    rw [(chainGraph_tensor a b t).2.2.2.1] at hin
    cases hin
  views := by
    intro n _ v _ x hx
    rw [(chainGraph_tensor a b v).1] at hx
    cases hx
  outputs := by
    intro o _ hout
    rw [(chainGraph_tensor a b o).2.2.2.2.1] at hout
    cases hout

lemma root_chainGraph (a b t : ℕ) : (chainGraph a b).root t = t :=
  root_of_not_view (by simp [isView, (chainGraph_tensor a b t).1])

lemma topological_chainGraph_one_three : (chainGraph 1 3).Topological := by
  refine topological_chainGraph ?_
  repeat' first | exact forall_split_nil | refine forall_split_cons (by decide) ?_

end Gallocr
end Llama
