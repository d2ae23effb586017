import Llama.Alloc

/-!
# The graph allocator

`ggml_gallocr_alloc_graph_impl` plans the memory of a computation graph.  It visits the nodes
in the order in which they run: a node takes over the memory of a source that nobody else
reads, or is given new memory, and the memory of a source is freed after its last reader.  When
that is, is told by two counters of each tensor, of the nodes that still read it and of its
views that are still read.

Tensors are numbers, as pointers are, and a null source is `none`.  The buffer types of the
backends are numbers too; two buffers of the same type share an allocator, which is therefore
looked up by the type.  The size that a backend gives to a tensor is a parameter.  `none` is a
failed `GGML_ASSERT`.
-/

namespace Llama

/-! ## Graphs -/

/-- `ggml_op`: no operation, those that `ggml_op_can_inplace` lists, and the others. -/
inductive Op
  | none
  | fill
  | scale
  | diagMaskZero
  | diagMaskInf
  | add
  | addId
  | add1
  | sub
  | mul
  | div
  | sqr
  | sqrt
  | log
  | unary
  | rope
  | ropeBack
  | siluBack
  | rmsNorm
  | rmsNormBack
  | clamp
  | softMax
  | softMaxBack
  | other (op : ℕ)
  deriving DecidableEq, Repr

/-- `ggml_op_can_inplace`. -/
def Op.canInplace : Op → Bool
  | .none => false
  | .other _ => false
  | _ => true

/-- The fields of `ggml_tensor` that the allocator reads. -/
structure Tensor where
  op : Op
  src : List (Option ℕ)
  viewSrc : Option ℕ
  data : ℕ
  buffer : Bool
  input : Bool
  output : Bool
  type : ℕ
  ne : List ℕ
  nb : List ℕ
  deriving DecidableEq, Repr

/-- The sources that are not null. -/
def Tensor.sources (t : Tensor) : List ℕ := t.src.filterMap id

/-- `ggml_are_same_layout`. -/
def Tensor.sameLayout (a b : Tensor) : Bool := a.type = b.type ∧ a.ne = b.ne ∧ a.nb = b.nb

/-- `ggml_cgraph`. -/
structure Cgraph where
  tensor : ℕ → Tensor
  nodes : List ℕ
  leafs : List ℕ

/-- `ggml_impl_is_view`. -/
def Cgraph.isView (g : Cgraph) (t : ℕ) : Bool := (g.tensor t).viewSrc.isSome

/-- The tensor itself or, for a view, the one it views is flagged as an output. -/
def Cgraph.outputOrView (g : Cgraph) (t : ℕ) : Bool :=
  (g.tensor t).output || match (g.tensor t).viewSrc with
    | none => false
    | some x => (g.tensor x).output

/-! ## The allocator -/

structure HashNode where
  nChildren : ℤ
  nViews : ℤ
  bufferId : ℤ
  addr : BufferAddress
  allocated : Bool
  deriving DecidableEq, Repr

/-- A `hash_node` after `memset`. -/
def HashNode.zero : HashNode := ⟨0, 0, 0, ⟨0, 0⟩, false⟩

/-- The buffers: the type of each, and what the backends say about a type. -/
structure Bufts where
  buft : ℤ → ℕ
  alignment : ℕ → ℕ
  maxSize : ℕ → ℕ
  allocSize : ℕ → ℕ → ℕ

/-- The part of `ggml_gallocr` that a plan changes. -/
structure Gallocr where
  tallocs : ℕ → DynTallocr
  hash : ℕ → HashNode

namespace Gallocr

variable (B : Bufts) (g : Cgraph)

/-- The allocators after `ggml_dyn_tallocr_reset`, and the cleared hash table. -/
def start : Gallocr := ⟨fun b => .new (B.alignment b) (B.maxSize b), fun _ => .zero⟩

/-- Change the entry of a tensor. -/
def setHash (s : Gallocr) (t : ℕ) (f : HashNode → HashNode) : Gallocr :=
  { s with hash := Function.update s.hash t (f (s.hash t)) }

/-- The allocator of a buffer. -/
def talloc (s : Gallocr) (bufferId : ℤ) : DynTallocr := s.tallocs (B.buft bufferId)

/-- Change the allocator of a buffer. -/
def setTalloc (s : Gallocr) (bufferId : ℤ) (a : DynTallocr) : Gallocr :=
  { s with tallocs := Function.update s.tallocs (B.buft bufferId) a }

/-- `ggml_gallocr_is_own`. -/
def isOwn (s : Gallocr) (t : ℕ) : Bool := (s.hash t).allocated

/-- `ggml_gallocr_is_allocated`. -/
def isAllocated (s : Gallocr) (t : ℕ) : Bool :=
  (g.tensor t).data != 0 || (g.tensor t).buffer || s.isOwn t

/-- The size of a tensor in the buffer that its entry names. -/
def sizeOf (s : Gallocr) (t : ℕ) : ℕ := B.allocSize (B.buft (s.hash t).bufferId) t

/-- `ggml_gallocr_free_extra_space`. -/
def freeExtraSpace (s : Gallocr) (node parent : ℕ) : Option Gallocr :=
  if s.sizeOf B node ≤ s.sizeOf B parent then
    let ph := s.hash parent
    let a := s.talloc B ph.bufferId
    let parentSize := alignedOffset (s.sizeOf B parent) a.alignment
    let nodeSize := alignedOffset (s.sizeOf B node) a.alignment
    if nodeSize < parentSize then
      (a.freeBytes ⟨ph.addr.chunk, addSize ph.addr.offset nodeSize⟩ (parentSize - nodeSize)).map
        (s.setTalloc B ph.bufferId)
    else some s
  else none

/-- The entry of `node` takes over the memory of `parent`. -/
def takeOver (s : Gallocr) (node parent : ℕ) : Gallocr :=
  let ph := s.hash parent
  (s.setHash node fun hn => { hn with bufferId := ph.bufferId, addr := ph.addr }).setHash parent
    fun hn => { hn with allocated := false }

/-- The loop of `ggml_gallocr_allocate_node` over the sources: `some none` when no memory is
reused. -/
def reuseParent (s : Gallocr) (node : ℕ) : List ℕ → Option (Option Gallocr)
  | [] => some none
  | parent :: rest =>
    let ph := s.hash parent
    if s.isOwn parent && !g.outputOrView parent &&
        (g.tensor node).sameLayout (g.tensor parent) && (ph.nChildren = 1 && ph.nViews = 0) then
      match (g.tensor parent).viewSrc with
      | some x =>
        if (s.hash x).nViews = 1 ∧ (s.hash x).nChildren = 0 ∧
            (g.tensor x).data = (g.tensor parent).data then
          (((s.takeOver node parent).setHash x fun hn =>
            { hn with allocated := false }).freeExtraSpace B node x).map some
        else reuseParent s node rest
      | none => ((s.takeOver node parent).freeExtraSpace B node parent).map some
    else reuseParent s node rest

/-- New memory for a node. -/
def allocNew (s : Gallocr) (node : ℕ) (bufferId : ℤ) : Option Gallocr :=
  ((s.talloc B bufferId).alloc (B.allocSize (B.buft bufferId) node)).map fun res =>
    (s.setTalloc B bufferId res.2).setHash node fun hn =>
      { hn with bufferId := bufferId, addr := res.1 }

/-- `ggml_gallocr_allocate_node`. -/
def allocateNode (s : Gallocr) (node : ℕ) (bufferId : ℤ) : Option Gallocr :=
  if bufferId < 0 then none
  else if s.isAllocated g node || g.isView node then some s
  else
    let s := s.setHash node fun hn => { hn with allocated := true }
    if (g.tensor node).op.canInplace then
      match s.reuseParent B g node (g.tensor node).sources with
      | none => none
      | some (some s') => some s'
      | some none => s.allocNew B node bufferId
    else s.allocNew B node bufferId

/-- `ggml_gallocr_free_node`. -/
def freeNode (s : Gallocr) (node : ℕ) : Option Gallocr :=
  if (g.tensor node).output then some s
  else
    let hn := s.hash node
    ((s.talloc B hn.bufferId).freeBytes hn.addr (s.sizeOf B node)).map fun a =>
      (s.setTalloc B hn.bufferId a).setHash node fun hn => { hn with allocated := false }

/-! ## The plan -/

/-- A node counts as a reader of its source, which is allocated if it is an input. -/
def countSrc (bufferId : ℤ) (s : Gallocr) (src : ℕ) : Option Gallocr :=
  let s := s.setHash src fun hn => { hn with nChildren := hn.nChildren + 1 }
  if (g.tensor src).input then s.allocateNode B g src bufferId else some s

/-- A view that is not a mere dependency counts as a view of the tensor it views. -/
def countView (s : Gallocr) (node : ℕ) : Gallocr :=
  match (g.tensor node).viewSrc with
  | none => s
  | some x =>
    if (g.tensor node).op ≠ .none then s.setHash x fun hn => { hn with nViews := hn.nViews + 1 }
    else s

/-- The counting loop of `ggml_gallocr_alloc_graph_impl`. -/
def countNode (s : Gallocr) (node : ℕ × ℤ) : Option Gallocr :=
  let s := s.countView g node.1
  (if (g.tensor node.1).input then s.allocateNode B g node.1 node.2 else some s).bind fun s =>
    (g.tensor node.1).sources.foldlM (countSrc B g node.2) s

/-- A node has read `parent`. -/
def updateParent (s : Gallocr) (parent : ℕ) : Option Gallocr :=
  let s := s.setHash parent fun hn => { hn with nChildren := hn.nChildren - 1 }
  let ph := s.hash parent
  if ph.nChildren = 0 ∧ ph.nViews = 0 then
    match (g.tensor parent).viewSrc with
    | some x =>
      let s := s.setHash x fun hn => { hn with nViews := hn.nViews - 1 }
      let xh := s.hash x
      if xh.nViews = 0 ∧ xh.nChildren = 0 ∧ xh.allocated = true then s.freeNode B g x else some s
    | none => if ph.allocated then s.freeNode B g parent else some s
  else some s

/-- Allocate the parents of a node, of which only leafs need it. -/
def allocParents (bufferId : ℤ) (s : Gallocr) (parents : List ℕ) : Option Gallocr :=
  parents.foldlM (fun (s : Gallocr) parent => s.allocateNode B g parent bufferId) s

/-- The allocating loop of `ggml_gallocr_alloc_graph_impl`. -/
def allocNode (s : Gallocr) (node : ℕ × ℤ) : Option Gallocr :=
  (s.allocParents B g node.2 (g.tensor node.1).sources).bind fun s =>
    (s.allocateNode B g node.1 node.2).bind fun s =>
      (g.tensor node.1).sources.foldlM (updateParent B g) s

/-- `ggml_gallocr_alloc_graph_impl`.  `nodeIds` and `leafIds` are `get_node_buffer_id`. -/
def allocGraph (nodeIds leafIds : ℕ → ℤ) : Option Gallocr :=
  let nodes := g.nodes.zipIdx.map fun x => (x.1, nodeIds x.2)
  (g.leafs.zipIdx.foldlM (fun (s : Gallocr) x => s.allocateNode B g x.1 (leafIds x.2))
      (start B)).bind fun s =>
    (nodes.foldlM (countNode B g) s).bind fun s =>
      nodes.foldlM (allocNode B g) s

end Gallocr
end Llama
