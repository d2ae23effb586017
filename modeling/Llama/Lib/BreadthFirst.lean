import Mathlib.Data.List.Nodup
import Mathlib.Logic.Relation

/-!
# Breadth first through a tree

The nodes of a tree are visited with a queue: the first one is taken out, and its children are
put at the end.  The nodes come in the order of their depth, so before a node is visited, every
node that is not deeper was put into the queue (`Inv.before`), and in the end all of them were
visited (`Inv.complete`).
-/

namespace BreadthFirst

open List

variable {α : Type}

/-- Every node has at most one parent, and is one deeper. -/
structure Tree (root : α) (children : α → List α) (depth : α → ℕ) : Prop where
  depth_root : depth root = 0
  depth_child : ∀ {u v}, v ∈ children u → depth v = depth u + 1
  nodup : ∀ u, (children u).Nodup
  parent_unique : ∀ {u u' v}, v ∈ children u → v ∈ children u' → u = u'

/-- The nodes below the root. -/
def Reach (root : α) (children : α → List α) : α → Prop :=
  Relation.ReflTransGen (fun u v => v ∈ children u) root

/-- What holds of the nodes visited so far and of those in the queue. -/
structure Inv (root : α) (children : α → List α) (depth : α → ℕ) (order queue : List α) : Prop where
  root_mem : root ∈ order ++ queue
  nodup : (order ++ queue).Nodup
  sorted : (order ++ queue).Pairwise fun a b => depth a ≤ depth b
  span : ∀ a ∈ order ++ queue, ∀ b ∈ queue, depth a ≤ depth b + 1
  closed : ∀ u ∈ order, ∀ v ∈ children u, v ∈ order ++ queue
  parent : ∀ v ∈ order ++ queue, v = root ∨ ∃ u ∈ order, v ∈ children u

variable {root u v : α} {children : α → List α} {depth : α → ℕ} {order queue : List α}

lemma inv_root (root : α) (children : α → List α) (depth : α → ℕ) :
    Inv root children depth [] [root] where
  root_mem := mem_singleton_self root
  nodup := nodup_singleton root
  sorted := pairwise_singleton _ root
  span a ha b hb := by
    rw [mem_singleton.mp ha, mem_singleton.mp hb]
    exact Nat.le_succ _
  closed _ hu := absurd hu not_mem_nil
  parent v hv := .inl (mem_singleton.mp hv)

/-- The nodes behind one in the queue are at least as deep. -/
lemma Inv.depth_le (h : Inv root children depth order (u :: queue)) (hv : v ∈ queue) :
    depth u ≤ depth v :=
  (pairwise_cons.mp (pairwise_append.mp h.sorted).2.1).1 v hv

/-- A child of the first node in the queue was not found before. -/
lemma Inv.not_mem (h : Inv root children depth order (u :: queue))
    (ht : Tree root children depth) (hv : v ∈ children u) : v ∉ order ++ u :: queue := by
  intro hmem
  have hu : u ∉ order := fun hu =>
    (nodup_append.mp h.nodup).2.2 u hu u mem_cons_self rfl
  rcases h.parent v hmem with rfl | ⟨u', hu', hv'⟩
  · have := ht.depth_child hv
    rw [ht.depth_root] at this
    exact absurd this (Nat.succ_ne_zero _).symm
  · exact hu (ht.parent_unique hv hv' ▸ hu')

/-- **The first node of the queue is visited.** -/
theorem Inv.step (h : Inv root children depth order (u :: queue))
    (ht : Tree root children depth) :
    Inv root children depth (order ++ [u]) (queue ++ children u) := by
  have hlist : (order ++ [u]) ++ (queue ++ children u) = (order ++ u :: queue) ++ children u := by
    simp
  have hle : ∀ a ∈ order ++ u :: queue, depth a ≤ depth u + 1 := fun a ha =>
    h.span a ha u mem_cons_self
  constructor
  · rw [hlist]
    exact mem_append_left _ h.root_mem
  · rw [hlist, nodup_append]
    refine ⟨h.nodup, ht.nodup u, fun a ha b hb hab => ?_⟩
    exact h.not_mem ht hb (hab ▸ ha)
  · rw [hlist, pairwise_append]
    refine ⟨h.sorted, pairwise_of_forall_mem_list fun a ha b hb => ?_, fun a ha b hb => ?_⟩
    · exact Nat.le_of_eq ((ht.depth_child ha).trans (ht.depth_child hb).symm)
    · rw [ht.depth_child hb]
      exact hle a ha
  · rw [hlist]
    intro a ha b hb
    have ha : depth a ≤ depth u + 1 := by
      rcases mem_append.mp ha with ha | ha
      · exact hle a ha
      · exact Nat.le_of_eq (ht.depth_child ha)
    rcases mem_append.mp hb with hb | hb
    · exact Nat.le_trans ha (Nat.succ_le_succ (h.depth_le hb))
    · rw [ht.depth_child hb]
      exact Nat.le_trans ha (Nat.le_succ _)
  · rw [hlist]
    intro x hx v hv
    rcases mem_append.mp hx with hx | hx
    · exact mem_append_left _ (h.closed x hx v hv)
    · rw [mem_singleton.mp hx] at hv
      exact mem_append_right _ hv
  · rw [hlist]
    intro v hv
    rcases mem_append.mp hv with hv | hv
    · rcases h.parent v hv with hv | ⟨x, hx, hv⟩
      · exact .inl hv
      · exact .inr ⟨x, mem_append_left _ hx, hv⟩
    · exact .inr ⟨u, mem_append_right _ (mem_singleton_self u), hv⟩

/-- **What is not deeper than the first node of the queue was found.** -/
theorem Inv.before (h : Inv root children depth order (u :: queue))
    (ht : Tree root children depth) (hv : Reach root children v) (hle : depth v ≤ depth u) :
    v ∈ order ++ u :: queue := by
  induction hv with
  | refl => exact h.root_mem
  | @tail x v _ hx ih =>
    have hdepth := ht.depth_child hx
    rcases mem_append.mp (ih (by omega)) with hmem | hmem
    · exact h.closed x hmem v hx
    · -- what is in the queue is at least as deep as its first node
      rcases mem_cons.mp hmem with rfl | hmem
      · omega
      · have := h.depth_le hmem
        omega

/-- **With the queue empty every node was visited.** -/
theorem Inv.complete (h : Inv root children depth order [])
    (hv : Reach root children v) : v ∈ order := by
  have hnil : order ++ [] = order := append_nil order
  induction hv with
  | refl => exact hnil ▸ h.root_mem
  | @tail x v _ hx ih => exact hnil ▸ h.closed x ih v hx

/-- A node that is less deep than a visited one was visited before it. -/
lemma Inv.mem_of_lt {pre post : List α} (h : Inv root children depth (pre ++ u :: post) [])
    (hv : v ∈ pre ++ u :: post) (hlt : depth v < depth u) : v ∈ pre := by
  have hsorted := h.sorted
  rw [append_nil, pairwise_append] at hsorted
  rcases mem_append.mp hv with hv | hv
  · exact hv
  · rcases mem_cons.mp hv with rfl | hv
    · exact absurd hlt (Nat.lt_irrefl _)
    · exact absurd ((pairwise_cons.mp hsorted.2.1).1 v hv) (Nat.not_le.mpr hlt)

end BreadthFirst
