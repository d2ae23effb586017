import Llama.Rpc.Client
import Mathlib.Data.List.Nodup

/-!
# The records of a graph

`add_tensor` writes one record for each tensor that is reached from the nodes, and no others.  A
tensor is visited before what it refers to is, so that tensors that are shared are written once, and
the number of tensors that were not visited goes down with every level of the recursion.
-/

namespace Llama.Rpc.ClientGraph

open List

variable {hash : Address → ℕ} {c : ClientGraph}

lemma Reached.mem {a : Address} (h : c.Reached a) : ∃ t, c.mem a = some t := c.closed a h

/-- The tensors of `new` were visited and their records written, in this order. -/
structure Adds (hash : Address → ℕ) (c : ClientGraph) (f : Flat)
    (new : List (Address × ClientTensor)) (f' : Flat) : Prop where
  tensors : f'.tensors = f.tensors ++ new.map fun e => c.record hash e.1 e.2
  visited : ∀ a, a ∈ f'.visited ↔ a ∈ f.visited ∨ a ∈ new.map Prod.fst
  nodup : (new.map Prod.fst).Nodup
  fresh : ∀ e ∈ new, e.1 ∉ f.visited
  mem : ∀ e ∈ new, c.mem e.1 = some e.2
  reached : ∀ e ∈ new, c.Reached e.1
  refs : ∀ e ∈ new, ∀ s q, e.2.ref s = some q → q ∈ f'.visited

namespace Adds

variable {f f' f'' : Flat} {new new' : List (Address × ClientTensor)}

lemma refl (hash : Address → ℕ) (c : ClientGraph) (f : Flat) : Adds hash c f [] f where
  tensors := (append_nil _).symm
  visited _ := by simp
  nodup := nodup_nil
  fresh _ he := absurd he not_mem_nil
  mem _ he := absurd he not_mem_nil
  reached _ he := absurd he not_mem_nil
  refs _ he := absurd he not_mem_nil

lemma trans (h : Adds hash c f new f') (h' : Adds hash c f' new' f'') :
    Adds hash c f (new ++ new') f'' where
  tensors := by rw [h'.tensors, h.tensors, map_append, append_assoc]
  visited a := by rw [h'.visited, h.visited, map_append, mem_append, or_assoc]
  nodup := by
    rw [map_append, nodup_append]
    refine ⟨h.nodup, h'.nodup, ?_⟩
    rintro a ha _ hb rfl
    obtain ⟨e, he, rfl⟩ := mem_map.mp hb
    exact h'.fresh e he ((h.visited _).mpr (Or.inr ha))
  fresh e he hf := by
    rcases mem_append.mp he with he | he
    · exact h.fresh e he hf
    · exact h'.fresh e he ((h.visited _).mpr (Or.inl hf))
  mem e he := (mem_append.mp he).elim (h.mem e) (h'.mem e)
  reached e he := (mem_append.mp he).elim (h.reached e) (h'.reached e)
  refs e he s q hq := by
    rcases mem_append.mp he with he | he
    · exact (h'.visited q).mpr (Or.inl (h.refs e he s q hq))
    · exact h'.refs e he s q hq

/-- A tensor is written after what it refers to. -/
lemma finish {a : Address} {t : ClientTensor} (ha : c.Reached a) (ht : c.mem a = some t)
    (hfresh : a ∉ f.visited) (h : Adds hash c { f with visited := a :: f.visited } new f')
    (hrefs : ∀ s q, t.ref s = some q → q ∈ f'.visited) :
    Adds hash c f (new ++ [(a, t)])
      { f' with tensors := f'.tensors ++ [c.record hash a t] } where
  tensors := by rw [h.tensors, map_append, map_singleton, append_assoc]
  visited b := by
    rw [h.visited, mem_cons, map_append, mem_append, map_singleton,
      mem_singleton, or_comm (a := b = a), or_assoc, or_comm (a := b = a)]
  nodup := by
    rw [map_append, nodup_append]
    refine ⟨h.nodup, nodup_singleton a, ?_⟩
    rintro b hb _ hmem rfl
    obtain ⟨e, he, rfl⟩ := mem_map.mp hb
    refine h.fresh e he (mem_cons.mpr (Or.inl ?_))
    exact mem_singleton.mp hmem
  fresh e he hf := by
    rcases mem_append.mp he with he | he
    · exact h.fresh e he (mem_cons_of_mem _ hf)
    · rw [mem_singleton.mp he] at hf
      exact hfresh hf
  mem e he := by
    rcases mem_append.mp he with he | he
    · exact h.mem e he
    · rw [mem_singleton.mp he, ht]
  reached e he := by
    rcases mem_append.mp he with he | he
    · exact h.reached e he
    · rwa [mem_singleton.mp he]
  refs e he s q hq := by
    rcases mem_append.mp he with he | he
    · exact h.refs e he s q hq
    · rw [mem_singleton.mp he] at hq
      exact hrefs s q hq

end Adds

/-! ## The recursion -/

instance : LawfulBEq Address := inferInstance

/-- The number of tensors in memory that were not visited. -/
def unvisited (c : ClientGraph) (f : Flat) : ℕ :=
  (c.heap.filter fun e => e.1 ∉ f.visited).length

lemma Adds.unvisited_le {f f' : Flat} {new : List (Address × ClientTensor)}
    (h : Adds hash c f new f') : c.unvisited f' ≤ c.unvisited f := by
  refine (monotone_filter_right c.heap fun e he => ?_).length_le
  rw [decide_eq_true_eq] at he ⊢
  exact fun hf => he ((h.visited _).mpr (Or.inl hf))

/-- A tensor that is visited for the first time. -/
lemma unvisited_lt {f : Flat} {a : Address} {t : ClientTensor} (ht : c.mem a = some t)
    (ha : a ∉ f.visited) :
    c.unvisited { f with visited := a :: f.visited } < c.unvisited f := by
  have hmem : (a, t) ∈ c.heap.filter fun e => e.1 ∉ f.visited := by
    rw [mem_filter, decide_eq_true_eq]
    obtain ⟨l, l', hl, -⟩ := lookup_eq_some_iff.mp ht
    exact ⟨hl ▸ mem_append_right l mem_cons_self, ha⟩
  have hfilter : c.heap.filter (fun e => e.1 ∉ a :: f.visited) =
      (c.heap.filter fun e => e.1 ∉ f.visited).filter fun e => e.1 ≠ a := by
    simp [not_or]
  rw [unvisited, hfilter]
  exact length_filter_lt_length_iff_exists.mpr ⟨(a, t), hmem, by simp⟩

/-- What a call does with a pointer. -/
def Visits (hash : Address → ℕ) (c : ClientGraph) (p : Option Address) (f : Flat)
    (o : Outcome Flat) : Prop :=
  ∃ new f', o = .ok f' ∧ Adds hash c f new f' ∧ ∀ a, p = some a → a ∈ f'.visited

/-- Calls for several pointers. -/
lemma foldlM_visits {n : ℕ} {visit : Option Address → Flat → Outcome Flat}
    (hvisit : ∀ p f, c.unvisited f < n → (∀ a, p = some a → c.Reached a) →
      Visits hash c p f (visit p f))
    {ps : List (Option Address)} {f : Flat} (hn : c.unvisited f < n)
    (hps : ∀ a, some a ∈ ps → c.Reached a) :
    ∃ new f', ps.foldlM (fun f p => visit p f) f = .ok f' ∧ Adds hash c f new f' ∧
      ∀ a, some a ∈ ps → a ∈ f'.visited := by
  induction ps generalizing f with
  | nil => exact ⟨[], f, rfl, Adds.refl hash c f, fun a ha => absurd ha not_mem_nil⟩
  | cons p ps ih =>
    obtain ⟨new, f1, hf1, hadds, hp⟩ := hvisit p f hn fun a ha => hps a (ha ▸ mem_cons_self)
    obtain ⟨new', f2, hf2, hadds', hmem⟩ := ih (Nat.lt_of_le_of_lt hadds.unvisited_le hn)
      fun a ha => hps a (mem_cons_of_mem _ ha)
    refine ⟨new ++ new', f2, ?_, hadds.trans hadds', fun a ha => ?_⟩
    · rw [foldlM_cons, hf1, Outcome.ok_bind, hf2]
    · rcases mem_cons.mp ha with ha | ha
      · exact (hadds'.visited a).mpr (Or.inl (hp a ha.symm))
      · exact hmem a ha

/-- **A call writes the records of a tensor and of all to which it refers.** -/
theorem addTensor_spec {fuel : ℕ} {p : Option Address} {f : Flat} (hfuel : c.unvisited f < fuel)
    (hp : ∀ a, p = some a → c.Reached a) : Visits hash c p f (c.addTensor hash fuel p f) := by
  induction fuel generalizing p f with
  | zero => exact absurd hfuel (Nat.not_lt_zero _)
  | succ fuel ih =>
    cases p with
    | none => exact ⟨[], f, rfl, Adds.refl hash c f, fun a ha => (by cases ha)⟩
    | some a =>
      have hreached := hp a rfl
      obtain ⟨t, ht⟩ := hreached.mem
      rw [addTensor]
      split
      · rename_i hvisited
        exact ⟨[], f, rfl, Adds.refl hash c f, fun b hb => (by cases hb; exact hvisited)⟩
      · rename_i hvisited
        have hlt := unvisited_lt ht hvisited
        have hrefs : ∀ q, some q ∈ Slot.all.map t.ref → c.Reached q := by
          intro q hq
          obtain ⟨s, -, hs⟩ := mem_map.mp hq
          exact hreached.ref ht hs
        obtain ⟨new, f', hf', hadds, hmem⟩ := @foldlM_visits hash c fuel
          (fun p f => c.addTensor hash fuel p f) (fun p f => ih) _ _
          (Nat.lt_of_lt_of_le hlt (Nat.le_of_lt_succ hfuel)) hrefs
        refine ⟨new ++ [(a, t)], _, by rw [ht]; simp only [hf']; rfl,
          hadds.finish hreached ht hvisited ?_, ?_⟩
        · intro s q hq
          exact hmem q (mem_map.mpr ⟨s, s.mem_all, hq⟩)
        · intro b hb
          cases hb
          exact (hadds.visited a).mpr (Or.inl mem_cons_self)

/-- The tensors of a graph, each once, in the order of their records. -/
structure Order (c : ClientGraph) (order : List (Address × ClientTensor)) : Prop where
  nodup : (order.map Prod.fst).Nodup
  mem : ∀ e ∈ order, c.mem e.1 = some e.2
  reached : ∀ a, a ∈ order.map Prod.fst ↔ c.Reached a

/-- **The records are those of the tensors that are reached from the nodes.** -/
theorem addTensors_spec (hash : Address → ℕ) (c : ClientGraph) :
    ∃ order f, c.addTensors hash = .ok f ∧ c.Order order ∧
      f.tensors = order.map fun e => c.record hash e.1 e.2 := by
  have hfuel : c.unvisited { tensors := [], visited := [] } < c.heap.length + 1 :=
    Nat.lt_succ_of_le (length_filter_le _ _)
  obtain ⟨order, f, hf, hadds, hmem⟩ := @foldlM_visits hash c _ _
    (fun p f hn hp => addTensor_spec hn hp) _ _ hfuel fun a ha => Reaches.node ha
  refine ⟨order, f, hf, ⟨hadds.nodup, hadds.mem, fun a => ⟨fun ha => ?_, fun ha => ?_⟩⟩,
    hadds.tensors⟩
  · obtain ⟨e, he, rfl⟩ := mem_map.mp ha
    exact hadds.reached e he
  · have hvisited : ∀ b, b ∈ f.visited ↔ b ∈ order.map Prod.fst := fun b => by
      simpa using hadds.visited b
    induction ha with
    | node h => exact (hvisited _).mp (hmem _ h)
    | ref hp hr hq ih =>
      obtain ⟨e, he, rfl⟩ := mem_map.mp ih
      cases (hadds.mem e he).symm.trans hr
      exact (hvisited _).mp (hadds.refs e he _ _ hq)

end Llama.Rpc.ClientGraph
