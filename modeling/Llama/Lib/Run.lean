import Mathlib.Tactic.Common

/-!
# Runs of a state machine

A machine is a total transition function `run : σ → ι → σ` together with a guard
saying in which states an operation may be called.  `Guarded` is the guard along a
whole list of operations, each tested in the state its predecessors left.

`Run.invariant` is the one induction: what every guarded step keeps, every guarded
run keeps.

A machine whose operations may stop it has a transition function into `Option σ`; the
states of its guarded runs are `Run.Reachable`, with the invariant rule again.

A machine that answers its operations is compared with another one by its `answers`.
-/

namespace Run

variable {σ ι : Type*}

/-- The state after a list of operations. -/
def exec (run : σ → ι → σ) (s : σ) (ops : List ι) : σ := ops.foldl run s

/-- Every operation of the list meets the guard in the state it is called in. -/
def Guarded (run : σ → ι → σ) (guard : σ → ι → Prop) : σ → List ι → Prop
  | _, [] => True
  | s, op :: ops => guard s op ∧ Guarded run guard (run s op) ops

variable {run : σ → ι → σ} {guard : σ → ι → Prop}

@[simp] lemma exec_nil (s : σ) : exec run s [] = s := rfl

@[simp] lemma exec_cons (s : σ) (op : ι) (ops : List ι) :
    exec run s (op :: ops) = exec run (run s op) ops := rfl

@[simp] lemma guarded_nil (s : σ) : Guarded run guard s [] := trivial

@[simp] lemma guarded_cons (s : σ) (op : ι) (ops : List ι) :
    Guarded run guard s (op :: ops) ↔ guard s op ∧ Guarded run guard (run s op) ops := Iff.rfl

/-- A guard that is always met. -/
lemma guarded_of_forall (h : ∀ s op, guard s op) (s : σ) (ops : List ι) :
    Guarded run guard s ops := by
  induction ops generalizing s with
  | nil => trivial
  | cons op ops ih => exact ⟨h s op, ih _⟩

/-- **What every guarded step keeps, every guarded run keeps.** -/
theorem invariant {I : σ → Prop} (hstep : ∀ s op, I s → guard s op → I (run s op)) {s : σ}
    (h : I s) (ops : List ι) (hg : Guarded run guard s ops) : I (exec run s ops) := by
  induction ops generalizing s with
  | nil => exact h
  | cons op ops ih => exact ih (hstep s op h hg.1) hg.2

/-- What holds before a loop over the first `N` numbers and is carried over by each round. -/
lemma foldl_range {β : Type*} {f : β → ℕ → β} {b : β} (P : ℕ → β → Prop) (h0 : P 0 b) {N : ℕ}
    (hstep : ∀ n < N, ∀ r, P n r → P (n + 1) (f r n)) : P N ((List.range N).foldl f b) := by
  induction N with
  | zero => exact h0
  | succ N ih =>
    rw [List.range_succ, List.foldl_append]
    exact hstep N (Nat.lt_succ_self N) _ (ih fun n hn => hstep n (Nat.lt_succ_of_lt hn))

/-- **A loop whose round `n` changes entry `n`** changes each entry by what it held.  `R g r`
says that in `r` the entries `c` have become those of `g`. -/
theorem foldl_entries {α β : Type*} {c : ℕ → α} {R : (ℕ → α → α) → β → Prop} {h : ℕ → α → α}
    {f : β → ℕ → β} {b : β} {N : ℕ}
    (hcongr : ∀ {g g' r}, R g r → (∀ j, g j (c j) = g' j (c j)) → R g' r)
    (h0 : R (fun _ x => x) b)
    (hstep : ∀ n < N, ∀ g r, R g r → g n (c n) = c n →
      R (fun j x => if j = n then h n (c n) else g j x) (f r n)) :
    R (fun j x => if j < N then h j x else x) ((List.range N).foldl f b) := by
  refine foldl_range (fun n r => R (fun j x => if j < n then h j x else x) r)
    (hcongr h0 fun j => by simp) fun n hn r hr => ?_
  refine hcongr (hstep n hn _ r hr (if_neg (Nat.lt_irrefl n))) fun j => ?_
  by_cases hj : j = n
  · rw [if_pos hj, hj, if_pos (Nat.lt_succ_self n)]
  · have hlt : j < n + 1 ↔ j < n := by omega
    simp only [if_neg hj, hlt]

/-- The states of the runs from `s0` whose operations all meet the guard. -/
inductive Reachable (step : σ → ι → Option σ) (guard : σ → ι → Prop) (s0 : σ) : σ → Prop
  | init : Reachable step guard s0 s0
  | step {s s' : σ} {op : ι} (h : Reachable step guard s0 s) (hg : guard s op)
      (hs : step s op = some s') : Reachable step guard s0 s'

/-- **What holds initially and is kept by every guarded step holds in every state of a
guarded run.** -/
theorem Reachable.invariant {step : σ → ι → Option σ} {s0 : σ} {I : σ → Prop} (h0 : I s0)
    (hstep : ∀ s op s', I s → guard s op → step s op = some s' → I s') {s : σ}
    (h : Reachable step guard s0 s) : I s := by
  induction h with
  | init => exact h0
  | step _ hg hs ih => exact hstep _ _ _ ih hg hs

/-- The run of a list of operations. -/
lemma Reachable.foldlM {step : σ → ι → Option σ} {s0 s1 s : σ} {ops : List ι}
    (h : Reachable step guard s0 s1) (hg : ∀ s, ∀ op ∈ ops, guard s op)
    (hrun : ops.foldlM step s1 = some s) : Reachable step guard s0 s := by
  induction ops generalizing s1 with
  | nil =>
    cases hrun
    exact h
  | cons op ops ih =>
    obtain ⟨s2, hstep, hrest⟩ := Option.bind_eq_some_iff.mp hrun
    exact ih (h.step (hg s1 op List.mem_cons_self) hstep)
      (fun s op hop => hg s op (List.mem_cons_of_mem _ hop)) hrest

variable {τ ο : Type*}

/-- The answers to a list of operations. -/
def answers (call : σ → ι → ο × σ) : σ → List ι → List ο
  | _, [] => []
  | s, op :: ops => (call s op).1 :: answers call (call s op).2 ops

/-- **Machines whose guarded steps answer alike from related states answer alike in every guarded
run.** -/
theorem answers_eq {call : σ → ι → ο × σ} {call' : τ → ι → ο × τ} {guard : τ → ι → Prop}
    {R : σ → τ → Prop}
    (hstep : ∀ s t op, R s t → guard t op →
      (call s op).1 = (call' t op).1 ∧ R (call s op).2 (call' t op).2)
    {s : σ} {t : τ} (h : R s t) (ops : List ι)
    (hg : Guarded (fun t op => (call' t op).2) guard t ops) :
    answers call s ops = answers call' t ops := by
  induction ops generalizing s t with
  | nil => rfl
  | cons op ops ih =>
    obtain ⟨heq, hR⟩ := hstep s t op h hg.1
    rw [answers, answers, heq, ih hR hg.2]

end Run
