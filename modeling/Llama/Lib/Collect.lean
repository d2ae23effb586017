import Llama.Lib.Worklist

/-!
# Computations that collect

A computation with a bound that returns a list is described by the elements of the list and
by when it returns.  Both are put together from the parts of the computation, in whatever
order these run, so that two loops over the same parts can be compared.
-/

namespace Exec

variable {α β γ : Type}

/-- A larger bound leaves a finished computation as it is. -/
def Mono (x : ℕ → Exec α) : Prop := ∀ n m, n ≤ m → Le (x n) (x m)

lemma Mono.settles {x : ℕ → Exec α} (h : Mono x) {n : ℕ} {y : Exec α} (hn : x n = y)
    (hy : y ≠ unfinished) : Settles x y := by
  subst hn
  exact settles_of_mono h hy

lemma Settles.unique {x : ℕ → Exec α} {y z : Exec α} (h : Settles x y) (h' : Settles x z) :
    y = z := by
  obtain ⟨k1, h1⟩ := h.eventually
  obtain ⟨k2, h2⟩ := h'.eventually
  rw [← h1 _ (le_max_left k1 k2), h2 _ (le_max_right k1 k2)]

/-- The computation returns under the condition `fin`, and then a list of the elements that
satisfy `mem`. -/
structure Collects (x : ℕ → Exec (List α)) (fin : Prop) (mem : α → Prop) : Prop where
  mono : Mono x
  not_thrown : ∀ n, x n ≠ thrown
  returns : (∃ out, Settles x (ok out)) ↔ fin
  mem_iff : ∀ {out}, Settles x (ok out) → ∀ a, a ∈ out ↔ mem a

lemma Collects.const (out : List α) : Collects (fun _ => ok out) True (· ∈ out) where
  mono _ _ _ := .refl _
  not_thrown _ h := by cases h
  returns := ⟨fun _ => trivial, fun _ => ⟨out, .const _⟩⟩
  mem_iff h a := by rw [Exec.ok.inj (h.unique (.const _))]

lemma Collects.abort (mem : α → Prop) : Collects (fun _ => aborted) False mem where
  mono _ _ _ := .refl _
  not_thrown _ h := by cases h
  returns := by
    refine iff_of_false (fun h => ?_) id
    cases h.choose_spec.unique (.const _)
  mem_iff h _ := by cases h.unique (.const _)

variable {fin : Prop} {mem : α → Prop} {x : ℕ → Exec (List α)}

lemma Collects.congr {x' : ℕ → Exec (List α)} {fin' : Prop} {mem' : α → Prop}
    (h : Collects x fin mem) (heq : ∀ n, x' n = x n) (hfin : fin ↔ fin')
    (hmem : ∀ a, mem a ↔ mem' a) : Collects x' fin' mem' := by
  obtain rfl : x' = x := funext heq
  exact ⟨h.mono, h.not_thrown, h.returns.trans hfin, fun hx a => (h.mem_iff hx a).trans (hmem a)⟩

/-- A value of a computation that collects is the one that it settles on. -/
lemma Collects.settles (h : Collects x fin mem) {n : ℕ} {out : List α} (hn : x n = ok out) :
    Settles x (ok out) :=
  h.mono.settles hn fun h => by cases h

/-- A bind that ends, ends behind a value of its first part. -/
lemma Collects.of_settles_bind (hx : Collects x fin mem) {f : ℕ → List α → Exec β} {y : Exec β}
    (h : Settles (fun n => x n >>= f n) y) (hy : y ≠ aborted) (hy' : y ≠ unfinished) :
    ∃ out, Settles x (ok out) ∧ ∃ k, ∀ n ≥ k, f n out = y := by
  obtain ⟨k, hk⟩ := h.eventually
  have hval := hk k le_rfl
  cases hxk : x k with
  | ok out =>
    have hsettles := hx.settles hxk
    obtain ⟨k', hk'⟩ := hsettles.eventually
    refine ⟨out, hsettles, max k k', fun n hn => ?_⟩
    have hn' := hk n ((le_max_left _ _).trans hn)
    rwa [hk' n ((le_max_right _ _).trans hn)] at hn'
  | thrown => exact absurd hxk (hx.not_thrown k)
  | aborted =>
    rw [hxk] at hval
    exact absurd hval.symm hy
  | unfinished =>
    rw [hxk] at hval
    exact absurd hval.symm hy'

/-- One part after another: the elements are those of the second. -/
lemma Collects.bind {fin' : Prop} {mem' : β → Prop} (hx : Collects x fin mem)
    {f : ℕ → List α → Exec (List β)}
    (hf : ∀ out, (∀ a, a ∈ out ↔ mem a) → Collects (fun n => f n out) fin' mem') :
    Collects (fun n => x n >>= f n) (fin ∧ fin') mem' := by
  have hval : ∀ {out}, Settles x (ok out) → Collects (fun n => f n out) fin' mem' :=
    fun h => hf _ (hx.mem_iff h)
  have hrun : ∀ {out}, Settles (fun n => x n >>= f n) (ok out) →
      ∃ out', Settles x (ok out') ∧ Settles (fun n => f n out') (ok out) := by
    intro out h
    obtain ⟨out', hout', k, hk⟩ := hx.of_settles_bind h (fun h => by cases h) fun h => by cases h
    exact ⟨out', hout', (hval hout').settles (hk k le_rfl)⟩
  refine ⟨fun n m hnm => ?_, fun n => ?_, ⟨?_, ?_⟩, ?_⟩
  · rcases hx.mono n m hnm with h | h
    · exact .inl (by rw [h, unfinished_bind])
    · rw [← h]
      cases hxn : x n with
      | ok out => exact (hval (hx.settles hxn)).mono n m hnm
      | thrown => exact .refl _
      | aborted => exact .refl _
      | unfinished => exact .refl _
  · cases hxn : x n with
    | ok out => exact (hval (hx.settles hxn)).not_thrown n
    | thrown => exact absurd hxn (hx.not_thrown n)
    | aborted => exact fun h => by cases h
    | unfinished => exact fun h => by cases h
  · rintro ⟨out, h⟩
    obtain ⟨out', hout', hf'⟩ := hrun h
    exact ⟨hx.returns.mp ⟨out', hout'⟩, (hval hout').returns.mp ⟨out, hf'⟩⟩
  · rintro ⟨hfin, hfin'⟩
    obtain ⟨out', hout'⟩ := hx.returns.mpr hfin
    obtain ⟨out, hout⟩ := (hval hout').returns.mpr hfin'
    exact ⟨out, hout'.bind hout⟩
  · intro out h a
    obtain ⟨out', hout', hf'⟩ := hrun h
    exact (hval hout').mem_iff hf' a

/-- Two computations that collect the same. -/
lemma Collects.exists_same {x' : ℕ → Exec (List α)} (hx : Collects x fin mem)
    (hx' : Collects x' fin mem) {out : List α} (h : Settles x (ok out)) :
    ∃ out', Settles x' (ok out') ∧ ∀ a, a ∈ out ↔ a ∈ out' := by
  obtain ⟨out', h'⟩ := hx'.returns.mpr (hx.returns.mp ⟨out, h⟩)
  exact ⟨out', h', fun a => (hx.mem_iff h a).trans (hx'.mem_iff h' a).symm⟩

/-- A test behind a computation that throws when nothing was collected. -/
lemma Collects.settles_check [DecidableEq α] (hx : Collects x fin mem) (g : List α → β) :
    (∀ b, Settles (fun n => x n >>= fun out => if out = [] then thrown else ok (g out)) (ok b) ↔
      ∃ out, Settles x (ok out) ∧ out ≠ [] ∧ b = g out) ∧
    (Settles (fun n => x n >>= fun out => if out = [] then thrown else ok (g out)) thrown ↔
      Settles x (ok [])) := by
  refine ⟨fun b => ⟨fun h => ?_, ?_⟩, ⟨fun h => ?_, fun h => ?_⟩⟩
  · obtain ⟨out, hout, k, hk⟩ := hx.of_settles_bind h (fun h => by cases h) fun h => by cases h
    have hval := hk k le_rfl
    split at hval
    · cases hval
    · rename_i hne
      exact ⟨out, hout, hne, (Exec.ok.inj hval).symm⟩
  · rintro ⟨out, hout, hne, rfl⟩
    refine hout.bind ?_
    simp only [if_neg hne]
    exact .const _
  · obtain ⟨out, hout, k, hk⟩ := hx.of_settles_bind h (fun h => by cases h) fun h => by cases h
    have hval := hk k le_rfl
    split at hval
    · rename_i hnil
      rwa [hnil] at hout
    · cases hval
  · refine h.bind ?_
    exact .const _

/-- **A loop** that adds what its body collects for each item. -/
theorem Collects.loop (body : ℕ → β → List α → Exec (List α))
    (run : ℕ → List β → List α → Exec (List α)) (hnil : ∀ n found, run n [] found = ok found)
    (hcons : ∀ n b bs found, run n (b :: bs) found = body n b found >>= run n bs)
    {fin : β → Prop} {mem : β → α → Prop}
    (hbody : ∀ b found, Collects (fun n => body n b found) (fin b) fun a => a ∈ found ∨ mem b a)
    (bs : List β) : ∀ found, Collects (fun n => run n bs found) (∀ b ∈ bs, fin b)
      fun a => a ∈ found ∨ ∃ b ∈ bs, mem b a := by
  induction bs with
  | nil =>
    intro found
    exact (Collects.const found).congr (fun n => hnil n found) (by simp) (by simp)
  | cons b bs ih =>
    intro found
    have hrest : ∀ out, (∀ a, a ∈ out ↔ a ∈ found ∨ mem b a) →
        Collects (fun n => run n bs out) (∀ b ∈ bs, fin b)
          fun a => a ∈ found ∨ ∃ b' ∈ b :: bs, mem b' a := by
      intro out hout
      refine (ih out).congr (fun _ => rfl) Iff.rfl fun a => ?_
      rw [hout, or_assoc, List.exists_mem_cons_iff]
    refine ((hbody b found).bind hrest).congr (fun n => hcons n b bs found) ?_ fun a => Iff.rfl
    rw [List.forall_mem_cons]

variable [DecidableEq α] {visit : α → Worklist.Visit α}

/-- A search that starts with other items found returns for the same bounds. -/
lemma search_returns (n : ℕ) : ∀ {todo seen found out : List α} (found' : List α),
    Worklist.search visit n todo seen found = ok out →
      ∃ out', Worklist.search visit n todo seen found' = ok out' := by
  induction n with
  | zero => exact fun _ h => (by cases h)
  | succ n ih =>
    intro todo seen found out found' h
    cases todo with
    | nil => exact ⟨found', rfl⟩
    | cons c todo =>
      rw [Worklist.search] at h ⊢
      by_cases hc : c ∈ seen
      · rw [if_pos hc] at h ⊢
        exact ih found' h
      · rw [if_neg hc] at h ⊢
        cases hv : visit c with
        | keep =>
          simp only [hv] at h ⊢
          exact ih _ h
        | expand next =>
          simp only [hv] at h ⊢
          exact ih _ h
        | abort =>
          simp only [hv] at h
          cases h

lemma search_ne_thrown (n : ℕ) : ∀ todo seen found : List α,
    Worklist.search visit n todo seen found ≠ thrown := by
  induction n with
  | zero => exact fun _ _ _ h => by cases h
  | succ n ih =>
    intro todo seen found
    cases todo with
    | nil => exact fun h => by cases h
    | cons c todo =>
      rw [Worklist.search]
      split
      · exact ih _ _ _
      · split
        · exact ih _ _ _
        · exact ih _ _ _
        · exact fun h => by cases h

/-- A search collects the items that it keeps, and returns whatever was found before. -/
lemma Collects.search (s : α) (found : List α) :
    Collects (fun n => Worklist.search visit n [s] [] found)
      (∃ n out, Worklist.search visit n [s] [] [] = ok out)
      fun a => a ∈ found ∨ visit a = .keep ∧ Worklist.Reach visit s a where
  mono n m hnm := Worklist.search_mono visit hnm _ _ _
  not_thrown n := search_ne_thrown n _ _ _
  returns := by
    constructor
    · rintro ⟨out, h⟩
      obtain ⟨k, hk⟩ := h.eventually
      exact ⟨k, search_returns k [] (hk k le_rfl)⟩
    · rintro ⟨n, out, h⟩
      obtain ⟨out', h'⟩ := search_returns n found h
      refine ⟨out', ?_⟩
      rw [← h']
      exact settles_of_mono (fun n m hnm => Worklist.search_mono visit hnm _ _ _)
        (by rw [h']; exact fun h => by cases h)
  mem_iff h a := by
    obtain ⟨k, hk⟩ := h.eventually
    exact Worklist.mem_search (hk k le_rfl) a

end Exec
