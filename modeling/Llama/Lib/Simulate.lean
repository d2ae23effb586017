import Llama.Lib.Reader

/-!
# Programs that read bytes in another way

A `Machine` has a state and ends as a `Reader` does, but how it comes by the bytes is its own
matter.  `Reader.Simulates` compares the two: from related states either both return the same value
and leave related states, or both throw.  There is one rule for each way of building them.
-/

/-- A program that changes a state. -/
def Machine (τ α : Type) := τ → Reader.Result α × τ

namespace Machine

variable {τ α β : Type}

/-- Continue with the value of a program. -/
def bind (c : Machine τ α) (f : α → Machine τ β) : Machine τ β := fun t =>
  match c t with
  | (.ok a, t) => f a t
  | (.thrown, t) => (.thrown, t)
  | (.stopped, t) => (.stopped, t)

instance : Monad (Machine τ) where
  pure a := fun t => (.ok a, t)
  bind := bind

/-- Throw an exception. -/
def throw : Machine τ α := fun t => (.thrown, t)

variable {c : Machine τ α} {Q : α → τ → Prop}

/-- What is left to run behind a program that returned. -/
lemma run_bind {f : α → Machine τ β} {t t' : τ} {a : α} (h : c t = (.ok a, t')) :
    (c >>= f) t = f a t' := by
  change bind c f t = _
  rw [bind, h]

/-- Nothing is run behind a program that threw. -/
lemma thrown_bind (f : α → Machine τ β) {t : τ} (h : (c t).1 = .thrown) :
    ((c >>= f) t).1 = .thrown := by
  change (bind c f t).1 = _
  rw [bind]
  split <;> simp_all

/-- From a state with `P` the program returns a value and leaves a state with `Q`, or it throws. -/
def Returns (P : τ → Prop) (c : Machine τ α) (Q : α → τ → Prop) : Prop :=
  ∀ t, P t → (∃ a t', c t = (.ok a, t') ∧ Q a t') ∨ (c t).1 = .thrown

variable {P : τ → Prop}

lemma returns_pure (a : α) : Returns P (pure a) fun b t => b = a ∧ P t :=
  fun t h => .inl ⟨a, t, rfl, rfl, h⟩

lemma returns_throw : Returns P throw Q := fun _ _ => .inr rfl

lemma Returns.bind {f : α → Machine τ β} {Q' : β → τ → Prop} (h : Returns P c Q)
    (hf : ∀ a, Returns (Q a) (f a) Q') : Returns P (c >>= f) Q' := by
  intro t ht
  obtain ⟨a, t', hc, hQ⟩ | hc := h t ht
  · rw [run_bind hc]
    exact hf a t' hQ
  · exact .inr (thrown_bind f hc)

lemma Returns.mono {Q' : α → τ → Prop} (h : Returns P c Q) (himp : ∀ a t, Q a t → Q' a t) :
    Returns P c Q' :=
  fun t ht => (h t ht).imp_left fun h => by
    obtain ⟨a, t', hc, hQ⟩ := h
    exact ⟨a, t', hc, himp a t' hQ⟩

lemma returns_ite {c' : Machine τ α} (p : Prop) [Decidable p] (h : Returns P c Q)
    (h' : Returns P c' Q) : Returns P (if p then c else c') Q := by
  split
  · exact h
  · exact h'

end Machine

namespace Reader

variable {σ τ α β : Type} {R : τ → σ → List UInt8 → Prop}

variable {r : Reader σ α}

/-- Nothing is run behind a reader that threw. -/
lemma thrown_bind (f : α → Reader σ β) {s : σ} {bs : List UInt8} (h : (r s bs).result = .thrown) :
    ((r >>= f) s bs).result = .thrown := by
  change (andThen r f s bs).result = _
  rw [andThen]
  split <;> simp_all

/-- Both return a value, and the states are still related. -/
def BothReturn (R : τ → σ → List UInt8 → Prop) (c : Result α × τ) (o : Outcome σ α) : Prop :=
  ∃ a t s bs, c = (.ok a, t) ∧ o = ⟨.ok a, s, bs⟩ ∧ R t s bs

/-- The machine and the reader do the same from related states, and neither is stopped. -/
def Simulates (R : τ → σ → List UInt8 → Prop) (c : Machine τ α) (r : Reader σ α) : Prop :=
  ∀ t s bs, R t s bs → BothReturn R (c t) (r s bs) ∨ (c t).1 = .thrown ∧ (r s bs).result = .thrown

lemma simulates_pure (a : α) : Simulates R (pure a) (pure a) :=
  fun t s bs h => .inl ⟨a, t, s, bs, rfl, rfl, h⟩

lemma simulates_throw : Simulates R (Machine.throw : Machine τ α) throw :=
  fun _ _ _ _ => .inr ⟨rfl, rfl⟩

lemma Simulates.bind {c : Machine τ α} {f : α → Machine τ β} {g : α → Reader σ β}
    (h : Simulates R c r) (hf : ∀ a, Simulates R (f a) (g a)) :
    Simulates R (c >>= f) (r >>= g) := by
  intro t s bs hR
  obtain ⟨a, t', s', bs', hc, hr, hR'⟩ | ⟨hc, hr⟩ := h t s bs hR
  · rw [Machine.run_bind hc, Reader.run_bind hr]
    exact hf a t' s' bs' hR'
  · exact .inr ⟨Machine.thrown_bind f hc, Reader.thrown_bind g hr⟩

lemma simulates_ite {c c' : Machine τ α} {r' : Reader σ α} (p : Prop) [Decidable p]
    (h : Simulates R c r) (h' : Simulates R c' r') :
    Simulates R (if p then c else c') (if p then r else r') := by
  split
  · exact h
  · exact h'

/-! ## Readers that need their bytes -/

/-- If the reader returns, it has consumed at least `k` bytes. -/
def Takes (k : ℕ) (r : Reader σ α) : Prop :=
  ∀ s bs, Ensures r s bs fun _ _ rest => rest.length + k ≤ bs.length

lemma takes_pure (a : α) : Takes 0 (pure a : Reader σ α) :=
  fun _ _ => ensures_pure (Nat.le_refl _)

lemma takes_read (n : ℕ) : Takes n (read n : Reader σ (List UInt8)) :=
  fun _ bs => ensures_read fun hle => by
    rw [List.length_drop]
    omega

lemma takes_throwIf (c : Prop) [Decidable c] : Takes 0 (throwIf c : Reader σ Unit) :=
  fun _ _ => ensures_throwIf fun _ => Nat.le_refl _

lemma Takes.bind {f : α → Reader σ β} {k l : ℕ} (h : Takes k r) (hf : ∀ a, Takes l (f a)) :
    Takes (k + l) (r >>= f) :=
  fun s bs => (h s bs).bind fun a s' rest hle => (hf a s' rest).mono fun _ _ _ hle' => by omega

lemma Takes.mono {k l : ℕ} (h : Takes k r) (hle : l ≤ k) : Takes l r :=
  fun s bs => (h s bs).mono fun _ _ _ hle' => by omega

lemma Takes.replicate {k : ℕ} (h : Takes k r) : ∀ n, Takes (n * k) (replicate n r)
  | 0 => (takes_pure []).mono (Nat.zero_mul k).le
  | n + 1 => (h.bind fun a => (h.replicate n).bind fun as => takes_pure (a :: as)).mono (by
      rw [Nat.succ_mul]
      omega)

lemma Takes.not_ok {k : ℕ} (h : Takes k r) {s s' : σ} {bs rest : List UInt8} {a : α}
    (hlt : bs.length < k) : r s bs ≠ ⟨.ok a, s', rest⟩ := by
  intro hok
  have hle := h s bs a s' rest hok
  omega

/-- **A test of the bytes that are left** may be passed by the machine when the reader behind it
needs them. -/
theorem Simulates.needs {c : Machine τ α} {m : Machine τ Unit} {n : ℕ} (h : Simulates R c r)
    (htakes : Takes n r) (hm : ∀ t s bs, R t s bs → (∃ t', m t = (.ok (), t') ∧ R t' s bs) ∨
      (m t).1 = .thrown ∧ bs.length < n) :
    Simulates R (m >>= fun _ => c) (Reader.needs n >>= fun _ => r) := by
  intro t s bs hR
  have hneeds : bs.length < n → ((Reader.needs n >>= fun _ => r) s bs).result = .thrown :=
    fun hlt => thrown_bind _ (by rw [Reader.needs, if_pos hlt])
  obtain ⟨t', ht', hR'⟩ | ⟨hthrown, hlt⟩ := hm t s bs hR
  · rw [Machine.run_bind ht']
    by_cases hlt : bs.length < n
    · obtain ⟨a, t1, s1, bs1, -, hr, -⟩ | ⟨hc, -⟩ := h t' s bs hR'
      · exact absurd hr (htakes.not_ok hlt)
      · exact .inr ⟨hc, hneeds hlt⟩
    · rw [Reader.run_bind (show Reader.needs n s bs = ⟨.ok (), s, bs⟩ by
        rw [Reader.needs, if_neg hlt])]
      exact h t' s bs hR'
  · exact .inr ⟨Machine.thrown_bind _ hthrown, hneeds hlt⟩

end Reader
