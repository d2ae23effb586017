import Mathlib.Algebra.GroupWithZero.Nat
import Mathlib.Order.Lattice.Nat

/-!
# Parsers of a list of tokens

A parser takes tokens off a list and ends with a value or an error.  Parsers that call themselves
have bounds on the depth of the calls; what a family of parsers does is what its members do once
the bounds are large enough.
-/

/-- A parser of tokens in `τ`, with errors in `ε`. -/
abbrev Parser (τ ε β : Type) := StateT (List τ) (Except ε) β

namespace Parser

variable {ι τ ε β γ : Type} [SemilatticeSup ι] {p q : ι → Parser τ ε β} {f : ι → β → Parser τ ε γ}
  {ts ts' rest : List τ} {b : β} {c : γ}

variable {g : β → Parser τ ε γ} {m : Parser τ ε β}

lemma bind_ok (h : m ts = .ok (b, ts')) : (m >>= g) ts = g b ts' := by
  change (m ts >>= fun r => g r.1 r.2) = _
  rw [h]
  rfl

/-- A value that is returned after another parser. -/
lemma bind_eq_ok :
    (m >>= g) ts = .ok (c, rest) ↔ ∃ b ts', m ts = .ok (b, ts') ∧ g b ts' = .ok (c, rest) := by
  change (m ts >>= fun r => g r.1 r.2) = _ ↔ _
  rcases m ts with e | ⟨b, ts'⟩
  · exact ⟨fun h => (by cases h), fun h => (by obtain ⟨b, ts', h, -⟩ := h; cases h)⟩
  · exact ⟨fun h => ⟨b, ts', rfl, h⟩, fun h => (by obtain ⟨b', ts'', h, h'⟩ := h; cases h; exact h')⟩

/-- What comes after the first part of a computation depends on its result only. -/
lemma bind_congr_left {m' : Parser τ ε β} (h : m ts = m' ts') : (m >>= g) ts = (m' >>= g) ts' := by
  change (m ts >>= fun r => g r.1 r.2) = (m' ts' >>= fun r => g r.1 r.2)
  rw [h]

/-! ## What parsers take -/

/-- With bounds that are large enough, the parsers take `ts` to `b` and leave `rest`. -/
def Takes (p : ι → Parser τ ε β) (ts : List τ) (b : β) (rest : List τ) : Prop :=
  ∃ N, ∀ n, N ≤ n → p n ts = .ok (b, rest)

lemma Takes.bind (h : Takes p ts b ts') (h' : Takes (fun n => f n b) ts' c rest) :
    Takes (fun n => p n >>= f n) ts c rest := by
  obtain ⟨N, hN⟩ := h
  obtain ⟨M, hM⟩ := h'
  refine ⟨N ⊔ M, fun n hn => ?_⟩
  have hmid := hN n (le_sup_left.trans hn)
  simp only [bind_ok hmid]
  exact hM n (le_sup_right.trans hn)

lemma takes_pure [Nonempty ι] (b : β) (ts : List τ) :
    Takes (fun _ : ι => (pure b : Parser τ ε β)) ts b ts :=
  ⟨Classical.arbitrary ι, fun _ _ => rfl⟩

/-- A computation without a bound. -/
lemma takes_of_eq [Nonempty ι] (h : m ts = .ok (b, rest)) :
    Takes (fun _ : ι => m) ts b rest := ⟨Classical.arbitrary ι, fun _ _ => h⟩

/-- A computation without a bound, and then another one. -/
lemma Takes.bind_eq (h : m ts = .ok (b, ts')) (h' : Takes (fun n => f n b) ts' c rest) :
    Takes (fun n => m >>= f n) ts c rest := by
  obtain ⟨N, hN⟩ := h'
  refine ⟨N, fun n hn => ?_⟩
  simp only [bind_ok h]
  exact hN n hn

/-- Other parsers that do, with bounds that are large enough, what these do. -/
lemma Takes.of_bounds {κ : Type} [SemilatticeSup κ] {q : κ → Parser τ ε β}
    (h : Takes p ts b rest) (hq : ∀ N, ∃ M, ∀ n, M ≤ n → ∃ n', N ≤ n' ∧ q n ts = p n' ts) :
    Takes q ts b rest := by
  obtain ⟨N, hN⟩ := h
  obtain ⟨M, hM⟩ := hq N
  refine ⟨M, fun n hn => ?_⟩
  obtain ⟨n', hn', heq⟩ := hM n hn
  exact heq.trans (hN n' hn')

/-- One level of the calls does not matter. -/
lemma takes_of_succ {p : ι × ℕ → Parser τ ε β}
    (h : Takes (fun n : ι × ℕ => p (n.1, n.2 + 1)) ts b rest) : Takes p ts b rest := by
  obtain ⟨N, hN⟩ := h
  refine ⟨(N.1, N.2 + 1), fun n hn => ?_⟩
  obtain ⟨k, m⟩ := n
  obtain ⟨m, rfl⟩ : ∃ m', m = m' + 1 := ⟨m - 1, by have := hn.2; simp only at this; omega⟩
  exact hN (k, m) ⟨hn.1, Nat.le_of_succ_le_succ hn.2⟩

/-- What `q` makes of `ts'`, `p` makes of `ts`. -/
def Leads (p : ι → Parser τ ε β) (ts : List τ) (q : ι → Parser τ ε β) (ts' : List τ) : Prop :=
  ∀ b rest, Takes q ts' b rest → Takes p ts b rest

lemma Leads.trans {p' : ι → Parser τ ε β} {ts'' : List τ} (h : Leads p ts q ts')
    (h' : Leads q ts' p' ts'') : Leads p ts p' ts'' :=
  fun b rest hq => h b rest (h' b rest hq)

lemma Takes.leads_pure (h : Takes p ts b ts') : Leads p ts (fun _ => pure b) ts' := by
  rintro c rest ⟨N, hN⟩
  cases hN N le_rfl
  exact h

/-! ## What a value weighs -/

/-- The tokens' cost. -/
def cost (w : τ → ℕ) (ts : List τ) : ℕ := (ts.map w).sum

lemma cost_cons (w : τ → ℕ) (t : τ) (ts : List τ) : cost w (t :: ts) = w t + cost w ts := by
  simp [cost]

lemma cost_append (w : τ → ℕ) (ts ts' : List τ) : cost w (ts ++ ts') = cost w ts + cost w ts' := by
  simp [cost]

/-- A value weighs no more than `k` and the tokens that were taken for it. -/
def Costs (w : τ → ℕ) (v : β → ℕ) (k : ℕ) (m : Parser τ ε β) : Prop :=
  ∀ ts b rest, m ts = .ok (b, rest) → v b + cost w rest ≤ k + cost w ts

section

variable {w : τ → ℕ} {v : β → ℕ} {u : γ → ℕ} {k : ℕ}

lemma costs_pure (h : v b ≤ k) : Costs w v k (pure b : Parser τ ε β) := by
  intro ts b' rest heq
  cases heq
  exact Nat.add_le_add_right h _

lemma costs_throw (e : ε) : Costs w v k (throw e : Parser τ ε β) := fun _ _ _ h => (by cases h)

/-- The weight of the first value is passed on. -/
lemma Costs.bind (h : Costs w v 0 m) (hg : ∀ b, Costs w u (k + v b) (g b)) :
    Costs w u k (m >>= g) := by
  intro ts c rest heq
  obtain ⟨b, ts', hm, heq⟩ := bind_eq_ok.mp heq
  have h1 := h ts b ts' hm
  have h2 := hg b ts' c rest heq
  omega

/-- What the first value may weigh includes what the second one may. -/
lemma Costs.andThen (h : Costs w v k m) (hg : ∀ b, Costs w u (v b) (g b)) :
    Costs w u k (m >>= g) := by
  intro ts c rest heq
  obtain ⟨b, ts', hm, heq⟩ := bind_eq_ok.mp heq
  exact (hg b ts' c rest heq).trans (h ts b ts' hm)

lemma Costs.weaken {k' : ℕ} (h : Costs w v k m) (hk : k ≤ k') : Costs w v k' m := by
  intro ts b rest heq
  have h1 := h ts b rest heq
  omega

end

end Parser
