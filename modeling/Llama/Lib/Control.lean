import Mathlib.Logic.Basic

/-!
# Computations with a state, errors and signals

A computation changes a state and ends with a value, with an error, with a signal -- a jump that
is no error -- or is unfinished.  The state stays as it is when a computation ends early.

What a computation may do to the state is described by two relations between the states before and
after it: one that holds however it ends, and a stronger one that holds unless it fails.
-/

/-- How a computation ends. -/
inductive Outcome (ε τ α : Type)
  | ok (a : α)
  | error (e : ε)
  | signal (t : τ)
  | unfinished
  deriving DecidableEq, Repr

/-- The computation failed, or is unfinished. -/
def Outcome.Fails {ε τ α : Type} : Outcome ε τ α → Prop
  | ok _ => False
  | error _ => True
  | signal _ => False
  | unfinished => True

/-- A value that is returned after another computation. -/
lemma except_bind_eq_ok {ε α β : Type} {m : Except ε α} {f : α → Except ε β} {b : β} :
    (m >>= f) = .ok b ↔ ∃ a, m = .ok a ∧ f a = .ok b := by
  cases m with
  | error e => exact ⟨fun h => (by cases h), fun h => (by obtain ⟨a, h, -⟩ := h; cases h)⟩
  | ok a => exact ⟨fun h => ⟨a, rfl, h⟩, fun h => (by obtain ⟨a', h, h'⟩ := h; cases h; exact h')⟩

lemma except_ok_bind {ε α β : Type} (a : α) (f : α → Except ε β) : (Except.ok a >>= f) = f a :=
  rfl

/-- A computation. -/
def Control (σ ε τ α : Type) := σ → Outcome ε τ α × σ

namespace Control

variable {σ ε τ α β : Type}

/-- Continue with the value of a computation. -/
def bind (m : Control σ ε τ α) (f : α → Control σ ε τ β) : Control σ ε τ β := fun s =>
  match m s with
  | (.ok a, s) => f a s
  | (.error e, s) => (.error e, s)
  | (.signal t, s) => (.signal t, s)
  | (.unfinished, s) => (.unfinished, s)

instance : Monad (Control σ ε τ) where
  pure a := fun s => (.ok a, s)
  bind := bind

/-- End with an error. -/
def fail (e : ε) : Control σ ε τ α := fun s => (.error e, s)

/-- End with a signal. -/
def jump (t : τ) : Control σ ε τ α := fun s => (.signal t, s)

/-- Never end. -/
def unfinished : Control σ ε τ α := fun s => (.unfinished, s)

/-- Look at the state and change it. -/
def onState (f : σ → Except ε α × σ) : Control σ ε τ α := fun s =>
  match f s with
  | (.ok a, s) => (.ok a, s)
  | (.error e, s) => (.error e, s)

/-- A value or an error. -/
def ofExcept (x : Except ε α) : Control σ ε τ α := fun s =>
  match x with
  | .ok a => (.ok a, s)
  | .error e => (.error e, s)

/-- Catch a signal. -/
def catchSignals (m : Control σ ε τ α) : Control σ ε τ (α ⊕ τ) := fun s =>
  match m s with
  | (.ok a, s) => (.ok (.inl a), s)
  | (.error e, s) => (.error e, s)
  | (.signal t, s) => (.ok (.inr t), s)
  | (.unfinished, s) => (.unfinished, s)

/-- Replace an error. -/
def mapError (f : σ → ε → ε) (m : Control σ ε τ α) : Control σ ε τ α := fun s =>
  match m s with
  | (.error e, s) => (.error (f s e), s)
  | r => r

/-- A computation, followed by a change of the state that depends on whether it ended with a
value. -/
def finish (m : Control σ ε τ α) (f : Bool → σ → σ) : Control σ ε τ α := fun s =>
  match m s with
  | (.ok a, s) => (.ok a, f true s)
  | (r, s) => (r, f false s)

/-- What is done after a computation depends on how it ended. -/
lemma finish_cases (m : Control σ ε τ α) (f : Bool → σ → σ) (s : σ) :
    (∃ a, (m s).1 = .ok a ∧ m.finish f s = (.ok a, f true (m s).2)) ∨
      ((∀ a, (m s).1 ≠ .ok a) ∧ m.finish f s = ((m s).1, f false (m s).2)) := by
  unfold finish
  split
  · next a s' heq => exact .inl ⟨a, by rw [heq], by rw [heq]⟩
  · next r s' hno heq =>
    refine .inr ⟨fun a ha => ?_, by rw [heq]⟩
    rw [heq] at ha
    exact hno a ha

variable {m : Control σ ε τ α}

lemma bind_eq_ok {f : α → Control σ ε τ β} {s s' : σ} {b : β} :
    (m >>= f) s = (.ok b, s') ↔ ∃ a s1, m s = (.ok a, s1) ∧ f a s1 = (.ok b, s') := by
  change Control.bind m f s = _ ↔ _
  unfold Control.bind
  split
  · next a s1 heq =>
    rw [heq]
    refine ⟨fun h => ⟨a, s1, rfl, h⟩, ?_⟩
    rintro ⟨a', s2, h, hf⟩
    cases h
    exact hf
  all_goals
    next heq =>
      rw [heq]
      exact ⟨fun h => (by cases h), fun h => (by obtain ⟨a, s1, h, -⟩ := h; cases h)⟩

lemma pure_eq_ok {a b : α} {s s' : σ} :
    (pure a : Control σ ε τ α) s = (.ok b, s') ↔ a = b ∧ s = s' := by
  change (Outcome.ok a, s) = _ ↔ _
  rw [Prod.mk.injEq, Outcome.ok.injEq]

lemma ofExcept_eq_ok {x : Except ε α} {a : α} {s s' : σ} :
    (ofExcept x : Control σ ε τ α) s = (.ok a, s') ↔ x = .ok a ∧ s = s' := by
  cases x with
  | ok b => rw [Except.ok.injEq]; exact pure_eq_ok
  | error e => exact ⟨fun h => (by cases h), fun h => (by cases h.1)⟩

lemma onState_eq_ok {f : σ → Except ε α × σ} {a : α} {s s' : σ} :
    (onState f : Control σ ε τ α) s = (.ok a, s') ↔ f s = (.ok a, s') := by
  unfold onState
  split
  · next b s1 heq =>
    rw [heq, Prod.mk.injEq, Prod.mk.injEq, Outcome.ok.injEq, Except.ok.injEq]
  · next e s1 heq =>
    rw [heq]
    exact ⟨fun h => (by cases h), fun h => (by cases h)⟩

/-! ## What a computation may do -/

/-- Two relations that compose, the second one stronger than the first. -/
structure Steps (R S : σ → σ → Prop) : Prop where
  refl : ∀ s, S s s
  imp : ∀ {s s'}, S s s' → R s s'
  trans : ∀ {s s' s''}, S s s' → S s' s'' → S s s''
  fails : ∀ {s s' s''}, S s s' → R s' s'' → R s s''

/-- However the computation ends, its states are related by `R`; unless it fails, by `S`. -/
def Within (R S : σ → σ → Prop) (m : Control σ ε τ α) : Prop :=
  ∀ s, R s (m s).2 ∧ (¬(m s).1.Fails → S s (m s).2)

variable {R S : σ → σ → Prop}

lemma within_pure (h : Steps R S) (a : α) : Within R S (pure a : Control σ ε τ α) :=
  fun s => ⟨h.imp (h.refl s), fun _ => h.refl s⟩

lemma within_fail (h : Steps R S) (e : ε) : Within R S (fail e : Control σ ε τ α) :=
  fun s => ⟨h.imp (h.refl s), fun _ => h.refl s⟩

lemma within_jump (h : Steps R S) (t : τ) : Within R S (jump t : Control σ ε τ α) :=
  fun s => ⟨h.imp (h.refl s), fun _ => h.refl s⟩

lemma within_unfinished (h : Steps R S) : Within R S (unfinished : Control σ ε τ α) :=
  fun s => ⟨h.imp (h.refl s), fun _ => h.refl s⟩

lemma within_onState (h : Steps R S) {f : σ → Except ε α × σ} (hf : ∀ s, S s (f s).2) :
    Within R S (onState f : Control σ ε τ α) := by
  intro s
  have hs := hf s
  unfold onState
  split
  · next heq =>
    rw [heq] at hs
    exact ⟨h.imp hs, fun _ => hs⟩
  · next heq =>
    rw [heq] at hs
    exact ⟨h.imp hs, fun _ => hs⟩

/-- **Computations compose.** -/
theorem Within.bind (h : Steps R S) {f : α → Control σ ε τ β} (hm : Within R S m)
    (hf : ∀ a, Within R S (f a)) : Within R S (m >>= f) := by
  intro s
  obtain ⟨hR, hS⟩ := hm s
  change R s (Control.bind m f s).2 ∧ (¬(Control.bind m f s).1.Fails → S s (Control.bind m f s).2)
  unfold Control.bind
  split
  · next a s' heq =>
    rw [heq] at hS
    have hs' : S s s' := hS id
    obtain ⟨hR', hS'⟩ := hf a s'
    exact ⟨h.fails hs' hR', fun hno => h.trans hs' (hS' hno)⟩
  · next e s' heq =>
    rw [heq] at hR
    exact ⟨hR, fun hno => absurd trivial hno⟩
  · next t s' heq =>
    rw [heq] at hR hS
    exact ⟨hR, fun hno => hS hno⟩
  · next s' heq =>
    rw [heq] at hR
    exact ⟨hR, fun hno => absurd trivial hno⟩

lemma Within.catchSignals (hm : Within R S m) : Within R S m.catchSignals := by
  intro s
  obtain ⟨hR, hS⟩ := hm s
  unfold Control.catchSignals
  split
  · next heq =>
    rw [heq] at hR hS
    exact ⟨hR, fun hno => hS hno⟩
  · next heq =>
    rw [heq] at hR hS
    exact ⟨hR, fun hno => hS hno⟩
  · next heq =>
    rw [heq] at hR hS
    exact ⟨hR, fun _ => hS id⟩
  · next heq =>
    rw [heq] at hR hS
    exact ⟨hR, fun hno => hS hno⟩

lemma Within.mapError {f : σ → ε → ε} (hm : Within R S m) : Within R S (m.mapError f) := by
  intro s
  obtain ⟨hR, hS⟩ := hm s
  unfold Control.mapError
  split
  · next heq =>
    rw [heq] at hR
    exact ⟨hR, fun hno => absurd trivial hno⟩
  · exact ⟨hR, hS⟩

/-! ## What a computation ends with -/

/-- The computation ends, its states are related by `R`, and its value satisfies `Q`. -/
def Ends (R : σ → σ → Prop) (Q : α → Prop) (m : Control σ ε τ α) : Prop :=
  ∀ s, R s (m s).2 ∧ (m s).1 ≠ .unfinished ∧ ∀ a, (m s).1 = .ok a → Q a

variable {Q Q' : α → Prop} {P : β → Prop}

lemma ends_pure (h : Steps R R) {a : α} (ha : Q a) : Ends R Q (pure a : Control σ ε τ α) := by
  refine fun s => ⟨h.refl s, fun hno => (by cases hno), fun b hb => ?_⟩
  cases hb
  exact ha

lemma ends_fail (h : Steps R R) (e : ε) : Ends R Q (fail e : Control σ ε τ α) :=
  fun s => ⟨h.refl s, fun hno => (by cases hno), fun _ hb => (by cases hb)⟩

lemma ends_ofExcept (h : Steps R R) {x : Except ε α} (hx : ∀ a, x = .ok a → Q a) :
    Ends R Q (ofExcept x : Control σ ε τ α) := by
  cases x with
  | ok a => exact ends_pure h (hx a rfl)
  | error e => exact ends_fail h e

/-- A change of the state that gives a value. -/
lemma ends_onState {f : σ → Except ε α × σ} (hR : ∀ s, R s (f s).2)
    (hQ : ∀ s a, (f s).1 = .ok a → Q a) : Ends R Q (onState f : Control σ ε τ α) := by
  intro s
  have hs := hR s
  unfold onState
  split
  · next a s' heq =>
    rw [heq] at hs
    refine ⟨hs, fun hno => (by cases hno), fun b hb => ?_⟩
    cases hb
    exact hQ s a (by rw [heq])
  · next e s' heq =>
    rw [heq] at hs
    exact ⟨hs, fun hno => (by cases hno), fun b hb => (by cases hb)⟩

lemma Ends.weaken (hm : Ends R Q m) (hQ : ∀ a, Q a → Q' a) :
    Ends R Q' m := fun s => ⟨(hm s).1, (hm s).2.1, fun a ha => hQ a ((hm s).2.2 a ha)⟩

/-- **Computations end one after the other.** -/
theorem Ends.bind (h : Steps R R) {f : α → Control σ ε τ β} (hm : Ends R Q m)
    (hf : ∀ a, Q a → Ends R P (f a)) : Ends R P (m >>= f) := by
  intro s
  obtain ⟨hR, hend, hQ⟩ := hm s
  change R s (Control.bind m f s).2 ∧ (Control.bind m f s).1 ≠ .unfinished ∧
    ∀ b, (Control.bind m f s).1 = .ok b → P b
  unfold Control.bind
  split
  · next a s' heq =>
    rw [heq] at hR hQ
    obtain ⟨hR', hend', hP⟩ := hf a (hQ a rfl) s'
    exact ⟨h.trans hR hR', hend', hP⟩
  · next e s' heq =>
    rw [heq] at hR
    exact ⟨hR, fun hno => (by cases hno), fun b hb => (by cases hb)⟩
  · next t s' heq =>
    rw [heq] at hR
    exact ⟨hR, fun hno => (by cases hno), fun b hb => (by cases hb)⟩
  · next s' heq =>
    rw [heq] at hend
    exact absurd rfl hend

lemma Ends.ite {c : Prop} [Decidable c] {m' : Control σ ε τ α} (hm : c → Ends R Q m)
    (hm' : ¬ c → Ends R Q m') : Ends R Q (if c then m else m') := by
  by_cases hc : c
  · rw [if_pos hc]
    exact hm hc
  · rw [if_neg hc]
    exact hm' hc

end Control
