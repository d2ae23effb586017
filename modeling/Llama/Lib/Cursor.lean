import Llama.Lib.Bytes

/-!
# Cursors over a buffer

A cursor is a place in a buffer of bytes.  Copying bytes from it does not look whether they are
there: a copy that goes over the end of the buffer reads outside.  A program asks how many bytes
are left, which is an unsigned difference and goes wrong when the place is behind the end.

`Safe` says that a program does not read outside and leaves its place in the buffer.  `Reads` is
total correctness on a given part of the buffer.  Both have one rule for each way of building a
program.
-/

/-- How a program on a buffer ends. -/
inductive Cursor.Result (α : Type)
  | ok (a : α) (pos : ℕ)
  | thrown (message : String)
  | outOfBounds
  deriving DecidableEq, Repr

/-- A program on a buffer, from a place on. -/
def Cursor (α : Type) := List UInt8 → ℕ → Cursor.Result α

namespace Cursor

open List

variable {α β ι σ : Type} {data : List UInt8} {pos : ℕ}

def ret (a : α) : Cursor α := fun _ pos => .ok a pos

def andThen (r : Cursor α) (f : α → Cursor β) : Cursor β := fun data pos =>
  match r data pos with
  | .ok a pos => f a data pos
  | .thrown message => .thrown message
  | .outOfBounds => .outOfBounds

instance : Monad Cursor where
  pure := ret
  bind := andThen

/-- Throw an exception. -/
def throw (message : String) : Cursor α := fun _ _ => .thrown message

/-- Throw when `c` holds. -/
def throwIf (c : Prop) [Decidable c] (message : String) : Cursor Unit :=
  if c then throw message else pure ()

/-- Copy `n` bytes and go over them. -/
def copy (n : ℕ) : Cursor (List UInt8) := fun data pos =>
  if pos + n ≤ data.length then .ok ((data.drop pos).take n) (pos + n) else .outOfBounds

/-- The number of bytes that are left, in 64 bits without a sign. -/
def left : Cursor ℕ := fun data pos =>
  .ok (if pos ≤ data.length then data.length - pos else data.length + 2 ^ 64 - pos) pos

/-- A loop that changes a state. -/
def forEach (body : σ → ι → Cursor σ) : List ι → σ → Cursor σ
  | [], s => pure s
  | i :: is, s => do
    let s ← body s i
    forEach body is s

/-! ## Reading inside the buffer -/

/-- From a place in the buffer the program does not read outside, and it leaves a place in the
buffer. -/
def Safe (r : Cursor α) : Prop := ∀ data pos, pos ≤ data.length →
  r data pos ≠ .outOfBounds ∧ ∀ a pos', r data pos = .ok a pos' → pos' ≤ data.length

lemma safe_pure (a : α) : Safe (pure a) := by
  refine fun data pos hpos => ⟨fun h => (by cases h), fun a' pos' h => ?_⟩
  cases h
  exact hpos

lemma safe_throw (message : String) : Safe (throw message : Cursor α) :=
  fun _ _ _ => ⟨fun h => (by cases h), fun _ _ h => (by cases h)⟩

lemma safe_throwIf (c : Prop) [Decidable c] (message : String) : Safe (throwIf c message) := by
  unfold throwIf
  split
  · exact safe_throw message
  · exact safe_pure ()

variable {f : α → Cursor β} {r : Cursor α} {body : σ → ι → Cursor σ} {bs : List UInt8}

lemma Safe.bind (hr : Safe r) (hf : ∀ a, Safe (f a)) : Safe (r >>= f) := by
  intro data pos hpos
  obtain ⟨hne, hle⟩ := hr data pos hpos
  change andThen r f data pos ≠ _ ∧ ∀ b pos', andThen r f data pos = _ → _
  rw [andThen]
  cases h : r data pos with
  | ok a pos' => exact hf a data pos' (hle a pos' h)
  | thrown message => exact ⟨fun h => (by cases h), fun _ _ h => (by cases h)⟩
  | outOfBounds => exact absurd h hne

lemma left_bind {f : ℕ → Cursor α} (hpos : pos ≤ data.length) :
    (left >>= f) data pos = f (data.length - pos) data pos := by
  change andThen left f data pos = _
  rw [andThen, left, if_pos hpos]

/-- A copy of bytes of which it was asked whether they are left. -/
lemma safe_left_bind {n : ℕ → ℕ} {f : ℕ → Cursor α} {message : String} {c : ℕ → Prop}
    [DecidablePred c] {g : ℕ → List UInt8 → Cursor α} (hc : ∀ k, ¬ c k → n k ≤ k)
    (hf : ∀ k, f k = if c k then throw message else copy (n k) >>= g k)
    (hg : ∀ k bs, Safe (g k bs)) : Safe (left >>= f) := by
  intro data pos hpos
  rw [left_bind hpos, hf]
  split_ifs with hthrow
  · exact safe_throw message data pos hpos
  · have hn := hc _ hthrow
    have hcopy : (copy (n (data.length - pos)) >>= g (data.length - pos)) data pos =
        g (data.length - pos) ((data.drop pos).take (n (data.length - pos))) data
          (pos + n (data.length - pos)) := by
      change andThen _ _ data pos = _
      rw [andThen, copy, if_pos (by omega)]
    rw [hcopy]
    exact hg _ _ data _ (by omega)

lemma safe_left : Safe left := by
  refine fun data pos hpos => ⟨fun h => (by cases h), fun a pos' h => ?_⟩
  cases h
  exact hpos

lemma safe_forEach (h : ∀ s i, Safe (body s i)) : ∀ (l : List ι) (s : σ), Safe (forEach body l s)
  | [], s => safe_pure s
  | i :: is, s => (h s i).bind fun s => safe_forEach h is s

lemma bind_eq_ok {b : β} {pos' : ℕ} (h : (r >>= f) data pos = .ok b pos') :
    ∃ a p, r data pos = .ok a p ∧ f a data p = .ok b pos' := by
  change andThen r f data pos = _ at h
  rw [andThen] at h
  cases hr : r data pos with
  | ok a p =>
    rw [hr] at h
    exact ⟨a, p, rfl, h⟩
  | thrown message =>
    rw [hr] at h
    cases h
  | outOfBounds =>
    rw [hr] at h
    cases h

lemma throwIf_eq_ok {c : Prop} [Decidable c] {message : String} {u : Unit} {pos' : ℕ}
    (h : throwIf c message data pos = .ok u pos') : ¬ c := by
  intro hc
  unfold throwIf at h
  rw [if_pos hc] at h
  cases h

/-- **The loop invariant.** -/
theorem forEach_eq_ok {I : σ → Prop} {l : List ι} {s s' : σ} {pos' : ℕ}
    (hbody : ∀ s, I s → ∀ i ∈ l, ∀ p s' p', body s i data p = .ok s' p' → I s') (hs : I s)
    (h : forEach body l s data pos = .ok s' pos') : I s' := by
  induction l generalizing s pos with
  | nil =>
    cases h
    exact hs
  | cons i l ih =>
    obtain ⟨s1, p, hi, hrest⟩ := bind_eq_ok h
    exact ih (fun s hs j hj => hbody s hs j (mem_cons_of_mem _ hj))
      (hbody s hs i mem_cons_self _ _ _ hi) hrest

/-! ## Reading a given part of the buffer -/

/-- Where the buffer goes on with `bs`, the program goes over `bs` and returns `a`. -/
def Reads (r : Cursor α) (bs : List UInt8) (a : α) : Prop :=
  ∀ pre rest, r (pre ++ (bs ++ rest)) pre.length = .ok a (pre.length + bs.length)

lemma reads_pure (a : α) : Reads (pure a) [] a := fun _ _ => rfl

lemma Reads.bind {bs' : List UInt8} {a : α} {b : β} (h : Reads r bs a) (h' : Reads (f a) bs' b) :
    Reads (r >>= f) (bs ++ bs') b := by
  intro pre rest
  have hr := h pre (bs' ++ rest)
  have hf := h' (pre ++ bs) rest
  change andThen r f _ _ = _
  rw [append_assoc, andThen, hr]
  rw [append_assoc, length_append] at hf
  rw [length_append, ← Nat.add_assoc]
  exact hf

/-- A step that reads nothing. -/
lemma Reads.bind_nil {a : α} {b : β} (h : Reads r [] a) (h' : Reads (f a) bs b) :
    Reads (r >>= f) bs b := h.bind h'

lemma Reads.bind_pure {a : α} (h : Reads r bs a) (f : α → β) :
    Reads (do let x ← r; pure (f x)) bs (f a) := by
  have h' : Reads (r >>= fun x => pure (f x)) (bs ++ []) (f a) := h.bind (reads_pure (f a))
  rwa [append_nil] at h'

lemma reads_throwIf {c : Prop} [Decidable c] (h : ¬ c) (message : String) :
    Reads (throwIf c message) [] () := by
  unfold throwIf
  rw [if_neg h]
  exact reads_pure ()

lemma reads_copy (bs : List UInt8) : Reads (copy bs.length) bs bs := by
  intro pre rest
  have hle : pre.length + bs.length ≤ (pre ++ (bs ++ rest)).length := by
    rw [length_append, length_append]
    omega
  rw [copy, if_pos hle, drop_left, take_left]

/-- What is left is at least what goes on. -/
lemma reads_left {f : ℕ → Cursor α} {a : α} (h : ∀ k, bs.length ≤ k → Reads (f k) bs a) :
    Reads (left >>= f) bs a := by
  intro pre rest
  have hle : pre.length ≤ (pre ++ (bs ++ rest)).length := by
    rw [length_append]
    omega
  rw [left_bind hle]
  refine h _ ?_ pre rest
  rw [length_append, length_append]
  omega

lemma reads_forEach {κ : Type} {f : κ → ι} {w : κ → List UInt8} {step : σ → κ → σ} {l : List κ}
    (h : ∀ s, ∀ i ∈ l, Reads (body s (f i)) (w i) (step s i)) (s : σ) :
    Reads (forEach body (l.map f) s) (l.flatMap w) (l.foldl step s) := by
  induction l generalizing s with
  | nil => exact reads_pure s
  | cons i l ih =>
    exact (h s i mem_cons_self).bind
      (ih (fun s j hj => h s j (mem_cons_of_mem _ hj)) (step s i))

/-- What is run behind a part of the buffer that was read. -/
lemma Reads.run_bind {a : α} (h : Reads r bs a) (rest : List UInt8) :
    (r >>= f) (bs ++ rest) 0 = f a (bs ++ rest) bs.length := by
  have hr := h [] rest
  rw [nil_append, length_nil, Nat.zero_add] at hr
  change andThen r f _ _ = _
  rw [andThen, hr]

end Cursor
