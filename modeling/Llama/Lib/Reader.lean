import Llama.Lib.Bytes

/-!
# Programs that read bytes

A `Reader` consumes the bytes of an input and changes a state on the way.  It ends with a
value, with an exception, which keeps what was changed before it, or by stopping the
program (a failed assertion).

`Reads` is total correctness on a given prefix of the input: the reader consumes exactly
these bytes and returns.  `Ensures` is partial correctness on any input: if the reader
returns, the postcondition holds.  Both have one rule for each way of building a reader, and
the loops have an invariant rule.
-/

/-- How a reader ends. -/
inductive Reader.Result (α : Type)
  | ok (a : α)
  | thrown
  | stopped

/-- Whether a reader has returned. -/
def Reader.Result.isOk {α : Type} : Reader.Result α → Bool
  | .ok _ => true
  | _ => false

/-- The end of a reader, the state it leaves and the bytes it did not read. -/
structure Reader.Outcome (σ α : Type) where
  result : Reader.Result α
  state : σ
  rest : List UInt8

/-- A program that reads bytes and changes a state. -/
def Reader (σ α : Type) := σ → List UInt8 → Reader.Outcome σ α

namespace Reader

open Bytes

open List

variable {σ α β ι : Type}

def ret (a : α) : Reader σ α := fun s bs => ⟨.ok a, s, bs⟩

def andThen (r : Reader σ α) (f : α → Reader σ β) : Reader σ β := fun s bs =>
  match r s bs with
  | ⟨.ok a, s, bs⟩ => f a s bs
  | ⟨.thrown, s, bs⟩ => ⟨.thrown, s, bs⟩
  | ⟨.stopped, s, bs⟩ => ⟨.stopped, s, bs⟩

instance : Monad (Reader σ) where
  pure := ret
  bind := andThen

/-- Throw an exception. -/
def throw : Reader σ α := fun s bs => ⟨.thrown, s, bs⟩

/-- An assertion: the program stops when it fails. -/
def require (c : Prop) [Decidable c] : Reader σ Unit := fun s bs =>
  if c then ⟨.ok (), s, bs⟩ else ⟨.stopped, s, bs⟩

/-- Stop the program. -/
def stop : Reader σ α := fun s bs => ⟨.stopped, s, bs⟩

/-- Look at the state. -/
def get : Reader σ σ := fun s bs => ⟨.ok s, s, bs⟩

/-- Change the state. -/
def modify (f : σ → σ) : Reader σ Unit := fun s bs => ⟨.ok (), f s, bs⟩

/-- Run a reader; when it throws, return `a` in the state it left. -/
def catchAll (r : Reader σ α) (a : α) : Reader σ α := fun s bs =>
  match r s bs with
  | ⟨.thrown, s, bs⟩ => ⟨.ok a, s, bs⟩
  | o => o

/-- Take `n` bytes; throw when there are fewer. -/
def read (n : ℕ) : Reader σ (List UInt8) := fun s bs =>
  if bs.length < n then ⟨.thrown, s, bs⟩ else ⟨.ok (bs.take n), s, bs.drop n⟩

def readU32 : Reader σ ℕ := do
  let bs ← read 4
  return Bytes.toNat bs

def readU64 : Reader σ ℕ := do
  let bs ← read 8
  return Bytes.toNat bs

def readI32 : Reader σ ℤ := do
  let bs ← read 4
  return Bytes.toInt32 bs

def readI64 : Reader σ ℤ := do
  let bs ← read 8
  return Bytes.toInt64 bs

/-- Run the body on each element as long as it returns `true`. -/
def forAll (body : ι → Reader σ Bool) : List ι → Reader σ Bool
  | [] => return true
  | i :: is => do
    let b ← body i
    if b then forAll body is else return false

/-- Run the body on each element. -/
def forEach (body : ι → Reader σ Unit) (l : List ι) : Reader σ Unit := do
  let _ ← forAll (fun i => do body i; return true) l
  return ()

/-- Throw unless at least `n` bytes are left. -/
def needs (n : ℕ) : Reader σ Unit := fun s bs =>
  if bs.length < n then ⟨.thrown, s, bs⟩ else ⟨.ok (), s, bs⟩

/-- Throw when `c` holds. -/
def throwIf (c : Prop) [Decidable c] : Reader σ Unit := if c then throw else pure ()

/-- The number of bytes that are left. -/
def remaining : Reader σ ℕ := fun s bs => ⟨.ok bs.length, s, bs⟩

/-- Run a reader `n` times and collect what it returns. -/
def replicate : ℕ → Reader σ α → Reader σ (List α)
  | 0, _ => return []
  | n + 1, r => do
    let a ← r
    let as ← replicate n r
    return a :: as

/-- The value a reader returns on an input. -/
def value (r : Reader σ α) (s : σ) (bs : List UInt8) : Option α :=
  match (r s bs).result with
  | .ok a => some a
  | .thrown => none
  | .stopped => none

/-! ## Reading a given prefix -/

/-- On an input that starts with `bs` the reader consumes `bs`, returns `a` and takes the
state from `s` to `s'`. -/
def Reads (r : Reader σ α) (s : σ) (bs : List UInt8) (a : α) (s' : σ) : Prop :=
  ∀ rest, r s (bs ++ rest) = ⟨.ok a, s', rest⟩

lemma reads_pure (a : α) (s : σ) : Reads (pure a) s [] a s := fun _ => rfl

lemma Reads.bind {r : Reader σ α} {f : α → Reader σ β} {s s' s'' : σ} {bs bs' : List UInt8}
    {a : α} {b : β} (h : Reads r s bs a s') (h' : Reads (f a) s' bs' b s'') :
    Reads (r >>= f) s (bs ++ bs') b s'' := by
  intro rest
  change andThen r f s (bs ++ bs' ++ rest) = _
  rw [andThen, append_assoc, h]
  exact h' rest

/-- A step that consumes nothing. -/
lemma Reads.bind_nil {r : Reader σ α} {f : α → Reader σ β} {s s' s'' : σ} {bs : List UInt8}
    {a : α} {b : β} (h : Reads r s [] a s') (h' : Reads (f a) s' bs b s'') :
    Reads (r >>= f) s bs b s'' := h.bind h'

/-- What is left to run behind a reader that returned. -/
lemma run_bind {r : Reader σ α} {f : α → Reader σ β} {s s' : σ} {bs rest : List UInt8} {a : α}
    (h : r s bs = ⟨.ok a, s', rest⟩) : (r >>= f) s bs = f a s' rest := by
  change andThen r f s bs = _
  rw [andThen, h]

lemma Reads.run_bind {r : Reader σ α} {f : α → Reader σ β} {s s' : σ} {bs : List UInt8} {a : α}
    (h : Reads r s bs a s') (rest : List UInt8) : (r >>= f) s (bs ++ rest) = f a s' rest :=
  Reader.run_bind (h rest)

lemma reads_get (s : σ) : Reads get s [] s s := fun _ => rfl

lemma reads_modify (f : σ → σ) (s : σ) : Reads (modify f) s [] () (f s) := fun _ => rfl

lemma reads_require {c : Prop} [Decidable c] (h : c) (s : σ) : Reads (require c) s [] () s := by
  intro rest
  simp only [require, if_pos h, nil_append]

lemma Reads.catchAll {r : Reader σ α} {s s' : σ} {bs : List UInt8} {a : α}
    (h : Reads r s bs a s') (b : α) : Reads (r.catchAll b) s bs a s' := by
  intro rest
  rw [Reader.catchAll, h]

lemma reads_read {n : ℕ} {bs : List UInt8} (h : bs.length = n) (s : σ) :
    Reads (read n) s bs bs s := by
  intro rest
  have hlen : ¬ (bs ++ rest).length < n := by
    rw [length_append]
    omega
  rw [read, if_neg hlen, take_left' h, drop_left' h]

lemma Reads.map {r : Reader σ α} {s s' : σ} {bs : List UInt8} {a : α} (h : Reads r s bs a s')
    (f : α → β) : Reads (do let x ← r; return f x) s bs (f a) s' := by
  have h' : Reads (r >>= fun x => pure (f x)) s (bs ++ []) (f a) s' :=
    h.bind (reads_pure (f a) s')
  rwa [append_nil] at h'

lemma reads_readU32 {n : ℕ} (h : n < 2 ^ 32) (s : σ) : Reads readU32 s (ofNat 4 n) n s := by
  have h' := (reads_read (length_ofNat 4 n) s).map toNat
  rwa [Bytes.toNat_ofNat (by norm_num; omega)] at h'

lemma reads_readU64 {n : ℕ} (h : n < 2 ^ 64) (s : σ) : Reads readU64 s (ofNat 8 n) n s := by
  have h' := (reads_read (length_ofNat 8 n) s).map toNat
  rwa [Bytes.toNat_ofNat (by norm_num; omega)] at h'

lemma reads_readI32 {z : ℤ} (h : Bytes.IsInt32 z) (s : σ) :
    Reads readI32 s (ofInt32 z) z s := by
  have h' := (reads_read (length_ofInt32 z) s).map toInt32
  rwa [toInt32_ofInt32 h] at h'

lemma reads_readI64 {z : ℤ} (h : Bytes.IsInt64 z) (s : σ) :
    Reads readI64 s (ofInt64 z) z s := by
  have h' := (reads_read (length_ofInt64 z) s).map toInt64
  rwa [toInt64_ofInt64 h] at h'

lemma reads_throwIf {c : Prop} [Decidable c] (h : ¬ c) (s : σ) : Reads (throwIf c) s [] () s := by
  unfold throwIf
  rw [if_neg h]
  exact reads_pure () s

/-- A reader that is run on one input after the other. -/
lemma reads_replicate {r : Reader σ α} {s : σ} {w : ι → List UInt8} {f : ι → α} :
    ∀ {l : List ι}, (∀ i ∈ l, Reads r s (w i) (f i) s) →
      Reads (replicate l.length r) s (l.flatMap w) (l.map f) s
  | [], _ => reads_pure [] s
  | i :: l, h => by
    have hrest := reads_replicate fun j hj => h j (mem_cons_of_mem _ hj)
    exact (h i mem_cons_self).bind (hrest.map fun as => f i :: as)

variable {body : ι → Reader σ Bool} {w : ι → List UInt8} {r : Reader σ α}

/-- **The loop rule.**  The `k`-th round takes state `S k` to `S (k + 1)`. -/
theorem reads_forAll : ∀ {l : List ι} {S : ℕ → σ},
      (∀ k (hk : k < l.length), Reads (body l[k]) (S k) (w l[k]) true (S (k + 1))) →
      Reads (forAll body l) (S 0) (l.flatMap w) true (S l.length) := by
  intro l
  induction l with
  | nil => intro S _; exact reads_pure true (S 0)
  | cons i is ih =>
    intro S h
    have h0 : Reads (body i) (S 0) (w i) true (S 1) := h 0 (Nat.succ_pos _)
    have hrest := ih (S := fun k => S (k + 1)) fun k hk => h (k + 1) (Nat.succ_lt_succ hk)
    exact h0.bind hrest

lemma reads_forEach {body : ι → Reader σ Unit} {l : List ι} {S : ℕ → σ}
    (h : ∀ k (hk : k < l.length), Reads (body l[k]) (S k) (w l[k]) () (S (k + 1))) :
    Reads (forEach body l) (S 0) (l.flatMap w) () (S l.length) :=
  (reads_forAll fun k hk => (h k hk).map fun _ => true).map fun _ => ()

/-! ## Exceptions on a given prefix -/

/-- On an input that starts with `bs` the reader throws. -/
def Throws (r : Reader σ α) (s : σ) (bs : List UInt8) : Prop :=
  ∀ rest, (r s (bs ++ rest)).result = .thrown

lemma throws_throw (s : σ) : Throws (throw : Reader σ α) s [] := fun _ => rfl

lemma Reads.bind_throws {r : Reader σ α} {f : α → Reader σ β} {s s' : σ} {bs bs' : List UInt8}
    {a : α} (h : Reads r s bs a s') (h' : Throws (f a) s' bs') : Throws (r >>= f) s (bs ++ bs') := by
  intro rest
  change (andThen r f s (bs ++ bs' ++ rest)).result = _
  rw [andThen, append_assoc, h]
  exact h' rest

lemma Reads.bind_nil_throws {r : Reader σ α} {f : α → Reader σ β} {s s' : σ} {bs : List UInt8}
    {a : α} (h : Reads r s [] a s') (h' : Throws (f a) s' bs) : Throws (r >>= f) s bs :=
  h.bind_throws h'

lemma Throws.bind {r : Reader σ α} {s : σ} {bs : List UInt8} (h : Throws r s bs)
    (f : α → Reader σ β) : Throws (r >>= f) s bs := by
  intro rest
  change (andThen r f s (bs ++ rest)).result = _
  have h := h rest
  rw [andThen]
  split <;> simp_all

lemma Throws.append {r : Reader σ α} {s : σ} {bs : List UInt8} (h : Throws r s bs)
    (bs' : List UInt8) : Throws r s (bs ++ bs') := by
  intro rest
  rw [append_assoc]
  exact h (bs' ++ rest)

/-- A loop throws when a round does and the rounds before it return. -/
lemma throws_forAll {i : ι} {bs : List UInt8} (l' : List ι) : ∀ {l : List ι} {S : ℕ → σ},
      (∀ k (hk : k < l.length), Reads (body l[k]) (S k) (w l[k]) true (S (k + 1))) →
      Throws (body i) (S l.length) bs →
      Throws (forAll body (l ++ i :: l')) (S 0) (l.flatMap w ++ bs) := by
  intro l
  induction l with
  | nil => intro S _ h; exact h.bind _
  | cons j l ih =>
    intro S h hi
    have h0 : Reads (body j) (S 0) (w j) true (S 1) := h 0 (Nat.succ_pos _)
    have hrest := ih (S := fun k => S (k + 1)) (fun k hk => h (k + 1) (Nat.succ_lt_succ hk)) hi
    rw [flatMap_cons, append_assoc]
    exact h0.bind_throws hrest

lemma throws_forEach {body : ι → Reader σ Unit} {i : ι} {bs : List UInt8} (l' : List ι)
    {l : List ι} {S : ℕ → σ}
    (h : ∀ k (hk : k < l.length), Reads (body l[k]) (S k) (w l[k]) () (S (k + 1)))
    (hi : Throws (body i) (S l.length) bs) :
    Throws (forEach body (l ++ i :: l')) (S 0) (l.flatMap w ++ bs) :=
  (throws_forAll l' (fun k hk => (h k hk).map fun _ => true) (hi.bind _)).bind _

/-! ## Partial correctness -/

/-- If the reader returns, its value, its state and the bytes it leaves satisfy `Q`. -/
def Ensures (r : Reader σ α) (s : σ) (bs : List UInt8) (Q : α → σ → List UInt8 → Prop) : Prop :=
  ∀ a s' rest, r s bs = ⟨.ok a, s', rest⟩ → Q a s' rest

variable {s : σ} {bs : List UInt8} {Q Q' : α → σ → List UInt8 → Prop}

lemma ensures_pure {a : α} (h : Q a s bs) : Ensures (pure a) s bs Q := by
  rintro a' s' rest ⟨⟩
  exact h

lemma Ensures.mono (h : Ensures r s bs Q) (himp : ∀ a s' rest, Q a s' rest → Q' a s' rest) :
    Ensures r s bs Q' :=
  fun a s' rest hr => himp a s' rest (h a s' rest hr)

lemma Ensures.bind {f : α → Reader σ β} {Q' : β → σ → List UInt8 → Prop} (h : Ensures r s bs Q)
    (hf : ∀ a s' rest, Q a s' rest → Ensures (f a) s' rest Q') : Ensures (r >>= f) s bs Q' := by
  intro b s'' rest' hr
  change andThen r f s bs = _ at hr
  rw [andThen] at hr
  split at hr
  · rename_i a s' rest heq
    exact hf a s' rest (h a s' rest heq) b s'' rest' hr
  · cases hr
  · cases hr

/-- Nothing needs to be known of the first step. -/
lemma Ensures.after {f : α → Reader σ β} {Q' : β → σ → List UInt8 → Prop}
    (hf : ∀ a s' rest, Ensures (f a) s' rest Q') : Ensures (r >>= f) s bs Q' :=
  Ensures.bind (Q := fun _ _ _ => True) (fun _ _ _ _ => trivial) fun a s' rest _ => hf a s' rest

lemma ensures_throw : Ensures (throw : Reader σ α) s bs Q := by
  rintro a s' rest ⟨⟩

lemma ensures_stop : Ensures (stop : Reader σ α) s bs Q := by
  rintro a s' rest ⟨⟩

lemma ensures_get {Q : σ → σ → List UInt8 → Prop} (h : Q s s bs) : Ensures get s bs Q := by
  rintro a s' rest ⟨⟩
  exact h

lemma ensures_modify {f : σ → σ} {Q : Unit → σ → List UInt8 → Prop} (h : Q () (f s) bs) :
    Ensures (modify f) s bs Q := by
  rintro a s' rest ⟨⟩
  exact h

lemma ensures_require {c : Prop} [Decidable c] {Q : Unit → σ → List UInt8 → Prop}
    (h : c → Q () s bs) : Ensures (require c) s bs Q := by
  intro a s' rest hr
  rw [require] at hr
  split at hr
  · rename_i hc
    cases hr
    exact h hc
  · cases hr

lemma ensures_read {n : ℕ} {Q : List UInt8 → σ → List UInt8 → Prop}
    (h : n ≤ bs.length → Q (bs.take n) s (bs.drop n)) : Ensures (read n) s bs Q := by
  intro a s' rest hr
  rw [read] at hr
  split at hr
  · cases hr
  · cases hr
    exact h (by omega)

lemma ensures_readU32 {Q : ℕ → σ → List UInt8 → Prop}
    (h : Q (toNat (bs.take 4)) s (bs.drop 4)) : Ensures readU32 s bs Q :=
  (ensures_read fun _ => h).bind fun _ _ _ => ensures_pure

lemma ensures_readU64 {Q : ℕ → σ → List UInt8 → Prop}
    (h : Q (toNat (bs.take 8)) s (bs.drop 8)) : Ensures readU64 s bs Q :=
  (ensures_read fun _ => h).bind fun _ _ _ => ensures_pure

lemma ensures_readI32 {Q : ℤ → σ → List UInt8 → Prop}
    (h : Q (toInt32 (bs.take 4)) s (bs.drop 4)) : Ensures readI32 s bs Q :=
  (ensures_read fun _ => h).bind fun _ _ _ => ensures_pure

lemma ensures_readI64 {Q : ℤ → σ → List UInt8 → Prop}
    (h : Q (toInt64 (bs.take 8)) s (bs.drop 8)) : Ensures readI64 s bs Q :=
  (ensures_read fun _ => h).bind fun _ _ _ => ensures_pure

lemma ensures_throwIf {c : Prop} [Decidable c] {Q : Unit → σ → List UInt8 → Prop}
    (h : ¬ c → Q () s bs) : Ensures (throwIf c) s bs Q := by
  unfold throwIf
  split
  · exact ensures_throw
  · next hc => exact ensures_pure (h hc)

lemma Ensures.of_value {a : α} {P : α → Prop} (h : Ensures r s bs fun a _ _ => P a)
    (hv : r.value s bs = some a) : P a := by
  unfold value at hv
  split at hv
  · next heq =>
    cases hv
    exact h a (r s bs).state (r s bs).rest (by rw [← heq])
  · cases hv
  · cases hv

/-! One step of a program. -/

section Step

variable {f : σ → Reader σ α} {g : Unit → Reader σ α}

lemma ensures_get_bind (h : Ensures (f s) s bs Q) : Ensures (get >>= f) s bs Q :=
  (ensures_get (Q := fun a s' rest => Ensures (f a) s' rest Q) h).bind fun _ _ _ h => h

lemma ensures_modify_bind {c : σ → σ} (h : Ensures (g ()) (c s) bs Q) :
    Ensures (modify c >>= g) s bs Q :=
  (ensures_modify (Q := fun a s' rest => Ensures (g a) s' rest Q) h).bind fun _ _ _ h => h

lemma ensures_require_bind {c : Prop} [Decidable c] (h : c → Ensures (g ()) s bs Q) :
    Ensures (require c >>= g) s bs Q :=
  (ensures_require (Q := fun a s' rest => Ensures (g a) s' rest Q) h).bind fun _ _ _ h => h

lemma ensures_readU32_bind {f : ℕ → Reader σ α}
    (h : Ensures (f (toNat (bs.take 4))) s (bs.drop 4) Q) : Ensures (readU32 >>= f) s bs Q :=
  (ensures_readU32 (Q := fun a s' rest => Ensures (f a) s' rest Q) h).bind fun _ _ _ h => h

lemma ensures_readU64_bind {f : ℕ → Reader σ α}
    (h : Ensures (f (toNat (bs.take 8))) s (bs.drop 8) Q) : Ensures (readU64 >>= f) s bs Q :=
  (ensures_readU64 (Q := fun a s' rest => Ensures (f a) s' rest Q) h).bind fun _ _ _ h => h

lemma ensures_readI32_bind {f : ℤ → Reader σ α}
    (h : Ensures (f (toInt32 (bs.take 4))) s (bs.drop 4) Q) :
    Ensures (readI32 >>= f) s bs Q :=
  (ensures_readI32 (Q := fun a s' rest => Ensures (f a) s' rest Q) h).bind fun _ _ _ h => h

end Step

lemma Ensures.catchAll {b : α} (h : Ensures r s bs Q) (hb : ∀ s' rest, Q b s' rest) :
    Ensures (r.catchAll b) s bs Q := by
  intro a s' rest hr
  rw [Reader.catchAll] at hr
  split at hr
  · cases hr
    exact hb _ _
  · exact h a s' rest hr

/-- **The loop rule.**  `I k` holds before round `k`; a round that returns `false` ends the
loop. -/
theorem ensures_forAll {Q : Bool → σ → List UInt8 → Prop} :
    ∀ {l : List ι} {I : ℕ → σ → List UInt8 → Prop} {s : σ} {bs : List UInt8}, I 0 s bs →
      (∀ k (hk : k < l.length) s bs, I k s bs → Ensures (body l[k]) s bs fun b s' rest =>
        if b then I (k + 1) s' rest else Q false s' rest) →
      (∀ s bs, I l.length s bs → Q true s bs) → Ensures (forAll body l) s bs Q := by
  intro l
  induction l with
  | nil =>
    intro I s bs h0 _ hQ
    exact ensures_pure (hQ s bs h0)
  | cons i is ih =>
    intro I s bs h0 hbody hQ
    refine (hbody 0 (Nat.succ_pos _) s bs h0).bind fun b s' rest hb => ?_
    cases b with
    | false => exact ensures_pure hb
    | true =>
      exact ih (I := fun k => I (k + 1)) hb (fun k hk => hbody (k + 1) (Nat.succ_lt_succ hk)) hQ

end Reader
