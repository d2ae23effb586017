import Llama.Lib.Run
import Mathlib.Data.List.DropRight
import Mathlib.Data.Nat.ModEq

/-!
# The ring buffer of the samplers

A buffer of a fixed capacity: when it is full, an element pushed at the back puts out the one in
front.  What it holds is the list `toVector`, and every operation but `back` is that of a list
that keeps its last elements.  `back` reads the slot behind the last element.
-/

namespace Llama

open List Nat
namespace Sampler

variable {α : Type}

/-! ## The model -/

/-- `ring_buffer`.  The counters stay below twice the capacity, which is the size of a vector, so
none of the sums of the source overflows. -/
structure RingBuffer (α : Type) where
  capacity : ℕ
  sz : ℕ := 0
  first : ℕ := 0
  pos : ℕ := 0
  data : List α

namespace RingBuffer

/-- `throw std::runtime_error("ring buffer is empty")`. -/
def isEmpty : String := "ring buffer is empty"

/-- `throw std::runtime_error("ring buffer: capacity is zero")`. -/
def zeroCapacity : String := "ring buffer: capacity is zero"

/-- `throw std::runtime_error("ring buffer: index out of bounds")`. -/
def outOfBounds : String := "ring buffer: index out of bounds"

variable [Inhabited α]

/-- `ring_buffer(size_t cap)`: the vector holds `cap` default values. -/
def new (cap : ℕ) : RingBuffer α where
  capacity := cap
  data := List.replicate cap default

/-- `data[i]`. -/
def slot (b : RingBuffer α) (i : ℕ) : α := b.data.getD i default

def front (b : RingBuffer α) : Except String α :=
  if b.sz = 0 then .error isEmpty else .ok (b.slot b.first)

def back (b : RingBuffer α) : Except String α :=
  if b.sz = 0 then .error isEmpty else .ok (b.slot b.pos)

def pushBack (b : RingBuffer α) (value : α) : Except String (RingBuffer α) :=
  if b.capacity = 0 then .error zeroCapacity
  else
    -- advance the start when buffer is full
    let b := if b.sz = b.capacity then { b with first := (b.first + 1) % b.capacity }
      else { b with sz := b.sz + 1 }
    .ok { b with data := b.data.set b.pos value, pos := (b.pos + 1) % b.capacity }

def popFront (b : RingBuffer α) : Except String (α × RingBuffer α) :=
  if b.sz = 0 then .error isEmpty
  else .ok (b.slot b.first, { b with first := (b.first + 1) % b.capacity, sz := b.sz - 1 })

def rat (b : RingBuffer α) (i : ℕ) : Except String α :=
  if i ≥ b.sz then .error outOfBounds
  else .ok (b.slot ((b.first + b.sz - i - 1) % b.capacity))

def toVector (b : RingBuffer α) : List α :=
  (List.range b.sz).map fun i => b.slot ((b.first + i) % b.capacity)

/-- `clear`: only the status of the buffer is reset. -/
def clear (b : RingBuffer α) : RingBuffer α := { b with sz := 0, first := 0, pos := 0 }

def empty (b : RingBuffer α) : Bool := b.sz == 0

def size (b : RingBuffer α) : ℕ := b.sz

end RingBuffer

/-- The operations of the buffer. -/
inductive Op (α : Type)
  | pushBack (value : α)
  | popFront
  | clear
  | front
  | back
  | rat (i : ℕ)
  | toVector
  | size
  | empty

/-- What an operation returns. -/
inductive Answer (α : Type)
  | done
  | element (value : α)
  | elements (values : List α)
  | number (n : ℕ)
  | truth (b : Bool)
  deriving DecidableEq

namespace Answer

/-- An element, or an exception with a message. -/
def ofOption (message : String) : Option α → Except String (Answer α)
  | none => .error message
  | some value => .ok (.element value)

end Answer

/-- An operation of the buffer: what it returns or throws, and the buffer afterwards. -/
def RingBuffer.call [Inhabited α] (b : RingBuffer α) :
    Op α → Except String (Answer α) × RingBuffer α
  | .pushBack value =>
    match b.pushBack value with
    | .error e => (.error e, b)
    | .ok b' => (.ok .done, b')
  | .popFront =>
    match b.popFront with
    | .error e => (.error e, b)
    | .ok (value, b') => (.ok (.element value), b')
  | .clear => (.ok .done, b.clear)
  | .front => (b.front.map .element, b)
  | .back => (b.back.map .element, b)
  | .rat i => ((b.rat i).map .element, b)
  | .toVector => (.ok (.elements b.toVector), b)
  | .size => (.ok (.number b.size), b)
  | .empty => (.ok (.truth b.empty), b)

/-- The operations on the list that keeps the last `c` elements pushed. -/
def Deque.call (c : ℕ) (l : List α) : Op α → Except String (Answer α) × List α
  | .pushBack value => (.ok .done, (l ++ [value]).rtake c)
  | .popFront => (Answer.ofOption RingBuffer.isEmpty l.head?, l.tail)
  | .clear => (.ok .done, [])
  | .front => (Answer.ofOption RingBuffer.isEmpty l.head?, l)
  | .back => (Answer.ofOption RingBuffer.isEmpty l.getLast?, l)
  | .rat i => (Answer.ofOption RingBuffer.outOfBounds l.reverse[i]?, l)
  | .toVector => (.ok (.elements l), l)
  | .size => (.ok (.number l.length), l)
  | .empty => (.ok (.truth l.isEmpty), l)

namespace RingBuffer

variable {b : RingBuffer α} {value : α} {c i j : ℕ}

/-! ## Valid buffers -/

/-- The position behind the last element is counted from the first one. -/
structure Valid (b : RingBuffer α) : Prop where
  length : b.data.length = b.capacity
  capacity_pos : 0 < b.capacity
  sz_le : b.sz ≤ b.capacity
  first_lt : b.first < b.capacity
  pos_eq : b.pos = (b.first + b.sz) % b.capacity

lemma Valid.clear (h : b.Valid) : b.clear.Valid where
  length := h.length
  capacity_pos := h.capacity_pos
  sz_le := Nat.zero_le _
  first_lt := h.capacity_pos
  pos_eq := (zero_mod _).symm

/-- The buffer without its first element. -/
def dropFirst (b : RingBuffer α) : RingBuffer α :=
  { b with first := (b.first + 1) % b.capacity, sz := b.sz - 1 }

/-- The buffer with an element in the slot behind the last one. -/
def append (b : RingBuffer α) (value : α) : RingBuffer α :=
  { b with
    sz := b.sz + 1
    data := b.data.set b.pos value
    pos := (b.pos + 1) % b.capacity }

lemma Valid.dropFirst (h : b.Valid) (hsz : 0 < b.sz) : b.dropFirst.Valid where
  length := h.length
  capacity_pos := h.capacity_pos
  sz_le := (sub_le _ _).trans h.sz_le
  first_lt := mod_lt _ h.capacity_pos
  pos_eq := by
    change b.pos = ((b.first + 1) % b.capacity + (b.sz - 1)) % b.capacity
    rw [mod_add_mod, Nat.add_assoc, Nat.add_sub_cancel' hsz, h.pos_eq]

lemma Valid.append (h : b.Valid) (hsz : b.sz < b.capacity) (value : α) :
    (b.append value).Valid where
  length := length_set.trans h.length
  capacity_pos := h.capacity_pos
  sz_le := hsz
  first_lt := h.first_lt
  pos_eq := by
    change (b.pos + 1) % b.capacity = (b.first + (b.sz + 1)) % b.capacity
    rw [h.pos_eq, mod_add_mod, Nat.add_assoc]

lemma Valid.pos_lt (h : b.Valid) : b.pos < b.data.length := by
  rw [h.pos_eq, h.length]
  exact mod_lt _ h.capacity_pos

lemma pushBack_eq (h : b.Valid) (value : α) : b.pushBack value =
      .ok ((if b.sz = b.capacity then b.dropFirst else b).append value) := by
  have hne : b.capacity ≠ 0 := Nat.ne_of_gt h.capacity_pos
  rw [pushBack, if_neg hne]
  split_ifs with hfull
  · have hsz : b.sz - 1 + 1 = b.sz := Nat.sub_add_cancel (hfull ▸ h.capacity_pos)
    rw [append, dropFirst]
    simp only [hsz]
  · rfl

/-- Less than a whole turn apart, the slots differ. -/
lemma add_mod_ne {a cap : ℕ} (hij : i < j) (hj : j < cap) : (a + i) % cap ≠ (a + j) % cap := by
  intro h
  have hmod : i % cap = j % cap := Nat.ModEq.add_left_cancel' a h
  rw [mod_eq_of_lt (hij.trans hj), mod_eq_of_lt hj] at hmod
  exact Nat.ne_of_lt hij hmod

variable [Inhabited α]

lemma valid_new (hc : 0 < c) : (new c : RingBuffer α).Valid where
  length := length_replicate
  capacity_pos := hc
  sz_le := Nat.zero_le c
  first_lt := hc
  pos_eq := (zero_mod c).symm

@[simp] lemma length_toVector : b.toVector.length = b.sz := by simp [toVector]

lemma getElem_toVector (h : i < b.toVector.length) :
    b.toVector[i] = b.slot ((b.first + i) % b.capacity) := by
  simp [toVector]

lemma toVector_dropFirst : b.dropFirst.toVector = b.toVector.tail := by
  refine ext_getElem (by simp [RingBuffer.dropFirst]) fun i hi hi' => ?_
  rw [getElem_tail, getElem_toVector, getElem_toVector]
  change b.slot (((b.first + 1) % b.capacity + i) % b.capacity) = _
  rw [mod_add_mod, Nat.add_assoc, Nat.add_comm 1 i]

lemma toVector_append (h : b.Valid) (hsz : b.sz < b.capacity) (value : α) :
    (b.append value).toVector = b.toVector ++ [value] := by
  refine ext_getElem (by simp [RingBuffer.append]) fun i hi hi' => ?_
  rw [getElem_toVector]
  change (b.data.set b.pos value).getD ((b.first + i) % b.capacity) default = _
  rw [length_append, length_toVector, length_singleton] at hi'
  rcases Nat.lt_succ_iff_lt_or_eq.mp hi' with hlt | rfl
  · have hne : b.pos ≠ (b.first + i) % b.capacity := by
      rw [h.pos_eq]
      exact (add_mod_ne hlt hsz).symm
    rw [getElem_append_left (by simpa using hlt), getElem_toVector, getD_eq_getElem?_getD,
      getElem?_set_ne hne, ← getD_eq_getElem?_getD]
    rfl
  · rw [getElem_append_right (by simp), getD_eq_getElem?_getD, ← h.pos_eq,
      getElem?_set_self h.pos_lt]
    simp

/-! ## The operations on the list -/

/-- **A push appends to the list and keeps its last elements.** -/
theorem toVector_pushBack (h : b.Valid) (value : α) :
    ∃ b', b.pushBack value = .ok b' ∧ b'.Valid ∧ b'.capacity = b.capacity ∧
      b'.toVector = (b.toVector ++ [value]).rtake b.capacity := by
  refine ⟨_, pushBack_eq h value, ?_⟩
  rw [rtake, length_append, length_toVector, length_singleton]
  split_ifs with hfull
  · have hpos : 0 < b.sz := hfull ▸ h.capacity_pos
    have hlt : b.dropFirst.sz < b.dropFirst.capacity := by
      change b.sz - 1 < b.capacity
      omega
    refine ⟨(h.dropFirst hpos).append hlt value, rfl, ?_⟩
    have hone : b.sz + 1 - b.capacity = 1 := by omega
    rw [toVector_append (h.dropFirst hpos) hlt, toVector_dropFirst, hone, drop_one,
      tail_append_of_ne_nil]
    exact fun hnil => by simp [← length_toVector, hnil] at hpos
  · have hlt : b.sz < b.capacity := Nat.lt_of_le_of_ne h.sz_le hfull
    have hzero : b.sz + 1 - b.capacity = 0 := by omega
    exact ⟨h.append hlt value, rfl, by rw [toVector_append h hlt, hzero, drop_zero]⟩

lemma toVector_eq_nil_iff : b.toVector = [] ↔ b.sz = 0 := by
  rw [← length_eq_zero_iff, length_toVector]

lemma head?_toVector (h : b.Valid) (hsz : b.sz ≠ 0) : b.toVector.head? = some (b.slot b.first) := by
  rw [head?_eq_getElem?, getElem?_eq_getElem (by simpa using Nat.pos_of_ne_zero hsz),
    getElem_toVector, Nat.add_zero, mod_eq_of_lt h.first_lt]

lemma front_of_head? (h : b.Valid) (hhead : b.toVector.head? = some value) :
    b.front = .ok value := by
  have hsz : b.sz ≠ 0 := fun hzero => by
    rw [toVector_eq_nil_iff.mpr hzero] at hhead
    cases hhead
  rw [head?_toVector h hsz] at hhead
  rw [front, if_neg hsz, Option.some.inj hhead]

lemma front_eq (h : b.Valid) : b.front.map .element = Answer.ofOption isEmpty b.toVector.head? := by
  rw [front]
  split_ifs with hsz
  · rw [toVector_eq_nil_iff.mpr hsz]
    rfl
  · rw [head?_toVector h hsz]
    rfl

lemma rat_of_getElem? (hvalue : b.toVector.reverse[i]? = some value) : b.rat i = .ok value := by
  obtain ⟨hi, hget⟩ := List.getElem?_eq_some_iff.mp hvalue
  rw [length_reverse, length_toVector] at hi
  have heq : b.first + b.sz - i - 1 = b.first + (b.sz - 1 - i) := by omega
  rw [rat, if_neg (Nat.not_le_of_lt hi), heq, ← hget, getElem_reverse, getElem_toVector,
    length_toVector]

lemma rat_eq : (b.rat i).map .element = Answer.ofOption outOfBounds b.toVector.reverse[i]? := by
  cases hvalue : b.toVector.reverse[i]? with
  | none =>
    rw [List.getElem?_eq_none_iff, length_reverse, length_toVector] at hvalue
    rw [rat, if_pos hvalue]
    rfl
  | some value =>
    rw [rat_of_getElem? hvalue]
    rfl

/-- The slot behind the only element of a buffer of capacity one is the slot of that element. -/
lemma back_eq (h : b.Valid) (hone : b.sz = 0 ∨ b.capacity = 1) :
    b.back.map .element = Answer.ofOption isEmpty b.toVector.getLast? := by
  rw [back]
  split_ifs with hsz
  · rw [toVector_eq_nil_iff.mpr hsz]
    rfl
  · have hcap : b.capacity = 1 := hone.resolve_left hsz
    have hsz1 : b.sz = 1 := by
      have hle := h.sz_le
      omega
    have hfirst : b.first = 0 := by
      have hlt := h.first_lt
      omega
    have hpos : b.pos = b.first := by rw [h.pos_eq, hcap, mod_one, hfirst]
    have hhead := head?_toVector h hsz
    have hlen : b.toVector.length = 1 := length_toVector.trans hsz1
    obtain ⟨x, hx⟩ := length_eq_one_iff.mp hlen
    rw [hx] at hhead ⊢
    rw [hpos, ← Option.some.inj hhead]
    rfl

/-! ## Runs -/

/-- What is kept of a list that was cut already. -/
lemma rtake_append_singleton (l : List α) (n : ℕ) (value : α) :
    (l.rtake n ++ [value]).rtake n = (l ++ [value]).rtake n := by
  cases n with
  | zero => rw [rtake_zero, rtake_zero]
  | succ n =>
    rw [rtake_concat_succ, rtake_concat_succ, rtake_eq_reverse_take_reverse,
      rtake_eq_reverse_take_reverse, rtake_eq_reverse_take_reverse, reverse_reverse,
      take_take, Nat.min_eq_left (le_succ n)]

/-- The buffer with capacity `c` holds the list. -/
structure Holds (c : ℕ) (b : RingBuffer α) (l : List α) : Prop where
  valid : b.Valid
  capacity : b.capacity = c
  toVector : b.toVector = l

lemma holds_new (hc : 0 < c) : Holds c (new c : RingBuffer α) [] :=
  ⟨valid_new hc, rfl, rfl⟩

/-- **One operation** answers as that of the list and keeps what the buffer holds, unless it asks
for the last element. -/
theorem Holds.call {l : List α} (h : Holds c b l) (op : Op α) (hback : op = .back → l = [] ∨ c = 1) :
    (b.call op).1 = (Deque.call c l op).1 ∧ Holds c (b.call op).2 (Deque.call c l op).2 := by
  obtain ⟨hvalid, hcap, rfl⟩ := h
  cases op with
  | pushBack value =>
    obtain ⟨b', hpush, hvalid', hcap', hlist⟩ := toVector_pushBack hvalid value
    rw [RingBuffer.call, hpush]
    exact ⟨rfl, hvalid', hcap'.trans hcap, by rw [hlist, hcap]; rfl⟩
  | popFront =>
    rw [RingBuffer.call, popFront]
    by_cases hsz : b.sz = 0
    · rw [if_pos hsz]
      rw [toVector_eq_nil_iff.mpr hsz]
      exact ⟨rfl, hvalid, hcap, toVector_eq_nil_iff.mpr hsz⟩
    · rw [if_neg hsz, Deque.call, head?_toVector hvalid hsz]
      exact ⟨rfl, hvalid.dropFirst (Nat.pos_of_ne_zero hsz), hcap, toVector_dropFirst⟩
  | clear => exact ⟨rfl, hvalid.clear, hcap, rfl⟩
  | front => exact ⟨front_eq hvalid, hvalid, hcap, rfl⟩
  | back =>
    exact ⟨back_eq hvalid (by rw [← toVector_eq_nil_iff, hcap]; exact hback rfl), hvalid, hcap, rfl⟩
  | rat i => exact ⟨rat_eq, hvalid, hcap, rfl⟩
  | toVector => exact ⟨rfl, hvalid, hcap, rfl⟩
  | size => exact ⟨by rw [Deque.call, length_toVector]; rfl, hvalid, hcap, rfl⟩
  | empty =>
    have hempty : b.empty = b.toVector.isEmpty := by
      rw [empty, Bool.eq_iff_iff, beq_iff_eq, List.isEmpty_iff, toVector_eq_nil_iff]
    exact ⟨by rw [Deque.call, ← hempty]; rfl, hvalid, hcap, rfl⟩

/-- The last element is asked for when there is none, or when there is room for one only. -/
def BackAsked (c : ℕ) (l : List α) (op : Op α) : Prop := op = .back → l = [] ∨ c = 1

/-- With room for a second element, the slot behind the first one is not the first one. -/
lemma not_answers [Nontrivial α] (hc : 1 < c) :
    ∃ value : α, Run.answers call (new c) [.pushBack value, .back] ≠
      Run.answers (Deque.call c) [] [.pushBack value, .back] := by
  obtain ⟨value, hne⟩ := exists_ne (default : α)
  refine ⟨value, fun heq => hne ?_⟩
  have hvalid := valid_new (α := α) (zero_lt_of_lt hc)
  have hcall : (new c).call (.pushBack value) = (.ok .done, (new c).append value) := by
    have hfull : ¬ (new c : RingBuffer α).sz = (new c : RingBuffer α).capacity :=
      Nat.ne_of_lt (zero_lt_of_lt hc)
    rw [call, pushBack_eq hvalid, if_neg hfull]
  have hslot : ((new c).append value).slot ((new c).append value).pos = (default : α) := by
    have hpos : ((new c).append value).pos = 1 := mod_eq_of_lt hc
    rw [hpos]
    change ((List.replicate c (default : α)).set 0 value).getD 1 default = default
    rw [getD_eq_getElem?_getD, getElem?_set_ne Nat.zero_ne_one, getElem?_replicate, if_pos hc]
    rfl
  have hback : ((new c).append value).call .back =
      (.ok (.element default), (new c).append value) := by
    rw [call, back, hslot]
    rfl
  have hlist : ([value] : List α).rtake c = [value] := by
    rw [rtake, length_singleton, Nat.sub_eq_zero_of_le hc.le, drop_zero]
  simp only [Run.answers, hcall, hback, Deque.call, nil_append, hlist, Answer.ofOption,
    getLast?_singleton, List.cons.injEq, Except.ok.injEq, Answer.element.injEq, and_true,
    true_and] at heq
  exact heq.symm

/-- **The answers of a run are those of the list, as long as the last element is not asked for**;
with it, those of all runs are only when there is room for one element. -/
theorem answers_iff [Nontrivial α] (hc : 1 ≤ c) :
    (∀ ops : List (Op α), Run.Guarded (fun l op => (Deque.call c l op).2) (BackAsked c) [] ops →
      Run.answers call (new c) ops = Run.answers (Deque.call c) [] ops) ∧
    ((∀ ops : List (Op α), Run.answers call (new c) ops = Run.answers (Deque.call c) [] ops) ↔
      c = 1) := by
  have hguarded : ∀ ops : List (Op α),
      Run.Guarded (fun l op => (Deque.call c l op).2) (BackAsked c) [] ops →
        Run.answers call (new c) ops = Run.answers (Deque.call c) [] ops := fun ops hops =>
    Run.answers_eq (R := Holds c) (fun _ _ op h hback => h.call op hback) (holds_new hc) ops hops
  refine ⟨hguarded, fun hall => ?_, ?_⟩
  · by_contra hone
    obtain ⟨value, hne⟩ := not_answers (α := α) (by omega : 1 < c)
    exact hne (hall _)
  · rintro rfl ops
    exact hguarded ops (Run.guarded_of_forall (fun _ _ _ => .inr rfl) [] ops)

theorem answers_iff_three :
    (∀ ops : List (Op ℤ), Run.Guarded (fun l op => (Deque.call 3 l op).2) (BackAsked 3) [] ops →
      Run.answers call (new 3) ops = Run.answers (Deque.call 3) [] ops) ∧
    ((∀ ops : List (Op ℤ), Run.answers call (new 3) ops = Run.answers (Deque.call 3) [] ops) ↔
      3 = 1) :=
  answers_iff (by decide)

/-- One token in a buffer for two. -/
theorem answers_back : Run.answers call (new 2) [.pushBack (5 : ℤ), .back] ≠
      Run.answers (Deque.call 2) [] [.pushBack (5 : ℤ), .back] := by
  decide

end RingBuffer
end Sampler
end Llama
