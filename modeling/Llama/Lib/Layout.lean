import Llama.Lib.Bytes
import Mathlib.Data.Vector.Defs

/-!
# Layouts of fixed width

A `Layout` writes the values of a type in a fixed number of bytes and reads them back.  Layouts are
put together as the fields of a packed record are: pairs, vectors, and the values of a type that
are other values in disguise.
-/

/-- The values of `α` in `width` bytes. -/
structure Layout (α : Type) where
  width : ℕ
  encode : α → List UInt8
  decode : List UInt8 → α
  length_encode : ∀ a, (encode a).length = width
  decode_encode : ∀ a, decode (encode a) = a

namespace Layout

open List hiding Vector

variable {α β : Type}

/-- A byte. -/
def u8 : Layout UInt8 where
  width := 1
  encode b := [b]
  decode bs := bs.headD 0
  length_encode _ := rfl
  decode_encode _ := rfl

/-- A little-endian `uint32_t`. -/
def u32 : Layout UInt32 where
  width := 4
  encode n := Bytes.ofNat 4 n.toNat
  decode bs := UInt32.ofNat (Bytes.toNat bs)
  length_encode _ := Bytes.length_ofNat _ _
  decode_encode n := by rw [Bytes.toNat_ofNat n.toNat_lt, UInt32.ofNat_toNat]

/-- A little-endian `uint64_t`. -/
def u64 : Layout UInt64 where
  width := 8
  encode n := Bytes.ofNat 8 n.toNat
  decode bs := UInt64.ofNat (Bytes.toNat bs)
  length_encode _ := Bytes.length_ofNat _ _
  decode_encode n := by rw [Bytes.toNat_ofNat n.toNat_lt, UInt64.ofNat_toNat]

/-! ## Composed layouts -/

/-- Write other values instead. -/
def iso (l : Layout α) (f : α → β) (g : β → α) (h : ∀ b, f (g b) = b) : Layout β where
  width := l.width
  encode b := l.encode (g b)
  decode bs := f (l.decode bs)
  length_encode b := l.length_encode (g b)
  decode_encode b := by rw [l.decode_encode, h]

/-- Two fields, one after the other. -/
def pair (l : Layout α) (m : Layout β) : Layout (α × β) where
  width := l.width + m.width
  encode p := l.encode p.1 ++ m.encode p.2
  decode bs := (l.decode (bs.take l.width), m.decode (bs.drop l.width))
  length_encode p := by rw [List.length_append, l.length_encode, m.length_encode]
  decode_encode p := by
    rw [List.take_left' (l.length_encode _), List.drop_left' (l.length_encode _),
      l.decode_encode, m.decode_encode]

/-- The value that starts at the `i`-th place of a run of values. -/
def nth (l : Layout α) (bs : List UInt8) (i : ℕ) : α :=
  l.decode ((bs.drop (i * l.width)).take l.width)

/-- Values one after the other. -/
def many (l : Layout α) (as : List α) : List UInt8 := as.flatMap l.encode

@[simp] lemma many_nil (l : Layout α) : l.many [] = [] := rfl

@[simp] lemma many_cons (l : Layout α) (a : α) (as : List α) :
    l.many (a :: as) = l.encode a ++ l.many as := flatMap_cons

@[simp] lemma length_many (l : Layout α) (as : List α) :
    (l.many as).length = as.length * l.width := by
  induction as with
  | nil => simp
  | cons a as ih =>
    rw [many_cons, length_append, l.length_encode, ih, length_cons, Nat.succ_mul, Nat.add_comm]

/-- **The values of a run are read back**, whatever follows it. -/
theorem nth_many (l : Layout α) (as : List α) (rest : List UInt8) {i : ℕ} (h : i < as.length) :
    l.nth (l.many as ++ rest) i = as[i] := by
  induction as generalizing i with
  | nil => simp at h
  | cons a as ih =>
    rw [many_cons, append_assoc]
    cases i with
    | zero => rw [nth, Nat.zero_mul, drop_zero, take_left' (l.length_encode a),
        l.decode_encode, getElem_cons_zero]
    | succ i =>
      have hi : i < as.length := by simpa using h
      rw [getElem_cons_succ, ← ih hi, nth, nth, Nat.succ_mul, Nat.add_comm, ← drop_drop,
        drop_left' (l.length_encode a)]

/-- An array of `n` fields. -/
def vector (l : Layout α) (n : ℕ) : Layout (Vector α n) where
  width := n * l.width
  encode v := l.many v.toList
  decode bs := Vector.ofFn fun i : Fin n => l.nth bs i
  length_encode v := by simp
  decode_encode v := by
    ext i hi
    have hlen : i < v.toList.length := by simpa using hi
    rw [Vector.getElem_ofFn, ← List.append_nil (l.many v.toList), nth_many l _ _ hlen]
    simp

/-- A two's complement `int32_t`. -/
def i32 : Layout Int32 := u32.iso UInt32.toInt32 Int32.toUInt32 Int32.toInt32_toUInt32

end Layout
