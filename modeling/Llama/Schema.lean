import Llama.Basic
import Mathlib.Order.Lattice.Nat

/-!
# Grammars of integers with bounds

`build_min_max_int` writes the text of a grammar for the integers between two bounds, of which one
may be missing.  Numbers that have the same length are split at the first digit in which the bounds
differ.  With one bound the numbers are followed digit by digit, and longer ones are counted.

A bound is missing when it is the least or the greatest `int64_t`.
-/

namespace Llama.Schema

def int64Min : ℤ := -2 ^ 63

def intMax : ℕ := 2 ^ 31 - 1

/-- The negation of an `int64_t`, which wraps. -/
def negInt64 (z : ℤ) : ℤ := Int.bmod (-z) (2 ^ 64)

/-- `std::to_string` of an integer. -/
def toText (z : ℤ) : List Char :=
  if z < 0 then '-' :: Nat.toDigits 10 z.natAbs else Nat.toDigits 10 z.natAbs

/-- The character before another one. -/
def before (c : Char) : Char := Char.ofNat (c.toNat - 1)

/-- The character behind another one. -/
def behind (c : Char) : Char := Char.ofNat (c.toNat + 1)

def digitRange (low high : Char) : List Char :=
  '[' :: (if low = high then [low] else [low, '-', high]) ++ [']']

def moreDigits (minDigits maxDigits : ℕ) : List Char :=
  "[0-9]".toList ++ if minDigits = maxDigits ∧ minDigits = 1 then []
    else
      '\x7b' :: Nat.toDigits 10 minDigits ++ (if maxDigits ≠ minDigits then
          ',' :: (if maxDigits ≠ intMax then Nat.toDigits 10 maxDigits else [])
        else []) ++ ['\x7d']

/-- The digits that two numerals share at their start. -/
def commonLength : List Char → List Char → ℕ
  | [], _ => 0
  | _, [] => 0
  | c :: cs, d :: ds => if c = d then commonLength cs ds + 1 else 0

/-- `uniform_range` from the first digit in which the bounds differ; `range` is `uniform_range` of
shorter numerals. -/
def differingRange (range : List Char → List Char → List Char) (low high : Char)
    (lowSub highSub : List Char) : List Char :=
  let subLen := lowSub.length
  if 0 < subLen then
    let subZeros := List.replicate subLen '0'
    let subNines := List.replicate subLen '9'
    let between := low.toNat < high.toNat - 1
    let toReached := lowSub ≠ subZeros ∧ between ∧ highSub = subNines
    '(' ::
      (if lowSub = subZeros then digitRange low (before high) ++ ' ' :: moreDigits subLen subLen
      else
        ['[', low, ']', ' ', '('] ++ range lowSub subNines ++ [')'] ++ if between then
            " | ".toList ++ (if highSub = subNines then digitRange (behind low) high
              else digitRange (behind low) (before high)) ++
              ' ' :: moreDigits subLen subLen
          else []) ++
      (if toReached then []
      else " | ".toList ++ digitRange high high ++ ' ' :: range subZeros highSub) ++ [')']
  else ['[', low, '-', high, ']']

/-- `uniform_range`, of numerals that are shorter than the first argument. -/
def uniformRange : ℕ → List Char → List Char → List Char
  | 0, _, _ => []
  | k + 1, low, high =>
    let i := commonLength low high
    (if 0 < i then '"' :: low.take i ++ ['"'] else []) ++ if i < low.length ∧ i < high.length then
        (if 0 < i then [' '] else []) ++
          differingRange (uniformRange k) (low.getD i '0') (high.getD i '0') (low.drop (i + 1))
            (high.drop (i + 1))
      else []

/-- The loop over the lengths of the numbers, of which `n` are left before the last one. -/
def rangesByLength : ℕ → ℕ → List Char → List Char → List Char
  | 0, _, minS, maxS => uniformRange (minS.length + 1) minS maxS
  | n + 1, digits, minS, maxS =>
    uniformRange (minS.length + 1) minS (List.replicate digits '9') ++ " | ".toList ++
      rangesByLength n (digits + 1) ('1' :: List.replicate digits '0') maxS

/-- Both bounds, of which none is negative. -/
def rangeText (minValue maxValue : ℤ) : List Char :=
  let minS := toText minValue
  let maxS := toText maxValue
  rangesByLength (maxS.length - minS.length) minS.length minS maxS

/-- Why there is no text: both bounds are missing, or the calls are too deep. -/
inductive BuildError
  | unbounded
  | depth
  deriving DecidableEq, Repr

/-- `build_min_max_int`.  The first argument bounds the depth of the calls. -/
def buildMinMaxInt : ℕ → (minValue maxValue : ℤ) → (decimalsLeft : ℕ) → (topLevel : Bool) →
    Except BuildError (List Char)
  | 0, _, _, _, _ => .error .depth
  | k + 1, minValue, maxValue, decimalsLeft, topLevel =>
    let hasMin := minValue ≠ int64Min
    let hasMax := maxValue ≠ int64Max
    let lessDecimals := max (decimalsLeft - 1) 1
    if hasMin ∧ hasMax then
      if minValue < 0 ∧ maxValue < 0 then do
        let text ← buildMinMaxInt k (negInt64 maxValue) (negInt64 minValue) decimalsLeft true
        return "\"-\" (".toList ++ text ++ [')']
      else if minValue < 0 then do
        let text ← buildMinMaxInt k 0 (negInt64 minValue) decimalsLeft true
        return "\"-\" (".toList ++ text ++ ") | ".toList ++ rangeText 0 maxValue
      else return rangeText minValue maxValue
    else if hasMin then
      if minValue < 0 then do
        let text ← buildMinMaxInt k int64Min (negInt64 minValue) decimalsLeft false
        return "\"-\" (".toList ++ text ++ ") | [0] | [1-9] ".toList ++
          moreDigits 0 (decimalsLeft - 1)
      else if minValue = 0 then
        if topLevel then return "[0] | [1-9] ".toList ++ moreDigits 0 lessDecimals
        else return moreDigits 1 decimalsLeft
      else if minValue ≤ 9 then
        let c := Char.ofNat ('0'.toNat + minValue.toNat)
        let rangeStart := if topLevel then '1' else '0'
        return (if rangeStart < c then
            digitRange rangeStart (before c) ++ ' ' :: moreDigits 1 lessDecimals ++ " | ".toList
          else []) ++ digitRange c '9' ++ ' ' :: moreDigits 0 lessDecimals
      else do
        let minS := toText minValue
        let len := minS.length
        let c := minS.headD '0'
        let text ← buildMinMaxInt k (Nat.ofDigitChars 10 minS.tail 0) int64Max lessDecimals false
        return (if '1' < c then
            digitRange (if topLevel then '1' else '0') (before c) ++
              ' ' :: moreDigits len lessDecimals ++ " | ".toList
          else []) ++
          digitRange c c ++ [' ', '('] ++ text ++ [')'] ++
          (if c < '9' then
            " | ".toList ++ digitRange (behind c) '9' ++ ' ' :: moreDigits (len - 1) lessDecimals
          else [])
    else if hasMax then
      if 0 ≤ maxValue then do
        let text ← buildMinMaxInt k 0 maxValue decimalsLeft true
        return (if topLevel then
            "\"-\" [1-9] ".toList ++ moreDigits 0 lessDecimals ++ " | ".toList
          else []) ++ text
      else do
        let text ← buildMinMaxInt k (negInt64 maxValue) int64Max decimalsLeft false
        return "\"-\" (".toList ++ text ++ [')']
    else .error .unbounded

/-- The depth of the calls is at most that of the digits of an `int64_t`. -/
def depth : ℕ := 24

/-- `build_min_max_int` as `visit` calls it for an integer with bounds. -/
def boundsText (minValue maxValue : ℤ) : Except BuildError (List Char) :=
  buildMinMaxInt depth minValue maxValue 16 true

end Llama.Schema
