import Mathlib.Algebra.Order.Group.Unbundled.Int

/-!
# Slices

A slice `a[start:stop:step]` is a call of `slice`, in which the bounds that are left out have their
values.  With a negative step the stop `-1` is taken for one that was left out, and a start before
the array is moved to its first element.  So the elements are those of Python if and only if the
step is positive, or neither happens where it matters (`sliceExpression_eq_iff`).
-/

namespace Llama.Jinja

open List

variable {α : Type}

/-- The element at an index in range. -/
def elementAt (array : List α) (i : ℤ) : Option α :=
  if 0 ≤ i ∧ i < array.length then array[i.toNat]? else none

lemma sign_mul_add (step i : ℤ) : step.sign * (i + step) = step.sign * i + step.natAbs := by
  rw [Int.mul_add, Int.sign_mul_self_eq_natAbs]

/-- The loop of `slice`. -/
def sliceLoop (array : List α) (step : ℤ) (hstep : step ≠ 0) (stopVal i : ℤ) : List α :=
  if step.sign * i < step.sign * stopVal then
    (elementAt array i).toList ++ sliceLoop array step hstep stopVal (i + step)
  else []
termination_by (step.sign * stopVal - step.sign * i).toNat
decreasing_by
  rw [sign_mul_add]
  omega

def startVal (len start step : ℤ) : ℤ :=
  if start < 0 then max (len + start) 0
  else if 0 ≤ step.sign then min start len else min start (len - 1)

def stopVal (len stop step : ℤ) : ℤ :=
  if 0 ≤ step.sign then if stop < 0 then max (len + stop) 0 else min stop len
  else if stop < -1 then max (len + stop) (-1) else min stop (len - 1)

def slice (array : List α) (start stop step : ℤ) : List α :=
  let len : ℤ := array.length
  if h : step = 0 then []
  else sliceLoop array step h (stopVal len stop step) (startVal len start step)

/-- The slice of an array: `member_expression::execute_impl`, and the call that it makes. -/
def sliceExpression (array : List α) (startExpr stopExpr stepExpr : Option ℤ) :
    Except String (List α) :=
  let arrSize : ℤ := array.length
  let step := stepExpr.getD 1
  let start := startExpr.getD (if step < 0 then arrSize - 1 else 0)
  let stop := stopExpr.getD (if step < 0 then -1 else arrSize)
  if step = 0 then .error "slice step cannot be zero" else .ok (slice array start stop step)

/-! ## The slices of Python -/

/-- A bound of a slice: negative ones count from the end, and it is kept between `lo` and `hi`. -/
def adjust (len lo hi n : ℤ) : ℤ := max lo (min hi (if n < 0 then n + len else n))

/-- The indices from `start` to `stop`, which is left out. -/
def pyRange (start stop step : ℤ) : List ℤ :=
  (range ((step.sign * (stop - start) - 1) / step.natAbs + 1).toNat).map
    fun n : ℕ => start + n * step

/-- **The slice of Python.** -/
def pySlice (array : List α) (start stop : Option ℤ) (step : ℤ) : Except String (List α) :=
  let len : ℤ := array.length
  if step = 0 then .error "slice step cannot be zero"
  else .ok <| (if 0 < step then
      pyRange (start.elim 0 (adjust len 0 len)) (stop.elim len (adjust len 0 len)) step
    else pyRange (start.elim (len - 1) (adjust len (-1) (len - 1)))
      (stop.elim (-1) (adjust len (-1) (len - 1))) step).filterMap (elementAt array)

lemma pyRange_nil {start stop step : ℤ} (hstep : step ≠ 0)
    (h : ¬ step.sign * start < step.sign * stop) : pyRange start stop step = [] := by
  have hpos : (0 : ℤ) < step.natAbs := by omega
  have hneg : (step.sign * (stop - start) - 1) / step.natAbs < 0 :=
    Int.ediv_neg_of_neg_of_pos (by rw [Int.mul_sub]; omega) hpos
  rw [pyRange, Int.toNat_of_nonpos (by omega), range_zero, map_nil]

lemma pyRange_cons {start stop step : ℤ} (hstep : step ≠ 0)
    (h : step.sign * start < step.sign * stop) :
    pyRange start stop step = start :: pyRange (start + step) stop step := by
  have hpos : (0 : ℤ) < step.natAbs := by omega
  have hcount : step.sign * (stop - (start + step)) - 1 =
      step.sign * (stop - start) - 1 + step.natAbs * (-1) := by
    rw [Int.mul_sub, sign_mul_add, Int.mul_sub]
    omega
  have hle : 0 ≤ (step.sign * (stop - start) - 1) / step.natAbs :=
    Int.ediv_nonneg (by rw [Int.mul_sub]; omega) hpos.le
  rw [pyRange, pyRange, hcount, Int.add_mul_ediv_left _ _ hpos.ne', Int.neg_add_cancel_right,
    Int.toNat_add hle (by decide)]
  simp only [Int.toNat_one, range_succ_eq_map, map_cons, map_map]
  refine congrArg₂ _ (by simp) (map_congr_left fun n _ => ?_)
  simp only [Function.comp_apply, Nat.succ_eq_add_one, Int.natCast_add, Int.natCast_one]
  rw [Int.add_mul, Int.one_mul, Int.add_comm (n * step), Int.add_assoc]

/-- **The loop** pushes the elements of a range. -/
theorem sliceLoop_eq (array : List α) {step : ℤ} (hstep : step ≠ 0) (stop i : ℤ) :
    sliceLoop array step hstep stop i = (pyRange i stop step).filterMap (elementAt array) := by
  induction i using sliceLoop.induct step hstep stop with
  | case1 i h ih =>
    rw [sliceLoop, if_pos h, ih, pyRange_cons hstep h, filterMap_cons]
    cases elementAt array i <;> rfl
  | case2 i h => rw [sliceLoop, if_neg h, pyRange_nil hstep h, filterMap_nil]

lemma slice_eq (array : List α) (start stop : ℤ) {step : ℤ} (hstep : step ≠ 0) :
    slice array start stop step = (pyRange (startVal array.length start step)
      (stopVal array.length stop step) step).filterMap (elementAt array) :=
  (dif_neg hstep).trans (sliceLoop_eq array hstep _ _)

/-- The elements of a range that goes down from an index of the array. -/
lemma filterMap_pyRange_ne_nil {array : List α} {start stop step : ℤ} (hstep : step < 0)
    (hlo : 0 ≤ start) (hhi : start < array.length) (h : stop < start) :
    (pyRange start stop step).filterMap (elementAt array) ≠ [] := by
  have hsign := Int.sign_eq_neg_one_of_neg hstep
  rw [pyRange_cons hstep.ne (by rw [hsign]; omega), filterMap_cons, elementAt, if_pos ⟨hlo, hhi⟩,
    getElem?_eq_getElem (by omega)]
  exact cons_ne_nil _ _

/-- With a negative step the stop is not `-1`, nor does the range go past a start before the
array. -/
def SlicesRight (array : List α) (start stop : Option ℤ) (step : ℤ) : Prop :=
  0 ≤ step ∨ array = [] ∨
    (stop ≠ some (-1) ∧ ((∃ n ∈ start, n < -array.length) → ∃ n ∈ stop, -array.length ≤ n))

/-- **A slice** has the elements of Python's, if and only if with a negative step the stop is not
`-1`, nor does the range go past a start before the array. -/
theorem sliceExpression_eq_iff (array : List α) (start stop step : Option ℤ) :
    sliceExpression array start stop step = pySlice array start stop (step.getD 1) ↔
      SlicesRight array start stop (step.getD 1) := by
  unfold sliceExpression pySlice
  generalize step.getD 1 = step
  dsimp only
  rcases Int.lt_trichotomy step 0 with hneg | rfl | hpos
  · have hsign := Int.sign_eq_neg_one_of_neg hneg
    rw [if_neg hneg.ne, if_neg hneg.ne, if_neg (Int.not_lt.mpr hneg.le), if_pos hneg, if_pos hneg,
      slice_eq array _ _ hneg.ne, Except.ok.injEq]
    rcases eq_or_ne array [] with rfl | hne
    · have hnil : elementAt ([] : List α) = fun _ => none := funext fun i =>
        if_neg fun h => Int.not_lt.mpr h.1 h.2
      simp only [hnil, filterMap_eq_nil_iff.mpr fun _ _ => rfl]
      exact iff_of_true trivial (.inr (.inl rfl))
    have hlen := length_pos_iff.mpr hne
    have hrange : ∀ {a b : ℤ}, a ≤ b → (pyRange a b step).filterMap (elementAt array) = [] :=
      fun h => by rw [pyRange_nil hneg.ne (by rw [hsign]; omega), filterMap_nil]
    have hiff : SlicesRight array start stop step ↔ stop ≠ some (-1) ∧
        ((∃ n ∈ start, n < -array.length) → ∃ n ∈ stop, -array.length ≤ n) := by
      refine ⟨fun h => ?_, fun h => .inr (.inr h)⟩
      exact (h.resolve_left (Int.not_le.mpr hneg)).resolve_left hne
    rw [hiff]
    generalize hS : startVal _ _ _ = S
    generalize hP : start.elim (array.length - 1 : ℤ) _ = P
    have hstart : 0 ≤ S ∧ S < array.length ∧ P ≤ array.length - 1 ∧
        (P = S ∧ (¬ ∃ n ∈ start, n < -array.length) ∨
          P = -1 ∧ S = 0 ∧ ∃ n ∈ start, n < -array.length) := by
      have h0 : (0 : ℤ) < array.length := by omega
      generalize (array.length : ℤ) = len at hS hP h0 ⊢
      cases start <;> simp [startVal, adjust, hsign] at hS hP ⊢ <;> omega
    generalize hE : stopVal _ _ _ = E
    generalize hQ : stop.elim (-1 : ℤ) _ = Q
    have hstop : -1 ≤ E ∧ (E = -1 ↔ stop = some (-1) ∨ ¬ ∃ n ∈ stop, -array.length ≤ n) ∧
        (stop = some (-1) ∧ Q = array.length - 1 ∨ stop ≠ some (-1) ∧ Q = E) := by
      cases stop <;> simp [stopVal, adjust, hsign] at hE hQ ⊢ <;> omega
    obtain ⟨hS0, hSlt, hPle, hP⟩ := hstart
    obtain ⟨hE1, hdown, hQ⟩ := hstop
    -- the range goes down to the first element
    have hfull := fun h : E = -1 => filterMap_pyRange_ne_nil hneg hS0 hSlt (show E < S by omega)
    rcases hQ with ⟨hminus, rfl⟩ | ⟨hminus, rfl⟩
    · rw [hrange hPle]
      exact iff_of_false (hfull (hdown.mpr (.inl hminus))) fun h => h.1 hminus
    rcases hP with ⟨rfl, hbefore⟩ | ⟨rfl, rfl, hbefore⟩
    · exact iff_of_true rfl ⟨hminus, fun h => absurd h hbefore⟩
    rw [hrange hE1]
    by_cases hlate : ∃ n ∈ stop, -array.length ≤ n
    · have hne1 : Q ≠ -1 := fun h => (hdown.mp h).elim hminus fun h => h hlate
      exact iff_of_true (hrange (Int.add_one_le_of_lt (hE1.lt_of_ne' hne1))) ⟨hminus, fun _ => hlate⟩
    · exact iff_of_false (hfull (hdown.mpr (.inr hlate))) fun h => hlate (h.2 hbefore)
  · exact iff_of_true rfl (.inl le_rfl)
  · have hsign := Int.sign_eq_one_of_pos hpos
    refine iff_of_true ?_ (.inl hpos.le)
    rw [if_neg hpos.ne', if_neg hpos.ne', if_pos hpos, slice_eq array _ _ hpos.ne']
    congr 3
    · cases start <;> simp [startVal, hsign, adjust] <;> omega
    · cases stop <;> simp [stopVal, hsign, adjust] <;> omega

/-- The first element comes back, though `-1` is a stop at the last one. -/
theorem not_slice_minusOne :
    ∃ r, pySlice [0, 1] none (some (-1)) (-1) = .ok r ∧
      sliceExpression [0, 1] none (some (-1)) (some (-1)) ≠ .ok r := by
  refine ⟨[], rfl, fun h => ?_⟩
  have hslice := Except.ok.inj h
  rw [slice_eq _ _ _ (by decide)] at hslice
  exact absurd hslice (by decide)

end Llama.Jinja
