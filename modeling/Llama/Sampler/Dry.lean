import Llama.Lib.Overlap
import Llama.Sampler.RingBuffer
import Mathlib.Data.List.AList
import Mathlib.Order.Bounds.Basic

/-!
# The repetitions that the DRY sampler looks for

The last tokens are read from the end.  For every `k` the sampler finds how long the tokens agree
with those `k` places before, and for every token the longest repetition that it would go on with.
The lengths are limited, and the box of the Z-algorithm works on limited lengths.

Of `llama_sampler_dry_apply` the model has these two steps; the restart sequences before them give
the limit, an argument here, and the penalties behind them are floating point numbers.
-/

namespace Llama
namespace Sampler
namespace Dry

open Overlap

/-! ## The model -/

/-- `dry_max_token_repeat`. -/
abbrev Repeats := AList fun _ : ℤ => ℤ

/-- `dry_repeat_count` and the bounds of the Z-box. -/
structure ZState where
  repeatCount : List ℤ
  lt : ℕ := 0
  rt : ℕ := 0

/-- `while (cond) ++i`, for a condition that fails after at most `fuel` rounds. -/
def countUp (cond : ℕ → Except String Bool) : ℕ → ℕ → Except String ℕ
  | 0, i => .ok i
  | fuel + 1, i => do
    if ← cond i then countUp cond fuel (i + 1) else .ok i

/-- `last_tokens.rat(i) == last_tokens.rat(j)`. -/
def same (lastTokens : RingBuffer ℤ) (i j : ℕ) : Except String Bool := do
  let a ← lastTokens.rat i
  let b ← lastTokens.rat j
  .ok (a == b)

/-- The body of the loop over `k` in the second step. -/
def zStep (lastTokens : RingBuffer ℤ) (lastNRepeat : ℕ) (repLimit : ℤ) (s : ZState) (k : ℕ) :
    Except String ZState :=
  let last := lastNRepeat - 1
  if k > s.rt then do
    -- If k is outside the current Z-box, do naive computation.
    let n ← countUp (fun n =>
      if n + k < lastNRepeat then same lastTokens n (n + k) else .ok false) lastNRepeat 0
    let repeatCount := s.repeatCount.set (last - k) (min (n : ℤ) repLimit)
    .ok (if n > 0 then { repeatCount, lt := k, rt := k + n - 1 } else { s with repeatCount })
  else
    -- If k is inside the current Z-box, consider two cases.
    let p := k - s.lt
    let rightPartLen := s.rt - k + 1
    let count := s.repeatCount.getD (last - p) 0
    if count < rightPartLen then
      .ok { s with repeatCount := s.repeatCount.set (last - k) (min count repLimit) }
    else do
      let i ← countUp (fun i =>
        if i < lastNRepeat then same lastTokens i (i - k) else .ok false) lastNRepeat (s.rt + 1)
      .ok {
        repeatCount := s.repeatCount.set (last - k) (min ((i : ℤ) - k) repLimit)
        lt := k
        rt := i - 1 }

/-- The second step. -/
def repeatCounts (lastTokens : RingBuffer ℤ) (lastNRepeat : ℕ) (repLimit : ℤ) :
    Except String ZState :=
  (List.range' 1 (lastNRepeat - 1)).foldlM (zStep lastTokens lastNRepeat repLimit)
    { repeatCount := List.replicate lastNRepeat 0 }

/-- The body of the loop of the third step. -/
def extendRepeat (lastTokens : RingBuffer ℤ) (lastNRepeat : ℕ) (allowedLength : ℤ)
    (repeatCount : List ℤ) (maxTokenRepeat : Repeats) (i : ℕ) : Except String Repeats :=
  let repeatLen := repeatCount.getD i 0
  if repeatLen ≥ allowedLength then do
    let token ← lastTokens.rat (lastNRepeat - 2 - i)
    .ok (if (maxTokenRepeat.lookup token).all (· < repeatLen) then
      maxTokenRepeat.insert token repeatLen
    else maxTokenRepeat)
  else .ok maxTokenRepeat

/-- The third step. -/
def maxTokenRepeat (lastTokens : RingBuffer ℤ) (lastNRepeat : ℕ) (allowedLength : ℤ)
    (repeatCount : List ℤ) : Except String Repeats :=
  (List.range (lastNRepeat - 1)).foldlM
    (extendRepeat lastTokens lastNRepeat allowedLength repeatCount) ∅

/-- The second and the third step. -/
def steps (lastTokens : RingBuffer ℤ) (lastNRepeat : ℕ) (repLimit allowedLength : ℤ) :
    Except String (List ℤ × Repeats) := do
  let s ← repeatCounts lastTokens lastNRepeat repLimit
  let repeats ← maxTokenRepeat lastTokens lastNRepeat allowedLength s.repeatCount
  .ok (s.repeatCount, repeats)

variable {lastTokens : RingBuffer ℤ} {w : List ℤ} {repLimit allowedLength : ℤ} {k n : ℕ}

/-- The loop ends at the first index that does not meet the condition. -/
lemma countUp_spec {cond : ℕ → Except String Bool} {c : ℕ → Bool} (hcond : ∀ i, cond i = .ok (c i))
    (fuel i : ℕ) :
    ∃ j, countUp cond fuel i = .ok j ∧ i ≤ j ∧ (∀ x, i ≤ x → x < j → c x = true) ∧
      (c j = false ∨ j = i + fuel) := by
  induction fuel generalizing i with
  | zero =>
    exact ⟨i, rfl, Nat.le_refl i, fun x hle hlt => absurd hle (Nat.not_le_of_lt hlt), .inr rfl⟩
  | succ fuel ih =>
    rw [countUp, hcond]
    cases hc : c i with
    | true =>
      obtain ⟨j, hj, hle, hall, hend⟩ := ih (i + 1)
      refine ⟨j, hj, by omega, fun x hx hlt => ?_, hend.imp_right fun h => by omega⟩
      rcases Nat.eq_or_lt_of_le hx with rfl | hx
      · exact hc
      · exact hall x hx hlt
    | false =>
      exact ⟨i, rfl, Nat.le_refl i, fun x hle hlt => absurd hle (Nat.not_le_of_lt hlt), .inl hc⟩

/-- The buffer holds the tokens of the window, read from the end. -/
def Window (lastTokens : RingBuffer ℤ) (w : List ℤ) : Prop :=
  ∀ i token, w[i]? = some token → lastTokens.rat i = .ok token

lemma Window.same (h : Window lastTokens w) {i j : ℕ} (hi : i < w.length) (hj : j < w.length) :
    same lastTokens i j = .ok (decide (w[i]? = w[j]?)) := by
  have hgeti := List.getElem?_eq_getElem hi
  have hgetj := List.getElem?_eq_getElem hj
  rw [Dry.same, h i _ hgeti, h j _ hgetj, hgeti, hgetj]
  change Except.ok (w[i] == w[j]) = _
  rw [beq_eq_decide]
  simp only [Option.some.injEq]

/-- **The naive computation** goes to the end of the overlap. -/
theorem Window.naive (h : Window lastTokens w) (hk : k ≤ w.length) :
    countUp (fun n => if n + k < w.length then Dry.same lastTokens n (n + k) else .ok false)
      w.length 0 = .ok (overlap w k) := by
  have hcond : ∀ n, (if n + k < w.length then Dry.same lastTokens n (n + k) else .ok false) =
      .ok (decide (n + k < w.length ∧ w[n]? = w[n + k]?)) := by
    intro n
    split_ifs with hlt
    · rw [h.same (by omega) hlt]
      simp [hlt]
    · simp [hlt]
  obtain ⟨j, hj, -, hall, hend⟩ := countUp_spec hcond w.length 0
  rw [hj]
  have hle : j ≤ overlap w k := by
    refine (le_overlap_iff hk).mpr ⟨?_, fun i hi => (of_decide_eq_true (hall i (Nat.zero_le i) hi)).2⟩
    cases j with
    | zero => omega
    | succ j =>
      have hlast := (of_decide_eq_true (hall j (Nat.zero_le j) (Nat.lt_succ_self j))).1
      omega
  rw [eq_overlap hk hle fun hlt heq => ?_]
  rcases hend with hend | hend
  · exact of_decide_eq_false hend ⟨hlt, heq⟩
  · omega

/-- **Behind a box** the computation goes on to the end of the overlap. -/
theorem Window.extend (h : Window lastTokens w) (hk : k ≤ w.length) {i : ℕ} (hi : k ≤ i)
    (hle : i - k ≤ overlap w k) :
    countUp (fun i => if i < w.length then Dry.same lastTokens i (i - k) else .ok false)
      w.length i = .ok (overlap w k + k) := by
  have hcond : ∀ i, (if i < w.length then Dry.same lastTokens i (i - k) else .ok false) =
      .ok (decide (i < w.length ∧ w[i]? = w[i - k]?)) := by
    intro i
    split_ifs with hlt
    · rw [h.same hlt (by omega)]
      simp [hlt]
    · simp [hlt]
  obtain ⟨j, hj, hij, hall, hend⟩ := countUp_spec hcond w.length i
  rw [hj]
  have hlength := overlap_add_le hk
  have hle' : j - k ≤ overlap w k := by
    refine (le_overlap_iff hk).mpr ⟨?_, fun x hx => ?_⟩
    · rcases Nat.eq_or_lt_of_le hij with rfl | hlt
      · omega
      · have hlast := (of_decide_eq_true (hall (j - 1) (by omega) (by omega))).1
        omega
    · rcases Nat.lt_or_ge x (i - k) with hx' | hx'
      · exact getElem?_of_lt_overlap hk (hx'.trans_le hle)
      · have heq := (of_decide_eq_true (hall (x + k) (by omega) (by omega))).2
        rw [heq, Nat.add_sub_cancel]
  rw [eq_overlap hk hle' fun hlt heq => ?_, Nat.sub_add_cancel (hi.trans hij)]
  rcases hend with hend | hend
  · refine of_decide_eq_false hend ⟨by omega, ?_⟩
    rw [heq, Nat.sub_add_cancel (hi.trans hij)]
  · omega

/-! ## The lengths -/

/-- A loop over a range of indices. -/
lemma foldlM_range' {σ : Type} {f : σ → ℕ → Except String σ} {P : ℕ → σ → Prop} {a n : ℕ} {s : σ}
    (hstep : ∀ i s, a ≤ i → i < a + n → P i s → ∃ s', f s i = .ok s' ∧ P (i + 1) s')
    (h : P a s) : ∃ s', (List.range' a n).foldlM f s = .ok s' ∧ P (a + n) s' := by
  induction n generalizing a s with
  | zero => exact ⟨s, rfl, h⟩
  | succ n ih =>
    obtain ⟨s1, hs1, h1⟩ := hstep a s (Nat.le_refl a) (by omega) h
    obtain ⟨s', hs', h'⟩ := ih (fun i s hi hlt => hstep i s (by omega) (by omega)) h1
    rw [List.range'_succ, List.foldlM_cons, hs1]
    exact ⟨s', hs', by rwa [show a + (n + 1) = a + 1 + n by omega]⟩

/-- The lengths below `k` are known, and the box agrees with the beginning. -/
structure Inv (w : List ℤ) (repLimit : ℤ) (k : ℕ) (s : ZState) : Prop where
  length : s.repeatCount.length = w.length
  counts : ∀ j, 1 ≤ j → j < k →
    s.repeatCount.getD (w.length - 1 - j) 0 = min (overlap w j : ℤ) repLimit
  box : s.rt = 0 ∨ 1 ≤ s.lt ∧ s.lt < k ∧ s.lt ≤ s.rt ∧ s.rt + 1 - s.lt ≤ overlap w s.lt

lemma Inv.init (w : List ℤ) (repLimit : ℤ) :
    Inv w repLimit 1 { repeatCount := List.replicate w.length 0 } where
  length := List.length_replicate
  counts := fun _ hpos hlt => absurd hpos (Nat.not_le_of_lt hlt)
  box := .inl rfl

/-- The length for `k` is written down. -/
lemma Inv.set {s : ZState} (h : Inv w repLimit k s) (hk : k < w.length) {lt rt : ℕ} {value : ℤ}
    (hvalue : value = min (overlap w k : ℤ) repLimit)
    (hbox : rt = 0 ∨ 1 ≤ lt ∧ lt < k + 1 ∧ lt ≤ rt ∧ rt + 1 - lt ≤ overlap w lt) :
    Inv w repLimit (k + 1) { repeatCount := s.repeatCount.set (w.length - 1 - k) value, lt, rt } where
  length := List.length_set.trans h.length
  counts := fun j hpos hlt => by
    have hlength := h.length
    rw [List.getD_eq_getElem?_getD]
    rcases Nat.lt_succ_iff_lt_or_eq.mp hlt with hlt | rfl
    · rw [List.getElem?_set_ne (by omega), ← List.getD_eq_getElem?_getD, h.counts j hpos hlt]
    · rw [List.getElem?_set_self (by omega), hvalue]
      rfl
  box := hbox

/-- **One round.** -/
theorem Inv.zStep {s : ZState} (h : Inv w repLimit k s) (hw : Window lastTokens w) (hpos : 1 ≤ k)
    (hk : k < w.length) :
    ∃ s', zStep lastTokens w.length repLimit s k = .ok s' ∧ Inv w repLimit (k + 1) s' := by
  have hbox' : s.rt = 0 ∨ 1 ≤ s.lt ∧ s.lt < k + 1 ∧ s.lt ≤ s.rt ∧
      s.rt + 1 - s.lt ≤ overlap w s.lt :=
    h.box.imp_right fun hbox => ⟨hbox.1, Nat.lt_succ_of_lt hbox.2.1, hbox.2.2⟩
  rw [Dry.zStep]
  dsimp only
  split_ifs with hout hcount
  · rw [hw.naive hk.le]
    refine ⟨_, rfl, ?_⟩
    by_cases hn : overlap w k > 0
    · rw [if_pos hn]
      exact h.set hk rfl (.inr ⟨hpos, Nat.lt_succ_self k, by omega, by omega⟩)
    · rw [if_neg hn]
      exact h.set hk rfl hbox'
  · -- the overlap ends inside the box, or both are beyond the limit
    obtain ⟨hlt, hltk, -, hbox⟩ := h.box.resolve_left (by omega)
    rw [h.counts (k - s.lt) (by omega) (by omega)] at hcount ⊢
    have hsize : s.lt + (s.rt + 1 - s.lt) - k = s.rt - k + 1 := by omega
    have hcopy := @min_overlap_copy _ _ w _ _ _ hltk.le
      (show k < s.lt + (s.rt + 1 - s.lt) by omega) hbox hk.le repLimit
      (by rw [hsize]; exact hcount)
    refine ⟨_, rfl, h.set hk ?_ hbox'⟩
    rw [hcopy, min_assoc, min_self]
  · -- the box is all that is known, and it may be too short
    obtain ⟨hlt, hltk, -, hbox⟩ := h.box.resolve_left (by omega)
    rw [h.counts (k - s.lt) (by omega) (by omega)] at hcount
    have hge : s.rt + 1 - k ≤ overlap w (k - s.lt) := by
      omega
    have hle := le_overlap_of_box hltk.le
      (show k < s.lt + (s.rt + 1 - s.lt) by omega) hbox hk.le (by omega) hge
    rw [hw.extend hk.le (by omega) hle]
    refine ⟨_, rfl, h.set hk ?_ (.inr ⟨hpos, Nat.lt_succ_self k, by omega, by omega⟩)⟩
    have heq : ((overlap w k + k : ℕ) : ℤ) - k = overlap w k := by omega
    rw [heq]

/-- **The lengths are the limited overlaps.** -/
theorem repeatCounts_spec (hw : Window lastTokens w) (repLimit : ℤ) :
    ∃ s, repeatCounts lastTokens w.length repLimit = .ok s ∧ Inv w repLimit (1 + (w.length - 1)) s :=
  foldlM_range' (fun _ _ hpos hlt h => h.zStep hw hpos (by omega)) (Inv.init w repLimit)

/-! ## The longest repetitions -/

/-- The lengths in front of a token, among the first `m` indices. -/
def lengthsBefore (w : List ℤ) (allowedLength : ℤ) (repeatCount : List ℤ) (m : ℕ) (token : ℤ) :
    Set ℤ :=
  {v | ∃ i < m, w[w.length - 2 - i]? = some token ∧ v = repeatCount.getD i 0 ∧ allowedLength ≤ v}

/-- The table has the greatest lengths in front of each token. -/
def Greatest (w : List ℤ) (allowedLength : ℤ) (repeatCount : List ℤ) (m : ℕ) (repeats : Repeats) :
    Prop :=
  ∀ token, (∀ v, repeats.lookup token = some v →
      IsGreatest (lengthsBefore w allowedLength repeatCount m token) v) ∧
    (repeats.lookup token = none → lengthsBefore w allowedLength repeatCount m token = ∅)

variable {repeatCount : List ℤ} {repeats : Repeats} {m : ℕ} {token : ℤ}

lemma lengthsBefore_succ_of_not
    (hnot : w[w.length - 2 - m]? = some token → ¬ repeatCount.getD m 0 ≥ allowedLength) :
    lengthsBefore w allowedLength repeatCount (m + 1) token =
      lengthsBefore w allowedLength repeatCount m token := by
  ext v
  constructor
  · rintro ⟨i, hi, htoken, rfl, hle⟩
    rcases Nat.lt_succ_iff_lt_or_eq.mp hi with hi | rfl
    · exact ⟨i, hi, htoken, rfl, hle⟩
    · exact absurd hle (hnot htoken)
  · rintro ⟨i, hi, h⟩
    exact ⟨i, Nat.lt_succ_of_lt hi, h⟩

lemma lengthsBefore_succ (htoken : w[w.length - 2 - m]? = some token)
    (hle : repeatCount.getD m 0 ≥ allowedLength) :
    lengthsBefore w allowedLength repeatCount (m + 1) token =
      insert (repeatCount.getD m 0) (lengthsBefore w allowedLength repeatCount m token) := by
  ext v
  constructor
  · rintro ⟨i, hi, h⟩
    rcases Nat.lt_succ_iff_lt_or_eq.mp hi with hi | rfl
    · exact .inr ⟨i, hi, h⟩
    · exact .inl h.2.1
  · rintro (rfl | ⟨i, hi, h⟩)
    · exact ⟨m, Nat.lt_succ_self m, htoken, rfl, hle⟩
    · exact ⟨i, Nat.lt_succ_of_lt hi, h⟩

/-- **One round.** -/
theorem Greatest.extendRepeat (h : Greatest w allowedLength repeatCount m repeats)
    (hw : Window lastTokens w) (hm : m + 1 < w.length) :
    ∃ repeats', extendRepeat lastTokens w.length allowedLength repeatCount repeats m = .ok repeats' ∧
      Greatest w allowedLength repeatCount (m + 1) repeats' := by
  rw [Dry.extendRepeat]
  split_ifs with hallowed
  · have hget : w[w.length - 2 - m]? = some w[w.length - 2 - m] :=
      List.getElem?_eq_getElem (by omega)
    generalize w[w.length - 2 - m] = token at hget
    rw [hw _ _ hget]
    refine ⟨_, rfl, fun t => ?_⟩
    by_cases ht : t = token
    · subst ht
      obtain ⟨hsome, hnone⟩ := h t
      rw [lengthsBefore_succ hget hallowed]
      cases hlookup : repeats.lookup t with
      | none =>
        rw [Option.all_none, if_pos rfl, AList.lookup_insert, hnone hlookup]
        refine ⟨fun v hv => ?_, fun hv => (by cases hv)⟩
        obtain rfl := Option.some.inj hv
        rw [insert_empty_eq]
        exact isGreatest_singleton
      | some u =>
        have hgreatest := (hsome u hlookup).insert (repeatCount.getD m 0)
        rw [Option.all_some]
        by_cases hlt : u < repeatCount.getD m 0
        · rw [if_pos (decide_eq_true hlt), AList.lookup_insert]
          refine ⟨fun v hv => ?_, fun hv => (by cases hv)⟩
          rw [max_eq_left hlt.le] at hgreatest
          rwa [← Option.some.inj hv]
        · rw [if_neg (by rwa [decide_eq_true_eq]), hlookup]
          refine ⟨fun v hv => ?_, fun hv => (by cases hv)⟩
          rw [max_eq_right (Int.not_lt.mp hlt)] at hgreatest
          rwa [← Option.some.inj hv]
    · rw [lengthsBefore_succ_of_not fun heq => absurd (Option.some.inj (hget.symm.trans heq)).symm ht]
      split_ifs
      · rw [AList.lookup_insert_ne ht]
        exact h t
      · exact h t
  · refine ⟨repeats, rfl, fun t => ?_⟩
    rw [lengthsBefore_succ_of_not fun _ => hallowed]
    exact h t

lemma maxTokenRepeat_spec (hw : Window lastTokens w) (allowedLength : ℤ) (repeatCount : List ℤ) :
    ∃ repeats, maxTokenRepeat lastTokens w.length allowedLength repeatCount = .ok repeats ∧
      Greatest w allowedLength repeatCount (w.length - 1) repeats := by
  have hinit : Greatest w allowedLength repeatCount 0 ∅ := fun t =>
    ⟨fun v hv => (by cases hv), fun _ => Set.eq_empty_of_forall_notMem fun v hv => (by
      obtain ⟨i, hi, -⟩ := hv
      exact absurd hi (Nat.not_lt_zero i))⟩
  have hloop := foldlM_range' (n := w.length - 1)
    (fun i s _ hlt (h : Greatest w allowedLength repeatCount i s) =>
      h.extendRepeat hw (by omega)) hinit
  rwa [Nat.zero_add, ← List.range_eq_range'] at hloop

/-- **The lengths are the overlaps up to the limit, and each token has the longest one in front of
it**, for the last `lastNRepeat` tokens read from the end. -/
theorem steps_spec (lastTokens : RingBuffer ℤ) {lastNRepeat : ℕ}
    (hn : lastNRepeat ≤ lastTokens.size) (repLimit allowedLength : ℤ) :
    ∃ repeatCount repeats,
      steps lastTokens lastNRepeat repLimit allowedLength = .ok (repeatCount, repeats) ∧
      (∀ k, 1 ≤ k → k < lastNRepeat → repeatCount.getD (lastNRepeat - 1 - k) 0 =
        min (overlap (lastTokens.toVector.reverse.take lastNRepeat) k : ℤ) repLimit) ∧
      ∀ token v, repeats.lookup token = some v ↔ IsGreatest {v | ∃ k, 1 ≤ k ∧ k < lastNRepeat ∧
          (lastTokens.toVector.reverse.take lastNRepeat)[k - 1]? = some token ∧
          v = min (overlap (lastTokens.toVector.reverse.take lastNRepeat) k : ℤ) repLimit ∧
          allowedLength ≤ v} v := by
  have hwindow : Window lastTokens (lastTokens.toVector.reverse.take lastNRepeat) := by
    intro i token hget
    rw [List.getElem?_take] at hget
    split_ifs at hget with hi
    exact RingBuffer.rat_of_getElem? hget
  have hlength : (lastTokens.toVector.reverse.take lastNRepeat).length = lastNRepeat := by
    rw [List.length_take, List.length_reverse, RingBuffer.length_toVector]
    exact Nat.min_eq_left hn
  generalize lastTokens.toVector.reverse.take lastNRepeat = w at hwindow hlength
  subst hlength
  obtain ⟨s, hs, hinv⟩ := repeatCounts_spec hwindow repLimit
  obtain ⟨repeats, hrepeats, hgreatest⟩ :=
    maxTokenRepeat_spec hwindow allowedLength s.repeatCount
  have hcounts : ∀ k, 1 ≤ k → k < w.length → s.repeatCount.getD (w.length - 1 - k) 0 =
      min (overlap w k : ℤ) repLimit := fun k hpos hlt => hinv.counts k hpos (by omega)
  have hsteps : steps lastTokens w.length repLimit allowedLength =
      .ok (s.repeatCount, repeats) := by
    rw [steps, hs]
    change (maxTokenRepeat lastTokens w.length allowedLength s.repeatCount >>= fun repeats =>
      .ok (s.repeatCount, repeats)) = _
    rw [hrepeats]
    rfl
  refine ⟨s.repeatCount, repeats, hsteps, hcounts, fun token v => ?_⟩
  have hset : {v | ∃ k, 1 ≤ k ∧ k < w.length ∧ w[k - 1]? = some token ∧
      v = min (overlap w k : ℤ) repLimit ∧ allowedLength ≤ v} =
        lengthsBefore w allowedLength s.repeatCount (w.length - 1) token := by
    ext v
    constructor
    · rintro ⟨k, hpos, hlt, htoken, rfl, hle⟩
      refine ⟨w.length - 1 - k, by omega, ?_, (hcounts k hpos hlt).symm, hle⟩
      rwa [show w.length - 2 - (w.length - 1 - k) = k - 1 by omega]
    · rintro ⟨i, hi, htoken, rfl, hle⟩
      have hcount := hcounts (w.length - 1 - i) (by omega) (by omega)
      rw [show w.length - 1 - (w.length - 1 - i) = i by omega] at hcount
      refine ⟨w.length - 1 - i, by omega, by omega, ?_, hcount, hle⟩
      rwa [show w.length - 1 - i - 1 = w.length - 2 - i by omega]
  rw [hset]
  obtain ⟨hsome, hnone⟩ := hgreatest token
  refine ⟨hsome v, fun hv => ?_⟩
  cases hlookup : repeats.lookup token with
  | none =>
    have hempty := hv.1
    rw [hnone hlookup] at hempty
    exact absurd hempty (Set.notMem_empty v)
  | some u => rw [(hsome u hlookup).unique hv]

/-- `a b c a b`: the last two tokens are also the first two, and `c` follows them there. -/
theorem steps_spec_five : ∃ repeatCount repeats,
      steps { capacity := 5, sz := 5, data := [1, 2, 3, 1, 2] } 5 5 1 = .ok (repeatCount, repeats) ∧
      (∀ k, 1 ≤ k → k < 5 → repeatCount.getD (4 - k) 0 =
        min (overlap ([2, 1, 3, 2, 1] : List ℤ) k : ℤ) 5) ∧
      ∀ token v, repeats.lookup token = some v ↔
        IsGreatest {v | ∃ k, 1 ≤ k ∧ k < 5 ∧ ([2, 1, 3, 2, 1] : List ℤ)[k - 1]? = some token ∧
          v = min (overlap ([2, 1, 3, 2, 1] : List ℤ) k : ℤ) 5 ∧ 1 ≤ v} v :=
  @steps_spec { capacity := 5, sz := 5, data := [1, 2, 3, 1, 2] } 5 (by decide) 5 1

end Dry
end Sampler
end Llama
