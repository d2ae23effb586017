import Llama.Schema.Minimum

/-!
# The grammar of integers with bounds

The text of `build_min_max_int` against the integers it is for, with two bounds (`twoSided_iff`)
and with one (`oneSided_iff`).
-/

namespace Llama.Schema

open Gbnf Numeral List

variable {vocab : Option (List Char → Option ℕ)} {ρ : List Char → TextSet} {b : Bool}
  {T U : List Char} {P Q : List Char → Prop} {minValue maxValue : ℤ}

/-! ## Numerals with a sign -/

/-- The texts of digits with a property behind a minus sign, and of digits with another one. -/
def signed (P Q : List Char → Prop) : TextSet :=
  {w | ∃ s, Digits s ∧ (w = codes ('-' :: s) ∧ P s ∨ w = codes s ∧ Q s)}

lemma signed_eq : signed P Q = {codes ['-']} * numerals P + numerals Q := by
  ext w
  constructor
  · rintro ⟨s, hs, ⟨rfl, h⟩ | ⟨rfl, h⟩⟩
    · exact .inl ⟨codes ['-'], rfl, codes s, ⟨s, rfl, hs, h⟩, rfl⟩
    · exact .inr ⟨s, rfl, hs, h⟩
  · rintro (⟨_, rfl, _, ⟨s, rfl, hs, h⟩, rfl⟩ | ⟨s, rfl, hs, h⟩)
    · exact ⟨s, hs, .inl ⟨rfl, h⟩⟩
    · exact ⟨s, hs, .inr ⟨rfl, h⟩⟩

lemma numerals_eq_signed : numerals Q = signed (fun _ => False) Q := by
  ext w
  constructor
  · rintro ⟨s, hw, hs, h⟩
    exact ⟨s, hs, .inr ⟨hw, h⟩⟩
  · rintro ⟨s, hs, ⟨-, h⟩ | ⟨hw, h⟩⟩
    · cases h
    · exact ⟨s, hw, hs, h⟩

lemma minus_notMem {s : List Char} (hs : Digits s) (t : List Char) : s ≠ '-' :: t := by
  rintro rfl
  exact absurd (digits_cons.mp hs).1 (by decide)

lemma mem_signed_minus {s : List Char} : codes ('-' :: s) ∈ signed P Q ↔ Digits s ∧ P s := by
  constructor
  · rintro ⟨t, ht, ⟨heq, h⟩ | ⟨heq, -⟩⟩
    · obtain rfl := (List.cons.inj (codes_inj.mp heq)).2
      exact ⟨ht, h⟩
    · exact absurd (codes_inj.mp heq).symm (minus_notMem ht s)
  · exact fun h => ⟨s, h.1, .inl ⟨rfl, h.2⟩⟩

lemma mem_signed {s : List Char} (hs : Digits s) : codes s ∈ signed P Q ↔ Q s := by
  constructor
  · rintro ⟨t, ht, ⟨heq, -⟩ | ⟨heq, h⟩⟩
    · exact absurd (codes_inj.mp heq) (minus_notMem hs t)
    · rwa [codes_inj.mp heq]
  · exact fun h => ⟨s, hs, .inr ⟨rfl, h⟩⟩

lemma itemText_minus : ItemText vocab ρ b "\"-\"".toList {codes ['-']} :=
  itemText_literal (s := ['-']) fun c hc =>
    (mem_singleton.mp hc) ▸ ⟨⟨by decide, by decide, by decide⟩, by decide⟩

lemma seqText_minus (h : SeqText vocab ρ b T (numerals P)) (hT : Starts T) :
    SeqText vocab ρ b ("\"-\" ".toList ++ T) ({codes ['-']} * numerals P) :=
  itemText_minus.cons h hT

lemma seqText_minusGroup (h : AltsText vocab ρ true T (numerals P)) (hT : Starts T) :
    SeqText vocab ρ b ("\"-\" (".toList ++ T ++ [')']) ({codes ['-']} * numerals P) :=
  have hgroup : ItemText vocab ρ b ('(' :: T ++ [')']) _ := h.group hT
  seqText_minus hgroup.seq rfl

lemma altsText_minusGroup (h : AltsText vocab ρ true T (numerals P)) (hT : Starts T) :
    AltsText vocab ρ b ("\"-\" (".toList ++ T ++ [')']) (signed P fun _ => False) := by
  have hempty : numerals (fun _ => False) = 0 := by
    ext w
    exact ⟨fun h => (by obtain ⟨s, -, -, hs⟩ := h; cases hs), fun h => (by cases h)⟩
  rw [signed_eq, hempty, add_zero]
  exact (seqText_minusGroup h hT).alts

lemma altsText_signed (h : SeqText vocab ρ b T ({codes ['-']} * numerals P))
    (h' : AltsText vocab ρ b U (numerals Q)) (hU : Starts U) :
    AltsText vocab ρ b (T ++ " | ".toList ++ U) (signed P Q) := by
  have htext : T ++ " | ".toList ++ U = T ++ ' ' :: '|' :: ' ' :: U := by
    rw [append_assoc]
    rfl
  rw [signed_eq, htext]
  exact h.or h' hU

lemma toText_neg {n : ℕ} (hn : 0 < n) : toText (-n) = '-' :: Nat.toDigits 10 n := by
  rw [toText, if_pos (by omega), Int.natAbs_neg, Int.natAbs_natCast]

lemma negInt64_natCast_neg {n : ℕ} (hn : n < 2 ^ 63) : negInt64 (-n) = n := by
  rw [negInt64, neg_neg]
  exact Int.bmod_eq_of_le (by omega) (by omega)

/-! ## Two bounds -/

/-- A text of digits, with a minus sign or without one, and the integer that it stands for. -/
def Decimal (w : List ℕ) (z : ℤ) : Prop :=
  ∃ s, Digits s ∧ s ≠ [] ∧ (w = codes s ∧ z = value s ∨ w = codes ('-' :: s) ∧ z = -value s)

/-- The texts of the integers between two bounds. -/
structure Exact (L : TextSet) (minValue maxValue : ℤ) : Prop where
  sound : ∀ w ∈ L, ∃ z, Decimal w z ∧ minValue ≤ z ∧ z ≤ maxValue
  complete : ∀ z, minValue ≤ z → z ≤ maxValue → codes (toText z) ∈ L

/-- The numerals behind the minus sign.  The greatest number of 64 bits is taken for no bound. -/
def magnitudes (lo hi : ℕ) : List Char → Prop :=
  if (hi : ℤ) = int64Max then fromMin 23 lo 16 true
  else fun s => Canonical s ∧ lo ≤ value s ∧ value s ≤ hi

lemma length_toDigits_int64 {n : ℕ} (hn : n < 2 ^ 63) : (Nat.toDigits 10 n).length ≤ 19 :=
  (length_toDigits_le_iff (by decide)).mpr (hn.trans (by decide))

lemma buildMinMaxInt_natCast {lo hi k : ℕ} (hhi : (hi : ℤ) ≠ int64Max) (decimalsLeft : ℕ)
    (topLevel : Bool) :
    buildMinMaxInt (k + 1) lo hi decimalsLeft topLevel = .ok (rangeText lo hi) := by
  have hnot : ¬ ((lo : ℤ) < 0 ∧ (hi : ℤ) < 0) := by omega
  have hnot' : ¬ (lo : ℤ) < 0 := by omega
  rw [buildMinMaxInt]
  simp only [if_pos (And.intro (int64_natCast lo) hhi)]
  rfl

lemma altsText_range {lo hi : ℕ} (hle : lo ≤ hi) (hhi : hi < 2 ^ 63) :
    Starts (rangeText lo hi) ∧ AltsText vocab ρ b (rangeText lo hi)
      (numerals fun s => Canonical s ∧ lo ≤ value s ∧ value s ≤ hi) :=
  altsText_rangeText hle ((length_toDigits_int64 hhi).trans (by decide))

lemma altsText_magnitudes {lo hi : ℕ} (hle : lo ≤ hi) (hhi : hi < 2 ^ 63) :
    ∃ T, buildMinMaxInt 23 lo hi 16 true = .ok T ∧ Starts T ∧
      ∀ b, AltsText vocab ρ b T (numerals (magnitudes lo hi)) := by
  by_cases hmax : (hi : ℤ) = int64Max
  · rw [magnitudes, hmax]
    exact altsText_fromMin (by decide) (by decide) (by omega) (by decide)
  · rw [magnitudes, if_neg hmax]
    exact ⟨_, buildMinMaxInt_natCast hmax 16 true,
      (@altsText_range vocab ρ true _ _ hle hhi).1, fun b => (altsText_range hle hhi).2⟩

/-- The texts that the grammar for two bounds denotes. -/
def between (minValue maxValue : ℤ) : TextSet :=
  signed (fun s => minValue < 0 ∧ magnitudes (-maxValue).toNat (-minValue).toNat s)
    fun s => 0 ≤ maxValue ∧ Canonical s ∧ minValue.toNat ≤ value s ∧ value s ≤ maxValue.toNat

/-- **The text for two bounds**, by itself and inside a group. -/
theorem altsText_twoSided (hmin : int64Min < minValue) (hmax : maxValue < int64Max)
    (hle : minValue ≤ maxValue) : ∃ T, boundsText minValue maxValue = .ok T ∧ Starts T ∧
      ∀ b, AltsText vocab ρ b T (between minValue maxValue) := by
  have hboth : minValue ≠ int64Min ∧ maxValue ≠ int64Max := by omega
  have hunfold : boundsText minValue maxValue = buildMinMaxInt (23 + 1) minValue maxValue 16 true :=
    rfl
  rw [int64Min] at hmin
  rw [int64Max] at hmax
  rw [hunfold, buildMinMaxInt]
  simp only [if_pos hboth]
  by_cases hneg : minValue < 0
  · obtain ⟨m, rfl⟩ : ∃ m : ℕ, minValue = -m := ⟨minValue.natAbs, by omega⟩
    have hnegm : negInt64 (-m) = m := negInt64_natCast_neg (by omega)
    by_cases hneg' : maxValue < 0
    · -- both bounds are below zero
      obtain ⟨n, rfl⟩ : ∃ n : ℕ, maxValue = -n := ⟨maxValue.natAbs, by omega⟩
      have hnegn : negInt64 (-n) = n := negInt64_natCast_neg (by omega)
      obtain ⟨T, hT, hstarts, htext⟩ := @altsText_magnitudes vocab ρ n m (by omega) (by omega)
      rw [if_pos ⟨hneg, hneg'⟩, hnegm, hnegn, hT]
      refine ⟨_, rfl, rfl, fun b => ?_⟩
      have halts := @altsText_minusGroup vocab ρ b _ _ (htext true) hstarts
      have hset : signed (magnitudes n m) (fun _ => False) = between (-m) (-n) := by
        have hn : ¬ 0 ≤ -(n : ℤ) := by omega
        simp only [between, neg_neg, Int.toNat_natCast, hneg, true_and, hn, false_and]
      exact hset ▸ halts
    · -- only the lower bound is
      obtain ⟨n, rfl⟩ : ∃ n : ℕ, maxValue = n := ⟨maxValue.natAbs, by omega⟩
      obtain ⟨T, hT, hstarts, htext⟩ := @altsText_magnitudes vocab ρ 0 m (by omega) (by omega)
      rw [Nat.cast_zero] at hT
      rw [if_neg fun h => hneg' h.2, if_pos hneg, hnegm, hT]
      refine ⟨_, rfl, rfl, fun b => ?_⟩
      obtain ⟨hstarts', htext'⟩ := @altsText_range vocab ρ b 0 n (by omega) (by omega)
      rw [Nat.cast_zero] at hstarts' htext'
      have halts := altsText_signed (seqText_minusGroup (htext true) hstarts) htext' hstarts'
      have hset : signed (magnitudes 0 m) (fun s => Canonical s ∧ 0 ≤ value s ∧ value s ≤ n) =
          between (-m) n := by
        have hzero : (-(n : ℤ)).toNat = 0 := by omega
        have hzero' : (-(m : ℤ)).toNat = 0 := by omega
        have hn : 0 ≤ (n : ℤ) := by omega
        simp only [between, neg_neg, Int.toNat_natCast, hneg, true_and, hzero, hzero', hn]
      rw [← hset]
      simpa using halts
  · -- no bound is
    obtain ⟨m, rfl⟩ : ∃ m : ℕ, minValue = m := ⟨minValue.natAbs, by omega⟩
    obtain ⟨n, rfl⟩ : ∃ n : ℕ, maxValue = n := ⟨maxValue.natAbs, by omega⟩
    refine ⟨_, rfl, (@altsText_range vocab ρ true m n (by omega) (by omega)).1, fun b => ?_⟩
    have halts := (@altsText_range vocab ρ b m n (by omega) (by omega)).2
    have hset : numerals (fun s => Canonical s ∧ m ≤ value s ∧ value s ≤ n) = between m n := by
      have hn : 0 ≤ (n : ℤ) := by omega
      simp only [between, numerals_eq_signed, Int.toNat_natCast, hneg, false_and, hn, true_and]
    exact hset ▸ halts

lemma denotes_twoSided (hmin : int64Min < minValue) (hmax : maxValue < int64Max)
    (hle : minValue ≤ maxValue) : ∃ T, boundsText minValue maxValue = .ok T ∧
      Denotes vocab ρ T (between minValue maxValue) := by
  obtain ⟨T, hT, -, htext⟩ := @altsText_twoSided vocab ρ _ _ hmin hmax hle
  exact ⟨T, hT, (htext false).denotes⟩

/-! ### The least number -/

/-- The greatest number of 64 bits, digit by digit. -/
lemma toDigits_int64Max (c : Char) (hc : c.isDigit = true) :
    Nat.toDigits 10 (9223372036854775800 + (c.toNat - 48)) =
      "922337203685477580".toList ++ [c] := by
  have hcanon : Canonical ("922337203685477580".toList ++ [c]) :=
    ⟨digits_append.mpr ⟨by decide, digits_cons.mpr ⟨hc, fun _ h => absurd h not_mem_nil⟩⟩,
      by simp, fun h => absurd (Option.some.inj h : '9' = '0') (by decide)⟩
  have hvalue : value ("922337203685477580".toList ++ [c]) =
      9223372036854775800 + (c.toNat - 48) := by
    rw [value_append, value_cons, value_nil]
    have hfront : value "922337203685477580".toList = 922337203685477580 := rfl
    rw [length_nil, length_singleton]
    omega
  rw [← hvalue, hcanon.toDigits_value]

lemma exact_of_signed (hle : minValue ≤ maxValue) (hne : ((-minValue).toNat : ℤ) ≠ int64Max) :
    Exact (between minValue maxValue) minValue maxValue := by
  rw [between, magnitudes, if_neg hne]
  constructor
  · rintro w ⟨s, hs, ⟨rfl, hneg, hcanon, h1, h2⟩ | ⟨rfl, hpos, hcanon, h1, h2⟩⟩
    · exact ⟨-value s, ⟨s, hs, hcanon.2.1, .inr ⟨rfl, rfl⟩⟩, by omega, by omega⟩
    · exact ⟨value s, ⟨s, hs, hcanon.2.1, .inl ⟨rfl, rfl⟩⟩, by omega, by omega⟩
  · intro z h1 h2
    by_cases hz : z < 0
    · obtain ⟨n, rfl⟩ : ∃ n : ℕ, z = -n := ⟨z.natAbs, by omega⟩
      rw [toText_neg (by omega), mem_signed_minus, value_toDigits]
      exact ⟨digits_toDigits n, by omega, canonical_toDigits n, by omega, by omega⟩
    · obtain ⟨n, rfl⟩ : ∃ n : ℕ, z = n := ⟨z.natAbs, by omega⟩
      rw [toText_natCast, mem_signed (digits_toDigits n), value_toDigits]
      exact ⟨by omega, canonical_toDigits n, by omega, by omega⟩

/-- `-INT64_MAX` as the lower bound. -/
lemma not_exact (hmax : maxValue < int64Max) (hle : -int64Max ≤ maxValue) :
    ¬ ∃ T L, boundsText (-int64Max) maxValue = .ok T ∧ Denotes vocab ρ T L ∧
      Exact L (-int64Max) maxValue := by
  rintro ⟨T, L, hT, hdenotes, hexact⟩
  obtain ⟨T', hT', hdenotes'⟩ := @denotes_twoSided vocab ρ _ _ (by decide) hmax hle
  obtain rfl := Except.ok.inj (hT.symm.trans hT')
  obtain rfl := hdenotes.unique hdenotes'
  have height := toDigits_int64Max '8' rfl
  have hmem := hexact.complete (-int64Max) (Int.le_refl _) hle
  have htext : toText (-int64Max) = '-' :: ("922337203685477580".toList ++ ['7']) := by
    exact toText_neg (n := 9223372036854775807) (by decide)
  rw [htext, between, mem_signed_minus] at hmem
  have hlo : (-maxValue).toNat ≤ 9223372036854775807 := by
    rw [int64Max] at hle
    omega
  -- the greatest numbers with the same digits but the last one are not told apart
  have hmem8 := (fromMin_last ((length_toDigits_le_iff (by decide)).mpr
    (hlo.trans_lt (by decide))) (fun heq => by
      have hvalue := congrArg value heq
      rw [value_toDigits] at hvalue
      rw [hvalue] at hlo
      exact absurd hlo (by decide))).mp hmem.2.2
  have hdigits8 : Digits ("922337203685477580".toList ++ ['8']) := by decide
  obtain ⟨z, ⟨s, hs, -, ⟨heq, -⟩ | ⟨heq, hz⟩⟩, hz1, -⟩ :=
    hexact.sound _ (mem_signed_minus.mpr ⟨hdigits8, hmem.2.1, hmem8⟩)
  · exact absurd (codes_inj.mp heq).symm (minus_notMem hs _)
  · have hs8 := (List.cons.inj (codes_inj.mp heq)).2
    rw [← hs8] at hz
    rw [hz] at hz1
    exact absurd hz1 (by decide)

/-- **With two bounds the text denotes the integers between them**, unless the lower one is
`-INT64_MAX`: its magnitude is then taken for no bound. -/
theorem twoSided_iff (vocab : Option (List Char → Option ℕ)) (ρ : List Char → TextSet)
    (hmin : int64Min < minValue) (hmax : maxValue < int64Max) (hle : minValue ≤ maxValue) :
    (∃ T L, boundsText minValue maxValue = .ok T ∧ Denotes vocab ρ T L ∧
      Exact L minValue maxValue) ↔ minValue ≠ -int64Max := by
  constructor
  · rintro h rfl
    exact not_exact hmax hle h
  · intro hne
    obtain ⟨T, hT, hdenotes⟩ := @denotes_twoSided vocab ρ _ _ hmin hmax hle
    refine ⟨T, _, hT, hdenotes, exact_of_signed hle fun heq => hne ?_⟩
    omega

/-- Bounds of either sign. -/
theorem twoSided_iff_thirty :
    (∃ T L, boundsText (-5) 30 = .ok T ∧ Denotes none (fun _ => 0) T L ∧ Exact L (-5) 30) ↔
      (-5 : ℤ) ≠ -int64Max :=
  twoSided_iff none (fun _ => 0) (by decide) (by decide) (by decide)

/-- From `-INT64_MAX` to five. -/
theorem twoSided_int64Max :
    ¬ ∃ T L, boundsText (-int64Max) 5 = .ok T ∧ Denotes none (fun _ => 0) T L ∧
      Exact L (-int64Max) 5 :=
  not_exact (by decide) (by decide)

/-! ## One bound -/

/-- The texts of integers with a property, without superfluous zeros, and all of those with at most
15 digits. -/
structure Satisfies (L : TextSet) (P : ℤ → Prop) : Prop where
  sound : ∀ w ∈ L, ∃ s, Canonical s ∧
    (w = codes s ∧ P (value s) ∨ w = codes ('-' :: s) ∧ P (-value s))
  complete : ∀ z, P z → (Nat.toDigits 10 z.natAbs).length ≤ 15 → codes (toText z) ∈ L

/-- Digits of a bound that the text follows: no zero inside, and no one when there is room for a
longer number. -/
def Followed (s : List Char) : Prop :=
  '0' ∉ interior s ∧ (s.length ≤ 14 → '1' ∉ interior s)

instance (s : List Char) : Decidable (Followed s) :=
  inferInstanceAs (Decidable (_ ∧ _))

/-- The lower bounds that the text keeps to. -/
def MinimumKept (minValue : ℤ) : Prop :=
  if 0 ≤ minValue then Followed (Nat.toDigits 10 minValue.toNat) else -int64Max < minValue

/-- The upper bounds that the text keeps to. -/
def MaximumKept (maxValue : ℤ) : Prop :=
  if 0 ≤ maxValue then maxValue < int64Max
  else
    let s := Nat.toDigits 10 (-maxValue).toNat
    s.head? = some '1' ∧ 2 ≤ s.length ∧ Followed s

/-- What a property of numerals is for a lower bound. -/
structure Follows (F : List Char → Prop) (n : ℕ) : Prop where
  sound : ∀ s, Digits s → F s → Canonical s ∧ n ≤ value s
  complete : ∀ m, n ≤ m → (Nat.toDigits 10 m).length ≤ 15 → F (Nat.toDigits 10 m)

lemma satisfies_numerals {F : List Char → Prop} {n : ℕ} :
    Satisfies (numerals F) ((n : ℤ) ≤ ·) ↔ Follows F n := by
  constructor
  · intro h
    refine ⟨fun s hs hF => ?_, fun m hm hlen => ?_⟩
    · obtain ⟨t, ht, ⟨heq, hle⟩ | ⟨heq, -⟩⟩ := h.sound _ ⟨s, rfl, hs, hF⟩
      · obtain rfl := codes_inj.mp heq
        exact ⟨ht, by omega⟩
      · exact absurd (codes_inj.mp heq) (minus_notMem hs t)
    · have hmem := h.complete m (by omega) (by rwa [Int.natAbs_natCast])
      rw [mem_numerals] at hmem
      exact hmem.2
  · intro h
    constructor
    · rintro w ⟨s, rfl, hs, hF⟩
      obtain ⟨hcanon, hle⟩ := h.sound s hs hF
      exact ⟨s, hcanon, .inl ⟨rfl, by omega⟩⟩
    · intro z hz hlen
      obtain ⟨m, rfl⟩ : ∃ m : ℕ, z = m := ⟨z.natAbs, by omega⟩
      rw [mem_numerals]
      exact ⟨digits_toDigits m, h.complete m (by omega) hlen⟩

lemma satisfies_signed {F : List Char → Prop} {n : ℕ} (hn : 0 < n) :
    Satisfies (signed F fun _ => False) (· ≤ -(n : ℤ)) ↔ Follows F n := by
  constructor
  · intro h
    refine ⟨fun s hs hF => ?_, fun m hm hlen => ?_⟩
    · obtain ⟨t, ht, ⟨heq, -⟩ | ⟨heq, hle⟩⟩ := h.sound _ (mem_signed_minus.mpr ⟨hs, hF⟩)
      · exact absurd (codes_inj.mp heq).symm (minus_notMem ht.1 s)
      · obtain rfl := (List.cons.inj (codes_inj.mp heq)).2
        exact ⟨ht, by omega⟩
    · have hmem := h.complete (-m) (by omega) (by rwa [Int.natAbs_neg])
      rw [toText_neg (by omega), mem_signed_minus] at hmem
      exact hmem.2
  · intro h
    constructor
    · rintro w ⟨s, hs, ⟨rfl, hF⟩ | ⟨-, hF⟩⟩
      · obtain ⟨hcanon, hle⟩ := h.sound s hs hF
        exact ⟨s, hcanon, .inr ⟨rfl, by omega⟩⟩
      · cases hF
    · intro z hz hlen
      obtain ⟨m, rfl⟩ : ∃ m : ℕ, z = -m := ⟨z.natAbs, by omega⟩
      rw [Int.natAbs_neg] at hlen
      rw [toText_neg (by omega), mem_signed_minus]
      exact ⟨digits_toDigits m, h.complete m (by omega) hlen⟩

/-! ### The digits of the bound -/

variable {k n : ℕ} {topLevel : Bool}

/-- **A text that keeps to its bound follows all of its digits.** -/
theorem Follows.followed (hk : 0 < k) (hn : n < 10 ^ k)
    (h : Follows (fromMin k n 16 topLevel) n) : Followed (Nat.toDigits 10 n) := by
  have hzero : '0' ∉ interior (Nat.toDigits 10 n) := by
    intro hmem
    obtain ⟨s, hs, -, -, hshort, hF⟩ := @exists_fromMin_short topLevel k n 16
      hk hn (by decide) (by decide)
    obtain ⟨hcanon, hle⟩ := h.sound s hs hF
    have hmono := length_toDigits_mono hle
    rw [hcanon.toDigits_value] at hmono
    have hlt := hshort hmem
    omega
  refine ⟨hzero, fun hlen hmem => ?_⟩
  obtain ⟨s, hs, hhead, hlonger, hF⟩ := @exists_not_fromMin topLevel k _ 16 hzero hmem
  have hcanonn := canonical_toDigits n
  have hcanon : Canonical s := by
    refine ⟨hs, length_pos_iff.mp (by omega), fun h0 => ?_⟩
    rw [hhead] at h0
    rw [hcanonn.2.2 h0] at hmem
    exact absurd hmem not_mem_nil
  refine hF ?_
  have hcomplete := h.complete (value s) ((atLeast_iff hcanon).mp (.inl (by omega)))
  rw [hcanon.toDigits_value] at hcomplete
  exact hcomplete (by omega)

lemma canonical_of_le {d : Char} {u : List Char} (hs : Digits (d :: u)) (hd : 49 ≤ d.toNat) :
    Canonical (d :: u) := by
  refine ⟨hs, cons_ne_nil _ _, fun h0 => ?_⟩
  rw [Option.some.inj h0] at hd
  exact absurd hd (by decide)

/-- The numerals have no zero in front, at the top level or when the bound starts with a one. -/
lemma canonical_of_fromMin (hn : topLevel = true ∨
      (Nat.toDigits 10 n).head? = some '1' ∧ 2 ≤ (Nat.toDigits 10 n).length)
    {s : List Char} (hs : Digits s) (h : fromMin k n 16 topLevel s) : Canonical s := by
  cases k with
  | zero => cases h
  | succ k =>
    have hleads : ∀ {low high : Char} {P : List Char → Prop}, 49 ≤ low.toNat →
        Leads low high P s → Canonical s := by
      rintro low high P hlow ⟨d, u, rfl, hle, -⟩
      exact canonical_of_le hs (hlow.trans hle)
    have hstart : topLevel = true → 49 ≤ (if topLevel = true then '1' else '0').toNat := by
      rintro rfl
      exact Nat.le_refl 49
    by_cases hzero : n = 0
    · subst hzero
      have htop : topLevel = true := hn.resolve_right fun h => absurd h.2 (by decide)
      subst htop
      rcases h with rfl | h
      · exact canonical_toDigits 0
      · exact hleads (by decide : 49 ≤ '1'.toNat) h
    by_cases hnine : n ≤ 9
    · obtain ⟨hdigits, hc⟩ := toDigits_small hnine
      have htop : topLevel = true := hn.resolve_right fun h => by
        rw [hdigits] at h
        exact absurd h.2 (by decide : ¬ 2 ≤ 1)
      rcases (fromMin_small hzero hnine s).mp h with ⟨-, h⟩ | h
      · exact hleads (hstart htop) h
      · exact hleads (by omega) h
    · obtain ⟨c, t, hdigits, -, hc, -, hc0⟩ := exists_digits hnine
      have hcn := isDigit_iff.mp hc
      have hc48 : c.toNat ≠ 48 := fun heq => hc0 (Char.toNat_inj.mp heq)
      rcases (fromMin_large hnine hdigits s).mp h with
        ⟨hlt, h⟩ | ⟨u, rfl, -⟩ | ⟨-, h⟩
      · rcases hn with htop | ⟨hhead, -⟩
        · exact hleads (hstart htop) h
        · rw [hdigits] at hhead
          rw [Option.some.inj hhead] at hlt
          exact absurd hlt (by decide)
      · exact canonical_of_le hs (by omega)
      · exact hleads (by rw [toNat_behind (by omega)]; omega) h

/-- **A text that follows all of the digits of its bound keeps to it.** -/
theorem follows_fromMin (hk : 0 < k) (hv : n < 10 ^ k) (hn : topLevel = true ∨
      (Nat.toDigits 10 n).head? = some '1' ∧ 2 ≤ (Nat.toDigits 10 n).length)
    (h : Followed (Nat.toDigits 10 n)) : Follows (fromMin k n 16 topLevel) n := by
  refine ⟨fun s hs hF => ?_, fun m hm hlen => ?_⟩
  · have hcanon := canonical_of_fromMin hn hs hF
    exact ⟨hcanon, (atLeast_iff hcanon).mp (atLeast_of_fromMin h.1 hs hF)⟩
  · by_cases hm0 : m = 0
    · obtain rfl : n = 0 := by omega
      have htop : topLevel = true := hn.resolve_right fun h => absurd h.2 (by decide)
      subst htop hm0
      cases k with
      | zero => exact absurd hk (Nat.lt_irrefl 0)
      | succ k => exact .inl rfl
    have hcanon := canonical_toDigits m
    have hhead : (Nat.toDigits 10 m).head? ≠ some '0' := fun h0 => by
      have hzero := congrArg value (hcanon.2.2 h0)
      rw [value_toDigits] at hzero
      exact hm0 hzero
    refine fromMin_of_atLeast hk hv h.1 (digits_toDigits m) (by decide) (by omega)
      ⟨fun _ => hhead, fun hlt => ⟨h.2 (by omega), fun _ => .inr hhead⟩⟩ ?_
    rw [atLeast_iff hcanon, value_toDigits]
    exact hm

lemma follows_top_iff (hk : 0 < k) (hv : n < 10 ^ k) :
    Follows (fromMin k n 16 true) n ↔ Followed (Nat.toDigits 10 n) :=
  ⟨Follows.followed hk hv, follows_fromMin hk hv (.inl rfl)⟩

/-- Below the top level the numerals may start with a zero. -/
lemma follows_nested_iff (hk : 0 < k) (hv : n < 10 ^ k) (hn : 0 < n) :
    Follows (fromMin k n 16 false) n ↔ (Nat.toDigits 10 n).head? = some '1' ∧
      2 ≤ (Nat.toDigits 10 n).length ∧ Followed (Nat.toDigits 10 n) := by
  constructor
  · intro h
    have hfollowed := h.followed hk hv
    -- a numeral that starts with a zero
    have hnot : ∀ m, 0 < m → ¬ fromMin k n 16 false ('0' :: List.replicate m '0') := by
      intro m hm hF
      have hcanon := (h.sound _ (digits_cons.mpr ⟨rfl, digits_replicate rfl m⟩) hF).1
      have hnil := (List.cons.inj (hcanon.2.2 rfl)).2
      rw [replicate_eq_nil_iff] at hnil
      omega
    cases k with
    | zero => exact absurd hk (Nat.lt_irrefl 0)
    | succ k =>
      by_cases hnine : n ≤ 9
      · obtain ⟨hdigits, hc⟩ := toDigits_small hnine
        refine absurd ?_ (hnot 1 Nat.one_pos)
        rw [fromMin_small (by omega) hnine, leads_cons, char_lt_iff, toNat_before (by omega)]
        exact .inl ⟨by change 48 < _; omega, Nat.le_refl _, by change 48 ≤ _; omega,
          counts_replicate 1 _ '0'⟩
      · obtain ⟨c, t, hdigits, ht, hc, -, hc0⟩ := exists_digits hnine
        have hcn := isDigit_iff.mp hc
        have htpos := length_pos_iff.mpr ht
        rw [hdigits] at hfollowed ⊢
        refine ⟨?_, by rw [length_cons]; omega, hfollowed⟩
        by_contra hhead
        have hc1 : c.toNat ≠ 49 := fun heq => hhead (congrArg some (Char.toNat_inj.mp heq))
        have hc48 : c.toNat ≠ 48 := fun heq => hc0 (Char.toNat_inj.mp heq)
        refine hnot (t.length + 1) (Nat.succ_pos _) ?_
        rw [fromMin_large hnine hdigits, leads_cons, char_lt_iff,
          toNat_before (by omega)]
        exact .inl ⟨by change 49 < _; omega, Nat.le_refl _, by change 48 ≤ _; omega,
          counts_replicate (t.length + 1) _ '0'⟩
  · rintro ⟨hhead, hlen, hfollowed⟩
    exact follows_fromMin hk hv (.inr ⟨hhead, hlen⟩) hfollowed

/-! ### The texts -/

lemma buildMinMaxInt_unbounded (decimalsLeft : ℕ) (topLevel : Bool) :
    buildMinMaxInt (k + 1) int64Min int64Max decimalsLeft topLevel = .error .unbounded := by
  have hboth : ¬ (int64Min ≠ int64Min ∧ int64Max ≠ int64Max) := fun h => h.1 rfl
  have hmin : ¬ int64Min ≠ int64Min := fun h => h rfl
  have hmax : ¬ int64Max ≠ int64Max := fun h => h rfl
  rw [buildMinMaxInt]
  simp only [if_neg hboth, if_neg hmin, if_neg hmax]

/-- A lower bound below zero. -/
lemma boundsText_minimum (hneg : minValue < 0) (hmin : minValue ≠ int64Min) :
    boundsText minValue int64Max =
      (buildMinMaxInt 23 int64Min (negInt64 minValue) 16 false).bind fun text =>
        .ok ("\"-\" (".toList ++ text ++ ") | [0] | [1-9] ".toList ++ moreDigits 0 15) := by
  have hboth : ¬ (minValue ≠ int64Min ∧ int64Max ≠ int64Max) := fun h => h.2 rfl
  have hunfold : boundsText minValue int64Max =
      buildMinMaxInt (23 + 1) minValue int64Max 16 true := rfl
  rw [hunfold, buildMinMaxInt]
  simp only [if_neg hboth, if_pos hmin, if_pos hneg]
  rfl

/-- An upper bound that is not negative. -/
lemma buildMinMaxInt_maximum {n : ℕ} (hn : (n : ℤ) ≠ int64Max) (topLevel : Bool) :
    buildMinMaxInt (k + 2) int64Min n 16 topLevel =
      .ok ((if topLevel then "\"-\" [1-9] ".toList ++ moreDigits 0 15 ++ " | ".toList else []) ++
        rangeText 0 n) := by
  have hboth : ¬ (int64Min ≠ int64Min ∧ (n : ℤ) ≠ int64Max) := fun h => h.1 rfl
  have hmin : ¬ int64Min ≠ int64Min := fun h => h rfl
  have hpos : 0 ≤ (n : ℤ) := by omega
  have hrange := @buildMinMaxInt_natCast 0 _ k hn 16 true
  rw [Nat.cast_zero] at hrange
  rw [buildMinMaxInt]
  simp only [if_pos hn, hrange]
  rfl

/-- An upper bound below zero. -/
lemma boundsText_maximum (hneg : maxValue < 0) : boundsText int64Min maxValue =
      (buildMinMaxInt 23 (negInt64 maxValue) int64Max 16 false).bind fun text =>
        .ok ("\"-\" (".toList ++ text ++ [')']) := by
  have hboth : ¬ (int64Min ≠ int64Min ∧ maxValue ≠ int64Max) := fun h => h.1 rfl
  have hmin : ¬ int64Min ≠ int64Min := fun h => h rfl
  have hmax : maxValue ≠ int64Max := by
    rintro rfl
    exact absurd hneg (by decide)
  have hunfold : boundsText int64Min maxValue =
      buildMinMaxInt (23 + 1) int64Min maxValue 16 true := rfl
  rw [hunfold, buildMinMaxInt]
  simp only [if_pos hmax, if_neg (Int.not_le.mpr hneg)]
  rfl

/-- The numerals without a bound, of at most 16 digits. -/
lemma altsText_unbounded : AltsText vocab ρ b ("[0] | [1-9] ".toList ++ moreDigits 0 15)
    (numerals (fromMin 1 0 16 true)) := by
  obtain ⟨T, hT, -, htext⟩ := @altsText_fromMin vocab ρ true 1 0 16
    (by decide) (by decide) (by decide) (by decide)
  obtain rfl : "[0] | [1-9] ".toList ++ moreDigits 0 15 = T := Except.ok.inj hT
  exact htext b

lemma follows_unbounded : Follows (fromMin 1 0 16 true) 0 :=
  (follows_top_iff (by decide) (by decide)).mpr ⟨by decide, fun _ => by decide⟩

lemma exists_denotes_iff {text : Except BuildError (List Char)} {L : TextSet}
    {R : TextSet → Prop} (hT : text = .ok T) (hd : Denotes vocab ρ T L) :
    (∃ T L, text = .ok T ∧ Denotes vocab ρ T L ∧ R L) ↔ R L := by
  constructor
  · rintro ⟨T', L', hT', hd', hR⟩
    obtain rfl := Except.ok.inj (hT.symm.trans hT')
    rwa [hd.unique hd']
  · exact fun hR => ⟨T, L, hT, hd, hR⟩

lemma not_exists_denotes {text : Except BuildError (List Char)} {e : BuildError}
    {R : TextSet → Prop} (hT : text = .error e) :
    ¬ ∃ T L, text = .ok T ∧ Denotes vocab ρ T L ∧ R L := by
  rintro ⟨T, L, hT', -⟩
  cases hT.symm.trans hT'

/-- The texts of the numbers from one below zero on. -/
lemma satisfies_minimum {m : ℕ} (hm : 0 < m) :
    Satisfies (signed (fun s => Canonical s ∧ 0 ≤ value s ∧ value s ≤ m) (fromMin 1 0 16 true))
      (-(m : ℤ) ≤ ·) := by
  constructor
  · rintro w ⟨s, hs, ⟨rfl, hcanon, -, hle⟩ | ⟨rfl, hF⟩⟩
    · exact ⟨s, hcanon, .inr ⟨rfl, by omega⟩⟩
    · exact ⟨s, (follows_unbounded.sound s hs hF).1, .inl ⟨rfl, by omega⟩⟩
  · intro z hz hlen
    by_cases hneg : z < 0
    · obtain ⟨n, rfl⟩ : ∃ n : ℕ, z = -n := ⟨z.natAbs, by omega⟩
      rw [toText_neg (by omega), mem_signed_minus, value_toDigits]
      exact ⟨digits_toDigits n, canonical_toDigits n, Nat.zero_le _, by omega⟩
    · obtain ⟨n, rfl⟩ : ∃ n : ℕ, z = n := ⟨z.natAbs, by omega⟩
      rw [toText_natCast, mem_signed (digits_toDigits n)]
      exact follows_unbounded.complete n (Nat.zero_le n) hlen

/-- The texts of the numbers up to one that is not below zero. -/
lemma satisfies_maximum (n : ℕ) : Satisfies (signed (Leads '1' '9' (Counts 0 15))
      fun s => Canonical s ∧ 0 ≤ value s ∧ value s ≤ n) (· ≤ (n : ℤ)) := by
  have hF : ∀ s, fromMin 1 0 16 true s ↔ s = ['0'] ∨ Leads '1' '9' (Counts 0 15) s :=
    fun s => Iff.rfl
  constructor
  · rintro w ⟨s, hs, ⟨rfl, hleads⟩ | ⟨rfl, hcanon, -, hle⟩⟩
    · exact ⟨s, (follows_unbounded.sound s hs ((hF s).mpr (.inr hleads))).1, .inr ⟨rfl, by omega⟩⟩
    · exact ⟨s, hcanon, .inl ⟨rfl, by omega⟩⟩
  · intro z hz hlen
    by_cases hneg : z < 0
    · obtain ⟨m, rfl⟩ : ∃ m : ℕ, z = -m := ⟨z.natAbs, by omega⟩
      rw [Int.natAbs_neg] at hlen
      rw [toText_neg (by omega), mem_signed_minus]
      refine ⟨digits_toDigits m, ?_⟩
      rcases (hF _).mp (follows_unbounded.complete m (Nat.zero_le m) hlen) with h0 | hleads
      · have hvalue := congrArg value h0
        rw [value_toDigits] at hvalue
        have hm : m = 0 := hvalue
        omega
      · exact hleads
    · obtain ⟨m, rfl⟩ : ∃ m : ℕ, z = m := ⟨z.natAbs, by omega⟩
      rw [toText_natCast, mem_signed (digits_toDigits m), value_toDigits]
      exact ⟨canonical_toDigits m, Nat.zero_le _, by omega⟩

/-- **With a lower bound alone.** -/
theorem minimum_iff (hmin : int64Min ≤ minValue) (hmax : minValue ≤ int64Max) :
    (∃ T L, boundsText minValue int64Max = .ok T ∧ Denotes vocab ρ T L ∧
      Satisfies L (minValue ≤ ·)) ↔ MinimumKept minValue := by
  rw [int64Max] at hmax
  by_cases hpos : 0 ≤ minValue
  · obtain ⟨n, rfl⟩ : ∃ n : ℕ, minValue = n := ⟨minValue.natAbs, by omega⟩
    obtain ⟨T, hT, -, htext⟩ := @altsText_fromMin vocab ρ true 24 n 16
      (by decide) (by decide) (by omega) (by decide)
    rw [MinimumKept, if_pos hpos, Int.toNat_natCast, ← follows_top_iff (k := 24) (by decide)
      (by omega), ← satisfies_numerals]
    exact exists_denotes_iff (R := fun L => Satisfies L ((n : ℤ) ≤ ·)) hT (htext false).denotes
  · rw [MinimumKept, if_neg hpos]
    by_cases hmissing : minValue = int64Min
    · rw [hmissing]
      exact iff_of_false (not_exists_denotes (R := fun L => Satisfies L (int64Min ≤ ·))
        (buildMinMaxInt_unbounded (k := 23) 16 true)) (by decide)
    · have hneg : minValue < 0 := by omega
      rw [boundsText_minimum hneg hmissing]
      obtain ⟨m, rfl⟩ : ∃ m : ℕ, minValue = -m := ⟨minValue.natAbs, by omega⟩
      rw [int64Min] at hmin hmissing
      rw [negInt64_natCast_neg (by omega)]
      by_cases hm : (m : ℤ) = int64Max
      · rw [hm]
        exact iff_of_false (not_exists_denotes (R := fun L => Satisfies L (-int64Max ≤ ·)) rfl)
          (by decide)
      · rw [buildMinMaxInt_maximum (k := 21) hm false]
        obtain ⟨hstarts, htext⟩ := @altsText_range vocab ρ true 0 m (by omega) (by omega)
        rw [Nat.cast_zero] at hstarts htext
        have halts := (altsText_signed (b := false) (seqText_minusGroup htext hstarts)
          altsText_unbounded rfl).denotes
        have hT : "\"-\" (".toList ++ rangeText 0 m ++ [')'] ++ " | ".toList ++
            ("[0] | [1-9] ".toList ++ moreDigits 0 15) = "\"-\" (".toList ++ ([] ++ rangeText 0 m) ++
              ") | [0] | [1-9] ".toList ++ moreDigits 0 15 := by simp
        rw [hT] at halts
        refine iff_of_true ⟨_, _, rfl, halts, satisfies_minimum (by omega)⟩ ?_
        rw [int64Max] at hm ⊢
        omega

/-- **With an upper bound alone.** -/
theorem maximum_iff (hmin : int64Min ≤ maxValue) (hmax : maxValue ≤ int64Max) :
    (∃ T L, boundsText int64Min maxValue = .ok T ∧ Denotes vocab ρ T L ∧
      Satisfies L (· ≤ maxValue)) ↔ MaximumKept maxValue := by
  by_cases hpos : 0 ≤ maxValue
  · rw [MaximumKept, if_pos hpos]
    by_cases hmissing : maxValue = int64Max
    · rw [hmissing]
      exact iff_of_false (not_exists_denotes (R := fun L => Satisfies L (· ≤ int64Max))
        (buildMinMaxInt_unbounded (k := 23) 16 true)) (Int.lt_irrefl _)
    · obtain ⟨n, rfl⟩ : ∃ n : ℕ, maxValue = n := ⟨maxValue.natAbs, by omega⟩
      have hn : n < 2 ^ 63 := by
        rw [int64Max] at hmax
        omega
      obtain ⟨hstarts, htext⟩ := @altsText_range vocab ρ false 0 n (by omega) hn
      have halts := (altsText_signed (seqText_minus (@seqText_range _ _ _ '1' '9' rfl
        rfl 0 15 (Nat.zero_le _) (by decide)) rfl) htext hstarts).denotes
      exact iff_of_true ⟨_, _, buildMinMaxInt_maximum (k := 22) hmissing true, halts,
        satisfies_maximum n⟩ (by omega)
  · have hneg : maxValue < 0 := by omega
    obtain ⟨m, rfl⟩ : ∃ m : ℕ, maxValue = -m := ⟨maxValue.natAbs, by omega⟩
    rw [MaximumKept, if_neg hpos, neg_neg, boundsText_maximum hneg]
    by_cases hmissing : -(m : ℤ) = int64Min
    · have hm : m = 9223372036854775808 := by
        rw [int64Min] at hmissing
        omega
      rw [hm]
      refine iff_of_false (not_exists_denotes (R := fun L => Satisfies L (· ≤ int64Min)) rfl) ?_
      rintro ⟨hhead, -⟩
      exact absurd (Option.some.inj hhead : '9' = '1') (by decide)
    · rw [int64Min] at hmin hmissing
      rw [negInt64_natCast_neg (by omega)]
      obtain ⟨T, hT, hstarts, htext⟩ := @altsText_fromMin vocab ρ false 23 m 16
        (by decide) (by decide) (by omega) (by decide)
      have halts := (altsText_minusGroup (b := false) (htext true) hstarts).denotes
      have hiff := follows_nested_iff (n := m) (k := 23) (by decide) (by omega) (by omega)
      rw [← satisfies_signed (by omega)] at hiff
      rw [hT]
      exact (exists_denotes_iff (R := fun L => Satisfies L (· ≤ -(m : ℤ))) rfl halts).trans hiff

/-- **With one bound the text denotes integers that satisfy it, and all of the short ones**, exactly
when the text follows the digits of the bound: a lower bound must have no zero inside, and no one
when longer numbers are short enough, an upper one below zero must start with a one as well. -/
theorem oneSided_iff (vocab : Option (List Char → Option ℕ)) (ρ : List Char → TextSet) {bound : ℤ}
    (hmin : int64Min ≤ bound) (hmax : bound ≤ int64Max) :
    ((∃ T L, boundsText bound int64Max = .ok T ∧ Denotes vocab ρ T L ∧
      Satisfies L (bound ≤ ·)) ↔ MinimumKept bound) ∧
    ((∃ T L, boundsText int64Min bound = .ok T ∧ Denotes vocab ρ T L ∧
      Satisfies L (· ≤ bound)) ↔ MaximumKept bound) :=
  ⟨minimum_iff hmin hmax, maximum_iff hmin hmax⟩

/-- The bound 23. -/
theorem oneSided_iff_small :
    ((∃ T L, boundsText 23 int64Max = .ok T ∧ Denotes none (fun _ => 0) T L ∧
      Satisfies L (23 ≤ ·)) ↔ MinimumKept 23) ∧
    ((∃ T L, boundsText int64Min 23 = .ok T ∧ Denotes none (fun _ => 0) T L ∧
      Satisfies L (· ≤ 23)) ↔ MaximumKept 23) :=
  oneSided_iff none (fun _ => 0) (by decide) (by decide)

/-- From 105 on: 15 is let in. -/
theorem oneSided_zeroInside :
    ¬ ∃ T L, boundsText 105 int64Max = .ok T ∧ Denotes none (fun _ => 0) T L ∧
      Satisfies L (105 ≤ ·) := by
  rw [minimum_iff (by decide) (by decide), MinimumKept]
  decide

end Llama.Schema
