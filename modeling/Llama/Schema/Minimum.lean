import Llama.Schema.Ranges

/-!
# The grammar of the numbers from a bound on

With a lower bound alone the numbers are followed digit by digit: a number is greater from the first
digit that is greater on, or when it has more digits.  The text denotes what is said of each digit,
which is not always what is meant: a zero inside the bound is lost, and behind a one no smaller
digit is tried.
-/

namespace Llama.Schema

open Gbnf GrammarParser Numeral List Nat Char

variable {vocab : Option (List Char → Option ℕ)} {ρ : List Char → TextSet} {b top : Bool}
  {T U : List Char} {P Q : List Char → Prop} {k v decimalsLeft : ℕ}

/-- The numerals that `build_min_max_int` writes for a lower bound. -/
def fromMin : ℕ → (minValue decimalsLeft : ℕ) → (topLevel : Bool) → List Char → Prop
  | 0, _, _, _, _ => False
  | k + 1, minValue, decimalsLeft, topLevel, s =>
    let lessDecimals := max (decimalsLeft - 1) 1
    let rangeStart := if topLevel then '1' else '0'
    if minValue = 0 then
      if topLevel then s = ['0'] ∨ Leads '1' '9' (Counts 0 lessDecimals) s
      else Counts 1 decimalsLeft s
    else if minValue ≤ 9 then
      let c := Char.ofNat ('0'.toNat + minValue)
      rangeStart < c ∧ Leads rangeStart (before c) (Counts 1 lessDecimals) s ∨
        Leads c '9' (Counts 0 lessDecimals) s
    else
      let minS := Nat.toDigits 10 minValue
      let c := minS.headD '0'
      '1' < c ∧ Leads rangeStart (before c) (Counts minS.length lessDecimals) s ∨
        After c (fromMin k (value minS.tail) lessDecimals false) s ∨
        c < '9' ∧ Leads (behind c) '9' (Counts (minS.length - 1) lessDecimals) s

lemma fromMin_small (hzero : v ≠ 0) (hnine : v ≤ 9) (s : List Char) :
    fromMin (k + 1) v decimalsLeft top s ↔ (if top then '1' else '0') < ofNat ('0'.toNat + v) ∧
        Leads (if top then '1' else '0') (before (ofNat ('0'.toNat + v)))
          (Counts 1 (max (decimalsLeft - 1) 1)) s ∨
        Leads (ofNat ('0'.toNat + v)) '9' (Counts 0 (max (decimalsLeft - 1) 1)) s := by
  simp only [fromMin, if_neg hzero, if_pos hnine]

lemma fromMin_large (hnine : ¬ v ≤ 9) {c : Char} {t : List Char}
    (hs : toDigits 10 v = c :: t) (s : List Char) :
    fromMin (k + 1) v decimalsLeft top s ↔ '1' < c ∧ Leads (if top then '1' else '0') (before c)
        (Counts (t.length + 1) (max (decimalsLeft - 1) 1)) s ∨
        After c (fromMin k (value t) (max (decimalsLeft - 1) 1) false) s ∨
        c < '9' ∧ Leads (behind c) '9' (Counts t.length (max (decimalsLeft - 1) 1)) s := by
  have hzero : v ≠ 0 := by omega
  simp only [fromMin, if_neg hzero, if_neg hnine, hs, headD_cons,
    length_cons, tail_cons, Nat.add_sub_cancel]

/-- An alternate that is there under a condition, before others. -/
lemma alts_condition_or {p : Prop} [Decidable p] (h : p → SeqText vocab ρ b T (numerals P))
    (h' : AltsText vocab ρ b U (numerals Q)) (hU : Starts U) :
    AltsText vocab ρ b ((if p then T ++ " | ".toList else []) ++ U)
      (numerals fun s => p ∧ P s ∨ Q s) := by
  by_cases hp : p
  · rw [if_pos hp, numerals_congr fun s _ => or_congr_left (and_iff_right hp)]
    exact alts_or (h hp) h' hU
  · rw [if_neg hp, numerals_congr fun s _ => or_iff_right fun hand => hp hand.1]
    exact h'

/-- An alternate that is there under a condition, behind another one. -/
lemma alts_or_condition {p : Prop} [Decidable p] (h : SeqText vocab ρ b T (numerals P))
    (h' : p → AltsText vocab ρ b U (numerals Q)) (hU : Starts U) :
    AltsText vocab ρ b (T ++ if p then " | ".toList ++ U else [])
      (numerals fun s => P s ∨ p ∧ Q s) := by
  by_cases hp : p
  · rw [if_pos hp, numerals_congr fun s _ => or_congr_right (and_iff_right hp), ← append_assoc]
    exact alts_or h (h' hp) hU
  · rw [if_neg hp, numerals_congr fun s _ => or_iff_left fun hand => hp hand.1, append_nil]
    exact h.alts

lemma char_lt_iff {c d : Char} : c < d ↔ c.toNat < d.toNat := Iff.rfl

lemma int64_natCast (n : ℕ) : (n : ℤ) ≠ int64Min := by
  rw [int64Min]
  omega

/-- The digits of a number of at least two digits. -/
lemma exists_digits (hv : ¬ v ≤ 9) : ∃ c t, toDigits 10 v = c :: t ∧ t ≠ [] ∧
    c.isDigit = true ∧ Digits t ∧ c ≠ '0' := by
  have hcanon := canonical_toDigits v
  have hlen : ¬ (toDigits 10 v).length ≤ 1 := fun hle => by
    have hlt := (length_toDigits_le_iff (Nat.one_pos)).mp hle
    omega
  cases hs : toDigits 10 v with
  | nil => exact absurd hs toDigits_ne_nil
  | cons c t =>
    rw [hs] at hcanon hlen
    obtain ⟨hc, ht⟩ := digits_cons.mp hcanon.1
    refine ⟨c, t, rfl, ?_, hc, ht, ?_⟩
    · rintro rfl
      exact hlen (Nat.le_refl 1)
    · rintro rfl
      have heq := hcanon.2.2 rfl
      rw [heq] at hlen
      exact hlen (Nat.le_refl 1)

/-- The other digits are fewer. -/
lemma tail_lt {c : Char} {t : List Char} (hv : v < 10 ^ (k + 1)) (hs : toDigits 10 v = c :: t)
    (ht : Digits t) : t.length ≤ k ∧ value t < 10 ^ k := by
  have hle := (length_toDigits_le_iff (succ_pos k)).mpr hv
  rw [hs] at hle
  have htk : t.length ≤ k := le_of_succ_le_succ hle
  exact ⟨htk, (value_lt ht).trans_le (Nat.pow_le_pow_right (by decide) htk)⟩

/-- **The text for a lower bound denotes what is said of its digits.** -/
theorem altsText_fromMin (hk : 0 < k) (hk' : k ≤ maxRepetitionThreshold) (hv : v < 10 ^ k)
    (hd : decimalsLeft ≤ maxRepetitionThreshold) :
    ∃ T, buildMinMaxInt k v int64Max decimalsLeft top = .ok T ∧ Starts T ∧
      ∀ b, AltsText vocab ρ b T (numerals (fromMin k v decimalsLeft top)) := by
  induction k generalizing v decimalsLeft top with
  | zero => exact absurd hk (Nat.lt_irrefl 0)
  | succ k ih =>
    have hless : max (decimalsLeft - 1) 1 ≤ maxRepetitionThreshold := by
      omega
    have hstart : (if top = true then '1' else '0').isDigit = true := by cases top <;> rfl
    have hboth : ¬ ((v : ℤ) ≠ int64Min ∧ int64Max ≠ int64Max) := fun h => h.2 rfl
    have hneg : ¬ (v : ℤ) < 0 := by omega
    rw [buildMinMaxInt]
    simp only [if_neg hboth, if_pos (int64_natCast v), if_neg hneg]
    by_cases hzero : v = 0
    · subst hzero
      cases top with
      | true =>
        have hseq : ∀ b, SeqText vocab ρ b (digitRange '0' '0') (numerals (· = ['0'])) := fun b =>
          seqText_congr (itemText_digitRange rfl rfl).seq fun s _ => by
            constructor
            · rintro ⟨c, rfl, h1, h2⟩
              rw [Char.toNat_inj.mp (Nat.le_antisymm h2 h1)]
            · rintro rfl
              exact ⟨'0', rfl, Nat.le_refl _, Nat.le_refl _⟩
        refine ⟨_, rfl, rfl, fun b => ?_⟩
        have halts := alts_or (hseq b) (@seqText_range _ _ _ '1' '9' rfl rfl _ _
          (Nat.zero_le _) hless).alts (starts_digitRange '1' '9')
        exact halts
      | false => exact ⟨_, rfl, rfl, fun b => (pieceText_moreDigits (by decide) hd).seq.alts⟩
    have hzero' : ¬ (v : ℤ) = 0 := by omega
    simp only [if_neg hzero']
    by_cases hnine : v ≤ 9
    · have hnine' : (v : ℤ) ≤ 9 := by omega
      have hc : (ofNat ('0'.toNat + v)).toNat = 48 + v :=
        toNat_ofNat (by change 48 + v < _; omega)
      have hdigit : (ofNat ('0'.toNat + v)).isDigit = true := by
        rw [isDigit_iff, hc]
        omega
      rw [if_pos hnine', Int.toNat_natCast]
      generalize hs : ofNat ('0'.toNat + v) = c at hdigit
      have halts := fun b => alts_condition_or (p := (if top = true then '1' else '0') < c)
        (fun hlt => @seqText_range vocab ρ b _ _ hstart
          (isDigit_before hdigit ((isDigit_iff.mp hstart).1.trans_lt (char_lt_iff.mp hlt)))
          1 _ (by decide) hless)
        (@seqText_range _ _ _ _ '9' hdigit rfl _ _ (Nat.zero_le _) hless).alts
        (starts_digitRange c '9')
      refine ⟨_, rfl, ?_, fun b => ?_⟩
      · by_cases hlt : (if top = true then '1' else '0') < c
        · rw [if_pos hlt]
          rfl
        · rw [if_neg hlt]
          rfl
      · rw [append_assoc, numerals_congr fun s _ => fromMin_small hzero hnine s, hs]
        exact halts b
    · rw [if_neg (by omega)]
      obtain ⟨c, t, hs, ht, hc, htd, -⟩ := exists_digits hnine
      obtain ⟨htk, hsub⟩ := tail_lt hv hs htd
      have hkpos : 0 < k := (length_pos_iff.mpr ht).trans_le htk
      obtain ⟨T, hT, hTs, htext⟩ := @ih false _ _ hkpos (by omega) hsub hless
      have hvalue : ((ofDigitChars 10 t 0 : ℕ) : ℤ) = (value t : ℤ) := rfl
      simp only [toText_natCast, hs, headD_cons, tail_cons, length_cons, hvalue, hT, except_ok_bind]
      have hmid : ∀ b, SeqText vocab ρ b (digitRange c c ++ ' ' :: ('(' :: T ++ [')']))
          (numerals (After c (fromMin k (value t) (max (decimalsLeft - 1) 1) false))) := fun b =>
        have hgroup : ItemText vocab ρ b ('(' :: T ++ [')']) _ := (htext true).group hTs
        seqText_digit hc hgroup.seq rfl
      have hlast := fun b => alts_or_condition (p := c < '9') (hmid b)
        (fun hlt => (@seqText_range _ _ _ _ '9' (isDigit_behind hc (char_lt_iff.mp hlt)) rfl
          t.length _ (by omega) hless).alts) (starts_digitRange (behind c) '9')
      have halts := fun b => alts_condition_or (p := '1' < c)
        (fun hlt => seqText_range hstart
          (isDigit_before hc (Nat.lt_trans (by decide) (char_lt_iff.mp hlt)))
          (m := t.length + 1) (by omega) hless) (hlast b) (starts_digitRange c c)
      have hstarts : ∀ U, Starts ((if '1' < c then
          digitRange (if top = true then '1' else '0') (before c) ++
            ' ' :: moreDigits (t.length + 1) (max (decimalsLeft - 1) 1) ++ " | ".toList
          else []) ++ digitRange c c ++ U) := by
        intro U
        by_cases hlt : '1' < c
        · rw [if_pos hlt]
          rfl
        · rw [if_neg hlt]
          rfl
      refine ⟨_, rfl, ?_, fun b => ?_⟩
      · rw [append_assoc, append_assoc, append_assoc]
        exact hstarts _
      · rw [numerals_congr fun s _ => fromMin_large hnine hs s]
        simpa using halts b

variable {s : List Char}

lemma counts_congr {m n : ℕ} {t : List Char} (h : s.length = t.length) :
    Counts m n s ↔ Counts m n t := by
  rw [Counts, Counts, h]

lemma counts_intro {m n : ℕ} (hm : m ≤ s.length) (hn : s.length ≤ n)
    (hle : n ≤ maxRepetitionThreshold) : Counts m n s :=
  (counts_of_le (hm.trans hn) hle s).mpr ⟨hm, hn⟩

/-- The least number of digits is enough, whatever the greatest one is. -/
lemma counts_replicate (m n : ℕ) (c : Char) : Counts m n (List.replicate m c) := by
  refine ⟨by rw [length_replicate], fun x hx => ?_⟩
  rw [upper] at hx
  split at hx
  · cases hx
  · cases hx
    rw [length_replicate]
    exact Nat.le_add_right _ _

/-- The digit of a small number. -/
lemma toDigits_small (hnine : v ≤ 9) : toDigits 10 v = [ofNat ('0'.toNat + v)] ∧
      (ofNat ('0'.toNat + v)).toNat = 48 + v := by
  refine ⟨?_, toNat_ofNat (by change 48 + v < _; omega)⟩
  interval_cases v <;> rfl

/-- The last digit of a numeral is not seen, unless the others are those of the bound. -/
lemma fromMin_last {p : List Char} (hlen : (toDigits 10 v).length ≤ p.length + 1)
    (hne : toDigits 10 v ≠ p ++ ['8']) :
    fromMin k v decimalsLeft top (p ++ ['7']) ↔ fromMin k v decimalsLeft top (p ++ ['8']) := by
  induction k generalizing v decimalsLeft top p with
  | zero => exact Iff.rfl
  | succ k ih =>
    have hsame : ∀ t : List Char, (t ++ ['7']).length = (t ++ ['8']).length := fun t => by simp
    by_cases hzero : v = 0
    · subst hzero
      cases top with
      | true =>
        cases p with
        | nil => simp [fromMin, leads_cons]
        | cons c t => simp [fromMin, leads_cons, counts_congr (hsame t)]
      | false => simp [fromMin, counts_congr (hsame p)]
    by_cases hnine : v ≤ 9
    · obtain ⟨hdigits, hc⟩ := toDigits_small hnine
      rw [fromMin_small hzero hnine, fromMin_small hzero hnine]
      rw [hdigits] at hne
      generalize ofNat ('0'.toNat + v) = c at hne hc
      cases p with
      | nil =>
        have hc8 : c.toNat ≠ '8'.toNat := fun h => hne (congrArg (· :: []) (Char.toNat_inj.mp h))
        have hnot : ¬ Counts 1 (max (decimalsLeft - 1) 1) [] := fun h => absurd h.1 (by decide)
        have hseven : '7'.toNat = 55 := rfl
        have height : '8'.toNat = 56 := rfl
        simp only [nil_append, leads_cons, hnot, and_false, false_or]
        refine and_congr ?_ (and_congr_left' (iff_of_true (by decide) (by decide)))
        omega
      | cons d t => simp only [cons_append, leads_cons, counts_congr (hsame t)]
    · obtain ⟨c, t, hs, ht, -, htd, -⟩ := exists_digits hnine
      rw [fromMin_large hnine hs, fromMin_large hnine hs]
      rw [hs] at hlen hne
      cases p with
      | nil =>
        have hpos := length_pos_iff.mpr ht
        rw [length_cons, length_nil] at hlen
        omega
      | cons d u =>
        simp only [cons_append, leads_cons, after_cons, counts_congr (hsame u)]
        have hle := length_toDigits_value_le htd ht
        rw [length_cons, length_cons] at hlen
        refine or_congr_right (or_congr_left (and_congr_right fun hd => ih (by omega) fun heq => ?_))
        -- the digits behind are those of the bound, which has no zeros in front of them
        have hlen' := congrArg List.length heq
        rw [length_append, length_singleton] at hlen'
        have htu : t = u ++ ['8'] := by
          rw [← heq]
          exact eq_of_value_eq htd (digits_toDigits _) (by omega) (value_toDigits _).symm
        rw [htu, Char.toNat_inj.mp hd] at hne
        exact hne rfl

/-! ### Soundness -/

/-- A numeral with more digits than the bound, or not below it. -/
def AtLeast (cs s : List Char) : Prop :=
  cs.length < s.length ∨ s.length = cs.length ∧ value cs ≤ value s

lemma atLeast_cons {c d : Char} {cs : List Char} (hcs : Digits (c :: cs)) (hs : Digits (d :: s)) :
    AtLeast (c :: cs) (d :: s) ↔ cs.length < s.length ∨
      s.length = cs.length ∧ (c.toNat < d.toNat ∨ c.toNat = d.toNat ∧ value cs ≤ value s) := by
  obtain ⟨hc, hcs⟩ := digits_cons.mp hcs
  obtain ⟨hd, hs⟩ := digits_cons.mp hs
  rw [AtLeast, length_cons, length_cons, Nat.add_right_cancel_iff, Nat.add_lt_add_iff_right]
  refine or_congr_right (and_congr_right fun hlen => ?_)
  exact value_cons_le_iff hcs hs hlen.symm hc hd

lemma atLeast_iff (hs : Canonical s) : AtLeast (toDigits 10 v) s ↔ v ≤ value s := by
  rw [AtLeast, value_toDigits]
  have hlen : (toDigits 10 (value s)).length = s.length := by rw [hs.toDigits_value]
  constructor
  · rintro (hlt | ⟨-, hle⟩)
    · by_contra hlt'
      have hmono := length_toDigits_mono (Nat.le_of_lt (Nat.lt_of_not_le hlt'))
      omega
    · exact hle
  · intro hle
    have hmono := length_toDigits_mono hle
    omega

/-- The digits of the bound that are neither the first nor the last one. -/
def interior (s : List Char) : List Char := s.tail.dropLast

/-- Digits without a zero before the last one are canonical. -/
lemma canonical_of_interior {c : Char} {t : List Char} (ht : t ≠ []) (htd : Digits t)
    (hz : '0' ∉ interior (c :: t)) : Canonical t := by
  refine ⟨htd, ht, fun hhead => ?_⟩
  cases t with
  | nil => exact absurd rfl ht
  | cons d u =>
    cases hhead
    cases u with
    | nil => rfl
    | cons e u => exact absurd (by simp [interior]) hz

lemma mem_interior_cons {c d : Char} {t : List Char} (h : d ∈ interior t) :
    d ∈ interior (c :: t) := by
  cases t with
  | nil => exact absurd h not_mem_nil
  | cons e u =>
    cases u with
    | nil => exact absurd h not_mem_nil
    | cons e' u => exact mem_cons_of_mem _ h

/-- **What is said of the digits is right**, when no zero is lost. -/
theorem atLeast_of_fromMin (hz : '0' ∉ interior (toDigits 10 v)) (hs : Digits s)
    (h : fromMin k v decimalsLeft top s) : AtLeast (toDigits 10 v) s := by
  induction k generalizing v decimalsLeft top s with
  | zero => cases h
  | succ k ih =>
    by_cases hzero : v = 0
    · subst hzero
      have hpos : 1 ≤ s.length := by
        cases top with
        | true =>
          rcases h with rfl | ⟨c, t, rfl, -⟩
          · exact Nat.le_refl 1
          · exact succ_pos _
        | false => exact h.1
      have hone : (toDigits 10 0).length = 1 := rfl
      rw [AtLeast, value_toDigits]
      omega
    have hne : s ≠ [] := by
      rintro rfl
      by_cases hnine : v ≤ 9
      · exact ((fromMin_small hzero hnine _).mp h).elim (fun h => not_leads_nil h.2) not_leads_nil
      · obtain ⟨c, t, hdigits, -⟩ := exists_digits hnine
        exact ((fromMin_large hnine hdigits _).mp h).elim
          (fun h => not_leads_nil h.2) fun h => h.elim not_after_nil fun h => not_leads_nil h.2
    obtain ⟨d, u, rfl⟩ := exists_cons_of_ne_nil hne
    have hcs := digits_toDigits v
    by_cases hnine : v ≤ 9
    · obtain ⟨hdigits, hc⟩ := toDigits_small hnine
      rw [fromMin_small hzero hnine] at h
      rw [hdigits] at hcs ⊢
      rw [atLeast_cons hcs hs, value_nil, length_nil]
      rw [leads_cons, leads_cons] at h
      rcases h with ⟨-, -, -, hcount⟩ | ⟨hle, -, -⟩
      · exact .inl hcount.1
      · omega
    · obtain ⟨c, t, hdigits, ht, hc, htd, -⟩ := exists_digits hnine
      rw [fromMin_large hnine hdigits, leads_cons, leads_cons, after_cons] at h
      rw [hdigits] at hcs hz ⊢
      have hcanon := canonical_of_interior ht htd hz
      rw [atLeast_cons hcs hs]
      rcases h with ⟨-, -, -, hcount⟩ | ⟨heq, h⟩ | ⟨hlt, hle, -, hcount⟩
      · exact .inl hcount.1
      · have hrec := ih (by
          rw [hcanon.toDigits_value]
          exact fun h => hz (mem_interior_cons h)) (digits_cons.mp hs).2 h
        rw [hcanon.toDigits_value] at hrec
        rcases hrec with hlt | ⟨hlen, hle⟩
        · exact .inl hlt
        · exact .inr ⟨hlen, .inr ⟨heq.symm, hle⟩⟩
      · have hcn := isDigit_iff.mp hc
        rw [toNat_behind (by omega)] at hle
        have hcount := hcount.1
        omega

/-- What a longer numeral has to avoid: a zero where the bound has a one. -/
structure Reached (topLevel : Bool) (cs s : List Char) : Prop where
  top : topLevel = true → s.head? ≠ some '0'
  one : cs.length < s.length → '1' ∉ interior cs ∧
    (cs.head? = some '1' → cs.length = 1 ∨ s.head? ≠ some '0')

/-- **The numerals that reach the bound are there**, when no zero of it is lost. -/
theorem fromMin_of_atLeast (hk : 0 < k) (hv : v < 10 ^ k)
    (hz : '0' ∉ interior (toDigits 10 v)) (hs : Digits s)
    (hd : decimalsLeft ≤ maxRepetitionThreshold) (hlen : s.length ≤ decimalsLeft)
    (hreached : Reached top (toDigits 10 v) s) (h : AtLeast (toDigits 10 v) s) :
    fromMin k v decimalsLeft top s := by
  induction k generalizing v decimalsLeft top s with
  | zero => exact absurd hk (Nat.lt_irrefl 0)
  | succ k ih =>
    have hcs := digits_toDigits v
    have hlessle : max (decimalsLeft - 1) 1 ≤ maxRepetitionThreshold := by
      have hone : 1 ≤ maxRepetitionThreshold := by decide
      omega
    have hpos : 0 < s.length := by
      have hpos := length_toDigits_pos (b := 10) (n := v)
      rcases h with hlt | ⟨heq, -⟩ <;> omega
    obtain ⟨d, u, rfl⟩ := exists_cons_of_ne_nil (length_pos_iff.mp hpos)
    have hdn := isDigit_iff.mp (digits_cons.mp hs).1
    rw [length_cons] at hlen
    -- the first digit is not below the one that the text starts from
    have hstart : (if top = true then '1' else '0').toNat ≤ d.toNat := by
      cases top with
      | true =>
        have hne : d.toNat ≠ 48 := fun heq =>
          hreached.top rfl (congrArg some (Char.toNat_inj.mp heq))
        change 49 ≤ d.toNat
        omega
      | false => exact hdn.1
    by_cases hzero : v = 0
    · subst hzero
      cases top with
      | true =>
        exact .inr ⟨d, u, rfl, hstart, hdn.2, counts_intro (Nat.zero_le _) (by omega) hlessle⟩
      | false => exact counts_intro (succ_pos _) hlen hd
    by_cases hnine : v ≤ 9
    · obtain ⟨hdigits, hc⟩ := toDigits_small hnine
      rw [hdigits] at hcs h
      rw [fromMin_small hzero hnine, leads_cons, leads_cons, char_lt_iff]
      rw [atLeast_cons hcs hs, value_nil, length_nil] at h
      have hcd := digits_cons.mp hcs
      generalize ofNat ('0'.toNat + v) = c at h hc hcd
      by_cases hle : c.toNat ≤ d.toNat
      · exact .inr ⟨hle, hdn.2, counts_intro (Nat.zero_le _) (by omega) hlessle⟩
      · refine .inl ⟨by omega, hstart, ?_, counts_intro (by omega) (by omega) hlessle⟩
        rw [toNat_before (by omega)]
        omega
    · obtain ⟨c, t, hdigits, ht, hc, htd, -⟩ := exists_digits hnine
      have hcn := isDigit_iff.mp hc
      have htpos := length_pos_iff.mpr ht
      rw [hdigits] at hcs h hz hreached
      have hcanon := canonical_of_interior ht htd hz
      obtain ⟨htk, hsub⟩ := tail_lt hv hdigits htd
      rw [fromMin_large hnine hdigits, leads_cons, leads_cons, after_cons,
        char_lt_iff, char_lt_iff, toNat_before (by omega), toNat_behind (by omega)]
      rw [atLeast_cons hcs hs] at h
      rcases Nat.lt_trichotomy d.toNat c.toNat with hlt | heq | hlt
      · have hlonger : t.length < u.length := by omega
        have hone : c.toNat ≠ 49 := by
          intro hone
          have hd0 : d = '0' := Char.toNat_inj.mp (by change d.toNat = 48; omega)
          rcases (hreached.one (succ_lt_succ hlonger)).2
            (congrArg some (Char.toNat_inj.mp hone)) with hl | hne
          · rw [length_cons] at hl
            omega
          · exact hne (congrArg some hd0)
        exact .inl ⟨by change 49 < _; omega, hstart, by omega,
          counts_intro hlonger (by omega) hlessle⟩
      · refine .inr (.inl ⟨heq, ih (by omega) hsub ?_ (digits_cons.mp hs).2 hlessle (by omega) ?_ ?_⟩)
        · rw [hcanon.toDigits_value]
          exact fun h => hz (mem_interior_cons h)
        · rw [hcanon.toDigits_value]
          refine ⟨fun h => (by cases h), fun hlonger => ?_⟩
          have hone := (hreached.one (succ_lt_succ hlonger)).1
          refine ⟨fun h => hone (mem_interior_cons h), fun hhead => .inl ?_⟩
          cases t with
          | nil => exact absurd rfl ht
          | cons e t2 =>
            cases hhead
            cases t2 with
            | nil => rfl
            | cons e' t2 => exact absurd (by simp [interior]) hone
        · rw [hcanon.toDigits_value, AtLeast]
          omega
      · exact .inr (.inr ⟨by change _ < 57; omega, hlt, hdn.2,
          counts_intro (by omega) (by omega) hlessle⟩)

/-- There is a numeral no longer than the bound, and a shorter one when a zero is lost. -/
lemma exists_fromMin_short (hk : 0 < k) (hv : v < 10 ^ k) (hd : 0 < decimalsLeft)
    (hd' : decimalsLeft ≤ maxRepetitionThreshold) :
    ∃ s, Digits s ∧ s.head? = (toDigits 10 v).head? ∧ s.length ≤ (toDigits 10 v).length ∧
      ('0' ∈ interior (toDigits 10 v) → s.length < (toDigits 10 v).length) ∧
      fromMin k v decimalsLeft top s := by
  induction k generalizing v decimalsLeft top with
  | zero => exact absurd hk (Nat.lt_irrefl 0)
  | succ k ih =>
    have hlessle : max (decimalsLeft - 1) 1 ≤ maxRepetitionThreshold := by
      omega
    by_cases hzero : v = 0
    · subst hzero
      refine ⟨['0'], digits_replicate rfl 1, rfl, Nat.le_refl 1, fun h => absurd h not_mem_nil, ?_⟩
      cases top with
      | true => exact .inl rfl
      | false => exact counts_intro (Nat.le_refl 1) hd hd'
    by_cases hnine : v ≤ 9
    · obtain ⟨hdigits, hc⟩ := toDigits_small hnine
      refine ⟨toDigits 10 v, digits_toDigits v, rfl, Nat.le_refl _, fun h => ?_, ?_⟩
      · rw [hdigits] at h
        exact absurd h not_mem_nil
      · rw [fromMin_small hzero hnine, hdigits, leads_cons, leads_cons]
        exact .inr ⟨Nat.le_refl _, by change _ ≤ 57; omega,
          counts_intro (Nat.le_refl 0) (Nat.zero_le _) hlessle⟩
    · obtain ⟨c, t, hdigits, ht, hc, htd, -⟩ := exists_digits hnine
      have htpos := length_pos_iff.mpr ht
      obtain ⟨htk, hsub⟩ := tail_lt hv hdigits htd
      obtain ⟨s, hsd, -, hlen, hshort, hs⟩ := @ih false _ (max (decimalsLeft - 1) 1)
        (by omega) hsub (by omega) hlessle
      have hle := length_toDigits_value_le htd ht
      rw [hdigits]
      refine ⟨c :: s, digits_cons.mpr ⟨hc, hsd⟩, rfl,
        succ_le_succ (hlen.trans hle), fun hmem => succ_lt_succ ?_,
        (fromMin_large hnine hdigits _).mpr (.inr (.inl ⟨s, rfl, hs⟩))⟩
      by_cases hcanon : Canonical t
      · -- the zero is inside the digits behind
        rw [hcanon.toDigits_value] at hshort
        refine hshort ?_
        cases t with
        | nil => exact absurd rfl ht
        | cons e u =>
          cases u with
          | nil => exact absurd hmem not_mem_nil
          | cons e' u =>
            rcases mem_cons.mp hmem with rfl | hmem
            · cases hcanon.2.2 rfl
            · exact hmem
      · rw [canonical_iff_length htd ht] at hcanon
        omega

/-- Behind a one inside the bound a zero is missing. -/
lemma exists_not_fromMin (hz : '0' ∉ interior (toDigits 10 v))
    (hone : '1' ∈ interior (toDigits 10 v)) :
    ∃ s, Digits s ∧ s.head? = (toDigits 10 v).head? ∧
      s.length = (toDigits 10 v).length + 1 ∧ ¬ fromMin k v decimalsLeft top s := by
  induction k generalizing v decimalsLeft top with
  | zero =>
    have hd := digits_toDigits v
    cases hdigits : toDigits 10 v with
    | nil => exact absurd hdigits toDigits_ne_nil
    | cons c t =>
      rw [hdigits] at hd
      exact ⟨c :: c :: t, digits_cons.mpr ⟨(digits_cons.mp hd).1, hd⟩, rfl, rfl, fun h => h⟩
  | succ k ih =>
    by_cases hnine : v ≤ 9
    · rw [(toDigits_small hnine).1] at hone
      exact absurd hone not_mem_nil
    obtain ⟨c, t, hdigits, ht, hc, htd, -⟩ := exists_digits hnine
    have hcn := isDigit_iff.mp hc
    rw [hdigits] at hz hone ⊢
    have hcanon := canonical_of_interior ht htd hz
    -- only numerals behind the first digit of the bound are tried
    have hnot : ∀ u, ¬ fromMin k (value t) (max (decimalsLeft - 1) 1) false u →
        ¬ fromMin (k + 1) v decimalsLeft top (c :: u) := by
      intro u hu h
      rw [fromMin_large hnine hdigits, leads_cons, leads_cons, after_cons] at h
      rcases h with ⟨hlt, -, hle, -⟩ | ⟨-, h⟩ | ⟨hlt, hle, -⟩
      · rw [toNat_before (by omega)] at hle
        omega
      · exact hu h
      · rw [toNat_behind (by omega)] at hle
        omega
    cases t with
    | nil => exact absurd rfl ht
    | cons e t =>
      cases t with
      | nil => exact absurd hone not_mem_nil
      | cons e' t =>
        by_cases he : e = '1'
        · subst he
          refine ⟨c :: '0' :: List.replicate (t.length + 2) '0', ?_, rfl, by simp, hnot _ ?_⟩
          · exact digits_cons.mpr ⟨hc, digits_cons.mpr ⟨rfl, digits_replicate rfl _⟩⟩
          · have hlarge : 9 < value ('1' :: e' :: t) := by
              have hle := pow_le_value (c := '1') rfl (by decide) (e' :: t)
              have hpow : 10 ^ 1 ≤ 10 ^ (e' :: t).length :=
                Nat.pow_le_pow_right (by decide) (succ_pos _)
              omega
            cases k with
            | zero => exact fun h => h
            | succ k =>
              rw [fromMin_large (Nat.not_le.mpr hlarge) hcanon.toDigits_value, leads_cons, leads_cons, after_cons]
              rintro (⟨hlt, -⟩ | ⟨heq, -⟩ | ⟨-, hle, -⟩)
              · exact absurd hlt (by decide)
              · exact absurd heq (by decide)
              · exact absurd hle (by decide)
        · obtain ⟨s, hsd, -, hlen, hs⟩ := @ih false
            (value (e :: e' :: t)) (max (decimalsLeft - 1) 1)
            (by
              rw [hcanon.toDigits_value]
              exact fun h => hz (mem_interior_cons h))
            (by
              rw [hcanon.toDigits_value]
              exact (mem_cons.mp hone).resolve_left fun h => he h.symm)
          rw [hcanon.toDigits_value] at hlen
          exact ⟨c :: s, digits_cons.mpr ⟨hc, hsd⟩, rfl, congrArg (· + 1) hlen, hnot s hs⟩

end Llama.Schema
