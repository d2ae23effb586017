import Llama.Grammar.Writing
import Llama.Schema

/-!
# Languages of numerals

The texts that `build_min_max_int` is made of, ranges of digits and repetitions of them, denote
languages of decimal digits.  Such a language is given by a property of lists of digits; products and
sums are those of the properties.
-/

namespace Llama.Schema

open Gbnf GrammarParser Copies Numeral List

/-- The texts of digits with a property. -/
def numerals (P : List Char → Prop) : TextSet := {w | ∃ s, w = codes s ∧ Digits s ∧ P s}

variable {P Q : List Char → Prop}

lemma codes_append (s t : List Char) : codes (s ++ t) = codes s ++ codes t := map_append

lemma codes_inj {s t : List Char} : codes s = codes t ↔ s = t :=
  List.map_inj_right fun _ _ => Char.toNat_inj.mp

lemma mem_numerals {s : List Char} : codes s ∈ numerals P ↔ Digits s ∧ P s := by
  constructor
  · rintro ⟨t, heq, ht⟩
    rwa [codes_inj.mp heq]
  · exact fun h => ⟨s, rfl, h⟩

lemma numerals_congr (h : ∀ s, Digits s → (P s ↔ Q s)) : numerals P = numerals Q := by
  ext w
  refine exists_congr fun s => and_congr_right fun _ => and_congr_right fun hs => h s hs

lemma numerals_add : numerals P + numerals Q = numerals fun s => P s ∨ Q s := by
  ext w
  constructor
  · rintro (⟨s, hw, hs, h⟩ | ⟨s, hw, hs, h⟩)
    · exact ⟨s, hw, hs, .inl h⟩
    · exact ⟨s, hw, hs, .inr h⟩
  · rintro ⟨s, hw, hs, h | h⟩
    · exact .inl ⟨s, hw, hs, h⟩
    · exact .inr ⟨s, hw, hs, h⟩

lemma numerals_mul :
    numerals P * numerals Q = numerals fun s => ∃ s1 s2, s = s1 ++ s2 ∧ P s1 ∧ Q s2 := by
  ext w
  constructor
  · rintro ⟨w1, ⟨s1, rfl, h1, hP⟩, w2, ⟨s2, rfl, h2, hQ⟩, rfl⟩
    exact ⟨s1 ++ s2, (codes_append s1 s2).symm, digits_append.mpr ⟨h1, h2⟩, s1, s2, rfl, hP, hQ⟩
  · rintro ⟨s, rfl, hs, s1, s2, rfl, hP, hQ⟩
    obtain ⟨h1, h2⟩ := digits_append.mp hs
    exact ⟨codes s1, ⟨s1, rfl, h1, hP⟩, codes s2, ⟨s2, rfl, h2, hQ⟩, (codes_append s1 s2).symm⟩

/-- A single numeral. -/
lemma singleton_eq_numerals {s : List Char} (hs : Digits s) :
    ({codes s} : TextSet) = numerals (· = s) := by
  ext w
  constructor
  · rintro rfl
    exact ⟨s, rfl, hs, rfl⟩
  · rintro ⟨t, rfl, -, rfl⟩
    rfl

/-- The digits between two. -/
def inRange (low high : Char) (s : List Char) : Prop :=
  ∃ c, s = [c] ∧ low.toNat ≤ c.toNat ∧ c.toNat ≤ high.toNat

lemma oneOf_eq_numerals {low high : Char} (hlow : low.isDigit = true)
    (hhigh : high.isDigit = true) :
    (oneOf fun c => low.toNat ≤ c ∧ c ≤ high.toNat) = numerals (inRange low high) := by
  rw [isDigit_iff] at hlow hhigh
  ext w
  constructor
  · rintro ⟨n, rfl, hn1, hn2⟩
    have hchar : (Char.ofNat n).toNat = n := toNat_ofNat (by omega)
    refine ⟨[Char.ofNat n], by rw [codes, map_singleton, hchar], ?_, _, rfl, ?_⟩
    · exact digits_cons.mpr ⟨isDigit_iff.mpr (by omega), fun _ h => absurd h not_mem_nil⟩
    · rw [hchar]
      exact ⟨hn1, hn2⟩
  · rintro ⟨s, rfl, -, c, rfl, hc⟩
    exact ⟨c.toNat, rfl, hc⟩

lemma pow_digits (n : ℕ) : numerals (inRange '0' '9') ^ n = numerals fun s => s.length = n := by
  induction n with
  | zero =>
    ext w
    constructor
    · rintro rfl
      exact ⟨[], rfl, fun _ h => absurd h not_mem_nil, rfl⟩
    · rintro ⟨s, rfl, -, hs⟩
      rw [length_eq_zero_iff.mp hs]
      rfl
  | succ n ih =>
    rw [pow_succ', ih, numerals_mul]
    refine numerals_congr fun s hs => ?_
    constructor
    · rintro ⟨s1, s2, rfl, ⟨c, rfl, -⟩, rfl⟩
      simp
    · intro hlen
      cases s with
      | nil => cases hlen
      | cons c s =>
        exact ⟨[c], s, rfl, ⟨c, rfl, isDigit_iff.mp (digits_cons.mp hs).1⟩, Nat.succ.inj hlen⟩

lemma copies_digits (m : ℕ) (max : Option ℕ) : copies (numerals (inRange '0' '9')) m max =
    numerals fun s => m ≤ s.length ∧ ∀ n ∈ max, s.length ≤ n := by
  ext w
  constructor
  · rintro ⟨k, hm, hmax, hw⟩
    rw [pow_digits] at hw
    obtain ⟨s, hw, hs, rfl⟩ := hw
    exact ⟨s, hw, hs, hm, hmax⟩
  · rintro ⟨s, hw, hs, hm, hmax⟩
    refine ⟨s.length, hm, hmax, ?_⟩
    rw [pow_digits]
    exact ⟨s, hw, hs, rfl⟩

/-! ## Texts -/

variable {vocab : Option (List Char → Option ℕ)} {ρ : List Char → TextSet} {b : Bool}
  {T U : List Char}

lemma plain_of_isDigit {c : Char} (hc : c.isDigit = true) : Single c ∧ c ≠ '"' ∧ c ≠ '^' := by
  have hc := isDigit_iff.mp hc
  refine ⟨⟨⟨by omega, ?_, ?_⟩, ?_, ?_⟩, ?_, ?_⟩ <;> rintro rfl <;> revert hc <;> decide

lemma seqText_congr (h : SeqText vocab ρ b T (numerals P)) (hPQ : ∀ s, Digits s → (P s ↔ Q s)) :
    SeqText vocab ρ b T (numerals Q) := by
  rwa [← numerals_congr hPQ]

/-- `digit_range`. -/
lemma itemText_digitRange {low high : Char} (hlow : low.isDigit = true)
    (hhigh : high.isDigit = true) :
    ItemText vocab ρ b (digitRange low high) (numerals (inRange low high)) := by
  obtain ⟨hl, -, hcaret⟩ := plain_of_isDigit hlow
  obtain ⟨hh, -, -⟩ := plain_of_isDigit hhigh
  rw [← oneOf_eq_numerals hlow hhigh, digitRange]
  split
  · next heq =>
    subst heq
    have hset : (oneOf fun c => low.toNat ≤ c ∧ c ≤ low.toNat) = oneOf (· ∈ codes [low]) := by
      ext w
      refine exists_congr fun c => and_congr_right fun _ => ?_
      change _ ↔ c ∈ [low.toNat]
      rw [mem_singleton]
      omega
    rw [hset]
    exact itemText_class (fun c hc => mem_singleton.mp hc ▸ hl) (cons_ne_nil _ _)
      fun h => hcaret (Option.some.inj h)
  · exact itemText_range hl hh hcaret

lemma starts_digitRange (low high : Char) : Starts (digitRange low high) := rfl

/-- The numbers of digits that `more_digits` allows. -/
def Counts (minDigits maxDigits : ℕ) (s : List Char) : Prop :=
  minDigits ≤ s.length ∧ ∀ n ∈ upper minDigits maxDigits, s.length ≤ n

lemma counts_of_le {m n : ℕ} (hle : m ≤ n) (hn : n ≤ maxRepetitionThreshold) (s : List Char) :
    Counts m n s ↔ m ≤ s.length ∧ s.length ≤ n := by
  obtain ⟨hmax, hne⟩ := le_uint64Max hn
  rw [Counts, upper_of_le hle hmax, if_neg hne]
  simp

/-- `more_digits`. -/
lemma pieceText_moreDigits {m n : ℕ} (hm : m ≤ maxRepetitionThreshold)
    (hn : n ≤ maxRepetitionThreshold) :
    PieceText vocab ρ b (moreDigits m n) (numerals (Counts m n)) := by
  have hitem : ItemText vocab ρ b (digitRange '0' '9') (numerals (inRange '0' '9')) :=
    itemText_digitRange rfl rfl
  have htext : "[0-9]".toList = digitRange '0' '9' := rfl
  have hcounts : numerals (Counts m n) =
      copies (numerals (inRange '0' '9')) m (upper m n) := (copies_digits m (upper m n)).symm
  rw [moreDigits, htext]
  split
  · next hone =>
    obtain ⟨rfl, rfl⟩ := hone
    have hnum : numerals (Counts 1 1) = numerals (inRange '0' '9') := by
      rw [hcounts, upper_of_le (Nat.le_refl 1) (by decide), if_neg (by decide), copies_exact,
        pow_one]
    rw [append_nil, hnum]
    exact hitem.piece
  · rw [hcounts]
    by_cases hne : n ≠ m
    · have hmax : n ≠ intMax := by
        have : maxRepetitionThreshold < intMax := by decide
        omega
      rw [if_pos hne, if_pos hmax]
      refine hitem.repeats _ (fun rest => ?_) rfl rfl
      have hread := readOperator_bounds hm hn b rest
      simpa using hread
    · rw [not_ne_iff] at hne
      subst hne
      refine hitem.repeats _ (fun rest => ?_) rfl rfl
      have hread := readOperator_exact hn b rest
      simpa using hread

lemma starts_moreDigits (m n : ℕ) : Starts (moreDigits m n) := rfl

/-- The numerals behind a range of digits. -/
def Leads (low high : Char) (P : List Char → Prop) (s : List Char) : Prop :=
  ∃ c t, s = c :: t ∧ low.toNat ≤ c.toNat ∧ c.toNat ≤ high.toNat ∧ P t

lemma leads_cons {low high d : Char} {t : List Char} :
    Leads low high P (d :: t) ↔ low.toNat ≤ d.toNat ∧ d.toNat ≤ high.toNat ∧ P t := by
  constructor
  · rintro ⟨d', t', heq, h⟩
    obtain ⟨rfl, rfl⟩ := List.cons.inj heq
    exact h
  · exact fun h => ⟨d, t, rfl, h⟩

lemma not_leads_nil {low high : Char} : ¬ Leads low high P [] :=
  fun h => (by obtain ⟨c, t, heq, -⟩ := h; cases heq)

/-- A digit and more digits. -/
lemma seqText_range {low high : Char} (hlow : low.isDigit = true) (hhigh : high.isDigit = true)
    {m n : ℕ} (hm : m ≤ maxRepetitionThreshold) (hn : n ≤ maxRepetitionThreshold) :
    SeqText vocab ρ b (digitRange low high ++ ' ' :: moreDigits m n)
      (numerals (Leads low high (Counts m n))) := by
  have hseq := (itemText_digitRange hlow hhigh).cons
    (@pieceText_moreDigits vocab ρ b _ _ hm hn).seq (starts_moreDigits m n)
  rw [numerals_mul] at hseq
  refine seqText_congr hseq fun s _ => ?_
  constructor
  · rintro ⟨s1, s2, rfl, ⟨c, rfl, h1, h2⟩, hcounts⟩
    exact ⟨c, s2, rfl, h1, h2, hcounts⟩
  · rintro ⟨c, t, rfl, h1, h2, hcounts⟩
    exact ⟨[c], t, rfl, ⟨c, rfl, h1, h2⟩, hcounts⟩

/-- The numerals behind one digit. -/
def After (c : Char) (P : List Char → Prop) (s : List Char) : Prop := ∃ t, s = c :: t ∧ P t

lemma after_cons {c d : Char} {t : List Char} : After c P (d :: t) ↔ d.toNat = c.toNat ∧ P t := by
  constructor
  · rintro ⟨t', heq, hP⟩
    obtain ⟨rfl, rfl⟩ := List.cons.inj heq
    exact ⟨rfl, hP⟩
  · rintro ⟨hd, hP⟩
    exact ⟨t, by rw [Char.toNat_inj.mp hd], hP⟩

lemma not_after_nil {c : Char} : ¬ After c P [] :=
  fun h => (by obtain ⟨t, heq, -⟩ := h; cases heq)

/-- A digit before numerals. -/
lemma seqText_digit {c : Char} (hc : c.isDigit = true) (h : SeqText vocab ρ b T (numerals P))
    (hT : Starts T) :
    SeqText vocab ρ b (digitRange c c ++ ' ' :: T) (numerals (After c P)) := by
  have hseq := (itemText_digitRange hc hc).cons h hT
  rw [numerals_mul] at hseq
  refine seqText_congr hseq fun s _ => ?_
  constructor
  · rintro ⟨s1, s2, rfl, ⟨d, rfl, h1, h2⟩, hP⟩
    rw [Char.toNat_inj.mp (Nat.le_antisymm h2 h1)]
    exact ⟨s2, rfl, hP⟩
  · rintro ⟨t, rfl, hP⟩
    exact ⟨[c], t, rfl, ⟨c, rfl, Nat.le_refl _, Nat.le_refl _⟩, hP⟩

lemma alts_or (h : SeqText vocab ρ b T (numerals P)) (h' : AltsText vocab ρ b U (numerals Q))
    (hU : Starts U) :
    AltsText vocab ρ b (T ++ " | ".toList ++ U) (numerals fun s => P s ∨ Q s) := by
  have htext : T ++ " | ".toList ++ U = T ++ ' ' :: '|' :: ' ' :: U := by
    rw [append_assoc]
    rfl
  rw [htext, ← numerals_add]
  exact h.or h' hU

end Llama.Schema
