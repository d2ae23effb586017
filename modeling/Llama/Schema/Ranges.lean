import Llama.Schema.Numerals

/-!
# The grammar of the numbers between two bounds

`uniform_range` denotes the numerals of one length between two of that length, and the loop over the
lengths the canonical numerals between two numbers.
-/

namespace Llama.Schema

open Gbnf GrammarParser Numeral List Nat

variable {vocab : Option (List Char → Option ℕ)} {ρ : List Char → TextSet} {b : Bool}
  {low high : List Char} {a c : Char} {as cs : List Char}

/-- The numerals of one length between two of that length. -/
def Between (low high : List Char) (s : List Char) : Prop :=
  s.length = low.length ∧ value low ≤ value s ∧ value s ≤ value high

/-- The bounds of a range: digits, of one length, in order. -/
structure Bounds (low high : List Char) : Prop where
  digitsLow : Digits low
  digitsHigh : Digits high
  length : low.length = high.length
  le : value low ≤ value high

lemma commonLength_spec : ∀ {low high : List Char}, low.length = high.length →
    low = high ∧ commonLength low high = low.length ∨
      ∃ p a as c cs, low = p ++ a :: as ∧ high = p ++ c :: cs ∧ a ≠ c ∧
        commonLength low high = p.length
  | [], [], _ => .inl ⟨rfl, rfl⟩
  | a :: as, c :: cs, h => by
    rw [commonLength]
    by_cases heq : a = c
    · subst heq
      rw [if_pos rfl]
      obtain ⟨rfl, hlen⟩ | ⟨p, a', as', c', cs', rfl, rfl, hne, hlen⟩ :=
        commonLength_spec (Nat.succ.inj h)
      · exact .inl ⟨rfl, congrArg (· + 1) hlen⟩
      · exact .inr ⟨a :: p, a', as', c', cs', rfl, rfl, hne, congrArg (· + 1) hlen⟩
    · rw [if_neg heq]
      exact .inr ⟨[], a, as, c, cs, rfl, rfl, heq, rfl⟩

/-- Between two numerals that start with different digits. -/
lemma between_cons_iff (h : Bounds (a :: as) (c :: cs)) {d : Char} {t : List Char}
    (hs : Digits (d :: t)) : Between (a :: as) (c :: cs) (d :: t) ↔ t.length = as.length ∧
      (a.toNat < d.toNat ∨ a.toNat = d.toNat ∧ value as ≤ value t) ∧
      (d.toNat < c.toNat ∨ d.toNat = c.toNat ∧ value t ≤ value cs) := by
  obtain ⟨ha, has⟩ := digits_cons.mp h.digitsLow
  obtain ⟨hc, hcs⟩ := digits_cons.mp h.digitsHigh
  have hlen : as.length = cs.length := Nat.succ.inj h.length
  obtain ⟨hd, ht⟩ := digits_cons.mp hs
  rw [Between, length_cons, length_cons, Nat.add_right_cancel_iff]
  refine and_congr_right fun hlt => ?_
  rw [value_cons_le_iff has ht hlt.symm ha hd, value_cons_le_iff ht hcs (hlt.trans hlen) hd hc]

lemma not_between_nil : ¬ Between (a :: as) high [] := fun h => (by cases h.1)

lemma toNat_before (hlt : c.toNat < 128) : (before c).toNat = c.toNat - 1 :=
  toNat_ofNat (by omega)

lemma toNat_behind (hlt : c.toNat < 128) : (behind c).toNat = c.toNat + 1 :=
  toNat_ofNat (by omega)

lemma isDigit_before (hc : c.isDigit = true) (hpos : 48 < c.toNat) : (before c).isDigit = true := by
  have hc := isDigit_iff.mp hc
  rw [isDigit_iff, toNat_before (by omega)]
  omega

lemma isDigit_behind (hc : c.isDigit = true) (hlt : c.toNat < 57) : (behind c).isDigit = true := by
  have hc := isDigit_iff.mp hc
  rw [isDigit_iff, toNat_behind (by omega)]
  omega

/-- A numeral is between the zeros and the nines of its length. -/
lemma value_le_nines {s : List Char} (hs : Digits s) :
    value s ≤ value (List.replicate s.length '9') := by
  have hlt := value_lt hs
  have hnine := value_replicate_nine s.length
  omega

lemma bounds_nines (has : Digits as) : Bounds as (List.replicate as.length '9') :=
  ⟨has, digits_replicate rfl _, (length_replicate).symm, value_le_nines has⟩

lemma bounds_zeros (hcs : Digits cs) {n : ℕ} (hlen : n = cs.length) :
    Bounds (List.replicate n '0') cs :=
  ⟨digits_replicate rfl _, hcs, by rw [length_replicate, hlen], by
    rw [value_replicate_zero]
    exact Nat.zero_le _⟩

/-- What is known of `uniform_range` for shorter numerals. -/
def Ranges (vocab : Option (List Char → Option ℕ)) (ρ : List Char → TextSet)
    (range : List Char → List Char → List Char) (n : ℕ) : Prop :=
  ∀ low high, Bounds low high → low.length = n → 0 < n → Starts (range low high) ∧
    ∀ b, SeqText vocab ρ b (range low high) (numerals (Between low high))

lemma seqText_behind {low high : Char} (hlow : low.isDigit = true) (hhigh : high.isDigit = true)
    {n : ℕ} (hn : n ≤ maxRepetitionThreshold) :
    SeqText vocab ρ b (digitRange low high ++ ' ' :: moreDigits n n)
      (numerals (Leads low high fun t => t.length = n)) := by
  refine seqText_congr (seqText_range hlow hhigh hn hn) fun s _ => ?_
  refine exists_congr fun c => exists_congr fun t => and_congr_right fun _ =>
    and_congr_right fun _ => and_congr_right fun _ => ?_
  rw [counts_of_le (Nat.le_refl n) hn]
  omega

lemma itemText_group {P Q : List Char → Prop} {T U : List Char}
    (h : AltsText vocab ρ true T (numerals P)) (hT : Starts T) (hPQ : ∀ s, Digits s → (P s ↔ Q s))
    (htext : U = '(' :: T ++ [')']) : ItemText vocab ρ b U (numerals Q) := by
  rw [htext, ← numerals_congr hPQ]
  exact h.group hT

/-- **The numerals from the first digit in which the bounds differ.** -/
theorem itemText_differingRange {range : List Char → List Char → List Char}
    (hrange : Ranges vocab ρ range as.length) (h : Bounds (a :: as) (c :: cs)) (hne : a ≠ c)
    (hlen : as.length ≤ maxRepetitionThreshold) :
    ItemText vocab ρ b (differingRange range a c as cs)
      (numerals (Between (a :: as) (c :: cs))) := by
  obtain ⟨ha, has⟩ := digits_cons.mp h.digitsLow
  obtain ⟨hc, hcs⟩ := digits_cons.mp h.digitsHigh
  have hac : a.toNat < c.toNat := by
    have hle := (value_cons_le_iff has hcs (Nat.succ.inj h.length) ha hc).mp h.le
    have hnat : a.toNat ≠ c.toNat := fun heq => hne (Char.toNat_inj.mp heq)
    omega
  have ha' := isDigit_iff.mp ha
  have hc' := isDigit_iff.mp hc
  have hlen' : as.length = cs.length := Nat.succ.inj h.length
  unfold differingRange
  by_cases hpos : 0 < as.length
  swap
  · -- one digit is left
    obtain rfl := length_eq_zero_iff.mp (Nat.eq_zero_of_not_pos hpos)
    obtain rfl := length_eq_zero_iff.mp hlen'.symm
    have htext : digitRange a c = ['[', a, '-', c, ']'] := by
      rw [digitRange, if_neg hne]
      rfl
    rw [← htext, ← numerals_congr (P := inRange a c) fun s hs => ?_]
    · exact itemText_digitRange ha hc
    · cases s with
      | nil => exact iff_of_false (fun h => by obtain ⟨d, heq, -⟩ := h; cases heq) not_between_nil
      | cons d t =>
        rw [between_cons_iff h hs]
        constructor
        · rintro ⟨d', heq, h1, h2⟩
          obtain ⟨rfl, rfl⟩ := List.cons.inj heq
          omega
        · rintro ⟨ht, h1, h2⟩
          rw [length_eq_zero_iff.mp ht]
          exact ⟨d, rfl, by omega, by omega⟩
  have hzeros := value_replicate_zero as.length
  have hnines := value_replicate_nine as.length
  -- the last alternate
  have hlast : SeqText vocab ρ true
      (digitRange c c ++ ' ' :: range (List.replicate as.length '0') cs)
      (numerals (After c (Between (List.replicate as.length '0') cs))) :=
    have hr := hrange _ cs (bounds_zeros hcs hlen') length_replicate hpos
    seqText_digit hc (hr.2 true) hr.1
  by_cases hzero : as = List.replicate as.length '0'
  · have hvalue : value as = 0 := by rw [hzero, hzeros]
    have halts := alts_or (seqText_behind ha (isDigit_before hc (by omega)) hlen) hlast.alts
      (starts_digitRange c c)
    have hnot : ¬ (as ≠ List.replicate as.length '0' ∧ a.toNat < c.toNat - 1 ∧
      cs = List.replicate as.length '9') := fun htrue => htrue.1 hzero
    simp only [if_pos hpos, if_pos hzero, if_neg hnot]
    refine itemText_group halts rfl (fun s hs => ?_) (by simp)
    cases s with
    | nil =>
      exact iff_of_false (fun h => h.elim not_leads_nil not_after_nil) not_between_nil
    | cons d t =>
      rw [between_cons_iff h hs, leads_cons, after_cons, Between, length_replicate, hzeros,
        toNat_before (by omega), hvalue]
      omega
  · -- the first alternate
    have hfirst : SeqText vocab ρ true
        (['[', a, ']', ' ', '('] ++ range as (List.replicate as.length '9') ++ [')'])
        (numerals (After a (Between as (List.replicate as.length '9')))) := by
      have hr := hrange as _ (bounds_nines has) rfl hpos
      have hgroup : ItemText vocab ρ true ('(' :: range as (List.replicate as.length '9') ++ [')'])
          (numerals (Between as (List.replicate as.length '9'))) :=
        (hr.2 true).alts.group hr.1
      have htext : ['[', a, ']', ' ', '('] ++ range as (List.replicate as.length '9') ++ [')'] =
          digitRange a a ++ ' ' :: ('(' :: range as (List.replicate as.length '9') ++ [')']) := by
        simp [digitRange]
      rw [htext]
      exact seqText_digit ha hgroup.seq rfl
    have hvalue : ∀ t, Digits t → t.length = as.length → value t < 10 ^ as.length :=
      fun t ht hlt => hlt ▸ value_lt ht
    by_cases hbetween : a.toNat < c.toNat - 1
    · by_cases hreach : cs = List.replicate as.length '9'
      · -- the last alternate is part of the one in the middle
        have halts := alts_or hfirst
          (seqText_behind (isDigit_behind ha (by omega)) hc hlen).alts
          (starts_digitRange (behind a) c)
        simp only [if_pos hpos, if_neg hzero, if_pos hbetween, if_pos hreach,
          if_pos (And.intro hzero (And.intro hbetween hreach))]
        refine itemText_group halts rfl (fun s hs => ?_) (by simp)
        cases s with
        | nil =>
          exact iff_of_false (fun h => h.elim not_after_nil not_leads_nil) not_between_nil
        | cons d t =>
          have hlt := hvalue t (digits_cons.mp hs).2
          have hcsv : value cs + 1 = 10 ^ as.length := by rw [hreach, hnines]
          rw [between_cons_iff h hs, after_cons, leads_cons, Between, toNat_behind (by omega)]
          omega
      · have halts := alts_or hfirst
          (alts_or (seqText_behind (isDigit_behind ha (by omega))
            (isDigit_before hc (by omega)) hlen) hlast.alts (starts_digitRange c c))
          ((starts_digitRange (behind a) (before c)).append _ |>.append _ |>.append _)
        have hnot : ¬ (as ≠ List.replicate as.length '0' ∧ a.toNat < c.toNat - 1 ∧
          cs = List.replicate as.length '9') := fun htrue => hreach htrue.2.2
        simp only [if_pos hpos, if_neg hzero, if_pos hbetween, if_neg hreach, if_neg hnot]
        refine itemText_group halts rfl (fun s hs => ?_) (by simp)
        cases s with
        | nil =>
          exact iff_of_false
            (fun h => h.elim not_after_nil fun h => h.elim not_leads_nil not_after_nil)
            not_between_nil
        | cons d t =>
          have hlt := hvalue t (digits_cons.mp hs).2
          rw [between_cons_iff h hs, after_cons, leads_cons, after_cons, Between, Between,
            toNat_behind (by omega), toNat_before (by omega), hzeros, length_replicate]
          omega
    · have halts := alts_or hfirst hlast.alts (starts_digitRange c c)
      have hnot : ¬ (as ≠ List.replicate as.length '0' ∧ a.toNat < c.toNat - 1 ∧
        cs = List.replicate as.length '9') := fun htrue => hbetween htrue.2.1
      simp only [if_pos hpos, if_neg hzero, if_neg hbetween, if_neg hnot]
      refine itemText_group halts rfl (fun s hs => ?_) (by simp)
      cases s with
      | nil =>
        exact iff_of_false (fun h => h.elim not_after_nil not_after_nil) not_between_nil
      | cons d t =>
        have hlt := hvalue t (digits_cons.mp hs).2
        rw [between_cons_iff h hs, after_cons, after_cons, Between, Between, hzeros,
          length_replicate]
        omega

lemma starts_differingRange (range : List Char → List Char → List Char) :
    Starts (differingRange range a c as cs) := by
  unfold differingRange
  by_cases hpos : 0 < as.length
  · rw [if_pos hpos]
    rfl
  · rw [if_neg hpos]
    rfl

/-- Numerals with the same digits in front. -/
lemma between_append_iff {p : List Char} (h : Bounds (p ++ low) (p ++ high)) {s : List Char}
    (hs : Digits s) : Between (p ++ low) (p ++ high) s ↔ ∃ t, s = p ++ t ∧ Between low high t := by
  obtain ⟨hp, hlow⟩ := digits_append.mp h.digitsLow
  obtain ⟨-, hhigh⟩ := digits_append.mp h.digitsHigh
  have hlen : low.length = high.length := by
    have hlen := h.length
    rw [length_append, length_append] at hlen
    omega
  constructor
  · rintro ⟨hl, h1, h2⟩
    rw [length_append] at hl
    obtain ⟨s1, t, rfl, hs1⟩ : ∃ s1 t, s = s1 ++ t ∧ s1.length = p.length :=
      ⟨s.take p.length, s.drop p.length, (take_append_drop _ _).symm, length_take_of_le (by omega)⟩
    obtain ⟨hd1, hdt⟩ := digits_append.mp hs
    rw [length_append] at hl
    have htlen : t.length = low.length := by omega
    have hvt := value_lt hdt
    have hvh := value_lt hhigh
    rw [value_append, value_append, ← htlen] at h1
    rw [value_append, value_append, ← hlen, ← htlen] at h2
    rw [← hlen, ← htlen] at hvh
    have heq : value s1 = value p := by
      refine Nat.le_antisymm ?_ ?_
      · refine le_of_lt_succ (lt_of_mul_lt_mul_right (a := 10 ^ t.length) ?_ (Nat.zero_le _))
        rw [succ_mul]
        omega
      · refine le_of_lt_succ (lt_of_mul_lt_mul_right (a := 10 ^ t.length) ?_ (Nat.zero_le _))
        rw [succ_mul]
        omega
    rw [heq] at h1 h2
    exact ⟨t, by rw [eq_of_value_eq hd1 hp hs1 heq], htlen, by omega, by omega⟩
  · rintro ⟨t, rfl, hl, h1, h2⟩
    refine ⟨by rw [length_append, length_append, hl], ?_, ?_⟩
    · rw [value_append, value_append, hl]
      omega
    · rw [value_append, value_append, hl, hlen]
      omega

/-- Bounds without the digits in front that they share. -/
lemma Bounds.behind {p : List Char} (h : Bounds (p ++ low) (p ++ high)) : Bounds low high := by
  have hlen := h.length
  rw [length_append, length_append] at hlen
  refine ⟨(digits_append.mp h.digitsLow).2, (digits_append.mp h.digitsHigh).2, by omega, ?_⟩
  have hle := h.le
  rw [value_append, value_append, (by omega : low.length = high.length)] at hle
  omega

/-- **`uniform_range` denotes the numerals of the length of its bounds between them.** -/
theorem ranges_uniformRange (k : ℕ) {n : ℕ} (hk : n ≤ k) (hn : n ≤ maxRepetitionThreshold) :
    Ranges vocab ρ (uniformRange k) n := by
  induction k generalizing n with
  | zero => exact fun low high _ _ hpos => absurd hpos (by omega)
  | succ k ih =>
    rintro low high hbounds rfl hpos
    have hliteral : ∀ {p : List Char} b, Digits p →
        ItemText vocab ρ b ('"' :: p ++ ['"']) (numerals (· = p)) := fun b hp =>
      (singleton_eq_numerals hp) ▸ itemText_literal fun c hc =>
        have hplain := plain_of_isDigit (hp c hc)
        ⟨hplain.1.toPlain, hplain.2.1⟩
    rw [uniformRange]
    obtain ⟨rfl, hi⟩ | ⟨p, a, as, c, cs, rfl, rfl, hne, hi⟩ := commonLength_spec hbounds.length
    · -- there is no difference
      simp only [hi, if_pos hpos, Nat.lt_irrefl, false_and, if_false, take_length, append_nil]
      refine ⟨rfl, fun b => seqText_congr (hliteral b hbounds.digitsLow).seq fun s hs => ?_⟩
      constructor
      · rintro rfl
        exact ⟨rfl, Nat.le_refl _, Nat.le_refl _⟩
      · rintro ⟨hl, h1, h2⟩
        exact eq_of_value_eq hs hbounds.digitsLow hl (Nat.le_antisymm h2 h1)
    · have hsub := hbounds.behind
      have hlen : as.length < (p ++ a :: as).length := by
        rw [length_append, length_cons]
        omega
      have hitem := fun b => itemText_differingRange (b := b)
        (ih (n := as.length) (by omega) (by omega)) hsub hne (by omega)
      have hin : p.length < (p ++ a :: as).length ∧ p.length < (p ++ c :: cs).length := by
        simp
      simp only [hi, if_pos hin, getD_append_right _ _ _ _ (Nat.le_refl _), Nat.sub_self,
        getD_cons_zero, take_left, drop_append, drop_of_length_le,
        Nat.le_add_right, Nat.add_sub_cancel_left, drop_one, tail_cons, nil_append]
      by_cases hp : 0 < p.length
      · simp only [if_pos hp]
        refine ⟨rfl, fun b => ?_⟩
        have hseq := (hliteral b (digits_append.mp hbounds.digitsLow).1).cons (hitem b).seq
          (starts_differingRange _)
        rw [numerals_mul] at hseq
        refine seqText_congr hseq fun s hs => ?_
        rw [between_append_iff hbounds hs]
        constructor
        · rintro ⟨s1, t, rfl, rfl, ht⟩
          exact ⟨t, rfl, ht⟩
        · rintro ⟨t, rfl, ht⟩
          exact ⟨p, t, rfl, rfl, ht⟩
      · obtain rfl := length_eq_zero_iff.mp (Nat.eq_zero_of_not_pos hp)
        exact ⟨starts_differingRange _, fun b => (hitem b).seq⟩

/-- The numerals from `minS`, which are longer than it or not below it, up to `maxS`. -/
def UpTo (minS maxS s : List Char) : Prop :=
  value s ≤ value maxS ∧ (s.length = minS.length ∧ value minS ≤ value s ∨
    minS.length < s.length ∧ Canonical s)

lemma length_le_of_value_le {s t : List Char} (hs : Canonical s) (ht : Digits t) (hne : t ≠ [])
    (hle : value s ≤ value t) : s.length ≤ t.length := by
  have hmono := length_toDigits_mono hle
  rw [hs.toDigits_value] at hmono
  exact hmono.trans (length_toDigits_value_le ht hne)

/-- **The loop over the lengths.** -/
theorem altsText_rangesByLength (n : ℕ) {digits : ℕ} {minS maxS : List Char} (hmin : Digits minS)
    (hdigits : minS.length = digits) (hpos : 0 < digits) (hmax : Canonical maxS)
    (hlen : maxS.length = digits + n) (hn : digits + n ≤ maxRepetitionThreshold)
    (hle : n = 0 → value minS ≤ value maxS) :
    Starts (rangesByLength n digits minS maxS) ∧
      AltsText vocab ρ b (rangesByLength n digits minS maxS) (numerals (UpTo minS maxS)) := by
  induction n generalizing digits minS with
  | zero =>
    subst hdigits
    have hbounds : Bounds minS maxS := ⟨hmin, hmax.1, hlen.symm, hle rfl⟩
    obtain ⟨hstarts, htext⟩ := @ranges_uniformRange vocab ρ (minS.length + 1) _
      (le_succ _) hn minS maxS hbounds rfl hpos
    refine ⟨hstarts, (seqText_congr (htext b) fun s hs => ?_).alts⟩
    constructor
    · exact fun h => ⟨h.2.2, .inl ⟨h.1, h.2.1⟩⟩
    · rintro ⟨h2, ⟨hl, h1⟩ | ⟨hl, hcanon⟩⟩
      · exact ⟨hl, h1, h2⟩
      · have hlong := length_le_of_value_le hcanon hmax.1 hmax.2.1 h2
        omega
  | succ n ih =>
    subst hdigits
    have hnines : Bounds minS (List.replicate minS.length '9') := bounds_nines hmin
    obtain ⟨hstarts, htext⟩ := @ranges_uniformRange vocab ρ (minS.length + 1) _
      (le_succ _) (by omega) minS _ hnines rfl hpos
    have hone : value ('1' :: List.replicate minS.length '0') = 10 ^ minS.length := by
      rw [value_cons, value_replicate_zero, length_replicate]
      exact (Nat.add_zero _).trans (Nat.one_mul _)
    have hmaxv : 10 ^ minS.length ≤ value maxS := by
      have hlong := (canonical_iff_length hmax.1 hmax.2.1).mp hmax
      by_contra hlt
      have hshort := (length_toDigits_le_iff hpos).mpr (Nat.lt_of_not_le hlt)
      omega
    have hrec := @ih (minS.length + 1) ('1' :: List.replicate minS.length '0')
      (digits_cons.mpr ⟨rfl, digits_replicate rfl _⟩) (by simp) (succ_pos _) (by omega)
      (by omega) fun _ => by rw [hone]; exact hmaxv
    refine ⟨(hstarts.append _).append _, ?_⟩
    have halts := alts_or (htext b) hrec.2 hrec.1
    rw [← numerals_congr (P := fun s => Between minS (List.replicate minS.length '9') s ∨
      UpTo ('1' :: List.replicate minS.length '0') maxS s) fun s hs => ?_]
    · exact halts
    have hvlt := value_lt hs
    have hnine := value_replicate_nine minS.length
    rw [UpTo, UpTo, hone, length_cons, length_replicate]
    constructor
    · rintro (⟨hl, h1, h2⟩ | ⟨h2, ⟨hl, h1⟩ | ⟨hl, hcanon⟩⟩)
      · exact ⟨by omega, .inl ⟨hl, h1⟩⟩
      · rw [canonical_iff_length hs (length_pos_iff.mp (by omega))]
        by_contra hshort
        have hlt := (length_toDigits_le_iff hpos).mp
          (show (toDigits 10 (value s)).length ≤ minS.length by omega)
        omega
      · exact ⟨h2, .inr ⟨by omega, hcanon⟩⟩
    · rintro ⟨h2, ⟨hl, h1⟩ | ⟨hl, hcanon⟩⟩
      · rw [hl] at hvlt
        exact .inl ⟨hl, h1, by omega⟩
      · by_cases heq : s.length = minS.length + 1
        · refine .inr ⟨h2, .inl ⟨heq, ?_⟩⟩
          have hlong := (canonical_iff_length hs hcanon.2.1).mp hcanon
          by_contra hlt
          have hshort := (length_toDigits_le_iff hpos).mpr (Nat.lt_of_not_le hlt)
          omega
        · exact .inr ⟨h2, .inr ⟨by omega, hcanon⟩⟩

lemma toText_natCast (n : ℕ) : toText n = toDigits 10 n := by
  rw [toText, if_neg (by omega), Int.natAbs_natCast]

/-- **Between two numbers there are their canonical numerals.** -/
theorem altsText_rangeText {lo hi : ℕ} (hle : lo ≤ hi)
    (hhi : (toDigits 10 hi).length ≤ maxRepetitionThreshold) :
    Starts (rangeText lo hi) ∧ AltsText vocab ρ b (rangeText lo hi)
      (numerals fun s => Canonical s ∧ lo ≤ value s ∧ value s ≤ hi) := by
  have hmono := length_toDigits_mono hle
  have hvlo := value_toDigits lo
  have hvhi := value_toDigits hi
  have hloops := @altsText_rangesByLength vocab ρ b
    ((toDigits 10 hi).length - (toDigits 10 lo).length) _ _ _ (digits_toDigits lo) rfl
    length_toDigits_pos (canonical_toDigits hi) (by omega) (by omega)
    fun _ => by rw [hvlo, hvhi]; exact hle
  refine ⟨hloops.1, ?_⟩
  rw [← numerals_congr fun s hs => ?_]
  · exact hloops.2
  rw [UpTo, hvlo, hvhi]
  have hpos : ∀ n, 0 < (toDigits 10 n).length := fun n => length_toDigits_pos
  constructor
  · rintro ⟨h2, ⟨hl, h1⟩ | ⟨hl, hcanon⟩⟩
    · refine ⟨?_, h1, h2⟩
      rw [canonical_iff_length hs (length_pos_iff.mp (hl ▸ hpos lo)), hl]
      exact length_toDigits_mono h1
    · refine ⟨hcanon, ?_, h2⟩
      by_contra hlt
      have hshort := length_toDigits_mono (Nat.le_of_lt (Nat.lt_of_not_le hlt))
      have hlong := (canonical_iff_length hs hcanon.2.1).mp hcanon
      omega
  · rintro ⟨hcanon, h1, h2⟩
    refine ⟨h2, ?_⟩
    have hlong := length_toDigits_mono h1
    rw [hcanon.toDigits_value] at hlong
    rcases Nat.lt_or_eq_of_le hlong with hlt | heq
    · exact .inr ⟨hlt, hcanon⟩
    · exact .inl ⟨heq.symm, h1⟩

end Llama.Schema
