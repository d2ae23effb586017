import Llama.Grammar.Language
import Mathlib.Tactic.IntervalCases
import Mathlib.Tactic.Linarith

/-!
# Characters that are not complete

A token may end inside a UTF-8 sequence.  `match_partial_char` is to say whether the sequence
can go on to a code point that the set of characters accepts.  It compares the interval of
the possible code points with one range after the other and stops at the first that meets
it.  For an inverse set that is too early: one range rarely excludes the whole interval.  And
a range whose ends are reversed meets an interval without having a code point of it.
-/

namespace Llama.Grammar

open Cfg List Nat PartialUtf8

/-- The number of bytes of the shortest encoding of a code point. -/
def utf8Length (c : ℕ) : ℕ :=
  if c < 2 ^ 7 then 1 else if c < 2 ^ 11 then 2 else if c < 2 ^ 16 then 3 else 4

/-- The sequence can go on to code point `c`: continuation bytes for the missing ones give
`c`, and are not all that the shortest encoding of `c` has (which would be overlong). -/
def PartialUtf8.Completes (u : PartialUtf8) (c : ℕ) : Prop :=
  ∃ bs : List UInt8, (bs.length : ℤ) = u.nRemain ∧ (∀ b ∈ bs, isContinuation b = true) ∧
    bs.foldl pushByte u.value = c ∧ bs.length < utf8Length c

/-- The states that are left after decoding pieces, one after the other. -/
inductive PartialUtf8.Reached : PartialUtf8 → Prop
  | start : Reached ⟨0, 0⟩
  | decode {u : PartialUtf8} (h : Reached u) (piece : List UInt8) : Reached (decodeUtf8 piece u).2

/-- The range meets the possible code points: one of them is not below its lower end, and one
is not above its upper end. -/
def Meets (u : PartialUtf8) (r : CharRange) : Prop :=
  (∃ c, u.Completes c ∧ r.low ≤ c) ∧ ∃ c, u.Completes c ∧ c ≤ r.high.getD r.low

/-- When `match_partial_char` is right.  For an inverse set: no range meets the possible code
points, or the ranges have all of them.  Else: no range with reversed ends meets them, or
some range has one of them. -/
def PartialExact (u : PartialUtf8) : Sym → Prop
  | .chars true range ranges =>
    (∀ r ∈ range :: ranges, ¬ Meets u r) ∨
      ∀ c, u.Completes c → ∃ r ∈ range :: ranges, r.contains c = true
  | .chars false range ranges =>
    (∀ r ∈ range :: ranges, r.high.getD r.low < r.low → ¬ Meets u r) ∨
      ∃ r ∈ range :: ranges, ∃ c, u.Completes c ∧ r.contains c = true
  | _ => True

/-! ## The states of the decoder -/

/-- The value fits a code point of four bytes. -/
def PartialUtf8.Fits (value : ℕ) (n : ℤ) : Prop :=
  0 ≤ n → n ≤ 3 ∧ (value + 1) * 64 ^ n.toNat ≤ 2 ^ 22

lemma fits_pushByte {value : ℕ} {n : ℤ} (h : PartialUtf8.Fits value n) (hn : 0 < n) (b : UInt8) :
    PartialUtf8.Fits (pushByte value b) (n - 1) := by
  intro _
  obtain ⟨h3, hv⟩ := h hn.le
  have hb : b.toNat % 64 < 64 := mod_lt _ (by decide)
  have hpush : pushByte value b ≤ value * 64 + b.toNat % 64 := mod_le _ _
  refine ⟨by omega, ?_⟩
  have hn' : n.toNat = (n - 1).toNat + 1 := by omega
  rw [hn', pow_succ] at hv
  have hpow : 0 < 64 ^ (n - 1).toNat := by positivity
  nlinarith only [hv, hpush, hb, hpow]

lemma fits_firstValue (b : UInt8) (hb : lookup b ≠ 0) :
    PartialUtf8.Fits (firstValue b (lookup b - 1)) (lookup b - 1) := by
  intro _
  have hcases : lookup b = 1 ∨ lookup b = 2 ∨ lookup b = 3 ∨ lookup b = 4 := by
    have hlt := b.toNat_lt
    have h16 : b.toNat / 16 < 16 := by omega
    revert hb
    unfold lookup
    generalize b.toNat / 16 = k at h16
    interval_cases k <;> decide
  rw [firstValue]
  obtain h | h | h | h := hcases
  all_goals
    rw [h]
    simp only [Int.reduceToNat, Int.reduceSub, Int.reduceLE, cast_ofNat, cast_one,
      reducePow, true_and]
    omega

lemma fits_continuePending (bs : List UInt8) : ∀ {value : ℕ} {n : ℤ}
    {r : List UInt8 × ℕ × ℤ}, PartialUtf8.Fits value n → continuePending bs value n = some r →
      PartialUtf8.Fits r.2.1 r.2.2 := by
  induction bs with
  | nil =>
    intro value n r h hr
    cases hr
    exact h
  | cons b bs ih =>
    intro value n r h hr
    simp only [continuePending] at hr
    split at hr
    · rename_i hc
      split at hr
      · exact ih (fits_pushByte h hc.2 b) hr
      · cases hr
    · cases hr
      exact h

lemma fits_continueSequence (bs : List UInt8) : ∀ {value : ℕ} {n : ℤ},
    PartialUtf8.Fits value n → PartialUtf8.Fits (continueSequence bs value n).2.1
      (continueSequence bs value n).2.2 := by
  induction bs with
  | nil => exact fun h => h
  | cons b bs ih =>
    intro value n h
    simp only [continueSequence]
    split
    · rename_i hc
      exact ih (fits_pushByte h hc.2 b)
    · exact h

lemma fits_decodeLoop (k : ℕ) : ∀ {bs : List UInt8} {cps : List ℕ} {value : ℕ} {n : ℤ},
    PartialUtf8.Fits value n → PartialUtf8.Fits (decodeLoop k bs cps value n).2.value
      (decodeLoop k bs cps value n).2.nRemain := by
  induction k with
  | zero => exact fun h => h
  | succ k ih =>
    intro bs cps value n h
    cases bs with
    | nil => exact h
    | cons b bs =>
      simp only [decodeLoop]
      split
      · exact h
      · split
        · rename_i hneg
          exact fun h0 => absurd h0 (not_le.mpr hneg)
        · exact ih (fits_continueSequence bs (fits_firstValue b (by omega)))

variable {u : PartialUtf8}

/-- The decoder leaves at most three bytes missing, and a value of at most four bytes. -/
lemma PartialUtf8.Reached.fits (h : u.Reached) : PartialUtf8.Fits u.value u.nRemain := by
  induction h with
  | start => exact fun _ => ⟨by decide, by decide⟩
  | @decode u h piece ih =>
    unfold decodeUtf8
    split
    · exact fun h0 => absurd h0 (by decide)
    · rename_i bs value n hpending
      exact fits_decodeLoop _ (fits_continuePending piece ih hpending)

/-! ## The possible code points -/

/-- The lowest code point that the sequence can become. -/
def PartialUtf8.lowest (u : PartialUtf8) : ℕ :=
  if u.value * 64 ^ u.nRemain.toNat = 0 then
    if u.nRemain = 2 then 2 ^ 11 else if u.nRemain = 3 then 2 ^ 16 else 0
  else u.value * 64 ^ u.nRemain.toNat

/-- The highest code point that the sequence can become. -/
def PartialUtf8.highest (u : PartialUtf8) : ℕ :=
  u.value * 64 ^ u.nRemain.toNat + (64 ^ u.nRemain.toNat - 1)

/-- Some continuation bytes lead from one value to another exactly when the other is in the
interval of the values with these bytes. -/
lemma exists_continuation (n : ℕ) : ∀ {v c : ℕ}, (v + 1) * 64 ^ n ≤ 2 ^ 32 →
    ((∃ bs : List UInt8, bs.length = n ∧ (∀ b ∈ bs, isContinuation b = true) ∧
      bs.foldl pushByte v = c) ↔ v * 64 ^ n ≤ c ∧ c < (v + 1) * 64 ^ n) := by
  induction n with
  | zero =>
    intro v c _
    constructor
    · rintro ⟨bs, hlen, -, rfl⟩
      rw [length_eq_zero_iff.mp hlen, foldl_nil]
      omega
    · intro h
      exact ⟨[], rfl, fun b hb => absurd hb not_mem_nil, by rw [foldl_nil]; omega⟩
  | succ n ih =>
    intro v c hfits
    have hpow : 0 < 64 ^ n := by positivity
    rw [pow_succ] at hfits ⊢
    -- one more byte: the interval has 64 parts
    have hpush : ∀ b : UInt8, pushByte v b = v * 64 + b.toNat % 64 := by
      intro b
      refine mod_eq_of_lt ?_
      have hb : b.toNat % 64 < 64 := mod_lt _ (by decide)
      nlinarith only [hfits, hpow, hb]
    have hpart : ∀ x, x < 64 → (v * 64 + x + 1) * 64 ^ n ≤ 2 ^ 32 := by
      intro x hx
      nlinarith only [hfits, hpow, hx]
    constructor
    · rintro ⟨bs, hlen, hbs, rfl⟩
      cases bs with
      | nil => cases hlen
      | cons b bs =>
        have hb : b.toNat % 64 < 64 := mod_lt _ (by decide)
        have hrest := (ih (hpart _ hb)).mp ⟨bs, succ_injective hlen,
          fun b' hb' => hbs b' (mem_cons_of_mem _ hb'), rfl⟩
        rw [foldl_cons, hpush]
        constructor
        · refine le_trans ?_ hrest.1
          rw [Nat.mul_comm (64 ^ n), ← Nat.mul_assoc]
          exact Nat.mul_le_mul_right _ (Nat.le_add_right _ _)
        · nlinarith only [hrest.2, hpow, hb]
    · rintro ⟨hlow, hhigh⟩
      have hdiv : c / 64 ^ n * 64 ^ n ≤ c := div_mul_le_self _ _
      have hmod : c < (c / 64 ^ n + 1) * 64 ^ n := by
        rw [Nat.add_mul, Nat.one_mul]
        exact lt_div_mul_add hpow
      have hle : v * 64 ≤ c / 64 ^ n := by
        rw [Nat.le_div_iff_mul_le hpow]
        nlinarith only [hlow]
      have hlt : c / 64 ^ n < v * 64 + 64 := by
        rw [Nat.div_lt_iff_lt_mul hpow]
        nlinarith only [hhigh]
      obtain ⟨x, hx⟩ := Nat.exists_eq_add_of_le hle
      have hx64 : x < 64 := by omega
      rw [hx] at hdiv hmod
      obtain ⟨bs, hlen, hbs, hc⟩ := (ih (hpart x hx64)).mpr ⟨hdiv, hmod⟩
      have hbyte : (UInt8.ofNat (128 + x)).toNat = 128 + x := by
        rw [UInt8.toNat_ofNat']
        omega
      refine ⟨UInt8.ofNat (128 + x) :: bs, congrArg Nat.succ hlen, ?_, ?_⟩
      · intro b hb
        rcases mem_cons.mp hb with rfl | hb
        · rw [isContinuation, hbyte, decide_eq_true_eq]
          omega
        · exact hbs b hb
      · rw [foldl_cons, hpush, hbyte]
        have hx' : (128 + x) % 64 = x := by omega
        rw [hx', hc]

/-- The sequence of `n` more bytes can become the code points of an interval that are not
overlong. -/
lemma PartialUtf8.completes_iff (hu : PartialUtf8.Fits u.value u.nRemain) (hn : 0 ≤ u.nRemain)
    (c : ℕ) :
    u.Completes c ↔ u.value * 64 ^ u.nRemain.toNat ≤ c ∧
      c < (u.value + 1) * 64 ^ u.nRemain.toNat ∧ u.nRemain.toNat < utf8Length c := by
  obtain ⟨-, hfits⟩ := hu hn
  have hcont := exists_continuation u.nRemain.toNat (c := c) (hfits.trans (by norm_num))
  constructor
  · rintro ⟨bs, hlen, hbs, hc, hlong⟩
    have hlen' : bs.length = u.nRemain.toNat := by omega
    obtain ⟨hlow, hhigh⟩ := hcont.mp ⟨bs, hlen', hbs, hc⟩
    exact ⟨hlow, hhigh, hlen' ▸ hlong⟩
  · rintro ⟨hlow, hhigh, hlong⟩
    obtain ⟨bs, hlen, hbs, hc⟩ := hcont.mpr ⟨hlow, hhigh⟩
    exact ⟨bs, by omega, hbs, hc, hlen ▸ hlong⟩

/-- A sequence that `match_partial_char` gives up on. -/
def PartialUtf8.GivenUp (u : PartialUtf8) : Prop := u.nRemain < 0 ∨ u.nRemain = 1 ∧ u.value < 2

/-- There is nothing that a given up sequence can become. -/
lemma PartialUtf8.GivenUp.not_completes (h : u.GivenUp)
    (hu : PartialUtf8.Fits u.value u.nRemain) (c : ℕ) : ¬ u.Completes c := by
  intro hc
  rcases h with h | ⟨hn, hv⟩
  · obtain ⟨bs, hlen, -⟩ := hc
    omega
  · have hspec := (completes_iff hu (by omega) c).mp hc
    rw [hn] at hspec
    norm_num [utf8Length] at hspec
    split at hspec <;> omega

/-- The code points that the sequence can become are an interval. -/
lemma PartialUtf8.completes_iff_lowest (hu : PartialUtf8.Fits u.value u.nRemain)
    (h : ¬ u.GivenUp) :
    u.lowest ≤ u.highest ∧ ∀ c, u.Completes c ↔ u.lowest ≤ c ∧ c ≤ u.highest := by
  have hn : 0 ≤ u.nRemain := not_lt.mp fun hlt => h (.inl hlt)
  obtain ⟨h3, -⟩ := hu hn
  have hiff := completes_iff hu hn
  obtain ⟨value, n⟩ := u
  dsimp only [PartialUtf8.GivenUp, lowest, highest] at hn h3 h hiff ⊢
  simp only [hiff, utf8Length]
  obtain rfl | rfl | rfl | rfl : n = 0 ∨ n = 1 ∨ n = 2 ∨ n = 3 := by omega
  all_goals
    simp only [Int.reduceToNat, reducePow, true_and] at h ⊢
    refine ⟨?_, fun c => ?_⟩
    all_goals split_ifs <;> omega

/-! ## The loop over the ranges -/

/-- The test that the loop makes: the range and the interval of code points overlap. -/
def touches (low high : ℕ) (r : CharRange) : Bool := r.low ≤ high && low ≤ r.high.getD r.low

lemma scanPartialChar_range (positive : Bool) (low high : ℕ) (type : Gretype)
    (htype : type ≠ .charAny) (r : CharRange) (e : GrammarElement) (es : List GrammarElement)
    (he : e.type ≠ .charRngUpper) :
    scanPartialChar positive low high (r.elements type ++ e :: es) =
      if touches low high r = true then positive
      else if e.type = .charAlt then scanPartialChar positive low high (e :: es)
      else !positive := by
  obtain ⟨rlow, rhigh⟩ := r
  cases rhigh with
  | none =>
    simp [CharRange.elements, touches, scanPartialChar, he, htype, and_comm]
  | some rhigh => simp [CharRange.elements, touches, scanPartialChar, headElement]

/-- The loop of `match_partial_char` over the elements of a set of characters. -/
lemma scanPartialChar_ranges (positive : Bool) (low high : ℕ) (e : GrammarElement)
    (es : List GrammarElement) (he : startsSymbol e = true) (ranges : List CharRange) :
    ∀ (type : Gretype) (r : CharRange), type ≠ .charAny → scanPartialChar positive low high
        (r.elements type ++ (ranges.flatMap (CharRange.elements .charAlt) ++ e :: es)) =
          if (r :: ranges).any (touches low high) = true then positive else !positive := by
  simp only [startsSymbol, Bool.and_eq_true, decide_eq_true_eq] at he
  induction ranges with
  | nil =>
    intro type r htype
    rw [flatMap_nil, nil_append,
      scanPartialChar_range positive low high type htype r e es he.1, if_neg he.2]
    simp
  | cons r' ranges ih =>
    intro type r htype
    have hnext := ih .charAlt r' (by decide)
    rw [flatMap_cons, append_assoc]
    have hhead : r'.elements .charAlt = ⟨.charAlt, r'.low⟩ :: (r'.elements .charAlt).tail := rfl
    rw [hhead, cons_append] at hnext ⊢
    rw [scanPartialChar_range positive low high type htype r _ _ (by simp), if_pos rfl, hnext,
      any_cons (a := r)]
    cases touches low high r <;> simp

/-- What `match_partial_char` returns at a set of characters. -/
def partialAnswer (u : PartialUtf8) : Sym → Bool
  | .chars inverse range ranges =>
    (range :: ranges).any (touches u.lowest u.highest) != inverse
  | _ => true

/-- `match_partial_char` at a set of characters: a test of the ranges against the interval of
the possible code points. -/
lemma At.matchPartialChar_eq {rules : GrammarRules} {pos : ElementPtr} {s : Sym} {ss : List Sym}
    (hat : At rules pos (s :: ss)) (hs : s.isChar = true)
    (hu : PartialUtf8.Fits u.value u.nRemain) :
    (u.GivenUp → matchPartialChar rules pos u = .ok false) ∧
      (¬ u.GivenUp → matchPartialChar rules pos u = .ok (partialAnswer u s)) := by
  obtain ⟨e, es, hsuffix, hstart⟩ := hat.suffix_eq
  rw [matchPartialChar, PartialUtf8.GivenUp]
  simp only [Exec.assert, if_pos (hat.assert_isChar hs)]
  refine ⟨fun h => if_pos h, fun h => ?_⟩
  rw [if_neg h]
  have hn : 0 ≤ u.nRemain := not_lt.mp fun hlt => h (.inl hlt)
  obtain ⟨h3, hfits⟩ := hu hn
  have hpow : 2 ^ (u.nRemain.toNat * 6) = 64 ^ u.nRemain.toNat := by
    rw [Nat.mul_comm, pow_mul]
    norm_num
  have hpos : 0 < 64 ^ u.nRemain.toNat := by positivity
  have hlow : u.value * 2 ^ (u.nRemain.toNat * 6) % 2 ^ 32 = u.value * 64 ^ u.nRemain.toNat := by
    rw [hpow]
    rw [Nat.add_mul] at hfits
    omega
  have hhigh : u.value * 64 ^ u.nRemain.toNat ||| (2 ^ (u.nRemain.toNat * 6) - 1) = u.highest := by
    rw [← hpow, Nat.mul_comm, ← two_pow_add_eq_or_of_lt (by omega), Nat.mul_comm, hpow]
    rfl
  have hlowest : (if u.value * 64 ^ u.nRemain.toNat = 0 then
      if u.nRemain = 2 then 2 ^ 11 else if u.nRemain = 3 then 2 ^ 16
      else u.value * 64 ^ u.nRemain.toNat else u.value * 64 ^ u.nRemain.toNat) = u.lowest := by
    rw [lowest]
    split
    · rename_i hzero
      rw [hzero]
    · rfl
  simp only [hlow, hhigh, hlowest, hsuffix]
  cases s with
  | ref r => cases hs
  | token inverse id => cases hs
  | any =>
    simp only [Grammar.startsSymbol, Bool.and_eq_true, decide_eq_true_eq] at hstart
    simp [Sym.elements, scanPartialChar, partialAnswer, hstart.1]
  | chars inverse range ranges =>
    have hel : element rules pos = ⟨if inverse then .charNot else .char, range.low⟩ := by
      rw [element, hsuffix]
      rfl
    have hne : (if inverse then Gretype.charNot else .char) ≠ .charAny := by
      cases inverse <;> decide
    have hscan := scanPartialChar_ranges (isPositiveChar (element rules pos)) u.lowest u.highest e
      es hstart ranges _ range hne
    rw [Sym.elements, append_assoc, hscan, hel, partialAnswer]
    cases inverse
    · cases (range :: ranges).any (touches u.lowest u.highest) <;> simp [isPositiveChar]
    · cases (range :: ranges).any (touches u.lowest u.highest) <;> simp [isPositiveChar]

/-- Ranges overlap the interval of the possible code points when they meet them. -/
lemma touches_iff (hu : PartialUtf8.Fits u.value u.nRemain) (h : ¬ u.GivenUp) (r : CharRange) :
    touches u.lowest u.highest r = true ↔ Meets u r := by
  obtain ⟨hle, hiff⟩ := completes_iff_lowest hu h
  simp only [touches, Bool.and_eq_true, decide_eq_true_eq, Meets, hiff]
  constructor
  · rintro ⟨hlow, hhigh⟩
    exact ⟨⟨u.highest, ⟨hle, le_rfl⟩, hlow⟩, ⟨u.lowest, ⟨le_rfl, hle⟩, hhigh⟩⟩
  · rintro ⟨⟨c, hc, hlow⟩, ⟨c', hc', hhigh⟩⟩
    exact ⟨hlow.trans hc.2, hc'.1.trans hhigh⟩

/-- A range whose ends are not reversed has one of the code points that it meets. -/
lemma Meets.exists_contains (hu : PartialUtf8.Fits u.value u.nRemain) {r : CharRange}
    (hr : r.low ≤ r.high.getD r.low) (h : Meets u r) :
    ∃ c, u.Completes c ∧ r.contains c = true := by
  have hgiven : ¬ u.GivenUp := fun hg => hg.not_completes hu _ h.1.choose_spec.1
  obtain ⟨hle, hiff⟩ := completes_iff_lowest hu hgiven
  rw [← touches_iff hu hgiven, touches, Bool.and_eq_true, decide_eq_true_eq, decide_eq_true_eq] at h
  refine ⟨max u.lowest r.low, (hiff _).mpr ⟨le_max_left _ _, max_le hle h.1⟩, ?_⟩
  obtain ⟨low, high⟩ := r
  cases high with
  | none => simpa [CharRange.contains] using h.2
  | some high => simpa [CharRange.contains] using ⟨h.2, hr⟩

/-- A range meets the code points that it has. -/
lemma meets_of_contains {r : CharRange} {c : ℕ} (hc : u.Completes c) (h : r.contains c = true) :
    Meets u r := by
  obtain ⟨low, high⟩ := r
  cases high with
  | none =>
    have hlow : low = c := of_decide_eq_true h
    exact ⟨⟨c, hc, hlow.le⟩, ⟨c, hc, hlow.ge⟩⟩
  | some high =>
    simp only [CharRange.contains, Bool.and_eq_true, decide_eq_true_eq] at h
    exact ⟨⟨c, hc, h.1⟩, ⟨c, hc, h.2⟩⟩

/-- The answer of `match_partial_char` against the code points that are accepted. -/
lemma partialAnswer_iff (hu : PartialUtf8.Fits u.value u.nRemain) (h : ¬ u.GivenUp) {s : Sym}
    (hs : s.isChar = true) :
    (partialAnswer u s = true ↔ ∃ c, u.Completes c ∧ s.accepts c = true) ↔ PartialExact u s := by
  obtain ⟨hle, hiff⟩ := completes_iff_lowest hu h
  have hsome : u.Completes u.lowest := (hiff _).mpr ⟨le_rfl, hle⟩
  cases s with
  | ref r => cases hs
  | token inverse id => cases hs
  | any => exact iff_of_true (iff_of_true rfl ⟨_, hsome, rfl⟩) trivial
  | chars inverse range ranges =>
    have hany : (range :: ranges).any (touches u.lowest u.highest) = true ↔
        ∃ r ∈ range :: ranges, Meets u r := by
      rw [any_eq_true]
      exact exists_congr fun r => and_congr_right fun _ => touches_iff hu h r
    cases inverse with
    | false =>
      simp only [partialAnswer, Sym.accepts, Bool.bne_false, hany, any_eq_true]
      constructor
      · intro hagree
        refine or_iff_not_imp_right.mpr fun hnone r hr _ hmeets => ?_
        obtain ⟨c, hc, r', hr', hcon⟩ := hagree.mp ⟨r, hr, hmeets⟩
        exact hnone ⟨r', hr', c, hc, hcon⟩
      · rintro (hno | ⟨r, hr, c, hc, hcon⟩)
        · constructor
          · rintro ⟨r, hr, hmeets⟩
            have hends := not_lt.mp fun hrev => hno r hr hrev hmeets
            obtain ⟨c, hc, hcon⟩ := hmeets.exists_contains hu hends
            exact ⟨c, hc, r, hr, hcon⟩
          · rintro ⟨c, hc, r, hr, hcon⟩
            exact ⟨r, hr, meets_of_contains hc hcon⟩
        · exact iff_of_true ⟨r, hr, meets_of_contains hc hcon⟩ ⟨c, hc, r, hr, hcon⟩
    | true =>
      have hnot : partialAnswer u (.chars true range ranges) = true ↔
          ¬ ∃ r ∈ range :: ranges, Meets u r := by
        rw [← hany]
        simp [partialAnswer]
      have hout : ∀ c, (Sym.chars true range ranges).accepts c = true ↔
          ¬ ∃ r ∈ range :: ranges, r.contains c = true := by
        simp [Sym.accepts]
      simp only [hnot, hout]
      constructor
      · intro hagree
        refine or_iff_not_imp_left.mpr fun hmeets c hc => ?_
        by_contra hfree
        exact hmeets fun r hr hm => hagree.mpr ⟨c, hc, hfree⟩ ⟨r, hr, hm⟩
      · rintro (hno | hall)
        · refine iff_of_true (fun hm => ?_) ⟨_, hsome, fun hin => ?_⟩
          · obtain ⟨r, hr, hm⟩ := hm
            exact hno r hr hm
          · obtain ⟨r, hr, hcon⟩ := hin
            exact hno r hr (meets_of_contains hsome hcon)
        · refine iff_of_false (fun hm => ?_) ?_
          · obtain ⟨r, hr, hcon⟩ := hall _ hsome
            exact hm ⟨r, hr, meets_of_contains hsome hcon⟩
          · rintro ⟨c, hc, hfree⟩
            exact hfree (hall c hc)

/-- **When a partial character is matched right.**  For every state that the decoder can leave
and every set of characters, `match_partial_char` is true just if the sequence can go on to a
code point that `match_char` accepts, exactly when the set is `PartialExact`. -/
theorem matchPartialChar_iff {rules : GrammarRules} {pos : ElementPtr} {s : Sym} {ss : List Sym}
    (hat : At rules pos (s :: ss)) (hs : s.isChar = true) {u : PartialUtf8} (hu : u.Reached) :
    (matchPartialChar rules pos u = .ok true ↔
      ∃ c, u.Completes c ∧ ∃ next, matchChar rules pos c = .ok (true, next)) ↔
        PartialExact u s := by
  have haccept : ∀ c, (∃ next, matchChar rules pos c = .ok (true, next)) ↔ s.accepts c = true := by
    intro c
    rw [(hat.matchChar hs c).2]
    constructor
    · rintro ⟨next, h⟩
      exact congrArg Prod.fst (Exec.ok.inj h)
    · intro h
      exact ⟨_, by rw [h]⟩
  obtain ⟨hup, hanswer⟩ := hat.matchPartialChar_eq hs hu.fits
  simp only [haccept]
  by_cases h : u.GivenUp
  · have hnone := h.not_completes hu.fits
    rw [hup h]
    refine iff_of_true (iff_of_false (fun hc => by cases hc) ?_) ?_
    · rintro ⟨c, hc, -⟩
      exact hnone c hc
    · have hmeets : ∀ r, ¬ Meets u r := fun r hm => hnone _ hm.1.choose_spec.1
      cases s with
      | ref r => trivial
      | token inverse id => trivial
      | any => trivial
      | chars inverse range ranges =>
        cases inverse
        · exact .inl fun r _ _ => hmeets r
        · exact .inl fun r _ => hmeets r
  · rw [hanswer h, ← partialAnswer_iff hu.fits h hs]
    have hok : (Exec.ok (partialAnswer u s) = .ok true) = (partialAnswer u s = true) :=
      propext ⟨Exec.ok.inj, congrArg Exec.ok⟩
    rw [hok]

/-- `root ::= [^é]`. -/
def notEAcute : GrammarRules := [[⟨.charNot, 0xE9⟩, ⟨.end_, 0⟩]]

lemma notEAcute_at : At notEAcute (0, 0) [.chars true ⟨0xE9, none⟩ []] :=
  ⟨⟨.end_, 0⟩, [], rfl, rfl⟩

lemma reached_c3 : PartialUtf8.Reached ⟨3, 1⟩ := .decode .start [0xC3]

theorem matchPartialChar_iff_notEAcute : (matchPartialChar notEAcute (0, 0) ⟨3, 1⟩ = .ok true ↔
      ∃ c, PartialUtf8.Completes ⟨3, 1⟩ c ∧
        ∃ next, matchChar notEAcute (0, 0) c = .ok (true, next)) ↔
      PartialExact ⟨3, 1⟩ (.chars true ⟨0xE9, none⟩ []) :=
  matchPartialChar_iff notEAcute_at rfl reached_c3

/-- After the byte `C3` the set of all characters but `é` matches no continuation, though
`C3` `A8` is `è`. -/
theorem not_matchPartialChar_notEAcute :
    ¬ ∀ (rules : GrammarRules) (pos : ElementPtr) (s : Sym) (ss : List Sym) (u : PartialUtf8),
      At rules pos (s :: ss) → s.isChar = true → u.Reached →
        (matchPartialChar rules pos u = .ok true ↔
          ∃ c, u.Completes c ∧ ∃ next, matchChar rules pos c = .ok (true, next)) := by
  intro h
  have hmatch := (h notEAcute (0, 0) _ _ ⟨3, 1⟩ notEAcute_at rfl reached_c3).mpr
    ⟨0xE8, ⟨[0xA8], by decide, by simp [isContinuation], by decide, by decide⟩, (0, 1), by decide⟩
  revert hmatch
  decide

end Llama.Grammar
