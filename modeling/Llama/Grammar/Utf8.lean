import Llama.Grammar

/-!
# Pieces of text

`decodeUtf8` turns the bytes of a piece of text into code points, starting with the sequence
that the piece before left incomplete, and `acceptStr` feeds them to the grammar.

The decoder is a machine that reads one byte at a time (`scanByte`), but it checks the bytes
that continue a sequence only when the sequence was left over from the piece before, and on
an invalid first byte it drops the code points of the whole piece.
-/

namespace Llama.Grammar

open List Option

/-! ## `decode_utf8` -/

/-- The number of bytes of a sequence by its first byte, `0` for an invalid one. -/
def lookup (b : UInt8) : ℕ :=
  [1, 1, 1, 1, 1, 1, 1, 1, 0, 0, 0, 0, 2, 2, 3, 4].getD (b.toNat / 16) 0

/-- The value with the bits of one more byte. -/
def pushByte (value : ℕ) (b : UInt8) : ℕ := (value * 64 + b.toNat % 64) % 2 ^ 32

/-- The value of a first byte of a sequence with `n` more bytes. -/
def firstValue (b : UInt8) (n : ℤ) : ℕ := b.toNat % 2 ^ (7 - n).toNat

/-- Whether a byte continues a sequence. -/
def isContinuation (b : UInt8) : Bool := b.toNat / 64 = 2

/-- The loop that goes on with the sequence of the piece before; `none` stands for an
invalid byte.  A byte `0` is the end of the string. -/
def continuePending : List UInt8 → ℕ → ℤ → Option (List UInt8 × ℕ × ℤ)
  | [], value, nRemain => some ([], value, nRemain)
  | b :: bs, value, nRemain =>
    if b ≠ 0 ∧ 0 < nRemain then
      if isContinuation b then continuePending bs (pushByte value b) (nRemain - 1) else none
    else some (b :: bs, value, nRemain)

/-- The loop over the bytes of a sequence behind its first one. -/
def continueSequence : List UInt8 → ℕ → ℤ → List UInt8 × ℕ × ℤ
  | [], value, nRemain => ([], value, nRemain)
  | b :: bs, value, nRemain =>
    if b ≠ 0 ∧ 0 < nRemain then continueSequence bs (pushByte value b) (nRemain - 1)
    else (b :: bs, value, nRemain)

/-- The loop over the sequences; each of its rounds takes at least one byte. -/
def decodeLoop : ℕ → List UInt8 → List ℕ → ℕ → ℤ → List ℕ × PartialUtf8
  | 0, _, codePoints, value, nRemain => (codePoints ++ [0], ⟨value, nRemain⟩)
  | _ + 1, [], codePoints, value, nRemain => (codePoints ++ [0], ⟨value, nRemain⟩)
  | k + 1, b :: bs, codePoints, value, nRemain =>
    if b = 0 then (codePoints ++ [0], ⟨value, nRemain⟩)
    else
      let nRemain : ℤ := lookup b - 1
      if nRemain < 0 then ([0], ⟨0, nRemain⟩)
      else
        let (bs, value, nRemain) := continueSequence bs (firstValue b nRemain) nRemain
        decodeLoop k bs (if nRemain = 0 then codePoints ++ [value] else codePoints) value nRemain

/-- `decode_utf8`: the code points with a `0` behind them, and what is left incomplete. -/
def decodeUtf8 (src : List UInt8) (start : PartialUtf8) : List ℕ × PartialUtf8 :=
  match continuePending src start.value start.nRemain with
  | none => ([0], ⟨0, -1⟩)
  | some (bs, value, nRemain) =>
    decodeLoop src.length bs (if 0 < start.nRemain ∧ nRemain = 0 then [value] else []) value
      nRemain

/-- The stacks and the incomplete sequence of a grammar. -/
structure Progress where
  current : GrammarStacks
  partialUtf8 : PartialUtf8
  deriving DecidableEq, Repr

/-- The loop over code points. -/
def acceptAll (n : ℕ) (rules : GrammarRules) : List ℕ → GrammarStacks → Exec GrammarStacks
  | [], current => pure current
  | chr :: chrs, current => do
    let current ← accept n rules current chr
    acceptAll n rules chrs current

/-- `llama_grammar_accept_str`, which throws when no stack is left. -/
def acceptStr (n : ℕ) (rules : GrammarRules) (piece : List UInt8) (st : Progress) :
    Exec Progress := do
  let (codePoints, utf8) := decodeUtf8 piece st.partialUtf8
  let current ← acceptAll n rules codePoints.dropLast st.current
  if current = [] then .thrown else return ⟨current, utf8⟩

/-! ## The decoder byte by byte -/

/-- What the decoder has read: the code points, the value and the missing bytes. -/
structure Scan where
  codePoints : List ℕ
  value : ℕ
  nRemain : ℤ

/-- Add the value to the code points once no byte is missing. -/
def Scan.complete (sc : Scan) : Scan :=
  if sc.nRemain = 0 then { sc with codePoints := sc.codePoints ++ [sc.value] } else sc

/-- One byte: it continues the sequence, whatever its bits are, or starts one; `none` stands
for an invalid first byte. -/
def scanByte (sc : Scan) (b : UInt8) : Option Scan :=
  if 0 < sc.nRemain then
    some (Scan.complete ⟨sc.codePoints, pushByte sc.value b, sc.nRemain - 1⟩)
  else if lookup b = 0 then none
  else some (Scan.complete ⟨sc.codePoints, firstValue b (lookup b - 1), lookup b - 1⟩)

/-- A piece, byte by byte. -/
def scanBytes (sc : Scan) (bs : List UInt8) : Option Scan := bs.foldlM scanByte sc

lemma scanBytes_cons (sc : Scan) (b : UInt8) (bs : List UInt8) :
    scanBytes sc (b :: bs) = (scanByte sc b).bind fun sc => scanBytes sc bs := rfl

lemma scanBytes_append (sc : Scan) (as bs : List UInt8) :
    scanBytes sc (as ++ bs) = (scanBytes sc as).bind fun sc => scanBytes sc bs :=
  foldlM_append

/-- What the decoder returns. -/
def Scan.result : Option Scan → List ℕ × PartialUtf8
  | none => ([0], ⟨0, -1⟩)
  | some sc => (sc.codePoints ++ [0], ⟨sc.value, sc.nRemain⟩)

lemma Scan.complete_eq (cps : List ℕ) (value : ℕ) (n : ℤ) :
    Scan.complete ⟨cps, value, n⟩ = ⟨if n = 0 then cps ++ [value] else cps, value, n⟩ := by
  rw [Scan.complete]
  split <;> rfl

lemma continueSequence_spec (bs : List UInt8) (hbs : (0 : UInt8) ∉ bs) (cps : List ℕ) :
    ∀ (value : ℕ) (n : ℤ), 0 ≤ n → let out := continueSequence bs value n
      (0 : UInt8) ∉ out.1 ∧ out.1.length ≤ bs.length ∧ (out.2.2 ≤ 0 ∨ out.1 = []) ∧
        scanBytes (Scan.complete ⟨cps, value, n⟩) bs =
          scanBytes (Scan.complete ⟨cps, out.2.1, out.2.2⟩) out.1 := by
  induction bs with
  | nil => exact fun value n _ => ⟨not_mem_nil, le_rfl, .inr rfl, rfl⟩
  | cons b bs ih =>
    intro value n hn
    have hb : b ≠ 0 := fun h => hbs (h ▸ mem_cons_self)
    have hbs' : (0 : UInt8) ∉ bs := fun h => hbs (mem_cons_of_mem _ h)
    by_cases hpos : 0 < n
    · obtain ⟨h1, h2, h3, h4⟩ := ih hbs' (pushByte value b) (n - 1) (by omega)
      have hne : ¬ n = 0 := by omega
      rw [continueSequence, if_pos ⟨hb, hpos⟩]
      refine ⟨h1, h2.trans (Nat.le_succ _), h3, ?_⟩
      rw [← h4, Scan.complete, if_neg hne, scanBytes_cons, scanByte, if_pos hpos, bind_some]
    · rw [continueSequence, if_neg fun h => hpos h.2]
      exact ⟨hbs, le_rfl, .inl (not_lt.mp hpos), rfl⟩

/-- The loop of the decoder is the machine. -/
lemma decodeLoop_eq (k : ℕ) : ∀ {bs : List UInt8} {cps : List ℕ} {value : ℕ} {n : ℤ},
    (0 : UInt8) ∉ bs → bs.length ≤ k → n ≤ 0 ∨ bs = [] →
      decodeLoop k bs cps value n = Scan.result (scanBytes ⟨cps, value, n⟩ bs) := by
  induction k with
  | zero =>
    intro bs cps value n _ hlen _
    cases eq_nil_of_length_eq_zero (Nat.le_zero.mp hlen)
    rfl
  | succ k ih =>
    intro bs cps value n hbs hlen hn
    cases bs with
    | nil => rfl
    | cons b bs =>
      have hb : b ≠ 0 := fun h => hbs (h ▸ mem_cons_self)
      have hbs' : (0 : UInt8) ∉ bs := fun h => hbs (mem_cons_of_mem _ h)
      have hn : ¬ 0 < n := by
        rcases hn with h | h
        · omega
        · cases h
      rw [decodeLoop, if_neg hb, scanBytes_cons, scanByte, if_neg hn]
      by_cases hl : lookup b = 0
      · simp [hl, Scan.result]
      · have hpos : ¬ ((lookup b : ℤ) - 1 < 0) := by omega
        obtain ⟨h1, h2, h3, h4⟩ := continueSequence_spec bs hbs' cps
          (firstValue b (lookup b - 1)) (lookup b - 1) (by omega)
        simp only [if_neg hpos, if_neg hl, bind_some]
        rw [h4, Scan.complete_eq]
        refine ih h1 ?_ h3
        rw [length_cons] at hlen
        omega

/-- Each round of the loop reads a code point or leaves one incomplete. -/
lemma decodeLoop_ne_nil (k : ℕ) : ∀ {bs : List UInt8} {cps : List ℕ} {value : ℕ} {n : ℤ},
    (n = 0 → cps ≠ [] ∨ k ≠ 0 ∧ bs.headD 0 ≠ 0) → ∃ cps' utf8,
      decodeLoop k bs cps value n = (cps' ++ [0], utf8) ∧ (utf8.nRemain = 0 → cps' ≠ []) := by
  induction k with
  | zero =>
    intro bs cps value n h
    exact ⟨cps, ⟨value, n⟩, rfl, fun hn => (h hn).resolve_right fun h => h.1 rfl⟩
  | succ k ih =>
    intro bs cps value n h
    cases bs with
    | nil => exact ⟨cps, ⟨value, n⟩, rfl, fun hn => (h hn).resolve_right fun h => h.2 rfl⟩
    | cons b bs =>
      rw [decodeLoop]
      split
      · rename_i hb
        exact ⟨cps, ⟨value, n⟩, rfl, fun hn => (h hn).resolve_right fun h => h.2 hb⟩
      · by_cases hneg : (lookup b : ℤ) - 1 < 0
        · simp only [if_pos hneg]
          exact ⟨[], ⟨0, lookup b - 1⟩, rfl, fun hn => absurd hn hneg.ne⟩
        · simp only [if_neg hneg]
          refine ih fun hn => .inl ?_
          rw [if_pos hn]
          exact append_ne_nil_of_right_ne_nil _ (cons_ne_nil _ _)

/-- A piece that does not start with a `0` has a code point or ends in an incomplete or
invalid sequence. -/
lemma decodeUtf8_ne_nil {piece : List UInt8} (h : piece.headD 0 ≠ 0) (start : PartialUtf8) :
    ∃ cps utf8, decodeUtf8 piece start = (cps ++ [0], utf8) ∧ (utf8.nRemain = 0 → cps ≠ []) := by
  cases piece with
  | nil => exact absurd rfl h
  | cons b bs =>
    rw [decodeUtf8]
    cases hc : continuePending (b :: bs) start.value start.nRemain with
    | none => exact ⟨[], ⟨0, -1⟩, rfl, nofun⟩
    | some res =>
      refine decodeLoop_ne_nil _ fun hn => ?_
      by_cases hpos : 0 < start.nRemain
      · exact .inl (by rw [if_pos ⟨hpos, hn⟩]; exact cons_ne_nil _ _)
      · rw [continuePending, if_neg fun h => hpos h.2] at hc
        cases hc
        exact .inr ⟨Nat.succ_ne_zero _, h⟩

/-! ## Rejected pieces -/

/-- The number of bytes missing after a piece when `n` are missing before it; `none` stands
for an invalid first byte. -/
def missingAfter (n : ℤ) : List UInt8 → Option ℤ
  | [] => some n
  | b :: bs => if 0 < n then missingAfter (n - 1) bs
    else if lookup b = 0 then none else missingAfter (lookup b - 1) bs

/-- The decoder rejects the piece when `n` bytes are missing before it: one of the bytes
that have to continue the sequence does not, or a first byte is invalid. -/
def Rejects (n : ℤ) (bs : List UInt8) : Prop :=
  (bs.take n.toNat).all isContinuation = false ∨ missingAfter n bs = none

instance (n : ℤ) (bs : List UInt8) : Decidable (Rejects n bs) :=
  inferInstanceAs (Decidable (_ ∨ _))

/-- The bytes complete no code point when `n` are missing. -/
def Incomplete (n : ℤ) : List UInt8 → Prop
  | [] => True
  | b :: bs => ((b :: bs).length : ℤ) < if 0 < n then n else lookup b

instance (n : ℤ) : (bs : List UInt8) → Decidable (Incomplete n bs)
  | [] => inferInstanceAs (Decidable True)
  | _ :: _ => inferInstanceAs (Decidable (_ < _))

lemma missingAfter_eq (bs : List UInt8) : ∀ sc : Scan,
    missingAfter sc.nRemain bs = (scanBytes sc bs).map Scan.nRemain := by
  induction bs with
  | nil => intro sc; rfl
  | cons b bs ih =>
    intro sc
    rw [missingAfter, scanBytes_cons, scanByte]
    split
    · rw [bind_some, ← ih, Scan.complete_eq]
    · split
      · rfl
      · rw [bind_some, ← ih, Scan.complete_eq]

/-- Code points read before stay in front. -/
lemma scanBytes_codePoints (bs : List UInt8) : ∀ (cps cps' : List ℕ) (value : ℕ) (n : ℤ),
    scanBytes ⟨cps ++ cps', value, n⟩ bs = (scanBytes ⟨cps', value, n⟩ bs).map fun sc =>
      ⟨cps ++ sc.codePoints, sc.value, sc.nRemain⟩ := by
  induction bs with
  | nil => intro cps cps' value n; rfl
  | cons b bs ih =>
    intro cps cps' value n
    have hcomplete : ∀ (v : ℕ) (m : ℤ), scanBytes (Scan.complete ⟨cps ++ cps', v, m⟩) bs =
          (scanBytes (Scan.complete ⟨cps', v, m⟩) bs).map fun sc =>
            ⟨cps ++ sc.codePoints, sc.value, sc.nRemain⟩ := by
      intro v m
      rw [Scan.complete_eq, Scan.complete_eq]
      split
      · rw [append_assoc, ih]
      · rw [ih]
    simp only [scanBytes_cons, scanByte]
    split
    · exact hcomplete _ _
    · split
      · rfl
      · exact hcomplete _ _

lemma take_toNat_cons {n : ℤ} (hpos : 0 < n) (b : UInt8) (bs : List UInt8) :
    (b :: bs).take n.toNat = b :: bs.take (n - 1).toNat := by
  have hn : n.toNat = (n - 1).toNat + 1 := by omega
  rw [hn, take_succ_cons]

lemma continuePending_eq_none (bs : List UInt8) (hbs : (0 : UInt8) ∉ bs) :
    ∀ (value : ℕ) (n : ℤ), (bs.take n.toNat).all isContinuation = false →
      continuePending bs value n = none := by
  induction bs with
  | nil => intro value n h; simp at h
  | cons b bs ih =>
    intro value n h
    have hb : b ≠ 0 := fun h => hbs (h ▸ mem_cons_self)
    have hpos : 0 < n := by
      by_contra hle
      have hzero : n.toNat = 0 := by omega
      simp [hzero] at h
    rw [take_toNat_cons hpos, all_cons, Bool.and_eq_false_iff] at h
    rw [continuePending, if_pos (And.intro hb hpos)]
    split
    · rename_i hc
      rw [hc] at h
      exact ih (fun h => hbs (mem_cons_of_mem _ h)) _ _ (h.resolve_left (by simp))
    · rfl

lemma continuePending_spec (bs : List UInt8) (hbs : (0 : UInt8) ∉ bs) :
    ∀ (value : ℕ) (n : ℤ), (bs.take n.toNat).all isContinuation = true →
      ∃ bs' v n', continuePending bs value n = some (bs', v, n') ∧ (0 : UInt8) ∉ bs' ∧
        bs'.length ≤ bs.length ∧ (n' ≤ 0 ∨ bs' = []) ∧
        scanBytes ⟨[], value, n⟩ bs =
          scanBytes ⟨if 0 < n ∧ n' = 0 then [v] else [], v, n'⟩ bs' := by
  induction bs with
  | nil =>
    intro value n _
    refine ⟨[], value, n, rfl, not_mem_nil, le_rfl, .inr rfl, ?_⟩
    rw [if_neg (by omega)]
  | cons b bs ih =>
    intro value n h
    have hb : b ≠ 0 := fun h => hbs (h ▸ mem_cons_self)
    have hbs' : (0 : UInt8) ∉ bs := fun h => hbs (mem_cons_of_mem _ h)
    by_cases hpos : 0 < n
    · rw [take_toNat_cons hpos, all_cons, Bool.and_eq_true] at h
      obtain ⟨bs', v, n', h1, h2, h3, h4, h5⟩ := ih hbs' (pushByte value b) (n - 1) h.2
      rw [continuePending, if_pos (And.intro hb hpos), if_pos h.1]
      refine ⟨bs', v, n', h1, h2, h3.trans (Nat.le_succ _), h4, ?_⟩
      rw [scanBytes_cons, scanByte, if_pos hpos, bind_some, Scan.complete_eq]
      by_cases hzero : n - 1 = 0
      · -- the sequence is complete, and the loop stops
        have hstop : continuePending bs (pushByte value b) (n - 1) =
            some (bs, pushByte value b, n - 1) := by
          cases bs with
          | nil => rfl
          | cons c bs => rw [continuePending, if_neg fun h => absurd h.2 (by omega)]
        rw [hstop] at h1
        cases h1
        rw [if_pos hzero, if_pos ⟨hpos, hzero⟩]
        rfl
      · rw [if_neg hzero, h5]
        have hiff : (0 < n - 1 ∧ n' = 0) ↔ (0 < n ∧ n' = 0) := by omega
        simp only [hiff]
    · rw [continuePending, if_neg fun h => hpos h.2]
      refine ⟨b :: bs, value, n, rfl, hbs, le_rfl, .inl (not_lt.mp hpos), ?_⟩
      rw [if_neg fun h => hpos h.1]

/-- What the decoder reads, unless it rejects the piece. -/
def scanPiece (bs : List UInt8) (start : PartialUtf8) : Option Scan :=
  if (bs.take start.nRemain.toNat).all isContinuation then
    scanBytes ⟨[], start.value, start.nRemain⟩ bs
  else none

variable {bs as : List UInt8} {start : PartialUtf8} {sc : Scan}

/-- **The decoder** is the machine, with a check of the bytes that continue the sequence of
the piece before. -/
theorem decodeUtf8_eq (hbs : (0 : UInt8) ∉ bs) (start : PartialUtf8) :
    decodeUtf8 bs start = Scan.result (scanPiece bs start) := by
  rw [decodeUtf8, scanPiece]
  by_cases h : (bs.take start.nRemain.toNat).all isContinuation = true
  · obtain ⟨bs', v, n', h1, h2, h3, h4, h5⟩ := continuePending_spec bs hbs start.value _ h
    rw [h1, if_pos h, h5]
    exact decodeLoop_eq _ h2 h3 h4
  · rw [if_neg h, continuePending_eq_none bs hbs _ _ (by simpa using h)]
    rfl

lemma scanPiece_eq_none : scanPiece bs start = none ↔ Rejects start.nRemain bs := by
  have hmiss := missingAfter_eq bs ⟨[], start.value, start.nRemain⟩
  rw [scanPiece, Rejects, hmiss]
  by_cases h : (bs.take start.nRemain.toNat).all isContinuation = true
  · simp [h]
  · simp [h]

/-! ## Two pieces in a row -/

lemma missingAfter_append (as bs : List UInt8) : ∀ n : ℤ,
    missingAfter n (as ++ bs) = (missingAfter n as).bind fun m => missingAfter m bs := by
  induction as with
  | nil => intro n; rfl
  | cons a as ih =>
    intro n
    rw [cons_append, missingAfter, missingAfter]
    split
    · exact ih _
    · split
      · rfl
      · exact ih _

lemma missingAfter_of_lt (as : List UInt8) : ∀ n : ℤ, (as.length : ℤ) < n →
    missingAfter n as = some (n - as.length) := by
  induction as with
  | nil => intro n _; simp [missingAfter]
  | cons a as ih =>
    intro n hn
    rw [length_cons] at hn ⊢
    rw [missingAfter, if_pos (by omega), ih _ (by omega)]
    congr 1
    omega

lemma Rejects.append {n : ℤ} (h : Rejects n as) (bs : List UInt8) : Rejects n (as ++ bs) := by
  rcases h with h | h
  · left
    rw [take_append, all_append, h, Bool.false_and]
  · right
    rw [missingAfter_append, h, bind_none]

/-- A piece that is rejected in one with the piece before is rejected behind it. -/
lemma rejects_of_append {n m : ℤ} (h : Rejects n (as ++ bs)) (ha : ¬ Rejects n as)
    (hm : missingAfter n as = some m) : Rejects m bs := by
  rw [Rejects, not_or] at ha
  rcases h with h | h
  · left
    rw [take_append, all_append, Bool.and_eq_false_iff] at h
    have h := h.resolve_left ha.1
    by_cases hlt : (as.length : ℤ) < n
    · rw [missingAfter_of_lt as n hlt] at hm
      cases hm
      have htake : (n - as.length).toNat = n.toNat - as.length := by omega
      rwa [htake]
    · have hzero : n.toNat - as.length = 0 := by omega
      simp [hzero] at h
  · right
    rwa [missingAfter_append, hm] at h

/-- While the first sequence is open, no code point is read. -/
lemma codePoints_eq_nil_of_pos (bs : List UInt8) : ∀ {value : ℕ} {n : ℤ} {sc : Scan}, 0 < n →
    scanBytes ⟨[], value, n⟩ bs = some sc → (sc.codePoints = [] ↔ (bs.length : ℤ) < n) := by
  induction bs with
  | nil =>
    intro value n sc hn h
    cases h
    simpa using hn
  | cons b bs ih =>
    intro value n sc hn h
    simp only [scanBytes_cons, scanByte, if_pos hn, bind_some, Scan.complete_eq] at h
    rw [length_cons]
    by_cases hone : n - 1 = 0
    · rw [if_pos hone, ← append_nil ([] ++ [_]), scanBytes_codePoints] at h
      obtain ⟨sc', -, rfl⟩ := map_eq_some_iff.mp h
      exact iff_of_false (by simp) (by omega)
    · rw [if_neg hone] at h
      rw [ih (by omega) h]
      omega

lemma codePoints_eq_nil {value : ℕ} {n : ℤ} (h : scanBytes ⟨[], value, n⟩ bs = some sc) :
    sc.codePoints = [] ↔ Incomplete n bs := by
  cases bs with
  | nil =>
    cases h
    simp [Incomplete]
  | cons b bs =>
    rw [Incomplete]
    by_cases hn : 0 < n
    · rw [if_pos hn]
      exact codePoints_eq_nil_of_pos _ hn h
    · rw [scanBytes_cons, scanByte, if_neg hn] at h
      split at h
      · cases h
      · rw [bind_some, Scan.complete_eq] at h
        rw [length_cons]
        by_cases hone : (lookup b : ℤ) - 1 = 0
        · rw [if_pos hone, ← append_nil ([] ++ [_]), scanBytes_codePoints] at h
          obtain ⟨sc', -, rfl⟩ := map_eq_some_iff.mp h
          exact iff_of_false (by simp) (by omega)
        · rw [if_neg hone] at h
          rw [codePoints_eq_nil_of_pos _ (by omega) h]
          omega

/-- The cut between two pieces makes no difference when `n` bytes are missing before them.
Either the decoder rejects neither; or it rejects the second, also in one with the first,
and the first completes no code point; or it rejects the first, and the second is empty or
is rejected as well. -/
def Splits (n : ℤ) (as bs : List UInt8) : Prop :=
  if Rejects n as then bs = [] ∨ Rejects (-1) bs
  else ∀ m ∈ missingAfter n as, Rejects m bs → Rejects n (as ++ bs) ∧ Incomplete n as

/-- What a scan of a piece leaves. -/
def Scan.partialUtf8 (sc : Scan) : PartialUtf8 := ⟨sc.value, sc.nRemain⟩

lemma scanPiece_eq_some (h : scanPiece bs start = some sc) :
    (bs.take start.nRemain.toNat).all isContinuation = true ∧
      scanBytes ⟨[], start.value, start.nRemain⟩ bs = some sc := by
  rw [scanPiece] at h
  split at h
  · rename_i hall
    exact ⟨hall, h⟩
  · cases h

lemma missingAfter_of_scanPiece (h : scanPiece bs start = some sc) :
    missingAfter start.nRemain bs = some sc.nRemain := by
  have hmiss := missingAfter_eq bs ⟨[], start.value, start.nRemain⟩
  rwa [(scanPiece_eq_some h).2] at hmiss

/-- Two pieces that are not rejected give what both give in one. -/
lemma scanPiece_append (h : scanPiece as start = some sc) (hb : ¬ Rejects sc.nRemain bs) :
    scanPiece (as ++ bs) start = (scanPiece bs sc.partialUtf8).map fun sc' =>
      ⟨sc.codePoints ++ sc'.codePoints, sc'.value, sc'.nRemain⟩ := by
  have ha : ¬ Rejects start.nRemain as := by
    rw [← scanPiece_eq_none, h]
    exact nofun
  have hall : ¬ Rejects start.nRemain (as ++ bs) := fun hr =>
    hb (rejects_of_append hr ha (missingAfter_of_scanPiece h))
  have hcheck : ((as ++ bs).take start.nRemain.toNat).all isContinuation = true := by
    rw [Rejects, not_or] at hall
    simpa using hall.1
  have hcheck' : (bs.take sc.nRemain.toNat).all isContinuation = true := by
    rw [Rejects, not_or] at hb
    simpa using hb.1
  have hscan := scanBytes_codePoints bs sc.codePoints [] sc.value sc.nRemain
  rw [append_nil] at hscan
  have hpiece : scanPiece bs sc.partialUtf8 = scanBytes ⟨[], sc.value, sc.nRemain⟩ bs :=
    if_pos hcheck'
  rw [hpiece, scanPiece, if_pos hcheck, scanBytes_append, (scanPiece_eq_some h).2, bind_some]
  exact hscan

/-! ## Accepting pieces -/

lemma acceptAll_append (n : ℕ) (rules : GrammarRules) (cs ds : List ℕ) :
    ∀ current, acceptAll n rules (cs ++ ds) current =
      acceptAll n rules cs current >>= acceptAll n rules ds := by
  induction cs with
  | nil => intro current; rfl
  | cons c cs ih =>
    intro current
    rw [cons_append, acceptAll, acceptAll, Exec.bind_assoc]
    congr 1
    funext current'
    exact ih current'

lemma acceptAll_nil (n : ℕ) (rules : GrammarRules) (cs : List ℕ) :
    acceptAll n rules cs [] = .ok [] := by
  induction cs with
  | nil => rfl
  | cons c cs ih => exact ih

/-- Throw when no stack is left. -/
def checkStacks (current : GrammarStacks) (utf8 : PartialUtf8) : Exec Progress :=
  if current = [] then .thrown else .ok ⟨current, utf8⟩

@[simp] lemma checkStacks_cons (stack : GrammarStack) (current : GrammarStacks)
    (utf8 : PartialUtf8) :
    checkStacks (stack :: current) utf8 = .ok ⟨stack :: current, utf8⟩ := rfl

lemma acceptStr_of_none {n : ℕ} {rules : GrammarRules} {st : Progress} (hbs : (0 : UInt8) ∉ bs)
    (h : scanPiece bs st.partialUtf8 = none) :
    acceptStr n rules bs st = checkStacks st.current ⟨0, -1⟩ := by
  rw [acceptStr, decodeUtf8_eq hbs, h]
  rfl

lemma acceptStr_of_some {n : ℕ} {rules : GrammarRules} {st : Progress} (hbs : (0 : UInt8) ∉ bs)
    (h : scanPiece bs st.partialUtf8 = some sc) :
    acceptStr n rules bs st = acceptAll n rules sc.codePoints st.current >>= fun current =>
        checkStacks current sc.partialUtf8 := by
  rw [acceptStr, decodeUtf8_eq hbs, h]
  simp only [Scan.result, dropLast_concat]
  rfl

/-- The two ways of accepting the pieces agree in the grammar state. -/
def Agrees (n : ℕ) (rules : GrammarRules) (st : Progress) (as bs : List UInt8) : Prop :=
  (acceptStr n rules as st >>= acceptStr n rules bs) = acceptStr n rules (as ++ bs) st

lemma agrees_of_splits (ha : (0 : UInt8) ∉ as) (hb : (0 : UInt8) ∉ bs) {st : Progress}
    (h : Splits st.partialUtf8.nRemain as bs) (n : ℕ) (rules : GrammarRules) :
    Agrees n rules st as bs := by
  have hab : (0 : UInt8) ∉ as ++ bs := fun h => (mem_append.mp h).elim ha hb
  rw [Splits] at h
  rw [Agrees]
  cases hsa : scanPiece as st.partialUtf8 with
  | none =>
    have hrej := scanPiece_eq_none.mp hsa
    rw [if_pos hrej] at h
    have hsab := scanPiece_eq_none.mpr (hrej.append bs)
    rw [acceptStr_of_none ha hsa, acceptStr_of_none hab hsab, checkStacks]
    split
    · rfl
    · rename_i hne
      rw [Exec.ok_bind]
      rcases h with rfl | h
      · exact if_neg hne
      · have hsb : scanPiece bs ⟨0, -1⟩ = none := scanPiece_eq_none.mpr h
        rw [acceptStr_of_none hb hsb]
        exact if_neg hne
  | some sc =>
    have hrej : ¬ Rejects st.partialUtf8.nRemain as := by
      rw [← scanPiece_eq_none, hsa]
      exact nofun
    rw [if_neg hrej] at h
    have h := h sc.nRemain (missingAfter_of_scanPiece hsa)
    rw [acceptStr_of_some ha hsa, Exec.bind_assoc]
    by_cases hrb : Rejects sc.nRemain bs
    · obtain ⟨hrab, hinc⟩ := h hrb
      have hnil := (codePoints_eq_nil (scanPiece_eq_some hsa).2).mpr hinc
      have hsb : scanPiece bs sc.partialUtf8 = none := scanPiece_eq_none.mpr hrb
      rw [acceptStr_of_none hab (scanPiece_eq_none.mpr hrab), hnil, acceptAll, Exec.pure_eq,
        Exec.ok_bind, checkStacks, checkStacks]
      split
      · rfl
      · rename_i hne
        rw [Exec.ok_bind, acceptStr_of_none hb hsb]
        exact if_neg hne
    · cases hsb : scanPiece bs sc.partialUtf8 with
      | none => exact absurd (scanPiece_eq_none.mp hsb) hrb
      | some sc' =>
        have hsab := scanPiece_append hsa hrb
        rw [hsb] at hsab
        rw [acceptStr_of_some hab hsab, acceptAll_append, Exec.bind_assoc]
        congr 1
        funext current
        rw [checkStacks]
        split
        · rename_i hempty
          rw [hempty, acceptAll_nil]
          rfl
        · rw [Exec.ok_bind, acceptStr_of_some hb hsb]
          rfl

/-! ## Cuts that make a difference -/

lemma nRemain_nonneg (bs : List UInt8) : ∀ {sc sc' : Scan}, scanBytes sc bs = some sc' →
    bs ≠ [] ∨ 0 ≤ sc.nRemain → 0 ≤ sc'.nRemain := by
  induction bs with
  | nil =>
    intro sc sc' h hn
    cases h
    exact hn.resolve_left fun h => h rfl
  | cons b bs ih =>
    intro sc sc' h _
    rw [scanBytes_cons, scanByte] at h
    split at h
    · refine ih h (.inr ?_)
      rw [Scan.complete_eq]
      change 0 ≤ sc.nRemain - 1
      omega
    · split at h
      · cases h
      · refine ih h (.inr ?_)
        rw [Scan.complete_eq]
        change 0 ≤ (lookup b : ℤ) - 1
        omega

/-- `root ::= . root | ""`. -/
def anyText : GrammarRules := [[⟨.charAny, 0⟩, ⟨.ruleRef, 0⟩, ⟨.alt, 0⟩, ⟨.end_, 0⟩]]

lemma acceptAll_anyText (cs : List ℕ) :
    acceptAll 4 anyText cs [[], [(0, 0)]] = .ok [[], [(0, 0)]] := by
  induction cs with
  | nil => rfl
  | cons c cs ih =>
    exact ih

/-- `root ::= .`. -/
def anyChar : GrammarRules := [[⟨.charAny, 0⟩, ⟨.end_, 0⟩]]

lemma acceptAll_anyChar (c : ℕ) (cs : List ℕ) :
    acceptAll 2 anyChar (c :: cs) [[(0, 0)]] = .ok (if cs = [] then [[]] else []) := by
  cases cs with
  | nil => rfl
  | cons d ds => exact acceptAll_nil 2 anyChar ds

/-- **The cuts that make no difference.**  Accepting two pieces one after the other gives in
every grammar and from all stacks what accepting both in one gives, exactly when the cut
between them splits. -/
theorem agrees_iff {as bs : List UInt8} (ha : (0 : UInt8) ∉ as) (hb : (0 : UInt8) ∉ bs)
    (utf8 : PartialUtf8) :
    (∀ n rules current, Agrees n rules ⟨current, utf8⟩ as bs) ↔ Splits utf8.nRemain as bs := by
  refine ⟨fun h => ?_, fun h n rules current => agrees_of_splits ha hb h n rules⟩
  have hab : (0 : UInt8) ∉ as ++ bs := fun h => (List.mem_append.mp h).elim ha hb
  rw [Splits]
  split
  · rename_i hrej
    have hsa : scanPiece as utf8 = none := scanPiece_eq_none.mpr hrej
    have hsab : scanPiece (as ++ bs) utf8 = none := scanPiece_eq_none.mpr (hrej.append bs)
    by_contra hno
    rw [not_or] at hno
    cases hsb : scanPiece bs ⟨0, -1⟩ with
    | none => exact hno.2 (scanPiece_eq_none.mp hsb)
    | some sc =>
      -- the second piece is decoded as if nothing had been rejected
      have hagree := h 0 [] [[]]
      rw [Agrees, acceptStr_of_none ha hsa, acceptStr_of_none hab hsab, checkStacks_cons,
        Exec.ok_bind, acceptStr_of_some hb hsb] at hagree
      obtain ⟨current, -, hcheck⟩ := Exec.bind_eq_ok.mp hagree
      have hn := nRemain_nonneg bs (scanPiece_eq_some hsb).2 (.inl hno.1)
      rw [checkStacks] at hcheck
      split at hcheck
      · cases hcheck
      · have hval : sc.nRemain = -1 :=
          congrArg PartialUtf8.nRemain (congrArg Progress.partialUtf8 (Exec.ok.inj hcheck))
        omega
  · rename_i hrej
    intro m hm hrb
    cases hsa : scanPiece as utf8 with
    | none => exact absurd (scanPiece_eq_none.mp hsa) hrej
    | some sc =>
      have hmsc : m = sc.nRemain := by
        have := missingAfter_of_scanPiece hsa
        rw [this] at hm
        exact (Option.some.inj hm).symm
      have hsb : scanPiece bs sc.partialUtf8 = none := by
        rw [hmsc] at hrb
        exact scanPiece_eq_none.mpr hrb
      have hne : bs ≠ [] := by
        rintro rfl
        simp [Rejects, missingAfter] at hrb
      have hrab : Rejects utf8.nRemain (as ++ bs) := by
        by_contra hgood
        cases hsab : scanPiece (as ++ bs) utf8 with
        | none => exact hgood (scanPiece_eq_none.mp hsab)
        | some sc' =>
          have hagree := h 4 anyText [[], [(0, 0)]]
          rw [Agrees, acceptStr_of_some ha hsa, acceptStr_of_some hab hsab, acceptAll_anyText,
            acceptAll_anyText, Exec.ok_bind, Exec.ok_bind, checkStacks_cons, checkStacks_cons,
            Exec.ok_bind, acceptStr_of_none hb hsb, checkStacks_cons] at hagree
          have hn := nRemain_nonneg _ (scanPiece_eq_some hsab).2
            (.inl (List.append_ne_nil_of_right_ne_nil as hne))
          have hval : -1 = sc'.nRemain :=
            congrArg PartialUtf8.nRemain (congrArg Progress.partialUtf8 (Exec.ok.inj hagree))
          omega
      refine ⟨hrab, ?_⟩
      rw [← codePoints_eq_nil (scanPiece_eq_some hsa).2]
      by_contra hcps
      obtain ⟨c, cs, hcs⟩ := List.exists_cons_of_ne_nil hcps
      have hagree := h 2 anyChar [[(0, 0)]]
      rw [Agrees, acceptStr_of_some ha hsa, acceptStr_of_none hab (scanPiece_eq_none.mpr hrab), hcs,
        acceptAll_anyChar, Exec.ok_bind] at hagree
      by_cases hone : cs = []
      · rw [if_pos hone, checkStacks_cons, Exec.ok_bind, acceptStr_of_none hb hsb, checkStacks_cons,
          checkStacks_cons] at hagree
        exact absurd (congrArg Progress.current (Exec.ok.inj hagree)) (by decide)
      · rw [if_neg hone] at hagree
        cases hagree

theorem agrees_iff_letters :
    (∀ n rules current, Agrees n rules ⟨current, ⟨0, 0⟩⟩ [97] [98]) ↔ Splits 0 [97] [98] :=
  agrees_iff (by decide) (by decide) ⟨0, 0⟩

/-- The sequence `C3` `41` is decoded in one piece, but rejected when it is cut. -/
theorem not_agrees_cutSequence :
    ¬ ∀ n rules current, Agrees n rules ⟨current, ⟨0, 0⟩⟩ [0xC3] [0x41] := by
  intro h
  have hagree : Agrees 4 anyText ⟨[[], [(0, 0)]], ⟨0, 0⟩⟩ [0xC3] [0x41] := h _ _ _
  revert hagree
  unfold Agrees
  decide

end Llama.Grammar
