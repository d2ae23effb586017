import Llama.Grammar.Reading
import Llama.Lib.Numeral
import Mathlib.Tactic.IntervalCases

/-!
# Texts of grammars that are written piece by piece

A program that writes a grammar puts items, repetitions, sequences and alternates together as text.
A piece of text has a language when it is read as such wherever it stands, as long as what follows
does not go on with it.  There is one lemma for each way of putting texts together.
-/

namespace Llama.Gbnf

open Cfg GrammarParser Copies List Nat

/-- The code points of a text. -/
def codes (s : List Char) : List ℕ := s.map Char.toNat

/-! ## White space -/

/-- Characters that `parse_space` may skip. -/
def isBlank (c : Char) : Bool := c = ' ' || c = '\t' || c = '\r' || c = '\n' || c = '#'

variable {c : Char}

lemma skipSpace_cons (hc : isBlank c = false) (b : Bool) (cs : List Char) :
    skipSpace b (c :: cs) = c :: cs := by
  simp only [isBlank, Bool.or_eq_false_iff, decide_eq_false_iff_not] at hc
  simp [skipSpace, parseSpace, hc]

lemma skipSpace_space (b : Bool) (cs : List Char) : skipSpace b (' ' :: cs) = skipSpace b cs := by
  simp [skipSpace, parseSpace]

lemma isBlank_of_startsItem (h : startsItem c = true) : isBlank c = false := by
  rw [Bool.eq_false_iff]
  intro hc
  simp only [isBlank, Bool.or_eq_true, decide_eq_true_eq] at hc
  rcases hc with (((rfl | rfl) | rfl) | rfl) | rfl <;> revert h <;> decide

lemma isOperator_of_startsItem (h : startsItem c = true) : isOperator c = false := by
  rw [Bool.eq_false_iff]
  intro hc
  simp only [isOperator, Bool.or_eq_true, decide_eq_true_eq] at hc
  rcases hc with ((rfl | rfl) | rfl) | rfl <;> revert h <;> decide

/-- An item starts a text. -/
def Starts (T : List Char) : Prop := startsItem (peek T) = true

lemma Starts.exists_cons {T : List Char} (h : Starts T) :
    ∃ c T', T = c :: T' ∧ startsItem c = true := by
  cases T with
  | nil => cases h
  | cons c T' => exact ⟨c, T', rfl, h⟩

lemma Starts.append {T : List Char} (h : Starts T) (T' : List Char) : Starts (T ++ T') := by
  obtain ⟨c, T, rfl, hc⟩ := h.exists_cons
  exact hc

lemma Starts.skipSpace {T : List Char} (h : Starts T) (b : Bool) (rest : List Char) :
    skipSpace b (T ++ rest) = T ++ rest := by
  obtain ⟨c, T, rfl, hc⟩ := h.exists_cons
  exact skipSpace_cons (isBlank_of_startsItem hc) b _

lemma Starts.isOperator {T : List Char} (h : Starts T) (rest : List Char) :
    isOperator (peek (T ++ rest)) = false := by
  obtain ⟨c, T, rfl, hc⟩ := h.exists_cons
  exact isOperator_of_startsItem hc

/-! ## Pieces of text -/

/-- What follows a sequence or alternates: no item and no repetition. -/
structure Ends (b : Bool) (rest : List Char) : Prop where
  word : isWordChar (peek rest) = false
  item : startsItem (peek (skipSpace b rest)) = false
  operator : isOperator (peek (skipSpace b rest)) = false

variable (vocab : Option (List Char → Option ℕ)) (ρ : List Char → TextSet)

/-- The text of an item. -/
def ItemText (b : Bool) (T : List Char) (L : TextSet) : Prop :=
  ∀ rest, isWordChar (peek rest) = false → Reads vocab ρ .item b (T ++ rest) L (skipSpace b rest)

/-- The text of an item and of the repetitions behind it. -/
def PieceText (b : Bool) (T : List Char) (L : TextSet) : Prop :=
  ∀ rest, isWordChar (peek rest) = false → isOperator (peek (skipSpace b rest)) = false →
    ∃ K pos, Reads vocab ρ .item b (T ++ rest) K pos ∧
      Reads vocab ρ (.repeats K) b pos L (skipSpace b rest)

/-- The text of a sequence. -/
def SeqText (b : Bool) (T : List Char) (L : TextSet) : Prop :=
  ∀ rest, Ends b rest → Reads vocab ρ .sequence b (T ++ rest) L (skipSpace b rest)

/-- The text of alternates. -/
def AltsText (b : Bool) (T : List Char) (L : TextSet) : Prop :=
  ∀ rest, Ends b rest → peek (skipSpace b rest) ≠ '|' →
    Reads vocab ρ .alternates b (T ++ rest) L (skipSpace b rest)

/-- The text of a rule has a language. -/
def Denotes (T : List Char) (L : TextSet) : Prop := Reads vocab ρ .alternates false T L []

variable {vocab ρ} {b : Bool} {T U : List Char} {L M : TextSet}

lemma Denotes.unique (h : Denotes vocab ρ T L) (h' : Denotes vocab ρ T M) : L = M :=
  (Reads.unique h h').1

lemma AltsText.denotes (h : AltsText vocab ρ false T L) : Denotes vocab ρ T L := by
  have h := h [] ⟨rfl, rfl, rfl⟩ (by decide)
  rwa [append_nil] at h

/-! ## Sequences and alternates -/

lemma ItemText.piece (h : ItemText vocab ρ b T L) : PieceText vocab ρ b T L :=
  fun rest hword hop => ⟨L, _, h rest hword, .noRepeat hop⟩

lemma PieceText.seq (h : PieceText vocab ρ b T L) : SeqText vocab ρ b T L := by
  intro rest hrest
  obtain ⟨K, pos, hitem, hrep⟩ := h rest hrest.word hrest.operator
  have hempty : Reads vocab ρ .sequence b (skipSpace b rest) 1 (skipSpace b rest) :=
    .empty hrest.item hrest.operator
  have hcons := Reads.cons hitem hrep hempty
  rwa [mul_one] at hcons

lemma ItemText.seq (h : ItemText vocab ρ b T L) : SeqText vocab ρ b T L := h.piece.seq

lemma PieceText.cons (h : PieceText vocab ρ b T L) (h' : SeqText vocab ρ b U M)
    (hU : Starts U) : SeqText vocab ρ b (T ++ ' ' :: U) (L * M) := by
  intro rest hrest
  obtain ⟨K, pos, hitem, hrep⟩ := h (' ' :: (U ++ rest)) rfl (by
    rw [skipSpace_space, hU.skipSpace]
    exact hU.isOperator rest)
  rw [skipSpace_space, hU.skipSpace] at hrep
  rw [append_assoc]
  exact .cons hitem hrep (h' rest hrest)

lemma ItemText.cons (h : ItemText vocab ρ b T L) (h' : SeqText vocab ρ b U M)
    (hU : Starts U) : SeqText vocab ρ b (T ++ ' ' :: U) (L * M) := h.piece.cons h' hU

lemma SeqText.alts (h : SeqText vocab ρ b T L) : AltsText vocab ρ b T L :=
  fun rest hrest hbar => .last (h rest hrest) hbar

lemma SeqText.or (h : SeqText vocab ρ b T L) (h' : AltsText vocab ρ b U M)
    (hU : Starts U) : AltsText vocab ρ b (T ++ ' ' :: '|' :: ' ' :: U) (L + M) := by
  intro rest hrest hbar
  have hskip : ∀ b, skipSpace b ('|' :: ' ' :: (U ++ rest)) = '|' :: ' ' :: (U ++ rest) :=
    fun b => skipSpace_cons rfl b _
  have hseq := h (' ' :: '|' :: ' ' :: (U ++ rest))
    ⟨rfl, by rw [skipSpace_space, hskip]; rfl, by rw [skipSpace_space, hskip]; rfl⟩
  rw [skipSpace_space, hskip] at hseq
  rw [append_assoc]
  refine .more hseq rfl ?_
  have hrest := h' rest hrest hbar
  rwa [tail_cons, skipSpace_space, hU.skipSpace]

/-! ## Groups and repetitions -/

lemma skipSpace_paren (b : Bool) (rest : List Char) :
    skipSpace b (')' :: rest) = ')' :: rest := skipSpace_cons rfl b rest

lemma peek_paren (rest : List Char) : peek (')' :: rest) = ')' := rfl

lemma ends_paren (b : Bool) (rest : List Char) : Ends b (')' :: rest) :=
  ⟨rfl, by rw [skipSpace_paren]; rfl, by rw [skipSpace_paren]; rfl⟩

lemma AltsText.group (h : AltsText vocab ρ true T L) (hT : Starts T) :
    ItemText vocab ρ b ('(' :: T ++ [')']) L := by
  intro rest _
  have hsub := h (')' :: rest) (ends_paren true rest) (by
    rw [skipSpace_paren, peek_paren]
    decide)
  have hpos : '(' :: T ++ [')'] ++ rest = '(' :: (T ++ ')' :: rest) := by simp
  rw [hpos]
  refine Reads.group rfl ?_ (peek_paren rest)
  rwa [tail_cons, hT.skipSpace]

/-- A group with blanks at its ends. -/
lemma AltsText.spacedGroup (h : AltsText vocab ρ true T L) (hT : Starts T) :
    ItemText vocab ρ b ('(' :: ' ' :: T ++ [' ', ')']) L := by
  intro rest _
  have hends := ends_paren true rest
  have hsub := h (' ' :: ')' :: rest) ⟨rfl, by rw [skipSpace_space]; exact hends.item, by
    rw [skipSpace_space]; exact hends.operator⟩ (by
      rw [skipSpace_space, skipSpace_paren, peek_paren]
      decide)
  have hpos : '(' :: ' ' :: T ++ [' ', ')'] ++ rest = '(' :: ' ' :: (T ++ ' ' :: ')' :: rest) := by
    simp
  rw [hpos]
  refine Reads.group rfl ?_ (peek_paren rest)
  rwa [tail_cons, skipSpace_space, hT.skipSpace]

/-- A group of nothing but blanks. -/
lemma itemText_emptyGroup : ItemText vocab ρ b "(  )".toList 1 := by
  intro rest _
  have hempty : Reads vocab ρ .alternates true (')' :: rest) 1 (')' :: rest) :=
    .last (.empty rfl rfl) (fun h => absurd h (by decide : ')' ≠ '|'))
  refine @Reads.group _ _ _ ('(' :: ' ' :: ' ' :: ')' :: rest) _ _ rfl ?_ (peek_paren rest)
  rwa [tail_cons]

section

variable (h : ItemText vocab ρ b T L)

include h

/-- A repetition behind an item. -/
lemma ItemText.repeats (op : List Char) {m n : ℕ}
    (hop : ∀ rest, readOperator b (op ++ rest) = some (m, n, skipSpace b rest))
    (hword : isWordChar (peek op) = false) (hblank : isBlank (peek op) = false) :
    PieceText vocab ρ b (T ++ op) (copies L m (upper m n)) := by
  intro rest _ hoperator
  have hne : ∃ c op', op = c :: op' := by
    cases op with
    | nil => exact absurd (isOperator_of_readOperator (hop [])) (by decide)
    | cons c op' => exact ⟨c, op', rfl⟩
  obtain ⟨c, op, rfl⟩ := hne
  have hblank : isBlank c = false := hblank
  have hitem := h (c :: op ++ rest) hword
  rw [cons_append, skipSpace_cons hblank] at hitem
  rw [append_assoc]
  exact ⟨L, _, hitem, .again (hop rest) (.noRepeat hoperator)⟩

lemma ItemText.star : PieceText vocab ρ b (T ++ ['*']) (copies L 0 none) :=
  h.repeats ['*'] (m := 0) (n := uint64Max) (fun _ => rfl) rfl rfl

lemma ItemText.plus : PieceText vocab ρ b (T ++ ['+']) (copies L 1 none) :=
  h.repeats ['+'] (m := 1) (n := uint64Max) (fun _ => rfl) rfl rfl

lemma ItemText.option : PieceText vocab ρ b (T ++ ['?']) (copies L 0 (some 1)) :=
  h.repeats ['?'] (m := 0) (n := 1) (fun _ => rfl) rfl rfl

end

/-! ### Bounds in braces -/

lemma takeWhile_digits {s : List Char} (hs : Numeral.Digits s) (hc : isDigitChar c = false)
    (rest : List Char) : (s ++ c :: rest).takeWhile isDigitChar = s ∧
      (s ++ c :: rest).dropWhile isDigitChar = c :: rest := by
  have hs : ∀ c ∈ s, isDigitChar c = true := hs
  constructor
  · rw [takeWhile_append_of_pos hs, takeWhile_cons_of_neg (by rw [hc]; decide), append_nil]
  · rw [dropWhile_append_of_pos hs, dropWhile_cons_of_neg (by rw [hc]; decide)]

/-- A number is read up to the character behind it. -/
lemma parseInt_toDigits (n : ℕ) (hc : isDigitChar c = false) (rest : List Char) :
    isDigitChar (peek (toDigits 10 n ++ c :: rest)) = true ∧
    parseInt (toDigits 10 n ++ c :: rest) = .ok (toDigits 10 n, c :: rest) := by
  have hd := Numeral.digits_toDigits n
  have hpeek : isDigitChar (peek (toDigits 10 n ++ c :: rest)) = true := by
    cases hs : toDigits 10 n with
    | nil => exact absurd hs toDigits_ne_nil
    | cons d s => exact hd d (by rw [hs]; exact mem_cons_self)
  obtain ⟨htake, hdrop⟩ := takeWhile_digits hd hc rest
  exact ⟨hpeek, by rw [parseInt, if_pos hpeek, htake, hdrop]⟩

lemma stoull_toDigits {n : ℕ} (hn : n ≤ uint64Max) (fn : String) :
    stoull fn (toDigits 10 n) = .ok n := by
  rw [stoull, ofDigitChars_ten_toDigits, if_pos hn]

lemma skipSpace_toDigits (b : Bool) (n : ℕ) (rest : List Char) :
    skipSpace b (toDigits 10 n ++ rest) = toDigits 10 n ++ rest := by
  have hd := Numeral.digits_toDigits n
  cases hs : toDigits 10 n with
  | nil => exact absurd hs toDigits_ne_nil
  | cons c s =>
    have hc := Numeral.isDigit_iff.mp (hd c (by rw [hs]; exact mem_cons_self))
    refine skipSpace_cons ?_ b _
    rw [Bool.eq_false_iff]
    intro hblank
    simp only [isBlank, Bool.or_eq_true, decide_eq_true_eq] at hblank
    rcases hblank with (((rfl | rfl) | rfl) | rfl) | rfl <;> revert hc <;> decide

lemma le_uint64Max {n : ℕ} (hn : n ≤ maxRepetitionThreshold) : n ≤ uint64Max ∧ n ≠ uint64Max := by
  have hlt : maxRepetitionThreshold < uint64Max := by decide
  omega

/-- The braces, after the first number of which the upper bound is read. -/
lemma readOperator_braces {m n : ℕ} {c : Char} (hm : m ≤ maxRepetitionThreshold)
    (hn : n ≤ maxRepetitionThreshold) {b : Bool} {rest text : List Char} (hc : isDigitChar c = false)
    (hskip : skipSpace b (c :: rest) = c :: rest)
    (hmax : parseMaxTimes b m (c :: rest) = .ok (n, text)) :
    readOperator b ('\x7b' :: (toDigits 10 m ++ c :: rest)) = some (m, n, text) := by
  obtain ⟨hpeek, hint⟩ := parseInt_toDigits m hc rest
  have hne := (le_uint64Max hn).2
  have hbounds : parseBounds b (toDigits 10 m ++ c :: rest) = .ok (m, n, text) := by
    have hif : (if n ≠ uint64Max ∧ maxRepetitionThreshold < n then uint64Max else n) = n :=
      if_neg (by omega)
    simp only [parseBounds, hpeek, hint, stoull_toDigits (le_uint64Max hm).1, hskip, hmax,
      Bool.not_true, Bool.false_eq_true, if_false, except_ok_bind, hif, if_neg (Nat.not_lt.mpr hm)]
    rfl
  rw [readOperator]
  simp only [tail_cons, skipSpace_toDigits, hbounds]
  rfl

/-- A single bound. -/
lemma readOperator_exact {n : ℕ} (hn : n ≤ maxRepetitionThreshold) (b : Bool)
    (rest : List Char) :
    readOperator b ('\x7b' :: toDigits 10 n ++ ['\x7d'] ++ rest) =
      some (n, n, skipSpace b rest) := by
  have hpos : '\x7b' :: toDigits 10 n ++ ['\x7d'] ++ rest =
      '\x7b' :: (toDigits 10 n ++ '\x7d' :: rest) := by simp
  rw [hpos]
  exact readOperator_braces hn hn rfl (skipSpace_cons rfl b rest) rfl

/-- Two bounds. -/
lemma readOperator_bounds {m n : ℕ} (hm : m ≤ maxRepetitionThreshold)
    (hn : n ≤ maxRepetitionThreshold) (b : Bool) (rest : List Char) :
    readOperator b ('\x7b' :: toDigits 10 m ++ ',' :: toDigits 10 n ++ ['\x7d'] ++ rest) =
      some (m, n, skipSpace b rest) := by
  obtain ⟨hpeek', hint'⟩ := parseInt_toDigits n (c := '\x7d') rfl rest
  have hpos : '\x7b' :: toDigits 10 m ++ ',' :: toDigits 10 n ++ ['\x7d'] ++ rest =
      '\x7b' :: (toDigits 10 m ++ ',' :: (toDigits 10 n ++ '\x7d' :: rest)) := by simp
  have hbrace : skipSpace b ('\x7d' :: rest) = '\x7d' :: rest := skipSpace_cons rfl b rest
  have hupper : parseUpper b (toDigits 10 n ++ '\x7d' :: rest) = .ok (n, '\x7d' :: rest) := by
    simp only [parseUpper, hpeek', if_true, hint', stoull_toDigits (le_uint64Max hn).1,
      except_ok_bind, hbrace]
    rfl
  rw [hpos]
  refine readOperator_braces hm hn rfl (skipSpace_cons rfl b _) ?_
  have hpeek : peek (',' :: (toDigits 10 n ++ '\x7d' :: rest)) = ',' := rfl
  simp only [parseMaxTimes, hpeek, Char.reduceEq, if_false, if_true, tail_cons,
    skipSpace_toDigits, hupper]
  rfl

/-! ## Literals and classes -/

/-- Characters that stand for themselves in literals and classes. -/
structure Plain (c : Char) : Prop where
  ascii : c.toNat < 128
  escape : c ≠ '\\'
  nul : c ≠ '\x00'

lemma parseChar_plain (hc : Plain c) (rest : List Char) :
    parseChar (c :: rest) = .ok (c.toNat, rest) := by
  have hpeek : peek (c :: rest) = c := rfl
  have hascii := hc.ascii
  have hlen : [1, 1, 1, 1, 1, 1, 1, 1, 1, 1, 1, 1, 2, 2, 3, 4].getD (c.toNat % 256 / 16) 1 = 1 := by
    have hlt : c.toNat % 256 / 16 < 8 := by omega
    generalize c.toNat % 256 / 16 = k at hlt
    interval_cases k <;> rfl
  have hdecode : decodeUtf8 (c :: rest) = (c.toNat, rest) := by
    simp only [decodeUtf8, hpeek, hlen]
    refine Prod.ext ?_ rfl
    change c.toNat % 256 % 2 ^ 7 = c.toNat
    omega
  rw [parseChar, hpeek, if_neg hc.escape, if_pos hc.nul, hdecode]

/-- A literal of plain characters. -/
lemma itemText_literal {s : List Char} (hs : ∀ c ∈ s, Plain c ∧ c ≠ '"') :
    ItemText vocab ρ b ('"' :: s ++ ['"']) {codes s} := by
  intro rest _
  have hcs : ∀ s, (∀ c ∈ s, Plain c ∧ c ≠ '"') → LiteralText (s ++ '"' :: rest) (codes s)
      ('"' :: rest) := by
    intro s hs
    induction s with
    | nil => exact .done rfl
    | cons c s ih =>
      obtain ⟨⟨hplain, hquote⟩, hs⟩ := forall_mem_cons.mp hs
      exact .char hquote hplain.nul (parseChar_plain hplain _) (ih hs)
  have hpos : '"' :: s ++ ['"'] ++ rest = '"' :: (s ++ '"' :: rest) := by simp
  rw [hpos]
  have hread : Reads vocab ρ .item b ('"' :: (s ++ '"' :: rest)) {codes s}
      (skipSpace b ('"' :: rest).tail) := .literal rfl (hcs s hs)
  exact hread

/-- The texts of one character. -/
def oneOf (P : ℕ → Prop) : TextSet := {w | ∃ c, w = [c] ∧ P c}

/-- Characters that stand for themselves in a class, and for no range. -/
structure Single (c : Char) : Prop extends Plain c where
  bracket : c ≠ ']'
  dash : c ≠ '-'

/-- The range of one character. -/
def single (c : Char) : CharRange := ⟨c.toNat, none⟩

lemma rangesText_single {cs : List Char} (hcs : ∀ c ∈ cs, Single c) (rest : List Char) :
    RangesText (cs ++ ']' :: rest) (cs.map single) (']' :: rest) := by
  induction cs with
  | nil => exact .done rfl
  | cons c cs ih =>
    obtain ⟨hc, hcs⟩ := forall_mem_cons.mp hcs
    refine .one hc.bracket hc.nul (parseChar_plain hc.toPlain _) ?_ (ih hcs)
    have hdash : peek (cs ++ ']' :: rest) ≠ '-' := by
      cases cs with
      | nil => exact fun h => absurd h (by decide : ']' ≠ '-')
      | cons d cs => exact (forall_mem_cons.mp hcs).1.dash
    change (decide (peek (cs ++ ']' :: rest) = '-') && _) = false
    rw [decide_eq_false hdash, Bool.false_and]

lemma classSet_cons (inverse : Bool) (r : CharRange) (rs : List CharRange) :
    classSet inverse (r :: rs) =
      oneOf fun c => (∃ x ∈ r :: rs, x.contains c = true) ↔ inverse = false := by
  ext w
  refine exists_congr fun c => and_congr_right fun _ => ?_
  change _ ↔ ((∃ x ∈ r :: rs, x.contains c = true) ↔ inverse = false)
  rw [Sym.accepts, ← any_eq_true]
  cases inverse <;> cases (r :: rs).any fun x => x.contains c <;> decide

lemma classSet_single (inverse : Bool) {cs : List Char} (hne : cs ≠ []) :
    classSet inverse (cs.map single) = oneOf fun c => c ∈ codes cs ↔ inverse = false := by
  cases cs with
  | nil => exact absurd rfl hne
  | cons d cs =>
    have hmem : ∀ c, (∃ x ∈ (d :: cs).map single, x.contains c = true) ↔ c ∈ codes (d :: cs) := by
      intro c
      rw [codes, mem_map]
      constructor
      · rintro ⟨r, hr, hc⟩
        obtain ⟨e, he, rfl⟩ := mem_map.mp hr
        exact ⟨e, he, of_decide_eq_true hc⟩
      · rintro ⟨e, he, rfl⟩
        exact ⟨single e, mem_map_of_mem he, by simp [single, CharRange.contains]⟩
    rw [map_cons, classSet_cons, ← map_cons]
    simp only [hmem]

/-- A class, of which the ranges are read up to the bracket. -/
lemma itemText_started {T U : List Char} {negated : Bool} {rs : List CharRange}
    (hstart : ∀ rest, classStart ('[' :: (U ++ ']' :: rest)) = (negated, T ++ ']' :: rest))
    (hrs : ∀ rest, RangesText (T ++ ']' :: rest) rs (']' :: rest)) :
    ItemText vocab ρ b ('[' :: U ++ [']']) (classSet negated rs) := by
  intro rest _
  have hpos : '[' :: U ++ [']'] ++ rest = '[' :: (U ++ ']' :: rest) := by simp
  have hread : Reads vocab ρ .item b ('[' :: (U ++ ']' :: rest))
      (classSet (classStart ('[' :: (U ++ ']' :: rest))).1 rs) (skipSpace b rest) :=
    .range rfl (by
      rw [hstart]
      exact hrs rest)
  rw [hstart] at hread
  rwa [hpos]

lemma itemText_ranges {T : List Char} {rs : List CharRange} (hcaret : T.head? ≠ some '^')
    (hrs : ∀ rest, RangesText (T ++ ']' :: rest) rs (']' :: rest)) :
    ItemText vocab ρ b ('[' :: T ++ [']']) (classSet false rs) := by
  refine itemText_started (fun rest => ?_) hrs
  rw [classStart, List.tail_cons, if_neg]
  cases T with
  | nil => exact fun h => absurd h (by decide : ']' ≠ '^')
  | cons c T => exact fun h => hcaret (congrArg some h)

/-- A class of all other characters. -/
lemma itemText_notRanges {T : List Char} {rs : List CharRange}
    (hrs : ∀ rest, RangesText (T ++ ']' :: rest) rs (']' :: rest)) :
    ItemText vocab ρ b ('[' :: '^' :: T ++ [']']) (classSet true rs) :=
  itemText_started (fun _ => rfl) hrs

/-- A class of single characters. -/
lemma itemText_class {cs : List Char} (hcs : ∀ c ∈ cs, Single c) (hne : cs ≠ [])
    (hhead : cs.head? ≠ some '^') :
    ItemText vocab ρ b ('[' :: cs ++ [']']) (oneOf (· ∈ codes cs)) := by
  have hitem : ItemText vocab ρ b ('[' :: cs ++ [']']) (classSet false (cs.map single)) :=
    itemText_ranges hhead (rangesText_single hcs)
  rw [classSet_single false hne] at hitem
  simpa using hitem

/-- The characters that are not in a class. -/
lemma itemText_notClass {cs : List Char} (hcs : ∀ c ∈ cs, Single c) (hne : cs ≠ []) :
    ItemText vocab ρ b ('[' :: '^' :: cs ++ [']']) (oneOf (· ∉ codes cs)) := by
  have hitem : ItemText vocab ρ b ('[' :: '^' :: cs ++ [']']) (classSet true (cs.map single)) :=
    itemText_notRanges (rangesText_single hcs)
  rw [classSet_single true hne] at hitem
  simpa using hitem

/-- A range of plain characters, before other ones. -/
lemma RangesText.plainRange {low high : Char} (hlow : Single low) (hhigh : Single high)
    {pos : List Char} {rs : List CharRange} (h : RangesText T rs pos) :
    RangesText (low :: '-' :: high :: T) (⟨low.toNat, some high.toNat⟩ :: rs) pos := by
  have hfollows : rangeFollows ('-' :: high :: T) = true := by
    have hne : peek (high :: T) ≠ ']' := hhigh.bracket
    rw [rangeFollows, tail_cons, decide_eq_true hne]
    rfl
  exact .range hlow.bracket hlow.nul (parseChar_plain hlow.toPlain _) hfollows hhigh.nul
    (parseChar_plain hhigh.toPlain _) h

/-- A class of one range. -/
lemma itemText_range {low high : Char} (hlow : Single low) (hhigh : Single high)
    (hcaret : low ≠ '^') : ItemText vocab ρ b ['[', low, '-', high, ']']
      (oneOf fun c => low.toNat ≤ c ∧ c ≤ high.toNat) := by
  have hitem : ItemText vocab ρ b ('[' :: [low, '-', high] ++ [']'])
      (classSet false [⟨low.toNat, some high.toNat⟩]) :=
    itemText_ranges (fun h => hcaret (Option.some.inj h))
      fun rest => RangesText.plainRange hlow hhigh (.done rfl)
  have hset : classSet false [⟨low.toNat, some high.toNat⟩] =
      oneOf fun c => low.toNat ≤ c ∧ c ≤ high.toNat := by
    rw [classSet_cons]
    simp [CharRange.contains]
  rwa [hset] at hitem

/-- A name of a rule. -/
structure IsName (name : List Char) : Prop where
  ne : name ≠ []
  word : ∀ c ∈ name, isWordChar c = true

lemma startsItem_of_isWordChar (h : isWordChar c = true) : startsItem c = true := by
  simp [startsItem, h]

lemma IsName.starts {name : List Char} (h : IsName name) : Starts name := by
  obtain ⟨c, s, rfl⟩ := exists_cons_of_ne_nil h.ne
  exact startsItem_of_isWordChar (h.word c mem_cons_self)

lemma itemText_name {name : List Char} (h : IsName name) : ItemText vocab ρ b name (ρ name) := by
  intro rest hrest
  have htake : (name ++ rest).takeWhile isWordChar = name ∧
      (name ++ rest).dropWhile isWordChar = rest := by
    rw [takeWhile_append_of_pos h.word, dropWhile_append_of_pos h.word]
    cases rest with
    | nil => exact ⟨append_nil name, rfl⟩
    | cons c rest =>
      have hc : ¬ isWordChar c = true := Bool.eq_false_iff.mp hrest
      rw [takeWhile_cons_of_neg hc, dropWhile_cons_of_neg hc]
      exact ⟨append_nil name, rfl⟩
  have hpeek : isWordChar (peek (name ++ rest)) = true := by
    obtain ⟨c, s, rfl⟩ := exists_cons_of_ne_nil h.ne
    exact h.word c mem_cons_self
  exact .name hpeek (by rw [parseName, if_pos hpeek, htake.1, htake.2])

end Llama.Gbnf
