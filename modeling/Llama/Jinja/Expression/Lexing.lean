import Llama.Jinja.Expression
import Llama.Jinja.Lexer.Advance

/-!
# The tokens of a printed expression

What is lexed of a printed expression are its tokens again, with their positions, but for signs.  A
sign is part of a number, or an operator, depending on the token before it; so a negative number
after a keyword is taken apart, and an operator `+` or `-` after a dict is lexed as a sign of an
operand.
-/

namespace Llama.Jinja

open List

/-- The tokens from a cursor on. -/
def lexAll (src : List Char) (last : Option TokenType) (depth : ℕ) (c : Cursor) :
    Except LexerException (List Token) :=
  lexLoop src (c.rest.length + 1) last depth c

variable {depth : ℕ} {src : List Char}

lemma lexLoop_eq {n : ℕ} {last : Option TokenType} {c : Cursor} (h : c.rest.length < n) :
    lexLoop src n last depth c = lexAll src last depth c := by
  induction n with
  | zero => cases h
  | succ n ih =>
    rcases Nat.lt_or_ge c.rest.length n with hlt | hge
    · rw [lexLoop_fuel src n last depth c hlt, ih hlt]
    · rw [lexAll, show n = c.rest.length by omega]

lemma lexAll_eq (src : List Char) (last : Option TokenType) (depth : ℕ) (c : Cursor) :
    lexAll src last depth c = lexIteration src (lexAll src) last depth c :=
  lexIteration_congr src last depth c fun _ _ _ h => lexLoop_eq h

/-- A token inside of a tag. -/
lemma lexAll_step {last : TokenType} {c : Cursor} {step : LexStep}
    (hlast : closesTag last = false) (h : nextToken (some last) depth c = .ok (some step)) :
    lexAll src (some last) depth c =
      (lexAll src (some step.token.t) step.depth step.cur).map (step.token :: ·) := by
  have hne : c.rest ≠ [] := by
    intro hnil
    rw [nextToken_nil hnil] at h
    cases h
  rw [lexAll_eq, lexIteration, if_neg hne]
  simp only [Option.getD_some, hlast, lexTag, h]
  rfl

/-! ## Scans -/

section

variable {p : Char → Bool} {c d : Char} {cs rest : List Char} {pos : ℕ}

lemma consumeWhile_stop (h : p c = false) :
    consumeWhile p pos (c :: rest) = .ok ([], ⟨pos, c :: rest⟩) := by
  cases rest with
  | nil => simp [consumeWhile, h]
  | cons d rest => simp [consumeWhile, h]

lemma consumeWhile_cons (h : p c = true) (hc : c ≠ '\\') : consumeWhile p pos (c :: rest) =
      (consumeWhile p (pos + 1) rest).map fun r => (c :: r.1, r.2) := by
  cases rest with
  | nil =>
    conv_lhs => unfold consumeWhile
    rw [if_pos h, if_neg hc]
    rfl
  | cons d rest =>
    conv_lhs => unfold consumeWhile
    rw [if_pos h, if_neg hc]
    rfl

lemma consumeWhile_escape (h : p '\\' = true) (hd : escapeChars.lookup d = some c) :
    consumeWhile p pos ('\\' :: d :: rest) =
      (consumeWhile p (pos + 2) rest).map fun r => (c :: r.1, r.2) := by
  rw [consumeWhile, if_pos h, hd]
  rfl

/-- A run of characters. -/
lemma consumeWhile_run (h : cs.all p = true) (hescape : p '\\' = false) (hd : p d = false) :
    consumeWhile p pos (cs ++ d :: rest) = .ok (cs, ⟨pos + cs.length, d :: rest⟩) := by
  induction cs generalizing pos with
  | nil => exact consumeWhile_stop hd
  | cons c cs ih =>
    rw [all_cons, Bool.and_eq_true] at h
    have hc : c ≠ '\\' := fun heq => by
      rw [heq, hescape] at h
      cases h.1
    rw [cons_append, consumeWhile_cons h.1 hc, ih h.2]
    simp only [Except.map, length_cons, Nat.add_assoc, Nat.add_comm 1]

/-- What is read of the text of a character. -/
lemma consumeWhile_escapeChar : consumeWhile (· != '\'') pos (escapeChar c ++ rest) =
      (consumeWhile (· != '\'') (pos + (escapeChar c).length) rest).map
        fun r => (c :: r.1, r.2) := by
  unfold escapeChar
  split
  · next e he =>
    have hc : e.2 = c := by simpa using find?_some he
    have hlookup : ∀ e ∈ escapeChars, escapeChars.lookup e.1 = some e.2 := by decide
    subst hc
    exact consumeWhile_escape (by decide) (hlookup e (mem_of_find?_eq_some he))
  · next he =>
    have hnone := find?_eq_none.mp he
    have hquote : c ≠ '\'' := fun heq => hnone ('\'', '\'') (by decide) (by rw [heq]; rfl)
    have hslash : c ≠ '\\' := fun heq => hnone ('\\', '\\') (by decide) (by rw [heq]; rfl)
    exact consumeWhile_cons (by simpa using hquote) hslash

/-- The text of a string. -/
lemma consumeWhile_string : consumeWhile (· != '\'') pos (cs.flatMap escapeChar ++ '\'' :: rest) =
      .ok (cs, ⟨pos + (cs.flatMap escapeChar).length, '\'' :: rest⟩) := by
  induction cs generalizing pos with
  | nil => exact consumeWhile_stop rfl
  | cons c cs ih =>
    rw [flatMap_cons, append_assoc, consumeWhile_escapeChar, ih]
    simp only [Except.map, length_append, Nat.add_assoc]

end

/-- The fraction of a number, after a point. -/
def fracText (frac : List Char) : List Char := if frac = [] then [] else '.' :: frac

/-- Digits, with a fraction or without. -/
structure Digits where
  whole : List Char
  frac : List Char
  ne_nil : whole ≠ []
  whole_digits : whole.all isInteger = true
  frac_digits : frac.all isInteger = true

/-- The text of a number without a sign. -/
def Digits.text (d : Digits) : List Char := d.whole ++ fracText d.frac

lemma Digits.exists_cons (d : Digits) : ∃ c cs, isInteger c = true ∧ d.text = c :: cs := by
  obtain ⟨c, cs, hwhole⟩ := exists_cons_of_ne_nil d.ne_nil
  have hall := d.whole_digits
  rw [hwhole, all_cons, Bool.and_eq_true] at hall
  exact ⟨c, cs ++ fracText d.frac, hall.1, by rw [Digits.text, hwhole, cons_append]⟩

lemma consumeNumeric_digits (d : Digits) (pos : ℕ) (rest : List Char) :
    consumeNumeric ⟨pos, d.text ++ ' ' :: rest⟩ =
      .ok (d.text, ⟨pos + d.text.length, ' ' :: rest⟩) := by
  obtain ⟨whole, frac, hne, hwhole, hfrac⟩ := d
  unfold Digits.text fracText
  by_cases hnil : frac = []
  · have hrun : consumeWhile isInteger pos (whole ++ ' ' :: rest) = _ :=
      consumeWhile_run hwhole (by decide) (by decide)
    simp only [if_pos hnil, append_nil, consumeNumeric, hrun]
    rfl
  · obtain ⟨d, ds, rfl⟩ := exists_cons_of_ne_nil hnil
    have hd : isInteger d = true := by
      rw [all_cons, Bool.and_eq_true] at hfrac
      exact hfrac.1
    have hrun : consumeWhile isInteger pos (whole ++ '.' :: (d :: ds ++ ' ' :: rest)) = _ :=
      consumeWhile_run hwhole (by decide) (by decide)
    have hfrun : consumeWhile isInteger (pos + whole.length + 1) (d :: ds ++ ' ' :: rest) = _ :=
      consumeWhile_run hfrac (by decide) (by decide)
    rw [if_neg hnil, append_assoc, cons_append, consumeNumeric]
    simp only [hrun, except_ok_bind]
    rw [if_pos ⟨rfl, hd⟩]
    change (consumeWhile isInteger (pos + whole.length + 1) (d :: ds ++ ' ' :: rest) >>= _) = _
    rw [hfrun]
    simp only [length_append, Nat.add_assoc, Nat.add_comm 1]
    rfl

/-! ## Tokens -/

/-- The mapping table has nothing for words, numbers and strings. -/
lemma matchMapping_none {c : Char} {rest : List Char} (h : isWord c = true ∨ c = '\'') :
    matchMapping depth (c :: rest) = none := by
  have htable : ∀ e ∈ orderedMappingTable, e.1.toList ≠ [] ∧
      isWord (e.1.toList.headD ' ') = false ∧ e.1.toList.headD ' ' ≠ '\'' := by decide
  refine find?_eq_none.mpr fun e he => ?_
  obtain ⟨hne, hword, hquote⟩ := htable e he
  obtain ⟨d, ds, hseq⟩ := exists_cons_of_ne_nil hne
  rw [hseq] at hword hquote ⊢
  have hd : d ≠ c := by
    rintro rfl
    rcases h with h | h
    · rw [headD_cons, h] at hword
      cases hword
    · exact hquote h
  simp [hd]

section

variable {last : TokenType} {depth pos : ℕ} {d : Char} {rest : List Char}

/-- A token that is no comment and does not follow an opening dash. -/
lemma nextToken_solid {c : Cursor} (hbrace : c.cur ≠ '{') (hdash : c.cur ≠ '-') :
    nextToken (some last) depth c =
      (consumeWhile isSpace c.pos c.rest >>= fun space => lexSolid (some last) depth space.2) := by
  have hcomment : ¬(c.cur = '{' ∧ c.nextPosIs ['#'] 1 = true) := fun h => hbrace h.1
  have hopen : ¬(c.cur = '-' ∧ ((some last).getD .closeStatement = .openExpression ∨
      (some last).getD .closeStatement = .openStatement)) := fun h => hdash h.1
  rw [nextToken, if_neg hcomment]
  simp only [if_neg hopen]

/-- A space is passed. -/
lemma nextToken_space (h : isSpace d = false) :
    nextToken (some last) depth ⟨pos, ' ' :: d :: rest⟩ =
      lexSolid (some last) depth ⟨pos + 1, d :: rest⟩ := by
  have hspace : consumeWhile isSpace pos ([' '] ++ d :: rest) = .ok ([' '], ⟨pos + 1, d :: rest⟩) :=
    consumeWhile_run rfl (by decide) h
  have hcons : [' '] ++ d :: rest = ' ' :: d :: rest := rfl
  rw [hcons] at hspace
  rw [nextToken_solid (c := ⟨pos, ' ' :: d :: rest⟩) (show ' ' ≠ '{' by decide)
    (show ' ' ≠ '-' by decide), hspace]
  rfl

lemma isSpace_of_isInteger (h : isInteger d = true) : isSpace d = false := by
  cases hs : isSpace d
  · rfl
  · simp only [isSpace, Bool.or_eq_true, beq_iff_eq] at hs
    rcases hs with ((((rfl | rfl) | rfl) | rfl) | rfl) | rfl
    all_goals cases h

/-- No space is passed. -/
lemma nextToken_digit (h : isInteger d = true) : nextToken (some last) depth ⟨pos, d :: rest⟩ =
      lexSolid (some last) depth ⟨pos, d :: rest⟩ := by
  have hbrace : (⟨pos, d :: rest⟩ : Cursor).cur ≠ '{' := fun heq => by
    rw [show d = '{' from heq] at h
    cases h
  have hdash : (⟨pos, d :: rest⟩ : Cursor).cur ≠ '-' := fun heq => by
    rw [show d = '-' from heq] at h
    cases h
  rw [nextToken_solid hbrace hdash, consumeWhile_stop (isSpace_of_isInteger h)]
  rfl

lemma lexSolid_mapped (h : d ≠ '-' ∧ d ≠ '+') :
    lexSolid (some last) depth ⟨pos, d :: rest⟩ = lexMapped depth ⟨pos, d :: rest⟩ := by
  have hsign : ¬((d = '-' ∨ d = '+') ∧
      ¬(d = '-' ∧ (⟨pos, d :: rest⟩ : Cursor).nextPosIs ['%', '}'] 1 = true)) :=
    fun hsign => hsign.1.elim h.1 h.2
  exact if_neg hsign

/-- Words, numbers and strings are literals. -/
lemma lexMapped_literal {c : Char} (h : isWord c = true ∨ c = '\'') :
    lexMapped depth ⟨pos, c :: rest⟩ = lexLiteral depth ⟨pos, c :: rest⟩ := by
  rw [lexMapped]
  simp only [matchMapping_none h]

lemma isWord_of_isInteger {c : Char} (h : isInteger c = true) : isWord c = true := by
  simp only [isInteger] at h
  simp [isWord, Char.isAlphanum, h]

/-- No word begins with a quote. -/
lemma not_quote {c : Char} (h : isWord c = true) : ¬(c = '\'' ∨ c = '"') := by
  rintro (rfl | rfl)
  · cases h
  · cases h

/-- A word. -/
lemma lexMapped_word {cs : List Char} (h : isName cs = true) :
    lexMapped depth ⟨pos, cs ++ ' ' :: rest⟩ =
      .ok (some ⟨⟨.identifier, String.ofList cs, pos⟩, depth, ⟨pos + cs.length, ' ' :: rest⟩⟩) := by
  cases cs with
  | nil => cases h
  | cons c cs =>
    simp only [isName, Bool.and_eq_true, Bool.not_eq_true'] at h
    obtain ⟨⟨hword, hint⟩, hall⟩ := h
    have hrun : consumeWhile isWord pos (c :: cs ++ ' ' :: rest) = _ :=
      consumeWhile_run (by rw [all_cons, hword, hall]; rfl) (by decide) (by decide)
    have hquote : ¬((⟨pos, c :: cs ++ ' ' :: rest⟩ : Cursor).cur = '\'' ∨
        (⟨pos, c :: cs ++ ' ' :: rest⟩ : Cursor).cur = '"') := not_quote hword
    have hnot : ¬isInteger (⟨pos, c :: cs ++ ' ' :: rest⟩ : Cursor).cur = true := by
      change ¬isInteger c = true
      rw [hint]
      decide
    have hcur : isWord (⟨pos, c :: cs ++ ' ' :: rest⟩ : Cursor).cur = true := hword
    rw [cons_append, lexMapped_literal (.inl hword), ← cons_append, lexLiteral,
      if_neg hquote, if_neg hnot, if_pos hcur, hrun]
    rfl

/-- A number without a sign. -/
lemma lexMapped_number (d : Digits) : lexMapped depth ⟨pos, d.text ++ ' ' :: rest⟩ =
      .ok (some ⟨⟨.numericLiteral, String.ofList d.text, pos⟩, depth,
        ⟨pos + d.text.length, ' ' :: rest⟩⟩) := by
  obtain ⟨c, cs, hc, htext⟩ := d.exists_cons
  have hword := isWord_of_isInteger hc
  have hnum := consumeNumeric_digits d pos rest
  have hquote : ¬((⟨pos, d.text ++ ' ' :: rest⟩ : Cursor).cur = '\'' ∨
      (⟨pos, d.text ++ ' ' :: rest⟩ : Cursor).cur = '"') := by
    rw [htext]
    exact not_quote hword
  have hint : isInteger (⟨pos, d.text ++ ' ' :: rest⟩ : Cursor).cur = true := by
    rw [htext]
    exact hc
  have hmapped : lexMapped depth ⟨pos, d.text ++ ' ' :: rest⟩ =
      lexLiteral depth ⟨pos, d.text ++ ' ' :: rest⟩ := by
    rw [htext]
    exact lexMapped_literal (.inl hword)
  rw [hmapped, lexLiteral, if_neg hquote, if_pos hint, hnum]
  rfl

/-- A string. -/
lemma lexMapped_string (val : String) :
    lexMapped depth ⟨pos, (Item.string val).text ++ ' ' :: rest⟩ =
      .ok (some ⟨⟨.stringLiteral, val, pos⟩, depth,
        ⟨pos + (Item.string val).text.length, ' ' :: rest⟩⟩) := by
  have hrun : consumeWhile (fun d => d != '\'') (pos + 1)
      (val.toList.flatMap escapeChar ++ '\'' :: ' ' :: rest) = _ := consumeWhile_string
  have htext : (Item.string val).text ++ ' ' :: rest =
      '\'' :: (val.toList.flatMap escapeChar ++ '\'' :: ' ' :: rest) := by
    simp [Item.string]
  have hlength : pos + (Item.string val).text.length =
      pos + 1 + (val.toList.flatMap escapeChar).length + 1 := by
    simp only [Item.string, length_append, length_cons, length_nil]
    omega
  rw [htext, hlength]
  change (consumeWhile (fun d => d != '\'') (pos + 1)
    (val.toList.flatMap escapeChar ++ '\'' :: ' ' :: rest) >>= _) = _
  rw [hrun, except_ok_bind, String.ofList_toList]
  rfl

/-- What a token inside of a tag is. -/
def Inside (t : TokenType) : Prop := closesTag t = false ∧ t ≠ .text ∧ t ≠ .eof

/-- A sign in front of something else than the end of a block. -/
lemma lexSolid_sign (hd : d = '-' ∨ d = '+') {e : Char} (he : e ≠ '%' ∧ e ≠ '\x7d')
    (hlast : Inside last) :
    lexSolid (some last) depth ⟨pos, d :: e :: rest⟩ =
      if endsOperand last then lexMapped depth ⟨pos, d :: e :: rest⟩
      else lexSign depth ⟨pos, d :: e :: rest⟩ := by
  have hnext : ¬(⟨pos, d :: e :: rest⟩ : Cursor).nextPosIs ['%', '\x7d'] 1 = true := by
    simpa [Cursor.nextPosIs] using he
  have hsign : ((⟨pos, d :: e :: rest⟩ : Cursor).cur = '-' ∨
      (⟨pos, d :: e :: rest⟩ : Cursor).cur = '+') ∧
      ¬((⟨pos, d :: e :: rest⟩ : Cursor).cur = '-' ∧
        (⟨pos, d :: e :: rest⟩ : Cursor).nextPosIs ['%', '\x7d'] 1 = true) :=
    ⟨hd, fun h => hnext h.2⟩
  have hold : ¬((some last).getD .eof = .text ∨ (some last).getD .eof = .eof) :=
    fun h => h.elim hlast.2.1 hlast.2.2
  rw [lexSolid, if_pos hsign, if_neg hold]
  rfl

/-- A negative number, where a sign is part of it. -/
lemma lexSign_number (d : Digits) : lexSign depth ⟨pos, '-' :: (d.text ++ ' ' :: rest)⟩ =
      .ok (some ⟨⟨.numericLiteral, String.ofList ('-' :: d.text), pos⟩, depth,
        ⟨pos + 1 + d.text.length, ' ' :: rest⟩⟩) := by
  have hnum := consumeNumeric_digits d (pos + 1) rest
  obtain ⟨c, cs, -, htext⟩ := d.exists_cons
  have hne : d.text ≠ [] := by
    rw [htext]
    exact cons_ne_nil _ _
  change (consumeNumeric ⟨pos + 1, d.text ++ ' ' :: rest⟩ >>= _) = _
  rw [hnum, except_ok_bind, if_neg hne]
  rfl

end

/-! ## Printed tokens -/

/-- The punctuation and the operators that are printed. -/
def punctuation : List (TokenType × String) :=
  [(.openParen, "("), (.closeParen, ")"), (.openCurlyBracket, "\x7b"),
    (.closeCurlyBracket, "\x7d"), (.openSquareBracket, "["), (.closeSquareBracket, "]"),
    (.comma, ","), (.dot, "."), (.colon, ":"), (.pipe, "|"), (.equals, "="),
    (.comparisonBinaryOperator, "<="), (.comparisonBinaryOperator, ">="),
    (.comparisonBinaryOperator, "=="), (.comparisonBinaryOperator, "!="),
    (.comparisonBinaryOperator, "<"), (.comparisonBinaryOperator, ">"),
    (.additiveBinaryOperator, "~"), (.multiplicativeBinaryOperator, "*"),
    (.multiplicativeBinaryOperator, "/"), (.multiplicativeBinaryOperator, "%")]

/-- The tokens that are printed. -/
inductive Item.Valid : Item → Prop
  | word {value : String} (h : isName value.toList = true) : Valid (.word value)
  | number (negative : Bool) (d : Digits) : Valid (.number (signed negative d.text))
  | string (val : String) : Valid (.string val)
  | plain {t : TokenType} {value : String} (h : (t, value) ∈ punctuation) : Valid (.plain t value)
  | sign {value : String} (h : value = "+" ∨ value = "-") :
    Valid (.plain .additiveBinaryOperator value)

/-- A negative number. -/
def Item.isNegative (i : Item) : Bool := i.t == .numericLiteral && i.text.head? == some '-'

/-- An operator `+` or `-`. -/
def Item.isSign (i : Item) : Bool :=
  i.t == .additiveBinaryOperator && (i.value == "+" || i.value == "-")

/-- What is lexed of a printed token. -/
def lexItem (last : TokenType) (pos : ℕ) (i : Item) : List Token :=
  if i.isNegative && endsOperand last then
    [⟨.additiveBinaryOperator, "-", pos⟩, ⟨.numericLiteral, String.ofList i.text.tail, pos + 1⟩]
  else if i.isSign && !endsOperand last then [⟨.unaryOperator, i.value, pos⟩]
  else [⟨i.t, i.value, pos⟩]

/-- The type of the last token that is lexed of a printed one. -/
def lexLast (last : TokenType) (i : Item) : TokenType :=
  if i.isSign && !endsOperand last then .unaryOperator else i.t

/-- **What is lexed of printed tokens.** -/
def lexItems : TokenType → ℕ → List Item → List Token
  | _, _, [] => []
  | last, pos, i :: is =>
    lexItem last pos i ++ lexItems (lexLast last i) (pos + i.text.length + 1) is

section

variable {src : List Char} {last : TokenType} {depth pos : ℕ} {d : Char} {rest : List Char}

/-- A token that is lexed as it was printed. -/
lemma lexAll_item {i : Item} (hlast : closesTag last = false)
    (hneg : (i.isNegative && endsOperand last) = false)
    (hsign : (i.isSign && !endsOperand last) = false)
    (h : nextToken (some last) depth ⟨pos, ' ' :: (i.text ++ ' ' :: rest)⟩ =
      .ok (some ⟨⟨i.t, i.value, pos + 1⟩, nextDepth depth i.t,
        ⟨pos + 1 + i.text.length, ' ' :: rest⟩⟩)) :
    lexAll src (some last) depth ⟨pos, ' ' :: (i.text ++ ' ' :: rest)⟩ =
      (lexAll src (some (lexLast last i)) (nextDepth depth i.t)
        ⟨pos + 1 + i.text.length, ' ' :: rest⟩).map (lexItem last (pos + 1) i ++ ·) := by
  rw [lexAll_step hlast h, lexLast, lexItem, hneg, hsign]
  rfl

lemma isSpace_of_isWord (h : isWord d = true) : isSpace d = false := by
  cases hs : isSpace d
  · rfl
  · simp only [isSpace, Bool.or_eq_true, beq_iff_eq] at hs
    rcases hs with ((((rfl | rfl) | rfl) | rfl) | rfl) | rfl
    all_goals cases h

lemma not_sign_of_isWord (h : isWord d = true) : d ≠ '-' ∧ d ≠ '+' := by
  constructor
  · rintro rfl
    cases h
  · rintro rfl
    cases h

/-- A token that no sign begins, and that is lexed as it was printed. -/
lemma nextToken_mapped {i : Item} {c : Char} {cs : List Char} (htext : i.text = c :: cs)
    (hspace : isSpace c = false) (hsign : c ≠ '-' ∧ c ≠ '+')
    (h : lexMapped depth ⟨pos + 1, i.text ++ ' ' :: rest⟩ =
      .ok (some ⟨⟨i.t, i.value, pos + 1⟩, nextDepth depth i.t,
        ⟨pos + 1 + i.text.length, ' ' :: rest⟩⟩)) :
    nextToken (some last) depth ⟨pos, ' ' :: (i.text ++ ' ' :: rest)⟩ =
      .ok (some ⟨⟨i.t, i.value, pos + 1⟩, nextDepth depth i.t,
        ⟨pos + 1 + i.text.length, ' ' :: rest⟩⟩) := by
  rw [← h, htext, cons_append, nextToken_space hspace, lexSolid_mapped hsign]

/-- Punctuation. -/
lemma lexMapped_punctuation {t : TokenType} {value : String}
    (h : (t, value) ∈ punctuation) :
    ∃ c cs, value.toList = c :: cs ∧ isSpace c = false ∧ (c ≠ '-' ∧ c ≠ '+') ∧
      lexMapped depth ⟨pos, value.toList ++ ' ' :: rest⟩ =
        .ok (some ⟨⟨t, value, pos⟩, nextDepth depth t,
          ⟨pos + value.toList.length, ' ' :: rest⟩⟩) := by
  simp only [punctuation, mem_cons, Prod.mk.injEq, not_mem_nil, or_false] at h
  rcases h with ⟨rfl, rfl⟩ | ⟨rfl, rfl⟩ | ⟨rfl, rfl⟩ | ⟨rfl, rfl⟩ | ⟨rfl, rfl⟩ | ⟨rfl, rfl⟩ |
    ⟨rfl, rfl⟩ | ⟨rfl, rfl⟩ | ⟨rfl, rfl⟩ | ⟨rfl, rfl⟩ | ⟨rfl, rfl⟩ | ⟨rfl, rfl⟩ | ⟨rfl, rfl⟩ |
    ⟨rfl, rfl⟩ | ⟨rfl, rfl⟩ | ⟨rfl, rfl⟩ | ⟨rfl, rfl⟩ | ⟨rfl, rfl⟩ | ⟨rfl, rfl⟩ | ⟨rfl, rfl⟩ |
    ⟨rfl, rfl⟩
  all_goals exact ⟨_, _, rfl, by decide, by decide, rfl⟩

lemma isNegative_signed (negative : Bool) (d : Digits) :
    (Item.number (signed negative d.text)).isNegative = negative := by
  cases negative
  · obtain ⟨c, cs, hc, htext⟩ := d.exists_cons
    have hdash : c ≠ '-' := (not_sign_of_isWord (isWord_of_isInteger hc)).1
    simp [Item.isNegative, Item.number, signed, htext, hdash]
  · simp [Item.isNegative, Item.number, signed]

/-- A number without a sign is lexed as it was printed. -/
lemma lexAll_number (hlast : closesTag last = false) (d : Digits) :
    lexAll src (some last) depth ⟨pos, ' ' :: (d.text ++ ' ' :: rest)⟩ =
      (lexAll src (some .numericLiteral) depth ⟨pos + 1 + d.text.length, ' ' :: rest⟩).map
        (⟨.numericLiteral, String.ofList d.text, pos + 1⟩ :: ·) := by
  obtain ⟨c, cs, hc, htext⟩ := d.exists_cons
  exact lexAll_step hlast (nextToken_mapped (i := .number d.text) htext (isSpace_of_isInteger hc)
    (not_sign_of_isWord (isWord_of_isInteger hc)) (lexMapped_number d))

/-- The operator `-`. -/
lemma lexMapped_minus {e : Char} (he : e ≠ '%' ∧ e ≠ '\x7d') :
    lexMapped depth ⟨pos, '-' :: e :: rest⟩ =
      .ok (some ⟨⟨.additiveBinaryOperator, "-", pos⟩, depth, ⟨pos + 1, e :: rest⟩⟩) := by
  have hmatch : matchMapping depth ('-' :: e :: rest) = some ("-", .additiveBinaryOperator) := by
    have hpercent : ('%' == e) = false := by simpa using Ne.symm he.1
    have hbrace : ('\x7d' == e) = false := by simpa using Ne.symm he.2
    simp [matchMapping, orderedMappingTable, isPrefixOf, hpercent, hbrace]
  rw [lexMapped]
  simp only [hmatch]
  rfl

/-- A negative number is lexed as it was printed, or taken apart. -/
lemma lexAll_negative (hlast : Inside last) (d : Digits) :
    lexAll src (some last) depth ⟨pos, ' ' :: ('-' :: d.text ++ ' ' :: rest)⟩ =
      (lexAll src (some .numericLiteral) depth
        ⟨pos + 1 + ('-' :: d.text).length, ' ' :: rest⟩).map
          (lexItem last (pos + 1) (.number ('-' :: d.text)) ++ ·) := by
  obtain ⟨c, cs, hc, htext⟩ := d.exists_cons
  have hspace : isSpace '-' = false := by decide
  have hend : c ≠ '%' ∧ c ≠ '\x7d' := by
    constructor
    · rintro rfl
      cases hc
    · rintro rfl
      cases hc
  have hsolid : lexSolid (some last) depth ⟨pos + 1, '-' :: (d.text ++ ' ' :: rest)⟩ =
      if endsOperand last then lexMapped depth ⟨pos + 1, '-' :: (d.text ++ ' ' :: rest)⟩
      else lexSign depth ⟨pos + 1, '-' :: (d.text ++ ' ' :: rest)⟩ := by
    rw [htext]
    exact lexSolid_sign (.inl rfl) hend hlast
  have hneg : (Item.number ('-' :: d.text)).isNegative = true := isNegative_signed true d
  rw [cons_append]
  by_cases hends : endsOperand last = true
  · -- the sign is an operator, and then comes a number
    have hmapped : lexMapped depth ⟨pos + 1, '-' :: (d.text ++ ' ' :: rest)⟩ =
        .ok (some ⟨⟨.additiveBinaryOperator, "-", pos + 1⟩, depth,
          ⟨pos + 1 + 1, d.text ++ ' ' :: rest⟩⟩) := by
      rw [htext]
      exact lexMapped_minus hend
    have hminus : nextToken (some last) depth ⟨pos, ' ' :: '-' :: (d.text ++ ' ' :: rest)⟩ =
        .ok (some ⟨⟨.additiveBinaryOperator, "-", pos + 1⟩, depth,
          ⟨pos + 1 + 1, d.text ++ ' ' :: rest⟩⟩) := by
      rw [nextToken_space hspace, hsolid, if_pos hends, hmapped]
    have hdigits : nextToken (some .additiveBinaryOperator) depth
        ⟨pos + 1 + 1, d.text ++ ' ' :: rest⟩ =
          .ok (some ⟨⟨.numericLiteral, String.ofList d.text, pos + 1 + 1⟩, depth,
            ⟨pos + 1 + 1 + d.text.length, ' ' :: rest⟩⟩) := by
      rw [← lexMapped_number d, htext, cons_append, nextToken_digit hc,
        lexSolid_mapped (not_sign_of_isWord (isWord_of_isInteger hc))]
    rw [lexAll_step hlast.1 hminus, lexAll_step rfl hdigits, lexItem, hends]
    simp only [Nat.add_assoc, Nat.add_comm 1]
    rcases lexAll src (some .numericLiteral) depth ⟨_, ' ' :: rest⟩ with e | ts
    · rfl
    · rfl
  · have hnumber : nextToken (some last) depth ⟨pos, ' ' :: '-' :: (d.text ++ ' ' :: rest)⟩ =
        .ok (some ⟨⟨.numericLiteral, String.ofList ('-' :: d.text), pos + 1⟩, depth,
          ⟨pos + 1 + 1 + d.text.length, ' ' :: rest⟩⟩) := by
      rw [nextToken_space hspace, hsolid, if_neg hends, lexSign_number]
    rw [lexAll_step hlast.1 hnumber, lexItem, Bool.eq_false_iff.mpr hends]
    simp only [Nat.add_assoc, Nat.add_comm 1]
    rfl

/-- An operator `+` or `-` is lexed as it was printed, or as a sign. -/
lemma lexAll_sign (hd : d = '-' ∨ d = '+') (hlast : Inside last) :
    lexAll src (some last) depth ⟨pos, ' ' :: d :: ' ' :: rest⟩ = (lexAll src
        (some (if endsOperand last then .additiveBinaryOperator else .unaryOperator)) depth
          ⟨pos + 1 + 1, ' ' :: rest⟩).map
            (⟨if endsOperand last then .additiveBinaryOperator else .unaryOperator,
              String.singleton d, pos + 1⟩ :: ·) := by
  have hspace : isSpace d = false := by
    rcases hd with rfl | rfl
    · decide
    · decide
  have hsolid : lexSolid (some last) depth ⟨pos + 1, d :: ' ' :: rest⟩ = _ :=
    lexSolid_sign hd (by decide) hlast
  by_cases hends : endsOperand last = true
  · have hstep : nextToken (some last) depth ⟨pos, ' ' :: d :: ' ' :: rest⟩ =
        .ok (some ⟨⟨.additiveBinaryOperator, String.singleton d, pos + 1⟩, depth,
          ⟨pos + 1 + 1, ' ' :: rest⟩⟩) := by
      rw [nextToken_space hspace, hsolid, if_pos hends]
      rcases hd with rfl | rfl
      · rfl
      · rfl
    rw [lexAll_step hlast.1 hstep, if_pos hends]
  · have hstep : nextToken (some last) depth ⟨pos, ' ' :: d :: ' ' :: rest⟩ =
        .ok (some ⟨⟨.unaryOperator, String.singleton d, pos + 1⟩, depth,
          ⟨pos + 1 + 1, ' ' :: rest⟩⟩) := by
      have hnone : consumeWhile isInteger (pos + 1 + 1) (' ' :: rest) =
          .ok ([], ⟨pos + 1 + 1, ' ' :: rest⟩) := consumeWhile_stop (by decide)
      have hnum : consumeNumeric ⟨pos + 1 + 1, ' ' :: rest⟩ =
          .ok ([], ⟨pos + 1 + 1, ' ' :: rest⟩) := by
        rw [consumeNumeric, hnone]
        rfl
      rw [nextToken_space hspace, hsolid, if_neg hends]
      change (consumeNumeric ⟨pos + 1 + 1, ' ' :: rest⟩ >>= _) = _
      rw [hnum]
      rfl
    rw [lexAll_step hlast.1 hstep, if_neg hends]

/-- **A printed token is lexed.** -/
theorem lexAll_valid {i : Item} (hi : i.Valid) (hlast : Inside last) :
    lexAll src (some last) depth ⟨pos, ' ' :: (i.text ++ ' ' :: rest)⟩ =
      (lexAll src (some (lexLast last i)) (nextDepth depth i.t)
        ⟨pos + 1 + i.text.length, ' ' :: rest⟩).map (lexItem last (pos + 1) i ++ ·) := by
  cases hi with
  | @word value h =>
    obtain ⟨c, cs, htext⟩ : ∃ c cs, value.toList = c :: cs := by
      cases hv : value.toList with
      | nil =>
        rw [hv] at h
        cases h
      | cons c cs => exact ⟨c, cs, rfl⟩
    have hword : isWord c = true := by
      rw [htext] at h
      simp only [isName, Bool.and_eq_true] at h
      exact h.1.1
    have hmapped : lexMapped depth ⟨pos + 1, value.toList ++ ' ' :: rest⟩ = _ := lexMapped_word h
    rw [String.ofList_toList] at hmapped
    exact lexAll_item hlast.1 rfl rfl (nextToken_mapped (i := .word value) htext
      (isSpace_of_isWord hword) (not_sign_of_isWord hword) hmapped)
  | number negative d =>
    cases negative
    · have hneg := isNegative_signed false d
      rw [show lexItem last (pos + 1) (.number (signed false d.text)) =
        [⟨.numericLiteral, String.ofList d.text, pos + 1⟩] by rw [lexItem, hneg]; rfl]
      exact lexAll_number hlast.1 d
    · exact lexAll_negative hlast d
  | string val =>
    exact lexAll_item hlast.1 rfl rfl (nextToken_mapped (i := .string val) rfl (by decide)
      (by decide) (lexMapped_string val))
  | @plain t value h =>
    obtain ⟨c, cs, htext, hspace, hsign, hmapped⟩ := @lexMapped_punctuation depth (pos + 1) rest _ _ h
    have hplain : ∀ p ∈ punctuation, (Item.plain p.1 p.2).isNegative = false ∧
        (Item.plain p.1 p.2).isSign = false := by decide
    obtain ⟨hneg, hnosign⟩ := hplain _ h
    exact lexAll_item hlast.1 (by rw [hneg]; rfl) (by rw [hnosign]; rfl)
      (nextToken_mapped (i := .plain t value) htext hspace hsign hmapped)
  | @sign value h =>
    obtain ⟨d, hd, rfl⟩ : ∃ d, (d = '-' ∨ d = '+') ∧ value = String.singleton d := by
      rcases h with rfl | rfl
      · exact ⟨'+', .inr rfl, rfl⟩
      · exact ⟨'-', .inl rfl, rfl⟩
    have hlexed : lexAll src (some last) depth ⟨pos, ' ' :: d :: ' ' :: rest⟩ = _ :=
      lexAll_sign hd hlast
    have hneg : (Item.plain .additiveBinaryOperator (String.singleton d)).isNegative = false := rfl
    have hsign : (Item.plain .additiveBinaryOperator (String.singleton d)).isSign = true := by
      rcases hd with rfl | rfl
      · rfl
      · rfl
    have htext : (Item.plain .additiveBinaryOperator (String.singleton d)).text = [d] := by
      rcases hd with rfl | rfl
      · rfl
      · rfl
    rw [htext, lexItem, lexLast, hsign]
    cases hends : endsOperand last
    · rw [hends] at hlexed
      exact hlexed
    · rw [hends] at hlexed
      exact hlexed

end

/-! ## The template -/

/-- The depth after tokens. -/
def depthAfter (depth : ℕ) (items : List Item) : ℕ :=
  items.foldl (fun d i => nextDepth d i.t) depth

/-- The characters of tokens, with a space after each. -/
def textsOf (items : List Item) : List Char := items.flatMap fun i => i.text ++ [' ']

lemma inside_lexLast {last : TokenType} {i : Item} (hi : i.Valid) : Inside (lexLast last i) := by
  have htype : Inside i.t := by
    cases hi with
    | word => exact ⟨rfl, TokenType.noConfusion, TokenType.noConfusion⟩
    | number => exact ⟨rfl, TokenType.noConfusion, TokenType.noConfusion⟩
    | string => exact ⟨rfl, TokenType.noConfusion, TokenType.noConfusion⟩
    | plain h =>
      have hplain : ∀ p ∈ punctuation, closesTag p.1 = false ∧ p.1 ≠ .text ∧ p.1 ≠ .eof := by decide
      exact hplain _ h
    | sign => exact ⟨rfl, TokenType.noConfusion, TokenType.noConfusion⟩
  unfold lexLast
  split
  · exact ⟨rfl, TokenType.noConfusion, TokenType.noConfusion⟩
  · exact htype

/-- **Printed tokens are lexed, up to the end of the tag.** -/
theorem lexAll_items {items : List Item} {last : TokenType} {pos : ℕ}
    (hvalid : ∀ i ∈ items, i.Valid) (hlast : Inside last) (hdepth : depthAfter depth items = 0) :
    lexAll src (some last) depth ⟨pos, ' ' :: (textsOf items ++ "\x7d\x7d".toList)⟩ =
      .ok (lexItems last (pos + 1) items ++
        [⟨.closeExpression, "\x7d\x7d", pos + 1 + (textsOf items).length⟩]) := by
  induction items generalizing last depth pos with
  | nil =>
    obtain rfl : depth = 0 := hdepth
    have hclose : nextToken (some last) 0 ⟨pos, ' ' :: "\x7d\x7d".toList⟩ =
        .ok (some ⟨⟨.closeExpression, "\x7d\x7d", pos + 1⟩, 0, ⟨pos + 1 + 2, []⟩⟩) := rfl
    change lexAll src (some last) 0 ⟨pos, ' ' :: "\x7d\x7d".toList⟩ = _
    rw [lexAll_step hlast.1 hclose]
    rfl
  | cons i items ih =>
    obtain ⟨hi, hitems⟩ := forall_mem_cons.mp hvalid
    have htexts : ' ' :: (textsOf (i :: items) ++ "\x7d\x7d".toList) =
        ' ' :: (i.text ++ ' ' :: (textsOf items ++ "\x7d\x7d".toList)) := by
      simp [textsOf]
    have hlength : (textsOf (i :: items)).length = i.text.length + 1 + (textsOf items).length := by
      simp [textsOf]
      omega
    rw [htexts, lexAll_valid hi hlast, ih hitems (inside_lexLast hi) hdepth, lexItems, hlength,
      Nat.add_right_comm pos 1 i.text.length]
    simp only [Except.map, append_assoc, Nat.add_assoc, Nat.add_left_comm]

lemma dropCarriageReturns_eq (h : '\r' ∉ src) : dropCarriageReturns src = src := by
  fun_induction dropCarriageReturns src with
  | case1 => rfl
  | case2 => rfl
  | case3 c d rest hcd ih => exact absurd (mem_cons_self (a := '\r')) (hcd.1 ▸ h)
  | case4 c d rest hc ih => rw [ih (not_mem_of_not_mem_cons h)]

/-- A source without carriage returns that does not end with a line is scanned as it is. -/
lemma normalize_eq (h : '\r' ∉ src) (hlast : src.getLast? ≠ some '\n') : normalize src = src := by
  have hmap : src.map (fun c => if c = '\r' then '\n' else c) = src := by
    refine (map_congr_left fun c hc => ?_).trans (map_id src)
    have hne : c ≠ '\r' := fun heq => h (heq ▸ hc)
    rw [if_neg hne, id]
  simp only [normalize, dropCarriageReturns_eq h, hmap, if_neg hlast]

lemma not_mem_escapeChar (c : Char) : '\r' ∉ escapeChar c := by
  unfold escapeChar
  split
  · next e he =>
    have hplain : ∀ e ∈ escapeChars, '\r' ∉ ['\\', e.1] := by decide
    exact hplain e (mem_of_find?_eq_some he)
  · next he =>
    have hc : c ≠ '\r' := fun heq =>
      find?_eq_none.mp he ('r', '\r') (by decide) (by rw [heq]; rfl)
    simpa using Ne.symm hc

/-- No printed token has a carriage return. -/
lemma Item.Valid.not_mem {i : Item} (hi : i.Valid) : '\r' ∉ i.text := by
  have hdigits : ∀ cs : List Char, cs.all isInteger = true → '\r' ∉ cs := fun cs h hmem => by
    have := all_eq_true.mp h _ hmem
    cases this
  cases hi with
  | @word value h =>
    intro hmem
    change '\r' ∈ value.toList at hmem
    cases hv : value.toList with
    | nil => simp [hv] at hmem
    | cons c cs =>
      rw [hv] at h hmem
      simp only [isName, Bool.and_eq_true] at h
      rcases mem_cons.mp hmem with rfl | hmem
      · exact absurd h.1.1 (by decide)
      · exact absurd (all_eq_true.mp h.2 _ hmem) (by decide)
  | number negative d =>
    have hwhole := hdigits d.whole d.whole_digits
    have hfrac := hdigits d.frac d.frac_digits
    have htext : '\r' ∉ d.text := by
      simp only [Digits.text, fracText, mem_append, not_or]
      refine ⟨hwhole, ?_⟩
      split
      · exact not_mem_nil
      · simpa using hfrac
    cases negative
    · exact htext
    · simpa [Item.number, signed] using htext
  | string val =>
    simp only [Item.string, mem_append, mem_cons, mem_flatMap, not_or]
    refine ⟨⟨by decide, ?_⟩, by decide⟩
    rintro ⟨c, -, hc⟩
    exact not_mem_escapeChar c hc
  | @plain t value h =>
    have hplain : ∀ p ∈ punctuation, '\r' ∉ p.2.toList := by decide
    exact hplain _ h
  | @sign value h =>
    rcases h with rfl | rfl
    · decide
    · decide

/-- **The tokens of a printed template.** -/
theorem tokenize_sourceOf {items : List Item} (hvalid : ∀ i ∈ items, i.Valid)
    (hdepth : depthAfter 0 items = 0) :
    tokenize (sourceOf items) = .ok (⟨.openExpression, "\x7b\x7b", 0⟩ ::
      (lexItems .openExpression 3 items ++
        [⟨.closeExpression, "\x7d\x7d", 3 + (textsOf items).length⟩]), sourceOf items) := by
  have hsource : sourceOf items = '{' :: '{' :: ' ' :: (textsOf items ++ "\x7d\x7d".toList) := by
    simp [sourceOf, textsOf]
  have hreturn : '\r' ∉ sourceOf items := by
    have htexts : '\r' ∉ textsOf items := by
      simp only [textsOf, mem_flatMap, mem_append, not_exists, not_and, not_or]
      exact fun i hi => ⟨(hvalid i hi).not_mem, by decide⟩
    rw [hsource]
    simp [htexts]
  have hend : (sourceOf items).getLast? ≠ some '\n' := by
    rw [sourceOf, getLast?_append]
    exact fun h => (by cases h)
  have hne : sourceOf items ≠ [] := by
    exact cons_ne_nil _ _
  have hscan : scanText 0 (sourceOf items) = ⟨0, sourceOf items⟩ := by
    rfl
  have hopen : nextToken none 0 ⟨0, sourceOf items⟩ =
      .ok (some ⟨⟨.openExpression, "\x7b\x7b", 0⟩, 0,
        ⟨2, ' ' :: (textsOf items ++ "\x7d\x7d".toList)⟩⟩) := by
    rfl
  have hinside : Inside .openExpression := ⟨rfl, TokenType.noConfusion, TokenType.noConfusion⟩
  have hitems : lexAll (sourceOf items) (some .openExpression) 0
      ⟨2, ' ' :: (textsOf items ++ "\x7d\x7d".toList)⟩ = _ := lexAll_items hvalid hinside hdepth
  have hstrip : stripText (sourceOf items) 0 ⟨0, sourceOf items⟩ = [] :=
    stripText_self (sourceOf items) ⟨0, sourceOf items⟩
  have hall : lexAll (sourceOf items) none 0 ⟨0, sourceOf items⟩ =
      .ok (⟨.openExpression, "\x7b\x7b", 0⟩ :: (lexItems .openExpression 3 items ++
        [⟨.closeExpression, "\x7d\x7d", 3 + (textsOf items).length⟩])) := by
    rw [lexAll_eq, lexIteration, if_neg hne]
    simp only [Option.getD_none, closesTag, if_true, hscan, hstrip, ne_eq, not_true, if_false]
    rw [lexTag, hopen, except_ok_bind]
    simp only [hitems]
    rfl
  rw [tokenize, if_neg hne, normalize_eq hreturn hend]
  change (lexAll (sourceOf items) none 0 ⟨0, sourceOf items⟩ >>= _) = _
  rw [hall]
  rfl

end Llama.Jinja
