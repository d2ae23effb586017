import Llama.Jinja.Expression.Signs

/-!
# The round trip of expressions

A printed expression is lexed and parsed to its tree exactly when the lexer takes every sign for what
it was printed as.  Where it does not, there is less of a sign in the tokens than in the tree.
-/

namespace Llama.Jinja

open Parser List

/-- No negative number stands after a word or another operand, and no operator `+` or `-` stands
after something else. -/
def signsClear : TokenType → List Item → Bool
  | _, [] => true
  | last, i :: is =>
    !(i.isNegative && endsOperand last) && !(i.isSign && !endsOperand last) && signsClear i.t is

/-- What is printed of an expression is lexed and parsed to its tree, if the bound is large
enough. -/
def RoundTrips {F : Type} (D : Doubles F) (e : Expr F) : Prop :=
  ∃ tokens src, tokenize (sourceOf (e.items D)) = .ok (tokens, src) ∧
    ∃ N, ∀ n, N ≤ n → parseFromTokens (fun _ => ()) D.stod n tokens = .ok [e.tree]

/-! ## What is lexed -/

section

variable {last : TokenType} {items : List Item}

lemma lexItems_clear (h : signsClear last items = true) (pos : ℕ) :
    lexItems last pos items = place pos items := by
  induction items generalizing last pos with
  | nil => rfl
  | cons i is ih =>
    simp only [signsClear, Bool.and_eq_true, Bool.not_eq_true'] at h
    obtain ⟨⟨hneg, hsign⟩, his⟩ := h
    rw [lexItems, lexItem, lexLast, hneg, hsign]
    exact congrArg _ (ih his _)

/-- A sign that is taken for something else. -/
def Item.mistaken (last : TokenType) (i : Item) : Bool :=
  i.isNegative && endsOperand last || i.isSign && !endsOperand last

lemma cost_single (t : Token) : cost Token.signs [t] = t.signs := by
  rfl

/-- A token is lexed to as many signs, or to one less if its sign is taken for something else. -/
lemma cost_lexItem {i : Item} (hi : i.Valid) (last : TokenType) (pos : ℕ) :
    cost Token.signs (lexItem last pos i) + (if i.mistaken last then 1 else 0) =
      tokenSigns i.t i.value := by
  unfold lexItem Item.mistaken
  cases hneg : i.isNegative && endsOperand last
  · cases hsign : i.isSign && !endsOperand last
    · exact cost_single _
    · rw [Bool.and_eq_true, Item.isSign, Bool.and_eq_true, beq_iff_eq] at hsign
      obtain ⟨⟨ht, hvalue⟩, -⟩ := hsign
      have hop : opSigns i.value = 1 := if_pos (by simpa using hvalue)
      have hunary : tokenSigns .unaryOperator i.value = 0 := rfl
      have hadd : tokenSigns .additiveBinaryOperator i.value = opSigns i.value := Nat.zero_add _
      rw [ht, hadd, hop]
      change cost Token.signs [⟨.unaryOperator, i.value, pos⟩] + 1 = 1
      rw [cost_single, Token.signs, hunary]
  · rw [Bool.and_eq_true] at hneg
    cases hi with
    | number negative d =>
      obtain rfl : negative = true := by
        rw [← isNegative_signed negative d]
        exact hneg.1
      have hall := itemSigns_number true d
      have hdigits := itemSigns_number false d
      have hminus : tokenSigns .additiveBinaryOperator "-" = 1 := by decide
      have hnumber : (⟨.numericLiteral, String.ofList d.text, pos + 1⟩ : Token).signs = 0 := hdigits
      change cost Token.signs [⟨.additiveBinaryOperator, "-", pos⟩,
        ⟨.numericLiteral, String.ofList d.text, pos + 1⟩] + 1 = _
      rw [cost_cons, cost_single, hnumber]
      exact hall.symm
    | word => cases hneg.1
    | string => cases hneg.1
    | plain h =>
      have hplain : ∀ p ∈ punctuation, (Item.plain p.1 p.2).isNegative = false := by decide
      have hfalse := hneg.1
      rw [hplain _ h] at hfalse
      cases hfalse
    | sign => cases hneg.1

lemma cost_lexItems_le (hvalid : ∀ i ∈ items, i.Valid) (last : TokenType) (pos : ℕ) :
    cost Token.signs (lexItems last pos items) ≤ itemSigns items := by
  induction items generalizing last pos with
  | nil => exact Nat.le_refl _
  | cons i is ih =>
    obtain ⟨hi, his⟩ := forall_mem_cons.mp hvalid
    have hitem := cost_lexItem hi last pos
    have htail := ih his (lexLast last i) (pos + i.text.length + 1)
    rw [lexItems, cost_append, itemSigns_cons]
    omega

/-- **Where a sign is not clear, there is less of a sign in the tokens.** -/
theorem cost_lexItems (hvalid : ∀ i ∈ items, i.Valid) (h : signsClear last items = false)
    (pos : ℕ) : cost Token.signs (lexItems last pos items) < itemSigns items := by
  induction items generalizing last pos with
  | nil => cases h
  | cons i is ih =>
    obtain ⟨hi, his⟩ := forall_mem_cons.mp hvalid
    have hitem := cost_lexItem hi last pos
    have hle := cost_lexItems_le his (lexLast last i) (pos + i.text.length + 1)
    rw [lexItems, cost_append, itemSigns_cons]
    cases hmistaken : i.mistaken last
    · rw [Item.mistaken, Bool.or_eq_false_iff] at hmistaken
      have hrest : signsClear (lexLast last i) is = false := by
        rw [signsClear, hmistaken.1, hmistaken.2] at h
        rw [lexLast, hmistaken.2]
        exact h
      have htail := ih his hrest (pos + i.text.length + 1)
      omega
    · rw [hmistaken] at hitem
      have hone : cost Token.signs (lexItem last pos i) + 1 = tokenSigns i.t i.value := hitem
      omega

end

section

variable {F : Type} {env : ParserEnv Unit F} {tokens : List Token} {tree : Statement Unit F}
  {pos pos' : ℕ}

lemma parseProgram_cons {any : Parse (Statement Unit F)} (n : ℕ) (t : Token) :
    parseProgram any (n + 1) (t :: tokens) = (do
      let s ← any
      let ss ← parseProgram any n
      pure (s :: ss)) (t :: tokens) := by
  rw [parseProgram]
  exact if_neg (cons_ne_nil t tokens)

/-- A template with an expression. -/
lemma parse_expression {k n : ℕ}
    (h : parseExpression env k (tokens ++ [⟨.closeExpression, "\x7d\x7d", pos'⟩]) =
      .ok (tree, [⟨.closeExpression, "\x7d\x7d", pos'⟩])) :
    parseProgram (parseAny env (k + 1)) (n + 2) (⟨.openExpression, "\x7b\x7b", pos⟩ ::
      (tokens ++ [⟨.closeExpression, "\x7d\x7d", pos'⟩])) = .ok ([tree], []) := by
  have hjinja : parseJinjaExpression env k (⟨.openExpression, "\x7b\x7b", pos⟩ ::
      (tokens ++ [⟨.closeExpression, "\x7d\x7d", pos'⟩])) = .ok (tree, []) := by
    rw [parseJinjaExpression, bind_ok rfl]
    change (parseExpression env k >>= _ : Parse _) (tokens ++ _) = _
    rw [bind_ok h]
    rfl
  have hany : parseAny env (k + 1) (⟨.openExpression, "\x7b\x7b", pos⟩ ::
      (tokens ++ [⟨.closeExpression, "\x7d\x7d", pos'⟩])) = .ok (tree, []) := hjinja
  rw [parseProgram_cons, bind_ok hany]
  rfl

/-- Where a template with an expression is parsed, the expression is. -/
lemma expression_of_parse {n m : ℕ} {left : List Token}
    (h : parseProgram (parseAny env n) m (⟨.openExpression, "\x7b\x7b", pos⟩ :: tokens) =
      .ok ([tree], left)) :
    ∃ k rest, parseExpression env k tokens = .ok (tree, rest) := by
  cases m with
  | zero => cases h
  | succ m =>
    obtain ⟨s, ts, hany, h⟩ := bind_eq_ok.mp h
    obtain ⟨ss, ts', -, h⟩ := bind_eq_ok.mp h
    cases h
    cases n with
    | zero => cases hany
    | succ k =>
      have hjinja : parseJinjaExpression env k (⟨.openExpression, "\x7b\x7b", pos⟩ :: tokens) =
          .ok (tree, ts) := hany
      obtain ⟨t, ts₁, hopen, hjinja⟩ := bind_eq_ok.mp hjinja
      cases hopen
      obtain ⟨e, ts₂, hexpr, hjinja⟩ := bind_eq_ok.mp hjinja
      obtain ⟨t', ts₃, -, hjinja⟩ := bind_eq_ok.mp hjinja
      cases hjinja
      exact ⟨k, ts₂, hexpr⟩

end

section

variable {F : Type} (D : Doubles F) (e : Expr F)

lemma reads_doubles (last : ℕ) :
    ReadsSigns D.negative (⟨fun _ => (), D.stod, last⟩ : ParserEnv Unit F) := D.stod_sign

variable {D e}

/-- Where a printed expression is parsed to its tree, every sign is clear. -/
lemma RoundTrips.signsClear (h : RoundTrips D e) :
    signsClear .openExpression (e.items D) = true := by
  obtain ⟨tokens, src, hlex, N, hN⟩ := h
  rw [tokenize_items D e] at hlex
  cases hlex
  obtain ⟨r, hprogram, hr⟩ := except_bind_eq_ok.mp (hN N le_rfl)
  obtain ⟨trees, left⟩ := r
  obtain rfl : trees = [e.tree] := by
    cases hr
    rfl
  obtain ⟨k, rest, hexpr⟩ := expression_of_parse hprogram
  have hcost := costs_expression (reads_doubles D _) k _ _ _ hexpr
  have hclose : cost Token.signs [⟨.closeExpression, "\x7d\x7d",
      3 + (textsOf (e.items D)).length⟩] = 0 := rfl
  rw [cost_append, signs_tree] at hcost
  by_contra hclear
  have hless := cost_lexItems (printed_valid.items e) (Bool.eq_false_iff.mpr hclear) 3
  omega

/-- Where every sign is clear, a printed expression is parsed to its tree. -/
lemma roundTrips_of_signsClear (h : Jinja.signsClear .openExpression (e.items D) = true) :
    RoundTrips D e := by
  refine ⟨_, _, tokenize_items D e, ?_⟩
  rw [lexItems_clear h]
  have hparsed : Parsed D (⟨fun _ => (), D.stod, endPos (⟨.openExpression, "\x7b\x7b", 0⟩ ::
      (place 3 (e.items D) ++ [⟨.closeExpression, "\x7d\x7d",
        3 + (textsOf (e.items D)).length⟩]))⟩ : ParserEnv Unit F) e := parsed rfl e
  have hstop : Stops 0 [⟨.closeExpression, "\x7d\x7d", 3 + (textsOf (e.items D)).length⟩] :=
    stops_of_none rfl
  obtain ⟨N, hN⟩ := hparsed.zero.expression hstop 3
  refine ⟨N.1.1 + 2, fun n hn => ?_⟩
  obtain ⟨n, rfl⟩ : ∃ n', n = n' + 2 := ⟨n - 2, by omega⟩
  have hexpr := hN ((n + 1, N.1.2), N.2) ⟨⟨(by omega : N.1.1 ≤ n + 1), le_rfl⟩, le_rfl⟩
  rw [parseFromTokens]
  simp only [parse_expression hexpr]
  rfl

end

/-- **A printed expression is parsed to its tree exactly if every sign is clear.** -/
theorem roundTrips_iff {F : Type} (D : Doubles F) (e : Expr F) :
    RoundTrips D e ↔ signsClear .openExpression (e.items D) = true :=
  ⟨RoundTrips.signsClear, roundTrips_of_signsClear⟩

/-! ## Decimal fractions -/

/-- A decimal fraction, as it is written. -/
structure Decimal where
  negative : Bool
  whole : List Char
  frac : List Char
  whole_digits : whole ≠ [] ∧ whole.all isInteger = true
  frac_digits : frac ≠ [] ∧ frac.all isInteger = true

/-- The decimal fraction with a sign and these digits. -/
def Decimal.ofParts (negative : Bool) (whole frac : List Char) : Except ParseError Decimal :=
  if h : (whole ≠ [] ∧ whole.all isInteger = true) ∧ (frac ≠ [] ∧ frac.all isInteger = true) then
    .ok ⟨negative, whole, frac, h.1, h.2⟩
  else .error (.outOfRange "stod")

/-- Read a decimal fraction. -/
def Decimal.read (text : List Char) : Except ParseError Decimal :=
  let negative := text.head? == some '-'
  let digits := if negative then text.tail else text
  ofParts negative (digits.takeWhile isInteger) (digits.dropWhile isInteger).tail

lemma Decimal.ofParts_negative {negative : Bool} {whole frac : List Char} {d : Decimal}
    (h : ofParts negative whole frac = .ok d) : d.negative = negative := by
  unfold ofParts at h
  split at h
  · cases h
    rfl
  · cases h

lemma Decimal.read_text (d : Decimal) :
    read (signed d.negative (d.whole ++ '.' :: d.frac)) = .ok d := by
  obtain ⟨negative, whole, frac, hwhole, hfrac⟩ := d
  have htake : (whole ++ '.' :: frac).takeWhile isInteger = whole := by
    rw [takeWhile_append_of_pos (all_eq_true.mp hwhole.2)]
    exact append_nil whole
  have hdrop : (whole ++ '.' :: frac).dropWhile isInteger = '.' :: frac := by
    rw [dropWhile_append_of_pos (all_eq_true.mp hwhole.2)]
    rfl
  have hhead : ((signed negative (whole ++ '.' :: frac)).head? == some '-') = negative := by
    obtain ⟨c, cs, rfl⟩ := exists_cons_of_ne_nil hwhole.1
    have hc : isInteger c = true := all_eq_true.mp hwhole.2 c mem_cons_self
    have hdash := (not_sign_of_isWord (isWord_of_isInteger hc)).1
    cases negative
    · simpa [signed] using hdash
    · rfl
  have hdigits : (if negative then (signed negative (whole ++ '.' :: frac)).tail
      else signed negative (whole ++ '.' :: frac)) = whole ++ '.' :: frac := by
    cases negative
    · rfl
    · rfl
  unfold read
  simp only [hhead, hdigits, htake, hdrop]
  exact dif_pos ⟨hwhole, hfrac⟩

/-- Decimal fractions are read as they are written. -/
def decimals : Doubles Decimal where
  stod text := Decimal.read text.toList
  negative := Decimal.negative
  whole := Decimal.whole
  frac := Decimal.frac
  whole_digits := Decimal.whole_digits
  frac_digits := Decimal.frac_digits
  stod_text d := by
    rw [String.toList_ofList]
    exact d.read_text
  stod_sign text d h hneg := by
    have hsign := Decimal.ofParts_negative h
    rw [hneg] at hsign
    simpa using hsign.symm

/-- `a or -1`. -/
def orMinusOne : Expr Decimal :=
  .binary .logicalOr (.identifier ⟨"a", by decide, by decide⟩)
    (.integer ⟨-1, by decide, by decide⟩)

/-- `{} + 1`. -/
def dictPlusOne : Expr Decimal := .binary .add (.dict []) (.integer ⟨1, by decide, by decide⟩)

/-- A negative number after a keyword, or a sign after a dict, is not read back. -/
theorem not_roundTrips : ¬RoundTrips decimals orMinusOne ∧ ¬RoundTrips decimals dictPlusOne := by
  refine ⟨fun h => ?_, fun h => ?_⟩
  · exact absurd h.signsClear (by decide +kernel)
  · exact absurd h.signsClear (by decide +kernel)

end Llama.Jinja
