import Llama.Jinja.Expression.Parsing

/-!
# Signs in trees and in tokens

The parser never makes up a sign: the negative numbers of a tree, and its operators `+` and `-`, were
tokens.  A negative number counts twice, so that there is less in the tokens where it was taken apart
into an operator and a number.
-/

namespace Llama.Jinja

open Parser List

/-- The sign of an operator. -/
def opSigns (op : String) : ℕ := if op = "+" ∨ op = "-" then 1 else 0

/-- The signs of a token. -/
def tokenSigns (t : TokenType) (value : String) : ℕ :=
  (if t = .numericLiteral ∧ value.toList.head? = some '-' then 2 else 0) +
    if t ≠ .unaryOperator ∧ t ≠ .stringLiteral then opSigns value else 0

/-- The signs of a token. -/
def Token.signs (t : Token) : ℕ := tokenSigns t.t t.value

section

variable {α F : Type} (negative : F → Bool)

mutual

/-- The signs of the tree of an expression. -/
def Statement.signs : Statement α F → ℕ
  | .memberExpression _ object property _ => object.signs + property.signs
  | .callExpression _ callee args => callee.signs + listSigns args
  | .integerLiteral _ val => if val < 0 then 2 else 0
  | .floatLiteral _ val => if negative val then 2 else 0
  | .arrayLiteral _ val => listSigns val
  | .tupleLiteral _ val => listSigns val
  | .objectLiteral _ val => pairSigns val
  | .binaryExpression _ op left right => opSigns op + left.signs + right.signs
  | .filterExpression _ operand filter => operand.signs + filter.signs
  | .selectExpression _ lhs test => lhs.signs + test.signs
  | .testExpression _ operand _ test => operand.signs + test.signs
  | .unaryExpression _ _ argument => argument.signs
  | .sliceExpression _ start stop step => optionSigns start + optionSigns stop + optionSigns step
  | .keywordArgumentExpression _ key val => key.signs + val.signs
  | .spreadExpression _ argument => argument.signs
  | .ternaryExpression _ condition trueExpr falseExpr =>
    condition.signs + trueExpr.signs + falseExpr.signs
  | _ => 0

/-- The signs of trees. -/
def listSigns : List (Statement α F) → ℕ
  | [] => 0
  | e :: es => e.signs + listSigns es

/-- The signs of pairs of trees. -/
def pairSigns : List (Statement α F × Statement α F) → ℕ
  | [] => 0
  | (key, val) :: pairs => key.signs + val.signs + pairSigns pairs

/-- The signs of a tree that may be missing. -/
def optionSigns : Option (Statement α F) → ℕ
  | none => 0
  | some e => e.signs

end

end

attribute [local simp] Statement.signs

/-! ## Tokens -/

section

variable {β γ : Type} {u : β → ℕ} {k : ℕ}

/-- A value without signs. -/
lemma Costs.skip {m : Parse γ} {g : γ → Parse β} (h : Costs Token.signs (fun _ => 0) 0 m)
    (hg : ∀ c, Costs Token.signs u k (g c)) : Costs Token.signs u k (m >>= g) := h.bind hg

lemma costs_peek {g : Token → Parse β} {offset : ℕ} (hg : ∀ t, Costs Token.signs u k (g t)) :
    Costs Token.signs u k (peek offset >>= g) := by
  intro ts b rest h
  exact hg _ ts b rest h

lemma cost_tail_le (ts : List Token) : cost Token.signs ts.tail ≤ cost Token.signs ts := by
  cases ts with
  | nil => exact le_rfl
  | cons t ts =>
    exact Nat.le_add_left _ _

lemma costs_advance : Costs Token.signs (fun _ => 0) 0 advance := by
  intro ts b rest h
  cases h
  simpa using cost_tail_le ts

lemma costs_expect (type : TokenType) (error : String) :
    Costs Token.signs (fun _ => 0) 0 (expect type error) := by
  intro ts b rest h
  unfold expect at h
  simp only at h
  split at h
  · cases h
    simpa using cost_tail_le ts
  · cases h

lemma costs_skipIf (type : TokenType) : Costs Token.signs (fun _ => 0) 0 (skipIf type) := by
  refine costs_peek fun t => ?_
  split
  · exact costs_advance
  · exact costs_pure le_rfl

/-- What follows after a token was passed. -/
lemma costs_advance_bind {g : Unit → Parse β} (hg : Costs Token.signs u k (g ())) :
    Costs Token.signs u k (advance >>= g) :=
  Costs.skip costs_advance fun _ => hg

end

lemma costs_items {β : Type} {v : β → ℕ} {item : ℕ → Parse β}
    (h : ∀ n, Costs Token.signs v 0 (item n)) (close : TokenType) (n : ℕ) :
    Costs Token.signs (fun bs => (bs.map v).sum) 0 (parseItems close item n) := by
  induction n with
  | zero => exact costs_throw _
  | succ n ih =>
    refine costs_peek fun t => ?_
    split
    · exact costs_pure le_rfl
    · refine (h n).bind fun b => Costs.skip (costs_skipIf .comma) fun _ => ?_
      refine ih.bind fun bs => costs_pure ?_
      simp only [map_cons, sum_cons]
      omega

section

variable {α F : Type} {negative : F → Bool}

lemma listSigns_eq (es : List (Statement α F)) :
    listSigns negative es = (es.map (Statement.signs negative)).sum := by
  induction es with
  | nil => rw [listSigns, map_nil, sum_nil]
  | cons e es ih => rw [listSigns, ih, map_cons, sum_cons]

/-- The signs of a pair. -/
def pairSign (negative : F → Bool) (p : Statement α F × Statement α F) : ℕ :=
  p.1.signs negative + p.2.signs negative

lemma pairSigns_eq (ps : List (Statement α F × Statement α F)) :
    pairSigns negative ps = (ps.map (pairSign negative)).sum := by
  induction ps with
  | nil => rw [pairSigns, map_nil, sum_nil]
  | cons p ps ih => rw [pairSigns, ih, map_cons, sum_cons, pairSign]

/-! ## Primary expressions -/

/-- No number is made negative by its conversion. -/
def ReadsSigns (negative : F → Bool) (env : ParserEnv α F) : Prop :=
  ∀ text f, env.stod text = .ok f → negative f = true → text.toList.head? = some '-'

lemma ite_eq_ok {ε β : Type} {p : Prop} [Decidable p] {b b' : β} {e : ε}
    (h : (if p then Except.ok b else Except.error e) = .ok b') : b = b' := by
  split at h
  · cases h
    rfl
  · cases h

lemma stoll_neg {text : String} {i : ℤ} (h : stoll text = .ok i) (hneg : i < 0) :
    text.toList.head? = some '-' := by
  have hval := ite_eq_ok h
  split at hval
  · next heq =>
    rw [heq]
    rfl
  · omega
  · omega

/-- The signs of the statement that is parsed. -/
abbrev CostsSigns (negative : F → Bool) : ℕ → Parse (Statement α F) → Prop :=
  Costs Token.signs (Statement.signs negative)

variable {env : ParserEnv α F} {expr : Parse (Statement α F)}

lemma costs_number (hreads : ReadsSigns negative env) {t : Token}
    (ht : t.t = .numericLiteral) :
    CostsSigns negative t.signs (parseNumber env t) := by
  have hsign : t.value.toList.head? = some '-' → 2 ≤ t.signs := fun h => by
    rw [Token.signs, tokenSigns, if_pos ⟨ht, h⟩]
    exact Nat.le_add_right _ _
  intro ts b rest h
  unfold parseNumber at h
  split at h
  · split at h
    · next val hval =>
      cases h
      rw [Statement.signs]
      split
      · next hneg =>
        have := hsign (hreads _ _ hval hneg)
        omega
      · omega
    · cases h
  · split at h
    · next val hval =>
      cases h
      rw [Statement.signs]
      split
      · next hneg =>
        have := hsign (stoll_neg hval hneg)
        omega
      · omega
    · cases h

lemma costs_next : Costs Token.signs Token.signs 0 (next env) := by
  intro ts t rest h
  cases ts with
  | nil => cases h
  | cons t' ts =>
    cases h
    rw [cost_cons]
    omega

lemma costs_strings (n : ℕ) (val : String) :
    Costs Token.signs (fun _ => 0) 0 (parseStrings n val) := by
  induction n generalizing val with
  | zero => exact costs_throw _
  | succ n ih =>
    refine costs_peek fun t => ?_
    split
    · exact costs_advance_bind (ih _)
    · exact costs_pure le_rfl

section

variable (hexpr : CostsSigns negative 0 expr)

include hexpr

lemma costs_sequenceTail (n : ℕ) :
    Costs Token.signs (listSigns negative) 0 (parseSequenceTail expr n) := by
  induction n with
  | zero => exact costs_throw _
  | succ n ih =>
    refine costs_peek fun t => ?_
    split
    · refine costs_advance_bind (hexpr.bind fun e => ih.bind fun es => costs_pure ?_)
      rw [listSigns]
      omega
    · exact costs_pure (by rw [listSigns])

lemma costs_sequence (n : ℕ) : CostsSigns negative 0 (parseExpressionSequence env n expr) := by
  refine costs_peek fun t => hexpr.bind fun e =>
    (costs_sequenceTail hexpr n).bind fun es => costs_pure ?_
  split
  · omega
  · rw [Statement.signs, listSigns]
    omega

lemma costs_pair : Costs Token.signs (pairSign negative) 0 (parsePair expr) := by
  refine hexpr.bind fun key => Costs.skip (costs_expect _ _) fun _ =>
    hexpr.bind fun val => costs_pure ?_
  change key.signs negative + val.signs negative ≤ _
  omega

lemma costs_primary (hreads : ReadsSigns negative env) (n : ℕ) :
    CostsSigns negative 0 (parsePrimary env expr n) := by
  refine costs_next.bind fun t => ?_
  split
  · next ht => exact (costs_number hreads ht).weaken (by omega)
  · exact Costs.skip (costs_strings n _) fun val => costs_pure (Nat.zero_le _)
  · exact costs_pure (Nat.zero_le _)
  · refine (costs_sequence hexpr n).bind fun e => ?_
    exact Costs.skip (costs_expect _ _) fun _ => costs_pure (by omega)
  · refine (costs_items (fun _ => hexpr) _ n).bind fun vals => costs_advance_bind (costs_pure ?_)
    rw [Statement.signs, listSigns_eq]
    omega
  · refine (costs_items (fun _ => costs_pair hexpr) _ n).bind fun pairs =>
      costs_advance_bind (costs_pure ?_)
    rw [Statement.signs, pairSigns_eq]
    omega
  · exact costs_throw _

/-! ## Members and calls -/

/-- The signs of the parts of a slice. -/
def sliceSigns (negative : F → Bool) (r : List (Option (Statement α F)) × Bool) : ℕ :=
  (r.1.map (optionSigns negative)).sum

lemma costs_slices (n : ℕ) : Costs Token.signs (sliceSigns negative) 0 (parseSlices expr n) := by
  induction n with
  | zero => exact costs_throw _
  | succ n ih =>
    refine costs_peek fun t => ?_
    split
    · exact costs_pure le_rfl
    · split
      · refine costs_advance_bind (ih.bind fun r => costs_pure ?_)
        simp only [sliceSigns, map_cons, sum_cons, optionSigns]
        omega
      · refine hexpr.bind fun e => costs_peek fun c =>
          Costs.skip (costs_skipIf .colon) fun _ => ih.bind fun r => costs_pure ?_
        simp only [sliceSigns, map_cons, sum_cons, optionSigns]
        omega

lemma costs_memberArguments (n : ℕ) : CostsSigns negative 0 (parseMemberArguments env expr n) := by
  refine costs_peek fun t => (costs_slices hexpr n).bind fun r => costs_pure ?_
  obtain ⟨parts, found⟩ := r
  cases found
  · rcases parts with _ | ⟨_ | e, parts⟩
    · exact Nat.zero_le _
    · exact Nat.zero_le _
    · simp only [sliceSigns, map_cons, sum_cons, optionSigns]
      change e.signs negative ≤ _
      omega
  · rcases parts with _ | ⟨a, _ | ⟨b, _ | ⟨c, parts⟩⟩⟩
    all_goals
      simp only [sliceOf, if_true, Statement.signs, sliceSigns, map_cons, sum_cons,
        map_nil, sum_nil, getElem?_cons_zero, getElem?_cons_succ,
        getElem?_nil, Option.getD_some, Option.getD_none, optionSigns]
      omega

lemma costs_arg : CostsSigns negative 0 (parseArg env expr) := by
  refine costs_peek fun t => ?_
  split
  · refine costs_advance_bind (hexpr.bind fun e => costs_pure ?_)
    rw [Statement.signs]
    omega
  · refine hexpr.bind fun e => costs_peek fun u => ?_
    split
    · refine costs_advance_bind (hexpr.bind fun val => costs_pure ?_)
      rw [Statement.signs]
      omega
    · exact costs_pure (by omega)

lemma costs_args (n : ℕ) : Costs Token.signs (listSigns negative) 0 (parseArgs env expr n) := by
  refine Costs.skip (costs_expect _ _) fun _ =>
    (costs_items (fun _ => costs_arg hexpr) _ n).bind fun args =>
      Costs.skip (costs_expect _ _) fun _ => costs_pure ?_
  rw [listSigns_eq]
  omega

variable (hreads : ReadsSigns negative env)

include hreads

lemma costs_member (info : α) (n : ℕ) (object : Statement α F) :
    CostsSigns negative (object.signs negative)
      (parseMember env expr info n object) := by
  induction n generalizing object with
  | zero => exact costs_throw _
  | succ n ih =>
    refine costs_peek fun t => ?_
    split
    · refine costs_advance_bind ((costs_primary hexpr hreads n).bind fun prop => ?_)
      refine (ih _).weaken ?_
      rw [Statement.signs]
    · split
      · refine costs_advance_bind ((costs_memberArguments hexpr n).bind fun prop =>
          Costs.skip (costs_expect _ _) fun _ => ?_)
        refine (ih _).weaken ?_
        rw [Statement.signs]
      · exact costs_pure le_rfl

lemma costs_call (n : ℕ) (callee : Statement α F) : CostsSigns negative (callee.signs negative)
      (parseCall env expr n callee) := by
  induction n generalizing callee with
  | zero => exact costs_throw _
  | succ n ih =>
    refine costs_peek fun t => (costs_args hexpr n).bind fun args => costs_peek fun u => ?_
    have hmember := costs_member hexpr hreads (env.info u) n
      (.callExpression (env.info t) callee args)
    rw [Statement.signs] at hmember
    refine (hmember.weaken (by omega)).andThen fun member => costs_peek fun v => ?_
    split
    · exact ih member
    · exact costs_pure le_rfl

lemma costs_callMember (n : ℕ) : CostsSigns negative 0 (parseCallMember env expr n) := by
  refine (costs_primary hexpr hreads n).andThen fun object => costs_peek fun t =>
    (costs_member hexpr hreads _ n object).andThen fun member => costs_peek fun u => ?_
  split
  · exact costs_call hexpr hreads n member
  · exact costs_pure le_rfl

/-! ## Operators -/

lemma costs_name (n : ℕ) : CostsSigns negative 0 (parseName env expr n) := by
  refine (costs_primary hexpr hreads n).andThen fun name => costs_peek fun t => ?_
  split
  · exact costs_call hexpr hreads n name
  · exact costs_pure le_rfl

lemma costs_filters (n : ℕ) (operand : Statement α F) : CostsSigns negative (operand.signs negative)
      (parseFilters env expr n operand) := by
  induction n generalizing operand with
  | zero => exact costs_throw _
  | succ n ih =>
    refine costs_peek fun t => ?_
    split
    · refine costs_advance_bind ((costs_name hexpr hreads n).bind fun filter => ?_)
      refine (ih _).weaken ?_
      rw [Statement.signs]
    · exact costs_pure le_rfl

lemma costs_tests (n : ℕ) (operand : Statement α F) : CostsSigns negative (operand.signs negative)
      (parseTests env expr n operand) := by
  induction n generalizing operand with
  | zero => exact costs_throw _
  | succ n ih =>
    have hnot : Costs Token.signs (fun _ => 0) 0 skipNot := by
      refine costs_peek fun t => ?_
      split
      · exact costs_advance_bind (costs_pure le_rfl)
      · exact costs_pure le_rfl
    refine costs_peek fun t => ?_
    split
    · refine costs_advance_bind (Costs.skip hnot fun negate =>
        (costs_name hexpr hreads n).bind fun test => ?_)
      refine (ih _).weaken ?_
      rw [Statement.signs]
    · exact costs_pure le_rfl

lemma costs_test (n : ℕ) : CostsSigns negative 0 (parseTest env expr n) :=
  ((costs_callMember hexpr hreads n).andThen (costs_filters hexpr hreads n)).andThen
    (costs_tests hexpr hreads n)

end

/-- The sign of an operator that was found. -/
def foundSigns (o : Option (α × String)) : ℕ :=
  match o with
  | none => 0
  | some (_, op) => opSigns op

lemma opSigns_le {t : Token} (ht : t.t ≠ .unaryOperator ∧ t.t ≠ .stringLiteral) :
    opSigns t.value ≤ t.signs := by
  rw [Token.signs, tokenSigns, if_pos ht]
  exact Nat.le_add_left _ _

/-- A token that is taken as an operator. -/
lemma costs_found {ts : List Token}
    (ht : (first ts).t ≠ .unaryOperator ∧ (first ts).t ≠ .stringLiteral) :
    opSigns (first ts).value + cost Token.signs ts.tail ≤ 0 + cost Token.signs ts := by
  have hle := opSigns_le ht
  cases ts with
  | nil => exact Nat.le_of_eq rfl
  | cons t ts =>
    change opSigns t.value ≤ t.signs at hle
    change opSigns t.value + cost Token.signs ts ≤ _
    rw [cost_cons]
    omega

lemma costs_operatorOfType {type : TokenType} (ht : type ≠ .unaryOperator ∧ type ≠ .stringLiteral) :
    Costs Token.signs foundSigns 0 (operatorOfType env type) := by
  intro ts o rest h
  change (if (first ts).t = type then (do
    advance
    pure (some (env.info (first ts), (first ts).value))) else pure none : Parse _) ts = _ at h
  split at h
  · next hfound =>
    cases h
    rw [← hfound] at ht
    exact costs_found ht
  · cases h
    exact Nat.le_refl _

lemma isIdentifier_type {t : Token} {name : String} (h : t.isIdentifier name = true) :
    t.t ≠ .unaryOperator ∧ t.t ≠ .stringLiteral := by
  simp only [Token.isIdentifier, Bool.and_eq_true, beq_iff_eq] at h
  rw [h.1]
  exact ⟨TokenType.noConfusion, TokenType.noConfusion⟩

lemma costs_operatorOfName (name : String) :
    Costs Token.signs foundSigns 0 (operatorOfName env name) := by
  intro ts o rest h
  change (if (first ts).isIdentifier name = true then (do
    advance
    pure (some (env.info (first ts), (first ts).value))) else pure none : Parse _) ts = _ at h
  split at h
  · next hfound =>
    cases h
    exact costs_found (isIdentifier_type hfound)
  · cases h
    exact Nat.le_refl _

lemma costs_comparisonOperator : Costs Token.signs foundSigns 0 (comparisonOperator env) := by
  intro ts o rest h
  change (if ((first ts).isIdentifier "not" && ((ts[1]?).getD endToken).isIdentifier "in") = true
    then (do
      advance
      advance
      pure (some (env.info (first ts), "not in")))
    else if ((first ts).isIdentifier "in" || (first ts).t == .comparisonBinaryOperator) = true
    then (do
      advance
      pure (some (env.info (first ts), (first ts).value)))
    else pure none : Parse _) ts = _ at h
  split at h
  · cases h
    have hone := cost_tail_le ts
    have htwo := cost_tail_le ts.tail
    have hop : opSigns "not in" = 0 := rfl
    change opSigns "not in" + cost Token.signs ts.tail.tail ≤ _
    omega
  · split at h
    · next hfound =>
      cases h
      refine costs_found ?_
      rw [Bool.or_eq_true, beq_iff_eq] at hfound
      rcases hfound with hid | ht
      · exact isIdentifier_type hid
      · rw [ht]
        exact ⟨TokenType.noConfusion, TokenType.noConfusion⟩
    · cases h
      exact Nat.le_refl _

/-- A chain. -/
lemma costs_chain {op : Parse (Option (α × String))} {operand : ℕ → Parse (Statement α F)}
    (hop : Costs Token.signs foundSigns 0 op)
    (hoperand : ∀ n, CostsSigns negative 0 (operand n)) (n : ℕ)
    (left : Statement α F) :
    CostsSigns negative (left.signs negative)
      (parseChain op operand n left) := by
  induction n generalizing left with
  | zero => exact costs_throw _
  | succ n ih =>
    refine hop.bind fun o => ?_
    cases o with
    | none => exact costs_pure (Nat.le_add_right _ _)
    | some found =>
      obtain ⟨info, op'⟩ := found
      refine (hoperand n).bind fun right => (ih _).weaken ?_
      rw [Statement.signs]
      change _ ≤ left.signs negative + opSigns op' + _
      omega

section

variable (hexpr : CostsSigns negative 0 expr)
  (hreads : ReadsSigns negative env)

include hexpr hreads

lemma costs_comparison (n : ℕ) : CostsSigns negative 0 (parseComparison env expr n) := by
  have hmul : ∀ n, CostsSigns negative 0
      (parseMultiplicative env expr n) := fun n =>
    (costs_test hexpr hreads n).andThen (costs_chain (costs_operatorOfType
      ⟨TokenType.noConfusion, TokenType.noConfusion⟩) (costs_test hexpr hreads) n)
  have hadd : ∀ n, CostsSigns negative 0 (parseAdditive env expr n) :=
    fun n => (hmul n).andThen (costs_chain (costs_operatorOfType
      ⟨TokenType.noConfusion, TokenType.noConfusion⟩) hmul n)
  exact (hadd n).andThen (costs_chain costs_comparisonOperator hadd n)

lemma costs_not (n : ℕ) : CostsSigns negative 0 (parseNot env expr n) := by
  induction n with
  | zero => exact costs_throw _
  | succ n ih =>
    refine costs_peek fun t => ?_
    split
    · refine costs_advance_bind (ih.bind fun argument => costs_pure ?_)
      rw [Statement.signs]
      omega
    · exact costs_comparison hexpr hreads n

lemma costs_or (n : ℕ) : CostsSigns negative 0 (parseOr env expr n) := by
  have hand : ∀ n, CostsSigns negative 0 (parseAnd env expr n) :=
    fun n => (costs_not hexpr hreads n).andThen
      (costs_chain (costs_operatorOfName "and") (costs_not hexpr hreads) n)
  exact (hand n).andThen (costs_chain (costs_operatorOfName "or") hand n)

lemma costs_if (n : ℕ) : CostsSigns negative 0 (parseIf env expr n) := by
  refine (costs_or hexpr hreads n).andThen fun a => costs_peek fun t => ?_
  split
  · refine costs_advance_bind ((costs_or hexpr hreads n).bind fun test => costs_peek fun u => ?_)
    split
    · refine costs_advance_bind (hexpr.bind fun falseExpr => costs_pure ?_)
      rw [Statement.signs]
      omega
    · refine costs_pure ?_
      rw [Statement.signs]
  · exact costs_pure le_rfl

end

/-- **A tree has no more signs than the tokens that were taken for it.** -/
theorem costs_expression (hreads : ReadsSigns negative env) (n : ℕ) :
    CostsSigns negative 0 (parseExpression env n) := by
  induction n with
  | zero => exact costs_throw _
  | succ n ih => exact costs_if ih hreads n

end

/-! ## Printed tokens -/

/-- The signs of printed tokens. -/
def itemSigns (items : List Item) : ℕ := (items.map fun i => tokenSigns i.t i.value).sum

section

variable {is js : List Item}

lemma itemSigns_cons (i : Item) (is : List Item) :
    itemSigns (i :: is) = tokenSigns i.t i.value + itemSigns is := by
  rw [itemSigns, map_cons, sum_cons, itemSigns]

lemma itemSigns_append (is js : List Item) :
    itemSigns (is ++ js) = itemSigns is + itemSigns js := by
  rw [itemSigns, map_append, sum_append, itemSigns, itemSigns]

lemma itemSigns_plain {t : TokenType} {value : String} (h : (t, value) ∈ punctuation)
    (is : List Item) : itemSigns (.plain t value :: is) = itemSigns is := by
  have hplain : ∀ p ∈ punctuation, tokenSigns p.1 p.2 = 0 := by decide
  have hzero : tokenSigns t value = 0 := hplain _ h
  rw [itemSigns_cons, Item.plain, hzero, Nat.zero_add]

lemma itemSigns_paren (inner : Bool) (is : List Item) : itemSigns (paren inner is) = itemSigns is := by
  cases inner
  · rfl
  · simp (disch := decide) only [paren, if_true, itemSigns_append, itemSigns_plain]
    rfl

lemma itemSigns_joined (parts : List (List Item)) :
    itemSigns (joined parts) = (parts.map itemSigns).sum := by
  induction parts with
  | nil => rfl
  | cons is parts ih =>
    rw [joined, itemSigns_append, map_cons, sum_cons, ← ih]
    unfold separated
    split
    · rfl
    · rw [itemSigns_plain (by decide)]

/-- A word is no operator. -/
lemma itemSigns_word {value : String} (h : isName value.toList = true) (is : List Item) :
    itemSigns (.word value :: is) = itemSigns is := by
  have hop : ¬(value = "+" ∨ value = "-") := by
    rintro (rfl | rfl)
    · cases h
    · cases h
  have hsigns : opSigns value = 0 := if_neg hop
  rw [itemSigns_cons]
  simp [tokenSigns, Item.word, Item.plain, hsigns]

/-- A number has a sign or not. -/
lemma itemSigns_number (negative : Bool) (d : Digits) :
    itemSigns [.number (signed negative d.text)] = if negative then 2 else 0 := by
  obtain ⟨c, cs, hc, htext⟩ := d.exists_cons
  have hsign := not_sign_of_isWord (isWord_of_isInteger hc)
  have hop : opSigns (String.ofList (signed negative d.text)) = 0 := by
    refine if_neg ?_
    have hplus : "+".toList = ['+'] := rfl
    have hminus : "-".toList = ['-'] := rfl
    rw [← String.toList_inj, ← String.toList_inj, htext]
    cases negative
    · simp [signed, hsign.1, hsign.2]
    · simp [signed]
  have hhead : (String.ofList (signed negative d.text)).toList.head? = some '-' ↔
      negative = true := by
    cases negative
    · simp [signed, htext, hsign.1]
    · simp [signed]
  have htwo : (if TokenType.numericLiteral = .numericLiteral ∧
      (String.ofList (signed negative d.text)).toList.head? = some '-' then 2 else 0) =
        if negative then 2 else 0 := by
    simp only [true_and, hhead]
  change (if _ then 2 else 0) + opSigns (String.ofList (signed negative d.text)) + 0 = _
  rw [hop]
  exact htwo

lemma itemSigns_op (op : BinaryOp) : itemSigns op.items = opSigns op.name := by
  cases op
  all_goals decide

end

section

variable {F : Type} {D : Doubles F}

lemma signs_name (name : Ident) : (name.tree : Statement Unit F).signs D.negative = 0 := rfl

lemma itemSigns_name (name : Ident) (is : List Item) :
    itemSigns (.word name.name :: is) = itemSigns is := itemSigns_word name.word is

/-- An argument has the signs of its value. -/
lemma signs_arg (kind : ArgKind) {items : List Item} {b : Statement Unit F}
    (h : b.signs D.negative = itemSigns items) :
    (kind.tree b).signs D.negative = itemSigns (kind.items items) := by
  cases kind with
  | positional => exact h
  | keyword name =>
    rw [ArgKind.tree, Statement.signs, signs_name, h, ArgKind.items, itemSigns_name,
      itemSigns_plain (by decide), Nat.zero_add]
  | spread => rw [ArgKind.tree, Statement.signs, h, ArgKind.items, itemSigns_plain (by decide)]

lemma signs_args {args : List (ArgKind × Expr F)}
    (h : ∀ a ∈ args, a.2.tree.signs D.negative = itemSigns (a.2.items D)) :
    listSigns D.negative (argTrees args) = itemSigns (argItems D args) := by
  rw [argItems_eq, itemSigns_joined]
  induction args with
  | nil =>
    rfl
  | cons a args ih =>
    obtain ⟨ha, hargs⟩ := forall_mem_cons.mp h
    rw [argTrees, listSigns, ih hargs, signs_arg a.1 ha]
    rfl

lemma signs_call {args : List (ArgKind × Expr F)}
    (h : ∀ a ∈ args, a.2.tree.signs D.negative = itemSigns (a.2.items D)) :
    listSigns D.negative (argTrees args) =
      itemSigns (.plain .openParen "(" :: argItems D args ++ [.plain .closeParen ")"]) := by
  rw [signs_args h]
  simp (disch := decide) only [itemSigns_append, itemSigns_plain]
  rfl

lemma signs_callTree (name : Ident) {args : Option (List (ArgKind × Expr F))}
    (h : ∀ as ∈ args, ∀ a ∈ as, a.2.tree.signs D.negative = itemSigns (a.2.items D)) :
    (callTree name.tree args).signs D.negative =
      itemSigns (.word name.name :: callItems D args) := by
  rw [itemSigns_name]
  cases args with
  | none =>
    rfl
  | some as =>
    rw [callTree, callItems, Statement.signs, signs_name, signs_call (h as rfl), Nat.zero_add]

lemma signs_option {o : Option (Expr F)}
    (h : ∀ e ∈ o, e.tree.signs D.negative = itemSigns (e.items D)) :
    optionSigns D.negative (optionTree o) = itemSigns (optionItems D o) ∧
      optionSigns D.negative (optionTree o) = itemSigns (stepItems D o) := by
  cases o with
  | none =>
    exact ⟨rfl, rfl⟩
  | some e =>
    rw [optionTree, optionSigns, stepItems, h e rfl, itemSigns_plain (by decide)]
    exact ⟨rfl, rfl⟩

/-- **The tree of an expression has the signs of the printed tokens.** -/
theorem signs_tree (e : Expr F) : e.tree.signs D.negative = itemSigns (e.items D) := by
  induction e using Expr.induct with
  | identifier name =>
    rw [Expr.items, itemSigns_name]
    rfl
  | integer val =>
    have hdigits : (Nat.toDigits 10 val.val.natAbs).all isInteger = true :=
      all_eq_true.mpr fun c hc => Nat.isDigit_of_mem_toDigits (by decide) (by decide) hc
    have hnumber := itemSigns_number (val.val < 0)
      ⟨Nat.toDigits 10 val.val.natAbs, [], Nat.toDigits_ne_nil, hdigits, rfl⟩
    rw [Digits.text, fracText, if_pos rfl, append_nil] at hnumber
    rw [Expr.items, Expr.tree, Statement.signs, Integer.text, hnumber]
    simp only [decide_eq_true_eq]
  | float val =>
    have hnumber := itemSigns_number (D.negative val) ⟨D.whole val, D.frac val,
      (D.whole_digits val).1, (D.whole_digits val).2, (D.frac_digits val).2⟩
    rw [Digits.text, fracText, if_neg (D.frac_digits val).1] at hnumber
    rw [Expr.items, Expr.tree, Statement.signs, Doubles.text, hnumber]
  | string val =>
    rfl
  | list vals ih =>
    rw [Expr.items, Expr.tree, Statement.signs, listItems_eq, itemSigns_append,
      itemSigns_plain (by decide), itemSigns_plain (by decide), itemSigns_joined]
    induction vals with
    | nil =>
      rfl
    | cons e es ihes =>
      obtain ⟨he, hes⟩ := forall_mem_cons.mp ih
      rw [listTrees, listSigns, ihes hes, he, map_cons, map_cons, sum_cons, Nat.add_assoc]
  | dict pairs ih =>
    rw [Expr.items, Expr.tree, Statement.signs, pairItems_eq, itemSigns_append,
      itemSigns_plain (by decide), itemSigns_plain (by decide), itemSigns_joined]
    induction pairs with
    | nil =>
      rfl
    | cons p ps ihps =>
      obtain ⟨hp, hps⟩ := forall_mem_cons.mp ih
      rw [pairTrees, pairSigns, ihps hps, hp.1, hp.2, map_cons, map_cons, sum_cons,
        pairText, itemSigns_append, itemSigns_plain (by decide)]
      omega
  | dot object name ih =>
    rw [Expr.items, Expr.tree, Statement.signs, itemSigns_append, itemSigns_paren,
      itemSigns_plain (by decide), itemSigns_name, ih, signs_name]
    rfl
  | index object property ih ih' =>
    rw [Expr.items, Expr.tree, Statement.signs, itemSigns_append, itemSigns_append,
      itemSigns_paren, itemSigns_plain (by decide), itemSigns_plain (by decide), ih, ih']
    rfl
  | slice object start stop step ih hstart hstop hstep =>
    rw [Expr.items, Expr.tree, Statement.signs, Statement.signs, (signs_option hstart).1,
      (signs_option hstop).1, (signs_option hstep).2, ih]
    simp (disch := decide) only [itemSigns_append, itemSigns_paren, itemSigns_plain]
    change _ = _ + 0
    omega
  | call callee args ih hargs =>
    rw [Expr.items, Expr.tree, Statement.signs, append_assoc, itemSigns_append,
      itemSigns_paren, ih, signs_call hargs]
  | filter operand name args ih hargs =>
    rw [Expr.items, Expr.tree, Statement.signs, itemSigns_append, itemSigns_paren,
      itemSigns_plain (by decide), ih, signs_callTree name hargs]
  | test operand negate name args ih hargs =>
    have hnegate : itemSigns (if negate then [.word "not"] else []) = 0 := by
      cases negate
      · rfl
      · rfl
    rw [Expr.items, Expr.tree, Statement.signs, itemSigns_append, itemSigns_append,
      itemSigns_paren, itemSigns_word rfl, hnegate, ih, signs_callTree name hargs]
    rfl
  | binary op left right ih ih' =>
    rw [Expr.items, Expr.tree, Statement.signs, itemSigns_append, itemSigns_append,
      itemSigns_paren, itemSigns_paren, itemSigns_op, ih, ih']
    omega
  | not argument ih =>
    rw [Expr.items, Expr.tree, Statement.signs, itemSigns_word rfl, itemSigns_paren, ih]
  | ternary condition trueExpr falseExpr ih ih' ih'' =>
    rw [Expr.items, Expr.tree, Statement.signs, itemSigns_append, itemSigns_append,
      itemSigns_word rfl, itemSigns_word rfl, itemSigns_paren, itemSigns_paren, ih, ih', ih'']
    omega

end

end Llama.Jinja
