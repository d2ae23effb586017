import Llama.Jinja.Expression.Printed
import Mathlib.Tactic.IntervalCases

/-!
# The parser's levels of precedence

At every level of precedence the parser takes an operand of the next level and then runs a loop: over
the operators of a chain, over tests, filters, or members and calls.  A token that continues the loop
of a level does not end an expression of that level.
-/

namespace Llama.Jinja

open Parser Token Takes

/-- The bounds: on the depth of expressions, on calls, and on everything else. -/
abbrev Bounds := (ℕ × ℕ) × ℕ

section

variable {F : Type} (env : ParserEnv Unit F)

/-- The function of a level of precedence. -/
def parseLevel : ℕ → Bounds → Parse (Statement Unit F)
  | 0, n => parseIf env (parseExpression env n.1.1) n.2
  | 1, n => parseOr env (parseExpression env n.1.1) n.2
  | 2, n => parseAnd env (parseExpression env n.1.1) n.2
  | 3, n => parseNot env (parseExpression env n.1.1) n.2
  | 4, n => parseComparison env (parseExpression env n.1.1) n.2
  | 5, n => parseAdditive env (parseExpression env n.1.1) n.2
  | 6, n => parseMultiplicative env (parseExpression env n.1.1) n.2
  | 7, n => parseTest env (parseExpression env n.1.1) n.2
  | 8, n => parseFilter env (parseExpression env n.1.1) n.2
  | 9, n => parseCallMember env (parseExpression env n.1.1) n.2
  | _, n => parsePrimary env (parseExpression env n.1.1) n.2

/-- The operator of a level. -/
def levelOp : ℕ → Parse (Option (Unit × String))
  | 1 => operatorOfName env "or"
  | 2 => operatorOfName env "and"
  | 4 => comparisonOperator env
  | 5 => operatorOfType env .additiveBinaryOperator
  | 6 => operatorOfType env .multiplicativeBinaryOperator
  | _ => pure none

/-- The chain of a level. -/
def levelChain (level : ℕ) (left : Statement Unit F) (n : Bounds) : Parse (Statement Unit F) :=
  parseChain (levelOp env level) (fun m => parseLevel env (level + 1) (n.1, m)) n.2 left

/-- The members and the calls of an object, with separate bounds. -/
def parseMembers (object : Statement Unit F) (n : Bounds) : Parse (Statement Unit F) := do
  let t ← peek 0
  let member ← parseMember env (parseExpression env n.1.1) (env.info t) n.2 object
  let u ← peek 0
  if u.t = .openParen then parseCall env (parseExpression env n.1.1) n.1.2 member else pure member

/-- The loop of a level. -/
def parseLoop : ℕ → Statement Unit F → Bounds → Parse (Statement Unit F)
  | 1 => levelChain env 1
  | 2 => levelChain env 2
  | 4 => levelChain env 4
  | 5 => levelChain env 5
  | 6 => levelChain env 6
  | 7 => fun operand n => parseTests env (parseExpression env n.1.1) n.2 operand
  | 8 => fun operand n => parseFilters env (parseExpression env n.1.1) n.2 operand
  | 9 => parseMembers env
  | _ => fun operand _ => pure operand

end

/-! ## Tokens that continue a loop -/

/-- The level whose loop a token continues. -/
def Token.binds (t : Token) : Option ℕ :=
  match t.t with
  | .identifier =>
    [("if", 0), ("or", 1), ("and", 2), ("not", 4), ("in", 4), ("is", 7)].lookup t.value
  | .comparisonBinaryOperator => some 4
  | .additiveBinaryOperator => some 5
  | .multiplicativeBinaryOperator => some 6
  | .pipe => some 8
  | .dot => some 9
  | .openSquareBracket => some 9
  | .openParen => some 9
  | .stringLiteral => some 10
  | _ => none

/-- The first token. -/
def first (ts : List Token) : Token := (ts[0]?).getD endToken

/-- No loop from a level on is continued. -/
def Stops (level : ℕ) (ts : List Token) : Prop := ∀ l, (first ts).binds = some l → l < level

lemma Stops.mono {level level' : ℕ} {ts : List Token} (h : Stops level ts) (hle : level ≤ level') :
    Stops level' ts := fun l hl => (h l hl).trans_le hle

section

variable {F : Type} {env : ParserEnv Unit F} {ts rest : List Token} {b b' : Statement Unit F}

lemma peek_first (ts : List Token) : peek 0 ts = .ok (first ts, ts) := rfl

lemma advance_cons (t : Token) (ts : List Token) : advance (t :: ts) = .ok ((), ts) := rfl

variable {level : ℕ}

lemma not_isIdentifier {l : ℕ} {name : String} (h : Stops level ts) (hle : level ≤ l)
    (hname : [("if", 0), ("or", 1), ("and", 2), ("not", 4), ("in", 4), ("is", 7)].lookup name =
      some l) : (first ts).isIdentifier name = false := by
  refine Bool.eq_false_iff.mpr fun hid => ?_
  simp only [isIdentifier, Bool.and_eq_true, beq_iff_eq] at hid
  have hbinds : (first ts).binds = some l := by
    rw [binds, hid.1, hid.2]
    exact hname
  have := h l hbinds
  omega

lemma not_type {l : ℕ} {type : TokenType} (h : Stops level ts) (hle : level ≤ l)
    (htype : ∀ t : Token, t.t = type → t.binds = some l) : (first ts).t ≠ type := by
  intro ht
  have := h l (htype _ ht)
  omega

/-! ## Chains -/

lemma operatorOfName_none {name : String} (h : (first ts).isIdentifier name = false) :
    operatorOfName env name ts = .ok (none, ts) := by
  change (if (first ts).isIdentifier name = true then _ else _ : Parse _) ts = _
  rw [h]
  rfl

lemma operatorOfType_none {type : TokenType} (h : (first ts).t ≠ type) :
    operatorOfType env type ts = .ok (none, ts) := by
  change (if (first ts).t = type then _ else _ : Parse _) ts = _
  rw [if_neg h]
  rfl

lemma comparisonOperator_none (hnot : (first ts).isIdentifier "not" = false)
    (hin : (first ts).isIdentifier "in" = false)
    (ht : (first ts).t ≠ .comparisonBinaryOperator) :
    comparisonOperator env ts = .ok (none, ts) := by
  have hno : ((first ts).t == .comparisonBinaryOperator) = false := by simpa using ht
  change (if ((first ts).isIdentifier "not" && ((ts[1]?).getD endToken).isIdentifier "in") = true
    then _ else if ((first ts).isIdentifier "in" ||
      ((first ts).t == .comparisonBinaryOperator)) = true then _ else _ : Parse _) ts = _
  rw [hnot, hin, hno]
  rfl

/-- There is no operator of the level. -/
lemma levelOp_none (h : Stops level ts) : levelOp env level ts = .ok (none, ts) := by
  unfold levelOp
  split
  · exact operatorOfName_none (not_isIdentifier h le_rfl rfl)
  · exact operatorOfName_none (not_isIdentifier h le_rfl rfl)
  · exact comparisonOperator_none (not_isIdentifier h le_rfl rfl) (not_isIdentifier h le_rfl rfl)
      (not_type h le_rfl fun t ht => by rw [binds, ht])
  · exact operatorOfType_none (not_type h le_rfl fun t ht => by rw [binds, ht])
  · exact operatorOfType_none (not_type h le_rfl fun t ht => by rw [binds, ht])
  · rfl

/-- A chain ends where there is no operator. -/
lemma levelChain_stops (h : levelOp env level ts = .ok (none, ts)) :
    Takes (levelChain env level b) ts b ts := by
  refine takes_of_succ (bind_eq h ?_)
  exact takes_pure b ts

/-- An operator and its right operand are joined to what is on the left. -/
lemma levelChain_step {ts' : List Token} {op : String} {left right : Statement Unit F}
    (hop : levelOp env level ts = .ok (some ((), op), ts'))
    (hright : Takes (parseLevel env (level + 1)) ts' right rest) :
    Leads (levelChain env level left) ts
      (levelChain env level (.binaryExpression () op left right)) rest := by
  intro c rest' h
  refine takes_of_succ (bind_eq hop ?_)
  exact hright.bind h

lemma parseTests_stops (h : Stops 7 ts) : Takes (parseLoop env 7 b) ts b ts := by
  have his : (first ts).isIdentifier "is" = false := not_isIdentifier h le_rfl rfl
  refine takes_of_succ (bind_eq (peek_first ts) ?_)
  simp only [his]
  exact takes_pure b ts

lemma parseFilters_stops (h : Stops 8 ts) : Takes (parseLoop env 8 b) ts b ts := by
  have hpipe : (first ts).t ≠ .pipe := not_type h le_rfl fun t ht => by rw [binds, ht]
  refine takes_of_succ (bind_eq (peek_first ts) ?_)
  simp only [if_neg hpipe]
  exact takes_pure b ts

/-- There is no member. -/
lemma parseMember_none (info : Unit) (hdot : (first ts).t ≠ .dot)
    (hopen : (first ts).t ≠ .openSquareBracket) :
    Takes (fun n : Bounds => parseMember env (parseExpression env n.1.1) info n.2 b) ts b ts := by
  refine takes_of_succ (bind_eq (peek_first ts) ?_)
  simp only [if_neg hdot, if_neg hopen]
  exact takes_pure b ts

lemma parseMembers_stops (h : Stops 9 ts) : Takes (parseLoop env 9 b) ts b ts := by
  have hdot : (first ts).t ≠ .dot := not_type h le_rfl fun t ht => by rw [binds, ht]
  have hopen : (first ts).t ≠ .openSquareBracket :=
    not_type h le_rfl fun t ht => by rw [binds, ht]
  have hparen : (first ts).t ≠ .openParen := not_type h le_rfl fun t ht => by rw [binds, ht]
  refine bind_eq (peek_first ts) ((parseMember_none _ hdot hopen).bind ?_)
  refine bind_eq (peek_first ts) ?_
  simp only [if_neg hparen]
  exact takes_pure b ts

/-- **A loop that is not continued ends.** -/
theorem loop_stops (h : Stops level ts) : Takes (parseLoop env level b) ts b ts := by
  unfold parseLoop
  split
  · exact levelChain_stops (levelOp_none h)
  · exact levelChain_stops (levelOp_none h)
  · exact levelChain_stops (levelOp_none h)
  · exact levelChain_stops (levelOp_none h)
  · exact levelChain_stops (levelOp_none h)
  · exact parseTests_stops h
  · exact parseFilters_stops h
  · exact parseMembers_stops h
  · exact takes_pure b ts

/-! ## Levels -/

/-- With separate bounds as without. -/
lemma takes_members (h : Takes (parseMembers env b) ts b' rest) :
    Takes (fun n : Bounds => parsePostfix env (parseExpression env n.1.1) n.2 b) ts b' rest := by
  refine h.of_bounds fun N => ⟨((N.1.1, 0), N.1.2 ⊔ N.2), fun n hn => ⟨((n.1.1, n.2), n.2), ?_, rfl⟩⟩
  exact ⟨⟨hn.1.1, le_sup_left.trans hn.2⟩, le_sup_right.trans hn.2⟩

/-- **A level is an operand of the next level, and the loop.** -/
theorem leads_level (h0 : 0 < level) (h3 : level ≠ 3) (h10 : level < 10)
    (h : Takes (parseLevel env (level + 1)) ts b rest) :
    Leads (parseLevel env level) ts (parseLoop env level b) rest := by
  intro c rest' hc
  interval_cases level
  · exact h.bind hc
  · exact h.bind hc
  · exact absurd rfl h3
  · exact h.bind hc
  · exact h.bind hc
  · exact h.bind hc
  · exact h.bind hc
  · exact h.bind hc
  · exact h.bind (takes_members hc)

/-- An expression that no `if` follows. -/
lemma takes_level_zero (h : Takes (parseLevel env 1) ts b rest) (hstop : Stops 0 rest) :
    Takes (parseLevel env 0) ts b rest := by
  have hif : (first rest).isIdentifier "if" = false := not_isIdentifier hstop le_rfl rfl
  refine h.bind (bind_eq (peek_first rest) ?_)
  simp only [hif]
  exact takes_pure b rest

/-- A comparison is no negation. -/
lemma takes_level_three (h : Takes (parseLevel env 4) ts b rest)
    (hnot : (first ts).isIdentifier "not" = false) : Takes (parseLevel env 3) ts b rest := by
  refine takes_of_succ (bind_eq (peek_first ts) ?_)
  simp only [hnot]
  exact h

/-- A negation. -/
lemma takes_not {pos : ℕ} (h : Takes (parseLevel env 3) ts b rest) :
    Takes (parseLevel env 3) (⟨.identifier, "not", pos⟩ :: ts) (.unaryExpression () "not" b)
      rest := by
  refine takes_of_succ (bind_eq (peek_first _) ?_)
  exact bind_eq (advance_cons _ ts) (h.bind (takes_pure _ rest))

/-- An expression has one more level. -/
lemma takes_expression (h : Takes (parseLevel env 0) ts b rest) :
    Takes (fun n : Bounds => parseExpression env n.1.1) ts b rest := by
  refine h.of_bounds fun N => ⟨((N.1.1 ⊔ N.1.2 ⊔ N.2 + 1, 0), 0), fun n hn => ?_⟩
  have hk : N.1.1 ⊔ N.1.2 ⊔ N.2 + 1 ≤ n.1.1 := hn.1.1
  obtain ⟨k, hk'⟩ : ∃ k, n.1.1 = k + 1 := ⟨n.1.1 - 1, by omega⟩
  refine ⟨((k, k), k), ⟨⟨?_, ?_⟩, ?_⟩, by rw [hk']; rfl⟩
  · change N.1.1 ≤ k
    omega
  · change N.1.2 ≤ k
    omega
  · omega

/-- A ternary. -/
lemma takes_ternary {pos pos' : ℕ} {ts' ts'' : List Token} {c a f : Statement Unit F}
    (ha : Takes (parseLevel env 1) ts a (⟨.identifier, "if", pos⟩ :: ts'))
    (hc : Takes (parseLevel env 1) ts' c (⟨.identifier, "else", pos'⟩ :: ts''))
    (hf : Takes (fun n : Bounds => parseExpression env n.1.1) ts'' f rest) :
    Takes (parseLevel env 0) ts (.ternaryExpression () c a f) rest := by
  refine ha.bind (bind_eq (peek_first _) ?_)
  refine bind_eq (advance_cons _ ts') (hc.bind (bind_eq (peek_first _) ?_))
  exact bind_eq (advance_cons _ ts'') (hf.bind (takes_pure _ rest))

end

end Llama.Jinja
