import Llama.Jinja.Expression.Lexing

/-!
# The tokens that are printed of an expression

What is printed of an expression is put together from tokens, in sequence and between braces.  All of
the tokens are lexed, the braces are balanced, and the first token starts an operand.
-/

namespace Llama.Jinja

open List

/-! ## Lists -/

/-- Tokens, with commas in between. -/
def joined : List (List Item) → List Item
  | [] => []
  | items :: rest => items ++ separated rest.isEmpty (joined rest)

section

variable {F : Type} (D : Doubles F)

lemma isEmpty_map {α β : Type} (f : α → β) (l : List α) : (l.map f).isEmpty = l.isEmpty := by
  cases l with
  | nil => rfl
  | cons => rfl

lemma listItems_eq (es : List (Expr F)) : listItems D es = joined (es.map (Expr.items D)) := by
  induction es with
  | nil => rw [listItems, map_nil, joined]
  | cons e es ih => rw [listItems, ih, map_cons, joined, isEmpty_map]

/-- The tokens of a pair. -/
def pairText (p : Expr F × Expr F) : List Item :=
  p.1.items D ++ .plain .colon ":" :: p.2.items D

lemma pairItems_eq (pairs : List (Expr F × Expr F)) :
    pairItems D pairs = joined (pairs.map (pairText D)) := by
  induction pairs with
  | nil => rw [pairItems, map_nil, joined]
  | cons p pairs ih =>
    rw [pairItems, ih, map_cons, joined, isEmpty_map, pairText, append_assoc, cons_append]

lemma argItems_eq (args : List (ArgKind × Expr F)) :
    argItems D args = joined (args.map fun a => a.1.items (a.2.items D)) := by
  induction args with
  | nil => rw [argItems, map_nil, joined]
  | cons a args ih => rw [argItems, ih, map_cons, joined, isEmpty_map]

end

/-! ## Properties of what is printed -/

/-- A property that is kept when tokens are put together. -/
structure Printed (Q : List Item → Prop) : Prop where
  nil : Q []
  append : ∀ {is js}, Q is → Q js → Q (is ++ js)
  braces : ∀ {is}, Q is →
    Q (.plain .openCurlyBracket "\x7b" :: is ++ [.plain .closeCurlyBracket "\x7d"])
  single : ∀ {i : Item}, i.Valid → i.t ≠ .openCurlyBracket → i.t ≠ .closeCurlyBracket → Q [i]

namespace Printed

variable {Q : List Item → Prop} {is js : List Item}

lemma cons {i : Item} (h : Printed Q) (hi : Q [i]) (his : Q is) : Q (i :: is) := h.append hi his

lemma snoc {i : Item} (h : Printed Q) (his : Q is) (hi : Q [i]) : Q (is ++ [i]) := h.append his hi

lemma word (h : Printed Q) {value : String} (hname : isName value.toList = true) :
    Q [.word value] :=
  h.single (.word hname) TokenType.noConfusion TokenType.noConfusion

lemma name (h : Printed Q) (name : Ident) : Q [.word name.name] := h.word name.word

/-- Punctuation that is no brace. -/
lemma plain (h : Printed Q) {t : TokenType} {value : String} (hmem : (t, value) ∈ punctuation)
    (ht : t ≠ .openCurlyBracket ∧ t ≠ .closeCurlyBracket) : Q [.plain t value] :=
  h.single (.plain hmem) ht.1 ht.2

lemma paren (h : Printed Q) (inner : Bool) (his : Q is) : Q (paren inner is) := by
  cases inner
  · exact his
  · exact h.cons (h.plain (by decide) (by decide)) (h.snoc his (h.plain (by decide) (by decide)))

lemma joined (h : Printed Q) {parts : List (List Item)} (hparts : ∀ is ∈ parts, Q is) :
    Q (joined parts) := by
  induction parts with
  | nil => exact h.nil
  | cons is parts ih =>
    obtain ⟨his, hparts⟩ := forall_mem_cons.mp hparts
    refine h.append his ?_
    unfold separated
    split
    · exact ih hparts
    · exact h.cons (h.plain (by decide) (by decide)) (ih hparts)

lemma arg (h : Printed Q) (kind : ArgKind) (his : Q is) : Q (kind.items is) := by
  cases kind with
  | positional => exact his
  | keyword name => exact h.cons (h.name name) (h.cons (h.plain (by decide) (by decide)) his)
  | spread => exact h.cons (h.plain (by decide) (by decide)) his

lemma op (h : Printed Q) (op : BinaryOp) : Q op.items := by
  cases op with
  | logicalOr => exact h.word rfl
  | logicalAnd => exact h.word rfl
  | member => exact h.word rfl
  | notMember => exact h.cons (h.word rfl) (h.word rfl)
  | add => exact h.single (.sign (.inl rfl)) TokenType.noConfusion TokenType.noConfusion
  | sub => exact h.single (.sign (.inr rfl)) TokenType.noConfusion TokenType.noConfusion
  | equal => exact h.plain (by decide) (by decide)
  | notEqual => exact h.plain (by decide) (by decide)
  | less => exact h.plain (by decide) (by decide)
  | greater => exact h.plain (by decide) (by decide)
  | lessEqual => exact h.plain (by decide) (by decide)
  | greaterEqual => exact h.plain (by decide) (by decide)
  | concat => exact h.plain (by decide) (by decide)
  | mul => exact h.plain (by decide) (by decide)
  | div => exact h.plain (by decide) (by decide)
  | mod => exact h.plain (by decide) (by decide)

section

variable {F : Type} {D : Doubles F}

section

variable (h : Printed Q)

include h

lemma number (negative : Bool) (d : Digits) : Q [.number (signed negative d.text)] :=
  h.single (.number negative d) TokenType.noConfusion TokenType.noConfusion

lemma option {o : Option (Expr F)} (ho : ∀ e ∈ o, Q (e.items D)) :
    Q (optionItems D o) ∧ Q (stepItems D o) := by
  cases o with
  | none =>
    exact ⟨h.nil, h.nil⟩
  | some e =>
    exact ⟨ho e rfl, h.cons (h.plain (by decide) (by decide)) (ho e rfl)⟩

lemma args {as : List (ArgKind × Expr F)} (has : ∀ a ∈ as, Q (a.2.items D)) :
    Q (.plain .openParen "(" :: argItems D as ++ [.plain .closeParen ")"]) := by
  rw [argItems_eq]
  refine h.cons (h.plain (by decide) (by decide)) (h.snoc (h.joined fun is his => ?_)
    (h.plain (by decide) (by decide)))
  obtain ⟨a, ha, rfl⟩ := mem_map.mp his
  exact h.arg a.1 (has a ha)

lemma callArgs {o : Option (List (ArgKind × Expr F))}
    (ho : ∀ as ∈ o, ∀ a ∈ as, Q (a.2.items D)) : Q (callItems D o) := by
  cases o with
  | none =>
    exact h.nil
  | some as =>
    exact h.args (ho as rfl)

/-- The number of an integer. -/
lemma integer (val : Integer) : Q [.number val.text] := by
  have hdigits : (Nat.toDigits 10 val.val.natAbs).all isInteger = true :=
    all_eq_true.mpr fun c hc => Nat.isDigit_of_mem_toDigits (by decide) (by decide) hc
  have hnum := h.number (val.val < 0)
    ⟨Nat.toDigits 10 val.val.natAbs, [], Nat.toDigits_ne_nil, hdigits, rfl⟩
  rwa [Digits.text, fracText, if_pos rfl, append_nil] at hnum

/-- A floating point number. -/
lemma float (val : F) : Q [.number (D.text val)] := by
  have hnum := h.number (D.negative val) ⟨D.whole val, D.frac val, (D.whole_digits val).1,
    (D.whole_digits val).2, (D.frac_digits val).2⟩
  rwa [Digits.text, fracText, if_neg (D.frac_digits val).1] at hnum

/-- **An expression has the properties of what is printed.** -/
theorem items (e : Expr F) : Q (e.items D) := by
  induction e using Expr.induct with
  | identifier name =>
    exact h.name name
  | integer val =>
    exact h.integer val
  | float val =>
    exact h.float val
  | string val =>
    exact h.single (.string val) TokenType.noConfusion TokenType.noConfusion
  | list vals ih =>
    rw [Expr.items, listItems_eq]
    refine h.cons (h.plain (by decide) (by decide)) (h.snoc (h.joined fun is his => ?_)
      (h.plain (by decide) (by decide)))
    obtain ⟨e, he, rfl⟩ := mem_map.mp his
    exact ih e he
  | dict pairs ih =>
    rw [Expr.items, pairItems_eq]
    refine h.braces (h.joined fun is his => ?_)
    obtain ⟨p, hp, rfl⟩ := mem_map.mp his
    exact h.append (ih p hp).1 (h.cons (h.plain (by decide) (by decide)) (ih p hp).2)
  | dot object name ih =>
    exact h.append (h.paren _ ih) (h.cons (h.plain (by decide) (by decide)) (h.name name))
  | index object property ih ih' =>
    rw [Expr.items, append_assoc]
    exact h.append (h.paren _ ih) (h.cons (h.plain (by decide) (by decide))
      (h.snoc ih' (h.plain (by decide) (by decide))))
  | slice object start stop step ih hstart hstop hstep =>
    exact h.snoc (h.append (h.append (h.append (h.paren _ ih)
      (h.cons (h.plain (by decide) (by decide)) (h.option hstart).1))
      (h.cons (h.plain (by decide) (by decide)) (h.option hstop).1)) (h.option hstep).2)
      (h.plain (by decide) (by decide))
  | call callee args ih hargs =>
    rw [Expr.items, append_assoc]
    exact h.append (h.paren _ ih) (h.args hargs)
  | filter operand name args ih hargs =>
    exact h.append (h.paren _ ih) (h.cons (h.plain (by decide) (by decide))
      (h.cons (h.name name) (h.callArgs hargs)))
  | test operand negate name args ih hargs =>
    have hnot : Q (if negate then [.word "not"] else []) := by
      split
      · exact h.word rfl
      · exact h.nil
    exact h.append (h.append (h.paren _ ih) (h.cons (h.word rfl) hnot))
      (h.cons (h.name name) (h.callArgs hargs))
  | binary op left right ih ih' =>
    rw [Expr.items, append_assoc]
    exact h.append (h.paren _ ih) (h.append (h.op op) (h.paren _ ih'))
  | not argument ih =>
    exact h.cons (h.word rfl) (h.paren _ ih)
  | ternary condition trueExpr falseExpr ih ih' ih'' =>
    exact h.append (h.append (h.paren _ ih') (h.cons (h.word rfl) (h.paren _ ih)))
      (h.cons (h.word rfl) ih'')

end

end

end Printed

/-- What is printed is made of tokens that are lexed. -/
lemma printed_valid : Printed fun is => ∀ i ∈ is, i.Valid where
  nil := by simp
  append := fun h h' => forall_mem_append.mpr ⟨h, h'⟩
  braces := fun h => forall_mem_append.mpr ⟨forall_mem_cons.mpr
    ⟨.plain (by decide), h⟩, forall_mem_singleton.mpr (.plain (by decide))⟩
  single := fun h _ _ => forall_mem_singleton.mpr h

lemma nextDepth_eq {i : Item} (hi : i.Valid) (hopen : i.t ≠ .openCurlyBracket)
    (hclose : i.t ≠ .closeCurlyBracket) (depth : ℕ) : nextDepth depth i.t = depth := by
  cases hi with
  | word => rfl
  | number => rfl
  | string => rfl
  | @plain t value h =>
    have hplain : ∀ p ∈ punctuation, p.1 ≠ .openExpression := by decide
    have hexpr := hplain _ h
    cases t <;> first | contradiction | rfl
  | sign => rfl

/-- In what is printed the braces are balanced. -/
lemma printed_depth : Printed fun is => ∀ d < 2 ^ 64, depthAfter d is = d where
  nil := fun _ _ => rfl
  append := fun {is js} h h' d hd => by
    rw [depthAfter, foldl_append]
    exact (congrArg (fun d => depthAfter d js) (h d hd)).trans (h' d hd)
  braces := fun {is} h d hd => by
    have hlt : nextDepth d .openCurlyBracket < 2 ^ 64 := by
      rw [nextDepth]
      omega
    have hclose : nextDepth (nextDepth d .openCurlyBracket) .closeCurlyBracket = d := by
      rw [nextDepth, nextDepth]
      omega
    have hall := h _ hlt
    rw [depthAfter] at hall
    rw [depthAfter, foldl_append, foldl_cons, foldl_cons, foldl_nil, Item.plain, hall]
    exact hclose
  single := fun hi hopen hclose d _ => nextDepth_eq hi hopen hclose d

/-- **The tokens of a printed expression.** -/
theorem tokenize_items {F : Type} (D : Doubles F) (e : Expr F) :
    tokenize (sourceOf (e.items D)) = .ok (⟨.openExpression, "\x7b\x7b", 0⟩ ::
      (lexItems .openExpression 3 (e.items D) ++
        [⟨.closeExpression, "\x7d\x7d", 3 + (textsOf (e.items D)).length⟩]),
      sourceOf (e.items D)) :=
  tokenize_sourceOf (printed_valid.items e) (printed_depth.items e 0 (Nat.two_pow_pos 64))

/-! ## The first token -/

/-- The tokens that start an operand. -/
def Item.Starts (i : Item) : Prop :=
  i.t ∈ [.identifier, .numericLiteral, .stringLiteral, .openParen, .openSquareBracket,
    .openCurlyBracket]

/-- The first token starts an operand; from the level of comparisons on, that is no negation. -/
def Heads (level : ℕ) (items : List Item) : Prop :=
  ∃ i is, items = i :: is ∧ i.Starts ∧ (4 ≤ level → ¬(i.t = .identifier ∧ i.value = "not"))

section

variable {F : Type} {D : Doubles F} {level : ℕ} {is : List Item}

lemma Heads.append (h : Heads level is) (js : List Item) : Heads level (is ++ js) := by
  obtain ⟨i, is', rfl, hi, hnot⟩ := h
  exact ⟨i, is' ++ js, rfl, hi, hnot⟩

lemma Heads.weaken (h : Heads level is) {level' : ℕ} (hle : level' ≤ level) : Heads level' is := by
  obtain ⟨i, is', heq, hi, hnot⟩ := h
  exact ⟨i, is', heq, hi, fun h4 => hnot (h4.trans hle)⟩

/-- A token that is no word starts an operand of every level. -/
lemma heads_cons {i : Item} (is : List Item) (hi : i.Starts) (hword : i.t ≠ .identifier) :
    Heads level (i :: is) := ⟨i, is, rfl, hi, fun _ h => hword h.1⟩

lemma heads_name (name : Ident) (is : List Item) : Heads level (.word name.name :: is) := by
  refine ⟨_, is, rfl, by simp [Item.Starts, Item.word, Item.plain], fun _ h => name.free ?_⟩
  have hname : name.name = "not" := h.2
  rw [hname]
  decide

lemma heads_itemsAt {e : Expr F} (h : Heads e.prec (e.items D)) (level : ℕ) :
    Heads level (e.itemsAt D level) := by
  unfold Expr.itemsAt paren
  split
  · exact heads_cons _ (by simp [Item.Starts, Item.plain]) TokenType.noConfusion
  · next hprec =>
    exact h.weaken (by simpa using hprec)

/-- **What is printed starts with an operand.** -/
theorem Expr.heads (e : Expr F) : Heads e.prec (e.items D) := by
  induction e using Expr.induct with
  | identifier name =>
    exact heads_name name []
  | integer val =>
    exact heads_cons _ (by simp [Item.Starts, Item.number]) TokenType.noConfusion
  | float val =>
    exact heads_cons _ (by simp [Item.Starts, Item.number]) TokenType.noConfusion
  | string val =>
    exact heads_cons _ (by simp [Item.Starts, Item.string]) TokenType.noConfusion
  | list vals =>
    exact heads_cons _ (by simp [Item.Starts, Item.plain]) TokenType.noConfusion
  | dict pairs =>
    exact heads_cons _ (by simp [Item.Starts, Item.plain]) TokenType.noConfusion
  | dot object name ih =>
    exact (heads_itemsAt ih 9).append _
  | index object property ih =>
    rw [Expr.items, append_assoc]
    exact (heads_itemsAt ih 9).append _
  | slice object start stop step ih =>
    exact ((((heads_itemsAt ih 9).append _).append _).append _).append _
  | call callee args ih =>
    rw [Expr.items, append_assoc]
    exact (heads_itemsAt ih 9).append _
  | filter operand name args ih =>
    exact (heads_itemsAt ih 8).append _
  | test operand negate name args ih =>
    exact ((heads_itemsAt ih 7).append _).append _
  | binary op left right ih =>
    exact ((heads_itemsAt ih op.level).append _).append _
  | not argument =>
    exact ⟨_, _, rfl, by simp [Item.Starts, Item.word, Item.plain],
      fun h => absurd h (by simp [Expr.prec])⟩
  | ternary condition trueExpr falseExpr ih ih' =>
    exact (((heads_itemsAt ih' 1).append _).append _).weaken (Nat.zero_le 1)

end

end Llama.Jinja
