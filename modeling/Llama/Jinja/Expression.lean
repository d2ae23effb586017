import Llama.Jinja.Parser

/-!
# Expressions and how they are printed

The expressions of the template language: identifiers, strings and numbers, lists and dicts, member
accesses, slices and calls, filters, tests, operators and the ternary.  An expression has a tree,
which the parser builds, and a print: the tokens of the expression, one after the other, with
parentheses exactly around the operands whose level of precedence is too low.

What is printed of a floating point number, and what `std::stod` reads, is a parameter.
-/

namespace Llama.Jinja

/-! ## Atoms -/

/-- The identifiers that the parser uses as operators. -/
def keywords : List String := ["or", "and", "not", "in", "is", "if", "else"]

/-- A word that is no number. -/
def isName : List Char → Bool
  | [] => false
  | c :: cs => isWord c && !isInteger c && cs.all isWord

/-- An identifier. -/
structure Ident where
  name : String
  word : isName name.toList = true
  free : name ∉ keywords

/-- An integer of 64 bits. -/
structure Integer where
  val : ℤ
  le : -2 ^ 63 ≤ val
  lt : val < 2 ^ 63

/-- The digits of an integer, with its sign. -/
def signed (negative : Bool) (digits : List Char) : List Char :=
  if negative then '-' :: digits else digits

/-- The text of an integer. -/
def Integer.text (i : Integer) : List Char := signed (i.val < 0) (Nat.toDigits 10 i.val.natAbs)

/-- Floating point numbers: the sign and the digits that are printed, and `std::stod`, which reads
them back; it reads no sign where there is none. -/
structure Doubles (F : Type) where
  stod : String → Except ParseError F
  negative : F → Bool
  whole : F → List Char
  frac : F → List Char
  whole_digits : ∀ f, whole f ≠ [] ∧ (whole f).all isInteger = true
  frac_digits : ∀ f, frac f ≠ [] ∧ (frac f).all isInteger = true
  stod_text : ∀ f, stod (String.ofList (signed (negative f) (whole f ++ '.' :: frac f))) = .ok f
  stod_sign : ∀ text f, stod text = .ok f → negative f = true → text.toList.head? = some '-'

/-- The text of a floating point number. -/
def Doubles.text {F : Type} (D : Doubles F) (f : F) : List Char :=
  signed (D.negative f) (D.whole f ++ '.' :: D.frac f)

/-- A binary operator. -/
inductive BinaryOp
  | logicalOr
  | logicalAnd
  | member
  | notMember
  | equal
  | notEqual
  | less
  | greater
  | lessEqual
  | greaterEqual
  | add
  | sub
  | concat
  | mul
  | div
  | mod
  deriving DecidableEq, Repr

namespace BinaryOp

/-- The operator in a tree. -/
def name : BinaryOp → String
  | logicalOr => "or"
  | logicalAnd => "and"
  | member => "in"
  | notMember => "not in"
  | equal => "=="
  | notEqual => "!="
  | less => "<"
  | greater => ">"
  | lessEqual => "<="
  | greaterEqual => ">="
  | add => "+"
  | sub => "-"
  | concat => "~"
  | mul => "*"
  | div => "/"
  | mod => "%"

/-- The level of precedence. -/
def level : BinaryOp → ℕ
  | logicalOr => 1
  | logicalAnd => 2
  | add => 5
  | sub => 5
  | concat => 5
  | mul => 6
  | div => 6
  | mod => 6
  | _ => 4

/-- The type of an operator's token. -/
def type : BinaryOp → TokenType
  | logicalOr => .identifier
  | logicalAnd => .identifier
  | member => .identifier
  | notMember => .identifier
  | add => .additiveBinaryOperator
  | sub => .additiveBinaryOperator
  | concat => .additiveBinaryOperator
  | mul => .multiplicativeBinaryOperator
  | div => .multiplicativeBinaryOperator
  | mod => .multiplicativeBinaryOperator
  | _ => .comparisonBinaryOperator

end BinaryOp

/-- How an argument is passed. -/
inductive ArgKind
  | positional
  | keyword (name : Ident)
  | spread

/-! ## Expressions -/

/-- An expression, with floating point numbers in `F`. -/
inductive Expr (F : Type)
  | identifier (name : Ident)
  | integer (val : Integer)
  | float (val : F)
  | string (val : String)
  | list (vals : List (Expr F))
  | dict (pairs : List (Expr F × Expr F))
  | dot (object : Expr F) (name : Ident)
  | index (object property : Expr F)
  | slice (object : Expr F) (start stop step : Option (Expr F))
  | call (callee : Expr F) (args : List (ArgKind × Expr F))
  | filter (operand : Expr F) (name : Ident) (args : Option (List (ArgKind × Expr F)))
  | test (operand : Expr F) (negate : Bool) (name : Ident)
      (args : Option (List (ArgKind × Expr F)))
  | binary (op : BinaryOp) (left right : Expr F)
  | not (argument : Expr F)
  | ternary (condition trueExpr falseExpr : Expr F)

/-- The tree of a name. -/
def Ident.tree {F : Type} (i : Ident) : Statement Unit F := .identifier () i.name

/-- The tree of an argument. -/
def ArgKind.tree {F : Type} (e : Statement Unit F) : ArgKind → Statement Unit F
  | positional => e
  | keyword name => .keywordArgumentExpression () name.tree e
  | spread => .spreadExpression () e

section

variable {F : Type}

mutual

/-- The tree of an expression. -/
def Expr.tree : Expr F → Statement Unit F
  | .identifier name => name.tree
  | .integer val => .integerLiteral () val.val
  | .float val => .floatLiteral () val
  | .string val => .stringLiteral () val
  | .list vals => .arrayLiteral () (listTrees vals)
  | .dict pairs => .objectLiteral () (pairTrees pairs)
  | .dot object name => .memberExpression () object.tree name.tree false
  | .index object property => .memberExpression () object.tree property.tree true
  | .slice object start stop step => .memberExpression () object.tree
      (.sliceExpression () (optionTree start) (optionTree stop) (optionTree step)) true
  | .call callee args => .callExpression () callee.tree (argTrees args)
  | .filter operand name args =>
    .filterExpression () operand.tree (callTree name.tree args)
  | .test operand negate name args =>
    .testExpression () operand.tree negate (callTree name.tree args)
  | .binary op left right => .binaryExpression () op.name left.tree right.tree
  | .not argument => .unaryExpression () "not" argument.tree
  | .ternary condition trueExpr falseExpr =>
    .ternaryExpression () condition.tree trueExpr.tree falseExpr.tree

/-- The trees of a list. -/
def listTrees : List (Expr F) → List (Statement Unit F)
  | [] => []
  | e :: es => e.tree :: listTrees es

/-- The trees of pairs. -/
def pairTrees : List (Expr F × Expr F) → List (Statement Unit F × Statement Unit F)
  | [] => []
  | (key, val) :: pairs => (key.tree, val.tree) :: pairTrees pairs

/-- The tree of a part of a slice. -/
def optionTree : Option (Expr F) → Option (Statement Unit F)
  | none => none
  | some e => some e.tree

/-- The trees of arguments. -/
def argTrees : List (ArgKind × Expr F) → List (Statement Unit F)
  | [] => []
  | (kind, e) :: args => kind.tree e.tree :: argTrees args

/-- The tree of a name, or of a call of it. -/
def callTree (name : Statement Unit F) : Option (List (ArgKind × Expr F)) → Statement Unit F
  | none => name
  | some args => .callExpression () name (argTrees args)

end

/-- The level of precedence of an expression. -/
def Expr.prec : Expr F → ℕ
  | .dot .. => 9
  | .index .. => 9
  | .slice .. => 9
  | .call .. => 9
  | .filter .. => 8
  | .test .. => 7
  | .binary op _ _ => op.level
  | .not _ => 3
  | .ternary .. => 0
  | _ => 10

end

/-- **Induction over expressions.** -/
theorem Expr.induct {F : Type} {P : Expr F → Prop} (identifier : ∀ name, P (.identifier name))
    (integer : ∀ val, P (.integer val)) (float : ∀ val, P (.float val))
    (string : ∀ val, P (.string val)) (list : ∀ vals, (∀ e ∈ vals, P e) → P (.list vals))
    (dict : ∀ pairs, (∀ p ∈ pairs, P p.1 ∧ P p.2) → P (.dict pairs))
    (dot : ∀ object name, P object → P (.dot object name))
    (index : ∀ object property, P object → P property → P (.index object property))
    (slice : ∀ object start stop step, P object → (∀ e ∈ start, P e) → (∀ e ∈ stop, P e) →
      (∀ e ∈ step, P e) → P (.slice object start stop step))
    (call : ∀ callee args, P callee → (∀ a ∈ args, P a.2) → P (.call callee args))
    (filter : ∀ operand name args, P operand → (∀ as ∈ args, ∀ a ∈ as, P a.2) →
      P (.filter operand name args))
    (test : ∀ operand negate name args, P operand → (∀ as ∈ args, ∀ a ∈ as, P a.2) →
      P (.test operand negate name args))
    (binary : ∀ op left right, P left → P right → P (.binary op left right))
    (not : ∀ argument, P argument → P (.not argument))
    (ternary : ∀ condition trueExpr falseExpr, P condition → P trueExpr → P falseExpr →
      P (.ternary condition trueExpr falseExpr)) (e : Expr F) : P e := by
  refine @Expr.rec F P (fun es => ∀ e ∈ es, P e) (fun ps => ∀ p ∈ ps, P p.1 ∧ P p.2)
    (fun o => ∀ e ∈ o, P e) (fun as => ∀ a ∈ as, P a.2) (fun o => ∀ as ∈ o, ∀ a ∈ as, P a.2)
    (fun p => P p.1 ∧ P p.2) (fun a => P a.2) identifier integer float string list dict dot index
    slice call filter test binary not ternary ?_ ?_ ?_ ?_ ?_ ?_ ?_ ?_ ?_ ?_ ?_ ?_ e
  · simp
  · exact fun _ _ h hs => List.forall_mem_cons.mpr ⟨h, hs⟩
  · simp
  · exact fun _ _ h hs => List.forall_mem_cons.mpr ⟨h, hs⟩
  · simp
  · intro e h e' he'
    cases he'
    exact h
  · simp
  · exact fun _ _ h hs => List.forall_mem_cons.mpr ⟨h, hs⟩
  · simp
  · intro as h as' has'
    cases has'
    exact h
  · exact fun _ _ h h' => ⟨h, h'⟩
  · exact fun _ _ h => h

/-! ## Printing -/

/-- A token that is printed: its type and value, and its text. -/
structure Item where
  t : TokenType
  value : String
  text : List Char
  deriving DecidableEq, Repr

/-- A token whose text is its value. -/
def Item.plain (t : TokenType) (value : String) : Item := ⟨t, value, value.toList⟩

/-- A keyword or a name. -/
def Item.word (value : String) : Item := .plain .identifier value

/-- A number. -/
def Item.number (text : List Char) : Item := ⟨.numericLiteral, String.ofList text, text⟩

/-- The text of a character of a string. -/
def escapeChar (c : Char) : List Char :=
  match escapeChars.find? fun e => e.2 == c with
  | some e => ['\\', e.1]
  | none => [c]

/-- A string, in single quotes. -/
def Item.string (val : String) : Item :=
  ⟨.stringLiteral, val, '\'' :: val.toList.flatMap escapeChar ++ ['\'']⟩

/-- The tokens of an operator. -/
def BinaryOp.items : BinaryOp → List Item
  | .notMember => [.word "not", .word "in"]
  | op => [.plain op.type op.name]

/-- Tokens, in parentheses or not. -/
def paren (inner : Bool) (items : List Item) : List Item :=
  if inner then .plain .openParen "(" :: items ++ [.plain .closeParen ")"] else items

/-- Tokens, after a comma unless they are the last ones. -/
def separated (isLast : Bool) (items : List Item) : List Item :=
  if isLast then items else .plain .comma "," :: items

/-- The tokens of an argument. -/
def ArgKind.items (items : List Item) : ArgKind → List Item
  | positional => items
  | keyword name => .word name.name :: .plain .equals "=" :: items
  | spread => .plain .multiplicativeBinaryOperator "*" :: items

section

variable {F : Type} (D : Doubles F)

mutual

/-- The tokens that are printed of an expression. -/
def Expr.items : Expr F → List Item
  | .identifier name => [.word name.name]
  | .integer val => [.number val.text]
  | .float val => [.number (D.text val)]
  | .string val => [.string val]
  | .list vals => .plain .openSquareBracket "[" :: listItems vals ++
      [.plain .closeSquareBracket "]"]
  | .dict pairs => .plain .openCurlyBracket "\x7b" :: pairItems pairs ++
      [.plain .closeCurlyBracket "\x7d"]
  | .dot object name =>
    paren (object.prec < 9) object.items ++ [.plain .dot ".", .word name.name]
  | .index object property => paren (object.prec < 9) object.items ++
      .plain .openSquareBracket "[" :: property.items ++ [.plain .closeSquareBracket "]"]
  | .slice object start stop step => paren (object.prec < 9) object.items ++
      .plain .openSquareBracket "[" :: optionItems start ++ .plain .colon ":" ::
        optionItems stop ++ stepItems step ++ [.plain .closeSquareBracket "]"]
  | .call callee args => paren (callee.prec < 9) callee.items ++
      .plain .openParen "(" :: argItems args ++ [.plain .closeParen ")"]
  | .filter operand name args => paren (operand.prec < 8) operand.items ++
      .plain .pipe "|" :: .word name.name :: callItems args
  | .test operand negate name args => paren (operand.prec < 7) operand.items ++
      .word "is" :: (if negate then [.word "not"] else []) ++ .word name.name :: callItems args
  | .binary op left right => paren (left.prec < op.level) left.items ++ op.items ++
      paren (right.prec < op.level + 1) right.items
  | .not argument => .word "not" :: paren (argument.prec < 3) argument.items
  | .ternary condition trueExpr falseExpr => paren (trueExpr.prec < 1) trueExpr.items ++
      .word "if" :: paren (condition.prec < 1) condition.items ++ .word "else" :: falseExpr.items

/-- The tokens of a list. -/
def listItems : List (Expr F) → List Item
  | [] => []
  | e :: es => e.items ++ separated es.isEmpty (listItems es)

/-- The tokens of pairs. -/
def pairItems : List (Expr F × Expr F) → List Item
  | [] => []
  | (key, val) :: pairs => key.items ++ .plain .colon ":" :: val.items ++
      separated pairs.isEmpty (pairItems pairs)

/-- The tokens of a part of a slice. -/
def optionItems : Option (Expr F) → List Item
  | none => []
  | some e => e.items

/-- The tokens of the step of a slice. -/
def stepItems : Option (Expr F) → List Item
  | none => []
  | some e => .plain .colon ":" :: e.items

/-- The tokens of arguments. -/
def argItems : List (ArgKind × Expr F) → List Item
  | [] => []
  | (kind, e) :: args => kind.items e.items ++ separated args.isEmpty (argItems args)

/-- The tokens of the arguments of a name that is called. -/
def callItems : Option (List (ArgKind × Expr F)) → List Item
  | none => []
  | some args => .plain .openParen "(" :: argItems args ++ [.plain .closeParen ")"]

end

/-- The tokens of an operand at a level of precedence. -/
def Expr.itemsAt (level : ℕ) (e : Expr F) : List Item := paren (e.prec < level) (e.items D)

end

/-- The template with an expression: single spaces between the tokens. -/
def sourceOf (items : List Item) : List Char :=
  "\x7b\x7b ".toList ++ items.flatMap (fun i => i.text ++ [' ']) ++ "\x7d\x7d".toList

end Llama.Jinja
