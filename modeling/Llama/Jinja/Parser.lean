import Llama.Jinja
import Llama.Jinja.Lexer
import Llama.Lib.Parser

/-!
# The template parser

A parser by recursive descent, with one function for every level of precedence.  The state is the
list of the tokens that are left.  Functions that call themselves, and loops, have a bound.

A node is annotated with the token that it starts at; the annotation of the program is that
token's position.
-/

namespace Llama.Jinja

/-- What the parser throws: `parser_exception`, an error, an error of a conversion; or its bound was
reached. -/
inductive ParseError
  | parser (msg : String) (pos : ℕ)
  | runtime (what : String)
  | outOfRange (what : String)
  | unfinished
  deriving DecidableEq, Repr

/-- The annotation of a node, the conversion of a text to a floating point number, and the position
of the last token. -/
structure ParserEnv (α F : Type) where
  info : Token → α
  stod : String → Except ParseError F
  endPos : ℕ

/-- A parser of the template's tokens. -/
abbrev Parse (β : Type) := Parser Token ParseError β

/-! ## Tokens -/

/-- The token past the end. -/
def endToken : Token := ⟨.eof, "", 0⟩

def peek (offset : ℕ) : Parse Token := fun ts => .ok ((ts[offset]?).getD endToken, ts)

/-- `++current`. -/
def advance : Parse Unit := fun ts => .ok ((), ts.tail)

def expect (type : TokenType) (error : String) : Parse Token := fun ts =>
  let t := (ts[0]?).getD endToken
  if t.t = type then .ok (t, ts.tail)
  else .error (.parser ("Parser Error: " ++ error ++ " (Got " ++ t.value ++ ")") t.pos)

def expectIdentifier (name : String) : Parse Unit := fun ts =>
  let t := (ts[0]?).getD endToken
  if t.t ≠ .identifier ∨ t.value ≠ name then
    .error (.parser ("Expected identifier: " ++ name) t.pos)
  else .ok ((), ts.tail)

/-- Whether a token is the identifier `name`. -/
def Token.isIdentifier (t : Token) (name : String) : Bool := t.t == .identifier && t.value == name

def isStatement (names : List String) : Parse Bool := fun ts =>
  let t := (ts[0]?).getD endToken
  let u := (ts[1]?).getD endToken
  .ok (t.t == .openStatement && u.t == .identifier && names.contains u.value, ts)

/-- Pass a token if it is of a type. -/
def skipIf (type : TokenType) : Parse Unit := do
  let t ← peek 0
  if t.t = type then advance else pure ()

/-- Items up to a token, each with a comma after it or not. -/
def parseItems {β : Type} (close : TokenType) (item : ℕ → Parse β) : ℕ → Parse (List β)
  | 0 => throw .unfinished
  | n + 1 => do
    let t ← peek 0
    if t.t = close then pure [] else do
      let b ← item n
      skipIf .comma
      let bs ← parseItems close item n
      pure (b :: bs)

/-- `std::stoll`, of digits that may have a sign. -/
def stoll (text : String) : Except ParseError ℤ :=
  let i : ℤ := match text.toList with
    | '-' :: digits => -(Nat.ofDigitChars 10 digits 0 : ℕ)
    | '+' :: digits => (Nat.ofDigitChars 10 digits 0 : ℕ)
    | digits => (Nat.ofDigitChars 10 digits 0 : ℕ)
  if -2 ^ 63 ≤ i ∧ i < 2 ^ 63 then .ok i else .error (.outOfRange "stoll")

section

variable {α F : Type} (env : ParserEnv α F)

def next : Parse Token
  | [] => .error (.parser "Parser Error: Unexpected EOF" env.endPos)
  | t :: ts => .ok (t, ts)

/-- A number. -/
def parseNumber (t : Token) : Parse (Statement α F) := fun ts =>
  if t.value.toList.contains '.' then
    match env.stod t.value with
    | .ok val => .ok (.floatLiteral (env.info t) val, ts)
    | .error e => .error e
  else
    match stoll t.value with
    | .ok val => .ok (.integerLiteral (env.info t) val, ts)
    | .error e => .error e

/-- The strings after a string. -/
def parseStrings : ℕ → String → Parse String
  | 0, _ => throw .unfinished
  | n + 1, val => do
    let t ← peek 0
    if t.t = .stringLiteral then do
      advance
      parseStrings n (val ++ t.value)
    else pure val

variable (expr : Parse (Statement α F)) (n : ℕ)

/-- The expressions after the first one of a sequence, each after a comma. -/
def parseSequenceTail (item : Parse (Statement α F)) : ℕ → Parse (List (Statement α F))
  | 0 => throw .unfinished
  | n + 1 => do
    let t ← peek 0
    if t.t = .comma then do
      advance
      let e ← item
      let es ← parseSequenceTail item n
      pure (e :: es)
    else pure []

def parseExpressionSequence (item : Parse (Statement α F)) : Parse (Statement α F) := do
  let t ← peek 0
  let e ← item
  let es ← parseSequenceTail item n
  pure (if es.isEmpty then e else .tupleLiteral (env.info t) (e :: es))

/-- A pair of an object literal. -/
def parsePair : Parse (Statement α F × Statement α F) := do
  let key ← expr
  let _ ← expect .colon "Expected :"
  let val ← expr
  pure (key, val)

/-- `parse_primary_expression`. -/
def parsePrimary : Parse (Statement α F) := do
  let t ← next env
  match t.t with
  | .numericLiteral => parseNumber env t
  | .stringLiteral => do
    let val ← parseStrings n t.value
    pure (.stringLiteral (env.info t) val)
  | .identifier => pure (.identifier (env.info t) t.value)
  | .openParen => do
    let e ← parseExpressionSequence env n expr
    let _ ← expect .closeParen "Expected )"
    pure e
  | .openSquareBracket => do
    let vals ← parseItems .closeSquareBracket (fun _ => expr) n
    advance
    pure (.arrayLiteral (env.info t) vals)
  | .openCurlyBracket => do
    let pairs ← parseItems .closeCurlyBracket (fun _ => parsePair expr) n
    advance
    pure (.objectLiteral (env.info t) pairs)
  | _ => throw (.runtime
      ("Unexpected token: " ++ t.value ++ " of type " ++ toString t.t.ctorIdx))

/-! ## Members and calls -/

/-- The parts of a slice, and whether it is one. -/
def parseSlices : ℕ → Parse (List (Option (Statement α F)) × Bool)
  | 0 => throw .unfinished
  | n + 1 => do
    let t ← peek 0
    if t.t = .closeSquareBracket then pure ([], false)
    else if t.t = .colon then do
      advance
      let r ← parseSlices n
      pure (none :: r.1, true)
    else do
      let e ← expr
      let c ← peek 0
      skipIf .colon
      let r ← parseSlices n
      pure (some e :: r.1, r.2 || c.t == .colon)

/-- What the parts between two square brackets are. -/
def sliceOf (info : α) (r : List (Option (Statement α F)) × Bool) : Statement α F :=
  if r.2 then
    .sliceExpression info ((r.1[0]?).getD none) ((r.1[1]?).getD none) ((r.1[2]?).getD none)
  else ((r.1[0]?).getD none).getD (.blankExpression info)

/-- `parse_member_expression_arguments`. -/
def parseMemberArguments : Parse (Statement α F) := do
  let t ← peek 0
  let r ← parseSlices expr n
  pure (sliceOf (env.info t) r)

/-- The loop of `parse_member_expression`. -/
def parseMember (info : α) : ℕ → Statement α F → Parse (Statement α F)
  | 0, _ => throw .unfinished
  | n + 1, object => do
    let t ← peek 0
    if t.t = .dot then do
      advance
      let prop ← parsePrimary env expr n
      parseMember info n (.memberExpression info object prop false)
    else if t.t = .openSquareBracket then do
      advance
      let prop ← parseMemberArguments env expr n
      let _ ← expect .closeSquareBracket "Expected ]"
      parseMember info n (.memberExpression info object prop true)
    else pure object

/-- An argument of a call. -/
def parseArg : Parse (Statement α F) := do
  let t ← peek 0
  if t.t = .multiplicativeBinaryOperator ∧ t.value = "*" then do
    advance
    let e ← expr
    pure (.spreadExpression (env.info t) e)
  else do
    let e ← expr
    let t ← peek 0
    if t.t = .equals then do
      advance
      let val ← expr
      pure (.keywordArgumentExpression (env.info t) e val)
    else pure e

def parseArgs : Parse (List (Statement α F)) := do
  let _ ← expect .openParen "Expected ("
  let args ← parseItems .closeParen (fun _ => parseArg env expr) n
  let _ ← expect .closeParen "Expected )"
  pure args

/-- `parse_call_expression`. -/
def parseCall : ℕ → Statement α F → Parse (Statement α F)
  | 0, _ => throw .unfinished
  | n + 1, callee => do
    let t ← peek 0
    let args ← parseArgs env expr n
    let u ← peek 0
    let member ← parseMember env expr (env.info u) n (.callExpression (env.info t) callee args)
    let v ← peek 0
    if v.t = .openParen then parseCall n member else pure member

/-- The members and the calls of an object. -/
def parsePostfix (object : Statement α F) : Parse (Statement α F) := do
  let t ← peek 0
  let member ← parseMember env expr (env.info t) n object
  let u ← peek 0
  if u.t = .openParen then parseCall env expr n member else pure member

/-- `parse_call_member_expression`. -/
def parseCallMember : Parse (Statement α F) := do
  let object ← parsePrimary env expr n
  parsePostfix env expr n object

/-! ## Operators -/

/-- The name of a filter or a test, which may be called. -/
def parseName : Parse (Statement α F) := do
  let name ← parsePrimary env expr n
  let t ← peek 0
  if t.t = .openParen then parseCall env expr n name else pure name

/-- The loop of `parse_filter_expression`. -/
def parseFilters : ℕ → Statement α F → Parse (Statement α F)
  | 0, _ => throw .unfinished
  | n + 1, operand => do
    let t ← peek 0
    if t.t = .pipe then do
      advance
      let filter ← parseName env expr n
      parseFilters n (.filterExpression (env.info t) operand filter)
    else pure operand

/-- `parse_filter_expression`. -/
def parseFilter : Parse (Statement α F) := do
  let operand ← parseCallMember env expr n
  parseFilters env expr n operand

/-- Pass the identifier `not`. -/
def skipNot : Parse Bool := do
  let t ← peek 0
  if t.isIdentifier "not" then do
    advance
    pure true
  else pure false

/-- The loop of `parse_test_expression`. -/
def parseTests : ℕ → Statement α F → Parse (Statement α F)
  | 0, _ => throw .unfinished
  | n + 1, operand => do
    let t ← peek 0
    if t.isIdentifier "is" then do
      advance
      let negate ← skipNot
      let test ← parseName env expr n
      parseTests n (.testExpression (env.info t) operand negate test)
    else pure operand

/-- `parse_test_expression`. -/
def parseTest : Parse (Statement α F) := do
  let operand ← parseFilter env expr n
  parseTests env expr n operand

/-- An operator that is a token of a type. -/
def operatorOfType (type : TokenType) : Parse (Option (α × String)) := do
  let t ← peek 0
  if t.t = type then do
    advance
    pure (some (env.info t, t.value))
  else pure none

/-- An operator that is an identifier. -/
def operatorOfName (name : String) : Parse (Option (α × String)) := do
  let t ← peek 0
  if t.isIdentifier name then do
    advance
    pure (some (env.info t, t.value))
  else pure none

/-- An operator of a comparison. -/
def comparisonOperator : Parse (Option (α × String)) := do
  let t ← peek 0
  let u ← peek 1
  if t.isIdentifier "not" && u.isIdentifier "in" then do
    advance
    advance
    pure (some (env.info t, "not in"))
  else if t.isIdentifier "in" || t.t == .comparisonBinaryOperator then do
    advance
    pure (some (env.info t, t.value))
  else pure none

/-- The loop of a level of binary operators: operands, joined to the left. -/
def parseChain (op : Parse (Option (α × String))) (operand : ℕ → Parse (Statement α F)) :
    ℕ → Statement α F → Parse (Statement α F)
  | 0, _ => throw .unfinished
  | n + 1, left => do
    let o ← op
    match o with
    | none => pure left
    | some (info, op') => do
      let right ← operand n
      parseChain op operand n (.binaryExpression info op' left right)

/-- `parse_multiplicative_expression`. -/
def parseMultiplicative : Parse (Statement α F) := do
  let left ← parseTest env expr n
  parseChain (operatorOfType env .multiplicativeBinaryOperator) (parseTest env expr) n left

/-- `parse_additive_expression`. -/
def parseAdditive : Parse (Statement α F) := do
  let left ← parseMultiplicative env expr n
  parseChain (operatorOfType env .additiveBinaryOperator) (parseMultiplicative env expr) n left

/-- `parse_comparison_expression`. -/
def parseComparison : Parse (Statement α F) := do
  let left ← parseAdditive env expr n
  parseChain (comparisonOperator env) (parseAdditive env expr) n left

/-- `parse_logical_negation_expression`. -/
def parseNot (env : ParserEnv α F) (expr : Parse (Statement α F)) : ℕ → Parse (Statement α F)
  | 0 => throw .unfinished
  | n + 1 => do
    let t ← peek 0
    if t.isIdentifier "not" then do
      advance
      let argument ← parseNot env expr n
      pure (.unaryExpression (env.info t) t.value argument)
    else parseComparison env expr n

/-- `parse_logical_and_expression`. -/
def parseAnd : Parse (Statement α F) := do
  let left ← parseNot env expr n
  parseChain (operatorOfName env "and") (parseNot env expr) n left

/-- `parse_logical_or_expression`. -/
def parseOr : Parse (Statement α F) := do
  let left ← parseAnd env expr n
  parseChain (operatorOfName env "or") (parseAnd env expr) n left

/-- What follows an expression: an `if` with or without an `else`. -/
def parseIfTail (a : Statement α F) : Parse (Statement α F) := do
  let t ← peek 0
  if t.isIdentifier "if" then do
    advance
    let test ← parseOr env expr n
    let u ← peek 0
    if u.isIdentifier "else" then do
      advance
      let falseExpr ← expr
      pure (.ternaryExpression (env.info u) test a falseExpr)
    else pure (.selectExpression (env.info t) a test)
  else pure a

/-- `parse_if_expression`. -/
def parseIf : Parse (Statement α F) := do
  let a ← parseOr env expr n
  parseIfTail env expr n a

end

section

variable {α F : Type} (env : ParserEnv α F)

def parseExpression : ℕ → Parse (Statement α F)
  | 0 => throw .unfinished
  | n + 1 => parseIf env (parseExpression n) n

def parseJinjaExpression (n : ℕ) : Parse (Statement α F) := do
  let _ ← expect .openExpression "Expected \x7b\x7b"
  let e ← parseExpression env n
  let _ ← expect .closeExpression "Expected \x7d\x7d"
  pure e

/-! ## Statements -/

/-- Statements up to one with one of these names. -/
def parseUntil (names : List String) (any : Parse (Statement α F)) :
    ℕ → Parse (List (Statement α F))
  | 0 => throw .unfinished
  | n + 1 => do
    let found ← isStatement names
    if found then pure [] else do
      let s ← any
      let ss ← parseUntil names any n
      pure (s :: ss)

/-- A tag that closes a statement. -/
def expectEnd (name : String) : Parse Unit := do
  let _ ← expect .openStatement "Expected \x7b%"
  expectIdentifier name
  let _ ← expect .closeStatement "Expected %\x7d"
  pure ()

variable (any : Parse (Statement α F)) (n : ℕ)

def parseSetStatement (start : Token) : Parse (Statement α F) := do
  let left ← parseExpressionSequence env n (parseExpression env n)
  let t ← peek 0
  if t.t = .equals then do
    advance
    let value ← parseExpressionSequence env n (parseExpression env n)
    let _ ← expect .closeStatement "Expected %\x7d"
    pure (.setStatement (env.info start) left (some value) [])
  else do
    let _ ← expect .closeStatement "Expected %\x7d"
    let body ← parseUntil ["endset"] any n
    let _ ← expect .openStatement "Expected \x7b%"
    expectIdentifier "endset"
    let _ ← expect .closeStatement "Expected %\x7d"
    pure (.setStatement (env.info start) left none body)

def parseIfStatement : ℕ → Token → Parse (Statement α F)
  | 0, _ => throw .unfinished
  | m + 1, start => do
    let test ← parseExpression env n
    let _ ← expect .closeStatement "Expected %\x7d"
    let body ← parseUntil ["elif", "else", "endif"] any n
    let elif ← isStatement ["elif"]
    let otherwise ← isStatement ["else"]
    if elif then do
      let t ← peek 0
      advance
      advance
      let nested ← parseIfStatement m t
      pure (.ifStatement (env.info start) test body [nested])
    else if otherwise then do
      advance
      advance
      let _ ← expect .closeStatement "Expected %\x7d"
      let alternate ← parseUntil ["endif"] any n
      pure (.ifStatement (env.info start) test body alternate)
    else pure (.ifStatement (env.info start) test body [])

def parseMacroStatement (start : Token) : Parse (Statement α F) := do
  let name ← parsePrimary env (parseExpression env n) n
  let args ← parseArgs env (parseExpression env n) n
  let _ ← expect .closeStatement "Expected %\x7d"
  let body ← parseUntil ["endmacro"] any n
  pure (.macroStatement (env.info start) name args body)

def parseForStatement (start : Token) : Parse (Statement α F) := do
  let loopVar ← parseExpressionSequence env n (parsePrimary env (parseExpression env n) n)
  let t ← peek 0
  if !t.isIdentifier "in" then throw (.runtime "Expected 'in'") else do
    advance
    let iterable ← parseExpression env n
    let _ ← expect .closeStatement "Expected %\x7d"
    let body ← parseUntil ["endfor", "else"] any n
    let otherwise ← isStatement ["else"]
    if otherwise then do
      advance
      advance
      let _ ← expect .closeStatement "Expected %\x7d"
      let alternate ← parseUntil ["endfor"] any n
      pure (.forStatement (env.info start) loopVar iterable body alternate)
    else pure (.forStatement (env.info start) loopVar iterable body [])

/-- The arguments of the caller, if there are any. -/
def parseCallerArgs : Parse (List (Statement α F)) := do
  let t ← peek 0
  if t.t = .openParen then parseArgs env (parseExpression env n) n else pure []

/-- A `call` statement. -/
def parseCallStatement (start : Token) : Parse (Statement α F) := do
  let callerArgs ← parseCallerArgs env n
  let callee ← parsePrimary env (parseExpression env n) n
  match callee with
  | .identifier .. => do
    let callArgs ← parseArgs env (parseExpression env n) n
    let _ ← expect .closeStatement "Expected %\x7d"
    let body ← parseUntil ["endcall"] any n
    expectEnd "endcall"
    pure (.callStatement (env.info start) (.callExpression (env.info start) callee callArgs)
      callerArgs body)
  | _ => throw (.runtime "Expected identifier")

/-- The filter of a `filter` statement. -/
def parseFilterNode : Parse (Statement α F) := do
  let node ← parsePrimary env (parseExpression env n) n
  let t ← peek 0
  match node with
  | .identifier .. =>
    if t.t = .openParen then parseCall env (parseExpression env n) n node else pure node
  | _ => pure node

/-- A `filter` statement. -/
def parseFilterStatement (start : Token) : Parse (Statement α F) := do
  let node ← parseFilterNode env n
  let _ ← expect .closeStatement "Expected %\x7d"
  let body ← parseUntil ["endfilter"] any n
  expectEnd "endfilter"
  pure (.filterStatement (env.info start) node body)

/-- A statement and the tag that closes it. -/
def closedBy (name : String) (statement : Parse (Statement α F)) : Parse (Statement α F) := do
  let s ← statement
  expectEnd name
  pure s

/-- The statement of a name. -/
def parseNamed (start : Token) : Parse (Statement α F) :=
  if start.value = "set" then parseSetStatement env any n start
  else if start.value = "if" then closedBy "endif" (parseIfStatement env any n n start)
  else if start.value = "macro" then closedBy "endmacro" (parseMacroStatement env any n start)
  else if start.value = "for" then closedBy "endfor" (parseForStatement env any n start)
  else if start.value = "break" then do
    let _ ← expect .closeStatement "Expected %\x7d"
    pure (.breakStatement (env.info start))
  else if start.value = "continue" then do
    let _ ← expect .closeStatement "Expected %\x7d"
    pure (.continueStatement (env.info start))
  else if start.value = "call" then parseCallStatement env any n start
  else if start.value = "filter" then parseFilterStatement env any n start
  else if start.value = "generation" ∨ start.value = "endgeneration" then do
    advance
    pure (.noopStatement (env.info start))
  else throw (.runtime ("Unknown statement: " ++ start.value))

def parseJinjaStatement : Parse (Statement α F) := do
  let _ ← expect .openStatement "Expected \x7b%"
  let t ← peek 0
  if t.t ≠ .identifier then throw (.runtime "Unknown statement") else do
    advance
    parseNamed env any n t

def parseAny (env : ParserEnv α F) : ℕ → Parse (Statement α F)
  | 0 => throw .unfinished
  | n + 1 => do
    let t ← peek 0
    match t.t with
    | .comment => do
      advance
      pure (.commentStatement (env.info t) t.value)
    | .text => do
      advance
      pure (.stringLiteral (env.info t) t.value)
    | .openStatement => parseJinjaStatement env (parseAny env n) n
    | .openExpression => parseJinjaExpression env n
    | _ => throw (.runtime "Unexpected token type")

/-- `parser::parse`. -/
def parseProgram (any : Parse (Statement α F)) : ℕ → Parse (List (Statement α F))
  | 0 => throw .unfinished
  | n + 1 => fun ts =>
    if ts = [] then .ok ([], [])
    else (do
      let s ← any
      let ss ← parseProgram any n
      pure (s :: ss)) ts

end

/-- The position of the last token. -/
def endPos (tokens : List Token) : ℕ := (tokens.getLast?.map Token.pos).getD 0

/-- `parse_from_tokens`, as deep as the bound allows. -/
def parseFromTokens {α F : Type} (info : Token → α) (stod : String → Except ParseError F) (n : ℕ)
    (tokens : List Token) : Except ParseError (List (Statement α F)) := do
  let env : ParserEnv α F := ⟨info, stod, endPos tokens⟩
  let r ← parseProgram (parseAny env n) n tokens
  pure r.1

end Llama.Jinja
