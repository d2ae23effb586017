import Mathlib.Data.List.DropRight
import Mathlib.Algebra.Group.Nat.Defs

/-!
# The template lexer

The source is normalized, and then one loop takes tokens off it: outside of tags the text up to the
next tag, inside of them one token at a time.  A character is a byte.  What is read past the end of
a string is the null character.
-/

namespace Llama.Jinja

/-- `token::type`. -/
inductive TokenType
  | eof
  | text
  | numericLiteral
  | stringLiteral
  | identifier
  | equals
  | openParen
  | closeParen
  | openStatement
  | closeStatement
  | openExpression
  | closeExpression
  | openSquareBracket
  | closeSquareBracket
  | openCurlyBracket
  | closeCurlyBracket
  | comma
  | dot
  | colon
  | pipe
  | callOperator
  | additiveBinaryOperator
  | multiplicativeBinaryOperator
  | comparisonBinaryOperator
  | unaryOperator
  | comment
  deriving DecidableEq, Repr

structure Token where
  t : TokenType
  value : String
  pos : ℕ
  deriving DecidableEq, Repr

/-- `lexer_exception`: the message, and the position in the source that is shown with it. -/
structure LexerException where
  msg : String
  pos : ℕ
  deriving DecidableEq, Repr

/-- A position in the source, and the characters from it on. -/
structure Cursor where
  pos : ℕ
  rest : List Char
  deriving DecidableEq, Repr

/-! ## Characters -/

def isSpace (c : Char) : Bool :=
  c == ' ' || c == '\t' || c == '\n' || c == '\x0b' || c == '\x0c' || c == '\r'

def isInteger (c : Char) : Bool := c.isDigit

def isWord (c : Char) : Bool := c.isAlphanum || c == '_'

/-- The characters that a `-` at a tag strips. -/
def isStripped (c : Char) : Bool := c == ' ' || c == '\t' || c == '\r' || c == '\n'

def escapeChars : List (Char × Char) :=
  [('n', '\n'), ('t', '\t'), ('r', '\r'), ('b', '\x08'), ('f', '\x0c'), ('v', '\x0b'),
    ('\\', '\\'), ('\'', '\''), ('"', '"')]

def orderedMappingTable : List (String × TokenType) :=
  [("\x7b%-", .openStatement), ("-%\x7d", .closeStatement), ("\x7b\x7b-", .openExpression),
    ("-\x7d\x7d", .closeExpression), ("\x7b%", .openStatement), ("%\x7d", .closeStatement),
    ("\x7b\x7b", .openExpression), ("\x7d\x7d", .closeExpression), ("(", .openParen), (")", .closeParen),
    ("\x7b", .openCurlyBracket), ("\x7d", .closeCurlyBracket), ("[", .openSquareBracket),
    ("]", .closeSquareBracket), (",", .comma), (".", .dot), (":", .colon), ("|", .pipe),
    ("<=", .comparisonBinaryOperator), (">=", .comparisonBinaryOperator),
    ("==", .comparisonBinaryOperator), ("!=", .comparisonBinaryOperator),
    ("<", .comparisonBinaryOperator), (">", .comparisonBinaryOperator),
    ("+", .additiveBinaryOperator), ("-", .additiveBinaryOperator),
    ("~", .additiveBinaryOperator), ("*", .multiplicativeBinaryOperator),
    ("/", .multiplicativeBinaryOperator), ("%", .multiplicativeBinaryOperator), ("=", .equals)]

namespace Cursor

/-- The character at the position. -/
def cur (c : Cursor) : Char := c.rest.headD '\x00'

def nextPosIs (c : Cursor) (chars : List Char) (n : ℕ) : Bool :=
  match c.rest[n]? with
  | some d => chars.contains d
  | none => false

/-- Pass characters. -/
def skip (c : Cursor) (n : ℕ) : Cursor := ⟨c.pos + n, c.rest.drop n⟩

/-- A tag or a comment opens here. -/
def opens (c : Cursor) : Bool := c.cur == '{' && c.nextPosIs ['%', '{', '#'] 1

end Cursor

/-- Replace `\r\n` by `\n`. -/
def dropCarriageReturns : List Char → List Char
  | [] => []
  | [c] => [c]
  | c :: d :: rest =>
    if c = '\r' ∧ d = '\n' then '\n' :: dropCarriageReturns rest
    else c :: dropCarriageReturns (d :: rest)

/-- The source as it is scanned. -/
def normalize (source : List Char) : List Char :=
  let src := (dropCarriageReturns source).map fun c => if c = '\r' then '\n' else c
  if source.getLast? = some '\n' then src.dropLast else src

/-! ## Tokens -/

def consumeWhile (p : Char → Bool) : ℕ → List Char → Except LexerException (List Char × Cursor)
  | pos, [] =>
    if p '\x00' then .error ⟨"unexpected end of input during consume_while", pos + 1⟩
    else .ok ([], ⟨pos, []⟩)
  | pos, [c] =>
    if p c then
      if c = '\\' then .error ⟨"unexpected end of input after escape character", pos + 1⟩
      else do
        let r ← consumeWhile p (pos + 1) []
        pure (c :: r.1, r.2)
    else .ok ([], ⟨pos, [c]⟩)
  | pos, c :: d :: rest =>
    if p c then
      if c = '\\' then
        match escapeChars.lookup d with
        | some unescaped => do
          let r ← consumeWhile p (pos + 2) rest
          pure (unescaped :: r.1, r.2)
        | none => .error ⟨"unknown escape character \\" ++ String.singleton d, pos + 2⟩
      else do
        let r ← consumeWhile p (pos + 1) (d :: rest)
        pure (c :: r.1, r.2)
    else .ok ([], ⟨pos, c :: d :: rest⟩)

def consumeNumeric (c : Cursor) : Except LexerException (List Char × Cursor) := do
  let num ← consumeWhile isInteger c.pos c.rest
  if num.2.cur = '.' ∧ isInteger (num.2.skip 1).cur then
    let frac ← consumeWhile isInteger (num.2.skip 1).pos (num.2.skip 1).rest
    pure (num.1 ++ '.' :: frac.1, frac.2)
  else pure num

/-- The characters of a comment, up to the tag that closes it. -/
def scanComment : ℕ → List Char → Except LexerException (List Char × Cursor)
  | pos, [] => .error ⟨"missing end of comment tag", pos⟩
  | pos, c :: rest =>
    if c = '#' ∧ rest.head? = some '}' then .ok ([], ⟨pos, c :: rest⟩)
    else if rest.length < 2 then .error ⟨"missing end of comment tag", pos⟩
    else do
      let r ← scanComment (pos + 1) rest
      pure (c :: r.1, r.2)

/-- The first entry of the mapping table that matches.  Inside an object literal, `}}` does not end
an expression. -/
def matchMapping (depth : ℕ) (rest : List Char) : Option (String × TokenType) :=
  orderedMappingTable.find? fun entry =>
    entry.1.toList.isPrefixOf rest && !(entry.1 == "\x7d\x7d" && decide (0 < depth))

/-- The depth after a token of the mapping table. -/
def nextDepth (depth : ℕ) : TokenType → ℕ
  | .openExpression => 0
  | .openCurlyBracket => (depth + 1) % 2 ^ 64
  | .closeCurlyBracket => (depth + (2 ^ 64 - 1)) % 2 ^ 64
  | _ => depth

/-- A token, and the depth and the position after it. -/
structure LexStep where
  token : Token
  depth : ℕ
  cur : Cursor
  deriving DecidableEq, Repr

/-- After these tokens a sign is part of a binary operator. -/
def endsOperand : TokenType → Bool
  | .identifier => true
  | .numericLiteral => true
  | .stringLiteral => true
  | .closeParen => true
  | .closeSquareBracket => true
  | _ => false

/-- A sign that is part of an operand, with the number after it. -/
def lexSign (depth : ℕ) (c : Cursor) : Except LexerException (Option LexStep) := do
  let num ← consumeNumeric (c.skip 1)
  let t := if num.1 = [] then TokenType.unaryOperator else .numericLiteral
  pure (some ⟨⟨t, String.ofList (c.cur :: num.1), c.pos⟩, depth, num.2⟩)

/-- A string, a number or a word. -/
def lexLiteral (depth : ℕ) (c : Cursor) : Except LexerException (Option LexStep) :=
  if c.cur = '\'' ∨ c.cur = '"' then do
    let str ← consumeWhile (fun d => d != c.cur) (c.pos + 1) (c.skip 1).rest
    pure (some ⟨⟨.stringLiteral, String.ofList str.1, c.pos⟩, depth, str.2.skip 1⟩)
  else if isInteger c.cur then do
    let num ← consumeNumeric c
    pure (some ⟨⟨.numericLiteral, String.ofList num.1, c.pos⟩, depth, num.2⟩)
  else if isWord c.cur then do
    let word ← consumeWhile isWord c.pos c.rest
    pure (some ⟨⟨.identifier, String.ofList word.1, c.pos⟩, depth, word.2⟩)
  else .error ⟨"unexpected character: " ++ String.singleton c.cur, c.pos⟩

/-- A token of the mapping table, or a literal. -/
def lexMapped (depth : ℕ) (c : Cursor) : Except LexerException (Option LexStep) :=
  match matchMapping depth c.rest with
  | some (seq, typ) => .ok (some ⟨⟨typ, seq, c.pos⟩, nextDepth depth typ, c.skip seq.length⟩)
  | none => lexLiteral depth c

/-- A token that is no comment, after the white space was passed.  No token is left at the end of
the source. -/
def lexSolid (last : Option TokenType) (depth : ℕ) (c : Cursor) :
    Except LexerException (Option LexStep) :=
  if c.rest = [] then .ok none
  else if (c.cur = '-' ∨ c.cur = '+') ∧ ¬(c.cur = '-' ∧ c.nextPosIs ['%', '}'] 1) then
    if last.getD .eof = .text ∨ last.getD .eof = .eof then
      .error ⟨"unexpected character: " ++ String.singleton c.cur, c.pos⟩
    else if endsOperand (last.getD .eof) then lexMapped depth c
    else lexSign depth c
  else lexMapped depth c

/-- A comment, or a token inside of a tag. -/
def nextToken (last : Option TokenType) (depth : ℕ) (c : Cursor) :
    Except LexerException (Option LexStep) :=
  if c.cur = '{' ∧ c.nextPosIs ['#'] 1 then do
    let comment ← scanComment (c.pos + 2) (c.skip 2).rest
    pure (some ⟨⟨.comment, String.ofList comment.1, c.pos⟩, depth, comment.2.skip 2⟩)
  else do
    -- the `-` of an opening tag is passed once more
    let dash := c.cur = '-' ∧
      (last.getD .closeStatement = .openExpression ∨ last.getD .closeStatement = .openStatement)
    let c := if dash then c.skip 1 else c
    let space ← consumeWhile isSpace c.pos c.rest
    lexSolid last depth space.2

/-- Text ends where a tag or a comment opens. -/
def scanText : ℕ → List Char → Cursor
  | pos, [] => ⟨pos, []⟩
  | pos, c :: rest => if Cursor.opens ⟨pos, c :: rest⟩ then ⟨pos, c :: rest⟩
    else scanText (pos + 1) rest

/-- Where the text ends that is kept before a block: the loop over `current`. -/
def lstripEnd (src : List Char) (start stop : ℕ) : ℕ → ℕ
  | 0 => stop
  | current + 1 =>
    let c := src.getD current '\x00'
    if current + 1 ≤ start then stop
    else if current = 0 then 0
    else if c = '\n' then current + 1
    else if !isSpace c then stop
    else lstripEnd src start stop current

/-- The text between two positions after the rules for the tags beside it were applied. -/
def stripText (src : List Char) (start : ℕ) (next : Cursor) : List Char :=
  let c0 := src.getD (start - 3) '\x00'
  let c1 := src.getD (start - 2) '\x00'
  let c2 := src.getD (start - 1) '\x00'
  let isRstripBlock := 3 < start ∧ c0 = '-' ∧ (c1 = '%' ∨ c1 = '}' ∨ c1 = '#') ∧ c2 = '}'
  let canRmNewline := 3 < start ∧ (c1 = '#' ∨ c1 = '%' ∨ c1 = '-') ∧ c2 = '}'
  let stop := if next.cur = '{' ∧ next.nextPosIs ['%', '#', '-'] 1
    then lstripEnd src start next.pos next.pos else next.pos
  let text := (src.drop start).take (stop - start)
  let text := if canRmNewline ∧ text.head? = some '\n' then text.tail else text
  let text := if isRstripBlock then text.dropWhile isStripped else text
  if next.cur = '{' ∧ next.nextPosIs ['{', '%', '#'] 1 ∧ next.nextPosIs ['-'] 2
    then text.rdropWhile isStripped else text

/-- After these tokens text follows. -/
def closesTag : TokenType → Bool
  | .closeStatement => true
  | .closeExpression => true
  | .comment => true
  | _ => false

/-- A comment, or a token inside of a tag, and then `more`. -/
def lexTag (more : Option TokenType → ℕ → Cursor → Except LexerException (List Token))
    (last : Option TokenType) (depth : ℕ) (c : Cursor) : Except LexerException (List Token) := do
  let step ← nextToken last depth c
  match step with
  | none => pure []
  | some step => do
    let tokens ← more (some step.token.t) step.depth step.cur
    pure (step.token :: tokens)

/-- An iteration of the main loop, and then `more`. -/
def lexIteration (src : List Char)
    (more : Option TokenType → ℕ → Cursor → Except LexerException (List Token))
    (last : Option TokenType) (depth : ℕ) (c : Cursor) : Except LexerException (List Token) :=
  if c.rest = [] then .ok []
  else if closesTag (last.getD .closeStatement) then
    let next := scanText c.pos c.rest
    let text := stripText src c.pos next
    if text ≠ [] then do
      let tokens ← more (some .text) depth next
      pure (⟨.text, String.ofList text, c.pos⟩ :: tokens)
    else lexTag more last depth next
  else lexTag more last depth c

/-- The main loop of `lexer::tokenize`: the tokens from the position on. -/
def lexLoop (src : List Char) :
    ℕ → Option TokenType → ℕ → Cursor → Except LexerException (List Token)
  | 0, _, _, c => .error ⟨"unfinished", c.pos⟩
  | n + 1, last, depth, c => lexIteration src (lexLoop src n) last depth c

/-- `lexer::tokenize`: the tokens, and the source as it was scanned. -/
def tokenize (source : List Char) : Except LexerException (List Token × List Char) :=
  if source = [] then .ok ([], [])
  else do
    let src := normalize source
    let tokens ← lexLoop src (src.length + 1) none 0 ⟨0, src⟩
    pure (tokens, src)

end Llama.Jinja
