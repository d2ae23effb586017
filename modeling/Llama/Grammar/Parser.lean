import Llama.Grammar
import Llama.Lib.Control
import Mathlib.Algebra.GroupWithZero.Nat
import Mathlib.Order.Lattice.Nat

/-!
# The grammar parser

`llama_grammar_parser` reads the text of a grammar.  The rules refer to each other by ids, which
the parser gives to the names that it meets; a group and a repetition make rules of their own.

A position is the rest of the text, a character is a byte, and what is read past the end is the
null character.  A loop has a bound on its rounds, and the nesting of groups one on its depth;
both are taken from the length of the text that is left.
-/

namespace Llama

/-- A repetition that was expanded: the elements of the item, the bounds, and how many rules and
elements were made for it. -/
structure Repetition where
  sym : List GrammarElement
  minTimes : ℕ
  maxTimes : ℕ
  nRules : ℕ
  nElements : ℕ
  deriving DecidableEq, Repr

/-- `llama_grammar_parser`.  Which of its names comes first does not matter to the map of the ids,
so it is a list.  The rules that were added, and the repetitions that were expanded, are recorded
beside it; nothing reads this record. -/
structure GrammarParser where
  symbolIds : List (List Char × ℕ)
  rules : GrammarRules
  added : GrammarRules
  repetitions : List Repetition

/-- What the parser throws: a text, followed by the rest of the input or a name, followed by
another text. -/
structure GrammarError where
  text : String
  pos : List Char
  rest : String
  deriving DecidableEq, Repr

namespace GrammarParser

/-- A function of the parser. -/
abbrev Parse (α : Type) := Control GrammarParser GrammarError Empty α

/-- A parser of which nothing was asked yet. -/
def new : GrammarParser := ⟨[], [], [], []⟩

def maxRepetitionThreshold : ℕ := 2000

def uint64Max : ℕ := 2 ^ 64 - 1

/-! ## Characters -/

/-- `*pos`. -/
def peek (pos : List Char) : Char := pos.headD '\x00'

def isDigitChar (c : Char) : Bool := '0' ≤ c && c ≤ '9'

def isWordChar (c : Char) : Bool :=
  ('a' ≤ c && c ≤ 'z') || ('A' ≤ c && c ≤ 'Z') || c == '-' || isDigitChar c

/-- `decode_utf8` of one character: its length by the first byte, and the bytes that follow it
unless the text ends. -/
def decodeUtf8 (src : List Char) : ℕ × List Char :=
  let first := (peek src).toNat % 256
  let len := [1, 1, 1, 1, 1, 1, 1, 1, 1, 1, 1, 1, 2, 2, 3, 4].getD (first / 16) 1
  let more := (src.tail.take (len - 1)).takeWhile (· ≠ '\x00')
  (more.foldl (fun value c => value * 64 + c.toNat % 64) (first % 2 ^ (8 - len)),
    src.tail.drop more.length)

/-- The value of a hexadecimal digit. -/
def hexDigit (c : Char) : Option ℕ :=
  if 'a' ≤ c ∧ c ≤ 'f' then some (c.toNat - 'a'.toNat + 10)
  else if 'A' ≤ c ∧ c ≤ 'F' then some (c.toNat - 'A'.toNat + 10)
  else if '0' ≤ c ∧ c ≤ '9' then some (c.toNat - '0'.toNat)
  else none

/-- The loop of `parse_hex`; `none` when it stops before the end. -/
def hexLoop : ℕ → ℕ → List Char → Option (ℕ × List Char)
  | 0, value, pos => some (value, pos)
  | _ + 1, _, [] => none
  | k + 1, value, c :: pos =>
    match hexDigit c with
    | none => none
    | some d => hexLoop k (value * 16 + d) pos

def parseHex (src : List Char) (size : ℕ) : Except GrammarError (ℕ × List Char) :=
  match hexLoop size 0 src with
  | none => .error ⟨"expecting " ++ toString size ++ " hex chars at ", src, ""⟩
  | some r => .ok r

/-- `parse_space`; the loop over a comment is a flag. -/
def parseSpace (newlineOk : Bool) : Bool → List Char → List Char
  | _, [] => []
  | comment, c :: pos =>
    if comment ∧ c ≠ '\x00' ∧ c ≠ '\r' ∧ c ≠ '\n' then parseSpace newlineOk true pos
    else if c = ' ' ∨ c = '\t' ∨ (newlineOk ∧ (c = '\r' ∨ c = '\n')) then
      parseSpace newlineOk false pos
    else if c = '#' then parseSpace newlineOk true pos
    else c :: pos

/-- White space from a position on. -/
def skipSpace (newlineOk : Bool) (pos : List Char) : List Char := parseSpace newlineOk false pos

/-- `parse_name`: the name and the position behind it. -/
def parseName (src : List Char) : Except GrammarError (List Char × List Char) :=
  if isWordChar (peek src) then .ok (src.takeWhile isWordChar, src.dropWhile isWordChar)
  else .error ⟨"expecting name at ", src, ""⟩

/-- `parse_int`: the digits and the position behind them. -/
def parseInt (src : List Char) : Except GrammarError (List Char × List Char) :=
  if isDigitChar (peek src) then .ok (src.takeWhile isDigitChar, src.dropWhile isDigitChar)
  else .error ⟨"expecting integer at ", src, ""⟩

/-- `std::stoull` and `std::stoul`, of digits. -/
def stoull (fn : String) (digits : List Char) : Except GrammarError ℕ :=
  let n := Nat.ofDigitChars 10 digits 0
  if n ≤ uint64Max then .ok n else .error ⟨fn, [], ""⟩

def parseChar (src : List Char) : Except GrammarError (ℕ × List Char) :=
  if peek src = '\\' then
    let c := peek src.tail
    let pos := src.tail.tail
    if c = 'x' then parseHex pos 2
    else if c = 'u' then parseHex pos 4
    else if c = 'U' then parseHex pos 8
    else if c = 't' then .ok ('\t'.toNat, pos)
    else if c = 'r' then .ok ('\r'.toNat, pos)
    else if c = 'n' then .ok ('\n'.toNat, pos)
    else if c = '\\' ∨ c = '"' ∨ c = '[' ∨ c = ']' ∨ c = '-' then .ok (c.toNat, pos)
    else .error ⟨"unknown escape at ", src, ""⟩
  else if peek src ≠ '\x00' then .ok (decodeUtf8 src)
  else .error ⟨"unexpected end of input", [], ""⟩

/-- The character at a position has to be `c`; the position behind it. -/
def expect (c : Char) (text : String) (pos : List Char) : Except GrammarError (List Char) :=
  if peek pos = c then .ok pos.tail else .error ⟨text, pos, ""⟩

/-- A token that is given by its id, behind the brackets. -/
def parseTokenId (pos : List Char) : Except GrammarError (ℕ × List Char) := do
  let (digits, pos) ← parseInt pos
  let tokenId ← stoull "stoul" digits
  let pos ← expect ']' "expecting ']' at " pos
  let pos ← expect '>' "expecting '>' at " pos
  return (tokenId % 2 ^ 32, pos)

/-- A token that is given by its text, which starts with the bracket before `pos`. -/
def parseTokenText (tokenize : List Char → Option ℕ) (pos : List Char) :
    Except GrammarError (ℕ × List Char) := do
  let name := pos.takeWhile fun c => c ≠ '\x00' ∧ c ≠ '>'
  let pos ← expect '>' "expecting '>' at " (pos.drop name.length)
  let token := '<' :: name ++ ['>']
  match tokenize token with
  | none => .error ⟨"invalid token '", token, "'"⟩
  | some id => return (id, pos)

/-- `parse_token`.  The vocabulary gives the token of a text that is exactly one. -/
def parseToken (vocab : Option (List Char → Option ℕ)) (src : List Char) :
    Except GrammarError (ℕ × List Char) := do
  let pos ← expect '<' "expecting '<' at " src
  if peek pos = '[' then parseTokenId pos.tail
  else
    match vocab with
    | none => .error ⟨"no vocab to parse token at ", src, ""⟩
    | some tokenize => parseTokenText tokenize pos

def getSymbolId (name : List Char) (s : GrammarParser) : ℕ × GrammarParser :=
  match s.symbolIds.lookup name with
  | some id => (id, s)
  | none =>
    let id := s.symbolIds.length % 2 ^ 32
    (id, { s with symbolIds := s.symbolIds ++ [(name, id)] })

/-- `symbol_ids[name] = id`. -/
def setSymbol (name : List Char) (id : ℕ) : List (List Char × ℕ) → List (List Char × ℕ)
  | [] => [(name, id)]
  | kv :: kvs => if kv.1 = name then (name, id) :: kvs else kv :: setSymbol name id kvs

def generateSymbolId (baseName : List Char) (s : GrammarParser) : ℕ × GrammarParser :=
  let id := s.symbolIds.length % 2 ^ 32
  (id, { s with symbolIds := setSymbol (baseName ++ '_' :: Nat.toDigits 10 id) id s.symbolIds })

def resize (rules : GrammarRules) (n : ℕ) : GrammarRules :=
  rules.take n ++ List.replicate (n - rules.length) []

def addRule (ruleId : ℕ) (rule : List GrammarElement) (s : GrammarParser) : GrammarParser :=
  let rules := if s.rules.length ≤ ruleId then resize s.rules ((ruleId + 1) % 2 ^ 32) else s.rules
  { s with rules := rules.set ruleId rule, added := rule :: s.added }

/-! ## Repetitions -/

/-- The local variables of `parse_sequence`: the rule, where its last item starts, and how many
rules were made for that item. -/
structure SeqState where
  rule : List GrammarElement
  lastSymStart : ℕ
  nPrevRules : ℕ

/-- The loop that makes a rule for every optional repetition; the first component is the id of
the last one. -/
def recLoop (ruleName : List Char) (prevRule : List GrammarElement) (noMax : Bool) :
    ℕ → ℕ → ℕ × GrammarParser → ℕ × GrammarParser
  | 0, _, st => st
  | k + 1, i, (lastRecRuleId, s) =>
    let (recRuleId, s) := generateSymbolId ruleName s
    let ref := if 0 < i ∨ noMax then [⟨.ruleRef, if noMax then recRuleId else lastRecRuleId⟩]
      else []
    let recRule := prevRule ++ ref ++ [⟨.alt, 0⟩, ⟨.end_, 0⟩]
    recLoop ruleName prevRule noMax k (i + 1) (recRuleId, addRule recRuleId recRule s)

/-- The number of rules that the check counts for a repetition. -/
def totalRules (minTimes maxTimes : ℕ) : ℕ :=
  if maxTimes ≠ uint64Max ∧ 0 < maxTimes then maxTimes
  else if 0 < minTimes then minTimes
  else 1

/-- The number of optional repetitions, `max_times - min_times` in 64 bits. -/
def nOpt (minTimes maxTimes : ℕ) : ℕ :=
  if maxTimes = uint64Max then 1 else (maxTimes + 2 ^ 64 - minTimes) % 2 ^ 64

/-- What `handle_repetitions` does once its checks are passed. -/
def expand (ruleName : List Char) (minTimes maxTimes : ℕ) (st : SeqState) (s : GrammarParser) :
    SeqState × GrammarParser :=
  let prevRule := st.rule.drop st.lastSymStart
  let rule := if minTimes = 0 then st.rule.take st.lastSymStart
    else st.rule ++ (List.replicate (minTimes - 1) prevRule).flatten
  let n := nOpt minTimes maxTimes
  let r := recLoop ruleName prevRule (maxTimes = uint64Max) n 0 (0, s)
  let rule := if 0 < n then rule ++ [⟨.ruleRef, r.1⟩] else rule
  let nRules := r.2.added.length - s.added.length
  let repetition : Repetition :=
    { sym := prevRule
      minTimes := minTimes
      maxTimes := maxTimes
      nRules := nRules
      nElements := rule.length - st.lastSymStart + ((r.2.added.take nRules).map List.length).sum }
  ({ st with rule := rule, nPrevRules := st.nPrevRules * totalRules minTimes maxTimes % 2 ^ 64 },
    { r.2 with repetitions := repetition :: s.repetitions })

def handleRepetitions (ruleName pos : List Char) (minTimes maxTimes : ℕ) (st : SeqState) :
    Parse SeqState :=
  if st.lastSymStart = st.rule.length then
    Control.fail ⟨"expecting preceding item to */+/?/\x7b at ", pos, ""⟩
  else if maxRepetitionThreshold ≤ st.nPrevRules * totalRules minTimes maxTimes % 2 ^ 64 then
    Control.fail ⟨"number of rules that are going to be repeated multiplied by the new " ++
      "repetition exceeds sane defaults, please reduce the number of repetitions or rule " ++
      "complexity", [], ""⟩
  else Control.onState fun s =>
    let r := expand ruleName minTimes maxTimes st s
    (.ok r.1, r.2)

/-! ## Sequences -/

/-- The loop of a literal string. -/
def literalLoop : ℕ → List Char → List GrammarElement → Parse (List Char × List GrammarElement)
  | 0, _, _ => Control.unfinished
  | k + 1, pos, rule =>
    if peek pos = '"' then pure (pos, rule)
    else if peek pos = '\x00' then Control.fail ⟨"unexpected end of input", [], ""⟩
    else do
      let (value, pos) ← Control.ofExcept (parseChar pos)
      literalLoop k pos (rule ++ [⟨.char, value⟩])

/-- The upper end of a range, when there is one. -/
def rangeUpper (pos : List Char) (rule : List GrammarElement) :
    Except GrammarError (List Char × List GrammarElement) :=
  if peek pos = '-' ∧ peek pos.tail ≠ ']' then
    if peek pos.tail = '\x00' then .error ⟨"unexpected end of input", [], ""⟩
    else do
      let (value, pos) ← parseChar pos.tail
      return (pos, rule ++ [⟨.charRngUpper, value⟩])
  else .ok (pos, rule)

/-- The loop of a character class that starts at element `lastSymStart` of the rule. -/
def rangeLoop (lastSymStart : ℕ) (startType : Gretype) :
    ℕ → List Char → List GrammarElement → Parse (List Char × List GrammarElement)
  | 0, _, _ => Control.unfinished
  | k + 1, pos, rule =>
    if peek pos = ']' then pure (pos, rule)
    else if peek pos = '\x00' then Control.fail ⟨"unexpected end of input", [], ""⟩
    else do
      let (value, pos) ← Control.ofExcept (parseChar pos)
      let type := if lastSymStart < rule.length then .charAlt else startType
      let (pos, rule) ← Control.ofExcept (rangeUpper pos (rule ++ [⟨type, value⟩]))
      rangeLoop lastSymStart startType k pos rule

/-- The item of a sequence ends with the rule `rule`; the next one starts behind it. -/
def SeqState.item (st : SeqState) (rule : List GrammarElement) (nPrevRules : ℕ) : SeqState :=
  { rule := rule, lastSymStart := st.rule.length, nPrevRules := nPrevRules }

/-- The upper bound of a repetition, if there is one behind the comma. -/
def parseUpper (isNested : Bool) (pos : List Char) : Except GrammarError (ℕ × List Char) :=
  if isDigitChar (peek pos) then do
    let (digits, pos) ← parseInt pos
    let maxTimes ← stoull "stoull" digits
    return (maxTimes, skipSpace isNested pos)
  else .ok (uint64Max, pos)

/-- What follows the lower bound of a repetition. -/
def parseMaxTimes (isNested : Bool) (minTimes : ℕ) (pos : List Char) :
    Except GrammarError (ℕ × List Char) :=
  if peek pos = '\x7d' then .ok (minTimes, skipSpace isNested pos.tail)
  else if peek pos = ',' then do
    let (maxTimes, pos) ← parseUpper isNested (skipSpace isNested pos.tail)
    let pos ← expect '\x7d' "expecting '\x7d' at " pos
    return (maxTimes, skipSpace isNested pos)
  else .error ⟨"expecting ',' at ", pos, ""⟩

/-- The bounds of a repetition in braces, and the position behind them. -/
def parseBounds (isNested : Bool) (src : List Char) : Except GrammarError (ℕ × ℕ × List Char) :=
  if !isDigitChar (peek src) then .error ⟨"expecting an int at ", src, ""⟩
  else do
    let (digits, pos) ← parseInt src
    let minTimes ← stoull "stoull" digits
    let (maxTimes, pos) ← parseMaxTimes isNested minTimes (skipSpace isNested pos)
    if maxRepetitionThreshold < minTimes then
      .error ⟨"number of repetitions exceeds sane defaults, " ++
        "please reduce the number of repetitions", [], ""⟩
    else
      return (minTimes,
        if maxTimes ≠ uint64Max ∧ maxRepetitionThreshold < maxTimes then uint64Max else maxTimes,
        pos)

/-- A group: its alternates are parsed into a rule of their own. -/
def parseGroup (nested : List Char → ℕ → Parse (List Char)) (ruleName : List Char)
    (isNested : Bool) (pos : List Char) (st : SeqState) : Parse (List Char × SeqState) := do
  let pos := skipSpace true pos.tail
  let (nRulesBefore, subRuleId) ← Control.onState fun s =>
    let r := generateSymbolId ruleName s
    (.ok (s.symbolIds.length % 2 ^ 32, r.1), r.2)
  let pos ← nested pos subRuleId
  let nRules ← Control.onState fun s => (.ok (s.symbolIds.length % 2 ^ 32), s)
  if peek pos ≠ ')' then Control.fail ⟨"expecting ')' at ", pos, ""⟩
  else
    let nPrevRules := max 1 ((nRules + 2 ^ 32 - nRulesBefore) % 2 ^ 32)
    pure (skipSpace isNested pos.tail, st.item (st.rule ++ [⟨.ruleRef, subRuleId⟩]) nPrevRules)

/-- The body of the loop of `parse_sequence`; `none` is the end of the sequence. -/
def sequenceStep (vocab : Option (List Char → Option ℕ))
    (nested : List Char → ℕ → Parse (List Char)) (ruleName : List Char) (isNested : Bool)
    (pos : List Char) (st : SeqState) : Parse (Option (List Char × SeqState)) :=
  if peek pos = '"' then do
    let (pos, rule) ← literalLoop (pos.length + 1) pos.tail st.rule
    pure (some (skipSpace isNested pos.tail, st.item rule 1))
  else if peek pos = '[' then do
    let startType := if peek pos.tail = '^' then .charNot else .char
    let pos := if peek pos.tail = '^' then pos.tail.tail else pos.tail
    let (pos, rule) ← rangeLoop st.rule.length startType (pos.length + 1) pos st.rule
    pure (some (skipSpace isNested pos.tail, st.item rule 1))
  else if peek pos = '<' ∨ peek pos = '!' then do
    let type := if peek pos = '!' then .tokenNot else .token
    let pos := if peek pos = '!' then pos.tail else pos
    let (value, pos) ← Control.ofExcept (parseToken vocab pos)
    pure (some (skipSpace isNested pos, st.item (st.rule ++ [⟨type, value⟩]) 1))
  else if isWordChar (peek pos) then do
    let (name, pos) ← Control.ofExcept (parseName pos)
    let refRuleId ← Control.onState fun s =>
      let r := getSymbolId name s
      (.ok r.1, r.2)
    pure (some (skipSpace isNested pos, st.item (st.rule ++ [⟨.ruleRef, refRuleId⟩]) 1))
  else if peek pos = '(' then do
    let r ← parseGroup nested ruleName isNested pos st
    pure (some r)
  else if peek pos = '.' then
    pure (some (skipSpace isNested pos.tail, st.item (st.rule ++ [⟨.charAny, 0⟩]) 1))
  else if peek pos = '*' then do
    let pos := skipSpace isNested pos.tail
    let st ← handleRepetitions ruleName pos 0 uint64Max st
    pure (some (pos, st))
  else if peek pos = '+' then do
    let pos := skipSpace isNested pos.tail
    let st ← handleRepetitions ruleName pos 1 uint64Max st
    pure (some (pos, st))
  else if peek pos = '?' then do
    let pos := skipSpace isNested pos.tail
    let st ← handleRepetitions ruleName pos 0 1 st
    pure (some (pos, st))
  else if peek pos = '\x7b' then do
    let (minTimes, maxTimes, pos) ←
      Control.ofExcept (parseBounds isNested (skipSpace isNested pos.tail))
    let st ← handleRepetitions ruleName pos minTimes maxTimes st
    pure (some (pos, st))
  else pure none

/-- The loop of `parse_sequence`. -/
def sequenceLoop (vocab : Option (List Char → Option ℕ))
    (nested : List Char → ℕ → Parse (List Char)) (ruleName : List Char) (isNested : Bool) :
    ℕ → List Char → SeqState → Parse (List Char × List GrammarElement)
  | 0, _, _ => Control.unfinished
  | k + 1, pos, st =>
    if peek pos = '\x00' then pure (pos, st.rule)
    else do
      let next ← sequenceStep vocab nested ruleName isNested pos st
      match next with
      | none => pure (pos, st.rule)
      | some (pos, st) => sequenceLoop vocab nested ruleName isNested k pos st

/-- `parse_sequence`, which adds to a rule. -/
def parseSequence (vocab : Option (List Char → Option ℕ))
    (nested : List Char → ℕ → Parse (List Char)) (ruleName : List Char) (isNested : Bool)
    (src : List Char) (rule : List GrammarElement) : Parse (List Char × List GrammarElement) :=
  sequenceLoop vocab nested ruleName isNested (src.length + 1) src ⟨rule, rule.length, 1⟩

/-- The loop of `parse_alternates`. -/
def alternatesLoop (vocab : Option (List Char → Option ℕ))
    (nested : List Char → ℕ → Parse (List Char)) (ruleName : List Char) (isNested : Bool) :
    ℕ → List Char → List GrammarElement → Parse (List Char × List GrammarElement)
  | 0, _, _ => Control.unfinished
  | k + 1, pos, rule =>
    if peek pos = '|' then do
      let (pos, rule) ← parseSequence vocab nested ruleName isNested (skipSpace true pos.tail)
        (rule ++ [⟨.alt, 0⟩])
      alternatesLoop vocab nested ruleName isNested k pos rule
    else pure (pos, rule)

/-- `parse_alternates`, with groups as deep as the bound allows. -/
def parseAlternates (vocab : Option (List Char → Option ℕ)) (ruleName : List Char) :
    ℕ → Bool → List Char → ℕ → Parse (List Char)
  | 0, _, _, _ => Control.unfinished
  | n + 1, isNested, src, ruleId => do
    let nested := parseAlternates vocab ruleName n true
    let (pos, rule) ← parseSequence vocab nested ruleName isNested src []
    let (pos, rule) ← alternatesLoop vocab nested ruleName isNested (pos.length + 1) pos rule
    Control.onState fun s => (.ok (), addRule ruleId (rule ++ [⟨.end_, 0⟩]) s)
    pure pos

def parseRule (vocab : Option (List Char → Option ℕ)) (src : List Char) : Parse (List Char) := do
  let (name, pos) ← Control.ofExcept (parseName src)
  let pos := skipSpace false pos
  let ruleId ← Control.onState fun s =>
    let r := getSymbolId name s
    (.ok r.1, r.2)
  if !(peek pos = ':' ∧ peek pos.tail = ':' ∧ peek pos.tail.tail = '=') then
    Control.fail ⟨"expecting ::= at ", pos, ""⟩
  else do
    let pos := skipSpace true pos.tail.tail.tail
    let pos ← parseAlternates vocab name (pos.length + 1) false pos ruleId
    if peek pos = '\r' then
      pure (skipSpace true (if peek pos.tail = '\n' then pos.tail.tail else pos.tail))
    else if peek pos = '\n' then pure (skipSpace true pos.tail)
    else if peek pos ≠ '\x00' then Control.fail ⟨"expecting newline or end at ", pos, ""⟩
    else pure (skipSpace true pos)

/-- The loop of `parse` over the rules. -/
def rulesLoop (vocab : Option (List Char → Option ℕ)) : ℕ → List Char → Parse Unit
  | 0, _ => Control.unfinished
  | k + 1, pos =>
    if peek pos = '\x00' then pure ()
    else do
      let pos ← parseRule vocab pos
      rulesLoop vocab k pos

/-- The error for a reference to a rule that is not there. -/
def missingRule (s : GrammarParser) (elem : GrammarElement) : Option GrammarError :=
  if elem.type = .ruleRef ∧ s.rules.getD elem.value [] = [] then
    (s.symbolIds.find? fun kv => kv.2 = elem.value).map fun kv =>
      ⟨"Undefined rule identifier '", kv.1, "'"⟩
  else none

/-- The check that all rules are defined. -/
def undefinedRule (s : GrammarParser) : Option GrammarError :=
  s.rules.findSome? fun rule =>
    if rule = [] then some ⟨"Undefined rule", [], ""⟩ else rule.findSome? (missingRule s)

/-- How `parse` ends: an error is printed, and no rules are left. -/
def finish (e : Option GrammarError) (s : GrammarParser) :
    Outcome GrammarError Empty (Option GrammarError) × GrammarParser :=
  (.ok e, { s with rules := if e.isSome then [] else s.rules })

/-- `parse`; the value is the error that was printed. -/
def parse (vocab : Option (List Char → Option ℕ)) (src : List Char) :
    Parse (Option GrammarError) := fun s =>
  let pos := skipSpace true src
  match rulesLoop vocab (pos.length + 1) pos s with
  | (.ok _, s) => finish (undefinedRule s) s
  | (.error e, s) => finish (some e) s
  | (.signal t, s) => (.signal t, s)
  | (.unfinished, s) => (.unfinished, s)

/-- The rules of a grammar of a group and two repetitions. -/
example : (parse none "root ::= (\"a\" | [b-d])\x7b2\x7d x?\nx ::= \"e\"".toList new).2.rules =
    [[⟨.ruleRef, 1⟩, ⟨.ruleRef, 1⟩, ⟨.ruleRef, 3⟩, ⟨.end_, 0⟩],
      [⟨.char, 97⟩, ⟨.alt, 0⟩, ⟨.char, 98⟩, ⟨.charRngUpper, 100⟩, ⟨.end_, 0⟩],
      [⟨.char, 101⟩, ⟨.end_, 0⟩], [⟨.ruleRef, 2⟩, ⟨.alt, 0⟩, ⟨.end_, 0⟩]] := by
  decide +kernel

end GrammarParser
end Llama
