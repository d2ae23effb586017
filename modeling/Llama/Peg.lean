import Llama.Trie

/-!
# Parsers of the common library

Parsers over a text that can be cut off: a lenient parse asks for more input where the text ends
too early, a strict one takes the text as it is.  The parser up to a delimiter is in
`Llama.Peg.Until`.
-/

namespace Llama.Peg

/-- `common_peg_parse_result_type`. -/
inductive ParseResultType
  | fail
  | success
  | needMoreInput
  deriving DecidableEq, Repr

/-- `common_peg_parse_result`, without the nodes. -/
structure ParseResult where
  type : ParseResultType
  start : ℕ
  stop : ℕ
  deriving DecidableEq, Repr

variable (input : List UInt8) (lenient : Bool)

/-- The end of the text is reached without a delimiter. -/
def untilEnd (startPos lastValidPos : ℕ) : ParseResult :=
  if lastValidPos = input.length ∧ lenient then ⟨.needMoreInput, startPos, lastValidPos⟩
  else ⟨.success, startPos, lastValidPos⟩

/-- The scan for a delimiter; every code point takes a byte. -/
def untilFrom (matcher : CommonTrie) (startPos : ℕ) : ℕ → ℕ → ℕ → ParseResult
  | 0, _, lastValidPos => untilEnd input lenient startPos lastValidPos
  | n + 1, pos, lastValidPos =>
    if pos < input.length then
      match Unicode.parseUtf8Codepoint input pos with
      | .incomplete =>
        if lenient then ⟨.needMoreInput, startPos, lastValidPos⟩ else ⟨.fail, startPos, startPos⟩
      | .invalid => ⟨.fail, startPos, startPos⟩
      | .success _ k =>
        match matcher.checkAt input pos with
        | .completeMatch => ⟨.success, startPos, pos⟩
        -- the rest of the text is the beginning of a delimiter, here also in a strict parse
        | .partialMatch => ⟨.success, startPos, pos⟩
        | .noMatch => untilFrom matcher startPos n (pos + k) (pos + k)
    else untilEnd input lenient startPos lastValidPos

/-- The parser for everything before one of the delimiters. -/
def untilParser (delimiters : List (List UInt8)) (startPos : ℕ) : ParseResult :=
  untilFrom input lenient (.ofWords delimiters) startPos (input.length - startPos) startPos startPos

end Llama.Peg
