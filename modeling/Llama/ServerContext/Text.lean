import Llama.Lib.Occurs
import Llama.Unicode.Validate

/-!
# The text of a slot

`process_token` appends the piece of a sampled token to the text of its slot, looks for stop words,
and decides whether the generation goes on.  The text is searched when it does not end inside a
character, from what was sent on, and only as far back as a stop word and the last piece reach.  What
is sent is held back while a stop word may be completing.

A sampled token is its piece, whether it ends the generation, and which of the limits that do not
depend on the text are reached with it.
-/

namespace Llama

/-- `string_find_partial_stop`: the longest beginning of the word at the end of the text. -/
def findPartialStop (str stop : List UInt8) : Option ℕ :=
  if str ≠ [] ∧ stop ≠ [] then
    (((List.range' 1 (min str.length stop.length)).reverse).find? fun len =>
      stop[len - 1]? = str.getLast? && (stop.take len).isSuffixOf str).map fun len =>
        str.length - len
  else none

inductive StopType
  | none
  | eos
  | word
  | limit
  deriving DecidableEq, Repr

/-- `task_params`: the stop words, and the indentation that each line needs. -/
structure TextParams where
  antiprompt : List (List UInt8)
  nIndent : ℤ
  deriving DecidableEq, Repr

/-- A sampled token: its piece, and whether it is an end token, whether the context is full, whether
the budget of tokens is spent, and whether the time for a new line is over. -/
structure SampledToken where
  piece : List UInt8
  eog : Bool
  contextFull : Bool
  noBudget : Bool
  late : Bool
  deriving DecidableEq, Repr

/-- `server_slot`: the text that was generated, and how the generation stopped. -/
structure TextSlot where
  generatedText : List UInt8
  nSentText : ℕ
  hasNextToken : Bool
  hasNewLine : Bool
  truncated : Bool
  lastNlPos : ℕ
  stop : StopType
  stoppingWord : List UInt8
  deriving DecidableEq, Repr

namespace TextSlot

/-- `reset`. -/
def new : TextSlot := ⟨[], 0, true, false, false, 0, .none, []⟩

/-- A round of the loop of `find_stopping_strings` that looks for the whole word.  The place is the
one of the words so far. -/
def considerWord (text : List UInt8) (lastTokenSize : ℕ) (r : TextSlot × Option ℕ)
    (word : List UInt8) : TextSlot × Option ℕ :=
  let tmp := word.length + lastTokenSize
  let fromPos := if tmp < text.length then text.length - tmp else 0
  match Occurs.find text word fromPos with
  | some pos =>
    if r.2.all fun stopPos => pos < stopPos then
      ({ r.1 with stop := .word, stoppingWord := word, hasNextToken := false }, some pos)
    else r
  | none => r

/-- `find_stopping_strings`, for whole words. -/
def findFullStop (params : TextParams) (slot : TextSlot) (text : List UInt8)
    (lastTokenSize : ℕ) : TextSlot × Option ℕ :=
  params.antiprompt.foldl (considerWord text lastTokenSize) (slot, none)

/-- `find_stopping_strings`, for partial stops: only whether there is one is used. -/
def hasPartialStop (params : TextParams) (text : List UInt8) : Bool :=
  params.antiprompt.any fun word => (findPartialStop text word).isSome

/-- The part of `process_token` that searches the text and sends it.  The content is the one that is
sent, and is `none` if the text ends inside a character. -/
def searchText (params : TextParams) (slot : TextSlot) (tok : SampledToken) :
    TextSlot × Option (List UInt8) :=
  let slot := { slot with
    generatedText := slot.generatedText ++ tok.piece
    hasNextToken := true }
  if Unicode.validateUtf8 slot.generatedText < slot.generatedText.length then (slot, none)
  else
    let pos := min slot.nSentText slot.generatedText.length
    let strTest := slot.generatedText.drop pos
    match slot.findFullStop params strTest tok.piece.length with
    | (slot, some stopPos) =>
      let slot := { slot with generatedText := slot.generatedText.take (pos + stopPos) }
      let pos := min slot.nSentText slot.generatedText.length
      let content := slot.generatedText.drop pos
      ({ slot with nSentText := slot.nSentText + content.length }, some content)
    | (slot, none) =>
      if slot.hasNextToken && !tok.eog && hasPartialStop params strTest then (slot, some [])
      else
        let content := slot.generatedText.drop pos
        ({ slot with nSentText := slot.nSentText + content.length }, some content)

/-- Whether a byte is a blank or a tabulator. -/
def isBlank (c : UInt8) : Bool := c = 0x20 || c = 0x09

/-- Where the last line is cut since it is not indented far enough. -/
def cutPos (params : TextParams) (slot : TextSlot) : Option ℕ :=
  if slot.hasNewLine ∧ 0 < params.nIndent ∧ 0 < slot.lastNlPos then
    let nIndent := ((slot.generatedText.drop slot.lastNlPos).takeWhile isBlank).length
    let pos := slot.lastNlPos + nIndent
    if pos < slot.generatedText.length ∧ (nIndent : ℤ) < params.nIndent then some pos else none
  else none

/-- The generation stops at a limit. -/
def limit (slot : TextSlot) : TextSlot := { slot with stop := .limit, hasNextToken := false }

/-- The context is full. -/
def checkContext (slot : TextSlot) (tok : SampledToken) : TextSlot :=
  if tok.contextFull then { slot.limit with truncated := true } else slot

/-- The budget is spent. -/
def checkBudget (slot : TextSlot) (tok : SampledToken) : TextSlot :=
  if slot.hasNextToken && tok.noBudget then slot.limit else slot

/-- The check of the indentation. -/
def checkIndent (params : TextParams) (slot : TextSlot) : TextSlot :=
  if slot.hasNewLine ∧ 0 < params.nIndent then
    let slot := match slot.cutPos params with
      | some pos => { slot.limit with generatedText := slot.generatedText.take pos }
      | none => slot
    -- the next new line
    match Occurs.find slot.generatedText [0x0A] slot.lastNlPos with
    | some pos => { slot with lastNlPos := pos + 1 }
    | none => slot
  else slot

/-- A new line in `text_to_send`, and the limit of time upon it. -/
def checkNewLine (slot : TextSlot) (tok : SampledToken) (text : List UInt8) : TextSlot :=
  if 0x0A ∈ text then
    let slot := { slot with hasNewLine := true }
    if tok.late then slot.limit else slot
  else slot

/-- An end token. -/
def checkEog (slot : TextSlot) (tok : SampledToken) : TextSlot :=
  if tok.eog then { slot with stop := .eos, hasNextToken := false } else slot

/-- The part of `process_token` that checks the other stop conditions, where `text` is
`text_to_send`. -/
def checkLimits (params : TextParams) (slot : TextSlot) (tok : SampledToken)
    (text : List UInt8) : TextSlot :=
  ((((slot.checkContext tok).checkBudget tok).checkIndent params).checkNewLine tok text).checkEog tok

/-- `process_token`: the slot, and the content of the partial response, if there is one. -/
def processToken (params : TextParams) (slot : TextSlot) (tok : SampledToken) :
    TextSlot × Option (List UInt8) :=
  let r := slot.searchText params tok
  -- an unsearched piece is still in `text_to_send`
  (r.1.checkLimits params tok (r.2.getD tok.piece), r.2)

/-- The tokens of a generation, of which all but the last let it go on: the slot, and the contents
of the partial responses. -/
def generate (params : TextParams) : TextSlot → List SampledToken → TextSlot × List (List UInt8)
  | slot, [] => (slot, [])
  | slot, tok :: toks =>
    let r := slot.processToken params tok
    let rest := generate params r.1 toks
    (rest.1, r.2.toList ++ rest.2)

end TextSlot

end Llama
