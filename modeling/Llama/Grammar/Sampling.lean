import Llama.Grammar.Utf8

/-!
# Sampling with a grammar

Before a token is sampled, `applyImpl` masks the candidates that the grammar does not allow;
the token that was sampled is given to `acceptImpl`.  The first walks all candidates through
the stacks at once and passes those that one stack rejects on to the next, the second takes
the code points of one token through each of the stacks.

A lazy grammar buffers the tokens until one of its triggers is found.  An exception leaves a
grammar without stacks; there is no state behind it here.
-/

namespace Llama.Grammar

/-- What the grammar uses of a vocabulary. -/
structure Vocab where
  tokenToPiece : ℕ → List UInt8
  isEog : ℕ → Bool

/-- `llama_grammar`, with the `find` of each trigger pattern. -/
structure State where
  rules : GrammarRules
  current : GrammarStacks
  partialUtf8 : PartialUtf8
  awaitingTrigger : Bool
  triggerBuffer : List UInt8
  triggerBufferPositions : List (ℕ × ℕ × ℕ)
  triggerTokens : List ℕ
  triggerPatterns : List (List UInt8 → Option ℕ)

/-- `llama_grammar_init_impl`; a lazy grammar starts out waiting for a trigger. -/
def initImpl (n : ℕ) (rules : GrammarRules) (start : ℕ) (isLazy : Bool)
    (triggerTokens : List ℕ) (triggerPatterns : List (List UInt8 → Option ℕ)) :
    Exec (Option State) := do
  let res ← initRules n rules start
  return res.map fun (rules, current) =>
    ⟨rules, current, ⟨0, 0⟩, isLazy, [], [], triggerTokens, triggerPatterns⟩

/-! ## Masking -/

/-- `llama_grammar_candidate`; the pointer into the code points is an offset. -/
structure Candidate where
  index : ℕ
  codePoints : List ℕ
  offset : ℕ
  partialUtf8 : PartialUtf8
  id : ℕ
  deriving DecidableEq, Repr

/-- `*code_points`. -/
def Candidate.codePoint (tok : Candidate) : ℕ := tok.codePoints.getD tok.offset 0

/-- The candidate behind its next code point. -/
def Candidate.forward (tok : Candidate) : Candidate := { tok with offset := tok.offset + 1 }

/-- The candidate before its last code point. -/
def Candidate.back (tok : Candidate) : Candidate := { tok with offset := tok.offset - 1 }

/-- Whether a candidate matches a character range: behind its last code point, an incomplete
sequence may go on with one of the range. -/
def matchCandidate (rules : GrammarRules) (pos : ElementPtr) (tok : Candidate) : Exec Bool :=
  if tok.codePoint = 0 then
    if tok.partialUtf8.nRemain = 0 then pure true else matchPartialChar rules pos tok.partialUtf8
  else do
    let (matched, _) ← matchChar rules pos tok.codePoint
    return matched

/-- The loop over the candidates for a stack with a character range on top: the candidates
that are rejected, and those that go on with their next code point. -/
def splitCandidates (rules : GrammarRules) (pos : ElementPtr) :
    List Candidate → Exec (List Candidate × List Candidate)
  | [] => pure ([], [])
  | tok :: toks => do
    let matched ← matchCandidate rules pos tok
    let (rejects, next) ← splitCandidates rules pos toks
    if matched then return (rejects, if tok.codePoint = 0 then next else tok.forward :: next)
    else return (tok :: rejects, next)

/-- `llama_grammar_reject_candidates_for_stack`: `rejectNext` is the recursive call of
`reject_candidates`. -/
def rejectForStack (n : ℕ) (rules : GrammarRules)
    (rejectNext : GrammarStacks → List Candidate → Exec (List Candidate))
    (stack : GrammarStack) (candidates : List Candidate) : Exec (List Candidate) :=
  match stack with
  | [] => pure (candidates.filter fun tok => tok.codePoint ≠ 0 || tok.partialUtf8.nRemain ≠ 0)
  | pos :: stack =>
    if isToken (element rules pos) then
      pure (candidates.filter fun tok =>
        if tok.codePoint = 0 then tok.partialUtf8.nRemain ≠ 0
        else !matchToken (element rules pos) tok.id)
    else do
      let (rejects, next) ← splitCandidates rules pos candidates
      let (_, posAfter) ← matchChar rules pos 0
      let nextStacks ← advanceStack n rules (pushUnlessEnd rules posAfter stack) []
      let nextRejects ← rejectNext nextStacks next
      return rejects ++ nextRejects.map Candidate.back

/-- The loop of `reject_candidates`: a stack gets the candidates that the stacks before it
reject. -/
def rejectLoop (n : ℕ) (rules : GrammarRules)
    (rejectNext : GrammarStacks → List Candidate → Exec (List Candidate)) :
    GrammarStacks → List Candidate → Exec (List Candidate)
  | [], rejects => pure rejects
  | stack :: current, rejects => do
    let rejects ← rejectForStack n rules rejectNext stack rejects
    rejectLoop n rules rejectNext current rejects

/-- `llama_grammar_reject_candidates`, up to a depth of nested calls. -/
def rejectCandidates (n : ℕ) (rules : GrammarRules) :
    ℕ → GrammarStacks → List Candidate → Exec (List Candidate)
  | 0, _, _ => .unfinished
  | depth + 1, current, candidates => do
    Exec.assert (current ≠ [])
    if candidates = [] then return []
    else rejectLoop n rules (rejectCandidates n rules depth) current candidates

/-- The loop of `apply_impl` over the tokens from index `i` on: the indices that are masked
at once, and the candidates for the stacks. -/
def collectCandidates (vocab : Vocab) (st : State) : List ℕ → ℕ → List ℕ × List Candidate
  | [], _ => ([], [])
  | id :: ids, i =>
    let (masked, candidates) := collectCandidates vocab st ids (i + 1)
    let piece := vocab.tokenToPiece id
    if vocab.isEog id then (if [] ∈ st.current then masked else i :: masked, candidates)
    else if piece.isEmpty || piece.headD 0 = 0 then (i :: masked, candidates)
    else
      let (codePoints, utf8) := decodeUtf8 piece st.partialUtf8
      (masked, ⟨i, codePoints, 0, utf8, id⟩ :: candidates)

/-- `llama_grammar_apply_impl` for an array of tokens: the indices of the tokens whose logit
becomes `-INFINITY`. -/
def applyImpl (n : ℕ) (vocab : Vocab) (st : State) (ids : List ℕ) : Exec (List ℕ) :=
  if st.awaitingTrigger then pure []
  else do
    let (masked, candidates) := collectCandidates vocab st ids 0
    let rejects ← rejectCandidates n st.rules n st.current candidates
    return masked ++ rejects.map Candidate.index

/-! ## Accepting -/

/-- The loop of `accept_token` over the code points, which stops when no stack is left. -/
def acceptCodePoints (n : ℕ) (rules : GrammarRules) : List ℕ → GrammarStacks → Exec GrammarStacks
  | [], current => pure current
  | chr :: chrs, current => do
    let current ← accept n rules current chr
    if current = [] then return current else acceptCodePoints n rules chrs current

/-- Add the stacks that are new. -/
def addStacks (newStacks : GrammarStacks) : GrammarStacks → GrammarStacks
  | [] => newStacks
  | stack :: rest => addStacks (if stack ∈ newStacks then newStacks else newStacks ++ [stack]) rest

/-- What `accept_token` does with one of the stacks. -/
def acceptTokenStack (n : ℕ) (rules : GrammarRules) (token : ℕ) (codePoints : List ℕ)
    (stack : GrammarStack) (newStacks : GrammarStacks) : Exec GrammarStacks :=
  match stack with
  | [] => pure newStacks
  | pos :: rest =>
    if isToken (element rules pos) then
      if matchToken (element rules pos) token then
        advanceStack n rules (pushUnlessEnd rules (advancePtr pos 1) rest) newStacks
      else pure newStacks
    else do
      let surviving ← acceptCodePoints n rules codePoints [pos :: rest]
      return addStacks newStacks surviving

/-- The loop of `accept_token` over the stacks. -/
def acceptTokenLoop (n : ℕ) (rules : GrammarRules) (token : ℕ) (codePoints : List ℕ) :
    GrammarStacks → GrammarStacks → Exec GrammarStacks
  | [], newStacks => pure newStacks
  | stack :: current, newStacks => do
    let newStacks ← acceptTokenStack n rules token codePoints stack newStacks
    acceptTokenLoop n rules token codePoints current newStacks

/-- `llama_grammar_accept_token`, which throws when no stack is left. -/
def acceptToken (n : ℕ) (token : ℕ) (piece : List UInt8) (st : State) : Exec State := do
  let (codePoints, utf8) := decodeUtf8 piece st.partialUtf8
  let current ← acceptTokenLoop n st.rules token codePoints.dropLast st.current []
  if current = [] then .thrown else return { st with current := current, partialUtf8 := utf8 }

/-- The loop of `accept_impl` that accepts the tokens of the trigger buffer again, from the
start of the match on. -/
def replayTokens (n start : ℕ) : List (ℕ × ℕ × ℕ) → State → Exec State
  | [], st => pure st
  | (tok, tokStart, tokEnd) :: positions, st =>
    if tokEnd ≤ start then replayTokens n start positions st
    else do
      let pieceStart := if tokStart < start then start else tokStart
      let piece := (st.triggerBuffer.drop pieceStart).take (tokEnd - pieceStart)
      let st ← acceptToken n tok piece st
      replayTokens n start positions st

/-- `llama_grammar_accept_impl`, which aborts at the end of generation unless the grammar
allows it. -/
def acceptImpl (n : ℕ) (vocab : Vocab) (token : ℕ) (st : State) : Exec State :=
  let piece := vocab.tokenToPiece token
  if st.awaitingTrigger then
    if token ∈ st.triggerTokens then
      acceptToken n token piece { st with awaitingTrigger := false, triggerBuffer := [] }
    else
      let position := (st.triggerBuffer.length, st.triggerBuffer.length + piece.length)
      let st := { st with
        triggerBufferPositions := st.triggerBufferPositions ++ [(token, position)]
        triggerBuffer := st.triggerBuffer ++ piece }
      match st.triggerPatterns.findSome? fun find => find st.triggerBuffer with
      | none => pure st
      | some start => do
        let st ← replayTokens n start st.triggerBufferPositions { st with awaitingTrigger := false }
        return { st with triggerBuffer := [], triggerBufferPositions := [] }
  else if vocab.isEog token then
    if [] ∈ st.current then pure st else .aborted
  else acceptToken n token piece st

/-- The states of a grammar: `init_impl` and the tokens accepted since. -/
inductive Reachable (vocab : Vocab) (rules : GrammarRules) (start : ℕ) : State → Prop
  | init {n : ℕ} {isLazy : Bool} {triggerTokens : List ℕ}
      {triggerPatterns : List (List UInt8 → Option ℕ)} {st : State}
      (h : initImpl n rules start isLazy triggerTokens triggerPatterns = .ok (some st)) :
      Reachable vocab rules start st
  | accept {n token : ℕ} {st st' : State} (hst : Reachable vocab rules start st)
      (h : acceptImpl n vocab token st = .ok st') : Reachable vocab rules start st'

end Llama.Grammar
