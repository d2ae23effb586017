import Llama.Lib.Worklist
import Mathlib.Algebra.Group.Nat.Defs

/-!
# Grammars

A grammar is a list of rules, each an array of elements: the alternates of the rule, with
`alt` between them and `end_` behind the last.  The state of a grammar is a set of stacks of
pointers to elements; a character or a token is accepted by the stacks on whose top element
it matches, which are then expanded until a terminal is on top again.

A pointer is a rule index and an offset, and the top of a stack is the head of the list.
Loops of the source without a bound of their own run for at most `n` rounds.
-/

namespace Llama

/-- `llama_gretype`. -/
inductive Gretype
  | end_
  | alt
  | ruleRef
  | char
  | charNot
  | charRngUpper
  | charAlt
  | charAny
  | token
  | tokenNot
  deriving DecidableEq, Repr

/-- `llama_grammar_element`. -/
structure GrammarElement where
  type : Gretype
  value : ℕ
  deriving DecidableEq, Repr

/-- `llama_grammar_rules`. -/
abbrev GrammarRules := List (List GrammarElement)

/-- A pointer to an element: the rule and the offset. -/
abbrev ElementPtr := ℕ × ℕ

/-- `llama_grammar_stack`, from the top down. -/
abbrev GrammarStack := List ElementPtr

/-- `llama_grammar_stacks`. -/
abbrev GrammarStacks := List GrammarStack

namespace Grammar

/-! ## Elements -/

/-- The elements from a pointer on. -/
def suffix (rules : GrammarRules) (pos : ElementPtr) : List GrammarElement :=
  (rules.getD pos.1 []).drop pos.2

/-- The element at the start of a list of elements. -/
def headElement (es : List GrammarElement) : GrammarElement := es.headD ⟨.end_, 0⟩

/-- `*pos`. -/
def element (rules : GrammarRules) (pos : ElementPtr) : GrammarElement :=
  headElement (suffix rules pos)

/-- `pos + n`. -/
def advancePtr (pos : ElementPtr) (n : ℕ) : ElementPtr := (pos.1, pos.2 + n)

/-- `llama_grammar_is_end_of_sequence`. -/
def isEndOfSequence (e : GrammarElement) : Bool := e.type = .end_ || e.type = .alt

/-- Push a pointer unless it stands at the end of a sequence. -/
def pushUnlessEnd (rules : GrammarRules) (pos : ElementPtr) (stack : GrammarStack) : GrammarStack :=
  if isEndOfSequence (element rules pos) then stack else pos :: stack

/-! ## Matching -/

/-- Whether an element starts a character range. -/
def isPositiveChar (e : GrammarElement) : Bool := e.type = .char || e.type = .charAny

/-- The loop of `match_char`: whether the character was found, and the number of elements of
the range.  The range goes on as long as `charAlt` follows. -/
def scanChar (chr : ℕ) : List GrammarElement → Bool × ℕ
  | [] => (false, 0)
  | [e] => (e.type = .charAny || e.value = chr, 1)
  | e :: u :: es =>
    if u.type = .charRngUpper then
      let found : Bool := e.value ≤ chr && chr ≤ u.value
      if (headElement es).type = .charAlt then
        let (found', k) := scanChar chr es
        (found || found', k + 2)
      else (found, 2)
    else
      let found : Bool := e.type = .charAny || e.value = chr
      if u.type = .charAlt then
        let (found', k) := scanChar chr (u :: es)
        (found || found', k + 1)
      else (found, 1)

/-- `llama_grammar_match_char`. -/
def matchChar (rules : GrammarRules) (pos : ElementPtr) (chr : ℕ) : Exec (Bool × ElementPtr) := do
  let e := element rules pos
  Exec.assert (isPositiveChar e = true ∨ e.type = .charNot)
  let (found, k) := scanChar chr (suffix rules pos)
  return (found == isPositiveChar e, advancePtr pos k)

/-- `llama_partial_utf8`: the value so far and the number of bytes that are missing, or `-1`
for an invalid sequence. -/
structure PartialUtf8 where
  value : ℕ
  nRemain : ℤ
  deriving DecidableEq, Repr

/-- The loop of `match_partial_char`. -/
def scanPartialChar (positive : Bool) (low high : ℕ) : List GrammarElement → Bool
  | [] => !positive
  | [e] => if e.type = .charAny then true
    else if low ≤ e.value ∧ e.value ≤ high then positive else !positive
  | e :: u :: es =>
    if u.type = .charRngUpper then
      if e.value ≤ high ∧ low ≤ u.value then positive
      else if (headElement es).type = .charAlt then scanPartialChar positive low high es
      else !positive
    else if e.type = .charAny then true
    else if low ≤ e.value ∧ e.value ≤ high then positive
    else if u.type = .charAlt then scanPartialChar positive low high (u :: es)
    else !positive

/-- `llama_grammar_match_partial_char`. -/
def matchPartialChar (rules : GrammarRules) (pos : ElementPtr) (utf8 : PartialUtf8) :
    Exec Bool := do
  let e := element rules pos
  Exec.assert (isPositiveChar e = true ∨ e.type = .charNot)
  if utf8.nRemain < 0 ∨ utf8.nRemain = 1 ∧ utf8.value < 2 then return false
  else
    let n := utf8.nRemain.toNat * 6
    let low := utf8.value * 2 ^ n % 2 ^ 32
    let high := low ||| (2 ^ n - 1)
    let low := if low = 0 then
        if utf8.nRemain = 2 then 2 ^ 11 else if utf8.nRemain = 3 then 2 ^ 16 else low
      else low
    return scanPartialChar (isPositiveChar e) low high (suffix rules pos)

/-- Whether an element matches tokens. -/
def isToken (e : GrammarElement) : Bool := e.type = .token || e.type = .tokenNot

/-- `llama_grammar_match_token`, for a token element. -/
def matchToken (e : GrammarElement) (token : ℕ) : Bool :=
  if e.type = .token then e.value = token else e.value ≠ token

/-! ## Stacks -/

/-- The offsets at which the alternates behind an `alt` start. -/
def altStarts : List GrammarElement → ℕ → List ℕ
  | [], _ => []
  | e :: es, i => match e.type with
    | .end_ => []
    | .alt => (i + 1) :: altStarts es (i + 1)
    | _ => altStarts es (i + 1)

/-- The pointers to the alternates of a rule. -/
def alternates (rules : GrammarRules) (r : ℕ) : List ElementPtr :=
  (0 :: altStarts (rules.getD r []) 0).map fun i => (r, i)

/-- What `advance_stack` does with a stack. -/
def visitStack (rules : GrammarRules) : GrammarStack → Worklist.Visit GrammarStack
  | [] => .keep
  | pos :: stack =>
    match (element rules pos).type with
    | .ruleRef => .expand ((alternates rules (element rules pos).value).map fun subpos =>
        pushUnlessEnd rules subpos (pushUnlessEnd rules (advancePtr pos 1) stack))
    | .char | .charNot | .charAny | .token | .tokenNot => .keep
    | _ => .abort

/-- `llama_grammar_advance_stack`, which adds to the stacks found before. -/
def advanceStack (n : ℕ) (rules : GrammarRules) (stack : GrammarStack)
    (newStacks : GrammarStacks) : Exec GrammarStacks :=
  Worklist.search (visitStack rules) n [stack] [] newStacks

/-- `llama_grammar_accept_chr`. -/
def acceptChr (n : ℕ) (rules : GrammarRules) (stack : GrammarStack) (chr : ℕ)
    (newStacks : GrammarStacks) : Exec GrammarStacks :=
  match stack with
  | [] => pure newStacks
  | pos :: stack =>
    if isToken (element rules pos) then pure newStacks
    else do
      let (matched, next) ← matchChar rules pos chr
      if matched then advanceStack n rules (pushUnlessEnd rules next stack) newStacks
      else return newStacks

/-- The loop of `accept` over the stacks. -/
def acceptLoop (n : ℕ) (rules : GrammarRules) (chr : ℕ) :
    GrammarStacks → GrammarStacks → Exec GrammarStacks
  | [], newStacks => pure newStacks
  | stack :: current, newStacks => do
    let newStacks ← acceptChr n rules stack chr newStacks
    acceptLoop n rules chr current newStacks

/-- `llama_grammar_accept`. -/
def accept (n : ℕ) (rules : GrammarRules) (current : GrammarStacks) (chr : ℕ) :
    Exec GrammarStacks := acceptLoop n rules chr current []

/-! ## Left recursion -/

/-- The first loop of `detect_left_recursion`: whether an alternate is empty. -/
def hasEmptyAlternate : List GrammarElement → Bool → Bool
  | [], _ => false
  | e :: es, atRuleStart =>
    if isEndOfSequence e then atRuleStart || hasEmptyAlternate es true
    else hasEmptyAlternate es false

/-- The three vectors of the detector. -/
structure Detector where
  rulesVisited : ℕ → Bool
  rulesInProgress : ℕ → Bool
  rulesMayBeEmpty : ℕ → Bool

/-- The second loop of `detect_left_recursion`: `recurse` is the recursive call and
`leftmost` stands for `recurse_into_nonterminal`. -/
def detectLoop (recurse : ℕ → Detector → Bool × Detector) :
    List GrammarElement → Bool → Detector → Bool × Detector
  | [], _, d => (false, d)
  | e :: es, leftmost, d =>
    if e.type = .ruleRef ∧ leftmost = true then
      let (res, d) := recurse e.value d
      if res then (true, d) else detectLoop recurse es (d.rulesMayBeEmpty e.value) d
    else if isEndOfSequence e then detectLoop recurse es true d
    else detectLoop recurse es false d

/-- Mark a rule as in progress, and as possibly empty if it has an empty alternate. -/
def Detector.enter (rules : GrammarRules) (r : ℕ) (d : Detector) : Detector where
  rulesVisited := d.rulesVisited
  rulesInProgress := Function.update d.rulesInProgress r true
  rulesMayBeEmpty := if hasEmptyAlternate (rules.getD r []) true then
    Function.update d.rulesMayBeEmpty r true else d.rulesMayBeEmpty

/-- Mark a rule as visited and no longer in progress. -/
def Detector.leave (r : ℕ) (d : Detector) : Detector :=
  { d with
    rulesInProgress := Function.update d.rulesInProgress r false
    rulesVisited := Function.update d.rulesVisited r true }

/-- `llama_grammar_detect_left_recursion`.  Nested calls are for different rules in
progress, so that `n_rules + 1` levels are enough. -/
def detectLeftRecursion (rules : GrammarRules) : ℕ → ℕ → Detector → Bool × Detector
  | 0, _, d => (true, d)
  | n + 1, r, d =>
    if d.rulesInProgress r then (true, d)
    else
      let (res, d) := detectLoop (detectLeftRecursion rules n) (rules.getD r []) true
        (d.enter rules r)
      if res then (true, d) else (false, d.leave r)

/-- The loop over the rules in `init_impl`. -/
def detectRules (rules : GrammarRules) : List ℕ → Detector → Bool
  | [], _ => false
  | i :: is, d =>
    if d.rulesVisited i then detectRules rules is d
    else
      let (res, d) := detectLeftRecursion rules (rules.length + 1) i d
      res || detectRules rules is d

/-- Whether `init_impl` finds left recursion. -/
def leftRecursionDetected (rules : GrammarRules) : Bool :=
  detectRules rules (List.range rules.length) ⟨fun _ => false, fun _ => false, fun _ => false⟩

/-- The loop over the alternates of the start rule. -/
def initStacks (n : ℕ) (rules : GrammarRules) : List ElementPtr → GrammarStacks → Exec GrammarStacks
  | [], current => pure current
  | pos :: ps, current => do
    let current ← advanceStack n rules (pushUnlessEnd rules pos []) current
    initStacks n rules ps current

/-- A rule as `init_impl` copies it. -/
def copyRule (rule : List GrammarElement) : List GrammarElement :=
  rule.takeWhile (fun e => e.type ≠ .end_) ++ [⟨.end_, 0⟩]

/-- Whether all rule references point to rules. -/
def refsValid (rules : GrammarRules) : Bool :=
  rules.all fun rule => rule.all fun e =>
    e.type ≠ .ruleRef || (e.value < rules.length && !(rules.getD e.value []).isEmpty)

/-- `llama_grammar_init_impl` for arrays of elements: the rules and the first stacks, or
`none` for an invalid grammar.  The start index is used without a check. -/
def initRules (n : ℕ) (rules : GrammarRules) (start : ℕ) :
    Exec (Option (GrammarRules × GrammarStacks)) := do
  let vecRules := rules.map copyRule
  if !refsValid vecRules || leftRecursionDetected vecRules then return none
  else
    Exec.assert (start < vecRules.length)
    let current ← initStacks n vecRules (alternates vecRules start) []
    return some (vecRules, current)

end Grammar
end Llama
