import Llama.Trie.AhoCorasick
import Llama.Unicode.Complete
import Mathlib.Algebra.Group.Int.Defs

/-!
# The reasoning budget

The sampler follows the tokens of a reasoning block, from a start sequence to an end sequence.
A block may have a number of tokens; after that an end is forced, once the text is at the end of a
character.  Whether it is, the sampler decides by the piece of the last token alone.

Start and end sequences are found with the automaton of the common library.  What a vocabulary
maps tokens to is a function, and logits are of any type with a value for a token that is masked.
-/

namespace Llama
namespace Sampler

open Unicode CommonTrie Suffixes

/-! ## The model -/

/-- The symbol of a token, a `uint32_t`. -/
def tokenSymbol (token : ℤ) : ℕ := (token % 2 ^ 32).toNat

structure TokenMatcher where
  seqs : List (List ℤ)
  ac : AhoCorasick
  state : ℕ := 0

namespace TokenMatcher

/-- `collect`: the different sequences that have tokens. -/
def collect (seqs : List (List ℤ)) : List (List ℤ) :=
  seqs.foldl (fun res seq => if seq ≠ [] ∧ seq ∉ res then res ++ [seq] else res) []

def buildTrie (seqs : List (List ℤ)) : CommonTrie := .ofSymbols (seqs.map (List.map tokenSymbol))

def new (seqs : List (List ℤ)) : Exec TokenMatcher := do
  let seqs := collect seqs
  let t := buildTrie seqs
  let ac ← AhoCorasick.new t t.nodes.length
  pure { seqs, ac }

/-- The index of the longest sequence that ends at this token, or `-1`. -/
def advance (m : TokenMatcher) (token : ℤ) : Exec (ℤ × TokenMatcher) := do
  let state ← m.ac.next m.ac.t.nodes.length m.state (tokenSymbol token)
  let p := m.ac.matchPattern state
  pure (p, { m with state := if p ≥ 0 then 0 else state })

def reset (m : TokenMatcher) : TokenMatcher := { m with state := 0 }

end TokenMatcher

/-- `common_reasoning_budget_state`. -/
inductive ReasoningBudgetState
  | idle
  | counting
  | forcing
  | waitingUtf8
  | done
  deriving DecidableEq

/-- `common_reasoning_budget_ctx`.  The vocabulary is what `common_token_to_piece` makes of a
token without special tokens. -/
structure ReasoningBudget where
  vocab : Option (ℤ → List UInt8)
  startMatcher : TokenMatcher
  endMatcher : TokenMatcher
  forcedTokens : List ℤ
  budget : ℤ
  remaining : ℤ
  state : ReasoningBudgetState
  forcePos : ℕ := 0
  endMatch : ℤ := -1

namespace ReasoningBudget

/-- `common_reasoning_budget_init`. -/
def init (vocab : Option (ℤ → List UInt8)) (startSeqs endSeqs : List (List ℤ))
    (forcedTokens : List ℤ) (budget : ℤ) (initialState : ReasoningBudgetState) :
    Exec ReasoningBudget := do
  -- promote COUNTING with budget <= 0 to FORCING
  let state :=
    if initialState = .counting ∧ budget ≤ 0 then ReasoningBudgetState.forcing else initialState
  let startMatcher ← TokenMatcher.new startSeqs
  let endMatcher ← TokenMatcher.new endSeqs
  pure { vocab, startMatcher, endMatcher, forcedTokens, budget, remaining := budget, state }

/-- A new block begins, and without a budget it is to end at once. -/
def activate (ctx : ReasoningBudget) : ReasoningBudget :=
  if ctx.budget ≤ 0 then { ctx with remaining := ctx.budget, state := .forcing, forcePos := 0 }
  else { ctx with remaining := ctx.budget, state := .counting }

def startForcing (ctx : ReasoningBudget) : ReasoningBudget :=
  { ctx with state := .forcing, forcePos := 0, endMatcher := ctx.endMatcher.reset }

/-- `utf8_complete`; without a vocabulary every token is. -/
def utf8Complete (ctx : ReasoningBudget) (token : ℤ) : Bool :=
  match ctx.vocab with
  | some piece => utf8IsComplete (piece token)
  | none => true

/-- `common_reasoning_budget_accept`. -/
def accept (ctx : ReasoningBudget) (token : ℤ) : Exec ReasoningBudget :=
  match ctx.state with
  | .idle => do
    let (p, startMatcher) ← ctx.startMatcher.advance token
    let ctx := { ctx with startMatcher }
    pure (if p ≥ 0 then ctx.activate else ctx)
  | .counting => do
    let (p, endMatcher) ← ctx.endMatcher.advance token
    let ctx := { ctx with endMatcher }
    pure (
      if p ≥ 0 then { ctx with state := .done, endMatch := p }
      else
        let ctx := { ctx with remaining := ctx.remaining - 1 }
        if ctx.remaining ≤ 0 then
          if ctx.utf8Complete token then ctx.startForcing
          else { ctx with state := .waitingUtf8, endMatcher := ctx.endMatcher.reset }
        else ctx)
  | .waitingUtf8 => do
    let (p, endMatcher) ← ctx.endMatcher.advance token
    let ctx := { ctx with endMatcher }
    pure (
      if p ≥ 0 then { ctx with state := .done, endMatch := p }
      else if ctx.utf8Complete token then ctx.startForcing
      else ctx)
  | .forcing => do
    -- track the end sequence within forced_tokens so it is also reported on DONE
    let (p, endMatcher) ← ctx.endMatcher.advance token
    let ctx := { ctx with endMatcher, forcePos := ctx.forcePos + 1 }
    pure (
      if ctx.forcePos ≥ ctx.forcedTokens.length then { ctx with state := .done, endMatch := p }
      else ctx)
  | .done => do
    let (p, startMatcher) ← ctx.startMatcher.advance token
    let ctx := { ctx with startMatcher }
    pure (
      if p ≥ 0 then
        { ctx with endMatcher := ctx.endMatcher.reset, endMatch := -1 }.activate
      else ctx)

/-- A token that may be sampled. -/
structure TokenData (L : Type) where
  id : ℤ
  logit : L

/-- `common_reasoning_budget_apply`. -/
def apply {L : Type} (negInf : L) (ctx : ReasoningBudget) (cur : List (TokenData L)) :
    List (TokenData L) :=
  if ctx.state ≠ .forcing then cur
  else
    match ctx.forcedTokens[ctx.forcePos]? with
    | none => cur
    | some forced => cur.map fun d => if d.id ≠ forced then { d with logit := negInf } else d

/-- `common_reasoning_budget_reset`. -/
def reset (ctx : ReasoningBudget) : ReasoningBudget :=
  { ctx with
    state := .idle
    remaining := ctx.budget
    startMatcher := ctx.startMatcher.reset
    endMatcher := ctx.endMatcher.reset
    forcePos := 0
    endMatch := -1 }

/-- `common_reasoning_budget_force`. -/
def force (ctx : ReasoningBudget) : Bool × ReasoningBudget :=
  if ctx.state = .counting then (true, ctx.startForcing) else (false, ctx)

/-! ### Runs -/

/-- Tokens are accepted one after the other. -/
def accepts (ctx : ReasoningBudget) (tokens : List ℤ) : Exec ReasoningBudget :=
  tokens.foldlM accept ctx

/-- What may be done to a sampler. -/
inductive Op
  | accept (token : ℤ)
  | reset
  | force

def step (ctx : ReasoningBudget) : Op → Exec ReasoningBudget
  | .accept token => ctx.accept token
  | .reset => .ok ctx.reset
  | .force => .ok ctx.force.2

section

variable (vocab : Option (ℤ → List UInt8)) (startSeqs endSeqs : List (List ℤ))
  (forcedTokens : List ℤ) (budget : ℤ)

/-- The states that a sampler may come to. -/
inductive Reachable : ReasoningBudget → Prop
  | init {ctx : ReasoningBudget} (state : ReasoningBudgetState)
      (h : init vocab startSeqs endSeqs forcedTokens budget state = .ok ctx) : Reachable ctx
  | step {ctx ctx' : ReasoningBudget} (op : Op) (h : Reachable ctx)
      (hstep : ctx.step op = .ok ctx') : Reachable ctx'

/-- A block begins: with the sampler, or behind a start sequence. -/
inductive Activates : ReasoningBudget → Prop
  | init {ctx : ReasoningBudget}
      (h : ReasoningBudget.init vocab startSeqs endSeqs forcedTokens budget .counting = .ok ctx) :
      Activates ctx
  | accept {ctx ctx' : ReasoningBudget} (token : ℤ)
      (h : Reachable vocab startSeqs endSeqs forcedTokens budget ctx)
      (hstate : ctx.state = .idle ∨ ctx.state = .done) (haccept : ctx.accept token = .ok ctx')
      (hne : ctx'.state ≠ ctx.state) : Activates ctx'

end

/-- No token ends the block naturally, while it is counted or waited for. -/
def NotEnded (ctx : ReasoningBudget) (tokens : List ℤ) : Prop :=
  ∀ k token c c', tokens[k]? = some token → ctx.accepts (tokens.take k) = .ok c →
    c.accept token = .ok c' → c.state = .counting ∨ c.state = .waitingUtf8 → c'.state ≠ .done

end ReasoningBudget

namespace TokenMatcher

variable {m : TokenMatcher} {tokens : List ℤ}

/-- What the matcher has read since it was reset, or since it found a sequence. -/
def Reads (m : TokenMatcher) (tokens : List ℤ) : Prop :=
  ∃ words s, m.ac.Ok words (distinct (m.seqs.map (List.map tokenSymbol))) ∧
    words[m.state]? = some s ∧ Longest (· ∈ words) (tokens.map tokenSymbol) s

lemma new_spec (seqs : List (List ℤ)) :
    ∃ m, new seqs = .ok m ∧ m.seqs = collect seqs ∧ m.Reads [] := by
  obtain ⟨words, h⟩ := holds_ofSymbols ((collect seqs).map (List.map tokenSymbol))
  obtain ⟨ac, hnew, -, hok⟩ := AhoCorasick.new_spec h (Nat.le_refl _)
  rw [new, buildTrie, hnew]
  exact ⟨_, rfl, rfl, words, [], hok, hok.holds.root, longest_nil hok.holds.nil_mem⟩

lemma Reads.reset (h : m.Reads tokens) : m.reset.Reads [] := by
  obtain ⟨words, s, hok, -, -⟩ := h
  exact ⟨words, [], hok, hok.holds.root, longest_nil hok.holds.nil_mem⟩

/-- **A token is read.**  A sequence is found when the tokens that were read end with one. -/
theorem Reads.advance (h : m.Reads tokens) (token : ℤ) :
    ∃ p m', m.advance token = .ok (p, m') ∧ m'.seqs = m.seqs ∧
      m'.Reads (if p ≥ 0 then [] else tokens ++ [token]) ∧
      (p ≥ 0 ↔ ∃ seq ∈ m.seqs, seq.map tokenSymbol <:+ (tokens ++ [token]).map tokenSymbol) := by
  obtain ⟨words, s, hok, hs, hlong⟩ := h
  obtain ⟨v, y, hnext, hv, hy⟩ := hok.next (Nat.le_refl _) hs hlong (tokenSymbol token)
  have hpatterns : ∀ p ∈ distinct (m.seqs.map (List.map tokenSymbol)), p ∈ words := fun p hp =>
    (hok.holds.mem_iff p).mpr (.inr ⟨p, hp, List.prefix_refl p⟩)
  have hends : AhoCorasick.Ends _ _ (m.ac.matchPattern v) :=
    (AhoCorasick.ends_longest_iff hy hpatterns).mp (hok.table v y hv y hv)
  rw [TokenMatcher.advance, hnext]
  refine ⟨_, _, rfl, rfl, ?_, ?_⟩
  · split_ifs with hp
    · exact ⟨words, [], hok, hok.holds.root, longest_nil hok.holds.nil_mem⟩
    · exact ⟨words, y, hok, hv, by rw [List.map_append]; exact hy⟩
  · rw [List.map_append]
    rcases hends with ⟨p, hp, hk⟩ | ⟨hnone, hk⟩
    · obtain ⟨seq, hseq, rfl⟩ := List.mem_map.mp (mem_distinct.mp hp.holds)
      exact iff_of_true (hk ▸ patternIndex_nonneg_iff.mpr hp.holds) ⟨seq, hseq, hp.suffix⟩
    · refine iff_of_false (by omega) ?_
      rintro ⟨seq, hseq, hsuffix⟩
      exact hnone _ (mem_distinct.mpr (List.mem_map_of_mem hseq)) hsuffix

end TokenMatcher
end Sampler
end Llama
