import Llama.Sampler.ReasoningBudget

/-!
# What is forced in a reasoning block

When the budget of a block is used up the forced tokens come next, unless the text has to be
completed first.  The sampler looks at the piece of each token alone: a piece of bytes that
continue a character is not complete, also when the character is, and a token without text is
complete while a character is not.  Where no such token is met the end comes when it should.
-/

namespace Llama
namespace Sampler

open Unicode List

/-- The first place, from `b` on, with a property. -/
structure First (b : ℕ) (P : ℕ → Prop) (n : ℕ) : Prop where
  le : b ≤ n
  holds : P n
  before : ∀ m, b ≤ m → m < n → ¬ P m

lemma First.unique {b n n' : ℕ} {P : ℕ → Prop} (h : First b P n) (h' : First b P n') : n = n' := by
  rcases Nat.lt_trichotomy n n' with hlt | heq | hlt
  · exact absurd h.holds (h'.before n h.le hlt)
  · exact heq
  · exact absurd h'.holds (h.before n' h'.le hlt)

namespace ReasoningBudget

/-! ## The statement -/

variable (piece : ℤ → List UInt8)

/-- The text of some tokens. -/
def blockText (tokens : List ℤ) : List UInt8 := tokens.flatMap piece

/-- The piece of the last token. -/
def lastPiece (tokens : List ℤ) : List UInt8 := (tokens.getLast?.map piece).getD []

/-- After `k` tokens the text is at the end of a character. -/
def Complete (tokens : List ℤ) (k : ℕ) : Prop :=
  utf8IsComplete (blockText piece (tokens.take k)) = true

instance (tokens : List ℤ) (k : ℕ) : Decidable (Complete piece tokens k) :=
  inferInstanceAs (Decidable (_ = true))

/-- **The forced tokens come when they should.**  Nothing is forced before the first place, from
the budget on, where the text is at the end of a character.  There the forced tokens come one by
one, and after them the block is done. -/
def Keeps (ctx : ReasoningBudget) (b : ℕ) (tokens : List ℤ) : Prop :=
  ∀ k ≤ tokens.length, ∃ c, ctx.accepts (tokens.take k) = .ok c ∧
    ((∀ m, b ≤ m → m ≤ k → ¬ Complete piece tokens m) →
      c.state ≠ .forcing ∧ ∀ (L : Type) (negInf : L) cur, c.apply negInf cur = cur) ∧
    ∀ n, First b (Complete piece tokens) n → n ≤ k →
      (∀ forced, ctx.forcedTokens[k - n]? = some forced → c.state = .forcing ∧
        ∀ (L : Type) (negInf : L) cur, c.apply negInf cur =
          cur.map fun d => if d.id ≠ forced then { d with logit := negInf } else d) ∧
      (k = n + ctx.forcedTokens.length → c.state = .done)

/-- The piece of the last of `k` tokens shows whether the text is at the end of a character: when
it is, the piece starts one or there is no text, and when it is not there is some. -/
def Shows (tokens : List ℤ) (k : ℕ) : Prop :=
  (Complete piece tokens k → lastPiece piece (tokens.take k) = [] ∨
    ∃ c ∈ lastPiece piece (tokens.take k), isContinuation c = false) ∧
  (¬ Complete piece tokens k → lastPiece piece (tokens.take k) ≠ [])

section

variable {ctx : ReasoningBudget} {token p : ℤ} {m : TokenMatcher}

lemma accept_of_idle (h : ctx.state = .idle)
    (hadvance : ctx.startMatcher.advance token = .ok (p, m)) :
    ctx.accept token = .ok (
      if p ≥ 0 then { ctx with startMatcher := m }.activate else { ctx with startMatcher := m }) := by
  rw [accept, h]
  rw [hadvance]
  rfl

lemma accept_of_done (h : ctx.state = .done)
    (hadvance : ctx.startMatcher.advance token = .ok (p, m)) :
    ctx.accept token = .ok (
      if p ≥ 0 then
        { ctx with
          startMatcher := m
          endMatcher := ctx.endMatcher.reset
          endMatch := -1 }.activate
      else { ctx with startMatcher := m }) := by
  rw [accept, h]
  rw [hadvance]
  rfl

lemma accept_of_counting (h : ctx.state = .counting)
    (hadvance : ctx.endMatcher.advance token = .ok (p, m)) :
    ctx.accept token = .ok (
      if p ≥ 0 then { ctx with endMatcher := m, state := .done, endMatch := p }
      else if ctx.remaining - 1 ≤ 0 then
        if ctx.utf8Complete token then
          { ctx with endMatcher := m, remaining := ctx.remaining - 1 }.startForcing
        else
          { ctx with
            endMatcher := m.reset
            remaining := ctx.remaining - 1
            state := .waitingUtf8 }
      else { ctx with endMatcher := m, remaining := ctx.remaining - 1 }) := by
  rw [accept, h]
  rw [hadvance]
  rfl

lemma accept_of_waiting (h : ctx.state = .waitingUtf8)
    (hadvance : ctx.endMatcher.advance token = .ok (p, m)) :
    ctx.accept token = .ok (
      if p ≥ 0 then { ctx with endMatcher := m, state := .done, endMatch := p }
      else if ctx.utf8Complete token then { ctx with endMatcher := m }.startForcing
      else { ctx with endMatcher := m }) := by
  rw [accept, h]
  rw [hadvance]
  rfl

lemma accept_of_forcing (h : ctx.state = .forcing)
    (hadvance : ctx.endMatcher.advance token = .ok (p, m)) :
    ctx.accept token = .ok (
      if ctx.forcePos + 1 ≥ ctx.forcedTokens.length then
        { ctx with
          endMatcher := m
          state := .done
          forcePos := ctx.forcePos + 1
          endMatch := p }
      else { ctx with endMatcher := m, forcePos := ctx.forcePos + 1 }) := by
  rw [accept, h]
  rw [hadvance]
  rfl
end

/-! ## Reachable states -/

variable {vocab : Option (ℤ → List UInt8)} {startSeqs endSeqs : List (List ℤ)}
  {forcedTokens : List ℤ} {budget : ℤ} {ctx ctx' : ReasoningBudget} {tokens : List ℤ}

/-- What does not change, and what the matchers have read. -/
structure Inv (vocab : Option (ℤ → List UInt8)) (endSeqs : List (List ℤ))
    (forcedTokens : List ℤ) (budget : ℤ) (ctx : ReasoningBudget) : Prop where
  vocab_eq : ctx.vocab = vocab
  forcedTokens_eq : ctx.forcedTokens = forcedTokens
  budget_eq : ctx.budget = budget
  seqs_eq : ctx.endMatcher.seqs = TokenMatcher.collect endSeqs
  startReads : ∃ read, ctx.startMatcher.Reads read
  endReads : ∃ read, ctx.endMatcher.Reads read
  idle : ctx.state = .idle → ctx.endMatcher.Reads []

lemma Inv.init {state : ReasoningBudgetState}
    (h : init vocab startSeqs endSeqs forcedTokens budget state = .ok ctx) :
    Inv vocab endSeqs forcedTokens budget ctx := by
  obtain ⟨startMatcher, hstart, -, hreads⟩ := TokenMatcher.new_spec startSeqs
  obtain ⟨endMatcher, hend, hseqs, hreads'⟩ := TokenMatcher.new_spec endSeqs
  rw [ReasoningBudget.init, hstart, hend] at h
  obtain rfl := Exec.ok.inj h
  exact ⟨rfl, rfl, rfl, hseqs, ⟨_, hreads⟩, ⟨_, hreads'⟩, fun _ => hreads'⟩

/-- What follows a block that has begun keeps the start matcher. -/
lemma Inv.of_begun (h : Inv vocab endSeqs forcedTokens budget ctx)
    (hvocab : ctx'.vocab = ctx.vocab) (hforced : ctx'.forcedTokens = ctx.forcedTokens)
    (hbudget : ctx'.budget = ctx.budget) (hstart : ctx'.startMatcher = ctx.startMatcher)
    (hseqs : ctx'.endMatcher.seqs = ctx.endMatcher.seqs) {read : List ℤ}
    (hread : ctx'.endMatcher.Reads read) (hstate : ctx'.state ≠ .idle) :
    Inv vocab endSeqs forcedTokens budget ctx' where
  vocab_eq := hvocab.trans h.vocab_eq
  forcedTokens_eq := hforced.trans h.forcedTokens_eq
  budget_eq := hbudget.trans h.budget_eq
  seqs_eq := hseqs.trans h.seqs_eq
  startReads := by
    rw [hstart]
    exact h.startReads
  endReads := ⟨read, hread⟩
  idle := fun hno => absurd hno hstate

lemma activate_eq (ctx : ReasoningBudget) : ctx.activate = { ctx with
        remaining := ctx.budget
        state := if ctx.budget ≤ 0 then .forcing else .counting
        forcePos := if ctx.budget ≤ 0 then 0 else ctx.forcePos } := by
  rw [activate]
  split_ifs <;> rfl

lemma Inv.activate (h : Inv vocab endSeqs forcedTokens budget ctx)
    (hread : ctx.endMatcher.Reads []) :
    Inv vocab endSeqs forcedTokens budget ctx.activate := by
  rw [activate_eq]
  refine h.of_begun rfl rfl rfl rfl rfl hread ?_
  split_ifs <;> exact ReasoningBudgetState.noConfusion

/-- **A token is accepted**, in any state. -/
theorem Inv.accept (h : Inv vocab endSeqs forcedTokens budget ctx) (token : ℤ) :
    ∃ ctx', ctx.accept token = .ok ctx' ∧ Inv vocab endSeqs forcedTokens budget ctx' := by
  obtain ⟨read, hread⟩ := h.startReads
  obtain ⟨p, m, hadvance, -, hm, -⟩ := hread.advance token
  obtain ⟨read', hread'⟩ := h.endReads
  obtain ⟨p', m', hadvance', hseqs', hm', -⟩ := hread'.advance token
  have hstart : Inv vocab endSeqs forcedTokens budget { ctx with startMatcher := m } :=
    { h with startReads := ⟨_, hm⟩ }
  cases hstate : ctx.state with
  | idle =>
    refine ⟨_, accept_of_idle hstate hadvance, ?_⟩
    split_ifs
    · exact hstart.activate (h.idle hstate)
    · exact hstart
  | done =>
    refine ⟨_, accept_of_done hstate hadvance, ?_⟩
    split_ifs
    · exact Inv.activate { hstart with
        endReads := ⟨_, hread'.reset⟩
        idle := fun _ => hread'.reset } hread'.reset
    · exact hstart
  | counting =>
    refine ⟨_, accept_of_counting hstate hadvance', ?_⟩
    split_ifs
    · exact h.of_begun rfl rfl rfl rfl hseqs' hm' ReasoningBudgetState.noConfusion
    · exact h.of_begun rfl rfl rfl rfl hseqs' hm'.reset ReasoningBudgetState.noConfusion
    · exact h.of_begun rfl rfl rfl rfl hseqs' hm'.reset ReasoningBudgetState.noConfusion
    · exact h.of_begun rfl rfl rfl rfl hseqs' hm' (by rw [hstate]; decide)
  | waitingUtf8 =>
    refine ⟨_, accept_of_waiting hstate hadvance', ?_⟩
    split_ifs
    · exact h.of_begun rfl rfl rfl rfl hseqs' hm' ReasoningBudgetState.noConfusion
    · exact h.of_begun rfl rfl rfl rfl hseqs' hm'.reset ReasoningBudgetState.noConfusion
    · exact h.of_begun rfl rfl rfl rfl hseqs' hm' (by rw [hstate]; decide)
  | forcing =>
    refine ⟨_, accept_of_forcing hstate hadvance', ?_⟩
    split_ifs
    · exact h.of_begun rfl rfl rfl rfl hseqs' hm' ReasoningBudgetState.noConfusion
    · exact h.of_begun rfl rfl rfl rfl hseqs' hm' (by rw [hstate]; decide)

lemma Inv.reachable (h : Reachable vocab startSeqs endSeqs forcedTokens budget ctx) :
    Inv vocab endSeqs forcedTokens budget ctx := by
  induction h with
  | init state h => exact .init h
  | step op _ hstep ih =>
    cases op with
    | accept token =>
      obtain ⟨ctx', haccept, hinv⟩ := ih.accept token
      rwa [← Exec.ok.inj (haccept.symm.trans hstep)]
    | reset =>
      obtain rfl := Exec.ok.inj hstep
      obtain ⟨read, hread⟩ := ih.startReads
      obtain ⟨read', hread'⟩ := ih.endReads
      exact { ih with
        startReads := ⟨_, hread.reset⟩
        endReads := ⟨_, hread'.reset⟩
        idle := fun _ => hread'.reset }
    | force =>
      obtain rfl := Exec.ok.inj hstep
      rw [ReasoningBudget.force]
      split_ifs
      · obtain ⟨read, hread⟩ := ih.endReads
        exact ih.of_begun rfl rfl rfl rfl rfl hread.reset ReasoningBudgetState.noConfusion
      · exact ih

/-- A block that begins with its whole budget. -/
structure Begun (vocab : Option (ℤ → List UInt8)) (endSeqs : List (List ℤ))
    (forcedTokens : List ℤ) (budget : ℤ) (ctx : ReasoningBudget) : Prop
    extends Inv vocab endSeqs forcedTokens budget ctx where
  fresh : ctx.endMatcher.Reads []
  start : (budget ≤ 0 ∧ ctx.state = .forcing ∧ ctx.forcePos = 0) ∨
    (0 < budget ∧ ctx.state = .counting ∧ ctx.remaining = budget)

lemma Begun.activate (h : Inv vocab endSeqs forcedTokens budget ctx)
    (hread : ctx.endMatcher.Reads []) :
    Begun vocab endSeqs forcedTokens budget ctx.activate := by
  have hbudget := h.budget_eq
  refine ⟨h.activate hread, ?_, ?_⟩
  · rw [activate_eq]
    exact hread
  · rw [activate_eq]
    by_cases hb : ctx.budget ≤ 0
    · exact .inl ⟨by omega, if_pos hb, if_pos hb⟩
    · exact .inr ⟨by omega, if_neg hb, hbudget⟩

/-- **A block begins with its whole budget**, and no part of an end sequence has been read. -/
theorem Activates.begun (h : Activates vocab startSeqs endSeqs forcedTokens budget ctx) :
    Begun vocab endSeqs forcedTokens budget ctx := by
  cases h with
  | init h =>
    have hinv := Inv.init h
    obtain ⟨startMatcher, hstart, -, -⟩ := TokenMatcher.new_spec startSeqs
    obtain ⟨endMatcher, hend, -, hreads⟩ := TokenMatcher.new_spec endSeqs
    rw [ReasoningBudget.init, hstart, hend] at h
    obtain rfl := Exec.ok.inj h
    refine ⟨hinv, hreads, ?_⟩
    by_cases hb : budget ≤ 0
    · exact .inl ⟨hb, if_pos ⟨rfl, hb⟩, rfl⟩
    · exact .inr ⟨by omega, if_neg fun hno => hb hno.2, rfl⟩
  | @accept c ctx token h hstate haccept hne =>
    have hinv := Inv.reachable h
    obtain ⟨read, hread⟩ := hinv.startReads
    obtain ⟨p, m, hadvance, -, hm, -⟩ := hread.advance token
    have hstart : Inv vocab endSeqs forcedTokens budget { c with startMatcher := m } :=
      { hinv with startReads := ⟨_, hm⟩ }
    rcases hstate with hidle | hdone
    · have heq := Exec.ok.inj ((accept_of_idle hidle hadvance).symm.trans haccept)
      split_ifs at heq with hp
      · rw [← heq]
        exact .activate hstart (hinv.idle hidle)
      · exact absurd (congrArg state heq.symm) hne
    · have heq := Exec.ok.inj ((accept_of_done hdone hadvance).symm.trans haccept)
      split_ifs at heq with hp
      · rw [← heq]
        obtain ⟨read', hread'⟩ := hinv.endReads
        exact .activate { hstart with
          endReads := ⟨_, hread'.reset⟩
          idle := fun _ => hread'.reset } hread'.reset
      · exact absurd (congrArg state heq.symm) hne

/-! ## The tokens of a block -/

/-- The piece of the last of `k` tokens is at the end of a character. -/
def Judged (tokens : List ℤ) (k : ℕ) : Prop :=
  utf8IsComplete (lastPiece piece (tokens.take k)) = true

/-- Where the sampler is after `k` tokens: it counts, it waits for a piece at the end of a
character, or it has found the first one. -/
def Phase (b : ℕ) (tokens : List ℤ) (k : ℕ) (c : ReasoningBudget) : Prop :=
  (k < b ∧ c.state = .counting ∧ c.remaining = b - k ∧ c.endMatcher.Reads (tokens.take k)) ∨
  (b ≤ k ∧ (∀ m, b ≤ m → m ≤ k → ¬ Judged piece tokens m) ∧ c.state = .waitingUtf8) ∨
  ∃ n ≤ k, First b (Judged piece tokens) n ∧
    (k < n + max 1 c.forcedTokens.length → c.state = .forcing ∧ c.forcePos = k - n) ∧
    (k = n + max 1 c.forcedTokens.length → c.state = .done)

variable {piece} {b k : ℕ} {token : ℤ} {c c' : ReasoningBudget}

lemma take_succ_of_getElem? (htoken : tokens[k]? = some token) :
    tokens.take (k + 1) = tokens.take k ++ [token] := by
  rw [take_add_one, htoken, Option.toList_some]

lemma accepts_append (ctx : ReasoningBudget) (l l' : List ℤ) :
    ctx.accepts (l ++ l') = (ctx.accepts l).bind fun c => c.accepts l' := by
  induction l generalizing ctx with
  | nil => rfl
  | cons token l ih =>
    rw [cons_append, accepts, accepts, foldlM_cons, foldlM_cons]
    cases ctx.accept token with
    | ok c => exact ih c
    | thrown => rfl
    | aborted => rfl
    | unfinished => rfl

lemma accepts_singleton (ctx : ReasoningBudget) (token : ℤ) :
    ctx.accepts [token] = ctx.accept token := by
  rw [accepts, foldlM_cons]
  cases ctx.accept token <;> rfl

lemma judged_succ (htoken : tokens[k]? = some token) (hvocab : c.vocab = some piece) :
    Judged piece tokens (k + 1) ↔ c.utf8Complete token = true := by
  rw [Judged, take_succ_of_getElem? htoken, lastPiece, getLast?_concat, utf8Complete, hvocab]
  rfl

/-- The first place is this one when the last one was too early or had no such piece. -/
lemma first_succ {P : ℕ → Prop} (hle : b ≤ k + 1) (hbefore : ∀ m, b ≤ m → m ≤ k → ¬ P m)
    (h : P (k + 1)) : First b P (k + 1) :=
  ⟨hle, h, fun m hb hm => hbefore m hb (by omega)⟩

/-- **One token of a block** that it does not end naturally. -/
theorem Phase.step (h : Phase piece b tokens k c) (hvocab : c.vocab = some piece)
    (hread : ∃ read, c.endMatcher.Reads read) (htoken : tokens[k]? = some token)
    (haccept : c.accept token = .ok c') (hforced : c'.forcedTokens = c.forcedTokens)
    (hend : c.state = .counting ∨ c.state = .waitingUtf8 → c'.state ≠ .done) :
    Phase piece b tokens (k + 1) c' := by
  have hjudged := judged_succ htoken hvocab
  rcases h with ⟨hk, hstate, hremaining, hreads⟩ | ⟨hk, hbefore, hstate⟩ |
    ⟨n, hn, hfirst, hpos, hdone⟩
  · obtain ⟨p, m, hadvance, -, hm, -⟩ := hreads.advance token
    have heq := Exec.ok.inj ((accept_of_counting hstate hadvance).symm.trans haccept)
    split_ifs at heq with hp hleft hutf8
    · rw [← heq] at hend
      exact absurd rfl (hend (.inl hstate))
    · rw [← heq]
      refine .inr (.inr ⟨k + 1, Nat.le_refl _, first_succ (by omega) (fun m hb hm => by omega)
        (hjudged.mpr hutf8), fun _ => ⟨rfl, (Nat.sub_self _).symm⟩, fun hno => by omega⟩)
    · rw [← heq]
      refine .inr (.inl ⟨by omega, fun m hb hm => ?_, rfl⟩)
      obtain rfl : m = k + 1 := by omega
      exact fun hno => hutf8 (hjudged.mp hno)
    · rw [← heq]
      rw [if_neg hp, ← take_succ_of_getElem? htoken] at hm
      refine .inl ⟨by omega, hstate, ?_, hm⟩
      change c.remaining - 1 = _
      omega
  · obtain ⟨read, hread⟩ := hread
    obtain ⟨p, m, hadvance, -, hm, -⟩ := hread.advance token
    have heq := Exec.ok.inj ((accept_of_waiting hstate hadvance).symm.trans haccept)
    split_ifs at heq with hp hutf8
    · rw [← heq] at hend
      exact absurd rfl (hend (.inr hstate))
    · rw [← heq]
      refine .inr (.inr ⟨k + 1, Nat.le_refl _, first_succ (by omega) hbefore
        (hjudged.mpr hutf8), fun _ => ⟨rfl, (Nat.sub_self _).symm⟩, fun hno => by omega⟩)
    · rw [← heq]
      refine .inr (.inl ⟨by omega, fun m hb hm => ?_, hstate⟩)
      rcases Nat.lt_or_ge k m with hlt | hle
      · obtain rfl : m = k + 1 := by omega
        exact fun hno => hutf8 (hjudged.mp hno)
      · exact hbefore m hb hle
  · refine .inr (.inr ⟨n, by omega, hfirst, ?_⟩)
    rw [hforced]
    by_cases hlt : k < n + max 1 c.forcedTokens.length
    · obtain ⟨hstate, hforcePos⟩ := hpos hlt
      obtain ⟨read, hread⟩ := hread
      obtain ⟨p, m, hadvance, -, -, -⟩ := hread.advance token
      have heq := Exec.ok.inj ((accept_of_forcing hstate hadvance).symm.trans haccept)
      split_ifs at heq with hlast
      · rw [← heq]
        exact ⟨fun hno => by omega, fun _ => rfl⟩
      · rw [← heq]
        refine ⟨fun _ => ⟨hstate, ?_⟩, fun hno => by omega⟩
        change c.forcePos + 1 = _
        omega
    · exact ⟨fun hno => by omega, fun hno => by omega⟩

/-- **All tokens of a block** that is not ended naturally. -/
theorem Begun.run (h : Begun (some piece) endSeqs forcedTokens budget ctx)
    (hend : NotEnded ctx tokens) (hk : k ≤ tokens.length) :
    ∃ c, ctx.accepts (tokens.take k) = .ok c ∧ Inv (some piece) endSeqs forcedTokens budget c ∧
      Phase piece budget.toNat tokens k c := by
  induction k with
  | zero =>
    refine ⟨ctx, rfl, h.toInv, ?_⟩
    rcases h.start with ⟨hb, hstate, hpos⟩ | ⟨hb, hstate, hremaining⟩
    · refine .inr (.inr ⟨0, Nat.le_refl _, ⟨by omega, rfl, fun m _ hm => by omega⟩,
        fun _ => ⟨hstate, hpos⟩, fun hno => by omega⟩)
    · exact .inl ⟨by omega, hstate, by omega, h.fresh⟩
  | succ k ih =>
    obtain ⟨c, hrun, hinv, hphase⟩ := ih (by omega)
    have htoken : tokens[k]? = some tokens[k] := getElem?_eq_getElem hk
    obtain ⟨c', haccept, hinv'⟩ := hinv.accept tokens[k]
    refine ⟨c', ?_, hinv', hphase.step hinv.vocab_eq hinv.endReads htoken haccept
      (hinv'.forcedTokens_eq.trans hinv.forcedTokens_eq.symm)
      (hend k tokens[k] c c' htoken hrun haccept)⟩
    rw [take_succ_of_getElem? htoken, accepts_append, hrun]
    exact (accepts_singleton c tokens[k]).trans haccept

/-- The sampler waits while no piece was at the end of a character. -/
lemma Phase.waiting (h : Phase piece b tokens k c) (hk : b ≤ k)
    (hnone : ∀ m, b ≤ m → m ≤ k → ¬ Judged piece tokens m) : c.state = .waitingUtf8 := by
  rcases h with ⟨hlt, -⟩ | ⟨-, -, hstate⟩ | ⟨n, hn, hfirst, -⟩
  · omega
  · exact hstate
  · exact absurd hfirst.holds (hnone n hfirst.le hn)

/-- The sampler forces its tokens from the first piece at the end of a character on. -/
lemma Phase.forced {n : ℕ} (h : Phase piece b tokens k c)
    (hfirst : First b (Judged piece tokens) n) (hn : n ≤ k) :
    (k < n + max 1 c.forcedTokens.length → c.state = .forcing ∧ c.forcePos = k - n) ∧
      (k = n + max 1 c.forcedTokens.length → c.state = .done) := by
  rcases h with ⟨hlt, -⟩ | ⟨-, hnot, -⟩ | ⟨n', hn', hfirst', hrest⟩
  · have hle := hfirst.le
    omega
  · exact absurd hfirst.holds (hnot n hfirst.le hn)
  · rwa [← hfirst'.unique hfirst]

lemma mem_collect {seqs : List (List ℤ)} {seq : List ℤ} (h : seq ∈ TokenMatcher.collect seqs) :
    seq ∈ seqs ∧ seq ≠ [] := by
  induction seqs using reverseRecOn with
  | nil => exact absurd h not_mem_nil
  | append_singleton seqs last ih =>
    rw [TokenMatcher.collect, foldl_append] at h
    have hprev : seq ∈ TokenMatcher.collect seqs → seq ∈ seqs ++ [last] ∧ seq ≠ [] := fun h =>
      (ih h).imp_left (mem_append_left _)
    dsimp only [foldl_cons] at h
    split_ifs at h with hlast
    · rcases mem_append.mp h with h | h
      · exact hprev h
      · rw [mem_singleton.mp h]
        exact ⟨mem_append_right _ (mem_singleton_self last), hlast.1⟩
    · exact hprev h

lemma Inv.accepts (h : Inv vocab endSeqs forcedTokens budget ctx) (tokens : List ℤ) :
    ∃ c, ctx.accepts tokens = .ok c ∧ Inv vocab endSeqs forcedTokens budget c := by
  induction tokens generalizing ctx with
  | nil => exact ⟨ctx, rfl, h⟩
  | cons token tokens ih =>
    obtain ⟨c, haccept, hinv⟩ := h.accept token
    obtain ⟨c', hrest, hinv'⟩ := ih hinv
    refine ⟨c', ?_, hinv'⟩
    rw [ReasoningBudget.accepts, foldlM_cons, haccept]
    exact hrest

/-- **A block goes on** while no token is one of an end sequence. -/
theorem Inv.notEnded (h : Inv vocab endSeqs forcedTokens budget ctx)
    (hne : ∀ token ∈ tokens, ∀ seq ∈ endSeqs, tokenSymbol token ∉ seq.map tokenSymbol) :
    NotEnded ctx tokens := by
  intro k token c c' htoken hrun haccept hstate hdone
  obtain ⟨c1, hrun', hinv⟩ := h.accepts (tokens.take k)
  obtain rfl := Exec.ok.inj (hrun.symm.trans hrun')
  obtain ⟨read, hread⟩ := hinv.endReads
  obtain ⟨p, m, hadvance, -, -, hfound⟩ := hread.advance token
  have hp : p ≥ 0 := by
    by_contra hp
    rcases hstate with hcounting | hwaiting
    · have heq := Exec.ok.inj ((accept_of_counting hcounting hadvance).symm.trans haccept)
      split_ifs at heq
      · rw [← heq] at hdone
        cases hdone
      · rw [← heq] at hdone
        cases hdone
      · rw [← heq] at hdone
        cases hcounting.symm.trans hdone
    · have heq := Exec.ok.inj ((accept_of_waiting hwaiting hadvance).symm.trans haccept)
      split_ifs at heq
      · rw [← heq] at hdone
        cases hdone
      · rw [← heq] at hdone
        cases hwaiting.symm.trans hdone
  obtain ⟨seq, hseq, hsuffix⟩ := hfound.mp hp
  rw [hinv.seqs_eq] at hseq
  obtain ⟨hmem, hnil⟩ := mem_collect hseq
  rw [map_append, map_singleton, suffix_concat_iff] at hsuffix
  rcases hsuffix with hempty | ⟨t, heq, -⟩
  · exact hnil (map_eq_nil_iff.mp hempty)
  · refine hne token (mem_of_getElem? htoken) seq hmem ?_
    rw [heq]
    exact mem_append_right t (mem_singleton_self _)

/-! ## When the forced tokens come -/

lemma text_take_succ (htoken : tokens[k]? = some token) :
    blockText piece (tokens.take (k + 1)) = blockText piece (tokens.take k) ++ piece token := by
  rw [take_succ_of_getElem? htoken, blockText, flatMap_append, flatMap_singleton, blockText]

/-- **What a piece shows**: the sampler judges the text right when the piece shows it. -/
theorem shows_iff (hk : k ≤ tokens.length) :
    Shows piece tokens k ↔ (Complete piece tokens k ↔ Judged piece tokens k) := by
  cases k with
  | zero =>
    refine iff_of_true ⟨fun _ => .inl rfl, fun hno => absurd rfl hno⟩ (iff_of_true rfl rfl)
  | succ k =>
    have htoken : tokens[k]? = some tokens[k] := getElem?_eq_getElem hk
    have hpiece : lastPiece piece (tokens.take (k + 1)) = piece tokens[k] := by
      rw [take_succ_of_getElem? htoken, lastPiece, getLast?_concat]
      rfl
    rw [Shows, Complete, Judged, hpiece, text_take_succ htoken]
    generalize piece tokens[k] = last
    by_cases hnil : last = []
    · subst hnil
      have hempty : utf8IsComplete [] = true := rfl
      simp [hempty]
    by_cases hstart : ∃ c ∈ last, isContinuation c = false
    · rw [utf8IsComplete_append hstart]
      exact iff_of_true ⟨fun _ => .inr hstart, fun _ => hnil⟩ Iff.rfl
    · have hcont : ∀ c ∈ last, isContinuation c = true := fun c hc => by
        by_contra hno
        exact hstart ⟨c, hc, Bool.eq_false_of_not_eq_true hno⟩
      rw [utf8IsComplete_of_continuation hnil hcont]
      simp [hnil, hstart]

/-- **The first places agree** where the properties do, up to the first one. -/
theorem first_congr {P Q : ℕ → Prop} {N : ℕ}
    (h : ∀ j ≤ N, b ≤ j → (∀ m, b ≤ m → m < j → ¬ P m) → (P j ↔ Q j)) :
    (∀ k ≤ N, (∀ m, b ≤ m → m ≤ k → ¬ P m) → ∀ m, b ≤ m → m ≤ k → ¬ Q m) ∧
      ∀ n ≤ N, First b P n → First b Q n := by
  have hnone : ∀ k ≤ N, (∀ m, b ≤ m → m ≤ k → ¬ P m) → ∀ m, b ≤ m → m ≤ k → ¬ Q m :=
    fun k hk hP m hb hm hQ =>
      hP m hb hm ((h m (by omega) hb fun m' hb' hm' => hP m' hb' (by omega)).mpr hQ)
  refine ⟨hnone, fun n hn hfirst => ⟨hfirst.le, (h n hn hfirst.le hfirst.before).mp hfirst.holds,
    fun m hb hm hQ => ?_⟩⟩
  exact hnone m (by omega) (fun m' hb' hm' => hfirst.before m' hb' (by omega)) m hb (Nat.le_refl m)
    hQ

lemma apply_of_ne_forcing {L : Type} (negInf : L) (cur : List (TokenData L))
    (h : c.state ≠ .forcing) : c.apply negInf cur = cur := by
  rw [apply, if_pos h]

lemma apply_of_forcing {L : Type} (negInf : L) (cur : List (TokenData L)) {forced : ℤ}
    (h : c.state = .forcing) (hforced : c.forcedTokens[c.forcePos]? = some forced) :
    c.apply negInf cur =
      cur.map fun d => if d.id ≠ forced then { d with logit := negInf } else d := by
  rw [apply, if_neg (not_not_intro h), hforced]

/-- **The sampler judges the text right** when the forced tokens come when they should. -/
theorem Keeps.agree (hkeeps : Keeps piece ctx b tokens)
    (hrun : ∀ k ≤ tokens.length, ∃ c, ctx.accepts (tokens.take k) = .ok c ∧
      Phase piece b tokens k c) :
    ∀ j ≤ tokens.length, b ≤ j → (∀ m, b ≤ m → m < j → ¬ Complete piece tokens m) →
      (Complete piece tokens j ↔ Judged piece tokens j) := by
  intro j
  induction j using Nat.strong_induction_on with
  | h j ih =>
    intro hj hbj hnone
    have hbefore : ∀ m, b ≤ m → m < j → ¬ Judged piece tokens m := fun m hbm hm hjudged =>
      hnone m hbm hm ((ih m hm (by omega) hbm fun m' hb' hm' =>
        hnone m' hb' (by omega)).mpr hjudged)
    obtain ⟨c, haccepts, hearly, hlate⟩ := hkeeps j hj
    obtain ⟨c', haccepts', hphase⟩ := hrun j hj
    obtain rfl := Exec.ok.inj (haccepts.symm.trans haccepts')
    constructor
    · intro hcomplete
      by_contra hno
      have hwaiting := hphase.waiting hbj fun m hbm hm hjudged => by
        rcases Nat.lt_or_ge m j with hlt | hge
        · exact hbefore m hbm hlt hjudged
        · obtain rfl : m = j := by omega
          exact hno hjudged
      obtain ⟨hforcing, hdone⟩ := hlate j ⟨hbj, hcomplete, hnone⟩ (Nat.le_refl j)
      rw [hwaiting] at hdone
      cases hforced : ctx.forcedTokens with
      | nil => exact ReasoningBudgetState.noConfusion (hdone (by rw [hforced]; rfl))
      | cons forced rest =>
        have hstate := (hforcing forced (by rw [hforced, Nat.sub_self]; rfl)).1
        rw [hwaiting] at hstate
        cases hstate
    · intro hjudged
      by_contra hno
      have hforcing := ((hphase.forced ⟨hbj, hjudged, hbefore⟩ (Nat.le_refl j)).1 (by omega)).1
      refine (hearly fun m hbm hm => ?_).1 hforcing
      rcases Nat.lt_or_ge m j with hlt | hge
      · exact hnone m hbm hlt
      · obtain rfl : m = j := by omega
        exact hno

/-- **When the forced tokens come when they should**: until the text is at the end of a character,
the piece of each token from the budget on shows whether it is, and there are tokens to force. -/
theorem blockKeeps_iff (hact : Activates (some piece) startSeqs endSeqs forcedTokens budget ctx)
    (hend : NotEnded ctx tokens) :
    Keeps piece ctx budget.toNat tokens ↔
      (forcedTokens = [] → ∀ n ≤ tokens.length, ¬ First budget.toNat (Complete piece tokens) n) ∧
      ∀ j ≤ tokens.length, budget.toNat ≤ j →
        (∀ m, budget.toNat ≤ m → m < j → ¬ Complete piece tokens m) → Shows piece tokens j := by
  have hbegun := hact.begun
  have hforcedEq := hbegun.forcedTokens_eq
  have hrun : ∀ k ≤ tokens.length, ∃ c, ctx.accepts (tokens.take k) = .ok c ∧
      c.forcedTokens = ctx.forcedTokens ∧ Phase piece budget.toNat tokens k c := fun k hk => by
    obtain ⟨c, haccepts, hinv, hphase⟩ := hbegun.run hend hk
    exact ⟨c, haccepts, hinv.forcedTokens_eq.trans hforcedEq.symm, hphase⟩
  generalize budget.toNat = b at *
  constructor
  · intro hkeeps
    have hagree := hkeeps.agree fun k hk => (hrun k hk).imp fun c h => ⟨h.1, h.2.2⟩
    refine ⟨fun hnil n hn hfirst => ?_, fun j hj hbj hnone =>
      (shows_iff hj).mpr (hagree j hj hbj hnone)⟩
    obtain ⟨c, haccepts, -, hlate⟩ := hkeeps n hn
    obtain ⟨c', haccepts', -, hphase⟩ := hrun n hn
    obtain rfl := Exec.ok.inj (haccepts.symm.trans haccepts')
    have hdone := (hlate n hfirst (Nat.le_refl n)).2 (by
      rw [hforcedEq, hnil, List.length_nil, Nat.add_zero])
    have hforcing :=
      (hphase.forced ((first_congr hagree).2 n hn hfirst) (Nat.le_refl n)).1 (by omega)
    rw [hforcing.1] at hdone
    cases hdone
  · rintro ⟨hnil, hshows⟩ k hk
    obtain ⟨hnone, hfirsts⟩ := first_congr fun j hj hbj h =>
      (shows_iff hj).mp (hshows j hj hbj h)
    obtain ⟨c, haccepts, hlength, hphase⟩ := hrun k hk
    refine ⟨c, haccepts, fun hearly => ?_, fun n hfirst hn => ?_⟩
    · have hstate : c.state ≠ .forcing := by
        rcases Nat.lt_or_ge k b with hlt | hge
        · rcases hphase with ⟨-, hstate, -⟩ | ⟨hb, -⟩ | ⟨n, hn, hfirst, -⟩
          · rw [hstate]
            exact ReasoningBudgetState.noConfusion
          · omega
          · have hle := hfirst.le
            omega
        · rw [hphase.waiting hge (hnone k hk hearly)]
          exact ReasoningBudgetState.noConfusion
      exact ⟨hstate, fun L negInf cur => apply_of_ne_forcing negInf cur hstate⟩
    · have hne : ctx.forcedTokens ≠ [] := fun hno =>
        hnil (hforcedEq.symm.trans hno) n (by omega) hfirst
      have hpos := List.length_pos_iff.mpr hne
      obtain ⟨hforcing, hdone⟩ := hphase.forced (hfirsts n (by omega) hfirst) hn
      rw [hlength] at hforcing hdone
      refine ⟨fun forced hforced => ?_, fun heq => hdone (by omega)⟩
      have hlt : k - n < ctx.forcedTokens.length := (List.getElem?_eq_some_iff.mp hforced).1
      obtain ⟨hstate, hforcePos⟩ := hforcing (by omega)
      exact ⟨hstate, fun L negInf cur => apply_of_forcing negInf cur hstate (by
        rw [hlength, hforcePos, hforced])⟩

/-- A vocabulary with tokens for the bytes of a character. -/
def bytePieces (token : ℤ) : List UInt8 :=
  if token = 1 then [0xC3] else if token = 2 then [0xA9] else if token = 3 then [0xA9, 0x61]
  else [0x61]

/-- A character of two bytes and a letter, in two tokens, with the budget at the end of the
first one. -/
theorem blockKeeps_iff_letter : ∃ ctx,
    init (some bytePieces) [[100]] [[101]] [102, 101] 1 .counting = .ok ctx ∧
      Keeps bytePieces ctx 1 [1, 3] := by
  obtain ⟨ctx, hinit⟩ : ∃ ctx,
      init (some bytePieces) [[100]] [[101]] [102, 101] 1 .counting = .ok ctx := ⟨_, rfl⟩
  have hact : Activates (some bytePieces) [[100]] [[101]] [102, 101] 1 ctx := .init hinit
  have hend : NotEnded ctx [1, 3] := hact.begun.notEnded (List.forall_mem_cons.mpr
    ⟨List.forall_mem_singleton.mpr (by decide),
      List.forall_mem_singleton.mpr (List.forall_mem_singleton.mpr (by decide))⟩)
  refine ⟨ctx, hinit, (blockKeeps_iff hact hend).mpr ⟨fun h => (by cases h), fun j hj hb _ => ?_⟩⟩
  rcases Nat.lt_or_ge 1 j with hlt | hle
  · obtain rfl : j = 2 := Nat.le_antisymm hj hlt
    exact ⟨fun _ => .inr ⟨0x61, by decide, by decide⟩, fun h => absurd (by decide) h⟩
  · obtain rfl : j = 1 := Nat.le_antisymm hle hb
    exact ⟨fun h => absurd h (by decide), fun _ => by decide⟩

/-- **The same character with a token for each byte**: it is complete with the second one, and the
sampler still waits. -/
theorem not_keeps_bytes : ∃ ctx,
    Activates (some bytePieces) [[100]] [[101]] [102, 101] 1 ctx ∧ NotEnded ctx [1, 2] ∧
      ¬ Keeps bytePieces ctx 1 [1, 2] := by
  obtain ⟨ctx, hinit⟩ : ∃ ctx,
      init (some bytePieces) [[100]] [[101]] [102, 101] 1 .counting = .ok ctx := ⟨_, rfl⟩
  have hact : Activates (some bytePieces) [[100]] [[101]] [102, 101] 1 ctx := .init hinit
  have hend : NotEnded ctx [1, 2] := hact.begun.notEnded (List.forall_mem_cons.mpr
    ⟨List.forall_mem_singleton.mpr (by decide),
      List.forall_mem_singleton.mpr (List.forall_mem_singleton.mpr (by decide))⟩)
  refine ⟨ctx, hact, hend, fun hkeeps => ?_⟩
  obtain ⟨c, hrun, -, hlate⟩ := hkeeps 2 (Nat.le_refl 2)
  have hfirst : First 1 (Complete bytePieces [1, 2]) 2 :=
    ⟨by decide, by decide, fun m hb hm => by
      obtain rfl : m = 1 := by omega
      decide⟩
  have hforced : ctx.forcedTokens[2 - 2]? = some 102 := by
    rw [hact.begun.forcedTokens_eq]
    rfl
  have hstate := ((hlate 2 hfirst (Nat.le_refl 2)).1 102 hforced).1
  have hwaiting : c.state = .waitingUtf8 := by
    cases hinit
    cases hrun
    rfl
  rw [hwaiting] at hstate
  cases hstate

end ReasoningBudget
end Sampler
end Llama
