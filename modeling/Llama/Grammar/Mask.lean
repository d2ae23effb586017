import Llama.Grammar.Recognize
import Llama.Grammar.Sampling

/-!
# Masked tokens are the ones refused

`applyImpl` and `acceptImpl` follow a token through the stacks in two ways.  A stack lets a
candidate pass if its code points lead to a stack on which it ends (`Passes`), and the
candidates that are masked are those that pass on no stack.  A token is accepted if its code
points lead to any stack at all (`Follows`).  The two differ in how a token ends: in the
middle of a sequence only masking looks at the value so far, and on a token element that is
met behind some code points of the same token only masking compares the token.
-/

namespace Llama.Grammar

open Cfg List Candidate

variable {G : List Rule} {rules : GrammarRules}

/-! ## Rejected candidates -/

/-- A stack lets the rest of a candidate pass: code points with a `0` behind them. -/
inductive Passes (rules : GrammarRules) (id : ℕ) (utf8 : PartialUtf8) : GrammarStack → List ℕ → Prop
  | empty {cs : List ℕ} (hend : cs.headD 0 = 0) (hutf8 : utf8.nRemain = 0) :
      Passes rules id utf8 [] cs
  | tokenEnd {pos : ElementPtr} {stack : GrammarStack} {cs : List ℕ}
      (htoken : isToken (element rules pos) = true) (hend : cs.headD 0 = 0)
      (hutf8 : utf8.nRemain = 0) : Passes rules id utf8 (pos :: stack) cs
  | token {pos : ElementPtr} {stack : GrammarStack} {cs : List ℕ}
      (htoken : isToken (element rules pos) = true) (hcs : cs.headD 0 ≠ 0)
      (hmatch : matchToken (element rules pos) id = true) : Passes rules id utf8 (pos :: stack) cs
  | charEnd {pos : ElementPtr} {stack : GrammarStack} {cs : List ℕ}
      (hchar : isToken (element rules pos) = false) (hend : cs.headD 0 = 0)
      (hutf8 : utf8.nRemain = 0 ∨ matchPartialChar rules pos utf8 = .ok true) :
      Passes rules id utf8 (pos :: stack) cs
  | char {c : ℕ} {cs : List ℕ} {s t : GrammarStack} (hc : c ≠ 0) (hsucc : Succ rules c s t)
      (hrest : Passes rules id utf8 t cs) : Passes rules id utf8 s (c :: cs)

/-- The code points of a candidate from its offset on. -/
def Candidate.remaining (tok : Candidate) : List ℕ := tok.codePoints.drop tok.offset

lemma Candidate.codePoint_eq (tok : Candidate) : tok.codePoint = tok.remaining.headD 0 := by
  rw [codePoint, Candidate.remaining, headD_eq_head?_getD, head?_drop,
    getD_eq_getElem?_getD]

lemma Candidate.remaining_forward (tok : Candidate) :
    tok.forward.remaining = tok.remaining.tail := by
  rw [Candidate.remaining, forward, Candidate.remaining, tail_drop]

variable {tok : Candidate} {id : ℕ} {pos : ElementPtr} {ss : List Sym} {stack s t : GrammarStack}
  {cs : List ℕ} {st : State} {utf8 : PartialUtf8}

lemma Candidate.remaining_eq (h : tok.codePoint ≠ 0) :
    tok.remaining = tok.codePoint :: tok.forward.remaining := by
  rw [remaining_forward, codePoint_eq]
  rw [codePoint_eq] at h
  cases hr : tok.remaining with
  | nil =>
    rw [hr] at h
    exact absurd rfl h
  | cons c cs => rfl

/-- Whether a stack lets a candidate pass. -/
def Candidate.Passes (rules : GrammarRules) (tok : Candidate) (s : GrammarStack) : Prop :=
  Grammar.Passes rules tok.id tok.partialUtf8 s tok.remaining

lemma Candidate.passes_nil :
    tok.Passes rules [] ↔ tok.codePoint = 0 ∧ tok.partialUtf8.nRemain = 0 := by
  rw [codePoint_eq]
  constructor
  · intro h
    rw [Candidate.Passes] at h
    cases hr : tok.remaining with
    | nil =>
      rw [hr] at h
      cases h with
      | empty hend hutf8 => exact ⟨rfl, hutf8⟩
    | cons c cs =>
      rw [hr] at h
      cases h with
      | empty hend hutf8 => exact ⟨hend, hutf8⟩
      | char _ hsucc => exact absurd hsucc not_succ_nil
  · exact fun h => .empty h.1 h.2

lemma Candidate.passes_token {inverse : Bool} (hat : At rules pos (.token inverse id :: ss)) :
    tok.Passes rules (pos :: stack) ↔ if tok.codePoint = 0 then tok.partialUtf8.nRemain = 0
      else matchToken (element rules pos) tok.id = true := by
  rw [codePoint_eq, Candidate.Passes]
  have htoken := hat.isToken_of_token
  generalize tok.remaining = cs
  constructor
  · intro h
    cases h with
    | tokenEnd _ hend hutf8 => rwa [if_pos hend]
    | token _ hcs hmatch => rwa [if_neg hcs]
    | charEnd hchar => rw [htoken] at hchar; cases hchar
    | char _ hsucc => exact absurd hsucc (not_succ_token hat)
  · intro h
    by_cases hend : cs.headD 0 = 0
    · rw [if_pos hend] at h
      exact .tokenEnd htoken hend h
    · rw [if_neg hend] at h
      exact .token htoken hend h

lemma At.matchPartialChar {s : Sym} (hat : At rules pos (s :: ss)) (hs : s.isChar = true)
    (utf8 : PartialUtf8) : ∃ b, Grammar.matchPartialChar rules pos utf8 = .ok b := by
  rw [Grammar.matchPartialChar]
  simp only [Exec.assert, if_pos (hat.assert_isChar hs)]
  split
  · exact ⟨_, rfl⟩
  · exact ⟨_, rfl⟩

/-- A candidate is matched with a character range without an error. -/
lemma matchCandidate_spec {s : Sym} (hat : At rules pos (s :: ss)) (hs : s.isChar = true)
    (tok : Candidate) :
    ∃ b, matchCandidate rules pos tok = .ok b ∧ (b = true ↔ if tok.codePoint = 0 then
        tok.partialUtf8.nRemain = 0 ∨ matchPartialChar rules pos tok.partialUtf8 = .ok true
      else s.accepts tok.codePoint = true) := by
  rw [matchCandidate]
  by_cases hzero : tok.codePoint = 0
  · obtain ⟨b, hb⟩ := hat.matchPartialChar hs tok.partialUtf8
    rw [if_pos hzero, if_pos hzero]
    by_cases hrem : tok.partialUtf8.nRemain = 0
    · exact ⟨true, if_pos hrem, by simp [hrem]⟩
    · exact ⟨b, by rw [if_neg hrem, hb], by simp [hrem, hb]⟩
  · rw [if_neg hzero, if_neg hzero, (hat.matchChar hs tok.codePoint).2]
    exact ⟨_, rfl, .rfl⟩

/-- The two lists that the candidates are split into. -/
lemma splitCandidates_spec (hmatch : ∀ tok, ∃ b, matchCandidate rules pos tok = .ok b)
    (candidates : List Candidate) :
    ∃ rejects next, splitCandidates rules pos candidates = .ok (rejects, next) ∧
      (∀ tok, tok ∈ rejects ↔ tok ∈ candidates ∧ matchCandidate rules pos tok = .ok false) ∧
      ∀ tok, tok ∈ next ↔ ∃ tok' ∈ candidates, matchCandidate rules pos tok' = .ok true ∧
        tok'.codePoint ≠ 0 ∧ tok = tok'.forward := by
  induction candidates with
  | nil => exact ⟨[], [], rfl, by simp, by simp⟩
  | cons tok toks ih =>
    obtain ⟨rejects, next, heq, hrejects, hnext⟩ := ih
    obtain ⟨b, hb⟩ := hmatch tok
    simp only [splitCandidates, hb, heq]
    cases b with
    | false =>
      refine ⟨tok :: rejects, next, rfl, fun t => ?_, fun t => ?_⟩
      · rw [mem_cons, mem_cons, or_and_right, hrejects]
        exact or_congr_left ⟨fun h => ⟨h, h ▸ hb⟩, fun h => h.1⟩
      · rw [hnext]
        simp [hb]
    | true =>
      refine ⟨rejects, if tok.codePoint = 0 then next else tok.forward :: next, rfl,
        fun t => ?_, fun t => ?_⟩
      · rw [mem_cons, or_and_right, hrejects]
        exact (or_iff_right fun h => by rw [h.1, hb] at h; cases h.2).symm
      · by_cases hzero : tok.codePoint = 0
        · rw [if_pos hzero, hnext]
          simp [hzero]
        · rw [if_neg hzero, mem_cons, hnext]
          simp [hb, hzero]

lemma Candidate.passes_char {s : Sym} (hat : At rules pos (s :: ss)) (hs : s.isChar = true) :
    tok.Passes rules (pos :: stack) ↔ if tok.codePoint = 0 then
        tok.partialUtf8.nRemain = 0 ∨ matchPartialChar rules pos tok.partialUtf8 = .ok true
      else ∃ t, Succ rules tok.codePoint (pos :: stack) t ∧ tok.forward.Passes rules t := by
  have htoken := hat.isToken_of_isChar hs
  constructor
  · intro h
    by_cases hzero : tok.codePoint = 0
    · rw [if_pos hzero]
      rw [codePoint_eq] at hzero
      rw [Candidate.Passes] at h
      revert h hzero
      generalize tok.remaining = cs
      intro h hzero
      cases h with
      | tokenEnd ht => rw [htoken] at ht; cases ht
      | token ht => rw [htoken] at ht; cases ht
      | charEnd _ _ hutf8 => exact hutf8
      | char hc => exact absurd hzero hc
    · rw [if_neg hzero]
      rw [Candidate.Passes, remaining_eq hzero] at h
      cases h with
      | tokenEnd ht => rw [htoken] at ht; cases ht
      | token ht => rw [htoken] at ht; cases ht
      | charEnd _ hend => exact absurd hend hzero
      | char _ hsucc hrest => exact ⟨_, hsucc, hrest⟩
  · intro h
    by_cases hzero : tok.codePoint = 0
    · rw [if_pos hzero] at h
      exact .charEnd htoken (by rwa [← codePoint_eq]) h
    · rw [if_neg hzero] at h
      obtain ⟨t, hsucc, hrest⟩ := h
      rw [Candidate.Passes, remaining_eq hzero]
      exact .char hzero hsucc hrest

/-- What a stack with a character range on top lets pass. -/
lemma Candidate.passes_iff {s : Sym} (hat : At rules pos (s :: ss)) (hs : s.isChar = true) :
    tok.Passes rules (pos :: stack) ↔ matchCandidate rules pos tok = .ok true ∧
      (tok.codePoint ≠ 0 → ∃ t, Kept rules
        (pushUnlessEnd rules (advancePtr pos s.elements.length) stack) t ∧
          tok.forward.Passes rules t) := by
  obtain ⟨b, hb, hiff⟩ := matchCandidate_spec hat hs tok
  have hmatch : matchCandidate rules pos tok = .ok true ↔ b = true := by simp [hb]
  rw [passes_char hat hs, hmatch, hiff]
  by_cases hzero : tok.codePoint = 0
  · simp [hzero]
  · rw [if_neg hzero, if_neg hzero]
    simp only [succ_iff hat hs, and_assoc, exists_and_left, ne_eq, hzero, not_false_eq_true,
      forall_const]

/-- The candidates that are left to a depth of nested calls. -/
def Deep (depth : ℕ) (candidates : List Candidate) : Prop :=
  ∀ tok ∈ candidates, tok.remaining.length + 2 ≤ depth

/-- What `reject_candidates` returns up to a depth. -/
def RejectSpec (G : List Rule) (depth : ℕ) : Prop :=
  ∀ (current : GrammarStacks) (candidates : List Candidate), current ≠ [] →
    (∀ s ∈ current, Expanded G s) → Deep depth candidates → ∃ k rejects, (∀ n ≥ k, ∀ d ≥ depth,
        rejectCandidates n (encode G) d current candidates = .ok rejects) ∧
        ∀ tok, tok ∈ rejects ↔ tok ∈ candidates ∧ ∀ s ∈ current, ¬ tok.Passes (encode G) s

variable (hvalid : Valid (encode G)) (hleft : ¬ LeftRecursive (encode G))

section

include hvalid hleft

/-- A stack rejects the candidates that it does not let pass. -/
lemma rejectForStack_spec {depth : ℕ} (hnext : RejectSpec G depth) (hexp : Expanded G s)
    {candidates : List Candidate} (hdeep : Deep (depth + 1) candidates) :
    ∃ k rejects, (∀ n ≥ k, ∀ d ≥ depth, rejectForStack n (encode G)
        (rejectCandidates n (encode G) d) s candidates = .ok rejects) ∧
      ∀ tok, tok ∈ rejects ↔ tok ∈ candidates ∧ ¬ tok.Passes (encode G) s := by
  cases s with
  | nil =>
    refine ⟨0, _, fun n _ d _ => rfl, fun tok => ?_⟩
    rw [passes_nil]
    simp [imp_iff_not_or]
  | cons pos stack =>
    obtain ⟨s, ss, hat, hs | ⟨inverse, id, rfl⟩⟩ := hexp.top
    · obtain ⟨rejects, next, hsplit, hrejects, hmem⟩ := splitCandidates_spec
        (fun tok => (matchCandidate_spec hat hs tok).imp fun _ h => h.1) candidates
      have hzero := (hat.matchChar hs 0).2
      have hformed := hexp.2.tail.push hat.tail
      obtain ⟨nextStacks, hsettles, hstacks⟩ := advanceStack_spec hvalid hleft hformed []
      obtain ⟨k1, h1⟩ := hsettles.eventually
      simp only [not_mem_nil, false_or] at hstacks
      have hne : nextStacks ≠ [] := by
        obtain ⟨t, ht⟩ := exists_kept hvalid hleft hformed
        exact ne_nil_of_mem ((hstacks t).mpr ht)
      have hdeep' : Deep depth next := by
        intro tok htok
        obtain ⟨tok', htok', -, hcp, rfl⟩ := (hmem tok).mp htok
        have hlen := hdeep tok' htok'
        rw [remaining_eq hcp, length_cons] at hlen
        omega
      obtain ⟨k2, nextRejects, h2, hnextRejects⟩ := hnext nextStacks next hne
        (fun t ht => ((hstacks t).mp ht).expanded hvalid hformed) hdeep'
      refine ⟨max k1 k2, rejects ++ nextRejects.map .back, fun n hn d hd => ?_,
        fun tok => ?_⟩
      · simp only [rejectForStack, hat.isToken_of_isChar hs, hsplit, hzero, Exec.ok_bind,
          h1 n (le_trans (le_max_left _ _) hn), h2 n (le_trans (le_max_right _ _) hn) d hd]
        rfl
      · have hback : (∃ a ∈ nextRejects, a.back = tok) ↔ tok ∈ candidates ∧
            matchCandidate (encode G) pos tok = .ok true ∧ tok.codePoint ≠ 0 ∧ ∀ t, Kept (encode G)
                (pushUnlessEnd (encode G) (advancePtr pos s.elements.length) stack) t →
                  ¬ tok.forward.Passes (encode G) t := by
          constructor
          · rintro ⟨a, ha, rfl⟩
            obtain ⟨ha, hno⟩ := (hnextRejects a).mp ha
            obtain ⟨tok, htok, hm, hcp, rfl⟩ := (hmem a).mp ha
            exact ⟨htok, hm, hcp, fun t ht => hno t ((hstacks t).mpr ht)⟩
          · rintro ⟨htok, hm, hcp, hno⟩
            exact ⟨tok.forward, (hnextRejects _).mpr ⟨(hmem _).mpr ⟨tok, htok, hm, hcp, rfl⟩,
              fun t ht => hno t ((hstacks t).mp ht)⟩, rfl⟩
        rw [mem_append, hrejects, mem_map, hback, passes_iff hat hs]
        obtain ⟨b, hb, -⟩ := matchCandidate_spec hat hs tok
        cases b with
        | false => simp [hb]
        | true => simp [hb]
    · have htoken := hat.isToken_of_token
      refine ⟨0, candidates.filter fun tok => if tok.codePoint = 0 then
          tok.partialUtf8.nRemain ≠ 0 else !matchToken (element (encode G) pos) tok.id,
        fun n _ d _ => by rw [rejectForStack, if_pos htoken]; rfl, fun tok => ?_⟩
      rw [passes_token hat]
      by_cases hzero : tok.codePoint = 0
      · simp [hzero]
      · simp [hzero]

lemma rejectLoop_spec {depth : ℕ} (hnext : RejectSpec G depth) : ∀ {current : GrammarStacks}
    {candidates : List Candidate}, (∀ s ∈ current, Expanded G s) → Deep (depth + 1) candidates →
      ∃ k rejects, (∀ n ≥ k, ∀ d ≥ depth, rejectLoop n (encode G)
          (rejectCandidates n (encode G) d) current candidates = .ok rejects) ∧
        ∀ tok, tok ∈ rejects ↔ tok ∈ candidates ∧ ∀ s ∈ current, ¬ tok.Passes (encode G) s := by
  intro current
  induction current with
  | nil => exact fun {candidates} _ _ => ⟨0, candidates, fun n _ d _ => rfl, by simp⟩
  | cons s current ih =>
    intro candidates hexp hdeep
    obtain ⟨k1, rejects1, h1, hmem1⟩ :=
      rejectForStack_spec hvalid hleft hnext (hexp s mem_cons_self) hdeep
    obtain ⟨k2, rejects2, h2, hmem2⟩ := @ih rejects1
      (fun t ht => hexp t (mem_cons_of_mem _ ht)) fun tok htok => hdeep tok ((hmem1 tok).mp htok).1
    refine ⟨max k1 k2, rejects2, fun n hn d hd => ?_, fun tok => ?_⟩
    · rw [rejectLoop, h1 n (le_trans (le_max_left _ _) hn) d hd]
      exact h2 n (le_trans (le_max_right _ _) hn) d hd
    · rw [hmem2, hmem1, forall_mem_cons, and_assoc]

/-- **The candidates rejected** are those that pass on no stack. -/
theorem rejectCandidates_spec (depth : ℕ) : RejectSpec G (depth + 1) := by
  induction depth with
  | zero =>
    intro current candidates hne hexp hdeep
    have hnil : candidates = [] := eq_nil_iff_forall_not_mem.mpr fun tok htok => by
      have := hdeep tok htok
      omega
    subst hnil
    refine ⟨0, [], fun n _ d hd => ?_, by simp⟩
    obtain ⟨d, rfl⟩ := Nat.exists_eq_add_of_le' hd
    simp [rejectCandidates, Exec.assert, hne]
  | succ depth ih =>
    intro current candidates hne hexp hdeep
    obtain ⟨k, rejects, hk, hmem⟩ := rejectLoop_spec hvalid hleft ih hexp hdeep
    by_cases hnil : candidates = []
    · subst hnil
      refine ⟨0, [], fun n _ d hd => ?_, by simp⟩
      obtain ⟨d, rfl⟩ := Nat.exists_eq_add_of_le' hd
      simp [rejectCandidates, Exec.assert, hne]
    · refine ⟨k, rejects, fun n hn d hd => ?_, hmem⟩
      obtain ⟨d, rfl⟩ : ∃ e, d = e + 1 := ⟨d - 1, by omega⟩
      simp only [rejectCandidates, Exec.assert, if_pos hne, if_neg hnil]
      exact hk n hn d (by omega)

end

/-! ## Accepted tokens -/

/-- The code points lead from one stack to another. -/
inductive Follows (rules : GrammarRules) : GrammarStack → List ℕ → GrammarStack → Prop
  | nil {s : GrammarStack} : Follows rules s [] s
  | cons {c : ℕ} {cs : List ℕ} {s t u : GrammarStack} (hsucc : Succ rules c s t)
      (hrest : Follows rules t cs u) : Follows rules s (c :: cs) u

lemma follows_nil : Follows rules s [] t ↔ t = s := by
  constructor
  · rintro ⟨⟩
    rfl
  · rintro rfl
    exact .nil

lemma follows_cons {c : ℕ} {u : GrammarStack} :
    Follows rules s (c :: cs) u ↔ ∃ t, Succ rules c s t ∧ Follows rules t cs u := by
  constructor
  · rintro (_ | ⟨hsucc, hrest⟩)
    exact ⟨_, hsucc, hrest⟩
  · rintro ⟨t, hsucc, hrest⟩
    exact .cons hsucc hrest

lemma Follows.expanded (hvalid : Valid (encode G)) (h : Follows (encode G) s cs t)
    (hexp : Expanded G s) : Expanded G t := by
  induction h with
  | nil => exact hexp
  | cons hsucc _ ih => exact ih (hsucc.expanded hvalid hexp.2)

/-- The loop over the code points finds the stacks that they lead to. -/
lemma acceptCodePoints_spec (hvalid : Valid (encode G)) (hleft : ¬ LeftRecursive (encode G))
    (cs : List ℕ) : ∀ {current : GrammarStacks}, (∀ s ∈ current, Expanded G s) →
      ∃ out, Exec.Settles (fun n => acceptCodePoints n (encode G) cs current) (.ok out) ∧
        ∀ t, t ∈ out ↔ ∃ s ∈ current, Follows (encode G) s cs t := by
  induction cs with
  | nil => exact fun {current} _ => ⟨current, .const _, by simp [follows_nil]⟩
  | cons c cs ih =>
    intro current hexp
    obtain ⟨out1, h1, hout1⟩ := accept_spec hvalid hleft c hexp
    have hexp1 : ∀ t ∈ out1, Expanded G t := by
      intro t ht
      obtain ⟨s, hs, hsucc⟩ := (hout1 t).mp ht
      exact hsucc.expanded hvalid (hexp s hs).2
    obtain ⟨out2, h2, hout2⟩ := ih hexp1
    have hmem : ∀ t, t ∈ out2 ↔ ∃ s ∈ current, Follows (encode G) s (c :: cs) t := by
      intro t
      simp only [hout2, hout1, follows_cons]
      constructor
      · rintro ⟨u, ⟨s, hs, hsucc⟩, hrest⟩
        exact ⟨s, hs, u, hsucc, hrest⟩
      · rintro ⟨s, hs, u, hsucc, hrest⟩
        exact ⟨u, ⟨s, hs, hsucc⟩, hrest⟩
    by_cases hnil : out1 = []
    · -- the loop stops, and the rest of the code points leads nowhere
      have hout : out2 = [] := by
        refine eq_nil_iff_forall_not_mem.mpr fun t ht => ?_
        obtain ⟨u, hu, -⟩ := (hout2 t).mp ht
        rw [hnil] at hu
        cases hu
      refine ⟨out2, h1.bind ?_, hmem⟩
      rw [hout, hnil]
      exact .const _
    · refine ⟨out2, h1.bind ?_, hmem⟩
      simp only [if_neg hnil]
      exact h2

lemma mem_addStacks (rest : GrammarStacks) : ∀ {newStacks : GrammarStacks},
    t ∈ addStacks newStacks rest ↔ t ∈ newStacks ∨ t ∈ rest := by
  induction rest with
  | nil => simp [addStacks]
  | cons s rest ih =>
    intro newStacks
    rw [addStacks, ih, mem_cons]
    split
    · rename_i hs
      constructor
      · exact fun h => h.imp_right .inr
      · rintro (h | rfl | h)
        exacts [.inl h, .inl hs, .inr h]
    · rw [mem_append, mem_singleton, or_assoc]

/-- A token takes one stack to another, as a whole or by its code points. -/
def Takes (rules : GrammarRules) (token : ℕ) (cs : List ℕ) (s t : GrammarStack) : Prop :=
  ∃ pos stack, s = pos :: stack ∧ if isToken (element rules pos) = true then
      matchToken (element rules pos) token = true ∧
        Kept rules (pushUnlessEnd rules (advancePtr pos 1) stack) t
    else Follows rules s cs t

lemma Takes.expanded (hvalid : Valid (encode G)) {token : ℕ} (h : Takes (encode G) token cs s t)
    (hexp : Expanded G s) : Expanded G t := by
  obtain ⟨pos, stack, rfl, h⟩ := h
  obtain ⟨s, ss, hat, hs | ⟨inverse, id, rfl⟩⟩ := hexp.top
  · rw [if_neg (by rw [hat.isToken_of_isChar hs]; exact Bool.false_ne_true)] at h
    exact h.expanded hvalid hexp
  · rw [if_pos hat.isToken_of_token] at h
    exact h.2.expanded hvalid (hexp.2.tail.push hat.tail)

section

include hvalid hleft

lemma acceptTokenStack_spec (token : ℕ) (cs : List ℕ) (hexp : Expanded G s)
    (newStacks : GrammarStacks) :
    ∃ out, Exec.Settles (fun n => acceptTokenStack n (encode G) token cs s newStacks) (.ok out) ∧
      ∀ t, t ∈ out ↔ t ∈ newStacks ∨ Takes (encode G) token cs s t := by
  cases s with
  | nil =>
    refine ⟨newStacks, .const _, fun t => (or_iff_left ?_).symm⟩
    rintro ⟨pos, stack, heq, -⟩
    cases heq
  | cons pos stack =>
    have htakes : ∀ t, Takes (encode G) token cs (pos :: stack) t ↔
        if isToken (element (encode G) pos) = true then
          matchToken (element (encode G) pos) token = true ∧
            Kept (encode G) (pushUnlessEnd (encode G) (advancePtr pos 1) stack) t
        else Follows (encode G) (pos :: stack) cs t := by
      intro t
      constructor
      · rintro ⟨pos', stack', heq, h⟩
        cases heq
        exact h
      · exact fun h => ⟨pos, stack, rfl, h⟩
    simp only [htakes, acceptTokenStack]
    obtain ⟨s, ss, hat, hs | ⟨inverse, id, rfl⟩⟩ := hexp.top
    · have hchar : ¬ isToken (element (encode G) pos) = true := by
        rw [hat.isToken_of_isChar hs]
        exact Bool.false_ne_true
      obtain ⟨out, h, hout⟩ := acceptCodePoints_spec hvalid hleft cs
        fun s (hs : s ∈ [pos :: stack]) => mem_singleton.mp hs ▸ hexp
      simp only [if_neg hchar]
      refine ⟨addStacks newStacks out, h.bind (.const _), fun t => ?_⟩
      rw [mem_addStacks, hout]
      simp
    · simp only [if_pos hat.isToken_of_token]
      cases matchToken (element (encode G) pos) token with
      | true =>
        simp only [true_and]
        exact advanceStack_spec hvalid hleft (hexp.2.tail.push hat.tail) newStacks
      | false =>
        simp only [Bool.false_eq_true, false_and, or_false]
        exact ⟨newStacks, .const _, fun t => .rfl⟩

lemma acceptTokenLoop_spec (token : ℕ) (cs : List ℕ) : ∀ {current : GrammarStacks}
    (newStacks : GrammarStacks), (∀ s ∈ current, Expanded G s) →
      ∃ out, Exec.Settles (fun n => acceptTokenLoop n (encode G) token cs current newStacks)
          (.ok out) ∧
        ∀ t, t ∈ out ↔ t ∈ newStacks ∨ ∃ s ∈ current, Takes (encode G) token cs s t := by
  intro current
  induction current with
  | nil => exact fun newStacks _ => ⟨newStacks, .const _, by simp⟩
  | cons s current ih =>
    intro newStacks hexp
    obtain ⟨out1, h1, hout1⟩ := acceptTokenStack_spec hvalid hleft token cs
      (hexp s mem_cons_self) newStacks
    obtain ⟨out2, h2, hout2⟩ := ih out1 fun t ht => hexp t (mem_cons_of_mem _ ht)
    refine ⟨out2, h1.bind h2, fun t => ?_⟩
    rw [hout2, hout1]
    simp only [mem_cons, exists_eq_or_imp, or_assoc]

end

/-! ## Reachable states -/

/-- What holds of a grammar in use: its stacks are expanded, and there is one. -/
structure Sound (G : List Rule) (st : State) : Prop where
  rules : st.rules = encode G
  expanded : ∀ s ∈ st.current, Expanded G s
  ne : st.current ≠ []

/-- The code points of a piece in a state. -/
def State.codePoints (st : State) (piece : List UInt8) : List ℕ :=
  (decodeUtf8 piece st.partialUtf8).1.dropLast

/-- The code points of the piece lead from one of the stacks to another. -/
def State.Takes (st : State) (token : ℕ) (piece : List UInt8) : Prop :=
  ∃ s ∈ st.current, ∃ t, Grammar.Takes st.rules token (st.codePoints piece) s t

lemma acceptToken_eq (n token : ℕ) (piece : List UInt8) (st : State) :
    acceptToken n token piece st = do
      let current ← acceptTokenLoop n st.rules token (st.codePoints piece) st.current []
      if current = [] then .thrown
      else return { st with
        current := current, partialUtf8 := (decodeUtf8 piece st.partialUtf8).2 } := rfl

section

include hvalid hleft

/-- **Accepting a token** throws exactly when it takes no stack to another. -/
theorem acceptToken_spec (hst : Sound G st) (token : ℕ) (piece : List UInt8) :
    (st.Takes token piece ∧ ∃ st', Sound G st' ∧
      Exec.Settles (fun n => acceptToken n token piece st) (.ok st')) ∨
    ¬ st.Takes token piece ∧ Exec.Settles (fun n => acceptToken n token piece st) .thrown := by
  obtain ⟨out, h, hout⟩ := acceptTokenLoop_spec hvalid hleft token (st.codePoints piece) []
    hst.expanded
  simp only [not_mem_nil, false_or] at hout
  have htakes : st.Takes token piece ↔ ∃ t, t ∈ out := by
    rw [State.Takes, hst.rules]
    constructor
    · rintro ⟨s, hs, t, ht⟩
      exact ⟨t, (hout t).mpr ⟨s, hs, ht⟩⟩
    · rintro ⟨t, ht⟩
      obtain ⟨s, hs, ht⟩ := (hout t).mp ht
      exact ⟨s, hs, t, ht⟩
  rw [← hst.rules] at h
  by_cases hnil : out = []
  · refine .inr ⟨by simp [htakes, hnil], .congr (h.bind ?_) fun n => acceptToken_eq n _ _ _⟩
    simp only [if_pos hnil]
    exact .const _
  · refine .inl ⟨htakes.mpr (exists_mem_of_ne_nil out hnil),
      { st with current := out, partialUtf8 := (decodeUtf8 piece st.partialUtf8).2 },
      ⟨hst.rules, fun t ht => ?_, hnil⟩, .congr (h.bind ?_) fun n => acceptToken_eq n _ _ _⟩
    · obtain ⟨s, hs, ht⟩ := (hout t).mp ht
      exact ht.expanded hvalid (hst.expanded s hs)
    · simp only [if_neg hnil]
      exact .const _

lemma Sound.acceptToken {st' : State} (hst : Sound G st) {n token : ℕ} {piece : List UInt8}
    (h : acceptToken n token piece st = .ok st') : Sound G st' := by
  rcases acceptToken_spec hvalid hleft hst token piece with ⟨-, st'', hst'', hs⟩ | ⟨-, hs⟩
  · cases hs.eq_of_ok h
    exact hst''
  · cases hs.eq_of_ok h

lemma Sound.replayTokens {n start : ℕ} {st' : State} (positions : List (ℕ × ℕ × ℕ)) :
    ∀ {st : State}, Sound G st → replayTokens n start positions st = .ok st' → Sound G st' := by
  induction positions with
  | nil =>
    rintro st hst ⟨⟩
    exact hst
  | cons position positions ih =>
    intro st hst h
    rw [Grammar.replayTokens] at h
    split at h
    · exact ih hst h
    · obtain ⟨st1, h1, h2⟩ := Exec.bind_eq_ok.mp h
      exact ih (hst.acceptToken hvalid hleft h1) h2

/-- One token. -/
lemma Sound.acceptImpl {vocab : Vocab} {n token : ℕ} {st' : State} (hst : Sound G st)
    (h : acceptImpl n vocab token st = .ok st') : Sound G st' := by
  rw [Grammar.acceptImpl] at h
  split at h
  · split at h
    · have hst' : Sound G { st with awaitingTrigger := false, triggerBuffer := [] } :=
        ⟨hst.rules, hst.expanded, hst.ne⟩
      exact hst'.acceptToken hvalid hleft h
    · dsimp only at h
      split at h
      · cases h
        exact ⟨hst.rules, hst.expanded, hst.ne⟩
      · obtain ⟨st1, h1, h2⟩ := Exec.bind_eq_ok.mp h
        cases h2
        have hst1 := Sound.replayTokens hvalid hleft _ (by exact ⟨hst.rules, hst.expanded, hst.ne⟩) h1
        exact ⟨hst1.rules, hst1.expanded, hst1.ne⟩
  · split at h
    · split at h
      · cases h
        exact hst
      · cases h
    · exact hst.acceptToken hvalid hleft h

end

/-- The state that `init_impl` returns. -/
lemma Sound.init {n start : ℕ} {isLazy : Bool} {triggerTokens : List ℕ}
    {triggerPatterns : List (List UInt8 → Option ℕ)}
    (h : initImpl n (encode G) start isLazy triggerTokens triggerPatterns = .ok (some st))
    (hleft : ¬ LeftRecursive (encode G)) : Valid (encode G) ∧ Sound G st := by
  obtain ⟨res, hinit, h⟩ := Exec.bind_eq_ok.mp h
  cases res with
  | none => cases h
  | some res =>
    obtain ⟨rules, current⟩ := res
    cases h
    obtain ⟨hvalid, -, hrules, hstart, hstacks⟩ := valid_of_initRules hinit
    have hcopy : rules = encode G := by
      rw [hrules, encode, map_map]
      exact map_congr_left fun rule _ => copyRule_elements rule
    subst hcopy
    have hmem := initStacks_spec n (encode G) hstacks
    simp only [not_mem_nil, false_or] at hmem
    have hlt : start < G.length := by simpa [encode] using hstart
    have hformed : ∀ pos ∈ alternates (encode G) start,
        Formed G (pushUnlessEnd (encode G) pos []) := by
      intro pos hpos
      obtain ⟨a, -, hat⟩ := at_of_mem_alternates (getElem?_eq_getElem hlt) hpos
      exact Formed.nil.push hat
    refine ⟨hvalid, rfl, fun t ht => ?_, ?_⟩
    · obtain ⟨pos, hpos, hkept⟩ := (hmem t).mp ht
      exact hkept.expanded hvalid (hformed pos hpos)
    · have hfirst : (start, 0) ∈ alternates (encode G) start := by simp [alternates]
      obtain ⟨t, ht⟩ := exists_kept hvalid hleft (hformed _ hfirst)
      exact ne_nil_of_mem ((hmem t).mpr ⟨_, hfirst, ht⟩)

/-- All states of a run. -/
lemma Reachable.sound (hleft : ¬ LeftRecursive (encode G)) {vocab : Vocab} {start : ℕ}
    (h : Reachable vocab (encode G) start st) : Valid (encode G) ∧ Sound G st := by
  induction h with
  | init h => exact Sound.init h hleft
  | accept _ h ih => exact ⟨ih.1, ih.2.acceptImpl ih.1 hleft h⟩

/-! ## Passing and being accepted -/

/-- A stack with an element on top that matches the token. -/
def OnToken (rules : GrammarRules) (token : ℕ) (s : GrammarStack) : Prop :=
  ∃ pos stack, s = pos :: stack ∧ isToken (element rules pos) = true ∧
    matchToken (element rules pos) token = true

/-- The code points of a candidate that passes lead to a stack, or to a token element before
they end. -/
lemma follows_of_passes (cs : List ℕ) :
    ∀ {s : GrammarStack}, 0 ∉ cs → Passes rules id utf8 s (cs ++ [0]) →
      (∃ t, Follows rules s cs t) ∨
      ∃ us vs t, cs = us ++ vs ∧ vs ≠ [] ∧ Follows rules s us t ∧ OnToken rules id t := by
  induction cs with
  | nil => exact fun {s} _ _ => .inl ⟨s, .nil⟩
  | cons c cs ih =>
    intro s hzero h
    have hc : c ≠ 0 := fun h => hzero (h ▸ mem_cons_self)
    cases h with
    | empty hend => exact absurd hend hc
    | tokenEnd _ hend => exact absurd hend hc
    | token htoken _ hmatch =>
      exact .inr ⟨[], c :: cs, _, rfl, cons_ne_nil _ _, .nil, _, _, rfl, htoken, hmatch⟩
    | charEnd _ hend => exact absurd hend hc
    | char _ hsucc hrest =>
      rcases ih (fun h => hzero (mem_cons_of_mem _ h)) hrest with
        ⟨t, ht⟩ | ⟨us, vs, t, rfl, hvs, hus, ht⟩
      · exact .inl ⟨t, .cons hsucc ht⟩
      · exact .inr ⟨c :: us, vs, t, rfl, hvs, .cons hsucc hus, ht⟩

/-- Any stack lets a candidate pass that is at its end. -/
lemma passes_end (hutf8 : utf8.nRemain = 0) (s : GrammarStack) (hend : cs.headD 0 = 0) :
    Passes rules id utf8 s cs := by
  cases s with
  | nil => exact .empty hend hutf8
  | cons pos stack =>
    cases htoken : isToken (element rules pos) with
    | true => exact .tokenEnd htoken hend hutf8
    | false => exact .charEnd htoken hend (.inl hutf8)

lemma passes_of_follows (hutf8 : utf8.nRemain = 0) (h : Follows rules s cs t) :
    Passes rules id utf8 s (cs ++ [0]) := by
  induction h with
  | nil => exact passes_end hutf8 _ rfl
  | @cons c cs s t u hsucc _ ih =>
    by_cases hc : c = 0
    · exact passes_end hutf8 _ hc
    · exact .char hc hsucc ih

/-- A complete token that a stack takes passes on it. -/
lemma passes_of_takes (hutf8 : utf8.nRemain = 0) (h : Takes rules id cs s t) :
    Passes rules id utf8 s (cs ++ [0]) := by
  obtain ⟨pos, stack, rfl, h⟩ := h
  split at h
  · rename_i htoken
    by_cases hend : (cs ++ [0]).headD 0 = 0
    · exact passes_end hutf8 _ hend
    · exact .token htoken hend h.1
  · exact passes_of_follows hutf8 h

/-- A token that passes on a stack is taken from it, unless its code points lead to a token
element before they end. -/
lemma takes_of_passes (hvalid : Valid (encode G)) (hleft : ¬ LeftRecursive (encode G))
    (hexp : Expanded G s) (hzero : 0 ∉ cs) (hcs : utf8.nRemain = 0 → cs ≠ [])
    (h : Passes (encode G) id utf8 s (cs ++ [0])) :
    (∃ t, Takes (encode G) id cs s t) ∨ ∃ us vs t, cs = us ++ vs ∧ us ≠ [] ∧ vs ≠ [] ∧
      Follows (encode G) s us t ∧ OnToken (encode G) id t := by
  -- a candidate that is complete has not ended
  have hend : utf8.nRemain = 0 → (cs ++ [0]).headD 0 ≠ 0 := by
    intro hrem
    obtain ⟨c, cs, rfl⟩ := exists_cons_of_ne_nil (hcs hrem)
    exact fun h => hzero (h ▸ mem_cons_self)
  cases s with
  | nil =>
    exfalso
    cases cs with
    | nil =>
      cases h with
      | empty _ hrem => exact hend hrem rfl
      | char hc => exact hc rfl
    | cons c cs =>
      cases h with
      | empty hzero' hrem => exact hend hrem hzero'
      | char _ hsucc => exact not_succ_nil hsucc
  | cons pos stack =>
    obtain ⟨s, ss, hat, hs | ⟨inverse, i, rfl⟩⟩ := hexp.top
    · have hchar : ¬ isToken (element (encode G) pos) = true := by
        rw [hat.isToken_of_isChar hs]
        exact Bool.false_ne_true
      rcases follows_of_passes cs hzero h with ⟨t, ht⟩ | ⟨us, vs, t, rfl, hvs, hus, ht⟩
      · exact .inl ⟨t, pos, stack, rfl, by rwa [if_neg hchar]⟩
      · refine .inr ⟨us, vs, t, rfl, ?_, hvs, hus, ht⟩
        rintro rfl
        obtain ⟨pos', stack', rfl, htoken, -⟩ := ht
        cases hus
        exact hchar htoken
    · have htoken := hat.isToken_of_token
      obtain ⟨t, ht⟩ := exists_kept hvalid hleft (hexp.2.tail.push hat.tail)
      have hmatch : matchToken (element (encode G) pos) id = true := by
        generalize hcs' : cs ++ [0] = cs' at h hend
        cases h with
        | tokenEnd _ hzero' hrem => exact absurd hzero' (hend hrem)
        | token _ _ hmatch => exact hmatch
        | charEnd hchar => rw [htoken] at hchar; cases hchar
        | char _ hsucc => exact absurd hsucc (not_succ_token hat)
      exact .inl ⟨t, pos, stack, rfl, by rw [if_pos htoken]; exact ⟨hmatch, ht⟩⟩

/-! ## Masked tokens -/

/-- The tokens that `apply_impl` masks before it looks at the stacks. -/
def State.MaskedAtOnce (st : State) (vocab : Vocab) (id : ℕ) : Prop :=
  if vocab.isEog id = true then [] ∉ st.current else (vocab.tokenToPiece id).headD 0 = 0

/-- The candidate for a token. -/
def State.candidate (st : State) (vocab : Vocab) (i id : ℕ) : Candidate :=
  ⟨i, (decodeUtf8 (vocab.tokenToPiece id) st.partialUtf8).1, 0,
    (decodeUtf8 (vocab.tokenToPiece id) st.partialUtf8).2, id⟩

/-- The tokens that `apply_impl` masks. -/
def State.Masked (st : State) (vocab : Vocab) (id : ℕ) : Prop :=
  st.MaskedAtOnce vocab id ∨ vocab.isEog id = false ∧
    ∀ s ∈ st.current, ¬ (st.candidate vocab 0 id).Passes st.rules s

instance (st : State) (vocab : Vocab) (id : ℕ) : Decidable (st.MaskedAtOnce vocab id) :=
  decidable_of_iff (if vocab.isEog id = true then st.current.all (! ·.isEmpty) = true
    else (vocab.tokenToPiece id).headD 0 = 0) (by
      unfold State.MaskedAtOnce
      split
      · rw [List.all_eq_true]
        refine ⟨fun h hmem => by simpa using h [] hmem, fun h x hx => ?_⟩
        cases x with
        | nil => exact absurd hx h
        | cons p ps => rfl
      · rfl)

lemma collectCandidates_cons (vocab : Vocab) (st : State) (id : ℕ) (ids : List ℕ) (i : ℕ) :
    collectCandidates vocab st (id :: ids) i =
      let (masked, candidates) := collectCandidates vocab st ids (i + 1)
      (if st.MaskedAtOnce vocab id then i :: masked else masked,
        if vocab.isEog id = false ∧ ¬ st.MaskedAtOnce vocab id then
          st.candidate vocab i id :: candidates else candidates) := by
  rw [collectCandidates]
  cases hrest : collectCandidates vocab st ids (i + 1) with
  | mk masked candidates =>
    cases heog : vocab.isEog id with
    | true =>
      by_cases hmem : [] ∈ st.current
      · simp [State.MaskedAtOnce, heog]
      · simp [State.MaskedAtOnce, heog]
    | false =>
      cases hpiece : vocab.tokenToPiece id with
      | nil => simp [State.MaskedAtOnce, heog, hpiece]
      | cons b bs =>
        by_cases hb : b = 0
        · simp [State.MaskedAtOnce, heog, hpiece, hb]
        · simp [State.MaskedAtOnce, heog, hpiece, hb, State.candidate]

lemma collectCandidates_spec (vocab : Vocab) (st : State) (ids : List ℕ) : ∀ i : ℕ,
    (∀ j, j ∈ (collectCandidates vocab st ids i).1 ↔
      ∃ k id, ids[k]? = some id ∧ j = i + k ∧ st.MaskedAtOnce vocab id) ∧
    ∀ tok, tok ∈ (collectCandidates vocab st ids i).2 ↔ ∃ k id, ids[k]? = some id ∧
      tok = st.candidate vocab (i + k) id ∧ vocab.isEog id = false ∧
        ¬ st.MaskedAtOnce vocab id := by
  induction ids with
  | nil => exact fun i => ⟨by simp [collectCandidates], by simp [collectCandidates]⟩
  | cons id ids ih =>
    intro i
    obtain ⟨hmasked, hcands⟩ := ih (i + 1)
    -- an index of the whole list is the first one or one of the rest
    have hsplit : ∀ P : ℕ → ℕ → Prop, (∃ k id', (id :: ids)[k]? = some id' ∧ P (i + k) id') ↔
        P i id ∨ ∃ k id', ids[k]? = some id' ∧ P (i + 1 + k) id' := by
      intro P
      constructor
      · rintro ⟨_ | k, id', hid, h⟩
        · cases hid
          exact .inl h
        · exact .inr ⟨k, id', hid, by rwa [add_assoc, add_comm 1]⟩
      · rintro (h | ⟨k, id', hid, h⟩)
        · exact ⟨0, id, rfl, h⟩
        · exact ⟨k + 1, id', hid, by rwa [add_assoc, add_comm 1] at h⟩
    rw [collectCandidates_cons]
    refine ⟨fun j => ?_, fun tok => ?_⟩
    · rw [hsplit fun i' id => j = i' ∧ st.MaskedAtOnce vocab id, ← hmasked]
      by_cases h : st.MaskedAtOnce vocab id
      · simp [h]
      · simp [h]
    · rw [hsplit fun i' id => tok = st.candidate vocab i' id ∧ vocab.isEog id = false ∧
        ¬ st.MaskedAtOnce vocab id, ← hcands]
      by_cases h : vocab.isEog id = false ∧ ¬ st.MaskedAtOnce vocab id
      · simp [h]
      · simp only [if_neg h, iff_or_self]
        exact fun h' => absurd h'.2 h

/-- A candidate passes whatever its index is. -/
lemma passes_candidate {vocab : Vocab} {i : ℕ} :
    (st.candidate vocab i id).Passes rules s ↔ Passes rules id
      (decodeUtf8 (vocab.tokenToPiece id) st.partialUtf8).2 s
      (decodeUtf8 (vocab.tokenToPiece id) st.partialUtf8).1 := Iff.rfl

lemma exists_deep (candidates : List Candidate) : ∃ depth, Deep (depth + 1) candidates := by
  induction candidates with
  | nil => exact ⟨0, fun tok htok => absurd htok not_mem_nil⟩
  | cons tok toks ih =>
    obtain ⟨depth, h⟩ := ih
    refine ⟨max depth (tok.remaining.length + 1), fun t ht => ?_⟩
    rcases mem_cons.mp ht with rfl | ht
    · exact Nat.succ_le_succ (le_max_right _ _)
    · exact (h t ht).trans (Nat.succ_le_succ (le_max_left _ _))

/-- **The tokens masked.** -/
theorem applyImpl_spec (hvalid : Valid (encode G)) (hleft : ¬ LeftRecursive (encode G))
    (vocab : Vocab) (hst : Sound G st) (hawait : st.awaitingTrigger = false) (ids : List ℕ) :
    ∃ masked, (∃ k, ∀ n ≥ k, applyImpl n vocab st ids = .ok masked) ∧
      ∀ i id, ids[i]? = some id → (i ∈ masked ↔ st.Masked vocab id) := by
  cases hcollect : collectCandidates vocab st ids 0 with
  | mk masked candidates =>
    obtain ⟨hmasked, hcands⟩ := collectCandidates_spec vocab st ids 0
    simp only [hcollect, zero_add] at hmasked hcands
    obtain ⟨depth, hdeep⟩ := exists_deep candidates
    obtain ⟨k, rejects, hk, hrejects⟩ :=
      rejectCandidates_spec hvalid hleft depth st.current candidates hst.ne hst.expanded hdeep
    rw [← hst.rules] at hk hrejects
    refine ⟨masked ++ rejects.map Candidate.index, ⟨max k (depth + 1), fun n hn => ?_⟩,
      fun i id hid => ?_⟩
    · have hn1 := le_trans (le_max_left _ _) hn
      have hn2 := le_trans (le_max_right _ _) hn
      simp [applyImpl, hawait, hcollect, hk n hn1 n hn2]
    · have hat : i ∈ masked ↔ st.MaskedAtOnce vocab id := by
        rw [hmasked]
        constructor
        · rintro ⟨j, id', hid', rfl, h⟩
          rw [hid] at hid'
          cases hid'
          exact h
        · exact fun h => ⟨i, id, hid, rfl, h⟩
      have hrej : i ∈ rejects.map Candidate.index ↔ vocab.isEog id = false ∧
          ¬ st.MaskedAtOnce vocab id ∧
            ∀ s ∈ st.current, ¬ (st.candidate vocab 0 id).Passes st.rules s := by
        rw [mem_map]
        constructor
        · rintro ⟨tok, htok, rfl⟩
          obtain ⟨hmem, hno⟩ := (hrejects tok).mp htok
          obtain ⟨j, id', hid', rfl, heog, hat⟩ := (hcands tok).mp hmem
          have hid : ids[j]? = some id := hid
          rw [hid] at hid'
          cases hid'
          exact ⟨heog, hat, hno⟩
        · rintro ⟨heog, hat, hno⟩
          exact ⟨st.candidate vocab i id, (hrejects _).mpr ⟨(hcands _).mpr
            ⟨i, id, hid, rfl, heog, hat⟩, hno⟩, rfl⟩
      rw [mem_append, hat, hrej, State.Masked]
      by_cases h : st.MaskedAtOnce vocab id
      · simp [h]
      · simp [h]

/-- The token is refused. -/
def Refused {α : Type} (x : Exec α) : Prop := x = .thrown ∨ x = .aborted

/-- A token element that matches is met behind code points of the piece, with some left. -/
def State.MeetsToken (st : State) (token : ℕ) (piece : List UInt8) : Prop :=
  ∃ s ∈ st.current, ∃ us vs t, st.codePoints piece = us ++ vs ∧ us ≠ [] ∧ vs ≠ [] ∧
    Follows st.rules s us t ∧ OnToken st.rules token t

/-- **Masking and acceptance agree.**  A token that is not masked is accepted, unless a code
point of it is `0` or a token element that matches it is met behind some of its code points.
A token that is masked is refused, if it ends the generation or its piece is a whole number
of code points and does not start with `0`. -/
theorem applyImpl_acceptImpl {vocab : Vocab} {start : ℕ} {st : State}
    (hleft : ¬ LeftRecursive (encode G)) (hst : Reachable vocab (encode G) start st)
    (hawait : st.awaitingTrigger = false) (ids : List ℕ) :
    ∃ masked, (∃ k, ∀ n ≥ k, applyImpl n vocab st ids = .ok masked) ∧ ∀ i id, ids[i]? = some id →
        (i ∉ masked → vocab.isEog id = false → 0 ∉ st.codePoints (vocab.tokenToPiece id) →
          ¬ st.MeetsToken id (vocab.tokenToPiece id) →
            ∃ st', st'.current ≠ [] ∧ ∃ k, ∀ n ≥ k, acceptImpl n vocab id st = .ok st') ∧
        (i ∈ masked → vocab.isEog id = true ∨ (vocab.tokenToPiece id).headD 0 ≠ 0 ∧
            (decodeUtf8 (vocab.tokenToPiece id) st.partialUtf8).2.nRemain = 0 →
          ∃ k, ∀ n ≥ k, Refused (acceptImpl n vocab id st)) := by
  obtain ⟨hvalid, hsound⟩ := hst.sound hleft
  obtain ⟨masked, happly, hmasked⟩ := applyImpl_spec hvalid hleft vocab hsound hawait ids
  refine ⟨masked, happly, fun i id hid => ⟨fun hi heog hzero hmeets => ?_, fun hi hid' => ?_⟩⟩
  · have haccept : ∀ n, acceptImpl n vocab id st = acceptToken n id (vocab.tokenToPiece id) st := by
      simp [acceptImpl, hawait, heog]
    rw [hmasked i id hid, State.Masked, not_or, State.MaskedAtOnce, heog] at hi
    obtain ⟨hpiece, hpass⟩ := hi
    obtain ⟨cps, utf8, hdecode, hne⟩ := decodeUtf8_ne_nil hpiece st.partialUtf8
    have hcps : st.codePoints (vocab.tokenToPiece id) = cps := by
      rw [State.codePoints, hdecode, List.dropLast_concat]
    rw [hcps] at hzero
    simp only [passes_candidate, hdecode, true_and, not_forall, not_not] at hpass
    obtain ⟨s, hs, hpass⟩ := hpass
    rw [hsound.rules] at hpass
    have htakes : st.Takes id (vocab.tokenToPiece id) := by
      rcases takes_of_passes hvalid hleft (hsound.expanded s hs) hzero hne hpass with
        ⟨t, ht⟩ | ⟨us, vs, t, heq, hus, hvs, hfollows, ht⟩
      · exact ⟨s, hs, t, by rwa [hsound.rules, hcps]⟩
      · refine absurd ⟨s, hs, us, vs, t, hcps.trans heq, hus, hvs, ?_⟩ hmeets
        rw [hsound.rules]
        exact ⟨hfollows, ht⟩
    rcases acceptToken_spec hvalid hleft hsound id (vocab.tokenToPiece id) with
      ⟨-, st', hst', h⟩ | ⟨hno, -⟩
    · exact ⟨st', hst'.ne, (h.congr haccept).eventually⟩
    · exact absurd htakes hno
  · rw [hmasked i id hid, State.Masked, State.MaskedAtOnce] at hi
    cases heog : vocab.isEog id with
    | true =>
      have hmem : [] ∉ st.current := by simpa [heog] using hi
      exact ⟨0, fun n _ => .inr (by simp [acceptImpl, hawait, heog, hmem])⟩
    | false =>
      obtain ⟨hpiece, hrem⟩ := hid'.resolve_left (by simp [heog])
      rw [heog] at hi
      have hpass := (hi.resolve_left hpiece).2
      have haccept : ∀ n, acceptImpl n vocab id st =
          acceptToken n id (vocab.tokenToPiece id) st := by
        simp [acceptImpl, hawait, heog]
      rcases acceptToken_spec hvalid hleft hsound id (vocab.tokenToPiece id) with
        ⟨⟨s, hs, t, ht⟩, -⟩ | ⟨-, h⟩
      · obtain ⟨cps, utf8, hdecode, -⟩ := decodeUtf8_ne_nil hpiece st.partialUtf8
        rw [State.codePoints, hdecode, List.dropLast_concat] at ht
        rw [hdecode] at hrem
        refine absurd ?_ (hpass s hs)
        rw [passes_candidate, hdecode]
        exact passes_of_takes hrem ht
      · obtain ⟨k, hk⟩ := (h.congr haccept).eventually
        exact ⟨k, fun n hn => .inl (hk n hn)⟩

/-- `root ::= "a" <[7]>`. -/
def letterToken : List Rule := [⟨[.chars false ⟨97, none⟩ [], .token false 7], []⟩]

/-- A vocabulary with an empty piece and the pieces `"ab"` and `"a"`. -/
def someVocab : Vocab where
  tokenToPiece id := if id = 5 then [] else if id = 7 then [97, 98] else [97]
  isEog id := id = 0

/-- The first state of the grammar. -/
def letterState : State :=
  ⟨encode letterToken, [[(0, 0)]], ⟨0, 0⟩, false, [], [], [], []⟩

lemma reachable_letterState : Reachable someVocab (encode letterToken) 0 letterState := by
  have hinit : initImpl 2 (encode letterToken) 0 false [] [] = .ok (some letterState) := by
    rfl
  exact .init hinit

theorem applyImpl_acceptImpl_letter :
    ∃ masked, (∃ k, ∀ n ≥ k, applyImpl n someVocab letterState [0, 1] = .ok masked) ∧
      ∀ i id, [0, 1][i]? = some id → (i ∉ masked → someVocab.isEog id = false →
          0 ∉ letterState.codePoints (someVocab.tokenToPiece id) →
          ¬ letterState.MeetsToken id (someVocab.tokenToPiece id) → ∃ st', st'.current ≠ [] ∧
              ∃ k, ∀ n ≥ k, acceptImpl n someVocab id letterState = .ok st') ∧
        (i ∈ masked → someVocab.isEog id = true ∨ (someVocab.tokenToPiece id).headD 0 ≠ 0 ∧
            (decodeUtf8 (someVocab.tokenToPiece id) letterState.partialUtf8).2.nRemain = 0 →
          ∃ k, ∀ n ≥ k, Refused (acceptImpl n someVocab id letterState)) :=
  applyImpl_acceptImpl (not_leftRecursive_of_starts (by decide)) reachable_letterState rfl [0, 1]

/-- Token `7` is not masked, but an exception is thrown when it is accepted; token `5`, with
an empty piece, is masked, but would be accepted. -/
theorem applyImpl_letterToken : Reachable someVocab (encode letterToken) 0 letterState ∧
      applyImpl 9 someVocab letterState [7, 5] = .ok [1] ∧
      acceptImpl 9 someVocab 7 letterState = .thrown ∧
      ∃ st', acceptImpl 9 someVocab 5 letterState = .ok st' ∧ st'.current ≠ [] := by
  refine ⟨reachable_letterState, by decide +kernel, rfl, _, rfl, ?_⟩
  exact List.cons_ne_nil _ _

end Llama.Grammar
