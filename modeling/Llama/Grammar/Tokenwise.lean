import Llama.Grammar.Mask
import Llama.Lib.Collect

/-!
# Stack by stack and character by character

A token is accepted one stack at a time, each of them with all code points of the piece, and
the stacks found are merged at the end.  A piece of text is accepted one code point at a
time by all stacks.  Both loops take the same steps, and where no element of the grammar is a
token they find the same stacks.

The one difference is the empty piece: it leaves the empty stack to the piece of text, but
not to the token.
-/

namespace Llama.Grammar

open Exec

variable {rules : GrammarRules}

/-- No element of the rules is a token. -/
def NoTokens (rules : GrammarRules) : Prop := ∀ rule ∈ rules, ∀ e ∈ rule, isToken e = false

lemma NoTokens.element (h : NoTokens rules) (pos : ElementPtr) :
    isToken (element rules pos) = false := by
  rw [Grammar.element]
  cases hs : suffix rules pos with
  | nil => rfl
  | cons e es =>
    have he : e ∈ rules.getD pos.1 [] := List.mem_of_mem_drop (hs ▸ List.mem_cons_self)
    cases hrule : rules[pos.1]? with
    | none =>
      rw [List.getD_eq_getElem?_getD, hrule] at he
      cases he
    | some rule =>
      rw [List.getD_eq_getElem?_getD, hrule] at he
      exact h rule (List.mem_of_getElem? hrule) e he

/-- `accept_chr` returns for the stack. -/
def ReturnsChr (rules : GrammarRules) (c : ℕ) (s : GrammarStack) : Prop :=
  ∃ n out, acceptChr n rules s c [] = .ok out

/-- `match_char` returns or fails its assertion, which does not hold for a token. -/
lemma matchChar_cases (rules : GrammarRules) (pos : ElementPtr) (c : ℕ) :
    matchChar rules pos c = .aborted ∨
      isToken (element rules pos) = false ∧ ∃ res, matchChar rules pos c = .ok res := by
  rw [matchChar, Exec.assert]
  split
  · rename_i htype
    simp only [isPositiveChar, Bool.or_eq_true, decide_eq_true_eq] at htype
    rcases htype with (h | h) | h <;> simp [isToken, h]
  · exact .inl rfl

/-- What is collected for a stack is what the character leads to. -/
lemma acceptChr_collects (c : ℕ) (s : GrammarStack) (found : GrammarStacks) :
    Collects (fun n => acceptChr n rules s c found) (ReturnsChr rules c s)
      fun t => t ∈ found ∨ Succ rules c s t := by
  rw [ReturnsChr]
  cases s with
  | nil =>
    refine (Collects.const found).congr (fun n => rfl) ?_ fun t => ?_
    · exact ⟨fun _ => ⟨0, [], rfl⟩, fun _ => trivial⟩
    · rw [or_iff_left not_succ_nil]
  | cons pos stack =>
    have hsucc : ∀ t, Succ rules c (pos :: stack) t ↔
        ∃ next, matchChar rules pos c = .ok (true, next) ∧
          Kept rules (pushUnlessEnd rules next stack) t := by
      intro t
      constructor
      · rintro ⟨pos', stack', next, heq, hmatch, hkept⟩
        cases heq
        exact ⟨next, hmatch, hkept⟩
      · rintro ⟨next, hmatch, hkept⟩
        exact ⟨pos, stack, next, rfl, hmatch, hkept⟩
    simp only [acceptChr, hsucc]
    rcases matchChar_cases rules pos c with habort | ⟨htoken, ⟨matched, next⟩, hmatch⟩
    · simp only [habort]
      cases isToken (element rules pos) with
      | true => exact (Collects.const found).congr (fun n => rfl) (by simp) (by simp)
      | false =>
        exact (Collects.abort _).congr (fun n => rfl) (by simp) fun t => Iff.rfl
    · simp only [htoken, hmatch]
      cases matched with
      | false => exact (Collects.const found).congr (fun n => rfl) (by simp) (by simp)
      | true =>
        refine (Collects.search (pushUnlessEnd rules next stack) found).congr (fun n => rfl)
          Iff.rfl fun t => ?_
        simp [Kept]

/-- The loop over the stacks. -/
lemma accept_collects (c : ℕ) (current : GrammarStacks) :
    Collects (fun n => accept n rules current c) (∀ s ∈ current, ReturnsChr rules c s)
      fun t => ∃ s ∈ current, Succ rules c s t := by
  have hloop := Collects.loop (fun n s found => acceptChr n rules s c found)
    (fun n => acceptLoop n rules c) (fun _ _ => rfl) (fun _ _ _ _ => rfl)
    (acceptChr_collects c) current []
  exact hloop.congr (fun _ => rfl) Iff.rfl (by simp)

/-! ## The code points of a piece -/

/-- `accept_chr` returns for the stack and for all that the code points lead to. -/
def ReturnsAll (rules : GrammarRules) : List ℕ → GrammarStack → Prop
  | [], _ => True
  | c :: cs, s => ReturnsChr rules c s ∧ ∀ t, Succ rules c s t → ReturnsAll rules cs t

/-- One code point and the rest of them. -/
lemma returnsAll_cons {c : ℕ} {cs : List ℕ} {current : GrammarStacks} :
    (∀ s ∈ current, ReturnsAll rules (c :: cs) s) ↔ (∀ s ∈ current, ReturnsChr rules c s) ∧
        ∀ t, (∃ s ∈ current, Succ rules c s t) → ReturnsAll rules cs t := by
  constructor
  · intro h
    refine ⟨fun s hs => (h s hs).1, ?_⟩
    rintro t ⟨s, hs, hsucc⟩
    exact (h s hs).2 t hsucc
  · exact fun h s hs => ⟨h.1 s hs, fun t hsucc => h.2 t ⟨s, hs, hsucc⟩⟩

lemma exists_follows_cons {c : ℕ} {cs : List ℕ} {current : GrammarStacks} (u : GrammarStack) :
    (∃ s ∈ current, Follows rules s (c :: cs) u) ↔
      ∃ t, (∃ s ∈ current, Succ rules c s t) ∧ Follows rules t cs u := by
  simp only [follows_cons]
  constructor
  · rintro ⟨s, hs, t, hsucc, hrest⟩
    exact ⟨t, ⟨s, hs, hsucc⟩, hrest⟩
  · rintro ⟨t, ⟨s, hs, hsucc⟩, hrest⟩
    exact ⟨s, hs, t, hsucc, hrest⟩

/-- All stacks at once, one code point after the other. -/
lemma acceptAll_collects (cs : List ℕ) : ∀ current : GrammarStacks,
    Collects (fun n => acceptAll n rules cs current) (∀ s ∈ current, ReturnsAll rules cs s)
      fun t => ∃ s ∈ current, Follows rules s cs t := by
  induction cs with
  | nil =>
    intro current
    exact (Collects.const current).congr (fun _ => rfl) (by simp [ReturnsAll])
      fun t => by simp [follows_nil]
  | cons c cs ih =>
    intro current
    have hrest : ∀ out, (∀ t, t ∈ out ↔ ∃ s ∈ current, Succ rules c s t) →
        Collects (fun n => acceptAll n rules cs out)
          (∀ t, (∃ s ∈ current, Succ rules c s t) → ReturnsAll rules cs t)
          fun u => ∃ t, (∃ s ∈ current, Succ rules c s t) ∧ Follows rules t cs u := by
      intro out hout
      exact (ih out).congr (fun _ => rfl) (by simp only [hout]) fun u => by simp only [hout]
    exact ((accept_collects c current).bind hrest).congr (fun _ => rfl) returnsAll_cons.symm
      fun u => (exists_follows_cons u).symm

/-- The loop of `accept_token` does the same, though it stops when no stack is left. -/
lemma acceptCodePoints_eq (n : ℕ) (cs : List ℕ) (current : GrammarStacks) :
    acceptCodePoints n rules cs current = acceptAll n rules cs current := by
  induction cs generalizing current with
  | nil => rfl
  | cons c cs ih =>
    refine congrArg (accept n rules current c >>= ·) (funext fun out => ?_)
    split
    · next hnil =>
      rw [hnil, acceptAll_nil]
      rfl
    · exact ih out

lemma acceptCodePoints_collects (cs : List ℕ) (current : GrammarStacks) :
    Collects (fun n => acceptCodePoints n rules cs current) (∀ s ∈ current, ReturnsAll rules cs s)
      fun t => ∃ s ∈ current, Follows rules s cs t := by
  simp only [acceptCodePoints_eq]
  exact acceptAll_collects cs current

/-- What `accept_token` does with a stack when no element is a token. -/
lemma acceptTokenStack_collects (hno : NoTokens rules) (token : ℕ) {cs : List ℕ} (hcs : cs ≠ [])
    (s : GrammarStack) (found : GrammarStacks) :
    Collects (fun n => acceptTokenStack n rules token cs s found) (ReturnsAll rules cs s)
      fun t => t ∈ found ∨ Follows rules s cs t := by
  cases s with
  | nil =>
    obtain ⟨c, cs, rfl⟩ := List.exists_cons_of_ne_nil hcs
    refine (Collects.const found).congr (fun _ => rfl) ?_ fun t => ?_
    · refine iff_of_true trivial ⟨⟨0, [], rfl⟩, fun t ht => absurd ht not_succ_nil⟩
    · rw [follows_cons]
      simp [not_succ_nil]
  | cons pos rest =>
    have hbody : ∀ n, acceptTokenStack n rules token cs (pos :: rest) found =
        acceptCodePoints n rules cs [pos :: rest] >>= fun surviving =>
          .ok (addStacks found surviving) := by
      intro n
      rw [acceptTokenStack, if_neg (by rw [hno.element]; exact Bool.false_ne_true)]
      rfl
    have hadd : ∀ out, (∀ t, t ∈ out ↔ ∃ s ∈ [pos :: rest], Follows rules s cs t) →
        Collects (fun _ => .ok (addStacks found out)) True
          fun t => t ∈ found ∨ Follows rules (pos :: rest) cs t := by
      intro out hout
      refine (Collects.const _).congr (fun _ => rfl) Iff.rfl fun t => ?_
      rw [mem_addStacks, hout]
      simp
    exact ((acceptCodePoints_collects cs [pos :: rest]).bind hadd).congr hbody (by simp)
      fun t => Iff.rfl

/-- The loop of `accept_token` over the stacks. -/
lemma acceptTokenLoop_collects (hno : NoTokens rules) (token : ℕ) {cs : List ℕ} (hcs : cs ≠ [])
    (current : GrammarStacks) :
    Collects (fun n => acceptTokenLoop n rules token cs current [])
      (∀ s ∈ current, ReturnsAll rules cs s) fun t => ∃ s ∈ current, Follows rules s cs t := by
  have hloop := Collects.loop (fun n s found => acceptTokenStack n rules token cs s found)
    (fun n => acceptTokenLoop n rules token cs) (fun _ _ => rfl) (fun _ _ _ _ => rfl)
    (acceptTokenStack_collects hno token hcs) current []
  exact hloop.congr (fun _ => rfl) Iff.rfl (by simp)

/-- The same stacks, in any order, and the same incomplete sequence. -/
def SameState (p : Progress) (st : State) : Prop :=
  (∀ s, s ∈ p.current ↔ s ∈ st.current) ∧ p.partialUtf8 = st.partialUtf8

/-- **Stack by stack or character by character.**  Where no element of the grammar is a token
and the piece has a code point, `accept_token` and `accept_str` return on the same inputs and
with the same state, and throw on the same inputs. -/
theorem acceptToken_iff_acceptStr {st : State} (hno : NoTokens st.rules) (token : ℕ)
    {piece : List UInt8} (hpiece : st.codePoints piece ≠ []) :
    (∀ st', Settles (fun n => acceptToken n token piece st) (.ok st') →
      ∃ p, Settles (fun n => acceptStr n st.rules piece ⟨st.current, st.partialUtf8⟩) (.ok p) ∧
        SameState p st') ∧
    (∀ p, Settles (fun n => acceptStr n st.rules piece ⟨st.current, st.partialUtf8⟩) (.ok p) →
      ∃ st', Settles (fun n => acceptToken n token piece st) (.ok st') ∧ SameState p st') ∧
    (Settles (fun n => acceptToken n token piece st) .thrown ↔
      Settles (fun n => acceptStr n st.rules piece ⟨st.current, st.partialUtf8⟩) .thrown) := by
  have hstacks := acceptTokenLoop_collects hno token hpiece st.current
  have hall := @acceptAll_collects st.rules (st.codePoints piece) st.current
  obtain ⟨htoken, htokenThrown⟩ := hstacks.settles_check fun current =>
    { st with current := current, partialUtf8 := (decodeUtf8 piece st.partialUtf8).2 }
  obtain ⟨hstr, hstrThrown⟩ := hall.settles_check fun current =>
    (⟨current, (decodeUtf8 piece st.partialUtf8).2⟩ : Progress)
  refine ⟨fun st' h => ?_, fun p h => ?_, ?_⟩
  · obtain ⟨out, hout, hne, rfl⟩ := (htoken st').mp h
    obtain ⟨out', hout', hsame⟩ := hstacks.exists_same hall hout
    have hne' : out' ≠ [] := by
      obtain ⟨t, ht⟩ := List.exists_mem_of_ne_nil out hne
      exact List.ne_nil_of_mem ((hsame t).mp ht)
    exact ⟨_, (hstr _).mpr ⟨out', hout', hne', rfl⟩, fun s => (hsame s).symm, rfl⟩
  · obtain ⟨out, hout, hne, rfl⟩ := (hstr p).mp h
    obtain ⟨out', hout', hsame⟩ := hall.exists_same hstacks hout
    have hne' : out' ≠ [] := by
      obtain ⟨t, ht⟩ := List.exists_mem_of_ne_nil out hne
      exact List.ne_nil_of_mem ((hsame t).mp ht)
    exact ⟨_, (htoken _).mpr ⟨out', hout', hne', rfl⟩, hsame, rfl⟩
  · have hnil : ∀ out : GrammarStacks, (∀ t, t ∈ [] ↔ t ∈ out) → out = [] := fun out h =>
      List.eq_nil_iff_forall_not_mem.mpr fun t ht => List.not_mem_nil ((h t).mpr ht)
    constructor
    · intro h
      obtain ⟨out, hout, hsame⟩ := hstacks.exists_same hall (htokenThrown.mp h)
      exact hstrThrown.mpr (hnil out hsame ▸ hout)
    · intro h
      obtain ⟨out, hout, hsame⟩ := hall.exists_same hstacks (hstrThrown.mp h)
      exact htokenThrown.mpr (hnil out hsame ▸ hout)

/-- The first state of `root ::= "a" root | "b"`. -/
def rightRecursiveStart : State where
  rules := Cfg.encode rightRecursive
  current := [[(0, 0)], [(0, 3)]]
  partialUtf8 := ⟨0, 0⟩
  awaitingTrigger := false
  triggerBuffer := []
  triggerBufferPositions := []
  triggerTokens := []
  triggerPatterns := []

theorem acceptToken_iff_acceptStr_rightRecursive :
    (∀ st', Settles (fun n => acceptToken n 5 [97] rightRecursiveStart) (.ok st') →
      ∃ p, Settles (fun n => acceptStr n rightRecursiveStart.rules [97]
          ⟨rightRecursiveStart.current, rightRecursiveStart.partialUtf8⟩) (.ok p) ∧
        SameState p st') ∧
    (∀ p, Settles (fun n => acceptStr n rightRecursiveStart.rules [97]
        ⟨rightRecursiveStart.current, rightRecursiveStart.partialUtf8⟩) (.ok p) →
      ∃ st', Settles (fun n => acceptToken n 5 [97] rightRecursiveStart) (.ok st') ∧
        SameState p st') ∧
    (Settles (fun n => acceptToken n 5 [97] rightRecursiveStart) .thrown ↔
      Settles (fun n => acceptStr n rightRecursiveStart.rules [97]
        ⟨rightRecursiveStart.current, rightRecursiveStart.partialUtf8⟩) .thrown) :=
  @acceptToken_iff_acceptStr rightRecursiveStart (by unfold NoTokens; decide) 5 [97] (by decide)

end Llama.Grammar
