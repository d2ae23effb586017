import Llama.Grammar.Language

/-!
# The engine recognizes the language

The stacks of the engine are the stacks of a nondeterministic pushdown machine.  Its runs
are the derivations of the grammar, and after a prefix of the input the engine has the
stacks of all runs on it, expanded until a terminal is on top.
-/

namespace Llama.Grammar

open Cfg List

variable {G : List Rule} {rules : GrammarRules}

/-! ## The pushdown machine -/

/-- The machine accepts the word from the stack. -/
inductive StackDerives (rules : GrammarRules) : GrammarStack → List ℕ → Prop
  | nil : StackDerives rules [] []
  | chr {pos next : ElementPtr} {stack : GrammarStack} {c : ℕ} {w : List ℕ}
      (hmatch : matchChar rules pos c = .ok (true, next))
      (hrest : StackDerives rules (pushUnlessEnd rules next stack) w) :
      StackDerives rules (pos :: stack) (c :: w)
  | ref {pos subpos : ElementPtr} {stack : GrammarStack} {w : List ℕ}
      (href : (element rules pos).type = .ruleRef)
      (hsub : subpos ∈ alternates rules (element rules pos).value)
      (hrest : StackDerives rules
        (pushUnlessEnd rules subpos (pushUnlessEnd rules (advancePtr pos 1) stack)) w) :
      StackDerives rules (pos :: stack) w

variable {pos : ElementPtr} {ss : List Sym} {stack s t : GrammarStack} {current : GrammarStacks}

lemma At.pushUnlessEnd_nil (h : At rules pos []) (stack : GrammarStack) :
    pushUnlessEnd rules pos stack = stack := if_pos h.nil

/-- What the type of the element at a symbol can be. -/
lemma At.type {pos : ElementPtr} {s : Sym} {ss : List Sym} (h : At rules pos (s :: ss)) :
    (∃ r, s = .ref r ∧ (element rules pos).type = .ruleRef) ∨
      (s.isChar = true ∧ ((element rules pos).type = .char ∨ (element rules pos).type = .charNot ∨
        (element rules pos).type = .charAny)) ∨
      ∃ inverse id, s = .token inverse id ∧
        ((element rules pos).type = .token ∨ (element rules pos).type = .tokenNot) := by
  cases s with
  | ref r => exact .inl ⟨r, rfl, by rw [h.ref.1]⟩
  | chars inverse range ranges => exact .inr (.inl ⟨rfl, (h.matchChar rfl 0).1⟩)
  | any => exact .inr (.inl ⟨rfl, (h.matchChar rfl 0).1⟩)
  | token inverse id =>
    refine .inr (.inr ⟨inverse, id, rfl, ?_⟩)
    rw [h.token.1]
    cases inverse
    · exact .inl rfl
    · exact .inr rfl

lemma At.not_end {pos : ElementPtr} {s : Sym} {ss : List Sym} (h : At rules pos (s :: ss)) :
    isEndOfSequence (element rules pos) = false := by
  rcases h.type with ⟨-, -, h⟩ | ⟨-, h | h | h⟩ | ⟨-, -, -, h | h⟩ <;> simp [isEndOfSequence, h]

lemma At.pushUnlessEnd_cons {pos : ElementPtr} {s : Sym} {ss : List Sym}
    (h : At rules pos (s :: ss)) (stack : GrammarStack) :
    pushUnlessEnd rules pos stack = pos :: stack := if_neg (by simp [h.not_end])

/-- A pointer at a reference stands at the symbol of one. -/
lemma At.eq_ref {pos : ElementPtr} {s : Sym} {ss : List Sym} (h : At rules pos (s :: ss))
    (href : (element rules pos).type = .ruleRef) : ∃ r, s = .ref r := by
  rcases h.type with ⟨r, hr, -⟩ | ⟨-, h | h | h⟩ | ⟨-, -, -, h | h⟩
  · exact ⟨r, hr⟩
  all_goals
    rw [h] at href
    cases href

/-- A character that matches is in the set of the symbol. -/
lemma At.of_match {pos next : ElementPtr} {s : Sym} {ss : List Sym} {c : ℕ}
    (h : At rules pos (s :: ss)) (hmatch : Grammar.matchChar rules pos c = .ok (true, next)) :
    s.isChar = true ∧ s.accepts c = true ∧ At rules next ss := by
  have hs : s.isChar = true := by
    rcases h.type with ⟨r, -, htype⟩ | ⟨hs, -⟩ | ⟨-, -, -, htype | htype⟩
    · simp [Grammar.matchChar, isPositiveChar, Exec.assert, htype] at hmatch
    · exact hs
    · simp [Grammar.matchChar, isPositiveChar, Exec.assert, htype] at hmatch
    · simp [Grammar.matchChar, isPositiveChar, Exec.assert, htype] at hmatch
  have hm := (h.matchChar hs c).2
  rw [hmatch] at hm
  have hm := Exec.ok.inj hm
  have hnext : next = advancePtr pos s.elements.length := congrArg Prod.snd hm
  exact ⟨hs, (congrArg Prod.fst hm).symm, hnext ▸ h.tail⟩

lemma isChar_of_accepts {s : Sym} {c : ℕ} (h : s.accepts c = true) : s.isChar = true := by
  cases s with
  | ref r => cases h
  | token inverse id => cases h
  | chars inverse range ranges => rfl
  | any => rfl

/-- A derivation from the symbols at a pointer is a run that takes the pointer off. -/
lemma stackDerives_of_derives {u : List ℕ} (h : Derives G ss u) :
    ∀ {pos : ElementPtr} {stack : GrammarStack} {v : List ℕ}, At (encode G) pos ss →
      StackDerives (encode G) stack v →
        StackDerives (encode G) (pushUnlessEnd (encode G) pos stack) (u ++ v) := by
  induction h with
  | nil =>
    intro pos stack v hat hstack
    rw [hat.pushUnlessEnd_nil]
    exact hstack
  | @chr s c ss w hc _ ih =>
    intro pos stack v hat hstack
    rw [hat.pushUnlessEnd_cons]
    have hmatch := (hat.matchChar (isChar_of_accepts hc) c).2
    rw [hc] at hmatch
    exact .chr hmatch (ih hat.tail hstack)
  | @ref r rule alternate ss u w hrule halt _ _ ihsub ihrest =>
    intro pos stack v hat hstack
    rw [hat.pushUnlessEnd_cons, append_assoc]
    obtain ⟨hel, hnext⟩ := hat.ref
    obtain ⟨subpos, hmem, hsub⟩ := exists_alternates_at hrule halt
    refine .ref (by rw [hel]) (by rw [hel]; exact hmem) ?_
    exact ihsub hsub (ihrest hnext hstack)

/-- The stack stands for the symbols, pointer by pointer. -/
inductive Denotes (G : List Rule) : GrammarStack → List Sym → Prop
  | nil : Denotes G [] []
  | cons {pos : ElementPtr} {s : Sym} {ss ts : List Sym} {stack : GrammarStack}
      (hat : At (encode G) pos (s :: ss)) (hrest : Denotes G stack ts) :
      Denotes G (pos :: stack) (s :: ss ++ ts)

lemma Denotes.push {ts : List Sym} (h : Denotes G stack ts) (hat : At (encode G) pos ss) :
    Denotes G (pushUnlessEnd (encode G) pos stack) (ss ++ ts) := by
  cases ss with
  | nil => rwa [hat.pushUnlessEnd_nil]
  | cons s ss =>
    rw [hat.pushUnlessEnd_cons]
    exact .cons hat h

/-- A derivation from the symbols that a stack stands for is a run from it. -/
lemma stackDerives_of_denotes (h : Denotes G stack ss) :
    ∀ {w : List ℕ}, Derives G ss w → StackDerives (encode G) stack w := by
  induction h with
  | nil =>
    intro w hw
    cases hw
    exact .nil
  | @cons pos s ss ts stack hat _ ih =>
    intro w hw
    obtain ⟨u, v, rfl, hu, hv⟩ := hw.split
    have hrun := stackDerives_of_derives hu hat (ih hv)
    rwa [hat.pushUnlessEnd_cons] at hrun

/-- The rule that a pointer refers to. -/
lemma exists_rule (hvalid : Valid (encode G)) {r : ℕ} (hat : At (encode G) pos (.ref r :: ss)) :
    ∃ rule, G[r]? = some rule := by
  have htype : (element (encode G) pos).type = .ruleRef := by rw [hat.ref.1]
  have hlt := hvalid.element_lt htype
  rw [hat.ref.1] at hlt
  have hlt : r < G.length := by simpa [encode] using hlt
  exact ⟨G[r], getElem?_eq_getElem hlt⟩

/-- Expanding a stack replaces the first rule by one of its alternates. -/
lemma Denotes.step (hvalid : Valid (encode G)) {s t : GrammarStack} (h : Denotes G s ss)
    (hstep : Worklist.Step (visitStack (encode G)) s t) :
    ∃ r ts rule, ss = .ref r :: ts ∧ G[r]? = some rule ∧
      ∃ a ∈ rule.alternates, Denotes G t (a ++ ts) := by
  obtain ⟨next, hv, hmem⟩ := hstep
  cases h with
  | nil => cases hv
  | cons hat hrest =>
    obtain ⟨href, rfl⟩ := visitStack_expand hv
    obtain ⟨subpos, hsub, rfl⟩ := mem_map.mp hmem
    obtain ⟨r, rfl⟩ := hat.eq_ref href
    obtain ⟨hel, hnext⟩ := hat.ref
    rw [hel] at hsub
    obtain ⟨rule, hrule⟩ := exists_rule hvalid hat
    obtain ⟨a, ha, hata⟩ := at_of_mem_alternates hrule hsub
    exact ⟨r, _, rule, rfl, hrule, a, ha, (hrest.push hnext).push hata⟩

/-- A run from a stack is a derivation from the symbols that it stands for. -/
lemma derives_of_stackDerives (hvalid : Valid (encode G)) {stack : GrammarStack} {w : List ℕ}
    (h : StackDerives (encode G) stack w) :
    ∀ {ss : List Sym}, Denotes G stack ss → Derives G ss w := by
  induction h with
  | nil =>
    intro ss hden
    cases hden
    exact .nil
  | @chr pos next stack c w hmatch _ ih =>
    intro ss hden
    cases hden with
    | @cons _ s ss ts _ hat hrest =>
      obtain ⟨-, hc, hnext⟩ := hat.of_match hmatch
      exact .chr hc (ih (hrest.push hnext))
  | @ref pos subpos stack w href hsub _ ih =>
    intro ss hden
    cases hden with
    | @cons _ s ss ts _ hat hrest =>
      obtain ⟨r, rfl⟩ := hat.eq_ref href
      obtain ⟨hel, hnext⟩ := hat.ref
      rw [hel] at hsub
      obtain ⟨rule, hrule⟩ := exists_rule hvalid hat
      obtain ⟨a, ha, hata⟩ := at_of_mem_alternates hrule hsub
      have hall := ih ((hrest.push hnext).push hata)
      obtain ⟨u, v, rfl, hu, hv⟩ := hall.split
      exact .ref hrule ha hu hv

/-! ## Expanded stacks -/

/-- The stacks that a search keeps carry all runs. -/
lemma stackDerives_iff_reach {w : List ℕ} :
    StackDerives rules stack w ↔ ∃ t, Worklist.Reach (visitStack rules) stack t ∧
      visitStack rules t = .keep ∧ StackDerives rules t w := by
  constructor
  · intro h
    induction h with
    | nil => exact ⟨[], .refl, rfl, .nil⟩
    | @chr pos next stack c w hmatch hrest ih =>
      refine ⟨pos :: stack, .refl, ?_, .chr hmatch hrest⟩
      obtain ⟨⟨⟩, hassert, -⟩ := Exec.bind_eq_ok.mp hmatch
      rw [Exec.assert] at hassert
      split at hassert
      · rename_i htype
        simp only [isPositiveChar, Bool.or_eq_true, decide_eq_true_eq] at htype
        rcases htype with (h | h) | h <;> simp [visitStack, h]
      · cases hassert
    | @ref pos subpos stack w href hsub _ ih =>
      obtain ⟨t, hreach, hkeep, ht⟩ := ih
      have hstep : Worklist.Step (visitStack rules) (pos :: stack)
          (pushUnlessEnd rules subpos (pushUnlessEnd rules (advancePtr pos 1) stack)) :=
        ⟨_, by simp only [visitStack, href]; rfl, mem_map.mpr ⟨subpos, hsub, rfl⟩⟩
      exact ⟨t, .head hstep hreach, hkeep, ht⟩
  · rintro ⟨t, hreach, -, ht⟩
    induction hreach using Relation.ReflTransGen.head_induction_on with
    | refl => exact ht
    | @head s _ hstep _ ih =>
      obtain ⟨next, hv, hmem⟩ := hstep
      cases s with
      | nil => cases hv
      | cons pos stack =>
        obtain ⟨href, rfl⟩ := visitStack_expand hv
        obtain ⟨subpos, hsub, rfl⟩ := mem_map.mp hmem
        exact .ref href hsub ih

/-- A stack that stands for symbols. -/
def Formed (G : List Rule) (stack : GrammarStack) : Prop := ∃ ss, Denotes G stack ss

lemma Formed.nil : Formed G [] := ⟨[], .nil⟩

lemma Formed.not_abort {stack : GrammarStack} (h : Formed G stack) :
    visitStack (encode G) stack ≠ .abort := by
  obtain ⟨ss, hden⟩ := h
  cases hden with
  | nil => exact nofun
  | @cons pos s ss ts stack hat hrest =>
    intro habort
    rcases hat.type with ⟨-, -, h⟩ | ⟨-, h | h | h⟩ | ⟨-, -, -, h | h⟩ <;>
      simp [visitStack, h] at habort

lemma Formed.step (hvalid : Valid (encode G)) {s t : GrammarStack} (h : Formed G s)
    (hstep : Worklist.Step (visitStack (encode G)) s t) : Formed G t := by
  obtain ⟨ss, hden⟩ := h
  obtain ⟨r, ts, rule, -, -, a, -, hden⟩ := hden.step hvalid hstep
  exact ⟨_, hden⟩

lemma Formed.reach (hvalid : Valid (encode G)) (h : Formed G s)
    (hreach : Worklist.Reach (visitStack (encode G)) s t) : Formed G t := by
  induction hreach with
  | refl => exact h
  | tail _ hstep ih => exact ih.step hvalid hstep

lemma Formed.chr {pos next : ElementPtr} {stack : GrammarStack} {c : ℕ}
    (h : Formed G (pos :: stack)) (hmatch : matchChar (encode G) pos c = .ok (true, next)) :
    Formed G (pushUnlessEnd (encode G) next stack) := by
  obtain ⟨ss, hden⟩ := h
  cases hden with
  | cons hat hrest => exact ⟨_, hrest.push (hat.of_match hmatch).2.2⟩

lemma Formed.tail {pos : ElementPtr} {stack : GrammarStack} (h : Formed G (pos :: stack)) :
    Formed G stack := by
  obtain ⟨ss, hden⟩ := h
  cases hden with
  | cons _ hrest => exact ⟨_, hrest⟩

lemma Formed.push (h : Formed G stack) (hat : At (encode G) pos ss) :
    Formed G (pushUnlessEnd (encode G) pos stack) := ⟨_, h.choose_spec.push hat⟩

/-- A stack that stands for symbols which derive a word. -/
def Live (G : List Rule) (stack : GrammarStack) : Prop :=
  ∃ ss, Denotes G stack ss ∧ ∃ w, Derives G ss w

lemma Live.formed (h : Live G stack) : Formed G stack :=
  ⟨h.choose, h.choose_spec.1⟩

lemma Live.step (hvalid : Valid (encode G)) (hprod : Productive G) {s t : GrammarStack}
    (h : Live G s) (hstep : Worklist.Step (visitStack (encode G)) s t) : Live G t := by
  obtain ⟨ss, hden, w, hw⟩ := h
  obtain ⟨r, ts, rule, rfl, hrule, a, ha, hden⟩ := hden.step hvalid hstep
  obtain ⟨u, hu⟩ := hprod rule (mem_of_getElem? hrule) a ha
  refine ⟨_, hden, ?_⟩
  cases hw with
  | chr hc _ => cases hc
  | ref _ _ _ hv => exact ⟨_, hu.append hv⟩

lemma Live.reach (hvalid : Valid (encode G)) (hprod : Productive G) (h : Live G s)
    (hreach : Worklist.Reach (visitStack (encode G)) s t) : Live G t := by
  induction hreach with
  | refl => exact h
  | tail _ hstep ih => exact ih.step hvalid hprod hstep

lemma Live.chr {pos next : ElementPtr} {stack : GrammarStack} {c : ℕ}
    (h : Live G (pos :: stack)) (hmatch : matchChar (encode G) pos c = .ok (true, next)) :
    Live G (pushUnlessEnd (encode G) next stack) := by
  obtain ⟨ss, hden, w, hw⟩ := h
  cases hden with
  | @cons _ s ss ts _ hat hrest =>
    obtain ⟨hs, -, hnext⟩ := hat.of_match hmatch
    refine ⟨_, hrest.push hnext, ?_⟩
    cases hw with
    | chr _ hrest => exact ⟨_, hrest⟩
    | ref => cases hs

/-! ## The stacks after a prefix of the input -/

/-- The stacks that an expansion of the stack keeps. -/
def Kept (rules : GrammarRules) (s t : GrammarStack) : Prop :=
  visitStack rules t = .keep ∧ Worklist.Reach (visitStack rules) s t

/-- `advance_stack` adds the stacks kept. -/
lemma advanceStack_spec (hvalid : Valid (encode G)) (hleft : ¬ LeftRecursive (encode G))
    (hformed : Formed G stack) (found : GrammarStacks) :
    ∃ out, Exec.Settles (fun n => advanceStack n (encode G) stack found) (.ok out) ∧
      ∀ t, t ∈ out ↔ t ∈ found ∨ Kept (encode G) stack t := by
  obtain ⟨k, hk⟩ := advanceStack_finishes hleft stack found
  have hcases : advanceStack k (encode G) stack found = .unfinished ∨
      (∃ out, advanceStack k (encode G) stack found = .ok out) ∨
      advanceStack k (encode G) stack found = .aborted ∧
        ∃ c, Worklist.Reach (visitStack (encode G)) stack c ∧ visitStack (encode G) c = .abort :=
    Worklist.search_cases k fun c hc => mem_singleton.mp hc ▸ .refl
  rcases hcases with h | ⟨out, h⟩ | ⟨-, c, hc, hv⟩
  · exact absurd h hk
  · refine ⟨out, ?_, Worklist.mem_search h⟩
    rw [← h]
    exact Exec.settles_of_mono (fun n m hnm => Worklist.search_mono _ hnm _ _ _) hk
  · exact absurd hv (hformed.reach hvalid hc).not_abort

/-- An expansion keeps a stack. -/
lemma exists_kept (hvalid : Valid (encode G)) (hleft : ¬ LeftRecursive (encode G))
    (hformed : Formed G stack) : ∃ t, Kept (encode G) stack t := by
  have hexpand : ∀ c, visitStack (encode G) c ≠ .expand [] := by
    intro c hexp
    cases c with
    | nil => cases hexp
    | cons pos rest => simpa [alternates] using (visitStack_expand hexp).2
  obtain ⟨t, hreach, hkeep⟩ := Worklist.exists_keep (advances (acc_leftRef hleft) stack)
    fun c hc => ⟨(hformed.reach hvalid hc).not_abort, hexpand c⟩
  exact ⟨t, hkeep, hreach⟩

/-- A stack with a terminal on top, or empty, that stands for symbols. -/
def Expanded (G : List Rule) (s : GrammarStack) : Prop :=
  visitStack (encode G) s = .keep ∧ Formed G s

lemma Kept.expanded (hvalid : Valid (encode G)) (hformed : Formed G s) (h : Kept (encode G) s t) :
    Expanded G t := ⟨h.1, hformed.reach hvalid h.2⟩

/-- What is on top of a stack with a terminal. -/
lemma Expanded.top {pos : ElementPtr} {stack : GrammarStack} (h : Expanded G (pos :: stack)) :
    ∃ s ss, At (encode G) pos (s :: ss) ∧
      (s.isChar = true ∨ ∃ inverse id, s = .token inverse id) := by
  obtain ⟨hkeep, ss, hden⟩ := h
  cases hden with
  | @cons _ s ss ts _ hat hrest =>
    refine ⟨s, ss, hat, ?_⟩
    rcases hat.type with ⟨r, -, href⟩ | ⟨hs, -⟩ | ⟨inverse, id, hs, -⟩
    · simp [visitStack, href] at hkeep
    · exact .inl hs
    · exact .inr ⟨inverse, id, hs⟩

lemma At.isToken_of_isChar {pos : ElementPtr} {s : Sym} {ss : List Sym}
    (h : At rules pos (s :: ss)) (hs : s.isChar = true) : isToken (element rules pos) = false := by
  rcases (h.matchChar hs 0).1 with h | h | h <;> simp [isToken, h]

lemma At.isToken_of_token {inverse : Bool} {id : ℕ} (h : At rules pos (.token inverse id :: ss)) :
    isToken (element rules pos) = true := by
  rw [h.token.1]
  cases inverse <;> rfl

/-- The stack `t` is one of those that accepting the character on `s` leads to. -/
def Succ (rules : GrammarRules) (c : ℕ) (s t : GrammarStack) : Prop :=
  ∃ pos stack next, s = pos :: stack ∧ matchChar rules pos c = .ok (true, next) ∧
    Kept rules (pushUnlessEnd rules next stack) t

lemma not_succ_nil {c : ℕ} : ¬ Succ rules c [] t :=
  fun ⟨_, _, _, heq, _⟩ => nomatch heq

lemma succ_iff {pos : ElementPtr} {s : Sym} {ss : List Sym} (hat : At rules pos (s :: ss))
    (hs : s.isChar = true) {c : ℕ} {stack t : GrammarStack} :
    Succ rules c (pos :: stack) t ↔ s.accepts c = true ∧
      Kept rules (pushUnlessEnd rules (advancePtr pos s.elements.length) stack) t := by
  have hmatch := (hat.matchChar hs c).2
  constructor
  · rintro ⟨pos', stack', next, heq, hm, hkept⟩
    cases heq
    rw [hmatch] at hm
    obtain ⟨hacc, rfl⟩ := Prod.ext_iff.mp (Exec.ok.inj hm)
    exact ⟨hacc, hkept⟩
  · rintro ⟨hacc, hkept⟩
    rw [hacc] at hmatch
    exact ⟨pos, stack, _, rfl, hmatch, hkept⟩

/-- No character is accepted on a token. -/
lemma not_succ_token {inverse : Bool} {id : ℕ} (hat : At rules pos (.token inverse id :: ss))
    {c : ℕ} : ¬ Succ rules c (pos :: stack) t := by
  rintro ⟨pos', stack', next, heq, hm, -⟩
  cases heq
  exact Bool.noConfusion (hat.of_match hm).1

lemma Succ.expanded (hvalid : Valid (encode G)) {c : ℕ} (hformed : Formed G s)
    (h : Succ (encode G) c s t) : Expanded G t := by
  obtain ⟨pos, stack, next, rfl, hmatch, hkept⟩ := h
  exact hkept.expanded hvalid (hformed.chr hmatch)

/-- What `accept_chr` does with a stack that has a set of characters on top. -/
lemma acceptChr_eq {pos : ElementPtr} {s : Sym} {ss : List Sym} (hat : At rules pos (s :: ss))
    (hs : s.isChar = true) (m : ℕ) (stack : GrammarStack) (c : ℕ) (found : GrammarStacks) :
    acceptChr m rules (pos :: stack) c found = if s.accepts c then advanceStack m rules
        (pushUnlessEnd rules (advancePtr pos s.elements.length) stack) found
      else .ok found := by
  simp only [acceptChr, hat.isToken_of_isChar hs, (hat.matchChar hs c).2]
  rfl

/-- `accept_chr` adds the stacks that the character leads to. -/
lemma acceptChr_spec (hvalid : Valid (encode G)) (hleft : ¬ LeftRecursive (encode G))
    (hexp : Expanded G s) (c : ℕ) (found : GrammarStacks) :
    ∃ out, Exec.Settles (fun n => acceptChr n (encode G) s c found) (.ok out) ∧
      ∀ t, t ∈ out ↔ t ∈ found ∨ Succ (encode G) c s t := by
  -- the cases in which the character leads to no stack
  have hnone : (∀ n, acceptChr n (encode G) s c found = .ok found) →
      (∀ t, ¬ Succ (encode G) c s t) →
      ∃ out, Exec.Settles (fun n => acceptChr n (encode G) s c found) (.ok out) ∧
        ∀ t, t ∈ out ↔ t ∈ found ∨ Succ (encode G) c s t :=
    fun hacc hno => ⟨found, (Exec.Settles.const _).congr hacc, fun t => (or_iff_left (hno t)).symm⟩
  cases s with
  | nil => exact hnone (fun n => rfl) fun t => not_succ_nil
  | cons pos stack =>
    obtain ⟨s, ss, hat, hs | ⟨inverse, id, rfl⟩⟩ := hexp.top
    · have hacc := fun n => acceptChr_eq hat hs n stack c found
      by_cases hc : s.accepts c = true
      · obtain ⟨out, hsettles, hout⟩ :=
          advanceStack_spec hvalid hleft (hexp.2.tail.push hat.tail) found
        refine ⟨out, hsettles.congr fun n => by rw [hacc, if_pos hc], fun t => ?_⟩
        rw [hout, succ_iff hat hs, and_iff_right hc]
      · refine hnone (fun n => by rw [hacc, if_neg hc]) fun t => ?_
        rw [succ_iff hat hs]
        exact fun h => hc h.1
    · refine hnone (fun n => ?_) fun t => not_succ_token hat
      rw [acceptChr, if_pos hat.isToken_of_token]
      rfl

lemma acceptLoop_spec (hvalid : Valid (encode G)) (hleft : ¬ LeftRecursive (encode G)) (c : ℕ) :
    ∀ {current : GrammarStacks} (found : GrammarStacks), (∀ s ∈ current, Expanded G s) →
      ∃ out, Exec.Settles (fun n => acceptLoop n (encode G) c current found) (.ok out) ∧
        ∀ t, t ∈ out ↔ t ∈ found ∨ ∃ s ∈ current, Succ (encode G) c s t := by
  intro current
  induction current with
  | nil => exact fun found _ => ⟨found, .const _, by simp⟩
  | cons s current ih =>
    intro found hexp
    obtain ⟨out1, h1, hout1⟩ :=
      acceptChr_spec hvalid hleft (hexp s mem_cons_self) c found
    obtain ⟨out2, h2, hout2⟩ := ih out1 fun t ht => hexp t (mem_cons_of_mem _ ht)
    refine ⟨out2, h1.bind h2, fun t => ?_⟩
    rw [hout2, hout1]
    simp only [mem_cons, exists_eq_or_imp, or_assoc]

/-- `accept` finds the stacks that the character leads to. -/
lemma accept_spec (hvalid : Valid (encode G)) (hleft : ¬ LeftRecursive (encode G)) (c : ℕ)
    (hexp : ∀ s ∈ current, Expanded G s) :
    ∃ out, Exec.Settles (fun n => accept n (encode G) current c) (.ok out) ∧
      ∀ t, t ∈ out ↔ ∃ s ∈ current, Succ (encode G) c s t := by
  obtain ⟨out, h, hout⟩ := acceptLoop_spec hvalid hleft c [] hexp
  exact ⟨out, h, fun t => by simp [hout]⟩

/-- All stacks have a terminal on top, or are empty, and derive a word. -/
def Ready (G : List Rule) (current : GrammarStacks) : Prop :=
  ∀ s ∈ current, visitStack (encode G) s = .keep ∧ Live G s

lemma Ready.expanded (h : Ready G current) :
    ∀ s ∈ current, Expanded G s := fun s hs => ⟨(h s hs).1, (h s hs).2.formed⟩

/-- The stacks after a prefix `w` of the input: they accept exactly the words that complete
it to one of the language. -/
structure Recognizes (G : List Rule) (start : ℕ) (w : List ℕ) (current : GrammarStacks) : Prop where
  ready : Ready G current
  iff : ∀ v, Language G start (w ++ v) ↔ ∃ t ∈ current, StackDerives (encode G) t v

lemma Kept.ready (hvalid : Valid (encode G)) (hprod : Productive G) (hlive : Live G s)
    (h : Kept (encode G) s t) :
    visitStack (encode G) t = .keep ∧ Live G t := ⟨h.1, hlive.reach hvalid hprod h.2⟩

/-- **One character.** -/
theorem recognizes_accept (hvalid : Valid (encode G)) (hprod : Productive G)
    (hleft : ¬ LeftRecursive (encode G)) {start : ℕ} {w : List ℕ}
    (h : Recognizes G start w current) (c : ℕ) :
    ∃ out, Exec.Settles (fun n => accept n (encode G) current c) (.ok out) ∧
      Recognizes G start (w ++ [c]) out := by
  obtain ⟨out, hsettles, hout⟩ := accept_spec hvalid hleft c h.ready.expanded
  refine ⟨out, hsettles, ?_, fun v => ?_⟩
  · intro t ht
    obtain ⟨s, hs, pos, stack, next, rfl, hmatch, hkept⟩ := (hout t).mp ht
    exact hkept.ready hvalid hprod ((h.ready _ hs).2.chr hmatch)
  · rw [append_assoc, h.iff]
    constructor
    · rintro ⟨s, hs, hder⟩
      cases hder with
      | @chr pos next stack _ _ hmatch hrest =>
        obtain ⟨t, hreach, hkeep, ht⟩ := stackDerives_iff_reach.mp hrest
        exact ⟨t, (hout t).mpr ⟨_, hs, pos, stack, next, rfl, hmatch, hkeep, hreach⟩, ht⟩
      | ref href _ _ =>
        have hkeep := (h.ready _ hs).1
        simp [visitStack, href] at hkeep
    · rintro ⟨t, ht, hder⟩
      obtain ⟨s, hs, pos, stack, next, rfl, hmatch, hkeep, hreach⟩ := (hout t).mp ht
      exact ⟨_, hs, .chr hmatch (stackDerives_iff_reach.mpr ⟨t, hreach, hkeep, hder⟩)⟩

/-- **A word.** -/
theorem recognizes_acceptAll (hvalid : Valid (encode G)) (hprod : Productive G)
    (hleft : ¬ LeftRecursive (encode G)) {start : ℕ} (u : List ℕ) :
    ∀ {w : List ℕ} {current : GrammarStacks}, Recognizes G start w current →
      ∃ out, Exec.Settles (fun n => acceptAll n (encode G) u current) (.ok out) ∧
        Recognizes G start (w ++ u) out := by
  induction u with
  | nil =>
    intro w current h
    exact ⟨current, .const _, by rwa [append_nil]⟩
  | cons c u ih =>
    intro w current h
    obtain ⟨out1, h1, hrec1⟩ := recognizes_accept hvalid hprod hleft h c
    obtain ⟨out2, h2, hrec2⟩ := ih hrec1
    exact ⟨out2, h1.bind h2, by rwa [append_assoc] at hrec2⟩

lemma initStacks_spec (n : ℕ) (rules : GrammarRules) : ∀ {ps : List ElementPtr}
    {found out : GrammarStacks}, initStacks n rules ps found = .ok out →
      ∀ t, t ∈ out ↔ t ∈ found ∨ ∃ pos ∈ ps, Kept rules (pushUnlessEnd rules pos []) t := by
  intro ps
  induction ps with
  | nil =>
    intro found out h t
    cases h
    simp
  | cons pos ps ih =>
    intro found out h t
    obtain ⟨found', h1, h2⟩ := Exec.bind_eq_ok.mp h
    rw [ih h2, Worklist.mem_search h1]
    simp only [mem_cons, exists_eq_or_imp, or_assoc]
    rfl

/-- The first stacks. -/
lemma recognizes_init (hvalid : Valid (encode G)) (hprod : Productive G) {n start : ℕ}
    (hstart : start < (encode G).length)
    (h : initStacks n (encode G) (alternates (encode G) start) [] = .ok current) :
    Recognizes G start [] current := by
  have hmem := initStacks_spec n (encode G) h
  simp only [not_mem_nil, false_or] at hmem
  have hlt : start < G.length := by simpa [encode] using hstart
  have hrule : G[start]? = some G[start] := getElem?_eq_getElem hlt
  refine ⟨fun t ht => ?_, fun v => ?_⟩
  · obtain ⟨pos, hpos, hkept⟩ := (hmem t).mp ht
    obtain ⟨a, ha, hat⟩ := at_of_mem_alternates hrule hpos
    obtain ⟨w, hw⟩ := hprod _ (getElem_mem hlt) a ha
    have hden := Denotes.nil.push hat
    rw [append_nil] at hden
    exact hkept.ready hvalid hprod ⟨a, hden, w, hw⟩
  · constructor
    · rintro ⟨rule, hr, a, ha, hder⟩
      rw [hrule] at hr
      cases hr
      obtain ⟨pos, hpos, hat⟩ := exists_alternates_at hrule ha
      have hrun := stackDerives_of_derives hder hat .nil
      rw [append_nil] at hrun
      obtain ⟨t, hreach, hkeep, ht⟩ := stackDerives_iff_reach.mp hrun
      exact ⟨t, (hmem t).mpr ⟨pos, hpos, hkeep, hreach⟩, ht⟩
    · rintro ⟨t, ht, hder⟩
      obtain ⟨pos, hpos, hkeep, hreach⟩ := (hmem t).mp ht
      obtain ⟨a, ha, hat⟩ := at_of_mem_alternates hrule hpos
      have hden := Denotes.nil.push hat
      rw [append_nil] at hden
      exact ⟨_, hrule, a, ha, derives_of_stackDerives hvalid
        (stackDerives_iff_reach.mpr ⟨t, hreach, hkeep, hder⟩) hden⟩

/-- `init_impl` copies an encoded rule as it is. -/
lemma copyRule_elements (rule : Rule) : copyRule rule.elements = rule.elements := by
  have hbody : ∀ (others : List (List Sym)) (a : List Sym), ∃ body,
      alternateElements a others = body ++ [⟨.end_, 0⟩] ∧ ∀ e ∈ body, e.type ≠ .end_ := by
    have hsyms : ∀ (a : List Sym), ∀ e ∈ a.flatMap Sym.elements, e.type ≠ .end_ := by
      intro a e he htype
      have := isEndOfSequence_of_mem_elements e he
      simp [isEndOfSequence, htype] at this
    intro others
    induction others with
    | nil => exact fun a => ⟨_, rfl, hsyms a⟩
    | cons next others ih =>
      intro a
      obtain ⟨body, hnext, hno⟩ := ih next
      refine ⟨a.flatMap Sym.elements ++ ⟨.alt, 0⟩ :: body, ?_, ?_⟩
      · rw [alternateElements, hnext, append_assoc, cons_append]
      · intro e he
        rcases mem_append.mp he with he | he
        · exact hsyms a e he
        · rcases mem_cons.mp he with rfl | he
          · exact Gretype.noConfusion
          · exact hno e he
  obtain ⟨body, hel, hno⟩ := hbody rule.others rule.first
  have hel : rule.elements = body ++ [⟨.end_, 0⟩] := hel
  rw [copyRule, hel, takeWhile_append_of_pos (by simpa using hno)]
  simp

/-- **The engine recognizes the language** of a grammar without left recursion in which
every alternate derives a word. -/
theorem acceptAll_language {n start : ℕ} {current : GrammarStacks}
    (hinit : initRules n (encode G) start = .ok (some (rules, current)))
    (hleft : ¬ LeftRecursive rules) (hprod : Productive G) (w : List ℕ) :
    ∃ k out, (∀ m ≥ k, acceptAll m rules w current = .ok out) ∧
      (out ≠ [] ↔ ∃ v, Language G start (w ++ v)) ∧ ([] ∈ out ↔ Language G start w) := by
  obtain ⟨hvalid, -, hrules, hstart, hstacks⟩ := valid_of_initRules hinit
  have hcopy : rules = encode G := by
    rw [hrules, encode, List.map_map]
    exact List.map_congr_left fun rule _ => copyRule_elements rule
  subst hcopy
  obtain ⟨out, hsettles, hrec⟩ := recognizes_acceptAll hvalid hprod hleft w
    (recognizes_init hvalid hprod hstart hstacks)
  obtain ⟨k, hk⟩ := hsettles.eventually
  rw [List.nil_append] at hrec
  refine ⟨k, out, hk, ⟨fun hne => ?_, ?_⟩, ?_⟩
  · obtain ⟨t, ts, rfl⟩ := List.exists_cons_of_ne_nil hne
    obtain ⟨-, ss, hden, v, hv⟩ := hrec.ready t List.mem_cons_self
    have hrun := stackDerives_of_denotes hden hv
    exact ⟨v, (hrec.iff v).mpr ⟨t, List.mem_cons_self, hrun⟩⟩
  · rintro ⟨v, hv⟩ rfl
    obtain ⟨t, ht, -⟩ := (hrec.iff v).mp hv
    cases ht
  · have hiff := hrec.iff []
    rw [List.append_nil] at hiff
    rw [hiff]
    refine ⟨fun h => ⟨[], h, .nil⟩, ?_⟩
    rintro ⟨t, ht, hder⟩
    cases hder with
    | nil => exact ht
    | ref href _ _ =>
      have hkeep := (hrec.ready _ ht).1
      simp [visitStack, href] at hkeep

/-- `root ::= "a" root | "b"`. -/
def rightRecursive : List Rule :=
  [⟨[.chars false ⟨97, none⟩ [], .ref 0], [[.chars false ⟨98, none⟩ []]]⟩]

lemma productive_rightRecursive : Productive rightRecursive := by
  have hb : Derives rightRecursive [.chars false ⟨98, none⟩ []] [98] := .chr rfl .nil
  intro rule hrule a ha
  obtain rfl := mem_singleton.mp hrule
  have hroot : Derives rightRecursive [.ref 0] [98] :=
    .ref (w := []) rfl (mem_cons_of_mem _ mem_cons_self) hb .nil
  rcases mem_cons.mp ha with rfl | ha
  · exact ⟨[97, 98], .chr rfl hroot⟩
  · rw [mem_singleton.mp ha]
    exact ⟨[98], hb⟩

theorem acceptAll_language_rightRecursive :
    ∃ k out, (∀ m ≥ k, acceptAll m (encode rightRecursive) [97] [[(0, 0)], [(0, 3)]] = .ok out) ∧
      (out ≠ [] ↔ ∃ v, Language rightRecursive 0 ([97] ++ v)) ∧
        ([] ∈ out ↔ Language rightRecursive 0 [97]) :=
  acceptAll_language (by decide +kernel : initRules 2 (encode rightRecursive) 0 = _)
    (not_leftRecursive_of_starts (by decide)) productive_rightRecursive [97]

/-- `root ::= "a" [z-a] | "b"`, with a range that is empty. -/
def emptyRange : List Rule :=
  [⟨[.chars false ⟨97, none⟩ [], .chars false ⟨122, some 97⟩ []], [[.chars false ⟨98, none⟩ []]]⟩]

/-- The only rule of this grammar derives `"b"`, and after `"a"` there is still a stack, but
no word of the language starts with `"a"`. -/
theorem acceptAll_emptyRange :
    initRules 2 (encode emptyRange) 0 = .ok (some (encode emptyRange, [[(0, 0)], [(0, 4)]])) ∧
      ¬ LeftRecursive (encode emptyRange) ∧
      (∀ r < emptyRange.length, ∃ w, Language emptyRange r w) ∧
      acceptAll 2 (encode emptyRange) [97] [[(0, 0)], [(0, 4)]] = .ok [[(0, 1)]] ∧
      ¬ ∃ v, Language emptyRange 0 ([97] ++ v) := by
  refine ⟨by decide +kernel, not_leftRecursive_of_starts (by decide), ?_, by decide +kernel, ?_⟩
  · intro r hr
    obtain rfl : r = 0 := by simpa [emptyRange] using hr
    exact ⟨[98], _, rfl, [.chars false ⟨98, none⟩ []], by decide, .chr rfl .nil⟩
  · rintro ⟨v, rule, hrule, a, ha, hder⟩
    cases hrule
    rcases List.mem_cons.mp ha with rfl | ha
    · cases hder with
      | chr _ hrest =>
        cases hrest with
        | chr hc _ =>
          simp only [Sym.accepts, CharRange.contains, List.any_cons, List.any_nil, Bool.or_false,
            bne_iff_ne, ne_eq, Bool.not_eq_false, Bool.and_eq_true, decide_eq_true_eq] at hc
          omega
    · rw [List.mem_singleton.mp ha] at hder
      cases hder with
      | chr hc _ => exact absurd hc (by decide)

end Llama.Grammar
