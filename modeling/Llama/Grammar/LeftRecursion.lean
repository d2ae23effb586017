import Llama.Grammar
import Mathlib.Order.WellFounded
import Mathlib.Data.List.GetD
import Mathlib.Data.Set.Finite.Basic

/-!
# Left recursion

`advance_stack` ends on every stack of a grammar without left recursion
(`advanceStack_finishes`), where a reference is leftmost in an alternate when it follows
only references to rules that derive the empty string.  The detector follows the references
that come behind rules with an empty alternate of their own, and finds each cycle of these
(`not_transGen_of_detectRules`).
-/

namespace Llama.Grammar

open List

open Relation (TransGen ReflTransGen)

variable {rules : GrammarRules}

/-! ## Leftmost references -/

/-- The rest of an alternate derives the empty string. -/
inductive NullableFrom (rules : GrammarRules) : ElementPtr → Prop
  | done {pos : ElementPtr} (h : isEndOfSequence (element rules pos) = true) :
      NullableFrom rules pos
  | ref {pos subpos : ElementPtr} (h : (element rules pos).type = .ruleRef)
      (hsub : subpos ∈ alternates rules (element rules pos).value)
      (hnull : NullableFrom rules subpos) (hrest : NullableFrom rules (advancePtr pos 1)) :
      NullableFrom rules pos

/-- A rule derives the empty string, by itself or through other rules. -/
def Nullable (rules : GrammarRules) (r : ℕ) : Prop :=
  ∃ subpos ∈ alternates rules r, NullableFrom rules subpos

/-- A rule has an empty alternate. -/
def DirectlyNullable (rules : GrammarRules) (r : ℕ) : Prop :=
  ∃ subpos ∈ alternates rules r, isEndOfSequence (element rules subpos) = true

/-- From the first pointer only references to rules in `skip` are passed on the way to the
second. -/
inductive Leftmost (rules : GrammarRules) (skip : ℕ → Prop) : ElementPtr → ElementPtr → Prop
  | refl (pos : ElementPtr) : Leftmost rules skip pos pos
  | skip {start pos : ElementPtr} (hleft : Leftmost rules skip start pos)
      (href : (element rules pos).type = .ruleRef) (hskip : skip (element rules pos).value) :
      Leftmost rules skip start (advancePtr pos 1)

/-- Rule `r'` is referred to in an alternate of `r` behind references to rules in `skip`. -/
def LeftRef (rules : GrammarRules) (skip : ℕ → Prop) (r r' : ℕ) : Prop :=
  ∃ start ∈ alternates rules r, ∃ pos, Leftmost rules skip start pos ∧
    (element rules pos).type = .ruleRef ∧ (element rules pos).value = r'

/-- A rule comes back to itself through leftmost references, nothing being consumed. -/
def LeftRecursive (rules : GrammarRules) : Prop :=
  ∃ r, TransGen (LeftRef rules (Nullable rules)) r r

/-- A leftmost reference that skips a rule which derives the empty string only through other
rules. -/
def HiddenRef (rules : GrammarRules) (r r' : ℕ) : Prop :=
  LeftRef rules (Nullable rules) r r' ∧ ¬ LeftRef rules (DirectlyNullable rules) r r'

/-! ## Termination of `advance_stack` -/

/-- `advance_stack` ends on the stack. -/
def Advances (rules : GrammarRules) (stack : GrammarStack) : Prop :=
  Acc (fun t s => Worklist.Step (visitStack rules) s t) stack

variable {stack : GrammarStack} {pos : ElementPtr} {r : ℕ}

lemma advances_of_visit
    (h : ∀ next, visitStack rules stack = .expand next → ∀ t ∈ next, Advances rules t) :
    Advances rules stack := by
  refine ⟨_, fun t ht => ?_⟩
  obtain ⟨next, hv, hmem⟩ := ht
  exact h next hv t hmem

lemma advances_nil : Advances rules [] := by
  refine advances_of_visit fun next hv => ?_
  cases hv

/-- Only a reference is expanded. -/
lemma visitStack_expand {next : List GrammarStack}
    (h : visitStack rules (pos :: stack) = .expand next) :
    (element rules pos).type = .ruleRef ∧
      next = (alternates rules (element rules pos).value).map fun subpos =>
        pushUnlessEnd rules subpos (pushUnlessEnd rules (advancePtr pos 1) stack) := by
  rw [visitStack] at h
  split at h
  · rename_i href
    cases h
    exact ⟨href, rfl⟩
  all_goals cases h

/-- With this pointer on top a stack is expanded to its end, if what lies below is as soon
as the rest of the alternate is gone. -/
def Safe (rules : GrammarRules) (pos : ElementPtr) : Prop :=
  ∀ stack, (NullableFrom rules pos → Advances rules stack) →
    Advances rules (pushUnlessEnd rules pos stack)

lemma safe_of_end (h : isEndOfSequence (element rules pos) = true) : Safe rules pos := by
  intro stack hstack
  rw [pushUnlessEnd, if_pos h]
  exact hstack (.done h)

lemma safe_of_not_ref (h : (element rules pos).type ≠ .ruleRef) : Safe rules pos := by
  intro stack hstack
  rw [pushUnlessEnd]
  split
  · rename_i hend
    exact hstack (.done hend)
  · exact advances_of_visit fun next hv => absurd (visitStack_expand hv).1 h

/-- A reference is safe when the alternates of its rule are, and the next element if it can
come to the top. -/
lemma safe_of_ref (h : (element rules pos).type = .ruleRef)
    (halt : ∀ subpos ∈ alternates rules (element rules pos).value, Safe rules subpos)
    (hnext : Nullable rules (element rules pos).value → Safe rules (advancePtr pos 1)) :
    Safe rules pos := by
  intro stack hstack
  have hend : ¬ isEndOfSequence (element rules pos) = true := by simp [isEndOfSequence, h]
  rw [pushUnlessEnd, if_neg hend]
  refine advances_of_visit fun next hv t ht => ?_
  obtain ⟨-, rfl⟩ := visitStack_expand hv
  obtain ⟨subpos, hmem, rfl⟩ := mem_map.mp ht
  refine halt subpos hmem _ fun hnull => ?_
  exact hnext ⟨subpos, hmem, hnull⟩ stack fun hrest => hstack (.ref h hmem hnull hrest)

/-- From a pointer at which all references have safe alternates, the rest of the alternate
is safe. -/
lemma safe_of_refs (skip : ElementPtr → Prop)
    (hskip : ∀ pos, skip pos → (element rules pos).type = .ruleRef →
      (∀ subpos ∈ alternates rules (element rules pos).value, Safe rules subpos) ∧
        (Nullable rules (element rules pos).value → skip (advancePtr pos 1))) :
    ∀ (k : ℕ) (pos : ElementPtr), skip pos → (suffix rules pos).length ≤ k → Safe rules pos := by
  intro k
  induction k with
  | zero =>
    intro pos _ hlen
    have hnil : suffix rules pos = [] := eq_nil_of_length_eq_zero (by omega)
    exact safe_of_end (by rw [element, hnil]; rfl)
  | succ k ih =>
    intro pos hpos hlen
    by_cases href : (element rules pos).type = .ruleRef
    · obtain ⟨halt, hnext⟩ := hskip pos hpos href
      refine safe_of_ref href halt fun hnull => ih _ (hnext hnull) ?_
      have hsuffix : suffix rules (advancePtr pos 1) = (suffix rules pos).drop 1 := by
        simp [suffix, advancePtr]
      rw [hsuffix, length_drop]
      omega
    · exact safe_of_not_ref href

/-- The alternates of each rule are safe, when there is no infinite chain of leftmost
references. -/
lemma safe_alternates (h : Acc (fun r' r => LeftRef rules (Nullable rules) r r') r) :
    ∀ subpos ∈ alternates rules r, Safe rules subpos := by
  induction h with
  | intro r _ ih =>
    intro start hstart
    refine safe_of_refs (fun pos => Leftmost rules (Nullable rules) start pos) ?_ _ start (.refl _)
      le_rfl
    intro pos hleft href
    exact ⟨ih _ ⟨start, hstart, pos, hleft, href, rfl⟩, fun hnull => hleft.skip href hnull⟩

lemma advances_pushUnlessEnd (hpos : Safe rules pos) (hstack : Advances rules stack) :
    Advances rules (pushUnlessEnd rules pos stack) :=
  hpos stack fun _ => hstack

/-- **Every stack is expanded to its end** when no chain of leftmost references is infinite. -/
theorem advances (h : ∀ r, Acc (fun r' r => LeftRef rules (Nullable rules) r r') r)
    (stack : GrammarStack) : Advances rules stack := by
  induction stack with
  | nil => exact advances_nil
  | cons pos stack ih =>
    have hsafe : Safe rules pos := by
      refine safe_of_refs (fun _ => True) (fun p _ _ => ?_) _ pos trivial le_rfl
      exact ⟨safe_alternates (h _), fun _ => trivial⟩
    by_cases hend : isEndOfSequence (element rules pos) = true
    · refine advances_of_visit fun next hv => ?_
      have href := (visitStack_expand hv).1
      simp [isEndOfSequence, href] at hend
    · have hadv := advances_pushUnlessEnd hsafe ih
      rwa [pushUnlessEnd, if_neg hend] at hadv

/-- A rule with a leftmost reference is a rule of the grammar. -/
lemma LeftRef.lt_length {skip : ℕ → Prop} {r' : ℕ} (h : LeftRef rules skip r r') :
    r < rules.length := by
  obtain ⟨start, hstart, pos, hleft, href, -⟩ := h
  by_contra hge
  have hfst : pos.1 = r := by
    clear href
    induction hleft with
    | refl =>
      obtain ⟨i, -, rfl⟩ := mem_map.mp hstart
      rfl
    | skip _ _ _ ih => exact ih
  have hnil : suffix rules pos = [] := by
    rw [suffix, getD_eq_getElem?_getD, getElem?_eq_none (by omega), Option.getD_none, drop_nil]
  rw [element, hnil] at href
  cases href

/-- A grammar in which no alternate starts with a reference is not left recursive. -/
lemma not_leftRecursive_of_starts (h : ∀ r < rules.length, ∀ start ∈ alternates rules r,
    (element rules start).type ≠ .ruleRef) : ¬ LeftRecursive rules := by
  rintro ⟨r, hcycle⟩
  obtain ⟨r', hr', -⟩ := TransGen.head'_iff.mp hcycle
  have hlt := hr'.lt_length
  obtain ⟨start, hstart, pos, hleft, href, -⟩ := hr'
  have hpos : pos = start := by
    clear href
    induction hleft with
    | refl => rfl
    | skip _ href _ ih => exact absurd (ih ▸ href) (h r hlt start hstart)
  exact h r hlt start hstart (hpos ▸ href)

/-- In a finite grammar without left recursion no chain of leftmost references is infinite. -/
lemma acc_leftRef (h : ¬ LeftRecursive rules) (r : ℕ) :
    Acc (fun r' r => LeftRef rules (Nullable rules) r r') r := by
  let R : Fin rules.length → Fin rules.length → Prop :=
    fun j i => TransGen (LeftRef rules (Nullable rules)) i j
  have hirrefl : Std.Irrefl R := ⟨fun i hi => h ⟨i, hi⟩⟩
  have hwf : WellFounded R := Finite.wellFounded_of_trans_of_irrefl R
  have hacc : ∀ i : Fin rules.length, Acc (fun r' r => LeftRef rules (Nullable rules) r r') i := by
    intro i
    induction i using hwf.induction with
    | _ i ih =>
      refine ⟨_, fun r' hr' => ?_⟩
      by_cases hlt : r' < rules.length
      · exact ih ⟨r', hlt⟩ (.single hr')
      · exact ⟨_, fun r'' hr'' => absurd hr''.lt_length hlt⟩
  by_cases hlt : r < rules.length
  · exact hacc ⟨r, hlt⟩
  · exact ⟨_, fun r' hr' => absurd hr'.lt_length hlt⟩

/-- `advance_stack` ends on every stack. -/
lemma advanceStack_finishes (h : ¬ LeftRecursive rules) (stack : GrammarStack)
    (newStacks : GrammarStacks) :
    ∃ n, advanceStack n rules stack newStacks ≠ .unfinished := by
  obtain ⟨l, hl⟩ := Worklist.finite_of_acc (advances (acc_leftRef h) stack)
  exact Worklist.search_finishes hl newStacks

/-! ## The detector -/

/-- What `init_impl` makes sure of before it looks for left recursion: rules end with `end_`
and references point to rules. -/
structure Valid (rules : GrammarRules) : Prop where
  last : ∀ rule ∈ rules, rule.getLast?.map GrammarElement.type = some .end_
  ref : ∀ rule ∈ rules, ∀ e ∈ rule, e.type = .ruleRef → e.value < rules.length

lemma suffix_of_ref (h : (element rules pos).type = .ruleRef) :
    suffix rules pos = element rules pos :: suffix rules (advancePtr pos 1) := by
  have hsuffix : suffix rules (advancePtr pos 1) = (suffix rules pos).tail := by
    simp [suffix, advancePtr]
  rw [hsuffix, element]
  cases hs : suffix rules pos with
  | nil =>
    rw [element, hs] at h
    cases h
  | cons e es => rfl

/-- An element that is a reference is one of the grammar. -/
lemma element_mem (href : (element rules pos).type = .ruleRef) :
    ∃ rule ∈ rules, element rules pos ∈ rule := by
  have hmem : element rules pos ∈ rules.getD pos.1 [] := by
    refine mem_of_mem_drop (i := pos.2) ?_
    change _ ∈ suffix rules pos
    rw [suffix_of_ref href]
    exact mem_cons_self
  by_cases hlt : pos.1 < rules.length
  · rw [getD_eq_getElem _ _ hlt] at hmem
    exact ⟨_, getElem_mem hlt, hmem⟩
  · rw [getD_eq_getElem?_getD, getElem?_eq_none (by omega)] at hmem
    cases hmem

lemma Valid.element_lt (h : Valid rules) (href : (element rules pos).type = .ruleRef) :
    (element rules pos).value < rules.length := by
  obtain ⟨rule, hrule, hmem⟩ := element_mem href
  exact h.ref rule hrule _ hmem href

/-- The references that the second loop of the detector follows. -/
def leftmostRefs (skip : ℕ → Bool) : List GrammarElement → Bool → List ℕ
  | [], _ => []
  | e :: es, leftmost =>
    if e.type = .ruleRef ∧ leftmost = true then e.value :: leftmostRefs skip es (skip e.value)
    else leftmostRefs skip es (isEndOfSequence e)

lemma altStarts_lt {es : List GrammarElement} : ∀ {i k : ℕ}, k ∈ altStarts es i → i < k := by
  induction es with
  | nil => intro i k h; cases h
  | cons e es ih =>
    intro i k h
    rw [altStarts] at h
    split at h
    · cases h
    · rcases mem_cons.mp h with rfl | h
      · omega
      · have := ih h
        omega
    · have := ih h
      omega

lemma drop_ne_nil_of_altStarts {es : List GrammarElement} : ∀ {i k : ℕ}, k ∈ altStarts es i →
    es.getLast?.map GrammarElement.type = some .end_ → es.drop (k - i) ≠ [] := by
  induction es with
  | nil => intro i k h; cases h
  | cons e es ih =>
    intro i k h hlast
    have hlt := altStarts_lt h
    have hdrop : (e :: es).drop (k - i) = es.drop (k - (i + 1)) := by
      have : k - i = k - (i + 1) + 1 := by omega
      rw [this, drop_succ_cons]
    rw [hdrop]
    cases es with
    | nil =>
      have htype : e.type = .end_ := by simpa using hlast
      simp [altStarts, htype] at h
    | cons u es =>
      rw [altStarts] at h
      split at h
      · cases h
      · rcases mem_cons.mp h with rfl | h
        · rw [Nat.sub_self]
          exact cons_ne_nil u es
        · exact ih h hlast
      · exact ih h hlast

/-- What holds at the start of an alternate holds at the start of the rule, when it holds
behind an `alt` and can be carried over an element. -/
lemma of_altStarts {P : List GrammarElement → Bool → Prop}
    (halt : ∀ e es b, e.type = .alt → P es true → P (e :: es) b)
    (hcons : ∀ e es b, (∀ b', P es b') → P (e :: es) b) {es : List GrammarElement} :
    ∀ {i k : ℕ}, k ∈ altStarts es i → P (es.drop (k - i)) true → ∀ b, P es b := by
  induction es with
  | nil => intro i k h; cases h
  | cons e es ih =>
    intro i k h hP b
    have hlt := altStarts_lt h
    have hdrop : (e :: es).drop (k - i) = es.drop (k - (i + 1)) := by
      have : k - i = k - (i + 1) + 1 := by omega
      rw [this, drop_succ_cons]
    rw [hdrop] at hP
    rw [altStarts] at h
    split at h
    · cases h
    · rename_i htype
      rcases mem_cons.mp h with rfl | h
      · rw [Nat.sub_self] at hP
        exact halt e es b htype hP
      · exact hcons e es b (ih h hP)
    · exact hcons e es b (ih h hP)

lemma mem_leftmostRefs_start {skip : ℕ → Bool} {c : ℕ} {start : ElementPtr}
    (hstart : start ∈ alternates rules r) (h : c ∈ leftmostRefs skip (suffix rules start) true) :
    c ∈ leftmostRefs skip (rules.getD r []) true := by
  obtain ⟨k, hk, rfl⟩ := mem_map.mp hstart
  rcases mem_cons.mp hk with rfl | hk
  · exact h
  · refine of_altStarts (P := fun es b => c ∈ leftmostRefs skip es b) ?_ ?_ hk h true
    · intro e es b htype hc
      simp only [leftmostRefs, htype, isEndOfSequence]
      simpa using hc
    · intro e es b hc
      rw [leftmostRefs]
      split
      · exact mem_cons_of_mem _ (hc _)
      · exact hc _

/-- The detector follows every reference that only skips rules it knows to be empty. -/
lemma LeftRef.mem_leftmostRefs {skip : ℕ → Prop} {skip' : ℕ → Bool} {c : ℕ}
    (h : LeftRef rules skip r c)
    (hskip : ∀ pos, (element rules pos).type = .ruleRef → skip (element rules pos).value →
      skip' (element rules pos).value = true) : c ∈ leftmostRefs skip' (rules.getD r []) true := by
  obtain ⟨start, hstart, pos, hleft, href, rfl⟩ := h
  refine mem_leftmostRefs_start hstart ?_
  have hpos : (element rules pos).value ∈ leftmostRefs skip' (suffix rules pos) true := by
    rw [suffix_of_ref href, leftmostRefs, if_pos ⟨href, rfl⟩]
    exact mem_cons_self
  clear href
  generalize (element rules pos).value = c at hpos
  induction hleft with
  | refl => exact hpos
  | skip _ href' hs ih =>
    refine ih ?_
    rw [suffix_of_ref href', leftmostRefs, if_pos ⟨href', rfl⟩, hskip _ href' hs]
    exact mem_cons_of_mem _ hpos

/-- There is no left recursion when the leftmost references lead to later rules. -/
lemma not_leftRecursive_of_lt (h : ∀ r < rules.length,
    ∀ c ∈ leftmostRefs (fun _ => true) (rules.getD r []) true, r < c) : ¬ LeftRecursive rules := by
  rintro ⟨r, hcycle⟩
  have hlt : TransGen (· < ·) r r := TransGen.mono (fun r c (href : LeftRef _ _ _ _) =>
    h r href.lt_length c (href.mem_leftmostRefs fun _ _ _ => rfl)) r r hcycle
  exact lt_irrefl r (by rwa [Relation.transGen_eq_self] at hlt)

/-- The detector knows the rules with an empty alternate. -/
lemma Valid.hasEmptyAlternate (h : Valid rules) (hr : r < rules.length)
    (hnull : DirectlyNullable rules r) :
    Grammar.hasEmptyAlternate (rules.getD r []) true = true := by
  obtain ⟨start, hstart, hend⟩ := hnull
  obtain ⟨k, hk, rfl⟩ := mem_map.mp hstart
  rw [getD_eq_getElem _ _ hr] at hk ⊢
  have hlast := h.last _ (getElem_mem hr)
  have hel : element rules (r, k) = headElement (rules[r].drop k) := by
    rw [element, suffix, getD_eq_getElem _ _ hr]
  rw [hel] at hend
  -- an alternate that starts in the rule has an element, as the rule ends with `end_`
  have hhead : ∀ es : List GrammarElement, es ≠ [] → isEndOfSequence (headElement es) = true →
      Grammar.hasEmptyAlternate es true = true := by
    intro es hne he
    obtain ⟨e, es, rfl⟩ := exists_cons_of_ne_nil hne
    have he : isEndOfSequence e = true := he
    simp [Grammar.hasEmptyAlternate, he]
  rcases mem_cons.mp hk with rfl | hk
  · refine hhead _ (fun hnil => ?_) hend
    rw [hnil] at hlast
    cases hlast
  · refine of_altStarts (P := fun es b => Grammar.hasEmptyAlternate es b = true) ?_ ?_ hk
      (hhead _ (drop_ne_nil_of_altStarts hk hlast) hend) true
    · intro e es b htype he
      simp [Grammar.hasEmptyAlternate, isEndOfSequence, htype, he]
    · intro e es b he
      simp [Grammar.hasEmptyAlternate, he]

/-- The leftmost references that the detector follows. -/
def DirectRef (rules : GrammarRules) : ℕ → ℕ → Prop := LeftRef rules (DirectlyNullable rules)

/-- No cycle of such references can be reached from the rule. -/
def Acyclic (rules : GrammarRules) (r : ℕ) : Prop :=
  ∀ r', ReflTransGen (DirectRef rules) r r' → ¬ TransGen (DirectRef rules) r' r'

/-- What the detector did when it found nothing behind the rules `cs`. -/
structure Explored (rules : GrammarRules) (cs : List ℕ) (d d' : Detector) : Prop where
  inProgress : d'.rulesInProgress = d.rulesInProgress
  visited : ∀ i, d'.rulesVisited i = true → d.rulesVisited i = true ∨ Acyclic rules i
  mayBeEmpty : ∀ i, d.rulesMayBeEmpty i = true → d'.rulesMayBeEmpty i = true
  fresh : ∀ c ∈ cs, ∀ r', ReflTransGen (DirectRef rules) c r' → d.rulesInProgress r' = false
  acyclic : ∀ c ∈ cs, Acyclic rules c

lemma Explored.refl (d : Detector) : Explored rules [] d d :=
  ⟨rfl, fun _ h => .inl h, fun _ h => h, fun _ h => absurd h not_mem_nil,
    fun _ h => absurd h not_mem_nil⟩

lemma Explored.trans {cs cs' : List ℕ} {d d' d'' : Detector} (h : Explored rules cs d d')
    (h' : Explored rules cs' d' d'') : Explored rules (cs ++ cs') d d'' where
  inProgress := h'.inProgress.trans h.inProgress
  visited i hi := (h'.visited i hi).elim (h.visited i) .inr
  mayBeEmpty i hi := h'.mayBeEmpty i (h.mayBeEmpty i hi)
  fresh c hc r' hr' := (mem_append.mp hc).elim (fun hc => h.fresh c hc r' hr')
    fun hc => h.inProgress ▸ h'.fresh c hc r' hr'
  acyclic c hc := (mem_append.mp hc).elim (h.acyclic c) (h'.acyclic c)

/-- The rules of which the detector finds an empty alternate. -/
def knownEmpty (rules : GrammarRules) (r : ℕ) : Bool := hasEmptyAlternate (rules.getD r []) true

lemma enter_mayBeEmpty (rules : GrammarRules) (r : ℕ) {d : Detector} {i : ℕ}
    (h : d.rulesMayBeEmpty i = true) : (d.enter rules r).rulesMayBeEmpty i = true := by
  rw [Detector.enter]
  split
  · by_cases hir : i = r
    · simp [hir]
    · simpa [hir] using h
  · exact h

lemma enter_of_knownEmpty (d : Detector) (h : knownEmpty rules r = true) :
    (d.enter rules r).rulesMayBeEmpty r = true := by
  rw [knownEmpty] at h
  simp only [Detector.enter, if_pos h, Function.update_self]

lemma explored_detectLoop {recurse : ℕ → Detector → Bool × Detector}
    (hrec : ∀ c d d', recurse c d = (false, d') → Explored rules [c] d d' ∧
      (knownEmpty rules c = true → d'.rulesMayBeEmpty c = true)) (es : List GrammarElement) :
    ∀ {leftmost b : Bool} {d d' : Detector}, (b = true → leftmost = true) →
      detectLoop recurse es leftmost d = (false, d') →
        Explored rules (leftmostRefs (knownEmpty rules) es b) d d' := by
  induction es with
  | nil =>
    intro leftmost b d d' _ h
    cases h
    exact .refl d
  | cons e es ih =>
    intro leftmost b d d' hb h
    rw [detectLoop] at h
    split at h
    · rename_i hfollow
      cases hc : recurse e.value d with
      | mk res d1 =>
        rw [hc] at h
        cases res with
        | true => cases h
        | false =>
          obtain ⟨hexp, hempty⟩ := hrec _ _ _ hc
          rw [leftmostRefs]
          split
          · exact hexp.trans (ih hempty h)
          · have hend : isEndOfSequence e = false := by simp [isEndOfSequence, hfollow.1]
            rw [hend]
            have hrest := ih (b := false) (fun hf => absurd hf Bool.false_ne_true) h
            have hboth := hexp.trans hrest
            exact ⟨hboth.inProgress, hboth.visited, hboth.mayBeEmpty,
              fun c hc => hboth.fresh c (mem_append_right _ hc),
              fun c hc => hboth.acyclic c (mem_append_right _ hc)⟩
    · rename_i hskip
      have hb' : ¬ (e.type = .ruleRef ∧ b = true) := fun hboth => hskip ⟨hboth.1, hb hboth.2⟩
      rw [leftmostRefs, if_neg hb']
      split at h
      · exact ih (fun _ => rfl) h
      · rename_i hend
        exact ih (fun hf => absurd hf hend) h

/-- **A call of the detector** that finds nothing has followed every leftmost reference. -/
theorem explored_detectLeftRecursion (hvalid : Valid rules) (n : ℕ) :
    ∀ (r : ℕ) (d d' : Detector), detectLeftRecursion rules n r d = (false, d') →
      Explored rules [r] d d' ∧ (knownEmpty rules r = true → d'.rulesMayBeEmpty r = true) := by
  induction n with
  | zero => intro r d d' h; cases h
  | succ n ih =>
    intro r d d' h
    rw [detectLeftRecursion] at h
    split at h
    · cases h
    rename_i hfree
    cases hloop : detectLoop (detectLeftRecursion rules n) (rules.getD r []) true
      (d.enter rules r) with
    | mk res d2 =>
      rw [hloop] at h
      cases res with
      | true => cases h
      | false =>
        cases h
        have hexp := explored_detectLoop ih _ (b := true) (fun _ => rfl) hloop
        have hnext : ∀ c, DirectRef rules r c →
            c ∈ leftmostRefs (knownEmpty rules) (rules.getD r []) true := fun c hc =>
          hc.mem_leftmostRefs fun pos href hnull =>
            hvalid.hasEmptyAlternate (hvalid.element_lt href) hnull
        have hfree' : d.rulesInProgress r = false := by simpa using hfree
        have hout : ∀ r', TransGen (DirectRef rules) r r' →
            r' ≠ r ∧ d.rulesInProgress r' = false := by
          intro r' hr'
          obtain ⟨c, hrc, hcr'⟩ := TransGen.head'_iff.mp hr'
          have hfresh := hexp.fresh c (hnext c hrc) r' hcr'
          by_cases hne : r' = r
          · simp [Detector.enter, hne] at hfresh
          · simpa [Detector.enter, hne] using hfresh
        have hacyc : Acyclic rules r := by
          intro r' hr' hcycle
          rcases ReflTransGen.cases_head hr' with rfl | ⟨c, hrc, hcr'⟩
          · exact (hout _ hcycle).1 rfl
          · exact hexp.acyclic c (hnext c hrc) r' hcr' hcycle
        refine ⟨⟨?_, ?_, ?_, ?_, ?_⟩, fun he => hexp.mayBeEmpty r (enter_of_knownEmpty d he)⟩
        · funext i
          by_cases hir : i = r
          · simp [Detector.leave, hir, hfree']
          · simp [Detector.leave, Detector.enter, hexp.inProgress, hir]
        · intro i hi
          by_cases hir : i = r
          · exact .inr (hir ▸ hacyc)
          · have hi : d2.rulesVisited i = true := by simpa [Detector.leave, hir] using hi
            exact hexp.visited i hi
        · exact fun i hi => hexp.mayBeEmpty i (enter_mayBeEmpty rules r hi)
        · intro c hc r' hr'
          cases List.mem_singleton.mp hc
          rcases Relation.reflTransGen_iff_eq_or_transGen.mp hr' with rfl | hr'
          · exact hfree'
          · exact (hout r' hr').2
        · intro c hc
          cases List.mem_singleton.mp hc
          exact hacyc

/-- How many rules are not in progress. -/
def idle (rules : GrammarRules) (d : Detector) : ℕ :=
  ((Finset.range rules.length).filter fun i => d.rulesInProgress i = false).card

lemma idle_enter {d : Detector} (hr : r < rules.length) (hfree : d.rulesInProgress r = false) :
    idle rules (d.enter rules r) < idle rules d := by
  refine Finset.card_lt_card (Finset.ssubset_iff_of_subset ?_ |>.mpr ⟨r, ?_, ?_⟩)
  · intro i hi
    obtain ⟨h1, h2⟩ := Finset.mem_filter.mp hi
    refine Finset.mem_filter.mpr ⟨h1, ?_⟩
    by_cases hir : i = r
    · rwa [hir]
    · simpa [Detector.enter, hir] using h2
  · exact Finset.mem_filter.mpr ⟨Finset.mem_range.mpr hr, hfree⟩
  · simp [Detector.enter]

lemma detectLoop_congr {f g : ℕ → Detector → Bool × Detector} {p : ℕ → Bool}
    (hfg : ∀ c < rules.length, ∀ d, d.rulesInProgress = p → f c d = g c d)
    (hkeep : ∀ c d d', f c d = (false, d') → d'.rulesInProgress = d.rulesInProgress)
    (es : List GrammarElement) :
    ∀ {leftmost : Bool} {d : Detector}, (∀ e ∈ es, e.type = .ruleRef → e.value < rules.length) →
      d.rulesInProgress = p → detectLoop f es leftmost d = detectLoop g es leftmost d := by
  induction es with
  | nil => intro _ _ _ _; rfl
  | cons e es ih =>
    intro leftmost d hes hd
    have hrest : ∀ e' ∈ es, e'.type = .ruleRef → e'.value < rules.length :=
      fun e' he' => hes e' (mem_cons_of_mem _ he')
    rw [detectLoop, detectLoop]
    split
    · rename_i hfollow
      rw [← hfg e.value (hes e mem_cons_self hfollow.1) d hd]
      cases hc : f e.value d with
      | mk res d1 =>
        cases res with
        | true => rfl
        | false => exact ih hrest ((hkeep _ _ _ hc).trans hd)
    · split
      · exact ih hrest hd
      · exact ih hrest hd

/-- More levels than there are idle rules make no difference, so that the detector never
runs out of them. -/
lemma detectLeftRecursion_levels (hvalid : Valid rules) (n : ℕ) :
    ∀ {m r : ℕ} {d : Detector}, r < rules.length → idle rules d < n → idle rules d < m →
      detectLeftRecursion rules n r d = detectLeftRecursion rules m r d := by
  induction n with
  | zero => intro m r d _ h; cases h
  | succ n ih =>
    intro m r d hr hn hm
    obtain ⟨m, rfl⟩ : ∃ m', m = m' + 1 := ⟨m - 1, by omega⟩
    rw [detectLeftRecursion, detectLeftRecursion]
    split
    · rfl
    · rename_i hfree
      have hless := idle_enter hr (by simpa using hfree)
      have hloop : detectLoop (detectLeftRecursion rules n) (rules.getD r []) true
          (d.enter rules r) =
          detectLoop (detectLeftRecursion rules m) (rules.getD r []) true (d.enter rules r) := by
        have hcalls : ∀ c < rules.length, ∀ d',
            d'.rulesInProgress = (d.enter rules r).rulesInProgress →
              detectLeftRecursion rules n c d' = detectLeftRecursion rules m c d' := by
          intro c hc d' hd'
          have hidle : idle rules d' = idle rules (d.enter rules r) := by rw [idle, hd', idle]
          exact ih hc (by omega) (by omega)
        refine detectLoop_congr hcalls ?_ _ ?_ rfl
        · exact fun c d d' hcall => (explored_detectLeftRecursion hvalid n c d d' hcall).1.inProgress
        · intro e he
          rw [getD_eq_getElem _ _ hr] at he
          exact hvalid.ref _ (getElem_mem hr) e he
      rw [hloop]

lemma acyclic_of_detectRules (hvalid : Valid rules) (is : List ℕ) :
    ∀ {d : Detector}, (∀ i, d.rulesVisited i = true → Acyclic rules i) →
      detectRules rules is d = false → ∀ i ∈ is, Acyclic rules i := by
  induction is with
  | nil => intro d _ _ i hi; cases hi
  | cons i is ih =>
    intro d hd h j hj
    rw [detectRules] at h
    split at h
    · rename_i hvisited
      rcases List.mem_cons.mp hj with rfl | hj
      · exact hd _ hvisited
      · exact ih hd h j hj
    · cases hcall : detectLeftRecursion rules (rules.length + 1) i d with
      | mk res d1 =>
        rw [hcall] at h
        rw [Bool.or_eq_false_iff] at h
        obtain ⟨rfl, h⟩ := h
        obtain ⟨hexp, -⟩ := explored_detectLeftRecursion hvalid _ _ _ _ hcall
        rcases List.mem_cons.mp hj with rfl | hj
        · exact hexp.acyclic _ (List.mem_singleton_self _)
        · exact ih (fun k hk => (hexp.visited k hk).elim (hd k) id) h j hj

/-- **The detector finds every cycle** of references that skip only rules with an empty
alternate of their own. -/
theorem not_transGen_directRef (hvalid : Valid rules) (h : leftRecursionDetected rules = false)
    (r : ℕ) : ¬ TransGen (DirectRef rules) r r := by
  intro hcycle
  obtain ⟨c, hrc, -⟩ := TransGen.head'_iff.mp hcycle
  have hacyc := acyclic_of_detectRules hvalid (List.range rules.length) (fun _ hi => by cases hi) h r
    (List.mem_range.mpr hrc.lt_length)
  exact hacyc r .refl hcycle

lemma copyRule_last (rule : List GrammarElement) :
    (copyRule rule).getLast?.map GrammarElement.type = some .end_ := by
  simp [copyRule]

/-- The rules that `init_impl` accepts. -/
lemma valid_of_initRules {n start : ℕ} {raw : GrammarRules} {st : GrammarStacks}
    (h : initRules n raw start = .ok (some (rules, st))) :
    Valid rules ∧ leftRecursionDetected rules = false ∧ rules = raw.map copyRule ∧
      start < rules.length ∧ initStacks n rules (alternates rules start) [] = .ok st := by
  simp only [initRules] at h
  split at h
  · cases h
  · rename_i hok
    simp only [Bool.or_eq_true, Bool.not_eq_true', not_or, Bool.not_eq_false,
      Bool.not_eq_true] at hok
    obtain ⟨hrefs, hdetect⟩ := hok
    obtain ⟨⟨⟩, hassert, h⟩ := Exec.bind_eq_ok.mp h
    obtain ⟨st', hinit, h⟩ := Exec.bind_eq_ok.mp h
    cases h
    have hlt : start < (raw.map copyRule).length := by
      by_contra hge
      rw [Exec.assert, if_neg hge] at hassert
      cases hassert
    refine ⟨⟨?_, ?_⟩, hdetect, rfl, hlt, hinit⟩
    · intro rule hrule
      obtain ⟨r, -, rfl⟩ := mem_map.mp hrule
      exact copyRule_last r
    · intro rule hrule e he href
      simp only [refsValid, all_eq_true] at hrefs
      have := hrefs rule hrule e he
      simp [href] at this
      simpa using this.1

/-- A cycle of leftmost references that the detector misses goes through a hidden one. -/
lemma exists_hiddenRef (hacyc : ∀ r, ¬ TransGen (DirectRef rules) r r)
    (hcycle : TransGen (LeftRef rules (Nullable rules)) r r) :
    ∃ a b, HiddenRef rules a b ∧ ReflTransGen (LeftRef rules (Nullable rules)) b a := by
  by_contra hno
  push Not at hno
  -- every link from a rule on the cycle back to it is a direct one
  have hdirect : ∀ s, ReflTransGen (LeftRef rules (Nullable rules)) s r →
      TransGen (LeftRef rules (Nullable rules)) r s → TransGen (DirectRef rules) r s := by
    intro s hback hs
    induction hs with
    | @single b h =>
      by_cases hd : DirectRef rules r b
      · exact .single hd
      · exact absurd hback (hno _ _ ⟨h, hd⟩)
    | @tail b c hb h ih =>
      by_cases hd : DirectRef rules b c
      · exact (ih (.head h hback)).tail hd
      · exact absurd (hback.trans hb.to_reflTransGen) (hno _ _ ⟨h, hd⟩)
  exact hacyc r (hdirect r .refl hcycle)

/-- **Grammars that pass the check.**  The check has found all left recursion, and
`advance_stack` ends on every stack, exactly when no cycle of leftmost references goes
through a hidden one. -/
theorem advanceStack_finishes_iff (hvalid : Valid rules)
    (hchecked : leftRecursionDetected rules = false) :
    (¬ LeftRecursive rules ∧ ∀ stack newStacks,
      ∃ n, advanceStack n rules stack newStacks ≠ .unfinished) ↔
    ∀ r r', HiddenRef rules r r' → ¬ ReflTransGen (LeftRef rules (Nullable rules)) r' r := by
  constructor
  · rintro ⟨hleft, -⟩ r r' hhidden hback
    exact hleft ⟨r, .head' hhidden.1 hback⟩
  · intro hcond
    have hleft : ¬ LeftRecursive rules := by
      rintro ⟨r, hcycle⟩
      obtain ⟨a, b, hhidden, hback⟩ :=
        exists_hiddenRef (not_transGen_directRef hvalid hchecked) hcycle
      exact hcond a b hhidden hback
    exact ⟨hleft, advanceStack_finishes hleft⟩

/-- `root ::= "a" root | "b"`. -/
def rightRecursion : GrammarRules :=
  [[⟨.char, 97⟩, ⟨.ruleRef, 0⟩, ⟨.alt, 0⟩, ⟨.char, 98⟩, ⟨.end_, 0⟩]]

theorem advanceStack_finishes_iff_rightRecursion :
    (¬ LeftRecursive rightRecursion ∧ ∀ stack newStacks,
      ∃ n, advanceStack n rightRecursion stack newStacks ≠ .unfinished) ↔
    ∀ r r', HiddenRef rightRecursion r r' →
      ¬ ReflTransGen (LeftRef rightRecursion (Nullable rightRecursion)) r' r :=
  advanceStack_finishes_iff ⟨by decide, by decide⟩ (by decide)

/-- `root ::= "a" s`, `s ::= e s "z" | "x"`, `e ::= f`, `f ::= "" | "y"`: `e` derives the
empty string, but only through `f`. -/
def hiddenRecursion : GrammarRules :=
  [[⟨.char, 97⟩, ⟨.ruleRef, 1⟩, ⟨.end_, 0⟩],
   [⟨.ruleRef, 2⟩, ⟨.ruleRef, 1⟩, ⟨.char, 122⟩, ⟨.alt, 0⟩, ⟨.char, 120⟩, ⟨.end_, 0⟩],
   [⟨.ruleRef, 3⟩, ⟨.end_, 0⟩],
   [⟨.alt, 0⟩, ⟨.char, 121⟩, ⟨.end_, 0⟩]]

lemma leftRecursive_hiddenRecursion : LeftRecursive hiddenRecursion := by
  have h3 : NullableFrom hiddenRecursion (3, 0) := .done rfl
  have h2 : Nullable hiddenRecursion 2 :=
    ⟨(2, 0), by decide, .ref rfl (by decide : (3, 0) ∈ _) h3 (.done rfl)⟩
  exact ⟨1, .single ⟨(1, 0), by decide, (1, 1), (Leftmost.refl _).skip rfl h2, rfl, rfl⟩⟩

/-- The pointers on the stacks that `s` leads to. -/
def hiddenPtrs : List ElementPtr := [(0, 1), (1, 0), (1, 1), (1, 2), (1, 4), (2, 0), (3, 1)]

lemma hiddenPtrs_of_reach {s t : GrammarStack} (hs : ∀ p ∈ s, p ∈ hiddenPtrs)
    (h : Worklist.Reach (visitStack hiddenRecursion) s t) : ∀ p ∈ t, p ∈ hiddenPtrs := by
  have hpush : ∀ p ∈ hiddenPtrs, ∀ subpos ∈ alternates hiddenRecursion
        (element hiddenRecursion p).value, (element hiddenRecursion p).type = .ruleRef →
      (∀ q ∈ pushUnlessEnd hiddenRecursion (advancePtr p 1) [], q ∈ hiddenPtrs) ∧
        ∀ q ∈ pushUnlessEnd hiddenRecursion subpos [], q ∈ hiddenPtrs := by decide
  have hcons : ∀ p stack, ∀ q ∈ pushUnlessEnd hiddenRecursion p stack,
      q ∈ pushUnlessEnd hiddenRecursion p [] ∨ q ∈ stack := by
    intro p stack q hq
    rw [pushUnlessEnd] at hq ⊢
    split at hq
    · exact .inr hq
    · rename_i hend
      rw [if_neg hend]
      rcases List.mem_cons.mp hq with rfl | hq
      · exact .inl (List.mem_singleton_self _)
      · exact .inr hq
  induction h with
  | refl => exact hs
  | @tail u v _ hstep ih =>
    obtain ⟨next, hv, hmem⟩ := hstep
    cases u with
    | nil => cases hv
    | cons p stack =>
      obtain ⟨href, rfl⟩ := visitStack_expand hv
      obtain ⟨subpos, hsub, rfl⟩ := List.mem_map.mp hmem
      obtain ⟨h1, h2⟩ := hpush p (ih p List.mem_cons_self) subpos hsub href
      intro q hq
      rcases hcons _ _ q hq with hq | hq
      · exact h2 q hq
      · rcases hcons _ _ q hq with hq | hq
        · exact h1 q hq
        · exact ih q (List.mem_cons_of_mem _ hq)

/-- Expanding `s` puts it back on top, with one more `"z"` below. -/
lemma reach_hiddenRecursion (k : ℕ) : Worklist.Reach (visitStack hiddenRecursion) [(0, 1)]
    ((1, 0) :: List.replicate k (1, 2)) := by
  induction k with
  | zero => exact .single ⟨_, rfl, by decide⟩
  | succ k ih =>
    have h1 : Worklist.Step (visitStack hiddenRecursion) ((1, 0) :: List.replicate k (1, 2))
        ((2, 0) :: (1, 1) :: List.replicate k (1, 2)) := ⟨_, rfl, mem_cons_self⟩
    have h2 : Worklist.Step (visitStack hiddenRecursion)
        ((2, 0) :: (1, 1) :: List.replicate k (1, 2)) ((1, 1) :: List.replicate k (1, 2)) :=
      ⟨_, rfl, mem_cons_self⟩
    have h3 : Worklist.Step (visitStack hiddenRecursion) ((1, 1) :: List.replicate k (1, 2))
        ((1, 0) :: (1, 2) :: List.replicate k (1, 2)) := ⟨_, rfl, mem_cons_self⟩
    exact ((ih.tail h1).tail h2).tail h3

/-- `init_impl` accepts this grammar, which is left recursive, and accepting its first
character never ends. -/
theorem accept_hiddenRecursion :
    initRules 4 hiddenRecursion 0 = .ok (some (hiddenRecursion, [[(0, 0)]])) ∧
      LeftRecursive hiddenRecursion ∧
      ∀ n, accept n hiddenRecursion [[(0, 0)]] 97 = .unfinished := by
  refine ⟨by decide +kernel, leftRecursive_hiddenRecursion, fun n => ?_⟩
  have hcases : advanceStack n hiddenRecursion [(0, 1)] [] = .unfinished ∨
      (∃ out, advanceStack n hiddenRecursion [(0, 1)] [] = .ok out) ∨
      advanceStack n hiddenRecursion [(0, 1)] [] = .aborted ∧
        ∃ c, Worklist.Reach (visitStack hiddenRecursion) [(0, 1)] c ∧
          visitStack hiddenRecursion c = .abort :=
    Worklist.search_cases n fun c hc => List.mem_singleton.mp hc ▸ .refl
  have hadv : advanceStack n hiddenRecursion [(0, 1)] [] = .unfinished := by
    rcases hcases with h | ⟨out, h⟩ | ⟨-, c, hc, hv⟩
    · exact h
    · -- the search would have seen infinitely many stacks
      obtain ⟨l, hl⟩ := Worklist.search_finite h
      have hinj : Function.Injective fun k : ℕ =>
          ((1, 0) : ElementPtr) :: List.replicate k (1, 2) := by
        intro k k' hk
        simpa using congrArg List.length hk
      exact absurd (List.finite_toSet l) (Set.infinite_of_injective_forall_mem hinj
        fun k => (hl _ (reach_hiddenRecursion k)).1)
    · -- no pointer on a stack stands at the end of an alternate
      have htype : ∀ p ∈ hiddenPtrs, (element hiddenRecursion p).type = .ruleRef ∨
          (element hiddenRecursion p).type = .char := by decide
      have hptrs := hiddenPtrs_of_reach (by decide) hc
      cases c with
      | nil => cases hv
      | cons p stack => rcases htype p (hptrs p List.mem_cons_self) with h | h <;>
          simp [visitStack, h] at hv
  have hchr : acceptChr n hiddenRecursion [(0, 0)] 97 [] =
      advanceStack n hiddenRecursion [(0, 1)] [] := rfl
  rw [accept, acceptLoop, hchr, hadv]
  rfl

end Llama.Grammar
