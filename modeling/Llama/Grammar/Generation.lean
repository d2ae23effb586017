import Llama.Grammar.Meaning
import Llama.Grammar.Tokenwise

/-!
# Generating with a grammar

Whatever tokens a grammar accepts one after the other, the text can always be completed to a word
of its language, and the generation ends with a word only.  No token that leads on to a word is
refused.  The grammar of a text has the language that the text gives to its root.
-/

namespace Llama.Grammar

open Cfg List

variable {G : List Rule} {st : State} {vocab : Vocab} {start n token : ℕ} {w cs v : List ℕ}
  {s t : GrammarStack}

/-- The states of a grammar that is not lazy, with the code points of the tokens before the end. -/
inductive Generated (vocab : Vocab) (G : List Rule) (start : ℕ) : List ℕ → State → Prop
  | init {n : ℕ} {triggerTokens : List ℕ} {triggerPatterns : List (List UInt8 → Option ℕ)}
      {st : State}
      (h : initImpl n (encode G) start false triggerTokens triggerPatterns = .ok (some st)) :
      Generated vocab G start [] st
  | accept {n token : ℕ} {w : List ℕ} {st st' : State} (hst : Generated vocab G start w st)
      (heog : vocab.isEog token = false) (h : acceptImpl n vocab token st = .ok st') :
      Generated vocab G start (w ++ st.codePoints (vocab.tokenToPiece token)) st'

/-- The stacks derive what completes the text, but a stack at its end may be lost. -/
structure Guards (G : List Rule) (start : ℕ) (w : List ℕ) (st : State) : Prop where
  sound : Sound G st
  awaiting : st.awaitingTrigger = false
  ready : Ready G st.current
  left : ∀ s ∈ st.current, ∀ v, StackDerives (encode G) s v → Language G start (w ++ v)
  right : ∀ v, v ≠ [] → Language G start (w ++ v) → ∃ s ∈ st.current, StackDerives (encode G) s v

lemma Follows.ready (hvalid : Valid (encode G)) (hprod : Productive G)
    (h : Follows (encode G) s cs t) (hs : visitStack (encode G) s = .keep ∧ Live G s) :
    visitStack (encode G) t = .keep ∧ Live G t := by
  induction h with
  | nil => exact hs
  | cons hsucc _ ih =>
    obtain ⟨pos, stack, next, rfl, hmatch, hkept⟩ := hsucc
    exact ih (hkept.ready hvalid hprod (hs.2.chr hmatch))

/-- The code points are derived first. -/
lemma Follows.derives (h : Follows (encode G) s cs t) (ht : StackDerives (encode G) t v) :
    StackDerives (encode G) s (cs ++ v) := by
  induction h with
  | nil => exact ht
  | cons hsucc _ ih =>
    obtain ⟨pos, stack, next, rfl, hmatch, hkeep, hreach⟩ := hsucc
    exact .chr hmatch (stackDerives_iff_reach.2 ⟨_, hreach, hkeep, ih ht⟩)

/-- A derivation goes through one of the stacks that the code points lead to. -/
lemma exists_follows : ∀ {cs : List ℕ} {s : GrammarStack}, visitStack (encode G) s = .keep →
    StackDerives (encode G) s (cs ++ v) →
      ∃ t, Follows (encode G) s cs t ∧ StackDerives (encode G) t v
  | [], s, _, h => ⟨s, .nil, h⟩
  | c :: cs, s, hs, h => by
    cases h with
    | chr hmatch hrest =>
      obtain ⟨u, hreach, hkeep, hu⟩ := stackDerives_iff_reach.1 hrest
      obtain ⟨t, ht, hv⟩ := exists_follows hkeep hu
      exact ⟨t, .cons ⟨_, _, _, rfl, hmatch, hkeep, hreach⟩ ht, hv⟩
    | ref href _ _ => simp [visitStack, href] at hs

/-- The stack at its end derives the empty text, and no other expanded one does. -/
lemma eq_nil_of_derives (hs : visitStack (encode G) s = .keep)
    (h : StackDerives (encode G) s []) : s = [] := by
  cases h with
  | nil => rfl
  | ref href _ _ => simp [visitStack, href] at hs

lemma Guards.init {triggerTokens : List ℕ} {triggerPatterns : List (List UInt8 → Option ℕ)}
    (hleft : ¬ LeftRecursive (encode G)) (hprod : Productive G)
    (h : initImpl n (encode G) start false triggerTokens triggerPatterns = .ok (some st)) :
    Valid (encode G) ∧ Guards G start [] st := by
  obtain ⟨hvalid, hsound⟩ := Sound.init h hleft
  obtain ⟨_ | ⟨rules, current⟩, hinit, h⟩ := Exec.bind_eq_ok.1 h
  · cases h
  · cases h
    obtain ⟨-, -, -, hstart, hstacks⟩ := valid_of_initRules hinit
    obtain rfl := hsound.rules
    obtain ⟨hready, hiff⟩ := recognizes_init hvalid hprod hstart hstacks
    exact ⟨hvalid, hsound, rfl, hready, fun s hs v hv => (hiff v).2 ⟨s, hs, hv⟩,
      fun v _ => (hiff v).1⟩

section

variable {st' : State} {piece : List UInt8}

lemma takes_iff (hno : NoTokens (encode G)) :
    Takes (encode G) token cs s t ↔ s ≠ [] ∧ Follows (encode G) s cs t := by
  constructor
  · rintro ⟨pos, stack, rfl, h⟩
    exact ⟨cons_ne_nil _ _, by rwa [if_neg (by simp [hno.element])] at h⟩
  · rintro ⟨hne, h⟩
    obtain ⟨pos, stack, rfl⟩ := exists_cons_of_ne_nil hne
    exact ⟨pos, stack, rfl, by rwa [if_neg (by simp [hno.element])]⟩

/-- The stacks behind a token. -/
lemma mem_current_of_acceptToken (hvalid : Valid (encode G)) (hleft : ¬ LeftRecursive (encode G))
    (hno : NoTokens (encode G)) (hst : Sound G st) (h : acceptToken n token piece st = .ok st') :
    st'.awaitingTrigger = st.awaitingTrigger ∧ ∀ t, t ∈ st'.current ↔
      ∃ s ∈ st.current, s ≠ [] ∧ Follows (encode G) s (st.codePoints piece) t := by
  obtain ⟨out, hs, hout⟩ := acceptTokenLoop_spec hvalid hleft token (st.codePoints piece) []
    hst.expanded
  rw [acceptToken_eq, hst.rules] at h
  obtain ⟨current, h1, h2⟩ := Exec.bind_eq_ok.1 h
  cases hs.eq_of_ok h1
  split at h2
  · cases h2
  · cases h2
    exact ⟨rfl, fun t => by simp only [hout, takes_iff hno, not_mem_nil, false_or]⟩

/-- **One token.** -/
lemma Guards.acceptToken (hvalid : Valid (encode G)) (hleft : ¬ LeftRecursive (encode G))
    (hprod : Productive G) (hno : NoTokens (encode G)) (hg : Guards G start w st)
    (h : acceptToken n token piece st = .ok st') :
    Guards G start (w ++ st.codePoints piece) st' ∧ (st.codePoints piece ≠ [] →
      ([] ∈ st'.current ↔ Language G start (w ++ st.codePoints piece))) := by
  obtain ⟨hawait, hmem⟩ := mem_current_of_acceptToken hvalid hleft hno hg.sound h
  have hready : Ready G st'.current := fun t ht => by
    obtain ⟨s, hs, -, hfollows⟩ := (hmem t).1 ht
    exact hfollows.ready hvalid hprod (hg.ready s hs)
  have hleft' : ∀ t ∈ st'.current, ∀ v, StackDerives (encode G) t v →
      Language G start (w ++ st.codePoints piece ++ v) := fun t ht v hv => by
    obtain ⟨s, hs, -, hfollows⟩ := (hmem t).1 ht
    rw [append_assoc]
    exact hg.left s hs _ (hfollows.derives hv)
  have hright : ∀ v, st.codePoints piece ++ v ≠ [] →
      Language G start (w ++ st.codePoints piece ++ v) →
        ∃ t ∈ st'.current, StackDerives (encode G) t v := fun v hne hv => by
    rw [append_assoc] at hv
    obtain ⟨s, hs, hder⟩ := hg.right _ hne hv
    obtain ⟨t, hfollows, ht⟩ := exists_follows (hg.ready s hs).1 hder
    have hs' : s ≠ [] := fun hnil => by
      subst hnil
      generalize st.codePoints piece ++ v = u at hne hder
      cases hder
      exact hne rfl
    exact ⟨t, (hmem t).2 ⟨s, hs, hs', hfollows⟩, ht⟩
  refine ⟨⟨hg.sound.acceptToken hvalid hleft h, hawait.trans hg.awaiting, hready, hleft',
    fun v hv => hright v (append_ne_nil_of_right_ne_nil _ hv)⟩, fun hcs => ⟨fun hnil => ?_,
      fun hlang => ?_⟩⟩
  · simpa using hleft' [] hnil [] .nil
  · obtain ⟨t, ht, hder⟩ := hright [] (by simpa using hcs) (by simpa using hlang)
    exact eq_nil_of_derives (hready t ht).1 hder ▸ ht

end

lemma Generated.guards (hleft : ¬ LeftRecursive (encode G)) (hprod : Productive G)
    (hno : NoTokens (encode G)) (h : Generated vocab G start w st) :
    Valid (encode G) ∧ Guards G start w st := by
  induction h with
  | init h => exact Guards.init hleft hprod h
  | accept _ heog h ih =>
    rw [acceptImpl, ih.2.awaiting, if_neg Bool.false_ne_true, heog, if_neg Bool.false_ne_true] at h
    exact ⟨ih.1, (ih.2.acceptToken ih.1 hleft hprod hno h).1⟩

lemma Guards.exists_language (hg : Guards G start w st) : ∃ v, Language G start (w ++ v) := by
  obtain ⟨s, hs⟩ := exists_mem_of_ne_nil _ hg.sound.ne
  obtain ⟨ss, hden, v, hv⟩ := (hg.ready s hs).2
  exact ⟨v, hg.left s hs v (stackDerives_of_denotes hden hv)⟩

lemma generated_start : Generated someVocab rightRecursive 0 [] rightRecursiveStart :=
  @Generated.init _ _ _ 2 [] [] _ rfl

/-- **Constrained generation is complete**: a token with code points is accepted exactly when the
text can be completed behind it, and the generation may end there exactly at a word. -/
theorem Generated.accepts_iff (hleft : ¬ LeftRecursive (encode G)) (hprod : Productive G)
    (hno : NoTokens (encode G)) (h : Generated vocab G start w st)
    (heog : vocab.isEog token = false) (hcs : st.codePoints (vocab.tokenToPiece token) ≠ []) :
    ((∃ st' k, ∀ n ≥ k, acceptImpl n vocab token st = .ok st') ↔
      ∃ v, Language G start (w ++ st.codePoints (vocab.tokenToPiece token) ++ v)) ∧
    ∀ n st', acceptImpl n vocab token st = .ok st' → ∀ m eog, vocab.isEog eog = true →
      (acceptImpl m vocab eog st' = .ok st' ↔
        Language G start (w ++ st.codePoints (vocab.tokenToPiece token))) := by
  obtain ⟨hvalid, hg⟩ := h.guards hleft hprod hno
  have heq : ∀ n, acceptImpl n vocab token st =
      acceptToken n token (vocab.tokenToPiece token) st := fun n => by
    rw [acceptImpl, hg.awaiting, if_neg Bool.false_ne_true, heog, if_neg Bool.false_ne_true]
  simp only [heq]
  refine ⟨⟨?_, ?_⟩, fun n st' hacc m eog hend => ?_⟩
  · rintro ⟨st', k, hk⟩
    exact (hg.acceptToken hvalid hleft hprod hno (hk k le_rfl)).1.exists_language
  · rintro ⟨v, hv⟩
    rw [append_assoc] at hv
    obtain ⟨s, hs, hder⟩ := hg.right _ (append_ne_nil_of_left_ne_nil hcs _) hv
    obtain ⟨t, ht, -⟩ := exists_follows (hg.ready s hs).1 hder
    have hne : s ≠ [] := by
      rintro rfl
      generalize st.codePoints (vocab.tokenToPiece token) = cs at hcs hder
      obtain ⟨c, cs, rfl⟩ := exists_cons_of_ne_nil hcs
      cases hder
    rcases acceptToken_spec hvalid hleft hg.sound token (vocab.tokenToPiece token) with
      ⟨-, st', -, hset⟩ | ⟨hno', -⟩
    · exact ⟨st', hset.eventually⟩
    · exact absurd ⟨s, hs, t, hg.sound.rules ▸ (takes_iff hno).2 ⟨hne, ht⟩⟩ hno'
  · obtain ⟨hg', hnil⟩ := hg.acceptToken hvalid hleft hprod hno hacc
    rw [← hnil hcs, acceptImpl, hg'.awaiting, if_neg Bool.false_ne_true, if_pos hend]
    split
    · next hmem => exact iff_of_true rfl hmem
    · next hmem => exact iff_of_false (by simp) hmem

theorem Generated.accepts_iff_rightRecursive :
    ((∃ st' k, ∀ n ≥ k, acceptImpl n someVocab 1 rightRecursiveStart = .ok st') ↔
      ∃ v, Language rightRecursive 0 ([] ++ [97] ++ v)) ∧
    ∀ n st', acceptImpl n someVocab 1 rightRecursiveStart = .ok st' → ∀ m eog,
      someVocab.isEog eog = true →
        (acceptImpl m someVocab eog st' = .ok st' ↔ Language rightRecursive 0 ([] ++ [97])) :=
  Generated.accepts_iff (not_leftRecursive_of_starts (by decide)) productive_rightRecursive
    (by unfold NoTokens; decide) generated_start rfl (by decide)

end Llama.Grammar

namespace Llama.Gbnf

open List Grammar Cfg GrammarParser

variable {G : List Rule} {s : GrammarParser} {start : ℕ} {w root src : List Char}

lemma mem_meaning {start : ℕ} (h : s.symbolIds.lookup root = some start) {w : List ℕ} :
    w ∈ meaning G s root ↔ Language G start w := by
  rw [meaning, h]
  constructor
  · intro hw
    cases hw with
    | chr hc _ => cases hc
    | ref hrule halt hsub hrest =>
      cases hrest
      exact ⟨_, hrule, _, halt, by rwa [append_nil]⟩
  · rintro ⟨rule, hrule, a, ha, hw⟩
    exact (mem_denotes_ref hrule).2 ⟨a, ha, hw⟩

/-- A stack is left exactly when the word can be continued. -/
lemma ne_nil_iff_of_recognizes {start : ℕ} {w : List ℕ} {out : GrammarStacks}
    (h : Recognizes G start w out) : out ≠ [] ↔ ∃ v, Language G start (w ++ v) := by
  constructor
  · intro hne
    obtain ⟨t, ht⟩ := exists_mem_of_ne_nil out hne
    obtain ⟨-, ss, hden, v, hv⟩ := h.ready t ht
    exact ⟨v, (h.iff v).2 ⟨t, ht, stackDerives_of_denotes hden hv⟩⟩
  · rintro ⟨v, hv⟩ rfl
    obtain ⟨t, ht, -⟩ := (h.iff v).1 hv
    cases ht

/-- The empty stack is there exactly when the word is complete. -/
lemma nil_mem_iff_of_recognizes {start : ℕ} {w : List ℕ} {out : GrammarStacks}
    (h : Recognizes G start w out) : [] ∈ out ↔ Language G start w := by
  rw [← append_nil w, h.iff]
  exact ⟨fun hmem => ⟨[], hmem, .nil⟩,
    fun ⟨t, ht, hder⟩ => eq_nil_of_derives (h.ready t ht).1 hder ▸ ht⟩

/-- The engine that is started with the stacks `current` follows the language `L`. -/
def FollowsLanguage (rules : GrammarRules) (current : GrammarStacks) (L : TextSet) : Prop :=
  ∀ w, ∃ k out, (∀ m ≥ k, acceptAll m rules w current = .ok out) ∧
    (out ≠ [] ↔ ∃ v, w ++ v ∈ L) ∧ ([] ∈ out ↔ w ∈ L)

variable {vocab : Option (List Char → Option ℕ)} {rules : GrammarRules} {n : ℕ}
  {current : GrammarStacks}

lemma followsLanguage_meaning (hG : s.rules = encode G)
    (hroot : s.symbolIds.lookup root = some start)
    (hinit : initRules n s.rules start = .ok (some (rules, current)))
    (hleft : ¬ LeftRecursive rules) :
    rules = encode G ∧ (Productive G → FollowsLanguage rules current (meaning G s root)) := by
  obtain ⟨hvalid, -, hrules, hstart, hstacks⟩ := valid_of_initRules hinit
  obtain rfl : rules = encode G := by
    rw [hrules, hG, encode, map_map]
    exact map_congr_left fun rule _ => copyRule_elements rule
  refine ⟨rfl, fun hprod w => ?_⟩
  obtain ⟨out, hsettles, hrec⟩ := recognizes_acceptAll hvalid hprod hleft w
    (recognizes_init hvalid hprod hstart hstacks)
  obtain ⟨k, hk⟩ := hsettles.eventually
  simp only [mem_meaning hroot]
  exact ⟨k, out, hk, ne_nil_iff_of_recognizes hrec, nil_mem_iff_of_recognizes hrec⟩

/-- **From the text of a grammar to the tokens that are allowed**: the engine that is started on
the rules of a text follows the language that the text gives to the root. -/
theorem parse_accepts (h : parse vocab src new = (.ok none, s))
    (hlt : s.symbolIds.length < 2 ^ 32) (hroot : s.symbolIds.lookup root = some start)
    (hinit : initRules n s.rules start = .ok (some (rules, current)))
    (hleft : ¬ LeftRecursive rules) :
    ∃ G, rules = encode G ∧
      (∃ defs, RulesText vocab (meaning G s) (skipSpace true src) defs ∧
        ∀ name L, defs.reverse.lookup name = some L → meaning G s name = L) ∧
      (Productive G → FollowsLanguage rules current (meaning G s root)) := by
  obtain ⟨G, hG, htext⟩ := parse_meaning h hlt
  obtain ⟨hrules, hfollows⟩ := followsLanguage_meaning hG hroot hinit hleft
  exact ⟨G, hrules, htext, hfollows⟩

/-- `root ::= "a"`. -/
def letterText : List Char := "root ::= \"a\"".toList

theorem parse_accepts_letterText :
    ∃ G, [[⟨.char, 97⟩, ⟨.end_, 0⟩]] = encode G ∧
      (∃ defs, RulesText none (meaning G (parse none letterText new).2)
        (skipSpace true letterText) defs ∧ ∀ name L, defs.reverse.lookup name = some L →
          meaning G (parse none letterText new).2 name = L) ∧
      (Productive G → FollowsLanguage [[⟨.char, 97⟩, ⟨.end_, 0⟩]] [[(0, 0)]]
        (meaning G (parse none letterText new).2 "root".toList)) :=
  parse_accepts (Prod.ext (by decide +kernel) rfl) (by decide +kernel)
    (by decide +kernel : _ = some 0) (by decide +kernel : initRules 2 _ 0 = _)
    (not_leftRecursive_of_starts (by decide))

end Llama.Gbnf
