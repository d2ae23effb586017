import Llama.Grammar.LeftRecursion
import Llama.Grammar.Utf8

/-!
# The language of a grammar

A context-free grammar over code points, its language, and its encoding as rules of elements.
The stacks of the engine are those of a nondeterministic pushdown machine (`StackDerives`),
whose runs are the derivations of the grammar.  The engine keeps all stacks that a prefix of the
input can lead to.
-/

namespace Llama

open List

/-! ## Context-free grammars -/

namespace Cfg

/-- One code point, or an inclusive range of them. -/
structure CharRange where
  low : ℕ
  high : Option ℕ
  deriving DecidableEq, Repr

/-- Whether a code point is in the range. -/
def CharRange.contains (r : CharRange) (c : ℕ) : Bool :=
  match r.high with
  | none => r.low = c
  | some high => r.low ≤ c && c ≤ high

/-- A symbol of an alternate: a reference, a set of characters, given by ranges and possibly
inverted, any character, or a token (any other token if inverted). -/
inductive Sym
  | ref (r : ℕ)
  | chars (inverse : Bool) (range : CharRange) (ranges : List CharRange)
  | any
  | token (inverse : Bool) (id : ℕ)
  deriving DecidableEq, Repr

/-- Whether a symbol is a set of characters. -/
def Sym.isChar : Sym → Bool
  | .chars _ _ _ | .any => true
  | .ref _ | .token _ _ => false

/-- Whether a symbol is a set of characters with this one in it. -/
def Sym.accepts : Sym → ℕ → Bool
  | .chars inverse range ranges, c => (range :: ranges).any (fun r => r.contains c) != inverse
  | .any, _ => true
  | .ref _, _ | .token _ _, _ => false

/-- The alternates of a rule. -/
structure Rule where
  first : List Sym
  others : List (List Sym)
  deriving DecidableEq, Repr

def Rule.alternates (rule : Rule) : List (List Sym) := rule.first :: rule.others

/-- A sequence of symbols derives a word; no word is derived from a token. -/
inductive Derives (G : List Rule) : List Sym → List ℕ → Prop
  | nil : Derives G [] []
  | chr {s : Sym} {c : ℕ} {ss : List Sym} {w : List ℕ} (hc : s.accepts c = true)
      (hrest : Derives G ss w) : Derives G (s :: ss) (c :: w)
  | ref {r : ℕ} {rule : Rule} {alternate ss : List Sym} {u w : List ℕ} (hrule : G[r]? = some rule)
      (halt : alternate ∈ rule.alternates) (hsub : Derives G alternate u)
      (hrest : Derives G ss w) : Derives G (.ref r :: ss) (u ++ w)

/-- The language of a rule. -/
def Language (G : List Rule) (r : ℕ) (w : List ℕ) : Prop :=
  ∃ rule, G[r]? = some rule ∧ ∃ alternate ∈ rule.alternates, Derives G alternate w

variable {G : List Rule}

lemma Derives.append {ss ts : List Sym} {u w : List ℕ} (h : Derives G ss u)
    (h' : Derives G ts w) : Derives G (ss ++ ts) (u ++ w) := by
  induction h with
  | nil => exact h'
  | chr hc _ ih => exact ih.chr hc
  | ref hrule halt hsub _ _ ih =>
    rw [append_assoc]
    exact .ref hrule halt hsub ih

lemma Derives.split {ss ts : List Sym} : ∀ {w : List ℕ}, Derives G (ss ++ ts) w →
    ∃ u v, w = u ++ v ∧ Derives G ss u ∧ Derives G ts v := by
  induction ss with
  | nil => exact fun {w} h => ⟨[], w, rfl, .nil, h⟩
  | cons s ss ih =>
    intro w h
    cases h with
    | chr hc hrest =>
      obtain ⟨u, v, rfl, h1, h2⟩ := ih hrest
      exact ⟨_ :: u, v, rfl, h1.chr hc, h2⟩
    | ref hrule halt hsub hrest =>
      obtain ⟨u, v, rfl, h1, h2⟩ := ih hrest
      exact ⟨_ ++ u, v, (append_assoc _ _ _).symm, .ref hrule halt hsub h1, h2⟩

/-- Every alternate derives a word. -/
def Productive (G : List Rule) : Prop :=
  ∀ rule ∈ G, ∀ alternate ∈ rule.alternates, ∃ w, Derives G alternate w

/-- The elements of a range, the first of them of the given type. -/
def CharRange.elements (type : Gretype) (r : CharRange) : List GrammarElement :=
  ⟨type, r.low⟩ :: match r.high with
    | none => []
    | some high => [⟨.charRngUpper, high⟩]

/-- The elements of a symbol. -/
def Sym.elements : Sym → List GrammarElement
  | .ref r => [⟨.ruleRef, r⟩]
  | .chars inverse range ranges =>
    range.elements (if inverse then .charNot else .char) ++
      ranges.flatMap (CharRange.elements .charAlt)
  | .any => [⟨.charAny, 0⟩]
  | .token inverse id => [⟨if inverse then .tokenNot else .token, id⟩]

/-- The elements of an alternate and what follows it in the rule. -/
def alternateElements (alternate : List Sym) : List (List Sym) → List GrammarElement
  | [] => alternate.flatMap Sym.elements ++ [⟨.end_, 0⟩]
  | next :: others =>
    alternate.flatMap Sym.elements ++ ⟨.alt, 0⟩ :: alternateElements next others

/-- The elements of a rule. -/
def Rule.elements (rule : Rule) : List GrammarElement := alternateElements rule.first rule.others

/-- The rules of a grammar as elements. -/
def encode (G : List Rule) : GrammarRules := G.map Rule.elements

end Cfg

namespace Grammar

open Cfg

/-! ## Pointers into an encoded grammar -/

/-- An element that can follow a symbol: the start of another one, or the end of the
alternate. -/
def startsSymbol (e : GrammarElement) : Bool := e.type ≠ .charRngUpper && e.type ≠ .charAlt

lemma scanChar_range (chr : ℕ) (type : Gretype) (htype : type ≠ .charAny) (r : CharRange)
    (e : GrammarElement) (es : List GrammarElement) (he : e.type ≠ .charRngUpper) :
    scanChar chr (r.elements type ++ e :: es) = if e.type = .charAlt then
        (r.contains chr || (scanChar chr (e :: es)).1,
          (scanChar chr (e :: es)).2 + (r.elements type).length)
      else (r.contains chr, (r.elements type).length) := by
  obtain ⟨low, high⟩ := r
  cases high with
  | none => simp [CharRange.elements, CharRange.contains, scanChar, he, htype]
  | some high => simp [CharRange.elements, CharRange.contains, scanChar, headElement]

/-- The loop of `match_char` over the elements of a set of characters. -/
lemma scanChar_ranges (chr : ℕ) (e : GrammarElement) (es : List GrammarElement)
    (he : startsSymbol e = true) (ranges : List CharRange) :
    ∀ (type : Gretype) (r : CharRange), type ≠ .charAny →
      scanChar chr (r.elements type ++ (ranges.flatMap (CharRange.elements .charAlt) ++ e :: es)) =
        ((r :: ranges).any fun r => r.contains chr,
          (r.elements type ++ ranges.flatMap (CharRange.elements .charAlt)).length) := by
  simp only [startsSymbol, Bool.and_eq_true, decide_eq_true_eq] at he
  induction ranges with
  | nil =>
    intro type r htype
    rw [flatMap_nil, nil_append, scanChar_range chr type htype r e es he.1, if_neg he.2]
    simp
  | cons r' ranges ih =>
    intro type r htype
    have hnext := ih .charAlt r' (by decide)
    rw [flatMap_cons, append_assoc]
    have hhead : r'.elements .charAlt = ⟨.charAlt, r'.low⟩ :: (r'.elements .charAlt).tail := rfl
    rw [hhead, cons_append] at hnext ⊢
    rw [scanChar_range chr type htype r _ _ (by simp), if_pos rfl, hnext]
    refine Prod.ext rfl ?_
    simp only [length_append]
    omega

variable {G : List Rule} {rules : GrammarRules}

/-- The elements from a pointer on are those of the symbols, up to the end of the
alternate. -/
def At (rules : GrammarRules) (pos : ElementPtr) (ss : List Sym) : Prop :=
  ∃ e es, suffix rules pos = ss.flatMap Sym.elements ++ e :: es ∧ isEndOfSequence e = true

lemma startsSymbol_of_end {e : GrammarElement} (h : isEndOfSequence e = true) :
    startsSymbol e = true := by
  simp only [isEndOfSequence, Bool.or_eq_true, decide_eq_true_eq] at h
  rcases h with h | h <;> simp [startsSymbol, h]

variable {pos : ElementPtr} {ss : List Sym}

lemma At.nil (h : At rules pos []) : isEndOfSequence (element rules pos) = true := by
  obtain ⟨e, es, hs, he⟩ := h
  rw [element, hs]
  exact he

/-- What follows the elements of a symbol starts a symbol. -/
lemma At.startsSymbol (h : At rules pos ss) :
    ∃ e es, suffix rules pos = e :: es ∧ Grammar.startsSymbol e = true := by
  obtain ⟨e, es, hs, he⟩ := h
  cases ss with
  | nil => exact ⟨e, es, hs, startsSymbol_of_end he⟩
  | cons s ss =>
    cases s with
    | ref r => exact ⟨_, _, hs, rfl⟩
    | chars inverse range ranges =>
      refine ⟨_, _, hs, ?_⟩
      cases inverse <;> rfl
    | any => exact ⟨_, _, hs, rfl⟩
    | token inverse id =>
      refine ⟨_, _, hs, ?_⟩
      cases inverse <;> rfl

lemma suffix_advancePtr {as bs : List GrammarElement} (h : suffix rules pos = as ++ bs) :
    suffix rules (advancePtr pos as.length) = bs := by
  have hdrop : suffix rules (advancePtr pos as.length) = (suffix rules pos).drop as.length := by
    simp [suffix, advancePtr]
  rw [hdrop, h, drop_left]

/-- Behind a symbol stand the other symbols of the alternate. -/
lemma At.tail {pos : ElementPtr} {s : Sym} {ss : List Sym} (h : At rules pos (s :: ss)) :
    At rules (advancePtr pos s.elements.length) ss := by
  obtain ⟨e, es, hs, he⟩ := h
  rw [flatMap_cons, append_assoc] at hs
  exact ⟨e, es, suffix_advancePtr hs, he⟩

lemma At.token {pos : ElementPtr} {inverse : Bool} {id : ℕ} {ss : List Sym}
    (h : At rules pos (.token inverse id :: ss)) :
    element rules pos = ⟨if inverse then .tokenNot else .token, id⟩ ∧
      At rules (advancePtr pos 1) ss := by
  refine ⟨?_, h.tail⟩
  obtain ⟨e, es, hs, -⟩ := h
  rw [element, hs]
  rfl

lemma At.ref {pos : ElementPtr} {r : ℕ} {ss : List Sym} (h : At rules pos (.ref r :: ss)) :
    element rules pos = ⟨.ruleRef, r⟩ ∧ At rules (advancePtr pos 1) ss := by
  refine ⟨?_, h.tail⟩
  obtain ⟨e, es, hs, -⟩ := h
  rw [element, hs]
  rfl

/-- The elements of a symbol, and an element behind them that starts another symbol. -/
lemma At.suffix_eq {s : Sym} (h : At rules pos (s :: ss)) :
    ∃ e es, suffix rules pos = s.elements ++ e :: es ∧ Grammar.startsSymbol e = true := by
  obtain ⟨e, es, htail, hstart⟩ := h.tail.startsSymbol
  obtain ⟨e', es', hpos, -⟩ := h
  rw [flatMap_cons, append_assoc] at hpos
  refine ⟨e, es, ?_, hstart⟩
  rw [hpos, ← suffix_advancePtr hpos, htail]

/-- At a set of characters `match_char` decides membership and goes behind it. -/
lemma At.matchChar {s : Sym} (h : At rules pos (s :: ss)) (hs : s.isChar = true) (chr : ℕ) :
    ((element rules pos).type = .char ∨ (element rules pos).type = .charNot ∨
      (element rules pos).type = .charAny) ∧
    Grammar.matchChar rules pos chr = .ok (s.accepts chr, advancePtr pos s.elements.length) := by
  obtain ⟨e, es, hsuffix, hstart⟩ := h.suffix_eq
  cases s with
  | ref r => cases hs
  | token inverse id => cases hs
  | any =>
    have hel : element rules pos = ⟨.charAny, 0⟩ := by
      rw [element, hsuffix]
      rfl
    refine ⟨.inr (.inr (by rw [hel])), ?_⟩
    have hscan : scanChar chr (suffix rules pos) = (true, 1) := by
      rw [hsuffix]
      simp only [Grammar.startsSymbol, Bool.and_eq_true, decide_eq_true_eq] at hstart
      simp [Sym.elements, scanChar, hstart.1, hstart.2]
    simp only [Grammar.matchChar, hel, hscan]
    rfl
  | chars inverse range ranges =>
    have hel : element rules pos = ⟨if inverse then .charNot else .char, range.low⟩ := by
      rw [element, hsuffix]
      rfl
    have hscan : scanChar chr (suffix rules pos) = ((range :: ranges).any fun r => r.contains chr,
          (Sym.chars inverse range ranges).elements.length) := by
      rw [hsuffix, Sym.elements, append_assoc]
      exact scanChar_ranges chr e es hstart ranges _ range fun htype => by cases inverse <;> cases htype
    simp only [Grammar.matchChar, hel, hscan]
    cases inverse
    · simp [isPositiveChar, Exec.assert, Sym.accepts]
    · simp [isPositiveChar, Exec.assert, Sym.accepts]

/-- The element at a set of characters passes the assertion of both functions that match it. -/
lemma At.assert_isChar {s : Sym} (h : At rules pos (s :: ss)) (hs : s.isChar = true) :
    isPositiveChar (element rules pos) = true ∨ (element rules pos).type = .charNot := by
  rcases (h.matchChar hs 0).1 with h | h | h <;> simp [isPositiveChar, h]

/-! ## The alternates of a rule -/

lemma altStarts_append {as : List GrammarElement} (has : ∀ e ∈ as, isEndOfSequence e = false)
    (bs : List GrammarElement) : ∀ i, altStarts (as ++ bs) i = altStarts bs (i + as.length) := by
  induction as with
  | nil => intro i; rfl
  | cons e as ih =>
    intro i
    have he := has e mem_cons_self
    simp only [isEndOfSequence, Bool.or_eq_false_iff, decide_eq_false_iff_not] at he
    rw [cons_append, altStarts]
    split
    · rename_i h
      exact absurd h he.1
    · rename_i h
      exact absurd h he.2
    · rw [ih fun e' he' => has e' (mem_cons_of_mem _ he'), length_cons, Nat.add_assoc,
        Nat.add_comm 1]

lemma isEndOfSequence_of_mem_elements :
    ∀ e ∈ ss.flatMap Sym.elements, isEndOfSequence e = false := by
  have hrange : ∀ (type : Gretype) (r : CharRange), isEndOfSequence ⟨type, 0⟩ = false →
      ∀ e ∈ r.elements type, isEndOfSequence e = false := by
    intro type r htype e he
    obtain ⟨low, high⟩ := r
    cases high with
    | none =>
      rw [mem_singleton.mp he]
      exact htype
    | some high =>
      rcases mem_cons.mp he with rfl | he
      · exact htype
      · rw [mem_singleton.mp he]
        rfl
  intro e he
  obtain ⟨s, -, hs⟩ := mem_flatMap.mp he
  cases s with
  | ref r =>
    rw [mem_singleton.mp hs]
    rfl
  | any =>
    rw [mem_singleton.mp hs]
    rfl
  | token inverse id =>
    rw [mem_singleton.mp hs]
    cases inverse <;> rfl
  | chars inverse range ranges =>
    rcases mem_append.mp hs with h | h
    · exact hrange _ _ (by cases inverse <;> rfl) e h
    · obtain ⟨r, -, hr⟩ := mem_flatMap.mp h
      exact hrange _ _ rfl e hr

/-- The elements of an alternate stand at the start of the list. -/
def StartsWith (es : List GrammarElement) (alternate : List Sym) : Prop :=
  ∃ e rest, es = alternate.flatMap Sym.elements ++ e :: rest ∧ isEndOfSequence e = true

lemma startsWith_alternateElements (alternate : List Sym) (others : List (List Sym)) :
    StartsWith (alternateElements alternate others) alternate := by
  cases others with
  | nil => exact ⟨_, _, rfl, rfl⟩
  | cons next others => exact ⟨_, _, rfl, rfl⟩

/-- The offsets at which alternates start are those of the alternates of the rule. -/
lemma altStarts_alternateElements (others : List (List Sym)) : ∀ (alternate : List Sym) (i : ℕ),
    (∀ k ∈ i :: altStarts (alternateElements alternate others) i,
      ∃ a ∈ alternate :: others, StartsWith ((alternateElements alternate others).drop (k - i)) a) ∧
    ∀ a ∈ alternate :: others, ∃ k ∈ i :: altStarts (alternateElements alternate others) i,
      StartsWith ((alternateElements alternate others).drop (k - i)) a := by
  induction others with
  | nil =>
    intro alternate i
    have hno : altStarts (alternateElements alternate []) i = [] := by
      rw [alternateElements, altStarts_append isEndOfSequence_of_mem_elements]
      rfl
    rw [hno]
    have hstart : StartsWith ((alternateElements alternate []).drop (i - i)) alternate := by
      rw [Nat.sub_self]
      exact startsWith_alternateElements alternate []
    refine ⟨fun k hk => ?_, fun a ha => ?_⟩
    · rw [mem_singleton.mp hk]
      exact ⟨alternate, mem_cons_self, hstart⟩
    · rw [mem_singleton.mp ha]
      exact ⟨i, mem_cons_self, hstart⟩
  | cons next others ih =>
    intro alternate i
    set n := (alternate.flatMap Sym.elements).length with hn
    have hstarts : altStarts (alternateElements alternate (next :: others)) i =
        (i + n + 1) :: altStarts (alternateElements next others) (i + n + 1) := by
      rw [alternateElements, altStarts_append isEndOfSequence_of_mem_elements]
      rfl
    have hdrop : ∀ k, i + n + 1 ≤ k → (alternateElements alternate (next :: others)).drop (k - i) =
        (alternateElements next others).drop (k - (i + n + 1)) := by
      intro k hk
      have hsum : k - i = n + (k - (i + n + 1) + 1) := by omega
      rw [alternateElements, hsum, ← drop_drop, drop_left, drop_succ_cons]
    have hle : ∀ k ∈ (i + n + 1) :: altStarts (alternateElements next others) (i + n + 1),
        i + n + 1 ≤ k := by
      intro k hk
      rcases mem_cons.mp hk with rfl | hk
      · exact le_rfl
      · exact (altStarts_lt hk).le
    obtain ⟨h1, h2⟩ := ih next (i + n + 1)
    rw [hstarts]
    refine ⟨fun k hk => ?_, fun a ha => ?_⟩
    · rcases mem_cons.mp hk with rfl | hk
      · refine ⟨alternate, mem_cons_self, ?_⟩
        rw [Nat.sub_self]
        exact startsWith_alternateElements alternate _
      · obtain ⟨a, ha, hs⟩ := h1 k hk
        rw [hdrop k (hle k hk)]
        exact ⟨a, mem_cons_of_mem _ ha, hs⟩
    · rcases mem_cons.mp ha with rfl | ha
      · refine ⟨i, mem_cons_self, ?_⟩
        rw [Nat.sub_self]
        exact startsWith_alternateElements a _
      · obtain ⟨k, hk, hs⟩ := h2 a ha
        refine ⟨k, mem_cons_of_mem _ hk, ?_⟩
        rw [hdrop k (hle k hk)]
        exact hs

lemma encode_getD {r : ℕ} {rule : Rule} (hr : G[r]? = some rule) :
    (encode G).getD r [] = rule.elements := by
  rw [getD_eq_getElem?_getD, encode, getElem?_map, hr]
  rfl

/-- Each pointer to an alternate stands at one of the rule. -/
lemma at_of_mem_alternates {r : ℕ} {rule : Rule} (hr : G[r]? = some rule) {subpos : ElementPtr}
    (h : subpos ∈ alternates (encode G) r) :
    ∃ a ∈ rule.alternates, At (encode G) subpos a := by
  obtain ⟨k, hk, rfl⟩ := mem_map.mp h
  rw [encode_getD hr] at hk
  obtain ⟨a, ha, e, rest, hs, he⟩ := (altStarts_alternateElements rule.others rule.first 0).1 k hk
  refine ⟨a, ha, e, rest, ?_, he⟩
  rw [suffix, encode_getD hr]
  exact hs

/-- To each alternate of the rule there is a pointer. -/
lemma exists_alternates_at {r : ℕ} {rule : Rule} (hr : G[r]? = some rule) {a : List Sym}
    (h : a ∈ rule.alternates) : ∃ subpos ∈ alternates (encode G) r, At (encode G) subpos a := by
  obtain ⟨k, hk, e, rest, hs, he⟩ := (altStarts_alternateElements rule.others rule.first 0).2 a h
  refine ⟨(r, k), ?_, e, rest, ?_, he⟩
  · rw [alternates, encode_getD hr]
    exact mem_map_of_mem hk
  · rw [suffix, encode_getD hr]
    exact hs

end Grammar
end Llama
