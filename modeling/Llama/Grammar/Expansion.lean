import Llama.Grammar.Reading

/-!
# The rules of a repetition

The parser cuts the elements of the last item off the rule, repeats them as often as they have to
be there, and adds a reference to a rule for the optional copies.  That rule refers to the one
before it, or to itself when there is no greatest number of copies.

In a grammar with these rules the symbols that stand for the repetition have the language of the
copies of the item (`denotes_expand`).
-/

namespace Llama.Gbnf

open Cfg GrammarParser Copies Computability List Control

/-! ## The language of symbols -/

/-- The texts that a sequence of symbols derives. -/
def denotes (G : List Rule) (ss : List Sym) : TextSet := {w | Derives G ss w}

variable {G : List Rule} {ss ts : List Sym} {w : List ℕ} {r : ℕ}

lemma denotes_nil : denotes G [] = 1 := by
  ext w
  constructor
  · intro h
    cases h
    rfl
  · rintro rfl
    exact .nil

lemma denotes_append : denotes G (ss ++ ts) = denotes G ss * denotes G ts := by
  ext w
  constructor
  · intro h
    obtain ⟨u, v, rfl, hu, hv⟩ := Derives.split h
    exact ⟨u, hu, v, hv, rfl⟩
  · rintro ⟨u, hu, v, hv, rfl⟩
    exact Derives.append hu hv

lemma denotes_replicate (k : ℕ) : denotes G (List.replicate k ss).flatten = denotes G ss ^ k := by
  induction k with
  | zero => exact denotes_nil
  | succ k ih => rw [replicate_succ, flatten_cons, denotes_append, ih, pow_succ']

/-- A symbol of one character. -/
lemma denotes_char {s : Sym} (hs : s.isChar = true) : denotes G [s] = charSet s := by
  ext w
  constructor
  · intro h
    cases h with
    | chr hc hrest =>
      cases hrest
      exact ⟨_, rfl, hc⟩
    | ref => cases hs
  · rintro ⟨c, rfl, hc⟩
    exact .chr hc .nil

lemma denotes_token {inverse : Bool} {id : ℕ} : denotes G [.token inverse id] = 0 := by
  ext w
  refine iff_of_false (fun h => ?_) (Language.notMem_zero w)
  cases h with
  | chr hc _ => cases hc

/-- A reference derives what the alternates of its rule derive. -/
lemma mem_denotes_ref {rule : Rule} (hr : G[r]? = some rule) :
    w ∈ denotes G [.ref r] ↔ ∃ a ∈ rule.alternates, w ∈ denotes G a := by
  constructor
  · intro h
    cases h with
    | chr hc _ => cases hc
    | ref hrule halt hsub hrest =>
      rw [hr] at hrule
      cases hrule
      cases hrest
      rw [append_nil]
      exact ⟨_, halt, hsub⟩
  · rintro ⟨a, ha, hw⟩
    have h := Derives.ref hr ha hw .nil
    rwa [append_nil] at h

/-- A rule for something or nothing. -/
lemma denotes_optional (hr : G[r]? = some ⟨ss, [[]]⟩) : denotes G [.ref r] = denotes G ss + 1 := by
  ext w
  rw [mem_denotes_ref hr]
  constructor
  · rintro ⟨a, ha, hw⟩
    rcases mem_cons.mp ha with rfl | ha
    · exact .inl hw
    · rw [mem_singleton.mp ha, denotes_nil] at hw
      exact .inr hw
  · rintro (hw | rfl)
    · exact ⟨ss, mem_cons_self, hw⟩
    · exact ⟨[], mem_cons_of_mem _ (mem_singleton_self _), .nil⟩

/-- What is derived with a rule that refers to itself at its end. -/
lemma derives_loop (hr : G[r]? = some ⟨ss ++ [.ref r], [[]]⟩) {xs : List Sym}
    (h : Derives G xs w) : ∀ ys, xs = ys ++ [.ref r] → w ∈ denotes G ys * (denotes G ss)∗ := by
  induction h with
  | nil => exact fun ys hys => absurd hys.symm (by simp)
  | @chr s c rest w hc _ ih =>
    intro ys hys
    cases ys with
    | nil =>
      obtain ⟨rfl, -⟩ := List.cons.inj hys
      cases hc
    | cons y ys =>
      obtain ⟨rfl, hrest⟩ := List.cons.inj hys
      obtain ⟨u, hu, v, hv, rfl⟩ := Language.mem_mul.mp (ih ys hrest)
      exact Language.append_mem_mul (a := c :: u) (Derives.chr hc hu) hv
  | @ref r' rule a rest u v hrule halt hsub hrest ihsub ihrest =>
    intro ys hys
    cases ys with
    | nil =>
      obtain ⟨hr', rfl⟩ := List.cons.inj hys
      cases hr'
      cases hrest
      rw [hr] at hrule
      cases hrule
      rw [append_nil, denotes_nil, one_mul]
      rcases mem_cons.mp halt with rfl | halt
      · rw [← Language.one_add_self_mul_kstar_eq_kstar]
        exact .inr (ihsub ss rfl)
      · rw [mem_singleton.mp halt] at hsub
        cases hsub
        exact Language.nil_mem_kstar _
    | cons y ys =>
      obtain ⟨rfl, hrest'⟩ := List.cons.inj hys
      obtain ⟨u', hu', v', hv', rfl⟩ := Language.mem_mul.mp (ihrest ys hrest')
      rw [← append_assoc]
      exact Language.append_mem_mul (Derives.ref hrule halt hsub hu') hv'

/-- A rule that refers to itself at its end stands for any number of copies. -/
lemma denotes_loop (hr : G[r]? = some ⟨ss ++ [.ref r], [[]]⟩) :
    denotes G [.ref r] = (denotes G ss)∗ := by
  apply le_antisymm
  · intro w hw
    have h := derives_loop hr hw [] rfl
    rwa [denotes_nil, one_mul] at h
  · have heq : denotes G [.ref r] = denotes G ss * denotes G [.ref r] + 1 :=
      (denotes_optional hr).trans (by rw [denotes_append])
    have hpow : ∀ k w, w ∈ denotes G ss ^ k → w ∈ denotes G [.ref r] := by
      intro k
      induction k with
      | zero =>
        intro w hw
        rw [heq]
        exact .inr hw
      | succ k ih =>
        intro w hw
        rw [pow_succ'] at hw
        obtain ⟨u, hu, v, hv, rfl⟩ := hw
        rw [heq]
        exact .inl (Language.append_mem_mul hu (ih v hv))
    intro w hw
    obtain ⟨k, hw⟩ := mem_kstar_iff.mp hw
    exact hpow k w hw

/-! ## The rules that are made -/

/-- The elements of symbols. -/
def elements (ss : List Sym) : List GrammarElement := ss.flatMap Sym.elements

lemma elements_append (ss ts : List Sym) : elements (ss ++ ts) = elements ss ++ elements ts :=
  flatMap_append

lemma elements_replicate (k : ℕ) (ss : List Sym) :
    elements (List.replicate k ss).flatten = (List.replicate k (elements ss)).flatten := by
  induction k with
  | zero => rfl
  | succ k ih =>
    rw [replicate_succ, flatten_cons, elements_append, ih, replicate_succ, flatten_cons]

/-- Rules are added under their ids. -/
def addRules (news : List (ℕ × Rule)) (s : GrammarParser) : GrammarParser :=
  news.foldl (fun s e => addRule e.1 e.2.elements s) s

lemma addRules_append (news news' : List (ℕ × Rule)) (s : GrammarParser) :
    addRules (news ++ news') s = addRules news' (addRules news s) := foldl_append

lemma addRule_rules (id : ℕ) (rule : List GrammarElement) {s t : GrammarParser}
    (h : s.rules = t.rules) : (addRule id rule s).rules = (addRule id rule t).rules := by
  simp only [addRule, h]

/-- The rules that are there after adding some depend on those before only. -/
lemma addRules_congr (news : List (ℕ × Rule)) : ∀ {s t : GrammarParser}, s.rules = t.rules →
    (addRules news s).rules = (addRules news t).rules := by
  induction news with
  | nil => exact fun h => h
  | cons e news ih =>
    exact fun h => ih (addRule_rules _ _ h)

/-- Rules are made under new ids. -/
inductive Makes (ruleName : List Char) : GrammarParser → List (ℕ × Rule) → GrammarParser → Prop
  | nil {s} : Makes ruleName s [] s
  | cons {s s' rule news}
      (h : Makes ruleName (addRule (generateSymbolId ruleName s).1 (Rule.elements rule)
        (generateSymbolId ruleName s).2) news s') :
      Makes ruleName s (((generateSymbolId ruleName s).1, rule) :: news) s'

lemma Makes.rules {ruleName : List Char} {s s' : GrammarParser} {news : List (ℕ × Rule)}
    (h : Makes ruleName s news s') : s'.rules = (addRules news s).rules := by
  induction h with
  | nil => rfl
  | cons _ ih => exact ih.trans (addRules_congr _ (addRule_rules _ _ rfl))

/-- The rules are in the grammar. -/
def Has (G : List Rule) (news : List (ℕ × Rule)) : Prop := ∀ e ∈ news, G[e.1]? = some e.2

/-- **The loop makes rules for up to as many copies as it has rounds.** -/
theorem recLoop_bounded (ruleName : List Char) (ss : List Sym) (k : ℕ) :
    ∀ (i last : ℕ) (s : GrammarParser), ∃ news : List (ℕ × Rule),
      Makes ruleName s news (recLoop ruleName (elements ss) false k i (last, s)).2 ∧
      ∀ G, Has G news →
        (0 < i → denotes G [.ref last] = copies (denotes G ss) 0 (some i)) → 0 < i + k →
        denotes G [.ref (recLoop ruleName (elements ss) false k i (last, s)).1] =
          copies (denotes G ss) 0 (some (i + k)) := by
  induction k with
  | zero => exact fun i last s => ⟨[], .nil, fun G _ hlast hpos => hlast hpos⟩
  | succ k ih =>
    intro i last s
    set id := (generateSymbolId ruleName s).1 with hid
    set rest : List Sym := if 0 < i then [.ref last] else [] with hrest
    have helems : elements ss ++ (if 0 < i ∨ false = true then
        [⟨.ruleRef, if false = true then id else last⟩] else []) ++ [⟨.alt, 0⟩, ⟨.end_, 0⟩] =
          Rule.elements ⟨ss ++ rest, [[]]⟩ := by
      rw [hrest]
      by_cases hi : 0 < i
      · simp [hi, Rule.elements, alternateElements, elements, Sym.elements]
      · simp [hi, Rule.elements, alternateElements, elements]
    obtain ⟨news, hmakes, hlang⟩ := ih (i + 1) id
      (addRule id (Rule.elements ⟨ss ++ rest, [[]]⟩) (generateSymbolId ruleName s).2)
    refine ⟨(id, ⟨ss ++ rest, [[]]⟩) :: news, ?_, fun G hG hlast _ => ?_⟩
    · rw [recLoop]
      dsimp only
      rw [helems]
      exact .cons hmakes
    · rw [recLoop]
      dsimp only
      rw [helems, hlang G (fun e he => hG e (mem_cons_of_mem _ he)) (fun _ => ?_) (by omega)]
      · rw [Nat.add_right_comm, Nat.add_assoc]
      · rw [denotes_optional (hG _ mem_cons_self), denotes_append, copies_succ, hrest]
        by_cases hi : 0 < i
        · rw [if_pos hi, hlast hi]
        · obtain rfl : i = 0 := by omega
          rw [if_neg hi, denotes_nil, copies_exact, pow_zero]

/-- The rule for any number of copies. -/
lemma recLoop_unbounded (ruleName : List Char) (ss : List Sym) (s : GrammarParser) :
    ∃ news : List (ℕ × Rule),
      Makes ruleName s news (recLoop ruleName (elements ss) true 1 0 (0, s)).2 ∧
      ∀ G, Has G news → denotes G [.ref (recLoop ruleName (elements ss) true 1 0 (0, s)).1] =
          (denotes G ss)∗ := by
  set id := (generateSymbolId ruleName s).1
  have helems : elements ss ++ (if 0 < 0 ∨ true = true then
      [⟨.ruleRef, if true = true then id else 0⟩] else []) ++ [⟨.alt, 0⟩, ⟨.end_, 0⟩] =
        Rule.elements ⟨ss ++ [.ref id], [[]]⟩ := by
    simp [Rule.elements, alternateElements, elements, Sym.elements]
  have hrun : recLoop ruleName (elements ss) true 1 0 (0, s) =
      (id, addRule id (Rule.elements ⟨ss ++ [.ref id], [[]]⟩) (generateSymbolId ruleName s).2) := by
    rw [← helems]
    rfl
  rw [hrun]
  exact ⟨[(id, ⟨ss ++ [.ref id], [[]]⟩)], .cons .nil, fun G hG =>
    denotes_loop (hG _ mem_cons_self)⟩

/-- The last item of a sequence has these symbols. -/
structure LastItem (st : SeqState) (front : List GrammarElement) (ss : List Sym) : Prop where
  rule : st.rule = front ++ elements ss
  start : st.lastSymStart = front.length

/-- **The symbols that a repetition leaves have the language of the copies.** -/
theorem denotes_expand (ruleName : List Char) (minTimes maxTimes : ℕ) {st : SeqState}
    {front : List GrammarElement} {ss : List Sym} (h : LastItem st front ss) (s : GrammarParser) :
    ∃ (ss' : List Sym) (news : List (ℕ × Rule)) (s' : GrammarParser),
      LastItem (expand ruleName minTimes maxTimes st s).1 front ss' ∧ Makes ruleName s news s' ∧
      (expand ruleName minTimes maxTimes st s).2.rules = s'.rules ∧
      (expand ruleName minTimes maxTimes st s).2.symbolIds = s'.symbolIds ∧
      ∀ G, Has G news → denotes G ss' = copies (denotes G ss) minTimes (upper minTimes maxTimes) := by
  have hprev : st.rule.drop st.lastSymStart = elements ss := by
    rw [h.rule, h.start, drop_left]
  -- the copies that have to be there
  have hcopies : (if minTimes = 0 then st.rule.take st.lastSymStart
      else st.rule ++ (List.replicate (minTimes - 1) (elements ss)).flatten) =
        front ++ elements (List.replicate minTimes ss).flatten := by
    cases minTimes with
    | zero => rw [h.rule, h.start]; simp [elements]
    | succ m =>
      rw [if_neg (Nat.succ_ne_zero m), h.rule, Nat.add_sub_cancel, ← elements_replicate,
        append_assoc, ← elements_append, replicate_succ, flatten_cons]
  have href : ∀ id : ℕ, front ++ elements (List.replicate minTimes ss).flatten ++
      [⟨.ruleRef, id⟩] = front ++ elements ((List.replicate minTimes ss).flatten ++ [.ref id]) := by
    intro id
    rw [elements_append, append_assoc]
    rfl
  by_cases hmax : maxTimes = uint64Max
  · obtain ⟨news, hmakes, hlang⟩ := recLoop_unbounded ruleName ss s
    have hopt : nOpt minTimes maxTimes = 1 := if_pos hmax
    refine ⟨(List.replicate minTimes ss).flatten ++
      [.ref (recLoop ruleName (elements ss) true 1 0 (0, s)).1], news, _, ⟨?_, h.start⟩, hmakes,
      ?_, ?_, fun G hG => ?_⟩
    · rw [expand]
      rw [hprev, hcopies, hopt, decide_eq_true hmax, if_pos Nat.one_pos, href]
    · rw [expand]
      rw [hprev, hopt, decide_eq_true hmax]
    · rw [expand]
      rw [hprev, hopt, decide_eq_true hmax]
    · rw [denotes_append, denotes_replicate, hlang G hG, upper, if_pos hmax, copies_none]
  · obtain ⟨news, hmakes, hlang⟩ := recLoop_bounded ruleName ss (nOpt minTimes maxTimes) 0 0 s
    have hupper : upper minTimes maxTimes = some (minTimes + nOpt minTimes maxTimes) :=
      if_neg hmax
    refine ⟨(List.replicate minTimes ss).flatten ++ (if 0 < nOpt minTimes maxTimes then
        [.ref (recLoop ruleName (elements ss) false (nOpt minTimes maxTimes) 0 (0, s)).1] else []),
      news, _, ⟨?_, h.start⟩, hmakes, ?_, ?_, fun G hG => ?_⟩
    · rw [expand]
      rw [hprev, hcopies, decide_eq_false hmax]
      by_cases hpos : 0 < nOpt minTimes maxTimes
      · rw [if_pos hpos, if_pos hpos, href]
      · rw [if_neg hpos, if_neg hpos, append_nil]
    · rw [expand]
      rw [hprev, decide_eq_false hmax]
    · rw [expand]
      rw [hprev, decide_eq_false hmax]
    · rw [denotes_append, denotes_replicate, hupper, copies_add]
      by_cases hpos : 0 < nOpt minTimes maxTimes
      · rw [if_pos hpos, hlang G hG (fun hlt => absurd hlt (Nat.lt_irrefl 0)) (by omega), Nat.zero_add]
      · obtain hzero : nOpt minTimes maxTimes = 0 := by omega
        rw [if_neg hpos, hzero, denotes_nil, copies_exact, pow_zero]

/-! ## The items of a sequence -/

/-- The symbol of a character of a literal. -/
def charSym (c : ℕ) : Sym := .chars false ⟨c, none⟩ []

lemma literalLoop_spec (k : ℕ) : ∀ {pos pos1 rule rule1} {s s1 : GrammarParser},
    literalLoop k pos rule s = (.ok (pos1, rule1), s1) →
    s1 = s ∧ ∃ cs, LiteralText pos cs pos1 ∧ rule1 = rule ++ elements (cs.map charSym) := by
  induction k with
  | zero => exact fun h => (by cases h)
  | succ k ih =>
    intro pos pos1 rule rule1 s s1 h
    rw [literalLoop] at h
    split_ifs at h with hquote hend
    · obtain ⟨heq, rfl⟩ := pure_eq_ok.mp h
      cases heq
      exact ⟨rfl, [], .done hquote, (append_nil _).symm⟩
    · cases h
    · obtain ⟨⟨c, pos2⟩, s2, hrun, h⟩ := Control.bind_eq_ok.mp h
      obtain ⟨hchar, rfl⟩ := ofExcept_eq_ok.mp hrun
      obtain ⟨rfl, cs, hcs, rfl⟩ := ih h
      refine ⟨rfl, c :: cs, .char hquote hend hchar hcs, ?_⟩
      rw [append_assoc]
      rfl

/-- The type of the first element of a class. -/
def startType (inverse : Bool) : Gretype := if inverse then .charNot else .char

/-- A range is added to a class. -/
lemma elements_classSyms_concat (inverse : Bool) (rs : List CharRange) (r : CharRange) :
    elements (classSyms inverse (rs ++ [r])) = elements (classSyms inverse rs) ++
      r.elements (if rs = [] then startType inverse else .charAlt) := by
  cases rs with
  | nil => simp [classSyms, elements, Sym.elements, startType]
  | cons r' rs => simp [classSyms, elements, Sym.elements]

lemma elements_classSyms_eq_nil (inverse : Bool) (rs : List CharRange) :
    elements (classSyms inverse rs) = [] ↔ rs = [] := by
  cases rs with
  | nil => simp [classSyms, elements]
  | cons r rs => simp [classSyms, elements, Sym.elements, CharRange.elements]

lemma rangeUpper_spec {pos pos1 : List Char} {rule rule1 : List GrammarElement}
    (h : rangeUpper pos rule = .ok (pos1, rule1)) :
    rangeFollows pos = false ∧ pos1 = pos ∧ rule1 = rule ∨
      rangeFollows pos = true ∧ peek pos.tail ≠ '\x00' ∧
        ∃ high, parseChar pos.tail = .ok (high, pos1) ∧ rule1 = rule ++ [⟨.charRngUpper, high⟩] := by
  have hiff : (peek pos = '-' ∧ peek pos.tail ≠ ']') ↔ rangeFollows pos = true := by
    simp [rangeFollows]
  rw [rangeUpper] at h
  split_ifs at h with hyes hend
  · obtain ⟨⟨high, pos2⟩, hhigh, h⟩ := except_bind_eq_ok.mp h
    cases h
    exact .inr ⟨hiff.mp hyes, hend, high, hhigh, rfl⟩
  · cases h
    exact .inl ⟨Bool.eq_false_iff.mpr fun h => hyes (hiff.mpr h), rfl, rfl⟩

lemma rangeLoop_spec (inverse : Bool) (front : List GrammarElement) (k : ℕ) :
    ∀ {pos pos1 rs rule1} {s s1 : GrammarParser},
      rangeLoop front.length (startType inverse) k pos (front ++ elements (classSyms inverse rs)) s =
        (.ok (pos1, rule1), s1) →
      s1 = s ∧ ∃ rs', RangesText pos rs' pos1 ∧
        rule1 = front ++ elements (classSyms inverse (rs ++ rs')) := by
  induction k with
  | zero => exact fun h => (by cases h)
  | succ k ih =>
    intro pos pos1 rs rule1 s s1 h
    rw [rangeLoop] at h
    split at h
    · rename_i hclose
      obtain ⟨heq, rfl⟩ := pure_eq_ok.mp h
      cases heq
      exact ⟨rfl, [], .done hclose, by rw [append_nil]⟩
    rename_i hclose
    split at h
    · cases h
    · rename_i hend
      obtain ⟨⟨low, pos2⟩, s2, hrun, h⟩ := Control.bind_eq_ok.mp h
      obtain ⟨hlow, rfl⟩ := ofExcept_eq_ok.mp hrun
      obtain ⟨⟨pos3, rule3⟩, s3, hrun', h⟩ := Control.bind_eq_ok.mp h
      obtain ⟨hupper, rfl⟩ := ofExcept_eq_ok.mp hrun'
      -- the type of the element says whether it is the first one
      have htype : (if front.length < (front ++ elements (classSyms inverse rs)).length
          then Gretype.charAlt else startType inverse) =
            if rs = [] then startType inverse else .charAlt := by
        have hnil := elements_classSyms_eq_nil inverse rs
        rw [← length_eq_zero_iff] at hnil
        rw [length_append]
        by_cases hrs : rs = []
        · rw [if_pos hrs, hnil.mpr hrs, Nat.add_zero, if_neg (Nat.lt_irrefl _)]
        · have hpos := Nat.pos_of_ne_zero (mt hnil.mp hrs)
          rw [if_neg hrs, if_pos (Nat.lt_add_of_pos_right hpos)]
      have hrange : ∀ r : CharRange, r.low = low → ∀ es, r.elements (if rs = [] then
          startType inverse else .charAlt) = ⟨if rs = [] then startType inverse else .charAlt, low⟩ ::
            es → front ++ elements (classSyms inverse rs) ++ [⟨if rs = [] then startType inverse
              else .charAlt, low⟩] ++ es = front ++ elements (classSyms inverse (rs ++ [r])) := by
        intro r _ es hes
        rw [elements_classSyms_concat, hes]
        simp
      rw [htype] at hupper
      rcases rangeUpper_spec hupper with ⟨hno, rfl, rfl⟩ | ⟨hyes, hend', high, hhigh, rfl⟩
      · have hrule := hrange ⟨low, none⟩ rfl [] rfl
        rw [append_nil] at hrule
        rw [hrule] at h
        obtain ⟨rfl, rs', hrs', rfl⟩ := ih h
        exact ⟨rfl, ⟨low, none⟩ :: rs', .one hclose hend hlow hno hrs', by simp⟩
      · rw [hrange ⟨low, some high⟩ rfl _ rfl] at h
        obtain ⟨rfl, rs', hrs', rfl⟩ := ih h
        exact ⟨rfl, ⟨low, some high⟩ :: rs', .range hclose hend hlow hyes hend' hhigh hrs', by simp⟩

variable {vocab : Option (List Char → Option ℕ)} {nested : List Char → ℕ → Parse (List Char)}

/-- What a round of the loop over a sequence does with an item: its symbols, the position behind
it and the state of the parser. -/
inductive ItemStep (vocab : Option (List Char → Option ℕ))
    (nested : List Char → ℕ → Parse (List Char)) (ruleName : List Char) (b : Bool)
    (pos : List Char) (s : GrammarParser) : List Sym → List Char → GrammarParser → Prop
  | literal {cs pos1} (hpos : peek pos = '"') (hcs : LiteralText pos.tail cs pos1) :
      ItemStep vocab nested ruleName b pos s (cs.map charSym) (skipSpace b pos1.tail) s
  | range {rs pos1} (hpos : peek pos = '[') (hrs : RangesText (classStart pos).2 rs pos1) :
      ItemStep vocab nested ruleName b pos s (classSyms (classStart pos).1 rs)
        (skipSpace b pos1.tail) s
  | token {id pos1} (hpos : peek pos = '<' ∨ peek pos = '!')
      (hid : parseToken vocab (tokenStart pos) = .ok (id, pos1)) :
      ItemStep vocab nested ruleName b pos s [.token (peek pos = '!') id] (skipSpace b pos1) s
  | name {name pos1} (hpos : isWordChar (peek pos) = true)
      (hname : parseName pos = .ok (name, pos1)) :
      ItemStep vocab nested ruleName b pos s [.ref (getSymbolId name s).1] (skipSpace b pos1)
        (getSymbolId name s).2
  | group {pos1 s1} (hpos : peek pos = '(')
      (hsub : nested (skipSpace true pos.tail) (generateSymbolId ruleName s).1
        (generateSymbolId ruleName s).2 = (.ok pos1, s1)) (hend : peek pos1 = ')') :
      ItemStep vocab nested ruleName b pos s [.ref (generateSymbolId ruleName s).1]
        (skipSpace b pos1.tail) s1
  | any (hpos : peek pos = '.') :
      ItemStep vocab nested ruleName b pos s [.any] (skipSpace b pos.tail) s

/-- **A round that reads no repetition reads an item**, whose symbols are the last ones then. -/
theorem itemStep {ruleName pos pos1 : List Char} {b : Bool} {st st1 : SeqState}
    {s s1 : GrammarParser} (hop : isOperator (peek pos) = false)
    (h : sequenceStep vocab nested ruleName b pos st s = (.ok (some (pos1, st1)), s1)) :
    ∃ ss, LastItem st1 st.rule ss ∧ ItemStep vocab nested ruleName b pos s ss pos1 s1 := by
  simp only [isOperator, Bool.or_eq_false_iff, decide_eq_false_iff_not] at hop
  obtain ⟨⟨⟨hstar, hplus⟩, hquestion⟩, hbrace⟩ := hop
  rw [sequenceStep] at h
  by_cases hliteral : peek pos = '"'
  · rw [if_pos hliteral] at h
    obtain ⟨⟨pos2, rule2⟩, s2, hrun, h⟩ := Control.bind_eq_ok.mp h
    obtain ⟨rfl, cs, hcs, rfl⟩ := literalLoop_spec _ hrun
    obtain ⟨heq, rfl⟩ := pure_eq_ok.mp h
    cases heq
    exact ⟨_, ⟨rfl, rfl⟩, .literal hliteral hcs⟩
  rw [if_neg hliteral] at h
  by_cases hrange : peek pos = '['
  · rw [if_pos hrange] at h
    obtain ⟨⟨pos2, rule2⟩, s2, hrun, h⟩ := Control.bind_eq_ok.mp h
    have hstart : (if peek pos.tail = '^' then Gretype.charNot else .char) =
        startType (classStart pos).1 := by
      rw [classStart]
      split <;> rfl
    have hpos : (if peek pos.tail = '^' then pos.tail.tail else pos.tail) = (classStart pos).2 := by
      rw [classStart]
      split <;> rfl
    have hrule : st.rule = st.rule ++ elements (classSyms (classStart pos).1 []) :=
      (append_nil _).symm
    rw [hstart, hpos] at hrun
    nth_rewrite 2 [hrule] at hrun
    obtain ⟨rfl, rs, hrs, rfl⟩ := rangeLoop_spec _ _ _ hrun
    obtain ⟨heq, rfl⟩ := pure_eq_ok.mp h
    cases heq
    exact ⟨_, ⟨rfl, rfl⟩, .range hrange hrs⟩
  rw [if_neg hrange] at h
  by_cases htoken : peek pos = '<' ∨ peek pos = '!'
  · rw [if_pos htoken] at h
    obtain ⟨⟨id, pos2⟩, s2, hrun, h⟩ := Control.bind_eq_ok.mp h
    obtain ⟨hid, rfl⟩ := ofExcept_eq_ok.mp hrun
    obtain ⟨heq, rfl⟩ := pure_eq_ok.mp h
    cases heq
    refine ⟨_, ⟨?_, rfl⟩, .token htoken hid⟩
    by_cases hnot : peek pos = '!'
    · simp [SeqState.item, elements, Sym.elements]
    · simp [SeqState.item, elements, Sym.elements]
  rw [if_neg htoken] at h
  by_cases hname : isWordChar (peek pos) = true
  · rw [if_pos hname] at h
    obtain ⟨⟨name, pos2⟩, s2, hrun, h⟩ := Control.bind_eq_ok.mp h
    obtain ⟨hparse, rfl⟩ := ofExcept_eq_ok.mp hrun
    obtain ⟨id, s3, hid, h⟩ := Control.bind_eq_ok.mp h
    have hid' := onState_eq_ok.mp hid
    obtain ⟨heq, rfl⟩ := pure_eq_ok.mp h
    cases heq
    cases hid'
    exact ⟨_, ⟨rfl, rfl⟩, .name hname hparse⟩
  rw [if_neg hname] at h
  by_cases hgroup : peek pos = '('
  · rw [if_pos hgroup] at h
    obtain ⟨⟨pos2, st2⟩, s2, hrun, h⟩ := Control.bind_eq_ok.mp h
    obtain ⟨heq, rfl⟩ := pure_eq_ok.mp h
    cases heq
    obtain ⟨⟨nBefore, id⟩, s3, hgen, hrun⟩ := Control.bind_eq_ok.mp hrun
    have hgen' := onState_eq_ok.mp hgen
    cases hgen'
    obtain ⟨pos3, s4, hsub, hrun⟩ := Control.bind_eq_ok.mp hrun
    obtain ⟨nRules, s5, hcount, hrun⟩ := Control.bind_eq_ok.mp hrun
    have hcount' := onState_eq_ok.mp hcount
    cases hcount'
    split at hrun
    · cases hrun
    · rename_i hend
      obtain ⟨heq, rfl⟩ := pure_eq_ok.mp hrun
      cases heq
      exact ⟨_, ⟨rfl, rfl⟩, .group hgroup hsub (not_ne_iff.mp hend)⟩
  rw [if_neg hgroup] at h
  by_cases hany : peek pos = '.'
  · rw [if_pos hany] at h
    obtain ⟨heq, rfl⟩ := pure_eq_ok.mp h
    cases heq
    exact ⟨_, ⟨rfl, rfl⟩, .any hany⟩
  rw [if_neg hany, if_neg hstar, if_neg hplus, if_neg hquestion, if_neg hbrace] at h
  obtain ⟨heq, -⟩ := pure_eq_ok.mp h
  cases heq

/-- What is done for a repetition that passes the checks. -/
lemma handleRepetitions_spec {ruleName pos : List Char} {m n : ℕ} {st st1 : SeqState}
    {s s1 : GrammarParser}
    (h : handleRepetitions ruleName pos m n st s = (.ok st1, s1)) :
    st.lastSymStart ≠ st.rule.length ∧ (st1, s1) = expand ruleName m n st s := by
  rw [handleRepetitions] at h
  split at h
  · cases h
  · rename_i hne
    split at h
    · cases h
    · have h' := onState_eq_ok.mp h
      rw [Prod.mk.injEq, Except.ok.injEq] at h'
      exact ⟨hne, Prod.ext h'.1.symm h'.2.symm⟩

/-- **A round that reads a repetition expands it.** -/
theorem operatorStep {ruleName pos pos1 : List Char} {b : Bool} {st st1 : SeqState}
    {s s1 : GrammarParser} (hop : isOperator (peek pos) = true)
    (h : sequenceStep vocab nested ruleName b pos st s = (.ok (some (pos1, st1)), s1)) :
    ∃ m n, readOperator b pos = some (m, n, pos1) ∧ st.lastSymStart ≠ st.rule.length ∧
      (st1, s1) = expand ruleName m n st s := by
  have hchars : peek pos = '*' ∨ peek pos = '+' ∨ peek pos = '?' ∨ peek pos = '\x7b' := by
    simp only [isOperator, Bool.or_eq_true, decide_eq_true_eq] at hop
    tauto
  have hend : ∀ {pos2 m n s2}, (do
      let st ← handleRepetitions ruleName pos2 m n st
      pure (some (pos2, st)) : Parse _) s2 = (.ok (some (pos1, st1)), s1) →
      pos2 = pos1 ∧ st.lastSymStart ≠ st.rule.length ∧ (st1, s1) = expand ruleName m n st s2 := by
    intro pos2 m n s2 hrun
    obtain ⟨st2, s3, hrun, hpure⟩ := Control.bind_eq_ok.mp hrun
    obtain ⟨heq, rfl⟩ := pure_eq_ok.mp hpure
    cases heq
    exact ⟨rfl, handleRepetitions_spec hrun⟩
  rw [sequenceStep] at h
  rcases hchars with hpos | hpos | hpos | hpos <;> rw [readOperator] <;>
    simp only [hpos] at h ⊢
  · obtain ⟨rfl, hexp⟩ := hend h
    exact ⟨_, _, rfl, hexp⟩
  · obtain ⟨rfl, hexp⟩ := hend h
    exact ⟨_, _, rfl, hexp⟩
  · obtain ⟨rfl, hexp⟩ := hend h
    exact ⟨_, _, rfl, hexp⟩
  · obtain ⟨⟨m, n, pos2⟩, s2, hrun, h⟩ := Control.bind_eq_ok.mp h
    obtain ⟨hbounds, rfl⟩ := ofExcept_eq_ok.mp hrun
    obtain ⟨rfl, hexp⟩ := hend h
    exact ⟨m, n, by rw [hbounds]; rfl, hexp⟩

lemma readOperator_le {pos pos1 : List Char} {b : Bool} {m n : ℕ}
    (h : readOperator b pos = some (m, n, pos1)) : n ≤ uint64Max := by
  rw [readOperator] at h
  split_ifs at h
  · cases h
    exact Nat.le_refl _
  · cases h
    exact Nat.le_refl _
  · cases h
    decide
  · cases hbounds : parseBounds b (skipSpace b pos.tail) with
    | error e => rw [hbounds] at h; cases h
    | ok r =>
      rw [hbounds] at h
      cases h
      rcases (parseBounds_spec hbounds).2.max with hmax | hmax
      · exact hmax.le
      · exact hmax.trans (by decide)

/-- **A repetition denotes the copies of the item before it**: an item is read, whose symbols are
`ss`, and a repetition behind it, which leaves the symbols `ss'` in the place of `ss` and makes new
rules.  Whatever else the grammar has, `ss'` has the language of the copies of `ss`. -/
theorem denotes_repetition {ruleName pos pos1 pos2 : List Char} {b : Bool} {st st1 st2 : SeqState}
    {s s1 s2 : GrammarParser} {m n : ℕ} (hitem : isOperator (peek pos) = false)
    (h1 : sequenceStep vocab nested ruleName b pos st s = (.ok (some (pos1, st1)), s1))
    (hop : readOperator b pos1 = some (m, n, pos2)) (hle : m ≤ n)
    (h2 : sequenceStep vocab nested ruleName b pos1 st1 s1 = (.ok (some (pos2, st2)), s2)) :
    ∃ (ss ss' : List Sym) (news : List (ℕ × Rule)),
      st1.rule = st.rule ++ elements ss ∧ st2.rule = st.rule ++ elements ss' ∧
      s2.rules = (addRules news s1).rules ∧
      ∀ G, Has G news → denotes G ss' =
        copies (denotes G ss) m (if n = uint64Max then none else some n) := by
  obtain ⟨ss, hlast, -⟩ := itemStep hitem h1
  obtain ⟨m', n', hop', -, hexp⟩ := operatorStep (isOperator_of_readOperator hop) h2
  rw [hop] at hop'
  cases hop'
  obtain ⟨ss', news, s', hlast', hmakes, hrules, -, hlang⟩ := denotes_expand ruleName m n hlast s1
  rw [← hexp] at hlast' hrules
  refine ⟨ss, ss', news, hlast.rule, hlast'.rule, hrules.trans hmakes.rules, fun G hG => ?_⟩
  rw [hlang G hG, upper_of_le hle (readOperator_le hop)]

/-- The repetition of a literal. -/
theorem denotes_repetition_literal : ∃ (ss ss' : List Sym) (news : List (ℕ × Rule)),
    [⟨.char, 97⟩] = [] ++ elements ss ∧
    [⟨.char, 97⟩, ⟨.ruleRef, 1⟩] = [] ++ elements ss' ∧
    ([[], [⟨.char, 97⟩, ⟨.alt, 0⟩, ⟨.end_, 0⟩]] : GrammarRules) =
      (addRules news ⟨[(['r'], 0)], [], [], []⟩).rules ∧
    ∀ G, Has G news → denotes G ss' =
      copies (denotes G ss) 1 (if 2 = uint64Max then none else some 2) :=
  denotes_repetition (show isOperator (peek "\"a\"\x7b1,2\x7d".toList) = false by decide)
    (show sequenceStep none (fun _ _ => Control.unfinished) ['r'] false
        "\"a\"\x7b1,2\x7d".toList ⟨[], 0, 1⟩ ⟨[(['r'], 0)], [], [], []⟩ =
      (.ok (some ("\x7b1,2\x7d".toList, ⟨[⟨.char, 97⟩], 0, 1⟩)), ⟨[(['r'], 0)], [], [], []⟩) from
        rfl)
    (show readOperator false "\x7b1,2\x7d".toList = some (1, 2, []) from rfl) (by decide)
    (show sequenceStep none (fun _ _ => Control.unfinished) ['r'] false
        "\x7b1,2\x7d".toList ⟨[⟨.char, 97⟩], 0, 1⟩ ⟨[(['r'], 0)], [], [], []⟩ =
      (.ok (some ([], ⟨[⟨.char, 97⟩, ⟨.ruleRef, 1⟩], 0, 2⟩)), _) from rfl)

end Llama.Gbnf
