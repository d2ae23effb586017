import Llama.Grammar.Parser

/-!
# What the grammar parser makes for a repetition

Every item of a rule takes a character at least off the text, so the loops end, and so do the
groups inside of each other.  A repetition is expanded only when the number of its rules, times
that of the rules of its item, is below the threshold.

The check counts the upper bound of a repetition, or the lower one when there is no upper bound.
The loop that makes the rules runs over their difference, and nothing compares the two before that
difference is taken.
-/

namespace Llama

open List Control
variable {k n : ℕ} {rest : List Char}

namespace GrammarParser

/-! ## Positions -/

@[simp] lemma peek_nil : peek [] = '\x00' := rfl
@[simp] lemma peek_cons (c : Char) (pos : List Char) : peek (c :: pos) = c := rfl

/-- Behind a character that is not the end there is less text. -/
lemma tail_length_lt (pos : List Char) (h : peek pos ≠ '\x00') : pos.tail.length < pos.length := by
  cases pos with
  | nil => exact absurd rfl h
  | cons c cs => simp

lemma parseSpace_length_le (newlineOk comment : Bool) (pos : List Char) :
    (parseSpace newlineOk comment pos).length ≤ pos.length := by
  induction pos generalizing comment with
  | nil => simp [parseSpace]
  | cons c cs ih =>
    have htrue := ih true
    have hfalse := ih false
    unfold parseSpace
    simp only [length_cons]
    split
    · omega
    · split
      · omega
      · split
        · omega
        · simp

lemma skipSpace_length_le (newlineOk : Bool) (pos : List Char) :
    (skipSpace newlineOk pos).length ≤ pos.length := parseSpace_length_le newlineOk false pos

variable {pos src : List Char} {v : ℕ} {isNested : Bool}

lemma dropWhile_length_lt {p : Char → Bool} (h : p (peek pos)) (hnul : p '\x00' = false) :
    (pos.dropWhile p).length < pos.length := by
  cases pos with
  | nil => rw [peek_nil, hnul] at h; cases h
  | cons c cs =>
    rw [peek_cons] at h
    rw [dropWhile_cons_of_pos h]
    exact Nat.lt_succ_of_le (dropWhile_suffix p).length_le

lemma parseName_length_lt {name : List Char} (h : parseName src = .ok (name, pos)) :
    pos.length < src.length := by
  unfold parseName at h
  split at h
  · next hw =>
    cases h
    exact dropWhile_length_lt hw (by decide)
  · cases h

lemma parseInt_length_lt {digits : List Char} (h : parseInt src = .ok (digits, pos)) :
    pos.length < src.length := by
  unfold parseInt at h
  split at h
  · next hw =>
    cases h
    exact dropWhile_length_lt hw (by decide)
  · cases h

lemma decodeUtf8_length_lt (h : peek src ≠ '\x00') : (decodeUtf8 src).2.length < src.length := by
  have hlt := tail_length_lt src h
  simp only [decodeUtf8, length_drop]
  omega

lemma hexLoop_length_le {value : ℕ} (h : hexLoop k value pos = some (v, rest)) :
    rest.length ≤ pos.length := by
  induction k generalizing value pos with
  | zero => cases h; exact Nat.le_refl _
  | succ k ih =>
    cases pos with
    | nil => cases h
    | cons c cs =>
      rw [hexLoop] at h
      split at h
      · cases h
      · exact Nat.le_succ_of_le (ih h)

lemma parseHex_length_le {size : ℕ} (h : parseHex src size = .ok (v, pos)) :
    pos.length ≤ src.length := by
  unfold parseHex at h
  split at h
  · cases h
  · next heq =>
    cases h
    exact hexLoop_length_le heq

lemma parseChar_length_lt (h : parseChar src = .ok (v, pos)) : pos.length < src.length := by
  unfold parseChar at h
  split at h
  · next hc =>
    have hlt := tail_length_lt src (by rw [hc]; decide)
    have htail : src.tail.tail.length ≤ src.tail.length := by simp
    have hhex : ∀ size, parseHex src.tail.tail size = .ok (v, pos) → pos.length < src.length := by
      intro size hs
      have hle := parseHex_length_le hs
      omega
    simp only at h
    split_ifs at h
    all_goals first
      | exact hhex _ h
      | cases h
    all_goals omega
  · split at h
    · next hc =>
      have hlt := decodeUtf8_length_lt hc
      rw [Except.ok.inj h] at hlt
      exact hlt
    · cases h

lemma expect_eq_ok {c : Char} {text : String} (h : expect c text src = .ok pos) :
    peek src = c ∧ pos = src.tail := by
  unfold expect at h
  split at h
  · next hc =>
    cases h
    exact ⟨hc, rfl⟩
  · cases h

lemma expect_length_le {c : Char} {text : String} (h : expect c text src = .ok pos) :
    pos.length ≤ src.length := by
  rw [(expect_eq_ok h).2, length_tail]
  omega

lemma parseTokenId_length_le (h : parseTokenId src = .ok (v, pos)) : pos.length ≤ src.length := by
  obtain ⟨⟨digits, pos1⟩, hint, h⟩ := except_bind_eq_ok.mp h
  obtain ⟨id, -, h⟩ := except_bind_eq_ok.mp h
  obtain ⟨pos2, h2, h⟩ := except_bind_eq_ok.mp h
  obtain ⟨pos3, h3, h⟩ := except_bind_eq_ok.mp h
  cases h
  have hlt := parseInt_length_lt hint
  have hle2 := expect_length_le h2
  have hle3 := expect_length_le h3
  omega

lemma parseTokenText_length_le {tokenize : List Char → Option ℕ}
    (h : parseTokenText tokenize src = .ok (v, pos)) : pos.length ≤ src.length := by
  obtain ⟨pos1, h1, h⟩ := except_bind_eq_ok.mp h
  have hle := expect_length_le h1
  rw [length_drop] at hle
  dsimp only at h
  split at h
  · cases h
  · cases h
    omega

lemma parseToken_length_lt {vocab : Option (List Char → Option ℕ)}
    (h : parseToken vocab src = .ok (v, pos)) : pos.length < src.length := by
  obtain ⟨pos1, h1, h⟩ := except_bind_eq_ok.mp h
  obtain ⟨hc, rfl⟩ := expect_eq_ok h1
  have hlt := tail_length_lt src (by rw [hc]; decide)
  split at h
  · have hle := parseTokenId_length_le h
    rw [length_tail] at hle
    omega
  · split at h
    · cases h
    · have hle := parseTokenText_length_le h
      omega

lemma parseUpper_length_le (h : parseUpper isNested src = .ok (n, pos)) :
    pos.length ≤ src.length := by
  unfold parseUpper at h
  split at h
  · obtain ⟨⟨digits, pos1⟩, hint, h⟩ := except_bind_eq_ok.mp h
    obtain ⟨id, -, h⟩ := except_bind_eq_ok.mp h
    cases h
    have hlt := parseInt_length_lt hint
    have hle := skipSpace_length_le isNested pos1
    omega
  · cases h
    exact Nat.le_refl _

lemma parseMaxTimes_length_le {m : ℕ} (h : parseMaxTimes isNested m src = .ok (n, pos)) :
    pos.length ≤ src.length := by
  have htail := length_tail (l := src)
  unfold parseMaxTimes at h
  split at h
  · cases h
    have hle := skipSpace_length_le isNested src.tail
    omega
  · split at h
    · obtain ⟨⟨n', pos1⟩, hupper, h⟩ := except_bind_eq_ok.mp h
      obtain ⟨pos2, h2, h⟩ := except_bind_eq_ok.mp h
      cases h
      have hle := parseUpper_length_le hupper
      have hle' := skipSpace_length_le isNested src.tail
      have hle2 := expect_length_le h2
      have hle3 := skipSpace_length_le isNested pos2
      omega
    · cases h

/-- Bounds that are let through. -/
structure InBounds (minTimes maxTimes : ℕ) : Prop where
  min : minTimes ≤ maxRepetitionThreshold
  max : maxTimes = uint64Max ∨ maxTimes ≤ maxRepetitionThreshold

lemma parseBounds_spec {minTimes maxTimes : ℕ}
    (h : parseBounds isNested src = .ok (minTimes, maxTimes, pos)) :
    pos.length ≤ src.length ∧ InBounds minTimes maxTimes := by
  unfold parseBounds at h
  split at h
  · cases h
  obtain ⟨⟨digits, pos1⟩, hint, h⟩ := except_bind_eq_ok.mp h
  obtain ⟨m, -, h⟩ := except_bind_eq_ok.mp h
  obtain ⟨⟨n, pos2⟩, hmax, h⟩ := except_bind_eq_ok.mp h
  have hlt := parseInt_length_lt hint
  have hle := skipSpace_length_le isNested pos1
  have hle' := parseMaxTimes_length_le hmax
  dsimp only at h
  split at h
  · cases h
  next hmin =>
  cases h
  refine ⟨by omega, Nat.le_of_not_lt hmin, ?_⟩
  split
  · exact .inl rfl
  · omega

lemma one_le_totalRules (minTimes maxTimes : ℕ) : 1 ≤ totalRules minTimes maxTimes := by
  unfold totalRules
  split
  · next h => exact h.2
  · split
    · assumption
    · exact Nat.le_refl 1

lemma InBounds.totalRules_le {minTimes maxTimes : ℕ} (h : InBounds minTimes maxTimes) :
    totalRules minTimes maxTimes ≤ maxRepetitionThreshold := by
  unfold totalRules
  split
  · next hmax => exact h.max.resolve_left hmax.1
  · split
    · exact h.min
    · decide

end GrammarParser

open GrammarParser

/-- A repetition that was let through, and what is made for it. -/
structure Repetition.Sound (it : Repetition) : Prop where
  bounds : InBounds it.minTimes it.maxTimes
  total : totalRules it.minTimes it.maxTimes < maxRepetitionThreshold
  rules : it.nRules = nOpt it.minTimes it.maxTimes
  elements : it.nElements ≤ it.minTimes * it.sym.length +
    nOpt it.minTimes it.maxTimes * (it.sym.length + 3) + 1

namespace GrammarParser

/-- The loop makes as many rules as it has rounds. -/
lemma recLoop_spec (ruleName : List Char) (prevRule : List GrammarElement) (noMax : Bool)
    (k i : ℕ) (st : ℕ × GrammarParser) :
    (recLoop ruleName prevRule noMax k i st).2.repetitions = st.2.repetitions ∧
      ∃ news, (recLoop ruleName prevRule noMax k i st).2.added = news ++ st.2.added ∧
        news.length = k ∧ (news.map List.length).sum ≤ k * (prevRule.length + 3) := by
  induction k generalizing i st with
  | zero => exact ⟨rfl, [], rfl, rfl, Nat.zero_le _⟩
  | succ k ih =>
    obtain ⟨lastRecRuleId, s⟩ := st
    set ref : List GrammarElement := if 0 < i ∨ noMax = true then
      [⟨.ruleRef, if noMax = true then (generateSymbolId ruleName s).1 else lastRecRuleId⟩] else []
      with hrefeq
    have href : ref.length ≤ 1 := by
      rw [hrefeq]
      split <;> simp
    obtain ⟨hrep, news, hadded, hlen, hsum⟩ := ih (i + 1) ((generateSymbolId ruleName s).1,
      addRule (generateSymbolId ruleName s).1 (prevRule ++ ref ++ [⟨.alt, 0⟩, ⟨.end_, 0⟩])
        (generateSymbolId ruleName s).2)
    refine ⟨hrep, news ++ [prevRule ++ ref ++ [⟨.alt, 0⟩, ⟨.end_, 0⟩]], ?_, ?_, ?_⟩
    · rw [append_assoc]
      exact hadded
    · simp [hlen]
    · simp only [map_append, map_cons, map_nil, sum_append, sum_cons,
        sum_nil, length_append, length_cons, length_nil]
      rw [Nat.succ_mul]
      omega

/-- The rule of a sequence behind its last item grows by the copies of that item. -/
lemma copies_length (st : SeqState) (m : ℕ) (ref : List GrammarElement) :
    ((if m = 0 then st.rule.take st.lastSymStart
      else st.rule ++ (List.replicate (m - 1) (st.rule.drop st.lastSymStart)).flatten)
        ++ ref).length - st.lastSymStart ≤
      m * (st.rule.drop st.lastSymStart).length + ref.length := by
  have hdrop := length_drop (i := st.lastSymStart) (l := st.rule)
  cases m with
  | zero =>
    rw [if_pos rfl, length_append, length_take]
    omega
  | succ m =>
    rw [if_neg (Nat.succ_ne_zero m)]
    simp only [length_append, length_flatten, map_replicate, sum_replicate_nat, Nat.add_sub_cancel]
    rw [Nat.succ_mul]
    omega

variable {maxTimes minTimes : ℕ} {st : SeqState} {pos : List Char} {rule : List GrammarElement}

/-- Exactly one repetition is recorded, with the number of rules that were made for it. -/
lemma expand_spec (ruleName : List Char) (st : SeqState) (s : GrammarParser)
    (h : InBounds minTimes maxTimes)
    (htotal : totalRules minTimes maxTimes < maxRepetitionThreshold) :
    ∃ it : Repetition, it.Sound ∧
      (expand ruleName minTimes maxTimes st s).2.repetitions = it :: s.repetitions := by
  obtain ⟨-, news, hadded, hlen, hsum⟩ := recLoop_spec ruleName (st.rule.drop st.lastSymStart)
    (maxTimes = uint64Max) (nOpt minTimes maxTimes) 0 (0, s)
  have hrules : ∀ added : GrammarRules, added = news ++ s.added →
      added.length - s.added.length = nOpt minTimes maxTimes := by
    rintro added rfl
    rw [length_append, hlen, Nat.add_sub_cancel]
  refine ⟨_, ⟨h, htotal, hrules _ hadded, ?_⟩, rfl⟩
  dsimp only
  rw [hrules _ hadded, hadded, ← hlen, take_left, hlen]
  split
  · have hcopies := copies_length st minTimes
      [⟨.ruleRef, (recLoop ruleName (st.rule.drop st.lastSymStart) (maxTimes = uint64Max)
        (nOpt minTimes maxTimes) 0 (0, s)).1⟩]
    rw [length_singleton] at hcopies
    omega
  · have hcopies := copies_length st minTimes []
    rw [append_nil, length_nil] at hcopies
    omega

/-! ## Runs of the parser -/

/-- The repetitions that were recorded in between are sound. -/
def Expands (s s' : GrammarParser) : Prop :=
  ∀ it ∈ s'.repetitions, it ∈ s.repetitions ∨ it.Sound

lemma expands_steps : Control.Steps Expands Expands where
  refl _ _ hit := .inl hit
  imp h := h
  trans h h' it hit := (h' it hit).elim (h it) .inr
  fails h h' it hit := (h' it hit).elim (h it) .inr

lemma expands_of_eq {s s' : GrammarParser} (h : s'.repetitions = s.repetitions) : Expands s s' := by
  intro it hit
  rw [h] at hit
  exact .inl hit

lemma getSymbolId_repetitions (name : List Char) (s : GrammarParser) :
    (getSymbolId name s).2.repetitions = s.repetitions := by
  unfold getSymbolId
  split <;> rfl

/-- A count of rules that times the new repetition stays in 64 bits. -/
def SeqState.Counted (st : SeqState) : Prop := 1 ≤ st.nPrevRules ∧ st.nPrevRules ≤ 2 ^ 32

lemma counted_item (st : SeqState) (rule : List GrammarElement) : (st.item rule 1).Counted :=
  ⟨Nat.le_refl 1, by simp [SeqState.item]⟩

/-- The product that is compared with the threshold does not wrap around. -/
lemma product_mod (hst : st.Counted) (h : InBounds minTimes maxTimes) :
    st.nPrevRules * totalRules minTimes maxTimes % 2 ^ 64 =
      st.nPrevRules * totalRules minTimes maxTimes := by
  have hle : st.nPrevRules * totalRules minTimes maxTimes ≤ 2 ^ 32 * maxRepetitionThreshold :=
    Nat.mul_le_mul hst.2 h.totalRules_le
  exact Nat.mod_eq_of_lt (hle.trans_lt (by decide))

/-- Every repetition that is expanded passed the check. -/
lemma ends_handleRepetitions (ruleName pos : List Char) (hst : st.Counted)
    (h : InBounds minTimes maxTimes) :
    Control.Ends Expands SeqState.Counted
      (handleRepetitions ruleName pos minTimes maxTimes st) := by
  refine .ite (fun _ => ends_fail expands_steps _) fun _ => ?_
  refine .ite (fun _ => ends_fail expands_steps _) fun hlt => ?_
  rw [product_mod hst h, Nat.not_le] at hlt
  have hpos := one_le_totalRules minTimes maxTimes
  have htotal : totalRules minTimes maxTimes < maxRepetitionThreshold :=
    (Nat.le_mul_of_pos_left _ hst.1).trans_lt hlt
  refine ends_onState (fun s it hit => ?_) fun s st' hst' => ?_
  · obtain ⟨new, hnew, hrep⟩ := expand_spec ruleName st s h htotal
    rw [hrep] at hit
    rcases mem_cons.mp hit with rfl | hit
    · exact .inr hnew
    · exact .inl hit
  · cases hst'
    change 1 ≤ st.nPrevRules * totalRules minTimes maxTimes % 2 ^ 64 ∧
      st.nPrevRules * totalRules minTimes maxTimes % 2 ^ 64 ≤ 2 ^ 32
    rw [product_mod hst h]
    exact ⟨Nat.mul_pos hst.1 hpos, hlt.le.trans (by decide)⟩

lemma ends_literalLoop (h : pos.length < k) :
    Control.Ends Expands (fun r => r.1.length ≤ pos.length) (literalLoop k pos rule) := by
  induction k generalizing pos rule with
  | zero => exact absurd h (Nat.not_lt_zero _)
  | succ k ih =>
    refine .ite (fun _ => ends_pure expands_steps (Nat.le_refl _)) fun _ => ?_
    refine .ite (fun _ => ends_fail expands_steps _) fun _ => ?_
    refine Control.Ends.bind expands_steps
      (ends_ofExcept (Q := fun r => r.2.length < pos.length) expands_steps
        fun r hr => parseChar_length_lt hr) fun r hr => ?_
    exact (ih (by omega)).weaken fun _ hle => hle.trans hr.le

lemma rangeUpper_length_le {src : List Char} {rule' : List GrammarElement}
    (h : rangeUpper src rule = .ok (pos, rule')) : pos.length ≤ src.length := by
  unfold rangeUpper at h
  split at h
  · split at h
    · cases h
    · obtain ⟨⟨v, pos1⟩, hchar, h⟩ := except_bind_eq_ok.mp h
      cases h
      have hlt := parseChar_length_lt hchar
      rw [length_tail] at hlt
      omega
  · cases h
    exact Nat.le_refl _

lemma ends_rangeLoop (lastSymStart : ℕ) (startType : Gretype) (h : pos.length < k) :
    Control.Ends Expands (fun r => r.1.length ≤ pos.length)
      (rangeLoop lastSymStart startType k pos rule) := by
  induction k generalizing pos rule with
  | zero => exact absurd h (Nat.not_lt_zero _)
  | succ k ih =>
    refine .ite (fun _ => ends_pure expands_steps (Nat.le_refl _)) fun _ => ?_
    refine .ite (fun _ => ends_fail expands_steps _) fun _ => ?_
    refine Control.Ends.bind expands_steps
      (ends_ofExcept (Q := fun r => r.2.length < pos.length) expands_steps
        fun r hr => parseChar_length_lt hr) fun r hr => ?_
    refine Control.Ends.bind expands_steps
      (ends_ofExcept (Q := fun r' => r'.1.length ≤ r.2.length) expands_steps
        fun r' hr' => rangeUpper_length_le hr') fun r' hr' => ?_
    exact (ih (by omega)).weaken fun _ hle => hle.trans (hr'.trans hr.le)

variable {vocab : Option (List Char → Option ℕ)} {nested : List Char → ℕ → Parse (List Char)}

/-- The alternates of a group end, when they have at most `n` characters. -/
def NestedEnds (nested : List Char → ℕ → Parse (List Char)) (n : ℕ) : Prop :=
  ∀ pos id, pos.length < n →
    Control.Ends Expands (fun rest => rest.length ≤ pos.length) (nested pos id)

lemma ends_parseGroup (ruleName : List Char) (isNested : Bool) (st : SeqState)
    (hn : NestedEnds nested n) (hle : pos.length ≤ n) (hpos : peek pos ≠ '\x00') :
    Control.Ends Expands (fun r => r.1.length < pos.length ∧ r.2.Counted)
      (parseGroup nested ruleName isNested pos st) := by
  have htail := tail_length_lt pos hpos
  have hspace := skipSpace_length_le true pos.tail
  refine Control.Ends.bind (Q := fun _ => True) expands_steps
    (ends_onState (fun s => expands_of_eq rfl) fun _ _ _ => trivial) fun ids _ => ?_
  refine Control.Ends.bind expands_steps (hn _ ids.2 (by omega)) fun rest hrest => ?_
  refine Control.Ends.bind (Q := fun _ => True) expands_steps
    (ends_onState (fun s => expands_of_eq rfl) fun _ _ _ => trivial) fun nRules _ => ?_
  refine .ite (fun _ => ends_fail expands_steps _) fun _ => ?_
  refine ends_pure expands_steps ⟨?_, ?_⟩
  · have hspace' := skipSpace_length_le isNested rest.tail
    rw [length_tail] at hspace'
    dsimp only
    omega
  · change 1 ≤ max 1 _ ∧ max 1 _ ≤ 2 ^ 32
    omega

/-- What a round of the loop over a sequence ends with: the end of the sequence, or less text. -/
def Shorter (pos : List Char) (next : Option (List Char × SeqState)) : Prop :=
  ∀ r ∈ next, r.1.length < pos.length ∧ r.2.Counted

lemma ends_next (hlt : rest.length < pos.length) (hst : st.Counted) :
    Control.Ends Expands (Shorter pos) (pure (some (rest, st)) : Parse _) := by
  refine ends_pure expands_steps fun r hr => ?_
  cases hr
  exact ⟨hlt, hst⟩

/-- White space behind an item makes the text that is left shorter still. -/
lemma skipSpace_length_lt (newlineOk : Bool) (h : rest.length < pos.length) :
    (skipSpace newlineOk rest).length < pos.length :=
  (skipSpace_length_le newlineOk rest).trans_lt h

lemma ends_repeat (ruleName : List Char) (hlt : rest.length < pos.length) (hst : st.Counted)
    (h : InBounds minTimes maxTimes) :
    Control.Ends Expands (Shorter pos) (do
      let st ← handleRepetitions ruleName rest minTimes maxTimes st
      pure (some (rest, st))) :=
  Control.Ends.bind expands_steps (ends_handleRepetitions ruleName rest hst h)
    fun _ hst' => ends_next hlt hst'

/-- **A round takes a character at least**, when it does not end the sequence. -/
theorem ends_sequenceStep (ruleName : List Char) (isNested : Bool) (hn : NestedEnds nested n)
    (hle : pos.length ≤ n) (hst : st.Counted) (hpos : peek pos ≠ '\x00') :
    Control.Ends Expands (Shorter pos) (sequenceStep vocab nested ruleName isNested pos st) := by
  have htail := tail_length_lt pos hpos
  have htail' : ∀ l : List Char, l.tail.length ≤ l.length := by
    intro l
    rw [length_tail]
    omega
  refine .ite (fun _ => ?literal) fun _ => .ite (fun _ => ?range) fun _ =>
    .ite (fun _ => ?token) fun _ => .ite (fun _ => ?name) fun _ =>
    .ite (fun _ => ?group) fun _ => .ite (fun _ => ?any) fun _ =>
    .ite (fun _ => ?star) fun _ => .ite (fun _ => ?plus) fun _ =>
    .ite (fun _ => ?question) fun _ => .ite (fun _ => ?braces) fun _ => ?done
  case literal =>
    refine Control.Ends.bind expands_steps (ends_literalLoop (by omega)) fun r hr => ?_
    exact ends_next (skipSpace_length_lt _ (by have := htail' r.1; omega)) (counted_item st r.2)
  case range =>
    have hstart : (if peek pos.tail = '^' then pos.tail.tail else pos.tail).length <
        pos.length := by
      have := htail' pos.tail
      split <;> omega
    refine Control.Ends.bind expands_steps (ends_rangeLoop _ _ (by omega)) fun r hr => ?_
    exact ends_next (skipSpace_length_lt _ (by have := htail' r.1; omega)) (counted_item st r.2)
  case token =>
    have hstart : (if peek pos = '!' then pos.tail else pos).length ≤ pos.length := by
      split <;> omega
    refine Control.Ends.bind expands_steps
      (ends_ofExcept (Q := fun r => r.2.length < pos.length) expands_steps
        fun r hr => (parseToken_length_lt hr).trans_le hstart) fun r hr => ?_
    exact ends_next (skipSpace_length_lt _ hr) (counted_item st _)
  case name =>
    refine Control.Ends.bind expands_steps
      (ends_ofExcept (Q := fun r => r.2.length < pos.length) expands_steps
        fun r hr => parseName_length_lt hr) fun r hr => ?_
    refine Control.Ends.bind (Q := fun _ => True) expands_steps
      (ends_onState (fun s => expands_of_eq (getSymbolId_repetitions r.1 s))
        fun _ _ _ => trivial) fun id _ => ?_
    exact ends_next (skipSpace_length_lt _ hr) (counted_item st _)
  case group =>
    refine Control.Ends.bind expands_steps (ends_parseGroup ruleName isNested st hn hle hpos)
      fun r hr => ?_
    exact ends_next hr.1 hr.2
  case any => exact ends_next (skipSpace_length_lt _ htail) (counted_item st _)
  case star =>
    exact ends_repeat ruleName (skipSpace_length_lt _ htail) hst ⟨by decide, .inl rfl⟩
  case plus =>
    exact ends_repeat ruleName (skipSpace_length_lt _ htail) hst ⟨by decide, .inl rfl⟩
  case question =>
    exact ends_repeat ruleName (skipSpace_length_lt _ htail) hst ⟨by decide, .inr (by decide)⟩
  case braces =>
    refine Control.Ends.bind expands_steps
      (ends_ofExcept
        (Q := fun b => b.2.2.length < pos.length ∧ InBounds b.1 b.2.1) expands_steps
        fun b hb => ?_) fun b hb => ends_repeat ruleName hb.1 hst hb.2
    obtain ⟨hlen, hin⟩ := parseBounds_spec hb
    exact ⟨hlen.trans_lt (skipSpace_length_lt _ htail), hin⟩
  case done => exact ends_pure expands_steps fun r hr => (by cases hr)

lemma ends_sequenceLoop (ruleName : List Char) (isNested : Bool) (hn : NestedEnds nested n)
    (hle : pos.length ≤ n) (hk : pos.length < k) (hst : st.Counted) :
    Control.Ends Expands (fun r => r.1.length ≤ pos.length)
      (sequenceLoop vocab nested ruleName isNested k pos st) := by
  induction k generalizing pos st with
  | zero => exact absurd hk (Nat.not_lt_zero _)
  | succ k ih =>
    refine .ite (fun _ => ends_pure expands_steps (Nat.le_refl _)) fun hpos => ?_
    refine Control.Ends.bind expands_steps (ends_sequenceStep ruleName isNested hn hle hst hpos)
      fun next hnext => ?_
    cases next with
    | none => exact ends_pure expands_steps (Nat.le_refl _)
    | some r =>
      obtain ⟨hlt, hst'⟩ := hnext r rfl
      exact (ih (by omega) (by omega) hst').weaken fun _ hle' => hle'.trans hlt.le

lemma ends_parseSequence (ruleName : List Char) (isNested : Bool) {src : List Char}
    (rule : List GrammarElement) (hn : NestedEnds nested n) (hle : src.length ≤ n) :
    Control.Ends Expands (fun r => r.1.length ≤ src.length)
      (parseSequence vocab nested ruleName isNested src rule) :=
  ends_sequenceLoop ruleName isNested hn hle (Nat.lt_succ_self _)
    ⟨Nat.le_refl 1, Nat.one_le_two_pow⟩

lemma ends_alternatesLoop (ruleName : List Char) (isNested : Bool) (hn : NestedEnds nested n)
    (hle : pos.length ≤ n) (hk : pos.length < k) :
    Control.Ends Expands (fun r => r.1.length ≤ pos.length)
      (alternatesLoop vocab nested ruleName isNested k pos rule) := by
  induction k generalizing pos rule with
  | zero => exact absurd hk (Nat.not_lt_zero _)
  | succ k ih =>
    refine .ite (fun hc => ?_) fun _ => ends_pure expands_steps (Nat.le_refl _)
    have hlt := skipSpace_length_lt true (tail_length_lt pos (by rw [hc]; decide))
    refine Control.Ends.bind expands_steps
      (ends_parseSequence ruleName isNested _ hn (by omega)) fun r hr => ?_
    exact (ih (by omega) (by omega)).weaken fun _ hle' => hle'.trans (hr.trans hlt.le)

/-- **The alternates end**, with no more groups inside of each other than there are characters. -/
theorem ends_parseAlternates (ruleName : List Char) (n : ℕ) (isNested : Bool) (src : List Char)
    (ruleId : ℕ) (h : src.length < n) :
    Control.Ends Expands (fun pos => pos.length ≤ src.length)
      (parseAlternates vocab ruleName n isNested src ruleId) := by
  induction n generalizing isNested src ruleId with
  | zero => exact absurd h (Nat.not_lt_zero _)
  | succ n ih =>
    have hn : NestedEnds (parseAlternates vocab ruleName n true) src.length :=
      fun pos id hpos => ih true pos id (by omega)
    refine Control.Ends.bind expands_steps
      (ends_parseSequence ruleName isNested [] hn (Nat.le_refl _)) fun r hr => ?_
    refine Control.Ends.bind expands_steps
      (ends_alternatesLoop ruleName isNested hn hr (Nat.lt_succ_self _)) fun r' hr' => ?_
    exact ends_pure expands_steps (hr'.trans hr)

lemma ends_parseRule (src : List Char) :
    Control.Ends Expands (fun pos => pos.length < src.length) (parseRule vocab src) := by
  refine Control.Ends.bind expands_steps
    (ends_ofExcept (Q := fun r => r.2.length < src.length) expands_steps
      fun r hr => parseName_length_lt hr) fun r hr => ?_
  refine Control.Ends.bind (Q := fun _ => True) expands_steps
    (ends_onState (fun s => expands_of_eq (getSymbolId_repetitions r.1 s))
      fun _ _ _ => trivial) fun ruleId _ => ?_
  refine .ite (fun _ => ends_fail expands_steps _) fun _ => ?_
  have htail : ∀ l : List Char, l.tail.length ≤ l.length := by
    intro l
    rw [length_tail]
    omega
  have hlt : (skipSpace false r.2).tail.tail.tail.length < src.length := by
    have hspace := skipSpace_length_lt false hr
    simp only [length_tail]
    omega
  refine Control.Ends.bind expands_steps
    (ends_parseAlternates r.1 _ false _ ruleId (Nat.lt_succ_self _)) fun pos hle => ?_
  have hpos := hle.trans_lt (skipSpace_length_lt true hlt)
  have hspace : ∀ rest : List Char, rest.length ≤ pos.length →
      (skipSpace true rest).length < src.length :=
    fun rest hrest => skipSpace_length_lt true (hrest.trans_lt hpos)
  refine .ite (fun _ => ?_) fun _ => .ite (fun _ => ?_) fun _ => .ite (fun _ => ?_) fun _ => ?_
  · refine ends_pure expands_steps (hspace _ ?_)
    split
    · exact (htail _).trans (htail _)
    · exact htail _
  · exact ends_pure expands_steps (hspace _ (htail _))
  · exact ends_fail expands_steps _
  · exact ends_pure expands_steps (hspace _ (Nat.le_refl _))

lemma ends_rulesLoop (h : pos.length < k) :
    Control.Ends Expands (fun _ => True) (rulesLoop vocab k pos) := by
  induction k generalizing pos with
  | zero => exact absurd h (Nat.not_lt_zero _)
  | succ k ih =>
    refine .ite (fun _ => ends_pure expands_steps trivial) fun _ => ?_
    exact Control.Ends.bind expands_steps (ends_parseRule pos) fun _ hlt => ih (by omega)

/-- The parser ends with rules or with an error that was printed, and its repetitions are sound. -/
lemma parse_spec (vocab : Option (List Char → Option ℕ)) (src : List Char) :
    (∃ r, (parse vocab src new).1 = .ok r) ∧
      ∀ it ∈ (parse vocab src new).2.repetitions, it.Sound := by
  have hends : Control.Ends Expands (fun _ => True) (rulesLoop vocab
      ((skipSpace true src).length + 1) (skipSpace true src)) :=
    ends_rulesLoop (Nat.lt_succ_self _)
  obtain ⟨hexp, hend, -⟩ := hends new
  have hsound : ∀ it ∈ (rulesLoop vocab ((skipSpace true src).length + 1)
      (skipSpace true src) new).2.repetitions, it.Sound :=
    fun it hit => (hexp it hit).resolve_left (by simp [new])
  unfold parse
  dsimp only
  split
  · next heq =>
    rw [heq] at hsound
    exact ⟨⟨_, rfl⟩, hsound⟩
  · next heq =>
    rw [heq] at hsound
    exact ⟨⟨_, rfl⟩, hsound⟩
  · next t _ _ => exact t.elim
  · next heq =>
    rw [heq] at hend
    exact absurd rfl hend

end GrammarParser

/-! ## The threshold -/

/-- What is made for a repetition stays below the threshold: its rules, and its elements in
multiples of an item that has a reference and the two ends of a rule behind it. -/
def Repetition.Bounded (it : Repetition) : Prop :=
  it.nRules < maxRepetitionThreshold ∧ it.nElements < maxRepetitionThreshold * (it.sym.length + 3)

/-- With an upper bound below the lower one, the difference wraps around. -/
lemma Repetition.Sound.nRules_of_lt {it : Repetition} (h : it.Sound)
    (hlt : it.maxTimes < it.minTimes) : it.nRules = 2 ^ 64 - (it.minTimes - it.maxTimes) := by
  have hmin := h.bounds.min
  simp only [maxRepetitionThreshold] at hmin
  have hmax : it.maxTimes ≠ uint64Max := by
    simp only [uint64Max]
    omega
  rw [h.rules, nOpt, if_neg hmax]
  omega

/-- The number of rules and of copies is at most the number that the check counts. -/
lemma Repetition.Sound.times_le {it : Repetition} (h : it.Sound)
    (hle : it.minTimes ≤ it.maxTimes) :
    nOpt it.minTimes it.maxTimes ≤ totalRules it.minTimes it.maxTimes ∧
      it.minTimes + nOpt it.minTimes it.maxTimes ≤ totalRules it.minTimes it.maxTimes + 1 := by
  have hmax := h.bounds.max
  unfold nOpt totalRules
  by_cases hno : it.maxTimes = uint64Max
  · simp only [hno, ne_eq, not_true_eq_false, false_and, if_true, if_false]
    split <;> omega
  · split
    · omega
    · split <;> omega

/-- **What is made for a repetition is bounded unless its bounds are reversed.** -/
theorem Repetition.Sound.bounded_iff {it : Repetition} (h : it.Sound) :
    it.Bounded ↔ it.minTimes ≤ it.maxTimes := by
  constructor
  · intro hb
    by_contra hlt
    have hrules := h.nRules_of_lt (Nat.lt_of_not_le hlt)
    have hmin := h.bounds.min
    have hfew := hb.1
    simp only [maxRepetitionThreshold] at hmin hfew
    omega
  · intro hle
    obtain ⟨hn, hsum⟩ := h.times_le hle
    have htotal := h.total
    refine ⟨by rw [h.rules]; omega, ?_⟩
    have hmul : (it.minTimes + nOpt it.minTimes it.maxTimes) * it.sym.length ≤
        maxRepetitionThreshold * it.sym.length := Nat.mul_le_mul_right _ (by omega)
    have helements := h.elements
    rw [Nat.mul_add] at helements ⊢
    rw [Nat.add_mul] at hmul
    omega
namespace GrammarParser

/-- **The parser ends for every text**, with rules or with an error, and what it makes for a
repetition is bounded by the threshold exactly if the bounds are not reversed. -/
theorem parse_ends_bounded_iff (vocab : Option (List Char → Option ℕ)) (src : List Char) :
    (∃ r, (parse vocab src new).1 = .ok r) ∧
      ∀ it ∈ (parse vocab src new).2.repetitions, it.Bounded ↔ it.minTimes ≤ it.maxTimes := by
  obtain ⟨hend, hsound⟩ := parse_spec vocab src
  exact ⟨hend, fun it hit => (hsound it hit).bounded_iff⟩

/-- A text whose only repetition asks for five times at least and for two at most. -/
def reversedSource : List Char := "root ::= \"a\"\x7b5,2\x7d".toList

/-- The difference of reversed bounds is taken although it wraps around. -/
theorem not_bounded_reversedSource :
    ¬ ∀ it ∈ (parse none reversedSource new).2.repetitions, it.Bounded := by
  intro hall
  have hbounds : (parse none reversedSource new).2.repetitions.map
      (fun it => (it.minTimes, it.maxTimes)) = [(5, 2)] := by decide +kernel
  obtain ⟨it, hit, heq⟩ := List.exists_of_mem_map (hbounds ▸ List.mem_singleton.mpr rfl :
    (5, 2) ∈ (parse none reversedSource new).2.repetitions.map
      fun it => (it.minTimes, it.maxTimes))
  have hle := ((parse_spec none reversedSource).2 it hit).bounded_iff.mp (hall it hit)
  have hmin : it.minTimes = 5 := congrArg Prod.fst heq
  have hmax : it.maxTimes = 2 := congrArg Prod.snd heq
  omega

end GrammarParser
end Llama
