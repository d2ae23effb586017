import Llama.Jinja.Expression.Levels

/-!
# Parsing what was printed

The tokens of an expression, as they were printed, are parsed to its tree: at every level up to the
expression's own the parser gets to the loop of that level, with the expression's tree in front of
it.
-/

namespace Llama.Jinja

open Parser List Nat Token Takes

/-- Tokens with their positions, as they were printed. -/
def place : ℕ → List Item → List Token
  | _, [] => []
  | pos, i :: is => ⟨i.t, i.value, pos⟩ :: place (pos + i.text.length + 1) is

lemma place_append (pos : ℕ) (is js : List Item) :
    place pos (is ++ js) = place pos is ++ place (pos + (textsOf is).length) js := by
  induction is generalizing pos with
  | nil => rfl
  | cons i is ih =>
    have hlength : (textsOf (i :: is)).length = i.text.length + 1 + (textsOf is).length := by
      simp [textsOf]
      omega
    rw [cons_append, place, place, ih, hlength, cons_append]
    simp only [Nat.add_assoc]

/-! ## Levels -/

/-- What follows an expression of a level. -/
def cap : ℕ → ℕ
  | 0 => 0
  | level + 1 => min (level + 2) 10

lemma le_cap {level : ℕ} (h : level ≤ 10) : level ≤ cap level := by
  cases level with
  | zero => exact le_rfl
  | succ level =>
    rw [cap]
    omega

section

variable {F : Type} (env : ParserEnv Unit F)

/-- The parser gets from the tokens of an expression to the loop of a level. -/
def Parses (level : ℕ) (items : List Item) (b : Statement Unit F) : Prop :=
  ∀ pos rest, Stops (cap level) rest →
    Leads (parseLevel env level) (place pos items ++ rest) (parseLoop env level b) rest

variable {env} {level : ℕ} {items : List Item} {b : Statement Unit F} {rest ts : List Token}

lemma Parses.takes (h : Parses env level items b) (hlevel : level ≤ 10) (hstop : Stops level rest)
    (pos : ℕ) : Takes (parseLevel env level) (place pos items ++ rest) b rest :=
  h pos rest (hstop.mono (le_cap hlevel)) b rest (loop_stops hstop)

/-- An expression of a level is one of the level below. -/
lemma Parses.down (h : Parses env (level + 1) items b) (hlevel : level < 10)
    (hheads : Heads (level + 1) items) : Parses env level items b := by
  intro pos rest hstop
  rcases Nat.eq_zero_or_pos level with rfl | hpos
  · have htakes := h.takes (by omega) (hstop.mono (Nat.zero_le 1)) pos
    exact (takes_level_zero htakes hstop).leads_pure
  · have hcap : cap level = level + 1 := by
      obtain ⟨l, rfl⟩ : ∃ l, level = l + 1 := ⟨level - 1, by omega⟩
      rw [cap]
      omega
    rw [hcap] at hstop
    have htakes := h.takes hlevel hstop pos
    by_cases h3 : level = 3
    · subst h3
      obtain ⟨i, is, rfl, -, hnot⟩ := hheads
      refine (takes_level_three htakes (Bool.eq_false_iff.mpr fun hid => hnot le_rfl ?_)).leads_pure
      simpa [isIdentifier, first, place] using hid
    · exact leads_level hpos h3 hlevel htakes

lemma Parses.to (h : Parses env level items b) (hlevel : level ≤ 10) (hheads : Heads level items)
    {level' : ℕ} (hle : level' ≤ level) : Parses env level' items b := by
  induction level with
  | zero =>
    obtain rfl : level' = 0 := by omega
    exact h
  | succ level ih =>
    rcases Nat.eq_or_lt_of_le hle with rfl | hlt
    · exact h
    · exact ih (h.down hlevel hheads) (by omega) (hheads.weaken (le_succ level)) (by omega)

/-- The tokens of an expression. -/
lemma Parses.expression (h : Parses env 0 items b) (hstop : Stops 0 rest) (pos : ℕ) :
    Takes (fun n : Bounds => parseExpression env n.1.1) (place pos items ++ rest) b rest :=
  takes_expression (h.takes (Nat.zero_le 10) hstop pos)

/-- A token that no loop is continued with. -/
lemma stops_of_none {t : Token} (h : t.binds = none) : Stops level (t :: ts) := by
  intro l hl
  change t.binds = some l at hl
  rw [h] at hl
  cases hl

/-- A token that continues the loop of a level below. -/
lemma stops_of_some {t : Token} {l : ℕ} (h : t.binds = some l) (hlt : l < level) :
    Stops level (t :: ts) := by
  intro l' hl
  change t.binds = some l' at hl
  rw [h] at hl
  cases hl
  exact hlt

/-- Where a primary expression ends, nothing is left of it. -/
lemma parses_primary (h : ∀ pos rest, Stops 10 rest →
    Takes (parseLevel env 10) (place pos items ++ rest) b rest) : Parses env 10 items b :=
  fun pos rest hstop => (h pos rest hstop).leads_pure

lemma next_cons (t : Token) (ts : List Token) : next env (t :: ts) = .ok (t, ts) := rfl

/-- An expression in parentheses. -/
lemma parses_paren (h : Parses env 0 items b) : Parses env 10 (paren true items) b := by
  refine parses_primary fun pos rest _ => ?_
  simp only [paren, if_true, place, place_append, cons_append, append_assoc, nil_append, Item.plain]
  refine bind_eq (next_cons _ _) ?_
  have hinner := h.expression (stops_of_none rfl : Stops 0 (⟨.closeParen, ")",
    pos + "(".toList.length + 1 + (textsOf items).length⟩ :: rest)) (pos + "(".toList.length + 1)
  have htail : Takes (fun n : Bounds => parseSequenceTail (parseExpression env n.1.1) n.2)
      (⟨.closeParen, ")", pos + "(".toList.length + 1 + (textsOf items).length⟩ :: rest) []
      (⟨.closeParen, ")", pos + "(".toList.length + 1 + (textsOf items).length⟩ :: rest) :=
    takes_of_succ (bind_eq (peek_first _) (takes_pure _ _))
  have hseq : Takes (fun n : Bounds =>
      parseExpressionSequence env n.2 (parseExpression env n.1.1)) _ b _ :=
    bind_eq (peek_first _) (hinner.bind (htail.bind (takes_pure _ _)))
  exact hseq.bind (bind_eq rfl (takes_pure _ _))

lemma skipIf_first (type : TokenType) (ts : List Token) :
    skipIf type ts = if (first ts).t = type then .ok ((), ts.tail) else .ok ((), ts) := by
  change (if (first ts).t = type then advance else pure () : Parse Unit) ts = _
  split
  · rfl
  · rfl

variable {parts : List (List Item)} {object : Statement Unit F} {pos : ℕ}
  {args : List (Statement Unit F)}

section

variable {β : Type} {close : TokenType} {item : Bounds → Parse β}

/-- An item is taken where a comma or the end follows it. -/
def ItemTaken (close : TokenType) (item : Bounds → Parse β) (items : List Item) (b : β) : Prop :=
  (∃ i is, items = i :: is ∧ i.t ≠ close) ∧
    ∀ pos rest, ((first rest).t = .comma ∨ (first rest).t = close) →
      Takes item (place pos items ++ rest) b rest

/-- **The items of a list.** -/
theorem takes_joined {bs : List β} (h : List.Forall₂ (ItemTaken close item) parts bs)
    (hclose : close ≠ .comma) (hrest : (first rest).t = close) (pos : ℕ) :
    Takes (fun n : Bounds => parseItems close (fun m => item (n.1, m)) n.2)
      (place pos (joined parts) ++ rest) bs rest := by
  induction h generalizing pos with
  | nil =>
    refine takes_of_succ (bind_eq (peek_first _) ?_)
    simp only [joined, place, nil_append, if_pos hrest]
    exact takes_pure _ _
  | @cons items b parts bs hitem hparts ih =>
    obtain ⟨⟨i, is, rfl, hi⟩, htaken⟩ := hitem
    have hfirst : (first (place pos (joined ((i :: is) :: parts)) ++ rest)).t ≠ close := hi
    refine takes_of_succ (bind_eq (peek_first _) ?_)
    simp only [if_neg hfirst]
    rw [joined, place_append, append_assoc]
    cases hparts with
    | nil =>
      refine (htaken _ _ (.inr hrest)).bind ?_
      have hskip : skipIf .comma rest = .ok ((), rest) := by
        rw [skipIf_first, if_neg (by rw [hrest]; exact hclose)]
      exact bind_eq hskip ((ih 0).bind (takes_pure _ _))
    | cons hitem' hparts' =>
      refine (htaken _ _ (.inl rfl)).bind (bind_eq (skipIf_first _ _) ?_)
      exact (ih _).bind (takes_pure _ _)

end

/-! ## Atoms, lists and dicts -/

lemma stoll_text (i : Integer) : stoll (String.ofList i.text) = .ok i.val := by
  have hdigits : ofDigitChars 10 (toDigits 10 i.val.natAbs) 0 = i.val.natAbs :=
    ofDigitChars_ten_toDigits
  have hrange : -2 ^ 63 ≤ i.val ∧ i.val < 2 ^ 63 := ⟨i.le, i.lt⟩
  by_cases hneg : i.val < 0
  · have htext : (String.ofList i.text).toList = '-' :: toDigits 10 i.val.natAbs := by
      rw [String.toList_ofList, Integer.text, signed, if_pos (decide_eq_true hneg)]
    have hval : -((i.val.natAbs : ℕ) : ℤ) = i.val := by omega
    unfold stoll
    simp only [htext, hdigits, hval]
    exact if_pos hrange
  · obtain ⟨c, cs, hcs⟩ := exists_cons_of_ne_nil
      (toDigits_ne_nil : toDigits 10 i.val.natAbs ≠ [])
    have hmem : c ∈ toDigits 10 i.val.natAbs := by
      rw [hcs]
      exact mem_cons_self
    have hc : isInteger c = true :=
      isDigit_of_mem_toDigits (succ_pos 9) (Nat.le_refl 10) hmem
    have hsign := not_sign_of_isWord (isWord_of_isInteger hc)
    have htext : (String.ofList i.text).toList = c :: cs := by
      rw [String.toList_ofList, Integer.text, decide_eq_false hneg, ← hcs]
      rfl
    have hval : ((i.val.natAbs : ℕ) : ℤ) = i.val := by omega
    rw [hcs] at hdigits
    unfold stoll
    simp only [htext]
    split
    · next heq => exact absurd (List.cons.inj heq).1 hsign.1
    · next heq => exact absurd (List.cons.inj heq).1 hsign.2
    · rw [hdigits, hval]
      exact if_pos hrange

/-- A number that is read. -/
lemma parses_number {text : List Char}
    (h : ∀ t : Token, t.value = String.ofList text → ∀ ts, parseNumber env t ts = .ok (b, ts)) :
    Parses env 10 [.number text] b :=
  parses_primary fun _ rest _ =>
    bind_eq (next_cons _ rest) (takes_of_eq (h _ rfl rest))

lemma parses_integer (i : Integer) : Parses env 10 [.number i.text] (.integerLiteral () i.val) := by
  refine parses_number fun t ht ts => ?_
  have hpoint : ¬t.value.toList.contains '.' = true := by
    rw [ht, String.toList_ofList, contains_iff_mem]
    have hdigits : '.' ∉ toDigits 10 i.val.natAbs := fun hmem => by
      have := isDigit_of_mem_toDigits (succ_pos 9) (Nat.le_refl 10) hmem
      cases this
    unfold Integer.text signed
    split
    · simpa using hdigits
    · exact hdigits
  rw [parseNumber, if_neg hpoint, ht, stoll_text]

lemma parses_float {D : Doubles F} (henv : env.stod = D.stod) (f : F) :
    Parses env 10 [.number (D.text f)] (.floatLiteral () f) := by
  refine parses_number fun t ht ts => ?_
  have hpoint : t.value.toList.contains '.' = true := by
    rw [ht, Doubles.text, signed]
    split
    · simp
    · simp
  rw [parseNumber, if_pos hpoint, ht, henv, Doubles.text, D.stod_text]

lemma parses_identifier (name : Ident) : Parses env 10 [.word name.name] name.tree :=
  parses_primary fun _ rest _ => bind_eq (next_cons _ rest) (takes_pure _ _)

lemma parses_string (val : String) : Parses env 10 [.string val] (.stringLiteral () val) := by
  refine parses_primary fun pos rest hstop => bind_eq (next_cons _ rest) ?_
  have hfirst : (first rest).t ≠ .stringLiteral :=
    not_type hstop le_rfl fun t ht => by rw [binds, ht]
  have hstrings : Takes (fun n : Bounds => parseStrings n.2 val) rest val rest := by
    refine takes_of_succ (bind_eq (peek_first rest) ?_)
    simp only [if_neg hfirst]
    exact takes_pure _ _
  exact hstrings.bind (takes_pure _ _)

/-- A token after which an expression ends. -/
lemma stops_of_closes {close : TokenType} (hclose : ∀ t : Token, t.t = close → t.binds = none)
    (h : (first rest).t = .comma ∨ (first rest).t = close) : Stops 0 rest := by
  intro l hl
  rcases h with h | h
  · rw [binds, h] at hl
    cases hl
  · rw [hclose _ h] at hl
    cases hl

lemma starts_ne {i : Item} (hi : i.Starts) {close : TokenType}
    (hclose : close ∉ [TokenType.identifier, .numericLiteral, .stringLiteral, .openParen,
      .openSquareBracket, .openCurlyBracket]) : i.t ≠ close :=
  fun heq => hclose (heq ▸ hi)

/-- An expression that is an item of a list. -/
lemma itemTaken_expression {close : TokenType} (h : Parses env 0 items b)
    (hheads : Heads 0 items) (hclose : ∀ t : Token, t.t = close → t.binds = none)
    (hstart : close ∉ [TokenType.identifier, .numericLiteral, .stringLiteral, .openParen,
      .openSquareBracket, .openCurlyBracket]) :
    ItemTaken close (fun n : Bounds => parseExpression env n.1.1) items b := by
  obtain ⟨i, is, rfl, hi, -⟩ := hheads
  exact ⟨⟨i, is, rfl, starts_ne hi hstart⟩,
    fun pos rest hrest => h.expression (stops_of_closes hclose hrest) pos⟩

/-- A list. -/
lemma parses_list {bs : List (Statement Unit F)}
    (h : List.Forall₂ (ItemTaken .closeSquareBracket fun n : Bounds => parseExpression env n.1.1)
      parts bs) :
    Parses env 10 (.plain .openSquareBracket "[" :: joined parts ++
      [.plain .closeSquareBracket "]"]) (.arrayLiteral () bs) := by
  refine parses_primary fun pos rest _ => ?_
  simp only [place_append, append_assoc]
  refine bind_eq (next_cons _ _) ((takes_joined h TokenType.noConfusion rfl _).bind ?_)
  exact bind_eq (advance_cons _ rest) (takes_pure _ _)

/-- A dict. -/
lemma parses_dict {bs : List (Statement Unit F × Statement Unit F)}
    (h : List.Forall₂ (ItemTaken .closeCurlyBracket fun n : Bounds =>
      parsePair (parseExpression env n.1.1)) parts bs) :
    Parses env 10 (.plain .openCurlyBracket "\x7b" :: joined parts ++
      [.plain .closeCurlyBracket "\x7d"]) (.objectLiteral () bs) := by
  refine parses_primary fun pos rest _ => ?_
  simp only [place_append, append_assoc]
  refine bind_eq (next_cons _ _) ((takes_joined h TokenType.noConfusion rfl _).bind ?_)
  exact bind_eq (advance_cons _ rest) (takes_pure _ _)

/-- A pair of a dict. -/
lemma itemTaken_pair {is js : List Item} {key val : Statement Unit F} (hkey : Parses env 0 is key)
    (hval : Parses env 0 js val) (hheads : Heads 0 is) :
    ItemTaken .closeCurlyBracket (fun n : Bounds => parsePair (parseExpression env n.1.1))
      (is ++ .plain .colon ":" :: js) (key, val) := by
  obtain ⟨i, is, rfl, hi, -⟩ := hheads
  refine ⟨⟨i, _, rfl, starts_ne hi (by decide)⟩, fun pos rest hrest => ?_⟩
  have hstop : Stops 0 rest := stops_of_closes (fun t ht => by rw [binds, ht]) hrest
  rw [place_append, append_assoc]
  refine (hkey.expression (stops_of_none rfl) pos).bind (bind_eq rfl ?_)
  exact (hval.expression hstop _).bind (takes_pure _ _)

/-! ## Members and calls -/

lemma parseMembers_eq (object : Statement Unit F) (n : Bounds) (ts : List Token) :
    parseMembers env object n ts =
      (parseMember env (parseExpression env n.1.1) () n.2 object >>= fun member => do
        let u ← peek 0
        if u.t = .openParen then parseCall env (parseExpression env n.1.1) n.1.2 member
        else pure member : Parse _) ts := rfl

/-- A member in front of the other ones. -/
lemma leads_member {member : Statement Unit F} (h : ∃ N : Bounds, ∀ n, N ≤ n →
      parseMember env (parseExpression env n.1.1) () (n.2 + 1) object ts =
        parseMember env (parseExpression env n.1.1) () n.2 member rest) :
    Leads (parseMembers env object) ts (parseMembers env member) rest := by
  rintro c rest' ⟨M, hM⟩
  obtain ⟨N, hN⟩ := h
  refine takes_of_succ ⟨N ⊔ M, fun n hn => ?_⟩
  have hmembers := hM n (le_sup_right.trans hn)
  rw [← hmembers]
  exact (parseMembers_eq object (n.1, n.2 + 1) ts).trans
    (bind_congr_left (hN n (le_sup_left.trans hn)))

/-- `.` and a name. -/
lemma leads_dot {prop : Statement Unit F} (value : String)
    (h : Takes (parseLevel env 10) ts prop rest) :
    Leads (parseMembers env object) (⟨.dot, value, pos⟩ :: ts)
      (parseMembers env (.memberExpression () object prop false)) rest := by
  obtain ⟨N, hN⟩ := h
  refine leads_member ⟨N, fun n hn => ?_⟩
  have hprop : parsePrimary env (parseExpression env n.1.1) n.2 ts = .ok (prop, rest) := hN n hn
  rw [parseMember, bind_ok (peek_first _)]
  change (advance >>= _ : Parse _) (⟨.dot, value, pos⟩ :: ts) = _
  rw [bind_ok (advance_cons _ _), bind_ok hprop]

/-- What stands between square brackets. -/
lemma leads_index {pos' : ℕ} (value value' : String)
    {r : List (Option (Statement Unit F)) × Bool}
    (h : Takes (fun n : Bounds => parseSlices (parseExpression env n.1.1) n.2) ts r
      (⟨.closeSquareBracket, value', pos'⟩ :: rest)) :
    Leads (parseMembers env object) (⟨.openSquareBracket, value, pos⟩ :: ts)
      (parseMembers env (.memberExpression () object (sliceOf () r) true)) rest := by
  obtain ⟨N, hN⟩ := h
  refine leads_member ⟨N, fun n hn => ?_⟩
  have hslices : parseSlices (parseExpression env n.1.1) n.2 ts = .ok (r, _) := hN n hn
  have hargs : parseMemberArguments env (parseExpression env n.1.1) n.2 ts =
      .ok (sliceOf () r, ⟨.closeSquareBracket, value', pos'⟩ :: rest) := by
    rw [parseMemberArguments, bind_ok (peek_first _), bind_ok hslices]
    rfl
  rw [parseMember, bind_ok (peek_first _)]
  change (advance >>= _ : Parse _) (⟨.openSquareBracket, value, pos⟩ :: ts) = _
  rw [bind_ok (advance_cons _ _), bind_ok hargs]
  rfl

section

variable (hargs : Takes (fun n : Bounds => parseArgs env (parseExpression env n.1.1) n.2) ts args rest)

include hargs

/-- A call in front of other members and calls. -/
lemma takes_call {callee b' : Statement Unit F} {rest' : List Token}
    (h : Takes (parseMembers env (.callExpression () callee args)) rest b' rest') :
    Takes (fun n : Bounds => parseCall env (parseExpression env n.1.1) n.2 callee) ts b' rest' :=
  takes_of_succ (bind_eq (peek_first ts) (hargs.bind (takes_members h)))

/-- A call. -/
lemma leads_call {callee : Statement Unit F}
    (hopen : (first ts).t = .openParen) :
    Leads (parseMembers env callee) ts
      (parseMembers env (.callExpression () callee args)) rest := by
  intro b' rest' h
  have hcall : Takes (fun n : Bounds => parseCall env (parseExpression env n.1.1) n.1.2 callee)
      ts b' rest' :=
    (takes_call hargs h).of_bounds fun N =>
      ⟨((N.1.1, N.1.2 ⊔ N.2), 0), fun n hn => ⟨((n.1.1, n.1.2), n.1.2),
        ⟨⟨hn.1.1, le_sup_left.trans hn.1.2⟩, le_sup_right.trans hn.1.2⟩, rfl⟩⟩
  have hdot : (first ts).t ≠ .dot := by
    rw [hopen]
    exact TokenType.noConfusion
  have hsquare : (first ts).t ≠ .openSquareBracket := by
    rw [hopen]
    exact TokenType.noConfusion
  refine bind_eq (peek_first ts) ((parseMember_none () hdot hsquare).bind ?_)
  refine bind_eq (peek_first ts) ?_
  simp only [if_pos hopen]
  exact hcall

end

/-- An argument without a name. -/
lemma takes_arg (h : Parses env 0 items b) (hheads : Heads 0 items)
    (hrest : (first rest).t = .comma ∨ (first rest).t = .closeParen) (pos : ℕ) :
    Takes (fun n : Bounds => parseArg env (parseExpression env n.1.1)) (place pos items ++ rest) b
      rest := by
  have hstop : Stops 0 rest := stops_of_closes (fun t ht => by rw [binds, ht]) hrest
  have hequals : (first rest).t ≠ .equals := by
    rcases hrest with h | h
    · rw [h]
      exact TokenType.noConfusion
    · rw [h]
      exact TokenType.noConfusion
  obtain ⟨i, is, rfl, hi, -⟩ := hheads
  have hstar : ¬((first (place pos (i :: is) ++ rest)).t = .multiplicativeBinaryOperator ∧
      (first (place pos (i :: is) ++ rest)).value = "*") := fun hstar =>
    starts_ne hi (by decide) hstar.1
  refine bind_eq (peek_first _) ?_
  simp only [if_neg hstar]
  refine (h.expression hstop pos).bind (bind_eq (peek_first rest) ?_)
  simp only [if_neg hequals]
  exact takes_pure _ _

/-- An argument. -/
lemma itemTaken_arg (kind : ArgKind) (h : Parses env 0 items b) (hheads : Heads 0 items) :
    ItemTaken .closeParen (fun n : Bounds => parseArg env (parseExpression env n.1.1))
      (kind.items items) (kind.tree b) := by
  cases kind with
  | positional =>
    obtain ⟨i, is, rfl, hi, hnot⟩ := hheads
    exact ⟨⟨i, is, rfl, starts_ne hi (by decide)⟩,
      fun pos rest hrest => takes_arg h ⟨i, is, rfl, hi, hnot⟩ hrest pos⟩
  | keyword name =>
    refine ⟨⟨_, _, rfl, TokenType.noConfusion⟩, fun pos rest hrest => ?_⟩
    have hstop : Stops 0 rest := stops_of_closes (fun t ht => by rw [binds, ht]) hrest
    have hname : Parses env 0 [.word name.name] name.tree :=
      (parses_identifier name).to le_rfl (heads_name name []) (Nat.zero_le 10)
    refine bind_eq (peek_first _) ?_
    have hfirst := hname.expression (stops_of_none rfl : Stops 0 (⟨.equals, "=",
      pos + name.name.toList.length + 1⟩ :: (place (pos + name.name.toList.length + 1 + 1 + 1) items
        ++ rest))) pos
    refine hfirst.bind (bind_eq (peek_first _) ?_)
    exact bind_eq (advance_cons _ _) ((h.expression hstop _).bind (takes_pure _ _))
  | spread =>
    refine ⟨⟨_, _, rfl, TokenType.noConfusion⟩, fun pos rest hrest => ?_⟩
    have hstop : Stops 0 rest := stops_of_closes (fun t ht => by rw [binds, ht]) hrest
    refine bind_eq (peek_first _) ?_
    exact bind_eq (advance_cons _ _) ((h.expression hstop _).bind (takes_pure _ _))

/-- Arguments in parentheses. -/
lemma takes_args {bs : List (Statement Unit F)}
    (h : List.Forall₂ (ItemTaken .closeParen fun n : Bounds =>
      parseArg env (parseExpression env n.1.1)) parts bs) (pos : ℕ) :
    Takes (fun n : Bounds => parseArgs env (parseExpression env n.1.1) n.2)
      (place pos (.plain .openParen "(" :: joined parts ++ [.plain .closeParen ")"]) ++ rest) bs
      rest := by
  simp only [place_append, append_assoc]
  refine bind_eq rfl ((takes_joined h TokenType.noConfusion rfl _).bind ?_)
  exact bind_eq rfl (takes_pure _ _)

/-- The name of a filter or a test, without arguments. -/
lemma takes_name (name : Ident) (hstop : Stops 9 rest) (pos : ℕ) :
    Takes (fun n : Bounds => parseName env (parseExpression env n.1.1) n.2)
      (place pos [.word name.name] ++ rest) name.tree rest := by
  have hparen : (first rest).t ≠ .openParen := not_type hstop le_rfl fun t ht => by rw [binds, ht]
  have hname : Takes (fun n : Bounds => parsePrimary env (parseExpression env n.1.1) n.2)
      (place pos [.word name.name] ++ rest) name.tree rest :=
    bind_eq (next_cons _ rest) (takes_pure _ _)
  refine hname.bind (bind_eq (peek_first rest) ?_)
  simp only [if_neg hparen]
  exact takes_pure _ _

/-- The name of a filter or a test, with arguments. -/
lemma takes_nameArgs (name : Ident)
    (hargs : ∀ pos, Takes (fun n : Bounds => parseArgs env (parseExpression env n.1.1) n.2)
      (place pos items ++ rest) args rest)
    (hopen : ∀ pos, (first (place pos items ++ rest)).t = .openParen) (hstop : Stops 9 rest)
    (pos : ℕ) :
    Takes (fun n : Bounds => parseName env (parseExpression env n.1.1) n.2)
      (place pos (.word name.name :: items) ++ rest) (.callExpression () name.tree args) rest := by
  have hname : Takes (fun n : Bounds => parsePrimary env (parseExpression env n.1.1) n.2)
      (place pos (.word name.name :: items) ++ rest) name.tree
      (place (pos + (Item.word name.name).text.length + 1) items ++ rest) :=
    bind_eq (next_cons _ _) (takes_pure _ _)
  refine hname.bind (bind_eq (peek_first _) ?_)
  simp only [if_pos (hopen _)]
  exact takes_call (hargs _) (parseMembers_stops hstop)

/-- A filter. -/
lemma leads_filter {operand filter : Statement Unit F} (value : String)
    (h : Takes (fun n : Bounds => parseName env (parseExpression env n.1.1) n.2) ts filter rest) :
    Leads (parseLoop env 8 operand) (⟨.pipe, value, pos⟩ :: ts)
      (parseLoop env 8 (.filterExpression () operand filter)) rest := by
  intro c rest' hc
  refine takes_of_succ (bind_eq (peek_first _) ?_)
  exact bind_eq (advance_cons _ ts) (h.bind hc)

/-- A test. -/
lemma leads_test {operand test : Statement Unit F} {negate : Bool} {ts' : List Token}
    (hnegate : skipNot ts = .ok (negate, ts'))
    (h : Takes (fun n : Bounds => parseName env (parseExpression env n.1.1) n.2) ts' test rest) :
    Leads (parseLoop env 7 operand) (⟨.identifier, "is", pos⟩ :: ts)
      (parseLoop env 7 (.testExpression () operand negate test)) rest := by
  intro c rest' hc
  refine takes_of_succ (bind_eq (peek_first _) ?_)
  exact bind_eq (advance_cons _ ts) (bind_eq hnegate (h.bind hc))

/-- Whether a test is negated. -/
lemma skipNot_word (negate : Bool) (name : Ident) (is : List Item) (pos : ℕ) :
    ∃ pos', skipNot (place pos ((if negate then [.word "not"] else []) ++ .word name.name :: is) ++
      rest) = .ok (negate, place pos' (.word name.name :: is) ++ rest) := by
  cases negate
  · have hnot : ((⟨.identifier, name.name, pos⟩ : Token).isIdentifier "not") = false := by
      have hne : name.name ≠ "not" := fun heq => name.free (by rw [heq]; decide)
      simpa [isIdentifier] using hne
    refine ⟨pos, ?_⟩
    change (if (⟨.identifier, name.name, pos⟩ : Token).isIdentifier "not" = true then _
      else _ : Parse _) _ = _
    rw [hnot]
    rfl
  · exact ⟨pos + (Item.word "not").text.length + 1, rfl⟩

/-- The operator of a binary expression. -/
lemma levelOp_items (op : BinaryOp) (pos : ℕ) :
    levelOp env op.level (place pos op.items ++ ts) = .ok (some ((), op.name), ts) := by
  cases op
  all_goals rfl

lemma stops_items (op : BinaryOp) (pos : ℕ) : Stops (cap op.level) (place pos op.items ++ ts) := by
  cases op
  all_goals
    intro l hl
    cases hl
    decide

section

variable {pos : ℕ} {r : List (Option (Statement Unit F)) × Bool}

/-- The end of a slice. -/
lemma takes_slices_nil : Takes (fun n : Bounds => parseSlices (parseExpression env n.1.1) n.2)
      (⟨.closeSquareBracket, "]", pos⟩ :: rest) ([], false)
      (⟨.closeSquareBracket, "]", pos⟩ :: rest) :=
  takes_of_succ (bind_eq (peek_first _) (takes_pure _ _))

/-- An omitted part of a slice. -/
lemma takes_slices_none
    (h : Takes (fun n : Bounds => parseSlices (parseExpression env n.1.1) n.2) ts r rest) :
    Takes (fun n : Bounds => parseSlices (parseExpression env n.1.1) n.2)
      (⟨.colon, ":", pos⟩ :: ts) (none :: r.1, true) rest := by
  refine takes_of_succ (bind_eq (peek_first _) ?_)
  exact bind_eq (advance_cons _ ts) (h.bind (takes_pure _ _))

/-- A part of a slice. -/
lemma takes_slices_some (hb : Parses env 0 items b) (hheads : Heads 0 items) {ts' : List Token}
    (hstop : Stops 0 ts) (hskip : skipIf .colon ts = .ok ((), ts'))
    (h : Takes (fun n : Bounds => parseSlices (parseExpression env n.1.1) n.2) ts' r rest) :
    Takes (fun n : Bounds => parseSlices (parseExpression env n.1.1) n.2)
      (place pos items ++ ts) (some b :: r.1, r.2 || (first ts).t == .colon) rest := by
  have hexpr := hb.expression hstop pos
  obtain ⟨i, is, rfl, hi, -⟩ := hheads
  have hclose : (first (place pos (i :: is) ++ ts)).t ≠ .closeSquareBracket :=
    starts_ne hi (by decide)
  have hcolon : (first (place pos (i :: is) ++ ts)).t ≠ .colon := starts_ne hi (by decide)
  refine takes_of_succ (bind_eq (peek_first _) ?_)
  simp only [if_neg hclose, if_neg hcolon]
  refine hexpr.bind (bind_eq (peek_first ts) (bind_eq hskip ?_))
  exact h.bind (takes_pure _ _)

/-- The last part of a slice. -/
lemma takes_slices_last {pos' : ℕ} (hb : Parses env 0 items b) (hheads : Heads 0 items) :
    Takes (fun n : Bounds => parseSlices (parseExpression env n.1.1) n.2)
      (place pos items ++ ⟨.closeSquareBracket, "]", pos'⟩ :: rest) ([some b], false)
      (⟨.closeSquareBracket, "]", pos'⟩ :: rest) :=
  takes_slices_some hb hheads (stops_of_none rfl) (skipIf_first _ _) takes_slices_nil

end

/-! ## Expressions -/

/-- An expression has been parsed at its own level. -/
def Parsed (D : Doubles F) (env : ParserEnv Unit F) (e : Expr F) : Prop :=
  ∀ level ≤ 10, Parses env level (e.itemsAt D level) e.tree

lemma level_range (op : BinaryOp) : 0 < op.level ∧ op.level ≤ 6 ∧ op.level ≠ 3 := by
  cases op
  all_goals decide

lemma prec_le (e : Expr F) : e.prec ≤ 10 := by
  cases e with
  | binary op left right => exact (level_range op).2.1.trans (by decide)
  | _ => simp [Expr.prec]

/-- At other levels than its own an expression stands in parentheses or not. -/
lemma parsed_of_prec {D : Doubles F} {e : Expr F} (h : Parses env e.prec (e.items D) e.tree) :
    Parsed D env e := by
  intro level hlevel
  unfold Expr.itemsAt
  by_cases hprec : e.prec < level
  · have hzero : Parses env 0 (e.items D) e.tree := h.to (prec_le e) e.heads (Nat.zero_le _)
    rw [decide_eq_true hprec]
    exact (parses_paren hzero).to le_rfl
      (heads_cons _ (by simp [Item.Starts, Item.plain]) TokenType.noConfusion) hlevel
  · rw [decide_eq_false hprec]
    exact h.to (prec_le e) e.heads (by omega)

lemma Parsed.zero {D : Doubles F} {e : Expr F} (h : Parsed D env e) :
    Parses env 0 (e.items D) e.tree := by
  have hzero := h 0 (Nat.zero_le 10)
  rwa [Expr.itemsAt] at hzero

section

variable {D : Doubles F}

lemma heads_zero (e : Expr F) : Heads 0 (e.items D) := e.heads.weaken (Nat.zero_le _)

/-- Arguments that have been parsed. -/
lemma forall₂_args {args : List (ArgKind × Expr F)} (h : ∀ a ∈ args, Parsed D env a.2) :
    List.Forall₂ (ItemTaken .closeParen fun n : Bounds => parseArg env (parseExpression env n.1.1))
      (args.map fun a => a.1.items (a.2.items D)) (argTrees args) := by
  induction args with
  | nil =>
    exact .nil
  | cons a args ih =>
    obtain ⟨ha, hargs⟩ := forall_mem_cons.mp h
    exact .cons (itemTaken_arg a.1 ha.zero (heads_zero a.2)) (ih hargs)

section

variable {o stop step : Option (Expr F)} {pos : ℕ}

/-- A part of a slice, or none, with a colon after it. -/
lemma takes_slices_option {r : List (Option (Statement Unit F)) × Bool} {pos' : ℕ}
    (ho : ∀ e ∈ o, Parsed D env e)
    (h : Takes (fun n : Bounds => parseSlices (parseExpression env n.1.1) n.2) ts r rest) :
    Takes (fun n : Bounds => parseSlices (parseExpression env n.1.1) n.2)
      (place pos (optionItems D o) ++ ⟨.colon, ":", pos'⟩ :: ts) (optionTree o :: r.1, true)
      rest := by
  cases o with
  | none =>
    exact takes_slices_none h
  | some e =>
    have hpart : Takes (fun n : Bounds => parseSlices (parseExpression env n.1.1) n.2)
        (place pos (e.items D) ++ ⟨.colon, ":", pos'⟩ :: ts) _ rest :=
      takes_slices_some (ho e rfl).zero (heads_zero e) (stops_of_none rfl) (skipIf_first _ _) h
    rwa [show (r.2 || (first (⟨.colon, ":", pos'⟩ :: ts)).t == TokenType.colon) = true from
      Bool.or_true _] at hpart

/-- The parts of a slice after the first colon. -/
lemma takes_slices_parts (hstop : ∀ e ∈ stop, Parsed D env e) (hstep : ∀ e ∈ step, Parsed D env e)
    (pos pos' : ℕ) (rest : List Token) :
    ∃ r : List (Option (Statement Unit F)) × Bool,
      (r.1[0]?).getD none = optionTree stop ∧ (r.1[1]?).getD none = optionTree step ∧
        Takes (fun n : Bounds => parseSlices (parseExpression env n.1.1) n.2)
          (place pos (optionItems D stop ++ stepItems D step) ++
            ⟨.closeSquareBracket, "]", pos'⟩ :: rest) r
          (⟨.closeSquareBracket, "]", pos'⟩ :: rest) := by
  cases step with
  | some e =>
    rw [place_append, append_assoc]
    refine ⟨(optionTree stop :: [some e.tree], true), rfl, by rw [optionTree]; rfl, ?_⟩
    exact takes_slices_option hstop (takes_slices_last (hstep e rfl).zero (heads_zero e))
  | none =>
    rw [stepItems, append_nil]
    cases stop with
    | none =>
      exact ⟨([], false), by rw [optionTree]; rfl, by rw [optionTree]; rfl, takes_slices_nil⟩
    | some e =>
      exact ⟨([some e.tree], false), by rw [optionTree]; rfl, by rw [optionTree]; rfl,
        takes_slices_last (hstop e rfl).zero (heads_zero e)⟩

/-- A slice. -/
lemma leads_slice {start : Option (Expr F)} {pos₀ pos₁ pos₂ pos₃ : ℕ}
    (hstart : ∀ e ∈ start, Parsed D env e) (hstop : ∀ e ∈ stop, Parsed D env e)
    (hstep : ∀ e ∈ step, Parsed D env e) :
    Leads (parseMembers env object)
      (⟨.openSquareBracket, "[", pos₀⟩ :: (place pos (optionItems D start) ++
        ⟨.colon, ":", pos₁⟩ :: (place pos₂ (optionItems D stop ++ stepItems D step) ++
          ⟨.closeSquareBracket, "]", pos₃⟩ :: rest)))
      (parseMembers env (.memberExpression () object
        (.sliceExpression () (optionTree start) (optionTree stop) (optionTree step)) true))
      rest := by
  obtain ⟨r, hstop', hstep', htake⟩ := takes_slices_parts hstop hstep pos₂ pos₃ rest
  have hslice : sliceOf () (optionTree start :: r.1, true) =
      (.sliceExpression () (optionTree start) (optionTree stop) (optionTree step) :
        Statement Unit F) := by
    rw [← hstop', ← hstep']
    rfl
  rw [← hslice]
  exact leads_index "[" "]" (takes_slices_option hstart htake)

end

/-- The name of a filter or a test. -/
lemma takes_callTree (name : Ident) {args : Option (List (ArgKind × Expr F))}
    (h : ∀ as ∈ args, ∀ a ∈ as, Parsed D env a.2) (hstop : Stops 9 rest) (pos : ℕ) :
    Takes (fun n : Bounds => parseName env (parseExpression env n.1.1) n.2)
      (place pos (.word name.name :: callItems D args) ++ rest) (callTree name.tree args) rest := by
  cases args with
  | none =>
    exact takes_name name hstop pos
  | some as =>
    rw [callItems, argItems_eq]
    exact takes_nameArgs name (takes_args (forall₂_args (h as rfl))) (fun _ => rfl) hstop pos

/-- The loop of an operator. -/
lemma leads_binary (op : BinaryOp) {left right : Statement Unit F}
    (hright : Takes (parseLevel env (op.level + 1)) ts right rest) :
    Leads (parseLoop env op.level left) (place pos op.items ++ ts)
      (parseLoop env op.level (.binaryExpression () op.name left right)) rest := by
  have hstep : Leads (levelChain env op.level left) (place pos op.items ++ ts)
      (levelChain env op.level (.binaryExpression () op.name left right)) rest :=
    levelChain_step (levelOp_items op pos) hright
  cases op
  all_goals exact hstep

/-- A member, an index, a slice or a call after an object. -/
lemma parses_member {member : Statement Unit F} {is js : List Item}
    (hobject : Parses env 9 is object) (hstop : ∀ pos rest, Stops 10 (place pos js ++ rest))
    (h : ∀ pos rest, Stops 10 rest →
      Leads (parseMembers env object) (place pos js ++ rest) (parseMembers env member) rest) :
    Parses env 9 (is ++ js) member := by
  intro pos rest hrest
  rw [place_append, append_assoc]
  exact (hobject pos _ (hstop _ rest)).trans (h _ rest hrest)

/-- **What was printed of an expression is parsed to its tree.** -/
theorem parsed (henv : env.stod = D.stod) (e : Expr F) : Parsed D env e := by
  induction e using Expr.induct with
  | identifier name =>
    refine parsed_of_prec ?_
    exact parses_identifier name
  | integer val =>
    refine parsed_of_prec ?_
    exact parses_integer val
  | float val =>
    refine parsed_of_prec ?_
    exact parses_float henv val
  | string val =>
    refine parsed_of_prec ?_
    exact parses_string val
  | list vals ih =>
    refine parsed_of_prec ?_
    rw [Expr.items, Expr.tree, listItems_eq]
    refine parses_list ?_
    induction vals with
    | nil =>
      exact .nil
    | cons e es ihes =>
      obtain ⟨he, hes⟩ := forall_mem_cons.mp ih
      exact .cons (itemTaken_expression he.zero (heads_zero e)
        (fun t ht => by rw [binds, ht]) (by decide)) (ihes hes)
  | dict pairs ih =>
    refine parsed_of_prec ?_
    rw [Expr.items, Expr.tree, pairItems_eq]
    refine parses_dict ?_
    induction pairs with
    | nil =>
      exact .nil
    | cons p ps ihps =>
      obtain ⟨hp, hps⟩ := forall_mem_cons.mp ih
      exact .cons (itemTaken_pair hp.1.zero hp.2.zero (heads_zero p.1)) (ihps hps)
  | dot object name ih =>
    refine parsed_of_prec ?_
    refine parses_member (ih 9 (by decide)) (fun pos rest => ?_) fun pos rest hrest => ?_
    · exact stops_of_some rfl (by decide)
    · exact leads_dot "." (bind_eq (next_cons _ _) (takes_pure _ _))
  | index object property ih ih' =>
    refine parsed_of_prec ?_
    rw [Expr.items, Expr.tree, append_assoc]
    refine parses_member (ih 9 (by decide)) (fun pos rest => ?_) fun pos rest hrest => ?_
    · exact stops_of_some rfl (by decide)
    · simp only [cons_append, place, place_append, append_assoc, nil_append, Item.plain]
      exact leads_index "[" "]" (takes_slices_last ih'.zero (heads_zero property))
  | slice object start stop step ih hstart hstop hstep =>
    refine parsed_of_prec ?_
    rw [Expr.items, Expr.tree, append_assoc, append_assoc, append_assoc]
    refine parses_member (ih 9 (by decide)) (fun pos rest => ?_) fun pos rest hrest => ?_
    · exact stops_of_some rfl (by decide)
    · rw [cons_append, cons_append, ← append_assoc (optionItems D stop), place,
        place_append, place, place_append, cons_append, append_assoc, cons_append,
        append_assoc]
      exact leads_slice hstart hstop hstep
  | call callee args ih hargs =>
    refine parsed_of_prec ?_
    rw [Expr.items, Expr.tree, append_assoc, argItems_eq]
    refine parses_member (ih 9 (by decide)) (fun pos rest => ?_) fun pos rest hrest => ?_
    · exact stops_of_some rfl (by decide)
    · exact leads_call (takes_args (forall₂_args hargs) pos) rfl
  | filter operand name args ih hargs =>
    refine parsed_of_prec ?_
    rw [Expr.items, Expr.tree]
    intro pos rest hstop
    rw [place_append, append_assoc]
    refine (ih 8 (by decide) pos _ ?_).trans (leads_filter "|" (takes_callTree name hargs ?_ _))
    · exact stops_of_some rfl (by decide : 8 < 9)
    · exact hstop
  | test operand negate name args ih hargs =>
    refine parsed_of_prec ?_
    rw [Expr.items, Expr.tree, append_assoc, cons_append]
    intro pos rest hstop
    rw [place_append, append_assoc, place]
    obtain ⟨pos', hskip⟩ := skipNot_word negate name (callItems D args)
      (pos + (textsOf (paren (operand.prec < 7) (operand.items D))).length +
        (Item.word "is").text.length + 1)
    refine (ih 7 (by decide) pos _ ?_).trans (leads_test hskip (takes_callTree name hargs ?_ _))
    · exact stops_of_some rfl (by decide : 7 < 8)
    · exact hstop.mono (by decide : 8 ≤ 9)
  | binary op left right ih ih' =>
    refine parsed_of_prec ?_
    rw [Expr.items, Expr.tree, append_assoc]
    intro pos rest hstop
    obtain ⟨hpos, hle, h3⟩ := level_range op
    have hcap : cap (Expr.binary op left right).prec = op.level + 1 := by
      change cap op.level = _
      obtain ⟨l, hl⟩ : ∃ l, op.level = l + 1 := ⟨op.level - 1, by omega⟩
      rw [hl, cap]
      omega
    rw [hcap] at hstop
    rw [place_append, append_assoc, place_append, append_assoc]
    refine (ih op.level (by omega) pos _ (stops_items op _)).trans (leads_binary op ?_)
    exact (ih' (op.level + 1) (by omega)).takes (by omega) hstop _
  | not argument ih =>
    refine parsed_of_prec ?_
    intro pos rest hstop
    exact (takes_not (ih 3 (by decide) _ rest hstop _ _ (takes_pure _ _))).leads_pure
  | ternary condition trueExpr falseExpr ih ih' ih'' =>
    refine parsed_of_prec ?_
    rw [Expr.items, Expr.tree, append_assoc]
    intro pos rest hstop
    rw [place_append, append_assoc, cons_append, place, cons_append, place_append,
      append_assoc, place, cons_append]
    exact (takes_ternary
      ((ih' 1 (by decide)).takes (by decide) (stops_of_some rfl (by decide)) pos)
      ((ih 1 (by decide)).takes (by decide) (stops_of_none rfl) _)
      (ih''.zero.expression hstop _)).leads_pure

end

end

end Llama.Jinja
