import Llama.Jinja.Lexer
import Llama.Lib.Control

/-!
# What one token takes off the source

Every scan takes characters off the source one after the other, and a token inside of a tag takes at
least one.  So the main loop ends, and a bound on its iterations that exceeds the number of the
characters makes no difference.
-/

namespace Llama.Jinja

open List Cursor

/-! ## Cursors -/

/-- Between `k` and all of the characters were passed. -/
def Cursor.Passed (k : ℕ) (c c' : Cursor) : Prop :=
  ∃ m, k ≤ m ∧ m ≤ c.rest.length ∧ c' = c.skip m

lemma Cursor.skip_skip (c : Cursor) (m n : ℕ) : (c.skip m).skip n = c.skip (m + n) := by
  simp only [skip, Nat.add_assoc, drop_drop]

lemma passed_refl (c : Cursor) : c.Passed 0 c := ⟨0, le_rfl, Nat.zero_le _, rfl⟩

variable {c : Cursor} {rest : List Char} {r : List Char × Cursor} {depth : ℕ}
  {last : Option TokenType}

lemma passed_skip {m : ℕ} (hm : m ≤ c.rest.length) : c.Passed m (c.skip m) :=
  ⟨m, le_rfl, hm, rfl⟩

namespace Cursor.Passed

variable {c c' c'' : Cursor} {k k' : ℕ}

lemma trans (h : c.Passed k c') (h' : c'.Passed k' c'') : c.Passed (k + k') c'' := by
  obtain ⟨m, hk, hm, rfl⟩ := h
  obtain ⟨m', hk', hm', rfl⟩ := h'
  simp only [Cursor.skip, length_drop] at hm'
  exact ⟨m + m', by omega, by omega, c.skip_skip m m'⟩

lemma weaken (h : c.Passed k c') (hk : k' ≤ k) : c.Passed k' c' := by
  obtain ⟨m, hm, hlen, heq⟩ := h
  exact ⟨m, hk.trans hm, hlen, heq⟩

lemma pos_le (h : c.Passed k c') : c.pos + k ≤ c'.pos := by
  obtain ⟨m, hk, -, rfl⟩ := h
  exact Nat.add_le_add_left hk _

lemma length_le (h : c.Passed k c') : c'.rest.length + k ≤ c.rest.length := by
  obtain ⟨m, hk, hm, rfl⟩ := h
  simp only [Cursor.skip, length_drop]
  omega

end Cursor.Passed

/-- The cursor stands in the source `src`. -/
def Cursor.In (src : List Char) (c : Cursor) : Prop := c.pos ≤ src.length ∧ c.rest = src.drop c.pos

lemma Cursor.In.passed {src : List Char} {c' : Cursor} {k : ℕ} (hin : c.In src)
    (h : c.Passed k c') : c'.In src := by
  obtain ⟨m, -, hm, rfl⟩ := h
  obtain ⟨hpos, hrest⟩ := hin
  rw [hrest, length_drop] at hm
  exact ⟨by simp only [skip]; omega, by simp only [skip, hrest, drop_drop]⟩

/-- A character was passed. -/
lemma passed_cons {pos : ℕ} {d : Char} {c' : Cursor} {k : ℕ}
    (h : Cursor.Passed k ⟨pos + 1, rest⟩ c') : Cursor.Passed (k + 1) ⟨pos, d :: rest⟩ c' := by
  have hone : Cursor.Passed 1 ⟨pos, d :: rest⟩ ⟨pos + 1, rest⟩ := passed_skip (by simp)
  exact (hone.trans h).weaken (by omega)

/-! ## Scans -/

lemma consumeWhile_passed {p : Char → Bool} {pos : ℕ} (h : consumeWhile p pos rest = .ok r) :
    Cursor.Passed 0 ⟨pos, rest⟩ r.2 ∧ p r.2.cur = false := by
  fun_induction consumeWhile p pos rest generalizing r with
  | case1 => cases h
  | case2 pos hp =>
    cases h
    exact ⟨passed_refl _, Bool.eq_false_iff.mpr hp⟩
  | case3 => cases h
  | case4 pos c hp hc ih =>
    obtain ⟨r', hr', h⟩ := except_bind_eq_ok.mp h
    cases h
    obtain ⟨hpass, hstop⟩ := ih hr'
    exact ⟨(passed_cons hpass).weaken (by omega), hstop⟩
  | case5 pos c hp =>
    cases h
    exact ⟨passed_refl _, Bool.eq_false_iff.mpr hp⟩
  | case6 pos d rest hp unescaped hd ih =>
    obtain ⟨r', hr', h⟩ := except_bind_eq_ok.mp h
    cases h
    obtain ⟨hpass, hstop⟩ := ih hr'
    exact ⟨(passed_cons (passed_cons hpass)).weaken (by omega), hstop⟩
  | case7 => cases h
  | case8 pos c d rest hp hc ih =>
    obtain ⟨r', hr', h⟩ := except_bind_eq_ok.mp h
    cases h
    obtain ⟨hpass, hstop⟩ := ih hr'
    exact ⟨(passed_cons hpass).weaken (by omega), hstop⟩
  | case9 pos c d rest hp =>
    cases h
    exact ⟨passed_refl _, Bool.eq_false_iff.mpr hp⟩

lemma cur_eq_of_rest_nil (h : c.rest = []) : c.cur = '\x00' := by
  rw [cur, h]
  rfl

/-- A character that is no null character stands in the source. -/
lemma length_pos_of_cur (h : c.cur ≠ '\x00') : 1 ≤ c.rest.length := by
  rw [Nat.one_le_iff_ne_zero, ne_eq, length_eq_zero_iff]
  exact fun hnil => h (cur_eq_of_rest_nil hnil)

/-- A scan that starts at a character it takes, takes it. -/
lemma consumeWhile_takes {p : Char → Bool} (h : consumeWhile p c.pos c.rest = .ok r)
    (hp : p c.cur = true) : c.Passed 1 r.2 := by
  obtain ⟨⟨m, -, hm, heq⟩, hstop⟩ := consumeWhile_passed h
  refine ⟨m, ?_, hm, heq⟩
  rcases m with _ | m
  · rw [heq] at hstop
    exact absurd hp (Bool.eq_false_iff.mp hstop)
  · omega

/-- A number is as long as its integral part, at least. -/
lemma consumeNumeric_passed (h : consumeNumeric c = .ok r) :
    ∃ num, consumeWhile isInteger c.pos c.rest = .ok num ∧ num.2.Passed 0 r.2 := by
  obtain ⟨num, hnum, h⟩ := except_bind_eq_ok.mp h
  refine ⟨num, hnum, ?_⟩
  split at h
  · next hdot =>
    obtain ⟨frac, hfrac, h⟩ := except_bind_eq_ok.mp h
    cases h
    have hone : num.2.Passed 1 (num.2.skip 1) :=
      passed_skip (length_pos_of_cur (by rw [hdot.1]; decide))
    exact (hone.trans (consumeWhile_passed hfrac).1).weaken (by omega)
  · cases h
    exact passed_refl _

/-- A comment ends at `#}`. -/
lemma scanComment_spec {pos : ℕ} (h : scanComment pos rest = .ok r) :
    r.2 = (⟨pos, rest⟩ : Cursor).skip r.1.length ∧ r.1.length + 2 ≤ rest.length ∧
      ∃ tail, rest.drop r.1.length = '#' :: '}' :: tail := by
  fun_induction scanComment pos rest generalizing r with
  | case1 => cases h
  | case2 pos c rest hend =>
    cases h
    cases rest with
    | nil => exact absurd hend.2 (by simp)
    | cons d rest =>
      obtain rfl : d = '}' := by simpa using hend.2
      exact ⟨rfl, by simp, rest, by rw [hend.1]; rfl⟩
  | case3 => cases h
  | case4 pos c rest hend hlen ih =>
    obtain ⟨r', hr', h⟩ := except_bind_eq_ok.mp h
    cases h
    obtain ⟨heq, hle, htail⟩ := ih hr'
    refine ⟨?_, by simp only [length_cons]; omega, htail⟩
    rw [heq]
    simp only [Cursor.skip, length_cons, drop_succ_cons, Nat.add_assoc, Nat.add_comm 1]

/-! ## Tokens -/

/-- Where a token ends that closes a tag. -/
def Token.stop (t : Token) : ℕ := t.pos + t.value.length + if t.t = .comment then 4 else 0

/-- A tag ends at the cursor `c'`. -/
def Cursor.Closed (c c' : Cursor) : Prop :=
  ∃ m d tail, m ≤ c.rest.length ∧ c.rest.drop m = d :: '}' :: tail ∧
    (d = '%' ∨ d = '}' ∨ d = '#') ∧ c' = (c.skip m).skip 2

/-- What a token takes off the source: at least one character, and at least two if it closes a
tag. -/
structure LexStep.Takes (c : Cursor) (s : LexStep) : Prop where
  passed : c.Passed 1 s.cur
  notText : s.token.t ≠ .text
  pos : c.pos ≤ s.token.pos
  stop : closesTag s.token.t = true → s.cur.pos = s.token.stop ∧ s.token.pos + 2 ≤ s.cur.pos
  closed : closesTag s.token.t = true → c.Closed s.cur

lemma Cursor.Closed.before {c c' c'' : Cursor} (hpass : c.Passed 0 c') (h : c'.Closed c'') :
    c.Closed c'' := by
  obtain ⟨k, -, hk, rfl⟩ := hpass
  obtain ⟨m, d, tail, hm, hrest, hd, rfl⟩ := h
  simp only [Cursor.skip, length_drop, drop_drop] at hm hrest
  exact ⟨k + m, d, tail, by omega, hrest, hd, by rw [skip_skip c k m]⟩

lemma LexStep.Takes.before {c c' : Cursor} {s : LexStep} {k : ℕ} (h : s.Takes c')
    (hpass : c.Passed k c') : s.Takes c where
  passed := (hpass.trans h.passed).weaken (by omega)
  notText := h.notText
  pos := (Nat.le_add_right _ _).trans (hpass.pos_le.trans h.pos)
  stop := h.stop
  closed := fun hcloses => (h.closed hcloses).before (hpass.weaken (Nat.zero_le _))

/-- No entry of the mapping table is a text or a comment or empty, and these are the ones that
close a tag. -/
lemma mem_orderedMappingTable :
    ∀ e ∈ orderedMappingTable, e.2 ≠ .text ∧ e.2 ≠ .comment ∧ 1 ≤ e.1.toList.length ∧
      (closesTag e.2 = true →
        e.1.toList ∈ [['-', '%', '}'], ['-', '}', '}'], ['%', '}'], ['}', '}']]) := by
  decide

/-- The characters of such an entry. -/
lemma closed_of_mem {c : Cursor} {seq : List Char}
    (hmem : seq ∈ [['-', '%', '}'], ['-', '}', '}'], ['%', '}'], ['}', '}']])
    (hfront : seq <+: c.rest) : 2 ≤ seq.length ∧ c.Closed (c.skip seq.length) := by
  obtain ⟨tail, htail⟩ := hfront
  simp only [List.mem_cons, List.not_mem_nil, or_false] at hmem
  rcases hmem with rfl | rfl | rfl | rfl
  · exact ⟨by decide, 1, '%', tail, by simp [← htail], by rw [← htail]; rfl, .inl rfl,
      (c.skip_skip 1 2).symm⟩
  · exact ⟨by decide, 1, '}', tail, by simp [← htail], by rw [← htail]; rfl, .inr (.inl rfl),
      (c.skip_skip 1 2).symm⟩
  · exact ⟨by decide, 0, '%', tail, by simp, by rw [← htail]; rfl, .inl rfl, (c.skip_skip 0 2).symm⟩
  · exact ⟨by decide, 0, '}', tail, by simp, by rw [← htail]; rfl, .inr (.inl rfl),
      (c.skip_skip 0 2).symm⟩

lemma matchMapping_spec {e : String × TokenType} (h : matchMapping depth rest = some e) :
    e ∈ orderedMappingTable ∧ e.1.toList <+: rest := by
  refine ⟨mem_of_find?_eq_some h, ?_⟩
  have hmatch := find?_some h
  rw [Bool.and_eq_true] at hmatch
  exact isPrefixOf_iff_prefix.mp hmatch.1

lemma takes_literal {c' : Cursor} {t : TokenType} {value : String} (hpass : c.Passed 1 c')
    (ht : t ≠ .text) (hopen : closesTag t = false) :
    LexStep.Takes c ⟨⟨t, value, c.pos⟩, depth, c'⟩ :=
  ⟨hpass, ht, le_rfl, fun hcloses => (by rw [hopen] at hcloses; cases hcloses),
    fun hcloses => (by rw [hopen] at hcloses; cases hcloses)⟩

lemma lexLiteral_takes {depth : ℕ} {c : Cursor} {r : Option LexStep}
    (h : lexLiteral depth c = .ok r) : ∃ s, r = some s ∧ s.Takes c := by
  unfold lexLiteral at h
  split_ifs at h with hquote hint hword
  · obtain ⟨str, hstr, h⟩ := except_bind_eq_ok.mp h
    cases h
    have hne : c.cur ≠ '\x00' := by rcases hquote with h | h <;> rw [h] <;> decide
    have hopen : c.Passed 1 (c.skip 1) := passed_skip (length_pos_of_cur hne)
    obtain ⟨hpass, hstop⟩ := consumeWhile_passed hstr
    have hcur : str.2.cur = c.cur := by simpa using hstop
    have hclose : str.2.Passed 1 (str.2.skip 1) :=
      passed_skip (length_pos_of_cur (hcur ▸ hne))
    exact ⟨_, rfl, takes_literal (((hopen.trans hpass).trans hclose).weaken (by omega))
      (by decide) rfl⟩
  · obtain ⟨num, hnum, h⟩ := except_bind_eq_ok.mp h
    cases h
    obtain ⟨int, hint', hrest⟩ := consumeNumeric_passed hnum
    exact ⟨_, rfl, takes_literal ((consumeWhile_takes hint' hint).trans hrest) (by decide) rfl⟩
  · obtain ⟨word, hstr, h⟩ := except_bind_eq_ok.mp h
    cases h
    exact ⟨_, rfl, takes_literal (consumeWhile_takes hstr hword) (by decide) rfl⟩

lemma lexMapped_takes {depth : ℕ} {c : Cursor} {r : Option LexStep}
    (h : lexMapped depth c = .ok r) : ∃ s, r = some s ∧ s.Takes c := by
  unfold lexMapped at h
  split at h
  · next seq typ hmatch =>
    cases h
    obtain ⟨hmem, hfront⟩ := matchMapping_spec hmatch
    obtain ⟨htext, hcomment, hone, hclosing⟩ := mem_orderedMappingTable _ hmem
    have hlen : seq.length ≤ c.rest.length := by
      exact hfront.length_le
    refine ⟨_, rfl, (passed_skip hlen).weaken hone, htext, le_rfl, fun hcloses => ⟨?_, ?_⟩,
      fun hcloses => ?_⟩
    · rw [Token.stop, if_neg hcomment]
      rfl
    · have htwo := (closed_of_mem (hclosing hcloses) hfront).1
      exact Nat.add_le_add_left htwo _
    · have hclosed := (closed_of_mem (hclosing hcloses) hfront).2
      rwa [String.length_toList] at hclosed
  · exact lexLiteral_takes h

lemma lexSign_takes {depth : ℕ} {c : Cursor} {r : Option LexStep} (hc : c.cur ≠ '\x00')
    (h : lexSign depth c = .ok r) : ∃ s, r = some s ∧ s.Takes c := by
  obtain ⟨num, hnum, h⟩ := except_bind_eq_ok.mp h
  cases h
  obtain ⟨int, hint, hrest⟩ := consumeNumeric_passed hnum
  have hone : c.Passed 1 (c.skip 1) := passed_skip (length_pos_of_cur hc)
  have hpass := ((hone.trans (consumeWhile_passed hint).1).trans hrest).weaken (by omega : 1 ≤ _)
  refine ⟨_, rfl, ?_⟩
  split
  · exact takes_literal hpass (by decide) rfl
  · exact takes_literal hpass (by decide) rfl

lemma lexSolid_takes {last : Option TokenType} {depth : ℕ} {c : Cursor} {s : LexStep}
    (h : lexSolid last depth c = .ok (some s)) : s.Takes c := by
  unfold lexSolid at h
  split_ifs at h with hnil hsign hlast hends
  · cases h
  · obtain ⟨s', heq, hs⟩ := lexMapped_takes h
    cases heq
    exact hs
  · have hne : c.cur ≠ '\x00' := by rcases hsign.1 with h | h <;> rw [h] <;> decide
    obtain ⟨s', heq, hs⟩ := lexSign_takes hne h
    cases heq
    exact hs
  · obtain ⟨s', heq, hs⟩ := lexMapped_takes h
    cases heq
    exact hs

/-- The null character is neither of these. -/
lemma length_of_nextPosIs {chars : List Char} {n : ℕ} (h : c.nextPosIs chars n = true) :
    n < c.rest.length := by
  unfold nextPosIs at h
  split at h
  · next d hd => exact (List.getElem?_eq_some_iff.mp hd).1
  · cases h

lemma lexComment_takes (depth : ℕ) {comment : List Char × Cursor}
    (hnext : c.nextPosIs ['#'] 1 = true)
    (h : scanComment (c.pos + 2) (c.skip 2).rest = .ok comment) :
    LexStep.Takes c ⟨⟨.comment, String.ofList comment.1, c.pos⟩, depth, comment.2.skip 2⟩ := by
  obtain ⟨heq, hlen, tail, htail⟩ := scanComment_spec h
  have htwo := length_of_nextPosIs hnext
  have hcur : comment.2.skip 2 = c.skip (2 + comment.1.length + 2) := by
    rw [heq]
    change ((c.skip 2).skip _).skip 2 = _
    rw [skip_skip, skip_skip]
    rfl
  simp only [Cursor.skip, length_drop] at hlen
  refine ⟨?_, TokenType.noConfusion, le_rfl, fun _ => ?_, fun _ => ?_⟩
  · rw [hcur]
    exact (passed_skip (by omega)).weaken (by omega)
  · rw [hcur]
    simp only [Token.stop, Cursor.skip, String.length_ofList, if_true]
    omega
  · refine ⟨2 + comment.1.length, '#', tail, by omega, ?_, .inr (.inr rfl), ?_⟩
    · rw [← drop_drop]
      exact htail
    · rw [hcur, skip_skip]

/-- **What a token takes off the source.** -/
theorem nextToken_spec {s : LexStep} (h : nextToken last depth c = .ok (some s)) : s.Takes c := by
  unfold nextToken at h
  split at h
  · next hcomment =>
    obtain ⟨comment, hscan, h⟩ := except_bind_eq_ok.mp h
    cases h
    exact lexComment_takes depth hcomment.2 hscan
  · obtain ⟨space, hspace, h⟩ := except_bind_eq_ok.mp h
    refine (lexSolid_takes h).before (c := c) (k := 0) ?_
    have hpass := (consumeWhile_passed hspace).1
    split at hpass
    · next hdash =>
      have hone : c.Passed 1 (c.skip 1) :=
        passed_skip (length_pos_of_cur (by rw [hdash.1]; decide))
      exact (hone.trans hpass).weaken (by omega)
    · exact hpass

/-- No token is left at the end of the source. -/
lemma nextToken_nil (h : c.rest = []) : nextToken last depth c = .ok none := by
  obtain ⟨pos, rest⟩ := c
  obtain rfl : rest = [] := h
  rfl

/-- The tokens that open a tag; a comment is a tag of its own. -/
def opensTag : TokenType → Bool
  | .openStatement => true
  | .openExpression => true
  | .comment => true
  | _ => false

lemma exists_of_opens (h : c.opens = true) :
    ∃ d rest, c.rest = '{' :: d :: rest ∧ (d = '%' ∨ d = '{' ∨ d = '#') := by
  obtain ⟨pos, rest⟩ := c
  rw [Cursor.opens, Bool.and_eq_true] at h
  obtain ⟨hcur, hnext⟩ := h
  have hlen := length_of_nextPosIs hnext
  cases rest with
  | nil => cases hlen
  | cons a rest =>
    cases rest with
    | nil => simp at hlen
    | cons d rest =>
      have ha : a = '{' := by simpa [cur] using hcur
      have hd : d = '%' ∨ d = '{' ∨ d = '#' := by simpa [nextPosIs] using hnext
      exact ⟨d, rest, by rw [ha], hd⟩

/-- The mapping table at a tag that opens. -/
lemma matchMapping_opens (depth : ℕ) {d : Char} (rest : List Char) (hd : d = '%' ∨ d = '{') :
    ∃ seq typ, matchMapping depth ('{' :: d :: rest) = some (seq, typ) ∧ opensTag typ = true ∧
      2 ≤ seq.length := by
  rcases rest with _ | ⟨e, rest⟩
  · rcases hd with rfl | rfl
    · exact ⟨"\x7b%", .openStatement, rfl, rfl, by decide⟩
    · exact ⟨"\x7b\x7b", .openExpression, rfl, rfl, by decide⟩
  · by_cases he : e = '-'
    · subst he
      rcases hd with rfl | rfl
      · exact ⟨"\x7b%-", .openStatement, rfl, rfl, by decide⟩
      · exact ⟨"\x7b\x7b-", .openExpression, rfl, rfl, by decide⟩
    · have hdash : ('-' == e) = false := by simpa using Ne.symm he
      rcases hd with rfl | rfl
      · refine ⟨"\x7b%", .openStatement, ?_, rfl, by decide⟩
        simp [matchMapping, orderedMappingTable, List.isPrefixOf, hdash]
      · refine ⟨"\x7b\x7b", .openExpression, ?_, rfl, by decide⟩
        simp [matchMapping, orderedMappingTable, List.isPrefixOf, hdash]

/-- A token of the mapping table that no white space and no sign is before. -/
lemma nextToken_brace {pos : ℕ} {d : Char} (hd : d ≠ '#') :
    nextToken last depth ⟨pos, '{' :: d :: rest⟩ = lexMapped depth ⟨pos, '{' :: d :: rest⟩ := by
  have hcomment : ¬((⟨pos, '{' :: d :: rest⟩ : Cursor).cur = '{' ∧
      (⟨pos, '{' :: d :: rest⟩ : Cursor).nextPosIs ['#'] 1 = true) := by
    simpa [nextPosIs] using fun _ => hd
  rw [nextToken, if_neg hcomment]
  rfl

/-- **The token that opens a tag.** -/
theorem nextToken_opens {last : Option TokenType} {depth : ℕ} {c : Cursor} {r : Option LexStep}
    (hopens : c.opens = true) (h : nextToken last depth c = .ok r) :
    ∃ s, r = some s ∧ s.token.pos = c.pos ∧ opensTag s.token.t = true ∧ c.pos + 2 ≤ s.cur.pos := by
  obtain ⟨d, tail, hrest, hd⟩ := exists_of_opens hopens
  obtain ⟨pos, rest⟩ := c
  obtain rfl : rest = '{' :: d :: tail := hrest
  by_cases hcomment : d = '#'
  · subst hcomment
    obtain ⟨comment, hscan, h⟩ := except_bind_eq_ok.mp h
    cases h
    exact ⟨_, rfl, rfl, rfl, ((lexComment_takes depth rfl hscan).stop rfl).2⟩
  · rw [nextToken_brace hcomment] at h
    obtain ⟨seq, typ, hmatch, hopen, hlen⟩ :=
      matchMapping_opens depth tail (by
        rcases hd with h | h | h
        · exact .inl h
        · exact .inr h
        · exact absurd h hcomment)
    rw [lexMapped] at h
    simp only [hmatch] at h
    cases h
    exact ⟨_, rfl, rfl, hopen, Nat.add_le_add_left hlen _⟩

/-! ## The loop -/

lemma scanText_passed (pos : ℕ) (rest : List Char) :
    Cursor.Passed 0 ⟨pos, rest⟩ (scanText pos rest) ∧
      ((scanText pos rest).rest = [] ∨ (scanText pos rest).opens = true) := by
  fun_induction scanText pos rest with
  | case1 => exact ⟨passed_refl _, .inl rfl⟩
  | case2 pos c rest hopens => exact ⟨passed_refl _, .inr hopens⟩
  | case3 pos c rest hopens ih => exact ⟨(passed_cons ih.1).weaken (by omega), ih.2⟩

lemma lstripEnd_le (src : List Char) (start stop current : ℕ) (h : current ≤ stop) :
    lstripEnd src start stop current ≤ stop := by
  induction current with
  | zero => exact le_rfl
  | succ current ih =>
    simp only [lstripEnd]
    split_ifs
    · exact le_rfl
    · exact Nat.zero_le _
    · exact h
    · exact le_rfl
    · exact ih (by omega)

/-- There is no text between a position and itself. -/
lemma stripText_self (src : List Char) (c : Cursor) : stripText src c.pos c = [] := by
  have hnil : ∀ stop ≤ c.pos, (src.drop c.pos).take (stop - c.pos) = [] := by
    intro stop hstop
    rw [Nat.sub_eq_zero_of_le hstop, take_zero]
  unfold stripText
  simp only
  rw [hnil]
  · simp
  · split
    · exact lstripEnd_le _ _ _ _ le_rfl
    · exact le_rfl

/-- Text has a character at least. -/
lemma scanText_lt {src : List Char} (h : stripText src c.pos (scanText c.pos c.rest) ≠ []) :
    (scanText c.pos c.rest).rest.length < c.rest.length := by
  obtain ⟨m, -, hm, heq⟩ := (scanText_passed c.pos c.rest).1
  rcases m with _ | m
  · rw [show scanText c.pos c.rest = c from heq] at h
    exact absurd (stripText_self src c) h
  · have hle : m + 1 ≤ c.rest.length := hm
    rw [heq]
    change (c.rest.drop (m + 1)).length < c.rest.length
    rw [length_drop]
    omega

section

variable {more more' : Option TokenType → ℕ → Cursor → Except LexerException (List Token)}

lemma lexTag_congr (last : Option TokenType) (depth : ℕ) (c : Cursor)
    (h : ∀ last depth c', c'.rest.length < c.rest.length →
      more last depth c' = more' last depth c') :
    lexTag more last depth c = lexTag more' last depth c := by
  unfold lexTag
  rcases hstep : nextToken last depth c with e | _ | step
  · rfl
  · rfl
  · have hlen := (nextToken_spec hstep).passed.length_le
    change (more (some step.token.t) step.depth step.cur >>= fun tokens =>
      pure (step.token :: tokens)) = _
    rw [h _ _ _ (by omega)]
    rfl

lemma lexIteration_congr (src : List Char) (last : Option TokenType) (depth : ℕ) (c : Cursor)
    (h : ∀ last depth c', c'.rest.length < c.rest.length →
      more last depth c' = more' last depth c') :
    lexIteration src more last depth c = lexIteration src more' last depth c := by
  have hlen : (scanText c.pos c.rest).rest.length + 0 ≤ c.rest.length :=
    (scanText_passed c.pos c.rest).1.length_le
  simp only [lexIteration]
  split_ifs with hnil htext hne
  · rfl
  · rw [h _ _ _ (scanText_lt hne)]
  · exact lexTag_congr _ _ _ fun _ _ c' hc' => h _ _ c' (by omega)
  · exact lexTag_congr _ _ _ h

/-- **A bound that exceeds the number of characters makes no difference.** -/
theorem lexLoop_fuel (src : List Char) (n : ℕ) (last : Option TokenType) (depth : ℕ) (c : Cursor)
    (h : c.rest.length < n) :
    lexLoop src (n + 1) last depth c = lexLoop src n last depth c := by
  induction n generalizing last depth c with
  | zero => cases h
  | succ n ih =>
    exact lexIteration_congr src last depth c fun last depth c' hc' => ih last depth c' (by omega)

end

end Llama.Jinja
