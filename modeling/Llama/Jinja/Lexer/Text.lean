import Llama.Jinja.Lexer.Advance

/-!
# The text between the tags

The text tokens of a source are the raw segments between its tags, after the rules of the template
engine: before a block or a comment, the white space of its line is dropped when the block is the
first thing on that line; a newline is dropped after a block or a comment; a `-` drops the white
space at its side.

The first segment is an exception.  The scan back from the first tag stops at the first character
of the source without looking at it.  So a segment of one character that is followed by white space
of its line only is dropped whole, whatever that character is.
-/

namespace Llama.Jinja

open List Cursor

/-! ## The rules -/

/-- The raw segments between the tags, from the positions of the tokens of the tags: the first one
starts at `start`, unless that is in a tag. -/
def segments (size : ℕ) : Option ℕ → List Token → List (ℕ × ℕ)
  | none, [] => []
  | some start, [] => [(start, size)]
  | none, t :: ts => segments size (if closesTag t.t then some t.stop else none) ts
  | some start, t :: ts =>
    (start, t.pos) :: segments size (if closesTag t.t then some t.stop else none) ts

/-- The character does not end a line. -/
def inLine (c : Char) : Bool := c != '\n'

/-- The white space between the start of a line and the tag after it is dropped. -/
def dropIndent (isFirst : Bool) (raw : List Char) : List Char :=
  if (isFirst || raw.contains '\n') && (raw.rtakeWhile inLine).all isSpace
  then raw.rdropWhile inLine else raw

/-- A newline is dropped. -/
def dropNewline (text : List Char) : List Char :=
  if text.head? = some '\n' then text.tail else text

/-- A block or a comment opens. -/
def opensBlock (after : List Char) : Bool :=
  ['{', '%'].isPrefixOf after || ['{', '#'].isPrefixOf after

/-- A tag opens that has a `-`. -/
def opensDash (after : List Char) : Bool :=
  ['{', '%', '-'].isPrefixOf after || ['{', '#', '-'].isPrefixOf after ||
    ['{', '{', '-'].isPrefixOf after

/-- A block or a comment was closed. -/
def closesBlock (before : List Char) : Bool :=
  ['%', '}'].isSuffixOf before || ['#', '}'].isSuffixOf before

/-- A tag was closed that has a `-`. -/
def closesDash (before : List Char) : Bool :=
  ['-', '%', '}'].isSuffixOf before || ['-', '#', '}'].isSuffixOf before ||
    ['-', '}', '}'].isSuffixOf before

/-- A segment of the source after the rules. -/
def segmentText (src : List Char) (segment : ℕ × ℕ) : List Char :=
  let before := src.take segment.1
  let after := src.drop segment.2
  let text := (src.drop segment.1).take (segment.2 - segment.1)
  let text := if opensBlock after then dropIndent (segment.1 == 0) text else text
  let text := if closesBlock before then dropNewline text else text
  let text := if closesDash before then text.dropWhile isStripped else text
  if opensDash after then text.rdropWhile isStripped else text

/-- The texts of segments that are not empty. -/
def rendered (text : ℕ × ℕ → List Char) (segs : List (ℕ × ℕ)) : List String :=
  ((segs.map text).filter (· ≠ [])).map String.ofList

/-- The tokens of the tags. -/
def tagTokens (tokens : List Token) : List Token := tokens.filter fun t => t.t ≠ .text

/-- The texts of the text tokens. -/
def texts (tokens : List Token) : List String :=
  (tokens.filter fun t => t.t = .text).map Token.value

/-- The first segment is one character that is followed by white space of its line only, a block or
a comment follows, and the rules keep that character. -/
def losesFirst (src : List Char) : Bool :=
  let next := scanText 0 src
  match src.take next.pos with
  | [] => false
  | c :: line => line.all (fun d => isSpace d && inLine d) && opensBlock next.rest &&
      (!isSpace c || (c == '\n' && !opensDash next.rest))

section

variable {src raw line : List Char} {c : Char} {start stop : ℕ}

lemma getD_of_prefix (h : raw ++ [c] <+: src.drop start) :
    src.getD (start + raw.length) '\x00' = c := by
  obtain ⟨tail, htail⟩ := h
  have hget : (src.drop start)[raw.length]? = some c := by
    rw [← htail, append_assoc, getElem?_append_right le_rfl, Nat.sub_self]
    rfl
  rw [getElem?_drop] at hget
  rw [getD_eq_getElem?_getD, hget, Option.getD_some]

/-- The scan back from a block that is not the first thing in the source. -/
lemma lstripEnd_eq (stop : ℕ) (hstart : 0 < start) (h : raw <+: src.drop start) :
    lstripEnd src start stop (start + raw.length) =
      if raw.contains '\n' && (raw.rtakeWhile inLine).all isSpace
      then start + (raw.rdropWhile inLine).length else stop := by
  induction raw using reverseRecOn with
  | nil =>
    obtain ⟨start, rfl⟩ := Nat.exists_eq_succ_of_ne_zero hstart.ne'
    simp [lstripEnd]
  | append_singleton raw c ih =>
    have hc := getD_of_prefix h
    have hfront : raw <+: src.drop start := (prefix_append raw [c]).trans h
    rw [length_append, length_singleton, ← Nat.add_assoc, lstripEnd]
    simp only [hc]
    rw [if_neg (by omega), if_neg (by omega)]
    by_cases hline : c = '\n'
    · subst hline
      rw [if_pos rfl, rtakeWhile_concat_neg _ _ _ (by decide),
        rdropWhile_concat_neg _ _ _ (by decide)]
      simp [Nat.add_assoc]
    · have hin : inLine c = true := by simpa [inLine] using hline
      rw [if_neg hline, rtakeWhile_concat_pos _ _ _ hin, rdropWhile_concat_pos _ _ _ hin]
      by_cases hspace : isSpace c = true
      · rw [if_neg (by simp [hspace]), ih hfront]
        simp [hspace, Ne.symm hline]
      · simp [hspace]

/-- The scan back from a block whose segment is the first one. -/
lemma lstripEnd_first (h : c :: line <+: src) : lstripEnd src 0 stop (line.length + 1) =
      if line.all (fun d => isSpace d && inLine d) then 0
      else if line.contains '\n' && (line.rtakeWhile inLine).all isSpace
      then (line.rdropWhile inLine).length + 1 else stop := by
  induction line using reverseRecOn with
  | nil => simp [lstripEnd]
  | append_singleton line d ih =>
    have hd : src.getD (line.length + 1) '\x00' = d := by
      have hget : src.getD (0 + (c :: line).length) '\x00' = d := getD_of_prefix (by simpa using h)
      rwa [Nat.zero_add] at hget
    have hfront : c :: line <+: src :=
      (cons_prefix_cons.mpr ⟨rfl, prefix_append line [d]⟩).trans h
    rw [length_append, length_singleton, lstripEnd]
    simp only [hd]
    rw [if_neg (by omega), if_neg (by omega)]
    by_cases hline : d = '\n'
    · subst hline
      simp [inLine]
    · have hin : inLine d = true := by simpa [inLine] using hline
      rw [if_neg hline, rtakeWhile_concat_pos _ _ _ hin, rdropWhile_concat_pos _ _ _ hin]
      by_cases hspace : isSpace d = true
      · rw [if_neg (by simp [hspace]), ih hfront]
        simp [hspace, hin, Ne.symm hline]
      · simp [hspace]

end

/-! ## The places of the tags -/

/-- A tag was closed before a position. -/
structure AfterTag (src : List Char) (start : ℕ) : Prop where
  four_le : 4 ≤ start
  le : start ≤ src.length
  closed : ∃ before d, src.take start = before ++ [d, '}'] ∧ (d = '%' ∨ d = '}' ∨ d = '#')

/-- A tag opens at a cursor, or the source ends there. -/
def Cursor.AtTag (c : Cursor) : Prop := c.rest = [] ∨ c.opens = true

section

variable {src : List Char} {start : ℕ} {next : Cursor}

lemma opensBlock_iff (h : next.AtTag) :
    (next.cur = '{' ∧ next.nextPosIs ['%', '#', '-'] 1 = true) ↔ opensBlock next.rest = true := by
  rcases h with hnil | hopens
  · simp [cur, hnil, opensBlock]
  · obtain ⟨d, tail, hrest, hd⟩ := exists_of_opens hopens
    simp only [cur, nextPosIs, opensBlock, hrest]
    rcases hd with rfl | rfl | rfl
    · simp
    · simp
    · simp

lemma opensDash_iff (next : Cursor) :
    (next.cur = '{' ∧ next.nextPosIs ['{', '%', '#'] 1 = true ∧ next.nextPosIs ['-'] 2 = true) ↔
      opensDash next.rest = true := by
  obtain ⟨pos, rest⟩ := next
  rcases rest with _ | ⟨a, _ | ⟨b, _ | ⟨d, rest⟩⟩⟩
  · simp [nextPosIs, opensDash]
  · simp [nextPosIs, opensDash]
  · simp [nextPosIs, opensDash]
  · simp only [cur, nextPosIs, opensDash]
    grind

/-- The three characters before a position. -/
lemma AfterTag.chars (h : AfterTag src start) :
    ∃ before x d, src.take start = before ++ [x, d, '}'] ∧ (d = '%' ∨ d = '}' ∨ d = '#') ∧
      src.getD (start - 3) '\x00' = x ∧ src.getD (start - 2) '\x00' = d ∧
      src.getD (start - 1) '\x00' = '}' := by
  obtain ⟨before, d, htake, hd⟩ := h.closed
  have hlen : before.length + 2 = start := by
    have := congrArg List.length htake
    have hle := h.le
    simp only [length_take, length_append, length_cons, length_nil] at this
    omega
  have hget (i : ℕ) (hi : i < start) : src.getD i '\x00' = (before ++ [d, '}']).getD i '\x00' := by
    rw [← htake, getD_eq_getElem?_getD, getD_eq_getElem?_getD, getElem?_take, if_pos hi]
  rcases eq_nil_or_concat before with rfl | ⟨before, x, rfl⟩
  · have := h.four_le
    simp at hlen
    omega
  · rw [concat_eq_append, length_append, length_singleton] at hlen
    rw [concat_eq_append, append_assoc] at htake hget
    refine ⟨before, x, d, htake, hd, ?_, ?_, ?_⟩
    · rw [hget _ (by omega), show start - 3 = before.length by omega]
      simp
    · rw [hget _ (by omega), show start - 2 = before.length + 1 by omega]
      simp
    · rw [hget _ (by omega), show start - 1 = before.length + 2 by omega]
      simp

lemma closesBlock_iff (h : AfterTag src start) :
    (3 < start ∧ (src.getD (start - 2) '\x00' = '#' ∨ src.getD (start - 2) '\x00' = '%' ∨
        src.getD (start - 2) '\x00' = '-') ∧ src.getD (start - 1) '\x00' = '}') ↔
      closesBlock (src.take start) = true := by
  obtain ⟨before, x, d, htake, hd, -, h1, h2⟩ := h.chars
  rw [h1, h2, htake]
  have hthree : 3 < start := h.four_le
  simp only [closesBlock, isSuffixOf]
  rcases hd with rfl | rfl | rfl
  · simp [hthree]
  · simp
  · simp [hthree]

lemma closesDash_iff (h : AfterTag src start) :
    (3 < start ∧ src.getD (start - 3) '\x00' = '-' ∧ (src.getD (start - 2) '\x00' = '%' ∨
        src.getD (start - 2) '\x00' = '}' ∨ src.getD (start - 2) '\x00' = '#') ∧
        src.getD (start - 1) '\x00' = '}') ↔
      closesDash (src.take start) = true := by
  obtain ⟨before, x, d, htake, hd, h0, h1, h2⟩ := h.chars
  rw [h0, h1, h2, htake]
  have hthree : 3 < start := h.four_le
  simp only [closesDash, isSuffixOf]
  rcases hd with rfl | rfl | rfl
  · simpa [hthree] using eq_comm
  · simpa [hthree] using eq_comm
  · simpa [hthree] using eq_comm

/-- The text of a segment before the rules for the tags at its sides. -/
lemma indent_eq (hstart : AfterTag src start) (hnext : next.AtTag) (hin : next.In src)
    (hle : start ≤ next.pos) :
    (src.drop start).take ((if next.cur = '{' ∧ next.nextPosIs ['%', '#', '-'] 1 = true
        then lstripEnd src start next.pos next.pos else next.pos) - start) =
      if opensBlock (src.drop next.pos) = true
      then dropIndent (start == 0) ((src.drop start).take (next.pos - start))
      else (src.drop start).take (next.pos - start) := by
  have hfour := hstart.four_le
  have hfirst : (start == 0) = false := by simpa using (by omega : start ≠ 0)
  simp only [opensBlock_iff hnext, hin.2]
  split_ifs
  · have hlen : ((src.drop start).take (next.pos - start)).length = next.pos - start := by
      have := hin.1
      rw [length_take, length_drop]
      omega
    have hend := lstripEnd_eq next.pos (by omega : 0 < start)
      ( take_prefix (next.pos - start) (src.drop start))
    rw [hlen, Nat.add_sub_cancel' hle] at hend
    rw [hend, dropIndent, hfirst, Bool.false_or]
    split
    · have hfront := rdropWhile_prefix inLine ((src.drop start).take (next.pos - start))
      rw [Nat.add_sub_cancel_left]
      exact (prefix_iff_eq_take.mp
        (hfront.trans ( take_prefix _ _))).symm
    · rfl
  · rfl

/-- The text after a tag is what the rules make of its segment. -/
lemma stripText_eq (hstart : AfterTag src start) (hnext : next.AtTag) (hin : next.In src)
    (hle : start ≤ next.pos) : stripText src start next = segmentText src (start, next.pos) := by
  simp only [stripText, segmentText, indent_eq hstart hnext hin hle, closesBlock_iff hstart,
    closesDash_iff hstart, opensDash_iff, hin.2]
  simp only [dropNewline, ite_and]

end

/-! ## The first segment -/

section

variable {line : List Char} {c : Char}

/-- The last line of a segment that has other lines. -/
lemma rtakeWhile_cons_of_mem (c : Char) (h : '\n' ∈ line) :
    (c :: line).rtakeWhile inLine = line.rtakeWhile inLine ∧
      (c :: line).rdropWhile inLine = c :: line.rdropWhile inLine := by
  induction line using reverseRecOn with
  | nil => cases h
  | append_singleton line d ih =>
    rw [← cons_append]
    by_cases hd : inLine d = true
    · have hmem : '\n' ∈ line := by
        rcases mem_append.mp h with h | h
        · exact h
        · rw [← mem_singleton.mp h] at hd
          cases hd
      obtain ⟨htake, hdrop⟩ := ih hmem
      rw [rtakeWhile_concat_pos _ _ _ hd, rtakeWhile_concat_pos _ _ _ hd,
        rdropWhile_concat_pos _ _ _ hd, rdropWhile_concat_pos _ _ _ hd, htake, hdrop]
      exact ⟨rfl, rfl⟩
    · rw [rtakeWhile_concat_neg _ _ _ hd, rtakeWhile_concat_neg _ _ _ hd,
        rdropWhile_concat_neg _ _ _ hd, rdropWhile_concat_neg _ _ _ hd]
      exact ⟨rfl, rfl⟩

/-- The last line of a segment whose other characters are of one line. -/
lemma rtakeWhile_cons_of_not_mem (c : Char) (h : '\n' ∉ line) :
    (c :: line).rtakeWhile inLine = (if c = '\n' then line else c :: line) ∧
      (c :: line).rdropWhile inLine = if c = '\n' then [c] else [] := by
  induction line using reverseRecOn with
  | nil =>
    by_cases hc : c = '\n'
    · subst hc
      decide
    · have hin : inLine c = true := by simpa [inLine] using hc
      rw [← nil_append [c], rtakeWhile_concat_pos _ _ _ hin,
        rdropWhile_concat_pos _ _ _ hin, if_neg hc, if_neg hc]
      exact ⟨rfl, rfl⟩
  | append_singleton line d ih =>
    rw [mem_append, not_or] at h
    have hd : inLine d = true := by
      have hne : d ≠ '\n' := fun heq => h.2 (mem_singleton.mpr heq.symm)
      simpa [inLine] using hne
    obtain ⟨htake, hdrop⟩ := ih h.1
    rw [← cons_append, rtakeWhile_concat_pos _ _ _ hd, rdropWhile_concat_pos _ _ _ hd, htake, hdrop]
    refine ⟨?_, rfl⟩
    split_ifs
    · rfl
    · rfl

/-- What the scan back drops from the first segment. -/
lemma indent_first {src : List Char} (h : c :: line <+: src) :
    (c :: line).take (lstripEnd src 0 (line.length + 1) (line.length + 1)) =
      if line.all (fun d => isSpace d && inLine d) then [] else dropIndent true (c :: line) := by
  rw [lstripEnd_first h]
  split_ifs with hall hlast
  · rfl
  · rw [Bool.and_eq_true, contains_iff_mem] at hlast
    obtain ⟨htake, hdrop⟩ := rtakeWhile_cons_of_mem c hlast.1
    rw [dropIndent, htake, hdrop, Bool.true_or, Bool.true_and, if_pos hlast.2]
    rw [take_succ_cons, ← prefix_iff_eq_take.mp ( rdropWhile_prefix inLine line)]
  · have hlast' : ¬((c :: line).rtakeWhile inLine).all isSpace = true := by
      intro hspace
      by_cases hmem : '\n' ∈ line
      · rw [(rtakeWhile_cons_of_mem c hmem).1] at hspace
        exact hlast (by rw [contains_iff_mem.mpr hmem, Bool.true_and, hspace])
      · -- the line is white space
        rw [(rtakeWhile_cons_of_not_mem c hmem).1, all_eq_true] at hspace
        refine hall (all_eq_true.mpr fun d hd => ?_)
        have hne : d ≠ '\n' := fun heq => hmem (heq ▸ hd)
        have hin : d ∈ if c = '\n' then line else c :: line := by
          split_ifs
          · exact hd
          · exact mem_cons_of_mem _ hd
        simpa [inLine, hne] using hspace d hin
    rw [dropIndent, Bool.true_or, Bool.true_and, if_neg hlast']
    exact take_of_length_le (Nat.le_refl (c :: line).length)

end

section

variable {src : List Char}

/-- No tag was closed before the first segment. -/
lemma segmentText_zero (src : List Char) (stop : ℕ) : segmentText src (0, stop) =
      (if opensDash (src.drop stop) = true
        then (if opensBlock (src.drop stop) = true then dropIndent true (src.take stop)
          else src.take stop).rdropWhile isStripped
        else if opensBlock (src.drop stop) = true then dropIndent true (src.take stop)
          else src.take stop) :=
  rfl

/-- The first text. -/
lemma stripText_zero {next : Cursor} (hnext : next.AtTag) (hin : next.In src) :
    stripText src 0 next = (if opensDash (src.drop next.pos) = true
        then (src.take (if opensBlock (src.drop next.pos) = true
          then lstripEnd src 0 next.pos next.pos else next.pos)).rdropWhile isStripped
        else src.take (if opensBlock (src.drop next.pos) = true
          then lstripEnd src 0 next.pos next.pos else next.pos)) := by
  simp only [stripText, opensBlock_iff hnext, opensDash_iff, hin.2]
  simp

/-- What is kept of a character that is followed by white space of its line. -/
lemma dropIndent_first {c : Char} {line : List Char}
    (hline : line.all (fun d => isSpace d && inLine d) = true) :
    dropIndent true (c :: line) =
      if c = '\n' then [c] else if isSpace c = true then [] else c :: line := by
  have hmem : '\n' ∉ line := fun h => by simpa [inLine] using all_eq_true.mp hline _ h
  have hspace : line.all isSpace = true :=
    all_eq_true.mpr fun d hd => (Bool.and_eq_true_iff.mp (all_eq_true.mp hline d hd)).1
  obtain ⟨htake, hdrop⟩ := rtakeWhile_cons_of_not_mem c hmem
  rw [dropIndent, htake, hdrop, Bool.true_or, Bool.true_and]
  by_cases hc : c = '\n'
  · rw [if_pos hc, if_pos hc, if_pos hc, if_pos hspace]
  · rw [if_neg hc, if_neg hc, if_neg hc, all_cons, hspace, Bool.and_true]

/-- A character that is no white space is not stripped. -/
lemma rdropWhile_ne_nil {c : Char} {line : List Char} (hc : isSpace c = false) :
    (c :: line).rdropWhile isStripped ≠ [] := by
  intro hnil
  have hstrip := rdropWhile_eq_nil_iff.mp hnil c mem_cons_self
  simp only [isStripped, Bool.or_eq_true, beq_iff_eq] at hstrip
  rcases hstrip with ((rfl | rfl) | rfl) | rfl
  · cases hc
  · cases hc
  · cases hc
  · cases hc

/-- What the rules keep of a first segment that the scan back drops. -/
lemma segmentText_first {c : Char} {line : List Char} {stop : ℕ}
    (hraw : src.take stop = c :: line)
    (hline : line.all (fun d => isSpace d && inLine d) = true)
    (hblock : opensBlock (src.drop stop) = true) :
    segmentText src (0, stop) ≠ [] ↔
      (!isSpace c || (c == '\n' && !opensDash (src.drop stop))) = true := by
  rw [segmentText_zero, hraw, if_pos hblock, dropIndent_first hline]
  by_cases hc : c = '\n'
  · subst hc
    rw [if_pos rfl]
    cases opensDash (src.drop stop)
    · decide
    · decide
  · rw [if_neg hc]
    cases hcs : isSpace c
    · cases opensDash (src.drop stop)
      · simp
      · simpa using rdropWhile_ne_nil hcs
    · simp [hc]

/-- **The first text is what the rules make of the first segment, unless that is lost.** -/
theorem stripText_first {next : Cursor} (hnext : next = scanText 0 src) (hin : next.In src)
    (hat : next.AtTag) :
    (losesFirst src = false → stripText src 0 next = segmentText src (0, next.pos)) ∧
      (losesFirst src = true → stripText src 0 next = [] ∧ segmentText src (0, next.pos) ≠ []) := by
  rw [losesFirst, ← hnext, hin.2]
  rcases hraw : src.take next.pos with _ | ⟨c, line⟩
  · rw [segmentText_zero, stripText_zero hat hin, hraw]
    have hnil : ∀ stop ≤ next.pos, src.take stop = [] := by
      intro stop hstop
      rw [← Nat.min_eq_left hstop, ← take_take, hraw, take_nil]
    rw [hnil]
    · simp [dropIndent]
    · split
      · exact lstripEnd_le _ _ _ _ le_rfl
      · exact le_rfl
  · have hpos : next.pos = line.length + 1 := by
      have := congrArg List.length hraw
      rwa [length_take, Nat.min_eq_left hin.1] at this
    have hfront : c :: line <+: src := hraw ▸ take_prefix next.pos src
    have hindent : src.take (lstripEnd src 0 next.pos next.pos) =
        if line.all (fun d => isSpace d && inLine d) then [] else dropIndent true (c :: line) := by
      rw [← indent_first hfront, ← hraw, take_take, ← hpos,
        Nat.min_eq_left (lstripEnd_le _ _ _ _ le_rfl)]
    simp only
    cases hblock : opensBlock (src.drop next.pos)
    · refine ⟨fun _ => ?_, fun h => (by simp at h)⟩
      simp only [segmentText_zero, stripText_zero hat hin, hraw, hblock, Bool.false_eq_true,
        if_false]
    · by_cases hline : line.all (fun d => isSpace d && inLine d) = true
      · have hkeep := segmentText_first hraw hline hblock
        rw [if_pos hline] at hindent
        rw [hline, Bool.true_and, Bool.true_and]
        have hnil : stripText src 0 next = [] := by
          simp only [stripText_zero hat hin, hblock, if_true, hindent]
          simp
        refine ⟨fun h => ?_, fun h => ⟨hnil, hkeep.mpr h⟩⟩
        rw [h] at hkeep
        rw [hnil]
        by_contra hne
        cases hkeep.mp (Ne.symm hne)
      · rw [if_neg hline] at hindent
        refine ⟨fun _ => ?_, fun h => ?_⟩
        · simp only [segmentText_zero, stripText_zero hat hin, hraw, hblock, if_true, hindent]
        · rw [Bool.and_eq_true, Bool.and_eq_true] at h
          exact absurd h.1.1 hline

end

/-! ## The tokens of the loop -/

section

variable {src : List Char} {t : Token} {ts : List Token}

lemma texts_cons_tag (h : t.t ≠ .text) : texts (t :: ts) = texts ts := by
  simp [texts, h]

lemma tagTokens_cons_tag (h : t.t ≠ .text) : tagTokens (t :: ts) = t :: tagTokens ts := by
  simp [tagTokens, h]

lemma texts_cons_text (value : String) (pos : ℕ) :
    texts (⟨.text, value, pos⟩ :: ts) = value :: texts ts := by
  simp [texts]

lemma tagTokens_cons_text (value : String) (pos : ℕ) :
    tagTokens (⟨.text, value, pos⟩ :: ts) = tagTokens ts := by
  simp [tagTokens]

/-- A text, unless it is empty. -/
def shown (text : List Char) : List String := if text = [] then [] else [String.ofList text]

lemma rendered_cons (f : ℕ × ℕ → List Char) (segment : ℕ × ℕ) (segs : List (ℕ × ℕ)) :
    rendered f (segment :: segs) = shown (f segment) ++ rendered f segs := by
  by_cases h : f segment = []
  · simp [rendered, shown, h]
  · simp [rendered, shown, h]

variable {c : Cursor} {depth : ℕ} {last : Option TokenType} {tokens : List Token}

/-- A cursor after a tag. -/
lemma Cursor.Closed.afterTag {c' : Cursor} (hin : c.In src) (h : c.Closed c')
    (hfour : 4 ≤ c'.pos) : AfterTag src c'.pos := by
  obtain ⟨m, d, tail, hm, hrest, hd, rfl⟩ := h
  obtain ⟨hpos, hsrc⟩ := hin
  rw [hsrc, drop_drop] at hrest
  have hlen := congrArg List.length hrest
  simp only [length_drop, length_cons] at hlen
  refine ⟨hfour, ?_, src.take (c.pos + m), d, ?_, hd⟩
  · simp only [Cursor.skip]
    omega
  · simp only [Cursor.skip]
    rw [take_add, hrest]
    rfl

lemma Cursor.In.pos_of_nil (hin : c.In src) (h : c.rest = []) : c.pos = src.length := by
  obtain ⟨hpos, hrest⟩ := hin
  rw [h] at hrest
  exact Nat.le_antisymm hpos (drop_eq_nil_iff.mp hrest.symm)

/-- What holds of the tokens after a text. -/
def TextEnds (src : List Char) (c : Cursor) (tokens : List Token) : Prop :=
  ∀ start, ∃ segs, segments src.length (some start) (tagTokens tokens) = (start, c.pos) :: segs ∧
    texts tokens = rendered (segmentText src) segs

/-- What holds of the tokens from a cursor on, depending on the token before it. -/
structure Splits (src : List Char) (last : Option TokenType) (c : Cursor) (tokens : List Token) :
    Prop where
  outside : closesTag (last.getD .closeStatement) = true → AfterTag src c.pos →
    texts tokens = rendered (segmentText src) (segments src.length (some c.pos) (tagTokens tokens))
  text : last = some .text → c.AtTag → TextEnds src c tokens
  inside : closesTag (last.getD .closeStatement) = false → last ≠ some .text → 2 ≤ c.pos →
    texts tokens = rendered (segmentText src) (segments src.length none (tagTokens tokens))

variable {more : Option TokenType → ℕ → Cursor → Except LexerException (List Token)}

/-- The tokens after a token of a tag. -/
lemma step_splits {step : LexStep} (hin : c.In src)
    (hstep : nextToken last depth c = .ok (some step)) (hpos : 2 ≤ step.cur.pos)
    (hfour : closesTag step.token.t = true → 4 ≤ step.cur.pos)
    (h : Splits src (some step.token.t) step.cur tokens) :
    texts tokens = rendered (segmentText src) (segments src.length
      (if closesTag step.token.t = true then some step.token.stop else none) (tagTokens tokens)) := by
  have htakes := nextToken_spec hstep
  cases hcloses : closesTag step.token.t
  · exact h.inside hcloses (fun heq => htakes.notText (Option.some.inj heq)) hpos
  · have hafter : AfterTag src step.cur.pos :=
      (htakes.closed hcloses).afterTag hin (hfour hcloses)
    rw [← (htakes.stop hcloses).1]
    exact h.outside hcloses hafter

/-- Only a comment is a tag of one token. -/
lemma comment_of_opens_closes {t : TokenType} (hopen : opensTag t = true)
    (hcloses : closesTag t = true) : t = .comment := by
  cases t <;> simp_all [opensTag, closesTag]

section

variable (hmore : ∀ last depth c tokens, c.In src → more last depth c = .ok tokens → Splits src last c tokens)

include hmore

/-- The tokens from a tag on. -/
lemma lexTag_ends (hin : c.In src) (hat : c.AtTag)
    (h : lexTag more last depth c = .ok tokens) : TextEnds src c tokens := by
  obtain ⟨step, hstep, h⟩ := except_bind_eq_ok.mp h
  rcases hat with hnil | hopens
  · -- the source ends here
    rw [nextToken_nil hnil] at hstep
    cases hstep
    cases h
    exact fun start => ⟨[], by rw [hin.pos_of_nil hnil]; rfl, rfl⟩
  · obtain ⟨step, rfl, hpos, hopen, htwo⟩ := nextToken_opens hopens hstep
    obtain ⟨rest, hrest, h⟩ := except_bind_eq_ok.mp h
    cases h
    have htakes := nextToken_spec hstep
    have hsplits := hmore _ _ _ _ (hin.passed htakes.passed) hrest
    have hfour : closesTag step.token.t = true → 4 ≤ step.cur.pos := by
      intro hcloses
      have hcomment : step.token.t = .comment := comment_of_opens_closes hopen hcloses
      rw [(htakes.stop hcloses).1, Token.stop, if_pos hcomment]
      exact Nat.le_add_left _ _
    refine fun start => ⟨segments src.length
      (if closesTag step.token.t = true then some step.token.stop else none) (tagTokens rest),
        ?_, ?_⟩
    · rw [tagTokens_cons_tag htakes.notText, segments, hpos]
    · rw [texts_cons_tag htakes.notText]
      exact step_splits hin hstep (by omega) hfour hsplits

/-- The tokens from a place inside of a tag on. -/
lemma lexTag_inside (hin : c.In src) (hpos : 2 ≤ c.pos)
    (h : lexTag more last depth c = .ok tokens) :
    texts tokens = rendered (segmentText src) (segments src.length none (tagTokens tokens)) := by
  obtain ⟨step, hstep, h⟩ := except_bind_eq_ok.mp h
  rcases step with _ | step
  · cases h
    rfl
  · obtain ⟨rest, hrest, h⟩ := except_bind_eq_ok.mp h
    cases h
    have htakes := nextToken_spec hstep
    have hsplits := hmore _ _ _ _ (hin.passed htakes.passed) hrest
    rw [texts_cons_tag htakes.notText, tagTokens_cons_tag htakes.notText]
    refine step_splits hin hstep ?_ (fun hcloses => ?_) hsplits
    · exact (hpos.trans (Nat.le_add_right _ _)).trans htakes.passed.pos_le
    · have hle := htakes.pos
      have htwo := (htakes.stop hcloses).2
      omega

/-- The tokens of an iteration outside of tags. -/
lemma lexIteration_outside
    (hin : c.In src)
    (hclosed : closesTag (last.getD .closeStatement) = true)
    (h : lexIteration src more last depth c = .ok tokens) :
    ∃ segs, segments src.length (some c.pos) (tagTokens tokens) =
        (c.pos, (scanText c.pos c.rest).pos) :: segs ∧
      texts tokens =
        shown (stripText src c.pos (scanText c.pos c.rest)) ++ rendered (segmentText src) segs := by
  obtain ⟨hpass, hat⟩ := scanText_passed c.pos c.rest
  have hnext : Cursor.In src (scanText c.pos c.rest) := hin.passed (c := c) hpass
  simp only [lexIteration] at h
  split_ifs at h with hnil htext
  · cases h
    have hself : scanText c.pos c.rest = c := by
      obtain ⟨pos, rest⟩ := c
      obtain rfl : rest = [] := hnil
      rfl
    refine ⟨[], ?_, ?_⟩
    · rw [hself, hin.pos_of_nil hnil]
      rfl
    · rw [hself, stripText_self]
      rfl
  · obtain ⟨rest, hrest, h⟩ := except_bind_eq_ok.mp h
    cases h
    obtain ⟨segs, hsegs, htexts⟩ := (hmore _ _ _ _ hnext hrest).text rfl hat c.pos
    refine ⟨segs, ?_, ?_⟩
    · rw [tagTokens_cons_text, hsegs]
    · rw [texts_cons_text, htexts, shown, if_neg htext]
      rfl
  · obtain ⟨segs, hsegs, htexts⟩ := lexTag_ends hmore hnext hat h c.pos
    refine ⟨segs, hsegs, ?_⟩
    rw [htexts, shown, if_pos (not_not.mp htext)]
    rfl

/-- The tokens of an iteration. -/
lemma lexIteration_splits
    (hin : c.In src)
    (h : lexIteration src more last depth c = .ok tokens) :
    Splits src last c tokens where
  outside hclosed hafter := by
    obtain ⟨segs, hsegs, htexts⟩ := lexIteration_outside hmore hin hclosed h
    obtain ⟨hpass, hat⟩ := scanText_passed c.pos c.rest
    have hle : c.pos ≤ (scanText c.pos c.rest).pos := hpass.pos_le
    rw [hsegs, rendered_cons, htexts, stripText_eq hafter hat (hin.passed (c := c) hpass) hle]
  text hlast hat := by
    have hclosed : closesTag (last.getD .closeStatement) = false := by
      rw [hlast]
      rfl
    simp only [lexIteration, hclosed, Bool.false_eq_true, if_false] at h
    split_ifs at h with hnil
    · cases h
      exact fun start => ⟨[], by rw [hin.pos_of_nil hnil]; rfl, rfl⟩
    · exact lexTag_ends hmore hin hat h
  inside hclosed hlast hpos := by
    simp only [lexIteration, hclosed, Bool.false_eq_true, if_false] at h
    split_ifs at h with hnil
    · cases h
      rfl
    · exact lexTag_inside hmore hin hpos h

end

/-- **The tokens of the loop.** -/
theorem lexLoop_splits (n : ℕ) (hin : c.In src) (h : lexLoop src n last depth c = .ok tokens) :
    Splits src last c tokens := by
  induction n generalizing last depth c tokens with
  | zero => cases h
  | succ n ih => exact lexIteration_splits (fun _ _ _ _ hin h => ih hin h) hin h

end

/-- **The text tokens are the raw segments after the rules exactly when the first segment is not
lost.** -/
theorem texts_eq_iff {source src : List Char} {tokens : List Token}
    (h : tokenize source = .ok (tokens, src)) :
    texts tokens = rendered (segmentText (normalize source))
        (segments (normalize source).length (some 0) (tagTokens tokens)) ↔
      losesFirst (normalize source) = false := by
  unfold tokenize at h
  split_ifs at h with hnil
  · cases h
    subst hnil
    decide
  · obtain ⟨ts, hloop, h⟩ := except_bind_eq_ok.mp h
    cases h
    have hin : Cursor.In (normalize source) ⟨0, normalize source⟩ := ⟨Nat.zero_le _, rfl⟩
    obtain ⟨hpass, hat⟩ := scanText_passed 0 (normalize source)
    obtain ⟨segs, hsegs, htexts⟩ :=
      lexIteration_outside (fun _ _ _ _ hin h => lexLoop_splits _ hin h) hin rfl hloop
    obtain ⟨hkeeps, hloses⟩ := stripText_first rfl (hin.passed hpass) hat
    rw [hsegs, rendered_cons, htexts]
    cases hlost : losesFirst (normalize source)
    · rw [hkeeps hlost]
      exact ⟨fun _ => rfl, fun _ => rfl⟩
    · obtain ⟨hempty, hne⟩ := hloses hlost
      simp [hempty, shown, hne]

/-- A source with a line that is a block. -/
def lineSource : List Char := "a\n  \x7b% b %\x7d\nc".toList

/-- The tokens of `lineSource`. -/
def lineTokens : List Token :=
  [⟨.text, "a\n", 0⟩, ⟨.openStatement, "\x7b%", 4⟩, ⟨.identifier, "b", 7⟩,
    ⟨.closeStatement, "%\x7d", 9⟩, ⟨.text, "c", 11⟩]

lemma tokenize_lineSource : tokenize lineSource = .ok (lineTokens, lineSource) := by
  decide +kernel

theorem texts_eq_iff_lineSource : texts lineTokens = rendered (segmentText (normalize lineSource))
      (segments (normalize lineSource).length (some 0) (tagTokens lineTokens)) :=
  (texts_eq_iff tokenize_lineSource).mpr (by decide +kernel)

/-- A source whose first segment is one character: the text is lost. -/
theorem texts_ne_segments :
    ¬∀ (source src : List Char) (tokens : List Token), tokenize source = .ok (tokens, src) →
      texts tokens = rendered (segmentText (normalize source))
        (segments (normalize source).length (some 0) (tagTokens tokens)) := by
  intro h
  have htexts := h "x\x7b% b %\x7d".toList "x\x7b% b %\x7d".toList
    [⟨.openStatement, "\x7b%", 1⟩, ⟨.identifier, "b", 4⟩, ⟨.closeStatement, "%\x7d", 6⟩]
  revert htexts
  decide +kernel

end Llama.Jinja
