import Llama.Grammar.Language
import Llama.Grammar.Repetitions
import Llama.Lib.Copies

/-!
# What the text of a grammar says

The language of a rule can be read off its text: a literal is one word, a class is a set of
characters, a repetition stands for copies of the item before it, a sequence is a product and
alternates are a sum.  `Reads` says so for the text from one position to another, where the
languages of the other rules are given.  The text of characters, names and bounds is read by the
parser's own functions; that the rules which the parser makes have these languages is shown in
`Llama.Grammar.Expansion` and `Llama.Grammar.Meaning`.
-/

namespace Llama.Gbnf

/-- Sets of texts, as code points. -/
abbrev TextSet := Language ℕ

open Cfg GrammarParser Copies

/-! ## Items -/

/-- The texts of one character that a symbol accepts. -/
def charSet (s : Sym) : TextSet := {w | ∃ c, w = [c] ∧ s.accepts c = true}

/-- The characters of a literal, up to the quote. -/
inductive LiteralText : List Char → List ℕ → List Char → Prop
  | done {pos} (hpos : peek pos = '"') : LiteralText pos [] pos
  | char {pos pos1 pos2 c cs} (hquote : peek pos ≠ '"') (hend : peek pos ≠ '\x00')
      (hchar : parseChar pos = .ok (c, pos1)) (hrest : LiteralText pos1 cs pos2) :
      LiteralText pos (c :: cs) pos2

/-- A range follows. -/
def rangeFollows (pos : List Char) : Bool := peek pos = '-' && peek pos.tail ≠ ']'

/-- The ranges of a class, up to the bracket. -/
inductive RangesText : List Char → List CharRange → List Char → Prop
  | done {pos} (hpos : peek pos = ']') : RangesText pos [] pos
  | one {pos pos1 pos2 low rs} (hclose : peek pos ≠ ']') (hend : peek pos ≠ '\x00')
      (hlow : parseChar pos = .ok (low, pos1)) (hno : rangeFollows pos1 = false)
      (hrest : RangesText pos1 rs pos2) : RangesText pos (⟨low, none⟩ :: rs) pos2
  | range {pos pos1 pos2 pos3 low high rs} (hclose : peek pos ≠ ']') (hend : peek pos ≠ '\x00')
      (hlow : parseChar pos = .ok (low, pos1)) (hyes : rangeFollows pos1 = true)
      (hend' : peek pos1.tail ≠ '\x00') (hhigh : parseChar pos1.tail = .ok (high, pos2))
      (hrest : RangesText pos2 rs pos3) : RangesText pos (⟨low, some high⟩ :: rs) pos3

/-- Whether a class is inverted, and where its ranges start. -/
def classStart (pos : List Char) : Bool × List Char :=
  if peek pos.tail = '^' then (true, pos.tail.tail) else (false, pos.tail)

/-- The symbols of a class; an empty one has none. -/
def classSyms (inverse : Bool) : List CharRange → List Sym
  | [] => []
  | r :: rs => [.chars inverse r rs]

/-- The texts of a class; those of an empty one are the empty text. -/
def classSet (inverse : Bool) : List CharRange → TextSet
  | [] => 1
  | r :: rs => charSet (.chars inverse r rs)

/-- The position of a token. -/
def tokenStart (pos : List Char) : List Char := if peek pos = '!' then pos.tail else pos

/-- Whether a character starts a repetition. -/
def isOperator (c : Char) : Bool := c = '*' || c = '+' || c = '?' || c = '\x7b'

/-- The bounds of a repetition, and the position behind it. -/
def readOperator (isNested : Bool) (pos : List Char) : Option (ℕ × ℕ × List Char) :=
  if peek pos = '*' then some (0, uint64Max, skipSpace isNested pos.tail)
  else if peek pos = '+' then some (1, uint64Max, skipSpace isNested pos.tail)
  else if peek pos = '?' then some (0, 1, skipSpace isNested pos.tail)
  else if peek pos = '\x7b' then (parseBounds isNested (skipSpace isNested pos.tail)).toOption
  else none

/-- The greatest number of copies, as the number of optional ones that the parser counts. -/
def upper (minTimes maxTimes : ℕ) : Option ℕ :=
  if maxTimes = uint64Max then none else some (minTimes + nOpt minTimes maxTimes)

/-- With the bounds in order the upper one is the greatest number of copies. -/
lemma upper_of_le {minTimes maxTimes : ℕ} (hle : minTimes ≤ maxTimes)
    (hmax : maxTimes ≤ uint64Max) :
    upper minTimes maxTimes = if maxTimes = uint64Max then none else some maxTimes := by
  have hpow : uint64Max < 2 ^ 64 := by decide
  rw [upper, nOpt]
  split
  · rfl
  · have hsum : maxTimes + 2 ^ 64 - minTimes = (maxTimes - minTimes) + 2 ^ 64 := by omega
    rw [hsum, Nat.add_mod_right, Nat.mod_eq_of_lt (by omega), Nat.add_sub_cancel' hle]

/-- Whether a character starts an item. -/
def startsItem (c : Char) : Bool :=
  c = '"' || c = '[' || c = '<' || c = '!' || isWordChar c || c = '(' || c = '.'

/-- What is read: an item, the repetitions behind an item with a language, a sequence, or
alternates. -/
inductive Phase
  | item
  | repeats (L : TextSet)
  | sequence
  | alternates

variable (vocab : Option (List Char → Option ℕ)) (ρ : List Char → TextSet)

/-- The language of the text between two positions, in which the rules have the languages `ρ`. -/
inductive Reads : Phase → Bool → List Char → TextSet → List Char → Prop
  | literal {b pos cs pos1} (hpos : peek pos = '"') (hcs : LiteralText pos.tail cs pos1) :
      Reads .item b pos {cs} (skipSpace b pos1.tail)
  | range {b pos rs pos1} (hpos : peek pos = '[') (hrs : RangesText (classStart pos).2 rs pos1) :
      Reads .item b pos (classSet (classStart pos).1 rs) (skipSpace b pos1.tail)
  | token {b pos id pos1} (hpos : peek pos = '<' ∨ peek pos = '!')
      (hid : parseToken vocab (tokenStart pos) = .ok (id, pos1)) :
      Reads .item b pos 0 (skipSpace b pos1)
  | name {b pos name pos1} (hpos : isWordChar (peek pos) = true)
      (hname : parseName pos = .ok (name, pos1)) :
      Reads .item b pos (ρ name) (skipSpace b pos1)
  | group {b pos L pos1} (hpos : peek pos = '(')
      (hsub : Reads .alternates true (skipSpace true pos.tail) L pos1) (hend : peek pos1 = ')') :
      Reads .item b pos L (skipSpace b pos1.tail)
  | any {b pos} (hpos : peek pos = '.') : Reads .item b pos (charSet .any) (skipSpace b pos.tail)
  | noRepeat {b pos L} (hpos : isOperator (peek pos) = false) : Reads (.repeats L) b pos L pos
  | again {b pos L m n pos1 L' pos2} (hop : readOperator b pos = some (m, n, pos1))
      (hrest : Reads (.repeats (copies L m (upper m n))) b pos1 L' pos2) :
      Reads (.repeats L) b pos L' pos2
  | empty {b pos} (hpos : startsItem (peek pos) = false) (hop : isOperator (peek pos) = false) :
      Reads .sequence b pos 1 pos
  | cons {b pos L pos1 L' pos2 M pos3} (hitem : Reads .item b pos L pos1)
      (hrep : Reads (.repeats L) b pos1 L' pos2) (hrest : Reads .sequence b pos2 M pos3) :
      Reads .sequence b pos (L' * M) pos3
  | last {b pos L pos1} (hseq : Reads .sequence b pos L pos1) (hno : peek pos1 ≠ '|') :
      Reads .alternates b pos L pos1
  | more {b pos L pos1 M pos2} (hseq : Reads .sequence b pos L pos1) (hbar : peek pos1 = '|')
      (hrest : Reads .alternates b (skipSpace true pos1.tail) M pos2) :
      Reads .alternates b pos (L + M) pos2

variable {pos pos1 : List Char}

lemma LiteralText.unique {pos2 : List Char} {cs ds : List ℕ} (h : LiteralText pos cs pos1) :
    LiteralText pos ds pos2 → cs = ds ∧ pos1 = pos2 := by
  induction h generalizing ds with
  | done hpos =>
    intro h'
    cases h' with
    | done _ => exact ⟨rfl, rfl⟩
    | char hquote _ _ _ => exact absurd hpos hquote
  | char hquote _ hchar _ ih =>
    intro h'
    cases h' with
    | done hpos => exact absurd hpos hquote
    | char _ _ hchar' hrest' =>
      rw [hchar] at hchar'
      cases hchar'
      obtain ⟨rfl, rfl⟩ := ih hrest'
      exact ⟨rfl, rfl⟩

lemma RangesText.unique {pos2 : List Char} {rs rs' : List CharRange}
    (h : RangesText pos rs pos1) : RangesText pos rs' pos2 → rs = rs' ∧ pos1 = pos2 := by
  induction h generalizing rs' with
  | done hpos =>
    intro h'
    cases h' with
    | done _ => exact ⟨rfl, rfl⟩
    | one hclose => exact absurd hpos hclose
    | range hclose => exact absurd hpos hclose
  | one hclose _ hlow hno _ ih =>
    intro h'
    cases h' with
    | done hpos => exact absurd hpos hclose
    | one _ _ hlow' _ hrest' =>
      rw [hlow] at hlow'
      cases hlow'
      obtain ⟨rfl, rfl⟩ := ih hrest'
      exact ⟨rfl, rfl⟩
    | range _ _ hlow' hyes' =>
      rw [hlow] at hlow'
      cases hlow'
      rw [hno] at hyes'
      cases hyes'
  | range hclose _ hlow hyes _ hhigh _ ih =>
    intro h'
    cases h' with
    | done hpos => exact absurd hpos hclose
    | one _ _ hlow' hno' _ =>
      rw [hlow] at hlow'
      cases hlow'
      rw [hyes] at hno'
      cases hno'
    | range _ _ hlow' _ _ hhigh' hrest' =>
      rw [hlow] at hlow'
      cases hlow'
      rw [hhigh] at hhigh'
      cases hhigh'
      obtain ⟨rfl, rfl⟩ := ih hrest'
      exact ⟨rfl, rfl⟩

lemma isOperator_of_readOperator {isNested : Bool} {m n : ℕ}
    (h : readOperator isNested pos = some (m, n, pos1)) : isOperator (peek pos) = true := by
  rw [readOperator] at h
  split_ifs at h with h1 h2 h3 h4
  · rw [h1]; rfl
  · rw [h2]; rfl
  · rw [h3]; rfl
  · rw [h4]; rfl

variable {vocab ρ}

lemma Reads.startsItem {phase : Phase} {b : Bool} {L : TextSet}
    (h : Reads vocab ρ phase b pos L pos1) (hphase : phase = .item) :
    Gbnf.startsItem (peek pos) = true := by
  cases h with
  | literal hpos => rw [hpos]; rfl
  | range hpos => rw [hpos]; rfl
  | token hpos => rcases hpos with hpos | hpos <;> rw [hpos] <;> rfl
  | name hpos => simp [Gbnf.startsItem, hpos]
  | group hpos => rw [hpos]; rfl
  | any hpos => rw [hpos]; rfl
  | _ => cases hphase

/-- **A text has one language**, and is read up to one position. -/
theorem Reads.unique {phase : Phase} {b : Bool} {pos2 : List Char} {L M : TextSet}
    (h : Reads vocab ρ phase b pos L pos1) :
    Reads vocab ρ phase b pos M pos2 → L = M ∧ pos1 = pos2 := by
  induction h generalizing M pos2 with
  | literal hpos hcs =>
    intro h'
    cases h' with
    | literal _ hcs' =>
      obtain ⟨rfl, rfl⟩ := hcs.unique hcs'
      exact ⟨rfl, rfl⟩
    | _ => simp_all [isWordChar, isDigitChar]
  | range hpos hrs =>
    intro h'
    cases h' with
    | range _ hrs' =>
      obtain ⟨rfl, rfl⟩ := hrs.unique hrs'
      exact ⟨rfl, rfl⟩
    | _ => simp_all [isWordChar, isDigitChar]
  | token hpos hid =>
    intro h'
    cases h' with
    | _ => rcases hpos with hpos | hpos <;> simp_all [isWordChar, isDigitChar]
  | name hpos hname =>
    intro h'
    cases h' with
    | token hpos' _ => rcases hpos' with hpos' | hpos' <;> simp_all [isWordChar, isDigitChar]
    | _ => simp_all [isWordChar, isDigitChar]
  | group hpos _ _ ih =>
    intro h'
    cases h' with
    | group _ hsub' _ =>
      obtain ⟨rfl, rfl⟩ := ih hsub'
      exact ⟨rfl, rfl⟩
    | _ => simp_all [isWordChar, isDigitChar]
  | any hpos =>
    intro h'
    cases h' with
    | _ => simp_all [isWordChar, isDigitChar]
  | noRepeat hpos =>
    intro h'
    cases h' with
    | noRepeat _ => exact ⟨rfl, rfl⟩
    | again hop _ =>
      rw [isOperator_of_readOperator hop] at hpos
      cases hpos
  | again hop _ ih =>
    intro h'
    cases h' with
    | noRepeat hpos =>
      rw [isOperator_of_readOperator hop] at hpos
      cases hpos
    | again hop' hrest' =>
      rw [hop] at hop'
      cases hop'
      exact ih hrest'
  | empty hpos _ =>
    intro h'
    cases h' with
    | empty _ _ => exact ⟨rfl, rfl⟩
    | cons hitem _ _ =>
      rw [hitem.startsItem rfl] at hpos
      cases hpos
  | cons hitem _ _ ih1 ih2 ih3 =>
    intro h'
    cases h' with
    | empty hpos _ =>
      rw [hitem.startsItem rfl] at hpos
      cases hpos
    | cons hitem' hrep' hrest' =>
      obtain ⟨rfl, rfl⟩ := ih1 hitem'
      obtain ⟨rfl, rfl⟩ := ih2 hrep'
      obtain ⟨rfl, rfl⟩ := ih3 hrest'
      exact ⟨rfl, rfl⟩
  | last _ hno ih =>
    intro h'
    cases h' with
    | last hseq' _ => exact ih hseq'
    | more hseq' hbar' _ =>
      obtain ⟨-, rfl⟩ := ih hseq'
      exact absurd hbar' hno
  | more _ hbar _ ih1 ih2 =>
    intro h'
    cases h' with
    | last hseq' hno' =>
      obtain ⟨-, rfl⟩ := ih1 hseq'
      exact absurd hbar hno'
    | more hseq' _ hrest' =>
      obtain ⟨rfl, rfl⟩ := ih1 hseq'
      obtain ⟨rfl, rfl⟩ := ih2 hrest'
      exact ⟨rfl, rfl⟩

end Llama.Gbnf
