import Llama.Grammar.Writing

/-!
# The grammar of the strings that are none of some

`_not_strings` puts the strings into a trie and writes a grammar that leaves the trie somewhere: with
another character than those of the children, or behind a leaf.  It cannot stop inside the trie, so
that the beginnings of the strings are not in its language either.
-/

namespace Llama
namespace Schema

open Cfg Gbnf GrammarParser Copies List

variable {vocab : Option (List Char → Option ℕ)} {ρ : List Char → TextSet} {b : Bool}

/-! ## The characters of a string -/

/-- The primitive rule `char`. -/
def charText : List Char :=
  "[^\"\\\\\\x7F\\x00-\\x1F] | [\\\\] ([\"\\\\bfnrt] | \"u\" [0-9a-fA-F]\x7b4\x7d)".toList

/-- Code points that stand for themselves in a string. -/
def Unescaped (c : ℕ) : Prop := c ≠ 34 ∧ c ≠ 92 ∧ c ≠ 127 ∧ 31 < c

/-- Code points of hexadecimal digits. -/
def IsHex (c : ℕ) : Prop := 48 ≤ c ∧ c ≤ 57 ∨ 97 ≤ c ∧ c ≤ 102 ∨ 65 ≤ c ∧ c ≤ 70

/-- The texts of one character of a string. -/
def charLanguage : TextSet :=
  oneOf Unescaped + oneOf (· = 92) *
    (oneOf (· ∈ codes "\"\\bfnrt".toList) + {codes ['u']} * copies (oneOf IsHex) 4 (some 4))

lemma single_of_mem {c : Char} (h : c ∈ ['0', '9', 'a', 'f', 'A', 'F', '"', 'b', 'n', 'r', 't']) :
    Single c := by
  simp only [mem_cons, not_mem_nil, or_false] at h
  rcases h with rfl | rfl | rfl | rfl | rfl | rfl | rfl | rfl | rfl | rfl | rfl <;>
    exact ⟨⟨by decide, by decide, by decide⟩, by decide, by decide⟩

lemma itemText_hex : ItemText vocab ρ b "[0-9a-fA-F]".toList (oneOf IsHex) := by
  have hset : classSet false [⟨48, some 57⟩, ⟨97, some 102⟩, ⟨65, some 70⟩] = oneOf IsHex := by
    rw [classSet_cons]
    simp [CharRange.contains]
    rfl
  have hitem : ItemText vocab ρ b ('[' :: ['0', '-', '9', 'a', '-', 'f', 'A', '-', 'F'] ++ [']'])
      (classSet false [⟨48, some 57⟩, ⟨97, some 102⟩, ⟨65, some 70⟩]) := by
    refine itemText_ranges (by decide) fun rest => ?_
    exact .plainRange (single_of_mem (by decide)) (single_of_mem (by decide))
      (.plainRange (single_of_mem (by decide)) (single_of_mem (by decide))
        (.plainRange (single_of_mem (by decide)) (single_of_mem (by decide)) (.done rfl)))
  rwa [hset] at hitem

/-- Four hexadecimal digits behind `u`. -/
lemma seqText_unicode : SeqText vocab ρ b "\"u\" [0-9a-fA-F]\x7b4\x7d".toList
    ({codes ['u']} * copies (oneOf IsHex) 4 (some 4)) := by
  have hliteral : ItemText vocab ρ b ('"' :: ['u'] ++ ['"']) {codes ['u']} :=
    itemText_literal fun c hc =>
      (mem_singleton.mp hc) ▸ ⟨⟨by decide, by decide, by decide⟩, by decide⟩
  have hfour : PieceText vocab ρ b ("[0-9a-fA-F]".toList ++ "\x7b4\x7d".toList)
      (copies (oneOf IsHex) 4 (upper 4 4)) :=
    itemText_hex.repeats _ (fun rest => readOperator_exact (n := 4) (by decide) b rest) rfl rfl
  exact hliteral.cons hfour.seq rfl

lemma altsText_char : AltsText vocab ρ b charText charLanguage := by
  have hpeek : ∀ {c d : Char}, c ≠ d → ∀ rest, peek (c :: rest) ≠ d := fun h _ => h
  have hunescaped : classSet true [⟨34, none⟩, ⟨92, none⟩, ⟨127, none⟩, ⟨0, some 31⟩] =
      oneOf Unescaped := by
    rw [classSet_cons]
    refine congrArg oneOf (funext fun c => propext ?_)
    simp [CharRange.contains, Unescaped]
    omega
  have hplain : ItemText vocab ρ b ('[' :: '^' :: ['"', '\\', '\\', '\\', 'x', '7', 'F', '\\',
      'x', '0', '0', '-', '\\', 'x', '1', 'F'] ++ [']']) (oneOf Unescaped) := by
    rw [← hunescaped]
    refine itemText_notRanges fun rest => ?_
    exact .one (hpeek (by decide) _) (hpeek (by decide) _)
      (parseChar_plain (single_of_mem (by decide)).toPlain _) rfl
      (.one (hpeek (by decide) _) (hpeek (by decide) _) rfl rfl
        (.one (hpeek (by decide) _) (hpeek (by decide) _) rfl rfl
          (.range (hpeek (by decide) _) (hpeek (by decide) _) rfl rfl (hpeek (by decide) _) rfl
            (.done rfl))))
  have hbackslash : ItemText vocab ρ b ('[' :: ['\\', '\\'] ++ [']']) (oneOf (· = 92)) := by
    have hset : classSet false [⟨92, none⟩] = oneOf (· = 92) := by
      rw [classSet_cons]
      refine congrArg oneOf (funext fun c => propext ?_)
      simp [CharRange.contains]
      omega
    rw [← hset]
    exact itemText_ranges (by decide) fun rest =>
      .one (hpeek (by decide) _) (hpeek (by decide) _) rfl rfl (.done rfl)
  have hescape : ItemText vocab ρ true
      ('[' :: ['"', '\\', '\\', 'b', 'f', 'n', 'r', 't'] ++ [']'])
      (oneOf (· ∈ codes "\"\\bfnrt".toList)) := by
    have hset : classSet false ("\"\\bfnrt".toList.map single) =
        oneOf (· ∈ codes "\"\\bfnrt".toList) := by
      rw [classSet_single false (by simp)]
      simp
    rw [← hset]
    refine itemText_ranges (by decide) fun rest => ?_
    exact .one (hpeek (by decide) _) (hpeek (by decide) _)
      (parseChar_plain (single_of_mem (by decide)).toPlain _) rfl
      (.one (hpeek (by decide) _) (hpeek (by decide) _) rfl rfl
        (@rangesText_single ['b', 'f', 'n', 'r', 't'] (fun c hc => by
          simp only [mem_cons, not_mem_nil, or_false] at hc
          rcases hc with rfl | rfl | rfl | rfl | rfl <;> exact single_of_mem (by decide)) rest))
  have hgroup := ((hescape.seq.or seqText_unicode.alts rfl).group (b := b) rfl).seq
  exact hplain.seq.or (hbackslash.cons hgroup rfl).alts rfl

/-- What is used of the texts of a character: characters that are not escaped, and no empty text. -/
structure CharTexts (K : TextSet) : Prop where
  unescaped : ∀ c, Unescaped c → [c] ∈ K
  nonempty : [] ∉ K

variable {s : List Char} {strings : List (List Char)}

lemma CharTexts.mem_copies {K : TextSet} (hK : CharTexts K) (hs : ∀ c ∈ s, Unescaped c.toNat)
    {m : ℕ} (hm : m ≤ s.length) : codes s ∈ copies K m none := by
  refine ⟨s.length, hm, fun _ h => absurd h (Option.not_mem_none _), ?_⟩
  clear hm
  induction s with
  | nil => rfl
  | cons c s ih =>
    obtain ⟨hc, hs⟩ := forall_mem_cons.mp hs
    rw [length_cons, pow_succ']
    exact ⟨[c.toNat], hK.unescaped _ hc, codes s, ih hs, rfl⟩

lemma CharTexts.nil_notMem {K : TextSet} (hK : CharTexts K) : [] ∉ copies K 1 none := by
  rintro ⟨k, hk, -, h⟩
  cases k with
  | zero => exact absurd hk (Nat.not_succ_le_zero 0)
  | succ k =>
    rw [pow_succ'] at h
    obtain ⟨u, hu, v, -, heq⟩ := h
    rw [(append_eq_nil_iff.mp heq).1] at hu
    exact hK.nonempty hu

/-- The texts that start with one of some characters. -/
lemma cons_mem_oneOf_mul {P : ℕ → Prop} {L : TextSet} {n : ℕ} {w : List ℕ} :
    n :: w ∈ oneOf P * L ↔ P n ∧ w ∈ L := by
  constructor
  · rintro ⟨_, ⟨c, rfl, hc⟩, v, hv, heq⟩
    obtain ⟨rfl, rfl⟩ := List.cons.inj heq
    exact ⟨hc, hv⟩
  · rintro ⟨hn, hw⟩
    exact ⟨[n], ⟨n, rfl, hn⟩, w, hw, rfl⟩

lemma nil_notMem_oneOf_mul {P : ℕ → Prop} {L : TextSet} : [] ∉ oneOf P * L := by
  rintro ⟨_, ⟨c, rfl, -⟩, v, -, heq⟩
  cases heq

lemma mem_codes {x : Char} : x.toNat ∈ codes s ↔ x ∈ s := by
  rw [codes, mem_map]
  constructor
  · rintro ⟨d, hd, heq⟩
    rwa [← Char.toNat_inj.mp heq]
  · exact fun h => ⟨x, h, rfl⟩

lemma toNat_of_isAlphanum {c : Char} (hc : c.isAlphanum = true) :
    65 ≤ c.toNat ∧ c.toNat ≤ 90 ∨ 97 ≤ c.toNat ∧ c.toNat ≤ 122 ∨ 48 ≤ c.toNat ∧ c.toNat ≤ 57 := by
  have hranges : ((decide (65 ≤ c.val ∧ c.val ≤ 90) ||
      decide (97 ≤ c.val) && decide (c.val ≤ 122)) ||
        (decide (48 ≤ c.val) && decide (c.val ≤ 57))) = true := hc
  simp only [Bool.or_eq_true, Bool.and_eq_true, decide_eq_true_eq]
    at hranges
  rw [or_assoc] at hranges
  exact hranges

lemma single_of_isAlphanum {c : Char} (hc : c.isAlphanum = true) : Single c := by
  have hn := toNat_of_isAlphanum hc
  refine ⟨⟨by omega, ?_, ?_⟩, ?_, ?_⟩
  all_goals
    rintro rfl
    exact absurd hc (by decide)

lemma unescaped_of_isAlphanum {c : Char} (hc : c.isAlphanum = true) : Unescaped c.toNat := by
  have hn := toNat_of_isAlphanum hc
  refine ⟨?_, ?_, ?_, ?_⟩ <;> omega

/-! ## The trie -/

/-- The children of a node, in the order of their characters: the first one's character, whether a
string ends at it, its own children, and the other ones. -/
inductive Children
  | nil
  | cons (c : Char) (isEndOfString : Bool) (children rest : Children)
  deriving DecidableEq, Repr

structure TrieNode where
  children : Children
  isEndOfString : Bool
  deriving DecidableEq, Repr

namespace Children

/-- The child of a character, at which a string may end and whose children change. -/
def place (c : Char) (isEnd : Bool) (change : Children → Children) : Children → Children
  | nil => cons c isEnd (change nil) nil
  | cons d isEnd' children rest =>
    if c < d then cons c isEnd (change nil) (cons d isEnd' children rest)
    else if c = d then cons d (isEnd' || isEnd) (change children) rest
    else cons d isEnd' children (place c isEnd change rest)

/-- The children of a node into which a string is inserted. -/
def insert : List Char → Children → Children
  | [], node => node
  | c :: s, node => place c s.isEmpty (insert s) node

/-- `visit` of a node with children, from a child on: the texts of the children and the class of
all other characters. -/
def visit (charRule : List Char) : Children → (rejects : List Char) → List Char
  | nil, rejects => '[' :: '^' :: '"' :: rejects ++ [']', ' '] ++ charRule ++ ['*']
  | cons c isEnd children rest, rejects =>
    ['[', c, ']'] ++ (if children ≠ nil then " (".toList ++ visit charRule children [] ++ [')']
      else if isEnd then ' ' :: charRule ++ ['+']
      else []) ++
      " | ".toList ++ visit charRule rest (rejects ++ [c])

end Children

def TrieNode.insert (node : TrieNode) (string : List Char) : TrieNode :=
  ⟨node.children.insert string, node.isEndOfString || string.isEmpty⟩

/-- The trie of some strings. -/
def trieOf (strings : List (List Char)) : TrieNode :=
  strings.foldl TrieNode.insert ⟨.nil, false⟩

/-- `_not_strings`, with the name of the rule of a character. -/
def notStrings (charRule : List Char) (strings : List (List Char)) : List Char :=
  let trie := trieOf strings
  "[\"] ( ".toList ++
    (if trie.children ≠ .nil then trie.children.visit charRule [] else []) ++ " )".toList ++
    (if trie.isEndOfString then [] else ['?']) ++ " [\"]".toList

example : notStrings "char".toList [['a']] =
    "[\"] ( [a] char+ | [^\"a] char* )? [\"]".toList := by decide

/-! ### Paths -/

namespace Children

/-- The children of a child. -/
def sub (x : Char) : Children → Option Children
  | nil => none
  | cons c _ children rest => if x = c then some children else sub x rest

/-- A text leads from the root to a node. -/
def Path : List Char → Children → Prop
  | [], _ => True
  | c :: s, node => ∃ children, node.sub c = some children ∧ Path s children

/-- The characters of the children. -/
def labels : Children → List Char
  | nil => []
  | cons c _ _ rest => c :: rest.labels

/-- The children are ordered by their characters, which are letters and digits, and a string ends at
each leaf. -/
def Tidy : Children → Prop
  | nil => True
  | cons c isEnd children rest => c.isAlphanum = true ∧ (∀ d ∈ rest.labels, c < d) ∧
      (children = nil → isEnd = true) ∧ children.Tidy ∧ rest.Tidy

variable {c x : Char} {isEnd : Bool} {change : Children → Children} {node : Children}

lemma sub_eq_none (h : x ∉ node.labels) : node.sub x = none := by
  induction node with
  | nil => rfl
  | cons c isEnd children rest _ ih =>
    obtain ⟨hne, hrest⟩ := not_or.mp (mt mem_cons.mpr h)
    rw [sub, if_neg hne, ih hrest]

lemma Tidy.sub {children : Children} (h : node.Tidy) (hsub : node.sub x = some children) :
    children.Tidy := by
  induction node with
  | nil => cases hsub
  | cons c isEnd children' rest _ ih =>
    rw [Children.sub] at hsub
    split at hsub
    · cases hsub
      exact h.2.2.2.1
    · exact ih h.2.2.2.2 hsub

lemma mem_labels_place : x ∈ (place c isEnd change node).labels ↔ x = c ∨ x ∈ node.labels := by
  induction node with
  | nil => exact mem_cons
  | cons d isEnd' children rest _ ih =>
    rw [place]
    split
    · rw [labels, mem_cons]
    split
    · next heq =>
      rw [labels, labels, mem_cons, heq]
      exact ⟨.inr, fun h => h.elim .inl id⟩
    · rw [labels, labels, mem_cons, mem_cons, ih]
      exact or_left_comm

lemma sub_place (h : node.Tidy) : (place c isEnd change node).sub x =
    if x = c then some (change ((node.sub c).getD nil)) else node.sub x := by
  induction node with
  | nil => rfl
  | cons d isEnd' children rest _ ih =>
    rw [place]
    split
    · next hlt =>
      have hnone : (cons d isEnd' children rest).sub c = none := by
        refine sub_eq_none fun hmem => ?_
        rcases mem_cons.mp hmem with rfl | hmem
        · exact Nat.lt_irrefl _ hlt
        · exact Nat.lt_asymm hlt (h.2.1 c hmem)
      rw [hnone]
      rfl
    split
    · next heq =>
      subst heq
      rw [sub, sub, if_pos rfl, sub]
      split <;> rfl
    · next hne =>
      rw [sub, ih h.2.2.2.2, sub, if_neg hne, sub]
      by_cases hxd : x = d
      · have hxc : ¬ x = c := fun heq => hne (heq.symm.trans hxd)
        rw [if_pos hxd, if_neg hxc, if_pos hxd]
      · rw [if_neg hxd, if_neg hxd]

lemma Tidy.place (hc : c.isAlphanum = true) (h : node.Tidy)
    (hchange : ∀ children, children.Tidy → (change children).Tidy)
    (hend : ∀ children, change children = nil → isEnd = true) :
    (place c isEnd change node).Tidy := by
  induction node with
  | nil =>
    exact ⟨hc, fun d hd => absurd hd not_mem_nil, hend nil, hchange nil trivial, trivial⟩
  | cons d isEnd' children rest _ ih =>
    obtain ⟨hd, hlt, hleaf, hchildren, hrest⟩ := h
    rw [Children.place]
    split
    · next hcd =>
      refine ⟨hc, fun x hx => ?_, hend nil, hchange nil trivial, hd, hlt, hleaf, hchildren, hrest⟩
      rcases mem_cons.mp hx with rfl | hx
      · exact hcd
      · exact Nat.lt_trans hcd (hlt x hx)
    split
    · exact ⟨hd, hlt, fun hnil => by rw [hend children hnil, Bool.or_true],
        hchange children hchildren, hrest⟩
    · next hncd hne =>
      refine ⟨hd, fun x hx => ?_, hleaf, hchildren, ih hrest⟩
      rcases mem_labels_place.mp hx with rfl | hx
      · exact Nat.lt_of_le_of_ne (Nat.le_of_not_lt hncd) fun heq =>
          hne (Char.toNat_inj.mp heq).symm
      · exact hlt x hx

variable {s : List Char}

lemma insert_ne_nil (hs : s ≠ []) : node.insert s ≠ nil := by
  cases s with
  | nil => exact absurd rfl hs
  | cons c s =>
    rw [insert]
    cases node with
    | nil => exact fun h => (by cases h)
    | cons d isEnd children rest =>
      rw [place]
      split
      · exact fun h => (by cases h)
      split <;> exact fun h => (by cases h)

lemma Tidy.insert (hs : ∀ c ∈ s, c.isAlphanum = true) (h : node.Tidy) : (node.insert s).Tidy := by
  induction s generalizing node with
  | nil => exact h
  | cons c s ih =>
    obtain ⟨hc, hs⟩ := forall_mem_cons.mp hs
    refine h.place hc (fun children hchildren => ih hs hchildren) fun children hnil => ?_
    -- only a string that ends leaves a node without children
    cases s with
    | nil => rfl
    | cons d s => exact absurd hnil (insert_ne_nil (cons_ne_nil d s))

/-- **An inserted string adds its beginnings to the paths.** -/
theorem path_insert {w : List Char} (h : node.Tidy) :
    Path w (node.insert s) ↔ Path w node ∨ w <+: s := by
  induction s generalizing w node with
  | nil =>
    rw [prefix_nil]
    refine ⟨.inl, fun h => h.elim id ?_⟩
    rintro rfl
    trivial
  | cons c s ih =>
    cases w with
    | nil => exact iff_of_true trivial (.inl trivial)
    | cons x w =>
      rw [insert, Path, Path, sub_place h, cons_prefix_cons]
      by_cases hx : x = c
      · subst hx
        rw [if_pos rfl]
        cases hsub : node.sub x with
        | none =>
          have hiff := @ih nil w trivial
          have hnil : Path w nil → w <+: s := by
            cases w with
            | nil => exact fun _ => nil_prefix
            | cons y w => exact fun hpath => (by obtain ⟨_, heq, -⟩ := hpath; cases heq)
          constructor
          · rintro ⟨children, heq, hpath⟩
            cases heq
            exact .inr ⟨rfl, (hiff.mp hpath).elim hnil id⟩
          · rintro (⟨_, heq, -⟩ | ⟨-, hpre⟩)
            · cases heq
            · exact ⟨_, rfl, hiff.mpr (.inr hpre)⟩
        | some children =>
          have hiff := ih (w := w) (h.sub hsub)
          constructor
          · rintro ⟨_, heq, hpath⟩
            cases heq
            exact (hiff.mp hpath).elim (fun h => .inl ⟨children, rfl, h⟩) fun h => .inr ⟨rfl, h⟩
          · rintro (⟨_, heq, hpath⟩ | ⟨-, hpre⟩)
            · cases heq
              exact ⟨_, rfl, hiff.mpr (.inl hpath)⟩
            · exact ⟨_, rfl, hiff.mpr (.inr hpre)⟩
      · rw [if_neg hx]
        exact ⟨.inl, fun h => h.elim id fun h => absurd h.1 hx⟩

/-! ### The language of the children -/

/-- The texts that go on from a node with children, from a child on, with the texts `K` of a
character. -/
def language (K : TextSet) : Children → (rejects : List Char) → TextSet
  | nil, rejects => oneOf (· ∉ codes ('"' :: rejects)) * copies K 0 none
  | cons c isEnd children rest, rejects =>
    oneOf (· ∈ codes [c]) * (if children ≠ nil then language K children []
      else if isEnd then copies K 1 none
      else 1) + language K rest (rejects ++ [c])

lemma starts_visit (charRule : List Char) (node : Children) (rejects : List Char) :
    Starts (node.visit charRule rejects) := by
  cases node <;> rfl

/-- **The text of the children denotes their language.** -/
theorem altsText_visit {charRule rejects : List Char} (hname : IsName charRule) (h : node.Tidy)
    (hrejects : ∀ c ∈ rejects, Single c) :
    AltsText vocab ρ b (node.visit charRule rejects) (node.language (ρ charRule) rejects) := by
  induction node generalizing rejects b with
  | nil =>
    have hclass : ItemText vocab ρ b ('[' :: '^' :: ('"' :: rejects) ++ [']'])
        (oneOf (· ∉ codes ('"' :: rejects))) :=
      itemText_notClass (forall_mem_cons.mpr ⟨single_of_mem (by decide), hrejects⟩)
        (cons_ne_nil _ _)
    have hseq := hclass.cons (@itemText_name vocab ρ b _ hname).star.seq
      (hname.starts.append _)
    have htext : '[' :: '^' :: ('"' :: rejects) ++ [']'] ++ ' ' :: (charRule ++ ['*']) =
        visit charRule nil rejects := by simp [visit]
    rw [htext] at hseq
    exact hseq.alts
  | cons c isEnd children rest ih ihrest =>
    obtain ⟨hc, -, hleaf, hchildren, hrest⟩ := h
    have hsingle := single_of_isAlphanum hc
    have hclass : ItemText vocab ρ b ('[' :: [c] ++ [']']) (oneOf (· ∈ codes [c])) :=
      itemText_class (fun d hd => (mem_singleton.mp hd) ▸ hsingle) (cons_ne_nil _ _)
        fun heq => by
          rw [Option.some.inj heq] at hc
          exact absurd hc (by decide)
    have hlast := @ihrest b (rejects ++ [c]) hrest
      (forall_mem_append.mpr ⟨hrejects, fun d hd => (mem_singleton.mp hd) ▸ hsingle⟩)
    rw [visit, language]
    by_cases hnil : children = nil
    · subst hnil
      have hend := hleaf rfl
      subst hend
      have hseq := hclass.cons (@itemText_name vocab ρ b _ hname).plus.seq
        (hname.starts.append _)
      have halts := hseq.or hlast (starts_visit charRule rest _)
      simpa using halts
    · have hgroup : ItemText vocab ρ b ('(' :: children.visit charRule [] ++ [')']) _ :=
        (ih (b := true) hchildren fun _ h => absurd h not_mem_nil).group
          (starts_visit charRule children [])
      have halts := (hclass.cons hgroup.seq rfl).or hlast (starts_visit charRule rest _)
      simpa [hnil] using halts

variable {K : TextSet}

lemma nil_notMem_language (rejects : List Char) : [] ∉ node.language K rejects := by
  induction node generalizing rejects with
  | nil => exact nil_notMem_oneOf_mul
  | cons c isEnd children rest _ ih =>
    exact fun h => h.elim nil_notMem_oneOf_mul (ih _)

/-- **From a child on**: into a child, or away with a character that no child has. -/
theorem cons_mem_language (hK : CharTexts K) (h : node.Tidy) {rejects : List Char}
    (hrejects : ∀ d ∈ rejects, d ∉ node.labels) (hs : ∀ c ∈ x :: s, Unescaped c.toNat) :
    codes (x :: s) ∈ node.language K rejects ↔ (∃ children, node.sub x = some children ∧
        if children = nil then s ≠ [] else codes s ∈ children.language K []) ∨
      node.sub x = none ∧ x ∉ rejects := by
  obtain ⟨hx, hs⟩ := forall_mem_cons.mp hs
  induction node generalizing rejects with
  | nil =>
    have hcons : codes (x :: s) = x.toNat :: codes s := rfl
    have hquote : x ≠ '"' := fun heq => hx.1 (by rw [heq]; rfl)
    rw [language, hcons, cons_mem_oneOf_mul, mem_codes, mem_cons]
    constructor
    · rintro ⟨hne, -⟩
      exact .inr ⟨rfl, fun hmem => hne (.inr hmem)⟩
    · rintro (⟨_, heq, -⟩ | ⟨-, hne⟩)
      · cases heq
      · exact ⟨fun h => h.elim hquote hne, hK.mem_copies hs (Nat.zero_le _)⟩
  | cons c isEnd children rest _ ih =>
    obtain ⟨-, hlt, hleaf, -, hrest⟩ := h
    have hcons : codes (x :: s) = x.toNat :: codes s := rfl
    have hmem := @ih hrest (rejects ++ [c]) fun d hd => by
      rcases mem_append.mp hd with hd | hd
      · exact fun hmem => hrejects d hd (mem_cons_of_mem _ hmem)
      · rw [mem_singleton.mp hd]
        exact fun hmem => Nat.lt_irrefl _ (hlt c hmem)
    rw [language, Language.mem_add, hmem, hcons, cons_mem_oneOf_mul, mem_codes, sub]
    by_cases hxc : x = c
    · subst hxc
      have hnone : rest.sub x = none := sub_eq_none fun hmem => Nat.lt_irrefl _ (hlt x hmem)
      rw [hnone]
      constructor
      · rintro (⟨-, hin⟩ | ⟨_, heq, -⟩ | ⟨-, hnot⟩)
        · refine .inl ⟨children, if_pos rfl, ?_⟩
          by_cases hnil : children = nil
          · rw [if_pos hnil]
            rintro rfl
            rw [if_neg (not_not_intro hnil), if_pos (hleaf hnil)] at hin
            exact hK.nil_notMem hin
          · rw [if_pos hnil] at hin
            rwa [if_neg hnil]
        · cases heq
        · exact absurd (mem_append_right _ (mem_singleton_self x)) hnot
      · rintro (⟨g, heq, hg⟩ | ⟨heq, -⟩)
        · rw [if_pos rfl] at heq
          obtain rfl := Option.some.inj heq
          refine .inl ⟨mem_singleton_self x, ?_⟩
          by_cases hnil : children = nil
          · rw [if_pos hnil] at hg
            rw [if_neg (not_not_intro hnil), if_pos (hleaf hnil)]
            exact hK.mem_copies hs (length_pos_iff.mpr hg)
          · rw [if_neg hnil] at hg
            rwa [if_pos hnil]
        · rw [if_pos rfl] at heq
          cases heq
    · have hnot : x ∉ [c] := fun h => hxc (mem_singleton.mp h)
      rw [if_neg hxc, mem_append]
      constructor
      · rintro (⟨hin, -⟩ | h | ⟨heq, hne⟩)
        · exact absurd hin hnot
        · exact .inl h
        · exact .inr ⟨heq, fun h => hne (.inl h)⟩
      · rintro (h | ⟨heq, hne⟩)
        · exact .inr (.inl h)
        · exact .inr (.inr ⟨heq, fun h => h.elim hne hnot⟩)

/-- **The texts over characters that are not escaped leave the trie.** -/
theorem mem_language_iff (hK : CharTexts K) (h : node.Tidy) (hne : node ≠ nil)
    (hs : ∀ c ∈ s, Unescaped c.toNat) : codes s ∈ node.language K [] ↔ ¬ Path s node := by
  induction s generalizing node with
  | nil => exact iff_of_false (nil_notMem_language []) fun h => h trivial
  | cons x s ih =>
    rw [cons_mem_language hK h (fun _ h => absurd h not_mem_nil) hs, Path]
    cases hsub : node.sub x with
    | none =>
      refine iff_of_true (.inr ⟨rfl, not_mem_nil⟩) ?_
      rintro ⟨_, heq, -⟩
      cases heq
    | some children =>
      have hchildren := h.sub hsub
      have hs' := (forall_mem_cons.mp hs).2
      have hrec : (if children = nil then s ≠ [] else codes s ∈ children.language K []) ↔
          ¬ Path s children := by
        by_cases hnil : children = nil
        · rw [hnil]
          cases s with
          | nil => exact iff_of_false (fun h => h rfl) fun h => h trivial
          | cons y s =>
            refine iff_of_true (cons_ne_nil y s) ?_
            rintro ⟨_, heq, -⟩
            cases heq
        · rw [if_neg hnil]
          exact ih hchildren hnil hs'
      constructor
      · rintro (⟨_, heq, hmem⟩ | ⟨heq, -⟩) ⟨_, heq', hpath⟩
        · cases heq
          cases heq'
          exact hrec.mp hmem hpath
        · cases heq
      · exact fun hpath => .inl ⟨children, rfl, hrec.mpr fun h => hpath ⟨children, rfl, h⟩⟩

end Children

/-! ## The rule -/

/-- The trie of some strings: their beginnings are its paths. -/
structure TrieNode.Records (node : TrieNode) (strings : List (List Char)) : Prop where
  tidy : node.children.Tidy
  path : ∀ w, Children.Path w node.children ↔ w = [] ∨ ∃ s ∈ strings, w <+: s
  leaf : node.children = .nil ↔ ∀ s ∈ strings, s = []
  isEnd : node.isEndOfString = true ↔ [] ∈ strings

lemma TrieNode.records_nil : TrieNode.Records ⟨.nil, false⟩ [] where
  tidy := trivial
  path w := by
    cases w with
    | nil => exact iff_of_true trivial (.inl rfl)
    | cons x w =>
      refine iff_of_false (fun h => ?_) fun h => ?_
      · obtain ⟨_, heq, -⟩ := h
        cases heq
      · rcases h with heq | ⟨s, hs, -⟩
        · cases heq
        · cases hs
  leaf := iff_of_true rfl fun _ hs => absurd hs not_mem_nil
  isEnd := iff_of_false Bool.false_ne_true not_mem_nil

/-- One string more. -/
lemma TrieNode.Records.insert {node : TrieNode} (h : node.Records strings)
    (hs : ∀ c ∈ s, c.isAlphanum = true) :
    (node.insert s).Records (strings ++ [s]) where
  tidy := h.tidy.insert hs
  path w := by
    rw [TrieNode.insert, Children.path_insert h.tidy, h.path, or_assoc]
    simp only [mem_append, mem_singleton, or_and_right, exists_or, exists_eq_left]
  leaf := by
    rw [forall_mem_append, forall_mem_singleton, ← h.leaf]
    cases s with
    | nil => exact ⟨fun heq => ⟨heq, rfl⟩, fun h => h.1⟩
    | cons c s =>
      exact iff_of_false (Children.insert_ne_nil (cons_ne_nil c s))
        fun h => (by cases h.2)
  isEnd := by
    rw [TrieNode.insert, Bool.or_eq_true, h.isEnd, List.isEmpty_iff, mem_append,
      mem_singleton, eq_comm (a := s)]

lemma records_trieOf (halnum : ∀ s ∈ strings, ∀ c ∈ s, c.isAlphanum = true) :
    (trieOf strings).Records strings := by
  have hfold : ∀ (rest done : List (List Char)) (node : TrieNode),
      (∀ s ∈ rest, ∀ c ∈ s, c.isAlphanum = true) → node.Records done →
      (rest.foldl TrieNode.insert node).Records (done ++ rest) := by
    intro rest
    induction rest with
    | nil => exact fun done node _ h => (append_nil done).symm ▸ h
    | cons s rest ih =>
      intro done node hrest h
      obtain ⟨hs, hrest⟩ := forall_mem_cons.mp hrest
      rw [append_cons]
      exact ih (done ++ [s]) (node.insert s) hrest (h.insert hs)
  exact hfold strings [] _ halnum TrieNode.records_nil

/-- The texts between the quotes. -/
def contents (K : TextSet) (strings : List (List Char)) : TextSet :=
  let trie := trieOf strings
  let inside := if trie.children ≠ .nil then trie.children.language K [] else 1
  if trie.isEndOfString then inside else copies inside 0 (some 1)

/-- A group between quotes, which may be left out. -/
lemma denotes_quoted {V : List Char} {L : TextSet}
    (hgroup : ItemText vocab ρ false ("( ".toList ++ V ++ " )".toList) L) (isEnd : Bool) :
    Denotes vocab ρ
      ("[\"] ( ".toList ++ V ++ " )".toList ++ (if isEnd then [] else ['?']) ++ " [\"]".toList)
      (oneOf (· ∈ codes ['"']) *
        ((if isEnd then L else copies L 0 (some 1)) * oneOf (· ∈ codes ['"']))) := by
  have hquote : ItemText vocab ρ false "[\"]".toList (oneOf (· ∈ codes ['"'])) :=
    @itemText_class _ _ _ ['"'] (fun c hc => single_of_mem (by
      rw [mem_singleton.mp hc]
      decide)) (cons_ne_nil _ _) (by decide)
  cases isEnd with
  | true =>
    have hseq := hquote.cons (hgroup.cons hquote.seq rfl) rfl
    simpa using hseq.alts.denotes
  | false =>
    have hseq := hquote.cons (hgroup.option.cons hquote.seq rfl) rfl
    exact hseq.alts.denotes

/-- **The text of the rule denotes the contents between quotes.** -/
theorem denotes_notStrings {charRule : List Char} {strings : List (List Char)}
    (hname : IsName charRule) (halnum : ∀ s ∈ strings, ∀ c ∈ s, c.isAlphanum = true) :
    Denotes vocab ρ (notStrings charRule strings)
      (oneOf (· ∈ codes ['"']) * (contents (ρ charRule) strings * oneOf (· ∈ codes ['"']))) := by
  have htidy := (records_trieOf halnum).tidy
  refine denotes_quoted ?_ (trieOf strings).isEndOfString
  by_cases hnil : (trieOf strings).children = .nil
  · rw [if_neg (not_not_intro hnil), if_neg (not_not_intro hnil)]
    exact itemText_emptyGroup
  · rw [if_pos hnil, if_pos hnil]
    exact (Children.altsText_visit hname htidy fun _ h => absurd h not_mem_nil).spacedGroup
      (Children.starts_visit charRule _ [])

/-- **The contents that the text allows** are empty or no beginnings of the strings. -/
theorem mem_contents_iff {K : TextSet} (hK : CharTexts K)
    (halnum : ∀ s ∈ strings, ∀ c ∈ s, c.isAlphanum = true) (hs : ∀ c ∈ s, Unescaped c.toNat) :
    codes s ∈ contents K strings ↔ if s = [] then [] ∉ strings ∨ ∀ t ∈ strings, t = []
      else (∃ t ∈ strings, t ≠ []) ∧ ∀ t ∈ strings, ¬ s <+: t := by
  have hrecords := records_trieOf halnum
  have hinside : codes s ∈ (if (trieOf strings).children ≠ .nil then
      (trieOf strings).children.language K [] else 1) ↔
        if ∀ t ∈ strings, t = [] then s = [] else s ≠ [] ∧ ∀ t ∈ strings, ¬ s <+: t := by
    by_cases hnil : (trieOf strings).children = .nil
    · rw [if_neg (not_not_intro hnil), if_pos (hrecords.leaf.mp hnil), Language.mem_one, codes,
        map_eq_nil_iff]
    · rw [if_pos hnil, if_neg (mt hrecords.leaf.mpr hnil), Children.mem_language_iff hK hrecords.tidy
        hnil hs, hrecords.path, not_or]
      simp only [not_exists, not_and]
  have hoption : ∀ L : TextSet, codes s ∈ copies L 0 (some 1) ↔ s = [] ∨ codes s ∈ L := by
    intro L
    constructor
    · rintro ⟨k, -, hk, h⟩
      have hk := hk 1 rfl
      interval_cases k
      · exact .inl (map_eq_nil_iff.mp h)
      · rw [pow_one] at h
        exact .inr h
    · rintro (rfl | h)
      · exact ⟨0, Nat.le_refl 0, fun _ _ => Nat.zero_le _, rfl⟩
      · exact ⟨1, Nat.zero_le _, fun n hn => Nat.le_of_eq (Option.some.inj hn), by rwa [pow_one]⟩
  have hexists : (∃ t ∈ strings, t ≠ []) ↔ ¬ ∀ t ∈ strings, t = [] := by
    simp only [not_forall, exists_prop]
  rw [hexists]
  simp only [contents]
  by_cases hend : (trieOf strings).isEndOfString = true
  · have hin := hrecords.isEnd.mp hend
    rw [if_pos hend, hinside]
    by_cases hall : ∀ t ∈ strings, t = []
    · rw [if_pos hall]
      by_cases hs0 : s = []
      · rw [if_pos hs0]
        exact iff_of_true hs0 (.inr hall)
      · rw [if_neg hs0]
        exact iff_of_false hs0 fun h => h.1 hall
    · rw [if_neg hall]
      by_cases hs0 : s = []
      · rw [if_pos hs0]
        exact iff_of_false (fun h => h.1 hs0) fun h => h.elim (fun h => h hin) hall
      · rw [if_neg hs0]
        exact ⟨fun h => ⟨hall, h.2⟩, fun h => ⟨hs0, h.2⟩⟩
  · have hin : [] ∉ strings := mt hrecords.isEnd.mpr hend
    rw [if_neg hend, hoption, hinside]
    by_cases hs0 : s = []
    · rw [if_pos hs0]
      exact iff_of_true (.inl hs0) (.inl hin)
    · rw [if_neg hs0]
      by_cases hall : ∀ t ∈ strings, t = []
      · rw [if_pos hall]
        exact iff_of_false (fun h => h.elim hs0 hs0) fun h => h.1 hall
      · rw [if_neg hall]
        exact ⟨fun h => ⟨hall, (h.resolve_left hs0).2⟩, fun h => .inr ⟨hs0, h.2⟩⟩

lemma charTexts_charLanguage : CharTexts charLanguage where
  unescaped c hc := .inl ⟨c, rfl, hc⟩
  nonempty := by
    rintro (⟨c, heq, -⟩ | h)
    · cases heq
    · exact nil_notMem_oneOf_mul h

/-- The text of `_not_strings` denotes the strings over characters that are not escaped whose
content is none of the given ones. -/
def Complements (vocab : Option (List Char → Option ℕ)) (ρ : List Char → TextSet) (T : List Char)
    (strings : List (List Char)) : Prop :=
  ∃ L, Denotes vocab ρ T L ∧ ∀ s : List Char, (∀ c ∈ s, Unescaped c.toNat) →
    (codes ('"' :: s ++ ['"']) ∈ L ↔ s ∉ strings)

section Complements

variable {charRule : List Char} {strings : List (List Char)}

lemma complements_iff (hname : IsName charRule) (hchar : Denotes vocab ρ charText (ρ charRule))
    (halnum : ∀ s ∈ strings, ∀ c ∈ s, c.isAlphanum = true) :
    Complements vocab ρ (notStrings charRule strings) strings ↔
      ∀ s : List Char, (∀ c ∈ s, Unescaped c.toNat) →
        ((if s = [] then [] ∉ strings ∨ ∀ t ∈ strings, t = []
          else (∃ t ∈ strings, t ≠ []) ∧ ∀ t ∈ strings, ¬ s <+: t) ↔ s ∉ strings) := by
  have hK : CharTexts (ρ charRule) := by
    rw [hchar.unique altsText_char.denotes]
    exact charTexts_charLanguage
  have hdenotes := @denotes_notStrings vocab ρ _ _ hname halnum
  have hmem : ∀ s : List Char, codes ('"' :: s ++ ['"']) ∈ oneOf (· ∈ codes ['"']) *
      (contents (ρ charRule) strings * oneOf (· ∈ codes ['"'])) ↔
        codes s ∈ contents (ρ charRule) strings := by
    intro s
    have hcodes : codes ('"' :: s ++ ['"']) = '"'.toNat :: (codes s ++ codes ['"']) := by
      simp [codes]
    rw [hcodes, cons_mem_oneOf_mul]
    constructor
    · rintro ⟨-, u, hu, _, ⟨c, rfl, -⟩, heq⟩
      rwa [← (append_inj' heq rfl).1]
    · exact fun h => ⟨mem_singleton_self _, codes s, h, codes ['"'],
        ⟨_, rfl, mem_singleton_self _⟩, rfl⟩
  constructor
  · rintro ⟨L, hL, h⟩ s hs
    rw [← h s hs, hL.unique hdenotes, hmem, mem_contents_iff hK halnum hs]
  · exact fun h => ⟨_, hdenotes, fun s hs => by
      rw [hmem, mem_contents_iff hK halnum hs]
      exact h s hs⟩

/-- The beginning of a string is missing, unless it is given. -/
lemma Complements.mem_of_prefix (hname : IsName charRule)
    (hchar : Denotes vocab ρ charText (ρ charRule))
    (halnum : ∀ s ∈ strings, ∀ c ∈ s, c.isAlphanum = true)
    (h : Complements vocab ρ (notStrings charRule strings) strings) {p : List Char}
    (hs : s ∈ strings) (hpre : p <+: s) (hne : p ≠ []) : p ∈ strings := by
  by_contra hmem
  have hp := (complements_iff hname hchar halnum).mp h p fun c hc =>
    unescaped_of_isAlphanum (halnum s hs c (hpre.subset hc))
  rw [if_neg hne] at hp
  exact (hp.mpr hmem).2 s hs hpre

end Complements

/-- **When the text denotes the strings that are none of the given ones**: there is one that is not
empty, and with each one its beginnings are given as well. -/
theorem notStrings_iff {vocab : Option (List Char → Option ℕ)} {ρ : List Char → TextSet}
    {charRule : List Char} {strings : List (List Char)} (hname : IsName charRule)
    (hchar : Denotes vocab ρ charText (ρ charRule))
    (halnum : ∀ s ∈ strings, ∀ c ∈ s, c.isAlphanum = true) :
    Complements vocab ρ (notStrings charRule strings) strings ↔
      (∃ s ∈ strings, s ≠ []) ∧ ∀ s ∈ strings, ∀ p, p <+: s → p ≠ [] → p ∈ strings := by
  constructor
  · intro h
    refine ⟨?_, fun s hs p hpre hne => h.mem_of_prefix hname hchar halnum hs hpre hne⟩
    -- a string of one letter tells
    by_contra hnone
    have ha := (complements_iff hname hchar halnum).mp h ['a'] fun c hc =>
      (List.mem_singleton.mp hc) ▸ unescaped_of_isAlphanum rfl
    exact hnone (ha.mpr fun hmem => hnone ⟨_, hmem, List.cons_ne_nil _ _⟩).1
  · rintro ⟨⟨s0, hs0, hne0⟩, hpre⟩
    rw [complements_iff hname hchar halnum]
    intro s _
    by_cases hs : s = []
    · rw [hs]
      exact or_iff_left fun hall => hne0 (hall s0 hs0)
    · rw [if_neg hs]
      exact ⟨fun h hmem => h.2 s hmem (List.prefix_refl s),
        fun hmem => ⟨⟨s0, hs0, hne0⟩, fun t ht hst => hmem (hpre t ht s hst hs)⟩⟩

lemma isAlphanum_of_all (h : (strings.all fun s => s.all Char.isAlphanum) = true) :
    ∀ s ∈ strings, ∀ c ∈ s, c.isAlphanum = true := fun s hs =>
  all_eq_true.mp (all_eq_true.mp h s hs)

/-- A string of one letter and one that goes on. -/
theorem notStrings_iff_nested : Complements none (fun _ => charLanguage)
      (notStrings "char".toList ["a".toList, "ab".toList]) ["a".toList, "ab".toList] ↔
      (∃ s ∈ ["a".toList, "ab".toList], s ≠ []) ∧ ∀ s ∈ ["a".toList, "ab".toList], ∀ p, p <+: s →
        p ≠ [] → p ∈ ["a".toList, "ab".toList] :=
  notStrings_iff (ρ := fun _ => charLanguage) ⟨by decide, List.all_eq_true.mp rfl⟩
    altsText_char.denotes (isAlphanum_of_all rfl)

/-- The string `a` is none of `and` and `also`. -/
theorem notStrings_prefix : ¬ Complements none (fun _ => charLanguage)
      (notStrings "char".toList ["and".toList, "also".toList]) ["and".toList, "also".toList] := by
  intro h
  have hmem := h.mem_of_prefix (p := "a".toList) (s := "and".toList)
    ⟨by decide, List.all_eq_true.mp rfl⟩ altsText_char.denotes (isAlphanum_of_all rfl)
  exact absurd hmem (by decide)

end Schema
end Llama
