import Llama.Lib.Exec
import Llama.Unicode
import Mathlib.Data.Finset.Dedup

/-!
# The trie of the common library

`CommonTrie` holds patterns, sequences of symbols, for matching at a place of a text
(`CommonTrie.checkAt`), and `AhoCorasick` is the automaton that is built from it for matching
everywhere.  The words of a trie and the links of the automaton are in `Llama.Trie.Words` and
`Llama.Trie.AhoCorasick`.
-/

namespace Llama

open List

/-- The children of a node, a `std::map` from symbols to nodes. -/
structure Children where
  entries : List (ℕ × ℕ)
  sorted : entries.Pairwise fun a b => a.1 < b.1

namespace Children

def empty : Children := ⟨[], List.Pairwise.nil⟩

def find (m : Children) (ch : ℕ) : Option ℕ := m.entries.lookup ch

lemma sorted_set {l : List (ℕ × ℕ)} (h : l.Pairwise fun a b => a.1 < b.1) (ch v : ℕ) :
    (l.filter (·.1 < ch) ++ (ch, v) :: l.filter (ch < ·.1)).Pairwise fun a b => a.1 < b.1 := by
  rw [pairwise_append, pairwise_cons]
  refine ⟨h.filter _, ⟨fun b hb => ?_, h.filter _⟩, fun a ha b hb => ?_⟩
  · exact of_decide_eq_true (mem_filter.mp hb).2
  · have ha := of_decide_eq_true (mem_filter.mp ha).2
    rcases mem_cons.mp hb with rfl | hb
    · exact ha
    · exact Nat.lt_trans ha (of_decide_eq_true (mem_filter.mp hb).2)

def set (m : Children) (ch v : ℕ) : Children := ⟨_, sorted_set m.sorted ch v⟩

lemma find_eq_some_iff {m : Children} {ch v : ℕ} : m.find ch = some v ↔ (ch, v) ∈ m.entries := by
  obtain ⟨l, hl⟩ := m
  change l.lookup ch = some v ↔ (ch, v) ∈ l
  induction l with
  | nil => simp
  | cons e l ih =>
    obtain ⟨k, x⟩ := e
    obtain ⟨hlt, hl⟩ := pairwise_cons.mp hl
    by_cases hk : ch = k
    · subst hk
      simp only [lookup_cons, beq_self_eq_true, Option.some.injEq, mem_cons,
        Prod.mk.injEq, true_and]
      constructor
      · rintro rfl
        exact .inl rfl
      · rintro (rfl | h)
        · rfl
        · exact absurd (hlt _ h) (Nat.lt_irrefl _)
    · have hbeq : (ch == k) = false := beq_eq_false_iff_ne.mpr hk
      simp only [lookup_cons, hbeq, mem_cons, Prod.mk.injEq, hk, false_and, false_or]
      exact ih hl

lemma mem_set {m : Children} {ch v : ℕ} (hfree : m.find ch = none) {e : ℕ × ℕ} :
    e ∈ (m.set ch v).entries ↔ e ∈ m.entries ∨ e = (ch, v) := by
  have hne : ∀ e ∈ m.entries, e.1 ≠ ch := by
    rintro ⟨k, x⟩ he rfl
    rw [find_eq_some_iff.mpr he] at hfree
    cases hfree
  change e ∈ m.entries.filter _ ++ (ch, v) :: m.entries.filter _ ↔ _
  simp only [mem_append, mem_cons, mem_filter, decide_eq_true_eq]
  constructor
  · rintro (⟨h, -⟩ | h | ⟨h, -⟩)
    · exact .inl h
    · exact .inr h
    · exact .inl h
  · rintro (h | h)
    · rcases Nat.lt_or_gt_of_ne (hne e h) with hlt | hlt
      · exact .inl ⟨h, hlt⟩
      · exact .inr (.inr ⟨h, hlt⟩)
    · exact .inr (.inl h)

end Children

/-- `common_trie::node`. -/
structure TrieNode where
  children : Children := .empty
  /-- Of the pattern that ends here, `-1` without one. -/
  pattern : ℤ := -1

structure CommonTrie where
  nodes : List TrieNode := [{}]
  nPatterns : ℤ := 0

namespace CommonTrie

def node (t : CommonTrie) (s : ℕ) : TrieNode := t.nodes.getD s {}

def child (t : CommonTrie) (s ch : ℕ) : Option ℕ := (t.node s).children.find ch

/-- A new node, as a child of the current one. -/
def createChild (t : CommonTrie) (current ch : ℕ) : CommonTrie :=
  { t with
    nodes := (t.nodes ++ [({} : TrieNode)]).modify current fun n =>
      { n with children := n.children.set ch t.nodes.length } }

/-- The loop of `insert`, which ends at the node of the symbols. -/
def descend : CommonTrie → ℕ → List ℕ → CommonTrie × ℕ
  | t, current, [] => (t, current)
  | t, current, ch :: rest =>
    match t.child current ch with
    | some next => descend t next rest
    | none => descend (t.createChild current ch) t.nodes.length rest

/-- `common_trie::insert` for symbols, with the index of the pattern. -/
def insert (t : CommonTrie) (symbols : List ℕ) : ℤ × CommonTrie :=
  let (t, current) := t.descend 0 symbols
  if (t.node current).pattern < 0 then
    (t.nPatterns,
      { nodes := t.nodes.modify current fun n => { n with pattern := t.nPatterns }
        nPatterns := t.nPatterns + 1 })
  else ((t.node current).pattern, t)

/-- The loop of `insert` for text: the code points up to the first bad one. -/
def decodeFrom (word : List UInt8) : ℕ → ℕ → List ℕ
  | 0, _ => []
  | n + 1, pos =>
    if pos < word.length then
      match Unicode.parseUtf8Codepoint word pos with
      | .success c k => c :: decodeFrom word n (pos + k)
      | _ => []
    else []

/-- The symbols of a word; every code point takes a byte of it. -/
def symbolsOf (word : List UInt8) : List ℕ := decodeFrom word word.length 0

/-- The trie of some symbol sequences, inserted one after the other. -/
def ofSymbols (patterns : List (List ℕ)) : CommonTrie :=
  patterns.foldl (fun t p => (t.insert p).2) {}

/-- The trie of some words. -/
def ofWords (words : List (List UInt8)) : CommonTrie := ofSymbols (words.map symbolsOf)

inductive MatchResult
  | noMatch
  | partialMatch
  | completeMatch
  deriving DecidableEq, Repr

/-- What the end of the text means at a node. -/
def atEnd (current : ℕ) : MatchResult := if current ≠ 0 then .partialMatch else .noMatch

/-- The loop of `check_at`. -/
def checkFrom (t : CommonTrie) (sv : List UInt8) : ℕ → ℕ → ℕ → MatchResult
  | 0, current, _ => atEnd current
  | n + 1, current, pos =>
    if pos < sv.length then
      match Unicode.parseUtf8Codepoint sv pos with
      | .success c k =>
        match t.child current c with
        | none => .noMatch
        | some next =>
          if (t.node next).pattern ≥ 0 then .completeMatch else checkFrom t sv n next (pos + k)
      | _ => atEnd current
    else atEnd current

/-- `common_trie::check_at`; every code point takes a byte. -/
def checkAt (t : CommonTrie) (sv : List UInt8) (startPos : ℕ) : MatchResult :=
  t.checkFrom sv (sv.length - startPos) 0 startPos

end CommonTrie

/-- `common_aho_corasick`. -/
structure AhoCorasick where
  t : CommonTrie
  /-- Failure links. -/
  fail : List ℕ
  /-- States in breadth first order. -/
  order : List ℕ
  /-- `match`, the longest pattern that ends at each state. -/
  matchTable : List ℤ
  alphabet : Finset ℕ

namespace AhoCorasick

variable (t : CommonTrie)

/-- Failure links are followed until a transition on the symbol exists. -/
def follow (fail : List ℕ) (ch : ℕ) : ℕ → ℕ → Exec ℕ
  | 0, _ => .unfinished
  | n + 1, state =>
    if state ≠ 0 ∧ t.child state ch = none then follow fail ch n (fail.getD state 0)
    else .ok state

/-- The link of a node, to what was found for it. -/
def linkTo (v : ℕ) : Option ℕ → ℕ
  | some w => if w ≠ v then w else 0
  | none => 0

/-- The failure link of a child, which is put into the queue. -/
def linkChild (bound u : ℕ) (s : List ℕ × List ℕ) (e : ℕ × ℕ) : Exec (List ℕ × List ℕ) :=
  if u ≠ 0 then do
    let f ← follow t s.1 e.1 bound (s.1.getD u 0)
    pure (s.1.set e.2 (linkTo e.2 (t.child f e.1)), s.2 ++ [e.2])
  else pure (s.1, s.2 ++ [e.2])

/-- The loop of the constructor over the queue. -/
def breadthFirst (bound : ℕ) : ℕ → List ℕ → List ℕ → List ℕ → Exec (List ℕ × List ℕ)
  | _, fail, order, [] => .ok (fail, order)
  | 0, _, _, _ :: _ => .unfinished
  | n + 1, fail, order, u :: queue => do
    let (fail, queue) ← (t.node u).children.entries.foldlM (linkChild t bound u) (fail, queue)
    breadthFirst bound n fail (order ++ [u]) queue

/-- The pattern of a state, or that of its failure link. -/
def matchOf (fail : List ℕ) (matchTable : List ℤ) (u : ℕ) : ℤ :=
  if (t.node u).pattern ≥ 0 then (t.node u).pattern
  else if u ≠ 0 then matchTable.getD (fail.getD u 0) (-1) else -1

/-- The constructor, with a bound for its loops. -/
def new (bound : ℕ) : Exec AhoCorasick := do
  let n := t.nodes.length
  let (fail, order) ← breadthFirst t bound bound (List.replicate n 0) [] [0]
  pure
    { t, fail, order
      matchTable := order.foldl (fun m u => m.set u (matchOf t fail m u)) (List.replicate n (-1))
      alphabet := (t.nodes.flatMap fun n => n.children.entries.map Prod.fst).toFinset }

variable (a : AhoCorasick)

def matchPattern (s : ℕ) : ℤ := a.matchTable.getD s (-1)

/-- `next`, with a bound for its loop. -/
def next (bound state ch : ℕ) : Exec ℕ := do
  let state ← follow a.t a.fail ch bound state
  pure ((a.t.child state ch).getD 0)

end AhoCorasick

end Llama
