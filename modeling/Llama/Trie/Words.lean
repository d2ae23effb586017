import Llama.Lib.Suffixes
import Llama.Trie
import Mathlib.Data.List.GetD

/-!
# The words of a trie

Every node of a trie is the end of one word, the symbols on the way to it from the root.
`CommonTrie.Words` lists these words by their nodes: a child of a node has its word with one more
symbol, and no two nodes have the same word.  Inserting a pattern adds the words that begin it
(`Words.descend`), and gives its node the number of different patterns before it
(`Holds.insert`).
-/

namespace Llama.CommonTrie

open List

/-- The node that some symbols lead to. -/
def walk (t : CommonTrie) : ℕ → List ℕ → Option ℕ
  | u, [] => some u
  | u, ch :: rest => (t.child u ch).bind fun v => walk t v rest

/-- The words of the nodes, in the order in which the nodes were made. -/
structure Words (t : CommonTrie) (words : List (List ℕ)) : Prop where
  length : t.nodes.length = words.length
  root : words[0]? = some []
  nodup : words.Nodup
  closed : Suffixes.Closed (· ∈ words)
  child_iff : ∀ u ch v, t.child u ch = some v ↔
    ∃ w, words[u]? = some w ∧ words[v]? = some (w ++ [ch])

variable {t : CommonTrie} {words : List (List ℕ)} {u v : ℕ} {w x : List ℕ}

section

variable (h : Words t words)

include h

lemma Words.index_unique (hu : words[u]? = some w)
    (hv : words[v]? = some w) : u = v := by
  obtain ⟨hlt, -⟩ := List.getElem?_eq_some_iff.mp hu
  exact (getElem?_inj hlt h.nodup).mp (hu.trans hv.symm)

lemma Words.lt_length (hu : words[u]? = some w) : u < t.nodes.length := by
  rw [h.length]
  exact (List.getElem?_eq_some_iff.mp hu).1

lemma Words.nil_mem : [] ∈ words := mem_of_getElem? h.root

lemma Words.eq_zero (hu : words[u]? = some []) : u = 0 :=
  h.index_unique hu h.root

/-- The symbols lead from the root to the node with that word. -/
lemma Words.walk_iff (w : List ℕ) : ∀ {u x},
    words[u]? = some x → (t.walk u w = some v ↔ words[v]? = some (x ++ w)) := by
  induction w with
  | nil =>
    intro u x hu
    rw [walk, append_nil, Option.some_inj]
    constructor
    · rintro rfl
      exact hu
    · exact fun hv => h.index_unique hu hv
  | cons ch w ih =>
    intro u x hu
    have hlist : x ++ ch :: w = (x ++ [ch]) ++ w := (append_assoc x [ch] w).symm
    rw [walk, Option.bind_eq_some_iff]
    constructor
    · rintro ⟨y, hy, hv⟩
      obtain ⟨x', hx', hy⟩ := (h.child_iff u ch y).mp hy
      rw [Option.some_inj.mp (hu.symm.trans hx'), append_cons]
      exact (ih hy).mp hv
    · intro hv
      have hmem : x ++ [ch] ∈ words := h.closed _ w (hlist ▸ mem_of_getElem? hv)
      obtain ⟨y, hy⟩ := mem_iff_getElem?.mp hmem
      exact ⟨y, (h.child_iff u ch y).mpr ⟨x, hu, hy⟩, (ih hy).mpr (hlist ▸ hv)⟩

/-- A word is shorter than the number of words, for every beginning of it is one. -/
lemma Words.length_lt (hw : w ∈ words) : w.length < t.nodes.length := by
  have hnodup : ((range (w.length + 1)).map w.take).Nodup := by
    refine nodup_range.map_on fun i hi j hj heq => ?_
    have hlen := congrArg List.length heq
    rw [mem_range] at hi hj
    simp only [length_take] at hlen
    omega
  have hsub : (range (w.length + 1)).map w.take ⊆ words := by
    intro x hx
    obtain ⟨i, -, rfl⟩ := mem_map.mp hx
    exact h.closed _ (w.drop i) ((take_append_drop i w).symm ▸ hw)
  have hle := (subperm_of_subset hnodup hsub).length_le
  rw [length_map, length_range] at hle
  rw [h.length]
  exact hle

end

/-! ## New nodes -/

lemma node_createChild (ch : ℕ) (hu : u < t.nodes.length) (v : ℕ) : (t.createChild u ch).node v =
      if v = u then
        { t.node u with children := (t.node u).children.set ch t.nodes.length }
      else t.node v := by
  have hpad : ∀ v, (t.nodes ++ [({} : TrieNode)]).getD v {} = t.nodes.getD v {} := by
    intro v
    rcases Nat.lt_trichotomy v t.nodes.length with h | h | h
    · exact getD_append _ _ _ _ h
    · subst h
      simp
    · rw [getD_eq_default _ _ (by simp; omega), getD_eq_default _ _ (by omega)]
  have hpad_u := hpad u
  have hpad_v := hpad v
  rw [getD_eq_getElem?_getD] at hpad_u hpad_v
  rw [createChild, node, getD_eq_getElem?_getD, getElem?_modify]
  split
  · rename_i h
    subst h
    have hlt : u < (t.nodes ++ [({} : TrieNode)]).length := by simp; omega
    rw [if_pos rfl, node, ← hpad_u, getElem?_eq_getElem hlt]
    rfl
  · rename_i h
    rw [if_neg (Ne.symm h), node, ← hpad_v, id_map']

lemma pattern_createChild (ch : ℕ) (hu : u < t.nodes.length) (v : ℕ) :
    ((t.createChild u ch).node v).pattern = (t.node v).pattern := by
  rw [node_createChild ch hu]
  split
  · rename_i h
    rw [h]
  · rfl

/-- A word that no node has yet. -/
lemma Words.not_mem (h : Words t words) (hu : words[u]? = some w) {ch : ℕ}
    (hfree : t.child u ch = none) : w ++ [ch] ∉ words := by
  intro hmem
  obtain ⟨v, hv⟩ := mem_iff_getElem?.mp hmem
  rw [(h.child_iff u ch v).mpr ⟨w, hu, hv⟩] at hfree
  cases hfree

lemma getElem?_concat {y : List ℕ} :
    (words ++ [y])[v]? = some x ↔ words[v]? = some x ∨ v = words.length ∧ x = y := by
  rcases Nat.lt_trichotomy v words.length with h | h | h
  · rw [getElem?_append_left h]
    constructor
    · exact .inl
    · rintro (hv | ⟨hv, -⟩)
      · exact hv
      · omega
  · subst h
    simp [eq_comm]
  · rw [getElem?_eq_none (by simp; omega), getElem?_eq_none (by omega)]
    simp
    omega

lemma Words.createChild (h : Words t words) (hu : words[u]? = some w) {ch : ℕ}
    (hfree : t.child u ch = none) : Words (t.createChild u ch) (words ++ [w ++ [ch]]) where
  length := by simp [CommonTrie.createChild, h.length]
  root := getElem?_concat.mpr (.inl h.root)
  nodup := by
    rw [nodup_append]
    refine ⟨h.nodup, nodup_singleton _, fun a ha b hb hab => ?_⟩
    rw [hab, mem_singleton.mp hb] at ha
    exact h.not_mem hu hfree ha
  closed := by
    intro x y hxy
    rcases mem_append.mp hxy with hxy | hxy
    · exact mem_append_left _ (h.closed x y hxy)
    · rw [mem_singleton] at hxy
      rcases eq_nil_or_concat y with rfl | ⟨z, c, rfl⟩
      · rw [append_nil] at hxy
        exact mem_append_right _ (mem_singleton.mpr hxy)
      · rw [concat_eq_append, ← append_assoc] at hxy
        have hw := (append_inj' hxy rfl).1
        exact mem_append_left _ (h.closed x z (hw ▸ mem_of_getElem? hu))
  child_iff := by
    intro x c v
    have hlt := h.lt_length hu
    have hfresh := h.not_mem hu hfree
    have hold : (t.createChild u ch).child x c = some v ↔
        t.child x c = some v ∨ x = u ∧ c = ch ∧ v = words.length := by
      rw [child, node_createChild ch hlt]
      split
      · rename_i hx
        subst hx
        rw [Children.find_eq_some_iff, Children.mem_set hfree, ← Children.find_eq_some_iff,
          Prod.mk.injEq, h.length]
        simp [child]
      · rename_i hx
        simp [child, hx]
    rw [hold, h.child_iff]
    simp only [getElem?_concat]
    constructor
    · rintro (⟨y, hx, hv⟩ | ⟨rfl, rfl, rfl⟩)
      · exact ⟨y, .inl hx, .inl hv⟩
      · exact ⟨w, .inl hu, .inr ⟨rfl, rfl⟩⟩
    · rintro ⟨y, hx | ⟨rfl, rfl⟩, hv | ⟨rfl, hv⟩⟩
      · exact .inl ⟨y, hx, hv⟩
      · obtain ⟨rfl, hc⟩ := append_inj' hv rfl
        exact .inr ⟨h.index_unique hx hu, singleton_inj.mp hc, rfl⟩
      · -- the new word begins no other word
        exact absurd (h.closed _ _ (mem_of_getElem? hv)) hfresh
      · simp at hv

/-- **The symbols of a pattern lead to their node**, with new nodes for the words on the way. -/
theorem Words.descend (rest : List ℕ) : ∀ {t : CommonTrie} {words : List (List ℕ)} {u w},
    Words t words → words[u]? = some w →
    ∃ words' : List (List ℕ), Words (t.descend u rest).1 words' ∧
      words'[(t.descend u rest).2]? = some (w ++ rest) ∧
      (∀ (v : ℕ) x, words[v]? = some x → words'[v]? = some x) ∧
      (∀ x, x ∈ words' ↔ x ∈ words ∨ w <+: x ∧ x <+: w ++ rest) ∧
      (t.descend u rest).1.nPatterns = t.nPatterns ∧
      ∀ v, ((t.descend u rest).1.node v).pattern = (t.node v).pattern := by
  induction rest with
  | nil =>
    intro t words u w h hu
    refine ⟨words, h, by rw [append_nil]; exact hu, fun _ _ hv => hv, fun x => ?_, rfl,
      fun _ => rfl⟩
    rw [append_nil]
    refine ⟨.inl, fun hx => hx.elim id fun hx => ?_⟩
    rw [← hx.1.eq_of_length_le hx.2.length_le]
    exact mem_of_getElem? hu
  | cons ch rest ih =>
    intro t words u w h hu
    have hlist : w ++ ch :: rest = (w ++ [ch]) ++ rest := (append_assoc w [ch] rest).symm
    -- between `w` and the pattern there are `w` and what begins with the next symbol too
    have hbetween : ∀ x, w <+: x ∧ x <+: w ++ ch :: rest ↔
        x = w ∨ w ++ [ch] <+: x ∧ x <+: w ++ ch :: rest := by
      intro x
      constructor
      · rintro ⟨⟨y, rfl⟩, hx⟩
        rw [prefix_append_right_inj] at hx
        cases y with
        | nil => exact .inl (append_nil w)
        | cons c y =>
          obtain ⟨rfl, hy⟩ := cons_prefix_cons.mp hx
          refine .inr ⟨⟨y, append_assoc w [c] y⟩, ?_⟩
          rwa [prefix_append_right_inj]
      · rintro (rfl | ⟨hw, hx⟩)
        · exact ⟨prefix_refl _, prefix_append _ _⟩
        · exact ⟨(prefix_append w [ch]).trans hw, hx⟩
    rw [CommonTrie.descend, hlist]
    cases hc : t.child u ch with
    | some v =>
      obtain ⟨w', hw', hv⟩ := (h.child_iff u ch v).mp hc
      rw [← Option.some_inj.mp (hu.symm.trans hw')] at hv
      obtain ⟨words', h', hend, hkeep, hmem, hn, hpat⟩ := ih h hv
      refine ⟨words', h', hend, hkeep, fun x => ?_, hn, hpat⟩
      rw [hmem, ← hlist, hbetween]
      constructor
      · exact fun hx => hx.imp_right .inr
      · rintro (hx | rfl | hx)
        · exact .inl hx
        · exact .inl (mem_of_getElem? hu)
        · exact .inr hx
    | none =>
      have h1 := h.createChild hu hc
      have hnew : (words ++ [w ++ [ch]])[t.nodes.length]? = some (w ++ [ch]) :=
        getElem?_concat.mpr (.inr ⟨h.length, rfl⟩)
      obtain ⟨words', h', hend, hkeep, hmem, hn, hpat⟩ := ih h1 hnew
      refine ⟨words', h', hend, fun v x hv => hkeep v x (getElem?_concat.mpr (.inl hv)),
        fun x => ?_, hn, fun v => ?_⟩
      · rw [hmem, ← hlist, hbetween, mem_append, mem_singleton]
        constructor
        · rintro ((hx | rfl) | hx)
          · exact .inl hx
          · exact .inr (.inr ⟨prefix_refl _, hlist ▸ prefix_append _ _⟩)
          · exact .inr (.inr hx)
        · rintro (hx | rfl | hx)
          · exact .inl (.inl hx)
          · exact .inl (.inl (mem_of_getElem? hu))
          · exact .inr hx
      · exact (hpat v).trans (pattern_createChild ch (h.lt_length hu) v)

/-! ## The patterns -/

/-- The index of a pattern, `-1` for another word. -/
def patternIndex (patterns : List (List ℕ)) (w : List ℕ) : ℤ :=
  if w ∈ patterns then patterns.idxOf w else -1

lemma patternIndex_nonneg_iff {patterns : List (List ℕ)} :
    0 ≤ patternIndex patterns w ↔ w ∈ patterns := by
  rw [patternIndex]
  split
  · rename_i h
    exact iff_of_true (Int.natCast_nonneg _) h
  · rename_i h
    exact iff_of_false (by decide) h

/-- The words begin the patterns, and the nodes of the patterns have their indices. -/
structure Holds (t : CommonTrie) (words patterns : List (List ℕ)) : Prop
    extends Words t words where
  mem_iff : ∀ w, w ∈ words ↔ w = [] ∨ ∃ p ∈ patterns, w <+: p
  pattern : ∀ u w, words[u]? = some w → (t.node u).pattern = patternIndex patterns w
  count : t.nPatterns = patterns.length

variable {patterns : List (List ℕ)}

lemma holds_empty : Holds {} [[]] [] where
  length := rfl
  root := rfl
  nodup := nodup_singleton _
  closed w v h :=
    mem_singleton.mpr (append_eq_nil_iff.mp (mem_singleton.mp h)).1
  child_iff u ch v := by
    have hchild : ({} : CommonTrie).child u ch = none := by
      cases u <;> rfl
    rw [hchild]
    refine iff_of_false (by simp) ?_
    rintro ⟨w, -, hv⟩
    have hmem := mem_of_getElem? hv
    simp at hmem
  mem_iff w := by simp
  pattern u w _ := by
    cases u <;> rfl
  count := rfl

/-- The patterns with another one, if it is not among them. -/
def addPattern (patterns : List (List ℕ)) (p : List ℕ) : List (List ℕ) :=
  if p ∈ patterns then patterns else patterns ++ [p]

lemma mem_addPattern {p q : List ℕ} : q ∈ addPattern patterns p ↔ q ∈ patterns ∨ q = p := by
  rw [addPattern]
  split
  · refine ⟨.inl, fun hq => hq.elim id fun hq => ?_⟩
    rwa [hq]
  · simp

lemma node_modify (f : TrieNode → TrieNode) (hu : u < t.nodes.length) (k : ℤ) (v : ℕ) :
    node { nodes := t.nodes.modify u f, nPatterns := k } v =
      if v = u then f (t.node u) else t.node v := by
  rw [node, getD_eq_getElem?_getD, getElem?_modify]
  split
  · rename_i h
    subst h
    rw [if_pos rfl, getElem?_eq_getElem hu, node, getD_eq_getElem _ _ hu]
    rfl
  · rename_i h
    rw [if_neg (Ne.symm h), id_map']
    rfl

/-- **A pattern is inserted.** -/
theorem Holds.insert (h : Holds t words patterns) (p : List ℕ) :
    (t.insert p).1 = patternIndex (addPattern patterns p) p ∧
      ∃ words', Holds (t.insert p).2 words' (addPattern patterns p) := by
  obtain ⟨words', h', hend, hkeep, hmem, hn, hpat⟩ := h.toWords.descend p h.root
  rw [nil_append] at hend
  have hmem_iff : ∀ w, w ∈ words' ↔ w = [] ∨ ∃ q ∈ addPattern patterns p, w <+: q := by
    intro w
    rw [hmem, h.mem_iff, nil_append]
    constructor
    · rintro ((hw | ⟨q, hq, hw⟩) | ⟨-, hw⟩)
      · exact .inl hw
      · exact .inr ⟨q, mem_addPattern.mpr (.inl hq), hw⟩
      · exact .inr ⟨p, mem_addPattern.mpr (.inr rfl), hw⟩
    · rintro (hw | ⟨q, hq, hw⟩)
      · exact .inl (.inl hw)
      · rcases mem_addPattern.mp hq with hq | rfl
        · exact .inl (.inr ⟨q, hq, hw⟩)
        · exact .inr ⟨ nil_prefix, hw⟩
  -- the nodes that were there before keep their patterns, new ones have none
  have hold : ∀ u w, words'[u]? = some w →
      ((t.descend 0 p).1.node u).pattern = patternIndex patterns w := by
    intro u w hu
    rw [hpat]
    cases hv : words[u]? with
    | some x =>
      rw [← Option.some_inj.mp ((hkeep u x hv).symm.trans hu)]
      exact h.pattern u x hv
    | none =>
      have hw : w ∉ patterns := by
        intro hw
        obtain ⟨v, hv'⟩ := mem_iff_getElem?.mp
          ((h.mem_iff w).mpr (.inr ⟨w, hw, prefix_refl w⟩))
        rw [h'.index_unique hu (hkeep v w hv'), hv'] at hv
        cases hv
      rw [patternIndex, if_neg hw, node, getD_eq_default]
      rw [h.length]
      exact List.getElem?_eq_none_iff.mp hv
  rw [CommonTrie.insert]
  split
  rename_i t' current heq
  rw [heq] at h' hend hn hold
  have hcur := hold current p hend
  rw [hcur]
  by_cases hp : p ∈ patterns
  · have hlt : ¬ patternIndex patterns p < 0 :=
      Int.not_lt.mpr (patternIndex_nonneg_iff.mpr hp)
    have hadd : addPattern patterns p = patterns := if_pos hp
    rw [if_neg hlt, hadd]
    refine ⟨rfl, words', h', ?_, hold, hn.trans h.count⟩
    rwa [hadd] at hmem_iff
  · have hlt : patternIndex patterns p < 0 :=
      Int.not_le.mp fun h => hp (patternIndex_nonneg_iff.mp h)
    have hadd : addPattern patterns p = patterns ++ [p] := if_neg hp
    have hindex : patternIndex (patterns ++ [p]) p = patterns.length := by
      rw [patternIndex, if_pos (mem_append_right _ (mem_singleton_self p)),
        idxOf_append_of_notMem hp]
      simp
    have hlen := h'.lt_length hend
    rw [if_pos hlt]
    refine ⟨by rw [hadd, hindex]; exact hn.trans h.count, words', ⟨?_, h'.root, h'.nodup,
      h'.closed, fun u ch v => ?_⟩, hmem_iff, fun u w hu => ?_, ?_⟩
    · rw [List.length_modify]
      exact h'.length
    · rw [← h'.child_iff, child, node_modify _ hlen]
      split
      · rename_i hu
        rw [hu]
        rfl
      · rfl
    · rw [node_modify _ hlen, hadd]
      split
      · rename_i hu'
        subst hu'
        rw [← Option.some_inj.mp (hend.symm.trans hu), hindex]
        exact hn.trans h.count
      · rename_i hu'
        have hne : w ≠ p := fun hw => hu' (h'.index_unique (hw ▸ hu) hend)
        rw [hold u w hu, patternIndex, patternIndex]
        by_cases hw : w ∈ patterns
        · rw [if_pos hw, if_pos (mem_append_left _ hw), idxOf_append_of_mem hw]
        · simp [hw, hne]
    · rw [hadd, length_append]
      rw [hn, h.count]
      rfl

/-- The different patterns, in the order of their first insertion. -/
def distinct (patterns : List (List ℕ)) : List (List ℕ) := patterns.foldl addPattern []

lemma mem_distinct {p : List ℕ} : p ∈ distinct patterns ↔ p ∈ patterns := by
  induction patterns using reverseRecOn with
  | nil => exact Iff.rfl
  | append_singleton patterns q ih =>
    rw [distinct, foldl_append]
    change p ∈ addPattern (distinct patterns) q ↔ _
    rw [mem_addPattern, ih, mem_append, mem_singleton]

/-- **The trie of some patterns has the words that begin them.** -/
theorem holds_ofSymbols (patterns : List (List ℕ)) :
    ∃ words, Holds (ofSymbols patterns) words (distinct patterns) := by
  induction patterns using reverseRecOn with
  | nil => exact ⟨_, holds_empty⟩
  | append_singleton patterns p ih =>
    obtain ⟨words, h⟩ := ih
    rw [ofSymbols, distinct, foldl_append, foldl_append]
    exact (h.insert p).2

end Llama.CommonTrie
