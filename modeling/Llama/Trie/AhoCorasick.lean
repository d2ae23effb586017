import Llama.Lib.BreadthFirst
import Llama.Trie.Words

/-!
# The automaton for all patterns at once

The state of the automaton is the node of the longest suffix of the text that begins a pattern.
The failure link of a node leads to the longest proper suffix of its word that is a word
(`LinkOk`); following the links gives up one suffix after the other until the next symbol extends
one (`follow_spec`).  The links of a node are found with those of nodes that are less deep, which
is why the constructor goes breadth first.
-/

namespace Llama.AhoCorasick

open CommonTrie Suffixes BreadthFirst List

/-- The failure link of a node leads to the longest suffix of the rest of its word. -/
def LinkOk (words : List (List ℕ)) (fail : List ℕ) (u : ℕ) : Prop :=
  ∀ w, words[u]? = some w → ∃ f, words[fail.getD u 0]? = some f ∧ Longest (· ∈ words) w.tail f

variable {t : CommonTrie} {words : List (List ℕ)} {fail : List ℕ} {u v ch bound : ℕ}
  {w wu : List ℕ}

/-- Where the symbol leads from a state, the root if nowhere. -/
lemma step_spec (h : Words t words) {s : List ℕ} (hu : words[u]? = some s)
    (hs : Candidate (· ∈ words) w ch s) (hstop : ¬ (u ≠ 0 ∧ t.child u ch = none)) :
    ∃ y, words[(t.child u ch).getD 0]? = some y ∧ Longest (· ∈ words) (w ++ [ch]) y := by
  cases hc : t.child u ch with
  | some v =>
    obtain ⟨s', hs', hv⟩ := (h.child_iff u ch v).mp hc
    rw [← Option.some_inj.mp (hu.symm.trans hs')] at hv
    exact ⟨_, hv, hs.extend (mem_of_getElem? hv)⟩
  | none =>
    have hzero : u = 0 := not_ne_iff.mp fun hne => hstop ⟨hne, hc⟩
    subst hzero
    rw [← Option.some_inj.mp (h.root.symm.trans hu)] at hs
    exact ⟨[], h.root, hs.none h.nil_mem (h.not_mem h.root hc)⟩

/-- **The links are followed until the symbol extends what is left.** -/
theorem follow_spec (h : Words t words) : ∀ {bound u : ℕ} {s : List ℕ},
    words[u]? = some s → s.length < bound →
    (∀ v x, words[v]? = some x → x.length ≤ s.length → LinkOk words fail v) →
    Candidate (· ∈ words) w ch s →
    ∃ v y, follow t fail ch bound u = .ok v ∧ words[(t.child v ch).getD 0]? = some y ∧
      Longest (· ∈ words) (w ++ [ch]) y := by
  intro bound
  induction bound with
  | zero => exact fun _ hs => absurd hs (Nat.not_lt_zero _)
  | succ n ih =>
    intro u s hu hlen hlink hs
    rw [follow]
    by_cases hstop : u ≠ 0 ∧ t.child u ch = none
    · rw [if_pos hstop]
      have hne : s ≠ [] := by
        rintro rfl
        exact hstop.1 (h.eq_zero hu)
      obtain ⟨f, hf, hlong⟩ := hlink u s hu (Nat.le_refl _) s hu
      have hlt : f.length < s.length := by
        have hle := hlong.suffix.length_le
        have hpos := length_pos_iff.mpr hne
        rw [length_tail] at hle
        omega
      refine ih hf (by omega) (fun v x hv hx => hlink v x hv (by omega)) ?_
      exact hs.fall h.closed (h.not_mem hu hstop.2) hlong
    · rw [if_neg hstop]
      obtain ⟨y, hy, hlong⟩ := step_spec h hu hs hstop
      exact ⟨u, y, rfl, hy, hlong⟩

lemma getD_set (l : List ℕ) (i a j : ℕ) :
    (l.set i a).getD j 0 = if i = j ∧ i < l.length then a else l.getD j 0 := by
  by_cases hij : i = j
  · subst hij
    by_cases hlt : i < l.length
    · simp [hlt]
    · simp [hlt]
  · simp [hij]

/-- A link is set, and the others are still right. -/
lemma LinkOk.set {a : ℕ} (hv : v < fail.length) (hword : words[v]? = some w)
    (ha : ∃ f, words[a]? = some f ∧ Longest (· ∈ words) w.tail f) :
    LinkOk words (fail.set v a) v ∧ ∀ x, LinkOk words fail x → LinkOk words (fail.set v a) x := by
  have hset : LinkOk words (fail.set v a) v := by
    intro y hy
    rw [← Option.some_inj.mp (hword.symm.trans hy), getD_set, if_pos ⟨rfl, hv⟩]
    exact ha
  refine ⟨hset, fun x hx => ?_⟩
  by_cases heq : v = x
  · exact heq ▸ hset
  · intro y hy
    rw [getD_set, if_neg fun h => heq h.1]
    exact hx y hy

/-- What processing the children of a node does to the links and to the queue. -/
structure Linked (words : List (List ℕ)) (s s' : List ℕ × List ℕ) (added : List ℕ) : Prop where
  length : s'.1.length = s.1.length
  keep : ∀ x, LinkOk words s.1 x → LinkOk words s'.1 x
  new : ∀ v ∈ added, LinkOk words s'.1 v
  queue : s'.2 = s.2 ++ added

/-- A child gets its link. -/
lemma linkChild_spec (h : Words t words) (hbound : ∀ w ∈ words, w.length < bound)
    (hu : words[u]? = some wu) {s : List ℕ × List ℕ} (hlen : s.1.length = t.nodes.length)
    (hlink : ∀ v x, words[v]? = some x → x.length ≤ max 1 wu.length → LinkOk words s.1 v)
    {e : ℕ × ℕ} (he : t.child u e.1 = some e.2) :
    ∃ s', linkChild t bound u s e = .ok s' ∧ Linked words s s' [e.2] := by
  obtain ⟨wu', hu', hv⟩ := (h.child_iff u e.1 e.2).mp he
  rw [← Option.some_inj.mp (hu.symm.trans hu')] at hv
  rw [linkChild]
  by_cases hzero : u = 0
  · -- a child of the root, whose link is the root from the beginning
    subst hzero
    refine ⟨_, rfl, rfl, fun _ hx => hx, fun v hmem => ?_, rfl⟩
    rw [mem_singleton.mp hmem]
    refine hlink e.2 _ hv ?_
    rw [← Option.some_inj.mp (h.root.symm.trans hu)]
    exact Nat.le_max_left _ _
  · rw [if_pos hzero]
    have hne : wu ≠ [] := fun hnil => hzero (h.eq_zero (hnil ▸ hu))
    obtain ⟨f, hf, hlong⟩ := hlink u wu hu (Nat.le_max_right _ _) wu hu
    have hle : f.length ≤ wu.length :=
      hlong.suffix.length_le.trans (tail_suffix wu).length_le
    obtain ⟨x, y, hfollow, hy, hend⟩ := follow_spec h hf
      (hbound f (mem_of_getElem? hf))
      (fun v x hv hx => hlink v x hv ((hx.trans hle).trans (Nat.le_max_right _ _)))
      (hlong.candidate h.closed e.1)
    -- the link is shorter than the word of the child, and so leads to another node
    have hlink_eq : linkTo e.2 (t.child x e.1) = (t.child x e.1).getD 0 := by
      cases hc : t.child x e.1 with
      | none => rfl
      | some v =>
        rw [hc] at hy
        refine if_pos fun heq => ?_
        rw [heq, Option.getD_some, hv] at hy
        have hlen := hend.suffix.length_le
        rw [← Option.some_inj.mp hy] at hlen
        have hpos := length_pos_iff.mpr hne
        simp only [length_append, length_tail] at hlen
        omega
    have htail : (wu ++ [e.1]).tail = wu.tail ++ [e.1] := by
      cases wu with
      | nil => exact absurd rfl hne
      | cons a wu => rfl
    rw [hfollow, Exec.ok_bind, hlink_eq]
    obtain ⟨hset, hkeep⟩ := LinkOk.set (hlen ▸ h.lt_length hv) hv
      ⟨y, hy, htail ▸ hend⟩
    exact ⟨_, rfl, by simp, hkeep, fun v hmem => mem_singleton.mp hmem ▸ hset, rfl⟩

/-- **The children of a node get their links.** -/
theorem linkChildren_spec (h : Words t words) (hbound : ∀ w ∈ words, w.length < bound)
    (hu : words[u]? = some wu) (es : List (ℕ × ℕ)) : ∀ {s : List ℕ × List ℕ},
    s.1.length = t.nodes.length →
    (∀ v x, words[v]? = some x → x.length ≤ max 1 wu.length → LinkOk words s.1 v) →
    (∀ e ∈ es, t.child u e.1 = some e.2) →
    ∃ s', es.foldlM (linkChild t bound u) s = .ok s' ∧ Linked words s s' (es.map Prod.snd) := by
  induction es with
  | nil =>
    intro s _ _ _
    exact ⟨s, rfl, rfl, fun _ hx => hx, fun _ hv => absurd hv not_mem_nil, (append_nil _).symm⟩
  | cons e es ih =>
    intro s hlen hlink hes
    obtain ⟨he, hes⟩ := forall_mem_cons.mp hes
    obtain ⟨s1, h1, hs1⟩ := linkChild_spec h hbound hu hlen hlink he
    obtain ⟨s2, h2, hs2⟩ := ih (hs1.length.trans hlen)
      (fun v x hv hx => hs1.keep v (hlink v x hv hx)) hes
    refine ⟨s2, by rw [foldlM_cons, h1, Exec.ok_bind, h2], hs2.length.trans hs1.length,
      fun x hx => hs2.keep x (hs1.keep x hx), fun v hv => ?_, ?_⟩
    · rcases mem_cons.mp hv with rfl | hv
      · exact hs2.keep _ (hs1.new _ (mem_singleton_self _))
      · exact hs2.new v hv
    · rw [hs2.queue, hs1.queue, append_assoc]
      rfl

/-! ## Breadth first -/

/-- The children of a node. -/
def kids (t : CommonTrie) (u : ℕ) : List ℕ := (t.node u).children.entries.map Prod.snd

/-- The length of the word of a node. -/
def depth (words : List (List ℕ)) (u : ℕ) : ℕ := (words.getD u []).length

lemma depth_eq (hu : words[u]? = some w) : depth words u = w.length := by
  rw [depth, getD_eq_getElem?_getD, hu]
  rfl

lemma mem_kids (h : Words t words) :
    v ∈ kids t u ↔ ∃ ch w, words[u]? = some w ∧ words[v]? = some (w ++ [ch]) := by
  simp only [kids, mem_map, Prod.exists, ← h.child_iff, child, Children.find_eq_some_iff]
  constructor
  · rintro ⟨ch, v, hmem, rfl⟩
    exact ⟨ch, hmem⟩
  · rintro ⟨ch, hmem⟩
    exact ⟨ch, v, hmem, rfl⟩

lemma child_of_mem {e : ℕ × ℕ} (he : e ∈ (t.node u).children.entries) :
    t.child u e.1 = some e.2 := Children.find_eq_some_iff.mpr he

/-- The nodes are a tree by the length of their words. -/
lemma tree (h : Words t words) : Tree 0 (kids t) (depth words) where
  depth_root := depth_eq h.root
  depth_child := by
    intro u v hv
    obtain ⟨ch, w, hu, hv⟩ := (mem_kids h).mp hv
    rw [depth_eq hu, depth_eq hv, length_append, length_singleton]
  nodup u := by
    rw [kids, List.Nodup, pairwise_map]
    refine (t.node u).children.sorted.imp_of_mem fun {a b} ha hb hlt heq => ?_
    obtain ⟨w, hw, ha⟩ := (h.child_iff _ _ _).mp (child_of_mem ha)
    obtain ⟨w', hw', hb⟩ := (h.child_iff _ _ _).mp (child_of_mem hb)
    rw [heq, hb, Option.some_inj] at ha
    have hch := singleton_inj.mp (append_inj' ha rfl).2
    omega
  parent_unique := by
    intro u u' v hv hv'
    obtain ⟨ch, w, hu, hv⟩ := (mem_kids h).mp hv
    obtain ⟨ch', w', hu', hv'⟩ := (mem_kids h).mp hv'
    have hw := (append_inj' (Option.some_inj.mp (hv.symm.trans hv')) rfl).1
    exact h.index_unique hu (hw ▸ hu')

lemma reach (h : Words t words) (w : List ℕ) : ∀ {v}, words[v]? = some w → Reach 0 (kids t) v := by
  induction w using reverseRecOn with
  | nil =>
    intro v hv
    rw [h.eq_zero hv]
    exact Relation.ReflTransGen.refl
  | append_singleton w ch ih =>
    intro v hv
    obtain ⟨u, hu⟩ := mem_iff_getElem?.mp (h.closed w [ch] (mem_of_getElem? hv))
    exact (ih hu).tail ((mem_kids h).mpr ⟨ch, w, hu, hv⟩)

/-- What is found is a node. -/
lemma found_lt (h : Words t words) {order queue : List ℕ}
    (hinv : Inv 0 (kids t) (depth words) order queue) (hv : v ∈ order ++ queue) :
    v < t.nodes.length := by
  rcases hinv.parent v hv with rfl | ⟨u, -, hv⟩
  · exact h.lt_length h.root
  · obtain ⟨ch, w, -, hv⟩ := (mem_kids h).mp hv
    exact h.lt_length hv

/-- There is a round for every node. -/
lemma found_length_le (h : Words t words) {order queue : List ℕ}
    (hinv : Inv 0 (kids t) (depth words) order queue) :
    (order ++ queue).length ≤ t.nodes.length := by
  have hsub : order ++ queue ⊆ range t.nodes.length := fun v hv =>
    mem_range.mpr (found_lt h hinv hv)
  simpa using (subperm_of_subset hinv.nodup hsub).length_le

/-- **Every node is visited, and gets its link.** -/
theorem breadthFirst_spec (h : Words t words) (hbound : ∀ w ∈ words, w.length < bound) (n : ℕ) :
    ∀ {fail order queue}, Inv 0 (kids t) (depth words) order queue →
      t.nodes.length ≤ order.length + n → fail.length = t.nodes.length →
      (∀ v ∈ order ++ queue, LinkOk words fail v) →
      (∀ v x, words[v]? = some x → x.length ≤ 1 → LinkOk words fail v) →
      ∃ fail' order', breadthFirst t bound n fail order queue = .ok (fail', order') ∧
        Inv 0 (kids t) (depth words) order' [] ∧ ∀ v ∈ order', LinkOk words fail' v := by
  have hdone : ∀ n fail order, Inv 0 (kids t) (depth words) order [] →
      (∀ v ∈ order ++ [], LinkOk words fail v) →
      ∃ fail' order', breadthFirst t bound n fail order [] = .ok (fail', order') ∧
        Inv 0 (kids t) (depth words) order' [] ∧ ∀ v ∈ order', LinkOk words fail' v :=
    fun n fail order hinv hlink =>
      ⟨fail, order, by cases n <;> rfl, hinv, by rwa [append_nil] at hlink⟩
  induction n with
  | zero =>
    intro fail order queue hinv hn _ hlink _
    have hle := found_length_le h hinv
    rw [length_append] at hle
    have hnil : queue = [] := length_eq_zero_iff.mp (by omega)
    subst hnil
    exact hdone 0 fail order hinv hlink
  | succ n ih =>
    intro fail order queue hinv hn hlen hlink hlow
    cases queue with
    | nil => exact hdone (n + 1) fail order hinv hlink
    | cons u queue =>
      have hu : u ∈ order ++ u :: queue := mem_append_right _ mem_cons_self
      have hlt : u < words.length := h.length ▸ found_lt h hinv hu
      obtain ⟨wu, hwu⟩ : ∃ wu, words[u]? = some wu := ⟨_, getElem?_eq_getElem hlt⟩
      have hshallow : ∀ v x, words[v]? = some x → x.length ≤ max 1 wu.length →
          LinkOk words fail v := by
        intro v x hv hx
        rcases Nat.le_or_le 1 wu.length with hle | hle
        · refine hlink v (hinv.before (tree h) (reach h x hv) ?_)
          rw [depth_eq hv, depth_eq hwu]
          rwa [Nat.max_eq_right hle] at hx
        · exact hlow v x hv (by rwa [Nat.max_eq_left hle] at hx)
      obtain ⟨⟨fail', queue'⟩, hfold, hl⟩ := linkChildren_spec h hbound hwu
        (t.node u).children.entries (s := (fail, queue)) hlen hshallow fun e he => child_of_mem he
      obtain rfl : queue' = queue ++ kids t u := hl.queue
      rw [breadthFirst, hfold]
      refine ih (hinv.step (tree h)) ?_ (hl.length.trans hlen) (fun v hv => ?_)
        fun v x hv hx => hl.keep v (hlow v x hv hx)
      · rw [length_append, length_singleton]
        omega
      · rw [append_assoc, singleton_append] at hv
        rcases mem_append.mp hv with hv | hv
        · exact hl.keep v (hlink v (mem_append_left _ hv))
        · rcases mem_cons.mp hv with rfl | hv
          · exact hl.keep v (hlink v hu)
          · rcases mem_append.mp hv with hv | hv
            · exact hl.keep v (hlink v (mem_append_right _ (mem_cons_of_mem _ hv)))
            · exact hl.new v hv

/-! ## The patterns -/

/-- The index of the longest pattern at the end of a text, `-1` without one. -/
def Ends (patterns : List (List ℕ)) (text : List ℕ) (k : ℤ) : Prop :=
  (∃ p, Longest (· ∈ patterns) text p ∧ k = patternIndex patterns p) ∨
    (∀ p ∈ patterns, ¬ p <:+ text) ∧ k = -1

variable {patterns : List (List ℕ)}

/-- A text and its longest suffix that begins a pattern end with the same patterns. -/
lemma ends_longest_iff {s : List ℕ} {k : ℤ} (h : Longest (· ∈ words) w s)
    (hp : ∀ p ∈ patterns, p ∈ words) : Ends patterns s k ↔ Ends patterns w k := by
  refine or_congr (exists_congr fun p => and_congr_left' (h.trans_iff hp))
    (and_congr_left' (forall₂_congr fun p hmem => not_congr ?_))
  have hsuffix := h.suffix_iff (hp p)
  exact ⟨fun hs => (hsuffix.mp ⟨hs, hmem⟩).1, fun hs => (hsuffix.mpr ⟨hs, hmem⟩).1⟩

/-- A word that is no pattern ends with the patterns at the end of its tail. -/
lemma ends_tail_iff {k : ℤ} (hw : w ∉ patterns) : Ends patterns w.tail k ↔ Ends patterns w k := by
  have hsuffix : ∀ p ∈ patterns, p <:+ w.tail ↔ p <:+ w := fun p hp =>
    ⟨fun hs => hs.trans (tail_suffix w), fun hs =>
      suffix_tail hs fun heq => hw (heq ▸ hp)⟩
  refine or_congr (exists_congr fun p => and_congr_left' ?_)
    (and_congr_left' (forall₂_congr fun p hp => not_congr (hsuffix p hp)))
  constructor
  · exact fun h => ⟨(hsuffix p h.holds).mp h.suffix, h.holds, fun q hq hmem =>
      h.max q ((hsuffix q hmem).mpr hq) hmem⟩
  · exact fun h => ⟨(hsuffix p h.holds).mpr h.suffix, h.holds, fun q hq hmem =>
      h.max q ((hsuffix q hmem).mp hq) hmem⟩

/-- The table is right for a state. -/
def MatchOk (words patterns : List (List ℕ)) (table : List ℤ) (u : ℕ) : Prop :=
  ∀ w, words[u]? = some w → Ends patterns w (table.getD u (-1))

/-- A state has the pattern of its word or those of its failure link. -/
lemma matchOf_spec (h : Holds t words patterns) {table : List ℤ} (hu : words[u]? = some w)
    (hlink : LinkOk words fail u)
    (hless : ∀ v x, words[v]? = some x → x.length < w.length → MatchOk words patterns table v) :
    Ends patterns w (matchOf t fail table u) := by
  have hp : ∀ p ∈ patterns, p ∈ words := fun p hp =>
    (h.mem_iff p).mpr (.inr ⟨p, hp, prefix_refl p⟩)
  rw [matchOf, h.pattern u w hu]
  by_cases hw : w ∈ patterns
  · rw [if_pos (patternIndex_nonneg_iff.mpr hw)]
    exact .inl ⟨w, longest_of_length_le (suffix_refl w) hw fun _ ht _ => ht.length_le, rfl⟩
  · rw [if_neg fun hle => hw (patternIndex_nonneg_iff.mp hle)]
    by_cases hzero : u = 0
    · subst hzero
      obtain rfl := Option.some_inj.mp (h.root.symm.trans hu)
      refine .inr ⟨fun p hmem hs => ?_, rfl⟩
      exact hw (suffix_nil.mp hs ▸ hmem)
    · rw [if_pos hzero]
      obtain ⟨f, hf, hlong⟩ := hlink w hu
      have hne : w ≠ [] := fun hnil => hzero (h.eq_zero (hnil ▸ hu))
      have hlt : f.length < w.length := by
        have hle := hlong.suffix.length_le
        have hpos := length_pos_iff.mpr hne
        rw [length_tail] at hle
        omega
      rw [← ends_tail_iff hw, ← ends_longest_iff hlong hp]
      exact hless _ f hf hlt f hf

lemma table_getD_set (l : List ℤ) (i j : ℕ) (a : ℤ) (hi : i < l.length) :
    (l.set i a).getD j (-1) = if i = j then a else l.getD j (-1) := by
  by_cases hij : i = j
  · subst hij
    simp [hi]
  · simp [hij]

/-- **The table is filled in the order of the states.** -/
theorem matchTable_spec (h : Holds t words patterns) {order : List ℕ}
    (hinv : Inv 0 (kids t) (depth words) order []) (hlink : ∀ v ∈ order, LinkOk words fail v)
    (post : List ℕ) : ∀ {pre table}, order = pre ++ post → table.length = t.nodes.length →
      (∀ u ∈ pre, MatchOk words patterns table u) →
      ∀ u ∈ order, MatchOk words patterns
        (post.foldl (fun m u => m.set u (matchOf t fail m u)) table) u := by
  induction post with
  | nil =>
    intro pre table horder _ hpre
    rw [append_nil] at horder
    exact horder ▸ hpre
  | cons u post ih =>
    intro pre table horder hlen hpre
    have hu : u ∈ order := horder ▸ mem_append_right _ mem_cons_self
    have hlt : u < t.nodes.length := found_lt h.toWords hinv (mem_append_left _ hu)
    have horder' : order = (pre ++ [u]) ++ post := by rw [horder, append_assoc]; rfl
    refine ih horder' (by simpa using hlen) ?_
    intro v hv w hw
    rw [table_getD_set _ _ _ _ (hlen ▸ hlt)]
    by_cases huv : u = v
    · subst huv
      rw [if_pos rfl]
      refine matchOf_spec h hw (hlink u hu) fun v x hx hxlt => hpre v ?_
      have hmem : v ∈ order := hinv.complete (reach h.toWords x hx)
      rw [horder] at hinv hmem
      refine hinv.mem_of_lt hmem ?_
      rwa [depth_eq hx, depth_eq hw]
    · rw [if_neg huv]
      rcases mem_append.mp hv with hv | hv
      · exact hpre v hv w hw
      · exact absurd (mem_singleton.mp hv).symm huv

/-! ## The automaton -/

/-- The links and the table of the automaton are right. -/
structure Ok (a : AhoCorasick) (words patterns : List (List ℕ)) : Prop where
  holds : Holds a.t words patterns
  link : ∀ u w, words[u]? = some w → LinkOk words a.fail u
  table : ∀ u w, words[u]? = some w → MatchOk words patterns a.matchTable u

/-- **The constructor finishes with a right automaton.** -/
theorem new_spec (h : Holds t words patterns) (hbound : t.nodes.length ≤ bound) :
    ∃ a, new t bound = .ok a ∧ a.t = t ∧ Ok a words patterns := by
  have hzero : ∀ u, (List.replicate t.nodes.length 0).getD u 0 = 0 := by
    intro u
    rw [getD_eq_getElem?_getD, getElem?_replicate]
    split <;> rfl
  have hlow : ∀ v x, words[v]? = some x → x.length ≤ 1 →
      LinkOk words (List.replicate t.nodes.length 0) v := by
    intro v x hv hx w hw
    rw [← Option.some_inj.mp (hv.symm.trans hw), hzero]
    have htail : x.tail = [] := length_eq_zero_iff.mp (by rw [length_tail]; omega)
    exact ⟨[], h.root, htail ▸ longest_nil h.nil_mem⟩
  obtain ⟨fail, order, hrun, hinv, hlink⟩ := breadthFirst_spec h.toWords
    (fun w hw => (h.toWords.length_lt hw).trans_le hbound) bound
    (inv_root 0 (kids t) (depth words)) (by rw [length_nil, Nat.zero_add]; exact hbound)
    length_replicate
    (fun v hv => by
      rw [mem_singleton.mp hv]
      exact hlow 0 [] h.root (Nat.zero_le _)) hlow
  have hall : ∀ u w, words[u]? = some w → u ∈ order := fun u w hu =>
    hinv.complete (reach h.toWords w hu)
  have hstart : (List.replicate t.nodes.length (-1 : ℤ)).length = t.nodes.length :=
    length_replicate
  have htable := matchTable_spec h hinv hlink order (nil_append order).symm hstart
    fun u hu => absurd hu not_mem_nil
  rw [new, hrun]
  exact ⟨_, rfl, rfl, h, fun u w hu => hlink u (hall u w hu), fun u w hu => htable u (hall u w hu)⟩

/-- **One symbol is read.** -/
theorem Ok.next {a : AhoCorasick} (h : Ok a words patterns) (hbound : a.t.nodes.length ≤ bound)
    {text s : List ℕ} (hu : words[u]? = some s) (hs : Longest (· ∈ words) text s) (ch : ℕ) :
    ∃ v y, a.next bound u ch = .ok v ∧ words[v]? = some y ∧
      Longest (· ∈ words) (text ++ [ch]) y := by
  obtain ⟨v, y, hfollow, hy, hlong⟩ := follow_spec h.holds.toWords hu
    ((h.holds.toWords.length_lt hs.holds).trans_le hbound)
    (fun v x hv _ => h.link v x hv) (hs.candidate h.holds.closed ch)
  rw [AhoCorasick.next, hfollow]
  exact ⟨_, y, rfl, hy, hlong⟩

/-- **A text is read.** -/
theorem Ok.run {a : AhoCorasick} (h : Ok a words patterns) (hbound : a.t.nodes.length ≤ bound)
    (rest : List ℕ) : ∀ {u text s}, words[u]? = some s → Longest (· ∈ words) text s →
      ∃ v y, rest.foldlM (a.next bound) u = .ok v ∧ words[v]? = some y ∧
        Longest (· ∈ words) (text ++ rest) y := by
  induction rest with
  | nil =>
    intro u text s hu hs
    exact ⟨u, s, rfl, hu, by rwa [append_nil]⟩
  | cons ch rest ih =>
    intro u text s hu hs
    obtain ⟨v, y, hnext, hv, hy⟩ := h.next hbound hu hs ch
    obtain ⟨v', y', hrun, hv', hy'⟩ := ih hv hy
    refine ⟨v', y', by rw [foldlM_cons, hnext, Exec.ok_bind, hrun], hv', ?_⟩
    rwa [append_assoc] at hy'

/-- The word begins a pattern; the empty word does so when there is none. -/
def Begins (patterns : List (List ℕ)) (w : List ℕ) : Prop := w = [] ∨ ∃ p ∈ patterns, w <+: p

/-- **The state is the node of the longest suffix that begins a pattern, and its pattern is the
longest one that ends the text.** -/
theorem run_new (patterns : List (List ℕ)) (text : List ℕ) {bound : ℕ}
    (hbound : (ofSymbols patterns).nodes.length ≤ bound) :
    ∃ a s w, new (ofSymbols patterns) bound = .ok a ∧ text.foldlM (a.next bound) 0 = .ok s ∧
      Longest (Begins patterns) text w ∧ a.t.walk 0 w = some s ∧
      Ends (distinct patterns) text (a.matchPattern s) := by
  obtain ⟨words, h⟩ := holds_ofSymbols patterns
  obtain ⟨a, hnew, hat, hok⟩ := new_spec h hbound
  obtain ⟨s, w, hrun, hs, hlong⟩ := hok.run (hat ▸ hbound) text hok.holds.root
    (longest_nil hok.holds.nil_mem)
  have hp : ∀ p ∈ distinct patterns, p ∈ words := fun p hp =>
    (h.mem_iff p).mpr (.inr ⟨p, hp, List.prefix_refl p⟩)
  have hbegins : ∀ x, Begins patterns x ↔ x ∈ words := by
    intro x
    rw [h.mem_iff, Begins]
    simp only [mem_distinct]
  refine ⟨a, s, w, hnew, hrun, ⟨hlong.suffix, (hbegins w).mpr hlong.holds, fun x hx hb =>
    hlong.max x hx ((hbegins x).mp hb)⟩, ?_, ?_⟩
  · exact (hok.holds.toWords.walk_iff w hok.holds.root).mpr hs
  · exact (ends_longest_iff hlong hp).mp (hok.table s w hs w hs)

/-- The text ends with both patterns, of which one is at the end of the other one. -/
theorem run_new_suffix : ∃ a s w, new (ofSymbols [[2], [1, 2], [2]]) 4 = .ok a ∧
    [1, 1, 2].foldlM (a.next 4) 0 = .ok s ∧ Longest (Begins [[2], [1, 2], [2]]) [1, 1, 2] w ∧
      a.t.walk 0 w = some s ∧
      Ends (distinct [[2], [1, 2], [2]]) [1, 1, 2] (a.matchPattern s) :=
  run_new [[2], [1, 2], [2]] [1, 1, 2] (by decide)

end Llama.AhoCorasick
