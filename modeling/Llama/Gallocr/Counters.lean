import Llama.Gallocr.Memory

/-!
# What the counters of a plan say

The counters of a plan say which reads are still to come: `nChildren` counts the reads of a
tensor, and `nViews` those of its views that are still read or that nobody reads.  A tensor
that has been given memory therefore has it until its last read, of itself or of a view of it;
this is `Alive`, kept by giving memory to a node and by each read.

The condition `Cgraph.Plain` excludes the graphs on which the counters say something else: an
input that is computed in place, of which the memory is chosen before the readers are counted;
views without an operation, which are not counted; and an output that is a view of a tensor
that is no output and that is read, after which the tensor is freed.
-/

namespace Llama

open List

namespace Cgraph

/-- The tensor that holds the data of `t`. -/
def root (g : Cgraph) (t : ℕ) : ℕ := ((g.tensor t).viewSrc).getD t

/-- The tensors that a list of nodes reads, in order. -/
def reads (g : Cgraph) (nodes : List ℕ) : List ℕ := nodes.flatMap fun n => (g.tensor n).sources

/-- The views of `x` that are counted. -/
def viewsOf (g : Cgraph) (nodes : List ℕ) (x : ℕ) : List ℕ :=
  nodes.filter fun v => decide ((g.tensor v).viewSrc = some x ∧ (g.tensor v).op ≠ .none)

/-- The nodes are in topological order; a leaf has no operation; a view is one of a tensor that
is no view. -/
structure Topological (g : Cgraph) : Prop where
  nodup : g.nodes.Nodup
  leaf_notMem : ∀ t ∈ g.leafs, t ∉ g.nodes
  leaf_op : ∀ t ∈ g.leafs, (g.tensor t).op = .none
  src_mem : ∀ pre n post, g.nodes = pre ++ n :: post →
    ∀ s ∈ (g.tensor n).sources, s ∈ g.leafs ∨ s ∈ pre
  view_mem : ∀ pre n post, g.nodes = pre ++ n :: post →
    ∀ x, (g.tensor n).viewSrc = some x → g.Own x → x ∈ g.leafs ∨ x ∈ pre
  view_root : ∀ v x, (g.tensor v).viewSrc = some x → (g.tensor x).viewSrc = none

/-- The graphs on which the counters count every reader. -/
structure Plain (g : Cgraph) : Prop where
  /-- No input is computed in place of a tensor that is given memory. -/
  inputs : ∀ t ∈ g.nodes, (g.tensor t).input = true → (g.tensor t).op.canInplace = true →
    ∀ p ∈ (g.tensor t).sources, ¬ g.Own p
  /-- A view that is read is a node with an operation. -/
  views : ∀ n ∈ g.nodes, ∀ v ∈ (g.tensor n).sources, ∀ x, (g.tensor v).viewSrc = some x → g.Own x →
    v ∈ g.nodes ∧ (g.tensor v).op ≠ .none
  /-- An output that is a view is one of an output, or it is a node with an operation and
  nobody reads it. -/
  outputs : ∀ o ∈ g.nodes ++ g.leafs, (g.tensor o).output = true →
    ∀ x, (g.tensor o).viewSrc = some x → g.Own x → (g.tensor x).output = true ∨
      o ∈ g.nodes ∧ (g.tensor o).op ≠ .none ∧ ∀ n ∈ g.nodes, o ∉ (g.tensor n).sources

/-- The tensor has been given memory before the nodes behind `pre` are visited. -/
def Ready (g : Cgraph) (pre : List ℕ) (t : ℕ) : Prop :=
  t ∈ g.leafs ∨ t ∈ pre ∨ t ∈ g.nodes ∧ (g.tensor t).input = true

variable {g : Cgraph} {pre post nodes : List ℕ} {n s t v x : ℕ}

@[simp] lemma reads_nil : g.reads [] = [] := rfl

@[simp] lemma reads_cons : g.reads (n :: post) = (g.tensor n).sources ++ g.reads post := rfl

@[simp] lemma reads_append : g.reads (pre ++ post) = g.reads pre ++ g.reads post :=
  flatMap_append

lemma mem_reads : s ∈ g.reads nodes ↔ ∃ n ∈ nodes, s ∈ (g.tensor n).sources := mem_flatMap

lemma mem_viewsOf : v ∈ g.viewsOf nodes x ↔
    v ∈ nodes ∧ (g.tensor v).viewSrc = some x ∧ (g.tensor v).op ≠ .none := by
  simp [viewsOf]

lemma root_of_view (h : (g.tensor v).viewSrc = some x) : g.root v = x := by simp [root, h]

lemma root_of_not_view (h : g.isView t = false) : g.root t = t := by
  have hview : (g.tensor t).viewSrc = none := by simpa [isView] using h
  simp [root, hview]

lemma root_eq (h : g.root s = t) : s = t ∨ (g.tensor s).viewSrc = some t := by
  unfold root at h
  cases hv : (g.tensor s).viewSrc with
  | none => exact Or.inl (by simpa [hv] using h)
  | some x => exact Or.inr (by simpa [hv] using h)

lemma Ready.mono (h : g.Ready pre t) (n : ℕ) : g.Ready (pre ++ [n]) t :=
  h.imp_right fun h => h.imp_left fun h => mem_append_left _ h

/-! ## Splitting a list of nodes -/

lemma forall_split_nil {P : List ℕ → ℕ → List ℕ → Prop} :
    ∀ pre n post, [] = pre ++ n :: post → P pre n post := by simp

lemma forall_split_cons {P : List ℕ → ℕ → List ℕ → Prop} {a : ℕ} (h : P [] a nodes)
    (hrest : ∀ pre n post, nodes = pre ++ n :: post → P (a :: pre) n post) :
    ∀ pre n post, a :: nodes = pre ++ n :: post → P pre n post := by
  intro pre n post hsplit
  rcases pre with _ | ⟨b, pre⟩
  · obtain ⟨rfl, rfl⟩ := hsplit
    exact h
  · simp only [cons_append, List.cons.injEq] at hsplit
    obtain ⟨rfl, hsplit⟩ := hsplit
    exact hrest pre n post hsplit

namespace Topological

variable (hg : g.Topological) (hn : g.nodes = pre ++ n :: post)
include hg hn

lemma notMem_pre : n ∉ pre := by
  have hnodup := hg.nodup
  rw [hn, nodup_append] at hnodup
  exact fun hmem => hnodup.2.2 n hmem n (mem_cons_self ..) rfl

/-- The nodes up to `n` read no tensor that comes after them. -/
lemma mem_of_reads (hs : s ∈ g.reads (pre ++ [n])) : s ∈ g.leafs ∨ s ∈ pre := by
  obtain ⟨m, hm, hsm⟩ := mem_reads.mp hs
  rcases mem_append.mp hm with hm | hm
  · obtain ⟨before, after, rfl⟩ := append_of_mem hm
    have hsplit : g.nodes = before ++ m :: (after ++ n :: post) := by simp [hn]
    exact (hg.src_mem _ _ _ hsplit s hsm).imp_right fun h => mem_append_left _ h
  · rw [mem_singleton.mp hm] at hsm
    exact hg.src_mem _ _ _ hn s hsm

lemma notMem_reads : n ∉ g.reads (pre ++ [n]) := by
  intro hmem
  rcases hg.mem_of_reads hn hmem with h | h
  · exact hg.leaf_notMem n h (by simp [hn])
  · exact hg.notMem_pre hn h

lemma notMem_src : n ∉ (g.tensor n).sources := fun hmem =>
  hg.notMem_reads hn (by simp [hmem])

/-- No node up to `n` reads `n` or a view of it. -/
lemma root_ne (hc : g.Plain) (hown : g.Own n) (hs : s ∈ g.reads (pre ++ [n])) : g.root s ≠ n := by
  intro hroot
  rcases root_eq hroot with rfl | hview
  · exact hg.notMem_reads hn hs
  · have hnode : n ∈ g.nodes := by simp [hn]
    obtain ⟨m, hm, hsm⟩ := mem_reads.mp hs
    have hmnode : m ∈ g.nodes := by
      rw [hn]
      rcases mem_append.mp hm with hm | hm
      · exact mem_append_left _ hm
      · simp [mem_singleton.mp hm]
    have hsnode := (hc.views m hmnode s hsm n hview hown).1
    rcases hg.mem_of_reads hn hs with h | h
    · exact hg.leaf_notMem s h hsnode
    · obtain ⟨before, after, rfl⟩ := append_of_mem h
      have hsplit : g.nodes = before ++ s :: (after ++ n :: post) := by simp [hn]
      rcases hg.view_mem _ _ _ hsplit n hview hown with h | h
      · exact hg.leaf_notMem n h hnode
      · exact hg.notMem_pre hn (mem_append_left _ h)

end Topological
end Cgraph
namespace Gallocr

open Cgraph

variable {B : Bufts} {g : Cgraph} {s s' : Gallocr} {pre post used rest later : List ℕ}
  {n p t u v x : ℕ} {id : ℤ}

/-- The view `v` is read by one of the reads `rest`, or by nobody at all. -/
def InUse (g : Cgraph) (rest : List ℕ) (v : ℕ) : Prop :=
  (g.reads g.nodes).count v = 0 ∨ 0 < rest.count v

instance : DecidablePred (InUse g rest) := fun _ => inferInstanceAs (Decidable (_ ∨ _))

/-- The number of views of `x` in use. -/
def viewsInUse (g : Cgraph) (rest : List ℕ) (x : ℕ) : ℕ :=
  ((g.viewsOf g.nodes x).filter fun v => decide (InUse g rest v)).length

/-- The memory of `t` may be given to others: it is no output, and the reads `used` read it, or a
view of it, for the last time. -/
structure Released (g : Cgraph) (used later : List ℕ) (t : ℕ) : Prop where
  read : ∃ r ∈ used, g.root r = t
  unread : ∀ r ∈ later, g.root r ≠ t
  views : ∀ v ∈ g.viewsOf g.nodes t, v ∉ later ∧ (g.reads g.nodes).count v ≠ 0
  output : (g.tensor t).output = false

/-- The invariant of a plan.  The nodes `pre` have been given memory, the reads `used` have been
planned or are being planned, `rest` are the reads that the counters still count, and `later`
those of later nodes. -/
structure Alive (B : Bufts) (g : Cgraph) (pre used rest later : List ℕ) (s : Gallocr) : Prop where
  mem : Mem B g s
  children : ∀ u, (s.hash u).nChildren = rest.count u
  views : ∀ x, g.Own x → (s.hash x).nViews = viewsInUse g rest x
  view_views : ∀ v, g.isView v = true → (s.hash v).nViews = 0
  ready : ∀ t, s.isOwn t = true → g.Ready pre t
  owned : ∀ t, g.Own t → g.Ready pre t → s.isOwn t = true ∨ Released g used later t

/-- When no view of `x` is in use, then none is read later, and somebody has read each. -/
lemma viewsInUse_eq_zero (h : viewsInUse g rest x = 0) :
    ∀ v ∈ g.viewsOf g.nodes x, rest.count v = 0 ∧ (g.reads g.nodes).count v ≠ 0 := by
  intro v hv
  rw [viewsInUse, length_eq_zero_iff, filter_eq_nil_iff] at h
  have hnot := h v hv
  rw [decide_eq_true_eq, InUse, not_or] at hnot
  exact ⟨Nat.eq_zero_of_not_pos hnot.2, hnot.1⟩

/-- A tensor that nobody reads any more, nor any view of it. -/
lemma root_ne_of_counts (hc : g.Plain) (hsub : ∀ r ∈ rest, r ∈ g.reads g.nodes)
    (hx : g.Own x) (hcount : rest.count x = 0) (hviews : viewsInUse g rest x = 0) :
    ∀ r ∈ rest, g.root r ≠ x := by
  intro r hr hroot
  rcases root_eq hroot with rfl | hview
  · exact absurd hr (count_eq_zero.mp hcount)
  · obtain ⟨m, hm, hrm⟩ := mem_reads.mp (hsub r hr)
    obtain ⟨hnode, hop⟩ := hc.views m hm r hrm x hview hx
    have hzero := (viewsInUse_eq_zero hviews r (mem_viewsOf.mpr ⟨hnode, hview, hop⟩)).1
    exact absurd hr (count_eq_zero.mp hzero)

/-- **The sources of a node have memory**: giving memory to them does nothing. -/
theorem Alive.allocParents (h : Alive B g pre used rest later s) (hfit : SizesFit B g)
    (hown : ∀ p ∈ later, g.Own p → g.Ready pre p) : ∀ srcs : List ℕ, (∀ p ∈ srcs, p ∈ later) →
      (∀ p ∈ srcs, (g.tensor p).op.canInplace = true → ∀ q ∈ (g.tensor p).sources, q ≠ p) →
      s.allocParents B g id srcs = some s' → s' = s := by
  intro srcs
  induction srcs with
  | nil =>
    intro _ _ hs
    exact (Option.some.inj hs).symm
  | cons p srcs ih =>
    intro hsub hself hs
    obtain ⟨hp, hsub⟩ := forall_mem_cons.mp hsub
    obtain ⟨hpself, hself⟩ := forall_mem_cons.mp hself
    obtain ⟨s1, hs1, hrest⟩ := Option.bind_eq_some_iff.mp hs
    have hhad : s1 = s := by
      obtain ⟨-, -, hgiven⟩ := allocateNode_spec h.mem hfit hpself hs1
      have hcon : g.Own p → s.isOwn p = true := by
        intro hpown
        rcases h.owned p hpown (hown p hp hpown) with ho | hrel
        · exact ho
        · exact absurd (root_of_not_view hpown.1) (hrel.unread p hp)
      cases hgiven with
      | had _ heq => exact heq
      | new ho hnot => rw [hcon ho] at hnot; cases hnot
      | reused q ho hnot => rw [hcon ho] at hnot; cases hnot
    rw [hhad] at hrest
    exact ih hsub hself hrest

/-- What is released stays released. -/
lemma Released.mono {later' : List ℕ} {used' : List ℕ} (h : Released g used later t)
    (hused : ∀ r ∈ used, r ∈ used') (hlater : ∀ r ∈ later', r ∈ later) :
    Released g used' later' t := by
  obtain ⟨⟨r, hr, hroot⟩, hunread, hviews, hout⟩ := h
  exact ⟨⟨r, hused r hr, hroot⟩, fun r hr => hunread r (hlater r hr),
    fun v hv => ⟨fun hmem => (hviews v hv).1 (hlater v hmem), (hviews v hv).2⟩, hout⟩

/-- The node `n` can be computed in place of its source `p`. -/
structure InPlace (g : Cgraph) (n p : ℕ) : Prop where
  op : (g.tensor n).op.canInplace = true
  source : p ∈ (g.tensor n).sources
  layout : (g.tensor n).sameLayout (g.tensor p) = true

/-- What giving memory to the node `n` adds to `Alive`: its own memory is ready, and a source
that it takes the memory of is read for the last time. -/
lemma Alive.allocateNode (h : Alive B g pre (g.reads pre) (g.reads (n :: post))
      (g.reads (n :: post)) s)
    (hg : g.Topological) (hc : g.Plain) (hfit : SizesFit B g) (hn : g.nodes = pre ++ n :: post)
    (hs : s.allocateNode B g n id = some s') :
    Alive B g (pre ++ [n]) (g.reads (pre ++ [n])) (g.reads (n :: post)) (g.reads post) s' ∧
      (∀ t, g.Own t → g.Ready pre t → s'.place B t = s.place B t) ∧
      ∃ reused : Option ℕ, (∀ p ∈ reused, InPlace g n p ∧
          Released g (g.reads (pre ++ [n])) (g.reads post) p) ∧
        ∀ t, s.isOwn t = true → t ∉ reused → s'.isOwn t = true := by
  have hself : (g.tensor n).op.canInplace = true → ∀ p ∈ (g.tensor n).sources, p ≠ n := by
    rintro - p hp rfl
    exact hg.notMem_src hn hp
  obtain ⟨hmem, hcounters, hgiven⟩ := allocateNode_spec h.mem hfit hself hs
  have hsub : ∀ r ∈ g.reads (n :: post), r ∈ g.reads g.nodes := by
    intro r hr
    rw [hn, reads_append]
    exact mem_append_right _ hr
  have hused : ∀ r ∈ g.reads pre, r ∈ g.reads (pre ++ [n]) := fun r hr => by
    rw [reads_append]
    exact mem_append_left _ hr
  have hlater : ∀ r ∈ g.reads post, r ∈ g.reads (n :: post) := fun r hr =>
    mem_append_right _ hr
  -- an input that comes now was given memory at the start, and has it
  have hown : g.Own n → g.Ready pre n → s.isOwn n = true := by
    intro ho hr
    rcases h.owned n ho hr with h1 | h1
    · exact h1
    · obtain ⟨r, hr, hroot⟩ := h1.read
      exact absurd hroot (hg.root_ne hn hc ho (hused r hr))
  have hself' : g.Own n → s'.isOwn n = true := by
    intro ho
    cases hgiven with
    | had h1 heq =>
      rw [heq]
      exact h1.resolve_right (not_not.mpr ho)
    | new _ _ h1 => exact h1
    | reused _ _ _ h1 => exact h1
  have hlost : ∃ reused : Option ℕ, (∀ p ∈ reused, InPlace g n p ∧
      Released g (g.reads (pre ++ [n])) (g.reads post) p) ∧
      ∀ t, s.isOwn t = true → t ∉ reused → s'.isOwn t = true := by
    cases hgiven with
    | had _ heq =>
      rw [heq]
      exact ⟨none, by simp, fun t ht _ => ht⟩
    | new _ _ hn' hother =>
      refine ⟨none, by simp, fun t ht _ => ?_⟩
      by_cases hne : t = n
      · rwa [hne]
      · rwa [isOwn, hother t hne]
    | reused p ho _ hn' hop hsrc hlayout hpt hp _ hout hchildren hviews _ _ hother =>
      refine ⟨some p, ?_, fun t ht htp => ?_⟩
      · rintro q hq
        cases hq
        have hpown := h.mem.own p hp
        -- the one read that the counter of the source still counts is that of `n`
        have hcount : (g.tensor n).sources.count p + (g.reads post).count p = 1 := by
          have hcnt := h.children p
          rw [reads_cons, count_append] at hcnt
          omega
        have hpos : 0 < (g.tensor n).sources.count p := List.count_pos_iff.mpr hsrc
        have hzero : viewsInUse g (g.reads (n :: post)) p = 0 := by
          have hv := h.views p hpown
          omega
        have hviews0 := viewsInUse_eq_zero hzero
        have hpost : ∀ v ∈ g.viewsOf g.nodes p, (g.reads post).count v = 0 := by
          intro v hv
          have hv0 := (hviews0 v hv).1
          rw [reads_cons, count_append] at hv0
          omega
        have hzero' : viewsInUse g (g.reads post) p = 0 := by
          rw [viewsInUse, length_eq_zero_iff, filter_eq_nil_iff]
          intro v hv
          rw [decide_eq_true_eq, InUse, hpost v hv, not_or]
          exact ⟨(hviews0 v hv).2, Nat.lt_irrefl 0⟩
        refine ⟨⟨hop, hsrc, hlayout⟩, ⟨p, by simp [hsrc], root_of_not_view hpown.1⟩,
          root_ne_of_counts hc (fun r hr => hsub r (hlater r hr)) hpown (by omega) hzero',
          fun v hv => ⟨count_eq_zero.mp (hpost v hv), (hviews0 v hv).2⟩, ?_⟩
        rw [outputOrView, Bool.or_eq_false_iff] at hout
        exact hout.1
      · by_cases hne : t = n
        · rwa [hne]
        · have htp' : t ≠ p := fun heq => htp (by rw [heq]; rfl)
          rwa [isOwn, hother t hne htp']
  refine ⟨⟨hmem, fun u => ?_, fun x hx => ?_, fun v hv => ?_, fun t ht => ?_, fun t ho hr => ?_⟩,
    fun t ho hr => ?_, hlost⟩
  · rw [(hcounters u).1, h.children]
  · rw [(hcounters x).2, h.views x hx]
  · rw [(hcounters v).2, h.view_views v hv]
  · by_cases htn : t = n
    · subst htn
      exact Or.inr (Or.inl (by simp))
    · refine Ready.mono (h.ready t ?_) n
      cases hgiven with
      | had _ heq => rwa [heq] at ht
      | new _ _ _ hother => rwa [isOwn, hother t htn] at ht
      | reused p _ _ _ _ _ _ _ hp _ _ _ _ _ _ hother =>
        by_cases htp : t = p
        · rwa [htp]
        · rwa [isOwn, hother t htn htp] at ht
  · by_cases htn : t = n
    · subst htn
      exact Or.inl (hself' ho)
    · have hr' : g.Ready pre t := by
        rcases hr with h1 | h1 | h1
        · exact Or.inl h1
        · rcases mem_append.mp h1 with h1 | h1
          · exact Or.inr (Or.inl h1)
          · exact absurd (mem_singleton.mp h1) htn
        · exact Or.inr (Or.inr h1)
      cases ho' : s'.isOwn t with
      | true => exact Or.inl rfl
      | false =>
        refine Or.inr ?_
        rcases h.owned t ho hr' with h1 | h1
        · obtain ⟨reused, hreused, hkept⟩ := hlost
          have hmem : t ∈ reused := by
            by_contra hcon
            rw [hkept t h1 hcon] at ho'
            cases ho'
          exact (hreused t hmem).2
        · exact h1.mono hused hlater
  · cases hgiven with
    | had _ heq => rw [heq]
    | new _ hnot _ hother =>
      have hne : t ≠ n := by
        rintro rfl
        rw [hown ho hr] at hnot
        cases hnot
      exact place_congr (by rw [hother t hne]) (by rw [hother t hne])
    | reused p _ hnot _ _ _ _ _ _ _ _ _ _ _ hplace hother =>
      have hne : t ≠ n := by
        rintro rfl
        rw [hown ho hr] at hnot
        cases hnot
      by_cases htp : t = p
      · rw [htp, hplace]
      · exact place_congr (by rw [hother t hne htp]) (by rw [hother t hne htp])

/-- **A tensor is freed** when nothing reads it, or a view of it, any more. -/
theorem Alive.freeNode (h : Alive B g pre used rest later s) (hc : g.Plain)
    (hsub : ∀ r ∈ rest, r ∈ g.reads g.nodes) (hlater : ∀ r ∈ later, r ∈ rest)
    (hx : s.isOwn x = true) (hcount : rest.count x = 0) (hviews : viewsInUse g rest x = 0)
    (hread : ∃ r ∈ used, g.root r = x) (hs : s.freeNode B g x = some s') :
    Alive B g pre used rest later s' ∧ ∀ t, s'.place B t = s.place B t := by
  obtain ⟨hmem, hother, hid, haddr, hnc, hnv, hout⟩ := freeNode_spec h.mem hx hs
  have hplace : ∀ t, s'.place B t = s.place B t := by
    intro t
    by_cases htx : t = x
    · subst htx
      exact place_congr hid haddr
    · exact place_congr (by rw [hother t htx]) (by rw [hother t htx])
  have hsame : SameCounters s s' := by
    intro u
    by_cases hux : u = x
    · subst hux
      exact ⟨hnc, hnv⟩
    · rw [hother u hux]
      exact ⟨rfl, rfl⟩
  refine ⟨⟨hmem, fun u => by rw [(hsame u).1, h.children], fun y hy => by
    rw [(hsame y).2, h.views y hy], fun v hv => by rw [(hsame v).2, h.view_views v hv],
    fun t ht => ?_, fun t ho hr => ?_⟩, hplace⟩
  · by_cases htx : t = x
    · rw [htx]
      exact h.ready x hx
    · rw [isOwn, hother t htx] at ht
      exact h.ready t ht
  · by_cases htx : t = x
    · subst htx
      cases hout' : (g.tensor t).output with
      | true =>
        rw [hout hout']
        exact Or.inl hx
      | false =>
        refine Or.inr ⟨hread, fun r hr => ?_, fun v hv => ?_, hout'⟩
        · exact root_ne_of_counts hc hsub ho hcount hviews r (hlater r hr)
        · obtain ⟨h0, h1⟩ := viewsInUse_eq_zero hviews v hv
          exact ⟨fun hmem => count_eq_zero.mp h0 (hlater v hmem), h1⟩
    · rw [isOwn, hother t htx]
      exact h.owned t ho hr

/-- A read of `p` changes the use of no other view. -/
lemma viewsInUse_cons_of_ne (h : p ∉ g.viewsOf g.nodes x ∨ rest.count p ≠ 0) :
    viewsInUse g (p :: rest) x = viewsInUse g rest x := by
  unfold viewsInUse
  congr 1
  refine filter_congr fun v hv => ?_
  rw [decide_eq_decide, InUse, InUse]
  by_cases hvp : p = v
  · subst hvp
    have hne := h.resolve_left (not_not.mpr hv)
    exact ⟨fun _ => Or.inr (Nat.pos_of_ne_zero hne), fun _ => Or.inr (by simp)⟩
  · simp [hvp]

/-- The last read of a view takes it out of use. -/
lemma viewsInUse_cons_of_last (hg : g.Topological) (hp : p ∈ g.viewsOf g.nodes x)
    (hread : (g.reads g.nodes).count p ≠ 0) (hlast : rest.count p = 0) :
    viewsInUse g (p :: rest) x = viewsInUse g rest x + 1 := by
  have hnodup : (g.viewsOf g.nodes x).Nodup := hg.nodup.filter _
  obtain ⟨before, after, hsplit⟩ := append_of_mem hp
  unfold viewsInUse
  rw [hsplit] at hnodup ⊢
  have hne : ∀ v ∈ before ++ after, p ≠ v := by
    rw [perm_middle.nodup_iff, nodup_cons] at hnodup
    rintro v hv rfl
    exact hnodup.1 hv
  have hsame : ∀ l : List ℕ, (∀ v ∈ l, p ≠ v) → l.filter (fun v => decide (InUse g (p :: rest) v)) =
      l.filter fun v => decide (InUse g rest v) := by
    intro l hl
    refine filter_congr fun v hv => ?_
    rw [decide_eq_decide, InUse, InUse]
    simp [hl v hv]
  have hin : InUse g (p :: rest) p := Or.inr (by simp)
  have hout : ¬ InUse g rest p := by
    rw [InUse, hlast, not_or]
    exact ⟨hread, Nat.lt_irrefl 0⟩
  rw [filter_append, filter_append, filter_cons_of_pos (by simpa using hin),
    filter_cons_of_neg (by simpa using hout),
    hsame before fun v hv => hne v (mem_append_left _ hv),
    hsame after fun v hv => hne v (mem_append_right _ hv)]
  simp only [length_append, length_cons]
  omega

/-- **One read of `p`.** -/
theorem Alive.updateParent (h : Alive B g pre used (p :: rest) later s) (hg : g.Topological)
    (hc : g.Plain) (hsub : ∀ r ∈ p :: rest, r ∈ g.reads g.nodes) (hlater : ∀ r ∈ later, r ∈ rest)
    (hused : p ∈ used) (hs : s.updateParent B g p = some s') :
    Alive B g pre used rest later s' ∧ ∀ t, s'.place B t = s.place B t := by
  have hread : (g.reads g.nodes).count p ≠ 0 := by
    have hmem := hsub p (mem_cons_self ..)
    have hpos := List.count_pos_iff.mpr hmem
    omega
  have hsub' : ∀ r ∈ rest, r ∈ g.reads g.nodes := fun r hr => hsub r (mem_cons_of_mem _ hr)
  set s1 := s.setHash p fun hn => { hn with nChildren := hn.nChildren - 1 } with hs1
  have hfields : ∀ u, (s1.hash u).allocated = (s.hash u).allocated ∧
      (s1.hash u).bufferId = (s.hash u).bufferId ∧ (s1.hash u).addr = (s.hash u).addr ∧
      (s1.hash u).nViews = (s.hash u).nViews ∧ (s1.hash u).nChildren = rest.count u := by
    intro u
    by_cases hup : u = p
    · subst hup
      have hcnt := h.children u
      rw [count_cons_self] at hcnt
      rw [setHash_self]
      exact ⟨rfl, rfl, rfl, rfl, by simp only [hcnt]; omega⟩
    · have hcnt := h.children u
      rw [count_cons_of_ne (Ne.symm hup)] at hcnt
      rw [setHash_ne _ hup]
      exact ⟨rfl, rfl, rfl, rfl, hcnt⟩
  have hmem1 : Mem B g s1 := h.mem.congr rfl fun u => ⟨(hfields u).1, (hfields u).2.1, (hfields u).2.2.1⟩
  have hplace1 : ∀ t, s1.place B t = s.place B t := fun t =>
    place_congr (hfields t).2.1 (hfields t).2.2.1
  have hown1 : ∀ t, s1.isOwn t = s.isOwn t := fun t => (hfields t).1
  -- the state `s1` is alive once the views in use are counted without the read
  have halive1 : (∀ x, g.Own x → viewsInUse g (p :: rest) x = viewsInUse g rest x) →
      Alive B g pre used rest later s1 := by
    intro hsame
    refine ⟨hmem1, fun u => (hfields u).2.2.2.2, fun y hy => ?_, fun v hv => ?_, fun t ht => ?_,
      fun t ho hr => ?_⟩
    · rw [(hfields y).2.2.2.1, h.views y hy, hsame y hy]
    · rw [(hfields v).2.2.2.1, h.view_views v hv]
    · rw [hown1] at ht
      exact h.ready t ht
    · rw [hown1]
      exact h.owned t ho hr
  unfold Gallocr.updateParent at hs
  simp only [← hs1] at hs
  have hnc : (s1.hash p).nChildren = rest.count p := (hfields p).2.2.2.2
  by_cases hzero : (s1.hash p).nChildren = 0 ∧ (s1.hash p).nViews = 0
  · rw [if_pos hzero] at hs
    have hlast : rest.count p = 0 := by omega
    cases hview : (g.tensor p).viewSrc with
    | none =>
      rw [hview] at hs
      have hnot : ∀ y, p ∉ g.viewsOf g.nodes y := by
        intro y hy
        rw [mem_viewsOf, hview] at hy
        cases hy.2.1
      have halive := halive1 fun y _ => viewsInUse_cons_of_ne (Or.inl (hnot y))
      by_cases halloc : (s1.hash p).allocated = true
      · simp only [halloc] at hs
        have hpown := hmem1.own p halloc
        have hvz : viewsInUse g rest p = 0 := by
          have hv := halive.views p hpown
          omega
        obtain ⟨ha, hpl⟩ := halive.freeNode hc hsub' hlater halloc hlast hvz
          ⟨p, hused, root_of_not_view hpown.1⟩ hs
        exact ⟨ha, fun t => (hpl t).trans (hplace1 t)⟩
      · simp only [halloc, if_false, Bool.false_eq_true, Option.some.injEq] at hs
        rw [← hs]
        exact ⟨halive, hplace1⟩
    | some x =>
      rw [hview] at hs
      set s2 := s1.setHash x fun hn => { hn with nViews := hn.nViews - 1 } with hs2
      have hxview : (g.tensor x).viewSrc = none := hg.view_root p x hview
      have hroot : g.root p = x := root_of_view hview
      have hfields2 : ∀ u, (s2.hash u).allocated = (s1.hash u).allocated ∧
          (s2.hash u).bufferId = (s1.hash u).bufferId ∧ (s2.hash u).addr = (s1.hash u).addr ∧
          (s2.hash u).nChildren = (s1.hash u).nChildren := by
        intro u
        by_cases hux : u = x
        · subst hux
          rw [setHash_self]
          exact ⟨rfl, rfl, rfl, rfl⟩
        · rw [setHash_ne _ hux]
          exact ⟨rfl, rfl, rfl, rfl⟩
      have hmem2 : Mem B g s2 :=
        hmem1.congr rfl fun u => ⟨(hfields2 u).1, (hfields2 u).2.1, (hfields2 u).2.2.1⟩
      have hplace2 : ∀ t, s2.place B t = s.place B t := fun t =>
        (place_congr (hfields2 t).2.1 (hfields2 t).2.2.1).trans (hplace1 t)
      have hown2 : ∀ t, s2.isOwn t = s.isOwn t := fun t => (hfields2 t).1.trans (hown1 t)
      have halive2 : Alive B g pre used rest later s2 := by
        refine ⟨hmem2, fun u => (hfields2 u).2.2.2.trans (hfields u).2.2.2.2, fun y hy => ?_,
          fun v hv => ?_, fun t ht => ?_, fun t ho hr => ?_⟩
        · by_cases hyx : y = x
          · subst hyx
            obtain ⟨m, hm, hpm⟩ := mem_reads.mp (hsub p (mem_cons_self ..))
            obtain ⟨hnode, hop⟩ := hc.views m hm p hpm y hview hy
            have hcons := viewsInUse_cons_of_last hg (mem_viewsOf.mpr ⟨hnode, hview, hop⟩) hread
              hlast
            have hv := h.views y hy
            have hs2y : (s2.hash y).nViews = (s1.hash y).nViews - 1 := by rw [setHash_self]
            rw [hs2y, (hfields y).2.2.2.1]
            omega
          · have hnot : p ∉ g.viewsOf g.nodes y := by
              rw [mem_viewsOf, hview]
              rintro ⟨-, heq, -⟩
              exact hyx (Option.some.inj heq).symm
            have hv := h.views y hy
            rw [viewsInUse_cons_of_ne (Or.inl hnot)] at hv
            rw [setHash_ne _ hyx, (hfields y).2.2.2.1, hv]
        · have hvx : v ≠ x := by
            rintro rfl
            simp [isView, hxview] at hv
          rw [setHash_ne _ hvx, (hfields v).2.2.2.1, h.view_views v hv]
        · rw [hown2] at ht
          exact h.ready t ht
        · rw [hown2]
          exact h.owned t ho hr
      by_cases hfree : (s2.hash x).nViews = 0 ∧ (s2.hash x).nChildren = 0 ∧
          (s2.hash x).allocated = true
      · simp only [← hs2] at hs
        rw [if_pos hfree] at hs
        obtain ⟨hv0, hc0, halloc⟩ := hfree
        have hxown := hmem2.own x halloc
        have hcx : rest.count x = 0 := by
          have hcnt := halive2.children x
          omega
        have hvx : viewsInUse g rest x = 0 := by
          have hv := halive2.views x hxown
          omega
        obtain ⟨ha, hpl⟩ := halive2.freeNode hc hsub' hlater halloc hcx hvx ⟨p, hused, hroot⟩ hs
        exact ⟨ha, fun t => (hpl t).trans (hplace2 t)⟩
      · simp only [← hs2] at hs
        rw [if_neg hfree, Option.some.injEq] at hs
        rw [← hs]
        exact ⟨halive2, hplace2⟩
  · rw [if_neg hzero, Option.some.injEq] at hs
    rw [← hs]
    refine ⟨halive1 fun y _ => viewsInUse_cons_of_ne ?_, hplace1⟩
    by_cases hpview : g.isView p = true
    · have hv0 := h.view_views p hpview
      rw [(hfields p).2.2.2.1] at hzero
      right
      intro hcount
      exact hzero ⟨by rw [hnc, hcount]; rfl, hv0⟩
    · left
      rw [mem_viewsOf]
      rintro ⟨-, heq, -⟩
      simp [isView, heq] at hpview

lemma Alive.updateParents (hg : g.Topological) (hc : g.Plain) : ∀ (srcs : List ℕ) {s : Gallocr},
    Alive B g pre used (srcs ++ later) later s → (∀ r ∈ srcs ++ later, r ∈ g.reads g.nodes) →
      (∀ r ∈ srcs, r ∈ used) → srcs.foldlM (Gallocr.updateParent B g) s = some s' →
      Alive B g pre used later later s' ∧ ∀ t, s'.place B t = s.place B t := by
  intro srcs
  induction srcs with
  | nil =>
    intro s h _ _ hs
    cases hs
    exact ⟨h, fun _ => rfl⟩
  | cons p srcs ih =>
    intro s h hsub hused hs
    obtain ⟨hp, hused⟩ := forall_mem_cons.mp hused
    obtain ⟨s1, hs1, hrest⟩ := Option.bind_eq_some_iff.mp hs
    obtain ⟨h1, hplace1⟩ :=
      h.updateParent hg hc hsub (fun r hr => mem_append_right _ hr) hp hs1
    obtain ⟨h2, hplace2⟩ := ih h1 (fun r hr => hsub r (mem_cons_of_mem _ hr)) hused hrest
    exact ⟨h2, fun t => (hplace2 t).trans (hplace1 t)⟩

end Gallocr
end Llama
