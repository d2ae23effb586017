import Llama.Gallocr.Counters

/-!
# Plans are safe

A node first gets its memory, while everything that is still read has memory of its own, and
then its sources are read.  Its memory is therefore none that is still read, but for the source
that it takes the memory of.  `Alive.allocNodes` is the induction along the nodes: what is said
of the memory at a node stays true, since a place that has been given to a tensor stays its
place.
-/

namespace Llama.Gallocr

open Cgraph List Option

variable {B : Bufts} {g : Cgraph} {s s' : Gallocr} {pre post used later : List ℕ}
  {n p t u v x : ℕ} {id : ℤ}

/-- When the node `n` runs, the memory of its result does not overlap the memory of any tensor
that this node or a later node still reads, except the one source that it reuses in place; and
the memory of an output is not given to it. -/
structure SafeAt (P : ℕ → Place) (g : Cgraph) (pre : List ℕ) (n : ℕ) (post : List ℕ) : Prop where
  result : (g.isView n = true → (g.tensor n).op ≠ .none) → g.Own (g.root n) → ∃ reused : Option ℕ,
      (∀ p ∈ reused, InPlace g n p ∧ ∀ r ∈ g.reads post, g.root r ≠ p) ∧
      ∀ r ∈ g.reads (n :: post), g.Own (g.root r) → g.Ready pre (g.root r) →
        g.root r ≠ g.root n → g.root r ∉ reused → (P (g.root n)).Apart (P (g.root r))
  output : g.Own n → ∀ o ∈ g.nodes ++ g.leafs, (g.tensor o).output = true → g.Own (g.root o) →
    g.Ready pre (g.root o) → g.root o ≠ n → (P n).Apart (P (g.root o))

/-- The data of a node lies in memory that is ready. -/
lemma ready_root (hg : g.Topological) (hn : g.nodes = pre ++ n :: post)
    (ho : g.Own (g.root n)) : g.Ready (pre ++ [n]) (g.root n) := by
  cases hview : (g.tensor n).viewSrc with
  | none =>
    rw [root_of_not_view (by simp [isView, hview])]
    exact Or.inr (Or.inl (by simp))
  | some x =>
    rw [root_of_view hview] at ho ⊢
    rcases hg.view_mem _ _ _ hn x hview ho with h | h
    · exact Or.inl h
    · exact Or.inr (Or.inl (mem_append_left _ h))

/-- The tensor that holds an output is never released. -/
lemma not_released_output (hc : g.Plain) {o : ℕ} (ho : o ∈ g.nodes ++ g.leafs)
    (hout : (g.tensor o).output = true) (hown : g.Own (g.root o)) :
    ¬ Released g used later (g.root o) := by
  intro hrel
  rcases root_eq (rfl : g.root o = g.root o) with heq | hview
  · rw [← heq] at hrel
    rw [hrel.output] at hout
    cases hout
  · rcases hc.outputs o ho hout _ hview hown with h | ⟨hnode, hop, hunread⟩
    · rw [hrel.output] at h
      cases h
    · refine (hrel.views o (mem_viewsOf.mpr ⟨hnode, hview, hop⟩)).2 (count_eq_zero.mpr ?_)
      intro hmem
      obtain ⟨m, hm, hom⟩ := mem_reads.mp hmem
      exact hunread m hm hom

/-- **One node.** -/
theorem Alive.allocNode (h : Alive B g pre (g.reads pre) (g.reads (n :: post))
      (g.reads (n :: post)) s)
    (hg : g.Topological) (hc : g.Plain) (hfit : SizesFit B g) (hn : g.nodes = pre ++ n :: post)
    (hs : s.allocNode B g (n, id) = some s') :
    Alive B g (pre ++ [n]) (g.reads (pre ++ [n])) (g.reads post) (g.reads post) s' ∧
      (∀ t, g.Own t → g.Ready pre t → s'.place B t = s.place B t) ∧
      SafeAt (s'.place B) g pre n post := by
  have hnode : n ∈ g.nodes := by simp [hn]
  have hsub : ∀ r ∈ g.reads (n :: post), r ∈ g.reads g.nodes := by
    intro r hr
    rw [hn, reads_append]
    exact mem_append_right _ hr
  obtain ⟨s0, hs0, hs⟩ := bind_eq_some_iff.mp hs
  obtain ⟨s1, hs1, hs2⟩ := bind_eq_some_iff.mp hs
  -- every source is a leaf or an earlier node
  have hsrc : ∀ p ∈ (g.tensor n).sources, g.Ready pre p ∧
      ((g.tensor p).op.canInplace = true → ∀ q ∈ (g.tensor p).sources, q ≠ p) := by
    intro p hp
    rcases hg.src_mem _ _ _ hn p hp with hleaf | hpre
    · refine ⟨Or.inl hleaf, fun hop => ?_⟩
      rw [hg.leaf_op p hleaf] at hop
      cases hop
    · refine ⟨Or.inr (Or.inl hpre), ?_⟩
      obtain ⟨before, after, rfl⟩ := append_of_mem hpre
      have hsplit : g.nodes = before ++ p :: (after ++ n :: post) := by simp [hn]
      rintro - q hq rfl
      exact hg.notMem_src hsplit hq
  have hparents : s0 = s := by
    have hcur : Alive B g pre (g.reads pre) (g.reads (n :: post)) (g.tensor n).sources s :=
      ⟨h.mem, h.children, h.views, h.view_views, h.ready, fun t ho hr =>
        (h.owned t ho hr).imp_right fun hrel =>
          hrel.mono (fun _ hr => hr) fun r hr => mem_append_left _ hr⟩
    exact hcur.allocParents hfit (fun p hp _ => (hsrc p hp).1) _ (fun p hp => hp)
      (fun p hp => (hsrc p hp).2) hs0
  subst hparents
  obtain ⟨h1, hplace1, reused, hreused, hkept⟩ := h.allocateNode hg hc hfit hn hs1
  obtain ⟨h2, hplace2⟩ := h1.updateParents hg hc _ hsub
    (fun r hr => by rw [reads_append]; exact mem_append_right _ (by simpa using hr)) hs2
  have hnew : g.Own n → ¬ Released g (g.reads (pre ++ [n])) (g.reads post) n := by
    intro hown hrel
    obtain ⟨r, hr, hroot⟩ := hrel.read
    exact hg.root_ne hn hc hown hr hroot
  refine ⟨h2, fun t ho hr => (hplace2 t).trans (hplace1 t ho hr), fun hop hown => ?_,
    fun hown o ho hout hoown hready hne => ?_⟩
  · -- what is still read had memory before the node, and has it but for a reused source
    have hwown : s1.isOwn (g.root n) = true := by
      rcases h1.owned _ hown (ready_root hg hn hown) with hw | hrel
      · exact hw
      · cases hview : (g.tensor n).viewSrc with
        | none =>
          have hroot := root_of_not_view (g := g) (t := n) (by simp [isView, hview])
          rw [hroot] at hrel hown
          exact absurd hrel (hnew hown)
        | some x =>
          have hroot := root_of_view hview
          rw [hroot] at hrel
          have hcounted : n ∈ g.viewsOf g.nodes x :=
            mem_viewsOf.mpr ⟨hnode, hview, hop (by simp [isView, hview])⟩
          obtain ⟨hnot, hread⟩ := hrel.views n hcounted
          refine absurd ?_ hread
          have hsplit : g.nodes = pre ++ [n] ++ post := by simp [hn]
          rw [hsplit, reads_append, count_append,
            count_eq_zero.mpr (hg.notMem_reads hn), count_eq_zero.mpr hnot]
    have hstill : ∀ r ∈ g.reads (n :: post), g.Own (g.root r) → g.Ready pre (g.root r) →
        s0.isOwn (g.root r) = true := by
      intro r hr ho hready
      rcases h.owned _ ho hready with hw | hrel
      · exact hw
      · exact absurd rfl (hrel.unread r hr)
    refine ⟨reused, fun p hp => ⟨(hreused p hp).1, (hreused p hp).2.unread⟩,
      fun r hr ho hready hne hnot => ?_⟩
    have hr1 : s1.isOwn (g.root r) = true := hkept _ (hstill r hr ho hready) hnot
    rw [hplace2, hplace2]
    exact h1.mem.apart _ _ hwown hr1 (Ne.symm hne)
  · have hnown : s1.isOwn n = true := by
      rcases h1.owned n hown (Or.inr (Or.inl (by simp))) with hw | hrel
      · exact hw
      · exact absurd hrel (hnew hown)
    have hoown1 : s1.isOwn (g.root o) = true := by
      rcases h1.owned _ hoown (hready.mono n) with hw | hrel
      · exact hw
      · exact absurd hrel (not_released_output hc ho hout hoown)
    rw [hplace2, hplace2]
    exact h1.mem.apart _ _ hnown hoown1 (Ne.symm hne)

/-- Only the places of the tensors that are ready matter. -/
lemma SafeAt.congr {P P' : ℕ → Place} (hg : g.Topological) (hn : g.nodes = pre ++ n :: post)
    (h : SafeAt P g pre n post)
    (heq : ∀ t, g.Own t → g.Ready (pre ++ [n]) t → P' t = P t) : SafeAt P' g pre n post := by
  refine ⟨fun hop hown => ?_, fun hown o ho hout hoown hready hne => ?_⟩
  · obtain ⟨reused, hreused, hapart⟩ := h.result hop hown
    refine ⟨reused, hreused, fun r hr ho hready hne hnot => ?_⟩
    rw [heq _ hown (ready_root hg hn hown), heq _ ho (hready.mono n)]
    exact hapart r hr ho hready hne hnot
  · rw [heq n hown (Or.inr (Or.inl (by simp))), heq _ hoown (hready.mono n)]
    exact h.output hown o ho hout hoown hready hne

/-- **The nodes of a plan, one after another.** -/
theorem Alive.allocNodes (hg : g.Topological) (hc : g.Plain) (hfit : SizesFit B g) :
    ∀ (nodes : List (ℕ × ℤ)) {pre : List ℕ} {s : Gallocr}, g.nodes = pre ++ nodes.map Prod.fst →
      Alive B g pre (g.reads pre) (g.reads (nodes.map Prod.fst)) (g.reads (nodes.map Prod.fst)) s →
      nodes.foldlM (Gallocr.allocNode B g) s = some s' →
      (∀ t, g.Own t → g.Ready pre t → s'.place B t = s.place B t) ∧
      ∀ mid n post, nodes.map Prod.fst = mid ++ n :: post →
        SafeAt (s'.place B) g (pre ++ mid) n post := by
  intro nodes
  induction nodes with
  | nil =>
    intro pre s _ _ hs
    cases hs
    exact ⟨fun _ _ _ => rfl, fun mid n post h => by simp at h⟩
  | cons node nodes ih =>
    obtain ⟨m, id⟩ := node
    intro pre s hn h hs
    obtain ⟨s1, hs1, hrest⟩ := bind_eq_some_iff.mp hs
    obtain ⟨h1, hplace1, hsafe⟩ := h.allocNode hg hc hfit hn hs1
    have hn1 : g.nodes = pre ++ [m] ++ nodes.map Prod.fst := by simpa using hn
    obtain ⟨hplace, hsafes⟩ := ih hn1 h1 hrest
    refine ⟨fun t ho hr => (hplace t ho (hr.mono m)).trans (hplace1 t ho hr), ?_⟩
    intro mid n post hsplit
    rcases mid with _ | ⟨m', mid⟩
    · obtain ⟨rfl, rfl⟩ := hsplit
      rw [append_nil]
      exact hsafe.congr hg hn hplace
    · simp only [map_cons, cons_append, List.cons.injEq] at hsplit
      obtain ⟨rfl, hsplit⟩ := hsplit
      have := hsafes mid n post hsplit
      simpa using this

/-! ## Before the first node -/

/-- What holds while the readers of the nodes `done` have been counted, whose reads are `rd`. -/
structure Counted (B : Bufts) (g : Cgraph) (done rd : List ℕ) (s : Gallocr) : Prop where
  mem : Mem B g s
  children : ∀ u, (s.hash u).nChildren = rd.count u
  views : ∀ x, (s.hash x).nViews = (g.viewsOf done x).length
  ready : ∀ t, s.isOwn t = true → g.Ready [] t
  inputs : ∀ t ∈ done, (g.tensor t).input = true → g.Own t → s.isOwn t = true

/-- The tensor is not computed in place of another one. -/
def NotInPlace (g : Cgraph) (t : ℕ) : Prop := (g.tensor t).op.canInplace = true →
  ∀ p ∈ (g.tensor t).sources, p ≠ t ∧ ¬ g.Own p

/-- **A tensor that is given memory before the first node** shares it with no other. -/
theorem Mem.allocateEarly (h : Mem B g s) (hfit : SizesFit B g) (ht : NotInPlace g t)
    (hs : s.allocateNode B g t id = some s') :
    Mem B g s' ∧ SameCounters s s' ∧ (g.Own t → s'.isOwn t = true) ∧
      (∀ u, s.isOwn u = true → s'.isOwn u = true) ∧
      ∀ u, s'.isOwn u = true → s.isOwn u = true ∨ u = t := by
  obtain ⟨hmem, hcounters, hgiven⟩ :=
    allocateNode_spec h hfit (fun hop p hp => (ht hop p hp).1) hs
  refine ⟨hmem, hcounters, ?_⟩
  cases hgiven with
  | had hown heq =>
    rw [heq]
    exact ⟨fun ho => hown.resolve_right (not_not.mpr ho), fun _ hu => hu, fun _ hu => Or.inl hu⟩
  | new _ _ hself hother =>
    refine ⟨fun _ => hself, fun u hu => ?_, fun u hu => ?_⟩
    · by_cases hut : u = t
      · rwa [hut]
      · rwa [isOwn, hother u hut]
    · by_cases hut : u = t
      · exact Or.inr hut
      · rw [isOwn, hother u hut] at hu
        exact Or.inl hu
  | reused p _ _ _ hop hsrc _ _ hp =>
    exact absurd (h.own p hp) (ht hop p hsrc).2

lemma Counted.allocateEarly {done rd : List ℕ} (h : Counted B g done rd s) (hfit : SizesFit B g)
    (ht : NotInPlace g t) (hready : g.Ready [] t) (hs : s.allocateNode B g t id = some s') :
    Counted B g done rd s' ∧ (g.Own t → s'.isOwn t = true) ∧
      ∀ u, s.isOwn u = true → s'.isOwn u = true := by
  obtain ⟨hmem, hcounters, hself, hkept, hnew⟩ := h.mem.allocateEarly hfit ht hs
  refine ⟨⟨hmem, fun u => by rw [(hcounters u).1, h.children], fun x => by
    rw [(hcounters x).2, h.views], fun u hu => ?_, fun u hu hin ho => ?_⟩, hself, hkept⟩
  · rcases hnew u hu with h1 | rfl
    · exact h.ready u h1
    · exact hready
  · exact hkept u (h.inputs u hu hin ho)

/-- The leafs are given memory. -/
lemma counted_leafs (hg : g.Topological) (hfit : SizesFit B g) : ∀ (leafs : List (ℕ × ℕ))
    {ids : ℕ → ℤ} {s : Gallocr}, (∀ x ∈ leafs, x.1 ∈ g.leafs) → Counted B g [] [] s →
      leafs.foldlM (fun (s : Gallocr) x => s.allocateNode B g x.1 (ids x.2)) s = some s' →
      Counted B g [] [] s' ∧ (∀ x ∈ leafs, g.Own x.1 → s'.isOwn x.1 = true) ∧
        ∀ u, s.isOwn u = true → s'.isOwn u = true := by
  intro leafs
  induction leafs with
  | nil =>
    intro ids s _ h hs
    cases hs
    exact ⟨h, by simp, fun _ hu => hu⟩
  | cons x leafs ih =>
    intro ids s hsub h hs
    obtain ⟨hx, hsub⟩ := forall_mem_cons.mp hsub
    obtain ⟨s1, hs1, hrest⟩ := bind_eq_some_iff.mp hs
    have hearly : NotInPlace g x.1 := fun hop => by
      rw [hg.leaf_op _ hx] at hop
      cases hop
    obtain ⟨h1, hself, hkept⟩ := h.allocateEarly hfit hearly (Or.inl hx) hs1
    obtain ⟨h2, hall, hkept2⟩ := ih hsub h1 hrest
    refine ⟨h2, ?_, fun u hu => hkept2 u (hkept u hu)⟩
    exact forall_mem_cons.mpr ⟨fun ho => hkept2 _ (hself ho), hall⟩

/-- A tensor of the graph that is flagged as an input is given memory early. -/
lemma notInPlace_input (hg : g.Topological) (hc : g.Plain) (ht : t ∈ g.leafs ∨ t ∈ g.nodes)
    (hin : (g.tensor t).input = true) : NotInPlace g t ∧ g.Ready [] t := by
  rcases ht with hleaf | hnode
  · refine ⟨fun hop => ?_, Or.inl hleaf⟩
    rw [hg.leaf_op _ hleaf] at hop
    cases hop
  · obtain ⟨before, after, hn⟩ := append_of_mem hnode
    refine ⟨fun hop p hp => ⟨?_, hc.inputs t hnode hin hop p hp⟩, Or.inr (Or.inr ⟨hnode, hin⟩)⟩
    rintro rfl
    exact hg.notMem_src hn hp

/-- The reads of a node are counted. -/
lemma Counted.countSrcs (hg : g.Topological) (hc : g.Plain) (hfit : SizesFit B g)
    {done : List ℕ} : ∀ (srcs : List ℕ) {rd : List ℕ} {s : Gallocr},
      (∀ p ∈ srcs, p ∈ g.leafs ∨ p ∈ g.nodes) → Counted B g done rd s →
      srcs.foldlM (countSrc B g id) s = some s' →
      Counted B g done (rd ++ srcs) s' ∧ ∀ u, s.isOwn u = true → s'.isOwn u = true := by
  intro srcs
  induction srcs with
  | nil =>
    intro rd s _ h hs
    cases hs
    exact ⟨by simpa using h, fun _ hu => hu⟩
  | cons p srcs ih =>
    intro rd s hsub h hs
    obtain ⟨hp, hsub⟩ := forall_mem_cons.mp hsub
    obtain ⟨s2, hs2, hrest⟩ := bind_eq_some_iff.mp hs
    set s1 := s.setHash p fun hn => { hn with nChildren := hn.nChildren + 1 }
    have hfields : ∀ u, (s1.hash u).allocated = (s.hash u).allocated ∧
        (s1.hash u).bufferId = (s.hash u).bufferId ∧ (s1.hash u).addr = (s.hash u).addr ∧
        (s1.hash u).nViews = (s.hash u).nViews ∧ (s1.hash u).nChildren = (rd ++ [p]).count u := by
      intro u
      have hcnt := h.children u
      by_cases hup : u = p
      · subst hup
        rw [setHash_self]
        exact ⟨rfl, rfl, rfl, rfl, by simp [hcnt]⟩
      · rw [setHash_ne _ hup]
        exact ⟨rfl, rfl, rfl, rfl, by simp [hcnt, Ne.symm hup]⟩
    have hown1 : ∀ t, s1.isOwn t = s.isOwn t := fun t => (hfields t).1
    have h1 : Counted B g done (rd ++ [p]) s1 := by
      refine ⟨h.mem.congr rfl fun u => ⟨(hfields u).1, (hfields u).2.1, (hfields u).2.2.1⟩,
        fun u => (hfields u).2.2.2.2, fun x => (hfields x).2.2.2.1.trans (h.views x),
        fun t ht => ?_, fun t ht hin ho => ?_⟩
      · rw [hown1] at ht
        exact h.ready t ht
      · rw [hown1]
        exact h.inputs t ht hin ho
    have hstep : Counted B g done (rd ++ [p]) s2 ∧ ∀ u, s.isOwn u = true → s2.isOwn u = true := by
      unfold countSrc at hs2
      by_cases hin : (g.tensor p).input = true
      · rw [if_pos hin] at hs2
        obtain ⟨hearly, hready⟩ := notInPlace_input hg hc hp hin
        obtain ⟨h2, -, hkept⟩ := h1.allocateEarly hfit hearly hready hs2
        exact ⟨h2, fun u hu => hkept u (by rwa [hown1])⟩
      · rw [if_neg hin, Option.some.injEq] at hs2
        rw [← hs2]
        exact ⟨h1, fun u hu => by rwa [hown1]⟩
    obtain ⟨h3, hkept⟩ := ih hsub hstep.1 hrest
    exact ⟨by simpa using h3, fun u hu => hkept u (hstep.2 u hu)⟩

/-- **The readers of the nodes are counted, one node after another.** -/
theorem Counted.countNodes (hg : g.Topological) (hc : g.Plain) (hfit : SizesFit B g) :
    ∀ (nodes : List (ℕ × ℤ)) {done : List ℕ} {s : Gallocr},
      g.nodes = done ++ nodes.map Prod.fst → Counted B g done (g.reads done) s →
      nodes.foldlM (countNode B g) s = some s' →
      Counted B g g.nodes (g.reads g.nodes) s' ∧ ∀ u, s.isOwn u = true → s'.isOwn u = true := by
  intro nodes
  induction nodes with
  | nil =>
    intro done s hn h hs
    cases hs
    have hdone : g.nodes = done := by simpa using hn
    rw [hdone]
    exact ⟨h, fun _ hu => hu⟩
  | cons node nodes ih =>
    obtain ⟨n, id⟩ := node
    intro done s hn h hs
    obtain ⟨s3, hs3, hrest⟩ := bind_eq_some_iff.mp hs
    obtain ⟨s2, hs2, hs3⟩ := bind_eq_some_iff.mp hs3
    have hn' : g.nodes = done ++ n :: nodes.map Prod.fst := hn
    have hnode : n ∈ g.nodes := by simp [hn']
    set s1 := s.countView g n with hs1
    have hfields : ∀ u, (s1.hash u).allocated = (s.hash u).allocated ∧
        (s1.hash u).bufferId = (s.hash u).bufferId ∧ (s1.hash u).addr = (s.hash u).addr ∧
        (s1.hash u).nChildren = (s.hash u).nChildren ∧
        (s1.hash u).nViews = (g.viewsOf (done ++ [n]) u).length := by
      intro u
      have hcnt := h.views u
      rw [viewsOf, filter_append, ← viewsOf]
      rw [hs1, countView]
      cases hview : (g.tensor n).viewSrc with
      | none => simp [hcnt, hview]
      | some x =>
        by_cases hop : (g.tensor n).op = .none
        · simp [hcnt, hop]
        · by_cases hux : u = x
          · subst hux
            simp [hop, hcnt, hview]
          · simp only [ne_eq, hop, not_false_eq_true, if_true]
            rw [setHash_ne _ hux]
            simp [hview, Ne.symm hux, hcnt]
    have hown1 : ∀ t, s1.isOwn t = s.isOwn t := fun t => (hfields t).1
    have htallocs : s1.tallocs = s.tallocs := by
      rw [hs1, countView]
      split
      · rfl
      · split <;> rfl
    have hmem1 : Mem B g s1 :=
      h.mem.congr htallocs fun u => ⟨(hfields u).1, (hfields u).2.1, (hfields u).2.2.1⟩
    -- the node itself is given memory when it is an input
    have hstep : Counted B g (done ++ [n]) (g.reads done) s2 ∧
        ∀ u, s.isOwn u = true → s2.isOwn u = true := by
      by_cases hin : (g.tensor n).input = true
      · rw [if_pos hin] at hs2
        obtain ⟨hearly, hready⟩ := notInPlace_input hg hc (Or.inr hnode) hin
        obtain ⟨hmem, hcounters, hself, hkept, hnew⟩ := hmem1.allocateEarly hfit hearly hs2
        refine ⟨⟨hmem, fun u => ?_, fun x => ?_, fun u hu => ?_, fun u hu hin' ho => ?_⟩,
          fun u hu => hkept u (by rwa [hown1])⟩
        · rw [(hcounters u).1, (hfields u).2.2.2.1, h.children]
        · rw [(hcounters x).2, (hfields x).2.2.2.2]
        · rcases hnew u hu with h1 | rfl
          · rw [hown1] at h1
            exact h.ready u h1
          · exact hready
        · rcases mem_append.mp hu with hu | hu
          · exact hkept u (by rw [hown1]; exact h.inputs u hu hin' ho)
          · rw [mem_singleton.mp hu] at ho ⊢
            exact hself ho
      · rw [if_neg hin, Option.some.injEq] at hs2
        rw [← hs2]
        refine ⟨⟨hmem1, fun u => ?_, fun x => (hfields x).2.2.2.2, fun u hu => ?_,
          fun u hu hin' ho => ?_⟩, fun u hu => by rwa [hown1]⟩
        · rw [(hfields u).2.2.2.1, h.children]
        · rw [hown1] at hu
          exact h.ready u hu
        · rcases mem_append.mp hu with hu | hu
          · rw [hown1]
            exact h.inputs u hu hin' ho
          · rw [mem_singleton.mp hu] at hin'
            exact absurd hin' hin
    have hsrc : ∀ p ∈ (g.tensor n).sources, p ∈ g.leafs ∨ p ∈ g.nodes := fun p hp =>
      (hg.src_mem _ _ _ hn' p hp).imp_right fun h1 => by simp [hn', h1]
    obtain ⟨h3, hkept3⟩ := Counted.countSrcs hg hc hfit _ hsrc hstep.1 hs3
    have h3' : Counted B g (done ++ [n]) (g.reads (done ++ [n])) s3 := by simpa using h3
    obtain ⟨h4, hkept4⟩ := ih (by simpa using hn) h3' hrest
    exact ⟨h4, fun u hu => hkept4 u (hkept3 u (hstep.2 u hu))⟩

/-- The plan is safe at each of its nodes. -/
def Safe (B : Bufts) (g : Cgraph) (s : Gallocr) : Prop :=
  ∀ pre n post, g.nodes = pre ++ n :: post → SafeAt (s.place B) g pre n post

lemma Counted.alive {f : Gallocr} (h : Counted B g g.nodes (g.reads g.nodes) f)
    (hg : g.Topological) (hleafs : ∀ t ∈ g.leafs, g.Own t → f.isOwn t = true) :
    Alive B g [] (g.reads []) (g.reads g.nodes) (g.reads g.nodes) f := by
  refine ⟨h.mem, h.children, fun x _ => ?_, fun v hv => ?_, h.ready, fun t ho hr => Or.inl ?_⟩
  · rw [h.views, viewsInUse, filter_eq_self.mpr fun v hv => ?_]
    rw [decide_eq_true_eq, InUse]
    omega
  · have hnone : g.viewsOf g.nodes v = [] := by
      rw [viewsOf, filter_eq_nil_iff]
      intro w _
      rw [decide_eq_true_eq]
      rintro ⟨hw, -⟩
      simp [isView, hg.view_root w v hw] at hv
    rw [h.views, hnone]
    rfl
  · rcases hr with hleaf | hnil | ⟨hnode, hin⟩
    · exact hleafs t hleaf ho
    · simp at hnil
    · exact h.inputs t hnode hin ho

lemma safe_of_allocGraph {nodeIds leafIds : ℕ → ℤ} (hg : g.Topological) (hc : g.Plain)
    (hfit : SizesFit B g) (hs : allocGraph B g nodeIds leafIds = some s) : Safe B g s := by
  obtain ⟨s1, hs1, hs⟩ := Option.bind_eq_some_iff.mp hs
  obtain ⟨s2, hs2, hs3⟩ := Option.bind_eq_some_iff.mp hs
  have hstart : Counted B g [] [] (start B) :=
    ⟨mem_start hfit, fun _ => rfl, fun _ => rfl, fun t ht => by
      simp [isOwn, start, HashNode.zero] at ht, by simp⟩
  have hfst : ∀ (l : List ℕ) (ids : ℕ → ℤ),
      (l.zipIdx.map fun x => (x.1, ids x.2)).map Prod.fst = l := by
    intro l ids
    rw [List.map_map]
    exact List.zipIdx_map_fst 0 l
  obtain ⟨h1, hleafs, -⟩ := counted_leafs hg hfit _ (fun x hx => List.fst_mem_of_mem_zipIdx hx)
    hstart hs1
  obtain ⟨h2, hkept⟩ := h1.countNodes hg hc hfit _ (by rw [hfst]; rfl) hs2
  have hleafs' : ∀ t ∈ g.leafs, g.Own t → s2.isOwn t = true := by
    intro t ht ho
    obtain ⟨i, hi⟩ := List.mem_iff_getElem?.mp ht
    have hmem : (t, i) ∈ g.leafs.zipIdx := List.mem_zipIdx_iff_getElem?.mpr hi
    exact hkept t (hleafs (t, i) hmem ho)
  have halive := h2.alive hg hleafs'
  have hnodes := hfst g.nodes nodeIds
  have hsplit : g.nodes = [] ++ (g.nodes.zipIdx.map fun x => (x.1, nodeIds x.2)).map Prod.fst :=
    hnodes.symm
  obtain ⟨-, hsafe⟩ := Alive.allocNodes hg hc hfit _ hsplit (by rw [hnodes]; exact halive) hs3
  intro pre n post hn
  exact hsafe pre n post (by rw [hnodes, hn])

/-- One buffer of alignment 32, in which every tensor takes 64 bytes. -/
def smallBufts : Bufts := ⟨fun _ => 0, fun _ => 32, fun _ => 4096, fun _ _ => 64⟩

lemma sizesFit_smallBufts (g : Cgraph) : SizesFit smallBufts g where
  alignment_pos := by
    intro b
    show 0 < 32
    decide
  padded := by
    intro b t _
    show padUp 64 32 ≤ sizeMax / 2
    decide

/-- A tensor without data. -/
def plainTensor (op : Op) (src : List ℕ) : Tensor :=
  ⟨op, src.map some, none, 0, false, false, false, 0, [16, 1, 1, 1], [4, 64, 64, 64]⟩

/-- Node 2 is computed in place of node 1, and node 4 reads a view of it. -/
def inPlaceGraph : Cgraph where
  tensor := fun t =>
    if t = 1 then plainTensor (.other 0) [0]
    else if t = 2 then plainTensor .add [1, 0]
    else if t = 3 then { plainTensor (.other 1) [2] with viewSrc := some 2 }
    else if t = 4 then { plainTensor (.other 0) [3] with output := true }
    else plainTensor .none []
  nodes := [1, 2, 3, 4]
  leafs := [0]

/-- Node 2 is an output and a view of node 1, and node 3 reads it. -/
def outputViewGraph : Cgraph where
  tensor := fun t =>
    if t = 1 then plainTensor (.other 0) [0]
    else if t = 2 then { plainTensor (.other 1) [1] with viewSrc := some 1, output := true }
    else if t = 3 then plainTensor (.other 0) [2]
    else if t = 4 then plainTensor (.other 0) [3]
    else plainTensor .none []
  nodes := [1, 2, 3, 4]
  leafs := [0]

end Llama.Gallocr
