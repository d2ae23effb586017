import Mathlib.Order.Interval.Set.LinearOrder
import Mathlib.Data.Set.Lattice
import Mathlib.Order.CompletePartialOrder

/-!
# Lists of extents

An extent is the half-open interval between two bounds.  A list of extents is `Parted` when no
point lies in two of them, and `Apart` when they are sorted and no two of them touch.  Space is
taken from the front of an extent and given back either by moving a bound of an extent that it
touches, or as a new extent.

`mem_covered_middle` and `parted_middle` take one extent out of the middle of a list; every
rule about taking and giving back is derived from them.
-/

/-- The points from `lo` on that are below `hi`. -/
structure Extent (α : Type*) where
  lo : α
  hi : α
  deriving DecidableEq, Repr

namespace Extent

variable {α : Type*} [LinearOrder α] {a b c e n r : Extent α} {l pre post : List (Extent α)}
  {x mid : α}

/-- The points of an extent. -/
def points (e : Extent α) : Set α := Set.Ico e.lo e.hi

@[simp] lemma mem_points : x ∈ e.points ↔ e.lo ≤ x ∧ x < e.hi := Iff.rfl

/-- The points of a list of extents. -/
def covered (l : List (Extent α)) : Set α := {x | ∃ e ∈ l, x ∈ e.points}

lemma mem_covered : x ∈ covered l ↔ ∃ e ∈ l, x ∈ e.points := Iff.rfl

lemma mem_covered_middle :
    x ∈ covered (pre ++ b :: post) ↔ x ∈ b.points ∨ x ∈ covered (pre ++ post) := by
  simp only [mem_covered, List.mem_append, List.mem_cons]
  constructor
  · rintro ⟨e, he | rfl | he, hx⟩
    · exact Or.inr ⟨e, Or.inl he, hx⟩
    · exact Or.inl hx
    · exact Or.inr ⟨e, Or.inr he, hx⟩
  · rintro (hx | ⟨e, he | he, hx⟩)
    · exact ⟨b, Or.inr (Or.inl rfl), hx⟩
    · exact ⟨e, Or.inl he, hx⟩
    · exact ⟨e, Or.inr (Or.inr he), hx⟩

/-- No point lies in two extents of the list. -/
def Parted (l : List (Extent α)) : Prop := l.Pairwise fun a b => Disjoint a.points b.points

lemma parted_singleton (e : Extent α) : Parted [e] := List.pairwise_singleton _ _

lemma parted_middle : Parted (pre ++ b :: post) ↔
    Disjoint b.points (covered (pre ++ post)) ∧ Parted (pre ++ post) := by
  rw [Parted, List.pairwise_middle fun h => Disjoint.symm h, List.pairwise_cons]
  refine and_congr_left fun _ => ?_
  rw [Set.disjoint_left]
  constructor
  · rintro h x hx ⟨e, he, hxe⟩
    exact Set.disjoint_left.mp (h e he) hx hxe
  · intro h e he
    exact Set.disjoint_left.mpr fun x hx hxe => h hx ⟨e, he, hxe⟩

/-- Two extents with points and without a common one lie one before the other. -/
lemma hi_le_or_hi_le (ha : a.lo < a.hi) (hb : b.lo < b.hi)
    (h : Disjoint a.points b.points) : a.hi ≤ b.lo ∨ b.hi ≤ a.lo := by
  rw [Set.disjoint_left] at h
  have hab := @h a.lo
  have hba := @h b.lo
  simp only [mem_points] at hab hba
  grind

/-- **Space is taken from the front of an extent.** -/
theorem Parted.take (h : Parted (pre ++ ⟨a.lo, b.hi⟩ :: post)) (hab : a.hi = b.lo)
    (ha : a.lo ≤ a.hi) (hb : b.lo ≤ b.hi) :
    Parted (pre ++ b :: post) ∧ ∀ x, x ∈ covered (pre ++ b :: post) ↔
        x ∈ covered (pre ++ ⟨a.lo, b.hi⟩ :: post) ∧ x ∉ a.points := by
  rw [parted_middle, Set.disjoint_left] at h
  obtain ⟨hdis, hpost⟩ := h
  simp only [mem_points] at hdis
  refine ⟨parted_middle.mpr ⟨Set.disjoint_left.mpr fun x hx => hdis ?_, hpost⟩, fun x => ?_⟩
  · rw [mem_points] at hx
    exact ⟨by grind, hx.2⟩
  · simp only [mem_covered_middle, mem_points]
    grind

/-- An extent is taken as a whole. -/
lemma Parted.erase (h : Parted (pre ++ b :: post)) : Parted (pre ++ post) ∧
      ∀ x, x ∈ covered (pre ++ post) ↔ x ∈ covered (pre ++ b :: post) ∧ x ∉ b.points := by
  rw [parted_middle, Set.disjoint_left] at h
  refine ⟨h.2, fun x => ?_⟩
  rw [mem_covered_middle]
  tauto

/-- Space is given back as an extent of its own. -/
lemma Parted.insert (h : Parted (pre ++ post))
    (hr : Disjoint r.points (covered (pre ++ post))) :
    Parted (pre ++ r :: post) ∧
      ∀ x, x ∈ covered (pre ++ r :: post) ↔ x ∈ covered (pre ++ post) ∨ x ∈ r.points :=
  ⟨parted_middle.mpr ⟨hr, h⟩, fun _ => mem_covered_middle.trans or_comm⟩

/-- **Space is given back to an extent that it touches.** -/
theorem Parted.extend (h : Parted (pre ++ b :: post))
    (hr : Disjoint r.points (covered (pre ++ b :: post)))
    (he : ∀ x, x ∈ e.points ↔ x ∈ b.points ∨ x ∈ r.points) :
    Parted (pre ++ e :: post) ∧
      ∀ x, x ∈ covered (pre ++ e :: post) ↔ x ∈ covered (pre ++ b :: post) ∨ x ∈ r.points := by
  rw [parted_middle, Set.disjoint_left] at h
  rw [Set.disjoint_left] at hr
  refine ⟨parted_middle.mpr ⟨Set.disjoint_left.mpr fun x hx hc => ?_, h.2⟩, fun x => ?_⟩
  · rcases (he x).mp hx with hx | hx
    · exact h.1 hx hc
    · exact hr hx (mem_covered_middle.mpr (Or.inr hc))
  · rw [mem_covered_middle, mem_covered_middle, he]
    tauto

/-- **Two neighbours become one extent.** -/
theorem Parted.join (h : Parted (pre ++ b :: n :: post))
    (he : ∀ x, x ∈ e.points ↔ x ∈ b.points ∨ x ∈ n.points) :
    Parted (pre ++ e :: post) ∧
      ∀ x, x ∈ covered (pre ++ e :: post) ↔ x ∈ covered (pre ++ b :: n :: post) := by
  have hmem : ∀ x, x ∈ covered (pre ++ b :: n :: post) ↔
      x ∈ b.points ∨ x ∈ n.points ∨ x ∈ covered (pre ++ post) := fun x => by
    rw [mem_covered_middle, mem_covered_middle]
  rw [parted_middle, parted_middle, Set.disjoint_left, Set.disjoint_left] at h
  obtain ⟨hb, hn, hpost⟩ := h
  refine ⟨parted_middle.mpr ⟨Set.disjoint_left.mpr fun x hx hc => ?_, hpost⟩, fun x => ?_⟩
  · rcases (he x).mp hx with hx | hx
    · exact hb hx (mem_covered_middle.mpr (Or.inr hc))
    · exact hn hx hc
  · rw [mem_covered_middle, hmem, he]
    tauto

/-! ## Sorted extents with gaps -/

/-- The extents are sorted, and between two of them lies a point of neither. -/
def Apart (l : List (Extent α)) : Prop := l.Pairwise fun a b => a.hi < b.lo

/-- Every extent of the list has a point. -/
def Filled (l : List (Extent α)) : Prop := ∀ e ∈ l, e.lo < e.hi

lemma apart_middle : Apart (pre ++ b :: post) ↔ Apart pre ∧ Apart post ∧
    (∀ c ∈ pre, c.hi < b.lo) ∧ (∀ c ∈ post, b.hi < c.lo) ∧ ∀ c ∈ pre, ∀ d ∈ post, c.hi < d.lo := by
  simp only [Apart, List.pairwise_append, List.pairwise_cons]
  grind

lemma Apart.erase (h : Apart (pre ++ b :: post)) : Apart (pre ++ post) :=
  h.sublist ((List.sublist_cons_self b post).append_left pre)

/-- A lower bound moves up. -/
lemma Apart.narrow (h : Apart (pre ++ b :: post)) (hlo : b.lo ≤ mid) :
    Apart (pre ++ ⟨mid, b.hi⟩ :: post) := by
  rw [apart_middle] at h ⊢
  obtain ⟨hpre, hpost, hb, hb', hcross⟩ := h
  exact ⟨hpre, hpost, fun c hc => (hb c hc).trans_le hlo, hb', hcross⟩

section Give

variable (hf : Filled (pre ++ b :: post)) (hr : r.lo < r.hi)
  (hd : Disjoint r.points (covered (pre ++ b :: post)))
include hf hr hd

/-- Space that is given back lies before or behind every extent. -/
lemma before_or_behind : ∀ c ∈ pre ++ b :: post, c.hi ≤ r.lo ∨ r.hi ≤ c.lo := by
  intro c hc
  refine hi_le_or_hi_le (hf c hc) hr (Set.disjoint_left.mpr fun x hx hxr => ?_)
  exact Set.disjoint_left.mp hd hxr ⟨c, hc, hx⟩

/-- **Space behind an extent is joined to it**, when the next extent does not touch it. -/
theorem Apart.extend_hi (h : Apart (pre ++ b :: post)) (htouch : b.hi = r.lo)
    (hnext : ∀ n ∈ post.head?, r.hi ≠ n.lo) : Apart (pre ++ ⟨b.lo, r.hi⟩ :: post) := by
  have hside := before_or_behind hf hr hd
  rw [apart_middle] at h ⊢
  obtain ⟨hpre, hpost, hb, hb', hcross⟩ := h
  refine ⟨hpre, hpost, hb, fun c hc => ?_, hcross⟩
  rcases post with _ | ⟨n, post⟩
  · simp at hc
  · have hfn := hf n (by simp)
    rcases List.mem_cons.mp hc with rfl | hc
    · grind
    · have hnc := (List.pairwise_cons.mp hpost).1 c hc
      grind

/-- **Space before an extent is joined to it**, when no earlier extent touches it. -/
theorem Apart.extend_lo (h : Apart (pre ++ b :: post)) (htouch : r.hi = b.lo)
    (hprev : ∀ c ∈ pre, c.hi ≠ r.lo) : Apart (pre ++ ⟨r.lo, b.hi⟩ :: post) := by
  have hside := before_or_behind hf hr hd
  rw [apart_middle] at h ⊢
  obtain ⟨hpre, hpost, hb, hb', hcross⟩ := h
  refine ⟨hpre, hpost, fun c hc => ?_, hb', hcross⟩
  have hfc := hf c (List.mem_append_left _ hc)
  grind

end Give

/-- **Space between two extents joins them.** -/
theorem Apart.join (h : Apart (pre ++ b :: n :: post)) : Apart (pre ++ ⟨b.lo, n.hi⟩ :: post) := by
  simp only [apart_middle, List.mem_cons] at h ⊢
  obtain ⟨hpre, hpost, hb, hb', hcross⟩ := h
  rw [Apart, List.pairwise_cons] at hpost
  exact ⟨hpre, hpost.2, hb, hpost.1, fun c hc d hd => hcross c hc d (Or.inr hd)⟩

/-- **Space that no extent touches becomes an extent of its own**, in its place in the order. -/
theorem Apart.insert (h : Apart (pre ++ post)) (hf : Filled (pre ++ post)) (hr : r.lo < r.hi)
    (hd : Disjoint r.points (covered (pre ++ post))) (hpre : ∀ c ∈ pre, c.lo < r.lo)
    (hpost : ∀ c ∈ post.head?, r.lo ≤ c.lo)
    (htouch : ∀ c ∈ pre ++ post, c.hi ≠ r.lo ∧ r.hi ≠ c.lo) : Apart (pre ++ r :: post) := by
  have hside : ∀ c ∈ pre ++ post, c.hi ≤ r.lo ∨ r.hi ≤ c.lo := by
    intro c hc
    refine hi_le_or_hi_le (hf c hc) hr (Set.disjoint_left.mpr fun x hx hxr => ?_)
    exact Set.disjoint_left.mp hd hxr ⟨c, hc, hx⟩
  obtain ⟨h1, h2, hcross⟩ := List.pairwise_append.mp h
  refine apart_middle.mpr ⟨h1, h2, fun c hc => ?_, fun c hc => ?_, hcross⟩
  · grind
  · rcases post with _ | ⟨n, post⟩
    · simp at hc
    · have hfn := hf n (by simp)
      rcases List.mem_cons.mp hc with rfl | hc
      · grind
      · have hnc := (List.pairwise_cons.mp h2).1 c hc
        grind

/-- **Extents that are apart and cover an interval are one.** -/
theorem Apart.eq_singleton {lo hi : α} (h : Apart l) (hf : Filled l) (hlt : lo < hi)
    (hl : covered l = Set.Ico lo hi) : l = [⟨lo, hi⟩] := by
  have hsub : ∀ f ∈ l, lo ≤ f.lo ∧ f.hi ≤ hi := fun f hfl =>
    (Set.Ico_subset_Ico_iff (hf f hfl)).mp fun x hx => hl.subset ⟨f, hfl, hx⟩
  obtain ⟨f, hfl, hx⟩ : lo ∈ covered l := hl.superset ⟨le_rfl, hlt⟩
  cases l with
  | nil => cases hfl
  | cons e l =>
    obtain ⟨hbehind, -⟩ := List.pairwise_cons.mp h
    obtain ⟨hlo, hhi⟩ := hsub e List.mem_cons_self
    have hfe := hf e List.mem_cons_self
    -- no extent covers the end of the first one
    have hend : e.hi = hi := by
      refine hhi.eq_of_not_lt fun hlt => ?_
      obtain ⟨g, hg, hx⟩ : e.hi ∈ covered (e :: l) := hl.superset ⟨hlo.trans hfe.le, hlt⟩
      rcases List.mem_cons.mp hg with rfl | hg
      · exact hx.2.false
      · exact (hbehind g hg).not_ge hx.1
    obtain rfl : l = [] := List.eq_nil_iff_forall_not_mem.mpr fun g hg =>
      have hg' := List.mem_cons_of_mem e hg
      ((hbehind g hg).trans (hf g hg')).not_ge (hend ▸ (hsub g hg').2)
    obtain rfl := List.mem_singleton.mp hfl
    rw [← hend, hlo.antisymm hx.1]

end Extent
