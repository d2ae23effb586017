import Mathlib.Data.List.Sort

/-!
# Ordered counted maps

A `CountMap α` is an association list from keys to multiplicities whose keys are
strictly increasing, so the first and the last entry carry the least and the
greatest key.  `inc` raises a multiplicity, creating the entry when it is missing;
`dec` lowers it and drops the entry that reaches zero.

`Positive` says that no entry carries multiplicity zero.  Under it a key is present
exactly when its multiplicity is positive, two maps with the same multiplicities are
equal, and the end keys are the bounds of the support.
-/

/-- Strictly increasing keys, each with a multiplicity. -/
structure CountMap (α : Type*) [LinearOrder α] where
  entries : List (α × ℕ)
  sorted : entries.Pairwise (fun a b => a.1 < b.1)

namespace CountMap

open List

variable {α : Type*} [LinearOrder α]

/-- The map without entries. -/
def empty : CountMap α := ⟨[], List.Pairwise.nil⟩

instance : Inhabited (CountMap α) := ⟨empty⟩

private def countIn (a : α) : List (α × ℕ) → ℕ
  | [] => 0
  | e :: l => if a = e.1 then e.2 else countIn a l

private def incIn (a : α) : List (α × ℕ) → List (α × ℕ)
  | [] => [(a, 1)]
  | e :: l =>
    if a < e.1 then (a, 1) :: e :: l
    else if a = e.1 then (a, e.2 + 1) :: l
    else e :: incIn a l

private def decIn (a : α) : List (α × ℕ) → List (α × ℕ)
  | [] => []
  | e :: l =>
    if a = e.1 then (if e.2 - 1 = 0 then l else (a, e.2 - 1) :: l)
    else e :: decIn a l

variable {a : α} {l : List (α × ℕ)} {m : CountMap α}

private lemma mem_incIn {x : α × ℕ} : ∀ {l : List (α × ℕ)}, x ∈ incIn a l → x.1 = a ∨ x ∈ l
  | [], h => by simp only [incIn, mem_singleton] at h; exact .inl (by rw [h])
  | e :: l, h => by
    simp only [incIn] at h
    split at h
    · rcases mem_cons.mp h with rfl | h
      · exact .inl rfl
      · exact .inr h
    · split at h
      · rcases mem_cons.mp h with rfl | h
        · exact .inl rfl
        · exact .inr (mem_cons_of_mem _ h)
      · rcases mem_cons.mp h with rfl | h
        · exact .inr mem_cons_self
        · exact (mem_incIn h).imp id (mem_cons_of_mem _)

private lemma mem_decIn {x : α × ℕ} : ∀ {l : List (α × ℕ)}, x ∈ decIn a l → ∃ y ∈ l, y.1 = x.1
  | e :: l, h => by
    simp only [decIn] at h
    split at h
    · rename_i hae
      split at h
      · exact ⟨x, mem_cons_of_mem _ h, rfl⟩
      · rcases mem_cons.mp h with rfl | h
        · exact ⟨e, mem_cons_self, hae.symm⟩
        · exact ⟨x, mem_cons_of_mem _ h, rfl⟩
    · rcases mem_cons.mp h with rfl | h
      · exact ⟨x, mem_cons_self, rfl⟩
      · obtain ⟨y, hy, he⟩ := mem_decIn h
        exact ⟨y, mem_cons_of_mem _ hy, he⟩

private lemma sorted_incIn (a : α) : ∀ {l : List (α × ℕ)}, l.Pairwise (fun a b => a.1 < b.1) →
      (incIn a l).Pairwise (fun a b => a.1 < b.1)
  | [], _ => by simp [incIn]
  | e :: l, h => by
    have ⟨he, hl⟩ := pairwise_cons.mp h
    simp only [incIn]
    split
    · rename_i hlt
      refine pairwise_cons.mpr ⟨?_, h⟩
      intro x hx
      rcases mem_cons.mp hx with rfl | hx
      · exact hlt
      · exact hlt.trans (he x hx)
    · rename_i hlt
      split
      · rename_i heq
        subst heq
        exact pairwise_cons.mpr ⟨he, hl⟩
      · rename_i hne
        refine pairwise_cons.mpr ⟨?_, sorted_incIn a hl⟩
        intro x hx
        rcases mem_incIn hx with rfl | hx
        · exact lt_of_le_of_ne (not_lt.mp hlt) (Ne.symm hne)
        · exact he x hx

private lemma sorted_decIn (a : α) : ∀ {l : List (α × ℕ)}, l.Pairwise (fun a b => a.1 < b.1) →
      (decIn a l).Pairwise (fun a b => a.1 < b.1)
  | [], _ => by simp [decIn]
  | e :: l, h => by
    have ⟨he, hl⟩ := pairwise_cons.mp h
    simp only [decIn]
    split
    · rename_i heq
      subst heq
      split
      · exact hl
      · exact pairwise_cons.mpr ⟨he, hl⟩
    · refine pairwise_cons.mpr ⟨?_, sorted_decIn a hl⟩
      intro x hx
      obtain ⟨y, hy, heq⟩ := mem_decIn hx
      exact heq ▸ he y hy

private lemma countIn_eq_zero : ∀ {l : List (α × ℕ)}, (∀ x ∈ l, x.1 ≠ a) → countIn a l = 0
  | [], _ => rfl
  | e :: l, h => by
    have he : a ≠ e.1 := (h e mem_cons_self).symm
    rw [countIn, if_neg he]
    exact countIn_eq_zero fun x hx => h x (mem_cons_of_mem _ hx)

private lemma countIn_of_lt (h : ∀ x ∈ l, a < x.1) : countIn a l = 0 :=
  countIn_eq_zero fun x hx => (h x hx).ne'

private lemma countIn_of_mem (h : l.Pairwise (fun a b => a.1 < b.1)) :
    ∀ {x : α × ℕ}, x ∈ l → countIn x.1 l = x.2 := by
  induction l with
  | nil => intro x hx; simp at hx
  | cons e l ih =>
    intro x hx
    have ⟨he, hl⟩ := pairwise_cons.mp h
    rcases mem_cons.mp hx with rfl | hx
    · simp [countIn]
    · rw [countIn, if_neg (he x hx).ne']
      exact ih hl hx

private lemma countIn_incIn (a b : α) : ∀ {l : List (α × ℕ)}, l.Pairwise (fun a b => a.1 < b.1) →
      countIn b (incIn a l) = countIn b l + if b = a then 1 else 0
  | [], _ => by simp [incIn, countIn]
  | e :: l, h => by
    have ⟨he, hl⟩ := pairwise_cons.mp h
    simp only [incIn]
    split
    · rename_i hlt
      by_cases hba : b = a
      · subst hba
        have hz : countIn b (e :: l) = 0 := by
          refine countIn_of_lt fun x hx => ?_
          rcases mem_cons.mp hx with rfl | hx
          · exact hlt
          · exact hlt.trans (he x hx)
        rw [hz, countIn, if_pos rfl, if_pos rfl]
      · rw [countIn, if_neg hba, if_neg hba, Nat.add_zero]
    · split
      · rename_i heq
        subst heq
        by_cases hba : b = e.1 <;> simp [countIn, hba]
      · rename_i hne
        by_cases hbe : b = e.1
        · simp [countIn, hbe, Ne.symm hne]
        · simp only [countIn, if_neg hbe, countIn_incIn a b hl]

private lemma countIn_decIn (a b : α) : ∀ {l : List (α × ℕ)}, l.Pairwise (fun a b => a.1 < b.1) →
      countIn b (decIn a l) = countIn b l - if b = a then 1 else 0
  | [], _ => by simp [decIn, countIn]
  | e :: l, h => by
    have ⟨he, hl⟩ := pairwise_cons.mp h
    simp only [decIn]
    split
    · rename_i heq
      subst heq
      by_cases hba : b = e.1
      · subst hba
        have hz : countIn e.1 l = 0 := countIn_of_lt he
        split
        · simp [countIn]
          omega
        · simp [countIn]
      · split <;> simp [countIn, hba]
    · rename_i hne
      by_cases hbe : b = e.1
      · simp [countIn, hbe, Ne.symm hne]
      · simp only [countIn, if_neg hbe, countIn_decIn a b hl]

/-! ## The maps -/

/-- The multiplicity of a key, zero when the key is missing. -/
def count (m : CountMap α) (a : α) : ℕ := countIn a m.entries

/-- Whether the map has an entry for the key. -/
def contains (m : CountMap α) (a : α) : Bool := m.entries.any (fun e => e.1 = a)

/-- Raise the multiplicity of a key by one. -/
def inc (m : CountMap α) (a : α) : CountMap α := ⟨incIn a m.entries, sorted_incIn a m.sorted⟩

/-- Lower the multiplicity of a key by one, dropping the entry at zero. -/
def dec (m : CountMap α) (a : α) : CountMap α := ⟨decIn a m.entries, sorted_decIn a m.sorted⟩

/-- The least key. -/
def minKey? (m : CountMap α) : Option α := m.entries.head?.map Prod.fst

/-- The greatest key. -/
def maxKey? (m : CountMap α) : Option α := m.entries.getLast?.map Prod.fst

/-- No entry has multiplicity zero. -/
def Positive (m : CountMap α) : Prop := ∀ e ∈ m.entries, 0 < e.2

@[simp] lemma count_empty (a : α) : (empty : CountMap α).count a = 0 := rfl

@[simp] lemma count_inc (m : CountMap α) (a b : α) :
    (m.inc a).count b = m.count b + if b = a then 1 else 0 :=
  countIn_incIn a b m.sorted

@[simp] lemma count_dec (m : CountMap α) (a b : α) :
    (m.dec a).count b = m.count b - if b = a then 1 else 0 :=
  countIn_decIn a b m.sorted

lemma count_of_mem {e : α × ℕ} (h : e ∈ m.entries) : m.count e.1 = e.2 :=
  countIn_of_mem m.sorted h

lemma positive_empty : (empty : CountMap α).Positive := by
  intro e he
  simp [empty] at he

private lemma positive_incIn (a : α) (h : ∀ e ∈ l, 0 < e.2) : ∀ e ∈ incIn a l, 0 < e.2 := by
  induction l with
  | nil => simp [incIn]
  | cons x l ih =>
    have hl : ∀ e ∈ l, 0 < e.2 := fun e he => h e (mem_cons_of_mem _ he)
    intro e he
    simp only [incIn] at he
    split at he
    · rcases mem_cons.mp he with rfl | he
      · exact Nat.one_pos
      · exact h e he
    · split at he
      · rcases mem_cons.mp he with rfl | he
        · exact Nat.succ_pos _
        · exact hl e he
      · rcases mem_cons.mp he with rfl | he
        · exact h e mem_cons_self
        · exact ih hl e he

private lemma positive_decIn (a : α) (h : ∀ e ∈ l, 0 < e.2) : ∀ e ∈ decIn a l, 0 < e.2 := by
  induction l with
  | nil => simp [decIn]
  | cons x l ih =>
    have hl : ∀ e ∈ l, 0 < e.2 := fun e he => h e (mem_cons_of_mem _ he)
    intro e he
    simp only [decIn] at he
    split at he
    · split at he
      · exact hl e he
      · rename_i hne
        rcases mem_cons.mp he with rfl | he
        · exact Nat.pos_of_ne_zero hne
        · exact hl e he
    · rcases mem_cons.mp he with rfl | he
      · exact h e mem_cons_self
      · exact ih hl e he

lemma Positive.inc (h : m.Positive) (a : α) : (m.inc a).Positive :=
  positive_incIn a h

lemma Positive.dec (h : m.Positive) (a : α) : (m.dec a).Positive :=
  positive_decIn a h

lemma contains_iff : m.contains a = true ↔ ∃ e ∈ m.entries, e.1 = a := by
  simp [contains]

/-- Without zero entries a key is present exactly when it counts. -/
lemma Positive.contains_iff (h : m.Positive) (a : α) : m.contains a = true ↔ 0 < m.count a := by
  rw [CountMap.contains_iff]
  constructor
  · rintro ⟨e, he, rfl⟩
    rw [count_of_mem he]
    exact h e he
  · intro hpos
    by_contra hno
    push Not at hno
    exact hpos.ne' (countIn_eq_zero hno)

/-- The end keys are the bounds of the support. -/
lemma Positive.minKey?_spec (h : m.Positive) (hmin : m.minKey? = some a) :
    0 < m.count a ∧ ∀ b, 0 < m.count b → a ≤ b := by
  obtain ⟨l, hs⟩ := m
  cases l with
  | nil => simp [minKey?] at hmin
  | cons e l =>
    simp only [minKey?, head?_cons, Option.map_some, Option.some.injEq] at hmin
    subst hmin
    constructor
    · have he : 0 < e.2 := h e mem_cons_self
      simpa [count, countIn] using he
    · intro b hb
      obtain ⟨x, hx, rfl⟩ := CountMap.contains_iff.mp ((h.contains_iff b).mpr hb)
      rcases mem_cons.mp hx with rfl | hx
      · exact le_rfl
      · exact ((pairwise_cons.mp hs).1 x hx).le

lemma Positive.maxKey?_spec (h : m.Positive) (hmax : m.maxKey? = some a) :
    0 < m.count a ∧ ∀ b, 0 < m.count b → b ≤ a := by
  obtain ⟨e, he, rfl⟩ := Option.map_eq_some_iff.mp hmax
  obtain ⟨l, hl⟩ := getLast?_eq_some_iff.mp he
  have hmem : e ∈ m.entries := by rw [hl]; simp
  constructor
  · rw [count_of_mem hmem]
    exact h e hmem
  · intro b hb
    obtain ⟨x, hx, rfl⟩ := CountMap.contains_iff.mp ((h.contains_iff b).mpr hb)
    rw [hl, mem_append, mem_singleton] at hx
    rcases hx with hx | rfl
    · have hs := m.sorted
      rw [hl] at hs
      exact ((pairwise_append.mp hs).2.2 x hx e (by simp)).le
    · exact le_rfl

lemma minKey?_eq_none_iff : m.minKey? = none ↔ m.entries = [] := by
  simp [minKey?]

lemma maxKey?_eq_none_iff : m.maxKey? = none ↔ m.entries = [] := by
  simp [maxKey?]

lemma Positive.entries_eq_nil_iff (h : m.Positive) : m.entries = [] ↔ ∀ a, m.count a = 0 := by
  constructor
  · intro hnil a
    simp [count, hnil, countIn]
  · intro hz
    refine eq_nil_iff_forall_not_mem.mpr fun e he => ?_
    have hpos := h e he
    rw [← count_of_mem he, hz] at hpos
    exact absurd hpos (lt_irrefl 0)

/-- Maps without zero entries are determined by their multiplicities. -/
lemma Positive.ext {n : CountMap α} (hm : m.Positive) (hn : n.Positive)
    (h : ∀ a, m.count a = n.count a) : m = n := by
  have hsub : ∀ {m n : CountMap α}, m.Positive → n.Positive →
      (∀ a, m.count a = n.count a) → ∀ e ∈ m.entries, e ∈ n.entries := by
    intro m n hm hn h e he
    have hpos : 0 < n.count e.1 := by
      rw [← h, count_of_mem he]
      exact hm e he
    obtain ⟨x, hx, hxe⟩ := CountMap.contains_iff.mp ((hn.contains_iff e.1).mpr hpos)
    have hval : x.2 = e.2 := by rw [← count_of_mem hx, hxe, ← h, count_of_mem he]
    exact (Prod.ext hxe hval : x = e) ▸ hx
  have hmem : ∀ e, e ∈ m.entries ↔ e ∈ n.entries := fun e =>
    ⟨hsub hm hn h e, hsub hn hm (fun a => (h a).symm) e⟩
  have hperm : m.entries.Perm n.entries := by
    refine (perm_ext_iff_of_nodup ?_ ?_).mpr hmem
    · exact m.sorted.imp fun hab => fun heq => hab.ne (congrArg Prod.fst heq)
    · exact n.sorted.imp fun hab => fun heq => hab.ne (congrArg Prod.fst heq)
  have heq : m.entries = n.entries :=
    hperm.eq_of_pairwise
      (fun a b _ _ hab hba => absurd hba (lt_asymm hab)) m.sorted n.sorted
  cases m; cases n
  simp_all

end CountMap
