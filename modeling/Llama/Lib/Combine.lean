import Mathlib.Algebra.Group.Basic
import Mathlib.Data.List.AList

/-!
# Tables that are put together

The entries of one table are put into another one by one, in any order, each combined with what
is there for its key.  When no key comes twice the order does not matter.

A table of tables is a partial function to partial functions, and two of these are added where
both have a value.
-/

namespace Combine

open List

/-- A finite map. -/
abbrev Table (κ V : Type) := AList fun _ : κ => V

section

variable {κ V W : Type} {l : List (κ × W)} {m m' : Table κ V} {add : Table κ W} {k : κ} {w : W}

/-- The entries of a table in the order of its list. -/
def listed (add : Table κ W) : List (κ × W) := add.entries.map fun e => (e.1, e.2)

/-- The entries of a table in some order. -/
def Iterates (l : List (κ × W)) (add : Table κ W) : Prop := l.Perm (listed add)

lemma iterates_listed (add : Table κ W) : Iterates (listed add) add := List.Perm.refl _

lemma Iterates.nodup (h : Iterates l add) : (l.map Prod.fst).Nodup := by
  rw [(h.map Prod.fst).nodup_iff, listed, map_map]
  exact add.keys_nodup

variable [DecidableEq κ]

lemma Iterates.eq_singleton (h : Iterates l ((∅ : Table κ W).insert k w)) : l = [(k, w)] :=
  perm_singleton.mp h

lemma Iterates.mem_iff (h : Iterates l add) : (k, w) ∈ l ↔ add.lookup k = some w := by
  rw [List.Perm.mem_iff h, ← Option.mem_def, AList.mem_lookup_iff, listed, mem_map]
  constructor
  · rintro ⟨⟨k', w'⟩, hmem, heq⟩
    obtain ⟨rfl, rfl⟩ := Prod.mk.inj heq
    exact hmem
  · intro hmem
    exact ⟨⟨k, w⟩, hmem, rfl⟩

/-- An entry is put into a table, combined with what is there for its key. -/
def put (f : Option V → W → Option V) (m : Table κ V) (e : κ × W) : Option (Table κ V) :=
  (f (m.lookup e.1) e.2).map (m.insert e.1)

/-- Entries are put into a table, one by one. -/
def putAll (f : Option V → W → Option V) (m : Table κ V) (l : List (κ × W)) : Option (Table κ V) :=
  l.foldlM (put f) m

variable {f : Option V → W → Option V}

lemma put_eq_some {e : κ × W} (h : put f m e = some m') :
    m'.lookup e.1 = f (m.lookup e.1) e.2 ∧ ∀ k ≠ e.1, m'.lookup k = m.lookup k := by
  obtain ⟨v, hv, rfl⟩ := Option.map_eq_some_iff.mp h
  exact ⟨(AList.lookup_insert m).trans hv.symm, fun k hk => AList.lookup_insert_ne hk⟩

/-- An entry that is put in first does not show at the keys of the others. -/
lemma lookup_eq_of_put {e e' : κ × W} (hput : put f m e = some m')
    (hnodup : ((e :: l).map Prod.fst).Nodup) (he : e' ∈ l) :
    m'.lookup e'.1 = m.lookup e'.1 := by
  refine (put_eq_some hput).2 _ fun heq => ?_
  exact (nodup_cons.mp hnodup).1 (heq ▸ mem_map_of_mem he)

/-- **Putting in succeeds when each entry can be combined** with what was there at first. -/
theorem isSome_putAll_of_nodup (hnodup : (l.map Prod.fst).Nodup) :
    (putAll f m l).isSome ↔ ∀ e ∈ l, (f (m.lookup e.1) e.2).isSome := by
  induction l generalizing m with
  | nil => simp [putAll]
  | cons e l ih =>
    rw [forall_mem_cons, putAll, foldlM_cons]
    cases hput : put f m e with
    | none =>
      have hnone : f (m.lookup e.1) e.2 = none := Option.map_eq_none_iff.mp hput
      simp [hnone]
    | some m1 =>
      obtain ⟨v, hv, -⟩ := Option.map_eq_some_iff.mp hput
      rw [hv]
      refine (ih (nodup_cons.mp hnodup).2).trans ?_
      rw [and_iff_right (Option.isSome_some)]
      exact forall₂_congr fun e' he' => by rw [lookup_eq_of_put hput hnodup he']

lemma lookup_putAll_of_nodup (hnodup : (l.map Prod.fst).Nodup) (h : putAll f m l = some m') :
    (∀ e ∈ l, m'.lookup e.1 = f (m.lookup e.1) e.2) ∧
      ∀ k ∉ l.map Prod.fst, m'.lookup k = m.lookup k := by
  induction l generalizing m with
  | nil =>
    cases h
    exact ⟨fun e he => absurd he not_mem_nil, fun _ _ => rfl⟩
  | cons e l ih =>
    obtain ⟨m1, hput, hrest⟩ := Option.bind_eq_some_iff.mp h
    obtain ⟨hmem, hother⟩ := ih (nodup_cons.mp hnodup).2 hrest
    obtain ⟨hkey, hne⟩ := put_eq_some hput
    constructor
    · refine forall_mem_cons.mpr ⟨?_, fun e' he' => ?_⟩
      · rw [hother _ (nodup_cons.mp hnodup).1, hkey]
      · rw [hmem e' he', lookup_eq_of_put hput hnodup he']
    · intro k hk
      rw [map_cons, mem_cons, not_or] at hk
      rw [hother k hk.2, hne k hk.1]

/-- **One table is put into another** when all that is combined can be. -/
theorem isSome_putAll (hl : Iterates l add) :
    (putAll f m l).isSome ↔ ∀ k w, add.lookup k = some w → (f (m.lookup k) w).isSome := by
  rw [isSome_putAll_of_nodup hl.nodup]
  constructor
  · exact fun h k w hk => h (k, w) (hl.mem_iff.mpr hk)
  · exact fun h e he => h e.1 e.2 (hl.mem_iff.mp he)

/-- **What is there after one table was put into another.** -/
theorem lookup_putAll (hl : Iterates l add) (h : putAll f m l = some m') (k : κ) :
    m'.lookup k = (add.lookup k).elim (m.lookup k) (f (m.lookup k)) := by
  obtain ⟨hmem, hother⟩ := lookup_putAll_of_nodup hl.nodup h
  cases hk : add.lookup k with
  | some w => exact hmem (k, w) (hl.mem_iff.mpr hk)
  | none =>
    refine hother k fun hk' => ?_
    obtain ⟨⟨k', w⟩, he, heq⟩ := mem_map.mp hk'
    cases heq
    rw [hl.mem_iff.mp he] at hk
    cases hk

end

/-- What a table of tables holds. -/
abbrev Contents (κ τ V : Type) := κ → Option (τ → Option V)

namespace Contents

variable {κ τ V : Type}

/-- Two partial functions are added where both have a value. -/
def addPart [Add V] (p q : τ → Option V) : τ → Option V :=
  fun t => (p t).merge (fun v v' => v + v') (q t)

/-- **Pointwise addition.** -/
def add [Add V] (a b : Contents κ τ V) : Contents κ τ V := fun k => (a k).merge addPart (b k)

/-- The value for a pair of keys. -/
def get (c : Contents κ τ V) (k : κ) (t : τ) : Option V := (c k).bind fun p => p t

lemma get_add [Add V] (a b : Contents κ τ V) (k : κ) (t : τ) :
    (add a b).get k t = (a.get k t).merge (fun v v' => v + v') (b.get k t) := by
  unfold get add
  cases a k <;> cases b k <;> simp [addPart]

instance [AddCommMagma V] : Std.Commutative (addPart : (τ → Option V) → _ → _) where
  comm _ _ := funext fun _ => (Option.commutative_merge _).comm _ _

instance [AddSemigroup V] : Std.Associative (addPart : (τ → Option V) → _ → _) where
  assoc _ _ _ := funext fun _ => (Option.associative_merge _).assoc _ _ _

lemma add_swap [AddCommMagma V] (a b : Contents κ τ V) : add a b = add b a :=
  funext fun _ => (Option.commutative_merge _).comm _ _

lemma add_add [AddSemigroup V] (a b c : Contents κ τ V) : add (add a b) c = add a (add b c) :=
  funext fun _ => (Option.associative_merge _).assoc _ _ _

end Contents

end Combine
