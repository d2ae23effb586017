import Llama.NgramMap.Bounds
import Llama.Lib.Run

/-!
# The runs of the n-gram map

A session is a map with the history it was told last, which only grows between two calls of
`begin`.  Reads stay inside the bounds in the runs in which the cleanup of `begin` does what it
is for.  It does not in two cases.  A draft leaves the index of a key, and `begin` may delete
keys without resetting it: a call of `accept` then looks up a key that is gone.  And a value
that begins before the start of the last generation is kept although the new history, which is
shorter than what was checked, ends within its m-gram.
-/

namespace Llama

open Access

/-- A map, the history it was told last, and whether `begin` deleted keys since the last
draft. -/
structure NgramSession where
  map : NgramMap
  history : List ℤ
  keysDeleted : Bool

/-- The calls. -/
inductive NgramCall
  | begin (tokens : List ℤ)
  | draft (debug : Bool) (inp : List ℤ) (sampled : ℤ)
  | accept (nAccepted : ℕ)

namespace NgramSession

variable {s s' : NgramSession} {c : NgramCall} {n m minHits : ℕ} {keyOnly : Bool}

/-- The session before the first call. -/
def start (n m : ℕ) (keyOnly : Bool) (minHits : ℕ) : NgramSession :=
  ⟨.new n m keyOnly minHits, [], false⟩

/-- One call. -/
def step (s : NgramSession) : NgramCall → Access NgramSession
  | .begin tokens =>
    let map := s.map.begin tokens
    pure ⟨map, tokens, s.keysDeleted || map.keys.length < s.map.keys.length⟩
  | .draft debug inp sampled => do
    let res ← s.map.draft debug inp sampled
    pure ⟨res.1, inp, false⟩
  | .accept nAccepted => do
    let map ← s.map.accept nAccepted
    pure { s with map := map }

/-- The state after a call that ends. -/
def next (s : NgramSession) (c : NgramCall) : Option NgramSession := (s.step c).toOption

/-- The history only grows, except at `begin`. -/
def Grows (s : NgramSession) : NgramCall → Prop
  | .begin _ => True
  | .draft _ inp _ => s.history <+: inp
  | .accept _ => True

/-- The cleanup of `begin` reaches every key, and keeps no value that the new history cuts; and
`accept` is not called for a draft before keys were deleted. -/
def Repaired (s : NgramSession) : NgramCall → Prop
  | .begin tokens => tokens.length < s.map.idxLastCheck →
    s.map.keys.length ≤ 2 ^ 31 ∧ s.map.Cut tokens.length
  | .draft _ _ _ => True
  | .accept _ => s.map.lastDraftCreated = true → s.keysDeleted = false

/-- The invariant. -/
structure Inv (s : NgramSession) : Prop where
  positions : s.map.Positions
  check : s.map.idxLastCheck ≤ s.history.length
  lastDraft : s.keysDeleted = false → s.map.LastDraft

lemma inv_start (hn : 0 < n) : (start n m keyOnly minHits).Inv where
  positions := .new hn
  check := Nat.zero_le _
  lastDraft := fun _ h => absurd h Bool.false_ne_true

lemma Inv.begin {tokens : List ℤ} (h : s.Inv) (hr : s.Repaired (.begin tokens)) :
    Inside (s.step (.begin tokens)) Inv := by
  refine inside_pure ⟨?_, le_rfl, fun hdel hc => ?_⟩
  · rcases Nat.lt_or_ge tokens.length s.map.idxLastCheck with hlt | hle
    · exact h.positions.begin_shrunk hlt (hr hlt).1 (hr hlt).2
    · exact h.positions.begin_grown hle
  · obtain ⟨hold, hlen⟩ := Bool.or_eq_false_iff.mp hdel
    obtain ⟨hkey, hvalue⟩ := h.lastDraft hold hc
    exact ⟨hkey.trans_le (Nat.not_lt.mp (of_decide_eq_false hlen)), hvalue⟩

lemma Inv.draft {debug : Bool} {inp : List ℤ} {sampled : ℤ} (h : s.Inv)
    (hg : s.Grows (.draft debug inp sampled)) :
    Inside (s.step (.draft debug inp sampled)) Inv := by
  have hle : s.map.idxLastCheck ≤ inp.length := h.check.trans hg.length_le
  refine (NgramMap.inside_draft h.positions hle).bind fun res hres => ?_
  exact inside_pure ⟨hres.positions, hres.check, fun _ => hres.lastDraft⟩

lemma Inv.accept {nAccepted : ℕ} (h : s.Inv) (hr : s.Repaired (.accept nAccepted)) :
    Inside (s.step (.accept nAccepted)) Inv := by
  have hlast : s.map.LastDraft := fun hc => h.lastDraft (hr hc) hc
  refine (NgramMap.inside_accept h.positions hlast h.check).bind fun map hmap => ?_
  exact inside_pure ⟨hmap.1, hmap.2.2, fun _ => hmap.2.1⟩

/-- **One call** reads inside the bounds and keeps the invariant. -/
theorem Inv.step (h : s.Inv) (hg : s.Grows c) (hr : s.Repaired c) : Inside (s.step c) Inv := by
  cases c with
  | «begin» tokens => exact h.begin hr
  | draft debug inp sampled => exact h.draft hg
  | accept nAccepted => exact h.accept hr

/-- **No call reads outside the bounds** in the runs that the cleanup is right for. -/
theorem inBounds_of_reachable (hn : 0 < n)
    (h : Run.Reachable next (fun s c => s.Grows c ∧ s.Repaired c) (start n m keyOnly minHits) s)
    (hg : s.Grows c) (hr : s.Repaired c) : s.step c ≠ .outOfBounds := by
  have hinv : s.Inv := h.invariant (inv_start hn) fun s c s' hs hc hnext =>
    (hs.step hc.1 hc.2).of_ok (toOption_eq_some.mp hnext)
  exact (hinv.step hg hr).ne

/-- A key is deleted, then another is drafted from and accepted. -/
theorem inBounds_of_reachable_shrunk :
    ∃ s, Run.Reachable next (fun s c => s.Grows c ∧ s.Repaired c) (start 1 1 false 1) s ∧
      s.map.lastDraftCreated = true ∧ s.step (.accept 1) ≠ .outOfBounds := by
  set c1 : NgramCall := .draft false [0, 7, 0, 0] 7 with hc1
  set c2 : NgramCall := .begin [5] with hc2
  set c3 : NgramCall := .draft true [5, 8, 8, 8, 8] 8 with hc3
  have hrun : (((start 1 1 false 1).next c1).bind fun s1 => (s1.next c2).bind fun s2 =>
      (s2.next c3).map fun s3 =>
        ((s1.map.sizeLastBegin, s1.map.keys.length), s2.history,
          (s3.map.lastDraftCreated, s3.keysDeleted))) =
      some ((0, 1), [5], (true, false)) := by decide +kernel
  obtain ⟨s1, hnext1, hrun⟩ := Option.bind_eq_some_iff.mp hrun
  obtain ⟨s2, hnext2, hrun⟩ := Option.bind_eq_some_iff.mp hrun
  obtain ⟨s3, hnext3, heq⟩ := Option.map_eq_some_iff.mp hrun
  simp only [Prod.mk.injEq] at heq
  obtain ⟨⟨hbegin, hkeys⟩, hhistory, hcreated, hdel⟩ := heq
  have hg1 : (start 1 1 false 1).Grows c1 := List.nil_prefix
  have hr2 : s1.Repaired c2 := by
    intro _
    refine ⟨by omega, fun _ k _ hk => ?_⟩
    rw [hbegin] at hk
    exact absurd hk (Nat.not_lt_zero _)
  have hg3 : s2.Grows c3 := by
    show s2.history <+: _
    rw [hhistory]
    exact ⟨[8, 8, 8, 8], rfl⟩
  have h1 : Run.Reachable next (fun s c => s.Grows c ∧ s.Repaired c) (start 1 1 false 1) s1 :=
    .step .init ⟨hg1, trivial⟩ hnext1
  have hg2 : s1.Grows c2 := trivial
  have hr3 : s2.Repaired c3 := trivial
  have h2 := h1.step ⟨hg2, hr2⟩ hnext2
  have h3 := h2.step ⟨hg3, hr3⟩ hnext3
  exact ⟨s3, h3, hcreated, inBounds_of_reachable Nat.one_pos h3 trivial fun _ => hdel⟩

/-- A draft makes a key, `begin` deletes it, and `accept` looks it up. -/
theorem not_inBounds_keyDeleted : ∃ s, Run.Reachable next Grows (start 1 1 true 1) s ∧
      s.Grows (.accept 1) ∧ s.step (.accept 1) = .outOfBounds := by
  have hrun : (((start 1 1 true 1).next (.draft false [0, 7, 0, 0] 7)).bind
      (next · (.begin []))).map (fun s => (fun _ => ()) <$> s.step (.accept 1)) =
      some .outOfBounds := by decide +kernel
  obtain ⟨s2, hrun, hs2⟩ := Option.map_eq_some_iff.mp hrun
  obtain ⟨s1, hnext1, hnext2⟩ := Option.bind_eq_some_iff.mp hrun
  have hg1 : (start 1 1 true 1).Grows (.draft false [0, 7, 0, 0] 7) := List.nil_prefix
  have hg2 : s1.Grows (.begin []) := trivial
  have h2 := (Run.Reachable.step .init hg1 hnext1).step hg2 hnext2
  exact ⟨s2, h2, trivial, map_eq_outOfBounds.mp hs2⟩

end NgramSession

end Llama
