import Llama.Lib.Combine
import Llama.ServerTokens
import Mathlib.Algebra.Group.Nat.Defs
import Mathlib.Data.Int.Range
import Mathlib.Data.List.GetD
import Mathlib.Data.List.Induction
import Mathlib.Data.List.Perm.Basic
import Mathlib.Data.Vector.Defs

/-!
# The n-gram cache

The cache counts the tokens that came after each n-gram of a token list.  The list only grows, and
an update counts the tokens that are new, with n-grams that may begin before them.  Two caches are
merged by adding their counts.

The order in which an `std::unordered_map` is iterated is left open.  A sum that is no `int32_t`
is undefined, and here it ends the function like a failed assertion.
-/

namespace Llama

open Combine
open List hiding Vector

/-! ## The model -/

def llamaNgramMax : ℕ := 4

structure CommonNgram where
  tokens : Vector ℤ llamaNgramMax
  deriving DecidableEq

/-- `common_ngram(input, ngram_size)`, for an input that is at least that long. -/
def CommonNgram.ofInput (input : List ℤ) (ngramSize : ℤ) : CommonNgram where
  tokens := Vector.ofFn fun i =>
    if (i : ℤ) < ngramSize then input.getD i tokenNull else tokenNull

/-- `common_ngram_cache_part`. -/
abbrev CachePart := Table ℤ ℤ

/-- `common_ngram_cache`. -/
abbrev NgramCache := Table CommonNgram CachePart

namespace NgramCache

/-- The sum of two `int32_t`. -/
def addInt32 (a b : ℤ) : Option ℤ :=
  if -2 ^ 31 ≤ a + b ∧ a + b < 2 ^ 31 then some (a + b) else none

/-- The body of the loops of `common_ngram_cache_update`. -/
def countToken (cache : NgramCache) (ngram : CommonNgram) (token : ℤ) : Option NgramCache :=
  match cache.lookup ngram with
  | none => some (cache.insert ngram ((∅ : CachePart).insert token 1))
  | some part =>
    match part.lookup token with
    | none => some (cache.insert ngram (part.insert token 1))
    | some n => (addInt32 n 1).map fun n => cache.insert ngram (part.insert token n)

/-- `common_ngram_cache_update`. -/
def update (cache : NgramCache) (ngramMin ngramMax : ℤ) (inp : List ℤ) (nnew : ℤ) :
    Option NgramCache :=
  (Int.range ngramMin (ngramMax + 1)).foldlM (fun cache ngramSize =>
    let iStart := max (inp.length - nnew) ngramSize
    (Int.range iStart inp.length).foldlM (fun cache i =>
      let ngramStart := i - ngramSize
      let ngram := CommonNgram.ofInput (inp.drop ngramStart.toNat) ngramSize
      let token := inp.getD i.toNat tokenNull
      cache.countToken ngram token) cache) cache

/-- The orders in which the maps are iterated. -/
structure IterationOrder where
  caches : NgramCache → List (CommonNgram × CachePart)
  parts : CachePart → List (ℤ × ℤ)
  iterates_caches : ∀ cache, Iterates (caches cache) cache
  iterates_parts : ∀ part, Iterates (parts part) part

/-- The inner loop of `common_ngram_cache_merge`, over the entries of the part that is added. -/
def mergePart (merged : CachePart) (part : List (ℤ × ℤ)) : Option CachePart :=
  part.foldlM (fun merged (tokenCount : ℤ × ℤ) =>
    if tokenCount.2 > 0 then
      match merged.lookup tokenCount.1 with
      | none => some (merged.insert tokenCount.1 tokenCount.2)
      | some n => (addInt32 n tokenCount.2).map fun n => merged.insert tokenCount.1 n
    else none) merged

/-- `common_ngram_cache_merge`. -/
def merge (order : IterationOrder) (target add : NgramCache) : Option NgramCache :=
  (order.caches add).foldlM (fun target ngramPart =>
    match target.lookup ngramPart.1 with
    | none => some (target.insert ngramPart.1 ngramPart.2)
    | some merged =>
      (mergePart merged (order.parts ngramPart.2)).map fun merged =>
        target.insert ngramPart.1 merged) target

/-! ### What it is for -/

/-- Tokens are appended to the list, and the cache is updated. -/
def appendChunk (ngramMin ngramMax : ℤ) (s : List ℤ × NgramCache) (chunk : List ℤ) :
    Option (List ℤ × NgramCache) :=
  let inp := s.1 ++ chunk
  (s.2.update ngramMin ngramMax inp chunk.length).map fun cache => (inp, cache)

/-- The number of places where the n-gram is followed by the token. -/
def occurrences (tokens ngram : List ℤ) (token : ℤ) : ℕ :=
  (List.range tokens.length).countP fun j =>
    (tokens.drop j).take (ngram.length + 1) = ngram ++ [token]

/-- What a cache holds, whatever the order of its entries. -/
def contents (cache : NgramCache) : Contents CommonNgram ℤ ℤ :=
  fun ngram => (cache.lookup ngram).map fun part token => part.lookup token

/-- Equality of the maps. -/
def Same (a b : NgramCache) : Prop := a.contents = b.contents

/-- Every count is a positive `int32_t`, as it is asserted when a cache is saved and loaded. -/
def ValidContents (c : Contents CommonNgram ℤ ℤ) : Prop :=
  ∀ ngram token n, c.get ngram token = some n → 0 < n ∧ n < 2 ^ 31

def Valid (cache : NgramCache) : Prop := ValidContents cache.contents

variable {cache a b m : NgramCache} {ngram : CommonNgram} {token n : ℤ}
  {c d : Contents CommonNgram ℤ ℤ} {p q : CachePart}

lemma get_contents (cache : NgramCache) (ngram : CommonNgram) (token : ℤ) :
    cache.contents.get ngram token = (cache.lookup ngram).bind fun part => part.lookup token := by
  rw [Contents.get, contents]
  cases cache.lookup ngram <;> rfl

lemma addInt32_eq_some {a b n : ℤ} (ha : 0 < a) (hb : 0 < b) :
    addInt32 a b = some n ↔ n = a + b ∧ n < 2 ^ 31 := by
  rw [addInt32]
  split_ifs with h
  · rw [Option.some_inj]
    omega
  · simp only [false_iff]
    omega

lemma ValidContents.pos (h : ValidContents c) :
    ∀ ngram token n, c.get ngram token = some n → 0 < n :=
  fun ngram token n hn => (h ngram token n hn).1

/-- What is left out of a sum with positive counts is in range when the sum is. -/
lemma ValidContents.of_add (h : ValidContents (c.add d))
    (hpos : ∀ ngram token n, c.get ngram token = some n → 0 < n)
    (hpos' : ∀ ngram token n, d.get ngram token = some n → 0 < n) : ValidContents c := by
  intro ngram token n hn
  refine ⟨hpos _ _ _ hn, ?_⟩
  have hsum := h ngram token
  rw [Contents.get_add, hn] at hsum
  cases hd : d.get ngram token with
  | none =>
    rw [hd] at hsum
    exact (hsum n rfl).2
  | some k =>
    rw [hd] at hsum
    have hlt := (hsum (n + k) rfl).2
    have hk := hpos' _ _ _ hd
    omega

lemma pos_of_add (hpos : ∀ ngram token n, c.get ngram token = some n → 0 < n)
    (hpos' : ∀ ngram token n, d.get ngram token = some n → 0 < n) :
    ∀ ngram token n, (c.add d).get ngram token = some n → 0 < n := by
  intro ngram token n hn
  rw [Contents.get_add, Option.merge_eq_some_iff] at hn
  obtain ⟨hc, -⟩ | ⟨-, hd⟩ | ⟨x, y, hc, hd, rfl⟩ := hn
  · exact hpos _ _ _ hc
  · exact hpos' _ _ _ hd
  · have hx := hpos _ _ _ hc
    have hy := hpos' _ _ _ hd
    omega

/-- A count that is added to what is there. -/
def addCount (old : Option ℤ) (count : ℤ) : Option ℤ :=
  if count > 0 then old.elim (some count) fun n => addInt32 n count else none

lemma mergePart_eq_putAll (entries : List (ℤ × ℤ)) :
    mergePart p entries = putAll addCount p entries := by
  rw [mergePart]
  congr 1
  funext merged e
  rw [put, addCount]
  by_cases hpos : e.2 > 0
  · rw [if_pos hpos, if_pos hpos]
    cases merged.lookup e.1 <;> rfl
  · rw [if_neg hpos, if_neg hpos, Option.map_none]

lemma isSome_addCount {old : Option ℤ} {count : ℤ} (hcount : 0 < count)
    (hold : ∀ n, old = some n → 0 < n) :
    (addCount old count).isSome ↔ ∀ n, old = some n → n + count < 2 ^ 31 := by
  rw [addCount, if_pos hcount]
  cases old with
  | none => simp
  | some n =>
    rw [Option.isSome_iff_exists]
    simp only [Option.elim_some, addInt32_eq_some (hold n rfl) hcount]
    constructor
    · rintro ⟨k, rfl, hk⟩ n' hn'
      cases hn'
      exact hk
    · exact fun h => ⟨n + count, rfl, h n rfl⟩

/-- **The counts of a part are added.** -/
theorem mergePart_spec (order : IterationOrder) (hp : ∀ token n, p.lookup token = some n → 0 < n)
    (hq : ∀ token n, q.lookup token = some n → 0 < n) :
    ((mergePart p (order.parts q)).isSome ↔ ∀ token n k, p.lookup token = some n →
      q.lookup token = some k → n + k < 2 ^ 31) ∧
    ∀ r, mergePart p (order.parts q) = some r → (fun token => r.lookup token) =
        Contents.addPart (fun token => p.lookup token) fun token => q.lookup token := by
  have hiter := order.iterates_parts q
  rw [mergePart_eq_putAll]
  constructor
  · rw [isSome_putAll hiter]
    constructor
    · intro h token n k hn hk
      exact (isSome_addCount (hq _ _ hk) (hp token)).mp (h token k hk) n hn
    · intro h token k hk
      exact (isSome_addCount (hq _ _ hk) (hp token)).mpr fun n hn => h token n k hn hk
  · intro r hr
    funext token
    have hsome := (isSome_putAll hiter).mp (Option.isSome_of_eq_some hr) token
    rw [lookup_putAll hiter hr, Contents.addPart]
    cases hk : q.lookup token with
    | none => rw [Option.elim_none, Option.merge_none_right]
    | some k =>
      obtain ⟨m, hm⟩ := Option.isSome_iff_exists.mp (hsome k hk)
      have hpos := hq _ _ hk
      rw [Option.elim_some, hm]
      cases hn : p.lookup token with
      | none =>
        rw [hn, addCount, if_pos hpos] at hm
        rw [Option.merge_none_left, ← hm, Option.elim_none]
      | some n =>
        rw [hn, addCount, if_pos hpos, Option.elim_some, addInt32_eq_some (hp _ _ hn) hpos] at hm
        rw [Option.merge_some_some, hm.1]

/-! ### A cache -/

/-- A part that is added to what is there. -/
def addPartTo (order : IterationOrder) (old : Option CachePart) (part : CachePart) :
    Option CachePart :=
  old.elim (some part) fun merged => mergePart merged (order.parts part)

lemma merge_eq_putAll (order : IterationOrder) :
    merge order a b = putAll (addPartTo order) a (order.caches b) := by
  rw [merge]
  congr 1
  funext target e
  rw [put]
  cases target.lookup e.1 <;> rfl

lemma Valid.lookup (h : cache.Valid) (hpart : cache.lookup ngram = some p)
    (hn : p.lookup token = some n) : 0 < n ∧ n < 2 ^ 31 :=
  h ngram token n (by rw [get_contents, hpart]; exact hn)

lemma isSome_addPartTo (order : IterationOrder) (ha : a.Valid) (hb : b.Valid)
    (hq : b.lookup ngram = some q) :
    (addPartTo order (a.lookup ngram) q).isSome ↔
      ∀ token n, (a.contents.add b.contents).get ngram token = some n → n < 2 ^ 31 := by
  have hget : ∀ token, (a.contents.add b.contents).get ngram token =
      ((a.lookup ngram).bind fun part => part.lookup token).merge (fun v v' => v + v')
        (q.lookup token) := fun token => by
    rw [Contents.get_add, get_contents, get_contents, hq, Option.bind_some]
  simp only [hget]
  cases hp : a.lookup ngram with
  | none => simpa [addPartTo] using fun token n hn => (hb.lookup hq hn).2
  | some p =>
    rw [addPartTo, Option.elim_some, (mergePart_spec order (fun _ _ hn => (ha.lookup hp hn).1)
      fun _ _ hn => (hb.lookup hq hn).1).1]
    simp only [Option.merge_eq_some_iff]
    constructor
    · rintro h token n (⟨hn, -⟩ | ⟨-, hn⟩ | ⟨x, y, hx, hy, rfl⟩)
      · exact (ha.lookup hp hn).2
      · exact (hb.lookup hq hn).2
      · exact h token x y hx hy
    · exact fun h token n k hn hk => h token (n + k) (.inr (.inr ⟨n, k, hn, hk, rfl⟩))

/-- A function makes a cache with these contents, as long as the counts are an `int32_t`. -/
structure Computes (result : Option NgramCache) (c : Contents CommonNgram ℤ ℤ) : Prop where
  isSome_iff : result.isSome ↔ ValidContents c
  contents_eq : ∀ m, result = some m → m.contents = c

lemma Computes.valid {result : Option NgramCache} (h : Computes result c)
    (hm : result = some m) : m.Valid := by
  rw [Valid, h.contents_eq m hm]
  exact h.isSome_iff.mp (Option.isSome_of_eq_some hm)

/-- Two functions that make caches with the same contents. -/
lemma Computes.rel {x y : Option NgramCache} (hx : Computes x c) (hy : Computes y c) :
    Option.Rel Same x y := by
  have hiff := hx.isSome_iff.trans hy.isSome_iff.symm
  cases x with
  | none =>
    cases y with
    | none => exact .none
    | some m' => exact absurd (hiff.mpr rfl) Bool.false_ne_true
  | some m =>
    cases y with
    | none => exact absurd (hiff.mp rfl) Bool.false_ne_true
    | some m' => exact .some ((hx.contents_eq m rfl).trans (hy.contents_eq m' rfl).symm)

/-- One function after another. -/
lemma Computes.bind {x : Option NgramCache} {f : NgramCache → Option NgramCache}
    (hx : Computes x c) (hf : ∀ m, m.Valid → m.contents = c → Computes (f m) d)
    (hd : ValidContents d → ValidContents c) : Computes (x.bind f) d := by
  cases x with
  | none =>
    refine ⟨iff_of_false Bool.false_ne_true fun h => ?_, fun m hm => by cases hm⟩
    exact Bool.false_ne_true (hx.isSome_iff.mpr (hd h))
  | some m => exact hf m (hx.valid rfl) (hx.contents_eq m rfl)

/-- **The counts of a cache are added.** -/
theorem merge_spec (order : IterationOrder) (ha : a.Valid) (hb : b.Valid) :
    Computes (merge order a b) (a.contents.add b.contents) := by
  have hiter := order.iterates_caches b
  have hpos := pos_of_add ha.pos hb.pos
  rw [merge_eq_putAll]
  constructor
  · rw [isSome_putAll hiter]
    constructor
    · intro h ngram token n hn
      refine ⟨hpos _ _ _ hn, ?_⟩
      cases hq : b.lookup ngram with
      | some q => exact (isSome_addPartTo order ha hb hq).mp (h ngram q hq) token n hn
      | none =>
        rw [Contents.get_add, get_contents b, hq, Option.bind_none, Option.merge_none_right] at hn
        exact (ha _ _ _ hn).2
    · intro h ngram q hq
      exact (isSome_addPartTo order ha hb hq).mpr fun token n hn => (h ngram token n hn).2
  · intro m hm
    funext ngram
    have hsome := (isSome_putAll hiter).mp (Option.isSome_of_eq_some hm) ngram
    rw [contents, lookup_putAll hiter hm, Contents.add, contents, contents]
    cases hq : b.lookup ngram with
    | none => rw [Option.elim_none, Option.map_none, Option.merge_none_right]
    | some q =>
      obtain ⟨r, hr⟩ := Option.isSome_iff_exists.mp (hsome q hq)
      rw [Option.elim_some, hr]
      cases hp : a.lookup ngram with
      | none =>
        rw [hp] at hr
        cases hr
        rfl
      | some p =>
        rw [hp] at hr
        exact congrArg some ((mergePart_spec order (fun _ _ hn => (ha.lookup hp hn).1)
          fun _ _ hn => (hb.lookup hq hn).1).2 r hr)

/-- **Merging is commutative**, up to the order of the entries. -/
theorem merge_swap (order order' : IterationOrder) (ha : a.Valid) (hb : b.Valid) :
    Option.Rel Same (merge order a b) (merge order' b a) :=
  (merge_spec order ha hb).rel (Contents.add_swap a.contents b.contents ▸ merge_spec order' hb ha)

/-- **Merging is associative**, up to the order of the entries. -/
theorem merge_merge (order order' : IterationOrder) {cache' : NgramCache} (ha : a.Valid)
    (hb : b.Valid) (hc : cache'.Valid) :
    Option.Rel Same ((merge order a b).bind fun m => merge order m cache')
      ((merge order' b cache').bind fun m => merge order' a m) := by
  refine Computes.rel ((merge_spec order ha hb).bind
    (fun m hm heq => heq ▸ merge_spec order hm hc)
    fun h => h.of_add (pos_of_add ha.pos hb.pos) hc.pos)
    ((merge_spec order' hb hc).bind (fun m hm heq => ?_) fun h => ?_)
  · rw [Contents.add_add, ← heq]
    exact merge_spec order' ha hm
  · rw [Contents.add_add, Contents.add_swap] at h
    exact h.of_add (pos_of_add hb.pos hc.pos) ha.pos

/-! ### One token -/

/-- A token that came after an n-gram, and the n-gram. -/
abbrev Event := CommonNgram × ℤ

/-- The cache that has counted one token. -/
def single (e : Event) : NgramCache := (∅ : NgramCache).insert e.1 ((∅ : CachePart).insert e.2 1)

lemma get_single (e : Event) (ngram : CommonNgram) (token : ℤ) :
    (single e).contents.get ngram token = if (ngram, token) = e then some 1 else none := by
  obtain ⟨ngram', token'⟩ := e
  rw [get_contents, single]
  by_cases hngram : ngram = ngram'
  · subst hngram
    rw [AList.lookup_insert, Option.bind_some]
    by_cases htoken : token = token'
    · subst htoken
      rw [AList.lookup_insert, if_pos rfl]
    · rw [AList.lookup_insert_ne htoken, if_neg fun h => htoken (Prod.mk.inj h).2,
        AList.lookup_empty]
  · rw [AList.lookup_insert_ne hngram, if_neg fun h => hngram (Prod.mk.inj h).1,
      AList.lookup_empty, Option.bind_none]

lemma valid_single (e : Event) : (single e).Valid := by
  intro ngram token n hn
  rw [get_single] at hn
  split_ifs at hn
  cases hn
  decide

/-- Counting a token adds the cache that has counted it. -/
lemma merge_single (order : IterationOrder) (e : Event) :
    merge order cache (single e) = cache.countToken e.1 e.2 := by
  rw [merge_eq_putAll, Iterates.eq_singleton (order.iterates_caches (single e)), putAll,
    foldlM_cons, put, countToken, addPartTo]
  cases cache.lookup e.1 with
  | none => rfl
  | some part =>
    rw [Option.elim_some, Iterates.eq_singleton (order.iterates_parts _), mergePart_eq_putAll,
      putAll, foldlM_cons, put, addCount, if_pos one_pos]
    dsimp only
    cases part.lookup e.2 with
    | none => rfl
    | some n => cases hn : addInt32 n 1 <;> simp [hn]

/-- The entries in the order of the lists. -/
def IterationOrder.inOrder : IterationOrder where
  caches := listed
  parts := listed
  iterates_caches := iterates_listed
  iterates_parts := iterates_listed

/-- **A token is counted.** -/
theorem countToken_spec (h : cache.Valid) (e : Event) :
    Computes (cache.countToken e.1 e.2) (cache.contents.add (single e).contents) := by
  rw [← merge_single .inOrder]
  exact merge_spec .inOrder h (valid_single e)

/-- The contents after tokens were counted. -/
def tally (c : Contents CommonNgram ℤ ℤ) (events : List Event) : Contents CommonNgram ℤ ℤ :=
  events.foldl (fun c e => c.add (single e).contents) c

lemma tally_append (c : Contents CommonNgram ℤ ℤ) (l l' : List Event) :
    tally c (l ++ l') = tally (tally c l) l' := foldl_append

/-- **The order in which tokens are counted does not matter.** -/
theorem tally_perm {l l' : List Event} (h : l.Perm l') : tally c l = tally c l' :=
  h.foldl_eq' (fun e _ e' _ c => by
    rw [Contents.add_add, Contents.add_swap (single e).contents, ← Contents.add_add]) c

lemma pos_tally (hpos : ∀ ngram token n, c.get ngram token = some n → 0 < n)
    (events : List Event) :
    ∀ ngram token n, (tally c events).get ngram token = some n → 0 < n := by
  induction events generalizing c with
  | nil => exact hpos
  | cons e events ih =>
    exact ih (pos_of_add hpos (valid_single e).pos)

lemma ValidContents.of_tally (hpos : ∀ ngram token n, c.get ngram token = some n → 0 < n)
    (events : List Event) (h : ValidContents (tally c events)) : ValidContents c := by
  induction events generalizing c with
  | nil => exact h
  | cons e events ih =>
    exact (ih (pos_of_add hpos (valid_single e).pos) h).of_add hpos (valid_single e).pos

/-- Tokens are counted one by one. -/
def countAll (cache : NgramCache) (events : List Event) : Option NgramCache :=
  events.foldlM (fun (cache : NgramCache) e => cache.countToken e.1 e.2) cache

lemma countAll_append (l l' : List Event) :
    cache.countAll (l ++ l') = (cache.countAll l).bind fun m => m.countAll l' :=
  foldlM_append

lemma countAll_singleton (e : Event) : cache.countAll [e] = cache.countToken e.1 e.2 := by
  rw [countAll, foldlM_cons]
  cases cache.countToken e.1 e.2 <;> rfl

/-- **All tokens are counted.** -/
theorem countAll_spec (h : cache.Valid) (events : List Event) :
    Computes (cache.countAll events) (tally cache.contents events) := by
  induction events using reverseRecOn with
  | nil =>
    refine ⟨iff_of_true rfl h, fun m hm => ?_⟩
    cases hm
    rfl
  | append_singleton events e ih =>
    rw [countAll_append, tally_append]
    refine ih.bind (fun m hm heq => ?_) fun hvalid => ?_
    · rw [countAll_singleton, ← heq]
      exact countToken_spec hm e
    · exact hvalid.of_add (pos_tally h.pos events) (valid_single e).pos

/-! ## The updates -/

variable {lo hi start : ℤ} {inp chunk : List ℤ}

/-- The tokens that are counted after n-grams of one size, from a place on. -/
def sizeEvents (inp : List ℤ) (start ngramSize : ℤ) : List Event :=
  (Int.range (max start ngramSize) inp.length).map fun i =>
    (.ofInput (inp.drop (i - ngramSize).toNat) ngramSize, inp.getD i.toNat tokenNull)

/-- The tokens that are counted from a place on. -/
def events (lo hi : ℤ) (inp : List ℤ) (start : ℤ) : List Event :=
  (Int.range lo (hi + 1)).flatMap (sizeEvents inp start)

/-- **An update** counts the tokens from the first new one on. -/
theorem update_eq_countAll (cache : NgramCache) (lo hi : ℤ) (inp : List ℤ) (nnew : ℤ) :
    cache.update lo hi inp nnew = cache.countAll (events lo hi inp (inp.length - nnew)) := by
  rw [update, events]
  generalize Int.range lo (hi + 1) = sizes
  induction sizes generalizing cache with
  | nil => rfl
  | cons size sizes ih =>
    rw [flatMap_cons, countAll_append]
    have hsize : cache.countAll (sizeEvents inp (inp.length - nnew) size) =
        (Int.range (max (inp.length - nnew) size) inp.length).foldlM
          (fun (cache : NgramCache) i => cache.countToken
            (.ofInput (inp.drop (i - size).toNat) size) (inp.getD i.toNat tokenNull)) cache := by
      rw [countAll, sizeEvents, foldlM_map]
    rw [hsize]
    exact congrArg _ (funext ih)

lemma range_append {a b c : ℤ} (hab : a ≤ b) (hbc : b ≤ c) :
    Int.range a c = Int.range a b ++ Int.range b c := by
  have hlength : (c - a).toNat = (b - a).toNat + (c - b).toNat := by omega
  rw [Int.range, hlength, range_add, map_append, map_map]
  congr 1
  refine map_congr_left fun r _ => ?_
  rw [Function.comp_apply]
  omega

/-- The n-grams that end before new tokens do not change. -/
lemma ofInput_append {i size : ℤ} (hsize : size ≤ i) (hi : i ≤ inp.length) :
    CommonNgram.ofInput ((inp ++ chunk).drop (i - size).toNat) size =
      .ofInput (inp.drop (i - size).toNat) size := by
  rw [CommonNgram.ofInput]
  congr 1
  congr 1
  funext r
  split_ifs with hr
  · rw [getD_eq_getElem?_getD, getD_eq_getElem?_getD, getElem?_drop,
      getElem?_drop, getElem?_append_left (by omega)]
  · rfl

lemma sizeEvents_append (h0 : 0 ≤ start) (hstart : start ≤ inp.length) (size : ℤ) :
    sizeEvents (inp ++ chunk) start size =
      sizeEvents inp start size ++ sizeEvents (inp ++ chunk) inp.length size := by
  have hold : (Int.range (max start size) inp.length).map (fun i =>
      ((.ofInput ((inp ++ chunk).drop (i - size).toNat) size,
        (inp ++ chunk).getD i.toNat tokenNull) : Event)) = sizeEvents inp start size := by
    refine map_congr_left fun i hi => ?_
    rw [Int.mem_range_iff] at hi
    rw [ofInput_append (by omega) hi.2.le, getD_append _ _ _ _ (by omega)]
  have hlength : ((inp ++ chunk).length : ℤ) = inp.length + chunk.length := by
    rw [length_append]
    omega
  rw [← hold, sizeEvents, sizeEvents, ← map_append]
  by_cases hsize : size ≤ inp.length
  · rw [max_eq_left hsize, ← range_append (max_le hstart hsize) (by omega)]
  · have hempty : Int.range (max start size) inp.length = [] := by
      rw [Int.range, Int.toNat_of_nonpos (by omega)]
      rfl
    rw [hempty, nil_append, max_eq_right (by omega : start ≤ size),
      max_eq_right (by omega : (inp.length : ℤ) ≤ size)]

/-- **Tokens that come later are counted later**, up to the order of the sizes. -/
theorem events_append (lo hi : ℤ) (h0 : 0 ≤ start) (hstart : start ≤ inp.length) :
    (events lo hi (inp ++ chunk) start).Perm
      (events lo hi inp start ++ events lo hi (inp ++ chunk) inp.length) := by
  rw [events, funext (sizeEvents_append h0 hstart)]
  exact (flatMap_append_perm _ _ _).symm

lemma events_length (lo hi : ℤ) (inp : List ℤ) : events lo hi inp inp.length = [] := by
  rw [events, flatMap_eq_nil_iff]
  intro size _
  rw [sizeEvents, Int.range, Int.toNat_of_nonpos (by omega)]
  rfl

/-- **Appending chunks, with an update after each**, makes the cache that one update makes. -/
theorem appendChunk_spec (lo hi : ℤ) (h : cache.Valid) (inp : List ℤ) (chunks : List (List ℤ)) :
    Computes ((chunks.foldlM (appendChunk lo hi) (inp, cache)).map Prod.snd)
      (tally cache.contents (events lo hi (inp ++ chunks.flatten) inp.length)) := by
  induction chunks generalizing inp cache with
  | nil =>
    rw [flatten_nil, append_nil, events_length]
    exact countAll_spec h []
  | cons chunk chunks ih =>
    have hperm := @events_append inp.length (inp ++ chunk) chunks.flatten lo hi (by omega)
      (by rw [length_append]; omega)
    have hupdate : Computes (cache.update lo hi (inp ++ chunk) chunk.length)
        (tally cache.contents (events lo hi (inp ++ chunk) inp.length)) := by
      have hstart : ((inp ++ chunk).length : ℤ) - chunk.length = inp.length := by
        rw [length_append]
        omega
      rw [update_eq_countAll, hstart]
      exact countAll_spec h _
    have hbind : ((chunk :: chunks).foldlM (appendChunk lo hi) (inp, cache)).map Prod.snd =
        (cache.update lo hi (inp ++ chunk) chunk.length).bind fun m =>
          (chunks.foldlM (appendChunk lo hi) (inp ++ chunk, m)).map Prod.snd := by
      rw [foldlM_cons, appendChunk]
      cases cache.update lo hi (inp ++ chunk) chunk.length <;> rfl
    rw [hbind, flatten_cons, ← append_assoc, tally_perm hperm, tally_append]
    refine hupdate.bind (fun m hm heq => ?_) fun hvalid => ?_
    · rw [← heq]
      exact ih hm (inp ++ chunk)
    · exact .of_tally (pos_tally h.pos _) _ hvalid

/-! ## The occurrences -/

variable {tokens ngramTokens l l' : List ℤ}

/-- An n-gram with fewer tokens than it has room for. -/
def padded (l : List ℤ) : CommonNgram where
  tokens := Vector.ofFn fun i => l.getD i tokenNull

lemma ofInput_eq_padded (input : List ℤ) (size : ℤ) :
    CommonNgram.ofInput input size = padded (input.take size.toNat) := by
  rw [CommonNgram.ofInput]
  congr 1
  congr 1
  funext i
  rw [getD_eq_getElem?_getD, getD_eq_getElem?_getD, getElem?_take]
  by_cases hi : (i : ℤ) < size
  · rw [if_pos hi, if_pos (by omega)]
  · rw [if_neg hi, if_neg (by omega), Option.getD_none]

/-- Different n-grams of proper tokens stay different. -/
lemma padded_inj (hl : l.length ≤ llamaNgramMax) (hl' : l'.length ≤ llamaNgramMax)
    (hnull : tokenNull ∉ l) (hnull' : tokenNull ∉ l') (h : padded l = padded l') : l = l' := by
  have hget : ∀ i < llamaNgramMax, l.getD i tokenNull = l'.getD i tokenNull := by
    intro i hi
    have hi' := congrArg (fun ngram => ngram.tokens[i]) h
    simpa only [padded, Vector.getElem_ofFn] using hi'
  refine ext_getElem? fun i => ?_
  by_cases hi : i < llamaNgramMax
  · have heq := hget i hi
    rw [getD_eq_getElem?_getD, getD_eq_getElem?_getD] at heq
    cases h1 : l[i]? with
    | none =>
      cases h2 : l'[i]? with
      | none => rfl
      | some y =>
        rw [h1, h2] at heq
        have hy : tokenNull = y := heq
        exact absurd (hy ▸ mem_of_getElem? h2) hnull'
    | some x =>
      cases h2 : l'[i]? with
      | none =>
        rw [h1, h2] at heq
        have hx : x = tokenNull := heq
        exact absurd (hx ▸ mem_of_getElem? h1) hnull
      | some y =>
        rw [h1, h2] at heq
        exact congrArg some heq
  · rw [getElem?_eq_none (by omega), getElem?_eq_none (by omega)]

/-- **What was counted** from an empty cache on. -/
theorem get_tally (events : List Event) (ngram : CommonNgram) (token : ℤ) :
    (tally (contents ∅) events).get ngram token = if events.count (ngram, token) = 0 then none
      else some (events.count (ngram, token) : ℤ) := by
  induction events using reverseRecOn with
  | nil => rfl
  | append_singleton events e ih =>
    rw [tally_append]
    change ((tally (contents ∅) events).add (single e).contents).get ngram token = _
    rw [Contents.get_add, ih, get_single, count_append, count_singleton]
    by_cases he : (ngram, token) = e
    · subst he
      rw [if_pos rfl, if_pos (beq_self_eq_true _), if_neg (Nat.succ_ne_zero _)]
      split_ifs with hzero
      · rw [hzero]
        rfl
      · rfl
    · rw [if_neg he, if_neg (fun h => he (eq_of_beq h).symm), Option.merge_none_right, add_zero]

lemma mem_sizeEvents {e : Event} {size : ℤ}
    (he : e ∈ sizeEvents tokens start size) :
    ∃ window : List ℤ, window.length = size.toNat ∧ window ⊆ tokens ∧ e.1 = padded window := by
  obtain ⟨i, hi, rfl⟩ := mem_map.mp he
  rw [Int.mem_range_iff] at hi
  refine ⟨(tokens.drop (i - size).toNat).take size.toNat, ?_, ?_, ofInput_eq_padded _ _⟩
  · rw [length_take, length_drop]
    omega
  · exact fun t ht => mem_of_mem_drop (mem_of_mem_take ht)

/-- The n-grams of one size and the tokens after them. -/
lemma count_sizeEvents (hn : ngramTokens.length ≤ llamaNgramMax) (hnull : tokenNull ∉ tokens)
    (hnull' : tokenNull ∉ ngramTokens) (token : ℤ) :
    (sizeEvents tokens 0 ngramTokens.length).count (padded ngramTokens, token) =
      occurrences tokens ngramTokens token := by
  have hsplit : tokens.length =
      (tokens.length - ngramTokens.length) + min ngramTokens.length tokens.length := by omega
  have htail : ((range (min ngramTokens.length tokens.length)).map
      fun j => (tokens.length - ngramTokens.length) + j).countP (fun j => decide
        ((tokens.drop j).take (ngramTokens.length + 1) = ngramTokens ++ [token])) = 0 := by
    rw [countP_eq_zero]
    intro j hj
    obtain ⟨r, hr, rfl⟩ := mem_map.mp hj
    rw [decide_eq_true_iff]
    intro heq
    have hlength := congrArg List.length heq
    rw [length_take, length_drop, length_append, length_singleton] at hlength
    omega
  have hrange : ((tokens.length : ℤ) - max 0 (ngramTokens.length : ℤ)).toNat =
      tokens.length - ngramTokens.length := by omega
  rw [occurrences, hsplit, range_add, countP_append, htail, add_zero, sizeEvents,
    Int.range, map_map, List.count, countP_map, hrange]
  refine countP_congr fun j hj => ?_
  rw [mem_range] at hj
  have hdrop : ((max 0 (ngramTokens.length : ℤ) + j) - ngramTokens.length).toNat = j := by omega
  have hget : (max 0 (ngramTokens.length : ℤ) + j).toNat = j + ngramTokens.length := by omega
  obtain ⟨t, ht⟩ : ∃ t, tokens[j + ngramTokens.length]? = some t :=
    ⟨_, getElem?_eq_getElem (by omega)⟩
  have htake : (tokens.drop j).take (ngramTokens.length + 1) =
      (tokens.drop j).take ngramTokens.length ++ [t] := by
    rw [take_add_one, getElem?_drop, ht, Option.toList_some]
  have hlength : ((tokens.drop j).take ngramTokens.length).length = ngramTokens.length := by
    rw [length_take, length_drop]
    omega
  rw [Function.comp_apply, Function.comp_apply, hdrop, hget, ofInput_eq_padded,
    getD_eq_getElem?_getD, ht, Int.toNat_natCast, beq_iff_eq, Prod.mk.injEq,
    decide_eq_true_iff, htake]
  constructor
  · rintro ⟨hkey, rfl⟩
    rw [padded_inj (by omega) hn (fun h => hnull (mem_of_mem_drop (mem_of_mem_take h)))
      hnull' hkey, Option.getD_some]
  · intro heq
    obtain ⟨hwindow, hlast⟩ := append_inj heq hlength
    rw [hwindow]
    exact ⟨rfl, singleton_inj.mp hlast⟩

/-- The n-grams of all sizes and the tokens after them. -/
lemma count_events (hlo : lo ≤ ngramTokens.length) (hhi : ngramTokens.length ≤ hi)
    (h0 : 0 ≤ lo) (hmax : hi ≤ llamaNgramMax) (hnull : tokenNull ∉ tokens)
    (hnull' : tokenNull ∉ ngramTokens) (token : ℤ) :
    (events lo hi tokens 0).count (padded ngramTokens, token) =
      occurrences tokens ngramTokens token := by
  have hother : ∀ {a b : ℤ}, 0 ≤ a → b ≤ hi + 1 → (∀ size, a ≤ size → size < b →
      size ≠ ngramTokens.length) →
      ((Int.range a b).flatMap (sizeEvents tokens 0)).count (padded ngramTokens, token) = 0 := by
    intro a b ha hb hne
    rw [count_eq_zero]
    intro hmem
    obtain ⟨size, hsize, he⟩ := mem_flatMap.mp hmem
    rw [Int.mem_range_iff] at hsize
    obtain ⟨window, hlength, hsub, hkey⟩ := mem_sizeEvents he
    have hwindow := padded_inj (by omega) (by omega) hnull' (fun h => hnull (hsub h)) hkey
    refine hne size hsize.1 hsize.2 ?_
    rw [hwindow]
    omega
  have hone : Int.range ngramTokens.length (ngramTokens.length + 1) =
      [(ngramTokens.length : ℤ)] := by
    rw [Int.range]
    simp
  have hsplit : Int.range lo (hi + 1) = Int.range lo ngramTokens.length ++
      ([(ngramTokens.length : ℤ)] ++ Int.range (ngramTokens.length + 1) (hi + 1)) := by
    rw [← hone, ← range_append (by omega) (by omega), ← range_append (by omega) (by omega)]
  rw [events, hsplit, flatMap_append, flatMap_append, flatMap_singleton,
    count_append, count_append, hother h0 (by omega) (fun _ _ h => by omega),
    hother (by omega) le_rfl (fun _ h _ => by omega),
    count_sizeEvents (by omega) hnull hnull' token]
  omega

/-- The n-grams of a size in range that are in a list, with the tokens after them. -/
lemma mem_events (h0 : 0 ≤ lo) {e : Event} (he : e ∈ events lo hi tokens 0) :
    ∃ window : List ℤ, lo ≤ window.length ∧ window.length ≤ hi ∧ window ⊆ tokens ∧
      e.1 = padded window := by
  obtain ⟨size, hsize, he⟩ := mem_flatMap.mp he
  rw [Int.mem_range_iff] at hsize
  obtain ⟨window, hlength, hsub, hkey⟩ := mem_sizeEvents he
  exact ⟨window, by omega, by omega, hsub, hkey⟩

lemma occurrences_le (tokens ngramTokens : List ℤ) (token : ℤ) :
    occurrences tokens ngramTokens token ≤ tokens.length := by
  refine countP_le_length.trans ?_
  rw [length_range]

/-- **One update with a whole list** counts each token after each n-gram. -/
theorem update_empty (h0 : 0 ≤ lo) (hmax : hi ≤ llamaNgramMax) (hnull : tokenNull ∉ tokens)
    (hlength : tokens.length < 2 ^ 31) :
    ∃ m, update ∅ lo hi tokens tokens.length = some m ∧ m.Valid ∧
      (∀ ngramTokens : List ℤ, tokenNull ∉ ngramTokens → lo ≤ ngramTokens.length →
        ngramTokens.length ≤ hi → ∀ token,
        m.contents.get (.ofInput ngramTokens ngramTokens.length) token =
          if occurrences tokens ngramTokens token = 0 then none
          else some (occurrences tokens ngramTokens token : ℤ)) ∧
      ∀ ngram token n, m.contents.get ngram token = some n →
        ∃ ngramTokens : List ℤ, tokenNull ∉ ngramTokens ∧ lo ≤ ngramTokens.length ∧
          ngramTokens.length ≤ hi ∧ ngram = .ofInput ngramTokens ngramTokens.length := by
  have hspec : Computes (update ∅ lo hi tokens tokens.length)
      (tally (contents ∅) (events lo hi tokens 0)) := by
    rw [update_eq_countAll, sub_self]
    exact countAll_spec (fun _ _ _ hn => by cases hn) _
  have hfull : ∀ l : List ℤ, .ofInput l l.length = padded l := fun l => by
    rw [ofInput_eq_padded, Int.toNat_natCast, take_length]
  have hkey : ∀ ngram token n,
      (tally (contents ∅) (events lo hi tokens 0)).get ngram token = some n →
      ∃ window : List ℤ, tokenNull ∉ window ∧ lo ≤ window.length ∧ window.length ≤ hi ∧
        ngram = padded window ∧ 0 < n ∧ n = occurrences tokens window token := by
    intro ngram token n hn
    rw [get_tally] at hn
    split_ifs at hn with hzero
    obtain ⟨window, hlo, hhi, hsub, hpad⟩ := mem_events h0
      (List.count_pos_iff.mp (Nat.pos_of_ne_zero hzero))
    have hnull' : tokenNull ∉ window := fun h => hnull (hsub h)
    obtain rfl : ngram = padded window := hpad
    rw [count_events hlo hhi h0 hmax hnull hnull'] at hn hzero
    cases hn
    exact ⟨window, hnull', hlo, hhi, rfl, by omega, rfl⟩
  have hvalid : ValidContents (tally (contents ∅) (events lo hi tokens 0)) := by
    intro ngram token n hn
    obtain ⟨window, -, -, -, -, hpos, rfl⟩ := hkey ngram token n hn
    have hle := occurrences_le tokens window token
    exact ⟨hpos, by omega⟩
  obtain ⟨m, hm⟩ := Option.isSome_iff_exists.mp (hspec.isSome_iff.mpr hvalid)
  refine ⟨m, hm, hspec.valid hm, ?_, ?_⟩
  · intro ngramTokens hnull' hlo hhi token
    rw [hspec.contents_eq m hm, hfull, get_tally, count_events hlo hhi h0 hmax hnull hnull']
  · intro ngram token n hn
    rw [hspec.contents_eq m hm] at hn
    obtain ⟨window, hnull', hlo, hhi, rfl, -, -⟩ := hkey ngram token n hn
    exact ⟨window, hnull', hlo, hhi, (hfull window).symm⟩

/-- **Chunks, counts and merges.**  Updates after each of the chunks of a list make the cache that
one update with the list makes, and it counts each token after each n-gram.  Merging adds the
counts, and is commutative and associative. -/
theorem chunks_and_merges (lo hi : ℤ) : (∀ chunks : List (List ℤ), Option.Rel Same
      ((chunks.foldlM (appendChunk lo hi) ([], ∅)).map Prod.snd)
      (update ∅ lo hi chunks.flatten chunks.flatten.length)) ∧
    (∀ tokens : List ℤ, 0 ≤ lo → hi ≤ llamaNgramMax → tokenNull ∉ tokens →
      tokens.length < 2 ^ 31 → ∃ m, update ∅ lo hi tokens tokens.length = some m ∧ m.Valid ∧
        (∀ ngramTokens : List ℤ, tokenNull ∉ ngramTokens → lo ≤ ngramTokens.length →
          ngramTokens.length ≤ hi → ∀ token,
          m.contents.get (.ofInput ngramTokens ngramTokens.length) token =
            if occurrences tokens ngramTokens token = 0 then none
            else some (occurrences tokens ngramTokens token : ℤ)) ∧
        ∀ ngram token n, m.contents.get ngram token = some n →
          ∃ ngramTokens : List ℤ, tokenNull ∉ ngramTokens ∧ lo ≤ ngramTokens.length ∧
            ngramTokens.length ≤ hi ∧ ngram = .ofInput ngramTokens ngramTokens.length) ∧
    ∀ (order order' : IterationOrder) (a b c : NgramCache), a.Valid → b.Valid → c.Valid →
      ((merge order a b).isSome ↔ ValidContents (a.contents.add b.contents)) ∧
      (∀ m, merge order a b = some m → m.Valid ∧ m.contents = a.contents.add b.contents) ∧
      Option.Rel Same (merge order a b) (merge order' b a) ∧
      Option.Rel Same ((merge order a b).bind fun m => merge order m c)
        ((merge order' b c).bind fun m => merge order' a m) := by
  refine ⟨fun chunks => ?_, fun tokens h0 hmax hnull hlength => update_empty h0 hmax hnull hlength,
    fun order order' a b c ha hb hc => ?_⟩
  · have hempty : Valid ∅ := fun _ _ _ hn => by cases hn
    refine (appendChunk_spec lo hi hempty [] chunks).rel ?_
    rw [update_eq_countAll, sub_self]
    exact countAll_spec hempty _
  · have hmerge := merge_spec order ha hb
    exact ⟨hmerge.isSome_iff, fun m hm => ⟨hmerge.valid hm, hmerge.contents_eq m hm⟩,
      merge_swap order order' ha hb, merge_merge order order' ha hb hc⟩

/-- A list in three chunks that are shorter than an n-gram, and counts of one token. -/
theorem chunks_and_merges_five :
    Option.Rel Same ((([[5, 6], [5], [6, 7]] : List (List ℤ)).foldlM (appendChunk 1 4)
      ([], ∅)).map Prod.snd) (update ∅ 1 4 [5, 6, 5, 6, 7] 5) ∧
    (∃ m, update ∅ 1 4 [5, 6, 5, 6, 7] 5 = some m ∧
      m.contents.get (.ofInput [5] 1) 6 = some 2 ∧ m.contents.get (.ofInput [5, 6] 2) 7 = some 1) ∧
    ∀ m, merge .inOrder (single (.ofInput [5] 1, 6)) (single (.ofInput [5] 1, 6)) = some m →
      m.contents.get (.ofInput [5] 1) 6 = some 2 := by
  obtain ⟨hchunks, hcounts, hmerges⟩ := chunks_and_merges 1 4
  refine ⟨hchunks [[5, 6], [5], [6, 7]], ?_, fun m hm => ?_⟩
  · obtain ⟨m, hm, -, hget, -⟩ := hcounts [5, 6, 5, 6, 7] (by decide) (by decide) (by decide)
      (by decide)
    exact ⟨m, hm, hget [5] (by decide) (by decide) (by decide) 6,
      hget [5, 6] (by decide) (by decide) (by decide) 7⟩
  · have hvalid := valid_single (.ofInput [5] 1, 6)
    rw [((hmerges .inOrder .inOrder _ _ _ hvalid hvalid hvalid).2.1 m hm).2, Contents.get_add,
      get_single, if_pos rfl]
    rfl

end NgramCache
end Llama
