import Llama.Lib.Slots
import Llama.NgramMap.Runs
import Mathlib.Data.List.Forall2

/-!
# What the n-gram map counts

A key has a few values, the m-grams that came first behind it, with the number of their
occurrences.  The occurrences are counted when the key is drafted from, from the place on up to
which they were counted the last time.

That place is counted again.  And the draft is not the value that was chosen but what follows the
key at the place where it was found.  The counts and the drafts are right in the runs in which
neither shows.
-/

namespace Llama.NgramMap

open Access List

variable {map : NgramMap} {inp key : List ℤ} {n m pos idx : ℕ}

/-! ## Reads that succeed -/

/-- The m-gram at a place. -/
def mgramAt (inp : List ℤ) (m i : ℕ) : List ℤ := (inp.drop i).take m

variable {i : ℕ} {values : List NgramValue} {k : NgramKey}

lemma read_bind_eq_ok {α β : Type} {xs : List α} {f : α → Access β} {b : β}
    (h : (read xs i >>= f) = .ok b) : ∃ a, xs[i]? = some a ∧ f a = .ok b := by
  rw [Access.read] at h
  cases hget : xs[i]? with
  | none =>
    rw [hget] at h
    cases h
  | some a =>
    rw [hget] at h
    exact ⟨a, rfl, h⟩

lemma bind_eq_ok {α β : Type} {x : Access α} {f : α → Access β} {b : β}
    (h : (x >>= f) = .ok b) : ∃ a, x = .ok a ∧ f a = .ok b := by
  cases x with
  | ok a => exact ⟨a, rfl, h⟩
  | aborted => cases h
  | outOfBounds => cases h

lemma drop_eq_cons_of_getElem? {t : ℤ} (h : inp[i]? = some t) :
    inp.drop i = t :: inp.drop (i + 1) := by
  obtain ⟨hlt, rfl⟩ := List.getElem?_eq_some_iff.mp h
  exact drop_eq_getElem_cons hlt

lemma matchAt_eq_ok {b : Bool} (h : matchAt inp pos key = .ok b) :
    b = true ↔ key <+: inp.drop pos := by
  induction key generalizing pos with
  | nil =>
    cases h
    exact iff_of_true rfl ( nil_prefix)
  | cons t key ih =>
    obtain ⟨token, htoken, h⟩ := read_bind_eq_ok h
    rw [drop_eq_cons_of_getElem? htoken, cons_prefix_cons]
    split_ifs at h with hne
    · cases h
      exact iff_of_false Bool.false_ne_true fun hno => hne hno.1.symm
    · rw [ih h]
      exact (and_iff_right (not_not.mp hne).symm).symm

lemma sameAt_eq_ok {j : ℕ} {b : Bool} (h : sameAt inp m i j = .ok b) :
    b = true ↔ mgramAt inp m i = mgramAt inp m j := by
  induction m generalizing i j with
  | zero =>
    cases h
    exact iff_of_true rfl rfl
  | succ m ih =>
    obtain ⟨t, ht, h⟩ := read_bind_eq_ok h
    obtain ⟨t', ht', h⟩ := read_bind_eq_ok h
    rw [mgramAt, mgramAt, drop_eq_cons_of_getElem? ht, drop_eq_cons_of_getElem? ht',
      take_succ_cons, take_succ_cons, List.cons.injEq]
    split_ifs at h with hne
    · cases h
      exact iff_of_false Bool.false_ne_true fun hno => hne hno.1
    · rw [ih h]
      exact (and_iff_right (not_not.mp hne)).symm

lemma tokensFrom_eq_ok {start length : ℕ} {tokens : List ℤ}
    (h : tokensFrom inp start length = .ok tokens) : tokens = mgramAt inp length start := by
  have hstep : ∀ (l : List ℕ) (tokens : List ℤ),
      l.mapM (fun i => read inp (start + i)) = .ok tokens →
        tokens.map some = l.map fun i => inp[start + i]? := by
    intro l
    induction l with
    | nil =>
      intro tokens h
      cases h
      rfl
    | cons i l ih =>
      intro tokens h
      rw [mapM_cons] at h
      obtain ⟨t, ht, h⟩ := read_bind_eq_ok h
      obtain ⟨rest, hrest, h⟩ := bind_eq_ok h
      cases h
      rw [map_cons, map_cons, ih rest hrest, ht]
  have hmap := hstep _ _ h
  have hlength : tokens.length = length := by
    simpa using congrArg List.length hmap
  refine ext_getElem? fun i => ?_
  rw [mgramAt, getElem?_take, getElem?_drop]
  have hi := congrArg (fun l => l[i]?) hmap
  simp only [getElem?_map] at hi
  by_cases hlt : i < length
  · rw [if_pos hlt]
    rw [getElem?_range hlt] at hi
    cases ht : tokens[i]? with
    | none => exact absurd (List.getElem?_eq_none_iff.mp ht) (by omega)
    | some t =>
      rw [ht] at hi
      exact Option.some.inj hi
  · rw [if_neg hlt, getElem?_eq_none (by omega)]

lemma searchDown_eq_ok {lo p : ℕ} : ∀ {j : ℕ}, searchDown inp key lo j = .ok p → p ≠ 0 →
    p ≤ j ∧ key <+: inp.drop p
  | j + 1, h, hp => by
    rw [searchDown] at h
    split_ifs at h with hlo
    · obtain ⟨b, hb, h⟩ := bind_eq_ok h
      split_ifs at h with hmatch
      · cases h
        exact ⟨Nat.le_refl _, (matchAt_eq_ok hb).mp hmatch⟩
      · obtain ⟨hle, hkey⟩ := searchDown_eq_ok h hp
        exact ⟨by omega, hkey⟩
    · cases h
      exact absurd rfl hp

lemma findKey_eq_ok {keys : List NgramKey} (h : findKey inp key keys = .ok i) :
    i ≤ keys.length ∧ ∀ k, keys[i]? = some k → key <+: inp.drop k.keyIdx := by
  induction keys generalizing i with
  | nil =>
    cases h
    exact ⟨Nat.le_refl _, fun k hk => by cases hk⟩
  | cons k keys ih =>
    obtain ⟨b, hb, h⟩ := bind_eq_ok h
    split_ifs at h with hmatch
    · cases h
      refine ⟨Nat.zero_le _, fun k' hk' => ?_⟩
      cases hk'
      exact (matchAt_eq_ok hb).mp hmatch
    · obtain ⟨j, hj, h⟩ := bind_eq_ok h
      cases h
      obtain ⟨hle, hkey⟩ := ih hj
      exact ⟨Nat.succ_le_succ hle, fun k' hk' => hkey k' hk'⟩

/-- The key a draft looks for: the last tokens, with the one that was sampled. -/
def currentKey (inp : List ℤ) (n : ℕ) (sampled : ℤ) : List ℤ :=
  inp.drop (inp.length - n + 1) ++ [sampled]

lemma searchHash_eq_ok {p : ℕ} (h : map.searchHash inp key = .ok p) (hp : p ≠ 0) :
    p < map.lastPos inp.length ∧ key.take map.sizeKey <+: inp.drop p := by
  unfold searchHash at h
  split_ifs at h with hsize
  · obtain ⟨hash, -, h⟩ := bind_eq_ok h
    dsimp only at h
    split_ifs at h with hidx
    · obtain ⟨b, hb, h⟩ := bind_eq_ok h
      split_ifs at h with hmatch
      · cases h
        exact ⟨hidx.2, (matchAt_eq_ok hb).mp hmatch⟩
      · cases h
        exact absurd rfl hp
    · cases h
      exact absurd rfl hp
  · cases h
    exact absurd rfl hp

lemma orSearch_eq_ok {search : Access ℕ} {p : ℕ} (h : orSearch pos search = .ok p) :
    search = .ok p ∨ p = pos := by
  unfold orSearch at h
  split_ifs at h with h0
  · exact .inl h
  · cases h
    exact .inr rfl

/-- The key is where it is found, and the value ends before the history does. -/
lemma searchKey_eq_ok {p : ℕ} (hn : 0 < map.sizeKey)
    (hlarge : 2 * map.sizeKey + map.sizeValue ≤ inp.length) (hsmall : inp.length < 2 ^ 32)
    (hbegin : map.sizeLastBegin ≤ inp.length) (h : map.searchKey inp key = .ok p) (hp : p ≠ 0) :
    p + map.sizeKey + map.sizeValue + 1 ≤ inp.length ∧ key.take map.sizeKey <+: inp.drop p := by
  have hlast : map.lastPos inp.length + map.sizeKey + map.sizeValue + 1 = inp.length := by
    unfold lastPos
    rw [subSize_of_le (a := inp.length) (by omega) (by omega),
      subSize_of_le (a := inp.length - map.sizeKey) (by omega) (by omega),
      subSize_of_le (by omega) (by omega)]
    omega
  obtain ⟨p1, h1, h⟩ := bind_eq_ok h
  obtain ⟨p2, h2, h⟩ := bind_eq_ok h
  rcases orSearch_eq_ok h with h3 | rfl
  · obtain ⟨hle, hkey⟩ := searchDown_eq_ok h3 hp
    exact ⟨by omega, hkey⟩
  rcases orSearch_eq_ok h2 with h2 | rfl
  · unfold searchBegin at h2
    split_ifs at h2 with hlt
    · obtain ⟨hle, hkey⟩ := searchDown_eq_ok h2 hp
      exact ⟨by omega, hkey⟩
    · cases h2
      exact absurd rfl hp
  · obtain ⟨hle, hkey⟩ := searchHash_eq_ok h1 hp
    exact ⟨by omega, hkey⟩

/-! ## Counting -/

/-- The m-grams behind the key, at those of the positions where it occurs. -/
def followers (inp key : List ℤ) (n m : ℕ) (l : List ℕ) : List (List ℤ) :=
  (l.filter fun i => key <+: inp.drop i).map fun i => mgramAt inp m (i + n)

/-- What a value counts. -/
def slotOf (inp : List ℤ) (m : ℕ) (v : NgramValue) : Option (List ℤ × ℕ) :=
  if v.valueIdx = 0 then none else some (mgramAt inp m v.valueIdx, v.valueNum)

/-- How many tokens a draft from the value may have: a value that is taken in use starts with
all. -/
def accepted (m : ℕ) (v : NgramValue) : ℤ := if v.valueIdx = 0 then int16 m else v.nAccepted

/-- The values that are not in use count nothing, the others are not behind `bound`. -/
def Settled (bound : ℕ) (values : List NgramValue) : Prop :=
  ∀ v ∈ values, v.valueIdx ≤ bound ∧ (v.valueIdx = 0 → v.valueNum = 0)

lemma countValue_eq_ok {values' : List NgramValue} (hidx : idx ≠ 0)
    (h : countValue inp m idx values = .ok values') :
    values'.map (slotOf inp m) =
        Slots.add ngramMaxValueCount (values.map (slotOf inp m)) (mgramAt inp m idx) ∧
      values'.map (accepted m) = values.map (accepted m) ∧
      ∀ bound, idx ≤ bound → Settled bound values → Settled bound values' := by
  induction values generalizing values' with
  | nil =>
    cases h
    exact ⟨rfl, rfl, fun _ _ hs => hs⟩
  | cons v values ih =>
    rw [countValue] at h
    rw [map_cons, map_cons]
    by_cases hv : v.valueIdx = 0
    · rw [if_pos hv] at h
      cases h
      have hnew : accepted m ⟨idx, count 0, int16 m⟩ = accepted m v := by
        rw [accepted, if_neg hidx, accepted, if_pos hv]
      rw [map_cons, map_cons, hnew, slotOf, if_neg hidx, slotOf, if_pos hv, Slots.add, count]
      refine ⟨rfl, rfl, fun bound hle hs => ?_⟩
      exact forall_mem_cons.mpr ⟨⟨hle, fun h0 => absurd h0 hidx⟩, (forall_mem_cons.mp hs).2⟩
    · rw [if_neg hv] at h
      obtain ⟨b, hb, h⟩ := bind_eq_ok h
      have hsame := sameAt_eq_ok hb
      split_ifs at h with hmatch
      · cases h
        rw [map_cons, map_cons, slotOf, if_neg hv, slotOf, if_neg hv, accepted,
          if_neg hv, accepted, if_neg hv, Slots.add, if_pos (hsame.mp hmatch).symm, count]
        refine ⟨rfl, rfl, fun bound hle hs => ?_⟩
        obtain ⟨hs, htail⟩ := forall_mem_cons.mp hs
        exact forall_mem_cons.mpr ⟨⟨hs.1, fun h0 => absurd h0 hv⟩, htail⟩
      · obtain ⟨rest, hrest, h⟩ := bind_eq_ok h
        cases h
        obtain ⟨hslots, haccepted, hsettled⟩ := ih hrest
        rw [map_cons, map_cons, hslots, haccepted, slotOf, if_neg hv, Slots.add,
          if_neg fun heq => hmatch (hsame.mpr heq.symm)]
        refine ⟨rfl, rfl, fun bound hle hs => ?_⟩
        obtain ⟨hs, htail⟩ := forall_mem_cons.mp hs
        exact forall_mem_cons.mpr ⟨hs, hsettled bound hle htail⟩

/-- **The loop counts the m-grams** behind the key, at the positions it goes through. -/
theorem countValues_eq_ok {bound : ℕ} {l : List ℕ} {values' : List NgramValue} (hn : 0 < n)
    (hl : ∀ i ∈ l, i + n ≤ bound) (h : l.foldlM (fun values i => do
      if ← matchAt inp i key then countValue inp m (i + n) values else pure values) values =
        .ok values') (hs : Settled bound values) :
    values'.map (slotOf inp m) = (followers inp key n m l).foldl (Slots.add ngramMaxValueCount)
          (values.map (slotOf inp m)) ∧
      values'.map (accepted m) = values.map (accepted m) ∧ Settled bound values' := by
  induction l generalizing values with
  | nil =>
    cases h
    exact ⟨rfl, rfl, hs⟩
  | cons i l ih =>
    obtain ⟨hi, hl⟩ := forall_mem_cons.mp hl
    obtain ⟨values1, h1, h⟩ := bind_eq_ok h
    obtain ⟨b, hb, h1⟩ := bind_eq_ok h1
    have hmatch := matchAt_eq_ok hb
    rw [followers, filter_cons]
    split_ifs at h1 with htrue
    · obtain ⟨hslots, haccepted, hsettled⟩ := countValue_eq_ok (by omega) h1
      obtain ⟨hslots', haccepted', hsettled'⟩ := ih hl h (hsettled bound hi hs)
      rw [if_pos (decide_eq_true (hmatch.mp htrue)), map_cons, foldl_cons, ← hslots]
      exact ⟨hslots', haccepted'.trans haccepted, hsettled'⟩
    · cases h1
      rw [if_neg fun hno => htrue (hmatch.mpr (of_decide_eq_true hno))]
      exact ih hl h hs

/-! ## A key that is counted -/

/-- The tokens that the values of a key were counted from. -/
def extent (n m : ℕ) (k : NgramKey) : ℕ := max (k.keyIdx + n) (k.statIdx + n + m)

/-- The occurrences of the key up to `statIdx` are counted in its values. -/
structure Counted (inp : List ℤ) (n m : ℕ) (k : NgramKey) : Prop where
  le : extent n m k ≤ inp.length
  occurs : mgramAt inp n k.keyIdx <+: inp.drop k.statIdx
  slots : k.values.map (slotOf inp m) = Slots.fill ngramMaxValueCount ngramMaxValues
    (followers inp (mgramAt inp n k.keyIdx) n m (List.range (k.statIdx + 1)))

/-- The values of a key are right: they are free before the key is counted. -/
structure KeyRight (inp : List ℤ) (n m : ℕ) (k : NgramKey) : Prop where
  length : k.values.length = ngramMaxValues
  settled : Settled (k.statIdx + n) k.values
  free : k.statIdx = 0 → ∀ v ∈ k.values, v.valueIdx = 0
  counted : k.statIdx ≠ 0 → Counted inp n m k

lemma mgramAt_take {e : ℕ} (h : i + m ≤ e) : mgramAt (inp.take e) m i = mgramAt inp m i := by
  rw [mgramAt, mgramAt, drop_take, take_take, Nat.min_eq_left (by omega)]

lemma isPrefix_iff_mgramAt : key <+: inp.drop i ↔ key = mgramAt inp key.length i :=
  prefix_iff_eq_take

lemma length_mgramAt_le (inp : List ℤ) (m i : ℕ) : (mgramAt inp m i).length ≤ m :=
  length_take_le _ _

lemma isPrefix_take_iff {e : ℕ} (h : i + key.length ≤ e) :
    key <+: (inp.take e).drop i ↔ key <+: inp.drop i := by
  rw [isPrefix_iff_mgramAt, isPrefix_iff_mgramAt, mgramAt_take h]

lemma followers_take {e : ℕ} {l : List ℕ} (hkey : key.length ≤ n)
    (hl : ∀ i ∈ l, i + n + m ≤ e) :
    followers (inp.take e) key n m l = followers inp key n m l := by
  have hfilter : l.filter (fun i => key <+: (inp.take e).drop i) =
      l.filter fun i => key <+: inp.drop i := by
    refine filter_congr fun i hi => ?_
    have hle := hl i hi
    rw [decide_eq_decide, isPrefix_take_iff (by omega)]
  rw [followers, hfilter]
  refine map_congr_left fun i hi => ?_
  have hle := hl i (mem_filter.mp hi).1
  exact mgramAt_take (by omega)

/-- Only the tokens that were counted matter. -/
lemma counted_take_iff {e : ℕ} (he : extent n m k ≤ e) (hs : Settled (k.statIdx + n) k.values) :
    Counted (inp.take e) n m k ↔ Counted inp n m k := by
  have hkey : k.keyIdx + n ≤ e := (Nat.le_max_left _ _).trans he
  have hstat : k.statIdx + n + m ≤ e := (Nat.le_max_right _ _).trans he
  have hlength := length_mgramAt_le inp n k.keyIdx
  have hmgram : mgramAt (inp.take e) n k.keyIdx = mgramAt inp n k.keyIdx := mgramAt_take hkey
  have hoccurs : mgramAt inp n k.keyIdx <+: (inp.take e).drop k.statIdx ↔
      mgramAt inp n k.keyIdx <+: inp.drop k.statIdx := isPrefix_take_iff (by omega)
  have hslots : k.values.map (slotOf (inp.take e) m) = k.values.map (slotOf inp m) := by
    refine map_congr_left fun v hv => ?_
    have hle := (hs v hv).1
    rw [slotOf, slotOf, mgramAt_take (by omega)]
  have hfollowers : followers (inp.take e) (mgramAt inp n k.keyIdx) n m
      (range (k.statIdx + 1)) =
        followers inp (mgramAt inp n k.keyIdx) n m (range (k.statIdx + 1)) := by
    refine followers_take hlength fun i hi => ?_
    have hlt := mem_range.mp hi
    omega
  constructor
  · rintro ⟨hle, hocc, hsl⟩
    rw [hmgram] at hocc hsl
    rw [length_take] at hle
    exact ⟨by omega, hoccurs.mp hocc, by rw [← hslots, hsl, hfollowers]⟩
  · rintro ⟨hle, hocc, hsl⟩
    refine ⟨by rw [length_take]; omega, ?_, ?_⟩
    · rw [hmgram]
      exact hoccurs.mpr hocc
    · rw [hmgram, hslots, hsl, hfollowers]

/-- **A key stays right** when the tokens that were counted are still there. -/
theorem KeyRight.of_take_eq {inp' : List ℤ} (h : KeyRight inp n m k)
    (heq : k.statIdx ≠ 0 → inp.take (extent n m k) = inp'.take (extent n m k)) :
    KeyRight inp' n m k := by
  refine ⟨h.length, h.settled, h.free, fun h0 => ?_⟩
  have htake := (counted_take_iff (Nat.le_refl _) h.settled).mpr (h.counted h0)
  rw [heq h0] at htake
  exact (counted_take_iff (Nat.le_refl _) h.settled).mp htake

lemma KeyRight.of_isPrefix {inp' : List ℤ} (h : KeyRight inp n m k) (hp : inp <+: inp') :
    KeyRight inp' n m k := by
  refine h.of_take_eq fun h0 => ?_
  obtain ⟨rest, rfl⟩ := hp
  rw [take_append_of_le_length (h.counted h0).le]

/-! ## Counting a key -/

/-- Counting the key up to `pos` does not count the place again up to which it was counted: the
m-gram there has no value, or a full count. -/
def CountsOnce (inp : List ℤ) (n m pos : ℕ) (k : NgramKey) : Prop :=
  k.statIdx ≠ 0 → k.statIdx ≤ pos ∧ ∀ v ∈ k.values, v.valueIdx ≠ 0 →
    mgramAt inp m v.valueIdx = mgramAt inp m (k.statIdx + n) → v.valueNum = ngramMaxValueCount

lemma range_add_one_eq_append {j : ℕ} (h : i ≤ j) :
    range (j + 1) = range (i + 1) ++ range' (i + 1) (j - i) := by
  have happend := range'_append_1 (s := 0) (m := i + 1) (n := j - i)
  rw [Nat.zero_add, show i + 1 + (j - i) = j + 1 by omega] at happend
  rw [range_eq_range', range_eq_range', happend]

lemma followers_append (inp key : List ℤ) (n m : ℕ) (l l' : List ℕ) :
    followers inp key n m (l ++ l') = followers inp key n m l ++ followers inp key n m l' := by
  rw [followers, filter_append, map_append]
  rfl

lemma mem_followers {l : List ℕ} (hi : i ∈ l) (hkey : key <+: inp.drop i) :
    mgramAt inp m (i + n) ∈ followers inp key n m l :=
  mem_map.mpr ⟨i, mem_filter.mpr ⟨hi, decide_eq_true hkey⟩, rfl⟩

/-- **The values are right after the loop** that counts the key. -/
theorem KeyRight.countValues (h : KeyRight inp n m k) (hn : 0 < n)
    (honce : CountsOnce inp n m pos k)
    (hcount : countValues inp (mgramAt inp n k.keyIdx) n m pos k = .ok values) :
    values.map (slotOf inp m) = Slots.fill ngramMaxValueCount ngramMaxValues
        (followers inp (mgramAt inp n k.keyIdx) n m (range (pos + 1))) ∧
      values.map (accepted m) = k.values.map (accepted m) ∧ Settled (pos + n) values := by
  have hle : ∀ i ∈ range' k.statIdx (pos + 1 - k.statIdx), i + n ≤ pos + n := fun i hi => by
    obtain ⟨hge, hlt⟩ := mem_range'_1.mp hi
    omega
  by_cases h0 : k.statIdx = 0
  · have hfree := h.free h0
    have hsettled : Settled (pos + n) k.values := fun v hv =>
      ⟨by rw [hfree v hv]; omega, (h.settled v hv).2⟩
    have hslots : k.values.map (slotOf inp m) = List.replicate ngramMaxValues none := by
      rw [← h.length, ← map_const']
      exact map_congr_left fun v hv => if_pos (hfree v hv)
    obtain ⟨heq, hrest⟩ := countValues_eq_ok hn hle hcount hsettled
    rw [hslots, h0, ← range_eq_range'] at heq
    exact ⟨heq, hrest⟩
  · obtain ⟨hpos, hfull⟩ := honce h0
    have hcounted := h.counted h0
    have hsettled : Settled (pos + n) k.values := fun v hv =>
      ⟨by have := (h.settled v hv).1; omega, (h.settled v hv).2⟩
    obtain ⟨heq, hrest⟩ := countValues_eq_ok hn hle hcount hsettled
    refine ⟨?_, hrest⟩
    have hmem := mem_followers (m := m) (n := n) (mem_range.mpr (Nat.lt_succ_self k.statIdx))
      hcounted.occurs
    -- the place up to which the key was counted comes first
    have hrange : range' k.statIdx (pos + 1 - k.statIdx) =
        [k.statIdx] ++ range' (k.statIdx + 1) (pos - k.statIdx) := by
      rw [show pos + 1 - k.statIdx = (pos - k.statIdx) + 1 by omega]
      rfl
    have hfirst : followers inp (mgramAt inp n k.keyIdx) n m [k.statIdx] =
        [mgramAt inp m (k.statIdx + n)] := by
      rw [followers, filter_cons, if_pos (decide_eq_true hcounted.occurs)]
      rfl
    rw [heq, hrange, followers_append, hfirst, foldl_append, hcounted.slots,
      range_add_one_eq_append hpos, followers_append]
    rw [foldl_cons, foldl_nil, Slots.add_fill hmem fun c hc => ?_]
    · exact foldl_append.symm
    · rw [← hcounted.slots] at hc
      obtain ⟨v, hv, hslot⟩ := mem_map.mp hc
      unfold slotOf at hslot
      split_ifs at hslot with hidx
      obtain ⟨hsame, rfl⟩ := Prod.mk.inj (Option.some.inj hslot)
      exact hfull v hv hidx hsame

/-- **A key that is counted is right.** -/
theorem KeyRight.count {num : ℕ} (h : KeyRight inp n m k) (hn : 0 < n)
    (honce : CountsOnce inp n m pos k) (hkey : k.keyIdx + n ≤ inp.length)
    (hpos : pos + n + m ≤ inp.length) (hoccurs : mgramAt inp n k.keyIdx <+: inp.drop pos)
    (h0 : pos ≠ 0)
    (hcount : NgramMap.countValues inp (mgramAt inp n k.keyIdx) n m pos k = .ok values) :
    KeyRight inp n m { k with keyNum := num, values := values, statIdx := pos } := by
  obtain ⟨hslots, haccepted, hsettled⟩ := h.countValues hn honce hcount
  have hlength := congrArg List.length haccepted
  rw [length_map, length_map] at hlength
  exact ⟨hlength.trans h.length, hsettled, fun hno => absurd hno h0, fun _ =>
    ⟨Nat.max_le.mpr ⟨hkey, hpos⟩, hoccurs, hslots⟩⟩

end Llama.NgramMap
