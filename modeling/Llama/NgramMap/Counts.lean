import Llama.NgramMap.Values

/-!
# The drafts of the n-gram map

When a key is drafted from, its values are counted up to the place where the key was found.  The
draft is made for the value with the most occurrences, but copied from that place.
-/

namespace Llama

open Access

namespace NgramMap

variable {map map' : NgramMap} {inp key : List ℤ} {n m pos : ℕ}

lemma foldl_slotMax (l : List (NgramValue × ℕ)) (best : ℕ × ℕ) :
    let res := l.foldl (fun best v =>
      if best.2 < v.1.valueNum then (v.2, v.1.valueNum) else best) best
    best.2 ≤ res.2 ∧ (∀ v ∈ l, v.1.valueNum ≤ res.2) ∧
      (res = best ∨ ∃ v ∈ l, res = (v.2, v.1.valueNum)) := by
  induction l generalizing best with
  | nil => exact ⟨Nat.le_refl _, fun v hv => absurd hv List.not_mem_nil, .inl rfl⟩
  | cons v l ih =>
    obtain ⟨hle, hall, hres⟩ := ih (if best.2 < v.1.valueNum then (v.2, v.1.valueNum) else best)
    rw [List.foldl_cons]
    split_ifs at hle hall hres with hlt
    · rw [if_pos hlt]
      refine ⟨(Nat.le_of_lt hlt).trans hle, List.forall_mem_cons.mpr ⟨hle, hall⟩, .inr ?_⟩
      rcases hres with hres | ⟨w, hw, hres⟩
      · exact ⟨v, List.mem_cons_self, hres⟩
      · exact ⟨w, List.mem_cons_of_mem _ hw, hres⟩
    · rw [if_neg hlt]
      refine ⟨hle, List.forall_mem_cons.mpr ⟨(Nat.not_lt.mp hlt).trans hle, hall⟩,
        hres.imp_right ?_⟩
      rintro ⟨w, hw, hres⟩
      exact ⟨w, List.mem_cons_of_mem _ hw, hres⟩

variable {values : List NgramValue}

/-- The value that is chosen has the most occurrences. -/
lemma slotMax_eq (hne : values ≠ []) :
    ∃ v, values[(slotMax values).1]? = some v ∧ v.valueNum = (slotMax values).2 ∧
      ∀ w ∈ values, w.valueNum ≤ v.valueNum := by
  obtain ⟨-, hall, hres⟩ := foldl_slotMax values.zipIdx (0, 0)
  have hmax : ∀ w ∈ values, w.valueNum ≤ (slotMax values).2 := fun w hw => by
    obtain ⟨i, hi⟩ := List.mem_iff_getElem?.mp hw
    exact hall (w, i) (List.mem_zipIdx_iff_getElem?.mpr hi)
  rcases hres with hres | ⟨v, hv, hres⟩
  · obtain ⟨v, rest, rfl⟩ := List.exists_cons_of_ne_nil hne
    have hzero : slotMax (v :: rest) = (0, 0) := hres
    have hv := hmax v List.mem_cons_self
    rw [hzero] at hmax hv ⊢
    have hvzero : v.valueNum = 0 := Nat.le_zero.mp hv
    exact ⟨v, rfl, hvzero, fun w hw => hvzero ▸ hmax w hw⟩
  · have hslot : slotMax values = (v.2, v.1.valueNum) := hres
    rw [hslot] at hmax ⊢
    exact ⟨v.1, List.mem_zipIdx_iff_getElem?.mp hv, rfl, hmax⟩

lemma sumOthers_add {i : ℕ} {v : NgramValue} (h : values[i]? = some v) :
    sumOthers values i + v.valueNum = (values.map NgramValue.valueNum).sum := by
  induction values generalizing i with
  | nil => cases h
  | cons w values ih =>
    cases i with
    | zero =>
      cases h
      exact Nat.add_comm _ _
    | succ i =>
      have hrest := ih (i := i) h
      unfold sumOthers at hrest ⊢
      rw [List.eraseIdx_cons_succ, List.map_cons, List.sum_cons, List.map_cons, List.sum_cons]
      omega

/-! ## What a draft does -/

/-- What a draft leaves alone besides the keys, and the keys. -/
structure SameKeys (map map' : NgramMap) : Prop where
  sizeKey : map'.sizeKey = map.sizeKey
  sizeValue : map'.sizeValue = map.sizeValue
  keyOnly : map'.keyOnly = map.keyOnly
  minHits : map'.minHits = map.minHits
  keys : map'.keys = map.keys

lemma SameKeys.withNewKey (h : SameKeys map map') (pos offset : ℕ) :
    map'.withNewKey pos offset = map.withNewKey pos offset := by
  unfold NgramMap.withNewKey
  rw [h.keys, h.sizeValue]

/-- The key is found at `pos`. -/
structure Found (map : NgramMap) (inp key : List ℤ) (pos : ℕ) : Prop where
  large : 2 * map.sizeKey + map.sizeValue ≤ inp.length
  search : map.searchKey inp key = .ok pos
  ne : pos ≠ 0
  le : pos + map.sizeKey + map.sizeValue + 1 ≤ inp.length
  occurs : key <+: inp.drop pos
  length : key.length = map.sizeKey

/-- The map after the values of the key at `offset` were counted. -/
def setCounted (map : NgramMap) (pos offset : ℕ) (k : NgramKey) (values : List NgramValue) :
    NgramMap :=
  { map with
    keys := (map.withNewKey pos offset).set offset
      { k with keyNum := count k.keyNum, values := values, statIdx := pos } }

/-- What a draft from a key does: the key has too few hits, or its values are counted and there is
a draft or not. -/
inductive Drafts (map : NgramMap) (inp key : List ℤ) (pos offset : ℕ) (k : NgramKey) :
    NgramMap → List ℤ → Prop
  | few (hfew : count k.keyNum < map.minHits) : Drafts map inp key pos offset k
      { map with
        keys := (map.withNewKey pos offset).set offset { k with keyNum := count k.keyNum } } []
  | undecided {values : List NgramValue} (hhits : map.minHits ≤ count k.keyNum)
      (hcount : countValues inp key map.sizeKey map.sizeValue pos k = .ok values) :
      Drafts map inp key pos offset k (map.setCounted pos offset k values) []
  | value {values : List NgramValue} {v : NgramValue} (hhits : map.minHits ≤ count k.keyNum)
      (hcount : countValues inp key map.sizeKey map.sizeValue pos k = .ok values)
      (hmost : 2 * sumOthers values (slotMax values).1 ≤ (slotMax values).2)
      (hv : values[(slotMax values).1]? = some v) :
      Drafts map inp key pos offset k
        ((map.setCounted pos offset k values).drafted offset (slotMax values).1)
        (mgramAt inp (min (map.sizeValue : ℤ) v.nAccepted).toNat (pos + map.sizeKey))

lemma draftAt_eq_ok {debug : Bool} {d : List ℤ}
    (h : map.draftAt debug inp key pos = .ok (map', d)) (ho : map.keyOnly = false)
    (hkey : key.length = map.sizeKey) :
    ∃ offset k, findKey inp key map.keys = .ok offset ∧
      (map.withNewKey pos offset)[offset]? = some k ∧
      Drafts map inp key pos offset k map' d := by
  unfold draftAt at h
  dsimp only at h
  rw [List.take_of_length_le hkey.le] at h
  obtain ⟨offset, hfind, h⟩ := bind_eq_ok h
  obtain ⟨k, hk, h⟩ := read_bind_eq_ok h
  refine ⟨offset, k, hfind, hk, ?_⟩
  rw [if_neg (ne_true_of_eq_false ho)] at h
  split_ifs at h with hfew
  · cases h
    exact .few hfew
  · have hhits := Nat.not_lt.mp hfew
    obtain ⟨values, hcount, h⟩ := bind_eq_ok h
    obtain ⟨-, -, h⟩ := bind_eq_ok h
    rw [List.set_set] at h
    split_ifs at h with hmost
    · cases h
      exact .undecided hhits hcount
    · obtain ⟨v, hv, h⟩ := read_bind_eq_ok h
      obtain ⟨tokens, htokens, h⟩ := bind_eq_ok h
      cases h
      rw [tokensFrom_eq_ok htokens]
      exact .value hhits hcount (by omega) hv

lemma updateKeyMap_eq_ok (h : map.updateKeyMap inp = .ok map') :
    ∃ keyMap last, map' = { map with keyMap := keyMap, keyMapLastIdx := last } := by
  unfold updateKeyMap at h
  split_ifs at h with hsize
  · obtain ⟨keyMap, -, h⟩ := bind_eq_ok h
    obtain ⟨keyMap, -, h⟩ := bind_eq_ok h
    cases h
    exact ⟨_, _, rfl⟩
  · cases h
    exact ⟨map.keyMap, map.keyMapLastIdx, rfl⟩

lemma abortIf_bind_eq_ok {α : Type} {c : Prop} [Decidable c] {x : Access α} {a : α}
    (h : (abortIf c >>= fun _ => x) = .ok a) : ¬ c ∧ x = .ok a := by
  unfold abortIf at h
  split_ifs at h with hc
  · cases h
  · exact ⟨hc, h⟩

/-- **What a draft does**: nothing to the keys, or what is done when the key is found. -/
theorem draft_eq_ok {debug : Bool} {sampled : ℤ} {d : List ℤ} (hn : 0 < map.sizeKey)
    (ho : map.keyOnly = false) (h : map.draft debug inp sampled = .ok (map', d)) :
    SameKeys map map' ∧ d = [] ∨ ∃ map1 pos offset k, SameKeys map map1 ∧
        Found map inp (currentKey inp map.sizeKey sampled) pos ∧
        findKey inp (currentKey inp map.sizeKey sampled) map.keys = .ok offset ∧
        (map.withNewKey pos offset)[offset]? = some k ∧
        Drafts map1 inp (currentKey inp map.sizeKey sampled) pos offset k map' d := by
  unfold draft at h
  dsimp only at h
  split_ifs at h with hlarge
  · cases h
    exact .inl ⟨⟨rfl, rfl, rfl, rfl, rfl⟩, rfl⟩
  rw [Nat.not_lt] at hlarge
  obtain ⟨hsmall, h⟩ := abortIf_bind_eq_ok h
  obtain ⟨-, h⟩ := abortIf_bind_eq_ok h
  obtain ⟨tokens, htokens, h⟩ := bind_eq_ok h
  obtain ⟨hbegin, h⟩ := abortIf_bind_eq_ok h
  obtain ⟨pos, hsearch, h⟩ := bind_eq_ok h
  obtain ⟨map2, hupdate, h⟩ := bind_eq_ok h
  obtain ⟨keyMap, last, rfl⟩ := updateKeyMap_eq_ok hupdate
  split_ifs at h with h0
  · cases h
    exact .inl ⟨⟨rfl, rfl, rfl, rfl, rfl⟩, rfl⟩
  have hstart : addSize (subSize inp.length map.sizeKey) 1 = inp.length - map.sizeKey + 1 := by
    rw [subSize_of_le (by omega) (by omega), addSize_of_lt (by omega)]
  have hkey : tokens ++ [sampled] = currentKey inp map.sizeKey sampled := by
    rw [tokensFrom_eq_ok htokens, hstart, mgramAt, currentKey,
      List.take_of_length_le (by rw [List.length_drop])]
  rw [hkey] at h hsearch
  have hlength : (currentKey inp map.sizeKey sampled).length = map.sizeKey := by
    rw [currentKey, List.length_append, List.length_drop, List.length_singleton]
    omega
  have hfound := searchKey_eq_ok hn hlarge (by omega) (Nat.not_lt.mp hbegin) hsearch h0
  rw [List.take_of_length_le hlength.le] at hfound
  obtain ⟨offset, k, hfind, hk, hdrafts⟩ := draftAt_eq_ok h ho hlength
  refine .inr ⟨_, pos, offset, k, ?_, ?_, hfind, hk, hdrafts⟩
  · exact ⟨rfl, rfl, rfl, rfl, rfl⟩
  · exact ⟨hlarge, hsearch, h0, hfound.1, hfound.2, hlength⟩

/-- The place where the key was found is followed by the value that makes up two thirds of the
occurrences up to there, in as many tokens as are drafted. -/
def Leads (inp key : List ℤ) (n m pos : ℕ) (k : NgramKey) : Prop :=
  let slots := Slots.fill ngramMaxValueCount ngramMaxValues
    (followers inp key n m (List.range (pos + 1)))
  ∀ (i : ℕ) (v : NgramValue) (value : List ℤ) (num : ℕ), k.values[i]? = some v →
    slots[i]? = some (some (value, num)) → 2 * (Slots.total slots - num) ≤ num →
      mgramAt inp (min (m : ℤ) (accepted m v)).toNat (pos + n) <+: value

lemma total_slotOf {bound : ℕ} (hs : Settled bound values) :
    Slots.total (values.map (slotOf inp m)) = (values.map NgramValue.valueNum).sum := by
  rw [Slots.total, List.map_map]
  congr 1
  refine List.map_congr_left fun v hv => ?_
  rw [Function.comp_apply, slotOf]
  split_ifs with h0
  · exact ((hs v hv).2 h0).symm
  · rfl

/-- The value that is chosen after the key was counted. -/
lemma exists_slotMax {k : NgramKey} (h : KeyRight inp n m k) (hn : 0 < n)
    (honce : CountsOnce inp n m pos k)
    (hcount : countValues inp (mgramAt inp n k.keyIdx) n m pos k = .ok values)
    (hoccurs : mgramAt inp n k.keyIdx <+: inp.drop pos)
    (hleads : Leads inp (mgramAt inp n k.keyIdx) n m pos k)
    (hmost : 2 * sumOthers values (slotMax values).1 ≤ (slotMax values).2) {v : NgramValue}
    (hv : values[(slotMax values).1]? = some v) :
    v.valueIdx ≠ 0 ∧ (∀ w ∈ values, w.valueNum ≤ v.valueNum) ∧
      mgramAt inp (min (m : ℤ) v.nAccepted).toNat (pos + n) <+: mgramAt inp m v.valueIdx := by
  obtain ⟨hslots, haccepted, hsettled⟩ := h.countValues hn honce hcount
  have hne : values ≠ [] := fun hnil => by
    rw [hnil] at hv
    cases hv
  obtain ⟨v', hv', hnum, hmax⟩ := slotMax_eq hne
  obtain rfl : v' = v := Option.some.inj (hv'.symm.trans hv)
  have hused : v'.valueIdx ≠ 0 := by
    intro h0
    have hmem := mem_followers (m := m) (n := n) (List.mem_range.mpr (Nat.lt_succ_self pos))
      hoccurs
    have hlimit : 0 < ngramMaxValueCount := by decide
    have hsize : 0 < ngramMaxValues := by decide
    obtain ⟨value, num, hslot, hpos⟩ := Slots.exists_pos hlimit hsize hmem
    rw [← hslots] at hslot
    obtain ⟨w, hw, hslot⟩ := List.mem_map.mp hslot
    unfold slotOf at hslot
    split_ifs at hslot with hidx
    obtain ⟨-, rfl⟩ := Prod.mk.inj (Option.some.inj hslot)
    have hzero := (hsettled v' (List.mem_of_getElem? hv)).2 h0
    have hle := hmax w hw
    omega
  refine ⟨hused, hmax, ?_⟩
  have hsum := sumOthers_add hv
  -- the same value before the loop
  have hget := congrArg (fun l => l[(slotMax values).1]?) haccepted
  simp only [List.getElem?_map, hv] at hget
  obtain ⟨w, hw, hacc⟩ := Option.map_eq_some_iff.mp hget.symm
  have hslot := congrArg (fun l => l[(slotMax values).1]?) hslots
  simp only [List.getElem?_map, hv, Option.map_some] at hslot
  rw [slotOf, if_neg hused] at hslot
  rw [accepted, accepted, if_neg hused] at hacc
  have hlead := hleads _ w _ _ hw hslot.symm (by
    rw [← hslots, total_slotOf hsettled]
    omega)
  rwa [accepted, hacc] at hlead

/-! ## The keys stay right -/

lemma KeyRight.new (inp : List ℤ) (n m pos : ℕ) : KeyRight inp n m (newKey m pos) where
  length := List.length_replicate
  settled := fun v hv => by
    rw [List.eq_of_mem_replicate hv]
    exact ⟨Nat.zero_le _, fun _ => rfl⟩
  free := fun _ v hv => by rw [List.eq_of_mem_replicate hv]
  counted := fun h => absurd rfl h

/-- A hit and what is accepted do not matter. -/
lemma KeyRight.setNum {k : NgramKey} {num : ℕ} (h : KeyRight inp n m k) :
    KeyRight inp n m { k with keyNum := num } :=
  ⟨h.length, h.settled, h.free, fun h0 =>
    ⟨(h.counted h0).le, (h.counted h0).occurs, (h.counted h0).slots⟩⟩

lemma KeyRight.setAccepted {k : NgramKey} {i : ℕ} {v : NgramValue} {num : ℤ}
    (h : KeyRight inp n m k) (hv : k.values[i]? = some v) :
    KeyRight inp n m { k with values := k.values.set i { v with nAccepted := num } } := by
  have hmem := List.mem_of_getElem? hv
  have hset : ∀ {β : Type} (f : NgramValue → β), f { v with nAccepted := num } = f v →
      (k.values.set i { v with nAccepted := num }).map f = k.values.map f := by
    intro β f hf
    rw [List.map_set, hf]
    refine List.ext_getElem? fun j => ?_
    rw [List.getElem?_set]
    split_ifs with hij hlt
    · subst hij
      rw [List.getElem?_map, hv, Option.map_some]
    · obtain ⟨hlt', -⟩ := List.getElem?_eq_some_iff.mp hv
      exact absurd (by rwa [List.length_map]) hlt
    · rfl
  refine ⟨?_, ?_, fun h0 w hw => ?_, fun h0 => ⟨(h.counted h0).le, (h.counted h0).occurs, ?_⟩⟩
  · rw [List.length_set]
    exact h.length
  · intro w hw
    rcases List.mem_or_eq_of_mem_set hw with hw | rfl
    · exact h.settled w hw
    · exact h.settled v hmem
  · rcases List.mem_or_eq_of_mem_set hw with hw | rfl
    · exact h.free h0 w hw
    · exact h.free h0 v hmem
  · rw [hset (slotOf inp m) rfl]
    exact (h.counted h0).slots

end NgramMap

namespace NgramSession

open NgramMap

variable {s s' : NgramSession} {c : NgramCall} {n m minHits : ℕ}

/-- The calls for which the counts and the drafts are right.  A new history has the tokens that
the keys were counted from, if they are kept, and loses none of their values.  A key that is
drafted from is not counted twice, and is found in front of the value that leads. -/
def Clean (s : NgramSession) : NgramCall → Prop
  | .begin tokens => ∀ k ∈ (s.map.begin tokens).keys, k ∈ s.map.keys ∧ (k.statIdx ≠ 0 →
    s.history.take (extent s.map.sizeKey s.map.sizeValue k) =
      tokens.take (extent s.map.sizeKey s.map.sizeValue k))
  | .draft _ inp sampled =>
    let key := currentKey inp s.map.sizeKey sampled
    ∀ pos offset k, Found s.map inp key pos → findKey inp key s.map.keys = .ok offset →
      (s.map.withNewKey pos offset)[offset]? = some k → s.map.minHits ≤ count k.keyNum →
        CountsOnce inp s.map.sizeKey s.map.sizeValue pos k ∧
          Leads inp key s.map.sizeKey s.map.sizeValue pos k
  | .accept _ => True

/-- The invariant: the counts of every key are right. -/
structure Right (n m : ℕ) (s : NgramSession) : Prop where
  sizeKey : s.map.sizeKey = n
  sizeValue : s.map.sizeValue = m
  keyOnly : s.map.keyOnly = false
  keys : ∀ k ∈ s.map.keys, KeyRight s.history n m k

lemma right_start : Right n m (start n m false minHits) :=
  ⟨rfl, rfl, rfl, fun _ hk => absurd hk List.not_mem_nil⟩

lemma Right.begin {tokens : List ℤ} (h : s.Right n m) (hc : s.Clean (.begin tokens))
    (hs : s.next (.begin tokens) = some s') : s'.Right n m := by
  cases hs
  refine ⟨h.sizeKey, h.sizeValue, h.keyOnly, fun k hk => ?_⟩
  obtain ⟨hmem, htake⟩ := hc k hk
  rw [h.sizeKey, h.sizeValue] at htake
  exact (h.keys k hmem).of_take_eq htake

lemma Right.accept {nAccepted : ℕ} (h : s.Right n m)
    (hs : s.next (.accept nAccepted) = some s') : s'.Right n m := by
  obtain ⟨map, hmap, heq⟩ := bind_eq_ok (toOption_eq_some.mp hs)
  cases heq
  unfold NgramMap.accept at hmap
  split_ifs at hmap with hcreated
  · obtain ⟨k, hk, hmap⟩ := read_bind_eq_ok hmap
    obtain ⟨v, hv, hmap⟩ := read_bind_eq_ok hmap
    cases hmap
    refine ⟨h.sizeKey, h.sizeValue, h.keyOnly, fun k' hk' => ?_⟩
    rcases List.mem_or_eq_of_mem_set hk' with hk' | rfl
    · exact h.keys k' hk'
    · exact (h.keys k (List.mem_of_getElem? hk)).setAccepted hv
  · cases hmap
    exact h

/-- The key that is drafted from is right, also when it is new, and has the tokens looked for. -/
lemma Right.key {inp key : List ℤ} {pos offset : ℕ} {k : NgramKey} (hn : 0 < n) (h : s.Right n m)
    (hp : s.history <+: inp) (hfound : Found s.map inp key pos)
    (hfind : findKey inp key s.map.keys = .ok offset)
    (hk : (s.map.withNewKey pos offset)[offset]? = some k) :
    (∀ k' ∈ s.map.withNewKey pos offset, KeyRight inp n m k') ∧
      k.keyIdx + n ≤ inp.length ∧ mgramAt inp n k.keyIdx = key := by
  have hall : ∀ k' ∈ s.map.withNewKey pos offset, KeyRight inp n m k' := by
    intro k' hk'
    unfold withNewKey at hk'
    split_ifs at hk' with hnew
    · rcases List.mem_append.mp hk' with hk' | hk'
      · exact (h.keys k' hk').of_isPrefix hp
      · rw [List.mem_singleton.mp hk', h.sizeValue]
        exact .new inp n m pos
    · exact (h.keys k' hk').of_isPrefix hp
  have hlength : key.length = n := hfound.length.trans h.sizeKey
  have hoccurs : key <+: inp.drop k.keyIdx := by
    unfold withNewKey at hk
    split_ifs at hk with hnew
    · subst hnew
      rw [List.getElem?_append_right (Nat.le_refl _), Nat.sub_self] at hk
      cases hk
      exact hfound.occurs
    · exact (findKey_eq_ok hfind).2 k hk
  have hle := hoccurs.length_le
  rw [List.length_drop] at hle
  have hkey := isPrefix_iff_mgramAt.mp hoccurs
  rw [hlength] at hkey
  exact ⟨hall, by omega, hkey.symm⟩

/-- The number of places up to `last` where the key is followed by the value. -/
def occurrences (inp key value : List ℤ) (n m last : ℕ) : ℕ :=
  ((List.range (last + 1)).filter fun i =>
    key <+: inp.drop i ∧ mgramAt inp m (i + n) = value).length

lemma eq_min_occurrences {inp key value : List ℤ} {last num limit size : ℕ}
    (h : some (value, num) ∈ Slots.fill limit size
      (followers inp key n m (List.range (last + 1)))) :
    num = min (occurrences inp key value n m last) limit := by
  rw [Slots.eq_min_countP h, occurrences, followers, List.countP_map,
    List.countP_eq_length_filter, List.filter_filter]
  congr 2
  refine List.filter_congr fun i _ => ?_
  rw [Function.comp_apply, Bool.decide_and, Bool.and_comm]

/-- The draft is a prefix of the value that `accept` looks up, and this value of the key has the
most occurrences. -/
structure FromMost (map : NgramMap) (inp key : List ℤ) (n m : ℕ) (d : List ℤ) : Prop where
  created : map.lastDraftCreated = true
  value : ∃ k v, map.keys[map.lastDraftKeyIdx]? = some k ∧ mgramAt inp n k.keyIdx = key ∧
    k.values[map.lastDraftValueIdx]? = some v ∧ v.valueIdx ≠ 0 ∧
    (∀ w ∈ k.values, w.valueNum ≤ v.valueNum) ∧ d <+: mgramAt inp m v.valueIdx

lemma Right.draft {debug : Bool} {inp d : List ℤ} {sampled : ℤ} {map : NgramMap} (hn : 0 < n)
    (h : s.Right n m) (hg : s.Grows (.draft debug inp sampled))
    (hc : s.Clean (.draft debug inp sampled))
    (hdraft : s.map.draft debug inp sampled = .ok (map, d)) :
    Right n m ⟨map, inp, false⟩ ∧ (d ≠ [] → FromMost map inp (currentKey inp n sampled) n m d) := by
  have hnkey : 0 < s.map.sizeKey := by rw [h.sizeKey]; exact hn
  rcases draft_eq_ok hnkey h.keyOnly hdraft with ⟨hsame, rfl⟩ | hrest
  · refine ⟨⟨hsame.sizeKey.trans h.sizeKey, hsame.sizeValue.trans h.sizeValue,
      hsame.keyOnly.trans h.keyOnly, fun k hk => ?_⟩, fun hno => absurd rfl hno⟩
    rw [hsame.keys] at hk
    exact (h.keys k hk).of_isPrefix hg
  obtain ⟨map1, pos, offset, k, hsame, hfound, hfind, hk, hdrafts⟩ := hrest
  have hclean := hc pos offset k hfound hfind hk
  rw [h.sizeKey] at hfound hfind hdrafts hclean
  rw [h.sizeValue] at hclean
  obtain ⟨hall, hidx, hkey⟩ := h.key hn hg hfound hfind hk
  have hright := hall k (List.mem_of_getElem? hk)
  have hsize := hsame.sizeKey.trans h.sizeKey
  have hvalue := hsame.sizeValue.trans h.sizeValue
  have honly := hsame.keyOnly.trans h.keyOnly
  have hle := hfound.le
  rw [h.sizeKey, h.sizeValue] at hle
  have hoccurs := hfound.occurs
  rw [← hkey] at hoccurs
  -- the other keys stay, the key is replaced
  have hset : ∀ k', KeyRight inp n m k' →
      ∀ x ∈ (map1.withNewKey pos offset).set offset k', KeyRight inp n m x := by
    intro k' hk' x hx
    rcases List.mem_or_eq_of_mem_set hx with hx | rfl
    · rw [hsame.withNewKey] at hx
      exact hall x hx
    · exact hk'
  have hlt : offset < (map1.withNewKey pos offset).length := by
    rw [hsame.withNewKey]
    exact (List.getElem?_eq_some_iff.mp hk).1
  cases hdrafts with
  | few hfew =>
    exact ⟨⟨hsize, hvalue, honly, hset _ hright.setNum⟩, fun hno => absurd rfl hno⟩
  | undecided hhits hcount =>
    rw [hsame.minHits] at hhits
    rw [hsize, hvalue, ← hkey] at hcount
    exact ⟨⟨hsize, hvalue, honly, hset _ (hright.count hn (hclean hhits).1 hidx (by omega) hoccurs
      hfound.ne hcount)⟩, fun hno => absurd rfl hno⟩
  | value hhits hcount hmost hv =>
    rw [hsame.minHits] at hhits
    rw [hsize, hvalue, ← hkey] at hcount
    obtain ⟨honce, hleads⟩ := hclean hhits
    refine ⟨⟨hsize, hvalue, honly, hset _ (hright.count hn honce hidx (by omega) hoccurs
      hfound.ne hcount)⟩, fun _ => ⟨rfl, _, _, List.getElem?_set_self hlt, hkey, hv, ?_⟩⟩
    rw [hsize, hvalue]
    rw [← hkey] at hleads
    exact exists_slotMax hright hn honce hcount hoccurs hleads hmost hv

/-- **The invariant of a run.** -/
theorem right_of_reachable (hn : 0 < n)
    (h : Run.Reachable next (fun s c => s.Grows c ∧ s.Clean c) (start n m false minHits) s) :
    s.Right n m := by
  refine h.invariant right_start fun s c s' hs hc hnext => ?_
  cases c with
  | «begin» tokens => exact hs.begin hc.2 hnext
  | draft debug inp sampled =>
    obtain ⟨⟨map, d⟩, hdraft, heq⟩ := bind_eq_ok (toOption_eq_some.mp hnext)
    cases heq
    exact (hs.draft hn hc.1 hc.2 hdraft).1
  | accept nAccepted => exact hs.accept hnext

/-- **The counts and the drafts** in the runs in which no place is counted twice and no key is
found in front of another value than the one that leads: a count is the number of places up to
`statIdx` where the key is followed by the value, and a draft is a prefix of the value with the
most occurrences. -/
theorem counts_of_reachable (hn : 0 < n)
    (h : Run.Reachable next (fun s c => s.Grows c ∧ s.Clean c) (start n m false minHits) s) :
    (∀ k ∈ s.map.keys, ∀ v ∈ k.values, v.valueIdx ≠ 0 →
      v.valueNum = min (occurrences s.history (mgramAt s.history n k.keyIdx)
        (mgramAt s.history m v.valueIdx) n m k.statIdx) ngramMaxValueCount) ∧
    ∀ debug inp sampled map d, s.Grows (.draft debug inp sampled) →
      s.Clean (.draft debug inp sampled) → s.map.draft debug inp sampled = .ok (map, d) → d ≠ [] →
        FromMost map inp (currentKey inp n sampled) n m d := by
  have hright := right_of_reachable hn h
  refine ⟨fun k hk v hv hused => ?_, fun debug inp sampled map d hg hc hdraft =>
    (hright.draft hn hg hc hdraft).2⟩
  have hkey := hright.keys k hk
  have hstat : k.statIdx ≠ 0 := fun h0 => hused (hkey.free h0 v hv)
  have hmem : slotOf s.history m v ∈ k.values.map (slotOf s.history m) :=
    List.mem_map.mpr ⟨v, hv, rfl⟩
  rw [slotOf, if_neg hused, (hkey.counted hstat).slots] at hmem
  exact eq_min_occurrences hmem

/-- A key is found for the first time. -/
theorem counts_of_reachable_first :
    ∃ s, Run.Reachable next (fun s c => s.Grows c ∧ s.Clean c) (start 1 1 false 1) s ∧
      ∃ k ∈ s.map.keys, ∃ v ∈ k.values, v.valueIdx ≠ 0 ∧
        v.valueNum = min (occurrences s.history (mgramAt s.history 1 k.keyIdx)
          (mgramAt s.history 1 v.valueIdx) 1 1 k.statIdx) ngramMaxValueCount := by
  have hrun : ((start 1 1 false 1).next (.draft false [0, 7, 5, 0, 0] 7)).map
      (fun s => s.map.keys) =
        some [⟨1, 1, 1, [⟨2, 1, 1⟩, ⟨0, 0, 1⟩, ⟨0, 0, 1⟩, ⟨0, 0, 1⟩]⟩] := by decide +kernel
  obtain ⟨s1, hnext1, hkeys⟩ := Option.map_eq_some_iff.mp hrun
  have hg1 : (start 1 1 false 1).Grows (.draft false [0, 7, 5, 0, 0] 7) := List.nil_prefix
  have hsearch : (start 1 1 false 1).map.searchKey [0, 7, 5, 0, 0] [7] = .ok 1 := by
    decide +kernel
  have hclean1 : (start 1 1 false 1).Clean (.draft false [0, 7, 5, 0, 0] 7) := by
    intro pos offset k hfound hfind hk hhits
    obtain rfl : 1 = pos := Access.ok.inj (hsearch.symm.trans hfound.search)
    cases hfind
    cases hk
    refine ⟨fun hno => absurd rfl hno, fun i v value num hv hslot hlead => ?_⟩
    have hslot' : [some ([(5 : ℤ)], 1), none, none, none][i]? = some (some (value, num)) := by
      exact hslot
    rcases i with _ | _ | _ | _ | i
    · cases hv
      cases hslot'
      decide
    all_goals cases hslot'
  have h1 : Run.Reachable next (fun s c => s.Grows c ∧ s.Clean c) (start 1 1 false 1) s1 :=
    .step .init ⟨hg1, hclean1⟩ hnext1
  have hkey : (⟨1, 1, 1, [⟨2, 1, 1⟩, ⟨0, 0, 1⟩, ⟨0, 0, 1⟩, ⟨0, 0, 1⟩]⟩ : NgramKey) ∈
      s1.map.keys := by
    rw [hkeys]
    exact List.mem_cons_self
  exact ⟨s1, h1, _, hkey, _, List.mem_cons_self, by decide,
    (counts_of_reachable Nat.one_pos h1).1 _ hkey _ List.mem_cons_self (by decide)⟩

/-- A place is counted twice, and a draft is of another value than the one that was chosen. -/
theorem not_counts_twice :
    (∃ s, Run.Reachable next Grows (start 1 1 false 1) s ∧ ∃ k ∈ s.map.keys, ∃ v ∈ k.values,
      v.valueIdx ≠ 0 ∧ v.valueNum ≠ min (occurrences s.history (mgramAt s.history 1 k.keyIdx)
          (mgramAt s.history 1 v.valueIdx) 1 1 k.statIdx) ngramMaxValueCount) ∧
    ∃ inp map d, (start 1 1 false 1).Grows (.draft false inp 7) ∧
      (start 1 1 false 1).map.draft false inp 7 = .ok (map, d) ∧ d ≠ [] ∧
        ¬ FromMost map inp (currentKey inp 1 7) 1 1 d := by
  constructor
  · have hrun : (((start 1 1 false 1).next (.draft false [0, 7, 5, 0, 0] 7)).bind fun s1 =>
        (s1.next (.draft false [0, 7, 5, 0, 0, 9] 7)).map fun s2 =>
          (s1.history, s2.history, s2.map.keys)) =
        some ([0, 7, 5, 0, 0], [0, 7, 5, 0, 0, 9],
          [⟨1, 1, 2, [⟨2, 2, 1⟩, ⟨0, 0, 1⟩, ⟨0, 0, 1⟩, ⟨0, 0, 1⟩]⟩]) := by decide +kernel
    obtain ⟨s1, hnext1, hrun⟩ := Option.bind_eq_some_iff.mp hrun
    obtain ⟨s2, hnext2, heq⟩ := Option.map_eq_some_iff.mp hrun
    simp only [Prod.mk.injEq] at heq
    obtain ⟨hhistory1, hhistory2, hkeys⟩ := heq
    have hg1 : (start 1 1 false 1).Grows (.draft false [0, 7, 5, 0, 0] 7) := List.nil_prefix
    have hg2 : s1.Grows (.draft false [0, 7, 5, 0, 0, 9] 7) := by
      show s1.history <+: _
      rw [hhistory1]
      exact ⟨[9], rfl⟩
    have h2 := (Run.Reachable.step .init hg1 hnext1).step hg2 hnext2
    refine ⟨s2, h2, ⟨1, 1, 2, [⟨2, 2, 1⟩, ⟨0, 0, 1⟩, ⟨0, 0, 1⟩, ⟨0, 0, 1⟩]⟩, ?_, _,
      List.mem_cons_self, by decide, ?_⟩
    · rw [hkeys]
      exact List.mem_cons_self
    · rw [hhistory2]
      decide +kernel
  · have hdraft : (fun res : NgramMap × List ℤ =>
        (res.2, res.1.lastDraftKeyIdx, res.1.lastDraftValueIdx, res.1.keys)) <$>
          (start 1 1 false 1).map.draft false [0, 7, 5, 7, 5, 7, 5, 7, 5, 7, 6, 0, 0] 7 =
        .ok ([6], 0, 0, [⟨9, 9, 1, [⟨2, 4, 1⟩, ⟨10, 1, 1⟩, ⟨0, 0, 1⟩, ⟨0, 0, 1⟩]⟩]) := by
      decide +kernel
    cases hres : (start 1 1 false 1).map.draft false [0, 7, 5, 7, 5, 7, 5, 7, 5, 7, 6, 0, 0] 7 with
    | ok res =>
      rw [hres] at hdraft
      have heq := Access.ok.inj hdraft
      simp only [Prod.mk.injEq] at heq
      obtain ⟨hd, hkeyIdx, hvalueIdx, hkeys⟩ := heq
      refine ⟨_, res.1, res.2, List.nil_prefix, hres, by rw [hd]; decide, fun hmost => ?_⟩
      obtain ⟨k, v, hk, -, hv, -, -, hprefix⟩ := hmost.value
      rw [hkeyIdx, hkeys] at hk
      cases hk
      rw [hvalueIdx] at hv
      cases hv
      rw [hd] at hprefix
      exact absurd hprefix (by decide)
    | aborted =>
      rw [hres] at hdraft
      cases hdraft
    | outOfBounds =>
      rw [hres] at hdraft
      cases hdraft

end NgramSession

end Llama
