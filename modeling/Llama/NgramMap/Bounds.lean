import Llama.NgramMap
import Mathlib.Data.List.Infix

/-!
# The n-gram map reads inside the history

A position in the map is of an n-gram that lies, with its m-gram and one token more, before
the start of the generation, or that begins behind it (`NgramMap.Known`).  With that, what
`begin` keeps of a longer history lies in the shorter one, but for one kind of position: a
value that begins before the start of the last generation and ends behind it.
-/

namespace Llama

open Access List Option

namespace NgramMap

variable {map : NgramMap} {inp key : List ℤ} {lo n m pos : ℕ}

/-! ## Reads of the history -/

lemma inside_matchAt : ∀ {key : List ℤ} {pos : ℕ}, pos + key.length ≤ inp.length →
    Inside (matchAt inp pos key) fun _ => True
  | [], _, _ => inside_pure trivial
  | t :: key, pos, h => by
    rw [length_cons] at h
    refine (inside_read (by omega)).bind fun token _ => ?_
    split
    · exact inside_pure trivial
    · exact inside_matchAt (by omega)

lemma inside_sameAt : ∀ {m i j : ℕ}, i + m ≤ inp.length → j + m ≤ inp.length →
    Inside (sameAt inp m i j) fun _ => True
  | 0, _, _, _, _ => inside_pure trivial
  | m + 1, i, j, hi, hj => by
    refine (inside_read (by omega)).bind fun a _ => (inside_read (by omega)).bind fun b _ => ?_
    split
    · exact inside_pure trivial
    · exact inside_sameAt (by omega) (by omega)

lemma inside_ngramHash {start len : ℕ} (h : start + len ≤ inp.length) :
    Inside (ngramHash inp start len) fun _ => True := by
  refine Inside.foldlM trivial fun hash _ i hi => ?_
  have hlt := mem_range.mp hi
  exact (inside_read (by omega)).bind fun _ _ => inside_pure trivial

lemma inside_tokensFrom {start len : ℕ} (h : start + len ≤ inp.length) :
    Inside (tokensFrom inp start len) fun tokens => tokens.length = len := by
  refine (Inside.mapM (R := fun _ => True) fun i hi => ?_).mono fun tokens ht => ?_
  · have hlt := mem_range.mp hi
    exact (inside_read (by omega)).mono fun _ _ => trivial
  · rw [ht.1, length_range]

/-- A position that is found lies in the range that is searched. -/
lemma inside_searchDown : ∀ {j : ℕ}, j + key.length ≤ inp.length →
    Inside (searchDown inp key lo j) fun p => p ≠ 0 → lo < p ∧ p ≤ j
  | 0, _ => inside_pure fun h => absurd rfl h
  | j + 1, h => by
    unfold searchDown
    split
    case isTrue hlo =>
      refine (inside_matchAt (by omega)).bind fun b _ => ?_
      split
      · exact inside_pure fun _ => ⟨hlo, le_rfl⟩
      · exact (inside_searchDown (by omega)).mono fun p hp h0 =>
          ⟨(hp h0).1, (hp h0).2.trans j.le_succ⟩
    case isFalse => exact inside_pure fun h => absurd rfl h

/-- The positions that are entered into the hash map lie in the range that is visited. -/
lemma inside_addHashes {size : ℕ} {P : ℕ → Prop} : ∀ {j : ℕ} {keyMap : ℕ → ℕ},
    j + n ≤ inp.length → j < 2 ^ 32 → (∀ p, lo < p → p ≤ j → P p) →
    (∀ i, keyMap i ≠ 0 → P (keyMap i)) →
    Inside (addHashes inp size n lo j keyMap) fun keyMap => ∀ i, keyMap i ≠ 0 → P (keyMap i)
  | 0, _, _, _, _, hmap => inside_pure hmap
  | j + 1, keyMap, h, hlt, hP, hmap => by
    unfold addHashes
    split
    case isTrue hlo =>
      refine (inside_ngramHash (by omega)).bind fun hash _ => ?_
      refine inside_addHashes (by omega) (by omega) (fun p hp hle => hP p hp (by omega)) ?_
      by_cases h0 : keyMap (hash % size) = 0
      · rw [if_pos h0]
        intro i hi
        rcases eq_or_ne i (hash % size) with rfl | hne
        · have hval : uint32 (j + 1) = j + 1 := Nat.mod_eq_of_lt hlt
          rw [Function.update_self, hval]
          exact hP _ hlo le_rfl
        · rw [Function.update_of_ne hne] at hi ⊢
          exact hmap i hi
      · rwa [if_neg h0]
    case isFalse => exact inside_pure hmap

lemma inside_findKey : ∀ {keys : List NgramKey}, (∀ k ∈ keys, k.keyIdx + key.length ≤ inp.length) →
    Inside (findKey inp key keys) fun i => i ≤ keys.length
  | [], _ => inside_pure le_rfl
  | k :: keys, h => by
    refine (inside_matchAt (h k mem_cons_self)).bind fun b _ => ?_
    split
    · exact inside_pure (Nat.zero_le _)
    · refine (inside_findKey fun k hk => h k (mem_cons_of_mem _ hk)).bind fun i hi => ?_
      exact inside_pure (Nat.succ_le_succ hi)

/-- There are four values, and the m-grams of those in use end before `bound`. -/
structure ValuesIn (m bound : ℕ) (values : List NgramValue) : Prop where
  length : values.length = ngramMaxValues
  le : ∀ v ∈ values, v.valueIdx ≠ 0 → v.valueIdx + m ≤ bound

lemma inside_countValue {idx : ℕ} (hidx : idx + m ≤ inp.length) : ∀ {values : List NgramValue},
    (∀ v ∈ values, v.valueIdx ≠ 0 → v.valueIdx + m ≤ inp.length) →
    Inside (countValue inp m idx values) fun values' => values'.length = values.length ∧
      ∀ v ∈ values', v.valueIdx ≠ 0 → v.valueIdx + m ≤ inp.length
  | [], h => inside_pure ⟨rfl, h⟩
  | v :: values, h => by
    obtain ⟨hv, htail⟩ := forall_mem_cons.mp h
    unfold countValue
    split
    · exact inside_pure ⟨rfl, forall_mem_cons.mpr ⟨fun _ => hidx, htail⟩⟩
    · next hne =>
      refine (inside_sameAt hidx (hv hne)).bind fun b _ => ?_
      split
      · exact inside_pure ⟨rfl, forall_mem_cons.mpr ⟨hv, htail⟩⟩
      · refine (inside_countValue hidx htail).bind fun values' h' => ?_
        exact inside_pure ⟨congrArg (· + 1) h'.1, forall_mem_cons.mpr ⟨hv, h'.2⟩⟩

lemma inside_countValues {k : NgramKey} (hlen : key.length ≤ n) (hpos : pos + n + m ≤ inp.length)
    (h : ValuesIn m inp.length k.values) :
    Inside (countValues inp key n m pos k) (ValuesIn m inp.length) := by
  refine Inside.foldlM h fun values hvalues i hi => ?_
  have hi' := mem_range'_1.mp hi
  refine (inside_matchAt (by omega)).bind fun b _ => ?_
  split
  · exact (inside_countValue (by omega) hvalues.le).mono fun values' h' =>
      ⟨h'.1.trans hvalues.length, h'.2⟩
  · exact inside_pure hvalues

variable {values : List NgramValue}

lemma inside_printValues {debug : Bool} (h : ValuesIn m inp.length values) :
    Inside (printValues debug inp m values) fun _ => True := by
  unfold printValues
  split
  · refine (Inside.mapM (R := fun _ => True) fun v hv => ?_).bind fun _ _ => inside_pure trivial
    obtain ⟨hmem, hne⟩ := mem_filter.mp hv
    exact (inside_tokensFrom (h.le v hmem (of_decide_eq_true hne))).mono fun _ _ => trivial
  · exact inside_pure trivial

lemma slotMax_lt (h : values.length = ngramMaxValues) : (slotMax values).1 < ngramMaxValues := by
  refine foldlRecOn values.zipIdx _ (motive := fun best : ℕ × ℕ => best.1 < ngramMaxValues)
    (by decide) fun best hbest v hv => ?_
  split
  · have := snd_lt_of_mem_zipIdx hv
    omega
  · exact hbest

/-- The n-gram at `i` lies, with its m-gram and one token more, in the history that was checked
last, and it lies so before the start of the generation or begins behind it. -/
def Known (map : NgramMap) (i : ℕ) : Prop :=
  (i + map.sizeKey + map.sizeValue + 1 ≤ map.sizeLastBegin ∨ map.sizeLastBegin < i) ∧
    i + map.sizeKey + map.sizeValue + 1 ≤ map.idxLastCheck

/-- The invariant: every position of the map is in the history that was checked last. -/
structure Positions (map : NgramMap) : Prop where
  pos : 0 < map.sizeKey
  begin_le : map.sizeLastBegin ≤ map.idxLastCheck
  keys : ∀ k ∈ map.keys, map.Known k.keyIdx
  values : ∀ k ∈ map.keys, ValuesIn map.sizeValue map.idxLastCheck k.values
  keyOnly : map.keyOnly = true → ∀ k ∈ map.keys, ∀ v ∈ k.values, v.valueIdx = 0
  keyMap : 0 < map.keyMapSize → ∀ i, map.keyMap i ≠ 0 → map.Known (map.keyMap i)

/-- The indices of the last draft. -/
def LastDraft (map : NgramMap) : Prop :=
  map.lastDraftCreated = true →
    map.lastDraftKeyIdx < map.keys.length ∧ map.lastDraftValueIdx < ngramMaxValues

lemma Positions.new {keyOnly : Bool} {minHits : ℕ} (hn : 0 < n) :
    (new n m keyOnly minHits).Positions where
  pos := hn
  begin_le := le_rfl
  keys := fun _ hk => absurd hk not_mem_nil
  values := fun _ hk => absurd hk not_mem_nil
  keyOnly := fun _ _ hk => absurd hk not_mem_nil
  keyMap := fun _ _ h => absurd rfl h

/-- A longer history is checked. -/
lemma Positions.check {curLen : ℕ} (h : map.Positions) (hle : map.idxLastCheck ≤ curLen) :
    { map with idxLastCheck := curLen }.Positions where
  pos := h.pos
  begin_le := h.begin_le.trans hle
  keys := fun k hk => ⟨(h.keys k hk).1, (h.keys k hk).2.trans hle⟩
  values := fun k hk => ⟨(h.values k hk).length, fun v hv h0 => ((h.values k hk).le v hv h0).trans hle⟩
  keyOnly := h.keyOnly
  keyMap := fun hs i hi => ⟨(h.keyMap hs i hi).1, (h.keyMap hs i hi).2.trans hle⟩

/-! ## Drafting -/

/-- What `draft` has checked of the history when it searches. -/
structure Drafting (map : NgramMap) (inp : List ℤ) : Prop where
  positions : map.Positions
  check : map.idxLastCheck = inp.length
  large : 2 * map.sizeKey + map.sizeValue ≤ inp.length
  small : inp.length < 2 ^ 32

lemma Drafting.lastPos_eq (h : map.Drafting inp) :
    map.lastPos inp.length + map.sizeKey + map.sizeValue + 1 = inp.length := by
  have hpos := h.positions.pos
  have hlarge := h.large
  have hsmall := h.small
  unfold lastPos
  rw [subSize_of_le (a := inp.length) (by omega) (by omega),
    subSize_of_le (a := inp.length - map.sizeKey) (by omega) (by omega),
    subSize_of_le (by omega) (by omega)]
  omega

lemma Drafting.inside_searchHash (h : map.Drafting inp) (hkey : key.length = map.sizeKey) :
    Inside (map.searchHash inp key) fun p => p ≠ 0 → map.Known p := by
  unfold searchHash
  split
  case isTrue hsize =>
    refine (inside_ngramHash (by omega)).bind fun hash _ => ?_
    dsimp only
    split
    case isTrue hidx =>
      have hknown := h.positions.keyMap hsize _ hidx.1
      have hle := hknown.2
      have hcheck := h.check
      refine (inside_matchAt (by rw [length_take]; omega)).bind fun b _ => ?_
      split
      · exact inside_pure fun _ => hknown
      · exact inside_pure fun h0 => absurd rfl h0
    case isFalse => exact inside_pure fun h0 => absurd rfl h0
  case isFalse => exact inside_pure fun h0 => absurd rfl h0

lemma Drafting.inside_searchBegin (h : map.Drafting inp) :
    Inside (map.searchBegin inp key) fun p => p ≠ 0 → map.Known p := by
  have hbegin := h.positions.begin_le
  have hcheck := h.check
  have htake := length_take_le map.sizeKey key
  unfold searchBegin
  split
  case isTrue hlt =>
    refine (inside_searchDown (by omega)).mono fun p hp h0 => ?_
    exact ⟨.inl (by omega), by omega⟩
  case isFalse => exact inside_pure fun h0 => absurd rfl h0

lemma Drafting.inside_searchRest (h : map.Drafting inp) :
    Inside (map.searchRest inp key) fun p => p ≠ 0 → map.Known p := by
  have hlast := h.lastPos_eq
  have hcheck := h.check
  have htake := length_take_le map.sizeKey key
  refine (inside_searchDown (by omega)).mono fun p hp h0 => ?_
  obtain ⟨hlt, hle⟩ := hp h0
  exact ⟨.inr ((Nat.le_max_left _ _).trans_lt hlt), by omega⟩

lemma inside_orSearch {search : Access ℕ} {P : ℕ → Prop} (hp : pos ≠ 0 → P pos)
    (hs : Inside search fun p => p ≠ 0 → P p) :
    Inside (orSearch pos search) fun p => p ≠ 0 → P p := by
  unfold orSearch
  split
  · exact hs
  · exact inside_pure hp

lemma Drafting.inside_searchKey (h : map.Drafting inp) (hkey : key.length = map.sizeKey) :
    Inside (map.searchKey inp key) fun p => p ≠ 0 → map.Known p := by
  refine (h.inside_searchHash hkey).bind fun p hp => ?_
  refine (inside_orSearch hp h.inside_searchBegin).bind fun p hp => ?_
  exact inside_orSearch hp h.inside_searchRest

lemma Drafting.inside_addBegin (h : map.Drafting inp) (hsize : 0 < map.keyMapSize) :
    Inside (map.addBegin inp) fun keyMap => ∀ i, keyMap i ≠ 0 → map.Known (keyMap i) := by
  have hcheck := h.check
  have hbegin := h.positions.begin_le
  have hsmall := h.small
  unfold addBegin
  split
  · refine inside_addHashes (by omega) (by omega) (fun p _ hle => ?_) (h.positions.keyMap hsize)
    exact ⟨.inl (by omega), by omega⟩
  · exact inside_pure (h.positions.keyMap hsize)

/-- Only the hash map changes. -/
lemma Drafting.inside_updateKeyMap (h : map.Drafting inp) :
    Inside (map.updateKeyMap inp) fun map' => map'.Drafting inp ∧
      ∃ keyMap last, map' = { map with keyMap := keyMap, keyMapLastIdx := last } := by
  have hlast := h.lastPos_eq
  have hcheck := h.check
  have hsmall := h.small
  unfold updateKeyMap
  split
  case isTrue hsize =>
    refine (h.inside_addBegin hsize).bind fun keyMap hmap => ?_
    refine (inside_addHashes (P := map.Known) (by omega) (by omega) (fun p hlo hle => ?_)
      hmap).bind fun keyMap hmap => ?_
    · exact ⟨.inr ((Nat.le_max_left _ _).trans_lt hlo), by omega⟩
    · have hp := h.positions
      exact inside_pure ⟨⟨⟨hp.pos, hp.begin_le, hp.keys, hp.values, hp.keyOnly, fun _ => hmap⟩, hcheck,
        h.large, hsmall⟩, _, _, rfl⟩
  case isFalse => exact inside_pure ⟨h, map.keyMap, map.keyMapLastIdx, rfl⟩

/-- The draft reads the m-gram behind a known position. -/
lemma Drafting.inside_draftTokens {nAccepted : ℤ} (h : map.Drafting inp) (hp : map.Known pos) :
    Inside (map.draftTokens inp pos nAccepted) fun _ => True := by
  have hle := hp.2
  have hcheck := h.check
  exact (inside_tokensFrom (by omega)).mono fun _ _ => trivial

/-- What a draft leaves: the invariant, for the history it was called with at the most. -/
structure After (inp : List ℤ) (map : NgramMap) : Prop where
  positions : map.Positions
  lastDraft : map.LastDraft
  check : map.idxLastCheck ≤ inp.length

lemma Drafting.after (h : map.Drafting inp) (hc : map.lastDraftCreated = false) : After inp map :=
  ⟨h.positions, fun ht => absurd (hc.symm.trans ht) Bool.false_ne_true, h.check.le⟩

lemma Drafting.drafted {offset slot : ℕ} (h : map.Drafting inp) (ho : offset < map.keys.length)
    (hs : slot < ngramMaxValues) : After inp (map.drafted offset slot) := by
  have hp := h.positions
  exact ⟨⟨hp.pos, hp.begin_le, hp.keys, hp.values, hp.keyOnly, hp.keyMap⟩, fun _ => ⟨ho, hs⟩,
    h.check.le⟩

/-- The key that is drafted from: one of the map, or a new one. -/
lemma Drafting.inside_findKey (h : map.Drafting inp) (htake : key.length ≤ map.sizeKey) :
    Inside (findKey inp key map.keys) fun i => i ≤ map.keys.length := by
  refine NgramMap.inside_findKey fun k hk => ?_
  have hle := (h.positions.keys k hk).2
  have hcheck := h.check
  omega

/-- The facts about a key that `setKey` asks for. -/
structure KeyOk (map : NgramMap) (inp : List ℤ) (k : NgramKey) : Prop where
  known : map.Known k.keyIdx
  values : ValuesIn map.sizeValue inp.length k.values
  keyOnly : map.keyOnly = true → ∀ v ∈ k.values, v.valueIdx = 0

lemma Drafting.keyOk (h : map.Drafting inp) {k : NgramKey} (hk : k ∈ map.keys) : map.KeyOk inp k :=
  ⟨h.positions.keys k hk, h.check ▸ h.positions.values k hk, fun ho => h.positions.keyOnly ho k hk⟩

/-- The keys are replaced. -/
lemma Drafting.setKeys {keys : List NgramKey} (h : map.Drafting inp)
    (hkeys : ∀ k ∈ keys, map.KeyOk inp k) : { map with keys := keys }.Drafting inp where
  positions := by
    have hp := h.positions
    refine ⟨hp.pos, hp.begin_le, fun k hk => (hkeys k hk).known, fun k hk => ?_,
      fun ho k hk => (hkeys k hk).keyOnly ho, hp.keyMap⟩
    have hvalues := (hkeys k hk).values
    rwa [← h.check] at hvalues
  check := h.check
  large := h.large
  small := h.small

lemma newKey_ok (hp : map.Known pos) : map.KeyOk inp (newKey map.sizeValue pos) where
  known := hp
  values := by
    refine ⟨length_replicate, fun v hv h0 => ?_⟩
    rw [eq_of_mem_replicate hv] at h0
    exact absurd rfl h0
  keyOnly := by
    intro _ v hv
    rw [eq_of_mem_replicate hv]

/-- The key at `offset` in the list that has a new key when `offset` is behind the others. -/
lemma Drafting.inside_readKey {offset : ℕ} (h : map.Drafting inp) (hp : map.Known pos)
    (ho : offset ≤ map.keys.length) :
    Inside (read (map.withNewKey pos offset) offset) fun k => map.KeyOk inp k ∧
      offset < (map.withNewKey pos offset).length ∧
      ∀ k' ∈ map.withNewKey pos offset, map.KeyOk inp k' := by
  have hall : ∀ k' ∈ map.withNewKey pos offset, map.KeyOk inp k' := by
    intro k' hk'
    unfold withNewKey at hk'
    split at hk'
    · rcases mem_append.mp hk' with hk' | hk'
      · exact h.keyOk hk'
      · rw [mem_singleton.mp hk']
        exact newKey_ok hp
    · exact h.keyOk hk'
  have hlt : offset < (map.withNewKey pos offset).length := by
    unfold withNewKey
    split
    · rw [length_append, length_singleton]
      omega
    · omega
  exact (inside_read hlt).mono fun k hk => ⟨hall k (mem_of_getElem? hk), hlt, hall⟩

/-- What `draft` does at a known position of the key. -/
lemma Drafting.inside_draftAt {debug : Bool} (h : map.Drafting inp)
    (hc : map.lastDraftCreated = false) (hp : map.Known pos) :
    Inside (map.draftAt debug inp key pos) fun r => After inp r.1 := by
  have htake := length_take_le map.sizeKey key
  have hle := hp.2
  have hcheck := h.check
  refine (h.inside_findKey htake).bind fun offset ho => ?_
  refine (h.inside_readKey hp ho).bind fun k hk => ?_
  obtain ⟨hkey, hlt, hall⟩ := hk
  -- the key with one more hit
  set k1 : NgramKey := { k with keyNum := count k.keyNum } with hk1
  have hkey1 : map.KeyOk inp k1 := ⟨hkey.known, hkey.values, hkey.keyOnly⟩
  have hall1 : ∀ k' ∈ (map.withNewKey pos offset).set offset k1, map.KeyOk inp k' := by
    intro k' hk'
    rcases mem_or_eq_of_mem_set hk' with hk' | rfl
    · exact hall k' hk'
    · exact hkey1
  have h1 := h.setKeys hall1
  have hlt1 : offset < ((map.withNewKey pos offset).set offset k1).length := by
    rwa [length_set]
  set map1 : NgramMap := { map with keys := (map.withNewKey pos offset).set offset k1 } with hmap1
  have hslots : ∀ slot < ngramMaxValues, slot < k1.values.length := fun slot hs => by
    rwa [hkey1.values.length]
  dsimp only
  split
  · refine (inside_read (hslots 0 (by decide))).bind fun v _ => ?_
    refine (h1.inside_draftTokens hp).bind fun draft _ => ?_
    exact inside_pure (h1.drafted hlt1 (by decide))
  split
  · exact inside_pure (h1.after hc)
  · next honly _ =>
    refine (inside_countValues htake (by omega) hkey1.values).bind fun values hvalues => ?_
    -- the key with its values counted
    set k2 : NgramKey := { k1 with values := values, statIdx := pos } with hk2
    have hall2 : ∀ k' ∈ map1.keys.set offset k2, map1.KeyOk inp k' := by
      intro k' hk'
      rcases mem_or_eq_of_mem_set hk' with hk' | rfl
      · have hk := hall1 k' hk'
        exact ⟨hk.known, hk.values, hk.keyOnly⟩
      · exact ⟨hkey.known, hvalues, fun ho => absurd ho honly⟩
    have h2 := h1.setKeys hall2
    have hslot := slotMax_lt hvalues.length
    refine (inside_printValues hvalues).bind fun _ _ => ?_
    split
    · exact inside_pure (h2.after hc)
    · refine (inside_read (by rwa [hvalues.length])).bind fun v _ => ?_
      refine (h2.inside_draftTokens hp).bind fun draft _ => ?_
      exact inside_pure (h2.drafted (by rwa [length_set]) hslot)

lemma inside_draft {debug : Bool} {sampled : ℤ} (h : map.Positions)
    (hle : map.idxLastCheck ≤ inp.length) :
    Inside (map.draft debug inp sampled) fun r => After inp r.1 := by
  have hpos := h.pos
  unfold draft
  set map1 : NgramMap := { map with
    lastDraftCreated := false, lastDraftKeyIdx := 0, lastDraftValueIdx := 0 } with hmap1
  have h1 : map1.Positions := ⟨h.pos, h.begin_le, h.keys, h.values, h.keyOnly, h.keyMap⟩
  dsimp only
  split
  · exact inside_pure ⟨h1, fun ht => absurd ht Bool.false_ne_true, hle⟩
  · next hlarge =>
    refine inside_abortIf.bind fun _ hsmall => inside_abortIf.bind fun _ _ => ?_
    have h2 : { map1 with idxLastCheck := inp.length }.Drafting inp :=
      ⟨h1.check hle, rfl, Nat.not_lt.mp hlarge, by omega⟩
    have hn : map1.sizeKey = map.sizeKey := rfl
    have hstart : addSize (subSize inp.length map1.sizeKey) 1 = inp.length - map1.sizeKey + 1 := by
      rw [subSize_of_le (by omega) (by omega), addSize_of_lt (by omega)]
    refine (inside_tokensFrom (by omega)).bind fun key hkey => ?_
    refine inside_abortIf.bind fun _ _ => ?_
    have hlen : (key ++ [sampled]).length = map1.sizeKey := by
      rw [length_append, length_singleton]
      omega
    refine (h2.inside_searchKey hlen).bind fun pos hp => ?_
    refine h2.inside_updateKeyMap.bind fun map2 hmap2 => ?_
    obtain ⟨h3, keyMap, last, rfl⟩ := hmap2
    split
    · exact inside_pure (h3.after rfl)
    · next h0 => exact h3.inside_draftAt rfl (hp h0)

lemma inside_accept {nAccepted len : ℕ} (h : map.Positions) (hl : map.LastDraft)
    (hle : map.idxLastCheck ≤ len) :
    Inside (map.accept nAccepted) fun map' => map'.Positions ∧ map'.LastDraft ∧
      map'.idxLastCheck ≤ len := by
  unfold accept
  split
  · next hc =>
    obtain ⟨hkey, hvalue⟩ := hl hc
    refine (inside_read hkey).bind fun k hk => ?_
    have hmem := mem_of_getElem? hk
    have hlen := (h.values k hmem).length
    refine (inside_read (by rwa [hlen])).bind fun v hv => ?_
    set k1 : NgramKey := { k with
      values := k.values.set map.lastDraftValueIdx { v with nAccepted := int16 nAccepted } }
    have hvalues : ∀ v' ∈ k1.values, ∃ v0 ∈ k.values, v'.valueIdx = v0.valueIdx := by
      intro v' hv'
      rcases mem_or_eq_of_mem_set hv' with hv' | rfl
      · exact ⟨v', hv', rfl⟩
      · exact ⟨v, mem_of_getElem? hv, rfl⟩
    have hkeys : ∀ k' ∈ map.keys.set map.lastDraftKeyIdx k1, k' ∈ map.keys ∨ k' = k1 :=
      fun k' hk' => mem_or_eq_of_mem_set hk'
    refine inside_pure ⟨⟨h.pos, h.begin_le, fun k' hk' => ?_, fun k' hk' => ?_,
      fun ho k' hk' => ?_, h.keyMap⟩, fun _ => ⟨?_, hvalue⟩, hle⟩
    · rcases hkeys k' hk' with hk' | rfl
      · exact h.keys k' hk'
      · exact h.keys k hmem
    · rcases hkeys k' hk' with hk' | rfl
      · exact h.values k' hk'
      · refine ⟨by rw [length_set, hlen], fun v' hv' h0 => ?_⟩
        obtain ⟨v0, hv0, heq⟩ := hvalues v' hv'
        rw [heq] at h0 ⊢
        exact (h.values k hmem).le v0 hv0 h0
    · rcases hkeys k' hk' with hk' | rfl
      · exact h.keyOnly ho k' hk'
      · intro v' hv'
        obtain ⟨v0, hv0, heq⟩ := hvalues v' hv'
        rw [heq]
        exact h.keyOnly ho k hmem v0 hv0
    · rwa [length_set]
  · exact inside_pure ⟨h, hl, hle⟩

/-! ## The start of a generation -/

/-- Behind the deleted value stand the values that were behind it, then a cleared one. -/
lemma getElem?_deleteValue {j k : ℕ} {v : NgramValue} (hj : j < values.length) (hk : j ≤ k)
    (hv : (deleteValue values j)[k]? = some v) : v.valueIdx = 0 ∨ values[k + 1]? = some v := by
  unfold deleteValue at hv
  rw [getElem?_append, length_eraseIdx_of_lt hj] at hv
  split at hv
  · rw [getElem?_eraseIdx_of_ge hk] at hv
    exact .inr hv
  · obtain ⟨v0, -, rfl⟩ := map_eq_some_iff.mp (mem_toList.mp (mem_of_getElem? hv))
    exact .inl rfl

lemma mem_deleteValue {j : ℕ} {v : NgramValue} (hv : v ∈ deleteValue values j) :
    v.valueIdx = 0 ∨ v ∈ values := by
  rcases mem_append.mp hv with hv | hv
  · exact .inr (mem_of_mem_eraseIdx hv)
  · obtain ⟨v0, -, rfl⟩ := map_eq_some_iff.mp (mem_toList.mp hv)
    exact .inl rfl

lemma length_deleteValue {j : ℕ} (hj : j < values.length) :
    (deleteValue values j).length = values.length := by
  have hne : values ≠ [] := ne_nil_of_length_pos (by omega)
  obtain ⟨v, hv⟩ : ∃ v, values.getLast? = some v := ⟨_, getLast?_eq_some_getLast hne⟩
  rw [deleteValue, hv, length_append, length_eraseIdx_of_lt hj]
  simp only [map_some, toList_some, length_singleton]
  omega

/-- The values that stay in use are those below the bound.  The values from `j` on have been
looked at. -/
lemma cleanValues_spec (cleanup : ℕ) : ∀ (j : ℕ) (values : List NgramValue), j ≤ values.length →
    (∀ k ≥ j, ∀ v, values[k]? = some v → v.valueIdx = 0 ∨ v.valueIdx < cleanup) →
    (cleanValues cleanup j values).length = values.length ∧
      ∀ v ∈ cleanValues cleanup j values, v.valueIdx = 0 ∨ v.valueIdx < cleanup ∧ v ∈ values
  | 0, values, _, h => by
    refine ⟨rfl, fun v hv => ?_⟩
    obtain ⟨k, hk⟩ := getElem?_of_mem hv
    exact (h k (Nat.zero_le k) v hk).imp_right fun hlt => ⟨hlt, hv⟩
  | j + 1, values, hj, h => by
    unfold cleanValues
    split
    case isTrue hdel =>
      have hlen : (deleteValue values j).length = values.length := length_deleteValue (by omega)
      have hrec := cleanValues_spec cleanup j (deleteValue values j) (by omega) fun k hk v hv => ?_
      · refine ⟨hrec.1.trans hlen, fun v hv => ?_⟩
        rcases hrec.2 v hv with h0 | ⟨hlt, hmem⟩
        · exact .inl h0
        · exact (mem_deleteValue hmem).imp_right fun hmem => ⟨hlt, hmem⟩
      · rcases getElem?_deleteValue (by omega) hk hv with h0 | hv
        · exact .inl h0
        · exact h (k + 1) (by omega) v hv
    case isFalse hkeep =>
      refine cleanValues_spec cleanup j values (by omega) fun k hk v hv => ?_
      rcases Nat.eq_or_lt_of_le hk with rfl | hlt
      · rw [hv, any_some, decide_eq_true_eq, not_and_or, not_not, Nat.not_le] at hkeep
        exact hkeep
      · exact h k hlt v hv

/-- A key that is kept begins before the bound, and so do its values. -/
lemma cleanKey_spec {keyOnly : Bool} {cleanup : ℕ} {k k' : NgramKey}
    (hlen : k.values.length = ngramMaxValues) (h : cleanKey keyOnly cleanup k = some k') :
    k.keyIdx < cleanup ∧ k'.keyIdx = k.keyIdx ∧ k'.values.length = ngramMaxValues ∧
      ∀ v ∈ k'.values, v.valueIdx = 0 ∨ v ∈ k.values ∧
        (keyOnly = false → v.valueIdx < cleanup) := by
  unfold cleanKey at h
  split at h
  · cases h
  next hlt =>
  have hlt := Nat.not_le.mp hlt
  split at h
  · next ho =>
    cases h
    exact ⟨hlt, rfl, hlen, fun v hv => .inr ⟨hv, fun hf => absurd (ho.symm.trans hf) (by decide)⟩⟩
  · have hclean := cleanValues_spec cleanup ngramMaxValues k.values hlen.ge fun j hj v hv => ?_
    · dsimp only at h
      split at h
      · cases h
      · cases h
        exact ⟨hlt, rfl, hclean.1.trans hlen, fun v hv =>
          (hclean.2 v hv).imp_right fun hv => ⟨hv.2, fun _ => hv.1⟩⟩
    · rw [getElem?_eq_none (by omega)] at hv
      cases hv

lemma visitedKeys_eq {size : ℕ} (h : size ≤ 2 ^ 31) : visitedKeys size = size := by
  have hmod : Int.bmod ((size : ℤ) - 1) (2 ^ 32) = (size : ℤ) - 1 :=
    Int.bmod_eq_of_le (by omega) (by omega)
  unfold visitedKeys
  omega

/-- An n-gram before the cleanup bound lies in the new history. -/
lemma Known.le_of_lt_beginCleanup {i sizeBegin : ℕ} (hk : map.Known i)
    (hlt : i < map.beginCleanup sizeBegin) :
    i + map.sizeKey + map.sizeValue + 1 ≤ sizeBegin := by
  have hside := hk.1
  unfold beginCleanup at hlt
  split at hlt
  · split at hlt <;> omega
  · omega

/-- A history that is not shorter than what was checked keeps every position. -/
lemma Positions.begin_grown {tokens : List ℤ} (h : map.Positions)
    (hle : map.idxLastCheck ≤ tokens.length) : (map.begin tokens).Positions := by
  have hshrunk : ¬ tokens.length < map.idxLastCheck := Nat.not_lt.mpr hle
  have hknown : ∀ {i}, map.Known i → (map.begin tokens).Known i := fun hk =>
    ⟨.inl (hk.2.trans hle), hk.2.trans hle⟩
  have hkeys : (map.begin tokens).keys = map.keys := by simp [begin, hshrunk]
  have hmap : (map.begin tokens).keyMap = map.keyMap := by simp [begin, hshrunk]
  refine ⟨h.pos, le_rfl, fun k hk => ?_, fun k hk => ?_, fun ho k hk => ?_, fun hs i hi => ?_⟩
  · rw [hkeys] at hk
    exact hknown (h.keys k hk)
  · rw [hkeys] at hk
    have hv := h.values k hk
    exact ⟨hv.length, fun v hv' h0 => (hv.le v hv' h0).trans hle⟩
  · rw [hkeys] at hk
    exact h.keyOnly ho k hk
  · rw [hmap] at hi ⊢
    exact hknown (h.keyMap hs i hi)

/-- No value that is kept because it begins before the start of the last generation ends behind
the new history of `sizeBegin` tokens. -/
def Cut (map : NgramMap) (sizeBegin : ℕ) : Prop :=
  map.sizeLastBegin ≤ sizeBegin → ∀ k ∈ map.keys, k.keyIdx < map.sizeLastBegin →
    ∀ v ∈ k.values, v.valueIdx ≠ 0 → v.valueIdx < map.sizeLastBegin →
      v.valueIdx + map.sizeValue ≤ sizeBegin

/-- **A shorter history keeps the invariant** when no value that begins before the start of the
last generation ends behind the new history. -/
theorem Positions.begin_shrunk {tokens : List ℤ} (h : map.Positions)
    (hlt : tokens.length < map.idxLastCheck) (hsize : map.keys.length ≤ 2 ^ 31)
    (hrep : map.Cut tokens.length) : (map.begin tokens).Positions := by
  have hknown : ∀ {i}, map.Known i → i < map.beginCleanup tokens.length →
      (map.begin tokens).Known i := fun hk hi =>
    ⟨.inl (hk.le_of_lt_beginCleanup hi), hk.le_of_lt_beginCleanup hi⟩
  have hkeys : (map.begin tokens).keys =
      map.keys.filterMap (cleanKey map.keyOnly (map.beginCleanup tokens.length)) := by
    simp only [begin, hlt, decide_true, if_true]
    rw [visitedKeys_eq hsize, take_length, drop_length, append_nil]
  have hclean : ∀ k' ∈ (map.begin tokens).keys, ∃ k ∈ map.keys,
      cleanKey map.keyOnly (map.beginCleanup tokens.length) k = some k' := by
    intro k' hk'
    rw [hkeys] at hk'
    exact mem_filterMap.mp hk'
  have hvalue : ∀ k ∈ map.keys, k.keyIdx < map.beginCleanup tokens.length → ∀ v ∈ k.values,
      v.valueIdx ≠ 0 → v.valueIdx < map.beginCleanup tokens.length →
      v.valueIdx + map.sizeValue ≤ tokens.length := by
    intro k hk hidx v hv h0 hlt
    by_cases hle : map.sizeLastBegin ≤ tokens.length
    · have heq : map.beginCleanup tokens.length = map.sizeLastBegin := if_neg (by omega)
      rw [heq] at hidx hlt
      exact hrep hle k hk hidx v hv h0 hlt
    · unfold beginCleanup at hlt
      rw [if_pos (by omega)] at hlt
      split at hlt <;> omega
  refine ⟨h.pos, le_rfl, fun k' hk' => ?_, fun k' hk' => ?_, fun ho k' hk' v hv => ?_,
    fun hs i hi => ?_⟩
  · obtain ⟨k, hk, hc⟩ := hclean k' hk'
    obtain ⟨hidx, heq, -, -⟩ := cleanKey_spec (h.values k hk).length hc
    rw [heq]
    exact hknown (h.keys k hk) hidx
  · obtain ⟨k, hk, hc⟩ := hclean k' hk'
    obtain ⟨hidx, -, hlen, hv⟩ := cleanKey_spec (h.values k hk).length hc
    refine ⟨hlen, fun v hmem h0 => ?_⟩
    rcases hv v hmem with hz | ⟨hold, hbound⟩
    · exact absurd hz h0
    · have ho : map.keyOnly = false := by
        rw [← Bool.not_eq_true]
        exact fun ho => h0 (h.keyOnly ho k hk v hold)
      exact hvalue k hk hidx v hold h0 (hbound ho)
  · obtain ⟨k, hk, hc⟩ := hclean k' hk'
    obtain ⟨-, -, -, hold⟩ := cleanKey_spec (h.values k hk).length hc
    rcases hold v hv with hz | ⟨hold, -⟩
    · exact hz
    · exact h.keyOnly ho k hk v hold
  · have hmap : (map.begin tokens).keyMap = fun i =>
        if map.beginCleanup tokens.length ≤ map.keyMap i then 0 else map.keyMap i := by
      have hs' : 0 < map.keyMapSize := hs
      simp [begin, hlt, hs']
    simp only [hmap] at hi ⊢
    split at hi
    · exact absurd rfl hi
    · next hb =>
      rw [if_neg hb]
      exact hknown (h.keyMap hs i hi) (Nat.not_le.mp hb)

end NgramMap

end Llama
