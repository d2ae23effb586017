import Llama.ServerTokens.Prefix

/-!
# Tokens and positions

A media chunk takes as many places in the token list as it has tokens, and may take another number
of positions.  `pos_next` goes from a number of tokens to the position behind them, and
`size_up_to_pos` goes back.

`size_up_to_pos` looks at the position only after it has gone over the first token or chunk.  The
position 0 is the only one that shows it.
-/

namespace Llama

open Option

/-- What `mtmd` tells of a chunk. -/
structure ChunkApi (C : Type) where
  id : C → List UInt8
  nTokens : C → ℕ
  nPos : C → ℤ
  isText : C → Bool

/-- What a `MediaChunk` keeps of a chunk. -/
def ChunkApi.toMedia {C : Type} (api : ChunkApi C) (chunk : C) : MediaChunk :=
  ⟨api.id chunk, api.nTokens chunk⟩

/-- `server_tokens`, with whole chunks. -/
structure ChunkTokens (C : Type) where
  hasMtmd : Bool
  mapIdxToMedia : AList fun _ : ℕ => C
  tokens : List ℤ

namespace ChunkTokens

open MediaTokens (Failure)

variable {C : Type}

/-! ## The model -/

/-- The indices of the map, in its order. -/
def keys (st : ChunkTokens C) : List ℕ := st.mapIdxToMedia.keys.mergeSort (· ≤ ·)

section Model

variable (api : ChunkApi C) (st : ChunkTokens C)

/-- One round of the loops: over the chunk or the token at a place. -/
def advance (idx : ℕ) (pos : ℤ) : ℕ × ℤ :=
  match st.mapIdxToMedia.lookup idx with
  | some chunk => (idx + api.nTokens chunk, pos + api.nPos chunk)
  | none => (idx + 1, pos + 1)

/-- The loop of `pos_next`. -/
def posLoop (nTokens : ℕ) : ℕ → ℕ → ℤ → Except Failure ℤ
  | 0, idx, pos => if idx < nTokens then .error .unfinished else .ok pos
  | fuel + 1, idx, pos =>
    if idx < nTokens then
      let next := st.advance api idx pos
      posLoop nTokens fuel next.1 next.2
    else .ok pos

/-- The loop over all chunks: the chunk at an index of the map. -/
def addChunk (res : ℤ) (idx : ℕ) : ℤ :=
  match st.mapIdxToMedia.lookup idx with
  | some chunk => res + (api.nPos chunk - api.nTokens chunk)
  | none => res

/-- `pos_next`.  The loop makes no more than `nTokens` rounds. -/
def posNext (nTokens : ℤ) : Except Failure ℤ :=
  if ¬ st.hasMtmd then
    if nTokens < 0 then .ok st.tokens.length else .ok nTokens
  else if nTokens < 0 then
    .ok (st.keys.foldl (st.addChunk api) st.tokens.length)
  else if ¬ nTokens ≤ st.tokens.length then .error .aborted
  else posLoop api st nTokens.toNat nTokens.toNat 0 0

/-- The loop of `size_up_to_pos`. -/
def sizeLoop (maxPos : ℤ) : ℕ → ℕ → ℤ → Except Failure ℕ
  | 0, idx, _ => if idx < st.tokens.length then .error .unfinished else .ok idx
  | fuel + 1, idx, pos =>
    if idx < st.tokens.length then
      let next := st.advance api idx pos
      if maxPos ≤ next.2 then .ok next.1 else sizeLoop maxPos fuel next.1 next.2
    else .ok idx

/-- `size_up_to_pos`, for a position that is not negative. -/
def sizeUpToPos (maxPos : ℤ) : Except Failure ℕ :=
  if ¬ st.hasMtmd then .ok (min maxPos.toNat st.tokens.length)
  else sizeLoop api st maxPos st.tokens.length 0 0

/-- The list with what `MediaTokens` keeps of the chunks. -/
def toMedia : MediaTokens where
  hasMtmd := st.hasMtmd
  mapIdxToMedia := ⟨st.mapIdxToMedia.entries.map (.map id fun _ => api.toMedia),
    st.mapIdxToMedia.nodupKeys.map₂ fun _ => api.toMedia⟩
  tokens := st.tokens

/-- What `validate` asks for: each chunk has its null tokens, and it has positions. -/
structure WellFormed : Prop where
  media : (st.toMedia api).WellFormed
  pos : ∀ s c, st.mapIdxToMedia.lookup s = some c → 0 < api.nPos c

/-- A place that is not inside of a chunk. -/
def Boundary (n : ℕ) : Prop := n ≤ st.tokens.length ∧ ¬ (st.toMedia api).Inside n

/-- The position behind a number of tokens: a chunk counts at its first place. -/
def posAt : ℕ → ℤ
  | 0 => 0
  | n + 1 => st.addChunk api (posAt n) n + 1

end Model

variable {api : ChunkApi C} {st : ChunkTokens C} {idx n n' fuel : ℕ} {p : ℤ} {c : C}

/-! ## The walk over the pieces -/

lemma lookup_toMedia (s : ℕ) :
    (st.toMedia api).mapIdxToMedia.lookup s = (st.mapIdxToMedia.lookup s).map api.toMedia :=
  List.dlookup_map₂ (f := fun _ => api.toMedia) s

lemma boundary_zero : st.Boundary api 0 := ⟨Nat.zero_le _, MediaTokens.not_inside_zero⟩

section

variable (h : st.WellFormed api)

include h

/-- Inside of a chunk the positions go with the places. -/
lemma posAt_inside (hc : st.mapIdxToMedia.lookup idx = some c) {k : ℕ}
    (hk : k + 1 ≤ api.nTokens c) :
    st.posAt api (idx + (k + 1)) = st.posAt api idx + (api.nPos c - api.nTokens c) + (k + 1) := by
  induction k with
  | zero =>
    rw [posAt, addChunk, hc]
    push_cast
    omega
  | succ k ih =>
    have hnone : st.mapIdxToMedia.lookup (idx + (k + 1)) = none := by
      by_contra hne
      obtain ⟨d, hd⟩ := ne_none_iff_exists'.mp hne
      have hmc : (st.toMedia api).mapIdxToMedia.lookup idx = some (api.toMedia c) := by
        rw [lookup_toMedia, hc, map_some]
      have hmd : (st.toMedia api).mapIdxToMedia.lookup (idx + (k + 1)) = some (api.toMedia d) := by
        rw [lookup_toMedia, hd, map_some]
      have hpos := h.media.pos _ _ hmd
      have hlt : idx + (k + 1) < idx + (api.toMedia c).nTokens := by
        show idx + (k + 1) < idx + api.nTokens c
        omega
      have heq := h.media.unique _ _ _ _ (idx + (k + 1)) ⟨hmc, by omega, hlt⟩
        ⟨hmd, Nat.le_refl _, by omega⟩
      omega
    rw [← Nat.add_assoc, posAt, addChunk, hnone]
    push_cast
    omega

/-- **One round** of the loops goes from a boundary to the next one, and to its position. -/
theorem advance_spec (hb : st.Boundary api idx)
    (hlt : idx < st.tokens.length) :
    ∃ next, st.advance api idx (st.posAt api idx) = (next, st.posAt api next) ∧
      st.Boundary api next ∧ idx < next ∧ st.posAt api idx < st.posAt api next ∧
      ∀ k, st.Boundary api k → idx < k → next ≤ k := by
  obtain ⟨-, hin⟩ := hb
  rw [advance]
  cases hc : st.mapIdxToMedia.lookup idx with
  | some c =>
    have hmc : (st.toMedia api).mapIdxToMedia.lookup idx = some (api.toMedia c) := by
      rw [lookup_toMedia, hc, map_some]
    have htok : 0 < api.nTokens c := h.media.pos _ _ hmc
    have hpos := h.pos _ _ hc
    have hend : st.posAt api (idx + api.nTokens c) = st.posAt api idx + api.nPos c := by
      have hinside := posAt_inside h hc (k := api.nTokens c - 1) (by omega)
      rw [Nat.sub_add_cancel htok] at hinside
      omega
    refine ⟨idx + api.nTokens c, by rw [hend], ⟨h.media.le_length hmc, ?_⟩, by omega, by omega, ?_⟩
    · exact h.media.not_inside_end hmc
    · intro k hk hlt
      by_contra hno
      exact hk.2 ⟨idx, _, hmc, hlt, Nat.not_le.mp hno⟩
  | none =>
    have hend : st.posAt api (idx + 1) = st.posAt api idx + 1 := by
      rw [posAt, addChunk, hc]
    refine ⟨idx + 1, by rw [hend], ⟨hlt, ?_⟩, by omega, by omega, fun k _ hk => hk⟩
    refine h.media.not_inside_succ fun hnull => hin ((h.media.lookup_eq_none_iff hnull).mp ?_)
    rw [lookup_toMedia, hc, map_none]

lemma posAt_lt (hn : st.Boundary api n) (hn' : st.Boundary api n')
    (hlt : n < n') : st.posAt api n < st.posAt api n' := by
  induction hd : n' - n using Nat.strong_induction_on generalizing n with
  | h d ih =>
    obtain ⟨next, -, hnext, hgt, hpos, hleast⟩ := advance_spec h hn (by have := hn'.1; omega)
    rcases Nat.eq_or_lt_of_le (hleast n' hn' hlt) with rfl | hless
    · exact hpos
    · exact hpos.trans (ih (n' - next) (by omega) hnext hless rfl)

lemma posLoop_eq (hn : st.Boundary api n) (hb : st.Boundary api idx)
    (hle : idx ≤ n) (hfuel : n ≤ idx + fuel) :
    posLoop api st n fuel idx (st.posAt api idx) = .ok (st.posAt api n) := by
  induction fuel generalizing idx with
  | zero =>
    obtain rfl : idx = n := by omega
    rw [posLoop, if_neg (Nat.lt_irrefl _)]
  | succ fuel ih =>
    rw [posLoop]
    split_ifs with hlt
    · obtain ⟨next, hnext, hbnext, hgt, -, hleast⟩ := advance_spec h hb (by have := hn.1; omega)
      rw [hnext]
      exact ih hbnext (hleast n hn hlt) (by omega)
    · rw [show idx = n by omega]

/-- What the loop of `size_up_to_pos` finds behind a place. -/
lemma sizeLoop_spec (hb : st.Boundary api idx)
    (hlt : idx < st.tokens.length) (hfuel : st.tokens.length ≤ idx + fuel) :
    ∃ n, sizeLoop api st p fuel idx (st.posAt api idx) = .ok n ∧ st.Boundary api n ∧ idx < n ∧
      (p ≤ st.posAt api n ∨ n = st.tokens.length) ∧
      ∀ k, st.Boundary api k → idx < k → k < n → st.posAt api k < p := by
  induction fuel generalizing idx with
  | zero => omega
  | succ fuel ih =>
    obtain ⟨next, hnext, hbnext, hgt, -, hleast⟩ := advance_spec h hb hlt
    rw [sizeLoop, hnext]
    dsimp only
    split_ifs with hp
    · refine ⟨next, rfl, hbnext, hgt, .inl hp, fun k hk hkl hku => ?_⟩
      exact absurd (hleast k hk hkl) (Nat.not_le.mpr hku)
    rcases Nat.eq_or_lt_of_le hbnext.1 with hend | hless
    · refine ⟨next, ?_, hbnext, hgt, .inr hend, fun k hk hkl hku => ?_⟩
      · cases fuel with
        | zero => rw [sizeLoop, if_neg (by omega)]
        | succ fuel => rw [sizeLoop, if_neg (by omega)]
      · exact absurd (hleast k hk hkl) (Nat.not_le.mpr hku)
    · obtain ⟨n, heq, hbn, hlt', hstop, hbefore⟩ := ih hbnext hless (by omega)
      refine ⟨n, heq, hbn, hgt.trans hlt', hstop, fun k hk hkl hku => ?_⟩
      rcases Nat.eq_or_lt_of_le (hleast k hk hkl) with rfl | hk'
      · exact Int.not_le.mp hp
      · exact hbefore k hk hk' hku

end

lemma foldl_posAt {l : List ℕ} (hnodup : l.Nodup) (hlt : ∀ k ∈ l, k < n)
    (hmem : ∀ k < n, st.mapIdxToMedia.lookup k ≠ none → k ∈ l) (res : ℤ) :
    l.foldl (st.addChunk api) res = res + (st.posAt api n - n) := by
  induction n generalizing l res with
  | zero =>
    cases l with
    | nil => exact (Int.add_zero res).symm
    | cons k l => exact absurd (hlt k List.mem_cons_self) (Nat.not_lt_zero k)
  | succ n ih =>
    by_cases hn : n ∈ l
    · have hperm := List.perm_cons_erase hn
      have hrest : ∀ k ∈ l.erase n, k < n := fun k hk => by
        obtain ⟨hne, hk⟩ := hnodup.mem_erase_iff.mp hk
        have := hlt k hk
        omega
      rw [hperm.foldl_eq' (fun x _ y _ z => ?_) res, List.foldl_cons,
        ih (hnodup.erase n) hrest fun k hk hne => ?_]
      · rw [posAt, addChunk, addChunk]
        cases st.mapIdxToMedia.lookup n with
        | some c =>
          dsimp only
          omega
        | none =>
          dsimp only
          omega
      · exact (List.mem_erase_of_ne (Nat.ne_of_lt hk)).mpr (hmem k (by omega) hne)
      · unfold addChunk
        cases st.mapIdxToMedia.lookup x <;> cases st.mapIdxToMedia.lookup y <;> dsimp only
        omega
    · have hnone : st.mapIdxToMedia.lookup n = none := by
        by_contra hne
        exact hn (hmem n (Nat.lt_succ_self n) hne)
      have hrest : ∀ k ∈ l, k < n := fun k hk => by
        have hne : k ≠ n := fun heq => hn (heq ▸ hk)
        have := hlt k hk
        omega
      rw [ih hnodup hrest (fun k hk => hmem k (by omega)), posAt, addChunk, hnone]
      push_cast
      omega

/-- The sum over all chunks gives the position behind the last token. -/
lemma foldl_keys (h : st.WellFormed api) :
    st.keys.foldl (st.addChunk api) st.tokens.length = st.posAt api st.tokens.length := by
  have hperm : st.keys.Perm st.mapIdxToMedia.keys := List.mergeSort_perm _ _
  have hlookup : ∀ k, k ∈ st.keys ↔ st.mapIdxToMedia.lookup k ≠ none := fun k => by
    rw [hperm.mem_iff, ← AList.mem_keys, Ne, AList.lookup_eq_none, not_not]
  rw [foldl_posAt (n := st.tokens.length) (hperm.nodup_iff.mpr st.mapIdxToMedia.keys_nodup)]
  · omega
  · intro k hk
    obtain ⟨c, hc⟩ := ne_none_iff_exists'.mp ((hlookup k).mp hk)
    have hmc : (st.toMedia api).mapIdxToMedia.lookup k = some (api.toMedia c) := by
      rw [lookup_toMedia, hc, map_some]
    have hle := h.media.le_length hmc
    have hpos := h.media.pos _ _ hmc
    show k < (st.toMedia api).tokens.length
    omega
  · exact fun k _ hne => (hlookup k).mpr hne

/-! ## Back from a position -/

section

variable (h : st.WellFormed api)

include h

lemma lookup_eq_none (hmtmd : st.hasMtmd = false) (k : ℕ) : st.mapIdxToMedia.lookup k = none := by
  have hnone := h.media.noMedia hmtmd k
  rw [lookup_toMedia, map_eq_none_iff] at hnone
  exact hnone

lemma posAt_eq (hmtmd : st.hasMtmd = false) (n : ℕ) : st.posAt api n = n := by
  induction n with
  | zero => rfl
  | succ n ih =>
    rw [posAt, addChunk, lookup_eq_none h hmtmd, ih]
    rfl

lemma boundary_iff (hmtmd : st.hasMtmd = false) : st.Boundary api n ↔ n ≤ st.tokens.length := by
  refine and_iff_left ?_
  rintro ⟨s, c, hs, -⟩
  rw [h.media.noMedia hmtmd] at hs
  cases hs

/-- **`pos_next`** of a boundary is the position behind it. -/
theorem posNext_eq (hb : st.Boundary api n) : st.posNext api n = .ok (st.posAt api n) := by
  have hneg : ¬ (n : ℤ) < 0 := by omega
  have hle : ¬ ¬ (n : ℤ) ≤ st.tokens.length := not_not.mpr (Int.ofNat_le.mpr hb.1)
  rw [posNext]
  split_ifs with hmtmd
  · exact posLoop_eq h hb boundary_zero (Nat.zero_le n) (by omega)
  · rw [posAt_eq h (Bool.eq_false_iff.mpr hmtmd)]

lemma boundary_length : st.Boundary api st.tokens.length := by
  refine ⟨Nat.le_refl _, ?_⟩
  rintro ⟨s, c, hs, -, hgt⟩
  have hle := h.media.le_length hs
  have hlength : (st.toMedia api).tokens.length = st.tokens.length := rfl
  omega

end

/-- The least boundary whose position is not below, or all tokens when there is none. -/
def IsSizeUpTo (api : ChunkApi C) (st : ChunkTokens C) (p : ℤ) (n : ℕ) : Prop :=
  (st.Boundary api n ∧ (∃ q, st.posNext api n = .ok q ∧ p ≤ q) ∧
      ∀ k, st.Boundary api k → k < n → ∃ q, st.posNext api k = .ok q ∧ q < p) ∨
    n = st.tokens.length ∧ ∀ k, st.Boundary api k → ∃ q, st.posNext api k = .ok q ∧ q < p

section

variable (h : st.WellFormed api)

include h

lemma isSizeUpTo_iff : IsSizeUpTo api st p n ↔
      st.Boundary api n ∧ (p ≤ st.posAt api n ∨ n = st.tokens.length) ∧
        ∀ k, st.Boundary api k → k < n → st.posAt api k < p := by
  have hex : ∀ {k} {P : ℤ → Prop}, st.Boundary api k →
      ((∃ q, st.posNext api k = .ok q ∧ P q) ↔ P (st.posAt api k)) := fun hk => by
    rw [posNext_eq h hk]
    exact ⟨fun ⟨q, hq, hP⟩ => (Except.ok.inj hq) ▸ hP, fun hP => ⟨_, rfl, hP⟩⟩
  constructor
  · rintro (⟨hb, hq, hbefore⟩ | ⟨rfl, hall⟩)
    · exact ⟨hb, .inl ((hex hb).mp hq), fun k hk hlt => (hex hk).mp (hbefore k hk hlt)⟩
    · exact ⟨boundary_length h, .inr rfl, fun k hk _ => (hex hk).mp (hall k hk)⟩
  · rintro ⟨hb, hstop, hbefore⟩
    by_cases hp : p ≤ st.posAt api n
    · exact .inl ⟨hb, (hex hb).mpr hp, fun k hk hlt => (hex hk).mpr (hbefore k hk hlt)⟩
    · have hn := hstop.resolve_left hp
      refine .inr ⟨hn, fun k hk => (hex hk).mpr ?_⟩
      rcases Nat.eq_or_lt_of_le (hn ▸ hk.1 : k ≤ n) with rfl | hlt
      · exact Int.not_le.mp hp
      · exact hbefore k hk hlt

/-- There is only one. -/
lemma IsSizeUpTo.eq (hn : IsSizeUpTo api st p n)
    (hn' : IsSizeUpTo api st p n') : n = n' := by
  obtain ⟨hb, hstop, hbefore⟩ := (isSizeUpTo_iff h).mp hn
  obtain ⟨hb', hstop', hbefore'⟩ := (isSizeUpTo_iff h).mp hn'
  have hle := hb.1
  have hle' := hb'.1
  rcases Nat.lt_trichotomy n n' with hlt | heq | hgt
  · have hpos := hbefore' n hb hlt
    rcases hstop with hstop | hstop <;> omega
  · exact heq
  · have hpos := hbefore n' hb' hgt
    rcases hstop' with hstop' | hstop' <;> omega

/-- What `size_up_to_pos` finds. -/
lemma sizeUpToPos_spec (hp : 0 ≤ p)
    (hok : st.hasMtmd = false ∨ st.tokens = [] ∨ 0 < p) :
    ∃ n, st.sizeUpToPos api p = .ok n ∧ IsSizeUpTo api st p n := by
  rw [sizeUpToPos]
  by_cases hmtmd : st.hasMtmd = false
  · rw [if_pos (by rw [hmtmd]; decide)]
    refine ⟨_, rfl, (isSizeUpTo_iff h).mpr ⟨(boundary_iff h hmtmd).mpr (Nat.min_le_right _ _), ?_,
      fun k _ hlt => ?_⟩⟩
    · rw [posAt_eq h hmtmd]
      omega
    · rw [posAt_eq h hmtmd]
      omega
  · rw [if_neg (not_not.mpr (Bool.eq_true_of_not_eq_false hmtmd))]
    rcases Nat.eq_zero_or_pos st.tokens.length with hzero | hpos
    · refine ⟨0, ?_, (isSizeUpTo_iff h).mpr ⟨boundary_zero, .inr hzero.symm, fun k _ hlt =>
        absurd hlt (Nat.not_lt_zero k)⟩⟩
      rw [hzero, sizeLoop, if_neg (by omega)]
    · have hlt := (hok.resolve_left hmtmd).resolve_left (List.ne_nil_of_length_pos hpos)
      obtain ⟨n, heq, hb, hgt, hstop, hbefore⟩ :=
        sizeLoop_spec (p := p) h boundary_zero hpos (by omega : _ ≤ 0 + st.tokens.length)
      refine ⟨n, heq, (isSizeUpTo_iff h).mpr ⟨hb, hstop, fun k hk hk' => ?_⟩⟩
      rcases Nat.eq_zero_or_pos k with rfl | hkpos
      · exact hlt
      · exact hbefore k hk hkpos hk'

/-- The position 0 is found behind the first token or chunk. -/
lemma sizeUpToPos_pos (hmtmd : st.hasMtmd = true) (hne : st.tokens ≠ []) :
    ∃ n, st.sizeUpToPos api 0 = .ok n ∧ 0 < n := by
  have hpos := List.length_pos_of_ne_nil hne
  obtain ⟨n, heq, -, hgt, -⟩ :=
    sizeLoop_spec (p := 0) h boundary_zero hpos (by omega : _ ≤ 0 + st.tokens.length)
  refine ⟨n, ?_, hgt⟩
  rw [sizeUpToPos, if_neg (not_not.mpr hmtmd)]
  exact heq

lemma isSizeUpTo_zero : IsSizeUpTo api st 0 0 :=
  (isSizeUpTo_iff h).mpr ⟨boundary_zero, .inl (Int.le_refl _), fun k _ hlt =>
    absurd hlt (Nat.not_lt_zero k)⟩

lemma isSizeUpTo_posAt (hb : st.Boundary api n) : IsSizeUpTo api st (st.posAt api n) n :=
  (isSizeUpTo_iff h).mpr ⟨hb, .inl (Int.le_refl _), fun _ hk hlt => posAt_lt h hk hb hlt⟩

end

/-- **When `size_up_to_pos` goes back**: at every position but 0.  There it goes over the first token
or chunk if the list may have media. -/
theorem sizeUpToPos_iff (h : st.WellFormed api) :
    (∀ p, 0 ≤ p → ((∃ n, st.sizeUpToPos api p = .ok n ∧ IsSizeUpTo api st p n) ↔
      st.hasMtmd = false ∨ st.tokens = [] ∨ 0 < p)) ∧
    (∀ n, st.Boundary api n → ∃ pos, st.posNext api n = .ok pos ∧
      (st.sizeUpToPos api pos = .ok n ↔ st.hasMtmd = false ∨ st.tokens = [] ∨ 0 < n)) ∧
    st.posNext api (-1) = st.posNext api st.tokens.length := by
  -- at position 0 the loop goes too far
  have hzero : ∀ {n}, st.sizeUpToPos api 0 = .ok n → IsSizeUpTo api st 0 n →
      st.hasMtmd = false ∨ st.tokens = [] := by
    intro n hn hsize
    by_contra hno
    obtain ⟨hmtmd, hne⟩ := not_or.mp hno
    obtain ⟨m, hm, hpos⟩ := sizeUpToPos_pos h (Bool.eq_true_of_not_eq_false hmtmd) hne
    obtain rfl : m = n := Except.ok.inj (hm.symm.trans hn)
    exact Nat.lt_irrefl 0 ((hsize.eq h (isSizeUpTo_zero h)) ▸ hpos)
  refine ⟨fun p hp => ⟨?_, sizeUpToPos_spec h hp⟩, fun n hb => ⟨_, posNext_eq h hb, ?_⟩, ?_⟩
  · rintro ⟨n, hn, hsize⟩
    rcases Int.lt_or_eq_of_le hp with hlt | rfl
    · exact .inr (.inr hlt)
    · exact (hzero hn hsize).imp_right .inl
  · have hsize := isSizeUpTo_posAt h hb
    constructor
    · intro hn
      rcases Nat.eq_zero_or_pos n with rfl | hpos
      · exact (hzero hn hsize).imp_right .inl
      · exact .inr (.inr hpos)
    · intro hok
      have hnonneg : 0 ≤ st.posAt api n ∧ (0 < n → 0 < st.posAt api n) := by
        rcases Nat.eq_zero_or_pos n with rfl | hpos
        · exact ⟨Int.le_refl 0, fun hno => absurd hno (Nat.lt_irrefl 0)⟩
        · have hlt := posAt_lt h boundary_zero hb hpos
          exact ⟨Int.le_of_lt hlt, fun _ => hlt⟩
      obtain ⟨m, hm, hsize'⟩ := sizeUpToPos_spec h hnonneg.1
        (hok.imp_right (Or.imp_right hnonneg.2))
      rw [hm, hsize'.eq h hsize]
  · rw [posNext_eq h (boundary_length h)]
    by_cases hmtmd : st.hasMtmd = false
    · rw [posNext, if_pos (by rw [hmtmd]; decide), if_pos (by decide), posAt_eq h hmtmd]
    · rw [posNext, if_neg (not_not.mpr (Bool.eq_true_of_not_eq_false hmtmd)), if_pos (by decide),
        foldl_keys h]

/-- Chunks of one position. -/
def onePosition : ChunkApi MediaChunk where
  id := MediaChunk.id
  nTokens := MediaChunk.nTokens
  nPos := fun _ => 1
  isText := fun _ => false

/-- The list `MediaTokens.twoImages`, with whole chunks. -/
def twoImages : ChunkTokens MediaChunk where
  hasMtmd := true
  mapIdxToMedia := MediaTokens.twoImages.mapIdxToMedia
  tokens := MediaTokens.twoImages.tokens

lemma wellFormed_twoImages : twoImages.WellFormed onePosition :=
  ⟨MediaTokens.wellFormed_twoImages, fun _ _ _ => Int.one_pos⟩

/-- Behind the token and the first image is the position 2. -/
theorem sizeUpToPos_iff_twoImages :
    (∃ n, twoImages.sizeUpToPos onePosition 2 = .ok n ∧ IsSizeUpTo onePosition twoImages 2 n) ∧
      twoImages.posNext onePosition (-1) = .ok 3 :=
  have hiff := sizeUpToPos_iff wellFormed_twoImages
  ⟨(hiff.1 2 (by decide)).mpr (.inr (.inr (by decide))), hiff.2.2.trans rfl⟩

/-- Nothing is before the position 0, but a token is found there. -/
theorem not_sizeUpToPos_twoImages : twoImages.WellFormed onePosition ∧
      (¬ ∃ n, twoImages.sizeUpToPos onePosition 0 = .ok n ∧ IsSizeUpTo onePosition twoImages 0 n) ∧
      twoImages.Boundary onePosition 0 ∧ twoImages.posNext onePosition 0 = .ok 0 ∧
        twoImages.sizeUpToPos onePosition 0 = .ok 1 := by
  refine ⟨wellFormed_twoImages, ?_, boundary_zero, rfl, rfl⟩
  rintro ⟨n, hn, hsize⟩
  obtain rfl : 1 = n := Except.ok.inj hn
  exact absurd (hsize.eq wellFormed_twoImages (isSizeUpTo_zero wellFormed_twoImages)) (by decide)

end ChunkTokens

end Llama
