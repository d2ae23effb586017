import Llama.ServerTokens.Media
import Mathlib.Order.Bounds.Basic

/-!
# Common prefixes of token lists with media

`get_common_prefix` goes from token to token, and over a whole chunk at the start of one.  It always
stands on a boundary of both lists, and so it finds the greatest one up to which they agree.

`keep_first` does not take every boundary.  Which of the prefixes that are found it takes is
`MediaTokens.getCommonPrefix_iff`.
-/

namespace Llama.MediaTokens

/-- The loop of `get_common_prefix` without media, from the place `i` on. -/
def textLoop (a b : MediaTokens) (maxIdx : ℕ) : ℕ → ℕ → ℕ
  | 0, _ => maxIdx
  | fuel + 1, i =>
    if i < maxIdx then
      if a.tokens[i]? = b.tokens[i]? then textLoop a b maxIdx fuel (i + 1) else i
    else maxIdx

/-- The loop of `get_common_prefix` with media, from the place `i` on. -/
def mediaLoop (a b : MediaTokens) (maxIdx : ℕ) : ℕ → ℕ → Except Failure ℕ
  | 0, _ => .ok maxIdx
  | fuel + 1, i =>
    if i < maxIdx then
      if a.tokens[i]? = some tokenNull ∧ b.tokens[i]? = some tokenNull then do
        let aChunk ← a.findChunk i
        let bChunk ← b.findChunk i
        if aChunk.id = bChunk.id ∧ aChunk.nTokens = bChunk.nTokens then
          if aChunk.nTokens > 0 then mediaLoop a b maxIdx fuel (i + (aChunk.nTokens - 1) + 1)
          else .error .aborted
        else .ok i
      else if a.tokens[i]? = b.tokens[i]? then mediaLoop a b maxIdx fuel (i + 1) else .ok i
    else .ok maxIdx

/-- `get_common_prefix`.  No loop makes more than `maxIdx` rounds. -/
def getCommonPrefix (a b : MediaTokens) : Except Failure ℕ :=
  let maxIdx := min a.tokens.length b.tokens.length
  if a.hasMtmd then mediaLoop a b maxIdx maxIdx 0 else .ok (textLoop a b maxIdx maxIdx 0)

/-! ## The greatest common boundary -/

variable {a b : MediaTokens} {i n s : ℕ} {c : MediaChunk}

/-- Both lists may be cut at the place, and they agree before it. -/
structure CommonBoundary (a b : MediaTokens) (n : ℕ) : Prop where
  le_left : n ≤ a.tokens.length
  le_right : n ≤ b.tokens.length
  left : ¬ a.Inside n
  right : ¬ b.Inside n
  tokens : ∀ i < n, a.tokens[i]? = b.tokens[i]?
  chunks : ∀ s < n, a.mapIdxToMedia.lookup s = b.mapIdxToMedia.lookup s

lemma CommonBoundary.symm (h : CommonBoundary a b n) : CommonBoundary b a n where
  le_left := h.le_right
  le_right := h.le_left
  left := h.right
  right := h.left
  tokens := fun i hi => (h.tokens i hi).symm
  chunks := fun s hs => (h.chunks s hs).symm

lemma commonBoundary_comm : CommonBoundary a b n ↔ CommonBoundary b a n :=
  ⟨CommonBoundary.symm, CommonBoundary.symm⟩

lemma not_inside_zero : ¬ a.Inside 0 := by
  rintro ⟨_, _, -, hlt, -⟩
  exact Nat.not_lt_zero _ hlt

lemma commonBoundary_zero : CommonBoundary a b 0 where
  le_left := Nat.zero_le _
  le_right := Nat.zero_le _
  left := not_inside_zero
  right := not_inside_zero
  tokens := fun i hi => absurd hi (Nat.not_lt_zero i)
  chunks := fun s hs => absurd hs (Nat.not_lt_zero s)

/-- A null token at a boundary starts a chunk. -/
lemma WellFormed.exists_lookup (h : a.WellFormed) (hn : ¬ a.Inside n)
    (hnull : a.tokens[n]? = some tokenNull) : ∃ c, a.mapIdxToMedia.lookup n = some c :=
  Option.ne_none_iff_exists'.mp fun hnone => hn ((h.lookup_eq_none_iff hnull).mp hnone)

/-- The first place of a chunk is null. -/
lemma WellFormed.getElem?_of_lookup (h : a.WellFormed) (hs : a.mapIdxToMedia.lookup s = some c) :
    a.tokens[s]? = some tokenNull :=
  h.null s c s ⟨hs, Nat.le_refl s, Nat.lt_add_of_pos_right (h.pos s c hs)⟩

/-- The end of a chunk is a boundary. -/
lemma WellFormed.not_inside_end (h : a.WellFormed) (hs : a.mapIdxToMedia.lookup s = some c) :
    ¬ a.Inside (s + c.nTokens) := by
  rintro ⟨s', c', hs', hlt, hend⟩
  have hpos := h.pos s c hs
  have heq := h.unique s' c' s c (s + c.nTokens - 1) ⟨hs', by omega, by omega⟩
    ⟨hs, by omega, by omega⟩
  subst heq
  obtain rfl := Option.some.inj (hs.symm.trans hs')
  exact Nat.lt_irrefl _ hend

/-- Behind a token that is no part of a chunk there is a boundary. -/
lemma WellFormed.not_inside_succ (h : a.WellFormed) (hne : a.tokens[n]? ≠ some tokenNull) :
    ¬ a.Inside (n + 1) := fun hin => hne (hin.null h).2.1

/-- **Over a common chunk.** -/
theorem CommonBoundary.chunk (h : CommonBoundary a b i) (ha : a.WellFormed) (hb : b.WellFormed)
    (hca : a.mapIdxToMedia.lookup i = some c) (hcb : b.mapIdxToMedia.lookup i = some c) :
    CommonBoundary a b (i + c.nTokens) where
  le_left := ha.le_length hca
  le_right := hb.le_length hcb
  left := ha.not_inside_end hca
  right := hb.not_inside_end hcb
  tokens := fun j hj => by
    rcases Nat.lt_or_ge j i with hlt | hge
    · exact h.tokens j hlt
    · rw [ha.null i c j ⟨hca, hge, hj⟩, hb.null i c j ⟨hcb, hge, hj⟩]
  chunks := fun s hs => by
    have hnone : ∀ {st : MediaTokens}, st.WellFormed → st.mapIdxToMedia.lookup i = some c → i < s →
        st.mapIdxToMedia.lookup s = none := by
      intro st hst hc hlt
      exact (hst.lookup_eq_none_iff (hst.null i c s ⟨hc, hlt.le, hs⟩)).mpr ⟨i, c, hc, hlt, hs⟩
    rcases Nat.lt_trichotomy s i with hlt | rfl | hgt
    · exact h.chunks s hlt
    · rw [hca, hcb]
    · rw [hnone ha hca hgt, hnone hb hcb hgt]

/-- **Over a common token.** -/
theorem CommonBoundary.token (h : CommonBoundary a b i) (ha : a.WellFormed) (hb : b.WellFormed)
    (hlt : i < a.tokens.length) (heq : a.tokens[i]? = b.tokens[i]?)
    (hne : a.tokens[i]? ≠ some tokenNull) : CommonBoundary a b (i + 1) where
  le_left := hlt
  le_right := (List.getElem?_eq_some_iff.mp (heq.symm.trans (List.getElem?_eq_getElem hlt))).1
  left := ha.not_inside_succ hne
  right := hb.not_inside_succ (heq ▸ hne)
  tokens := fun j hj => by
    rcases Nat.lt_succ_iff_lt_or_eq.mp hj with hj | rfl
    · exact h.tokens j hj
    · exact heq
  chunks := fun s hs => by
    rcases Nat.lt_succ_iff_lt_or_eq.mp hs with hs | rfl
    · exact h.chunks s hs
    · have hnone : ∀ {st : MediaTokens}, st.WellFormed → st.tokens[s]? ≠ some tokenNull →
          st.mapIdxToMedia.lookup s = none := by
        intro st hst hne
        cases hlookup : st.mapIdxToMedia.lookup s with
        | none => rfl
        | some c => exact absurd (hst.getElem?_of_lookup hlookup) hne
      rw [hnone ha hne, hnone hb (heq ▸ hne)]

lemma isGreatest_of_forall_le (h : CommonBoundary a b n)
    (hle : ∀ m, CommonBoundary a b m → m ≤ n) : IsGreatest {m | CommonBoundary a b m} n :=
  ⟨h, fun m hm => hle m hm⟩

lemma findChunk_eq (hc : a.mapIdxToMedia.lookup i = some c) : a.findChunk i = .ok c := by
  rw [findChunk, hc]

/-- **The loop stands on common boundaries and ends at the greatest one.** -/
theorem mediaLoop_spec (ha : a.WellFormed) (hb : b.WellFormed) (fuel : ℕ)
    (h : CommonBoundary a b i) (hfuel : min a.tokens.length b.tokens.length ≤ i + fuel) :
    ∃ n, mediaLoop a b (min a.tokens.length b.tokens.length) fuel i = .ok n ∧
      IsGreatest {m | CommonBoundary a b m} n := by
  have hend : ∀ {j}, CommonBoundary a b j → min a.tokens.length b.tokens.length ≤ j →
      IsGreatest {m | CommonBoundary a b m} (min a.tokens.length b.tokens.length) := by
    intro j hj hle
    have heq : min a.tokens.length b.tokens.length = j :=
      Nat.le_antisymm hle (Nat.le_min.mpr ⟨hj.le_left, hj.le_right⟩)
    rw [heq]
    refine isGreatest_of_forall_le hj fun m hm => ?_
    rw [← heq]
    exact Nat.le_min.mpr ⟨hm.le_left, hm.le_right⟩
  induction fuel generalizing i with
  | zero => exact ⟨_, rfl, hend h hfuel⟩
  | succ fuel ih =>
    rw [mediaLoop]
    split_ifs with hlt hnull heq
    · obtain ⟨ca, hca⟩ := ha.exists_lookup h.left hnull.1
      obtain ⟨cb, hcb⟩ := hb.exists_lookup h.right hnull.2
      rw [findChunk_eq hca, findChunk_eq hcb]
      change ∃ n, (if ca.id = cb.id ∧ ca.nTokens = cb.nTokens then _ else _) = _ ∧ _
      split_ifs with hsame hpos
      · have hcab : ca = cb := by
          cases ca
          cases cb
          simpa using hsame
        subst hcab
        have hnext : i + (ca.nTokens - 1) + 1 = i + ca.nTokens := by omega
        rw [hnext]
        exact ih (h.chunk ha hb hca hcb) (by omega)
      · exact absurd (ha.pos i ca hca) hpos
      · refine ⟨i, rfl, isGreatest_of_forall_le h fun m hm => Nat.le_of_not_lt fun him => hsame ?_⟩
        have hchunk := hm.chunks i him
        rw [hca, hcb] at hchunk
        rw [Option.some.inj hchunk]
        exact ⟨rfl, rfl⟩
    · have hne : a.tokens[i]? ≠ some tokenNull := fun hn => hnull ⟨hn, heq ▸ hn⟩
      exact ih (h.token ha hb (hlt.trans_le (Nat.min_le_left _ _)) heq hne) (by omega)
    · exact ⟨i, rfl, isGreatest_of_forall_le h fun m hm =>
        Nat.le_of_not_lt fun him => heq (hm.tokens i him)⟩
    · exact ⟨_, rfl, hend h (Nat.le_of_not_lt hlt)⟩

/-- **The common prefix is the greatest common boundary**; nothing is thrown. -/
theorem getCommonPrefix_spec (ha : a.WellFormed) (hb : b.WellFormed) (hmtmd : a.hasMtmd = true) :
    ∃ n, a.getCommonPrefix b = .ok n ∧ IsGreatest {m | CommonBoundary a b m} n := by
  rw [getCommonPrefix, if_pos hmtmd]
  exact mediaLoop_spec ha hb _ commonBoundary_zero (Nat.le_add_left _ _)

lemma getCommonPrefix_comm (ha : a.WellFormed) (hb : b.WellFormed) (hma : a.hasMtmd = true)
    (hmb : b.hasMtmd = true) : a.getCommonPrefix b = b.getCommonPrefix a := by
  obtain ⟨n, hn, hgreatest⟩ := getCommonPrefix_spec ha hb hma
  obtain ⟨m, hm, hgreatest'⟩ := getCommonPrefix_spec hb ha hmb
  simp only [commonBoundary_comm (a := b)] at hgreatest'
  rw [hn, hm, hgreatest.unique hgreatest']

/-! ## What may be kept -/

/-- A legal argument of `keep_first`. -/
def Keepable (st : MediaTokens) (n : ℕ) : Prop :=
  n ≤ st.tokens.length ∧ (st.keepFirst n).1 = .ok ()

/-- **A boundary may be kept** unless a chunk of several tokens ends and another one starts
there. -/
theorem keepable_iff (h : a.WellFormed) (hn : n ≤ a.tokens.length) (hout : ¬ a.Inside n) :
    a.Keepable n ↔ ∀ s c, a.mapIdxToMedia.lookup s = some c → s + c.nTokens = n →
      2 ≤ c.nTokens → a.mapIdxToMedia.lookup n = none := by
  have hkeep : a.checkCut n = .ok () → a.Keepable n := fun hcheck => by
    obtain ⟨st', heq, -⟩ := keepFirst_of_checkCut h hn hcheck
    exact ⟨hn, by rw [heq]⟩
  by_cases hnull : 0 < n ∧ a.tokens[n - 1]? = some tokenNull ∧ a.tokens[n]? = some tokenNull
  · obtain ⟨hpos, hleft, hright⟩ := hnull
    obtain ⟨d, hd⟩ := h.exists_lookup hout hright
    cases hbefore : a.mapIdxToMedia.lookup (n - 1) with
    | none =>
      refine iff_of_false (fun hkeepable => ?_) fun hcond => ?_
      · rw [Keepable, keepFirst_of_null h hpos hleft hright hbefore] at hkeepable
        cases hkeepable.2
      · obtain ⟨s, c, hs, hle, hlt⟩ := h.covered (n - 1) hleft
        have hend : s + c.nTokens = n := by
          refine Nat.le_antisymm (Nat.le_of_not_lt fun hlt' => ?_) (by omega)
          exact hout ⟨s, c, hs, by omega, hlt'⟩
        have hne : s ≠ n - 1 := by
          rintro rfl
          rw [hbefore] at hs
          cases hs
        rw [hcond s c hs hend (by omega)] at hd
        cases hd
    | some e =>
      refine iff_of_true (hkeep ?_) fun s c hs hend htwo => ?_
      · rw [checkCut_eq hpos hleft hright, hbefore]
        rfl
      · have heq := h.unique s c (n - 1) e (n - 1) ⟨hs, by omega, by omega⟩
          ⟨hbefore, Nat.le_refl _, Nat.lt_add_of_pos_right (h.pos _ e hbefore)⟩
        omega
  · refine iff_of_true (hkeep (checkCut_of_not hnull)) fun s c hs hend htwo => ?_
    cases hd : a.mapIdxToMedia.lookup n with
    | none => rfl
    | some d =>
      exact absurd ⟨by omega, h.null s c (n - 1) ⟨hs, by omega, by omega⟩,
        h.getElem?_of_lookup hd⟩ hnull

/-- **The common prefix is the greatest common boundary in either order, and both lists may be cut
there exactly if, where a common chunk of several tokens ends, neither goes on with a chunk.** -/
theorem getCommonPrefix_iff (ha : a.WellFormed) (hb : b.WellFormed) (hma : a.hasMtmd = true)
    (hmb : b.hasMtmd = true) :
    (∃ n, a.getCommonPrefix b = .ok n ∧ b.getCommonPrefix a = .ok n ∧
      IsGreatest {m | CommonBoundary a b m} n) ∧
    ((∃ n, a.getCommonPrefix b = .ok n ∧ b.getCommonPrefix a = .ok n ∧
      IsGreatest {m | CommonBoundary a b m} n ∧ a.Keepable n ∧ b.Keepable n) ↔
      ∀ n s c, IsGreatest {m | CommonBoundary a b m} n → a.mapIdxToMedia.lookup s = some c →
        s + c.nTokens = n → 2 ≤ c.nTokens →
          a.mapIdxToMedia.lookup n = none ∧ b.mapIdxToMedia.lookup n = none) := by
  obtain ⟨n, hn, hgreatest⟩ := getCommonPrefix_spec ha hb hma
  have hn' : b.getCommonPrefix a = .ok n := (getCommonPrefix_comm ha hb hma hmb).symm.trans hn
  have hboundary : CommonBoundary a b n := hgreatest.1
  refine ⟨⟨n, hn, hn', hgreatest⟩, ?_⟩
  have hchunks : ∀ s c, s + c.nTokens = n → 2 ≤ c.nTokens →
      (b.mapIdxToMedia.lookup s = some c ↔ a.mapIdxToMedia.lookup s = some c) :=
    fun s c hend htwo => by rw [hboundary.chunks s (by omega)]
  have hleft := keepable_iff ha hboundary.le_left hboundary.left
  have hright := keepable_iff hb hboundary.le_right hboundary.right
  constructor
  · rintro ⟨m, hm, -, -, hka, hkb⟩ k s c hk hs hend htwo
    obtain rfl : n = m := Except.ok.inj (hn.symm.trans hm)
    obtain rfl := hgreatest.unique hk
    exact ⟨hleft.mp hka s c hs hend htwo,
      hright.mp hkb s c ((hchunks s c hend htwo).mpr hs) hend htwo⟩
  · intro hcond
    exact ⟨n, hn, hn', hgreatest,
      hleft.mpr fun s c hs hend htwo => (hcond n s c hgreatest hs hend htwo).1,
      hright.mpr fun s c hs hend htwo =>
        (hcond n s c hgreatest ((hchunks s c hend htwo).mp hs) hend htwo).2⟩

/-- Another second image behind the same first one. -/
def otherImages : MediaTokens where
  hasMtmd := true
  mapIdxToMedia := (AList.insert 1 ⟨[0], 2⟩ ∅).insert 3 ⟨[2], 2⟩
  tokens := [7, tokenNull, tokenNull, tokenNull, tokenNull]

lemma wellFormed_otherImages : otherImages.WellFormed :=
  have htoken : WellFormed { hasMtmd := true, tokens := [7] } :=
    (wellFormed_empty true).pushBack (by decide)
  have himage : WellFormed {
      hasMtmd := true
      mapIdxToMedia := AList.insert 1 ⟨[0], 2⟩ ∅
      tokens := [7, tokenNull, tokenNull] } :=
    htoken.pushBackChunk rfl (by decide : 0 < 2)
  himage.pushBackChunk rfl (by decide : 0 < 2)

theorem getCommonPrefix_iff_text :
    (∃ n, twoImages.getCommonPrefix { hasMtmd := true, tokens := [7] } = .ok n ∧
      getCommonPrefix { hasMtmd := true, tokens := [7] } twoImages = .ok n ∧
      IsGreatest {m | CommonBoundary twoImages { hasMtmd := true, tokens := [7] } m} n) ∧
    ((∃ n, twoImages.getCommonPrefix { hasMtmd := true, tokens := [7] } = .ok n ∧
      getCommonPrefix { hasMtmd := true, tokens := [7] } twoImages = .ok n ∧
      IsGreatest {m | CommonBoundary twoImages { hasMtmd := true, tokens := [7] } m} n ∧
      twoImages.Keepable n ∧ Keepable { hasMtmd := true, tokens := [7] } n) ↔
      ∀ n s c, IsGreatest {m | CommonBoundary twoImages { hasMtmd := true, tokens := [7] } m} n →
        twoImages.mapIdxToMedia.lookup s = some c → s + c.nTokens = n → 2 ≤ c.nTokens →
          twoImages.mapIdxToMedia.lookup n = none ∧
            ({ hasMtmd := true, tokens := [7] } : MediaTokens).mapIdxToMedia.lookup n = none) :=
  getCommonPrefix_iff wellFormed_twoImages ((wellFormed_empty true).pushBack (by decide)) rfl rfl

/-- The prefix with the first image is found, but it cannot be kept. -/
theorem not_keepable_twoImages : twoImages.WellFormed ∧ otherImages.WellFormed ∧
      twoImages.getCommonPrefix otherImages = .ok 3 ∧ ¬ twoImages.Keepable 3 ∧
        ¬ otherImages.Keepable 3 := by
  refine ⟨wellFormed_twoImages, wellFormed_otherImages, rfl, fun h => ?_, fun h => ?_⟩
  · cases h.2
  · cases h.2

lemma Represents.findChunk {p : ServerTokens} (h : Represents a p.pieces) (i : ℕ) :
    p.findChunk i = a.mapIdxToMedia.lookup i := (h.chunks i).symm

lemma textLoop_eq {p q : ServerTokens} (ha : Represents a p.pieces) (hb : Represents b q.pieces)
    (maxIdx fuel i : ℕ) : textLoop a b maxIdx fuel i = ServerTokens.textLoop p q maxIdx fuel i := by
  have hta : p.tokens = a.tokens := ha.tokens.symm
  have htb : q.tokens = b.tokens := hb.tokens.symm
  induction fuel generalizing i with
  | zero => rfl
  | succ fuel ih => rw [textLoop, ServerTokens.textLoop, hta, htb, ih]

lemma mediaLoop_eq {p q : ServerTokens} (ha : Represents a p.pieces) (hb : Represents b q.pieces)
    {maxIdx fuel i : ℕ} (h : mediaLoop a b maxIdx fuel i = .ok n) :
    ServerTokens.mediaLoop p q maxIdx fuel i = n := by
  have hta : p.tokens = a.tokens := ha.tokens.symm
  have htb : q.tokens = b.tokens := hb.tokens.symm
  induction fuel generalizing i with
  | zero => exact Except.ok.inj h
  | succ fuel ih =>
    rw [mediaLoop] at h
    rw [ServerTokens.mediaLoop, hta, htb, ha.findChunk, hb.findChunk]
    split_ifs at h ⊢ with hlt hnull heq
    · rw [findChunk, findChunk] at h
      cases hca : a.mapIdxToMedia.lookup i with
      | none =>
        rw [hca] at h
        cases h
      | some ca =>
        cases hcb : b.mapIdxToMedia.lookup i with
        | none =>
          rw [hca, hcb] at h
          cases h
        | some cb =>
          rw [hca, hcb] at h
          change (if ca.id = cb.id ∧ ca.nTokens = cb.nTokens then
            (if ca.nTokens > 0 then mediaLoop a b maxIdx fuel (i + (ca.nTokens - 1) + 1)
            else .error .aborted) else .ok i) = .ok n at h
          dsimp only
          split_ifs at h ⊢ with hsame hpos
          · exact ih h
          · exact Except.ok.inj h
    · exact ih h
    · exact Except.ok.inj h
    · exact Except.ok.inj h

/-- **The common prefix is that of the pieces.** -/
theorem getCommonPrefix_eq_commonPrefix {p q : ServerTokens} (ha : a.WellFormed)
    (hb : b.WellFormed) (hmtmd : a.hasMtmd = p.hasMtmd) (hap : Represents a p.pieces)
    (hbq : Represents b q.pieces) : a.getCommonPrefix b = .ok (p.commonPrefix q) := by
  have hmax : min a.tokens.length b.tokens.length = min p.length q.length := by
    rw [hap.tokens, hbq.tokens]
    rfl
  rw [ServerTokens.commonPrefix, ← hmtmd, ← hmax]
  split_ifs with hmedia
  · obtain ⟨n, hn, -⟩ := getCommonPrefix_spec ha hb hmedia
    rw [hn]
    rw [getCommonPrefix, if_pos hmedia] at hn
    rw [mediaLoop_eq hap hbq hn]
  · rw [getCommonPrefix, if_neg hmedia, textLoop_eq hap hbq]

/-- **The maps refine the pieces**: lists that are built piece by piece have the common prefix of
their pieces, and it is all of one exactly when its pieces come first in the other. -/
theorem getCommonPrefix_refines (p q : ServerTokens) :
    ∃ a b, p.pieces.foldlM pushPiece { hasMtmd := p.hasMtmd } = .ok a ∧
      q.pieces.foldlM pushPiece { hasMtmd := q.hasMtmd } = .ok b ∧
      a.getCommonPrefix b = .ok (p.commonPrefix q) ∧
      (a.getCommonPrefix b = .ok a.tokens.length ↔ p.IsPrefix q) := by
  obtain ⟨a, ha, hwa, hma, hap⟩ := wellFormed_ofPieces p
  obtain ⟨b, hb, hwb, -, hbq⟩ := wellFormed_ofPieces q
  have heq := getCommonPrefix_eq_commonPrefix hwa hwb hma hap hbq
  refine ⟨a, b, ha, hb, heq, ?_⟩
  rw [heq, Except.ok.injEq, hap.tokens]
  exact ServerTokens.commonPrefix_eq_length_left

end Llama.MediaTokens
