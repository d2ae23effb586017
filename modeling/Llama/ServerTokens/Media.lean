import Llama.ServerTokens
import Mathlib.Data.List.AList

/-!
# Token lists with media, as they are kept

The class keeps the tokens and a map from the first place of each media chunk to the chunk.  The
boundary of two adjacent chunks cannot be seen in the tokens.

`keep_first` looks for it in the map at the place before the cut, which is the start of a chunk
only when that chunk has one token.  `push_back` of another list puts in its tokens one by one,
and a place of a media chunk is not a token that can be put in.
-/

namespace Llama

open List

/-! ## The model -/

/-- `server_tokens`. -/
structure MediaTokens where
  hasMtmd : Bool
  mapIdxToMedia : AList fun _ : ℕ => MediaChunk := ∅
  tokens : List ℤ := []

namespace MediaTokens

/-- What ends a function early: an exception, a failed assertion, or a loop that is not done. -/
inductive Failure
  | threw (message : String)
  | aborted
  | unfinished
  deriving DecidableEq

def findChunk (st : MediaTokens) (idx : ℕ) : Except Failure MediaChunk :=
  match st.mapIdxToMedia.lookup idx with
  | some chunk => .ok chunk
  | none => .error (.threw "Chunk not found")

def pushBack (st : MediaTokens) (tok : ℤ) : Except Failure MediaTokens :=
  if tok = tokenNull then .error (.threw "Invalid token")
  else .ok { st with tokens := st.tokens ++ [tok] }

/-- `push_back(const mtmd_input_chunk *)`, for an image or an audio chunk. -/
def pushBackChunk (st : MediaTokens) (chunk : MediaChunk) : Except Failure MediaTokens :=
  if st.hasMtmd then
    .ok { st with
      tokens := st.tokens ++ List.replicate chunk.nTokens tokenNull
      mapIdxToMedia := st.mapIdxToMedia.insert st.tokens.length chunk }
  else .error .aborted

/-- The loop over the chunks of another list.  The iterator stands at the chunk with the least
index and is not advanced. -/
def copyChunks (startIdx : ℕ) (tokens : MediaTokens) : ℕ → MediaTokens → Except Failure MediaTokens
  | 0, _ => .error .unfinished
  | fuel + 1, st =>
    match tokens.mapIdxToMedia.keys.min? with
    | none => .ok st
    | some idx => do
      let chunk ← tokens.findChunk idx
      copyChunks startIdx tokens fuel
        { st with mapIdxToMedia := st.mapIdxToMedia.insert (startIdx + idx) chunk }

/-- `push_back(server_tokens &)`. -/
def pushBackTokens (fuel : ℕ) (st tokens : MediaTokens) : Except Failure MediaTokens := do
  let startIdx := st.tokens.length
  let st ← tokens.tokens.foldlM pushBack st
  if tokens.hasMtmd then
    -- Assert if we are copying MTMD chunks to a server_tokens that does not have mtmd.
    if st.hasMtmd then copyChunks startIdx tokens fuel st else .error .aborted
  else .ok st

/-- The chunks that start before a place. -/
def chunksBefore (st : MediaTokens) (n : ℕ) : AList fun _ : ℕ => MediaChunk :=
  (st.mapIdxToMedia.keys.filter (n ≤ ·)).foldl (fun chunks idx => chunks.erase idx)
    st.mapIdxToMedia

/-- The check that no token is removed in the middle of an image. -/
def checkCut (st : MediaTokens) (n : ℕ) : Except Failure Unit :=
  if n > 0 then
    if st.tokens[n - 1]? = some tokenNull ∧ st.tokens[n]? = some tokenNull then
      (st.findChunk (n - 1)).map fun _ => ()
    else .ok ()
  else .ok ()

/-- `keep_first`: what it ends with, and the value afterwards. -/
def keepFirst (st : MediaTokens) (n : ℕ) : Except Failure Unit × MediaTokens :=
  if ¬ n ≤ st.tokens.length then (.error .aborted, st)
  else if st.hasMtmd then
    if n = st.tokens.length then (.ok (), st)
    else
      match st.checkCut n with
      | .error e => (.error e, st)
      | .ok () => (.ok (), { st with mapIdxToMedia := st.chunksBefore n, tokens := st.tokens.take n })
  else (.ok (), { st with tokens := st.tokens.take n })

/-! ## Well-formed values -/

variable {st st' a b : MediaTokens} {i n s : ℕ} {chunk c : MediaChunk} {tok : ℤ}

/-- The place belongs to a chunk. -/
def Covers (st : MediaTokens) (s : ℕ) (c : MediaChunk) (i : ℕ) : Prop :=
  st.mapIdxToMedia.lookup s = some c ∧ s ≤ i ∧ i < s + c.nTokens

/-- Each chunk has its null tokens, and each null token belongs to one chunk. -/
structure WellFormed (st : MediaTokens) : Prop where
  noMedia : st.hasMtmd = false → ∀ s, st.mapIdxToMedia.lookup s = none
  pos : ∀ s c, st.mapIdxToMedia.lookup s = some c → 0 < c.nTokens
  null : ∀ s c i, st.Covers s c i → st.tokens[i]? = some tokenNull
  covered : ∀ i, st.tokens[i]? = some tokenNull → ∃ s c, st.Covers s c i
  unique : ∀ s c s' c' i, st.Covers s c i → st.Covers s' c' i → s = s'

/-- A chunk begins before the place and ends behind it. -/
def Inside (st : MediaTokens) (n : ℕ) : Prop :=
  ∃ s c, st.mapIdxToMedia.lookup s = some c ∧ s < n ∧ n < s + c.nTokens

lemma WellFormed.le_length (h : st.WellFormed) (hs : st.mapIdxToMedia.lookup s = some c) :
    s + c.nTokens ≤ st.tokens.length := by
  have hpos := h.pos s c hs
  have hnull := h.null s c (s + c.nTokens - 1) ⟨hs, by omega, by omega⟩
  have hlt := (List.getElem?_eq_some_iff.mp hnull).1
  omega

/-- A null token starts a chunk, or it is inside of one. -/
lemma WellFormed.lookup_eq_none_iff (h : st.WellFormed) (hnull : st.tokens[n]? = some tokenNull) :
    st.mapIdxToMedia.lookup n = none ↔ st.Inside n := by
  obtain ⟨s, c, hs, hle, hlt⟩ := h.covered n hnull
  constructor
  · intro hnone
    refine ⟨s, c, hs, Nat.lt_of_le_of_ne hle ?_, hlt⟩
    rintro rfl
    rw [hnone] at hs
    cases hs
  · rintro ⟨s', c', hs', hlt', hend'⟩
    cases hn : st.mapIdxToMedia.lookup n with
    | none => rfl
    | some d =>
      have hd := h.unique s' c' n d n ⟨hs', hlt'.le, hend'⟩
        ⟨hn, Nat.le_refl n, Nat.lt_add_of_pos_right (h.pos n d hn)⟩
      exact absurd hd (Nat.ne_of_lt hlt')

/-- Inside of a chunk the tokens on both sides are null. -/
lemma Inside.null (h : st.WellFormed) (hin : st.Inside n) :
    0 < n ∧ st.tokens[n - 1]? = some tokenNull ∧ st.tokens[n]? = some tokenNull := by
  obtain ⟨s, c, hs, hlt, hend⟩ := hin
  exact ⟨Nat.zero_lt_of_lt hlt, h.null s c _ ⟨hs, by omega, by omega⟩,
    h.null s c _ ⟨hs, hlt.le, hend⟩⟩

/-! ## Lists that are built of pieces -/

/-- A piece is pushed to the back. -/
def pushPiece (st : MediaTokens) : TokenPiece → Except Failure MediaTokens
  | .text tok => st.pushBack tok
  | .media chunk => st.pushBackChunk chunk

/-- The value has the tokens and the chunks of the pieces. -/
structure Represents (st : MediaTokens) (pieces : List TokenPiece) : Prop where
  tokens : st.tokens = pieceTokens pieces
  chunks : ∀ i, st.mapIdxToMedia.lookup i = chunkAt pieces i

lemma represents_empty (hasMtmd : Bool) : Represents { hasMtmd } [] where
  tokens := rfl
  chunks := fun _ => rfl

lemma WellFormed.pushBack (h : st.WellFormed) (htok : tok ≠ tokenNull) :
    WellFormed { st with tokens := st.tokens ++ [tok] } := by
  have hlast : ∀ i : ℕ, (st.tokens ++ [tok])[i]? = some tokenNull ↔ st.tokens[i]? = some tokenNull := by
    intro i
    rcases Nat.lt_trichotomy i st.tokens.length with hlt | rfl | hgt
    · rw [getElem?_append_left hlt]
    · rw [getElem?_concat_length, getElem?_eq_none (Nat.le_refl _)]
      exact iff_of_false (fun heq => htok (Option.some.inj heq)) fun heq => (by cases heq)
    · rw [getElem?_eq_none (by rw [length_append, length_singleton]; omega),
        getElem?_eq_none hgt.le]
  exact { h with
    null := fun s c i hi => (hlast i).mpr (h.null s c i hi)
    covered := fun i hi => h.covered i ((hlast i).mp hi) }

lemma WellFormed.pushBackChunk (h : st.WellFormed) (hmtmd : st.hasMtmd = true)
    (hpos : 0 < chunk.nTokens) :
    WellFormed { st with
      tokens := st.tokens ++ List.replicate chunk.nTokens tokenNull
      mapIdxToMedia := st.mapIdxToMedia.insert st.tokens.length chunk } := by
  have hcovers : ∀ s c i, Covers { st with
      mapIdxToMedia := st.mapIdxToMedia.insert st.tokens.length chunk } s c i ↔
        (s = st.tokens.length ∧ c = chunk ∧ st.tokens.length ≤ i ∧
          i < st.tokens.length + chunk.nTokens) ∨ i < st.tokens.length ∧ st.Covers s c i := by
    intro s c i
    by_cases hs : s = st.tokens.length
    · subst hs
      simp only [Covers, AList.lookup_insert, Option.some.injEq]
      constructor
      · rintro ⟨rfl, hle, hlt⟩
        exact .inl ⟨trivial, rfl, hle, hlt⟩
      · rintro (⟨-, rfl, hle, hlt⟩ | ⟨hlt, -, hle, -⟩)
        · exact ⟨rfl, hle, hlt⟩
        · omega
    · simp only [Covers, AList.lookup_insert_ne hs]
      constructor
      · rintro ⟨hlookup, hle, hlt⟩
        have hend := h.le_length hlookup
        exact .inr ⟨by omega, hlookup, hle, hlt⟩
      · rintro (⟨heq, -⟩ | ⟨-, hcov⟩)
        · exact absurd heq hs
        · exact hcov
  exact {
    noMedia := fun hfalse => by
      rw [hmtmd] at hfalse
      cases hfalse
    pos := fun s c hs => by
      by_cases heq : s = st.tokens.length
      · subst heq
        rw [AList.lookup_insert] at hs
        rwa [← Option.some.inj hs]
      · rw [AList.lookup_insert_ne heq] at hs
        exact h.pos s c hs
    null := fun s c i hi => by
      rcases (hcovers s c i).mp hi with ⟨-, -, hle, hlt⟩ | ⟨hlt, hcov⟩
      · rw [getElem?_append_right hle, getElem?_replicate, if_pos (by omega)]
      · rw [getElem?_append_left hlt]
        exact h.null s c i hcov
    covered := fun i hi => by
      by_cases hlt : i < st.tokens.length
      · rw [getElem?_append_left hlt] at hi
        obtain ⟨s, c, hcov⟩ := h.covered i hi
        exact ⟨s, c, (hcovers s c i).mpr (.inr ⟨hlt, hcov⟩)⟩
      · have hend := (List.getElem?_eq_some_iff.mp hi).1
        rw [length_append, length_replicate] at hend
        exact ⟨_, _, (hcovers _ _ i).mpr (.inl ⟨rfl, rfl, Nat.le_of_not_lt hlt, hend⟩)⟩
    unique := fun s c s' c' i hi hi' => by
      rcases (hcovers s c i).mp hi with ⟨rfl, -, hle, -⟩ | ⟨hlt, hcov⟩
      · rcases (hcovers s' c' i).mp hi' with ⟨rfl, -⟩ | ⟨hlt', -⟩
        · rfl
        · omega
      · rcases (hcovers s' c' i).mp hi' with ⟨-, -, hle', -⟩ | ⟨-, hcov'⟩
        · omega
        · exact h.unique s c s' c' i hcov hcov' }

/-- The chunks of a list with one piece more. -/
lemma chunkAt_concat {pre : List TokenPiece} (hok : ∀ p ∈ pre, p.Ok) (p : TokenPiece) (i : ℕ) :
    chunkAt (pre ++ [p]) i = if i = (pieceTokens pre).length then p.chunk? else chunkAt pre i := by
  induction pre generalizing i with
  | nil =>
    cases i with
    | zero => rfl
    | succ i =>
      rw [nil_append, chunkAt, pieceTokens_nil, length_nil, if_neg (Nat.succ_ne_zero i), chunkAt]
      split_ifs <;> rfl
  | cons q pre ih =>
    obtain ⟨hq, hpre⟩ := forall_mem_cons.mp hok
    have hpos := hq.length_pos
    rw [cons_append, pieceTokens_cons, length_append]
    cases i with
    | zero =>
      rw [if_neg (by omega)]
      rfl
    | succ i =>
      rw [chunkAt, chunkAt]
      split_ifs with hlt heq heq
      · omega
      · rfl
      · rw [ih hpre, if_pos (by omega)]
      · rw [ih hpre, if_neg (by omega)]

lemma pieceTokens_concat (pre : List TokenPiece) (p : TokenPiece) :
    pieceTokens (pre ++ [p]) = pieceTokens pre ++ p.tokens := by
  rw [pieceTokens, flatMap_append, flatMap_singleton]
  rfl

/-- **One piece more** keeps the value well-formed. -/
theorem Represents.pushPiece {pieces : List TokenPiece} {p : TokenPiece}
    (h : Represents st pieces) (hwf : st.WellFormed) (hok : ∀ p ∈ pieces, p.Ok) (hp : p.Ok)
    (hmtmd : st.hasMtmd = false → p.chunk? = none) :
    ∃ st', st.pushPiece p = .ok st' ∧ st'.WellFormed ∧ st'.hasMtmd = st.hasMtmd ∧
      Represents st' (pieces ++ [p]) := by
  cases p with
  | text tok =>
    have hne : tok ≠ tokenNull := hp
    refine ⟨_, if_neg hne, hwf.pushBack hne, rfl, ?_, fun i => ?_⟩
    · rw [pieceTokens_concat, h.tokens]
      rfl
    · rw [chunkAt_concat hok]
      split_ifs with hi
      · cases hs : st.mapIdxToMedia.lookup i with
        | none => rfl
        | some c =>
          have hle := hwf.le_length hs
          have hpos := hwf.pos i c hs
          rw [h.tokens] at hle
          omega
      · exact h.chunks i
  | media chunk =>
    have htrue : st.hasMtmd = true := by
      by_contra hfalse
      cases hmtmd (by simpa using hfalse)
    refine ⟨_, if_pos htrue, hwf.pushBackChunk htrue hp, rfl, ?_, fun i => ?_⟩
    · rw [pieceTokens_concat, h.tokens]
      rfl
    · rw [chunkAt_concat hok, ← h.tokens, ← h.chunks]
      split_ifs with hi
      · rw [hi]
        exact AList.lookup_insert _
      · exact AList.lookup_insert_ne hi

lemma wellFormed_empty (hasMtmd : Bool) : WellFormed { hasMtmd } where
  noMedia := fun _ _ => rfl
  pos := fun _ _ hs => (by cases hs)
  null := fun _ _ _ hi => (by cases hi.1)
  covered := fun _ hi => (by cases hi)
  unique := fun _ _ _ _ _ hi => (by cases hi.1)

/-- **A list that is built of pieces is well-formed and represents them.** -/
theorem wellFormed_ofPieces (p : ServerTokens) :
    ∃ st, p.pieces.foldlM pushPiece { hasMtmd := p.hasMtmd } = .ok st ∧ st.WellFormed ∧
      st.hasMtmd = p.hasMtmd ∧ Represents st p.pieces := by
  have hbuild : ∀ (rest pre : List TokenPiece) (st : MediaTokens), pre ++ rest = p.pieces →
      st.WellFormed → st.hasMtmd = p.hasMtmd → Represents st pre →
        ∃ st', rest.foldlM pushPiece st = .ok st' ∧ st'.WellFormed ∧ st'.hasMtmd = p.hasMtmd ∧
          Represents st' p.pieces := by
    intro rest
    induction rest with
    | nil =>
      intro pre st heq hwf hmtmd h
      rw [append_nil] at heq
      exact ⟨st, rfl, hwf, hmtmd, heq ▸ h⟩
    | cons q rest ih =>
      intro pre st heq hwf hmtmd h
      have hmem : ∀ r ∈ pre ++ q :: rest, r ∈ p.pieces := fun r hr => heq ▸ hr
      obtain ⟨st', hpush, hwf', hmtmd', h'⟩ := h.pushPiece hwf
        (fun r hr => p.ok r (hmem r (mem_append_left _ hr)))
        (p.ok q (hmem q (mem_append_right _ mem_cons_self)))
        (fun hfalse => p.noMedia (hmtmd.symm.trans hfalse) q
          (hmem q (mem_append_right _ mem_cons_self)))
      rw [foldlM_cons, hpush]
      exact ih (pre ++ [q]) st' (by rw [append_assoc, singleton_append, heq]) hwf'
        (hmtmd'.trans hmtmd) h'
  exact hbuild p.pieces [] _ rfl (wellFormed_empty p.hasMtmd) rfl (represents_empty p.hasMtmd)

/-- The token `7` and two images of two tokens. -/
def twoImages : MediaTokens where
  hasMtmd := true
  mapIdxToMedia := (AList.insert 1 ⟨[0], 2⟩ ∅).insert 3 ⟨[1], 2⟩
  tokens := [7, tokenNull, tokenNull, tokenNull, tokenNull]

lemma wellFormed_twoImages : twoImages.WellFormed :=
  have htoken : WellFormed { hasMtmd := true, tokens := [7] } :=
    (wellFormed_empty true).pushBack (by decide)
  have himage : WellFormed {
      hasMtmd := true
      mapIdxToMedia := AList.insert 1 ⟨[0], 2⟩ ∅
      tokens := [7, tokenNull, tokenNull] } :=
    htoken.pushBackChunk rfl (by decide : 0 < 2)
  himage.pushBackChunk rfl (by decide : 0 < 2)

/-! ## Keeping the first tokens -/

/-- **What `keep_first` is for**: it throws where a chunk would be cut, and then changes nothing;
elsewhere it keeps the tokens and the chunks before the place. -/
structure KeepsFirst (st : MediaTokens) (n : ℕ) (result : Except Failure Unit) (st' : MediaTokens) :
    Prop where
  threw : st.Inside n → (∃ message, result = .error (.threw message)) ∧ st' = st
  kept : ¬ st.Inside n → result = .ok () ∧ st'.WellFormed ∧ st'.tokens = st.tokens.take n ∧
    ∀ s, st'.mapIdxToMedia.lookup s = if s < n then st.mapIdxToMedia.lookup s else none

lemma lookup_foldl_erase (chunks : AList fun _ : ℕ => MediaChunk) (idxs : List ℕ) (s : ℕ) :
    (idxs.foldl (fun chunks idx => chunks.erase idx) chunks).lookup s =
      if s ∈ idxs then none else chunks.lookup s := by
  induction idxs generalizing chunks with
  | nil => rfl
  | cons idx idxs ih =>
    rw [foldl_cons, ih]
    by_cases hs : s = idx
    · subst hs
      rw [AList.lookup_erase, ite_self, if_pos mem_cons_self]
    · rw [AList.lookup_erase_ne hs]
      simp only [mem_cons, hs, false_or]

lemma lookup_chunksBefore (st : MediaTokens) (n s : ℕ) :
    (st.chunksBefore n).lookup s = if s < n then st.mapIdxToMedia.lookup s else none := by
  rw [chunksBefore, lookup_foldl_erase]
  simp only [mem_filter, decide_eq_true_eq]
  by_cases hmem : s ∈ st.mapIdxToMedia
  · by_cases hlt : s < n
    · rw [if_neg fun h => absurd h.2 (Nat.not_le_of_lt hlt), if_pos hlt]
    · rw [if_pos ⟨hmem, Nat.le_of_not_lt hlt⟩, if_neg hlt]
  · rw [AList.lookup_eq_none.mpr hmem, ite_self, ite_self]

/-- **A cut at the boundary of chunks** leaves a well-formed value. -/
theorem WellFormed.cut (h : st.WellFormed) (hn : ¬ st.Inside n)
    (htokens : st'.tokens = st.tokens.take n) (hmtmd : st'.hasMtmd = st.hasMtmd)
    (hlookup : ∀ s, st'.mapIdxToMedia.lookup s =
      if s < n then st.mapIdxToMedia.lookup s else none) : st'.WellFormed := by
  have hsome : ∀ s c, st'.mapIdxToMedia.lookup s = some c →
      s < n ∧ st.mapIdxToMedia.lookup s = some c := by
    intro s c hs
    rw [hlookup] at hs
    split_ifs at hs with hlt
    exact ⟨hlt, hs⟩
  have hcovers : ∀ s c i, st'.Covers s c i → i < n ∧ st.Covers s c i := by
    rintro s c i ⟨hs, hle, hlt⟩
    obtain ⟨hsn, hs'⟩ := hsome s c hs
    refine ⟨Nat.lt_of_not_le fun hni => hn ⟨s, c, hs', hsn, by omega⟩, hs', hle, hlt⟩
  have hget : ∀ i, i < n → st'.tokens[i]? = st.tokens[i]? := fun i hi => by
    rw [htokens, getElem?_take, if_pos hi]
  exact {
    noMedia := fun hfalse s => by
      rw [hlookup, h.noMedia (hmtmd.symm.trans hfalse), ite_self]
    pos := fun s c hs => h.pos s c (hsome s c hs).2
    null := fun s c i hi => by
      obtain ⟨hin, hi'⟩ := hcovers s c i hi
      rw [hget i hin]
      exact h.null s c i hi'
    covered := fun i hi => by
      have hin : i < n := by
        have hlt := (List.getElem?_eq_some_iff.mp hi).1
        rw [htokens, length_take] at hlt
        omega
      rw [hget i hin] at hi
      obtain ⟨s, c, hs, hle, hlt⟩ := h.covered i hi
      exact ⟨s, c, by rw [hlookup, if_pos (by omega), hs], hle, hlt⟩
    unique := fun s c s' c' i hi hi' => h.unique s c s' c' i (hcovers s c i hi).2
      (hcovers s' c' i hi').2 }

/-- The check throws when the tokens on both sides are null and the place before is no start. -/
lemma checkCut_eq (hpos : 0 < n) (hleft : st.tokens[n - 1]? = some tokenNull)
    (hright : st.tokens[n]? = some tokenNull) :
    st.checkCut n = if st.mapIdxToMedia.lookup (n - 1) = none then
      .error (.threw "Chunk not found") else .ok () := by
  rw [checkCut, if_pos hpos, if_pos ⟨hleft, hright⟩, findChunk]
  cases hlookup : st.mapIdxToMedia.lookup (n - 1) with
  | none => rfl
  | some c => rfl

lemma checkCut_of_not (hnot : ¬ (0 < n ∧ st.tokens[n - 1]? = some tokenNull ∧
    st.tokens[n]? = some tokenNull)) : st.checkCut n = .ok () := by
  rw [checkCut]
  split_ifs with hpos hnull
  · exact absurd ⟨hpos, hnull⟩ hnot
  · rfl
  · rfl

/-- What is kept when nothing is thrown. -/
lemma keepFirst_of_checkCut (h : st.WellFormed) (hn : n ≤ st.tokens.length)
    (hcheck : st.checkCut n = .ok ()) :
    ∃ st', st.keepFirst n = (.ok (), st') ∧ st'.hasMtmd = st.hasMtmd ∧
      st'.tokens = st.tokens.take n ∧
      ∀ s, st'.mapIdxToMedia.lookup s = if s < n then st.mapIdxToMedia.lookup s else none := by
  rw [keepFirst]
  split_ifs with hmtmd hall
  · refine ⟨st, rfl, rfl, by rw [hall, take_length], fun s => ?_⟩
    split_ifs with hlt
    · rfl
    · cases hs : st.mapIdxToMedia.lookup s with
      | none => rfl
      | some c =>
        have hle := h.le_length hs
        have hpos := h.pos s c hs
        omega
  · rw [hcheck]
    exact ⟨_, rfl, rfl, rfl, fun s => lookup_chunksBefore st n s⟩
  · refine ⟨_, rfl, rfl, rfl, fun s => ?_⟩
    rw [h.noMedia (by simpa using hmtmd), ite_self]

/-- What is thrown between two null tokens. -/
lemma keepFirst_of_null (h : st.WellFormed) (hpos : 0 < n)
    (hleft : st.tokens[n - 1]? = some tokenNull) (hright : st.tokens[n]? = some tokenNull)
    (hnone : st.mapIdxToMedia.lookup (n - 1) = none) :
    st.keepFirst n = (.error (.threw "Chunk not found"), st) := by
  have hmtmd : st.hasMtmd = true := by
    by_contra hfalse
    obtain ⟨s, c, hs, -⟩ := h.covered n hright
    rw [h.noMedia (by simpa using hfalse)] at hs
    cases hs
  have hlt := (List.getElem?_eq_some_iff.mp hright).1
  rw [keepFirst, if_neg (not_not_intro hlt.le), if_pos hmtmd, if_neg (Nat.ne_of_lt hlt),
    checkCut_eq hpos hleft hright, if_pos hnone]

/-- **`keep_first` does what it is for exactly when, at a place between two null tokens, the place
before is the start of a chunk if and only if the place itself is.** -/
theorem keepFirst_iff (h : st.WellFormed) (hn : n ≤ st.tokens.length) :
    KeepsFirst st n (st.keepFirst n).1 (st.keepFirst n).2 ↔
      (0 < n → st.tokens[n - 1]? = some tokenNull → st.tokens[n]? = some tokenNull →
        ((st.mapIdxToMedia.lookup (n - 1)).isSome ↔ (st.mapIdxToMedia.lookup n).isSome)) := by
  by_cases hnull : 0 < n ∧ st.tokens[n - 1]? = some tokenNull ∧ st.tokens[n]? = some tokenNull
  · obtain ⟨hpos, hleft, hright⟩ := hnull
    have hinside := h.lookup_eq_none_iff hright
    have hcheck := checkCut_eq hpos hleft hright
    cases hbefore : st.mapIdxToMedia.lookup (n - 1) with
    | none =>
      rw [keepFirst_of_null h hpos hleft hright hbefore]
      constructor
      · intro hkeeps _ _ _
        refine iff_of_false (fun hsome => (by cases hsome)) fun hsome => ?_
        have hout : ¬ st.Inside n := fun hin => by
          rw [hinside.mpr hin] at hsome
          cases hsome
        cases (hkeeps.kept hout).1
      · intro hcond
        have hin : st.Inside n := hinside.mp (Option.not_isSome_iff_eq_none.mp fun hsome => by
          cases (hcond hpos hleft hright).mpr hsome)
        exact ⟨fun _ => ⟨⟨_, rfl⟩, rfl⟩, fun hout => absurd hin hout⟩
    | some c =>
      rw [if_neg (by rw [hbefore]; exact fun h => (by cases h))] at hcheck
      obtain ⟨st', heq, hmtmd', htokens, hlookup⟩ := keepFirst_of_checkCut h hn hcheck
      rw [heq]
      constructor
      · intro hkeeps _ _ _
        refine iff_of_true rfl (Option.isSome_iff_ne_none.mpr fun hnone => ?_)
        obtain ⟨⟨message, herror⟩, -⟩ := hkeeps.threw (hinside.mp hnone)
        cases herror
      · intro hcond
        have hout : ¬ st.Inside n := fun hin => by
          have hsome := (hcond hpos hleft hright).mp rfl
          rw [hinside.mpr hin] at hsome
          cases hsome
        exact ⟨fun hin => absurd hin hout,
          fun _ => ⟨rfl, h.cut hout htokens hmtmd' hlookup, htokens, hlookup⟩⟩
  · refine iff_of_true ?_ fun hpos hleft hright => absurd ⟨hpos, hleft, hright⟩ hnull
    obtain ⟨st', heq, hmtmd, htokens, hlookup⟩ :=
      keepFirst_of_checkCut h hn (checkCut_of_not hnull)
    rw [heq]
    exact {
      threw := fun hin => absurd (hin.null h) hnull
      kept := fun hin => ⟨rfl, h.cut hin htokens hmtmd hlookup, htokens, hlookup⟩ }

theorem keepFirst_iff_twoImages :
    KeepsFirst twoImages 1 (twoImages.keepFirst 1).1 (twoImages.keepFirst 1).2 ↔
      (0 < 1 → twoImages.tokens[1 - 1]? = some tokenNull → twoImages.tokens[1]? = some tokenNull →
        ((twoImages.mapIdxToMedia.lookup (1 - 1)).isSome ↔
          (twoImages.mapIdxToMedia.lookup 1).isSome)) :=
  keepFirst_iff wellFormed_twoImages (by decide)

/-- The first image is cut in two, and the place between the images is refused. -/
theorem not_keepsFirst_twoImages : twoImages.WellFormed ∧
      ¬ KeepsFirst twoImages 2 (twoImages.keepFirst 2).1 (twoImages.keepFirst 2).2 ∧
      ¬ KeepsFirst twoImages 3 (twoImages.keepFirst 3).1 (twoImages.keepFirst 3).2 := by
  refine ⟨wellFormed_twoImages, fun h => ?_, fun h => ?_⟩
  · obtain ⟨⟨message, herror⟩, -⟩ := h.threw ⟨1, ⟨[0], 2⟩, rfl, by decide, by decide⟩
    cases herror
  · have hout : ¬ twoImages.Inside 3 := by
      rw [← wellFormed_twoImages.lookup_eq_none_iff rfl]
      exact fun hnone => (by cases hnone)
    cases (h.kept hout).1

/-! ## Appending another list -/

/-- **What `push_back` of another list is for**: the tokens one behind the other, and the chunks
where they come to be. -/
structure Concatenates (a b st : MediaTokens) : Prop where
  hasMtmd : st.hasMtmd = a.hasMtmd
  tokens : st.tokens = a.tokens ++ b.tokens
  chunks : ∀ i, st.mapIdxToMedia.lookup i = if i < a.tokens.length then a.mapIdxToMedia.lookup i
    else b.mapIdxToMedia.lookup (i - a.tokens.length)

lemma foldlM_pushBack (toks : List ℤ) (htoks : tokenNull ∉ toks) :
    toks.foldlM pushBack st = .ok { st with tokens := st.tokens ++ toks } := by
  induction toks generalizing st with
  | nil => simp only [append_nil]; rfl
  | cons tok toks ih =>
    obtain ⟨hne, htoks⟩ := ne_and_not_mem_of_not_mem_cons htoks
    rw [foldlM_cons, pushBack, if_neg (Ne.symm hne)]
    change toks.foldlM pushBack { st with tokens := st.tokens ++ [tok] } = _
    rw [ih htoks]
    simp only [append_assoc, singleton_append]

lemma foldlM_pushBack_null (toks : List ℤ) (htoks : tokenNull ∈ toks) :
    toks.foldlM pushBack st = .error (.threw "Invalid token") := by
  induction toks generalizing st with
  | nil => cases htoks
  | cons tok toks ih =>
    rw [foldlM_cons, pushBack]
    split_ifs with hnull
    · rfl
    · exact ih (mem_of_ne_of_mem (Ne.symm hnull) htoks)

/-- **A list with a media chunk cannot be appended**: its first null token is refused. -/
theorem pushBackTokens_of_lookup (hb : b.WellFormed) (hs : b.mapIdxToMedia.lookup s = some c)
    (fuel : ℕ) : pushBackTokens fuel a b = .error (.threw "Invalid token") := by
  have hnull := hb.null s c s ⟨hs, Nat.le_refl s, Nat.lt_add_of_pos_right (hb.pos s c hs)⟩
  rw [pushBackTokens, foldlM_pushBack_null _ (mem_of_getElem? hnull)]
  rfl

lemma pushBackTokens_of_noMedia (hb : b.WellFormed) (hmtmd : b.hasMtmd = true → a.hasMtmd = true)
    (hnone : ∀ s, b.mapIdxToMedia.lookup s = none) (fuel : ℕ) :
    pushBackTokens (fuel + 1) a b = .ok { a with tokens := a.tokens ++ b.tokens } := by
  have hnull : tokenNull ∉ b.tokens := by
    intro hmem
    obtain ⟨i, hi⟩ := getElem?_of_mem hmem
    obtain ⟨s, c, hs, -⟩ := hb.covered i hi
    rw [hnone] at hs
    cases hs
  have hkeys : b.mapIdxToMedia.keys = [] := eq_nil_iff_forall_not_mem.mpr fun s hs =>
    AList.lookup_eq_none.mp (hnone s) (AList.mem_keys.mpr hs)
  rw [pushBackTokens, foldlM_pushBack _ hnull]
  change (if b.hasMtmd = true then if a.hasMtmd = true then copyChunks a.tokens.length b (fuel + 1)
    { a with tokens := a.tokens ++ b.tokens } else .error .aborted else _) = _
  split_ifs with hb' ha'
  · rw [copyChunks, hkeys]
    rfl
  · exact absurd (hmtmd hb') ha'
  · rfl

/-- **Another list is appended exactly when it has no media chunk.** -/
theorem pushBackTokens_iff (ha : a.WellFormed) (hb : b.WellFormed)
    (hmtmd : b.hasMtmd = true → a.hasMtmd = true) :
    (∃ fuel st, pushBackTokens fuel a b = .ok st ∧ Concatenates a b st) ↔
      ∀ s, b.mapIdxToMedia.lookup s = none := by
  constructor
  · rintro ⟨fuel, st, heq, -⟩ s
    cases hs : b.mapIdxToMedia.lookup s with
    | none => rfl
    | some c =>
      rw [pushBackTokens_of_lookup hb hs fuel] at heq
      cases heq
  · intro hnone
    refine ⟨1, _, pushBackTokens_of_noMedia hb hmtmd hnone 0, rfl, rfl, fun i => ?_⟩
    rw [hnone]
    split_ifs with hi
    · rfl
    · cases hs : a.mapIdxToMedia.lookup i with
      | none => rfl
      | some c =>
        have hle := ha.le_length hs
        have hpos := ha.pos i c hs
        omega

theorem pushBackTokens_iff_text :
    (∃ fuel st, pushBackTokens fuel twoImages { hasMtmd := true, tokens := [7] } = .ok st ∧
      Concatenates twoImages { hasMtmd := true, tokens := [7] } st) ↔
        ∀ s, ({ hasMtmd := true, tokens := [7] } : MediaTokens).mapIdxToMedia.lookup s = none :=
  pushBackTokens_iff wellFormed_twoImages ((wellFormed_empty true).pushBack (by decide))
    fun _ => rfl

/-- The two images are not appended to an empty list. -/
theorem not_pushBackTokens_twoImages : twoImages.WellFormed ∧ WellFormed { hasMtmd := true } ∧
      ¬ ∃ fuel st, pushBackTokens fuel { hasMtmd := true } twoImages = .ok st ∧
        Concatenates { hasMtmd := true } twoImages st := by
  refine ⟨wellFormed_twoImages, wellFormed_empty true, ?_⟩
  rintro ⟨fuel, st, heq, -⟩
  cases heq

end MediaTokens
end Llama
