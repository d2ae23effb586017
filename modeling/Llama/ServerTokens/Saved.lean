import Llama.Lib.Control
import Llama.Lib.Cursor
import Llama.ServerTokens.Positions

/-!
# Saved token lists

A token list is saved as bytes: a null token and a version, the tokens, the places of the media
chunks and the chunks.  The bytes are filled up to whole tokens, since the slot file has room for
tokens only, and a list of tokens that was saved by an older version is told from them by its first
token.

The lengths are read from the file.  Each is compared with what is left before anything is copied.
-/

namespace Llama

open List Bytes Cursor

/-- `mtmd_input_chunk_save` and `mtmd_input_chunk_load`. -/
structure ChunkStore (C : Type) where
  save : C → Option (List UInt8)
  load : List UInt8 → Option C

/-- What is saved is loaded again. -/
def ChunkStore.Inverse {C : Type} (store : ChunkStore C) : Prop :=
  ∀ chunk bs, store.save chunk = some bs → store.load bs = some chunk

namespace ChunkTokens

variable {C : Type}

/-! ## The model -/

/-- `SERVER_TOKENS_STATE_VERSION`. -/
def stateVersion : ℕ := 1

/-- `server_tokens_state_u32`. -/
def stateU32 (value : ℕ) : Except String ℕ :=
  if value > 2 ^ 32 - 1 then .error "Server tokens state is too large" else .ok value

/-- The writer, for a list of values. -/
def writeVector {α : Type} (encode : α → List UInt8) (values : List α) :
    Except String (List UInt8) := do
  let size ← stateU32 values.length
  pure (Bytes.ofNat 4 size ++ values.flatMap encode)

def writeMediaChunk (store : ChunkStore C) (chunk : C) : Except String (List UInt8) := do
  match store.save chunk with
  | none => .error "Cannot serialize media chunk in server tokens"
  | some chunkData =>
    if chunkData.length = 0 then .error "Cannot serialize media chunk in server tokens"
    else writeVector (fun b => [b]) chunkData

/-- `take`: the bytes are filled up to whole tokens. -/
def fillUp (data : List UInt8) : List UInt8 :=
  data ++ List.replicate ((data.length + 4 - 1) / 4 * 4 - data.length) 0

/-- The items of the map, in its order. -/
def items (st : ChunkTokens C) : List (ℕ × C) :=
  st.keys.filterMap fun idx => (st.mapIdxToMedia.lookup idx).map fun chunk => (idx, chunk)

def serialize (store : ChunkStore C) (st : ChunkTokens C) : Except String (List UInt8) := do
  let tokens ← writeVector Bytes.ofInt32 st.tokens
  let mediaKeys ← st.items.mapM fun item => stateU32 item.1
  let keys ← writeVector (Bytes.ofNat 4) mediaKeys
  let chunks ← st.items.mapM fun item => writeMediaChunk store item.2
  pure (fillUp (Bytes.ofInt32 tokenNull ++ (Bytes.ofNat 4 stateVersion ++ (tokens ++
    (keys ++ chunks.flatten)))))

/-- The reader, for a value of four bytes. -/
def readValue {α : Type} (decode : List UInt8 → α) : Cursor α := do
  let remaining ← Cursor.left
  if remaining < 4 then Cursor.throw "Unexpected end of server tokens state"
  else do
    let bs ← Cursor.copy 4
    pure (decode bs)

/-- Bytes in groups of `width`. -/
def groups (width : ℕ) : ℕ → List UInt8 → List (List UInt8)
  | 0, _ => []
  | n + 1, bs => bs.take width :: groups width n (bs.drop width)

/-- The reader, for a list of values of `width` bytes. -/
def readVector {α : Type} (width : ℕ) (decode : List UInt8 → α) : Cursor (List α) := do
  let nValues ← readValue Bytes.toNat
  let remaining ← Cursor.left
  if nValues > remaining / width then Cursor.throw "Unexpected end of server tokens state"
  else do
    let bs ← Cursor.copy (nValues * width)
    pure ((groups width nValues bs).map decode)

/-- The loop over the places of the chunks. -/
def readMediaChunk (store : ChunkStore C) (result : ChunkTokens C) (startIdx : ℕ) :
    Cursor (ChunkTokens C) := do
  let chunkData ← readVector 1 fun bs => bs.headD 0
  Cursor.throwIf (chunkData = []) "Cannot load media chunk from server tokens state"
  match store.load chunkData with
  | none => Cursor.throw "Cannot load media chunk from server tokens state"
  | some chunk =>
    pure { result with mapIdxToMedia := result.mapIdxToMedia.insert startIdx chunk }

/-- `deserialize`, up to the last chunk. -/
def readState (store : ChunkStore C) (hasMtmd : Bool) : Cursor (ChunkTokens C) := do
  let _marker ← readValue Bytes.toInt32
  let version ← readValue Bytes.toNat
  Cursor.throwIf (version ≠ stateVersion) "Unsupported server tokens state version"
  let tokens ← readVector 4 Bytes.toInt32
  let mediaKeys ← readVector 4 Bytes.toNat
  Cursor.throwIf (mediaKeys ≠ [] ∧ hasMtmd = false) "Cannot restore media tokens without an mmproj"
  Cursor.forEach (readMediaChunk store) mediaKeys ⟨hasMtmd, ∅, tokens⟩

/-- The end of `deserialize`. -/
def checkEnd (result : ChunkTokens C) : Cursor (ChunkTokens C) := do
  let remaining ← Cursor.left
  if remaining ≥ 4 then Cursor.throw "Trailing data in server tokens state" else pure result

def deserialize (store : ChunkStore C) (packed : List ℤ) (hasMtmd : Bool) :
    Cursor.Result (ChunkTokens C) :=
  if packed.head? ≠ some tokenNull then
    -- a plain token list, as written by older versions
    .ok ⟨hasMtmd, ∅, packed⟩ 0
  else (readState store hasMtmd >>= checkEnd) (packed.flatMap Bytes.ofInt32) 0

/-- Saved bytes as they are given to the slot file. -/
def packTokens (bs : List UInt8) : List ℤ := (groups 4 (bs.length / 4) bs).map Bytes.toInt32

/-- The loop of `validate`; the number of chunks, or nothing when the list is not valid. -/
def validateLoop (api : ChunkApi C) (nVocab : ℤ) (st : ChunkTokens C) : ℕ → ℕ → ℕ → Option ℕ
  | 0, i, nMedia => if i < st.tokens.length then none else some nMedia
  | fuel + 1, i, nMedia =>
    match st.tokens[i]? with
    | none => some nMedia
    | some t =>
      if t = tokenNull then
        match st.mapIdxToMedia.lookup i with
        | none => none
        | some chunk =>
          if api.isText chunk then none
          else if api.nTokens chunk = 0 ∨ api.nPos chunk ≤ 0 ∨
              api.nTokens chunk > st.tokens.length - i then none
          else if ((st.tokens.drop i).take (api.nTokens chunk)).any (· ≠ tokenNull) then none
          else validateLoop api nVocab st fuel (i + (api.nTokens chunk - 1) + 1) (nMedia + 1)
      else if t < 0 ∨ nVocab ≤ t then none
      else validateLoop api nVocab st fuel (i + 1) nMedia

/-- `validate`.  The loop makes no more rounds than there are tokens. -/
def validate (api : ChunkApi C) (nVocab : ℤ) (st : ChunkTokens C) : Bool :=
  validateLoop api nVocab st st.tokens.length 0 0 = some st.mapIdxToMedia.keys.length

variable {store : ChunkStore C} {api : ChunkApi C} {st : ChunkTokens C} {α : Type}

/-! ## Nothing is read outside of the file -/

lemma safe_readValue (decode : List UInt8 → α) : Cursor.Safe (readValue decode) :=
  safe_left_bind (n := fun _ => 4) (fun _ hk => Nat.not_lt.mp hk) (fun _ => rfl)
    fun _ bs => safe_pure (decode bs)

lemma safe_readVector (width : ℕ) (decode : List UInt8 → α) :
    Cursor.Safe (readVector width decode) := by
  refine (safe_readValue toNat).bind fun nValues => ?_
  refine safe_left_bind (n := fun _ => nValues * width) (c := fun k => nValues > k / width)
    (fun k hk => ?_) (fun _ => rfl) fun _ bs => safe_pure _
  exact (Nat.mul_le_mul_right width (Nat.not_lt.mp hk)).trans (Nat.div_mul_le_self k width)

lemma safe_readMediaChunk (store : ChunkStore C) (result : ChunkTokens C) (startIdx : ℕ) :
    Cursor.Safe (readMediaChunk store result startIdx) := by
  refine (safe_readVector 1 _).bind fun chunkData => ?_
  refine (safe_throwIf _ _).bind fun _ => ?_
  cases store.load chunkData with
  | none => exact safe_throw _
  | some chunk => exact safe_pure _

lemma safe_readState (store : ChunkStore C) (hasMtmd : Bool) :
    Cursor.Safe (readState store hasMtmd) := by
  refine (safe_readValue _).bind fun _ => (safe_readValue _).bind fun _ => ?_
  refine (safe_throwIf _ _).bind fun _ => ?_
  refine (safe_readVector 4 _).bind fun tokens => (safe_readVector 4 _).bind fun mediaKeys => ?_
  refine (safe_throwIf _ _).bind fun _ => ?_
  exact safe_forEach (safe_readMediaChunk store) mediaKeys _

lemma safe_checkEnd (result : ChunkTokens C) : Cursor.Safe (checkEnd result) := by
  refine safe_left.bind fun remaining => ?_
  split
  · exact safe_throw _
  · exact safe_pure _

lemma deserialize_ne_outOfBounds (store : ChunkStore C) (packed : List ℤ) (hasMtmd : Bool) :
    deserialize store packed hasMtmd ≠ .outOfBounds := by
  unfold deserialize
  split_ifs with hplain
  · exact fun h => (by cases h)
  · exact (((safe_readState store hasMtmd).bind safe_checkEnd) _ 0 (Nat.zero_le _)).1

/-! ## Saved lists are read back -/

variable {encode : α → List UInt8} {width : ℕ} {bs : List UInt8}

/-- The groups of encoded values are the codes. -/
lemma groups_flatMap {values : List α} (h : ∀ v ∈ values, (encode v).length = width) :
    groups width values.length (values.flatMap encode) = values.map encode := by
  induction values with
  | nil => rfl
  | cons v values ih =>
    obtain ⟨hv, htail⟩ := forall_mem_cons.mp h
    rw [length_cons, groups, flatMap_cons, map_cons, ← hv, take_left, drop_left, hv, ih htail]

lemma length_flatMap_encode {values : List α} (h : ∀ v ∈ values, (encode v).length = width) :
    (values.flatMap encode).length = values.length * width := by
  induction values with
  | nil => exact (Nat.zero_mul width).symm
  | cons v values ih =>
    obtain ⟨hv, htail⟩ := forall_mem_cons.mp h
    rw [flatMap_cons, length_append, hv, ih htail, length_cons, Nat.succ_mul, Nat.add_comm]

lemma reads_readValue {decode : List UInt8 → α} {a : α} (hbs : bs.length = 4)
    (ha : decode bs = a) : Cursor.Reads (readValue decode) bs a := by
  refine reads_left fun k hk => ?_
  rw [if_neg (by omega), ← hbs, ← ha]
  exact (reads_copy bs).bind_pure decode

/-- What the writer writes for a list the reader reads. -/
lemma reads_readVector {decode : List UInt8 → α} {values : List α} (hwidth : 0 < width)
    (hlength : ∀ v ∈ values, (encode v).length = width)
    (hdecode : ∀ v ∈ values, decode (encode v) = v) (h : writeVector encode values = .ok bs) :
    Cursor.Reads (readVector width decode) bs values := by
  unfold writeVector stateU32 at h
  split_ifs at h with hlarge
  · cases h
  cases h
  have hsmall : values.length < 256 ^ 4 := by omega
  refine (reads_readValue (length_ofNat 4 _) (Bytes.toNat_ofNat hsmall)).bind ?_
  refine reads_left fun k hk => ?_
  have hcount := length_flatMap_encode hlength
  have hle : values.length ≤ k / width := (Nat.le_div_iff_mul_le hwidth).mpr (by omega)
  rw [if_neg (Nat.not_lt.mpr hle), ← hcount]
  have hvalues : (groups width values.length (values.flatMap encode)).map decode = values := by
    rw [groups_flatMap hlength, map_map]
    exact (map_congr_left hdecode).trans (map_id values)
  have hread := (reads_copy (values.flatMap encode)).bind_pure fun bs =>
    (groups width values.length bs).map decode
  rwa [hvalues] at hread

/-- Lists with the same tokens and the same map. -/
structure Same (a b : ChunkTokens C) : Prop where
  hasMtmd : a.hasMtmd = b.hasMtmd
  tokens : a.tokens = b.tokens
  media : ∀ s, a.mapIdxToMedia.lookup s = b.mapIdxToMedia.lookup s

lemma mapM_eq_ok {ε β γ : Type} {f : β → Except ε γ} {l : List β} {bs : List γ}
    (h : l.mapM f = .ok bs) (d : γ) :
    bs = l.map (fun a => (f a).toOption.getD d) ∧ ∀ a ∈ l, f a = .ok ((f a).toOption.getD d) := by
  induction l generalizing bs with
  | nil =>
    cases h
    exact ⟨rfl, fun a ha => absurd ha not_mem_nil⟩
  | cons a l ih =>
    rw [mapM_cons] at h
    obtain ⟨b, hb, h⟩ := except_bind_eq_ok.mp h
    obtain ⟨rest, hrest, h⟩ := except_bind_eq_ok.mp h
    cases h
    obtain ⟨rfl, hall⟩ := ih hrest
    have hhead : (f a).toOption.getD d = b := by rw [hb]; rfl
    rw [map_cons, hhead]
    exact ⟨rfl, forall_mem_cons.mpr ⟨hb.trans (congrArg _ hhead.symm), hall⟩⟩

lemma reads_readMediaChunk (hinv : store.Inverse) {chunk : C}
    (h : writeMediaChunk store chunk = .ok bs) (result : ChunkTokens C) (startIdx : ℕ) :
    Cursor.Reads (readMediaChunk store result startIdx) bs
      { result with mapIdxToMedia := result.mapIdxToMedia.insert startIdx chunk } := by
  unfold writeMediaChunk at h
  cases hsave : store.save chunk with
  | none =>
    rw [hsave] at h
    cases h
  | some chunkData =>
    rw [hsave] at h
    dsimp only at h
    split_ifs at h with hempty
    have hread : Cursor.Reads (readVector 1 fun bs => bs.headD 0) bs chunkData :=
      reads_readVector Nat.one_pos (fun _ _ => rfl) (fun _ _ => rfl) h
    rw [← append_nil bs]
    refine hread.bind ?_
    have hne : ¬ chunkData = [] := fun hnil => hempty (by rw [hnil]; rfl)
    refine (Cursor.reads_throwIf hne _).bind_nil ?_
    rw [hinv chunk chunkData hsave]
    exact Cursor.reads_pure _

lemma mem_items {item : ℕ × C} :
    item ∈ st.items ↔ st.mapIdxToMedia.lookup item.1 = some item.2 := by
  have hperm : st.keys.Perm st.mapIdxToMedia.keys := mergeSort_perm _ _
  rw [items, mem_filterMap]
  constructor
  · rintro ⟨idx, -, hidx⟩
    obtain ⟨chunk, hchunk, rfl⟩ := Option.map_eq_some_iff.mp hidx
    exact hchunk
  · intro h
    refine ⟨item.1, hperm.mem_iff.mpr ?_, by rw [h]; rfl⟩
    rw [← AList.mem_keys, ← AList.lookup_isSome, h]
    rfl

/-- The map that is built from the items. -/
lemma lookup_foldl_insert {l : List (ℕ × C)} (hnodup : (l.map Prod.fst).Nodup)
    (chunks : AList fun _ : ℕ => C) (s : ℕ) :
    (∀ c, (s, c) ∈ l → (l.foldl (fun chunks item => chunks.insert item.1 item.2) chunks).lookup s =
      some c) ∧
    ((∀ c, (s, c) ∉ l) → (l.foldl (fun chunks item => chunks.insert item.1 item.2) chunks).lookup s =
      chunks.lookup s) := by
  induction l generalizing chunks with
  | nil => exact ⟨fun c hc => absurd hc not_mem_nil, fun _ => rfl⟩
  | cons item l ih =>
    obtain ⟨hnot, hnodup⟩ := nodup_cons.mp hnodup
    obtain ⟨hmem, hout⟩ := ih hnodup (chunks.insert item.1 item.2)
    rw [foldl_cons]
    refine ⟨fun c hc => ?_, fun hno => ?_⟩
    · rcases mem_cons.mp hc with rfl | hc
      · rw [hout fun c' hc' => hnot (mem_map.mpr ⟨_, hc', rfl⟩), AList.lookup_insert]
      · exact hmem c hc
    · have hne : s ≠ item.1 := fun heq => hno item.2 (by rw [heq]; exact mem_cons_self)
      rw [hout fun c hc => hno c (mem_cons_of_mem _ hc), AList.lookup_insert_ne hne]

lemma map_fst_items (st : ChunkTokens C) : st.items.map Prod.fst = st.keys := by
  have hperm : st.keys.Perm st.mapIdxToMedia.keys := mergeSort_perm _ _
  have hstep : ∀ l : List ℕ, (∀ idx ∈ l, st.mapIdxToMedia.lookup idx ≠ none) →
      (l.filterMap fun idx => (st.mapIdxToMedia.lookup idx).map fun chunk => (idx, chunk)).map
        Prod.fst = l := by
    intro l hl
    induction l with
    | nil => rfl
    | cons idx l ih =>
      obtain ⟨hidx, hl⟩ := forall_mem_cons.mp hl
      obtain ⟨c, hc⟩ := Option.ne_none_iff_exists'.mp hidx
      rw [filterMap_cons, hc, Option.map_some, map_cons, ih hl]
  refine hstep _ fun idx hidx => ?_
  rw [Ne, AList.lookup_eq_none, not_not]
  exact hperm.mem_iff.mp hidx

lemma stateU32_eq_ok {value size : ℕ} (h : stateU32 value = .ok size) :
    value < 2 ^ 32 ∧ size = value := by
  unfold stateU32 at h
  split_ifs at h with hlarge
  cases h
  exact ⟨by omega, rfl⟩

lemma stateU32_of_lt {value : ℕ} (h : value < 2 ^ 32) : stateU32 value = .ok value :=
  if_neg (by omega)

/-- The bytes of a list, without those that fill them up, and what is read from them. -/
lemma serialize_eq_ok (hinv : store.Inverse)
    (hmedia : st.hasMtmd = false → ∀ s, st.mapIdxToMedia.lookup s = none)
    (hint : ∀ t ∈ st.tokens, Bytes.IsInt32 t) (h : serialize store st = .ok bs) :
    ∃ body, bs = fillUp (ofInt32 tokenNull ++ body) ∧
      Cursor.Reads (readState store st.hasMtmd) (ofInt32 tokenNull ++ body)
        (st.items.foldl (fun result item =>
          { result with mapIdxToMedia := result.mapIdxToMedia.insert item.1 item.2 })
          ⟨st.hasMtmd, ∅, st.tokens⟩) := by
  obtain ⟨tokens, htokens, h⟩ := except_bind_eq_ok.mp h
  obtain ⟨mediaKeys, hkeys, h⟩ := except_bind_eq_ok.mp h
  obtain ⟨keys, hwrite, h⟩ := except_bind_eq_ok.mp h
  obtain ⟨chunks, hchunks, h⟩ := except_bind_eq_ok.mp h
  cases h
  refine ⟨_, rfl, ?_⟩
  obtain ⟨rfl, hall⟩ := mapM_eq_ok hchunks []
  have hfst : mediaKeys = st.items.map Prod.fst ∧ ∀ idx ∈ mediaKeys, idx < 2 ^ 32 := by
    obtain ⟨rfl, hall⟩ := mapM_eq_ok hkeys 0
    have hvalue : ∀ item ∈ st.items, (stateU32 item.1).toOption.getD 0 = item.1 ∧ item.1 < 2 ^ 32 :=
      fun item hitem => by
        obtain ⟨hlt, heq⟩ := stateU32_eq_ok (hall item hitem)
        exact ⟨heq, hlt⟩
    refine ⟨map_congr_left fun item hitem => (hvalue item hitem).1, fun idx hidx => ?_⟩
    obtain ⟨item, hitem, rfl⟩ := mem_map.mp hidx
    rw [(hvalue item hitem).1]
    exact (hvalue item hitem).2
  obtain ⟨hfst, hsmall⟩ := hfst
  refine (reads_readValue (length_ofInt32 _) rfl).bind ?_
  refine (reads_readValue (length_ofNat 4 _) rfl).bind ?_
  refine (reads_readVector (by decide) (fun _ _ => length_ofInt32 _)
    (fun t ht => toInt32_ofInt32 (hint t ht)) htokens).bind ?_
  refine (reads_readVector (by decide) (fun _ _ => length_ofNat 4 _)
    (fun idx hidx => Bytes.toNat_ofNat (hsmall idx hidx)) hwrite).bind ?_
  have hmtmd : ¬ (mediaKeys ≠ [] ∧ st.hasMtmd = false) := by
    rintro ⟨hne, hmtmd⟩
    rw [hfst] at hne
    obtain ⟨idx, hidx⟩ := exists_mem_of_ne_nil _ hne
    obtain ⟨item, hitem, -⟩ := mem_map.mp hidx
    have hlookup := mem_items.mp hitem
    rw [hmedia hmtmd] at hlookup
    cases hlookup
  refine (Cursor.reads_throwIf hmtmd _).bind_nil ?_
  rw [hfst]
  exact Cursor.reads_forEach (fun result item hitem =>
    reads_readMediaChunk hinv (hall item hitem) result item.1) _

lemma flatMap_groups : ∀ {n : ℕ} {bs : List UInt8}, bs.length = n * width →
    (groups width n bs).flatMap id = bs
  | 0, bs, h => by
    rw [Nat.zero_mul, length_eq_zero_iff] at h
    rw [h]
    rfl
  | n + 1, bs, h => by
    rw [Nat.succ_mul] at h
    have hdrop : (bs.drop width).length = n * width := by
      rw [length_drop]
      omega
    rw [groups, flatMap_cons, flatMap_groups hdrop, id, take_append_drop]

lemma length_of_mem_groups : ∀ {n : ℕ} {bs : List UInt8}, bs.length = n * width →
    ∀ g ∈ groups width n bs, g.length = width
  | 0, _, _ => fun g hg => absurd hg not_mem_nil
  | n + 1, bs, h => by
    rw [Nat.succ_mul] at h
    have hdrop : (bs.drop width).length = n * width := by
      rw [length_drop]
      omega
    refine forall_mem_cons.mpr ⟨?_, length_of_mem_groups hdrop⟩
    rw [length_take]
    omega

/-- The slot file gives the bytes back. -/
lemma flatMap_packTokens {n : ℕ} (h : bs.length = n * 4) :
    (packTokens bs).flatMap ofInt32 = bs := by
  have hdiv : bs.length / 4 = n := by omega
  rw [packTokens, hdiv, flatMap_map]
  have hcongr : (groups 4 n bs).flatMap (fun g => ofInt32 (toInt32 g)) =
      (groups 4 n bs).flatMap id := by
    rw [flatMap_def]
    congr 1
    exact map_congr_left fun g hg => ofInt32_toInt32 (length_of_mem_groups h g hg)
  rw [hcongr, flatMap_groups h]

lemma length_fillUp (bs : List UInt8) : (fillUp bs).length = (bs.length + 3) / 4 * 4 := by
  rw [fillUp, length_append, length_replicate]
  omega

lemma tokens_foldl_insert (l : List (ℕ × C)) (result : ChunkTokens C) : l.foldl (fun result item =>
      { result with mapIdxToMedia := result.mapIdxToMedia.insert item.1 item.2 }) result =
      { result with
        mapIdxToMedia := l.foldl (fun chunks item => chunks.insert item.1 item.2)
          result.mapIdxToMedia } := by
  induction l generalizing result with
  | nil => rfl
  | cons item l ih => rw [foldl_cons, ih, foldl_cons]

/-- Less than a token is left at the end. -/
lemma checkEnd_eq {result : ChunkTokens C} {data : List UInt8} {pos : ℕ}
    (hpos : pos ≤ data.length) (hend : data.length < pos + 4) :
    checkEnd result data pos = .ok result pos := by
  rw [checkEnd, left_bind hpos, if_neg (by omega)]
  rfl

/-- **A saved list is read back.** -/
theorem exists_deserialize (hinv : store.Inverse)
    (hmedia : st.hasMtmd = false → ∀ s, st.mapIdxToMedia.lookup s = none)
    (hint : ∀ t ∈ st.tokens, Bytes.IsInt32 t) (h : serialize store st = .ok bs) :
    ∃ st' pos, deserialize store (packTokens bs) st.hasMtmd = .ok st' pos ∧ Same st' st := by
  obtain ⟨body, rfl, hread⟩ := serialize_eq_ok hinv hmedia hint h
  have hlength := length_fillUp (ofInt32 tokenNull ++ body)
  have hhead : (packTokens (fillUp (ofInt32 tokenNull ++ body))).head? = some tokenNull := by
    obtain ⟨n, hn⟩ : ∃ n, (fillUp (ofInt32 tokenNull ++ body)).length / 4 = n + 1 := by
      rw [hlength, length_append, length_ofInt32]
      exact ⟨(body.length + 3) / 4, by omega⟩
    rw [packTokens, hn, groups, map_cons, head?_cons, fillUp, append_assoc,
      ← length_ofInt32 tokenNull, take_left]
    rfl
  unfold deserialize
  rw [if_neg (not_not.mpr hhead), flatMap_packTokens hlength, fillUp, hread.run_bind]
  rw [← fillUp, checkEnd_eq (by omega) (by omega), tokens_foldl_insert]
  refine ⟨_, _, rfl, ⟨rfl, rfl, fun s => ?_⟩⟩
  have hnodup : (st.items.map Prod.fst).Nodup := by
    rw [map_fst_items]
    exact (mergeSort_perm _ _).nodup_iff.mpr st.mapIdxToMedia.keys_nodup
  obtain ⟨hmem, hout⟩ := lookup_foldl_insert hnodup ∅ s
  cases hs : st.mapIdxToMedia.lookup s with
  | some c => exact hmem c (mem_items.mpr hs)
  | none =>
    rw [hout fun c hc => ?_]
    · rfl
    · have hlookup := mem_items.mp hc
      rw [hs] at hlookup
      cases hlookup

/-- A list is saved if its chunks are, and its lengths fit. -/
lemma exists_serialize (h : st.WellFormed api) (htokens : st.tokens.length < 2 ^ 32)
    (hsave : ∀ s c, st.mapIdxToMedia.lookup s = some c →
      ∃ bs, store.save c = some bs ∧ 0 < bs.length ∧ bs.length < 2 ^ 32) :
    ∃ bs, serialize store st = .ok bs := by
  have hwrite : ∀ {α : Type} (encode : α → List UInt8) (values : List α), values.length < 2 ^ 32 →
      ∃ bs, writeVector encode values = .ok bs := fun encode values hlt => by
    rw [writeVector, stateU32_of_lt hlt]
    exact ⟨_, rfl⟩
  have hmapM : ∀ {β γ : Type} (f : β → Except String γ) (l : List β), (∀ a ∈ l, ∃ b, f a = .ok b) →
      ∃ bs, l.mapM f = .ok bs ∧ bs.length = l.length := by
    intro β γ f l hl
    induction l with
    | nil => exact ⟨[], rfl, rfl⟩
    | cons a l ih =>
      obtain ⟨ha, hl⟩ := forall_mem_cons.mp hl
      obtain ⟨b, hb⟩ := ha
      obtain ⟨bs, hbs, hlen⟩ := ih hl
      refine ⟨b :: bs, ?_, congrArg (· + 1) hlen⟩
      rw [mapM_cons, hb, hbs]
      rfl
  have hkey : ∀ item ∈ st.items, item.1 < st.tokens.length := fun item hitem => by
    have hmc : (st.toMedia api).mapIdxToMedia.lookup item.1 = some (api.toMedia item.2) := by
      rw [lookup_toMedia, mem_items.mp hitem, Option.map_some]
    have hle := h.media.le_length hmc
    have hpos := h.media.pos _ _ hmc
    show item.1 < (st.toMedia api).tokens.length
    omega
  have hcount : st.items.length ≤ st.tokens.length := by
    have hnodup : (st.items.map Prod.fst).Nodup := by
      rw [map_fst_items]
      exact (mergeSort_perm _ _).nodup_iff.mpr st.mapIdxToMedia.keys_nodup
    have hsub : st.items.map Prod.fst ⊆ range st.tokens.length := fun idx hidx => by
      obtain ⟨item, hitem, rfl⟩ := mem_map.mp hidx
      exact mem_range.mpr (hkey item hitem)
    have hle := (subperm_of_subset hnodup hsub).length_le
    rwa [length_map, length_range] at hle
  obtain ⟨tokens, htok⟩ := hwrite ofInt32 st.tokens htokens
  obtain ⟨mediaKeys, hkeys, hlen⟩ := hmapM (fun item : ℕ × C => stateU32 item.1) st.items
    fun item hitem => ⟨_, stateU32_of_lt ((hkey item hitem).trans htokens)⟩
  obtain ⟨keys, hkeys'⟩ := hwrite (ofNat 4) mediaKeys (by omega)
  obtain ⟨chunks, hchunks, -⟩ := hmapM (fun item : ℕ × C => writeMediaChunk store item.2) st.items
    fun item hitem => by
      obtain ⟨bs, hbs, hpos, hlt⟩ := hsave _ _ (mem_items.mp hitem)
      obtain ⟨written, hwritten⟩ := hwrite (fun b => [b]) bs hlt
      refine ⟨written, ?_⟩
      rw [writeMediaChunk, hbs]
      dsimp only
      rw [if_neg (by omega), hwritten]
  rw [serialize, htok, except_ok_bind, hkeys, except_ok_bind, hkeys', hchunks]
  exact ⟨_, rfl⟩

/-! ## Lists that are valid -/

/-- The walk of `validate` over the tokens from a place on, with the chunks it meets. -/
inductive Walk (api : ChunkApi C) (st : ChunkTokens C) : ℕ → List ℕ → Prop
  | done {i : ℕ} (h : st.tokens.length ≤ i) : Walk api st i []
  | token {i : ℕ} {t : ℤ} {starts : List ℕ} (h : st.tokens[i]? = some t) (hne : t ≠ tokenNull)
      (hrest : Walk api st (i + 1) starts) : Walk api st i starts
  | chunk {i : ℕ} {c : C} {starts : List ℕ} (hc : st.mapIdxToMedia.lookup i = some c)
      (htok : 0 < api.nTokens c) (hpos : 0 < api.nPos c)
      (hnull : ∀ j, i ≤ j → j < i + api.nTokens c → st.tokens[j]? = some tokenNull)
      (hrest : Walk api st (i + api.nTokens c) starts) : Walk api st i (i :: starts)

lemma exists_walk {nVocab : ℤ} {fuel i nMedia n : ℕ}
    (h : validateLoop api nVocab st fuel i nMedia = some n) :
    ∃ starts, Walk api st i starts ∧ n = nMedia + starts.length := by
  induction fuel generalizing i nMedia with
  | zero =>
    rw [validateLoop] at h
    split_ifs at h with hlt
    cases h
    exact ⟨[], .done (Nat.not_lt.mp hlt), rfl⟩
  | succ fuel ih =>
    rw [validateLoop] at h
    cases ht : st.tokens[i]? with
    | none =>
      rw [ht] at h
      cases h
      exact ⟨[], .done (List.getElem?_eq_none_iff.mp ht), rfl⟩
    | some t =>
      rw [ht] at h
      dsimp only at h
      by_cases hnull : t = tokenNull
      · rw [if_pos hnull] at h
        cases hc : st.mapIdxToMedia.lookup i with
        | none =>
          rw [hc] at h
          cases h
        | some c =>
          rw [hc] at h
          dsimp only at h
          split_ifs at h with htext hsize hany
          obtain ⟨starts, hwalk, rfl⟩ := ih h
          rw [not_or, not_or] at hsize
          obtain ⟨htok, hpos, hle⟩ := hsize
          have hnext : i + (api.nTokens c - 1) + 1 = i + api.nTokens c := by omega
          rw [hnext] at hwalk
          refine ⟨i :: starts, .chunk hc (Nat.pos_of_ne_zero htok) (Int.not_le.mp hpos)
            (fun j hij hj => ?_) hwalk, by rw [length_cons]; omega⟩
          have hjlt : j < st.tokens.length := by omega
          have hmem : st.tokens[j] ∈ (st.tokens.drop i).take (api.nTokens c) := by
            refine mem_iff_getElem?.mpr ⟨j - i, ?_⟩
            rw [getElem?_take, if_pos (by omega), getElem?_drop, Nat.add_sub_cancel' hij,
              getElem?_eq_getElem hjlt]
          rw [getElem?_eq_getElem hjlt]
          by_contra hne
          exact hany (any_eq_true.mpr ⟨_, hmem, decide_eq_true fun heq =>
            hne (congrArg some heq)⟩)
      · split_ifs at h with hvocab
        obtain ⟨starts, hwalk, rfl⟩ := ih h
        exact ⟨starts, .token ht hnull hwalk, rfl⟩

variable {i : ℕ} {starts : List ℕ}

section

variable (h : Walk api st i starts)

include h

/-- The chunks of a walk: they begin one behind the other. -/
lemma Walk.start {s : ℕ} (hs : s ∈ starts) :
    i ≤ s ∧ ∃ c, st.mapIdxToMedia.lookup s = some c ∧ 0 < api.nTokens c ∧ 0 < api.nPos c ∧
      ∀ j, s ≤ j → j < s + api.nTokens c → st.tokens[j]? = some tokenNull := by
  induction h with
  | done _ => exact absurd hs not_mem_nil
  | token _ _ _ ih =>
    obtain ⟨hle, hc⟩ := ih hs
    exact ⟨by omega, hc⟩
  | chunk hc htok hpos hnull _ ih =>
    rcases mem_cons.mp hs with rfl | hs
    · exact ⟨Nat.le_refl _, _, hc, htok, hpos, hnull⟩
    · obtain ⟨hle, hc⟩ := ih hs
      exact ⟨by omega, hc⟩

lemma Walk.nodup : starts.Nodup := by
  induction h with
  | done _ => exact nodup_nil
  | token _ _ _ ih => exact ih
  | chunk hc htok hpos hnull hrest ih =>
    refine nodup_cons.mpr ⟨fun hmem => ?_, ih⟩
    have hle := (hrest.start hmem).1
    omega

/-- A null token is in a chunk of the walk. -/
lemma Walk.covered {j : ℕ} (hij : i ≤ j)
    (hj : st.tokens[j]? = some tokenNull) :
    ∃ s ∈ starts, ∃ c, st.mapIdxToMedia.lookup s = some c ∧ s ≤ j ∧ j < s + api.nTokens c := by
  induction h with
  | done hle =>
    have hlt := (List.getElem?_eq_some_iff.mp hj).1
    omega
  | @token i t starts ht hne _ ih =>
    refine ih ?_
    rcases Nat.eq_or_lt_of_le hij with rfl | hlt
    · exact absurd (Option.some.inj (ht.symm.trans hj)) hne
    · exact hlt
  | @chunk i c starts hc htok hpos hnull _ ih =>
    rcases Nat.lt_or_ge j (i + api.nTokens c) with hlt | hge
    · exact ⟨i, mem_cons_self, c, hc, hij, hlt⟩
    · obtain ⟨s, hs, hrest⟩ := ih hge
      exact ⟨s, mem_cons_of_mem _ hs, hrest⟩

/-- The chunks of a walk have no place in common. -/
lemma Walk.disjoint {s s' j : ℕ} {c c' : C} (hs : s ∈ starts)
    (hs' : s' ∈ starts) (hc : st.mapIdxToMedia.lookup s = some c)
    (hc' : st.mapIdxToMedia.lookup s' = some c') (hle : s ≤ j) (hlt : j < s + api.nTokens c)
    (hle' : s' ≤ j) (hlt' : j < s' + api.nTokens c') : s = s' := by
  induction h with
  | done _ => exact absurd hs not_mem_nil
  | token _ _ _ ih => exact ih hs hs'
  | @chunk i d starts hd htok hpos hnull hrest ih =>
    rcases mem_cons.mp hs with rfl | hmem
    · rcases mem_cons.mp hs' with rfl | hmem'
      · rfl
      · have hge := (hrest.start hmem').1
        obtain rfl := Option.some.inj (hc.symm.trans hd)
        omega
    · rcases mem_cons.mp hs' with rfl | hmem'
      · have hge := (hrest.start hmem).1
        obtain rfl := Option.some.inj (hc'.symm.trans hd)
        omega
      · exact ih hmem hmem'

end

/-- **A valid list is well-formed.** -/
theorem wellFormed_of_validate {nVocab : ℤ}
    (hmedia : st.hasMtmd = false → ∀ s, st.mapIdxToMedia.lookup s = none)
    (h : validate api nVocab st = true) : st.WellFormed api := by
  obtain ⟨starts, hwalk, hlen⟩ := exists_walk (of_decide_eq_true h)
  -- the walk meets all chunks of the map
  have hsub : starts ⊆ st.mapIdxToMedia.keys := fun s hs => by
    obtain ⟨c, hc, -⟩ := (hwalk.start hs).2
    rw [← AList.mem_keys, ← AList.lookup_isSome, hc]
    rfl
  have hperm : starts.Perm st.mapIdxToMedia.keys :=
    (subperm_of_subset hwalk.nodup hsub).perm_of_length_le (by omega)
  have hall : ∀ s c, st.mapIdxToMedia.lookup s = some c → s ∈ starts := fun s c hc => by
    rw [hperm.mem_iff, ← AList.mem_keys, ← AList.lookup_isSome, hc]
    rfl
  have hmem : ∀ {s m}, (st.toMedia api).mapIdxToMedia.lookup s = some m →
      ∃ c, st.mapIdxToMedia.lookup s = some c ∧ api.toMedia c = m := fun hs => by
    rw [lookup_toMedia] at hs
    exact Option.map_eq_some_iff.mp hs
  have hstart : ∀ {s c}, st.mapIdxToMedia.lookup s = some c → 0 < api.nTokens c ∧ 0 < api.nPos c ∧
      ∀ j, s ≤ j → j < s + api.nTokens c → st.tokens[j]? = some tokenNull := fun hc => by
    obtain ⟨c', hc', hrest⟩ := (hwalk.start (hall _ _ hc)).2
    obtain rfl := Option.some.inj (hc.symm.trans hc')
    exact hrest
  refine ⟨⟨fun hmtmd s => ?_, fun s m hs => ?_, ?_, fun i hi => ?_, ?_⟩, fun s c hc =>
    (hstart hc).2.1⟩
  · rw [lookup_toMedia, hmedia hmtmd]
    rfl
  · obtain ⟨c, hc, rfl⟩ := hmem hs
    exact (hstart hc).1
  · rintro s m i ⟨hs, hle, hlt⟩
    obtain ⟨c, hc, rfl⟩ := hmem hs
    exact (hstart hc).2.2 i hle hlt
  · obtain ⟨s, -, c, hc, hle, hlt⟩ := hwalk.covered (Nat.zero_le i) hi
    exact ⟨s, api.toMedia c, by rw [lookup_toMedia, hc, Option.map_some], hle, hlt⟩
  · rintro s m s' m' i ⟨hs, hle, hlt⟩ ⟨hs', hle', hlt'⟩
    obtain ⟨c, hc, rfl⟩ := hmem hs
    obtain ⟨c', hc', rfl⟩ := hmem hs'
    exact hwalk.disjoint (hall s c hc) (hall s' c' hc') hc hc' hle hlt hle' hlt'

lemma readMediaChunk_eq_ok {result result' : ChunkTokens C} {startIdx pos pos' : ℕ}
    {data : List UInt8}
    (h : readMediaChunk store result startIdx data pos = .ok result' pos') :
    result'.hasMtmd = result.hasMtmd := by
  obtain ⟨chunkData, p, -, h⟩ := Cursor.bind_eq_ok h
  obtain ⟨_, p, -, h⟩ := Cursor.bind_eq_ok h
  cases hload : store.load chunkData with
  | none =>
    rw [hload] at h
    cases h
  | some chunk =>
    rw [hload] at h
    cases h
    rfl

/-- Without media support no chunk is accepted. -/
lemma deserialize_noMedia {packed : List ℤ} {hasMtmd : Bool} {pos : ℕ}
    (h : deserialize store packed hasMtmd = .ok st pos) :
    st.hasMtmd = false → ∀ s, st.mapIdxToMedia.lookup s = none := by
  unfold deserialize at h
  split_ifs at h with hplain
  · cases h
    exact fun _ _ => rfl
  obtain ⟨result, p, hread, hend⟩ := Cursor.bind_eq_ok h
  have hst : result = st := by
    obtain ⟨remaining, p', -, hend⟩ := Cursor.bind_eq_ok hend
    split_ifs at hend
    · cases hend
    · cases hend
      rfl
  rw [hst] at hread
  obtain ⟨_, p, -, hread⟩ := Cursor.bind_eq_ok hread
  obtain ⟨_, p, -, hread⟩ := Cursor.bind_eq_ok hread
  obtain ⟨_, p, -, hread⟩ := Cursor.bind_eq_ok hread
  obtain ⟨tokens, p, -, hread⟩ := Cursor.bind_eq_ok hread
  obtain ⟨mediaKeys, p, -, hread⟩ := Cursor.bind_eq_ok hread
  obtain ⟨_, p, hcheck, hread⟩ := Cursor.bind_eq_ok hread
  have hkeys := throwIf_eq_ok hcheck
  rw [not_and_or, not_not] at hkeys
  rcases hkeys with rfl | hmtmd
  · cases hread
    exact fun _ _ => rfl
  · intro hfalse
    have hkept : st.hasMtmd = hasMtmd :=
      forEach_eq_ok (I := fun result => result.hasMtmd = hasMtmd)
        (fun s hs i _ p s' p' hbody => (readMediaChunk_eq_ok hbody).trans hs) rfl hread
    exact absurd (hkept.symm.trans hfalse) hmtmd

/-- **Saved lists.**  A list that is saved is read back, and it is saved when its chunks are and its
lengths fit; whatever is read, nothing is read outside of it, and what is accepted and valid is
well-formed. -/
theorem deserialize_serialize (api : ChunkApi C) (hinv : store.Inverse) :
    (∀ st : ChunkTokens C, st.WellFormed api → (∀ t ∈ st.tokens, Bytes.IsInt32 t) →
      (∀ bs, serialize store st = .ok bs →
        ∃ st' pos, deserialize store (packTokens bs) st.hasMtmd = .ok st' pos ∧ Same st' st) ∧
      (st.tokens.length < 2 ^ 32 → (∀ s c, st.mapIdxToMedia.lookup s = some c →
          ∃ bs, store.save c = some bs ∧ 0 < bs.length ∧ bs.length < 2 ^ 32) →
        ∃ bs, serialize store st = .ok bs)) ∧
    ∀ packed hasMtmd, deserialize store packed hasMtmd ≠ .outOfBounds ∧
      ∀ st pos nVocab, packed.head? = some tokenNull →
        deserialize store packed hasMtmd = .ok st pos → validate api nVocab st = true →
          st.WellFormed api := by
  refine ⟨fun st h hint => ⟨fun bs hbs => ?_, exists_serialize h⟩, fun packed hasMtmd =>
    ⟨deserialize_ne_outOfBounds store packed hasMtmd, fun st pos nVocab _ hst hvalid => ?_⟩⟩
  · exact exists_deserialize hinv (fun hmtmd => lookup_eq_none h hmtmd) hint hbs
  · exact wellFormed_of_validate (deserialize_noMedia hst) hvalid

/-- Chunks that are saved as their number of tokens and their id. -/
def mediaStore : ChunkStore MediaChunk where
  save := fun chunk =>
    if chunk.nTokens < 2 ^ 32 then some (Bytes.ofNat 4 chunk.nTokens ++ chunk.id) else none
  load := fun bs => some ⟨bs.drop 4, Bytes.toNat (bs.take 4)⟩

lemma inverse_mediaStore : mediaStore.Inverse := by
  intro chunk bs h
  unfold mediaStore at h ⊢
  dsimp only at h ⊢
  split_ifs at h with hlt
  cases h
  have hlen := length_ofNat 4 chunk.nTokens
  rw [drop_left' hlen, take_left' hlen, Bytes.toNat_ofNat hlt]

/-- The list with two images is read back. -/
theorem deserialize_serialize_twoImages : ∃ bs st pos, serialize mediaStore twoImages = .ok bs ∧
      deserialize mediaStore (packTokens bs) true = .ok st pos ∧ Same st twoImages := by
  have hall := (deserialize_serialize onePosition inverse_mediaStore).1 twoImages
    wellFormed_twoImages (List.forall_mem_cons.mpr ⟨by decide, fun t ht => by
      rw [List.eq_of_mem_replicate (show t ∈ List.replicate 4 tokenNull from ht)]
      decide⟩)
  obtain ⟨bs, hbs⟩ := hall.2 (by decide) fun s c hs => by
    have hmem := (AList.mem_lookup_iff.mp hs)
    rcases List.mem_pair.mp hmem with heq | heq <;> cases heq
    · exact ⟨_, rfl, by decide, by decide⟩
    · exact ⟨_, rfl, by decide, by decide⟩
  obtain ⟨st, pos, hst, hsame⟩ := hall.1 bs hbs
  exact ⟨bs, st, pos, hbs, hst, hsame⟩

end ChunkTokens

end Llama
