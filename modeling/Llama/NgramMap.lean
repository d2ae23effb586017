import Llama.Basic
import Llama.Lib.Access
import Mathlib.Algebra.GroupWithZero.Nat

/-!
# The n-gram map

`common_ngram_map` drafts tokens from the token history: a key is an n-gram that occurred
several times, its values are m-grams that followed it.  Keys, values and the entries of the
hash map are positions in the history.  `common_ngram_map_begin` is told the history at the
start of a generation, which may be shorter than before and different, and drops positions;
`common_ngram_map_draft` looks up the last tokens; `common_ngram_map_accept` notes how many
drafted tokens were used.

Each read of the history and of the key list is a read of an array that may be outside its
bounds.  Numbers with a fixed width in the source are reduced to it.
-/

namespace Llama

open Access

/-! ## The state -/

/-- `COMMON_NGRAM_MAX_VALUES`. -/
def ngramMaxValues : ℕ := 4

/-- `COMMON_NGRAM_HASH_MAP_SIZE`. -/
def ngramHashMapSize : ℕ := 262144

/-- `COMMON_NGRAM_MAX_VALUE_COUNT`. -/
def ngramMaxValueCount : ℕ := 16380

/-- `common_ngram_map_value`. -/
structure NgramValue where
  valueIdx : ℕ
  valueNum : ℕ
  nAccepted : ℤ
  deriving DecidableEq, Repr

/-- `common_ngram_map_key`. -/
structure NgramKey where
  keyIdx : ℕ
  statIdx : ℕ
  keyNum : ℕ
  values : List NgramValue
  deriving DecidableEq, Repr

/-- `common_ngram_map`.  The hash map has `keyMapSize` entries. -/
structure NgramMap where
  sizeKey : ℕ
  sizeValue : ℕ
  keyOnly : Bool
  keys : List NgramKey
  minHits : ℕ
  sizeLastBegin : ℕ
  lastDraftCreated : Bool
  lastDraftKeyIdx : ℕ
  lastDraftValueIdx : ℕ
  idxLastCheck : ℕ
  keyMapSize : ℕ
  keyMap : ℕ → ℕ
  keyMapLastIdx : ℕ

/-- An integer stored in a `uint32_t`. -/
def uint32 (x : ℕ) : ℕ := x % 2 ^ 32

/-- An integer stored in an `int16_t`. -/
def int16 (x : ℕ) : ℤ := Int.bmod x (2 ^ 16)

/-- `common_ngram_map_hash` of `len` tokens from `start` on. -/
def ngramHash (tokens : List ℤ) (start len : ℕ) : Access ℕ :=
  (List.range len).foldlM (fun hash i => do
    let token ← read tokens (start + i)
    pure (((hash : ℤ) * 2654435761 + token) % 2 ^ 32).toNat) 0

namespace NgramMap

/-- The constructor. -/
def new (sizeKey sizeValue : ℕ) (keyOnly : Bool) (minHits : ℕ) : NgramMap where
  sizeKey := sizeKey
  sizeValue := sizeValue
  keyOnly := keyOnly
  keys := []
  minHits := minHits
  sizeLastBegin := 0
  lastDraftCreated := false
  lastDraftKeyIdx := 0
  lastDraftValueIdx := 0
  idxLastCheck := 0
  keyMapSize := ngramHashMapSize
  keyMap := fun _ => 0
  keyMapLastIdx := 0

/-! ## The start of a generation -/

/-- `idx_begin_cleanup`: positions from here on are dropped. -/
def beginCleanup (map : NgramMap) (sizeBegin : ℕ) : ℕ :=
  if sizeBegin < map.sizeLastBegin then
    if map.sizeKey + map.sizeValue < sizeBegin then sizeBegin - map.sizeKey - map.sizeValue else 0
  else map.sizeLastBegin

/-- Delete value `j`: the values behind it move to the left and the last one is cleared. -/
def deleteValue (values : List NgramValue) (j : ℕ) : List NgramValue :=
  values.eraseIdx j ++ (values.getLast?.map fun v => { v with valueIdx := 0, valueNum := 0 }).toList

/-- The loop over the values `j - 1, …, 0` of a key. -/
def cleanValues (cleanup : ℕ) : ℕ → List NgramValue → List NgramValue
  | 0, values => values
  | j + 1, values =>
    cleanValues cleanup j <|
      if values[j]?.any fun v => v.valueIdx ≠ 0 ∧ cleanup ≤ v.valueIdx then deleteValue values j
      else values

/-- The body of the loop over the keys; `none` when the key is deleted. -/
def cleanKey (keyOnly : Bool) (cleanup : ℕ) (key : NgramKey) : Option NgramKey :=
  if cleanup ≤ key.keyIdx then none
  else if keyOnly then some key
  else
    let values := cleanValues cleanup ngramMaxValues key.values
    if values.head?.any fun v => v.valueIdx = 0 then none else some { key with values := values }

/-- How many keys the loop over the keys visits, which counts down an `int32_t`. -/
def visitedKeys (size : ℕ) : ℕ := (Int.bmod ((size : ℤ) - 1) (2 ^ 32) + 1).toNat

/-- `common_ngram_map_begin`. -/
def begin (map : NgramMap) (tokens : List ℤ) : NgramMap :=
  let sizeBegin := tokens.length
  let cleanup := map.beginCleanup sizeBegin
  let shrunk : Bool := sizeBegin < map.idxLastCheck
  let clear : Bool := 0 < map.keyMapSize ∧ shrunk
  let visited := visitedKeys map.keys.length
  { map with
    keyMap := if clear then fun i => if cleanup ≤ map.keyMap i then 0 else map.keyMap i
      else map.keyMap
    keyMapLastIdx := if clear then uint32 (cleanup - 1) else map.keyMapLastIdx
    keys := if shrunk then
        (map.keys.take visited).filterMap (cleanKey map.keyOnly cleanup) ++ map.keys.drop visited
      else map.keys
    idxLastCheck := sizeBegin
    sizeLastBegin := sizeBegin }

/-! ## Drafting -/

/-- Whether the tokens `key` are in the history at `pos`. -/
def matchAt (inp : List ℤ) : ℕ → List ℤ → Access Bool
  | _, [] => pure true
  | pos, t :: key => do
    let token ← read inp pos
    if token ≠ t then pure false else matchAt inp (pos + 1) key

/-- Whether the history has the same `m` tokens at `i` and at `j`. -/
def sameAt (inp : List ℤ) : ℕ → ℕ → ℕ → Access Bool
  | 0, _, _ => pure true
  | m + 1, i, j => do
    let a ← read inp i
    let b ← read inp j
    if a ≠ b then pure false else sameAt inp m (i + 1) (j + 1)

/-- The loop that searches the key at `j`, `j - 1`, … while they exceed `lo`; 0 when it is not
found. -/
def searchDown (inp key : List ℤ) (lo : ℕ) : ℕ → Access ℕ
  | 0 => pure 0
  | j + 1 =>
    if lo < j + 1 then do
      if ← matchAt inp (j + 1) key then pure (j + 1) else searchDown inp key lo j
    else pure 0

/-- The loop that enters the n-grams at `j`, `j - 1`, … into the hash map while they exceed
`lo`. -/
def addHashes (inp : List ℤ) (size n lo : ℕ) : ℕ → (ℕ → ℕ) → Access (ℕ → ℕ)
  | 0, keyMap => pure keyMap
  | j + 1, keyMap =>
    if lo < j + 1 then do
      let hash ← ngramHash inp (j + 1) n
      let idx := hash % size
      addHashes inp size n lo j <|
        if keyMap idx = 0 then Function.update keyMap idx (uint32 (j + 1)) else keyMap
    else pure keyMap

/-- The last position an n-gram with its value may have: `cur_len - n - m - 1`. -/
def lastPos (map : NgramMap) (curLen : ℕ) : ℕ :=
  subSize (subSize (subSize curLen map.sizeKey) map.sizeValue) 1

/-- The search by the hash of the key; 0 when it is not found. -/
def searchHash (map : NgramMap) (inp key : List ℤ) : Access ℕ := do
  if 0 < map.keyMapSize then
    let hash ← ngramHash key 0 map.sizeKey
    let idx := map.keyMap (hash % map.keyMapSize)
    if idx ≠ 0 ∧ idx < map.lastPos inp.length then
      if ← matchAt inp idx (key.take map.sizeKey) then pure idx else pure 0
    else pure 0
  else pure 0

/-- The search before the start of the generation, behind what the hash map knows. -/
def searchBegin (map : NgramMap) (inp key : List ℤ) : Access ℕ :=
  if map.sizeKey + map.sizeValue + 1 < map.sizeLastBegin then
    searchDown inp (key.take map.sizeKey) map.keyMapLastIdx
      (map.sizeLastBegin - map.sizeKey - map.sizeValue - 1)
  else pure 0

/-- The search behind the start of the generation. -/
def searchRest (map : NgramMap) (inp key : List ℤ) : Access ℕ :=
  searchDown inp (key.take map.sizeKey) (max map.sizeLastBegin map.keyMapLastIdx)
    (map.lastPos inp.length)

/-- Search on unless the key was found at `pos`. -/
def orSearch (pos : ℕ) (search : Access ℕ) : Access ℕ := if pos = 0 then search else pure pos

/-- Where the key occurs, 0 if it was not found: `match_pos`. -/
def searchKey (map : NgramMap) (inp key : List ℤ) : Access ℕ := do
  let pos ← map.searchHash inp key
  let pos ← orSearch pos (map.searchBegin inp key)
  orSearch pos (map.searchRest inp key)

/-- Enter the n-grams before the start of the generation into the hash map. -/
def addBegin (map : NgramMap) (inp : List ℤ) : Access (ℕ → ℕ) :=
  if map.sizeKey + map.sizeValue + 1 < map.sizeLastBegin then
    addHashes inp map.keyMapSize map.sizeKey map.keyMapLastIdx
      (map.sizeLastBegin - map.sizeKey - map.sizeValue - 1) map.keyMap
  else pure map.keyMap

/-- Enter the new n-grams into the hash map. -/
def updateKeyMap (map : NgramMap) (inp : List ℤ) : Access NgramMap :=
  if 0 < map.keyMapSize then do
    let keyMap ← map.addBegin inp
    let keyMap ← addHashes inp map.keyMapSize map.sizeKey
      (max map.sizeLastBegin map.keyMapLastIdx) (map.lastPos inp.length) keyMap
    pure { map with
      keyMap := keyMap
      keyMapLastIdx := max (uint32 (map.lastPos inp.length)) map.keyMapLastIdx }
  else pure map

/-- The index of the first key with the tokens `key`, the number of keys if there is none. -/
def findKey (inp key : List ℤ) : List NgramKey → Access ℕ
  | [] => pure 0
  | k :: keys => do
    if ← matchAt inp k.keyIdx key then pure 0
    else
      let i ← findKey inp key keys
      pure (i + 1)

/-- The key that is made for the n-gram at `pos`. -/
def newKey (m pos : ℕ) : NgramKey where
  keyIdx := pos
  statIdx := 0
  keyNum := 0
  values := List.replicate ngramMaxValues ⟨0, 0, int16 m⟩

/-- The keys, with a new one when no key was found: `offset` is then their number. -/
def withNewKey (map : NgramMap) (pos offset : ℕ) : List NgramKey :=
  if offset = map.keys.length then map.keys ++ [newKey map.sizeValue pos] else map.keys

/-- One occurrence more, up to the largest count. -/
def count (num : ℕ) : ℕ := min (num + 1) ngramMaxValueCount

/-- Count the m-gram at `idx`: in the first value that is equal to it or unused. -/
def countValue (inp : List ℤ) (m idx : ℕ) : List NgramValue → Access (List NgramValue)
  | [] => pure []
  | v :: values => do
    if v.valueIdx = 0 then pure (⟨idx, count 0, int16 m⟩ :: values)
    else if ← sameAt inp m idx v.valueIdx then
      pure ({ v with valueNum := count v.valueNum } :: values)
    else
      let values ← countValue inp m idx values
      pure (v :: values)

/-- The loop over the occurrences of the key between `stat_idx` and `match_pos`. -/
def countValues (inp key : List ℤ) (n m pos : ℕ) (k : NgramKey) : Access (List NgramValue) :=
  (List.range' k.statIdx (pos + 1 - k.statIdx)).foldlM (fun values i => do
    if ← matchAt inp i key then countValue inp m (i + n) values else pure values) k.values

/-- The first value with the most occurrences, value 0 if there are none: its index and its
number of occurrences. -/
def slotMax (values : List NgramValue) : ℕ × ℕ :=
  values.zipIdx.foldl (fun best v =>
    if best.2 < v.1.valueNum then (v.2, v.1.valueNum) else best) (0, 0)

/-- The occurrences of the values besides value `slot`. -/
def sumOthers (values : List NgramValue) (slot : ℕ) : ℕ :=
  ((values.eraseIdx slot).map NgramValue.valueNum).sum

/-- `common_tokens_to_str`: the tokens it prints. -/
def tokensFrom (inp : List ℤ) (start length : ℕ) : Access (List ℤ) :=
  (List.range length).mapM fun i => read inp (start + i)

/-- The debug output of the values that are in use. -/
def printValues (debug : Bool) (inp : List ℤ) (m : ℕ) (values : List NgramValue) : Access Unit :=
  if debug then do
    let _ ← (values.filter fun v => v.valueIdx ≠ 0).mapM fun v => tokensFrom inp v.valueIdx m
    pure ()
  else pure ()

/-- The draft: `m` tokens behind the key, or fewer if fewer were accepted the last time. -/
def draftTokens (map : NgramMap) (inp : List ℤ) (pos : ℕ) (nAccepted : ℤ) : Access (List ℤ) :=
  tokensFrom inp (pos + map.sizeKey) (min (map.sizeValue : ℤ) nAccepted).toNat

/-- The map after a draft from value `slot` of the key at `offset`. -/
def drafted (map : NgramMap) (offset slot : ℕ) : NgramMap :=
  { map with
    lastDraftCreated := true
    lastDraftKeyIdx := offset
    lastDraftValueIdx := slot }

/-- The part of `common_ngram_map_draft` behind the search: the key was found at `pos`.  With
`debug` the values are printed. -/
def draftAt (map : NgramMap) (debug : Bool) (inp key : List ℤ) (pos : ℕ) :
    Access (NgramMap × List ℤ) := do
  let n := map.sizeKey
  let m := map.sizeValue
  let offset ← findKey inp (key.take n) map.keys
  let keys := map.withNewKey pos offset
  let k ← read keys offset
  let k := { k with keyNum := count k.keyNum }
  let map := { map with keys := keys.set offset k }
  if map.keyOnly then
    let v ← read k.values 0
    let draft ← map.draftTokens inp pos v.nAccepted
    pure (map.drafted offset 0, draft)
  else if k.keyNum < map.minHits then
    pure (map, [])
  else
    let values ← countValues inp (key.take n) n m pos k
    let map := { map with keys := map.keys.set offset { k with values := values, statIdx := pos } }
    let slot := (slotMax values).1
    let sumOccur := sumOthers values slot
    printValues debug inp m values
    if 0 < sumOccur ∧ (slotMax values).2 < 2 * sumOccur then
      pure (map, [])
    else
      let v ← read values slot
      let draft ← map.draftTokens inp pos v.nAccepted
      pure (map.drafted offset slot, draft)

/-- `common_ngram_map_draft`.  It returns the map and the draft. -/
def draft (map : NgramMap) (debug : Bool) (inp : List ℤ) (sampled : ℤ) :
    Access (NgramMap × List ℤ) := do
  let map := { map with lastDraftCreated := false, lastDraftKeyIdx := 0, lastDraftValueIdx := 0 }
  let curLen := inp.length
  let n := map.sizeKey
  if curLen < 2 * n + map.sizeValue then
    pure (map, [])
  else
    abortIf (2 ^ 32 - 1 ≤ curLen)
    abortIf (curLen < map.idxLastCheck)
    let map := { map with idxLastCheck := curLen }
    let start := addSize (subSize curLen n) 1
    let key ← tokensFrom inp start (curLen - start)
    let key := key ++ [sampled]
    abortIf (curLen < map.sizeLastBegin)
    let pos ← map.searchKey inp key
    let map ← map.updateKeyMap inp
    if pos = 0 then
      pure (map, [])
    else
      map.draftAt debug inp key pos

/-- `common_ngram_map_accept`. -/
def accept (map : NgramMap) (nAccepted : ℕ) : Access NgramMap := do
  if map.lastDraftCreated then
    let k ← read map.keys map.lastDraftKeyIdx
    let v ← read k.values map.lastDraftValueIdx
    let values := k.values.set map.lastDraftValueIdx { v with nAccepted := int16 nAccepted }
    pure { map with keys := map.keys.set map.lastDraftKeyIdx { k with values := values } }
  else
    pure map

end NgramMap

end Llama
