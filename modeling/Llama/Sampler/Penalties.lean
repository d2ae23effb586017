import Llama.Lib.Counter
import Llama.Sampler.RingBuffer
import Mathlib.Data.BitVec

/-!
# The penalties sampler

The sampler counts the tokens of a window of the last tokens that were accepted.  The counts and
the window are kept in step: a token that leaves the window is taken back from the counts.  The
backend gets the counts in two arrays of a fixed size, sorted by token and padded.

The penalties themselves are floating point numbers that no integer depends on; of them the model
has whether they all are neutral.  The order in which an `std::unordered_map` is iterated is left
open: it is the argument `iterate`.
-/

namespace Llama

open List
namespace Sampler

/-! ## The model -/

/-- `int32_t`. -/
abbrev Int32 := BitVec 32

/-- `llama_sampler_penalties`.  A tensor is what was last written to it. -/
structure Penalties where
  nVocab : ℤ
  penaltyLastN : ℤ
  /-- `penalty_repeat == 1.0f && penalty_freq == 0.0f && penalty_present == 0.0f`. -/
  neutral : Bool
  prev : RingBuffer ℤ
  tokenCount : Counter ℤ Int32 := ∅
  inpTokenIds : Option (List ℤ) := none
  inpCounts : Option (List Int32) := none
  nMax : ℤ := 0
  hostTokenIds : List ℤ := []
  hostCounts : List Int32 := []

namespace Penalties

def isDisabled (penaltyLastN : ℤ) (neutral : Bool) : Bool := penaltyLastN == 0 || neutral

/-- `llama_sampler_init_penalties`; a disabled sampler is an empty one instead. -/
def init (nVocab penaltyLastN : ℤ) (neutral : Bool) : Option Penalties :=
  let penaltyLastN := max penaltyLastN 0
  if isDisabled penaltyLastN neutral then none
  else some { nVocab, penaltyLastN, neutral, prev := .new penaltyLastN.toNat }

/-- `llama_sampler_penalties_accept`; `none` for an exception of the ring buffer. -/
def accept (s : Penalties) (token : ℤ) : Option Penalties :=
  if s.penaltyLastN = 0 then some s
  else
    let tokenCount := s.tokenCount.inc token
    -- if the ring buffer is full, remove the oldest token
    let full : Prop := (s.prev.size : ℤ) ≥ s.penaltyLastN
    (if full then s.prev.front.toOption.map tokenCount.dec else some tokenCount).bind fun counts =>
      (s.prev.pushBack token).toOption.map fun prev => { s with prev, tokenCount := counts }

/-- `llama_sampler_penalties_reset`. -/
def reset (s : Penalties) : Penalties := { s with prev := s.prev.clear, tokenCount := ∅ }

/-- `llama_sampler_penalties_clone`: a new sampler with the state copied. -/
def clone (s : Penalties) : Option Penalties :=
  (init s.nVocab s.penaltyLastN s.neutral).map fun result =>
    { result with prev := s.prev, tokenCount := s.tokenCount }

/-! ### The backend -/

/-- `llama_sampler_penalties_backend_apply`, as far as the arrays are concerned: the tensors are
new, and what is in them is not used.  `none` for a failed assertion. -/
def backendApply (s : Penalties) : Option Penalties :=
  if isDisabled s.penaltyLastN s.neutral then some s
  else if ¬ s.nVocab > 0 then none
  else
    let nMax := min s.penaltyLastN s.nVocab
    let s := { s with nMax, inpTokenIds := some [], inpCounts := some [] }
    some (if (s.hostTokenIds.length : ℤ) ≠ nMax then
      { s with
        hostTokenIds := List.replicate nMax.toNat 0
        hostCounts := List.replicate nMax.toNat 0 }
    else s)

/-- `llama_sampler_penalties_backend_reset`. -/
def backendReset (s : Penalties) : Penalties := { s with inpTokenIds := none, inpCounts := none }

/-- The two host arrays with entries written from the index `i` on. -/
def store (hosts : List ℤ × List Int32) (i : ℕ) : List (ℤ × Int32) → List ℤ × List Int32
  | [] => hosts
  | entry :: entries => store (hosts.1.set i entry.1, hosts.2.set i entry.2) (i + 1) entries

/-- `GGML_ASSERT(n_active < sctx->n_max)` before each entry that is written. -/
def fillActive (nMax : ℤ) (hosts : List ℤ × List Int32) (nActive : ℕ) :
    List (ℤ × Int32) → Option (ℕ × List ℤ × List Int32)
  | [] => some (nActive, hosts)
  | entry :: entries =>
    if (nActive : ℤ) < nMax then
      fillActive nMax (store hosts nActive [entry]) (nActive + 1) entries
    else none

/-- `while (token_count.find(filler) != token_count.end()) ++filler`. -/
def findFiller (tokenCount : Counter ℤ Int32) : ℕ → ℤ → Option ℤ
  | 0, _ => none
  | fuel + 1, filler =>
    if filler ∈ tokenCount then findFiller tokenCount fuel (filler + 1) else some filler

/-- The token id of the padding; `none` for a failed assertion. -/
def padding (s : Penalties) (nActive : ℕ) : Option ℤ :=
  if (nActive : ℤ) < s.nMax then
    (findFiller s.tokenCount (s.tokenCount.entries.length + 1) 0).bind fun filler =>
      if filler < s.nVocab then some filler else none
  else some 0

/-- `llama_sampler_penalties_backend_set_input`; `none` for a failed assertion. -/
def backendSetInput (iterate : Counter ℤ Int32 → List (ℤ × Int32)) (s : Penalties) :
    Option Penalties :=
  if s.inpTokenIds = none ∨ s.inpCounts = none ∨ s.nMax ≤ 0 ∨ s.nVocab ≤ 0 then some s
  else if isDisabled s.penaltyLastN s.neutral then some s
  else
    -- fill active entries from the map
    (fillActive s.nMax (s.hostTokenIds, s.hostCounts) 0 (iterate s.tokenCount)).bind fun filled =>
      let nActive := filled.1
      let hosts := filled.2
      let entries := (hosts.1.take nActive).zip (hosts.2.take nActive)
      let hosts := store hosts 0 (entries.mergeSort fun a b => a.1 ≤ b.1)
      (s.padding nActive).map fun filler =>
        let hosts := store hosts nActive (List.replicate (s.nMax.toNat - nActive) (filler, 0))
        { s with
          hostTokenIds := hosts.1
          hostCounts := hosts.2
          inpTokenIds := some (hosts.1.take s.nMax.toNat)
          inpCounts := some (hosts.2.take s.nMax.toNat) }

/-- What may be done to a sampler.  After `clone` the run goes on with the copy. -/
inductive Op
  | accept (token : ℤ)
  | reset
  | clone
  | backendApply
  | backendSetInput
  | backendReset

def step (iterate : Counter ℤ Int32 → List (ℤ × Int32)) (s : Penalties) : Op → Option Penalties
  | .accept token => s.accept token
  | .reset => some s.reset
  | .clone => s.clone
  | .backendApply => s.backendApply
  | .backendSetInput => s.backendSetInput iterate
  | .backendReset => some s.backendReset

/-- The tokens accepted since the last reset, behind those accepted before the run. -/
def sinceReset : List ℤ → List Op → List ℤ
  | tokens, [] => tokens
  | tokens, .accept token :: ops => sinceReset (tokens ++ [token]) ops
  | _, .reset :: ops => sinceReset [] ops
  | tokens, _ :: ops => sinceReset tokens ops

/-- The tokens that count: the last `penaltyLastN` of those accepted since the last reset. -/
def window (penaltyLastN : ℤ) (ops : List Op) : List ℤ :=
  (sinceReset [] ops).rtake penaltyLastN.toNat

/-! ## The counts and the window -/

variable {nVocab lastN : ℤ} {tokens : List ℤ} {s s' : Penalties} {token : ℤ}

/-- The buffer holds the window, the table its counts, and the host arrays have the size of the
tensors that are there. -/
structure Inv (nVocab lastN : ℤ) (tokens : List ℤ) (s : Penalties) : Prop where
  nVocab_eq : s.nVocab = nVocab
  lastN_eq : s.penaltyLastN = lastN
  pos : 1 ≤ lastN
  lt : lastN < 2 ^ 31
  enabled : isDisabled lastN s.neutral = false
  prev : RingBuffer.Holds lastN.toNat s.prev (tokens.rtake lastN.toNat)
  counts : s.tokenCount.Counts (tokens.rtake lastN.toNat)
  inputs : s.inpTokenIds ≠ none → 0 < nVocab ∧ s.nMax = min lastN nVocab ∧
    s.hostTokenIds.length = s.nMax.toNat
  hosts : s.hostCounts.length = s.hostTokenIds.length

lemma length_rtake_le (l : List ℤ) (n : ℕ) : (l.rtake n).length ≤ n := by
  rw [rtake, length_drop]
  omega

/-- **A sampler that was just made.** -/
theorem Inv.init {neutral : Bool} (hpos : 1 ≤ lastN) (hlt : lastN < 2 ^ 31)
    (h : init nVocab lastN neutral = some s) : Inv nVocab lastN [] s := by
  rw [Penalties.init, max_eq_left (by omega)] at h
  split_ifs at h with hdisabled
  obtain rfl := Option.some.inj h
  exact {
    nVocab_eq := rfl
    lastN_eq := rfl
    pos := hpos
    lt := hlt
    enabled := Bool.eq_false_of_not_eq_true hdisabled
    prev := by
      rw [rtake_nil]
      exact RingBuffer.holds_new (by omega)
    counts := by
      rw [rtake_nil]
      exact Counter.counts_empty
    inputs := fun h => absurd rfl h
    hosts := rfl }

/-- A number of occurrences in a window does not wrap. -/
lemma natCast_ne_zero {n : ℕ} (hpos : 0 < n) (hlt : n < 2 ^ 32) : (n : Int32) ≠ 0 := by
  intro h
  have hnat : (BitVec.ofNat 32 n).toNat = 0 := congrArg BitVec.toNat h
  rw [BitVec.toNat_ofNat] at hnat
  omega

/-- The table after the token is counted and, when the window is full, the oldest one taken
back. -/
lemma Inv.evict (h : Inv nVocab lastN tokens s) (token : ℤ) :
    ∃ counts, (if (s.prev.size : ℤ) ≥ lastN then
        s.prev.front.toOption.map (s.tokenCount.inc token).dec
      else some (s.tokenCount.inc token)) = some counts ∧
      counts.Counts ((tokens ++ [token]).rtake lastN.toNat) := by
  obtain ⟨hvalid, hcap, hvector⟩ := h.prev
  have hsize : s.prev.size = (tokens.rtake lastN.toNat).length := by
    rw [← hvector, RingBuffer.length_toVector, RingBuffer.size]
  have hle := length_rtake_le tokens lastN.toNat
  have hpos := h.pos
  have hlt := h.lt
  have hinc := h.counts.inc token
  rw [hsize, ← RingBuffer.rtake_append_singleton]
  generalize tokens.rtake lastN.toNat = w at *
  by_cases hfull : (w.length : ℤ) ≥ lastN
  · rw [if_pos hfull]
    cases w with
    | nil =>
      change (0 : ℤ) ≥ lastN at hfull
      omega
    | cons old w =>
      rw [RingBuffer.front_of_head? hvalid (by rw [hvector]; rfl)]
      refine ⟨_, rfl, ?_⟩
      have hone : (old :: w ++ [token]).length - lastN.toNat = 1 := by
        simp only [length_cons, length_append, length_nil]
          at hfull hle ⊢
        omega
      have hdrop : (old :: w ++ [token]).rtake lastN.toNat = w ++ [token] := by
        rw [rtake, hone, cons_append, drop_one, tail_cons]
      rw [hdrop]
      refine ((hinc.perm (List.Perm.swap old token w)).dec fun hzero => ?_).perm
        (perm_append_singleton token w).symm
      by_contra hmem
      have hcount : (token :: w).count old ≤ (token :: w).length := count_le_length
      simp only [length_cons] at hcount hle
      exact natCast_ne_zero (List.count_pos_iff.mpr hmem) (by omega) hzero
  · rw [if_neg hfull]
    refine ⟨_, rfl, ?_⟩
    have hzero : (w ++ [token]).length - lastN.toNat = 0 := by
      rw [length_append, length_singleton]
      omega
    rw [rtake, hzero]
    exact hinc.perm (perm_append_singleton token w).symm

/-- **A token is accepted.** -/
theorem Inv.accept (h : Inv nVocab lastN tokens s) (token : ℤ) :
    ∃ s', s.accept token = some s' ∧ Inv nVocab lastN (tokens ++ [token]) s' := by
  obtain ⟨counts, hcounts, hspec⟩ := h.evict token
  obtain ⟨prev, hpush, hvalid, hcap, hvector⟩ :=
    RingBuffer.toVector_pushBack h.prev.valid token
  have hpos := h.pos
  rw [Penalties.accept, if_neg (by rw [h.lastN_eq]; omega)]
  dsimp only
  rw [h.lastN_eq, hcounts, hpush]
  refine ⟨_, rfl, ?_⟩
  exact {
    nVocab_eq := h.nVocab_eq
    lastN_eq := rfl
    pos := hpos
    lt := h.lt
    enabled := h.enabled
    prev := ⟨hvalid, hcap.trans h.prev.capacity, by
      rw [hvector, h.prev.toVector, h.prev.capacity, RingBuffer.rtake_append_singleton]⟩
    counts := hspec
    inputs := h.inputs
    hosts := h.hosts }

lemma Inv.reset (h : Inv nVocab lastN tokens s) : Inv nVocab lastN [] s.reset :=
  { h with
    prev := by
      rw [rtake_nil]
      exact ⟨h.prev.valid.clear, h.prev.capacity, rfl⟩
    counts := by
      rw [rtake_nil]
      exact Counter.counts_empty }

lemma Inv.clone (h : Inv nVocab lastN tokens s) :
    ∃ s', s.clone = some s' ∧ Inv nVocab lastN tokens s' := by
  have hpos := h.pos
  have henabled : ¬ isDisabled lastN s.neutral = true := by
    rw [h.enabled]
    exact Bool.false_ne_true
  rw [Penalties.clone, Penalties.init, h.lastN_eq, max_eq_left (by omega)]
  simp only [if_neg henabled]
  exact ⟨_, rfl, { h with
    lastN_eq := rfl
    inputs := fun h => absurd rfl h
    hosts := rfl }⟩

/-! ## The arrays of the backend -/

variable {entries : List (ℤ × Int32)} {hosts : List ℤ × List Int32}

/-- The host arrays with entries written into them. -/
lemma store_eq {i : ℕ} (hids : i + entries.length ≤ hosts.1.length)
    (hcounts : hosts.2.length = hosts.1.length) :
    store hosts i entries =
      (hosts.1.take i ++ entries.map Prod.fst ++ hosts.1.drop (i + entries.length),
        hosts.2.take i ++ entries.map Prod.snd ++ hosts.2.drop (i + entries.length)) := by
  induction entries generalizing hosts i with
  | nil => simp [store]
  | cons entry entries ih =>
    rw [length_cons] at hids
    rw [store, ih (by rw [length_set]; omega) (by rw [length_set, length_set, hcounts])]
    have hdrop : i + 1 + entries.length = i + (entries.length + 1) := by omega
    have hset : ∀ {β : Type} (l : List β) (x : β), i < l.length →
        (l.set i x).take (i + 1) = l.take i ++ [x] ∧
          (l.set i x).drop (i + (entries.length + 1)) = l.drop (i + (entries.length + 1)) := by
      intro β l x hi
      constructor
      · rw [take_succ_eq_append_getElem (by rwa [length_set]), getElem_set_self,
          take_set_of_le (Nat.le_refl i)]
      · exact drop_set_of_lt (by omega)
    obtain ⟨htake, hrest⟩ := hset hosts.1 entry.1 (by omega)
    obtain ⟨htake', hrest'⟩ := hset hosts.2 entry.2 (by omega)
    rw [hdrop, htake, hrest, htake', hrest']
    simp

lemma store_append (hosts : List ℤ × List Int32) (i : ℕ) (xs ys : List (ℤ × Int32)) :
    store hosts i (xs ++ ys) = store (store hosts i xs) (i + xs.length) ys := by
  induction xs generalizing hosts i with
  | nil => rfl
  | cons x xs ih =>
    rw [cons_append, store, store, ih, length_cons, Nat.add_right_comm, Nat.add_assoc]

/-- Entries that fill the arrays. -/
lemma store_full (hids : entries.length = hosts.1.length)
    (hcounts : hosts.2.length = hosts.1.length) :
    store hosts 0 entries = (entries.map Prod.fst, entries.map Prod.snd) := by
  rw [store_eq (by omega) hcounts, Nat.zero_add, hids, drop_length, ← hcounts, drop_length]
  simp

/-- The entries read back from the front of the arrays. -/
lemma zip_store {hosts : List ℤ × List Int32} {entries : List (ℤ × Int32)}
    (hids : entries.length ≤ hosts.1.length) (hcounts : hosts.2.length = hosts.1.length) :
    ((store hosts 0 entries).1.take entries.length).zip
      ((store hosts 0 entries).2.take entries.length) = entries := by
  rw [store_eq (by omega) hcounts]
  rw [take_zero, nil_append, take_zero, nil_append,
    take_left' (length_map _), take_left' (length_map _), zip_map']
  exact map_id' _

lemma length_store (hosts : List ℤ × List Int32) (i : ℕ) (entries : List (ℤ × Int32)) :
    (store hosts i entries).1.length = hosts.1.length ∧
      (store hosts i entries).2.length = hosts.2.length := by
  induction entries generalizing hosts i with
  | nil => exact ⟨rfl, rfl⟩
  | cons entry entries ih =>
    obtain ⟨hids, hcounts⟩ := ih (hosts.1.set i entry.1, hosts.2.set i entry.2) (i + 1)
    exact ⟨hids.trans length_set, hcounts.trans length_set⟩

/-- The assertion holds as long as there is room for all entries. -/
lemma fillActive_eq {nMax : ℤ} {n : ℕ} (hn : (n : ℤ) ≤ nMax) : fillActive nMax hosts n entries =
      if ((n + entries.length : ℕ) : ℤ) ≤ nMax then
        some (n + entries.length, store hosts n entries)
      else none := by
  induction entries generalizing hosts n with
  | nil => rw [length_nil, Nat.add_zero, if_pos hn]; rfl
  | cons entry entries ih =>
    rw [fillActive, length_cons]
    split_ifs with hlt hle hle
    · rw [ih (by omega), if_pos (by omega), Nat.add_right_comm]
      rfl
    · rw [ih (by omega), if_neg (by omega)]
    · omega
    · rfl

/-- What the search for a padding token ends with: all tokens before it have a count. -/
lemma findFiller_spec {counts : Counter ℤ Int32} {fuel : ℕ} {start : ℤ} :
    (∃ n : ℕ, n < fuel ∧ findFiller counts fuel start = some (start + n) ∧ start + n ∉ counts ∧
      ∀ j : ℕ, j < n → start + (j : ℤ) ∈ counts) ∨
    findFiller counts fuel start = none ∧ ∀ j : ℕ, j < fuel → start + (j : ℤ) ∈ counts := by
  induction fuel generalizing start with
  | zero => exact .inr ⟨rfl, fun j hj => absurd hj (Nat.not_lt_zero j)⟩
  | succ fuel ih =>
    rw [findFiller]
    have hstart : start ∈ counts → ∀ k : ℕ, (∀ j : ℕ, j < k → start + 1 + (j : ℤ) ∈ counts) →
        ∀ j : ℕ, j < k + 1 → start + (j : ℤ) ∈ counts := by
      intro hmem k hall j hj
      cases j with
      | zero => rwa [Nat.cast_zero, add_zero]
      | succ j =>
        have heq : start + ((j + 1 : ℕ) : ℤ) = start + 1 + j := by omega
        rw [heq]
        exact hall j (Nat.lt_of_succ_lt_succ hj)
    split_ifs with hmem
    · rcases @ih (start + 1) with ⟨n, hn, hfind, hnot, hall⟩ | ⟨hfind, hall⟩
      · have heq : start + 1 + (n : ℤ) = start + ((n + 1 : ℕ) : ℤ) := by omega
        rw [heq] at hfind hnot
        exact .inl ⟨n + 1, Nat.succ_lt_succ hn, hfind, hnot, hstart hmem n hall⟩
      · exact .inr ⟨hfind, hstart hmem fuel hall⟩
    · exact .inl ⟨0, Nat.succ_pos fuel, by rw [Nat.cast_zero, add_zero],
        by rwa [Nat.cast_zero, add_zero], fun j hj => absurd hj (Nat.not_lt_zero j)⟩

/-- The first `n` tokens have counts only when there are `n` counts. -/
lemma le_of_forall_mem {counts : Counter ℤ Int32} {n : ℕ} (h : ∀ j : ℕ, j < n → (j : ℤ) ∈ counts) :
    n ≤ counts.entries.length := by
  have hnodup : ((range n).map fun j : ℕ => (j : ℤ)).Nodup :=
    nodup_range.map fun _ _ => Int.ofNat_inj.mp
  have hsub : ((range n).map fun j : ℕ => (j : ℤ)) ⊆ counts.keys := by
    intro t ht
    obtain ⟨j, hj, rfl⟩ := mem_map.mp ht
    exact AList.mem_keys.mp (h j (mem_range.mp hj))
  have hle := (hnodup.subperm hsub).length_le
  rwa [length_map, length_range, AList.keys, List.keys, length_map] at hle

/-- **The padding token**: none of the counted ones, and one of the vocabulary when the arrays fit
into it. -/
theorem padding_spec {nActive : ℕ} (hactive : nActive = s.tokenCount.entries.length)
    (hvocab : s.nMax ≤ s.nVocab) :
    ∃ filler, s.padding nActive = some filler ∧
      ((nActive : ℤ) < s.nMax → 0 ≤ filler ∧ filler < s.nVocab ∧ filler ∉ s.tokenCount) := by
  rw [padding]
  split_ifs with hlt
  · rcases @findFiller_spec s.tokenCount (s.tokenCount.entries.length + 1) 0 with ⟨n, -, hfind, hnot, hall⟩ | ⟨-, hall⟩
    · simp only [zero_add] at hfind hnot hall
      have hn := le_of_forall_mem hall
      have hfiller : (n : ℤ) < s.nVocab := by omega
      rw [hfind, Option.bind_some, if_pos hfiller]
      exact ⟨n, rfl, fun _ => ⟨Int.natCast_nonneg n, hfiller, hnot⟩⟩
    · simp only [zero_add] at hall
      exact absurd (le_of_forall_mem hall) (Nat.not_succ_le_self _)
  · exact ⟨0, rfl, fun h => absurd h hlt⟩

/-- The arrays have one place for every position: the counted tokens in increasing order with
their counts, then a token without a count. -/
structure Filled (nVocab nMax : ℤ) (w : List ℤ) (ids : List ℤ) (counts : List Int32)
    (pairs : List (ℤ × Int32)) (filler : ℤ) : Prop where
  sorted : pairs.Pairwise fun a b => a.1 < b.1
  mem_iff : ∀ token count, (token, count) ∈ pairs ↔ token ∈ w ∧ count.toInt = w.count token
  filler_spec : (pairs.length : ℤ) < nMax → 0 ≤ filler ∧ filler < nVocab ∧ filler ∉ w
  length_le : (pairs.length : ℤ) ≤ nMax
  ids_eq : ids = pairs.map Prod.fst ++ List.replicate (nMax.toNat - pairs.length) filler
  counts_eq : counts = pairs.map Prod.snd ++ List.replicate (nMax.toNat - pairs.length) 0

lemma toInt_natCast {n : ℕ} (h : n < 2 ^ 31) : (n : Int32).toInt = n := by
  have hnat : (n : Int32).toNat = n := Nat.mod_eq_of_lt (h.trans (by decide))
  rw [BitVec.toInt_eq_toNat_of_lt (by rw [hnat]; omega), hnat]

variable {iterate : Counter ℤ Int32 → List (ℤ × Int32)}

/-- An iteration takes the entries in some order. -/
def Iterates (iterate : Counter ℤ Int32 → List (ℤ × Int32)) : Prop :=
  ∀ counts : Counter ℤ Int32, (iterate counts).Perm (counts.entries.map fun e => (e.1, e.2))

lemma Iterates.length_eq (h : Iterates iterate) (counts : Counter ℤ Int32) :
    (iterate counts).length = counts.entries.length := by
  rw [(h counts).length_eq, length_map]

lemma Iterates.mem_iff (h : Iterates iterate) {counts : Counter ℤ Int32} {count : Int32} :
    (token, count) ∈ iterate counts ↔ counts.lookup token = some count := by
  rw [(h counts).mem_iff, ← Option.mem_def, AList.mem_lookup_iff, mem_map]
  constructor
  · rintro ⟨⟨t, c⟩, hmem, heq⟩
    obtain ⟨rfl, rfl⟩ := Prod.mk.inj heq
    exact hmem
  · exact fun hmem => ⟨_, hmem, rfl⟩

/-- The entries are sorted by token, and no token occurs twice. -/
lemma Iterates.sorted (h : Iterates iterate) (counts : Counter ℤ Int32) :
    ((iterate counts).mergeSort fun a b => a.1 ≤ b.1).Pairwise fun a b => a.1 < b.1 := by
  have hkeys : ((iterate counts).map Prod.fst).Nodup := by
    rw [((h counts).map Prod.fst).nodup_iff, map_map]
    exact counts.keys_nodup
  have hperm := mergeSort_perm (iterate counts) fun a b => a.1 ≤ b.1
  have hle := @List.pairwise_mergeSort _ (fun a b : ℤ × Int32 => decide (a.1 ≤ b.1))
    (fun a b c hab hbc => by
      rw [decide_eq_true_eq] at hab hbc ⊢
      exact hab.trans hbc)
    (fun a b => by
      rw [Bool.or_eq_true, decide_eq_true_eq, decide_eq_true_eq]
      exact Int.le_total a.1 b.1) (iterate counts)
  have hne := pairwise_map.mp ((hperm.map Prod.fst).nodup_iff.mpr hkeys)
  refine (hle.and hne).imp fun hab => ?_
  exact lt_of_le_of_ne (of_decide_eq_true hab.1) hab.2

/-- The sorted entries are the tokens of the window with the number of their occurrences. -/
lemma Inv.mem_sorted (h : Inv nVocab lastN tokens s) (hiter : Iterates iterate) (token : ℤ)
    (count : Int32) :
    (token, count) ∈ (iterate s.tokenCount).mergeSort (fun a b => a.1 ≤ b.1) ↔
      token ∈ tokens.rtake lastN.toNat ∧ count.toInt = (tokens.rtake lastN.toNat).count token := by
  rw [(mergeSort_perm _ _).mem_iff, hiter.mem_iff, h.counts token]
  have hlt : (tokens.rtake lastN.toNat).count token < 2 ^ 31 := by
    have hle := (count_le_length (a := token)).trans (length_rtake_le tokens lastN.toNat)
    have hlast := h.lt
    omega
  split_ifs with htoken
  · rw [Option.some_inj, and_iff_right htoken, ← toInt_natCast hlt, BitVec.toInt_inj]
    exact eq_comm
  · exact iff_of_false (fun h => (by cases h)) fun h => htoken h.1

/-- **The arrays are filled** when there is room for all tokens that have a count. -/
theorem Inv.backendSetInput (h : Inv nVocab lastN tokens s) (hiter : Iterates iterate)
    (hids : s.inpTokenIds ≠ none) (hcounts : s.inpCounts ≠ none) :
    if ((tokens.rtake lastN.toNat).dedup.length : ℤ) ≤ min lastN nVocab then
      ∃ ids counts pairs filler, s.backendSetInput iterate = some { s with
          hostTokenIds := ids
          hostCounts := counts
          inpTokenIds := some ids
          inpCounts := some counts } ∧
        Filled nVocab (min lastN nVocab) (tokens.rtake lastN.toNat) ids counts pairs filler
    else s.backendSetInput iterate = none := by
  obtain ⟨hvocab, hmax, hlength⟩ := h.inputs hids
  have hpos := h.pos
  have hguard : ¬ (s.inpTokenIds = none ∨ s.inpCounts = none ∨ s.nMax ≤ 0 ∨ s.nVocab ≤ 0) := by
    rintro (hnone | hnone | hle | hle)
    · exact hids hnone
    · exact hcounts hnone
    · omega
    · rw [h.nVocab_eq] at hle
      omega
  have hdedup : s.tokenCount.entries.length = (tokens.rtake lastN.toNat).dedup.length := by
    rw [← h.counts.keys_perm.length_eq, AList.keys, List.keys, length_map]
  have henabled : ¬ isDisabled s.penaltyLastN s.neutral = true := by
    rw [h.lastN_eq, h.enabled]
    exact Bool.false_ne_true
  have hentries := hiter.length_eq s.tokenCount
  rw [Penalties.backendSetInput, if_neg hguard, if_neg henabled, fillActive_eq (by omega),
    hentries, ← hmax, ← hdedup, Nat.zero_add]
  split_ifs with hroom
  · have hpadding := @padding_spec s s.tokenCount.entries.length rfl
      (by rw [h.nVocab_eq, hmax]; exact min_le_right lastN nVocab)
    obtain ⟨filler, hfiller, hspec⟩ := hpadding
    have hhosts : s.hostCounts.length = s.hostTokenIds.length := h.hosts
    have hmem := h.mem_sorted hiter
    have hsorted := hiter.sorted s.tokenCount
    have hsortedLength : ((iterate s.tokenCount).mergeSort fun a b => a.1 ≤ b.1).length =
        s.tokenCount.entries.length := by
      rw [length_mergeSort, hentries]
    rw [Option.bind_some]
    dsimp only
    rw [hfiller, Option.map_some]
    have hzip := @zip_store (s.hostTokenIds, s.hostCounts) (iterate s.tokenCount)
      (by change _ ≤ s.hostTokenIds.length; omega) hhosts
    rw [hentries] at hzip
    rw [hzip]
    generalize (iterate s.tokenCount).mergeSort (fun a b => a.1 ≤ b.1) = sorted at *
    have hpad := store_append (store (s.hostTokenIds, s.hostCounts) 0 (iterate s.tokenCount)) 0
      sorted (List.replicate (s.nMax.toNat - s.tokenCount.entries.length) (filler, 0))
    rw [hsortedLength, Nat.zero_add] at hpad
    obtain ⟨hids0, hcounts0⟩ := length_store (s.hostTokenIds, s.hostCounts) 0
      (iterate s.tokenCount)
    rw [← hpad, store_full (by
      rw [length_append, length_replicate, hids0, hlength]
      omega) (by rw [hids0, hcounts0, hhosts])]
    have htake : ∀ {β : Type} (f : ℤ × Int32 → β), ((sorted ++ List.replicate
        (s.nMax.toNat - s.tokenCount.entries.length) (filler, 0)).map f).take s.nMax.toNat =
          (sorted ++ List.replicate (s.nMax.toNat - s.tokenCount.entries.length)
            (filler, 0)).map f := by
      intro β f
      refine take_of_length_le ?_
      rw [length_map, length_append, length_replicate]
      omega
    rw [htake, htake]
    refine ⟨_, _, sorted, filler, rfl, ?_⟩
    exact {
      sorted := hsorted
      mem_iff := hmem
      filler_spec := by
        rw [hsortedLength, ← h.nVocab_eq, ← h.counts.mem_iff]
        exact hspec
      length_le := by rwa [hsortedLength]
      ids_eq := by rw [map_append, map_replicate, hsortedLength]
      counts_eq := by rw [map_append, map_replicate, hsortedLength] }
  · rfl

lemma Filled.length_eq {w ids : List ℤ} {counts : List Int32} {pairs : List (ℤ × Int32)}
    {filler nMax : ℤ} (h : Filled nVocab nMax w ids counts pairs filler) :
    ids.length = nMax.toNat ∧ counts.length = nMax.toNat := by
  have hle := h.length_le
  rw [h.ids_eq, h.counts_eq]
  simp only [length_append, length_map, length_replicate]
  omega

/-! ## Runs -/

lemma Inv.backendApply (h : Inv nVocab lastN tokens s) (happly : s.backendApply = some s') :
    Inv nVocab lastN tokens s' := by
  have henabled : ¬ isDisabled s.penaltyLastN s.neutral = true := by
    rw [h.lastN_eq, h.enabled]
    exact Bool.false_ne_true
  rw [Penalties.backendApply, if_neg henabled, h.nVocab_eq, h.lastN_eq] at happly
  by_cases hvocab : nVocab > 0
  · rw [if_neg (not_not_intro hvocab)] at happly
    obtain rfl := Option.some.inj happly
    by_cases hlength : (s.hostTokenIds.length : ℤ) ≠ min lastN nVocab
    · simp only [if_pos hlength]
      exact { h with
        nVocab_eq := rfl
        lastN_eq := rfl
        inputs := fun _ => ⟨hvocab, rfl, length_replicate⟩
        hosts := length_replicate.trans length_replicate.symm }
    · simp only [if_neg hlength]
      exact { h with
        nVocab_eq := rfl
        lastN_eq := rfl
        inputs := fun _ => ⟨hvocab, rfl, by rw [← not_ne_iff.mp hlength, Int.toNat_natCast]⟩
        hosts := h.hosts }
  · rw [if_pos hvocab] at happly
    cases happly

lemma Inv.afterSetInput (h : Inv nVocab lastN tokens s) (hiter : Iterates iterate)
    (hset : s.backendSetInput iterate = some s') : Inv nVocab lastN tokens s' := by
  by_cases hids : s.inpTokenIds = none
  · rw [Penalties.backendSetInput, if_pos (.inl hids)] at hset
    rwa [← Option.some.inj hset]
  by_cases hcounts : s.inpCounts = none
  · rw [Penalties.backendSetInput, if_pos (.inr (.inl hcounts))] at hset
    rwa [← Option.some.inj hset]
  have hspec := h.backendSetInput hiter hids hcounts
  obtain ⟨hvocab, hmax, -⟩ := h.inputs hids
  split_ifs at hspec with hroom
  · obtain ⟨ids, counts, pairs, filler, heq, hfilled⟩ := hspec
    obtain rfl := Option.some.inj (heq.symm.trans hset)
    obtain ⟨hlength, hlength'⟩ := hfilled.length_eq
    exact { h with
      inputs := fun _ => ⟨hvocab, hmax, by rw [hmax]; exact hlength⟩
      hosts := hlength'.trans hlength.symm }
  · rw [hspec] at hset
    cases hset

/-- **One step.** -/
theorem Inv.step (h : Inv nVocab lastN tokens s) (hiter : Iterates iterate) (op : Op)
    (hstep : s.step iterate op = some s') : Inv nVocab lastN (sinceReset tokens [op]) s' := by
  cases op with
  | accept token =>
    obtain ⟨s1, heq, hinv⟩ := h.accept token
    rwa [← Option.some.inj (heq.symm.trans hstep)]
  | reset =>
    rw [← Option.some.inj hstep]
    exact h.reset
  | clone =>
    obtain ⟨s1, heq, hinv⟩ := h.clone
    rwa [← Option.some.inj (heq.symm.trans hstep)]
  | backendApply => exact h.backendApply hstep
  | backendSetInput => exact h.afterSetInput hiter hstep
  | backendReset =>
    rw [← Option.some.inj hstep]
    exact { h with
      inputs := fun h => absurd rfl h }

lemma sinceReset_cons (tokens : List ℤ) (op : Op) (ops : List Op) :
    sinceReset tokens (op :: ops) = sinceReset (sinceReset tokens [op]) ops := by
  cases op <;> rfl

/-- **All steps of a run.** -/
theorem Inv.run (h : Inv nVocab lastN tokens s) (hiter : Iterates iterate) (ops : List Op)
    (hrun : ops.foldlM (Penalties.step iterate) s = some s') :
    Inv nVocab lastN (sinceReset tokens ops) s' := by
  induction ops generalizing tokens s with
  | nil =>
    cases hrun
    exact h
  | cons op ops ih =>
    obtain ⟨s1, hstep, hrest⟩ := Option.bind_eq_some_iff.mp hrun
    rw [sinceReset_cons]
    exact ih (h.step hiter op hstep) hrest

/-- The different tokens of a window fit into the arrays when they are tokens of the
vocabulary. -/
lemma length_dedup_le {w : List ℤ} (hpos : 0 < nVocab) (hw : (w.length : ℤ) ≤ lastN)
    (hvocab : ∀ token ∈ w, 0 ≤ token ∧ token < nVocab) :
    (w.dedup.length : ℤ) ≤ min lastN nVocab := by
  have hsub : w.dedup ⊆ (range nVocab.toNat).map fun n : ℕ => (n : ℤ) := by
    intro token htoken
    obtain ⟨hnonneg, hlt⟩ := hvocab token (mem_dedup.mp htoken)
    exact mem_map.mpr ⟨token.toNat, mem_range.mpr (by omega), Int.toNat_of_nonneg hnonneg⟩
  have hrange := ((nodup_dedup w).subperm hsub).length_le
  have hle := (dedup_sublist w).length_le
  rw [length_map, length_range] at hrange
  exact le_min (by omega) (by omega)

/-- **The counts are those of the window in every run**, and the backend gets them; only tokens
outside of the vocabulary can be too many for the arrays. -/
theorem counts_of_run (hiter : Iterates iterate) {neutral : Bool} {s0 : Penalties}
    (hpos : 1 ≤ lastN) (hlt : lastN < 2 ^ 31) (hinit : init nVocab lastN neutral = some s0)
    (ops : List Op) (hrun : ops.foldlM (step iterate) s0 = some s) :
    (∀ token, (s.tokenCount.lookup token).map BitVec.toInt =
      if token ∈ window lastN ops then some ((window lastN ops).count token : ℤ) else none) ∧
    (∀ token, (s.accept token).isSome) ∧ s.clone.isSome ∧
    (s.inpTokenIds ≠ none → s.inpCounts ≠ none →
      ((∀ token ∈ window lastN ops, 0 ≤ token ∧ token < nVocab) →
        (s.backendSetInput iterate).isSome) ∧
      ∀ s', s.backendSetInput iterate = some s' → ∃ ids counts pairs filler,
        s'.inpTokenIds = some ids ∧ s'.inpCounts = some counts ∧
          Filled nVocab (min lastN nVocab) (window lastN ops) ids counts pairs filler) := by
  have h := (Inv.init hpos hlt hinit).run hiter ops hrun
  rw [window]
  generalize sinceReset [] ops = tokens at h ⊢
  have hlength := length_rtake_le tokens lastN.toNat
  refine ⟨fun token => ?_, fun token => ?_, ?_, fun hids hcounts => ?_⟩
  · have hcount : (tokens.rtake lastN.toNat).count token < 2 ^ 31 := by
      have hle := (List.count_le_length (a := token)).trans hlength
      omega
    rw [h.counts token]
    split_ifs
    · rw [Option.map_some, toInt_natCast hcount]
    · rfl
  · obtain ⟨s', heq, -⟩ := h.accept token
    rw [heq]
    rfl
  · obtain ⟨s', heq, -⟩ := h.clone
    rw [heq]
    rfl
  · have hspec := h.backendSetInput hiter hids hcounts
    constructor
    · intro hvocab
      obtain ⟨hpos', -⟩ := h.inputs hids
      rw [if_pos (length_dedup_le hpos' (by omega) hvocab)] at hspec
      obtain ⟨ids, counts, pairs, filler, heq, -⟩ := hspec
      rw [heq]
      rfl
    · intro s' hset
      split_ifs at hspec with hroom
      · obtain ⟨ids, counts, pairs, filler, heq, hfilled⟩ := hspec
        rw [← Option.some.inj (heq.symm.trans hset)]
        exact ⟨ids, counts, pairs, filler, rfl, rfl, hfilled⟩
      · rw [hspec] at hset
        cases hset

/-- The entries in the order of the list. -/
def inOrder (counts : Counter ℤ Int32) : List (ℤ × Int32) := counts.entries.map fun e => (e.1, e.2)

/-- A token twice and another one, in a window of two. -/
theorem counts_of_run_two : ∃ s0 s, init 10 2 false = some s0 ∧
      [Op.accept 7, .accept 7, .backendApply, .accept 3].foldlM (step inOrder) s0 = some s ∧
      s.inpTokenIds ≠ none ∧ s.inpCounts ≠ none ∧
      (∀ token, (s.tokenCount.lookup token).map BitVec.toInt =
        if token ∈ [7, 3] then some (([7, 3] : List ℤ).count token : ℤ) else none) ∧
      (s.backendSetInput inOrder).isSome ∧
      ∀ s', s.backendSetInput inOrder = some s' → ∃ ids counts pairs filler,
        s'.inpTokenIds = some ids ∧ s'.inpCounts = some counts ∧
          Filled 10 2 [7, 3] ids counts pairs filler := by
  obtain ⟨s0, hinit⟩ : ∃ s0, init 10 2 false = some s0 := ⟨_, rfl⟩
  obtain ⟨s, hrun, hids, hcounts⟩ : ∃ s,
      [Op.accept 7, .accept 7, .backendApply, .accept 3].foldlM (step inOrder) s0 = some s ∧
        s.inpTokenIds ≠ none ∧ s.inpCounts ≠ none := by
    cases hinit
    exact ⟨_, rfl, fun h => (by cases h), fun h => (by cases h)⟩
  obtain ⟨hlookup, -, -, harrays⟩ := @counts_of_run _ _ _ inOrder
    (fun _ => List.Perm.refl _) false _ (by decide) (by decide) hinit _ hrun
  obtain ⟨hsome, hfilled⟩ := harrays hids hcounts
  have hvocab : ∀ token ∈ ([7, 3] : List ℤ), 0 ≤ token ∧ token < 10 :=
    List.forall_mem_cons.mpr ⟨by decide, List.forall_mem_singleton.mpr (by decide)⟩
  exact ⟨s0, s, hinit, hrun, hids, hcounts, hlookup, hsome hvocab, hfilled⟩

end Penalties
end Sampler
end Llama
