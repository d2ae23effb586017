import Llama.Lib.Buckets
import Mathlib.Order.MinMax

/-!
# The largest candidates

The candidates are put into buckets by their logits.  The buckets from the one of the largest
logits down to the one in which enough candidates are found are written into the result, and
sorted there; the last one only as far as it is needed.

The bucket of a logit is a float computation; of it the model has that it is monotone.  The
algorithms of the standard library are arguments as well.  `none` stands for a write outside of
the result.
-/

namespace Llama.Sampler

open Buckets List

/-! ## The model -/

/-- `llama_token_data`. -/
structure TokenData (L : Type) where
  id : ℤ
  logit : L
  p : L
  deriving Inhabited

/-- `llama_token_data_array`. -/
structure TokenDataArray (L : Type) where
  data : List (TokenData L)
  size : ℕ
  sorted : Bool := false

def nbuckets : ℕ := 128

section Model

variable {L : Type} [Inhabited L] (bucket : L → ℤ) (sort : List (TokenData L) → List (TokenData L))
  (partialSort : ℕ → List (TokenData L) → List (TokenData L))

/-- `bucket` is `int(bucket_scale * val + bucket_inter)`. -/
def bucketIdx (c : TokenData L) : ℕ :=
  (max 0 (min ((nbuckets : ℤ) - 1) (bucket c.logit))).toNat

def histogram (cur : List (TokenData L)) : List ℕ :=
  cur.foldl (fun histo c => histo.modify (bucketIdx bucket c) (· + 1)) (List.replicate nbuckets 0)

/-- The loop for `ib` down to the bucket in which enough candidates are found, with the number of
those that are. -/
def findCut (histo : List ℕ) (nPartial : ℕ) : ℕ → ℕ → Option (ℕ × ℕ)
  | 0, _ => none
  | ib + 1, nhave =>
    let nhave := nhave + histo.getD ib 0
    if nhave ≥ nPartial then some (ib, nhave) else findCut histo nPartial ib nhave

/-- The indices `nbuckets - 1`, `nbuckets - 2`, and so on, `k` of them. -/
def descending (k : ℕ) : List ℕ := (List.range k).map fun d => nbuckets - 1 - d

/-- `bucket_ptrs`, as offsets into the result. -/
def bucketPtrs (histo : List ℕ) : List ℕ → ℕ → List ℕ
  | [], _ => []
  | j :: js, ptr => ptr :: bucketPtrs histo js (ptr + histo.getD j 0)

/-- `*bucket_ptrs[nbuckets - 1 - j]++ = cur.data[i]`, for the candidates with `j >= ib`. -/
def scatter (ib : ℕ) :
    List (TokenData L) → List ℕ → List (TokenData L) → Option (List (TokenData L))
  | [], _, res => some res
  | c :: cur, ptrs, res =>
    let j := bucketIdx bucket c
    if j ≥ ib then
      let ptr := ptrs.getD (nbuckets - 1 - j) 0
      if ptr < res.length then
        scatter ib cur (ptrs.set (nbuckets - 1 - j) (ptr + 1)) (res.set ptr c)
      else none
    else scatter ib cur ptrs res

/-- An algorithm on a part of an array. -/
def onRange (f : List (TokenData L) → List (TokenData L)) (res : List (TokenData L)) (ptr n : ℕ) :
    List (TokenData L) :=
  res.take ptr ++ f ((res.drop ptr).take n) ++ res.drop (ptr + n)

/-- The loop that sorts whole buckets; `ptr` and `ndone` go along. -/
def sortBuckets (histo : List ℕ) (js : List ℕ) (res : List (TokenData L)) :
    List (TokenData L) × ℕ × ℕ :=
  js.foldl (fun s j =>
    (onRange sort s.1 s.2.1 (histo.getD j 0), s.2.1 + histo.getD j 0, s.2.2 + histo.getD j 0))
    (res, 0, 0)

/-- `llama_token_data_array_partial_sort`. -/
def tokenDataArrayPartialSort (cur : List (TokenData L)) (nPartial : ℕ) :
    Option (List (TokenData L)) :=
  let histo := histogram bucket cur
  (findCut histo nPartial nbuckets 0).bind fun cut =>
    let ib := cut.1
    let ptrs := bucketPtrs histo (descending (nbuckets - ib)) 0
    (scatter bucket ib cur ptrs (List.replicate cut.2 default)).map fun res =>
      let sorted := sortBuckets sort histo (descending (nbuckets - 1 - ib)) res
      let ptr := sorted.2.1
      let ndone := sorted.2.2
      onRange (partialSort (nPartial - ndone)) sorted.1 ptr (histo.getD ib 0)

/-- `llama_token_data_array_partial_sort_inplace`. -/
def tokenDataArrayPartialSortInplace (curP : TokenDataArray L) (nPartial : ℕ) :
    Option (TokenDataArray L) :=
  if nPartial ≤ 128 then
    some {
      data := onRange (partialSort nPartial) curP.data 0 curP.size
      size := nPartial
      sorted := true }
  else
    (tokenDataArrayPartialSort bucket sort partialSort (curP.data.take curP.size) nPartial).map
      fun tmp => {
        data := tmp.take nPartial ++ curP.data.drop nPartial
        size := nPartial
        sorted := true }

end Model

variable {L : Type}

/-! ## Counting -/

section Scatter

variable {bucket : L → ℤ} {cur xs : List (TokenData L)} {c : TokenData L} {d m n : ℕ}

/-- The buckets are counted from that of the largest logits on. -/
def slot (bucket : L → ℤ) (c : TokenData L) : ℕ := nbuckets - 1 - bucketIdx bucket c

lemma bucketIdx_lt (bucket : L → ℤ) (c : TokenData L) : bucketIdx bucket c < nbuckets := by
  have hle : max 0 (min ((nbuckets : ℤ) - 1) (bucket c.logit)) < nbuckets :=
    max_lt (by decide) ((min_le_left _ _).trans_lt (by decide))
  rw [bucketIdx]
  omega

lemma slot_lt (bucket : L → ℤ) (c : TokenData L) : slot bucket c < nbuckets := by
  rw [slot, nbuckets]
  omega

/-- The number of the candidates in a bucket. -/
def bucketSize (bucket : L → ℤ) (cur : List (TokenData L)) (d : ℕ) : ℕ :=
  (row (slot bucket) d cur).length

lemma getD_foldl_modify (histo : List ℕ) (hlength : histo.length = nbuckets) (hd : d < nbuckets) :
    (cur.foldl (fun histo c => histo.modify (bucketIdx bucket c) (· + 1)) histo).getD
      (nbuckets - 1 - d) 0 = histo.getD (nbuckets - 1 - d) 0 + bucketSize bucket cur d := by
  induction cur generalizing histo with
  | nil => rfl
  | cons c cur ih =>
    have hidx := bucketIdx_lt bucket c
    rw [foldl_cons, ih _ (by rw [List.length_modify, hlength]), bucketSize, bucketSize, row,
      row, getD_eq_getElem?_getD, getD_eq_getElem?_getD, getElem?_modify]
    have hget : histo[nbuckets - 1 - d]? = some histo[nbuckets - 1 - d] :=
      getElem?_eq_getElem (by omega)
    rw [hget]
    by_cases hslot : slot bucket c = d
    · have heq : bucketIdx bucket c = nbuckets - 1 - d := by
        rw [slot] at hslot
        omega
      rw [filter_cons_of_pos (by simpa using hslot), length_cons]
      simp only [Option.map_eq_map, Option.map_some, Option.getD_some, if_pos heq]
      omega
    · have hne : bucketIdx bucket c ≠ nbuckets - 1 - d := fun heq => hslot (by
        rw [slot]
        omega)
      rw [filter_cons_of_neg (by simpa using hslot)]
      simp only [Option.map_eq_map, Option.map_some, if_neg hne]

/-- **The histogram has the sizes of the buckets.** -/
theorem getD_histogram (bucket : L → ℤ) (cur : List (TokenData L)) (hd : d < nbuckets) :
    (histogram bucket cur).getD (nbuckets - 1 - d) 0 = bucketSize bucket cur d := by
  rw [histogram, getD_foldl_modify _ length_replicate hd, getD_eq_getElem?_getD, getElem?_replicate]
  split_ifs <;> simp

/-- All candidates are in some bucket. -/
lemma offset_nbuckets (bucket : L → ℤ) (cur : List (TokenData L)) :
    offset (bucketSize bucket cur) nbuckets = cur.length := by
  have hfull : (rows (slot bucket) nbuckets cur).length =
      offset (bucketSize bucket cur) nbuckets := by
    rw [rows, length_flatMap]
    rfl
  rw [← hfull, (rows_perm (slot bucket) nbuckets cur).length_eq, filter_eq_self.mpr]
  exact fun c _ => decide_eq_true (slot_lt bucket c)

/-- **The cut**: the candidates of the buckets before it are too few, those up to it are enough. -/
theorem findCut_spec {histo : List ℕ} {size : ℕ → ℕ}
    (hhisto : ∀ d < nbuckets, histo.getD (nbuckets - 1 - d) 0 = size d) (hn : n ≤ offset size nbuckets)
    (hd : d ≤ nbuckets) (hfew : offset size d < n) :
    ∃ e < nbuckets, findCut histo n (nbuckets - d) (offset size d) =
        some (nbuckets - 1 - e, offset size (e + 1)) ∧
      offset size e < n ∧ n ≤ offset size (e + 1) := by
  induction hk : nbuckets - d generalizing d with
  | zero =>
    have heq : d = nbuckets := by omega
    rw [heq] at hfew
    omega
  | succ k ih =>
    have heq : k = nbuckets - 1 - d := by omega
    rw [findCut, heq, hhisto d (by omega), ← offset_succ]
    by_cases hge : offset size (d + 1) ≥ n
    · rw [if_pos hge]
      exact ⟨d, by omega, rfl, hfew, hge⟩
    · rw [if_neg hge, ← heq]
      exact ih (by omega) (by omega) (by omega)

lemma bucketPtrs_eq {histo : List ℕ} {size : ℕ → ℕ}
    (hhisto : ∀ d < nbuckets, histo.getD (nbuckets - 1 - d) 0 = size d) (hm : d + m ≤ nbuckets) :
    bucketPtrs histo ((range' d m).map fun d => nbuckets - 1 - d) (offset size d) =
      (range' d m).map (offset size) := by
  induction m generalizing d with
  | zero => rfl
  | succ m ih =>
    rw [range'_succ, map_cons, map_cons, bucketPtrs, hhisto d (by omega),
      ← offset_succ, ih (by omega)]

/-- Where the next candidates of the first `m` buckets go. -/
def nextPtrs (bucket : L → ℤ) (size : ℕ → ℕ) (m : ℕ) (xs : List (TokenData L)) : List ℕ :=
  (List.range m).map fun d => offset size d + (row (slot bucket) d xs).length

lemma length_nextPtrs (size : ℕ → ℕ) : (nextPtrs bucket size m xs).length = m := by
  rw [nextPtrs, length_map, length_range]

lemma getElem?_nextPtrs (size : ℕ → ℕ) (hd : d < m) :
    (nextPtrs bucket size m xs)[d]? = some (offset size d + (row (slot bucket) d xs).length) := by
  rw [nextPtrs, getElem?_map, getElem?_range hd]
  rfl

lemma nextPtrs_append (size : ℕ → ℕ) :
    nextPtrs bucket size m (xs ++ [c]) = (nextPtrs bucket size m xs).set (slot bucket c)
      (offset size (slot bucket c) + (row (slot bucket) (slot bucket c) xs).length + 1) := by
  refine ext_getElem? fun d => ?_
  by_cases hd : d < m
  · rw [getElem?_nextPtrs size hd]
    by_cases heq : slot bucket c = d
    · subst heq
      rw [getElem?_set_self (by rwa [length_nextPtrs]), row_append_self, length_append,
        length_singleton, Nat.add_assoc]
    · rw [getElem?_set_ne heq, getElem?_nextPtrs size hd, row_append_of_ne heq]
  · rw [getElem?_eq_none (by rw [length_nextPtrs]; omega),
      getElem?_eq_none (by rw [length_set, length_nextPtrs]; omega)]

/-- **The candidates go to their rows**, and every write is inside the result. -/
theorem scatter_spec [Inhabited L] (hm : m ≤ nbuckets) (rest : List (TokenData L))
    (hcur : xs ++ rest = cur) :
    scatter bucket (nbuckets - m) rest (nextPtrs bucket (bucketSize bucket cur) m xs)
        (table (slot bucket) (bucketSize bucket cur) default m xs) =
      some (table (slot bucket) (bucketSize bucket cur) default m cur) := by
  induction rest generalizing xs with
  | nil =>
    rw [append_nil] at hcur
    rw [scatter, hcur]
  | cons c rest ih =>
    have hrest : (xs ++ [c]) ++ rest = cur := by rw [append_assoc, singleton_append, hcur]
    have hfits : Fits (slot bucket) (bucketSize bucket cur) m xs := fun d _ => by
      rw [bucketSize, row, row, ← hcur, filter_append, length_append]
      exact Nat.le_add_right _ _
    have hidx := bucketIdx_lt bucket c
    have hdef : nbuckets - 1 - bucketIdx bucket c = slot bucket c := rfl
    rw [scatter, hdef]
    by_cases hin : slot bucket c < m
    · have hroom : (row (slot bucket) (slot bucket c) xs).length <
          bucketSize bucket cur (slot bucket c) := by
        have hcount : bucketSize bucket cur (slot bucket c) =
            ((row (slot bucket) (slot bucket c) xs ++ [c]) ++
              row (slot bucket) (slot bucket c) rest).length := by
          rw [bucketSize, ← hrest, ← row_append_self, row, row, row, filter_append]
        rw [hcount]
        simp only [length_append, length_singleton]
        omega
      have hle := @offset_mono (bucketSize bucket cur) _ _ (Nat.succ_le_of_lt hin)
      rw [offset_succ] at hle
      have hge : bucketIdx bucket c ≥ nbuckets - m := by
        omega
      rw [if_pos hge, getD_eq_getElem?_getD, getElem?_nextPtrs _ hin, Option.getD_some,
        if_pos (by rw [length_table hfits]; omega), set_table hfits hin hroom, ← nextPtrs_append]
      exact ih hrest
    · have hlt : ¬ bucketIdx bucket c ≥ nbuckets - m := by
        omega
      rw [if_neg hlt]
      have hnext := ih hrest
      rw [table_append_of_le (Nat.le_of_not_lt hin), nextPtrs_append, set_eq_of_length_le] at hnext
      · exact hnext
      · rw [length_nextPtrs]
        exact Nat.le_of_not_lt hin

end Scatter

/-! ## Sorting the buckets -/

variable {bucket : L → ℤ} {sort : List (TokenData L) → List (TokenData L)}
  {partialSort : ℕ → List (TokenData L) → List (TokenData L)} {cur : List (TokenData L)} {d m n : ℕ}

lemma onRange_append {f : List (TokenData L) → List (TokenData L)} {ptr n : ℕ}
    {pre mid post : List (TokenData L)} (hpre : pre.length = ptr) (hmid : mid.length = n) :
    onRange f (pre ++ mid ++ post) ptr n = pre ++ f mid ++ post := by
  subst hpre hmid
  rw [onRange, append_assoc pre mid post, take_left, drop_left, take_left,
    ← append_assoc pre mid post, ← length_append, drop_left]

/-- The first buckets, each sorted. -/
def sortedRows (bucket : L → ℤ) (sort : List (TokenData L) → List (TokenData L))
    (cur : List (TokenData L)) (m : ℕ) : List (TokenData L) :=
  (List.range m).flatMap fun d => sort (row (slot bucket) d cur)

lemma sortedRows_succ : sortedRows bucket sort cur (m + 1) =
      sortedRows bucket sort cur m ++ sort (row (slot bucket) m cur) := by
  rw [sortedRows, range_succ]
  simp [sortedRows]

lemma length_rows : (rows (slot bucket) m cur).length = offset (bucketSize bucket cur) m := by
  rw [rows, length_flatMap]
  rfl

lemma mem_rows_iff {c : TokenData L} : c ∈ rows (slot bucket) m cur ↔ c ∈ cur ∧ slot bucket c < m := by
  rw [(rows_perm (slot bucket) m cur).mem_iff, mem_filter, decide_eq_true_eq]

lemma mem_row_iff {c : TokenData L} : c ∈ row (slot bucket) d cur ↔ c ∈ cur ∧ slot bucket c = d := by
  rw [row, mem_filter, decide_eq_true_eq]

/-! ## The largest candidates -/

variable [LinearOrder L]

/-- Sorted by decreasing logit. -/
def Sorted (l : List (TokenData L)) : Prop := l.Pairwise fun a b => b.logit ≤ a.logit

/-- No candidate of the second list has a larger logit than one of the first. -/
def Above (first rest : List (TokenData L)) : Prop :=
  ∀ a ∈ first, ∀ b ∈ rest, b.logit ≤ a.logit

/-- `std::sort` by decreasing logit. -/
def Sorts (sort : List (TokenData L) → List (TokenData L)) : Prop :=
  ∀ l, (sort l).Perm l ∧ Sorted (sort l)

/-- `std::partial_sort` by decreasing logit. -/
def SortsFirst (partialSort : ℕ → List (TokenData L) → List (TokenData L)) : Prop :=
  ∀ n l, n ≤ l.length → (partialSort n l).Perm l ∧ Sorted ((partialSort n l).take n) ∧
    Above ((partialSort n l).take n) ((partialSort n l).drop n)

/-- `n` candidates, sorted, than which no other one has a larger logit. -/
structure IsTop (n : ℕ) (cur first : List (TokenData L)) : Prop where
  length : first.length = n
  sorted : Sorted first
  rest : ∃ rest, (first ++ rest).Perm cur ∧ Above first rest

/-- **A candidate of an earlier bucket has no smaller logit.** -/
theorem logit_le_of_slot_lt (hmono : ∀ x y, x ≤ y → bucket x ≤ bucket y)
    {a b : TokenData L}
    (h : slot bucket a < slot bucket b) : b.logit ≤ a.logit := by
  by_contra hlt
  have hle := hmono _ _ (le_of_not_ge hlt)
  have hidx : bucketIdx bucket a ≤ bucketIdx bucket b :=
    Int.toNat_le_toNat (max_le_max le_rfl (min_le_min le_rfl hle))
  rw [slot, slot] at h
  omega

lemma sortedRows_perm (hsort : Sorts sort) :
    (sortedRows bucket sort cur m).Perm (rows (slot bucket) m cur) := by
  induction m with
  | zero => exact List.Perm.refl _
  | succ m ih =>
    rw [sortedRows_succ, rows_succ]
    exact ih.append (hsort _).1

/-- **The sorted buckets are sorted one behind the other.** -/
theorem sorted_sortedRows (hsort : Sorts sort) (hmono : ∀ x y, x ≤ y → bucket x ≤ bucket y) :
    Sorted (sortedRows bucket sort cur m) := by
  induction m with
  | zero => exact List.Pairwise.nil
  | succ m ih =>
    rw [sortedRows_succ]
    refine pairwise_append.mpr ⟨ih, (hsort _).2, fun a ha b hb => ?_⟩
    have ha' := (mem_rows_iff.mp ((sortedRows_perm hsort).mem_iff.mp ha)).2
    have hb' := (mem_row_iff.mp ((hsort _).1.mem_iff.mp hb)).2
    exact logit_le_of_slot_lt hmono (by omega)

/-- **Whole buckets are sorted**, and the counters stand behind them. -/
theorem sortBuckets_spec (hsort : Sorts sort) {rest : List (TokenData L)} (hm : m ≤ nbuckets) :
    sortBuckets sort (histogram bucket cur) (descending m) (rows (slot bucket) m cur ++ rest) =
      (sortedRows bucket sort cur m ++ rest, offset (bucketSize bucket cur) m,
        offset (bucketSize bucket cur) m) := by
  induction m generalizing rest with
  | zero => rfl
  | succ m ih =>
    have hdesc : descending (m + 1) = descending m ++ [nbuckets - 1 - m] := by
      rw [descending, range_succ, map_append]
      rfl
    have hinit := @ih (row (slot bucket) m cur ++ rest) (Nat.le_of_succ_le hm)
    rw [sortBuckets] at hinit ⊢
    rw [hdesc, foldl_append, rows_succ, append_assoc, hinit, foldl_cons, foldl_nil]
    have hrange : onRange sort (sortedRows bucket sort cur m ++ row (slot bucket) m cur ++ rest)
        (offset (bucketSize bucket cur) m) (bucketSize bucket cur m) =
          sortedRows bucket sort cur m ++ sort (row (slot bucket) m cur) ++ rest :=
      onRange_append ((sortedRows_perm hsort).length_eq.trans length_rows) rfl
    rw [getD_histogram bucket cur hm, ← append_assoc, hrange, sortedRows_succ, offset_succ]

/-- **The bucket sort**: all writes are inside the result, which holds the buckets up to the cut,
sorted as far as they are needed. -/
theorem tokenDataArrayPartialSort_eq [Inhabited L] (hsort : Sorts sort) (hpos : 1 ≤ n)
    (hn : n ≤ cur.length) :
    ∃ e, offset (bucketSize bucket cur) e < n ∧ n ≤ offset (bucketSize bucket cur) (e + 1) ∧
      tokenDataArrayPartialSort bucket sort partialSort cur n =
        some (sortedRows bucket sort cur e ++
          partialSort (n - offset (bucketSize bucket cur) e) (row (slot bucket) e cur)) := by
  have hhisto : ∀ d < nbuckets, (histogram bucket cur).getD (nbuckets - 1 - d) 0 =
      bucketSize bucket cur d := fun d hd => getD_histogram bucket cur hd
  obtain ⟨e, he, hcut, hfew, henough⟩ := findCut_spec hhisto (n := n)
    (by rw [offset_nbuckets]; exact hn) (Nat.zero_le _) (by rw [offset_zero]; exact hpos)
  refine ⟨e, hfew, henough, ?_⟩
  rw [Nat.sub_zero, offset_zero] at hcut
  have hback : nbuckets - (nbuckets - 1 - e) = e + 1 := by omega
  have hback' : nbuckets - 1 - (nbuckets - 1 - e) = e := by omega
  have hptrs : bucketPtrs (histogram bucket cur) (descending (e + 1)) 0 =
      (range (e + 1)).map (offset (bucketSize bucket cur)) := by
    rw [descending, range_eq_range']
    exact bucketPtrs_eq hhisto (by omega)
  have hscatter := @scatter_spec L bucket cur [] (e + 1) _ (by omega) cur rfl
  have hfull := @table_eq_rows _ (slot bucket) (bucketSize bucket cur) default cur (e + 1)
    fun _ _ => rfl
  rw [table_nil, hfull] at hscatter
  have hnext : nextPtrs bucket (bucketSize bucket cur) (e + 1) [] =
      (range (e + 1)).map (offset (bucketSize bucket cur)) := rfl
  have hib : nbuckets - (e + 1) = nbuckets - 1 - e := by omega
  rw [hnext, hib] at hscatter
  rw [tokenDataArrayPartialSort, hcut, Option.bind_some]
  dsimp only
  rw [hback, hback', hptrs, hscatter, Option.map_some]
  rw [rows_succ, sortBuckets_spec hsort (Nat.le_of_lt he)]
  have hlength : (sortedRows bucket sort cur e).length = offset (bucketSize bucket cur) e :=
    (sortedRows_perm hsort).length_eq.trans length_rows
  have hrange := @onRange_append _ (partialSort (n - offset (bucketSize bucket cur) e)) _ _ _
    (row (slot bucket) e cur) [] hlength rfl
  rw [append_nil, append_nil] at hrange
  rw [getD_histogram bucket cur he]
  exact congrArg some hrange

/-! ## The result -/

/-- **What is taken from the sorted buckets is the top.** -/
theorem isTop_take (hsort : Sorts sort) (hnPartial : SortsFirst partialSort)
    (hmono : ∀ x y, x ≤ y → bucket x ≤ bucket y)
    {e : ℕ} (hfew : offset (bucketSize bucket cur) e < n)
    (henough : n ≤ offset (bucketSize bucket cur) (e + 1)) :
    IsTop n cur ((sortedRows bucket sort cur e ++
      partialSort (n - offset (bucketSize bucket cur) e) (row (slot bucket) e cur)).take n) := by
  set k := n - offset (bucketSize bucket cur) e with hk
  have hlength : (sortedRows bucket sort cur e).length = offset (bucketSize bucket cur) e :=
    (sortedRows_perm hsort).length_eq.trans length_rows
  have hle : k ≤ (row (slot bucket) e cur).length := by
    rw [offset_succ] at henough
    change k ≤ bucketSize bucket cur e
    omega
  obtain ⟨hperm, hsorted, habove⟩ := hnPartial k (row (slot bucket) e cur) hle
  have htake : (sortedRows bucket sort cur e ++ partialSort k (row (slot bucket) e cur)).take n =
      sortedRows bucket sort cur e ++ (partialSort k (row (slot bucket) e cur)).take k := by
    rw [take_append, hlength, take_of_length_le (by omega)]
  have hslots : ∀ a ∈ sortedRows bucket sort cur e, slot bucket a < e := fun a ha =>
    (mem_rows_iff.mp ((sortedRows_perm hsort).mem_iff.mp ha)).2
  have hslot : ∀ a ∈ partialSort k (row (slot bucket) e cur), slot bucket a = e := fun a ha =>
    (mem_row_iff.mp (hperm.mem_iff.mp ha)).2
  rw [htake]
  refine ⟨?_, ?_, (partialSort k (row (slot bucket) e cur)).drop k ++
    cur.filter fun c => !decide (slot bucket c < e + 1), ?_, ?_⟩
  · rw [length_append, length_take, hperm.length_eq]
    omega
  · refine pairwise_append.mpr ⟨sorted_sortedRows hsort hmono, hsorted, fun a ha b hb => ?_⟩
    refine logit_le_of_slot_lt hmono ?_
    rw [hslot b (mem_of_mem_take hb)]
    exact hslots a ha
  · rw [append_assoc, ← append_assoc (List.take k _), take_append_drop, ← append_assoc]
    have hrows : (sortedRows bucket sort cur e ++
        partialSort k (row (slot bucket) e cur)).Perm (rows (slot bucket) (e + 1) cur) := by
      rw [rows_succ]
      exact (sortedRows_perm hsort).append hperm
    have hall := filter_append_perm (fun c => decide (slot bucket c < e + 1)) cur
    exact ((hrows.trans (rows_perm _ _ _)).append_right _).trans hall
  · intro a ha b hb
    rcases mem_append.mp hb with hb | hb
    · rcases mem_append.mp ha with ha | ha
      · refine logit_le_of_slot_lt hmono ?_
        rw [hslot b (mem_of_mem_drop hb)]
        exact hslots a ha
      · exact habove a ha b hb
    · have hbe : e < slot bucket b := by
        have hnot := (mem_filter.mp hb).2
        rw [Bool.not_eq_true', decide_eq_false_iff_not] at hnot
        omega
      refine logit_le_of_slot_lt hmono (lt_of_le_of_lt ?_ hbe)
      rcases mem_append.mp ha with ha | ha
      · exact Nat.le_of_lt (hslots a ha)
      · exact Nat.le_of_eq (hslot a (mem_of_mem_take ha))

lemma isTop_partialSort (hnPartial : SortsFirst partialSort) (hn : n ≤ cur.length) :
    IsTop n cur ((partialSort n cur).take n) := by
  obtain ⟨hperm, hsorted, habove⟩ := hnPartial n cur hn
  refine ⟨?_, hsorted, (partialSort n cur).drop n, ?_, habove⟩
  · rw [length_take, hperm.length_eq, Nat.min_eq_left hn]
  · rwa [take_append_drop]

/-- A sort by decreasing logit. -/
def mergeSort (l : List (TokenData L)) : List (TokenData L) :=
  List.mergeSort l fun a b => b.logit ≤ a.logit

lemma sorts_mergeSort : Sorts (mergeSort : List (TokenData L) → List (TokenData L)) := by
  intro l
  refine ⟨mergeSort_perm _ _, ?_⟩
  have hle := @List.pairwise_mergeSort _ (fun a b : TokenData L => decide (b.logit ≤ a.logit))
    (fun a b c hab hbc => by
      rw [decide_eq_true_eq] at hab hbc ⊢
      exact hbc.trans hab)
    (fun a b => by
      rw [Bool.or_eq_true, decide_eq_true_eq, decide_eq_true_eq]
      exact le_total b.logit a.logit) l
  exact hle.imp fun h => of_decide_eq_true h

/-- What sorts all candidates sorts the first ones. -/
lemma Sorts.sortsFirst (hsort : Sorts sort) : SortsFirst fun _ => sort := by
  intro n l _
  obtain ⟨hperm, hsorted⟩ := hsort l
  rw [← take_append_drop n (sort l)] at hsorted
  obtain ⟨htake, -, habove⟩ := pairwise_append.mp hsorted
  exact ⟨hperm, htake, habove⟩

end Llama.Sampler
