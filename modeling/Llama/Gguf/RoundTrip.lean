import Llama.Gguf.Built
import Llama.Gguf.Accepted

/-!
# Writing and reading back

The bytes of each part of a file are read back by the part of the reader that is for them, from
the key-value pairs up to the whole file.  The reader has limits of its own: it refuses strings
of more than a gibibyte and shapes whose sizes do not fit; and the writer stops at a tensor
without data or whose data is not contiguous.
-/

namespace Llama

namespace Gguf

open Reader List Bytes

variable {s : List UInt8}

lemma reads_readString {str : List UInt8} (h : str.length ≤ maxLength) :
    Reads readString s (writeString str) str s := by
  have hlt : str.length < 2 ^ 64 := h.trans_lt (by decide)
  refine (reads_readU64 hlt s).bind ?_
  exact (reads_throwIf (Nat.not_lt.mpr h) s).bind_nil (reads_read rfl s)

lemma length_le_flatMap_writeString (strs : List (List UInt8)) :
    strs.length * 8 ≤ (strs.flatMap writeString).length := by
  induction strs with
  | nil => exact Nat.zero_le _
  | cons str strs ih =>
    rw [flatMap_cons, length_append, length_cons, writeString, length_append, length_ofNat]
    omega

/-- A step that only asks for bytes that are there. -/
lemma reads_needs_bind {α : Type} {n : ℕ} {f : Unit → Read α} {bs : List UInt8} {a : α}
    {s' : List UInt8} (h : n ≤ bs.length) (h' : Reads (f ()) s bs a s') :
    Reads (needs n >>= f) s bs a s' := by
  intro rest
  have hlen : ¬ (bs ++ rest).length < n := by
    rw [length_append]
    omega
  have hneeds : needs n s (bs ++ rest) = ⟨.ok (), s, bs ++ rest⟩ := by rw [needs, if_neg hlen]
  change andThen (needs n) f s (bs ++ rest) = _
  rw [andThen, hneeds]
  exact h' rest

lemma reads_readStrings {strs : List (List UInt8)} (hn : strs.length ≤ maxLength)
    (h : ∀ str ∈ strs, str.length ≤ maxLength) :
    Reads (readStrings strs.length) s (strs.flatMap writeString) strs s := by
  refine (reads_throwIf (Nat.not_lt.mpr hn) s).bind_nil ?_
  refine reads_needs_bind (length_le_flatMap_writeString strs) ?_
  have hall := reads_replicate (f := id) fun str hstr => reads_readString (s := s) (h str hstr)
  rwa [map_id] at hall

lemma reads_readScalar {t : GgufType} {bs : List UInt8} (hlen : bs.length = t.size)
    (hbool : t = .bool → ∀ b ∈ bs, b = 0 ∨ b = 1) : Reads (readScalar t) s bs bs s := by
  have hval : (if t = .bool then [if bs = [0] then (0 : UInt8) else 1] else bs) = bs := by
    split
    · next ht =>
      subst ht
      obtain ⟨b, rfl⟩ := length_eq_one_iff.mp hlen
      rcases hbool rfl b (mem_singleton_self b) with rfl | rfl <;> rfl
    · rfl
  have h := (reads_read hlen s).map fun bs => if t = .bool then [if bs = [0] then 0 else 1] else bs
  rwa [hval] at h

/-- The elements of an array are read one after the other. -/
lemma reads_replicate_readScalar {t : GgufType} : ∀ {n : ℕ} {bs : List UInt8},
    bs.length = n * t.size → (t = .bool → ∀ b ∈ bs, b = 0 ∨ b = 1) →
      ∃ chunks, Reads (replicate n (readScalar t)) s bs chunks s ∧ chunks.flatten = bs
  | 0, bs, hlen, _ => by
    rw [Nat.zero_mul] at hlen
    rw [eq_nil_of_length_eq_zero hlen]
    exact ⟨[], reads_pure [] s, rfl⟩
  | n + 1, bs, hlen, hbool => by
    rw [Nat.succ_mul] at hlen
    have hfst : (bs.take t.size).length = t.size := by
      rw [length_take]
      omega
    have hsnd : (bs.drop t.size).length = n * t.size := by
      rw [length_drop]
      omega
    obtain ⟨chunks, hread, hflat⟩ := reads_replicate_readScalar hsnd fun ht b hb =>
      hbool ht b (mem_of_mem_drop hb)
    have hone := reads_readScalar (s := s) hfst fun ht b hb => hbool ht b (mem_of_mem_take hb)
    refine ⟨bs.take t.size :: chunks, ?_, ?_⟩
    · have h : Reads (replicate (n + 1) (readScalar t)) s (bs.take t.size ++ bs.drop t.size)
          (bs.take t.size :: chunks) s := hone.bind (hread.map fun as => bs.take t.size :: as)
      rwa [take_append_drop] at h
    · rw [flatten_cons, hflat, take_append_drop]

lemma reads_readScalars {t : GgufType} {n : ℕ} {bs : List UInt8} (hn : n ≤ maxLength)
    (hlen : bs.length = n * t.size) (hbool : t = .bool → ∀ b ∈ bs, b = 0 ∨ b = 1) :
    Reads (readScalars t n) s bs bs s := by
  obtain ⟨chunks, hread, hflat⟩ := reads_replicate_readScalar (s := s) hlen hbool
  refine (reads_throwIf (Nat.not_lt.mpr hn) s).bind_nil ?_
  refine reads_needs_bind hlen.ge ?_
  have h := hread.map flatten
  rwa [hflat] at h

/-! ## Key-value pairs -/

/-- The lengths of a pair are within the limits of the reader. -/
structure Short (kv : GgufKv) : Prop where
  key : kv.key.length ≤ maxLength
  strings : ∀ str ∈ kv.dataString, str.length ≤ maxLength
  elements : ∀ ne, kv.getNe = some ne → ne ≤ maxLength

/-- The number of elements of a well formed pair. -/
lemma getNe_spec {kv : GgufKv} (h : kv.WellFormed) : ∃ ne, kv.getNe = some ne ∧
    (kv.type = .string → ne = kv.dataString.length) ∧
    (kv.type ≠ .string → kv.data.length = ne * kv.type.size) ∧ (kv.isArray = false → ne = 1) := by
  by_cases hs : kv.type = .string
  · obtain ⟨-, hone⟩ := h.strings hs
    refine ⟨kv.dataString.length, ?_, fun _ => rfl, fun hn => absurd hs hn, hone⟩
    have hcond : kv.isArray = true ∨ kv.dataString.length = 1 := by
      cases harr : kv.isArray with
      | true => exact .inl rfl
      | false => exact .inr (hone harr)
    rw [GgufKv.getNe, if_pos hs, if_pos hcond]
  · obtain ⟨-, hmod, hone⟩ := h.scalars hs
    have hpos := GgufType.size_pos hs h.type_ne
    have hdiv : kv.isArray = false → kv.data.length / kv.type.size = 1 := fun hf => by
      rw [hone hf, Nat.div_self hpos]
    refine ⟨kv.data.length / kv.type.size, ?_, fun hn => absurd hn hs, fun _ => ?_, hdiv⟩
    · have hcond : kv.type.size ≠ 0 ∧ kv.data.length % kv.type.size = 0 ∧
          (kv.isArray = true ∨ kv.data.length / kv.type.size = 1) := by
        refine ⟨hpos.ne', hmod, ?_⟩
        cases harr : kv.isArray with
        | true => exact .inl rfl
        | false => exact .inr (hdiv harr)
      rw [GgufKv.getNe, if_neg hs, if_pos hcond]
    · exact (Nat.div_mul_cancel (Nat.dvd_of_mod_eq_zero hmod)).symm

lemma isInt32_toInt (t : GgufType) : Bytes.IsInt32 t.toInt := by
  cases t <;> decide

/-- The type of a pair. -/
lemma reads_readType {kv : GgufKv} {ne : ℕ} (ht : kv.type ≠ .array) (hne : ne < 2 ^ 64)
    (hone : kv.isArray = false → ne = 1) :
    Reads readType s (if kv.isArray then ofInt32 GgufType.array.toInt ++
      ofInt32 kv.type.toInt ++ ofNat 8 ne else ofInt32 kv.type.toInt)
      (kv.isArray, kv.type.toInt, ne) s := by
  cases harr : kv.isArray with
  | true =>
    refine (reads_readI32 (isInt32_toInt .array) s).bind ?_
    exact (reads_readI32 (isInt32_toInt kv.type) s).bind
      ((reads_readU64 hne s).map fun n => (true, kv.type.toInt, n))
  | false =>
    have hnot : kv.type.toInt ≠ GgufType.array.toInt := by
      intro heq
      have hof := GgufType.ofInt_toInt kv.type
      rw [heq] at hof
      exact ht (Option.some.inj hof).symm
    rw [hone harr]
    refine (reads_readI32 (isInt32_toInt kv.type) s).bind ?_
    rw [if_neg hnot]
    exact reads_pure _ s

/-- The values of a pair. -/
lemma reads_readEmplace {kv : GgufKv} {ne : ℕ} (h : kv.WellFormed) (hshort : Short kv)
    (hne : kv.getNe = some ne) :
    Reads (readEmplace kv.key kv.isArray kv.type ne) s (writeValues kv) kv s := by
  obtain ⟨ne', hne', hstr, hscalar, hone⟩ := getNe_spec h
  obtain rfl : ne = ne' := Option.some.inj (hne.symm.trans hne')
  have hle := hshort.elements ne hne
  unfold readEmplace
  split
  · next hs =>
    obtain ⟨hdata, -⟩ := h.strings hs
    have hvalues : Reads (readStringValue kv.isArray ne) s (writeValues kv) kv.dataString s := by
      have hw : writeValues kv = kv.dataString.flatMap writeString := by
        rw [writeValues, hs]
      rw [hw, hstr hs]
      unfold readStringValue
      split
      · exact reads_readStrings (hstr hs ▸ hle) hshort.strings
      · next harr =>
        have hlen : kv.dataString.length = 1 := by
          rw [← hstr hs]
          exact hone (by simpa using harr)
        rw [← hlen]
        have hall := reads_replicate (f := id) fun str hstr =>
          reads_readString (s := s) (hshort.strings str hstr)
        rwa [map_id] at hall
    have hkv := hvalues.map fun values => (⟨kv.key, kv.isArray, kv.type, [], values⟩ : GgufKv)
    have heq : (⟨kv.key, kv.isArray, kv.type, [], kv.dataString⟩ : GgufKv) = kv := by rw [← hdata]
    rwa [heq] at hkv
  · next hs =>
    obtain ⟨hstrings, -, hsize⟩ := h.scalars hs
    have hw : writeValues kv = kv.data := by
      unfold writeValues
      split
      · next heq => exact absurd heq hs
      · next heq =>
        have hid : ∀ b ∈ kv.data, (if b = 0 then (0 : UInt8) else 1) = id b := fun b hb => by
          rcases h.bools heq b hb with rfl | rfl <;> rfl
        rw [writeBools, map_congr_left hid, map_id]
      · rfl
    have hdata : Reads (readScalarValue kv.type kv.isArray ne) s kv.data kv.data s := by
      unfold readScalarValue
      split
      · exact reads_readScalars hle (hscalar hs) h.bools
      · next harr => exact reads_readScalar (hsize (by simpa using harr)) h.bools
    have hkv := hdata.map fun data => (⟨kv.key, kv.isArray, kv.type, data, []⟩ : GgufKv)
    have heq : (⟨kv.key, kv.isArray, kv.type, kv.data, []⟩ : GgufKv) = kv := by rw [← hstrings]
    rwa [heq, ← hw] at hkv

lemma reads_readKv {kvs : List GgufKv} {kv : GgufKv} (h : kv.WellFormed) (hkey : kv.key ≠ [])
    (hnew : ∀ kv' ∈ kvs, kv.key ≠ kv'.key) (hshort : Short kv) :
    ∃ bs, writeKv kv = some bs ∧ Reads (readKv kvs) s bs kv s := by
  obtain ⟨ne, hne, -, -, hone⟩ := getNe_spec h
  have hlt : ne < 2 ^ 64 := (hshort.elements ne hne).trans_lt (by decide)
  refine ⟨writeString kv.key ++ ((if kv.isArray then ofInt32 GgufType.array.toInt ++
    ofInt32 kv.type.toInt ++ ofNat 8 ne else ofInt32 kv.type.toInt) ++
      writeValues kv), ?_, ?_⟩
  · unfold writeKv
    rw [hne]
    dsimp only [Option.bind_eq_bind, Option.bind_some]
    rw [if_neg h.type_ne, append_assoc]
  · refine (reads_readString hshort.key).bind ?_
    refine (reads_throwIf hkey s).bind_nil ?_
    refine (reads_throwIf (fun hex => ?_) s).bind_nil ?_
    · obtain ⟨kv', hkv', heq⟩ := hex
      exact hnew kv' hkv' heq
    refine (reads_readType h.type_ne hlt hone).bind ?_
    have hempl := reads_readEmplace (s := s) h hshort hne
    cases htype : kv.type with
    | array => exact absurd htype h.type_ne
    | _ =>
      rw [htype] at hempl
      exact hempl

/-- **The pairs are read back one after the other.** -/
theorem reads_readKvs : ∀ {kvs : List GgufKv} (acc : List GgufKv), (∀ kv ∈ kvs, kv.WellFormed) →
    (∀ kv ∈ kvs, kv.key ≠ []) → (∀ kv ∈ kvs, Short kv) →
    ((acc ++ kvs).map GgufKv.key).Nodup →
    ∃ bss, kvs.mapM writeKv = some bss ∧ Reads (readKvs kvs.length acc) s bss.flatten (acc ++ kvs) s
  | [], acc, _, _, _, _ => by
    refine ⟨[], rfl, ?_⟩
    rw [append_nil]
    exact reads_pure acc s
  | kv :: kvs, acc, hwf, hkey, hshort, hnd => by
    obtain ⟨hwf1, hwf2⟩ := forall_mem_cons.mp hwf
    obtain ⟨hkey1, hkey2⟩ := forall_mem_cons.mp hkey
    obtain ⟨hshort1, hshort2⟩ := forall_mem_cons.mp hshort
    have hnew : ∀ kv' ∈ acc, kv.key ≠ kv'.key := by
      intro kv' hkv' heq
      rw [map_append] at hnd
      exact (nodup_append.mp hnd).2.2 kv'.key (mem_map_of_mem hkv') kv.key
        mem_cons_self heq.symm
    have hnd' : (((acc ++ [kv]) ++ kvs).map GgufKv.key).Nodup := by
      rwa [append_assoc]
    obtain ⟨bs, hbs, hone⟩ := reads_readKv (s := s) hwf1 hkey1 hnew hshort1
    obtain ⟨bss, hbss, hrest⟩ := reads_readKvs _ hwf2 hkey2 hshort2 hnd'
    refine ⟨bs :: bss, ?_, ?_⟩
    · rw [mapM_cons, hbs, hbss]
      rfl
    · rw [append_assoc] at hrest
      exact hone.bind hrest

/-- The alignment is read.  It is the default one when the key sets that, or is not there. -/
lemma reads_readAlignment {kvs : List GgufKv} (h : ∀ kv ∈ kvs, kv.Settable) :
    ∃ n, Reads (readAlignment kvs) s [] n s ∧
      ((∀ kv ∈ kvs, kv.key = keyAlignment → toNat kv.data = defaultAlignment) →
        n = defaultAlignment) := by
  unfold readAlignment
  split
  · exact ⟨defaultAlignment, reads_pure defaultAlignment s, fun _ => rfl⟩
  next kv hkv =>
  have hmem := mem_of_find?_eq_some hkv
  have hkey : kv.key = keyAlignment := by
    have hfound := find?_some hkv
    rw [decide_eq_true_eq, (h kv hmem).key_cStr] at hfound
    exact hfound.symm
  obtain ⟨harr, htype, hpos, hbits⟩ := (h kv hmem).alignment hkey
  have h1 : ¬ (kv.isArray = true ∨ kv.type ≠ .uint32) := by
    rw [harr, htype]
    decide
  have h2 : ¬ (toNat kv.data = 0 ∨ toNat kv.data &&& (toNat kv.data - 1) ≠ 0) := by
    rw [not_or, not_not]
    exact ⟨hpos.ne', hbits⟩
  refine ⟨toNat kv.data, ?_, fun hdefault => hdefault kv hmem hkey⟩
  exact (reads_throwIf h1 s).bind_nil ((reads_throwIf h2 s).bind_nil (reads_pure _ s))

/-! ## Tensor infos -/

/-- What is written of dimension `j`. -/
def dimBytes (nDims j : ℕ) (ne : ℤ) : List UInt8 := if j < nDims then Bytes.ofInt64 ne else []

lemma reads_readDim {nDims j : ℕ} {ne : ℤ} (hint : Bytes.IsInt64 ne) (h0 : 0 ≤ ne)
    (hone : ¬ j < nDims → ne = 1) : Reads (readDim nDims j) s (dimBytes nDims j ne) ne s := by
  have hne : Reads (readNe nDims j) s (dimBytes nDims j ne) ne s := by
    unfold readNe dimBytes
    split
    · exact reads_readI64 hint s
    · next hj =>
      rw [hone hj]
      exact reads_pure 1 s
  have h := hne.bind (f := fun ne => throwIf (ne < 0) >>= fun _ => pure ne)
    ((reads_throwIf (Int.not_lt.mpr h0) s).bind_nil (reads_pure ne s))
  rwa [append_nil] at h

/-- The dimensions are written up to the last one that is larger than one. -/
lemma flatMap_take_dims (ne0 ne1 ne2 ne3 : ℤ) {nDims : ℕ} (h0 : 0 < nDims) (h4 : nDims ≤ 4) :
    ([ne0, ne1, ne2, ne3].take nDims).flatMap ofInt64 =
      dimBytes nDims 0 ne0 ++ (dimBytes nDims 1 ne1 ++ (dimBytes nDims 2 ne2 ++
        dimBytes nDims 3 ne3)) := by
  obtain rfl | rfl | rfl | rfl : nDims = 1 ∨ nDims = 2 ∨ nDims = 3 ∨ nDims = 4 := by omega
  all_goals simp [dimBytes]

end Gguf

namespace GgufTensor

variable {t : GgufTensor}

/-- What the writer and the reader ask of a tensor: its dimensions are not negative and those
behind the last one above one are one; the reader's tests of its sizes pass; and it has data that
is contiguous. -/
structure Storable (t : GgufTensor) : Prop where
  ne0 : 0 ≤ t.ne0
  ne1 : 0 ≤ t.ne1 ∧ (t.nDims ≤ 1 → t.ne1 = 1)
  ne2 : 0 ≤ t.ne2 ∧ (t.nDims ≤ 2 → t.ne2 = 1)
  ne3 : 0 ≤ t.ne3 ∧ (t.nDims ≤ 3 → t.ne3 = 1)
  elements : ¬ Gguf.tooManyElements t.ne0 t.ne1 t.ne2 t.ne3
  blck : t.type.blckSize ≠ 0
  row : t.ne0.tmod t.type.blckSize = 0
  size : toSize (t.nelements.tdiv t.type.blckSize) ≤ sizeMax / t.type.typeSize
  contiguous : t.isContiguous = true
  nbytes : t.withStrides.nbytes = t.nbytes
  data : ∃ data, t.data = some data ∧ t.nbytes ≤ data.length

/-- The tensor as it is read back. -/
def reread (t : GgufTensor) : GgufTensor := { t.withStrides with data := none }

lemma nDims_bounds (t : GgufTensor) : 0 < t.nDims ∧ t.nDims ≤ 4 := by
  unfold nDims
  split
  · decide
  split
  · decide
  split <;> decide

end GgufTensor

namespace Gguf

open Reader

variable {s : List UInt8}

lemma reads_readTensorInfo {infos : List GgufTensor} {t : GgufTensor}
    (hnamed : GgufContext.Named t) (h : t.Storable) (hnew : ∀ ti ∈ infos, t.name ≠ ti.name) :
    Reads (readTensorInfo infos) s (writeTensorMeta t) t.reread s := by
  obtain ⟨hd0, hd4⟩ := t.nDims_bounds
  have hname : setName t.name = t.name := by
    rw [setName, hnamed.name_cStr]
    exact List.take_of_length_le (by have := hnamed.name_lt; unfold maxName at *; omega)
  have hmax : t.name.length ≤ maxLength := hnamed.name_lt.le.trans (by decide)
  have hnewName : ¬ ∃ ti ∈ infos, setName t.name = ti.name := by
    rintro ⟨ti, hti, heq⟩
    rw [hname] at heq
    exact hnew ti hti heq
  have htype : Bytes.IsInt32 ((t.type : ℕ) : ℤ) := by
    have hlt := t.type.isLt
    unfold ggmlTypeCount at hlt
    unfold Bytes.IsInt32
    omega
  have hblck : ¬ (t.type.blckSize = 0 ∨ t.ne0.tmod t.type.blckSize ≠ 0) := by
    rw [not_or, not_not]
    exact ⟨h.blck, h.row⟩
  rw [writeTensorMeta, flatMap_take_dims _ _ _ _ hd0 hd4]
  simp only [List.append_assoc]
  refine (reads_readString hmax).bind ?_
  refine (reads_throwIf (Nat.not_le.mpr hnamed.name_lt) s).bind_nil ?_
  refine (reads_throwIf hnewName s).bind_nil ?_
  refine (reads_readU32 (by omega) s).bind ?_
  refine (reads_throwIf (Nat.not_lt.mpr hd4) s).bind_nil ?_
  refine (reads_readDim hnamed.ne0 h.ne0 fun hn => absurd hd0 hn).bind ?_
  refine (reads_readDim hnamed.ne1 h.ne1.1 fun hn => h.ne1.2 (Nat.not_lt.mp hn)).bind ?_
  refine (reads_readDim hnamed.ne2 h.ne2.1 fun hn => h.ne2.2 (Nat.not_lt.mp hn)).bind ?_
  refine (reads_readDim hnamed.ne3 h.ne3.1 fun hn => h.ne3.2 (Nat.not_lt.mp hn)).bind ?_
  refine (reads_throwIf h.elements s).bind_nil ?_
  refine (reads_readI32 htype s).bind ?_
  rw [GgmlType.ofInt_natCast]
  refine (reads_throwIf hblck s).bind_nil ?_
  refine (reads_throwIf (Nat.not_lt.mpr h.size) s).bind_nil ?_
  have hoff := (reads_readU64 hnamed.offset_lt s).map fun offset =>
    { (GgufTensor.mk (setName t.name) t.type t.ne0 t.ne1 t.ne2 t.ne3 0 0 0 0 none 0).withStrides
      with offset := offset }
  rw [hname] at hoff ⊢
  exact hoff

/-- **The tensor infos are read back one after the other.** -/
theorem reads_readTensorInfos : ∀ {ts : List GgufTensor} (acc : List GgufTensor),
    (∀ t ∈ ts, GgufContext.Named t) → (∀ t ∈ ts, t.Storable) →
      (acc.map GgufTensor.name ++ ts.map GgufTensor.name).Nodup →
      Reads (readTensorInfos ts.length acc) s (ts.flatMap writeTensorMeta)
        (acc ++ ts.map GgufTensor.reread) s
  | [], acc, _, _, _ => by
    rw [List.map_nil, List.append_nil]
    exact reads_pure acc s
  | t :: ts, acc, hnamed, h, hnd => by
    obtain ⟨hnamed1, hnamed2⟩ := List.forall_mem_cons.mp hnamed
    obtain ⟨h1, h2⟩ := List.forall_mem_cons.mp h
    have hnew : ∀ ti ∈ acc, t.name ≠ ti.name := by
      intro ti hti heq
      exact (List.nodup_append.mp hnd).2.2 ti.name (List.mem_map_of_mem hti) t.name
        List.mem_cons_self heq.symm
    have hnd' : ((acc ++ [t.reread]).map GgufTensor.name ++ ts.map GgufTensor.name).Nodup := by
      rw [List.map_append, List.append_assoc]
      exact hnd
    have hrest := reads_readTensorInfos _ hnamed2 h2 hnd'
    rw [List.append_assoc] at hrest
    exact (reads_readTensorInfo hnamed1 h1 hnew).bind hrest

/-! ## The data section -/

variable {n nTensors : ℕ}

lemma ggmlPad_eq {x : ℕ} (hn : 0 < n) (h : x + n ≤ 2 ^ 64) : ggmlPad x n = x + (n - x % n) % n := by
  have hy : subSize (addSize x n) 1 = x + n - 1 := by
    unfold subSize addSize
    omega
  have hdiv := Nat.div_add_mod x n
  have hlt := Nat.mod_lt x hn
  rw [ggmlPad, hy]
  rcases Nat.eq_zero_or_pos (x % n) with hz | hpos
  · have hmod : (x + n - 1) % n = n - 1 := by
      rw [show x + n - 1 = n * (x / n) + (n - 1) by omega, Nat.mul_add_mod,
        Nat.mod_eq_of_lt (by omega)]
    rw [hz, Nat.sub_zero, Nat.mod_self]
    omega
  · have hmod : (x + n - 1) % n = x % n - 1 := by
      rw [show x + n - 1 = n * (x / n) + n + (x % n - 1) by omega, ← Nat.mul_succ,
        Nat.mul_add_mod, Nat.mod_eq_of_lt (by omega)]
    rw [Nat.mod_eq_of_lt (show n - x % n < n by omega)]
    omega

lemma dvd_length_pad {buf : List UInt8} (hn : 0 < n) : n ∣ (pad buf n).length := by
  rw [pad, List.length_append, List.length_replicate]
  have hsum := Nat.mod_add_mod buf.length n ((n - buf.length % n) % n)
  refine Nat.dvd_of_mod_eq_zero (hsum.symm.trans ?_)
  rw [Nat.add_mod_mod, Nat.add_sub_cancel' (Nat.mod_lt _ hn).le, Nat.mod_self]

/-- One tensor: its data and the padding behind it. -/
lemma writeTensorData_eq (off : ℕ) {buf data : List UInt8} {t : GgufTensor} (hn : 0 < n)
    (hdvd : n ∣ buf.length) (hbuf : buf.length = off + t.offset) (hcont : t.isContiguous = true)
    (hdata : t.data = some data) (hlen : t.nbytes ≤ data.length) (hfit : t.nbytes + n ≤ 2 ^ 64) :
    ∃ part, writeTensorData off n buf t = some (buf ++ part) ∧
      part.length = ggmlPad t.nbytes n ∧ part.take t.nbytes = data.take t.nbytes := by
  have htake : (data.take t.nbytes).length = t.nbytes := by
    rw [List.length_take, Nat.min_eq_left hlen]
  have hmod : (buf.length + t.nbytes) % n = t.nbytes % n := by
    obtain ⟨k, hk⟩ := hdvd
    rw [hk, Nat.mul_add_mod]
  refine ⟨data.take t.nbytes ++ List.replicate ((n - t.nbytes % n) % n) 0, ?_, ?_, ?_⟩
  · unfold writeTensorData
    rw [if_neg (by rw [hcont, hbuf]; simp), hdata]
    dsimp only [Option.bind_eq_bind, Option.bind_some]
    rw [if_neg (Nat.not_lt.mpr hlen), pad, List.length_append, htake, hmod, List.append_assoc]
  · rw [List.length_append, htake, List.length_replicate, ggmlPad_eq hn hfit]
  · rw [List.take_append_of_le_length htake.ge, List.take_take, Nat.min_self]

/-- **The data section.**  The bytes of each tensor are at its offset. -/
theorem foldlM_writeTensorData (off : ℕ) (hn : 0 < n) : ∀ {ts : List GgufTensor}
    {size total : ℕ} {buf : List UInt8}, Laid n size ts total → (∀ t ∈ ts, t.Storable) →
      (∀ t ∈ ts, t.nbytes + n ≤ 2 ^ 64) → n ∣ buf.length → buf.length = off + size →
      ∃ out, ts.foldlM (writeTensorData off n) buf = some (buf ++ out) ∧
        out.length + size = total ∧ ∀ t ∈ ts, size ≤ t.offset ∧ ∀ data, t.data = some data →
          (out.drop (t.offset - size)).take t.nbytes = data.take t.nbytes
  | [], size, total, buf, hlaid, _, _, _, _ => by
    refine ⟨[], ?_, ?_, fun t ht => absurd ht List.not_mem_nil⟩
    · rw [List.append_nil]
      rfl
    · rw [hlaid.1, List.length_nil, Nat.zero_add]
  | t :: ts, size, total, buf, hlaid, hst, hfit, hdvd, hbuf => by
    obtain ⟨hst1, hst2⟩ := List.forall_mem_cons.mp hst
    obtain ⟨hfit1, hfit2⟩ := List.forall_mem_cons.mp hfit
    obtain ⟨data, hdata, hlen⟩ := hst1.data
    obtain ⟨hoff, hrest⟩ := hlaid
    obtain ⟨part, hpart, hpartLen, hpartData⟩ :=
      writeTensorData_eq off hn hdvd (by rw [hoff, hbuf]) hst1.contiguous hdata hlen hfit1
    have hdvd' : n ∣ (buf ++ part).length := by
      rw [List.length_append, hpartLen]
      exact Nat.dvd_add hdvd dvd_ggmlPad
    have hbuf' : (buf ++ part).length = off + (size + ggmlPad t.nbytes n) := by
      rw [List.length_append, hpartLen, hbuf, Nat.add_assoc]
    obtain ⟨out, hout, houtLen, houtData⟩ :=
      foldlM_writeTensorData off hn hrest hst2 hfit2 hdvd' hbuf'
    have hle : t.nbytes ≤ part.length := by
      rw [hpartLen]
      exact le_ggmlPad hn hfit1
    generalize ggmlPad t.nbytes n = padded at hpartLen hbuf' houtLen houtData
    refine ⟨part ++ out, ?_, ?_, fun t' ht' => ?_⟩
    · rw [List.foldlM_cons, hpart]
      dsimp only [Option.bind_eq_bind, Option.bind_some]
      rw [hout, List.append_assoc]
    · rw [List.length_append]
      omega
    · rcases List.mem_cons.mp ht' with rfl | ht'
      · refine ⟨hoff.ge, fun data' hdata' => ?_⟩
        obtain rfl : data = data' := Option.some.inj (hdata.symm.trans hdata')
        rw [hoff, Nat.sub_self, List.drop_zero, List.take_append_of_le_length hle, hpartData]
      · obtain ⟨hge, hread⟩ := houtData t' ht'
        refine ⟨(Nat.le_add_right _ _).trans hge, fun data' hdata' => ?_⟩
        have hshift : t'.offset - size = part.length + (t'.offset - (size + padded)) := by
          omega
        rw [hshift, List.drop_length_add_append]
        exact hread data' hdata'

/-- The offsets of a context that is built are those the reader computes. -/
lemma laid_of_offsets : ∀ {ts : List GgufTensor} {size : ℕ},
    GgufContext.Offsets (GgufContext.nextOffset n) size ts → size + paddedSize n ts < 2 ^ 64 →
      Laid n size ts (size + paddedSize n ts)
  | [], _, _, hlt => ⟨rfl, hlt⟩
  | t :: ts, size, h, hlt => by
    have hsum : paddedSize n (t :: ts) = ggmlPad t.nbytes n + paddedSize n ts := by
      rw [paddedSize, List.map_cons, List.sum_cons, paddedSize]
    obtain ⟨hoff, hrest⟩ := h
    have hnext : GgufContext.nextOffset n t = size + ggmlPad t.nbytes n := by
      rw [GgufContext.nextOffset, hoff]
      exact addSize_of_lt (by omega)
    rw [hnext] at hrest
    have hlaid := laid_of_offsets hrest (by omega)
    rw [Nat.add_assoc] at hlaid
    exact ⟨hoff, hlaid⟩

lemma reads_dataSize : ∀ {ts : List GgufTensor} {size total : ℕ},
    Laid n size ts total → (∀ t ∈ ts, t.Storable) →
      Reads (dataSize n size (ts.map GgufTensor.reread)) s [] total s
  | [], size, total, h, _ => by
    rw [h.1]
    exact reads_pure size s
  | t :: ts, size, total, h, hst => by
    obtain ⟨hst1, hst2⟩ := List.forall_mem_cons.mp hst
    have hbytes : t.reread.nbytes = t.nbytes := hst1.nbytes
    have hoff : t.reread.offset = size := h.1
    have hsum := (Laid.total h.2).1
    have hlt := (Laid.total h.2).2
    have hM : sizeMax = 2 ^ 64 - 1 := rfl
    have hfit : size + ggmlPad t.nbytes n < 2 ^ 64 := by omega
    have hpad : ¬ sizeMax - size < ggmlPad t.nbytes n := by omega
    refine (reads_throwIf (not_not.mpr hoff) s).bind_nil ?_
    rw [hbytes]
    refine (reads_throwIf hpad s).bind_nil ?_
    rw [addSize_of_lt hfit]
    exact reads_dataSize h.2 hst2

/-! ## The whole file -/

/-- What a count of the header is below is an `int64_t`. -/
lemma isInt64_natCast {k : ℕ} (hk : 0 < k) (h : n ≤ sizeMax / (2 * k)) : Bytes.IsInt64 (n : ℤ) := by
  have hle : n * (2 * k) ≤ sizeMax := (Nat.le_div_iff_mul_le (by omega)).mp h
  have hmul : n * 1 ≤ n * k := Nat.mul_le_mul_left n hk
  have hM : sizeMax = 2 ^ 64 - 1 := rfl
  rw [Nat.mul_left_comm] at hle
  unfold Bytes.IsInt64
  omega

lemma not_outside {m : ℕ} (h : n ≤ m) : ¬ ((n : ℤ) < 0 ∨ (m : ℤ) < n) := by omega

lemma reads_readHeader {nKv : ℕ} (ht : nTensors ≤ sizeMax / sizeofTensorInfo)
    (hk : nKv ≤ sizeMax / sizeofKv) :
    Reads readHeader s (magic ++ (Bytes.ofNat 4 ggufVersion ++ (Bytes.ofInt64 nTensors ++
      Bytes.ofInt64 nKv))) ⟨ggufVersion, nTensors, nKv⟩ s := by
  have hmagic : Reads (Reader.read 4) s magic magic s := reads_read rfl s
  have hti : Bytes.IsInt64 (nTensors : ℤ) := isInt64_natCast (k := 172) (by decide) ht
  have hki : Bytes.IsInt64 (nKv : ℤ) := isInt64_natCast (k := 44) (by decide) hk
  have hlast := reads_pure (⟨ggufVersion, (nTensors : ℤ).toNat, (nKv : ℤ).toNat⟩ : Header) s
  refine hmagic.bind ?_
  refine (reads_readU32 (by decide) s).bind ?_
  refine (reads_readI64 hti s).bind ?_
  refine (reads_throwIf (not_outside ht) s).bind_nil ?_
  refine (reads_readI64 hki s).bind ?_
  exact (reads_throwIf (not_outside hk) s).bind_nil hlast

/-- The data section starts behind the padding, which is skipped when there are tensors. -/
lemma seekData_eq {m : ℕ} {head out : List UInt8} (hn : 0 < n) (hlen : head.length + n ≤ 2 ^ 64)
    (hnone : nTensors = 0 → out = []) (hm : 0 < nTensors → m = n) :
    ∃ rest, seekData nTensors m (pad head n ++ out) ((pad head n ++ out).drop head.length) =
      ⟨.ok (), pad head n ++ out, out ++ rest⟩ := by
  unfold seekData
  split
  · next h =>
    refine ⟨[], ?_⟩
    rw [hm h]
    have htell : tell (pad head n ++ out) ((pad head n ++ out).drop head.length) =
        ⟨.ok head.length, pad head n ++ out, (pad head n ++ out).drop head.length⟩ := by
      have hpos : (pad head n ++ out).length - ((pad head n ++ out).drop head.length).length =
          head.length := by
        rw [List.length_drop, pad, List.length_append, List.length_append]
        omega
      change (⟨.ok ((pad head n ++ out).length - _), _, _⟩ : Outcome (List UInt8) ℕ) = _
      rw [hpos]
    have hpad : ggmlPad head.length n = (pad head n).length := by
      rw [ggmlPad_eq hn hlen, pad, List.length_append, List.length_replicate]
    have hin : ¬ (pad head n ++ out).length < (pad head n).length := by
      rw [List.length_append]
      omega
    rw [Reader.run_bind htell, hpad, seek, if_neg hin, List.drop_left, List.append_nil]
  · rw [hnone (by omega)]
    exact ⟨_, rfl⟩

lemma reads_readData {size : ℕ} {out : List UInt8} (hlen : out.length = size)
    (hmem : (nTensors + 1) * tensorOverhead + size ≤ sizeMax) :
    Reads (readData .load nTensors size) s out (some out) s := by
  have hdiv : ¬ sizeMax / (nTensors + 1) < tensorOverhead := by
    rw [Nat.not_lt, Nat.le_div_iff_mul_le (Nat.succ_pos _), Nat.mul_comm]
    exact (Nat.le_add_right _ _).trans hmem
  have hsub : ¬ sizeMax - (nTensors + 1) * tensorOverhead < size := by omega
  refine (reads_throwIf hdiv s).bind_nil ((reads_throwIf hsub s).bind_nil ?_)
  exact (reads_read hlen s).map some

end Gguf

namespace GgufContext

open Gguf

variable {ctx : GgufContext}

/-- What the writer and the reader ask of a context: strings and arrays are within the limits of
the reader; the tensors are storable; with tensors, an alignment that is set is the default one;
and the sizes fit. -/
structure Storable (ctx : GgufContext) : Prop where
  kv : ∀ kv ∈ ctx.kv, Short kv
  alignment : ctx.info ≠ [] → ∀ kv ∈ ctx.kv, kv.key = keyAlignment →
    Bytes.toNat kv.data = defaultAlignment
  info : ∀ t ∈ ctx.info, t.Storable
  pairs : ctx.kv.length ≤ sizeMax / sizeofKv
  memory : (ctx.info.length + 1) * tensorOverhead + paddedSize defaultAlignment ctx.info ≤ sizeMax
  nbytes : ∀ t ∈ ctx.info, t.nbytes + defaultAlignment ≤ 2 ^ 64
  head : ∀ head, ctx.writeMeta = some head → head.length + defaultAlignment ≤ 2 ^ 64

/-- The name, the type, the dimensions and the offset of a tensor. -/
def tensorInfo (t : GgufTensor) : List UInt8 × GgmlType × (ℤ × ℤ × ℤ × ℤ) × ℕ :=
  (t.name, t.type, (t.ne0, t.ne1, t.ne2, t.ne3), t.offset)

/-- The key-value pairs and the tensor infos of two contexts are the same, and the data section
of the second one holds the data of each tensor of the first one. -/
structure SameAs (ctx ctx' : GgufContext) : Prop where
  kv : ctx'.kv = ctx.kv
  info : ctx'.info.map tensorInfo = ctx.info.map tensorInfo
  data : ∃ blob, ctx'.data = some blob ∧ ∀ t ∈ ctx.info, ∃ data, t.data = some data ∧
    t.nbytes ≤ data.length ∧ (blob.drop t.offset).take t.nbytes = data.take t.nbytes

lemma Storable.tensors (h : ctx.Storable) : ctx.info.length ≤ sizeMax / sizeofTensorInfo := by
  have hmem := h.memory
  have hT : tensorOverhead = sizeofTensorInfo + 24 := rfl
  have hpos : 0 < sizeofTensorInfo := by decide
  rw [Nat.le_div_iff_mul_le hpos]
  rw [hT, Nat.mul_add, Nat.succ_mul] at hmem
  omega

/-- The bytes before the padding in front of the data section. -/
def headBytes (ctx : GgufContext) (kvs : List (List UInt8)) : List UInt8 :=
  magic ++ (Bytes.ofNat 4 ggufVersion ++ (Bytes.ofInt64 ctx.info.length ++
    Bytes.ofInt64 ctx.kv.length)) ++ (kvs.flatten ++ ctx.info.flatMap writeTensorMeta)

/-- A file with these bytes, and with a data section of the size the tensors take, is read. -/
lemma load_eq {kvs : List (List UInt8)} {out : List UInt8} (hb : ctx.Built) (hs : ctx.Storable)
    (hkvs : ctx.kv.mapM writeKv = some kvs)
    (hhead : (ctx.headBytes kvs).length + defaultAlignment ≤ 2 ^ 64)
    (hout : out.length = paddedSize defaultAlignment ctx.info)
    (hlaid : Laid defaultAlignment 0 ctx.info (paddedSize defaultAlignment ctx.info)) :
    ∃ alignment offset size, initFromBuffer (pad (ctx.headBytes kvs) defaultAlignment ++ out) .load =
      some ⟨ggufVersion, ctx.kv, ctx.info.map GgufTensor.reread, alignment, offset, size,
        some out⟩ := by
  have hpos : 0 < defaultAlignment := by decide
  obtain ⟨file, hfile⟩ : ∃ file, file = pad (ctx.headBytes kvs) defaultAlignment ++ out := ⟨_, rfl⟩
  obtain ⟨kvs', hkvs', hreadKvs⟩ := reads_readKvs (s := file) []
    (fun kv hkv => (hb.kv kv hkv).toWellFormed) (fun kv hkv => (hb.kv kv hkv).key_ne) hs.kv hb.keys
  obtain rfl : kvs = kvs' := Option.some.inj (hkvs.symm.trans hkvs')
  obtain ⟨n, hreadAlignment, hdefault⟩ := reads_readAlignment (s := file) hb.kv
  have hn : ctx.info ≠ [] → n = defaultAlignment := fun hne => hdefault (hs.alignment hne)
  have hlaid' : Laid n 0 ctx.info (paddedSize defaultAlignment ctx.info) := by
    by_cases hnil : ctx.info = []
    · rw [hnil] at hlaid ⊢
      exact hlaid
    · rwa [hn hnil]
  have hnone : ctx.info.length = 0 → out = [] := by
    intro hz
    rw [List.eq_nil_of_length_eq_zero hz] at hout
    exact List.eq_nil_of_length_eq_zero hout
  obtain ⟨rest, hseek⟩ := seekData_eq (m := n) hpos hhead hnone fun hz =>
    hn (List.ne_nil_of_length_pos hz)
  rw [← hfile] at hseek ⊢
  have hsplit : file = magic ++ (Bytes.ofNat 4 ggufVersion ++ (Bytes.ofInt64 ctx.info.length ++
      Bytes.ofInt64 ctx.kv.length)) ++ (kvs.flatten ++ (ctx.info.flatMap writeTensorMeta ++
        file.drop (ctx.headBytes kvs).length)) := by
    have hbytes : file = ctx.headBytes kvs ++ file.drop (ctx.headBytes kvs).length := by
      rw [hfile, pad, List.append_assoc, List.drop_left]
    refine hbytes.trans ?_
    simp only [headBytes, List.append_assoc]
  have hreadInfos := reads_readTensorInfos (s := file) [] hb.info hs.info hb.names
  rw [List.nil_append] at hreadKvs hreadInfos
  have hreadSize := reads_dataSize (s := file) hlaid' hs.info
  have hreadData := reads_readData (s := file) hout hs.memory
  have htell : ∀ bs, tell file bs = ⟨.ok (file.length - bs.length), file, bs⟩ := fun _ => rfl
  have hrun : ∀ bs, bs = file → ∃ offset, initFromReader .load file bs =
      ⟨.ok ⟨ggufVersion, ctx.kv, ctx.info.map GgufTensor.reread, n, offset,
        paddedSize defaultAlignment ctx.info, some out⟩, file, rest⟩ := by
    intro bs hbs
    rw [hsplit] at hbs
    unfold initFromReader
    rw [hbs, (reads_readHeader hs.tensors hs.pairs).run_bind]
    rw [hreadKvs.run_bind, ← List.nil_append (ctx.info.flatMap writeTensorMeta ++ _),
      hreadAlignment.run_bind, hreadInfos.run_bind, Reader.run_bind hseek, Reader.run_bind (htell _),
      ← List.nil_append (out ++ rest), hreadSize.run_bind, hreadData.run_bind]
    exact ⟨_, rfl⟩
  obtain ⟨offset, hvalue⟩ := hrun file rfl
  have hne : file ≠ [] := by
    rw [hsplit]
    exact List.cons_ne_nil _ _
  refine ⟨n, offset, paddedSize defaultAlignment ctx.info, ?_⟩
  rw [initFromBuffer, if_neg hne, Reader.value, hvalue]

/-- **Reading back what was written.**  A context that was built and that the writer and the
reader accept is written; its bytes are read; and what is read is the same. -/
theorem write_read (h : ctx.Reachable) (hs : ctx.Storable) : ∃ bytes, ctx.write = some bytes ∧
      ∃ ctx', initFromBuffer bytes .load = some ctx' ∧ ctx.SameAs ctx' := by
  have hb := built_of_reachable h
  have hpos : 0 < defaultAlignment := by decide
  have hM : sizeMax = 2 ^ 64 - 1 := rfl
  have htotal : 0 + paddedSize defaultAlignment ctx.info < 2 ^ 64 := by
    have := hs.memory
    omega
  have hlaid := laid_of_offsets hb.offsets htotal
  rw [Nat.zero_add] at hlaid
  obtain ⟨kvs, hkvs, -⟩ := reads_readKvs (s := []) []
    (fun kv hkv => (hb.kv kv hkv).toWellFormed) (fun kv hkv => (hb.kv kv hkv).key_ne) hs.kv hb.keys
  have hmeta : ctx.writeMeta = some (ctx.headBytes kvs) := by
    unfold writeMeta headBytes
    rw [hkvs, hb.version]
    simp only [Option.bind_eq_bind, Option.bind_some, List.append_assoc]
  have hlen := hs.head _ hmeta
  obtain ⟨out, hout, houtLen, hdata⟩ := foldlM_writeTensorData
    (pad (ctx.headBytes kvs) defaultAlignment).length hpos hlaid hs.info hs.nbytes
    (dvd_length_pad hpos) rfl
  have hwrite : ctx.write = some (pad (ctx.headBytes kvs) defaultAlignment ++ out) := by
    unfold write
    rw [hmeta, hb.alignment]
    exact hout
  obtain ⟨alignment, offset, size, hload⟩ := load_eq hb hs hkvs hlen houtLen hlaid
  refine ⟨_, hwrite, _, hload, rfl, ?_, out, rfl, fun t ht => ?_⟩
  · rw [List.map_map]
    rfl
  · obtain ⟨data, htdata, hle⟩ := (hs.info t ht).data
    exact ⟨data, htdata, hle, (hdata t ht).2 data htdata⟩

/-- A byte and a tensor of four bytes. -/
theorem write_read_pair : ∃ ctx : GgufContext, ctx.Reachable ∧ ctx.kv.length = 1 ∧
    ctx.info.length = 1 ∧ ∃ bytes, ctx.write = some bytes ∧
      ∃ ctx', initFromBuffer bytes .load = some ctx' ∧ ctx.SameAs ctx' := by
  obtain ⟨kv, hkv⟩ : ∃ kv : GgufKv, kv = ⟨[97], false, .uint8, [7], []⟩ := ⟨_, rfl⟩
  obtain ⟨t, ht⟩ : ∃ t : GgufTensor,
      t = ⟨[116], .f32, 1, 1, 1, 1, 4, 4, 4, 4, some [1, 2, 3, 4], 0⟩ := ⟨_, rfl⟩
  obtain ⟨ctx1, h1⟩ : ∃ ctx1, ctx1 = (⟨3, [kv], [], 32, 0, 0, none⟩ : GgufContext) := ⟨_, rfl⟩
  obtain ⟨ctx, h2⟩ : ∃ ctx, ctx = (⟨3, [kv], [t], 32, 0, 0, none⟩ : GgufContext) := ⟨_, rfl⟩
  have hset : apply empty (.setScalar [97] [7] .uint8) = some ctx1 := by
    rw [h1, hkv]
    decide +kernel
  have hadd : ctx1.apply (.addTensor t) = some ctx := by
    rw [h2, h1, ht]
    rfl
  have hnamed : Supported (.addTensor t) := by
    rw [ht]
    constructor <;> decide
  have hbyte : Supported (.setScalar [97] [7] .uint8) := ⟨rfl, fun h => by cases h⟩
  have hreach1 : ctx1.Reachable := .step .init hbyte hset
  have hreach : ctx.Reachable := .step hreach1 hnamed hadd
  have hstorable : t.Storable := by
    rw [ht]
    refine ⟨by decide, by decide, by decide, by decide, by decide, by decide, by decide, by decide,
      by decide, by decide, [1, 2, 3, 4], rfl, by decide⟩
  have hmeta : ctx.writeMeta.map List.length = some 71 := by
    rw [h2, hkv, ht]
    decide +kernel
  have hpairs : ctx.kv = [kv] := by rw [h2]
  have hinfo : ctx.info = [t] := by rw [h2]
  have hnbytes : t.nbytes = 4 := by
    rw [ht]
    decide +kernel
  have hst : ctx.Storable := by
    refine ⟨fun kv' hkv' => ?_, fun _ kv' hkv' hkey => ?_, fun t' ht' => ?_, ?_, ?_,
      fun t' ht' => ?_, fun head hhead => ?_⟩
    · rw [hpairs, List.mem_singleton] at hkv'
      rw [hkv', hkv]
      refine ⟨by decide, by decide, fun ne hne => ?_⟩
      cases hne
      decide
    · rw [hpairs, List.mem_singleton] at hkv'
      rw [hkv', hkv] at hkey
      exact absurd hkey (by decide)
    · rw [hinfo, List.mem_singleton] at ht'
      rwa [ht']
    · rw [hpairs, List.length_singleton]
      decide
    · rw [hinfo, paddedSize, List.map_singleton, hnbytes, List.length_singleton]
      decide
    · rw [hinfo, List.mem_singleton] at ht'
      rw [ht', hnbytes]
      decide
    · rw [hhead] at hmeta
      rw [Option.some.inj hmeta]
      decide
  exact ⟨ctx, hreach, by rw [h2]; rfl, by rw [h2]; rfl, write_read hreach hst⟩

/-- A tensor without data is not written. -/
theorem not_written_noData : ∃ ctx : GgufContext, ctx.Reachable ∧
    ¬ ∃ bytes, ctx.write = some bytes ∧
      ∃ ctx', initFromBuffer bytes .load = some ctx' ∧ ctx.SameAs ctx' := by
  obtain ⟨t, ht⟩ : ∃ t : GgufTensor, t = ⟨[116], .f32, 1, 1, 1, 1, 4, 4, 4, 4, none, 0⟩ := ⟨_, rfl⟩
  obtain ⟨ctx, hctx⟩ : ∃ ctx, ctx = (⟨3, [], [t], 32, 0, 0, none⟩ : GgufContext) := ⟨_, rfl⟩
  have hadd : apply empty (.addTensor t) = some ctx := by
    rw [hctx, ht]
    rfl
  have hnamed : Supported (.addTensor t) := by
    rw [ht]
    constructor <;> decide
  have hwrite : ctx.write = none := by
    rw [hctx, ht]
    decide +kernel
  refine ⟨ctx, .step .init hnamed hadd, ?_⟩
  rintro ⟨bytes, hbytes, -⟩
  rw [hwrite] at hbytes
  cases hbytes

end GgufContext

end Llama
