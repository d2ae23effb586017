import Llama.Gguf.Numbers

/-!
# What the reader accepts

The reader throws at the first test that fails, so the context it returns has passed all of them:
its alignment is a power of two, each tensor is `Checked`, and the tensors are `Laid`.
-/

namespace Llama

/-! ## What the reader has tested -/

namespace Gguf

open Reader List

variable {whole bs : List UInt8}

lemma ensures_readDim {nDims j : ℕ} :
    Ensures (readDim nDims j) whole bs fun ne _ _ => 0 ≤ ne ∧ ne < 2 ^ 63 := by
  have hne : Ensures (readNe nDims j) whole bs fun ne _ _ => ne < 2 ^ 63 := by
    unfold readNe
    split
    · exact ensures_readI64 (Bytes.toInt64_lt (length_take_le _ _))
    · exact ensures_pure (by decide)
  refine hne.bind fun ne _ _ hlt => ?_
  refine (ensures_throwIf (Q := fun _ _ _ => 0 ≤ ne) fun h => Int.not_lt.mp h).bind
    fun _ _ _ h0 => ?_
  exact ensures_pure ⟨h0, hlt⟩

/-- The reader tests each tensor. -/
lemma ensures_readTensorInfo {infos : List GgufTensor} :
    Ensures (readTensorInfo infos) whole bs fun t _ _ => t.Checked := by
  refine Ensures.after fun name _ _ => ?_
  refine Ensures.after fun _ _ _ => ?_
  refine Ensures.after fun _ _ _ => ?_
  refine Ensures.after fun nDims _ _ => ?_
  refine Ensures.after fun _ _ _ => ?_
  refine ensures_readDim.bind fun ne0 _ _ h0 => ?_
  refine ensures_readDim.bind fun ne1 _ _ h1 => ?_
  refine ensures_readDim.bind fun ne2 _ _ h2 => ?_
  refine ensures_readDim.bind fun ne3 _ _ h3 => ?_
  refine (ensures_throwIf (Q := fun _ _ _ => ¬ tooManyElements ne0 ne1 ne2 ne3) id).bind
    fun _ _ _ helem => ?_
  refine Ensures.after fun type _ _ => ?_
  split
  · exact ensures_throw
  next type _ =>
  refine (ensures_throwIf (Q := fun _ _ _ => type.blckSize ≠ 0 ∧ ne0.tmod type.blckSize = 0)
    fun h => by simpa [not_or] using h).bind fun _ _ _ hblck => ?_
  set ti : GgufTensor := ⟨setName name, type, ne0, ne1, ne2, ne3, 0, 0, 0, 0, none, 0⟩
  refine (ensures_throwIf (Q := fun _ _ _ => toSize (ti.nelements.tdiv type.blckSize) ≤
    sizeMax / type.typeSize) fun h => Nat.not_lt.mp h).bind fun _ _ _ hsize => ?_
  refine Ensures.after fun offset _ _ => ?_
  exact ensures_pure ⟨h0, h1, h2, h3, helem, hblck.1, hblck.2, hsize, rfl⟩

lemma ensures_readTensorInfos : ∀ {n : ℕ} {infos : List GgufTensor} {whole bs : List UInt8},
    (∀ t ∈ infos, t.Checked) →
      Ensures (readTensorInfos n infos) whole bs fun infos _ _ => ∀ t ∈ infos, t.Checked
  | 0, _, _, _, h => ensures_pure h
  | n + 1, infos, _, _, h => by
    refine ensures_readTensorInfo.bind fun t _ _ ht => ?_
    refine ensures_readTensorInfos fun t' ht' => ?_
    rcases mem_append.mp ht' with ht' | ht'
    · exact h t' ht'
    · rw [mem_singleton.mp ht']
      exact ht

lemma ensures_dataSize {n : ℕ} : ∀ {ts : List GgufTensor} {size : ℕ} {whole bs : List UInt8},
    size < 2 ^ 64 → Ensures (dataSize n size ts) whole bs fun total _ _ => Laid n size ts total
  | [], _, _, _, h => ensures_pure ⟨rfl, h⟩
  | t :: ts, size, _, _, h => by
    have hM : sizeMax = 2 ^ 64 - 1 := rfl
    refine (ensures_throwIf (Q := fun _ _ _ => t.offset = size) not_not.mp).bind
      fun _ _ _ hoff => ?_
    refine (ensures_throwIf (Q := fun _ _ _ => ggmlPad t.nbytes n ≤ sizeMax - size)
      fun h => Nat.not_lt.mp h).bind fun _ _ _ hpad => ?_
    have hlt : size + ggmlPad t.nbytes n < 2 ^ 64 := by
      omega
    rw [addSize_of_lt hlt]
    refine (ensures_dataSize hlt).mono fun total _ _ hlaid => ?_
    exact ⟨hoff, hlaid⟩

/-- The bytes of a single value of 32 bits. -/
def NarrowU32 (kv : GgufKv) : Prop :=
  kv.isArray = false → kv.type = .uint32 → kv.data.length ≤ 4

lemma ensures_readEmplace {key : List UInt8} {isArray : Bool} {type : GgufType} {n : ℕ} :
    Ensures (readEmplace key isArray type n) whole bs fun kv _ _ => NarrowU32 kv := by
  unfold readEmplace
  split
  · refine Ensures.after fun values _ _ => ?_
    exact ensures_pure fun _ _ => Nat.zero_le _
  · have hdata : Ensures (readScalarValue type isArray n) whole bs fun data _ _ =>
        isArray = false → type = .uint32 → data.length ≤ 4 := by
      unfold readScalarValue
      split
      · next ha => exact fun _ _ _ _ hf => absurd (ha.symm.trans hf) (by decide)
      · refine (ensures_read (Q := fun bs' _ _ => bs'.length ≤ type.size)
          fun _ => length_take_le _ _).bind fun bs' _ _ hlen => ?_
        refine ensures_pure fun _ ht => ?_
        subst ht
        exact hlen
    exact hdata.bind fun data _ _ h => ensures_pure h

lemma ensures_readKv {kvs : List GgufKv} :
    Ensures (readKv kvs) whole bs fun kv _ _ => NarrowU32 kv := by
  refine Ensures.after fun key _ _ => ?_
  refine Ensures.after fun _ _ _ => ?_
  refine Ensures.after fun _ _ _ => ?_
  refine Ensures.after fun type _ _ => ?_
  split
  · exact ensures_throw
  · exact ensures_throw
  · exact ensures_readEmplace

lemma ensures_readKvs : ∀ {n : ℕ} {kvs : List GgufKv} {whole bs : List UInt8},
    (∀ kv ∈ kvs, NarrowU32 kv) →
      Ensures (readKvs n kvs) whole bs fun kvs _ _ => ∀ kv ∈ kvs, NarrowU32 kv
  | 0, _, _, _, h => ensures_pure h
  | n + 1, kvs, _, _, h => by
    refine ensures_readKv.bind fun kv _ _ hkv => ?_
    refine ensures_readKvs fun kv' hkv' => ?_
    rcases mem_append.mp hkv' with hkv' | hkv'
    · exact h kv' hkv'
    · rw [mem_singleton.mp hkv']
      exact hkv

/-- The bit test of the reader accepts the powers of two. -/
lemma exists_eq_two_pow : ∀ {x : ℕ}, x ≠ 0 → x &&& (x - 1) = 0 → ∃ k, x = 2 ^ k := by
  intro x
  induction x using Nat.strong_induction_on with
  | _ x ih =>
    intro hx hand
    obtain ⟨y, rfl | rfl⟩ := Nat.even_or_odd' x
    · have hhalf : y &&& (y - 1) = 0 := by
        have h2 : (2 * y &&& (2 * y - 1)) / 2 = 0 := by rw [hand]
        rwa [Nat.and_div_two, Nat.mul_div_cancel_left y (by decide),
          show (2 * y - 1) / 2 = y - 1 by omega] at h2
      obtain ⟨k, hk⟩ := ih y (by omega) (by omega) hhalf
      exact ⟨k + 1, by rw [pow_succ, ← hk, Nat.mul_comm]⟩
    · have hhalf : y &&& y = 0 := by
        have h2 : (2 * y + 1 &&& (2 * y + 1 - 1)) / 2 = 0 := by rw [hand]
        rwa [Nat.and_div_two, show (2 * y + 1) / 2 = y by omega,
          show (2 * y + 1 - 1) / 2 = y by omega] at h2
      rw [Nat.and_self] at hhalf
      exact ⟨0, by rw [hhalf]; rfl⟩

lemma isAlignment_of_bits {x : ℕ} (hx : x ≠ 0) (hand : x &&& (x - 1) = 0) (hlt : x < 2 ^ 32) :
    IsAlignment x := by
  obtain ⟨k, rfl⟩ := exists_eq_two_pow hx hand
  have hk : k < 32 := (Nat.pow_lt_pow_iff_right (by decide)).mp hlt
  exact ⟨Nat.pow_dvd_pow 2 (by omega), hlt.le⟩

lemma ensures_readAlignment {kvs : List GgufKv} (h : ∀ kv ∈ kvs, NarrowU32 kv) :
    Ensures (readAlignment kvs) whole bs fun n _ _ => IsAlignment n ∧ 0 < n := by
  unfold readAlignment
  split
  · exact ensures_pure ⟨⟨by decide, by decide⟩, by decide⟩
  next kv hkv =>
  have hmem : kv ∈ kvs := mem_of_find?_eq_some hkv
  refine (ensures_throwIf (Q := fun _ _ _ => kv.isArray = false ∧ kv.type = .uint32)
    fun hc => ?_).bind fun _ _ _ htype => ?_
  · rw [not_or, Bool.not_eq_true, not_not] at hc
    exact hc
  refine (ensures_throwIf (Q := fun _ _ _ => Bytes.toNat kv.data ≠ 0 ∧
    Bytes.toNat kv.data &&& (Bytes.toNat kv.data - 1) = 0) fun hc => ?_).bind
      fun _ _ _ hbits => ?_
  · rw [not_or, not_not] at hc
    exact hc
  have hlt : Bytes.toNat kv.data < 256 ^ 4 :=
    (Bytes.toNat_lt _).trans_le (Nat.pow_le_pow_right (by decide) (h kv hmem htype.1 htype.2))
  exact ensures_pure ⟨isAlignment_of_bits hbits.1 hbits.2 hlt, Nat.pos_of_ne_zero hbits.1⟩

/-- What is known of an accepted file. -/
structure Accepted (ctx : GgufContext) : Prop where
  alignment : IsAlignment ctx.alignment
  pos : 0 < ctx.alignment
  checked : ∀ t ∈ ctx.info, t.Checked
  laid : Laid ctx.alignment 0 ctx.info ctx.size

lemma ensures_initFromReader {params : GgufInitParams} :
    Ensures (initFromReader params) whole bs fun ctx _ _ => Accepted ctx := by
  refine Ensures.after fun header _ _ => ?_
  refine (ensures_readKvs fun kv hkv => absurd hkv not_mem_nil).bind fun kv _ _ hkv => ?_
  refine (ensures_readAlignment hkv).bind fun alignment _ _ hal => ?_
  refine (ensures_readTensorInfos fun t ht => absurd ht not_mem_nil).bind
    fun info _ _ hinfo => ?_
  refine Ensures.after fun _ _ _ => ?_
  refine (ensures_dataSize (by decide)).bind fun size _ _ hlaid => ?_
  refine Ensures.after fun data _ _ => ?_
  exact ensures_pure ⟨hal.1, hal.2, hinfo, hlaid⟩

/-- **The tensors of an accepted file are exact exactly when the tests of the reader are
enough** for each of them. -/
theorem exact_iff_of_accepted {data : List UInt8} {params : GgufInitParams} {ctx : GgufContext}
    (h : initFromBuffer data params = some ctx) :
    (∀ t ∈ ctx.info, t.Exact ctx.size) ↔ ∀ pre t post, ctx.info = pre ++ t :: post →
        t.Representable ctx.alignment (paddedSize ctx.alignment post) := by
  have hacc : Accepted ctx := by
    unfold initFromBuffer at h
    split at h
    · cases h
    · exact ensures_initFromReader.of_value h
  have hiff : ∀ pre t post, ctx.info = pre ++ t :: post →
      (t.Exact ctx.size ↔ t.Representable ctx.alignment (paddedSize ctx.alignment post)) := by
    intro pre t post heq
    have ht := hacc.checked t (by rw [heq]; exact List.mem_append_right _ List.mem_cons_self)
    have hlaid := hacc.laid
    rw [heq] at hlaid
    exact ht.exact_iff hacc.alignment hacc.pos hlaid
  constructor
  · intro hall pre t post heq
    exact (hiff pre t post heq).mp
      (hall t (by rw [heq]; exact List.mem_append_right _ List.mem_cons_self))
  · intro hall t ht
    obtain ⟨pre, post, heq⟩ := List.append_of_mem ht
    exact (hiff pre t post heq).mpr (hall pre t post heq)

/-- A file with one tensor of two dimensions. -/
def oneTensorFile (ne0 ne1 : ℕ) (type : GgmlType) : List UInt8 :=
  magic ++ Bytes.ofNat 4 3 ++ Bytes.ofNat 8 1 ++ Bytes.ofNat 8 0 ++ Bytes.ofNat 8 1 ++ [120] ++
    Bytes.ofNat 4 2 ++ Bytes.ofNat 8 ne0 ++ Bytes.ofNat 8 ne1 ++ Bytes.ofNat 4 type ++
    Bytes.ofNat 8 0 ++ List.replicate 31 0

/-- A matrix of three by five floats. -/
theorem exact_iff_of_accepted_matrix : ∃ ctx,
    initFromBuffer (oneTensorFile 3 5 .f32) .noCtx = some ctx ∧ ctx.size = 64 ∧
      ∀ t ∈ ctx.info, t.Exact ctx.size := by
  have hrun : (initFromBuffer (oneTensorFile 3 5 .f32) .noCtx).map
      (fun ctx => (ctx.info, ctx.alignment, ctx.size)) =
      some ([⟨[120], .f32, 3, 5, 1, 1, 4, 12, 60, 60, none, 0⟩], 32, 64) := by decide +kernel
  obtain ⟨ctx, hctx, heq⟩ := Option.map_eq_some_iff.mp hrun
  simp only [Prod.mk.injEq] at heq
  obtain ⟨hinfo, halign, hsize⟩ := heq
  refine ⟨ctx, hctx, hsize, (exact_iff_of_accepted hctx).mpr fun pre t post hsplit => ?_⟩
  rw [hinfo] at hsplit
  obtain ⟨rfl, rfl, rfl⟩ :
      pre = [] ∧ t = ⟨[120], .f32, 3, 5, 1, 1, 4, 12, 60, 60, none, 0⟩ ∧ post = [] := by
    cases pre with
    | nil => simpa [eq_comm] using hsplit
    | cons p pre => simp at hsplit
  rw [halign]
  exact .inl ⟨by decide, by decide, by decide⟩

/-- A count of `2 ^ 64` is zero in 64 bits: the file is accepted. -/
theorem not_exact_wrapped : ∃ ctx,
    initFromBuffer (oneTensorFile (2 ^ 32) (2 ^ 32) .i8) .noCtx = some ctx ∧
      ¬ ∀ t ∈ ctx.info, t.Exact ctx.size := by
  have hrun : (initFromBuffer (oneTensorFile (2 ^ 32) (2 ^ 32) .i8) .noCtx).map
      (fun ctx => ctx.info.map GgufTensor.count) = some [2 ^ 64] := by decide +kernel
  obtain ⟨ctx, hctx, hcount⟩ := Option.map_eq_some_iff.mp hrun
  refine ⟨ctx, hctx, fun hall => ?_⟩
  obtain ⟨t, ht, hbig⟩ : ∃ t ∈ ctx.info, t.count = 2 ^ 64 := by
    refine List.mem_map.mp ?_
    rw [hcount]
    exact List.mem_singleton_self _
  have hle := (hall t ht).count_le
  rw [hbig] at hle
  exact absurd hle (by decide)

end Gguf

end Llama
