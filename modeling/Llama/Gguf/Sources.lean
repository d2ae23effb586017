import Llama.Gguf.Source

/-!
# The same file from every source

A callback is faithful when it reads the bytes of a file as `fread` does: all that it is asked for
when they are there, and fewer otherwise.  A `gguf_reader` on a faithful callback does what a reader
of the bytes does, whatever the size of its chunks and whatever the bound on the size of the file,
until it moves to the data section.  There the bound matters: when it is greater than the size, the
data section may start behind the last byte.
-/

namespace Llama

open List

namespace GgufReader

/-! ## Readers of bytes -/

lemma bind_assoc {α β γ : Type} (r : Gguf.Read α) (f : α → Gguf.Read β) (g : β → Gguf.Read γ) :
    r >>= f >>= g = r >>= fun a => f a >>= g := by
  funext s bs
  change Reader.andThen (Reader.andThen r f) g s bs = Reader.andThen r (fun a => f a >>= g) s bs
  unfold Reader.andThen
  rcases r s bs with ⟨_ | _ | _, _, _⟩ <;> rfl

lemma readMany_reader {α : Type} (r : Gguf.Read α) : ∀ n, readMany n r = Reader.replicate n r
  | 0 => rfl
  | n + 1 => by
    rw [readMany, readMany_reader r n]
    rfl

lemma readEmplace_reader (key : List UInt8) (isArray : Bool) (t : GgufType) (n : ℕ) :
    (readEmplace key isArray t n : Gguf.Read GgufKv) = Gguf.readEmplace key isArray t n := by
  unfold readEmplace readStringValue readScalarValue readStrings readScalars
  rw [readMany_reader, readMany_reader, readMany_reader]
  rfl

lemma readKv_reader (kvs : List GgufKv) : (readKv kvs : Gguf.Read GgufKv) = Gguf.readKv kvs := by
  unfold readKv
  simp only [readEmplace_reader]
  rfl

lemma readKvs_reader : ∀ n kvs, (readKvs n kvs : Gguf.Read (List GgufKv)) = Gguf.readKvs n kvs
  | 0, _ => rfl
  | n + 1, kvs => by
    unfold readKvs
    simp only [readKv_reader, readKvs_reader n]
    rfl

lemma alignmentOf_reader (kvs : List GgufKv) :
    (alignmentOf (Gguf.findKey kvs Gguf.keyAlignment) : Gguf.Read ℕ) = Gguf.readAlignment kvs := by
  rw [Gguf.readAlignment]
  cases Gguf.findKey kvs Gguf.keyAlignment <;> rfl

lemma readTensorInfos_reader : ∀ n infos,
    (readTensorInfos n infos : Gguf.Read (List GgufTensor)) = Gguf.readTensorInfos n infos
  | 0, _ => rfl
  | n + 1, infos => by
    unfold readTensorInfos
    simp only [readTensorInfos_reader n]
    rfl

lemma dataSize_reader (alignment : ℕ) : ∀ size infos,
    (dataSize alignment size infos : Gguf.Read ℕ) = Gguf.dataSize alignment size infos
  | _, [] => rfl
  | size, ti :: infos => by
    unfold dataSize
    simp only [dataSize_reader alignment _ infos]
    rfl

/-- **With a reader of bytes, `gguf_init_from_reader` is `Gguf.initFromReader`.** -/
theorem initFromReader_reader (params : GgufInitParams) :
    (initFromReader params : Gguf.Read GgufContext) = Gguf.initFromReader params := by
  unfold initFromReader readMeta readSection
  simp only [bind_assoc, readKvs_reader, alignmentOf_reader, readTensorInfos_reader,
    dataSize_reader]
  rfl

end GgufReader

namespace GgufSource

open GgufReader
open Reader hiding Reads readU32 readU64 readI32 readI64 needs read

variable {σ : Type}

/-- The callback reads `data`, whatever it has done before; `I` is what it keeps of its user data.
What it reads are bytes at the offset, and they are as many as it is asked for if these are
there. -/
structure Reads (callback : GgufCallback σ) (data : List UInt8) (I : σ → Prop) : Prop where
  keeps : ∀ u offset len, I u → I (callback u offset len).2
  bytes : ∀ u offset len, I u → (callback u offset len).1 <+: (data.drop offset).take len
  whole : ∀ u offset len, I u → 0 < len → offset + len ≤ data.length →
    (callback u offset len).1.length = len

/-- The callback reads `data` from its first call on. -/
def Faithful (callback : GgufCallback σ) (data : List UInt8) (u : σ) : Prop :=
  ∃ I, I u ∧ Reads callback data I

lemma faithful_bufferCallback (data : List UInt8) : Faithful (bufferCallback data) data () := by
  refine ⟨fun _ => True, trivial, fun _ _ _ _ => trivial, fun u offset len _ => ?_,
    fun u offset len _ hpos hle => ?_⟩
  · rw [bufferCallback]
    split
    · exact nil_prefix
    · have hmin : min len (data.length - offset) = len := Nat.min_eq_left (by omega)
      simp only [hmin, prefix_refl]
  · rw [bufferCallback, if_neg (by omega), length_take, length_drop]
    omega

variable {data : List UInt8}

lemma faithful_fileCallback (hsize : (data.length : ℤ) ≤ int64Max) (cur : ℕ) :
    Faithful (fileCallback data) data ⟨cur, cur⟩ := by
  have hat : ∀ (u : FileReader) offset, u.position = u.offset →
      (if u.offset ≠ offset then offset else u.position) = offset := by
    intro u offset hu
    split
    · rfl
    · next heq => rw [hu, not_ne_iff.mp heq]
  refine ⟨fun u => u.position = u.offset, rfl, fun u offset len hu => ?_, fun u offset len hu => ?_,
    fun u offset len hu hpos hle => ?_⟩
  · rw [fileCallback]
    split
    · exact hu
    · simp only [hat u offset hu]
  · rw [fileCallback]
    split
    · exact nil_prefix
    · simp only [hat u offset hu, prefix_refl]
  · rw [fileCallback, if_neg (by omega)]
    simp only [hat u offset hu, length_take, length_drop]
    omega

/-! ## Reading -/

section Reading

variable {src : GgufSource σ} {data : List UInt8} {I : σ → Prop} {size : ℕ}

/-- **The loop of `read_raw`** reads the bytes that it is asked for, or fewer when they are not all
there. -/
theorem readLoop_spec (h : Reads src.callback data I) (hsize : data.length < 2 ^ 64) (fuel : ℕ) :
    ∀ offset {n u}, n ≤ fuel → I u → ∃ bs e u', readLoop src fuel offset n u = (bs, e, u') ∧
      I u' ∧ bs.length ≤ n ∧
      (offset + n ≤ data.length → bs = (data.drop offset).take n ∧ e = false) ∧
      (n ≠ 0 → data.length < offset + n → bs.length < n) := by
  induction fuel with
  | zero =>
    intro offset n u hle hu
    obtain rfl : n = 0 := Nat.le_zero.mp hle
    exact ⟨[], false, u, rfl, hu, Nat.le_refl _, fun _ => ⟨take_zero.symm, rfl⟩,
      fun hne => absurd rfl hne⟩
  | succ fuel ih =>
    intro offset n u hle hu
    rw [readLoop]
    by_cases hstop : n = 0 ∨ 2 ^ 64 ≤ offset
    · rw [if_pos hstop]
      refine ⟨[], false, u, rfl, hu, Nat.zero_le _, fun hin => ?_, fun hne _ => Nat.pos_of_ne_zero hne⟩
      obtain rfl : n = 0 := by omega
      exact ⟨take_zero.symm, rfl⟩
    rw [if_neg hstop]
    have hpos : 0 < min src.maxChunkRead n := by
      have := src.pos
      omega
    have hkeep := h.keeps u offset (min src.maxChunkRead n) hu
    have hpre := h.bytes u offset (min src.maxChunkRead n) hu
    have hwhole := h.whole u offset (min src.maxChunkRead n) hu hpos
    have hlen := hpre.length_le
    rw [length_take, length_drop] at hlen
    obtain ⟨bs, u', hcall⟩ : ∃ bs u', src.callback u offset (min src.maxChunkRead n) = (bs, u') :=
      ⟨_, _, rfl⟩
    rw [hcall] at hkeep hpre hwhole hlen
    dsimp only at hkeep hpre hwhole hlen
    simp only [hcall]
    by_cases hshort : bs.length ≠ min src.maxChunkRead n
    · rw [if_pos hshort]
      exact ⟨bs, true, u', rfl, hkeep, by omega, fun hin => absurd (hwhole (by omega)) hshort,
        fun _ _ => by omega⟩
    rw [if_neg hshort]
    obtain ⟨bs', e, u'', heq, hu'', hle', hin', hout⟩ := ih (offset + min src.maxChunkRead n)
      (n := n - min src.maxChunkRead n) (by omega) hkeep
    rw [heq]
    refine ⟨bs ++ bs', e, u'', rfl, hu'', by rw [length_append]; omega, fun hin => ?_,
      fun hne hlt => ?_⟩
    · obtain ⟨rfl, rfl⟩ := hin' (by omega)
      have hbs : bs = (data.drop offset).take (min src.maxChunkRead n) :=
        hpre.eq_of_length (by rw [length_take, length_drop]; omega)
      refine ⟨?_, rfl⟩
      rw [hbs, ← drop_drop, ← take_add]
      congr 1
      omega
    · rw [length_append]
      rcases Nat.eq_zero_or_pos (n - min src.maxChunkRead n) with hz | hz
      · omega
      · omega

/-- The reader of bytes is where the source is. -/
structure At (data : List UInt8) (I : σ → Prop) (size : ℕ) (t : State σ) (s bs : List UInt8) :
    Prop where
  whole : s = data
  userdata : I t.userdata
  le : t.dataOffset ≤ data.length
  rest : bs = data.drop t.dataOffset
  remain : t.dataOffset + t.nbytesRemain = size

/-- What a read does from any offset. -/
lemma read_spec (h : Reads src.callback data I) (hsize : data.length < 2 ^ 64) {t : State σ}
    {n : ℕ} (hu : I t.userdata) (hle : n ≤ t.nbytesRemain)
    (hlt : t.dataOffset + t.nbytesRemain < 2 ^ 64) :
    (t.dataOffset + n ≤ data.length → ∃ u, I u ∧
      GgufSource.read src n t = (.ok ((data.drop t.dataOffset).take n),
        ⟨u, t.dataOffset + n, t.nbytesRemain - n⟩)) ∧
      (n ≠ 0 → data.length < t.dataOffset + n → (GgufSource.read src n t).1 = .thrown) := by
  obtain ⟨bs, e, u, heq, hu', hlen, hin, hout⟩ :=
    readLoop_spec h hsize n t.dataOffset (Nat.le_refl n) hu
  have hneeds : GgufSource.needs src n t = (.ok (), t) := by
    rw [GgufSource.needs, if_neg (by omega)]
  have hraw : readRaw src n t = (.ok bs, ⟨u, t.dataOffset + bs.length,
      if e then 0 else t.nbytesRemain - bs.length⟩) := by
    rw [readRaw, heq]
    dsimp only
    rw [if_neg (by omega), addSize_of_lt (by omega)]
  have hread : GgufSource.read src n t = (if bs.length = n then (pure bs : src.Run _) else
      refuse src) ⟨u, t.dataOffset + bs.length, if e then 0 else t.nbytesRemain - bs.length⟩ :=
    (Machine.run_bind hneeds).trans (Machine.run_bind hraw)
  constructor
  · intro hle'
    obtain ⟨rfl, rfl⟩ := hin hle'
    have hlen' : ((data.drop t.dataOffset).take n).length = n := by
      rw [length_take, length_drop]
      omega
    rw [hlen', if_pos rfl] at hread
    exact ⟨u, hu', hread⟩
  · intro hne hlt'
    rw [hread, if_neg (by have := hout hne hlt'; omega)]
    rfl

/-- A program does the same on the source as on the bytes. -/
abbrev Same (src : GgufSource σ) (data : List UInt8) (I : σ → Prop) (size : ℕ) {α : Type}
    (c : src.Run α) (r : Gguf.Read α) : Prop :=
  Simulates (At data I size) c r

variable (h : Reads src.callback data I) (hsize : data.length ≤ size) (hlt : size < 2 ^ 64)

lemma same_refuseIf {c : Prop} [Decidable c] : Same src data I size (refuseIf c) (refuseIf c) :=
  simulates_ite c simulates_throw (simulates_pure ())

include h hsize hlt

lemma same_read (n : ℕ) : Same src data I size (GgufReader.read n) (GgufReader.read n) := by
  rintro t s bs ⟨rfl, hu, hle, rfl, hremain⟩
  have hlen := length_drop (i := t.dataOffset) (l := s)
  by_cases hfew : (s.drop t.dataOffset).length < n
  · right
    constructor
    · by_cases hrem : t.nbytesRemain < n
      · exact Machine.thrown_bind _ (by rw [GgufSource.needs, if_pos hrem])
      · exact (read_spec h (by omega) hu (by omega) (by omega)).2 (by omega) (by omega)
    · exact congrArg Outcome.result (if_pos hfew)
  · left
    obtain ⟨u, hu', hread⟩ := (read_spec (n := n) h (by omega) hu (by omega) (by omega)).1 (by omega)
    exact ⟨_, _, s, (s.drop t.dataOffset).drop n, hread, if_neg hfew, rfl, hu', by
      dsimp only; omega, by rw [drop_drop], by dsimp only; omega⟩

lemma same_readU32 : Same src data I size readU32 readU32 :=
  (same_read h hsize hlt 4).bind fun _ => simulates_pure _

lemma same_readU64 : Same src data I size readU64 readU64 :=
  (same_read h hsize hlt 8).bind fun _ => simulates_pure _

lemma same_readI32 : Same src data I size readI32 readI32 :=
  (same_read h hsize hlt 4).bind fun _ => simulates_pure _

lemma same_readI64 : Same src data I size readI64 readI64 :=
  (same_read h hsize hlt 8).bind fun _ => simulates_pure _

lemma same_readString : Same src data I size readString readString :=
  (same_readU64 h hsize hlt).bind fun n =>
    same_refuseIf.bind fun _ => same_read h hsize hlt n

lemma same_readScalar (t : GgufType) : Same src data I size (readScalar t) (readScalar t) :=
  (same_read h hsize hlt t.size).bind fun _ => simulates_pure _

omit h hsize hlt in
lemma same_readMany {α : Type} {c : src.Run α} {r : Gguf.Read α}
    (hc : Same src data I size c r) :
    ∀ n, Same src data I size (readMany n c) (readMany n r)
  | 0 => simulates_pure []
  | n + 1 => hc.bind fun a => (same_readMany hc n).bind fun as => simulates_pure (a :: as)

omit h hlt in
/-- The test of the bytes that remain is no better than the bound. -/
lemma same_needs {α : Type} {c : src.Run α} {r : Gguf.Read α} {n : ℕ}
    (hc : Same src data I size c r) (htakes : Takes n r) :
    Same src data I size (GgufReader.needs n >>= fun _ => c)
      (GgufReader.needs n >>= fun _ => r) := by
  refine Simulates.needs hc htakes ?_
  rintro t s bs ⟨rfl, hu, hle, rfl, hremain⟩
  by_cases hfew : t.nbytesRemain < n
  · refine .inr ⟨congrArg Prod.fst (if_pos hfew), ?_⟩
    rw [List.length_drop]
    omega
  · exact .inl ⟨t, if_neg hfew, rfl, hu, hle, rfl, hremain⟩

lemma same_readScalars (t : GgufType) (n : ℕ) :
    Same src data I size (readScalars t n) (readScalars t n) := by
  refine same_refuseIf.bind fun _ => same_needs hsize
    ((same_readMany (same_readScalar h hsize hlt t) n).bind fun _ => simulates_pure _) ?_
  rw [readMany_reader]
  exact (Takes.replicate ((takes_read t.size).bind fun _ => takes_pure _) n).bind
    fun _ => takes_pure _

lemma same_readStrings (n : ℕ) : Same src data I size (readStrings n) (readStrings n) := by
  refine same_refuseIf.bind fun _ => same_needs hsize
    (same_readMany (same_readString h hsize hlt) n) ?_
  rw [readMany_reader]
  have hstring : Takes (8 + 0 + (0 + 0)) (readString : Gguf.Read (List UInt8)) :=
    ((takes_read 8).bind fun _ => takes_pure _).bind fun n =>
      (takes_throwIf _).bind fun _ => (takes_read n).mono (Nat.zero_le n)
  exact hstring.replicate n

lemma same_readEmplace (key : List UInt8) (isArray : Bool) (t : GgufType) (n : ℕ) :
    Same src data I size (readEmplace key isArray t n) (readEmplace key isArray t n) := by
  refine simulates_ite _ (Simulates.bind ?_ fun _ => simulates_pure _)
    (Simulates.bind ?_ fun _ => simulates_pure _)
  · cases isArray with
    | false => exact same_readMany (same_readString h hsize hlt) 1
    | true => exact same_readStrings h hsize hlt n
  · cases isArray with
    | false => exact same_readScalar h hsize hlt t
    | true => exact same_readScalars h hsize hlt t n

lemma same_readType : Same src data I size readType readType :=
  (same_readI32 h hsize hlt).bind fun _ => simulates_ite _
    ((same_readI32 h hsize hlt).bind fun _ => (same_readU64 h hsize hlt).bind fun _ =>
      simulates_pure _)
    (simulates_pure _)

lemma same_readKv (kvs : List GgufKv) : Same src data I size (readKv kvs) (readKv kvs) := by
  refine (same_readString h hsize hlt).bind fun key => same_refuseIf.bind fun _ =>
    same_refuseIf.bind fun _ => (same_readType h hsize hlt).bind fun type => ?_
  rcases GgufType.ofInt type.2.1 with _ | t
  · exact simulates_throw
  · cases t <;> first
      | exact simulates_throw
      | exact same_readEmplace h hsize hlt _ _ _ _

lemma same_readKvs : ∀ n kvs, Same src data I size (readKvs n kvs) (readKvs n kvs)
  | 0, _ => simulates_pure _
  | n + 1, kvs => (same_readKv h hsize hlt kvs).bind fun _ => same_readKvs n _

omit h hsize hlt in
lemma same_alignmentOf (kv : Option GgufKv) :
    Same src data I size (alignmentOf kv) (alignmentOf kv) := by
  cases kv with
  | none => exact simulates_pure _
  | some kv =>
    exact same_refuseIf.bind fun _ => same_refuseIf.bind fun _ => simulates_pure _

lemma same_readDim (nDims j : ℕ) : Same src data I size (readDim nDims j) (readDim nDims j) :=
  (simulates_ite _ (same_readI64 h hsize hlt) (simulates_pure 1)).bind fun _ =>
    same_refuseIf.bind fun _ => simulates_pure _

lemma same_readTensorEnd (name : List UInt8) (ne0 ne1 ne2 ne3 : ℤ) (t : Option GgmlType) :
    Same src data I size (readTensorEnd name ne0 ne1 ne2 ne3 t)
      (readTensorEnd name ne0 ne1 ne2 ne3 t) := by
  cases t with
  | none => exact simulates_throw
  | some t =>
    exact same_refuseIf.bind fun _ => same_refuseIf.bind fun _ =>
      (same_readU64 h hsize hlt).bind fun _ => simulates_pure _

lemma same_readTensorInfo (infos : List GgufTensor) :
    Same src data I size (readTensorInfo infos) (readTensorInfo infos) :=
  (same_readString h hsize hlt).bind fun _ => same_refuseIf.bind fun _ => same_refuseIf.bind
    fun _ => (same_readU32 h hsize hlt).bind fun _ => same_refuseIf.bind fun _ =>
    (same_readDim h hsize hlt _ 0).bind fun _ => (same_readDim h hsize hlt _ 1).bind fun _ =>
    (same_readDim h hsize hlt _ 2).bind fun _ => (same_readDim h hsize hlt _ 3).bind fun _ =>
    same_refuseIf.bind fun _ => (same_readI32 h hsize hlt).bind fun _ =>
    same_readTensorEnd h hsize hlt _ _ _ _ _ _

lemma same_readTensorInfos : ∀ n infos,
    Same src data I size (readTensorInfos n infos) (readTensorInfos n infos)
  | 0, _ => simulates_pure _
  | n + 1, infos => (same_readTensorInfo h hsize hlt infos).bind fun _ =>
    same_readTensorInfos n _

lemma same_readHeader : Same src data I size readHeader readHeader :=
  (same_read h hsize hlt 4).bind fun _ => same_refuseIf.bind fun _ =>
    (same_readU32 h hsize hlt).bind fun _ => same_refuseIf.bind fun _ =>
    (same_readI64 h hsize hlt).bind fun _ => same_refuseIf.bind fun _ =>
    (same_readI64 h hsize hlt).bind fun _ => same_refuseIf.bind fun _ => simulates_pure _

/-- **All that is before the data section is read alike.** -/
theorem same_readMeta : Same src data I size readMeta readMeta :=
  (same_readHeader h hsize hlt).bind fun _ => (same_readKvs h hsize hlt _ _).bind fun _ =>
    (same_alignmentOf _).bind fun _ => (same_readTensorInfos h hsize hlt _ _).bind fun _ =>
    simulates_pure _

omit h hsize hlt in
lemma same_dataSize (alignment : ℕ) : ∀ n infos,
    Same src data I size (dataSize alignment n infos) (dataSize alignment n infos)
  | _, [] => simulates_pure _
  | _, _ :: infos => same_refuseIf.bind fun _ => same_refuseIf.bind fun _ =>
    same_dataSize alignment _ infos

lemma same_readData (params : GgufInitParams) (nTensors n : ℕ) :
    Same src data I size (readData params nTensors n) (readData params nTensors n) := by
  cases params with
  | noCtx => exact simulates_pure none
  | noAlloc => exact same_refuseIf.bind fun _ => simulates_pure _
  | load =>
    exact same_refuseIf.bind fun _ => same_refuseIf.bind fun _ =>
      (same_read h hsize hlt n).bind fun _ => simulates_pure _

omit h hsize hlt in
lemma same_tell : Same src data I size GgufReader.tell GgufReader.tell := by
  rintro t s bs ⟨rfl, hu, hle, rfl, hremain⟩
  refine .inl ⟨t.dataOffset, t, s, s.drop t.dataOffset, rfl, ?_, rfl, hu, hle, rfl, hremain⟩
  have htell : Gguf.tell s (s.drop t.dataOffset) =
      ⟨.ok (s.length - (s.drop t.dataOffset).length), s, s.drop t.dataOffset⟩ := rfl
  refine htell.trans ?_
  rw [List.length_drop, Nat.sub_sub_self hle]

lemma same_readSection (params : GgufInitParams) (header : Gguf.Header) (kv : List GgufKv)
    (alignment : ℕ) (info : List GgufTensor) :
    Same src data I size (readSection params header kv alignment info)
      (readSection params header kv alignment info) :=
  same_tell.bind fun _ => (same_dataSize alignment 0 info).bind fun _ =>
    (same_readData h hsize hlt params _ _).bind fun _ => simulates_pure _

/-! ## The data section behind the last byte -/

/-- What is kept of the source behind the last byte. -/
def PastEnd (data : List UInt8) (I : σ → Prop) (size : ℕ) (t : State σ) : Prop :=
  I t.userdata ∧ data.length < t.dataOffset ∧ t.dataOffset + t.nbytesRemain = size

omit h hsize hlt in
lemma seek_spec (src : GgufSource σ) {t : State σ} (ht : t.dataOffset + t.nbytesRemain = size) (hlt : size < 2 ^ 64)
    (offset : ℕ) : GgufSource.seek src offset t =
      if size < offset then (.thrown, t) else (.ok (), ⟨t.userdata, offset, size - offset⟩) := by
  rw [GgufSource.seek, addSize_of_lt (by omega), ht]

omit h in
/-- The move to the data section: the same, or it is behind the last byte. -/
lemma seekData_spec {t : State σ} {s bs : List UInt8} (ht : At data I size t s bs)
    (nTensors alignment : ℕ) :
    BothReturn (At data I size) ((seekData nTensors alignment : src.Run Unit) t)
        ((seekData nTensors alignment : Gguf.Read Unit) s bs) ∨
      ((seekData nTensors alignment : Gguf.Read Unit) s bs).result = .thrown ∧
      (((seekData nTensors alignment : src.Run Unit) t).1 = .thrown ∨
        ∃ t', (seekData nTensors alignment : src.Run Unit) t = (.ok (), t') ∧
          PastEnd data I size t' ∧ t'.dataOffset ≤ size) := by
  by_cases hpos : 0 < nTensors
  · obtain ⟨pos, t', s', bs', hc, hr, rfl, hu, hle, rfl, hremain⟩ | ⟨hc, -⟩ :=
      (same_tell : Same src data I size GgufReader.tell GgufReader.tell) t s bs ht
    · have hseek : (seekData nTensors alignment : src.Run Unit) t =
          if size < ggmlPad pos alignment then (.thrown, t')
          else (.ok (), ⟨t'.userdata, ggmlPad pos alignment, size - ggmlPad pos alignment⟩) := by
        refine Eq.trans ?_ (seek_spec src hremain hlt (ggmlPad pos alignment))
        rw [seekData, if_pos hpos]
        exact Machine.run_bind hc
      have hseek' : (seekData nTensors alignment : Gguf.Read Unit) s bs =
          if s'.length < ggmlPad pos alignment then ⟨.thrown, s', s'.drop t'.dataOffset⟩
          else ⟨.ok (), s', s'.drop (ggmlPad pos alignment)⟩ := by
        rw [seekData, if_pos hpos]
        refine (Reader.run_bind (f := fun pos => Gguf.seek (ggmlPad pos alignment)) hr).trans ?_
        rw [Gguf.seek]
      by_cases hin : s'.length < ggmlPad pos alignment
      · rw [if_pos hin] at hseek'
        refine .inr ⟨congrArg Outcome.result hseek', ?_⟩
        by_cases hbound : size < ggmlPad pos alignment
        · rw [if_pos hbound] at hseek
          exact .inl (congrArg Prod.fst hseek)
        · rw [if_neg hbound] at hseek
          exact .inr ⟨_, hseek, ⟨hu, hin, by dsimp only; omega⟩, by dsimp only; omega⟩
      · rw [if_neg hin] at hseek'
        rw [if_neg (by omega)] at hseek
        exact .inl ⟨(), _, s', _, hseek, hseek', rfl, hu, by dsimp only; omega, rfl, by
          dsimp only; omega⟩
    · cases hc
  · rw [seekData, seekData, if_neg hpos, if_neg hpos]
    exact .inl ⟨(), t, s, bs, rfl, rfl, ht⟩

omit h hsize hlt in
lemma returns_refuseIf {P : State σ → Prop} {c : Prop} [Decidable c] :
    Machine.Returns P (refuseIf c : src.Run Unit) fun _ t => P t :=
  Machine.returns_ite c Machine.returns_throw ((Machine.returns_pure ()).mono fun _ _ h => h.2)

omit h hsize hlt in
lemma returns_dataSize {P : State σ → Prop} (alignment : ℕ) : ∀ n infos,
    Machine.Returns P (dataSize alignment n infos : src.Run ℕ) fun _ t => P t
  | n, [] => (Machine.returns_pure n).mono fun _ _ h => h.2
  | _, _ :: infos => returns_refuseIf.bind fun _ => returns_refuseIf.bind fun _ =>
    returns_dataSize alignment _ infos

/-- Behind the last byte nothing can be read. -/
lemma returns_read (n : ℕ) : Machine.Returns (PastEnd data I size)
    (GgufReader.read n : src.Run (List UInt8)) fun bs _ => bs = [] := by
  rintro t ⟨hu, hpast, hremain⟩
  by_cases hrem : t.nbytesRemain < n
  · exact .inr (Machine.thrown_bind _ (by rw [GgufSource.needs, if_pos hrem]))
  · rcases Nat.eq_zero_or_pos n with rfl | hpos
    · refine .inl ⟨[], ⟨t.userdata, addSize t.dataOffset 0, t.nbytesRemain⟩, ?_, rfl⟩
      have hneeds : GgufSource.needs src 0 t = (.ok (), t) := if_neg hrem
      have hraw : readRaw src 0 t = (.ok [], ⟨t.userdata, addSize t.dataOffset 0,
          t.nbytesRemain⟩) := by
        rw [readRaw]
        exact if_neg hrem
      have hread : GgufSource.read src 0 t = (if ([] : List UInt8).length = 0 then
          (pure [] : src.Run _) else refuse src) ⟨t.userdata, addSize t.dataOffset 0,
            t.nbytesRemain⟩ :=
        (Machine.run_bind hneeds).trans (Machine.run_bind hraw)
      exact hread
    · exact .inr ((read_spec h (by omega) hu (by omega) (by omega)).2 (by omega) (by omega))

lemma returns_readData (params : GgufInitParams) (nTensors n : ℕ) :
    Machine.Returns (PastEnd data I size)
      (readData params nTensors n : src.Run (Option (List UInt8)))
      fun d _ => d = none ∨ d = some [] := by
  have hnone : Machine.Returns (PastEnd data I size) (pure none : src.Run (Option (List UInt8)))
      fun d _ => d = none ∨ d = some [] :=
    (Machine.returns_pure none).mono fun _ _ h => .inl h.1
  cases params with
  | noCtx => exact hnone
  | noAlloc => exact returns_refuseIf.bind fun _ => hnone
  | load =>
    refine returns_refuseIf.bind fun _ => returns_refuseIf.bind fun _ =>
      (returns_read h hsize hlt n).bind fun bs => (Machine.returns_pure (some bs)).mono ?_
    rintro d t ⟨rfl, rfl⟩
    exact .inr rfl

/-- A context whose data section starts behind the last byte, and of which no data was read. -/
def PastContext (data : List UInt8) (size : ℕ) (ctx : GgufContext) : Prop :=
  data.length < ctx.offset ∧ ctx.offset ≤ size ∧ (ctx.data = none ∨ ctx.data = some [])

lemma returns_readSection (params : GgufInitParams) (header : Gguf.Header) (kv : List GgufKv)
    (alignment : ℕ) (info : List GgufTensor) :
    Machine.Returns (PastEnd data I size)
      (readSection params header kv alignment info : src.Run GgufContext)
      fun ctx _ => PastContext data size ctx := by
  have htell : Machine.Returns (PastEnd data I size) (GgufReader.tell : src.Run ℕ)
      fun offset t => PastEnd data I size t ∧ data.length < offset ∧ offset ≤ size :=
    fun t ht => .inl ⟨t.dataOffset, t, rfl, ht, ht.2.1, by have := ht.2.2; omega⟩
  refine htell.bind fun offset => (returns_dataSize alignment 0 info).bind fun n => ?_
  rintro t ⟨ht, hoffset⟩
  refine Machine.Returns.bind (returns_readData h hsize hlt params _ n) (fun d => ?_) t ht
  intro t' hd
  exact .inl ⟨_, t', rfl, hoffset.1, hoffset.2, hd⟩

/-- **Reading a file from a source** has the result of reading its bytes; only a context whose data
section starts behind the last byte comes from the source alone. -/
theorem init_eq_or_pastEnd (params : GgufInitParams) {u : σ} (hu : I u) :
    (∃ ctx, init src ⟨u, 0, size⟩ params = .ok ctx ∧
        (Gguf.initFromReader params data data).result = .ok ctx) ∨
      (Gguf.initFromReader params data data).result = .thrown ∧
        (init src ⟨u, 0, size⟩ params = .thrown ∨
          ∃ ctx, init src ⟨u, 0, size⟩ params = .ok ctx ∧ PastContext data size ctx) := by
  have hat : At data I size ⟨u, 0, size⟩ data data :=
    ⟨rfl, hu, Nat.zero_le _, rfl, Nat.zero_add size⟩
  rw [← initFromReader_reader params]
  obtain ⟨⟨header, kv, alignment, info⟩, t1, s1, bs1, hc1, hr1, hat1⟩ | ⟨hc1, hr1⟩ :=
    same_readMeta h hsize hlt _ data data hat
  swap
  · exact .inr ⟨Reader.thrown_bind _ hr1, .inl (Machine.thrown_bind _ hc1)⟩
  have hc : ∀ {r}, (GgufReader.seekData header.nTensors alignment >>= fun _ =>
      readSection params header kv alignment info : src.Run GgufContext) t1 = r →
      init src ⟨u, 0, size⟩ params = r.1 :=
    fun heq => congrArg Prod.fst ((Machine.run_bind hc1).trans heq)
  have hr : ∀ {r}, (GgufReader.seekData header.nTensors alignment >>= fun _ =>
      readSection params header kv alignment info : Gguf.Read GgufContext) s1 bs1 = r →
      ((initFromReader params : Gguf.Read GgufContext) data data).result = r.result :=
    fun heq => congrArg Outcome.result ((Reader.run_bind hr1).trans heq)
  obtain ⟨⟨⟩, t2, s2, bs2, hc2, hr2, hat2⟩ | ⟨hr2, hc2⟩ :=
    seekData_spec hsize hlt hat1 header.nTensors alignment
  · rw [hc (Machine.run_bind hc2), hr (Reader.run_bind hr2)]
    obtain ⟨ctx, t3, s3, bs3, hc3, hr3, -⟩ | ⟨hc3, hr3⟩ :=
      same_readSection h hsize hlt params header kv alignment info t2 s2 bs2 hat2
    · exact .inl ⟨ctx, congrArg Prod.fst hc3, congrArg Outcome.result hr3⟩
    · exact .inr ⟨hr3, .inl hc3⟩
  · rw [hr rfl]
    refine .inr ⟨Reader.thrown_bind _ hr2, ?_⟩
    obtain hc2 | ⟨t2, hc2, hpast, hle⟩ := hc2
    · rw [hc rfl]
      exact .inl (Machine.thrown_bind _ hc2)
    · rw [hc (Machine.run_bind hc2)]
      obtain ⟨ctx, t3, hc3, hctx⟩ | hc3 :=
        returns_readSection h hsize hlt params header kv alignment info t2 hpast
      · exact .inr ⟨ctx, congrArg Prod.fst hc3, hctx⟩
      · exact .inl hc3

end Reading

/-! ## The three ways to read a file -/

/-- With the size as the bound, a source has the result of the bytes. -/
lemma init_eq_reader {src : GgufSource σ} {u : σ} (h : Faithful src.callback data u)
    (hlt : data.length < 2 ^ 64) (params : GgufInitParams) :
    init src ⟨u, 0, data.length⟩ params = (Gguf.initFromReader params data data).result := by
  obtain ⟨I, hu, h⟩ := h
  obtain ⟨ctx, hc, hr⟩ | ⟨hr, hc | ⟨ctx, -, hpast, hle, -⟩⟩ :=
    init_eq_or_pastEnd h (Nat.le_refl _) hlt params hu
  · rw [hc, hr]
  · rw [hc, hr]
  · omega

lemma initFromReader_nil (params : GgufInitParams) :
    (Gguf.initFromReader params [] []).result = .thrown := rfl

/-- **`gguf_init_from_buffer`** is a reader of the bytes of the buffer. -/
theorem initFromBuffer_eq (hlt : data.length < 2 ^ 64) (params : GgufInitParams) :
    initFromBuffer data params = (Gguf.initFromReader params data data).result := by
  rw [initFromBuffer]
  split
  · next hnil =>
    rw [length_eq_zero_iff.mp hnil, initFromReader_nil]
  · exact init_eq_reader (faithful_bufferCallback data) hlt params

/-- What `Gguf.initFromBuffer` says. -/
lemma initFromBuffer_eq_some_iff (hlt : data.length < 2 ^ 64) (params : GgufInitParams)
    (ctx : GgufContext) :
    initFromBuffer data params = .ok ctx ↔ Gguf.initFromBuffer data params = some ctx := by
  have hvalue : (Gguf.initFromReader params).value data data = some ctx ↔
      (Gguf.initFromReader params data data).result = .ok ctx := by
    unfold Reader.value
    split <;> simp_all
  rw [initFromBuffer_eq hlt, Gguf.initFromBuffer, ← hvalue]
  split
  · next hnil =>
    subst hnil
    exact Iff.rfl
  · exact Iff.rfl

/-- The results of the three ways to read a file whose size is at most `size`. -/
structure SameResult (buffer file callback : Reader.Result GgufContext) (data : List UInt8)
    (size : ℕ) : Prop where
  file : file = buffer
  bound : size = data.length → callback = buffer
  callback : callback = buffer ∨
    buffer = .thrown ∧ ∃ ctx, callback = .ok ctx ∧ PastContext data size ctx

/-- **A file is the same from memory, from a file and through a callback**, however large the chunks
are.  When the bound on the size is not the size, the callback reader may accept a file that ends
before its data section starts, of which no data is read. -/
theorem init_sources {data : List UInt8} (hfile : (data.length : ℤ) ≤ int64Max)
    {callback : GgufCallback σ} {u : σ} (h : Faithful callback data u) {maxExpectedSize : ℕ}
    (hsize : data.length ≤ maxExpectedSize) (hlt : maxExpectedSize < 2 ^ 64) (maxChunkRead : ℕ)
    (params : GgufInitParams) :
    SameResult (initFromBuffer data params) (initFromFile data params)
      (initFromCallback (some callback) u maxChunkRead maxExpectedSize params) data
      maxExpectedSize := by
  obtain ⟨n, hn, hcall⟩ : ∃ n, ∃ hn : 0 < n,
      initFromCallback (some callback) u maxChunkRead maxExpectedSize params =
        init ⟨callback, n, hn⟩ ⟨u, 0, maxExpectedSize⟩ params := by
    by_cases hpos : 0 < maxChunkRead
    · exact ⟨maxChunkRead, hpos, dif_pos hpos⟩
    · exact ⟨sizeMax, sizeMax_pos, dif_neg hpos⟩
  have hbuffer := initFromBuffer_eq (hsize.trans_lt hlt) params
  refine ⟨?_, ?_, ?_⟩
  · rw [hbuffer]
    exact init_eq_reader (faithful_fileCallback hfile 0) (hsize.trans_lt hlt) params
  · rintro rfl
    rw [hcall, hbuffer]
    exact init_eq_reader (show Faithful (GgufSource.mk callback n hn).callback data u from h) hlt params
  · obtain ⟨I, hu, h⟩ := h
    rw [hcall, hbuffer]
    obtain ⟨ctx, hc, hr⟩ | ⟨hr, hc | hc⟩ :=
      init_eq_or_pastEnd (show Reads (GgufSource.mk callback n hn).callback data I from h) hsize hlt
        params hu
    · exact .inl (hc.trans hr.symm)
    · exact .inl (hc.trans hr.symm)
    · exact .inr ⟨hr, hc⟩

/-- A file of one empty tensor info, which ends before the data section. -/
def unpadded : List UInt8 :=
  Gguf.magic ++ [3, 0, 0, 0, 1, 0, 0, 0, 0, 0, 0, 0, 0, 0, 0, 0, 0, 0, 0, 0, 1, 0, 0, 0, 0, 0, 0, 0,
    97, 0, 0, 0, 0, 0, 0, 0, 0, 0, 0, 0, 0, 0, 0, 0, 0]

/-- With a bound of four gigabytes it is accepted through a callback, but not from memory. -/
theorem initFromCallback_unpadded : Faithful (bufferCallback unpadded) unpadded () ∧
    initFromCallback (some (bufferCallback unpadded)) () 4096 (2 ^ 32) .noCtx ≠
      initFromBuffer unpadded .noCtx := by
  refine ⟨faithful_bufferCallback unpadded, fun heq => ?_⟩
  have hcallback : (initFromCallback (some (bufferCallback unpadded)) () 4096 (2 ^ 32)
      .noCtx).isOk = true := by decide +kernel
  have hbuffer : (initFromBuffer unpadded .noCtx).isOk = false := by decide +kernel
  rw [heq, hbuffer] at hcallback
  cases hcallback

/-- Its three results. -/
theorem init_sources_unpadded : SameResult (initFromBuffer unpadded .noCtx)
    (initFromFile unpadded .noCtx)
    (initFromCallback (some (bufferCallback unpadded)) () 4096 (2 ^ 32) .noCtx) unpadded (2 ^ 32) :=
  init_sources (by decide) (faithful_bufferCallback unpadded) (by decide) (by decide) 4096 .noCtx

end GgufSource
end Llama
