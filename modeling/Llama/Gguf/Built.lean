import Llama.Gguf.Build
import Llama.Gguf.Numbers
import Llama.Lib.Run
import Mathlib.Data.List.Nodup
import Mathlib.Data.List.TakeWhile

/-!
# The contexts that can be built

Whatever is called in whatever order, the keys of a context are distinct and not empty, each pair
holds as many bytes as its type takes, the names of the tensors are distinct and fit, and each
tensor lies behind the one before it.  The alignment of the context is never changed, also when
the key `general.alignment` is set.
-/

namespace Llama

open List Option

@[simp] lemma cStr_cStr (s : List UInt8) : cStr (cStr s) = cStr s := takeWhile_idem

/-- The values of a pair fit its type. -/
structure GgufKv.WellFormed (kv : GgufKv) : Prop where
  type_ne : kv.type ≠ .array
  strings : kv.type = .string → kv.data = [] ∧ (kv.isArray = false → kv.dataString.length = 1)
  scalars : kv.type ≠ .string → kv.dataString = [] ∧ kv.data.length % kv.type.size = 0 ∧
    (kv.isArray = false → kv.data.length = kv.type.size)
  bools : kv.type = .bool → ∀ b ∈ kv.data, b = 0 ∨ b = 1

lemma GgufType.size_pos {t : GgufType} (hs : t ≠ .string) (ha : t ≠ .array) : 0 < t.size := by
  cases t <;> first | decide | contradiction

/-- A pair of a context that was built. -/
structure GgufKv.Settable (kv : GgufKv) : Prop extends kv.WellFormed where
  key_ne : kv.key ≠ []
  key_cStr : cStr kv.key = kv.key
  alignment : kv.key = Gguf.keyAlignment → kv.isArray = false ∧ kv.type = .uint32 ∧
    0 < Bytes.toNat kv.data ∧ Bytes.toNat kv.data &&& (Bytes.toNat kv.data - 1) = 0

namespace GgufContext

variable {ctx ctx' src : GgufContext} {key val : List UInt8} {kv : GgufKv} {type : GgufType}

/-- From `size` on each tensor lies where `next` says, behind the one before it. -/
def Offsets (next : GgufTensor → ℕ) : ℕ → List GgufTensor → Prop
  | _, [] => True
  | size, t :: ts => t.offset = size ∧ Offsets next (next t) ts

/-- A tensor that can be in a context: its name is a C string that fits, and its dimensions are
of type `int64_t`. -/
structure Named (t : GgufTensor) : Prop where
  name_cStr : cStr t.name = t.name
  name_lt : t.name.length < Gguf.maxName
  ne0 : Bytes.IsInt64 t.ne0
  ne1 : Bytes.IsInt64 t.ne1
  ne2 : Bytes.IsInt64 t.ne2
  ne3 : Bytes.IsInt64 t.ne3
  offset_lt : t.offset < 2 ^ 64

/-- The invariant of the contexts that are built. -/
structure Built (ctx : GgufContext) : Prop where
  version : ctx.version = Gguf.ggufVersion
  alignment : ctx.alignment = Gguf.defaultAlignment
  kv : ∀ kv ∈ ctx.kv, kv.Settable
  keys : (ctx.kv.map GgufKv.key).Nodup
  info : ∀ t ∈ ctx.info, Named t
  names : (ctx.info.map GgufTensor.name).Nodup
  offsets : Offsets (nextOffset Gguf.defaultAlignment) 0 ctx.info

lemma built_empty : empty.Built where
  version := rfl
  alignment := rfl
  kv := fun _ h => absurd h not_mem_nil
  keys := nodup_nil
  info := fun _ h => absurd h not_mem_nil
  names := nodup_nil
  offsets := trivial

/-! ## The setters -/

/-- No pair with a key is left when the first one is removed. -/
lemma not_mem_eraseP_key : ∀ {kvs : List GgufKv} {key : List UInt8}, (kvs.map GgufKv.key).Nodup →
    (∀ kv ∈ kvs, cStr kv.key = kv.key) → cStr key = key →
    key ∉ (kvs.eraseP fun kv => cStr key = cStr kv.key).map GgufKv.key
  | [], _, _, _, _ => not_mem_nil
  | kv :: kvs, key, hnd, hall, hkey => by
    obtain ⟨hkv, htail⟩ := forall_mem_cons.mp hall
    rw [map_cons, nodup_cons] at hnd
    rw [eraseP_cons]
    by_cases heq : key = kv.key
    · rw [heq] at hkey ⊢
      simpa using hnd.1
    · have hne : ¬ cStr key = cStr kv.key := by rwa [hkey, hkv]
      have hrest := not_mem_eraseP_key hnd.2 htail hkey
      simp only [hne, decide_false, map_cons, mem_cons, cond_false, not_or]
      exact ⟨heq, hrest⟩

lemma Built.putKv (h : ctx.Built) (hkv : kv.key ≠ [] → kv.Settable)
    (hput : ctx.putKv kv = some ctx') : ctx'.Built := by
  unfold GgufContext.putKv at hput
  split at hput
  · cases hput
  next hne =>
  cases hput
  have hset := hkv hne
  have hold : ∀ kv' ∈ (ctx.removeKey kv.key).kv, kv' ∈ ctx.kv := fun kv' hm =>
    mem_of_mem_eraseP hm
  refine ⟨h.version, h.alignment, fun kv' hkv' => ?_, ?_, h.info, h.names, h.offsets⟩
  · rcases mem_append.mp hkv' with hkv' | hkv'
    · exact h.kv kv' (hold kv' hkv')
    · rw [mem_singleton.mp hkv']
      exact hset
  · rw [map_append, nodup_append]
    refine ⟨h.keys.sublist (eraseP_sublist.map _), nodup_singleton _, ?_⟩
    intro a ha b hb heq
    rw [map_cons, map_nil, mem_singleton] at hb
    have hnot := not_mem_eraseP_key h.keys (fun kv' hkv' => (h.kv kv' hkv').key_cStr) hset.key_cStr
    rw [heq, hb] at ha
    exact hnot ha

lemma Built.setVal (h : ctx.Built) (hs : type ≠ .string) (ha : type ≠ .array)
    (hlen : val.length = type.size) (hbool : type = .bool → ∀ b ∈ val, b = 0 ∨ b = 1)
    (hset : ctx.setVal type key val = some ctx') : ctx'.Built := by
  unfold GgufContext.setVal at hset
  by_cases hres : checkReservedKeys (cStr key) (if type = .uint32 then some val else none)
  · rw [if_pos hres] at hset
    refine h.putKv (fun hne => ?_) hset
    refine ⟨⟨ha, fun ht => absurd ht hs, fun _ => ⟨rfl, ?_, fun _ => hlen⟩, hbool⟩, hne,
      cStr_cStr key, fun hkey => ?_⟩
    · simp only [hlen, Nat.mod_self]
    · obtain ⟨bs, hbs, hpos, hbits⟩ := hres hkey
      split at hbs
      · next ht =>
        cases hbs
        exact ⟨rfl, ht, hpos, hbits⟩
      · cases hbs
  · rw [if_neg hres] at hset
    cases hset

lemma Built.setValStr (h : ctx.Built) (hset : ctx.setValStr key val = some ctx') : ctx'.Built := by
  unfold GgufContext.setValStr at hset
  dsimp only at hset
  split at hset
  · next hres =>
    refine h.putKv (fun hne => ?_) hset
    refine ⟨⟨?_, fun _ => ⟨rfl, fun _ => rfl⟩, fun hs => absurd rfl hs, fun hb => by cases hb⟩, hne,
      cStr_cStr key, fun hkey => ?_⟩
    · exact GgufType.noConfusion
    · obtain ⟨bs, hbs, -⟩ := hres hkey
      cases hbs
  · cases hset

lemma Built.setArrStr {data : List (List UInt8)} (h : ctx.Built)
    (hset : ctx.setArrStr key data = some ctx') : ctx'.Built := by
  unfold GgufContext.setArrStr at hset
  dsimp only at hset
  split at hset
  · next hres =>
    refine h.putKv (fun hne => ?_) hset
    refine ⟨⟨?_, fun _ => ⟨rfl, fun hf => by cases hf⟩, fun hs => absurd rfl hs,
      fun hb => by cases hb⟩, hne, cStr_cStr key, fun hkey => ?_⟩
    · exact GgufType.noConfusion
    · obtain ⟨bs, hbs, -⟩ := hres hkey
      cases hbs
  · cases hset

lemma Built.setArrData {data : List UInt8} {n : ℕ} (h : ctx.Built)
    (hlen : n * type.size ≤ data.length) (hbool : type = .bool → ∀ b ∈ data, b = 0 ∨ b = 1)
    (hset : ctx.setArrData key type data n = some ctx') : ctx'.Built := by
  unfold GgufContext.setArrData at hset
  dsimp only at hset
  split at hset
  · next hres =>
    have hs : type ≠ .string := by
      rintro rfl
      exact hres.2 rfl
    have ha : type ≠ .array := by
      rintro rfl
      exact hres.2 rfl
    refine h.putKv (fun hne => ?_) hset
    refine ⟨⟨ha, fun ht => absurd ht hs, fun _ => ⟨rfl, ?_, fun hf => by cases hf⟩,
      fun hb b hmem => hbool hb b (mem_of_mem_take hmem)⟩, hne, cStr_cStr key, fun hkey => ?_⟩
    · simp only [length_take, Nat.min_eq_left hlen, Nat.mul_mod_left]
    · obtain ⟨bs, hbs, -⟩ := hres.1 hkey
      cases hbs
  · cases hset

/-- Each single value has the setter of its type. -/
lemma setScalar_eq (hs : type ≠ .string) (ha : type ≠ .array) :
    ctx.setScalar key val type = ctx.setVal type key val := by
  cases type <;> first | rfl | contradiction

lemma Built.setScalar (h : ctx.Built) (hlen : val.length = type.size)
    (hbool : type = .bool → ∀ b ∈ val, b = 0 ∨ b = 1)
    (hset : ctx.setScalar key val type = some ctx') : ctx'.Built := by
  by_cases hs : type = .string
  · subst hs
    cases hset
  by_cases ha : type = .array
  · subst ha
    cases hset
  rw [setScalar_eq hs ha] at hset
  exact h.setVal hs ha hlen hbool hset

lemma Built.setKvOne (h : ctx.Built) (hkv : kv.WellFormed)
    (hset : ctx.setKvOne kv = some ctx') : ctx'.Built := by
  unfold GgufContext.setKvOne at hset
  split at hset
  · obtain ⟨ne, hne, hset⟩ := bind_eq_some_iff.mp hset
    split at hset
    · exact h.setArrStr hset
    · cases hset
    · next hs _ =>
      unfold GgufKv.getNe at hne
      rw [if_neg hs] at hne
      split at hne
      · cases hne
        refine h.setArrData ?_ (fun hb => hkv.bools hb) hset
        exact Nat.div_mul_le_self _ _
      · cases hne
  · next harr =>
    split at hset
    · obtain ⟨val, -, hset⟩ := bind_eq_some_iff.mp hset
      exact h.setValStr hset
    · next hs =>
      have hlen := (hkv.scalars hs).2.2 (by simpa using harr)
      exact h.setScalar hlen hkv.bools hset

lemma Built.setKv (h : ctx.Built) (hsrc : ∀ kv ∈ src.kv, kv.WellFormed)
    (hset : ctx.setKv src = some ctx') : ctx'.Built := by
  unfold GgufContext.setKv at hset
  generalize src.kv = kvs at hsrc hset
  induction kvs generalizing ctx with
  | nil =>
    cases hset
    exact h
  | cons kv kvs ih =>
    rw [foldlM_cons] at hset
    obtain ⟨ctx1, h1, hset⟩ := bind_eq_some_iff.mp hset
    obtain ⟨hkv, hkvs⟩ := forall_mem_cons.mp hsrc
    exact ih (h.setKvOne hkv h1) hkvs hset

/-! ## Adding and changing tensors -/

lemma nextOffset_lt {n : ℕ} {t : GgufTensor} : nextOffset n t < 2 ^ 64 := by
  exact Nat.mod_lt _ (Nat.two_pow_pos 64)

section Offsets

variable {next : GgufTensor → ℕ} {t : GgufTensor} {pre post : List GgufTensor} {size : ℕ}

lemma offsets_concat {ts : List GgufTensor} (h : Offsets next size ts)
    (ht : t.offset = (ts.getLast?.map next).getD size) : Offsets next size (ts ++ [t]) := by
  induction ts generalizing size with
  | nil => exact ⟨ht, trivial⟩
  | cons t0 ts ih =>
    refine ⟨h.1, ih h.2 ?_⟩
    cases ts with
    | nil => exact ht
    | cons t1 ts =>
      exact ht

lemma Offsets.split (h : Offsets next size (pre ++ t :: post)) {t' : GgufTensor}
    {post' : List GgufTensor} (ht : t'.offset = t.offset) (hpost : Offsets next (next t') post') :
    Offsets next size (pre ++ t' :: post') := by
  induction pre generalizing size with
  | nil => exact ⟨ht.trans h.1, hpost⟩
  | cons p pre ih => exact ⟨h.1, ih h.2⟩

lemma Offsets.tail (h : Offsets next size (pre ++ t :: post)) : Offsets next (next t) post := by
  induction pre generalizing size with
  | nil => exact h.2
  | cons p pre ih => exact ih h.2

end Offsets

lemma Built.addTensor {t : GgufTensor} (h : ctx.Built) (ht : Named { t with offset := 0 })
    (hadd : ctx.addTensor t = some ctx') : ctx'.Built := by
  unfold GgufContext.addTensor at hadd
  split at hadd
  · cases hadd
  next hnew =>
  cases hadd
  have hoff : (ctx.info.getLast?.map (nextOffset ctx.alignment)).getD 0 < 2 ^ 64 := by
    cases ctx.info.getLast? with
    | none =>
      rw [map_none, getD_none]
      exact Nat.two_pow_pos 64
    | some last =>
      rw [map_some, getD_some]
      exact nextOffset_lt
  refine ⟨h.version, h.alignment, h.kv, h.keys, fun t' ht' => ?_, ?_, ?_⟩
  · rcases mem_append.mp ht' with ht' | ht'
    · exact h.info t' ht'
    · rw [mem_singleton.mp ht']
      exact ⟨ht.name_cStr, ht.name_lt, ht.ne0, ht.ne1, ht.ne2, ht.ne3, hoff⟩
  · rw [map_append, nodup_append]
    refine ⟨h.names, nodup_singleton _, ?_⟩
    intro a ha b hb heq
    rw [map_cons, map_nil, mem_singleton] at hb
    obtain ⟨ti, hti, hname⟩ := mem_map.mp ha
    exact hnew ⟨ti, hti, by rw [hname, heq, hb]⟩
  · refine offsets_concat h.offsets ?_
    rw [← h.alignment]

lemma findTensor_eq {name : List UInt8} : ∀ {ts : List GgufTensor}
    {r : List GgufTensor × GgufTensor × List GgufTensor}, findTensor name ts = some r →
      ts = r.1 ++ r.2.1 :: r.2.2
  | t :: ts, r, h => by
    unfold findTensor at h
    split at h
    · cases h
      rfl
    · obtain ⟨r', hr', rfl⟩ := map_eq_some_iff.mp h
      rw [findTensor_eq hr']
      rfl

variable {post : List GgufTensor}

lemma offsets_updateOffsets {n : ℕ} {prev : GgufTensor} :
    Offsets (nextOffset n) (nextOffset n prev) (updateOffsets n prev post) := by
  induction post generalizing prev with
  | nil => exact trivial
  | cons t post ih => exact ⟨rfl, ih⟩

/-- The loop changes offsets only. -/
lemma mem_updateOffsets {n : ℕ} {prev t : GgufTensor} (h : t ∈ updateOffsets n prev post) :
    ∃ t0 ∈ post, ∃ p, t = { t0 with offset := nextOffset n p } := by
  induction post generalizing prev with
  | nil => exact absurd h not_mem_nil
  | cons t0 post ih =>
    rcases mem_cons.mp h with rfl | h
    · exact ⟨t0, mem_cons_self, prev, rfl⟩
    · obtain ⟨t1, h1, p, heq⟩ := ih h
      exact ⟨t1, mem_cons_of_mem _ h1, p, heq⟩

lemma map_name_updateOffsets {n : ℕ} {prev : GgufTensor} :
    (updateOffsets n prev post).map GgufTensor.name = post.map GgufTensor.name := by
  induction post generalizing prev with
  | nil => rfl
  | cons t post ih =>
    rw [updateOffsets, map_cons, map_cons, ih]

lemma Built.setTensorType {name : List UInt8} {type : GgmlType} (h : ctx.Built)
    (hset : ctx.setTensorType name type = some ctx') : ctx'.Built := by
  obtain ⟨r, hr, hset⟩ := bind_eq_some_iff.mp hset
  obtain ⟨pre, t, post⟩ := r
  have hinfo : ctx.info = pre ++ t :: post := findTensor_eq hr
  dsimp only at hset
  split at hset
  · cases hset
  cases hset
  have hpre : ∀ t' ∈ pre, Named t' := fun t' ht' => h.info t' (by simp [hinfo, ht'])
  have ht : Named t := h.info t (by simp [hinfo])
  have hpost : ∀ t' ∈ post, Named t' := fun t' ht' => h.info t' (by simp [hinfo, ht'])
  refine ⟨h.version, h.alignment, h.kv, h.keys, fun t' ht' => ?_, ?_, ?_⟩
  · rcases mem_append.mp ht' with ht' | ht'
    · exact hpre t' ht'
    rcases mem_cons.mp ht' with rfl | ht'
    · exact ⟨ht.name_cStr, ht.name_lt, ht.ne0, ht.ne1, ht.ne2, ht.ne3, ht.offset_lt⟩
    · obtain ⟨t0, h0, p, rfl⟩ := mem_updateOffsets ht'
      have hn := hpost t0 h0
      exact ⟨hn.name_cStr, hn.name_lt, hn.ne0, hn.ne1, hn.ne2, hn.ne3, nextOffset_lt⟩
  · have hnames := h.names
    rw [hinfo, map_append] at hnames
    rw [map_append, map_cons, map_name_updateOffsets]
    exact hnames
  · have hoff := h.offsets
    rw [hinfo] at hoff
    rw [h.alignment]
    exact hoff.split rfl offsets_updateOffsets

lemma Built.setTensorData {name : List UInt8} {data : Option (List UInt8)} (h : ctx.Built)
    (hset : ctx.setTensorData name data = some ctx') : ctx'.Built := by
  obtain ⟨r, hr, hset⟩ := bind_eq_some_iff.mp hset
  obtain ⟨pre, t, post⟩ := r
  have hinfo : ctx.info = pre ++ t :: post := findTensor_eq hr
  cases hset
  have ht : Named t := h.info t (by simp [hinfo])
  refine ⟨h.version, h.alignment, h.kv, h.keys, fun t' ht' => ?_, ?_, ?_⟩
  · rcases mem_append.mp ht' with ht' | ht'
    · exact h.info t' (by simp [hinfo, ht'])
    rcases mem_cons.mp ht' with rfl | ht'
    · exact ⟨ht.name_cStr, ht.name_lt, ht.ne0, ht.ne1, ht.ne2, ht.ne3, ht.offset_lt⟩
    · exact h.info t' (by simp [hinfo, ht'])
  · have hnames := h.names
    rw [hinfo, map_append] at hnames
    rw [map_append]
    exact hnames
  · have hoff := h.offsets
    rw [hinfo] at hoff
    exact hoff.split rfl hoff.tail

end GgufContext

/-- The calls that build a context. -/
inductive GgufOp
  | setScalar (key val : List UInt8) (type : GgufType)
  | setValStr (key val : List UInt8)
  | setArrData (key : List UInt8) (type : GgufType) (data : List UInt8) (n : ℕ)
  | setArrStr (key : List UInt8) (data : List (List UInt8))
  | setKv (src : GgufContext)
  | addTensor (t : GgufTensor)
  | setTensorType (name : List UInt8) (type : GgmlType)
  | setTensorData (name : List UInt8) (data : Option (List UInt8))

namespace GgufContext

variable {ctx : GgufContext}

/-- One call. -/
def apply (ctx : GgufContext) : GgufOp → Option GgufContext
  | .setScalar key val type => ctx.setScalar key val type
  | .setValStr key val => ctx.setValStr key val
  | .setArrData key type data n => ctx.setArrData key type data n
  | .setArrStr key data => ctx.setArrStr key data
  | .setKv src => ctx.setKv src
  | .addTensor t => ctx.addTensor t
  | .setTensorType name type => ctx.setTensorType name type
  | .setTensorData name data => ctx.setTensorData name data

/-- What the arguments of a call are: a value has the bytes of its type, an array has at least
the bytes that are copied, a `bool` is zero or one, the pairs of another context are well formed,
and a tensor has a name that fits and dimensions of type `int64_t`. -/
def Supported : GgufOp → Prop
  | .setScalar _ val type => val.length = type.size ∧ (type = .bool → ∀ b ∈ val, b = 0 ∨ b = 1)
  | .setValStr _ _ => True
  | .setArrData _ type data n =>
    n * type.size ≤ data.length ∧ (type = .bool → ∀ b ∈ data, b = 0 ∨ b = 1)
  | .setArrStr _ _ => True
  | .setKv src => ∀ kv ∈ src.kv, kv.WellFormed
  | .addTensor t => Named { t with offset := 0 }
  | .setTensorType _ _ => True
  | .setTensorData _ _ => True

/-- The contexts that are built by supported calls in any order. -/
abbrev Reachable (ctx : GgufContext) : Prop :=
  Run.Reachable apply (fun _ op => Supported op) empty ctx

/-- **The invariant of every context that is built.** -/
theorem built_of_reachable (h : ctx.Reachable) : ctx.Built := by
  refine h.invariant built_empty fun ctx op ctx' hb hs happly => ?_
  cases op with
  | setScalar key val type => exact hb.setScalar hs.1 hs.2 happly
  | setValStr key val => exact hb.setValStr happly
  | setArrData key type data n => exact hb.setArrData hs.1 hs.2 happly
  | setArrStr key data => exact hb.setArrStr happly
  | setKv src => exact hb.setKv hs happly
  | addTensor t => exact hb.addTensor hs happly
  | setTensorType name type => exact hb.setTensorType happly
  | setTensorData name data => exact hb.setTensorData happly

end GgufContext

end Llama
