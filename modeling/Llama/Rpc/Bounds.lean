import Llama.Rpc.Server

/-!
# Tensors and accesses stay in the buffers

`deserialize_tensor` compares the end of a tensor, which it computes with `ggml_nbytes`, with the
end of its buffer.  The size wraps, so that the check is exact for the tensors of less than
`2 ^ 64` bytes and for no others.

The commands that read and write compare again, with the size of the access; what they touch is in
the buffer for every record.
-/

namespace Llama.Rpc

open Outcome
open List hiding Vector

variable {hash : ℕ → ℕ}

/-- What the assertions say, in exact arithmetic. -/
lemma checked_iff {t : GgmlTensor Buffer ℕ} {b : Buffer} (hb : t.buffer = some b) :
    t.Checked ↔ b.base.toNat ≤ t.data.toNat ∧
      t.data.toNat + t.nbytes.toNat ≤ b.base.toNat + b.size.toNat := by
  have hfits := b.fits
  have hsize := t.nbytes.toNat_lt
  simp only [GgmlTensor.Checked, hb, Option.mem_def, Option.some.injEq, forall_eq',
    UInt64.le_iff_toNat_le, UInt64.toNat_add]
  omega

/-- **A tensor that was accepted lies in its buffer exactly when its size does not wrap.** -/
theorem inside_iff {t : GgmlTensor Buffer ℕ} {b : Buffer} (hn : t.Narrow) (hb : t.buffer = some b)
    (h : t.Checked) : t.Inside b ↔ t.extent < 2 ^ 64 := by
  obtain ⟨hlo, hhi⟩ := (checked_iff hb).mp h
  have hfits := b.fits
  constructor
  · rintro ⟨-, hend⟩
    omega
  · intro hlt
    rw [hn.toNat_nbytes, Nat.mod_eq_of_lt hlt] at hhi
    exact ⟨hlo, hhi⟩

/-- The place of a tensor that is in a buffer. -/
lemma checked_place {buffers : List Buffer} {t : RpcTensor} {r : GgmlTensor Buffer ℕ}
    {b : Buffer} (h : deserializeTensor buffers t = .ok (some r)) (hb : r.buffer = some b) :
    b ∈ buffers ∧ b.base.toNat ≤ r.data.toNat ∧
      r.data.toNat + r.nbytes.toNat ≤ b.base.toNat + b.size.toNat := by
  obtain ⟨type, -, -, htensor, hchecked⟩ := deserializeTensor_eq_some h
  refine ⟨?_, (checked_iff hb).mp hchecked⟩
  rw [htensor] at hb
  exact mem_of_buffer hb

/-! ## Accesses -/

/-- The bytes of an access are in a buffer. -/
def Access.Within (a : Access) (b : Buffer) : Prop :=
  b.base.toNat ≤ a.lo.toNat ∧ a.lo.toNat + a.size.toNat ≤ b.base.toNat + b.size.toNat

lemma Buffer.toNat_end (b : Buffer) : (b.base + b.size).toNat = b.base.toNat + b.size.toNat := by
  have hfits := b.fits
  rw [UInt64.toNat_add, Nat.mod_eq_of_lt (by omega)]

namespace Server

variable {s : Server}

variable {t : RpcTensor} {offset size : UInt64} {r : Reply}

lemma bufferedTensor_eq_ok {r : GgmlTensor Buffer ℕ × Buffer} (h : s.bufferedTensor t = .ok r) :
    deserializeTensor s.buffers t = .ok (some r.1) ∧ r.1.buffer = some r.2 := by
  obtain ⟨o, ho, h⟩ := Outcome.bind_eq_ok.mp h
  cases o with
  | none => cases h
  | some r' =>
    cases hb : r'.buffer with
    | none =>
      simp only [hb] at h
      cases h
    | some b =>
      simp only [hb] at h
      cases h
      exact ⟨ho, hb⟩

/-- The buffer of a tensor and the place of its data in it. -/
lemma bufferedTensor_spec {r : GgmlTensor Buffer ℕ × Buffer} (h : s.bufferedTensor t = .ok r) :
    r.2 ∈ s.buffers ∧ r.1.data = t.data ∧ r.2.base.toNat ≤ t.data.toNat ∧
      t.data.toNat + r.1.nbytes.toNat ≤ r.2.base.toNat + r.2.size.toNat := by
  obtain ⟨hr, hb⟩ := bufferedTensor_eq_ok h
  obtain ⟨hmem, hlo, hhi⟩ := checked_place hr hb
  obtain ⟨type, -, -, htensor, -⟩ := deserializeTensor_eq_some hr
  have hdata : r.1.data = t.data := by
    rw [htensor]
    rfl
  rw [hdata] at hlo hhi
  exact ⟨hmem, hdata, hlo, hhi⟩

/-- An access to a tensor starts at the offset from its data. -/
lemma mem_tensorAccess {t : GgmlTensor Buffer ℕ} {l : List Access} {a : Access}
    (h : tensorAccess t offset size = .ok l) (ha : a ∈ l) :
    a = { lo := t.data + offset, size := size } ∧ offset + size ≤ t.nbytes := by
  unfold tensorAccess at h
  split at h
  · cases h
    cases ha
  · obtain ⟨-, h⟩ := require_bind_eq_ok.mp h
    obtain ⟨hsize, h⟩ := require_bind_eq_ok.mp h
    cases h
    exact ⟨mem_singleton.mp ha, hsize⟩

/-- What the check lets through is in the buffer, however the sums wrap. -/
lemma within_of_not_outOfBounds {data : UInt64} {b : Buffer}
    (h : ¬OutOfBounds data offset size b) :
    Access.Within { lo := data + offset, size := size } b := by
  simp only [OutOfBounds, not_or, UInt64.not_lt, UInt64.not_le] at h
  obtain ⟨hlo, hend, hsize⟩ := h
  have hsub : b.base + b.size - data - offset = b.base + b.size - (data + offset) := by grind
  rw [hsub, UInt64.le_iff_toNat_le, UInt64.toNat_sub_of_le _ _ (UInt64.le_of_lt hend),
    b.toNat_end] at hsize
  rw [UInt64.lt_iff_toNat_lt, b.toNat_end] at hend
  exact ⟨hlo, Nat.add_le_of_le_sub' hend.le hsize⟩

/-- A command leaves the server as it is, and its accesses are in buffers of the server. -/
structure Touches (s : Server) (r : Reply) : Prop where
  same : r.server = s
  within : ∀ a ∈ r.accesses, ∃ b ∈ s.buffers, a.Within b

lemma touches_done (s : Server) : s.Touches s.done :=
  ⟨rfl, fun _ ha => absurd ha not_mem_nil⟩

lemma regionAccess_touches (h : s.regionAccess t offset size = .ok r) : s.Touches r := by
  obtain ⟨tb, htb, h⟩ := Outcome.bind_eq_ok.mp h
  obtain ⟨hbounds, h⟩ := refuseIf_bind_eq_ok.mp h
  obtain ⟨l, hl, h⟩ := Outcome.bind_eq_ok.mp h
  cases h
  obtain ⟨hmem, hdata, -, -⟩ := bufferedTensor_spec htb
  refine ⟨rfl, fun a ha => ?_⟩
  obtain ⟨rfl, -⟩ := mem_tensorAccess hl ha
  rw [hdata]
  exact ⟨tb.2, hmem, within_of_not_outOfBounds hbounds⟩

lemma setTensor_touches {input : List UInt8} (h : s.setTensor input = .ok r) : s.Touches r := by
  obtain ⟨-, h⟩ := refuseIf_bind_eq_ok.mp h
  obtain ⟨t, -, h⟩ := Outcome.bind_eq_ok.mp h
  obtain ⟨offset, -, h⟩ := Outcome.bind_eq_ok.mp h
  exact regionAccess_touches h

lemma setTensorHash_touches {cached : Option UInt64}
    (h : s.setTensorHash t offset cached = .ok r) : s.Touches r := by
  cases cached with
  | none =>
    cases h
    exact touches_done s
  | some size => exact regionAccess_touches h

lemma memsetTensor_touches (h : s.memsetTensor t offset size = .ok r) : s.Touches r := by
  obtain ⟨tb, htb, h⟩ := Outcome.bind_eq_ok.mp h
  obtain ⟨-, h⟩ := refuseIf_bind_eq_ok.mp h
  obtain ⟨-, h⟩ := refuseIf_bind_eq_ok.mp h
  obtain ⟨hbounds, h⟩ := refuseIf_bind_eq_ok.mp h
  obtain ⟨-, h⟩ := refuseIf_bind_eq_ok.mp h
  obtain ⟨l, hl, h⟩ := Outcome.bind_eq_ok.mp h
  cases h
  obtain ⟨hmem, hdata, hlo, hhi⟩ := bufferedTensor_spec htb
  have hfits := tb.2.fits
  simp only [not_or, UInt64.not_lt] at hbounds
  obtain ⟨hplace, hoffset, hsize⟩ := hbounds
  -- the three differences do not wrap
  have hbase : tb.2.base ≤ t.data := UInt64.le_iff_toNat_le.mpr hlo
  rw [UInt64.le_iff_toNat_le, UInt64.toNat_sub_of_le _ _ hoffset,
    UInt64.toNat_sub_of_le _ _ hplace, UInt64.toNat_sub_of_le _ _ hbase] at hsize
  rw [UInt64.le_iff_toNat_le, UInt64.toNat_sub_of_le _ _ hplace,
    UInt64.toNat_sub_of_le _ _ hbase] at hoffset
  refine ⟨rfl, fun a ha => ?_⟩
  obtain ⟨rfl, -⟩ := mem_tensorAccess hl ha
  rw [hdata]
  have hlow : (t.data + offset).toNat = t.data.toNat + offset.toNat := by
    rw [UInt64.toNat_add, Nat.mod_eq_of_lt (by omega)]
  have hin : tb.2.base.toNat ≤ (t.data + offset).toNat ∧
      (t.data + offset).toNat + size.toNat ≤ tb.2.base.toNat + tb.2.size.toNat := by omega
  exact ⟨tb.2, hmem, hin⟩

lemma copyTensor_touches {src dst : RpcTensor} (h : s.copyTensor src dst = .ok r) :
    s.Touches r := by
  obtain ⟨rs, hrs, h⟩ := Outcome.bind_eq_ok.mp h
  obtain ⟨rd, hrd, h⟩ := Outcome.bind_eq_ok.mp h
  cases rs with
  | none => cases h
  | some ts => cases rd with
    | none => cases h
    | some td =>
      cases hbs : ts.buffer with
      | none =>
        simp only [hbs] at h
        cases h
      | some bs => cases hbd : td.buffer with
        | none =>
          simp only [hbs, hbd] at h
          cases h
        | some bd =>
          simp only [hbs, hbd] at h
          obtain ⟨hend, h⟩ := refuseIf_bind_eq_ok.mp h
          split at h
          · cases h
            exact touches_done s
          · cases h
            obtain ⟨hsmem, hslo, hshi⟩ := checked_place hrs hbs
            obtain ⟨hdmem, hdlo, hdhi⟩ := checked_place hrd hbd
            have hsfits := bs.fits
            have hdfits := bd.fits
            -- addresses in the lower half: the end of the write does not wrap
            rw [UInt64.not_lt, UInt64.le_iff_toNat_le, bd.toNat_end, UInt64.toNat_add,
              Nat.mod_eq_of_lt (by omega)] at hend
            refine ⟨rfl, fun a ha => ?_⟩
            rcases mem_pair.mp ha with rfl | rfl
            · exact ⟨bs, hsmem, hslo, hshi⟩
            · exact ⟨bd, hdmem, hdlo, hend⟩

lemma bufferClear_touches {remotePtr : UInt64} (h : s.bufferClear remotePtr = .ok r) :
    s.Touches r := by
  unfold bufferClear at h
  cases hb : s.findBuffer remotePtr with
  | none =>
    rw [hb] at h
    cases h
  | some b =>
    rw [hb] at h
    cases h
    refine ⟨rfl, fun a ha => ?_⟩
    cases mem_singleton.mp ha
    exact ⟨b, mem_of_find?_eq_some hb, Nat.le_refl _, Nat.le_refl _⟩

end Server

/-! ## Runs -/

/-- The commands that change neither the set of buffers nor the graphs. -/
def Cmd.Plain : Cmd → Prop
  | .allocBuffer _ _ _ => False
  | .freeBuffer _ => False
  | .graphCompute _ => False
  | _ => True

/-- The buffers that are allocated and not yet freed, after a command that is carried out. -/
def Cmd.track (live : List Buffer) : Cmd → List Buffer
  | .allocBuffer _ _ buffer => buffer.toList ++ live
  | .freeBuffer remotePtr => live.filter fun b => b.ptr ≠ remotePtr
  | _ => live

/-- The buffers that commands have allocated and not freed. -/
def live (cmds : List Cmd) : List Buffer := cmds.foldl Cmd.track []

namespace Server

variable {s s' : Server} {cmd : Cmd} {r : Reply}

/-- **What a command does that is carried out.** -/
theorem serve_cases (h : s.serve hash cmd = .ok r) : (cmd.Plain ∧ s.Touches r) ∨
    (∃ device size buffer, cmd = .allocBuffer device size buffer ∧
      r = { s with buffers := buffer.toList ++ s.buffers : Server }.done) ∨
    (∃ remotePtr, cmd = .freeBuffer remotePtr ∧
      r = { s with buffers := s.buffers.filter fun b => b.ptr ≠ remotePtr : Server }.done) ∨
    ∃ input, cmd = .graphCompute input ∧ s.graphCompute hash input = .ok r := by
  cases cmd with
  | hello => cases h
  | deviceCount =>
    cases h
    exact Or.inl ⟨trivial, touches_done s⟩
  | deviceQuery device =>
    obtain ⟨-, h⟩ := refuseIf_bind_eq_ok.mp h
    cases h
    exact Or.inl ⟨trivial, touches_done s⟩
  | allocBuffer device size buffer =>
    obtain ⟨-, h⟩ := refuseIf_bind_eq_ok.mp h
    cases h
    exact Or.inr (Or.inl ⟨device, size, buffer, rfl, rfl⟩)
  | bufferGetBase remotePtr =>
    obtain ⟨-, h⟩ := refuseIf_bind_eq_ok.mp h
    cases h
    exact Or.inl ⟨trivial, touches_done s⟩
  | freeBuffer remotePtr =>
    obtain ⟨-, h⟩ := refuseIf_bind_eq_ok.mp h
    cases h
    exact Or.inr (Or.inr (Or.inl ⟨remotePtr, rfl, rfl⟩))
  | bufferClear remotePtr => exact Or.inl ⟨trivial, bufferClear_touches h⟩
  | memsetTensor t offset size => exact Or.inl ⟨trivial, memsetTensor_touches h⟩
  | setTensor input => exact Or.inl ⟨trivial, setTensor_touches h⟩
  | setTensorHash t offset cached => exact Or.inl ⟨trivial, setTensorHash_touches h⟩
  | initTensor t =>
    obtain ⟨o, -, h⟩ := Outcome.bind_eq_ok.mp h
    obtain ⟨-, h⟩ := refuseIf_bind_eq_ok.mp h
    cases h
    exact Or.inl ⟨trivial, touches_done s⟩
  | getTensor t offset size => exact Or.inl ⟨trivial, regionAccess_touches h⟩
  | copyTensor src dst => exact Or.inl ⟨trivial, copyTensor_touches h⟩
  | getAllocSize device t srcs =>
    obtain ⟨-, h⟩ := refuseIf_bind_eq_ok.mp h
    obtain ⟨o, -, h⟩ := Outcome.bind_eq_ok.mp h
    obtain ⟨-, h⟩ := refuseIf_bind_eq_ok.mp h
    obtain ⟨l, -, h⟩ := Outcome.bind_eq_ok.mp h
    cases h
    exact Or.inl ⟨trivial, touches_done s⟩
  | graphCompute input => exact Or.inr (Or.inr (Or.inr ⟨input, rfl, h⟩))
  | graphRecompute device =>
    obtain ⟨-, h⟩ := refuseIf_bind_eq_ok.mp h
    cases hg : s.storedGraphs[device.toNat]?.join with
    | none =>
      simp only [hg] at h
      cases h
    | some stored =>
      simp only [hg] at h
      cases h
      exact Or.inl ⟨trivial, rfl, fun _ ha => absurd ha not_mem_nil⟩

lemma graphCompute_eq_ok {input : List UInt8} (h : s.graphCompute hash input = .ok r) :
    ∃ m g, parseGraph s.storedGraphs.length input = .ok m ∧
      r = { server := { s with storedGraphs := s.storedGraphs.set m.device.toNat (some g) }
            accesses := [], ran := some g } := by
  obtain ⟨m, hm, h⟩ := Outcome.bind_eq_ok.mp h
  obtain ⟨g, -, h⟩ := Outcome.bind_eq_ok.mp h
  cases h
  exact ⟨m, g, hm, rfl⟩

lemma track_of_plain (h : cmd.Plain) (l : List Buffer) : cmd.track l = l := by
  cases cmd <;> first | rfl | exact absurd h not_false

/-- What a command that is carried out does to the buffers. -/
lemma serve_spec (h : s.serve hash cmd = .ok r) :
    r.server.buffers = cmd.track s.buffers ∧ ∀ a ∈ r.accesses, ∃ b ∈ s.buffers, a.Within b := by
  rcases serve_cases h with ⟨hplain, ht⟩ | ⟨device, size, buffer, rfl, rfl⟩ |
    ⟨remotePtr, rfl, rfl⟩ | ⟨input, rfl, hg⟩
  · exact ⟨by rw [ht.same, track_of_plain hplain], ht.within⟩
  · exact ⟨rfl, fun _ ha => absurd ha not_mem_nil⟩
  · exact ⟨rfl, fun _ ha => absurd ha not_mem_nil⟩
  · obtain ⟨m, g, -, rfl⟩ := graphCompute_eq_ok hg
    exact ⟨rfl, fun _ ha => absurd ha not_mem_nil⟩

lemma step_buffers (h : s.step hash cmd = some s') : s'.buffers = cmd.track s.buffers := by
  obtain ⟨r, hr, rfl⟩ := Option.map_eq_some_iff.mp h
  exact (serve_spec (Outcome.toOption_eq_some.mp hr)).1

/-- The server has the buffers that are allocated and not freed. -/
lemma buffers_run {cmds : List Cmd} (h : cmds.foldlM (step hash) s = some s') :
    s'.buffers = cmds.foldl Cmd.track s.buffers := by
  induction cmds generalizing s with
  | nil =>
    cases h
    rfl
  | cons cmd cmds ih =>
    obtain ⟨s1, hstep, hrest⟩ := Option.bind_eq_some_iff.mp h
    rw [foldl_cons, ih hrest, step_buffers hstep]

/-- A buffer of 64 bytes. -/
def smallBuffer : Buffer :=
  { ptr := 16, base := 64, size := 64, ptr_ne := by decide, fits := by decide }

/-- A record in the small buffer. -/
def recordWith (ne nb : Vector UInt32 4) : RpcTensor :=
  { id := 1, type := 0, buffer := 16, ne := ne, nb := nb, op := 0
    opParams := Vector.replicate 16 0, flags := 0, src := Vector.replicate 10 0, viewSrc := 0
    viewOffs := 0, data := 64, name := Vector.replicate 64 0, useCount := 0 }

/-- The size of a tensor of `2 ^ 64 + 4` bytes wraps to four bytes. -/
def wrappingRecord : RpcTensor :=
  recordWith #v[2147483649, 2147483649, 2147483649, 2147483649]
    #v[2147483648, 2147483648, 2147483648, 2147483648]

end Server

end Llama.Rpc
