import Llama.Alloc.Runs
import Llama.Gallocr

/-!
# The memory of the allocated tensors

The tensors that are allocated at a point of the plan own disjoint places, and no byte of a
place is free: this is `Mem`.  It holds of any sizes, also of zero, as long as a padded size is
at most `SIZE_MAX / 2`.  `allocateNode_spec` says once what giving memory to a node can do (it
has memory already, it gets new memory, or it takes over the memory of one source) and
`freeNode_spec` what freeing does.

A view is never allocated, so that the branch that reuses the memory of a view is not taken.
-/

namespace Llama

open Extent Function

/-- The tensor is no view and has no memory of its own. -/
def Cgraph.Own (g : Cgraph) (t : ℕ) : Prop :=
  g.isView t = false ∧ (g.tensor t).data = 0 ∧ (g.tensor t).buffer = false

instance (g : Cgraph) (t : ℕ) : Decidable (g.Own t) := inferInstanceAs (Decidable (_ ∧ _ ∧ _))

/-- Bytes of a chunk of an allocator. -/
structure Place extends Region where
  buft : ℕ
  deriving DecidableEq, Repr

/-- No byte lies in both places. -/
def Place.Apart (p q : Place) : Prop := p.buft = q.buft → p.toRegion.Apart q.toRegion

lemma Place.Apart.symm {p q : Place} (h : p.Apart q) : q.Apart p := fun hb => (h hb.symm).symm

namespace Gallocr

variable {B : Bufts} {g : Cgraph} {s s' : Gallocr} {t u p : ℕ} {id : ℤ}

/-- The memory of a tensor, once it has been allocated. -/
def place (B : Bufts) (s : Gallocr) (t : ℕ) : Place where
  chunk := (s.hash t).addr.chunk
  offset := (s.hash t).addr.offset
  size := padUp (s.sizeOf B t) (B.alignment (B.buft (s.hash t).bufferId))
  buft := B.buft (s.hash t).bufferId

lemma place_congr (hid : (s'.hash u).bufferId = (s.hash u).bufferId)
    (haddr : (s'.hash u).addr = (s.hash u).addr) : s'.place B u = s.place B u := by
  simp only [place, sizeOf, hid, haddr]

/-- The alignments are positive and every padded size is at most `SIZE_MAX / 2`. -/
structure SizesFit (B : Bufts) (g : Cgraph) : Prop where
  alignment_pos : ∀ b, 0 < B.alignment b
  padded : ∀ b t, g.Own t → padUp (B.allocSize b t) (B.alignment b) ≤ sizeMax / 2

lemma SizesFit.lt (h : SizesFit B g) (b : ℕ) (ht : g.Own t) :
    padUp (B.allocSize b t) (B.alignment b) < 2 ^ 64 := by
  have hle := h.padded b t ht
  have hmax : sizeMax / 2 < 2 ^ 64 := by decide
  omega

lemma SizesFit.room (h : SizesFit B g) {a : DynTallocr} {b : ℕ} (ht : g.Own t)
    (ha : a.alignment = B.alignment b) : a.Room (B.allocSize b t) := by
  refine ⟨?_, fun _ _ => ?_⟩
  · rw [ha]
    exact h.lt b ht
  · rw [ha]
    exact h.padded b t ht

/-- The allocated tensors own disjoint places, and no byte of a place is free. -/
structure Mem (B : Bufts) (g : Cgraph) (s : Gallocr) : Prop where
  sound : ∀ b, (s.tallocs b).Sound
  alignment : ∀ b, (s.tallocs b).alignment = B.alignment b
  own : ∀ t, s.isOwn t = true → g.Own t
  apart : ∀ t u, s.isOwn t = true → s.isOwn u = true → t ≠ u → (s.place B t).Apart (s.place B u)
  free : ∀ t, s.isOwn t = true → Disjoint (s.place B t).extent.points
    (space ((s.tallocs (s.place B t).buft).blocksAt (s.place B t).chunk))
  inside : ∀ t, s.isOwn t = true →
    (s.place B t).chunk < (s.tallocs (s.place B t).buft).chunks.length ∧
      (s.place B t).offset + (s.place B t).size < 2 ^ 64

lemma mem_start (h : SizesFit B g) : Mem B g (start B) where
  sound := fun b => DynTallocr.sound_new (h.alignment_pos b) _
  alignment := fun _ => rfl
  own := fun t ht => by simp [isOwn, start, HashNode.zero] at ht
  apart := fun t u ht => by simp [isOwn, start, HashNode.zero] at ht
  free := fun t ht => by simp [isOwn, start, HashNode.zero] at ht
  inside := fun t ht => by simp [isOwn, start, HashNode.zero] at ht

@[simp] lemma setHash_self (f : HashNode → HashNode) :
    (s.setHash t f).hash t = f (s.hash t) := update_self ..

lemma setHash_ne (f : HashNode → HashNode) (h : u ≠ t) : (s.setHash t f).hash u = s.hash u :=
  update_of_ne h ..

@[simp] lemma setTalloc_hash (a : DynTallocr) : (s.setTalloc B id a).hash = s.hash := rfl

/-- The counters are not read. -/
lemma Mem.congr (h : Mem B g s) (htallocs : s'.tallocs = s.tallocs)
    (hhash : ∀ u, (s'.hash u).allocated = (s.hash u).allocated ∧
      (s'.hash u).bufferId = (s.hash u).bufferId ∧ (s'.hash u).addr = (s.hash u).addr) :
    Mem B g s' := by
  have hown : ∀ u, s'.isOwn u = s.isOwn u := fun u => (hhash u).1
  have hplace : ∀ u, s'.place B u = s.place B u := fun u =>
    place_congr (hhash u).2.1 (hhash u).2.2
  constructor <;> simp only [htallocs, hown, hplace]
  · exact h.sound
  · exact h.alignment
  · exact h.own
  · exact h.apart
  · exact h.free
  · exact h.inside

/-- **One allocator and the place of one tensor change.** -/
theorem Mem.update (h : Mem B g s) {a' : DynTallocr} {b : ℕ} (hsound : a'.Sound)
    (halign : a'.alignment = B.alignment b)
    (hlen : (s.tallocs b).chunks.length ≤ a'.chunks.length)
    (htallocs : s'.tallocs = Function.update s.tallocs b a')
    (hold : ∀ u ≠ t, s'.isOwn u = true → s.isOwn u = true ∧ s'.place B u = s.place B u ∧
      (s'.place B t).Apart (s.place B u) ∧ ((s.place B u).buft = b →
        Disjoint (s.place B u).extent.points (space (a'.blocksAt (s.place B u).chunk))))
    (hnew : s'.isOwn t = true → g.Own t ∧ (s'.place B t).buft = b ∧
      Disjoint (s'.place B t).extent.points (space (a'.blocksAt (s'.place B t).chunk)) ∧
      (s'.place B t).chunk < a'.chunks.length ∧
      (s'.place B t).offset + (s'.place B t).size < 2 ^ 64) : Mem B g s' := by
  have htb : s'.tallocs b = a' := by rw [htallocs, update_self]
  have htne : ∀ b' ≠ b, s'.tallocs b' = s.tallocs b' := fun b' hne => by
    rw [htallocs, update_of_ne hne]
  refine ⟨fun b' => ?_, fun b' => ?_, fun u hu => ?_, fun u v hu hv huv => ?_, fun u hu => ?_,
    fun u hu => ?_⟩
  · by_cases hb' : b' = b
    · rwa [hb', htb]
    · rw [htne b' hb']
      exact h.sound b'
  · by_cases hb' : b' = b
    · rwa [hb', htb]
    · rw [htne b' hb', h.alignment]
  · by_cases hut : u = t
    · subst hut
      exact (hnew hu).1
    · exact h.own u (hold u hut hu).1
  · by_cases hut : u = t
    · subst hut
      obtain ⟨-, hpv, happ, -⟩ := hold v huv.symm hv
      rwa [hpv]
    · obtain ⟨hu', hpu, happ, -⟩ := hold u hut hu
      rw [hpu]
      by_cases hvt : v = t
      · subst hvt
        exact happ.symm
      · obtain ⟨hv', hpv, -⟩ := hold v hvt hv
        rw [hpv]
        exact h.apart u v hu' hv' huv
  · by_cases hut : u = t
    · subst hut
      obtain ⟨-, hb, hdis, -⟩ := hnew hu
      rwa [hb, htb]
    · obtain ⟨hu', hpu, -, hdis⟩ := hold u hut hu
      rw [hpu]
      by_cases hbu : (s.place B u).buft = b
      · rw [hbu, htb]
        exact hdis hbu
      · rw [htne _ hbu]
        exact h.free u hu'
  · by_cases hut : u = t
    · subst hut
      obtain ⟨-, hb, -, hin⟩ := hnew hu
      rwa [hb, htb]
    · obtain ⟨hu', hpu, -⟩ := hold u hut hu
      rw [hpu]
      obtain ⟨hlt, hbound⟩ := h.inside u hu'
      refine ⟨?_, hbound⟩
      by_cases hbu : (s.place B u).buft = b
      · rw [hbu] at hlt
        rw [hbu, htb]
        exact hlt.trans_le hlen
      · rwa [htne _ hbu]

/-- The tensor `t` gets new memory in buffer `id`. -/
lemma Mem.allocNew (h : Mem B g s) (hfit : SizesFit B g) (ht : g.Own t)
    {f : HashNode → HashNode} (hf : ∀ hn, (f hn).allocated = true)
    (hs : (s.setHash t f).allocNew B t id = some s') :
    Mem B g s' ∧ s'.isOwn t = true ∧ ∀ u ≠ t, s'.hash u = s.hash u := by
  obtain ⟨⟨addr, a'⟩, halloc, rfl⟩ := Option.map_eq_some_iff.mp hs
  set b := B.buft id with hb
  have ha := DynTallocr.alloc_spec (h.sound b) (hfit.room ht (h.alignment b)) halloc
  rw [h.alignment b] at ha
  set s' := (((s.setHash t f).setTalloc B id a').setHash t fun hn =>
    { hn with bufferId := id, addr := addr }) with hs'
  have hother : ∀ u ≠ t, s'.hash u = s.hash u := by
    intro u hu
    rw [setHash_ne _ hu, setTalloc_hash, setHash_ne _ hu]
  have hnew : s'.place B t =
      ⟨⟨addr.chunk, addr.offset, padUp (B.allocSize b t) (B.alignment b)⟩, b⟩ := by
    simp [place, sizeOf, hs', hb]
  refine ⟨?_, by simp [hs', isOwn, hf], hother⟩
  refine h.update (t := t) ha.sound (ha.alignment.trans (h.alignment b)) ha.length_le rfl
    (fun u hu huown => ?_) fun _ => ?_
  · rw [isOwn, hother u hu] at huown
    have hlt := (h.inside u huown).1
    have hdis := h.free u huown
    refine ⟨huown, place_congr (by rw [hother u hu]) (by rw [hother u hu]), ?_, fun hbu => ?_⟩
    · -- the new bytes were free, or lie in a new chunk, where no tensor is
      rw [hnew]
      intro hbuft hchunk
      rw [← hbuft, ← hchunk] at hlt hdis
      exact Set.disjoint_left.mpr fun x hx hxu =>
        Set.disjoint_left.mp hdis hxu (ha.was_free hlt x hx.1 hx.2)
    · rw [hbu] at hlt hdis
      exact hdis.mono_right fun x hx => (ha.free _ x hx).1 hlt
  · rw [hnew]
    exact ⟨ht, rfl, Set.disjoint_left.mpr fun x hx hfree => (ha.free _ x hfree).2 rfl hx,
      ha.chunk_lt, ha.bounded⟩

/-! ## Freeing -/

/-- The tensor `t` has the front of the memory that `p` had. -/
structure Front (B : Bufts) (s s' : Gallocr) (p t : ℕ) : Prop where
  buft : (s'.place B t).buft = (s.place B p).buft
  chunk : (s'.place B t).chunk = (s.place B p).chunk
  offset : (s'.place B t).offset = (s.place B p).offset
  size : (s'.place B t).size ≤ (s.place B p).size

lemma Front.sub (hfront : Front B s s' p t) :
    (s'.place B t).extent.points ⊆ (s.place B p).extent.points := by
  obtain ⟨-, -, ho, hle⟩ := hfront
  intro x hx
  simp only [Region.extent, mem_points, bytes_lo, bytes_hi] at hx ⊢
  omega

lemma Front.apart (hfront : Front B s s' p t) (h : (s.place B p).Apart (s.place B u)) :
    (s'.place B t).Apart (s.place B u) := fun hb hc =>
  (h (hfront.buft.symm.trans hb) (hfront.chunk.symm.trans hc)).mono_left hfront.sub

/-- The tensors other than `t` that are allocated were allocated before, at the same place. -/
def Kept (B : Bufts) (s s' : Gallocr) (p t : ℕ) : Prop :=
  ∀ u ≠ t, s'.isOwn u = true → u ≠ p ∧ s.isOwn u = true ∧ s'.place B u = s.place B u

/-- **The bytes of a tensor that is no longer allocated are freed**, or the tail of them when the
tensor `t` keeps the front. -/
theorem Mem.freeBytes (h : Mem B g s) {a' : DynTallocr} {addr : BufferAddress} {size b : ℕ}
    (hp : s.isOwn p = true) (hb : (s.place B p).buft = b)
    (hchunk : addr.chunk = (s.place B p).chunk)
    (hlo : (s.place B p).offset ≤ addr.offset)
    (hend : addr.offset + padUp size (B.alignment b) = (s.place B p).offset + (s.place B p).size)
    (hfree : (s.tallocs b).freeBytes addr size = some a')
    (htallocs : s'.tallocs = Function.update s.tallocs b a')
    (hkept : Kept B s s' p t) (hfront : Front B s s' p t)
    (hnew : s'.isOwn t = true → g.Own t ∧
      (s'.place B t).offset + (s'.place B t).size ≤ addr.offset) : Mem B g s' := by
  have hinside := h.inside p hp
  have hin : ∀ x, addr.offset ≤ x → x < addr.offset + padUp size (B.alignment b) →
      x ∈ (s.place B p).extent.points := by
    simp only [Region.extent, mem_points, bytes_lo, bytes_hi]
    omega
  have hd := h.free p hp
  rw [hb] at hd hinside
  have hf := DynTallocr.freeBytes_spec (h.sound b) (by rw [h.alignment b]; omega)
    (by rw [h.alignment b]; omega) (by
      rw [h.alignment b, hchunk]
      exact hd.mono_left fun x hx => hin x hx.1 hx.2) hfree
  rw [h.alignment b] at hf
  refine h.update (t := t) hf.sound (hf.alignment.trans (h.alignment b)) hf.length.ge htallocs
    (fun u hu huown => ?_) fun ht => ?_
  · obtain ⟨hup, hu', hpu⟩ := hkept u hu huown
    have happ := h.apart p u hp hu' hup.symm
    refine ⟨hu', hpu, hfront.apart happ, fun hbu => Set.disjoint_left.mpr fun x hx hx' => ?_⟩
    have hdis := h.free u hu'
    rw [hbu] at hdis
    rcases (hf.free _ x).mp hx' with hold | ⟨hc, hlo', hhi'⟩
    · exact Set.disjoint_left.mp hdis hx hold
    · exact Set.disjoint_left.mp (happ (hb.trans hbu.symm) (hchunk.symm.trans hc.symm))
        (hin x hlo' hhi') hx
  · obtain ⟨hown, hle⟩ := hnew ht
    obtain ⟨h1, h2, h3, h4⟩ := id hfront
    rw [h1, h2, hf.length]
    refine ⟨hown, hb, Set.disjoint_left.mpr fun x hx hx' => ?_, hinside.1, by omega⟩
    rcases (hf.free _ x).mp hx' with hold | ⟨-, hlo', -⟩
    · exact Set.disjoint_left.mp hd (hfront.sub hx) hold
    · simp only [Region.extent, mem_points, bytes_hi] at hx
      omega

/-- **Freeing a tensor that is allocated and no output.** -/
theorem freeNode_spec (h : Mem B g s) (hp : s.isOwn p = true)
    (hs : s.freeNode B g p = some s') :
    Mem B g s' ∧ (∀ u ≠ p, s'.hash u = s.hash u) ∧
      (s'.hash p).bufferId = (s.hash p).bufferId ∧ (s'.hash p).addr = (s.hash p).addr ∧
      (s'.hash p).nChildren = (s.hash p).nChildren ∧ (s'.hash p).nViews = (s.hash p).nViews ∧
      ((g.tensor p).output = true → s' = s) := by
  unfold freeNode at hs
  by_cases hout : (g.tensor p).output = true
  · rw [if_pos hout] at hs
    cases hs
    exact ⟨h, fun _ _ => rfl, rfl, rfl, rfl, rfl, fun _ => rfl⟩
  · rw [if_neg hout] at hs
    obtain ⟨a', hfree, rfl⟩ := Option.map_eq_some_iff.mp hs
    set s' := ((s.setTalloc B (s.hash p).bufferId a').setHash p fun hn =>
      { hn with allocated := false }) with hs'
    have hother : ∀ u ≠ p, s'.hash u = s.hash u := fun u hu => setHash_ne _ hu
    refine ⟨?_, hother, by simp [hs'], by simp [hs'], by simp [hs'], by simp [hs'],
      fun hcon => absurd hcon hout⟩
    have hself : s'.place B p = s.place B p := place_congr (by simp [hs']) (by simp [hs'])
    refine h.freeBytes (t := p) hp rfl rfl le_rfl rfl hfree rfl (fun u hup hu => ?_)
      (by constructor <;> rw [hself]) fun hu => by simp [hs', isOwn] at hu
    rw [isOwn, hother u hup] at hu
    exact ⟨hup, hu, place_congr (by rw [hother u hup]) (by rw [hother u hup])⟩

/-- The counters of all tensors are the same. -/
def SameCounters (s s' : Gallocr) : Prop :=
  ∀ u, (s'.hash u).nChildren = (s.hash u).nChildren ∧ (s'.hash u).nViews = (s.hash u).nViews

/-- No allocator changes. -/
lemma Mem.handOver (h : Mem B g s) (hp : s.isOwn p = true) (ht : g.Own t)
    (htallocs : s'.tallocs = s.tallocs) (hfront : Front B s s' p t) (hkept : Kept B s s' p t) :
    Mem B g s' := by
  set b := (s.place B p).buft with hb
  refine h.update (t := t) (b := b) (h.sound b) (h.alignment b) le_rfl (by simp [htallocs])
    (fun u hut hu => ?_) fun _ => ?_
  · obtain ⟨hup, hu', hpu⟩ := hkept u hut hu
    exact ⟨hu', hpu, hfront.apart (h.apart p u hp hu' hup.symm), fun hbu => hbu ▸ h.free u hu'⟩
  · obtain ⟨hlt, hle⟩ := h.inside p hp
    obtain ⟨h1, h2, h3, h4⟩ := id hfront
    rw [h1, h2]
    exact ⟨ht, rfl, (h.free p hp).mono_left hfront.sub, hlt, by omega⟩

/-- **A node takes over the memory of a source.**  The bytes that it does not need are freed. -/
theorem Mem.takeOver (h : Mem B g s) (hfit : SizesFit B g) (hp : s.isOwn p = true) (ht : g.Own t)
    (hpt : p ≠ t) {f : HashNode → HashNode} (hf : ∀ hn, (f hn).allocated = true ∧
      (f hn).nChildren = hn.nChildren ∧ (f hn).nViews = hn.nViews)
    (hs : ((s.setHash t f).takeOver t p).freeExtraSpace B t p = some s') :
    Mem B g s' ∧ SameCounters s s' ∧ s'.isOwn t = true ∧ s'.isOwn p = false ∧ Front B s s' p t ∧
      s'.place B p = s.place B p ∧ ∀ u, u ≠ t → u ≠ p → s'.hash u = s.hash u := by
  set s1 := (s.setHash t f).takeOver t p with hs1
  have hp1 : s1.hash p = { s.hash p with allocated := false } := by
    rw [hs1, Gallocr.takeOver, setHash_self, setHash_ne _ hpt, setHash_ne _ hpt]
  have ht1 : (s1.hash t).allocated = true ∧ (s1.hash t).bufferId = (s.hash p).bufferId ∧
      (s1.hash t).addr = (s.hash p).addr := by
    rw [hs1, Gallocr.takeOver, setHash_ne _ (Ne.symm hpt), setHash_self, setHash_self,
      setHash_ne _ hpt]
    exact ⟨(hf _).1, rfl, rfl⟩
  have hu1 : ∀ u, u ≠ t → u ≠ p → s1.hash u = s.hash u := by
    intro u hut hup
    rw [hs1, Gallocr.takeOver, setHash_ne _ hup, setHash_ne _ hut, setHash_ne _ hut]
  have hcounters : SameCounters s s1 := by
    intro u
    by_cases hup : u = p
    · rw [hup, hp1]
      exact ⟨rfl, rfl⟩
    · by_cases hut : u = t
      · rw [hut, hs1, Gallocr.takeOver, setHash_ne _ (Ne.symm hpt), setHash_self, setHash_self]
        exact (hf _).2
      · rw [hu1 u hut hup]
        exact ⟨rfl, rfl⟩
  have htallocs1 : s1.tallocs = s.tallocs := rfl
  -- the sizes before and after padding
  set b := B.buft (s.hash p).bufferId with hb
  have hpsize : s1.sizeOf B p = B.allocSize b p := by rw [sizeOf, hp1]
  have htsize : s1.sizeOf B t = B.allocSize b t := by rw [sizeOf, ht1.2.1]
  have hinside := (h.inside p hp).2
  have hpplace : s.place B p =
      ⟨⟨(s.hash p).addr.chunk, (s.hash p).addr.offset, padUp (B.allocSize b p) (B.alignment b)⟩, b⟩ := by
    simp [place, sizeOf, hb]
  rw [hpplace] at hinside
  have hk := hfit.alignment_pos b
  have htalloc : s1.talloc B (s1.hash p).bufferId = s.tallocs b := by
    rw [talloc, htallocs1, hp1]
  unfold freeExtraSpace at hs
  rw [hpsize, htsize] at hs
  by_cases hle : B.allocSize b t ≤ B.allocSize b p
  · rw [if_pos hle] at hs
    have hmono := padUp_mono hk hle
    have hptotal : padUp (B.allocSize b p) (B.alignment b) < 2 ^ 64 := by
      have hinside' : (s.hash p).addr.offset + padUp (B.allocSize b p) (B.alignment b) < 2 ^ 64 :=
        hinside
      omega
    simp only [htalloc, h.alignment b, alignedOffset_of_lt hptotal,
      alignedOffset_of_lt (hfit.lt b ht)] at hs
    -- the allocators are not read
    have hplaces : ∀ s2 : Gallocr, s2.hash = s1.hash → s2.place B t = ⟨⟨(s.hash p).addr.chunk,
        (s.hash p).addr.offset, padUp (B.allocSize b t) (B.alignment b)⟩, b⟩ ∧
        Front B s s2 p t ∧ Kept B s s2 p t ∧ s2.isOwn p = false ∧
        s2.place B p = s.place B p := by
      intro s2 hhash
      have htplace : s2.place B t = ⟨⟨(s.hash p).addr.chunk, (s.hash p).addr.offset,
          padUp (B.allocSize b t) (B.alignment b)⟩, b⟩ := by
        simp only [place, sizeOf, hhash, ht1.2.1, ht1.2.2, hb]
      have hpnot : s2.isOwn p = false := by simp [isOwn, hhash, hp1]
      refine ⟨htplace, ?_, fun u hut hu => ?_, hpnot,
        place_congr (by simp [hhash, hp1]) (by simp [hhash, hp1])⟩
      · constructor <;> rw [htplace, hpplace]
        exact hmono
      · have hup : u ≠ p := by
          rintro rfl
          simp [hpnot] at hu
        have hh : s2.hash u = s.hash u := by rw [hhash, hu1 u hut hup]
        exact ⟨hup, by rwa [isOwn, hh] at hu, place_congr (by rw [hh]) (by rw [hh])⟩
    by_cases hlt : padUp (B.allocSize b t) (B.alignment b) < padUp (B.allocSize b p) (B.alignment b)
    · rw [if_pos hlt] at hs
      obtain ⟨a', hfree, rfl⟩ := Option.map_eq_some_iff.mp hs
      have hadd : addSize (s1.hash p).addr.offset (padUp (B.allocSize b t) (B.alignment b)) =
          (s.hash p).addr.offset + padUp (B.allocSize b t) (B.alignment b) := by
        rw [hp1]
        exact addSize_of_lt (by simp only at hinside ⊢; omega)
      rw [hadd] at hfree
      obtain ⟨htplace, hfront, hkept, hpnot, hpsame⟩ :=
        hplaces (s1.setTalloc B (s1.hash p).bufferId a') rfl
      refine ⟨?_, hcounters, ht1.1, hpnot, hfront, hpsame, hu1⟩
      have hpad : padUp (padUp (B.allocSize b p) (B.alignment b) -
          padUp (B.allocSize b t) (B.alignment b)) (B.alignment b) =
          padUp (B.allocSize b p) (B.alignment b) - padUp (B.allocSize b t) (B.alignment b) :=
        padUp_of_dvd (Nat.dvd_sub (dvd_padUp _ hk) (dvd_padUp _ hk))
      refine h.freeBytes (b := b) hp (by rw [hpplace]) (by rw [hpplace, hp1])
        (by rw [hpplace]; exact Nat.le_add_right _ _) ?_ hfree ?_ hkept hfront fun _ => ?_
      · rw [hpplace]
        simp only
        omega
      · rw [setTalloc, htallocs1, hp1]
      · rw [htplace]
        exact ⟨ht, le_rfl⟩
    · rw [if_neg hlt, Option.some.injEq] at hs
      rw [← hs]
      obtain ⟨-, hfront, hkept, hpnot, hpsame⟩ := hplaces s1 rfl
      exact ⟨h.handOver hp ht htallocs1 hfront hkept, hcounters, ht1.1, hpnot, hfront, hpsame, hu1⟩
  · rw [if_neg hle] at hs
    cases hs

/-- What giving memory to the tensor `t` can do. -/
inductive Given (B : Bufts) (g : Cgraph) (s : Gallocr) (t : ℕ) (s' : Gallocr) : Prop
  /-- It has memory, or it is a view. -/
  | had (h : s.isOwn t = true ∨ ¬ g.Own t) (heq : s' = s)
  /-- It gets new memory. -/
  | new (hown : g.Own t) (hnot : s.isOwn t = false) (hself : s'.isOwn t = true)
      (hother : ∀ u ≠ t, s'.hash u = s.hash u)
  /-- It takes over the memory of the source `p`, which nobody else reads. -/
  | reused (p : ℕ) (hown : g.Own t) (hnot : s.isOwn t = false) (hself : s'.isOwn t = true)
      (hop : (g.tensor t).op.canInplace = true) (hsrc : p ∈ (g.tensor t).sources)
      (hlayout : (g.tensor t).sameLayout (g.tensor p) = true) (hpt : p ≠ t)
      (hp : s.isOwn p = true) (hp' : s'.isOwn p = false) (hout : g.outputOrView p = false)
      (hchildren : (s.hash p).nChildren = 1) (hviews : (s.hash p).nViews = 0)
      (hfront : Front B s s' p t) (hplace : s'.place B p = s.place B p)
      (hother : ∀ u, u ≠ t → u ≠ p → s'.hash u = s.hash u)

lemma reuseParent_spec (h : Mem B g s) (hfit : SizesFit B g) (ht : g.Own t)
    (hnot : s.isOwn t = false) (hop : (g.tensor t).op.canInplace = true)
    {f : HashNode → HashNode} (hf : ∀ hn, (f hn).allocated = true ∧
      (f hn).nChildren = hn.nChildren ∧ (f hn).nViews = hn.nViews) :
    ∀ srcs : List ℕ, (∀ p ∈ srcs, p ∈ (g.tensor t).sources ∧ p ≠ t) →
      (s.setHash t f).reuseParent B g t srcs = some (some s') →
      Mem B g s' ∧ SameCounters s s' ∧ Given B g s t s' := by
  intro srcs
  induction srcs with
  | nil =>
    intro _ hs
    simp [reuseParent] at hs
  | cons p rest ih =>
    intro hsrcs hs
    obtain ⟨hp, hrest⟩ := List.forall_mem_cons.mp hsrcs
    have hhash : (s.setHash t f).hash p = s.hash p := setHash_ne _ hp.2
    have howneq : (s.setHash t f).isOwn p = s.isOwn p := by rw [isOwn, isOwn, hhash]
    unfold reuseParent at hs
    simp only [howneq, hhash] at hs
    by_cases hcond : (s.isOwn p && !g.outputOrView p && (g.tensor t).sameLayout (g.tensor p) &&
        (decide ((s.hash p).nChildren = 1) && decide ((s.hash p).nViews = 0))) = true
    · rw [if_pos hcond] at hs
      simp only [Bool.and_eq_true, Bool.not_eq_true', decide_eq_true_eq] at hcond
      obtain ⟨⟨⟨hpown, hout⟩, hlayout⟩, hchildren, hviews⟩ := hcond
      have hview : (g.tensor p).viewSrc = none := by
        have hisView := (h.own p hpown).1
        simpa [Cgraph.isView] using hisView
      rw [hview] at hs
      obtain ⟨s2, hs2, heq⟩ := Option.map_eq_some_iff.mp hs
      cases heq
      obtain ⟨hmem, hcounters, hself, hpnot, hfront, hplace, hother⟩ :=
        h.takeOver hfit hpown ht hp.2 hf hs2
      exact ⟨hmem, hcounters, .reused p ht hnot hself hop hp.1 hlayout hp.2 hpown hpnot hout
        hchildren hviews hfront hplace hother⟩
    · rw [if_neg hcond] at hs
      exact ih hrest hs

/-- **Giving memory to a node**, which is not a source of its own. -/
theorem allocateNode_spec (h : Mem B g s) (hfit : SizesFit B g)
    (hself : (g.tensor t).op.canInplace = true → ∀ p ∈ (g.tensor t).sources, p ≠ t)
    (hs : s.allocateNode B g t id = some s') :
    Mem B g s' ∧ SameCounters s s' ∧ Given B g s t s' := by
  unfold allocateNode at hs
  by_cases hid : id < 0
  · rw [if_pos hid] at hs
    cases hs
  rw [if_neg hid] at hs
  by_cases hhad : (s.isAllocated g t || g.isView t) = true
  · rw [if_pos hhad, Option.some.injEq] at hs
    subst hs
    refine ⟨h, fun u => ⟨rfl, rfl⟩, .had ?_ rfl⟩
    simp only [isAllocated, Bool.or_eq_true, bne_iff_ne] at hhad
    rcases hhad with ((hdata | hbuf) | hown) | hview
    · exact Or.inr fun ht => hdata ht.2.1
    · exact Or.inr fun ht => by simp [ht.2.2] at hbuf
    · exact Or.inl hown
    · exact Or.inr fun ht => by simp [ht.1] at hview
  rw [if_neg hhad] at hs
  simp only [isAllocated, Bool.or_eq_true, bne_iff_ne, not_or, not_not, Bool.not_eq_true] at hhad
  obtain ⟨⟨⟨hdata, hbuf⟩, hnot⟩, hview⟩ := hhad
  have ht : g.Own t := ⟨hview, hdata, hbuf⟩
  set f : HashNode → HashNode := fun hn => { hn with allocated := true }
  have hf : ∀ hn, (f hn).allocated = true ∧ (f hn).nChildren = hn.nChildren ∧
      (f hn).nViews = hn.nViews := fun hn => ⟨rfl, rfl, rfl⟩
  have hnew : (s.setHash t f).allocNew B t id = some s' →
      Mem B g s' ∧ SameCounters s s' ∧ Given B g s t s' := by
    intro hs
    obtain ⟨hmem, hself, hother⟩ := h.allocNew hfit ht (fun hn => (hf hn).1) hs
    refine ⟨hmem, fun u => ?_, .new ht hnot hself hother⟩
    by_cases hut : u = t
    · obtain ⟨res, -, rfl⟩ := Option.map_eq_some_iff.mp hs
      subst hut
      simp [f]
    · rw [hother u hut]
      exact ⟨rfl, rfl⟩
  by_cases hop : (g.tensor t).op.canInplace = true
  · simp only [hop, if_true] at hs
    cases hreuse : (s.setHash t f).reuseParent B g t (g.tensor t).sources with
    | none =>
      rw [hreuse] at hs
      cases hs
    | some r =>
      rw [hreuse] at hs
      cases r with
      | some s2 =>
        simp only [Option.some.injEq] at hs
        subst hs
        exact reuseParent_spec h hfit ht hnot hop hf _ (fun p hp => ⟨hp, hself hop p hp⟩) hreuse
      | none => exact hnew hs
  · simp only [hop] at hs
    exact hnew hs

end Gallocr
end Llama
