import Llama.Lib.Run
import Mathlib.Data.List.Infix

/-!
# The buffer of a stream session

A session keeps the last bytes of a response.  The writer drops bytes from the front when the buffer
is full; offsets count from the first byte of the response, and so they stay what they are.

A reader copies what is behind its offset under the mutex and hands it out after it has released the
mutex: the writer may append and drop in between.  A handler reads one chunk with each call, and
calls again from the offset that its sink has moved.

All bytes that were appended, and what each reader was given, are recorded; the steps do not read
them.
-/

namespace Llama

open List

/-! ## The model -/

/-- `stream_session`, its buffer. -/
structure StreamBuffer where
  buffer : List UInt8
  prefixDropped : ℕ
  capBytes : ℕ
  done : Bool
  deriving DecidableEq, Repr

inductive StreamReadStatus
  | ok
  | offsetLost
  deriving DecidableEq, Repr

/-- What one round of `read_from` does. -/
inductive StreamRound
  | ret (status : StreamReadStatus)
  | chunk (bytes : List UInt8)
  | wait
  deriving DecidableEq, Repr

namespace StreamBuffer

/-- The constructor. -/
def new (maxBytes : ℕ) : StreamBuffer := ⟨[], 0, maxBytes, false⟩

def append (s : StreamBuffer) (data : List UInt8) : Bool × StreamBuffer :=
  if data.length = 0 then (true, s)
  else if s.done then (false, s)
  else if data.length ≥ s.capBytes then
    -- single chunk bigger than the cap, keep only the tail that fits
    let skip := data.length - s.capBytes
    (true, { s with
      prefixDropped := s.prefixDropped + (s.buffer.length + skip)
      buffer := data.drop skip })
  else
    let needed := s.buffer.length + data.length
    if needed > s.capBytes then
      let toDrop := needed - s.capBytes
      (true, { s with
        buffer := s.buffer.drop toDrop ++ data
        prefixDropped := s.prefixDropped + toDrop })
    else (true, { s with buffer := s.buffer ++ data })

def finalize (s : StreamBuffer) : StreamBuffer := { s with done := true }

/-- One round of the loop of `read_from`, under the mutex. -/
def readRound (s : StreamBuffer) (offset : ℕ) (shouldStop : Bool) : StreamRound :=
  if shouldStop then .ret .ok
  else if offset < s.prefixDropped then .ret .offsetLost
  else if offset < s.prefixDropped + s.buffer.length then
    let localOff := offset - s.prefixDropped
    let n := s.buffer.length - localOff
    .chunk ((s.buffer.drop localOff).take n)
  else if s.done then .ret .ok
  else .wait

end StreamBuffer

/-- Where a reader is. -/
inductive StreamPhase
  | outside
  | inLoop (offset : ℕ)
  | inSink (offset : ℕ) (bytes : List UInt8)
  | returned (status : StreamReadStatus)
  deriving DecidableEq, Repr

/-- A reader: the offset its sink has moved, and where it is.  Recorded is the offset it started
with, what it was given, and whether it was the reader that stopped. -/
structure StreamReader where
  offset : ℕ
  phase : StreamPhase
  start : ℕ
  received : List UInt8
  stopped : Bool
  deriving DecidableEq, Repr

/-- A session with its readers.  Recorded are the bytes that were appended. -/
structure StreamLine (ρ : Type) where
  session : StreamBuffer
  readers : ρ → StreamReader
  appended : List UInt8

/-- The steps, each atomic. -/
inductive StreamLineOp (ρ : Type)
  | append (data : List UInt8)
  | finalize
  | seek (r : ρ) (offset : ℕ)
  | call (r : ρ)
  | round (r : ρ) (shouldStop : Bool)
  | sink (r : ρ) (keepGoing : Bool)

/-- The reader is not in a call. -/
def StreamPhase.isOut : StreamPhase → Bool
  | outside => true
  | inLoop _ => false
  | inSink _ _ => false
  | returned _ => true

/-- A reader before its first call. -/
def StreamReader.new (offset : ℕ) : StreamReader := ⟨offset, .outside, offset, [], false⟩

/-- What a round does to a reader that is at `offset`. -/
def StreamReader.round (reader : StreamReader) (offset : ℕ) (shouldStop : Bool) :
    StreamRound → StreamReader
  | .ret status => { reader with phase := .returned status, stopped := shouldStop }
  | .chunk bytes => { reader with phase := .inSink (offset + bytes.length) bytes }
  | .wait => reader

/-- The sink takes the bytes. -/
def StreamReader.sink (reader : StreamReader) (offset : ℕ) (bytes : List UInt8)
    (keepGoing : Bool) : StreamReader :=
  { reader with
    offset := reader.offset + bytes.length
    received := reader.received ++ bytes
    phase := if keepGoing then .inLoop offset else .returned .ok
    stopped := !keepGoing }

namespace StreamLine

variable {ρ : Type} [DecidableEq ρ] {s s' : StreamLine ρ} {r : ρ} {cap : ℕ}

/-- A new session. -/
def start (cap : ℕ) : StreamLine ρ := ⟨.new cap, fun _ => .new 0, []⟩

/-- A reader changes. -/
def setReader (s : StreamLine ρ) (r : ρ) (reader : StreamReader) : StreamLine ρ :=
  { s with readers := Function.update s.readers r reader }

/-- One step; none where the reader is elsewhere. -/
def step (s : StreamLine ρ) : StreamLineOp ρ → Option (StreamLine ρ)
  | .append data =>
    let res := s.session.append data
    some { s with
      session := res.2
      appended := if res.1 then s.appended ++ data else s.appended }
  | .finalize => some { s with session := s.session.finalize }
  | .seek r offset => if (s.readers r).phase.isOut then some (s.setReader r (.new offset)) else none
  | .call r =>
    let reader := s.readers r
    if reader.phase.isOut then some (s.setReader r { reader with phase := .inLoop reader.offset })
    else none
  | .round r shouldStop =>
    let reader := s.readers r
    match reader.phase with
    | .inLoop offset =>
      some (s.setReader r (reader.round offset shouldStop (s.session.readRound offset shouldStop)))
    | _ => none
  | .sink r keepGoing =>
    let reader := s.readers r
    match reader.phase with
    | .inSink offset bytes => some (s.setReader r (reader.sink offset bytes keepGoing))
    | _ => none

/-! ## The buffer -/

/-- The buffer is what was not dropped, and that is as much as it may hold. -/
structure Holds (session : StreamBuffer) (appended : List UInt8) : Prop where
  buffer : session.buffer = appended.drop session.prefixDropped
  size : session.prefixDropped + session.buffer.length = appended.length
  kept : session.buffer.length = min session.capBytes appended.length

lemma holds_new (cap : ℕ) : Holds (.new cap) [] where
  buffer := rfl
  size := rfl
  kept := (Nat.min_zero cap).symm

variable {appended : List UInt8} {session : StreamBuffer} {offset : ℕ} {reader : StreamReader}

lemma Holds.append (h : Holds session appended) (data : List UInt8) :
    Holds (session.append data).2 (if (session.append data).1 then appended ++ data else appended) ∧
      session.prefixDropped ≤ (session.append data).2.prefixDropped := by
  have hsize := h.size
  have hkept := h.kept
  have hdrop : ∀ k, session.prefixDropped + k ≤ appended.length →
      session.buffer.drop k ++ data = (appended ++ data).drop (session.prefixDropped + k) :=
    fun k hk => by rw [h.buffer, drop_drop, drop_append_of_le_length hk]
  rcases hres : session.append data with ⟨accepted, session'⟩
  unfold StreamBuffer.append at hres
  dsimp only at hres ⊢
  split_ifs at hres with hempty hdone hlarge hneeded
  · cases hres
    rw [length_eq_zero_iff.mp hempty, append_nil]
    exact ⟨h, Nat.le_refl _⟩
  · cases hres
    exact ⟨h, Nat.le_refl _⟩
  · cases hres
    rw [if_pos rfl]
    refine ⟨⟨?_, ?_, ?_⟩, Nat.le_add_right _ _⟩
    · rw [← Nat.add_assoc, hsize, drop_append,
        drop_eq_nil_of_le (Nat.le_add_right _ _), nil_append, Nat.add_sub_cancel_left]
    · dsimp only
      rw [length_drop, length_append]
      omega
    · dsimp only
      rw [length_drop, length_append]
      omega
  · cases hres
    rw [if_pos rfl]
    refine ⟨⟨?_, ?_, ?_⟩, Nat.le_add_right _ _⟩
    · exact hdrop _ (by omega)
    · dsimp only
      rw [length_append, length_drop, length_append]
      omega
    · dsimp only
      rw [length_append, length_drop, length_append]
      omega
  · cases hres
    rw [if_pos rfl]
    refine ⟨⟨?_, ?_, ?_⟩, Nat.le_refl _⟩
    · dsimp only
      rw [h.buffer, drop_append_of_le_length (by omega)]
    · dsimp only
      rw [length_append, length_append]
      omega
    · dsimp only
      rw [length_append, length_append]
      omega

lemma capBytes_append (session : StreamBuffer) (data : List UInt8) :
    (session.append data).2.capBytes = session.capBytes := by
  unfold StreamBuffer.append
  dsimp only
  split_ifs <;> rfl

/-- What a round hands out is all that was appended behind the offset. -/
lemma Holds.readRound_eq_chunk {bytes : List UInt8} {stop : Bool} (h : Holds session appended)
    (hr : session.readRound offset stop = .chunk bytes) : bytes = appended.drop offset := by
  unfold StreamBuffer.readRound at hr
  split_ifs at hr with hstop hlost hbehind
  cases hr
  rw [take_of_length_le (by rw [length_drop]), h.buffer, drop_drop]
  congr 1
  omega

/-- Why a round returns. -/
lemma Holds.readRound_eq_ret {stop : Bool} {status : StreamReadStatus}
    (h : Holds session appended) (hr : session.readRound offset stop = .ret status) :
    (status = .ok ∧ stop = true) ∨ (status = .offsetLost ∧ offset < session.prefixDropped) ∨
      (status = .ok ∧ session.done = true ∧ appended.length ≤ offset) := by
  have hsize := h.size
  unfold StreamBuffer.readRound at hr
  split_ifs at hr with hstop hlost hbehind hdone
  · cases hr
    exact .inl ⟨rfl, hstop⟩
  · cases hr
    exact .inr (.inl ⟨rfl, hlost⟩)
  · cases hr
    exact .inr (.inr ⟨rfl, hdone, by omega⟩)

/-! ## The readers -/

/-- Where a reader is in its bytes, and why it returned. -/
def PhaseOk (session : StreamBuffer) (appended : List UInt8) (reader : StreamReader) : Prop :=
  match reader.phase with
  | .outside => True
  | .inLoop offset => offset = reader.offset
  | .inSink offset bytes => offset = reader.offset + bytes.length ∧
      reader.received ++ bytes <+: appended.drop reader.start
  | .returned .ok => reader.stopped = true ∨
      session.done = true ∧ reader.received = appended.drop reader.start
  | .returned .offsetLost => reader.offset < session.prefixDropped

/-- A reader was given the bytes behind its start, up to its offset. -/
structure ReaderOk (session : StreamBuffer) (appended : List UInt8) (reader : StreamReader) :
    Prop where
  received : reader.received <+: appended.drop reader.start
  offset : reader.offset = reader.start + reader.received.length
  phase : PhaseOk session appended reader

/-- The invariant. -/
structure Inv (cap : ℕ) (s : StreamLine ρ) : Prop where
  cap : s.session.capBytes = cap
  holds : Holds s.session s.appended
  readers : ∀ r, ReaderOk s.session s.appended (s.readers r)

lemma append_of_done (data : List UInt8) (hdone : session.done = true) :
    (session.append data).2 = session ∧ ((session.append data).1 = true → data = []) := by
  unfold StreamBuffer.append
  by_cases hempty : data.length = 0
  · rw [if_pos hempty]
    exact ⟨rfl, fun _ => length_eq_zero_iff.mp hempty⟩
  · rw [if_neg hempty, if_pos hdone]
    exact ⟨rfl, fun hno => absurd hno Bool.false_ne_true⟩

section

variable (h : ReaderOk session appended reader)

include h

/-- More bytes do not matter to a reader. -/
lemma ReaderOk.append (hs : Holds session appended)
    (data : List UInt8) :
    ReaderOk (session.append data).2
      (if (session.append data).1 then appended ++ data else appended) reader := by
  have hprefix : appended <+: if (session.append data).1 then appended ++ data else appended := by
    split
    · exact prefix_append _ _
    · exact prefix_rfl
  have hdrop := hprefix.drop reader.start
  refine ⟨h.received.trans hdrop, h.offset, ?_⟩
  have hphase := h.phase
  unfold PhaseOk at hphase ⊢
  cases hp : reader.phase with
  | outside => trivial
  | inLoop offset =>
    rw [hp] at hphase
    exact hphase
  | inSink offset bytes =>
    rw [hp] at hphase
    exact ⟨hphase.1, hphase.2.trans hdrop⟩
  | returned status =>
    rw [hp] at hphase
    cases status with
    | ok =>
      refine hphase.imp_right fun hdone => ?_
      obtain ⟨hsame, hempty⟩ := append_of_done data hdone.1
      rw [hsame]
      refine ⟨hdone.1, ?_⟩
      split_ifs with haccepted
      · rw [hempty haccepted, append_nil]
        exact hdone.2
      · exact hdone.2
    | offsetLost => exact Nat.lt_of_lt_of_le hphase (hs.append data).2

lemma ReaderOk.finalize : ReaderOk session.finalize appended reader := by
  refine ⟨h.received, h.offset, ?_⟩
  have hphase := h.phase
  unfold PhaseOk at hphase ⊢
  cases hp : reader.phase with
  | outside => trivial
  | inLoop offset =>
    rw [hp] at hphase
    exact hphase
  | inSink offset bytes =>
    rw [hp] at hphase
    exact hphase
  | returned status =>
    rw [hp] at hphase
    cases status with
    | ok => exact hphase.imp_right fun hdone => ⟨rfl, hdone.2⟩
    | offsetLost => exact hphase

/-- A round hands out the bytes at the offset, or returns for a reason. -/
lemma ReaderOk.round (hs : Holds session appended)
    (hp : reader.phase = .inLoop offset) (stop : Bool) :
    ReaderOk session appended (reader.round offset stop (session.readRound offset stop)) := by
  have hphase := h.phase
  rw [PhaseOk, hp] at hphase
  have hoffset : offset = reader.start + reader.received.length := hphase.trans h.offset
  -- what was received, and what is behind it
  obtain ⟨rest, hrest⟩ := h.received
  have hbehind : appended.drop offset = rest := by
    rw [hoffset, ← drop_drop, ← hrest, drop_left]
  cases hround : session.readRound offset stop with
  | ret status =>
    refine ⟨h.received, h.offset, ?_⟩
    rcases hs.readRound_eq_ret hround with ⟨rfl, hstop⟩ | ⟨rfl, hlost⟩ | ⟨rfl, hdone, hend⟩
    · exact .inl hstop
    · show reader.offset < session.prefixDropped
      rw [← hphase]
      exact hlost
    · refine .inr ⟨hdone, ?_⟩
      show reader.received = appended.drop reader.start
      rw [← hrest, ← hbehind, drop_eq_nil_of_le hend, append_nil]
  | chunk bytes =>
    refine ⟨h.received, h.offset, ?_⟩
    rw [hs.readRound_eq_chunk hround, hbehind]
    refine ⟨?_, ?_⟩
    · show offset + rest.length = reader.offset + rest.length
      rw [hphase]
    · show reader.received ++ rest <+: appended.drop reader.start
      exact ⟨[], by rw [append_nil, hrest]⟩
  | wait => exact h

lemma ReaderOk.sink {bytes : List UInt8}
    (hp : reader.phase = .inSink offset bytes) (keepGoing : Bool) :
    ReaderOk session appended (reader.sink offset bytes keepGoing) := by
  have hphase := h.phase
  rw [PhaseOk, hp] at hphase
  obtain ⟨hoffset, hextends⟩ := hphase
  have hstart := h.offset
  refine ⟨hextends, ?_, ?_⟩
  · show reader.offset + bytes.length = reader.start + (reader.received ++ bytes).length
    rw [length_append]
    omega
  · cases keepGoing with
    | false => exact .inl rfl
    | true => exact hoffset

end

lemma readerOk_new (session : StreamBuffer) (appended : List UInt8) (offset : ℕ) :
    ReaderOk session appended (.new offset) :=
  ⟨ nil_prefix, rfl, trivial⟩

omit [DecidableEq ρ] in
lemma inv_start (cap : ℕ) : (start cap : StreamLine ρ).Inv cap :=
  ⟨rfl, holds_new cap, fun _ => readerOk_new _ _ 0⟩

lemma Inv.setReader (h : s.Inv cap) (hr : ReaderOk s.session s.appended reader) :
    (s.setReader r reader).Inv cap := by
  refine ⟨h.cap, h.holds, fun r' => ?_⟩
  show ReaderOk s.session s.appended (Function.update s.readers r reader r')
  rcases eq_or_ne r' r with rfl | hne
  · rw [Function.update_self]
    exact hr
  · rw [Function.update_of_ne hne]
    exact h.readers r'

/-- **One step** keeps the invariant. -/
theorem Inv.step {op : StreamLineOp ρ} (h : s.Inv cap) (hs : s.step op = some s') : s'.Inv cap := by
  cases op with
  | append data =>
    cases hs
    exact ⟨(capBytes_append _ data).trans h.cap, (h.holds.append data).1, fun r => (h.readers r).append h.holds data⟩
  | finalize =>
    cases hs
    exact ⟨h.cap, ⟨h.holds.buffer, h.holds.size, h.holds.kept⟩, fun r => (h.readers r).finalize⟩
  | seek r offset =>
    unfold StreamLine.step at hs
    dsimp only at hs
    split_ifs at hs with hout
    cases hs
    exact h.setReader (readerOk_new _ _ offset)
  | call r =>
    unfold StreamLine.step at hs
    dsimp only at hs
    split_ifs at hs with hout
    cases hs
    exact h.setReader ⟨(h.readers r).received, (h.readers r).offset, rfl⟩
  | round r stop =>
    unfold StreamLine.step at hs
    dsimp only at hs
    split at hs
    · next offset hp =>
      cases hs
      exact h.setReader ((h.readers r).round h.holds hp stop)
    · cases hs
  | sink r keepGoing =>
    unfold StreamLine.step at hs
    dsimp only at hs
    split at hs
    · next offset bytes hp =>
      cases hs
      exact h.setReader ((h.readers r).sink hp keepGoing)
    · cases hs

/-- **What is in the buffer, and what the readers are given**, in every interleaving: the buffer has
the last bytes, and a reader that started at an offset was given the bytes from there on.  It was
given all of them when it returned, unless it stopped, or the byte at its offset was dropped. -/
theorem read_of_reachable (h : Run.Reachable step (fun _ _ => True) (start cap) s) :
    s.session.buffer = s.appended.drop (s.appended.length - min cap s.appended.length) ∧
    s.session.prefixDropped + s.session.buffer.length = s.appended.length ∧
    ∀ r, let reader := s.readers r
      reader.received <+: s.appended.drop reader.start ∧
      reader.offset = reader.start + reader.received.length ∧
      (reader.phase = .returned .ok → reader.stopped = false →
        s.session.done = true ∧ reader.received = s.appended.drop reader.start) ∧
      (reader.phase = .returned .offsetLost → reader.offset < s.session.prefixDropped) := by
  have hinv : s.Inv cap := h.invariant (inv_start cap) fun s op s' hs _ hstep => hs.step hstep
  have hsize := hinv.holds.size
  have hkept := hinv.holds.kept
  rw [hinv.cap] at hkept
  refine ⟨?_, hsize, fun r => ?_⟩
  · rw [hinv.holds.buffer]
    congr 1
    omega
  have hr := hinv.readers r
  have hphase := hr.phase
  unfold PhaseOk at hphase
  refine ⟨hr.received, hr.offset, fun hp hstop => ?_, fun hp => ?_⟩
  · rw [hp] at hphase
    exact hphase.resolve_left fun hno => Bool.false_ne_true (hstop.symm.trans hno)
  · rw [hp] at hphase
    exact hphase

/-- Two bytes are dropped before the reader takes its second chunk. -/
theorem read_of_reachable_dropped :
    ∃ s : StreamLine Unit, Run.Reachable step (fun _ _ => True) (start 3) s ∧
      s.session.buffer = [3, 4, 5] ∧ (s.readers ()).received = [1] ∧
      (s.readers ()).phase = .returned .offsetLost ∧
      (s.readers ()).offset < s.session.prefixDropped := by
  set ops : List (StreamLineOp Unit) := [.append [1], .call (), .round () false, .append [2, 3, 4, 5],
    .sink () true, .round () false]
  have hrun : (ops.foldlM step (start 3)).map (fun s => (s.session.buffer, s.readers ())) =
      some ([3, 4, 5], ⟨1, .returned .offsetLost, 0, [1], false⟩) := by decide +kernel
  obtain ⟨s, hs, heq⟩ := Option.map_eq_some_iff.mp hrun
  obtain ⟨hbuffer, hreader⟩ := Prod.mk.inj heq
  have hreach : Run.Reachable step (fun _ _ => True) (start 3) s :=
    Run.Reachable.init.foldlM (fun _ _ _ => trivial) hs
  refine ⟨s, hreach, hbuffer, by rw [hreader], by rw [hreader], ?_⟩
  exact ((read_of_reachable hreach).2.2 ()).2.2.2 (by rw [hreader])

end StreamLine

end Llama
