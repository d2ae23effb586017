import Llama.Lib.Run
import Mathlib.Data.Int.Notation

/-!
# Stream sessions

A response whose request carries a conversation id writes to a stream session.  The manager keeps
the live sessions by conversation id: installing a session replaces the one that was there, and a
request that fails before it streams removes the session under its id.  Every access to the map is
a critical section; the session that was taken out of the map is cancelled and finalized after it.

What is left to do after a critical section is kept as a list of `StreamTail`, each of which may be
continued at any later time.  Which session was removed from the manager or finalized while it was
live, and by what, is recorded; the steps do not read it.
-/

namespace Llama

/-- `stream_session`, without its buffer. -/
structure StreamSession where
  conversationId : String
  done : Bool
  cancelled : Bool
  completedTs : ℤ
  deriving DecidableEq, Repr

namespace StreamSession

/-- The constructor. -/
def new (conversationId : String) : StreamSession := ⟨conversationId, false, false, 0⟩

def finalize (now : ℤ) (s : StreamSession) : StreamSession :=
  if s.done then s else { s with done := true, completedTs := now }

def cancel (s : StreamSession) : StreamSession := { s with cancelled := true }

end StreamSession

/-- `server_res_spipe`: the headers of its request, the session its pipe writes to, whether
`set_next` ran, and whether there is nothing more to come.  A response is gone once it is
destroyed. -/
structure ServerResSpipe where
  headers : List (String × String)
  spipe : Option ℕ
  nextOrig : Bool
  nextFinished : Bool
  gone : Bool
  deriving DecidableEq, Repr

/-- A letter in lower case, where it is an ASCII letter. -/
def lowerAscii (c : Char) : Char :=
  if 'A' ≤ c ∧ c ≤ 'Z' then Char.ofNat (c.toNat + 32) else c

/-- `server_stream_conv_id_from_headers`, with the headers in their order. -/
def convIdFromHeaders (headers : List (String × String)) : String :=
  match headers.find? fun h => h.1.toList.map lowerAscii = "x-conversation-id".toList with
  | some h => h.2
  | none => ""

/-- The conversation id of the request of a response. -/
def ServerResSpipe.convId (res : ServerResSpipe) : String := convIdFromHeaders res.headers

/-- Why a session is removed or finalized: the response that owns it is destroyed, a response
cleans up after a request that failed, a newer response replaces it, it is stopped, the manager
stops, or it has expired. -/
inductive StreamCause
  | completion (res : ℕ)
  | cleanup (res : ℕ)
  | replaced (res : ℕ)
  | stop (conversationId : String)
  | shutdown
  | expired
  deriving DecidableEq, Repr

/-- A session that was live when it was removed from the manager or finalized. -/
structure StreamEvent where
  session : ℕ
  cause : StreamCause
  deriving DecidableEq, Repr

/-- What is left to do with a session that was taken out of the map. -/
structure StreamTail where
  session : ℕ
  cancels : Bool
  cause : StreamCause
  deriving DecidableEq, Repr

/-- The map of the manager, all sessions and responses so far, what is left to do, and what was
recorded. -/
structure StreamState where
  entries : List (String × ℕ)
  sessions : List StreamSession
  responses : List ServerResSpipe
  tails : List StreamTail
  log : List StreamEvent
  deriving DecidableEq, Repr

namespace StreamState

/-- The state at the beginning. -/
def init : StreamState := ⟨[], [], [], [], []⟩

/-- Whether a session is live. -/
def live (st : StreamState) (s : ℕ) : Bool := st.sessions[s]?.any fun session => !session.done

/-- Record what happens to a session, if it is live. -/
def record (st : StreamState) (s : ℕ) (cause : StreamCause) : StreamState :=
  if st.live s then { st with log := st.log ++ [⟨s, cause⟩] } else st

/-- Take a session that is no longer in the map to be continued with. -/
def drop (st : StreamState) (s : ℕ) (cancels : Bool) (cause : StreamCause) : StreamState :=
  { st.record s cause with tails := st.tails ++ [⟨s, cancels, cause⟩] }

/-! ## The manager -/

/-- The critical section of `create_or_replace`, for the response that is installed next. -/
def createOrReplace (st : StreamState) (conversationId : String) : StreamState :=
  let fresh := st.sessions.length
  let created := { st with
    entries := (conversationId, fresh) :: st.entries.filter fun e => e.1 ≠ conversationId
    sessions := st.sessions ++ [.new conversationId] }
  match st.entries.lookup conversationId with
  | some previous => created.drop previous true (.replaced st.responses.length)
  | none => created

/-- The critical section of `evict` and of `evict_and_cancel`. -/
def evict (st : StreamState) (conversationId : String) (cancels : Bool) (cause : StreamCause) :
    StreamState :=
  match st.entries.lookup conversationId with
  | none => st
  | some s =>
    { st with entries := st.entries.filter fun e => e.1 ≠ conversationId }.drop s cancels cause

/-- Whether `gc_loop` drops a session. -/
def expired (st : StreamState) (cutoff : ℤ) (s : ℕ) : Bool :=
  st.sessions[s]?.any fun session => session.completedTs ≠ 0 && session.completedTs ≤ cutoff

/-- Drop sessions from the map, one after the other. -/
def dropAll (st : StreamState) (cause : StreamCause) (sessions : List ℕ) : StreamState :=
  sessions.foldl (fun st s => st.drop s false cause) st

/-- One round of `gc_loop`. -/
def gc (st : StreamState) (cutoff : ℤ) : StreamState :=
  let toDrop := st.entries.filter fun e => st.expired cutoff e.2
  { st with entries := st.entries.filter fun e => !st.expired cutoff e.2 }.dropAll .expired
    (toDrop.map Prod.snd)

/-- The end of `stop_gc`. -/
def stopGc (st : StreamState) : StreamState :=
  { st with entries := [] }.dropAll .shutdown (st.entries.map Prod.snd)

/-- `finalize` a session. -/
def finalizeSession (st : StreamState) (s : ℕ) (now : ℤ) (cause : StreamCause) : StreamState :=
  { st.record s cause with sessions := st.sessions.modify s (StreamSession.finalize now) }

/-- `set_req` of a new response. -/
def setReq (st : StreamState) (headers : List (String × String)) : StreamState :=
  let id := convIdFromHeaders headers
  if id = "" then
    { st with responses := st.responses ++ [⟨headers, none, false, false, false⟩] }
  else
    { st.createOrReplace id with
      responses := st.responses ++ [⟨headers, some st.sessions.length, false, false, false⟩] }

/-- `on_complete`, up to the writing of what is still to come. -/
def onComplete (st : StreamState) (r : ℕ) (res : ServerResSpipe) : StreamState :=
  if res.spipe = none ∨ res.nextFinished then st
  else if res.nextOrig then st
  else st.evict res.convId false (.cleanup r)

/-- The destruction of a response, and of its pipe. -/
def destroy (st : StreamState) (r : ℕ) (res : ServerResSpipe) (now : ℤ) : StreamState :=
  let gone := { st with responses := st.responses.set r { res with gone := true } }
  match res.spipe with
  | none => gone
  | some s => gone.finalizeSession s now (.completion r)

/-- What may happen next. -/
inductive Op
  | setReq (headers : List (String × String))
  | setNext (r : ℕ)
  | next (r : ℕ) (hasNext : Bool)
  | onComplete (r : ℕ)
  | destroy (r : ℕ) (now : ℤ)
  | delete (conversationId : String)
  | gc (cutoff : ℤ)
  | stopGc
  | resume (i : ℕ) (now : ℤ)

/-- The response `r`, as long as it is there. -/
def response? (st : StreamState) (r : ℕ) : Option ServerResSpipe :=
  st.responses[r]?.filter fun res => !res.gone

/-- Continue with a session that was taken out of the map: it is cancelled first where it is to
be, and then finalized. -/
def resume (st : StreamState) (i : ℕ) (tail : StreamTail) (now : ℤ) : StreamState :=
  if tail.cancels then
    { st with
      sessions := st.sessions.modify tail.session StreamSession.cancel
      tails := st.tails.set i { tail with cancels := false } }
  else { st with tails := st.tails.eraseIdx i }.finalizeSession tail.session now tail.cause

/-- One step. -/
def step (st : StreamState) : Op → Option StreamState
  | .setReq headers => some (st.setReq headers)
  | .setNext r => (st.response? r).map fun res =>
      { st with responses := st.responses.set r { res with nextOrig := true } }
  | .next r hasNext => ((st.response? r).filter (·.nextOrig)).map fun res =>
      { st with responses :=
          st.responses.set r { res with nextFinished := res.nextFinished || !hasNext } }
  | .onComplete r => (st.response? r).map fun res => st.onComplete r res
  | .destroy r now => (st.response? r).map fun res => st.destroy r res now
  | .delete conversationId =>
      some (if conversationId = "" then st else st.evict conversationId true (.stop conversationId))
  | .gc cutoff => some (st.gc cutoff)
  | .stopGc => some st.stopGc
  | .resume i now => st.tails[i]?.map fun tail => st.resume i tail now

end StreamState

end Llama
