import Llama.Lib.Run
import Mathlib.Data.Finset.Card

/-!
# The results

The results of all tasks go through one queue.  A reader registers the ids of its tasks, takes the
first result of one of them, and removes its ids when it stops.  The ids are removed at once; the
results that still wait are removed id by id, and only if the reader has not received the last
results of all its tasks.

The critical sections of the readers and of the threads that send are steps, in any order.
-/

namespace Llama

open List Finset Option

/-- `server_task_result`. -/
structure TaskResult where
  id : ℤ
  isError : Bool
  isStop : Bool
  content : List UInt8
  deriving DecidableEq, Repr

structure ServerResponse where
  running : Bool
  waitingTaskIds : Finset ℤ
  queueResults : List TaskResult
  deriving DecidableEq

/-- The first result of one of the tasks is taken out of the queue. -/
def takeResult (idTasks : Finset ℤ) : List TaskResult → Option (TaskResult × List TaskResult)
  | [] => none
  | res :: queue =>
    if res.id ∈ idTasks then some (res, queue)
    else (takeResult idTasks queue).map fun r => (r.1, res :: r.2)

/-- The results of some tasks. -/
def resultsFor (idTasks : Finset ℤ) (results : List TaskResult) : List TaskResult :=
  results.filter fun res => res.id ∈ idTasks

namespace ServerResponse

variable (response : ServerResponse)

/-- `add_waiting_task_ids`, and for one task `add_waiting_task_id`. -/
def addWaitingTaskIds (idTasks : Finset ℤ) : ServerResponse :=
  { response with waitingTaskIds := response.waitingTaskIds ∪ idTasks }

def removeWaitingTaskId (idTask : ℤ) : ServerResponse :=
  { response with
    waitingTaskIds := response.waitingTaskIds.erase idTask
    queueResults := response.queueResults.filter fun res => res.id ≠ idTask }

def removeWaitingTaskIds (idTasks : Finset ℤ) : ServerResponse :=
  { response with waitingTaskIds := response.waitingTaskIds \ idTasks }

def send (res : TaskResult) : ServerResponse :=
  if res.id ∈ response.waitingTaskIds then
    { response with queueResults := response.queueResults ++ [res] }
  else response

/-- `broadcast`, for the order in which the ids are found. -/
def broadcast (res : TaskResult) (order : List ℤ) : ServerResponse :=
  { response with
    queueResults := response.queueResults ++ order.map fun idTask => { res with id := idTask } }

/-- The part of `recv_with_timeout` that looks for a result. -/
def recvWithTimeout (idTasks : Finset ℤ) : Option (TaskResult × ServerResponse) :=
  (takeResult idTasks response.queueResults).map fun r =>
    (r.1, { response with queueResults := r.2 })

/-- The part of `recv` that looks for a result; the process ends if the queue does not run. -/
def recv (idTasks : Finset ℤ) : Option (TaskResult × ServerResponse) :=
  if response.running then response.recvWithTimeout idTasks else none

end ServerResponse

/-- Where a reader is: between its calls, before it stops because of an error, or removing the
results of tasks. -/
inductive ReaderPhase
  | idle
  | failed
  | stopping (left : List ℤ)
  deriving DecidableEq, Repr

/-- The tasks whose results are still to be removed. -/
def ReaderPhase.left : ReaderPhase → List ℤ
  | .stopping left => left
  | _ => []

/-- `server_response_reader`.  Recorded are whether its tasks are registered, the results that were
sent for them while they were, and the results that it received. -/
structure ResponseReader where
  idTasks : Finset ℤ
  receivedCount : ℕ
  cancelled : Bool
  phase : ReaderPhase
  registered : Bool
  sent : List TaskResult
  received : List TaskResult
  deriving DecidableEq

namespace ResponseReader

/-- A reader without tasks. -/
def new : ResponseReader := ⟨∅, 0, false, .idle, false, [], []⟩

def hasNext (reader : ResponseReader) : Bool :=
  !reader.cancelled && reader.receivedCount < reader.idTasks.card

/-- `post_tasks`, and for one task `post_task`: the part before the tasks are posted. -/
def post (reader : ResponseReader) (idTasks : Finset ℤ) : ResponseReader :=
  { reader with idTasks := idTasks, registered := true }

/-- A result is received by `recv`. -/
def recv (reader : ResponseReader) (res : TaskResult) : ResponseReader :=
  { reader with received := reader.received ++ [res] }

/-- A result is received by `next`, which stops at an error. -/
def next (reader : ResponseReader) (res : TaskResult) : ResponseReader :=
  if res.isError then { reader.recv res with phase := .failed }
  else if res.isStop then { reader.recv res with receivedCount := reader.receivedCount + 1 }
  else reader.recv res

/-- The beginning of `stop`, for the order in which the ids are found. -/
def stop (reader : ResponseReader) (order : List ℤ) : ResponseReader :=
  if reader.hasNext && !reader.cancelled then
    { reader with cancelled := true, phase := .stopping order, registered := false }
  else { reader with phase := .idle, registered := false }

/-- Results are sent. -/
def record (reader : ResponseReader) (results : List TaskResult) : ResponseReader :=
  if reader.registered then
    { reader with sent := reader.sent ++ resultsFor reader.idTasks results }
  else reader

end ResponseReader

/-- The queue of results and its readers. -/
structure Responses where
  response : ServerResponse
  readers : ℕ → ResponseReader

/-- A critical section, and by whom. -/
inductive ResponseOp
  | post (r : ℕ) (idTasks : Finset ℤ)
  | send (res : TaskResult)
  | broadcast (res : TaskResult) (order : List ℤ)
  | recv (r : ℕ)
  | next (r : ℕ)
  | stop (r : ℕ) (order : List ℤ)
  | removeResults (r : ℕ)
  | terminate

namespace Responses

/-- Nothing was sent. -/
def new : Responses := ⟨⟨true, ∅, []⟩, fun _ => .new⟩

/-- A reader has changed. -/
def setReader (st : Responses) (r : ℕ) (reader : ResponseReader) (response : ServerResponse) :
    Responses :=
  ⟨response, Function.update st.readers r reader⟩

/-- What one critical section does; `none` if it cannot be entered, or if an assertion fails. -/
def step (st : Responses) : ResponseOp → Option Responses
  | .post r idTasks =>
    if (st.readers r).phase = .idle ∧ (st.readers r).idTasks = ∅ then
      some (st.setReader r ((st.readers r).post idTasks) (st.response.addWaitingTaskIds idTasks))
    else none
  | .send res => some ⟨st.response.send res, fun r => (st.readers r).record [res]⟩
  | .broadcast res order =>
    if order.Nodup ∧ order.toFinset = st.response.waitingTaskIds then
      some ⟨st.response.broadcast res order, fun r =>
        (st.readers r).record (order.map fun idTask => { res with id := idTask })⟩
    else none
  | .recv r =>
    if (st.readers r).phase = .idle then
      (st.response.recv (st.readers r).idTasks).map fun p =>
        st.setReader r ((st.readers r).recv p.1) p.2
    else none
  | .next r =>
    if (st.readers r).phase = .idle then
      (st.response.recvWithTimeout (st.readers r).idTasks).map fun p =>
        st.setReader r ((st.readers r).next p.1) p.2
    else none
  | .stop r order =>
    if ((st.readers r).phase = .idle ∨ (st.readers r).phase = .failed) ∧ order.Nodup ∧
        order.toFinset = (st.readers r).idTasks then
      some (st.setReader r ((st.readers r).stop order)
        (st.response.removeWaitingTaskIds (st.readers r).idTasks))
    else none
  | .removeResults r =>
    match (st.readers r).phase with
    | .stopping [] => some (st.setReader r { st.readers r with phase := .idle } st.response)
    | .stopping (idTask :: left) =>
      some (st.setReader r { st.readers r with phase := .stopping left }
        (st.response.removeWaitingTaskId idTask))
    | _ => none
  | .terminate => some ⟨{ st.response with running := false }, st.readers⟩

/-- The results in the queue that are for a reader. -/
def pending (st : Responses) (r : ℕ) : List TaskResult :=
  resultsFor (st.readers r).idTasks st.response.queueResults

/-- Every reader receives what was sent for it, in order, and when it has stopped nothing is left
for it in the queue. -/
structure Delivers (st : Responses) : Prop where
  exactly : ∀ r, (st.readers r).registered = true →
    (st.readers r).received ++ st.pending r = (st.readers r).sent
  inOrder : ∀ r, (st.readers r).received <+: (st.readers r).sent
  own : ∀ r, ∀ res ∈ (st.readers r).received, res.id ∈ (st.readers r).idTasks
  stopped : ∀ r, (st.readers r).registered = false → (st.readers r).phase = .idle →
    st.pending r = []

end Responses

namespace ResponseOp

/-- The tasks of a reader are not those of another. -/
def PostsOwn (st : Responses) : ResponseOp → Prop
  | .post r idTasks => ∀ r', r' ≠ r → Disjoint idTasks (st.readers r').idTasks
  | _ => True

/-- A reader that has received the last results of all its tasks stops only when no result for it
is in the queue. -/
def StopsEmpty (st : Responses) : ResponseOp → Prop
  | .stop r _ => (st.readers r).hasNext = false → st.pending r = []
  | _ => True

end ResponseOp

/-! ## Results of tasks -/

variable {idTasks : Finset ℤ} {queue queue' : List TaskResult} {res : TaskResult}

lemma mem_resultsFor : res ∈ resultsFor idTasks queue ↔ res ∈ queue ∧ res.id ∈ idTasks := by
  rw [resultsFor, mem_filter, decide_eq_true_eq]

lemma resultsFor_append (queue queue' : List TaskResult) :
    resultsFor idTasks (queue ++ queue') = resultsFor idTasks queue ++ resultsFor idTasks queue' :=
  filter_append ..

lemma resultsFor_eq_nil (h : ∀ res ∈ queue, res.id ∉ idTasks) : resultsFor idTasks queue = [] :=
  filter_eq_nil_iff.mpr fun res hres => by simpa using h res hres

/-- The result that is taken is the first one of the tasks; those of other tasks stay. -/
lemma takeResult_spec (h : takeResult idTasks queue = some (res, queue')) :
    res ∈ queue ∧ resultsFor idTasks queue = res :: resultsFor idTasks queue' ∧
      (∀ other ∈ queue', other ∈ queue) ∧
      ∀ others : Finset ℤ, res.id ∉ others → resultsFor others queue' = resultsFor others queue := by
  induction queue generalizing queue' with
  | nil => cases h
  | cons x queue ih =>
    rw [takeResult] at h
    split_ifs at h with hx
    · cases h
      exact ⟨List.mem_cons_self, List.filter_cons_of_pos (by simpa using hx),
        fun _ hmem => List.mem_cons_of_mem _ hmem,
        fun _ hnot => (List.filter_cons_of_neg (by simpa using hnot)).symm⟩
    · obtain ⟨p, hp, heq⟩ := map_eq_some_iff.mp h
      cases heq
      obtain ⟨hmem, hfor, hsub, hothers⟩ := ih hp
      refine ⟨List.mem_cons_of_mem _ hmem, ?_, ?_, fun others hnot => ?_⟩
      · unfold resultsFor at hfor ⊢
        rw [List.filter_cons_of_neg (by simpa using hx), hfor,
          List.filter_cons_of_neg (by simpa using hx)]
      · exact fun other hother => List.mem_cons.mpr ((List.mem_cons.mp hother).imp_right (hsub other))
      · have heq := hothers others hnot
        unfold resultsFor at heq ⊢
        rw [List.filter_cons, List.filter_cons, heq]

namespace Responses

variable {st st' : Responses} {r r' : ℕ} {reader : ResponseReader} {response : ServerResponse}

/-- What holds of a reader: what is in the queue for it when it is not registered is still to be
removed. -/
structure ReaderOk (queue : List TaskResult) (reader : ResponseReader) : Prop where
  exactly : reader.registered = true →
    reader.received ++ resultsFor reader.idTasks queue = reader.sent
  inOrder : reader.received <+: reader.sent
  sent : ∀ res ∈ reader.sent, res.id ∈ reader.idTasks
  left : reader.registered = false → ∀ res ∈ resultsFor reader.idTasks queue,
    res.id ∈ reader.phase.left
  stopping : ∀ id ∈ reader.phase.left, reader.registered = false ∧ id ∈ reader.idTasks

/-- What holds in every state: the ids that wait are those of the registered readers. -/
structure Inv (st : Responses) : Prop where
  disjoint : ∀ r r', r ≠ r' → Disjoint (st.readers r).idTasks (st.readers r').idTasks
  waiting : ∀ id, id ∈ st.response.waitingTaskIds ↔
    ∃ r, (st.readers r).registered = true ∧ id ∈ (st.readers r).idTasks
  owned : ∀ res ∈ st.response.queueResults, ∃ r, res.id ∈ (st.readers r).idTasks
  readerOk : ∀ r, ReaderOk st.response.queueResults (st.readers r)

lemma inv_new : Inv new where
  disjoint _ _ _ := disjoint_empty_left _
  waiting id := by simp [new, ResponseReader.new]
  owned res hres := absurd hres not_mem_nil
  readerOk r := ⟨fun hr => (by cases hr), prefix_rfl, fun _ hres => absurd hres not_mem_nil,
    fun _ _ hres => absurd hres not_mem_nil, fun _ hid => absurd hid not_mem_nil⟩

lemma Inv.delivers (h : Inv st) : st.Delivers where
  exactly r := (h.readerOk r).exactly
  inOrder r := (h.readerOk r).inOrder
  own r res hres := (h.readerOk r).sent res ((h.readerOk r).inOrder.subset hres)
  stopped r hr hphase := by
    refine eq_nil_iff_forall_not_mem.mpr fun res hres => ?_
    have hleft := (h.readerOk r).left hr res hres
    rw [hphase] at hleft
    exact not_mem_nil hleft

/-- A task has one reader. -/
lemma Inv.reader_unique (h : Inv st) {id : ℤ} (hid : id ∈ (st.readers r).idTasks)
    (hid' : id ∈ (st.readers r').idTasks) : r = r' := by
  by_contra hne
  exact disjoint_left.mp (h.disjoint r r' hne) hid hid'

/-- A reader sees its results alone. -/
lemma ReaderOk.congr (h : ReaderOk queue reader)
    (heq : resultsFor reader.idTasks queue' = resultsFor reader.idTasks queue) :
    ReaderOk queue' reader := by
  obtain ⟨hexactly, hinOrder, hsent, hleft, hstopping⟩ := h
  rw [← heq] at hexactly hleft
  exact ⟨hexactly, hinOrder, hsent, hleft, hstopping⟩

/-- Results are sent to a reader if its tasks wait. -/
lemma ReaderOk.record (h : ReaderOk queue reader) (results sent : List TaskResult)
    (hsent : resultsFor reader.idTasks sent =
      if reader.registered = true then resultsFor reader.idTasks results else []) :
    ReaderOk (queue ++ sent) (reader.record results) := by
  unfold ResponseReader.record
  by_cases hr : reader.registered = true
  · rw [if_pos hr] at hsent ⊢
    refine ⟨fun _ => ?_, h.inOrder.trans (prefix_append _ _), fun res hres => ?_,
      fun hnot => absurd (hr.symm.trans hnot) (by decide), h.stopping⟩
    · rw [resultsFor_append, hsent, ← append_assoc, h.exactly hr]
    · exact (mem_append.mp hres).elim (h.sent res) fun hres => (mem_resultsFor.mp hres).2
  · rw [if_neg hr] at hsent ⊢
    refine h.congr ?_
    rw [resultsFor_append, hsent, append_nil]

/-- Results are sent to those of the tasks that wait. -/
lemma Inv.send (h : Inv st) (results : List TaskResult) : Inv ⟨{ st.response with
        queueResults := st.response.queueResults ++ resultsFor st.response.waitingTaskIds results },
      fun r => (st.readers r).record results⟩ := by
  have hfields : ∀ r, ((st.readers r).record results).idTasks = (st.readers r).idTasks ∧
      ((st.readers r).record results).registered = (st.readers r).registered := fun r => by
    unfold ResponseReader.record
    split <;> exact ⟨rfl, rfl⟩
  constructor
  · intro r r' hne
    rw [(hfields r).1, (hfields r').1]
    exact h.disjoint r r' hne
  · intro id
    simp only [hfields]
    exact h.waiting id
  · intro res hres
    simp only [hfields]
    rcases List.mem_append.mp hres with hres | hres
    · exact h.owned res hres
    · obtain ⟨r, -, hid⟩ := (h.waiting _).mp (mem_resultsFor.mp hres).2
      exact ⟨r, hid⟩
  · refine fun r => (h.readerOk r).record _ _ ?_
    split_ifs with hr
    · unfold resultsFor
      rw [List.filter_filter]
      refine List.filter_congr fun res _ => ?_
      rw [Bool.and_eq_left_iff_imp, decide_eq_true_eq, decide_eq_true_eq]
      exact fun hid => (h.waiting _).mpr ⟨r, hr, hid⟩
    · refine resultsFor_eq_nil fun res hres hid => hr ?_
      obtain ⟨r', hr', hid'⟩ := (h.waiting _).mp (mem_resultsFor.mp hres).2
      rwa [h.reader_unique hid hid']

/-! ## Readers -/

lemma readers_setReader_self (reader : ResponseReader) (response : ServerResponse) :
    (st.setReader r reader response).readers r = reader := Function.update_self ..

lemma readers_setReader_of_ne (hne : r' ≠ r) (reader : ResponseReader)
    (response : ServerResponse) : (st.setReader r reader response).readers r' = st.readers r' :=
  Function.update_of_ne hne ..

/-- A reader keeps its tasks, which wait as long as it is registered, and the results of the other
readers stay in the queue. -/
lemma Inv.setReader (h : Inv st) (hids : reader.idTasks = (st.readers r).idTasks)
    (hregistered : reader.registered = true → (st.readers r).registered = true)
    (hwaiting : ∀ id, id ∈ response.waitingTaskIds ↔ id ∈ st.response.waitingTaskIds ∧
      (reader.registered = true ∨ id ∉ (st.readers r).idTasks))
    (hqueue : ∀ res ∈ response.queueResults, res ∈ st.response.queueResults)
    (hothers : ∀ r', r' ≠ r → resultsFor (st.readers r').idTasks response.queueResults =
      resultsFor (st.readers r').idTasks st.response.queueResults)
    (hok : ReaderOk response.queueResults reader) : Inv (st.setReader r reader response) := by
  have hids' : ∀ r', ((st.setReader r reader response).readers r').idTasks =
      (st.readers r').idTasks := fun r' => by
    by_cases hr' : r' = r
    · rw [hr', readers_setReader_self, hids]
    · rw [readers_setReader_of_ne hr']
  constructor
  · intro r1 r2 hne
    rw [hids', hids']
    exact h.disjoint r1 r2 hne
  · intro id
    simp only [hids']
    refine (hwaiting id).trans ⟨?_, ?_⟩
    · rintro ⟨hid, hor⟩
      obtain ⟨r', hr', hid'⟩ := (h.waiting id).mp hid
      refine ⟨r', ?_, hid'⟩
      by_cases heq : r' = r
      · rw [heq, readers_setReader_self]
        exact hor.resolve_right (not_not_intro (heq ▸ hid'))
      · rwa [readers_setReader_of_ne heq]
    · rintro ⟨r', hr', hid'⟩
      by_cases heq : r' = r
      · rw [heq, readers_setReader_self] at hr'
        rw [heq] at hid'
        exact ⟨(h.waiting id).mpr ⟨r, hregistered hr', hid'⟩, .inl hr'⟩
      · rw [readers_setReader_of_ne heq] at hr'
        exact ⟨(h.waiting id).mpr ⟨r', hr', hid'⟩, .inr fun hid => heq (h.reader_unique hid' hid)⟩
  · intro res hres
    simp only [hids']
    exact h.owned res (hqueue res hres)
  · intro r'
    by_cases heq : r' = r
    · rw [heq, readers_setReader_self]
      exact hok
    · rw [readers_setReader_of_ne heq]
      exact (h.readerOk r').congr (hothers r' heq)

/-- A result is taken by the reader of its task. -/
lemma Inv.take (h : Inv st)
    (htake : takeResult (st.readers r).idTasks st.response.queueResults = some (res, queue'))
    (hids : reader.idTasks = (st.readers r).idTasks)
    (hregistered : reader.registered = (st.readers r).registered)
    (hsent : reader.sent = (st.readers r).sent)
    (hreceived : reader.received = (st.readers r).received ++ [res])
    (hphase : (st.readers r).phase.left = []) (hleft : reader.phase.left = []) :
    Inv (st.setReader r reader { st.response with queueResults := queue' }) := by
  obtain ⟨hmem, hfor, hsub, hothers⟩ := takeResult_spec htake
  have hmem' : res ∈ resultsFor (st.readers r).idTasks st.response.queueResults :=
    hfor ▸ mem_cons_self
  -- a reader that is not registered has nothing in the queue
  have hreader : (st.readers r).registered = true := by
    by_contra hnot
    have hin := (h.readerOk r).left (Bool.eq_false_iff.mpr hnot) res hmem'
    rw [hphase] at hin
    exact not_mem_nil hin
  have hexactly := (h.readerOk r).exactly hreader
  rw [hfor, ← singleton_append, ← append_assoc, ← hreceived, ← hsent] at hexactly
  rw [← hregistered] at hreader
  refine h.setReader hids (fun hr => hregistered ▸ hr) (fun id => ?_) hsub (fun r' hr' => ?_) ?_
  · exact ⟨fun hid => ⟨hid, .inl hreader⟩, And.left⟩
  · exact hothers _ fun hid => hr' (h.reader_unique hid (mem_resultsFor.mp hmem').2)
  · rw [← hids] at hexactly
    refine ⟨fun _ => hexactly, ⟨_, hexactly⟩, ?_, ?_, ?_⟩
    · rw [hsent, hids]
      exact (h.readerOk r).sent
    · exact fun hnot => absurd (hreader.symm.trans hnot) (by decide)
    · rw [hleft]
      exact fun _ hid => absurd hid not_mem_nil

/-- The ids of a reader are removed. -/
lemma Inv.stop (h : Inv st) {order : List ℤ}
    (horder : order.toFinset = (st.readers r).idTasks)
    (hempty : (st.readers r).hasNext = false → st.pending r = []) :
    Inv (st.setReader r ((st.readers r).stop order)
      (st.response.removeWaitingTaskIds (st.readers r).idTasks)) := by
  obtain ⟨hids, hregistered, hsent, hreceived, hleft⟩ :
      ((st.readers r).stop order).idTasks = (st.readers r).idTasks ∧
        ((st.readers r).stop order).registered = false ∧
        ((st.readers r).stop order).sent = (st.readers r).sent ∧
        ((st.readers r).stop order).received = (st.readers r).received ∧
        (((st.readers r).stop order).phase.left = order ∨
          ((st.readers r).stop order).phase.left = [] ∧ st.pending r = []) := by
    unfold ResponseReader.stop
    split_ifs with hnext
    · exact ⟨rfl, rfl, rfl, rfl, .inl rfl⟩
    · refine ⟨rfl, rfl, rfl, rfl, .inr ⟨rfl, hempty ?_⟩⟩
      unfold ResponseReader.hasNext at hnext ⊢
      cases hcancelled : (st.readers r).cancelled <;> simp_all
  have hmem : ∀ id, id ∈ order ↔ id ∈ (st.readers r).idTasks := fun id => by
    rw [← horder, List.mem_toFinset]
  refine h.setReader hids (fun hr => absurd (hregistered.symm.trans hr) (by decide)) (fun id => ?_)
    (fun _ hres => hres) (fun _ _ => rfl) ⟨?_, ?_, ?_, ?_, fun id hid => ⟨hregistered, ?_⟩⟩
  · rw [hregistered]
    simp [ServerResponse.removeWaitingTaskIds]
  · exact fun hr => absurd (hregistered.symm.trans hr) (by decide)
  · rw [hreceived, hsent]
    exact (h.readerOk r).inOrder
  · rw [hsent, hids]
    exact (h.readerOk r).sent
  · intro _ res hres
    rw [hids] at hres
    rcases hleft with hleft | ⟨-, hnone⟩
    · rw [hleft, hmem]
      exact (mem_resultsFor.mp hres).2
    · have hres : res ∈ st.pending r := hres
      rw [hnone] at hres
      exact absurd hres not_mem_nil
  · rw [hids]
    rcases hleft with hleft | ⟨hnil, -⟩
    · rw [hleft] at hid
      exact (hmem id).mp hid
    · rw [hnil] at hid
      exact absurd hid not_mem_nil

/-- The results of one task are removed. -/
lemma Inv.removeResults (h : Inv st) {idTask : ℤ} {left : List ℤ}
    (hphase : (st.readers r).phase = .stopping (idTask :: left)) :
    Inv (st.setReader r { st.readers r with phase := .stopping left }
      (st.response.removeWaitingTaskId idTask)) := by
  have hstopping := (h.readerOk r).stopping
  rw [hphase] at hstopping
  obtain ⟨hregistered, hid⟩ := hstopping idTask List.mem_cons_self
  have hwaiting : idTask ∉ st.response.waitingTaskIds := fun hwait => by
    obtain ⟨r', hr', hid'⟩ := (h.waiting idTask).mp hwait
    rw [h.reader_unique hid' hid, hregistered] at hr'
    cases hr'
  have hnot : ∀ id ∈ (st.readers r).idTasks, id ∉ st.response.waitingTaskIds := fun id hid hwait => by
    obtain ⟨r', hr', hid'⟩ := (h.waiting id).mp hwait
    rw [h.reader_unique hid' hid, hregistered] at hr'
    cases hr'
  refine h.setReader rfl id (fun id => ?_) (fun res hres => (List.mem_filter.mp hres).1)
    (fun r' hr' => ?_) ⟨fun hr => ?_, (h.readerOk r).inOrder, (h.readerOk r).sent, ?_, ?_⟩
  · rw [ServerResponse.removeWaitingTaskId, Finset.erase_eq_of_notMem hwaiting]
    exact ⟨fun hwait => ⟨hwait, .inr fun hid => hnot id hid hwait⟩, And.left⟩
  · rw [ServerResponse.removeWaitingTaskId, resultsFor, List.filter_filter]
    refine List.filter_congr fun res _ => ?_
    rw [Bool.and_eq_left_iff_imp, decide_eq_true_eq, decide_eq_true_eq]
    rintro hid' rfl
    exact hr' (h.reader_unique hid' hid)
  · exact absurd (hregistered.symm.trans hr) (by decide)
  · intro _ res hres
    obtain ⟨hmem, hown⟩ := mem_resultsFor.mp hres
    obtain ⟨hmem, hne⟩ := List.mem_filter.mp hmem
    have hleft := (h.readerOk r).left hregistered res (mem_resultsFor.mpr ⟨hmem, hown⟩)
    rw [hphase] at hleft
    exact (List.mem_cons.mp hleft).resolve_left (of_decide_eq_true hne)
  · exact fun id hid => hstopping id (List.mem_cons_of_mem _ hid)

/-- A reader without tasks is given tasks that are those of no other reader. -/
lemma Inv.post (h : Inv st) {idTasks : Finset ℤ} (hphase : (st.readers r).phase = .idle)
    (hnone : (st.readers r).idTasks = ∅)
    (hown : ∀ r', r' ≠ r → Disjoint idTasks (st.readers r').idTasks) :
    Inv (st.setReader r ((st.readers r).post idTasks)
      (st.response.addWaitingTaskIds idTasks)) := by
  have hsent : (st.readers r).sent = [] := eq_nil_iff_forall_not_mem.mpr fun res hres =>
    notMem_empty _ (hnone ▸ (h.readerOk r).sent res hres)
  have hreceived : (st.readers r).received = [] :=
    prefix_nil.mp (hsent ▸ (h.readerOk r).inOrder)
  have hqueue : ∀ res ∈ st.response.queueResults, res.id ∉ idTasks := fun res hres hid => by
    obtain ⟨r', hid'⟩ := h.owned res hres
    by_cases heq : r' = r
    · rw [heq, hnone] at hid'
      exact notMem_empty _ hid'
    · exact disjoint_left.mp (hown r' heq) hid hid'
  constructor
  · intro r1 r2 hne
    by_cases h1 : r1 = r
    · rw [h1, readers_setReader_self, readers_setReader_of_ne (fun h2 => hne (h1.trans h2.symm))]
      exact hown r2 fun h2 => hne (h1.trans h2.symm)
    · rw [readers_setReader_of_ne h1]
      by_cases h2 : r2 = r
      · rw [h2, readers_setReader_self]
        exact (hown r1 h1).symm
      · rw [readers_setReader_of_ne h2]
        exact h.disjoint r1 r2 hne
  · intro id
    refine mem_union.trans ⟨?_, ?_⟩
    · rintro (hid | hid)
      · obtain ⟨r', hr', hid'⟩ := (h.waiting id).mp hid
        have hne : r' ≠ r := fun heq => notMem_empty id (hnone ▸ heq ▸ hid')
        exact ⟨r', by rwa [readers_setReader_of_ne hne], by rwa [readers_setReader_of_ne hne]⟩
      · exact ⟨r, by rw [readers_setReader_self]; rfl, by rwa [readers_setReader_self]⟩
    · rintro ⟨r', hr', hid'⟩
      by_cases heq : r' = r
      · rw [heq, readers_setReader_self] at hid'
        exact .inr hid'
      · rw [readers_setReader_of_ne heq] at hr' hid'
        exact .inl ((h.waiting id).mpr ⟨r', hr', hid'⟩)
  · intro res hres
    obtain ⟨r', hid'⟩ := h.owned res hres
    have hne : r' ≠ r := fun heq => notMem_empty _ (hnone ▸ heq ▸ hid')
    exact ⟨r', by rwa [readers_setReader_of_ne hne]⟩
  · intro r'
    by_cases heq : r' = r
    · rw [heq, readers_setReader_self]
      refine ⟨fun _ => ?_, (h.readerOk r).inOrder, ?_, fun hr => (by cases hr), ?_⟩
      · change (st.readers r).received ++ resultsFor idTasks st.response.queueResults =
          (st.readers r).sent
        rw [hsent, hreceived, resultsFor_eq_nil hqueue]
        rfl
      · intro res hres
        change res ∈ (st.readers r).sent at hres
        rw [hsent] at hres
        exact absurd hres not_mem_nil
      · intro id hid
        change id ∈ (st.readers r).phase.left at hid
        rw [hphase] at hid
        exact absurd hid not_mem_nil
    · rw [readers_setReader_of_ne heq]
      exact h.readerOk r'

lemma Inv.step (h : Inv st) {op : ResponseOp} (hown : op.PostsOwn st) (hempty : op.StopsEmpty st)
    (hs : st.step op = some st') : Inv st' := by
  cases op with
  | post r idTasks =>
    obtain ⟨⟨hphase, hnone⟩, heq⟩ := ite_none_right_eq_some.mp hs
    cases heq
    exact h.post hphase hnone hown
  | send res =>
    cases hs
    have hsent := h.send [res]
    have hfilter : resultsFor st.response.waitingTaskIds [res] =
        if res.id ∈ st.response.waitingTaskIds then [res] else [] := by
      by_cases hwait : res.id ∈ st.response.waitingTaskIds <;> simp [resultsFor, hwait]
    rw [hfilter] at hsent
    unfold ServerResponse.send
    split_ifs at hsent ⊢ with hwait
    · exact hsent
    · rwa [append_nil] at hsent
  | broadcast res order =>
    obtain ⟨⟨-, horder⟩, heq⟩ := ite_none_right_eq_some.mp hs
    cases heq
    have hsent := h.send (order.map fun idTask => { res with id := idTask })
    have hfilter : resultsFor st.response.waitingTaskIds
        (order.map fun idTask => { res with id := idTask }) =
          order.map fun idTask => { res with id := idTask } := by
      refine filter_eq_self.mpr fun other hother => ?_
      obtain ⟨id, hid, rfl⟩ := mem_map.mp hother
      rw [decide_eq_true_eq, ← horder]
      exact mem_toFinset.mpr hid
    rwa [hfilter] at hsent
  | recv r =>
    obtain ⟨hphase, hmap⟩ := ite_none_right_eq_some.mp hs
    obtain ⟨p, hp, rfl⟩ := map_eq_some_iff.mp hmap
    obtain ⟨-, hrecv⟩ := ite_none_right_eq_some.mp hp
    obtain ⟨q, hq, rfl⟩ := map_eq_some_iff.mp hrecv
    exact h.take hq rfl rfl rfl rfl (by rw [hphase]; rfl) (by
      change (st.readers r).phase.left = []
      rw [hphase]
      rfl)
  | next r =>
    obtain ⟨hphase, hmap⟩ := ite_none_right_eq_some.mp hs
    obtain ⟨p, hp, rfl⟩ := map_eq_some_iff.mp hmap
    obtain ⟨q, hq, rfl⟩ := map_eq_some_iff.mp hp
    have hleft : (st.readers r).phase.left = [] := by rw [hphase]; rfl
    have hnext : ((st.readers r).next q.1).idTasks = (st.readers r).idTasks ∧
        ((st.readers r).next q.1).registered = (st.readers r).registered ∧
        ((st.readers r).next q.1).sent = (st.readers r).sent ∧
        ((st.readers r).next q.1).received = (st.readers r).received ++ [q.1] ∧
        ((st.readers r).next q.1).phase.left = [] := by
      unfold ResponseReader.next
      split_ifs
      · exact ⟨rfl, rfl, rfl, rfl, rfl⟩
      · exact ⟨rfl, rfl, rfl, rfl, hleft⟩
      · exact ⟨rfl, rfl, rfl, rfl, hleft⟩
    exact h.take hq hnext.1 hnext.2.1 hnext.2.2.1 hnext.2.2.2.1 hleft hnext.2.2.2.2
  | stop r order =>
    obtain ⟨⟨-, -, horder⟩, heq⟩ := ite_none_right_eq_some.mp hs
    cases heq
    exact h.stop horder hempty
  | removeResults r =>
    rw [Responses.step] at hs
    split at hs
    · cases hs
      next hphase =>
      have hok := h.readerOk r
      refine h.setReader rfl id (fun id => ?_) (fun _ hres => hres) (fun _ _ => rfl)
        ⟨hok.exactly, hok.inOrder, hok.sent, fun hr res hres => ?_, fun _ hid => ?_⟩
      · refine ⟨fun hid => ⟨hid, ?_⟩, And.left⟩
        obtain ⟨r', hr', hid'⟩ := (h.waiting id).mp hid
        by_cases hid'' : id ∈ (st.readers r).idTasks
        · exact .inl (h.reader_unique hid'' hid' ▸ hr')
        · exact .inr hid''
      · have hleft := hok.left hr res hres
        rw [hphase] at hleft
        exact hleft
      · exact absurd hid not_mem_nil
    · cases hs
      next hphase => exact h.removeResults hphase
    · cases hs
  | terminate =>
    cases hs
    exact ⟨h.disjoint, h.waiting, h.owned, h.readerOk⟩

/-- The last result of a task. -/
def lastResult (id : ℤ) : TaskResult := ⟨id, false, true, []⟩

end Responses

end Llama
