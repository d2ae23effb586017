import Llama.ServerQueue
import Mathlib.Data.List.Count
import Mathlib.Data.List.Perm.Basic
import Mathlib.Data.List.Nodup

/-!
# Where a task is

Every posted task is in one place: in one of the queues, in flight, accepted, or removed by a
cancel.  What waits to be handed to the callback -- the declined tasks, the task in flight, and the
queue -- stays in its order, and no cancel stands before a task that it cancels.  This is lost when
a task is deferred while a cancel of it waits in the queue: the cancel has searched the queues
while the task was in flight, and is processed without finding it.
-/

namespace Llama

open List

namespace QueueRun

variable {st st' : QueueRun}

/-- The task in flight. -/
def flying (st : QueueRun) : List QueueTask := (st.inFlight.map Prod.fst).toList

/-- What waits to be handed to the callback. -/
def pending (st : QueueRun) : List QueueTask :=
  st.queue.queueTasksUnhandled ++ st.flying ++ st.queue.queueTasks

/-- The tasks are in their places, and no cancel has overtaken the task that it cancels. -/
structure Data (st : QueueRun) : Prop where
  seqs : ∀ (i : ℕ) (t : QueueTask), st.posted[i]? = some t → t.seq = i
  places : ∀ t : QueueTask, st.posted.count t = st.pending.count t +
    st.queue.queueTasksDeferred.count t + st.accepted.count t + st.removed.count t
  order : st.pending.Pairwise fun a b => ¬a.Cancels b
  waits : ∀ c ∈ st.pending, ∀ t ∈ st.queue.queueTasksDeferred, ¬c.Cancels t
  notCancel : ∀ t ∈ st.queue.queueTasksDeferred, t.type ≠ .cancel
  done : ∀ c ∈ st.accepted, ∀ t ∈ st.pending ++ st.queue.queueTasksDeferred, ¬c.Cancels t
  started : st.accepted.Pairwise fun a b => ¬a.Cancels b

/-- Only one thread hands out tasks, and the declined tasks wait, in their order, until the yield
ends. -/
structure Flags (st : QueueRun) : Prop where
  mainFlight : ∀ t, st.inFlight = some (t, false) → st.phase = .tasks
  workerFlight : ∀ t, st.inFlight = some (t, true) → st.queue.busy = true
  busyPhase : st.queue.busy = true → st.phase = .computing ∨ st.phase = .waiting
  quiet : st.phase = .tasks ∨ st.phase = .slots → st.queue.queueTasksUnhandled = []
  declined : st.queue.queueTasksUnhandled = st.declined.filter fun t => t ∉ st.removed

/-! ## Tasks are in one place -/

lemma Data.posted_nodup (h : st.Data) : st.posted.Nodup := by
  refine nodup_iff_injective_getElem.mpr fun i j heq => ?_
  have hi := h.seqs i _ (getElem?_eq_getElem i.2)
  have hj := h.seqs j _ (getElem?_eq_getElem j.2)
  exact Fin.ext (hi.symm.trans ((congrArg QueueTask.seq heq).trans hj))

variable {t x : QueueTask} {idTarget : ℤ} {front worker : Bool} {task : NewTask}

/-- A task that is somewhere was posted. -/
lemma Data.seq_lt (h : st.Data)
    (ht : t ∈ st.pending ∨ t ∈ st.queue.queueTasksDeferred ∨ t ∈ st.accepted) :
    t.seq < st.posted.length := by
  have hpos : 0 < st.posted.count t := by
    rw [h.places t]
    rcases ht with ht | ht | ht
    · have := List.count_pos_iff.mpr ht
      omega
    · have := List.count_pos_iff.mpr ht
      omega
    · have := List.count_pos_iff.mpr ht
      omega
  obtain ⟨i, hi, heq⟩ := getElem_of_mem (List.count_pos_iff.mp hpos)
  have hseq := h.seqs i t (by rw [getElem?_eq_getElem hi, heq])
  omega

/-- A task that waits was not removed. -/
lemma Data.not_removed (h : st.Data) (ht : t ∈ st.pending) : t ∉ st.removed := by
  intro hremoved
  have hle := nodup_iff_count_le_one.mp h.posted_nodup t
  rw [h.places t] at hle
  have h1 := List.count_pos_iff.mpr ht
  have h2 := List.count_pos_iff.mpr hremoved
  omega

/-- What is about the tasks depends on where they are only. -/
lemma Data.of_eq (h : st.Data) (hpending : st'.pending = st.pending)
    (hposted : st'.posted = st.posted)
    (hdeferred : st'.queue.queueTasksDeferred = st.queue.queueTasksDeferred)
    (haccepted : st'.accepted = st.accepted) (hremoved : st'.removed = st.removed) :
    st'.Data where
  seqs := by rw [hposted]; exact h.seqs
  places := by rw [hposted, hpending, hdeferred, haccepted, hremoved]; exact h.places
  order := by rw [hpending]; exact h.order
  waits := by rw [hpending, hdeferred]; exact h.waits
  notCancel := by rw [hdeferred]; exact h.notCancel
  done := by rw [haccepted, hpending, hdeferred]; exact h.done
  started := by rw [haccepted]; exact h.started

lemma data_init : init.Data where
  seqs i t h := by cases h
  places t := rfl
  order := List.Pairwise.nil
  waits c h := by cases h
  notCancel t h := by cases h
  done c h := by cases h
  started := List.Pairwise.nil

lemma flags_init : init.Flags where
  mainFlight t h := by cases h
  workerFlight t h := by cases h
  busyPhase h := by cases h
  quiet _ := rfl
  declined := rfl

/-! ## Posting -/

lemma count_filter_of_false {p : QueueTask → Bool} {l : List QueueTask} (h : ¬p t = true) :
    (l.filter p).count t = 0 :=
  count_eq_zero_of_not_mem fun hmem => h (mem_filter.mp hmem).2

/-- The state after a cancel has searched the queues. -/
def cleaned (st : QueueRun) (idTarget : ℤ) : QueueRun :=
  { st with
    queue := st.queue.cleanupPendingTask idTarget
    removed := st.removed ++ st.queue.cancelled idTarget }

lemma pending_cleaned : (st.cleaned idTarget).pending.Sublist st.pending :=
  (filter_sublist.append (List.Sublist.refl _)).append filter_sublist

lemma Data.cleaned (h : st.Data) : (st.cleaned idTarget).Data where
  seqs := h.seqs
  places t := by
    have hplaces := h.places t
    simp only [pending, count_append] at hplaces
    simp only [pending, QueueRun.cleaned, ServerQueue.cleanupPendingTask, flying,
      ServerQueue.cancelled, filter_append, count_append]
    simp only [flying] at hplaces
    by_cases hid : t.id = idTarget
    · rw [count_filter_of_false (by simpa using hid), count_filter_of_false (by simpa using hid),
        count_filter_of_false (by simpa using hid), count_filter (by simpa using hid),
        count_filter (by simpa using hid), count_filter (by simpa using hid)]
      omega
    · rw [count_filter (by simpa using hid), count_filter (by simpa using hid),
        count_filter (by simpa using hid), count_filter_of_false (by simpa using hid),
        count_filter_of_false (by simpa using hid), count_filter_of_false (by simpa using hid)]
      omega
  order := h.order.sublist pending_cleaned
  waits c hc t ht := h.waits c (pending_cleaned.subset hc) t (mem_filter.mp ht).1
  notCancel t ht := h.notCancel t (mem_filter.mp ht).1
  done c hc t ht := by
    refine h.done c hc t ?_
    rcases mem_append.mp ht with ht | ht
    · exact mem_append_left _ (pending_cleaned.subset ht)
    · exact mem_append_right _ (mem_filter.mp ht).1
  started := h.started

lemma Flags.cleaned (h : st.Flags) : (st.cleaned idTarget).Flags where
  mainFlight := h.mainFlight
  workerFlight := h.workerFlight
  busyPhase := h.busyPhase
  quiet hphase := by
    change st.queue.queueTasksUnhandled.filter _ = []
    rw [h.quiet hphase]
    rfl
  declined := by
    change st.queue.queueTasksUnhandled.filter _ = _
    rw [h.declined, filter_filter]
    refine filter_congr fun t ht => ?_
    by_cases hremoved : t ∈ st.removed
    · simp [QueueRun.cleaned, hremoved]
    · have hmem : t ∈ st.queue.queueTasksUnhandled := by
        rw [h.declined]
        exact mem_filter.mpr ⟨ht, decide_eq_true hremoved⟩
      by_cases hid : t.id = idTarget <;>
        simp [QueueRun.cleaned, ServerQueue.cancelled, hmem, hid]

/-- The state after a task was added. -/
def added (st : QueueRun) (x : QueueTask) (front : Bool) : QueueRun :=
  { st with queue := st.queue.push x front, posted := st.posted ++ [x] }

lemma mem_pending_added : t ∈ (st.added x front).pending ↔ t ∈ st.pending ∨ t = x := by
  simp only [pending, added, ServerQueue.push, mem_append]
  cases front
  · simp only [Bool.false_eq_true, if_false, mem_append, mem_singleton]
    tauto
  · simp only [if_true, mem_cons]
    tauto

lemma count_pending_added :
    (st.added x front).pending.count t = st.pending.count t + [x].count t := by
  simp only [pending, added, ServerQueue.push, flying, count_append]
  cases front
  · simp only [Bool.false_eq_true, if_false, count_append]
    omega
  · simp only [if_true, count_cons, count_nil]
    omega

/-- A new task is not cancelled by the tasks before it. -/
lemma not_cancels_new {a : QueueTask} (h : a.seq < x.seq) : ¬a.Cancels x :=
  fun hc => absurd hc.2.2 (by omega)

lemma Data.added (h : st.Data) (hseq : x.seq = st.posted.length)
    (hunhandled : ∀ t ∈ st.queue.queueTasks, ¬x.Cancels t)
    (hdeferred : ∀ t ∈ st.queue.queueTasksDeferred, ¬x.Cancels t) : (st.added x front).Data where
  seqs i t ht := by
    change (st.posted ++ [x])[i]? = some t at ht
    rcases Nat.lt_trichotomy i st.posted.length with hi | rfl | hi
    · rw [getElem?_append_left hi] at ht
      exact h.seqs i t ht
    · rw [getElem?_concat_length] at ht
      cases ht
      exact hseq
    · rw [getElem?_eq_none (by simp; omega)] at ht
      cases ht
  places t := by
    have hplaces := h.places t
    rw [count_pending_added]
    change (st.posted ++ [x]).count t = _ + st.queue.queueTasksDeferred.count t +
      st.accepted.count t + st.removed.count t
    rw [count_append]
    omega
  order := by
    have hnew : ∀ a ∈ st.pending, ¬a.Cancels x := fun a ha =>
      not_cancels_new (hseq ▸ h.seq_lt (.inl ha))
    cases front with
    | false =>
      have heq : (st.added x false).pending = st.pending ++ [x] := by
        simp [pending, QueueRun.added, ServerQueue.push, flying]
      rw [heq]
      refine pairwise_append.mpr ⟨h.order, pairwise_singleton _ _, ?_⟩
      intro a ha b hb
      rw [mem_singleton.mp hb]
      exact hnew a ha
    | true =>
      obtain ⟨hfirst, hqueue, hcross⟩ := pairwise_append.mp h.order
      refine pairwise_append.mpr ⟨hfirst, pairwise_cons.mpr ⟨hunhandled, hqueue⟩, ?_⟩
      intro a ha b hb
      rcases mem_cons.mp hb with rfl | hb
      · exact hnew a (mem_append_left _ ha)
      · exact hcross a ha b hb
  waits c hc t ht := by
    rcases mem_pending_added.mp hc with hc | rfl
    · exact h.waits c hc t ht
    · exact hdeferred t ht
  notCancel := h.notCancel
  done c hc t ht := by
    rcases mem_append.mp ht with ht | ht
    · rcases mem_pending_added.mp ht with ht | rfl
      · exact h.done c hc t (mem_append_left _ ht)
      · exact not_cancels_new (hseq ▸ h.seq_lt (.inr (.inr hc)))
    · exact h.done c hc t (mem_append_right _ ht)
  started := h.started

lemma Flags.added (h : st.Flags) : (st.added x front).Flags where
  mainFlight := h.mainFlight
  workerFlight := h.workerFlight
  busyPhase := h.busyPhase
  quiet := h.quiet
  declined := h.declined

lemma postTask_eq :
    st.postTask task front = (if task.type = .cancel then st.cleaned task.idTarget else st).added
      ⟨task, st.posted.length⟩ front := by
  unfold postTask
  by_cases hcancel : task.type = .cancel
  · simp [hcancel, QueueRun.added, QueueRun.cleaned]
  · simp [hcancel, QueueRun.added]

lemma Data.postTask (h : st.Data) : (st.postTask task front).Data := by
  rw [postTask_eq]
  split
  · refine h.cleaned.added rfl ?_ ?_
    · intro t ht hc
      exact absurd hc.2.1.symm (by simpa using (mem_filter.mp ht).2)
    · intro t ht hc
      exact absurd hc.2.1.symm (by simpa using (mem_filter.mp ht).2)
  · next hno => exact h.added rfl (fun t _ hc => hno hc.1) fun t _ hc => hno hc.1

lemma Flags.postTask (h : st.Flags) : (st.postTask task front).Flags := by
  rw [postTask_eq]
  split
  · exact h.cleaned.added
  · exact h.added

lemma deferredFor_mem {q : ServerQueue} {idSlot : ℤ} (h : q.deferredFor idSlot = some t) :
    t ∈ q.queueTasksDeferred := by
  unfold ServerQueue.deferredFor at h
  cases hfind : q.queueTasksDeferred.find? fun t => t.idSlot = idSlot with
  | some t' =>
    rw [hfind] at h
    cases h
    exact mem_of_find?_eq_some hfind
  | none =>
    rw [hfind] at h
    exact mem_of_head? h

lemma Data.popDeferredTask {idSlot : ℤ} (h : st.Data) :
    { st with queue := st.queue.popDeferredTask idSlot }.Data := by
  unfold ServerQueue.popDeferredTask
  split
  · exact h
  next t hfor =>
  have ht := deferredFor_mem hfor
  have hsplit : ∀ a, st.queue.queueTasksDeferred.count a =
      [t].count a + (st.queue.queueTasksDeferred.erase t).count a := by
    intro a
    rw [← count_append]
    exact (perm_cons_erase ht).count_eq a
  have hpending : ({ st with queue := { st.queue with
      queueTasks := t :: st.queue.queueTasks
      queueTasksDeferred := st.queue.queueTasksDeferred.erase t } } : QueueRun).pending =
      (st.queue.queueTasksUnhandled ++ st.flying) ++ t :: st.queue.queueTasks := rfl
  have hmem : ∀ a, a ∈ (st.queue.queueTasksUnhandled ++ st.flying) ++ t :: st.queue.queueTasks →
      a = t ∨ a ∈ st.pending := by
    intro a ha
    rcases mem_append.mp ha with ha | ha
    · exact .inr (mem_append_left _ ha)
    · rcases mem_cons.mp ha with rfl | ha
      · exact .inl rfl
      · exact .inr (mem_append_right _ ha)
  have herase : ∀ a, a ∈ st.queue.queueTasksDeferred.erase t → a ∈ st.queue.queueTasksDeferred :=
    fun a ha => mem_of_mem_erase ha
  refine ⟨h.seqs, ?_, ?_, ?_, fun a ha => h.notCancel a (herase a ha), ?_, h.started⟩
  · intro a
    have hplaces := h.places a
    rw [hsplit a] at hplaces
    rw [hpending]
    simp only [pending, count_append, count_cons] at hplaces ⊢
    simp only [count_nil] at hplaces
    omega
  · obtain ⟨hfirst, hqueue, hcross⟩ := pairwise_append.mp h.order
    refine pairwise_append.mpr ⟨hfirst, pairwise_cons.mpr ⟨?_, hqueue⟩, ?_⟩
    · exact fun b _ hc => h.notCancel t ht hc.1
    · intro a ha b hb
      rcases mem_cons.mp hb with rfl | hb
      · exact h.waits a (mem_append_left _ ha) b ht
      · exact hcross a ha b hb
  · intro c hc a ha
    rcases hmem c hc with rfl | hc
    · exact fun hcancel => h.notCancel c ht hcancel.1
    · exact h.waits c hc a (herase a ha)
  · intro c hc a ha
    refine h.done c hc a ?_
    rcases mem_append.mp ha with ha | ha
    · rcases hmem a ha with rfl | ha
      · exact mem_append_right _ ht
      · exact mem_append_left _ ha
    · exact mem_append_right _ (herase a ha)

lemma Flags.popDeferredTask {idSlot : ℤ} (h : st.Flags) :
    { st with queue := st.queue.popDeferredTask idSlot }.Flags := by
  unfold ServerQueue.popDeferredTask
  split
  · exact h
  · exact ⟨h.mainFlight, h.workerFlight, h.busyPhase, h.quiet, h.declined⟩

/-! ## The callback -/

/-- Taking a task out of the queue leaves what waits as it is. -/
lemma pop_eq (hs : st.pop worker = some st') : ∃ t queueTasks,
    st.inFlight = none ∧ st.queue.queueTasks = t :: queueTasks ∧
    st' = { st with queue := { st.queue with queueTasks := queueTasks },
                    inFlight := some (t, worker) } := by
  unfold pop at hs
  split at hs
  · next t queueTasks _ hnone hqueue =>
    cases hs
    exact ⟨t, queueTasks, hnone, hqueue, rfl⟩
  · cases hs

lemma Data.pop (h : st.Data) (hs : st.pop worker = some st') : st'.Data := by
  obtain ⟨t, queueTasks, hnone, hqueue, rfl⟩ := pop_eq hs
  refine h.of_eq ?_ rfl rfl rfl rfl
  simp [pending, flying, hnone, hqueue]

/-- What the callback may do, by the thread that calls it. -/
lemma processSingleTask_cases (type : ServerTaskType) (worker available : Bool) :
    (processSingleTask type worker available = .accepted ∧ (type = .cancel → worker = false)) ∨
    (processSingleTask type worker available = .deferred ∧ type ≠ .cancel ∧ worker = false) ∨
    (processSingleTask type worker available = .declined ∧ worker = true) := by
  cases type <;> cases worker <;> cases available <;> decide

/-- Only the main thread hands out tasks while there are no declined ones. -/
lemma Flags.unhandled_nil (h : st.Flags) (hflight : st.inFlight = some (t, worker))
    (hmain : worker = false) : st.queue.queueTasksUnhandled = [] := by
  rw [hmain] at hflight
  exact h.quiet (.inl (h.mainFlight t hflight))

lemma Data.accept {t : QueueTask} {worker : Bool} (h : st.Data) (hflags : st.Flags)
    (hflight : st.inFlight = some (t, worker)) (hcancel : t.type = .cancel → worker = false) :
    (st.finish t .accepted).Data := by
  have hpending : st.pending = st.queue.queueTasksUnhandled ++ [t] ++ st.queue.queueTasks := by
    rw [pending, flying, hflight]
    rfl
  have hafter : (st.finish t .accepted).pending =
      st.queue.queueTasksUnhandled ++ st.queue.queueTasks := by
    simp [pending, flying, finish]
  have hsub : (st.finish t .accepted).pending.Sublist st.pending := by
    rw [hafter]
    exact (sublist_append_left _ _).append (List.Sublist.refl _)
  have ht : t ∈ st.pending := by
    rw [hpending]
    simp
  refine ⟨h.seqs, ?_, h.order.sublist hsub, fun c hc => h.waits c (hsub.subset hc), h.notCancel,
    ?_, ?_⟩
  · intro a
    have hplaces := h.places a
    rw [hpending] at hplaces
    rw [hafter]
    change st.posted.count a = _ + st.queue.queueTasksDeferred.count a +
      (st.accepted ++ [t]).count a + st.removed.count a
    simp only [count_append] at hplaces ⊢
    omega
  · intro c hc a ha
    have ha' : a ∈ st.pending ++ st.queue.queueTasksDeferred := by
      rcases mem_append.mp ha with ha | ha
      · exact mem_append_left _ (hsub.subset ha)
      · exact mem_append_right _ ha
    rcases mem_append.mp hc with hc | hc
    · exact h.done c hc a ha'
    rw [mem_singleton.mp hc]
    intro hcancels
    -- the main thread hands out a cancel, so only the queue stands behind it
    have hnil := hflags.unhandled_nil hflight (hcancel hcancels.1)
    rcases mem_append.mp ha with ha | ha
    · rw [hafter, hnil] at ha
      rw [hnil] at hpending
      have horder := h.order
      rw [hpending] at horder
      exact (pairwise_cons.mp horder).1 a ha hcancels
    · exact h.waits t ht a ha hcancels
  · refine pairwise_append.mpr ⟨h.started, pairwise_singleton _ _, ?_⟩
    intro c hc a ha
    rw [mem_singleton.mp ha]
    exact h.done c hc t (mem_append_left _ ht)

lemma Data.defer (h : st.Data) (hflags : st.Flags) (hflight : st.inFlight = some (t, worker))
    (hmain : worker = false) (htype : t.type ≠ .cancel)
    (hlate : ∀ c ∈ st.queue.queueTasks, ¬c.Cancels t) : (st.finish t .deferred).Data := by
  have hnil := hflags.unhandled_nil hflight hmain
  have hpending : st.pending = t :: st.queue.queueTasks := by
    rw [pending, flying, hflight, hnil]
    rfl
  have hafter : (st.finish t .deferred).pending = st.queue.queueTasks := by
    simp [pending, flying, finish, ServerQueue.defer, hnil]
  have hsub : (st.finish t .deferred).pending.Sublist st.pending := by
    rw [hpending, hafter]
    exact sublist_cons_self _ _
  have ht : t ∈ st.pending := hpending ▸ mem_cons_self
  refine ⟨h.seqs, ?_, h.order.sublist hsub, ?_, ?_, ?_, h.started⟩
  · intro a
    have hplaces := h.places a
    rw [hpending] at hplaces
    rw [hafter]
    change st.posted.count a = _ + (st.queue.queueTasksDeferred ++ [t]).count a +
      st.accepted.count a + st.removed.count a
    simp only [count_append, count_cons, count_nil] at hplaces ⊢
    omega
  · intro c hc a ha
    rcases mem_append.mp ha with ha | ha
    · exact h.waits c (hsub.subset hc) a ha
    · rw [mem_singleton.mp ha]
      exact hlate c (hafter ▸ hc)
  · intro a ha
    rcases mem_append.mp ha with ha | ha
    · exact h.notCancel a ha
    · exact mem_singleton.mp ha ▸ htype
  · intro c hc a ha
    refine h.done c hc a ?_
    rcases mem_append.mp ha with ha | ha
    · exact mem_append_left _ (hsub.subset ha)
    rcases mem_append.mp ha with ha | ha
    · exact mem_append_right _ ha
    · rw [mem_singleton.mp ha]
      exact mem_append_left _ ht

lemma Data.decline (h : st.Data) (hflight : st.inFlight = some (t, worker)) :
    (st.finish t .declined).Data := by
  refine h.of_eq ?_ rfl rfl rfl rfl
  simp [pending, flying, finish, hflight]

lemma Flags.finish {outcome : TaskOutcome} (h : st.Flags) (hdata : st.Data)
    (hflight : st.inFlight = some (t, worker)) (hdeclined : outcome = .declined → worker = true) :
    (st.finish t outcome).Flags := by
  cases outcome with
  | accepted =>
    exact ⟨fun _ h => (by cases h), fun _ h => (by cases h), h.busyPhase, h.quiet, h.declined⟩
  | deferred =>
    exact ⟨fun _ h => (by cases h), fun _ h => (by cases h), h.busyPhase, h.quiet, h.declined⟩
  | declined =>
    have hworker := hdeclined rfl
    subst hworker
    refine ⟨fun _ h => (by cases h), fun _ h => (by cases h), h.busyPhase, ?_, ?_⟩
    · intro hphase
      have hbusy := h.busyPhase (h.workerFlight t hflight)
      change st.phase = .tasks ∨ st.phase = .slots at hphase
      rcases hphase with hphase | hphase <;> rw [hphase] at hbusy <;> simp at hbusy
    · have hnot : t ∉ st.removed := by
        refine hdata.not_removed ?_
        simp [pending, flying, hflight]
      change st.queue.queueTasksUnhandled ++ [t] =
        (st.declined ++ [t]).filter fun t => t ∉ st.removed
      rw [filter_append, ← h.declined]
      simp [hnot]

/-! ## Runs -/

/-- No task is deferred while a cancel of it waits in the queue. -/
def NoLateDefer (st : QueueRun) : QueueOp → Prop
  | .callback available => ∀ t worker, st.inFlight = some (t, worker) →
      processSingleTask t.type worker available = .deferred →
      ∀ c ∈ st.queue.queueTasks, ¬c.Cancels t
  | _ => True

/-- What holds in every state. -/
structure Inv (st : QueueRun) : Prop where
  data : st.Data
  flags : st.Flags
  cancelled : ∀ t ∈ st.removed, ∃ c ∈ st.posted, c.Cancels t

lemma Inv.postTask (h : st.Inv) : (st.postTask task front).Inv := by
  refine ⟨h.data.postTask, h.flags.postTask, ?_⟩
  intro t ht
  rcases mem_append.mp ht with ht | ht
  · obtain ⟨c, hc, hcancels⟩ := h.cancelled t ht
    exact ⟨c, mem_append_left _ hc, hcancels⟩
  refine ⟨⟨task, st.posted.length⟩, mem_append_right _ (mem_singleton_self _), ?_⟩
  split at ht
  · next hcancel =>
    obtain ⟨hmem, hid⟩ := mem_filter.mp ht
    refine ⟨by simpa using hcancel, (of_decide_eq_true hid).symm, h.data.seq_lt ?_⟩
    simp only [mem_append] at hmem
    rcases hmem with (hmem | hmem) | hmem
    · exact .inl (mem_append_right _ hmem)
    · exact .inr (.inl hmem)
    · exact .inl (mem_append_left _ (mem_append_left _ hmem))
  · cases ht

/-- Steps that leave the tasks where they are. -/
lemma Inv.of_flags (h : st.Inv) (hqueue : st'.queue.queueTasks = st.queue.queueTasks)
    (hdeferred : st'.queue.queueTasksDeferred = st.queue.queueTasksDeferred)
    (hunhandled : st'.queue.queueTasksUnhandled = st.queue.queueTasksUnhandled)
    (hflight : st'.inFlight = st.inFlight) (hposted : st'.posted = st.posted)
    (hrecorded : (st'.accepted, st'.removed, st'.declined) = (st.accepted, st.removed, st.declined))
    (hmain : ∀ t, st.inFlight = some (t, false) → st'.phase = .tasks)
    (hworker : ∀ t, st.inFlight = some (t, true) → st'.queue.busy = true)
    (hbusy : st'.queue.busy = true → st'.phase = .computing ∨ st'.phase = .waiting)
    (hquiet : st'.phase = .tasks ∨ st'.phase = .slots → st.queue.queueTasksUnhandled = []) :
    st'.Inv := by
  obtain ⟨haccepted, hrest⟩ := Prod.mk.inj hrecorded
  obtain ⟨hremoved, hdeclined⟩ := Prod.mk.inj hrest
  have hpending : st'.pending = st.pending := by
    rw [pending, pending, flying, flying, hqueue, hunhandled, hflight]
  refine ⟨h.data.of_eq hpending hposted hdeferred haccepted hremoved,
    ⟨hflight ▸ hmain, hflight ▸ hworker, hbusy, hunhandled ▸ hquiet, ?_⟩, ?_⟩
  · rw [hunhandled, hdeclined, hremoved]
    exact h.flags.declined
  · rw [hposted, hremoved]
    exact h.cancelled

lemma Inv.callback {available : Bool} (h : st.Inv)
    (hlate : st.NoLateDefer (.callback available)) (hflight : st.inFlight = some (t, worker)) :
    (st.finish t (processSingleTask t.type worker available)).Inv := by
  rcases processSingleTask_cases t.type worker available with
    ⟨heq, hcancel⟩ | ⟨heq, htype, hmain⟩ | ⟨heq, hworker⟩
  · rw [heq]
    exact ⟨h.data.accept h.flags hflight hcancel,
      h.flags.finish h.data hflight fun h => (by cases h), h.cancelled⟩
  · have hno := hlate t worker hflight heq
    rw [heq]
    exact ⟨h.data.defer h.flags hflight hmain htype hno,
      h.flags.finish h.data hflight fun h => (by cases h), h.cancelled⟩
  · rw [heq]
    exact ⟨h.data.decline hflight, h.flags.finish h.data hflight fun _ => hworker, h.cancelled⟩

lemma Inv.postAll {tasks : List NewTask} (h : st.Inv) : (tasks.foldl (postNext front) st).Inv := by
  induction tasks generalizing st with
  | nil => exact h
  | cons task tasks ih =>
    refine ih ?_
    unfold postNext
    split
    · have hid : { st with queue := { st.queue with id := st.queue.id + 1 } }.Inv :=
        h.of_flags rfl rfl rfl rfl rfl rfl h.flags.mainFlight h.flags.workerFlight
          h.flags.busyPhase h.flags.quiet
      exact hid.postTask
    · exact h.postTask

lemma Inv.putBack (h : st.Inv) (hphase : st.phase = .waiting) (hbusy : ¬st.queue.busy) :
    st.putBack.Inv := by
  have hnone : st.inFlight = none := by
    cases hflight : st.inFlight with
    | none => rfl
    | some f =>
      obtain ⟨t, worker⟩ := f
      cases worker with
      | true => exact absurd (h.flags.workerFlight t hflight) hbusy
      | false =>
        have hmain := h.flags.mainFlight t hflight
        rw [hphase] at hmain
        cases hmain
  refine ⟨h.data.of_eq ?_ rfl rfl rfl rfl, ⟨?_, ?_, ?_, fun _ => rfl, rfl⟩, h.cancelled⟩
  · simp [pending, flying, QueueRun.putBack, hnone]
  · intro t hflight
    rw [show st.inFlight = some (t, false) from hflight] at hnone
    cases hnone
  · intro t hflight
    rw [show st.inFlight = some (t, true) from hflight] at hnone
    cases hnone
  · exact fun hb => absurd hb hbusy

lemma Inv.pop (h : st.Inv) (hs : st.pop worker = some st')
    (hmain : worker = false → st.phase = .tasks) (hworker : worker = true → st.queue.busy = true) :
    st'.Inv := by
  refine ⟨h.data.pop hs, ?_, ?_⟩ <;> obtain ⟨t, queueTasks, -, -, rfl⟩ := pop_eq hs
  · refine ⟨?_, ?_, h.flags.busyPhase, h.flags.quiet, h.flags.declined⟩
    · intro t' heq
      cases heq
      exact hmain rfl
    · intro t' heq
      cases heq
      exact hworker rfl
  · exact h.cancelled

lemma Inv.step {op : QueueOp} (h : st.Inv) (hlate : st.NoLateDefer op)
    (hs : st.step op = some st') : st'.Inv := by
  have hflags := h.flags
  cases op with
  | getNewId =>
    cases hs
    exact h.of_flags rfl rfl rfl rfl rfl rfl hflags.mainFlight hflags.workerFlight
      hflags.busyPhase hflags.quiet
  | post task front =>
    obtain ⟨-, hs⟩ := Option.ite_none_left_eq_some.mp hs
    cases hs
    exact h.postTask
  | postAll tasks front =>
    cases hs
    exact h.postAll
  | popDeferredTask idSlot =>
    cases hs
    refine ⟨h.data.popDeferredTask, hflags.popDeferredTask, h.cancelled⟩
  | terminate =>
    cases hs
    exact h.of_flags rfl rfl rfl rfl rfl rfl hflags.mainFlight hflags.workerFlight
      hflags.busyPhase hflags.quiet
  | popMain =>
    obtain ⟨hphase, hs⟩ := Option.ite_none_right_eq_some.mp hs
    exact h.pop hs (fun _ => hphase) fun h => (by cases h)
  | popWorker =>
    obtain ⟨hbusy, hs⟩ := Option.ite_none_right_eq_some.mp hs
    exact h.pop hs (fun h => (by cases h)) fun _ => hbusy
  | callback available =>
    obtain ⟨f, hflight, rfl⟩ := Option.map_eq_some_iff.mp hs
    exact h.callback hlate hflight
  | tasksDone =>
    obtain ⟨⟨hphase, hnone, -⟩, hs⟩ := Option.ite_none_right_eq_some.mp hs
    cases hs
    refine h.of_flags rfl rfl rfl rfl rfl rfl ?_ hflags.workerFlight ?_ fun _ =>
      hflags.quiet (.inl hphase)
    · intro t hflight
      rw [hnone] at hflight
      cases hflight
    · intro hbusy
      have := hflags.busyPhase hbusy
      rw [hphase] at this
      simp at this
  | slotsDone =>
    obtain ⟨hphase, hs⟩ := Option.ite_none_right_eq_some.mp hs
    cases hs
    refine h.of_flags rfl rfl rfl rfl rfl rfl (fun _ _ => rfl) hflags.workerFlight ?_ fun _ =>
      hflags.quiet (.inr hphase)
    intro hbusy
    have := hflags.busyPhase hbusy
    rw [hphase] at this
    simp at this
  | yieldBegin =>
    obtain ⟨⟨hphase, -⟩, hs⟩ := Option.ite_none_right_eq_some.mp hs
    cases hs
    refine h.of_flags rfl rfl rfl rfl rfl rfl ?_ (fun _ _ => rfl) (fun _ => .inl rfl) fun _ =>
      hflags.quiet (.inr hphase)
    intro t hflight
    have := hflags.mainFlight t hflight
    rw [hphase] at this
    cases this
  | workDone =>
    obtain ⟨hphase, hs⟩ := Option.ite_none_right_eq_some.mp hs
    cases hs
    refine h.of_flags rfl rfl rfl rfl rfl rfl ?_ hflags.workerFlight (fun _ => .inr rfl) ?_
    · intro t hflight
      have := hflags.mainFlight t hflight
      rw [hphase] at this
      cases this
    · rintro (h | h) <;> cases h
  | workerDone =>
    obtain ⟨⟨-, hnone⟩, hs⟩ := Option.ite_none_right_eq_some.mp hs
    cases hs
    refine h.of_flags rfl rfl rfl rfl rfl rfl hflags.mainFlight ?_ (fun h => (by cases h))
      hflags.quiet
    intro t hflight
    rw [hnone] at hflight
    cases hflight
  | yieldEnd =>
    obtain ⟨⟨hphase, hbusy⟩, hs⟩ := Option.ite_none_right_eq_some.mp hs
    cases hs
    exact h.putBack hphase hbusy

lemma inv_init : init.Inv := ⟨data_init, flags_init, fun _ h => (by cases h)⟩

/-- **Every task is in one place, and a cancelled task never starts**, in the runs in which no task
is deferred while a cancel of it waits in the queue.  What was removed was cancelled; the declined
tasks go back to the front in their order; and once a cancel was accepted, the task it cancels is
in no queue and not in flight, nor accepted later. -/
theorem places_of_reachable (h : Run.Reachable step NoLateDefer init st) : st.posted.Nodup ∧
    st.posted.Perm (st.queue.queueTasks ++ st.queue.queueTasksDeferred ++
      st.queue.queueTasksUnhandled ++ st.flying ++ st.accepted ++ st.removed) ∧
    (∀ t ∈ st.removed, ∃ c ∈ st.posted, c.Cancels t) ∧
    (∀ st', st.step .yieldEnd = some st' → st'.queue.queueTasks =
      (st.declined.filter fun t => t ∉ st.removed) ++ st.queue.queueTasks) ∧
    (∀ c ∈ st.accepted, ∀ t, c.Cancels t → t ∉ st.queue.queueTasks ++
      st.queue.queueTasksDeferred ++ st.queue.queueTasksUnhandled ++ st.flying) ∧
    st.accepted.Pairwise fun a b => ¬a.Cancels b := by
  have hinv : st.Inv := h.invariant inv_init fun _ _ _ hi hlate hs => hi.step hlate hs
  refine ⟨hinv.data.posted_nodup, ?_, hinv.cancelled, ?_, ?_, hinv.data.started⟩
  · refine List.perm_iff_count.mpr fun t => ?_
    have hplaces := hinv.data.places t
    simp only [pending, List.count_append] at hplaces ⊢
    omega
  · intro st' hs
    obtain ⟨-, hs⟩ := Option.ite_none_right_eq_some.mp hs
    cases hs
    rw [← hinv.flags.declined]
    rfl
  · intro c hc t hcancels hmem
    refine hinv.data.done c hc t ?_ hcancels
    simp only [pending, List.mem_append] at hmem ⊢
    tauto

/-- A task that waits for a slot, and a cancel of it. -/
def waitingTask : NewTask := ⟨-1, .completion, -1, -1⟩

/-- The cancel of the first task. -/
def cancelFirst : NewTask := ⟨-1, .cancel, 0, -1⟩

lemma noLateDefer_available (st : QueueRun) : st.NoLateDefer (.callback true) := by
  intro t worker _ hdeferred
  rcases t with ⟨⟨id, type, idTarget, idSlot⟩, seq⟩
  cases type <;> cases worker <;> cases hdeferred

/-- A task waits, its cancel removes it, and the cancel is accepted. -/
theorem places_of_reachable_cancelled : ∃ st, Run.Reachable step NoLateDefer init st ∧
    st.accepted = [⟨⟨1, .cancel, 0, -1⟩, 1⟩] ∧ st.removed = [⟨⟨0, .completion, -1, -1⟩, 0⟩] ∧
    st.posted.Perm (st.queue.queueTasks ++ st.queue.queueTasksDeferred ++
      st.queue.queueTasksUnhandled ++ st.flying ++ st.accepted ++ st.removed) := by
  have hrun : ([.postAll [waitingTask] false, .postAll [cancelFirst] true, .popMain,
      .callback true].foldlM step init).map (fun st => (st.accepted, st.removed)) =
      some ([⟨⟨1, .cancel, 0, -1⟩, 1⟩], [⟨⟨0, .completion, -1, -1⟩, 0⟩]) := by
    decide +kernel
  obtain ⟨st, hst, heq⟩ := Option.map_eq_some_iff.mp hrun
  obtain ⟨haccepted, hremoved⟩ := Prod.mk.inj heq
  have hreach : Run.Reachable step NoLateDefer init st := by
    refine Run.Reachable.init.foldlM (fun st op hop => ?_) hst
    simp only [List.mem_cons, List.not_mem_nil, or_false] at hop
    rcases hop with rfl | rfl | rfl | rfl
    · trivial
    · trivial
    · trivial
    · exact noLateDefer_available st
  exact ⟨st, hreach, haccepted, hremoved, (places_of_reachable hreach).2.1⟩

/-- A task is in flight when its cancel is posted, is deferred after that, and starts after its
cancel was accepted. -/
theorem not_places_lateDefer : ∃ st c t, Run.Reachable step (fun _ _ => True) init st ∧
    c.Cancels t ∧ st.accepted = [c, t] ∧ st.removed = [] ∧
    ¬st.accepted.Pairwise fun a b => ¬a.Cancels b := by
  have hrun : ([.postAll [waitingTask] false, .popMain, .postAll [cancelFirst] true,
      .callback false, .popMain, .callback true, .popDeferredTask 0, .popMain,
      .callback true].foldlM step init).map (fun st => (st.accepted, st.removed)) =
      some ([⟨⟨1, .cancel, 0, -1⟩, 1⟩, ⟨⟨0, .completion, -1, -1⟩, 0⟩], []) := by
    decide +kernel
  obtain ⟨st, hst, heq⟩ := Option.map_eq_some_iff.mp hrun
  obtain ⟨haccepted, hremoved⟩ := Prod.mk.inj heq
  refine ⟨st, ⟨⟨1, .cancel, 0, -1⟩, 1⟩, ⟨⟨0, .completion, -1, -1⟩, 0⟩,
    Run.Reachable.init.foldlM (fun _ _ _ => trivial) hst, by decide, haccepted, hremoved, ?_⟩
  rw [haccepted]
  decide

end QueueRun

end Llama
