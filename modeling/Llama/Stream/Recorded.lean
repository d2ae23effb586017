import Llama.Stream
import Mathlib.Data.List.Nodup

/-!
# What is recorded

A session that a step removes from the map or finalizes, while it is live, is recorded with its
cause.  The map has one entry for a conversation id.
-/

namespace Llama

open List Option

namespace StreamState

variable {st st' : StreamState}

variable {s : ℕ} {cause : StreamCause} {cancels : Bool} {headers : List (String × String)}
  {sessions : List ℕ}

lemma live_iff :
    st.live s = true ↔ ∃ session, st.sessions[s]? = some session ∧ session.done = false := by
  unfold live
  cases st.sessions[s]? <;> simp

@[simp] lemma record_sessions : (st.record s cause).sessions = st.sessions := by
  unfold record
  split <;> rfl

@[simp] lemma record_responses : (st.record s cause).responses = st.responses := by
  unfold record
  split <;> rfl

@[simp] lemma record_entries : (st.record s cause).entries = st.entries := by
  unfold record
  split <;> rfl

@[simp] lemma record_tails : (st.record s cause).tails = st.tails := by
  unfold record
  split <;> rfl

lemma mem_record {e : StreamEvent} (h : e ∈ (st.record s cause).log) :
    e ∈ st.log ∨ e = ⟨s, cause⟩ ∧ st.live s = true := by
  unfold record at h
  split at h
  · next hlive =>
    rcases mem_append.mp h with h | h
    · exact .inl h
    · exact .inr ⟨mem_singleton.mp h, hlive⟩
  · exact .inl h

/-- The state after a response was added, without what replacing a session leaves to do. -/
def pushed (st : StreamState) (headers : List (String × String)) (conversationId : String) :
    StreamState :=
  { st with
    entries := (conversationId, st.sessions.length) ::
      st.entries.filter fun e => e.1 ≠ conversationId
    sessions := st.sessions ++ [.new conversationId]
    responses := st.responses ++ [⟨headers, some st.sessions.length, false, false, false⟩] }

lemma drop_responses {responses : List ServerResSpipe} :
    { st.drop s cancels cause with responses := responses } =
      { st with responses := responses }.drop s cancels cause := by
  have hlive : { st with responses := responses }.live s = st.live s := rfl
  unfold StreamState.drop record
  rw [hlive]
  split <;> rfl

lemma setReq_eq (hid : convIdFromHeaders headers ≠ "") : st.setReq headers =
      match st.entries.lookup (convIdFromHeaders headers) with
      | some previous => (st.pushed headers (convIdFromHeaders headers)).drop previous true
          (.replaced st.responses.length)
      | none => st.pushed headers (convIdFromHeaders headers) := by
  unfold setReq createOrReplace
  rw [if_neg hid]
  cases st.entries.lookup (convIdFromHeaders headers) with
  | none => rfl
  | some previous => exact drop_responses

/-- A session that was added, or one that was there. -/
lemma getElem?_concat_cases {α : Type} {l : List α} {x y : α} {i : ℕ}
    (h : (l ++ [y])[i]? = some x) : l[i]? = some x ∨ i = l.length ∧ x = y := by
  rcases Nat.lt_trichotomy i l.length with hi | rfl | hi
  · rw [getElem?_append_left hi] at h
    exact .inl h
  · rw [getElem?_concat_length] at h
    exact .inr ⟨rfl, (Option.some.inj h).symm⟩
  · rw [getElem?_eq_none (by simp; omega)] at h
    cases h

/-! ## One entry for a conversation id -/

/-- The map has one entry for a conversation id. -/
def Keyed (st : StreamState) : Prop := (st.entries.map Prod.fst).Nodup

lemma lookup_of_mem {entries : List (String × ℕ)} (h : (entries.map Prod.fst).Nodup)
    {e : String × ℕ} (he : e ∈ entries) : entries.lookup e.1 = some e.2 := by
  induction entries with
  | nil => cases he
  | cons e0 entries ih =>
    obtain ⟨hnew, htail⟩ := nodup_cons.mp h
    rcases mem_cons.mp he with rfl | he
    · exact lookup_cons_self
    · have hne : e.1 ≠ e0.1 := fun heq => hnew (heq ▸ mem_map_of_mem he)
      rw [lookup_cons, beq_false_of_ne hne]
      exact ih htail he

lemma keyed_filter (h : st.Keyed) {p : String × ℕ → Bool} :
    ((st.entries.filter p).map Prod.fst).Nodup :=
  h.sublist (filter_sublist.map Prod.fst)

lemma drop_entries : (st.drop s cancels cause).entries = st.entries := record_entries

lemma drop_sessions : (st.drop s cancels cause).sessions = st.sessions := record_sessions

lemma dropAll_eq : (st.dropAll cause sessions).entries = st.entries ∧
      (st.dropAll cause sessions).sessions = st.sessions := by
  induction sessions generalizing st with
  | nil => exact ⟨rfl, rfl⟩
  | cons s sessions ih =>
    obtain ⟨hentries, hsessions⟩ := @ih (st.drop s false cause)
    exact ⟨hentries.trans drop_entries, hsessions.trans drop_sessions⟩

lemma Keyed.evict {conversationId : String} (h : st.Keyed) :
    (st.evict conversationId cancels cause).Keyed := by
  unfold StreamState.evict
  split
  · exact h
  · rw [Keyed, drop_entries]
    exact keyed_filter h

lemma Keyed.setReq (h : st.Keyed) : (st.setReq headers).Keyed := by
  by_cases hid : convIdFromHeaders headers = ""
  · rw [StreamState.setReq, if_pos hid]
    exact h
  have hpushed : (st.pushed headers (convIdFromHeaders headers)).Keyed := by
    refine nodup_cons.mpr ⟨fun hmem => ?_, keyed_filter h⟩
    obtain ⟨e, he, heq⟩ := mem_map.mp hmem
    have hne := (mem_filter.mp he).2
    rw [decide_eq_true_eq] at hne
    exact hne heq
  rw [setReq_eq hid]
  split
  · rw [Keyed, drop_entries]
    exact hpushed
  · exact hpushed

lemma Keyed.step {op : Op} (h : st.Keyed) (hs : st.step op = some st') : st'.Keyed := by
  cases op with
  | setReq headers =>
    cases hs
    exact h.setReq
  | setNext r =>
    obtain ⟨res, -, rfl⟩ := map_eq_some_iff.mp hs
    exact h
  | next r hasNext =>
    obtain ⟨res, -, rfl⟩ := map_eq_some_iff.mp hs
    exact h
  | onComplete r =>
    obtain ⟨res, -, rfl⟩ := map_eq_some_iff.mp hs
    unfold onComplete
    split
    · exact h
    split
    · exact h
    · exact h.evict
  | destroy r now =>
    obtain ⟨res, -, rfl⟩ := map_eq_some_iff.mp hs
    unfold destroy
    split
    · exact h
    · rw [finalizeSession, record_entries]
      exact h
  | delete conversationId =>
    cases hs
    split
    · exact h
    · exact h.evict
  | gc cutoff =>
    cases hs
    rw [Keyed, StreamState.gc, dropAll_eq.1]
    exact keyed_filter h
  | stopGc =>
    cases hs
    rw [Keyed, StreamState.stopGc, dropAll_eq.1]
    exact nodup_nil
  | resume i now =>
    obtain ⟨tail, -, rfl⟩ := map_eq_some_iff.mp hs
    unfold resume
    split
    · exact h
    · rw [finalizeSession, record_entries]
      exact h

/-! ## What ends is recorded -/

/-- A live session is removed from the map or finalized. -/
def Ends (st st' : StreamState) (s : ℕ) : Prop :=
  st.live s = true ∧ (st'.live s = false ∨
    s ∈ st.entries.map Prod.snd ∧ s ∉ st'.entries.map Prod.snd)

/-- A session is recorded with some cause. -/
def Recorded (st : StreamState) (s : ℕ) : Prop := ∃ cause, ⟨s, cause⟩ ∈ st.log

lemma recorded_record (h : st.live s = true) : (st.record s cause).Recorded s := by
  refine ⟨cause, ?_⟩
  rw [record, if_pos h]
  exact mem_append_right _ (mem_singleton_self _)

lemma Recorded.record {s' : ℕ} (h : st.Recorded s) : (st.record s' cause).Recorded s := by
  obtain ⟨c, hc⟩ := h
  refine ⟨c, ?_⟩
  unfold StreamState.record
  split
  · exact mem_append_left _ hc
  · exact hc

lemma Recorded.dropAll (h : st.Recorded s) : (st.dropAll cause sessions).Recorded s := by
  induction sessions generalizing st with
  | nil => exact h
  | cons s' sessions ih => exact @ih (st.drop s' false cause) h.record

lemma recorded_dropAll (h : st.live s = true) (hs : s ∈ sessions) :
    (st.dropAll cause sessions).Recorded s := by
  induction sessions generalizing st with
  | nil => cases hs
  | cons s' sessions ih =>
    rcases mem_cons.mp hs with rfl | hs
    · have hrecorded : (st.drop s false cause).Recorded s := recorded_record h
      exact hrecorded.dropAll
    · refine @ih (st.drop s' false cause) ?_ hs
      rw [live, drop_sessions]
      exact h

lemma recorded_evict {conversationId : String} (h : st.Keyed)
    (hends : st.Ends (st.evict conversationId cancels cause) s) :
    (st.evict conversationId cancels cause).Recorded s := by
  obtain ⟨hlive, hend⟩ := hends
  unfold StreamState.evict at hend ⊢
  split at hend
  · rcases hend with hend | ⟨hmem, hno⟩
    · rw [hlive] at hend
      cases hend
    · exact absurd hmem hno
  next s' hlookup =>
  rcases hend with hend | ⟨hmem, hno⟩
  · rw [live, drop_sessions] at hend
    rw [live, hend] at hlive
    cases hlive
  · obtain ⟨e, he, rfl⟩ := mem_map.mp hmem
    have hid : e.1 = conversationId := by
      by_contra hne
      refine hno (mem_map_of_mem (f := Prod.snd) ?_)
      rw [drop_entries]
      exact mem_filter.mpr ⟨he, decide_eq_true hne⟩
    have hget := lookup_of_mem h he
    rw [hid, hlookup] at hget
    cases hget
    have hfewer : { st with
        entries := st.entries.filter fun e => e.1 ≠ conversationId }.live e.2 = true := hlive
    exact recorded_record hfewer

lemma live_modify_ne {s' : ℕ} {f : StreamSession → StreamSession} (h : s' ≠ s) :
    { st with sessions := st.sessions.modify s' f }.live s = st.live s := by
  simp only [live, getElem?_modify, if_neg h]
  cases st.sessions[s]? <;> rfl

lemma recorded_finalizeSession {s s' : ℕ} {now : ℤ} {cause : StreamCause}
    (hends : st.Ends (st.finalizeSession s' now cause) s) :
    (st.finalizeSession s' now cause).Recorded s := by
  obtain ⟨hlive, hend⟩ := hends
  rcases eq_or_ne s' s with rfl | hne
  · exact recorded_record hlive
  · rcases hend with hend | ⟨hmem, hno⟩
    · have hsame : { st with
          sessions := st.sessions.modify s' (StreamSession.finalize now) }.live s = st.live s :=
        live_modify_ne hne
      rw [finalizeSession] at hend
      rw [live] at hend hsame
      rw [hsame, hlive] at hend
      cases hend
    · rw [finalizeSession, record_entries] at hno
      exact absurd hmem hno

lemma recorded_setReq (h : st.Keyed) (hends : st.Ends (st.setReq headers) s) :
    (st.setReq headers).Recorded s := by
  obtain ⟨hlive, hend⟩ := hends
  by_cases hid : convIdFromHeaders headers = ""
  · rw [setReq, if_pos hid] at hend
    rcases hend with hend | ⟨hmem, hno⟩
    · exact absurd hlive (by rw [show st.live s = false from hend]; exact Bool.false_ne_true)
    · exact absurd hmem hno
  obtain ⟨session, hsession, hdone⟩ := live_iff.mp hlive
  have hpushed : (st.pushed headers (convIdFromHeaders headers)).live s = true := by
    refine live_iff.mpr ⟨session, ?_, hdone⟩
    rw [pushed, getElem?_append_left (List.getElem?_eq_some_iff.mp hsession).1, hsession]
  have hsame : (st.setReq headers).live s = true := by
    rw [setReq_eq hid]
    split
    · rw [live, drop_sessions]
      exact hpushed
    · exact hpushed
  rcases hend with hend | ⟨hmem, hno⟩
  · rw [hsame] at hend
    cases hend
  obtain ⟨e, he, rfl⟩ := mem_map.mp hmem
  have hget := lookup_of_mem h he
  have hconv : e.1 = convIdFromHeaders headers := by
    by_contra hne
    refine hno (mem_map_of_mem (f := Prod.snd) ?_)
    have hkept : e ∈ (st.pushed headers (convIdFromHeaders headers)).entries :=
      mem_cons_of_mem _ (mem_filter.mpr ⟨he, decide_eq_true hne⟩)
    rw [setReq_eq hid]
    split
    · rw [drop_entries]
      exact hkept
    · exact hkept
  rw [hconv] at hget
  rw [setReq_eq hid, hget]
  exact recorded_record hpushed

/-- **A live session that a step removes or finalizes is recorded.** -/
theorem recorded {op : Op} (h : st.Keyed) (hs : st.step op = some st') (hends : st.Ends st' s) :
    st'.Recorded s := by
  have hsame : ∀ st1 : StreamState, st1.entries = st.entries → st1.sessions = st.sessions →
      ¬st.Ends st1 s := by
    rintro st1 hentries hsessions ⟨hlive, hend | ⟨hmem, hno⟩⟩
    · rw [live, hsessions] at hend
      rw [live, hend] at hlive
      cases hlive
    · exact hno (hentries ▸ hmem)
  cases op with
  | setReq headers =>
    cases hs
    exact recorded_setReq h hends
  | setNext r =>
    obtain ⟨res, -, rfl⟩ := map_eq_some_iff.mp hs
    exact absurd hends (hsame _ rfl rfl)
  | next r hasNext =>
    obtain ⟨res, -, rfl⟩ := map_eq_some_iff.mp hs
    exact absurd hends (hsame _ rfl rfl)
  | onComplete r =>
    obtain ⟨res, -, rfl⟩ := map_eq_some_iff.mp hs
    unfold onComplete at hends ⊢
    split at hends
    · exact absurd hends (hsame _ rfl rfl)
    split at hends
    · exact absurd hends (hsame _ rfl rfl)
    · next hgo horig =>
      rw [if_neg hgo, if_neg horig]
      exact recorded_evict h hends
  | destroy r now =>
    obtain ⟨res, -, rfl⟩ := map_eq_some_iff.mp hs
    unfold destroy at hends ⊢
    split at hends
    · exact absurd hends (hsame _ rfl rfl)
    · exact recorded_finalizeSession hends
  | delete conversationId =>
    cases hs
    split at hends
    · exact absurd hends (hsame _ rfl rfl)
    · next hid =>
      rw [if_neg hid]
      exact recorded_evict h hends
  | gc cutoff =>
    cases hs
    obtain ⟨hlive, hend⟩ := hends
    unfold gc at hend ⊢
    rcases hend with hend | ⟨hmem, hno⟩
    · rw [live, dropAll_eq.2] at hend
      rw [live, hend] at hlive
      cases hlive
    · obtain ⟨e, he, rfl⟩ := mem_map.mp hmem
      rw [dropAll_eq.1] at hno
      refine recorded_dropAll hlive (mem_map_of_mem (mem_filter.mpr ⟨he, ?_⟩))
      by_contra hkept
      refine hno (mem_map_of_mem (mem_filter.mpr ⟨he, ?_⟩))
      simpa using hkept
  | stopGc =>
    cases hs
    obtain ⟨hlive, hend⟩ := hends
    unfold stopGc at hend ⊢
    rcases hend with hend | ⟨hmem, -⟩
    · rw [live, dropAll_eq.2] at hend
      rw [live, hend] at hlive
      cases hlive
    · exact recorded_dropAll hlive hmem
  | resume i now =>
    obtain ⟨tail, -, rfl⟩ := map_eq_some_iff.mp hs
    unfold resume at hends ⊢
    split at hends
    · obtain ⟨hlive, hend⟩ := hends
      have hcancel : ({ st with
          sessions := st.sessions.modify tail.session StreamSession.cancel
          tails := st.tails.set i { tail with cancels := false } } : StreamState).live s =
          true := by
        obtain ⟨session, hsession, hdone⟩ := live_iff.mp hlive
        refine live_iff.mpr ⟨_, getElem?_modify .. |>.trans (by rw [hsession]; rfl), ?_⟩
        split
        · exact hdone
        · exact hdone
      rcases hend with hend | ⟨hmem, hno⟩
      · rw [hcancel] at hend
        cases hend
      · exact absurd hmem hno
    · next hno =>
      rw [if_neg hno]
      exact @recorded_finalizeSession { st with tails := st.tails.eraseIdx i } _ _ _ _ hends

end StreamState

end Llama
