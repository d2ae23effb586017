import Llama.Stream.Recorded

/-!
# Why sessions end

A live session is removed from the manager or finalized by its own response, by a newer response
with the same conversation id, by a stop, or by the end of the manager -- in the runs in which a
response that failed before it streamed finds its own session, or none, under its conversation id.
A response that was replaced before it failed finds the session of the response that replaced it,
and removes and finalizes that one.
-/

namespace Llama

open List Option ServerResSpipe

namespace StreamState

variable {st st' : StreamState}

/-- The response `r` writes to the session `s`. -/
def Owner (st : StreamState) (r s : ℕ) : Prop :=
  ∃ res, st.responses[r]? = some res ∧ res.spipe = some s

/-- The causes for which a session may be removed or finalized while it is live. -/
def Allowed (st : StreamState) (s : ℕ) : StreamCause → Prop
  | .completion r => st.Owner r s
  | .cleanup r => st.Owner r s
  | .replaced r => ∃ o res session, st.Owner o s ∧ o < r ∧ st.responses[r]? = some res ∧
      st.sessions[s]? = some session ∧ res.convId = session.conversationId
  | .stop conversationId => ∃ session, st.sessions[s]? = some session ∧
      session.conversationId = conversationId
  | .shutdown => True
  | .expired => False

/-- Responses keep their request and their session, sessions keep their conversation id and stay
done. -/
structure Extends (st st' : StreamState) : Prop where
  responses : ∀ (r : ℕ) (res : ServerResSpipe), st.responses[r]? = some res →
    ∃ res' : ServerResSpipe, st'.responses[r]? = some res' ∧ res'.spipe = res.spipe ∧
      res'.headers = res.headers
  sessions : ∀ (s : ℕ) (session : StreamSession), st.sessions[s]? = some session →
    ∃ session' : StreamSession, st'.sessions[s]? = some session' ∧
      session'.conversationId = session.conversationId ∧
      (session.done = true → session'.done = true)

variable {s : ℕ} {cause : StreamCause} {conversationId : String} {res : ServerResSpipe}
  {headers : List (String × String)}

lemma Owner.extends {r : ℕ} (h : st.Owner r s) (he : st.Extends st') : st'.Owner r s := by
  obtain ⟨res, hres, hs⟩ := h
  obtain ⟨res', hres', hpipe, -⟩ := he.responses r res hres
  exact ⟨res', hres', hpipe.trans hs⟩

lemma Allowed.extends (h : st.Allowed s cause) (he : st.Extends st') : st'.Allowed s cause := by
  cases cause with
  | completion r => exact Owner.extends h he
  | cleanup r => exact Owner.extends h he
  | replaced r =>
    obtain ⟨o, res, session, ho, hlt, hres, hs, hid⟩ := h
    obtain ⟨res', hres', -, hheaders⟩ := he.responses r res hres
    obtain ⟨session', hs', hid', -⟩ := he.sessions s session hs
    refine ⟨o, res', session', ho.extends he, hlt, hres', hs', ?_⟩
    rw [convId, hheaders, hid']
    exact hid
  | stop conversationId =>
    obtain ⟨session, hs, hid⟩ := h
    obtain ⟨session', hs', hid', -⟩ := he.sessions s session hs
    exact ⟨session', hs', hid'.trans hid⟩
  | shutdown => trivial
  | expired => exact h

/-- A session that is there and is live later was live before. -/
lemma Extends.live (he : st.Extends st') (hs : s < st.sessions.length) (h : st'.live s = true) :
    st.live s = true := by
  obtain ⟨session', hs', hlive⟩ := live_iff.mp h
  have hget := getElem?_eq_getElem hs
  obtain ⟨session'', hs'', -, hdone⟩ := he.sessions s _ hget
  rw [hs'] at hs''
  cases hs''
  refine live_iff.mpr ⟨_, hget, ?_⟩
  by_contra hno
  rw [hdone (by simpa using hno)] at hlive
  cases hlive

/-- Every session has its response, the map is by conversation id, what was finalized is done, and
what is to be finalized or was recorded has an allowed cause. -/
structure Inv (st : StreamState) : Prop where
  owner : ∀ (s : ℕ) (session : StreamSession), st.sessions[s]? = some session →
    ∃ (r : ℕ) (res : ServerResSpipe), st.responses[r]? = some res ∧ res.spipe = some s ∧
      res.convId = session.conversationId
  owner_lt : ∀ r s, st.Owner r s → s < st.sessions.length
  owner_unique : ∀ r r' s, st.Owner r s → st.Owner r' s → r = r'
  entries : ∀ e ∈ st.entries, ∃ session : StreamSession, st.sessions[e.2]? = some session ∧
    session.conversationId = e.1
  completed : ∀ (s : ℕ) (session : StreamSession), st.sessions[s]? = some session →
    session.completedTs ≠ 0 → session.done = true
  tails : ∀ t ∈ st.tails, t.session < st.sessions.length ∧
    (st.live t.session = true → st.Allowed t.session t.cause)
  log : ∀ e ∈ st.log, st.Allowed e.session e.cause

lemma inv_init : init.Inv where
  owner s session h := by cases h
  owner_lt := by rintro r s ⟨res, h, -⟩; cases h
  owner_unique := by rintro r r' s ⟨res, h, -⟩; cases h
  entries e h := by cases h
  completed s session h := by cases h
  tails t h := by cases h
  log e h := by cases h

/-! ## Dropping sessions -/

/-- States with the same responses and sessions. -/
lemma extends_of_eq (hr : st'.responses = st.responses) (hs : st'.sessions = st.sessions) :
    st.Extends st' where
  responses r res h := ⟨res, by rw [hr]; exact h, rfl, rfl⟩
  sessions s session h := ⟨session, by rw [hs]; exact h, rfl, id⟩

section

variable (h : st.Inv)

include h

/-- The invariant of a state with the same responses and sessions. -/
lemma Inv.of_eq (hr : st'.responses = st.responses)
    (hs : st'.sessions = st.sessions) (hentries : ∀ e ∈ st'.entries, e ∈ st.entries)
    (htails : ∀ t ∈ st'.tails, (∃ t0 ∈ st.tails, t0.session = t.session ∧ t0.cause = t.cause) ∨
      t.session < st.sessions.length ∧ (st.live t.session = true → st.Allowed t.session t.cause))
    (hlog : ∀ e ∈ st'.log, e ∈ st.log ∨ st.Allowed e.session e.cause) : st'.Inv where
  owner := by
    rw [hr, hs]
    exact h.owner
  owner_lt r s ho := by
    rw [hs]
    exact h.owner_lt r s (ho.extends (extends_of_eq hr.symm hs.symm))
  owner_unique r r' s ho ho' :=
    h.owner_unique r r' s (ho.extends (extends_of_eq hr.symm hs.symm))
      (ho'.extends (extends_of_eq hr.symm hs.symm))
  entries e he := by
    rw [hs]
    exact h.entries e (hentries e he)
  completed := by
    rw [hs]
    exact h.completed
  tails t ht := by
    have hlive : st'.live t.session = st.live t.session := by
      rw [live, live, hs]
    rw [hs, hlive]
    rcases htails t ht with ⟨t0, ht0, hsession, hcause⟩ | ⟨hlt, hallowed⟩
    · obtain ⟨hlt, hallowed⟩ := h.tails t0 ht0
      rw [hsession, hcause] at hallowed
      exact ⟨hsession ▸ hlt, fun hl => (hallowed hl).extends (extends_of_eq hr hs)⟩
    · exact ⟨hlt, fun hl => (hallowed hl).extends (extends_of_eq hr hs)⟩
  log e he := by
    rcases hlog e he with he | he
    · exact (h.log e he).extends (extends_of_eq hr hs)
    · exact he.extends (extends_of_eq hr hs)

lemma Inv.drop {cancels : Bool} (hs : s < st.sessions.length)
    (hcause : st.live s = true → st.Allowed s cause) : (st.drop s cancels cause).Inv := by
  refine h.of_eq record_responses record_sessions ?_ ?_ ?_
  · intro e he
    simpa [StreamState.drop] using he
  · intro t ht
    rcases mem_append.mp ht with ht | ht
    · exact .inl ⟨t, ht, rfl, rfl⟩
    · rw [mem_singleton.mp ht]
      exact .inr ⟨hs, hcause⟩
  · intro e he
    rcases mem_record he with he | ⟨rfl, hlive⟩
    · exact .inl he
    · exact .inr (hcause hlive)

/-- The session under a conversation id. -/
lemma Inv.of_lookup (hlookup : st.entries.lookup conversationId = some s) :
    ∃ session, st.sessions[s]? = some session ∧ session.conversationId = conversationId := by
  obtain ⟨l1, l2, heq, -⟩ := lookup_eq_some_iff.mp hlookup
  exact h.entries (conversationId, s) (by rw [heq]; simp)

lemma Inv.evict {cancels : Bool}
    (hcause : ∀ s, st.entries.lookup conversationId = some s → st.Allowed s cause) :
    (st.evict conversationId cancels cause).Inv := by
  unfold StreamState.evict
  split
  · exact h
  · next s hlookup =>
    obtain ⟨session, hs, -⟩ := h.of_lookup hlookup
    refine Inv.drop ?_ (List.getElem?_eq_some_iff.mp hs).1 fun _ => hcause s hlookup
    refine h.of_eq rfl rfl (fun e he => (mem_filter.mp he).1) (fun t ht => ?_) fun e he => ?_
    · exact .inl ⟨t, ht, rfl, rfl⟩
    · exact .inl he

lemma Inv.dropAll {sessions : List ℕ}
    (hlt : ∀ s ∈ sessions, s < st.sessions.length)
    (hcause : ∀ s ∈ sessions, st.live s = true → st.Allowed s cause) :
    (st.dropAll cause sessions).Inv := by
  induction sessions generalizing st with
  | nil => exact h
  | cons s sessions ih =>
    have hdrop : (st.drop s false cause).Inv :=
      h.drop (hlt s mem_cons_self) (hcause s mem_cons_self)
    have hext : st.Extends (st.drop s false cause) :=
      extends_of_eq record_responses record_sessions
    refine ih hdrop ?_ ?_
    · intro s' hs'
      have hsessions : (st.drop s false cause).sessions = st.sessions := record_sessions
      rw [hsessions]
      exact hlt s' (mem_cons_of_mem _ hs')
    · intro s' hs' hlive
      have hmem := mem_cons_of_mem s hs'
      exact (hcause s' hmem (hext.live (hlt s' hmem) hlive)).extends hext

/-- The sessions of the map. -/
lemma Inv.lt_of_mem (hs : s ∈ st.entries.map Prod.snd) : s < st.sessions.length := by
  obtain ⟨e, he, rfl⟩ := mem_map.mp hs
  obtain ⟨session, hget, -⟩ := h.entries e he
  exact (List.getElem?_eq_some_iff.mp hget).1

lemma Inv.fewer {entries : List (String × ℕ)}
    (hsub : ∀ e ∈ entries, e ∈ st.entries) : { st with entries := entries }.Inv :=
  h.of_eq rfl rfl hsub (fun t ht => .inl ⟨t, ht, rfl, rfl⟩) fun _ he => .inl he

lemma Inv.gc {cutoff : ℤ} : (st.gc cutoff).Inv := by
  refine (h.fewer fun e he => (mem_filter.mp he).1).dropAll ?_ ?_
  · intro s hs
    obtain ⟨e, he, rfl⟩ := mem_map.mp hs
    exact h.lt_of_mem (mem_map_of_mem (mem_filter.mp he).1)
  · intro s hs hlive
    obtain ⟨e, he, rfl⟩ := mem_map.mp hs
    obtain ⟨session, hget, hdone⟩ := live_iff.mp hlive
    have hexpired := (mem_filter.mp he).2
    have hget' : st.sessions[e.2]? = some session := hget
    unfold expired at hexpired
    rw [hget', any_some, Bool.and_eq_true, decide_eq_true_iff] at hexpired
    rw [h.completed _ _ hget hexpired.1] at hdone
    cases hdone

lemma Inv.stopGc : st.stopGc.Inv := by
  refine (h.fewer fun e he => by cases he).dropAll ?_ ?_
  · exact fun s hs => h.lt_of_mem hs
  · exact fun _ _ _ => trivial

end

/-- Changing a session that keeps its conversation id and stays done. -/
lemma Inv.modify {f : StreamSession → StreamSession} (h : st.Inv)
    (hid : ∀ x, (f x).conversationId = x.conversationId)
    (hdone : ∀ x, x.done = true → (f x).done = true)
    (hcompleted : ∀ x, (x.completedTs ≠ 0 → x.done = true) → (f x).completedTs ≠ 0 →
      (f x).done = true) : { st with sessions := st.sessions.modify s f }.Inv := by
  have hget : ∀ (i : ℕ) (x : StreamSession), (st.sessions.modify s f)[i]? = some x →
      ∃ y, st.sessions[i]? = some y ∧ x.conversationId = y.conversationId ∧ (x = y ∨ x = f y) := by
    intro i x hx
    rw [getElem?_modify] at hx
    obtain ⟨y, hy, rfl⟩ := map_eq_some_iff.mp hx
    refine ⟨y, hy, ?_, ?_⟩
    · split
      · exact hid y
      · rfl
    · split
      · exact .inr rfl
      · exact .inl rfl
  have hext : st.Extends { st with sessions := st.sessions.modify s f } := by
    refine ⟨fun r res hres => ⟨res, hres, rfl, rfl⟩, ?_⟩
    intro i y hy
    refine ⟨if s = i then f y else y, ?_, ?_, ?_⟩
    · rw [getElem?_modify, hy]
      rfl
    · split
      · exact hid y
      · rfl
    · intro hd
      split
      · exact hdone y hd
      · exact hd
  refine ⟨?_, ?_, h.owner_unique, ?_, ?_, ?_, fun e he => (h.log e he).extends hext⟩
  · intro i x hx
    obtain ⟨y, hy, hxy, -⟩ := hget i x hx
    obtain ⟨r, res, hres, hpipe, hconv⟩ := h.owner i y hy
    exact ⟨r, res, hres, hpipe, hconv.trans hxy.symm⟩
  · intro r i ho
    rw [List.length_modify]
    exact h.owner_lt r i ho
  · intro e he
    obtain ⟨y, hy, hye⟩ := h.entries e he
    obtain ⟨x, hx, hxy, -⟩ := hext.sessions _ y hy
    exact ⟨x, hx, hxy.trans hye⟩
  · intro i x hx hne
    obtain ⟨y, hy, -, rfl | rfl⟩ := hget i x hx
    · exact h.completed i x hy hne
    · exact hcompleted y (h.completed i y hy) hne
  · intro t ht
    obtain ⟨hlt, hallowed⟩ := h.tails t ht
    refine ⟨by rwa [List.length_modify], fun hlive => ?_⟩
    exact (hallowed (hext.live hlt hlive)).extends hext

lemma Inv.finalizeSession {now : ℤ} (h : st.Inv)
    (hcause : st.live s = true → st.Allowed s cause) : (st.finalizeSession s now cause).Inv := by
  have hrecord : (st.record s cause).Inv := by
    refine h.of_eq record_responses record_sessions ?_ ?_ ?_
    · exact fun e he => by simpa using he
    · exact fun t ht => .inl ⟨t, by simpa using ht, rfl, rfl⟩
    · intro e he
      rcases mem_record he with he | ⟨rfl, hlive⟩
      · exact .inl he
      · exact .inr (hcause hlive)
  have hmodify := hrecord.modify (s := s) (f := StreamSession.finalize now) ?_ ?_ ?_
  · rwa [record_sessions] at hmodify
  · intro x
    unfold StreamSession.finalize
    split <;> rfl
  · intro x hx
    rw [StreamSession.finalize, if_pos hx, hx]
  · intro x hx hne
    unfold StreamSession.finalize at hne ⊢
    split
    · assumption
    · rfl

/-- Changing a response that keeps its request and its session. -/
lemma Inv.setResponse {r : ℕ} {res' : ServerResSpipe} (h : st.Inv)
    (hres : st.responses[r]? = some res) (hpipe : res'.spipe = res.spipe)
    (hheaders : res'.headers = res.headers) :
    { st with responses := st.responses.set r res' }.Inv := by
  have hlt : r < st.responses.length := (List.getElem?_eq_some_iff.mp hres).1
  have hext : st.Extends { st with responses := st.responses.set r res' } := by
    refine ⟨?_, fun s session hs => ⟨session, hs, rfl, id⟩⟩
    intro i x hx
    rcases eq_or_ne r i with rfl | hne
    · rw [hres] at hx
      cases hx
      exact ⟨res', getElem?_set_self hlt, hpipe, hheaders⟩
    · exact ⟨x, by rw [getElem?_set_ne hne, hx], rfl, rfl⟩
  have howner : ∀ i s, StreamState.Owner { st with responses := st.responses.set r res' } i s →
      st.Owner i s := by
    rintro i s ⟨x, hx, hs⟩
    rcases eq_or_ne r i with rfl | hne
    · rw [getElem?_set_self hlt] at hx
      cases hx
      exact ⟨res, hres, hpipe.symm.trans hs⟩
    · rw [getElem?_set_ne hne] at hx
      exact ⟨x, hx, hs⟩
  refine ⟨?_, fun i s ho => h.owner_lt i s (howner i s ho), ?_, h.entries, h.completed, ?_,
    fun e he => (h.log e he).extends hext⟩
  · intro s session hs
    obtain ⟨i, x, hx, hxs, hconv⟩ := h.owner s session hs
    obtain ⟨x', hx', hpipe', hheaders'⟩ := hext.responses i x hx
    refine ⟨i, x', hx', hpipe'.trans hxs, ?_⟩
    rw [convId, hheaders']
    exact hconv
  · exact fun i i' s ho ho' => h.owner_unique i i' s (howner i s ho) (howner i' s ho')
  · intro t ht
    obtain ⟨hlt', hallowed⟩ := h.tails t ht
    exact ⟨hlt', fun hlive => (hallowed hlive).extends hext⟩

lemma extends_pushed : st.Extends (st.pushed headers conversationId) where
  responses r res h := by
    refine ⟨res, ?_, rfl, rfl⟩
    rw [pushed, getElem?_append_left (List.getElem?_eq_some_iff.mp h).1, h]
  sessions s session h := by
    refine ⟨session, ?_, rfl, id⟩
    rw [pushed, getElem?_append_left (List.getElem?_eq_some_iff.mp h).1, h]

lemma Inv.pushed (h : st.Inv) : (st.pushed headers (convIdFromHeaders headers)).Inv := by
  have hext : st.Extends (st.pushed headers (convIdFromHeaders headers)) := extends_pushed
  have howner : ∀ r s, (st.pushed headers (convIdFromHeaders headers)).Owner r s →
      st.Owner r s ∨ r = st.responses.length ∧ s = st.sessions.length := by
    rintro r s ⟨res, hres, hs⟩
    rcases getElem?_concat_cases hres with hres | ⟨rfl, rfl⟩
    · exact .inl ⟨res, hres, hs⟩
    · exact .inr ⟨rfl, (Option.some.inj hs).symm⟩
  have hnew : (st.pushed headers (convIdFromHeaders headers)).sessions[st.sessions.length]? =
      some (.new (convIdFromHeaders headers)) := getElem?_concat_length
  refine ⟨?_, ?_, ?_, ?_, ?_, ?_, fun e he => (h.log e he).extends hext⟩
  · intro s session hs
    rcases getElem?_concat_cases hs with hs | ⟨rfl, rfl⟩
    · obtain ⟨r, res, hres, hpipe, hconv⟩ := h.owner s session hs
      obtain ⟨res', hres', hpipe', hheaders'⟩ := hext.responses r res hres
      refine ⟨r, res', hres', hpipe'.trans hpipe, ?_⟩
      rw [convId, hheaders']
      exact hconv
    · exact ⟨st.responses.length, _, getElem?_concat_length, rfl, rfl⟩
  · intro r s ho
    rw [StreamState.pushed, length_append]
    rcases howner r s ho with ho | ⟨-, rfl⟩
    · exact Nat.lt_succ_of_lt (h.owner_lt r s ho)
    · exact Nat.lt_succ_self _
  · intro r r' s ho ho'
    rcases howner r s ho with ho | ⟨rfl, rfl⟩ <;> rcases howner r' _ ho' with ho' | ⟨rfl, hs⟩
    · exact h.owner_unique r r' s ho ho'
    · exact absurd (h.owner_lt r s ho) (by omega)
    · exact absurd (h.owner_lt r' _ ho') (by omega)
    · rfl
  · intro e he
    rcases mem_cons.mp he with rfl | he
    · exact ⟨_, hnew, rfl⟩
    · obtain ⟨session, hs, hid⟩ := h.entries e (mem_filter.mp he).1
      obtain ⟨session', hs', hid', -⟩ := hext.sessions _ session hs
      exact ⟨session', hs', hid'.trans hid⟩
  · intro s session hs hne
    rcases getElem?_concat_cases hs with hs | ⟨rfl, rfl⟩
    · exact h.completed s session hs hne
    · exact absurd rfl hne
  · intro t ht
    obtain ⟨hlt, hallowed⟩ := h.tails t ht
    refine ⟨?_, fun hlive => (hallowed (hext.live hlt hlive)).extends hext⟩
    rw [StreamState.pushed, length_append]
    exact Nat.lt_add_right _ hlt

/-- Adding a response without a session. -/
lemma Inv.addPlain {res0 : ServerResSpipe} (h : st.Inv) (hnone : res0.spipe = none) :
    { st with responses := st.responses ++ [res0] }.Inv := by
  have hext : st.Extends { st with responses := st.responses ++ [res0] } := by
    refine ⟨fun r res hres => ⟨res, ?_, rfl, rfl⟩, fun s session hs => ⟨session, hs, rfl, id⟩⟩
    rw [getElem?_append_left (List.getElem?_eq_some_iff.mp hres).1, hres]
  have howner : ∀ r s, StreamState.Owner { st with responses := st.responses ++ [res0] } r s →
      st.Owner r s := by
    rintro r s ⟨res, hres, hs⟩
    rcases getElem?_concat_cases hres with hres | ⟨-, rfl⟩
    · exact ⟨res, hres, hs⟩
    · rw [hnone] at hs
      cases hs
  refine ⟨?_, fun r s ho => h.owner_lt r s (howner r s ho), ?_, h.entries, h.completed, ?_,
    fun e he => (h.log e he).extends hext⟩
  · intro s session hs
    obtain ⟨r, res, hres, hpipe, hconv⟩ := h.owner s session hs
    obtain ⟨res', hres', hpipe', hheaders'⟩ := hext.responses r res hres
    refine ⟨r, res', hres', hpipe'.trans hpipe, ?_⟩
    rw [convId, hheaders']
    exact hconv
  · exact fun r r' s ho ho' => h.owner_unique r r' s (howner r s ho) (howner r' s ho')
  · intro t ht
    obtain ⟨hlt, hallowed⟩ := h.tails t ht
    exact ⟨hlt, fun hlive => (hallowed hlive).extends hext⟩

lemma Inv.setReq (h : st.Inv) : (st.setReq headers).Inv := by
  by_cases hid : convIdFromHeaders headers = ""
  · rw [StreamState.setReq, if_pos hid]
    exact h.addPlain rfl
  rw [setReq_eq hid]
  split
  · next previous hlookup =>
    obtain ⟨session, hs, hconv⟩ := h.of_lookup hlookup
    obtain ⟨o, res, hres, hpipe, -⟩ := h.owner previous session hs
    obtain ⟨session', hs', hconv', -⟩ := extends_pushed.sessions previous session hs
    refine h.pushed.drop (List.getElem?_eq_some_iff.mp hs').1 fun _ => ?_
    refine ⟨o, _, session', Owner.extends ⟨res, hres, hpipe⟩ extends_pushed,
      (List.getElem?_eq_some_iff.mp hres).1, getElem?_concat_length, hs', ?_⟩
    exact (hconv'.trans hconv).symm
  · exact h.pushed

/-! ## Runs -/

/-- A response that failed before it streamed finds its own session under its conversation id, or
none. -/
def FindsOwn (st : StreamState) : Op → Prop
  | .onComplete r => ∀ res s, st.response? r = some res → res.spipe ≠ none →
      res.nextFinished = false → res.nextOrig = false →
      st.entries.lookup res.convId = some s → res.spipe = some s
  | _ => True

lemma response?_eq_some {r : ℕ} (h : st.response? r = some res) : st.responses[r]? = some res := by
  exact (filter_eq_some_iff.mp h).1

lemma Inv.onComplete {r : ℕ} (h : st.Inv) (hown : st.FindsOwn (.onComplete r))
    (hres : st.response? r = some res) : (st.onComplete r res).Inv := by
  unfold StreamState.onComplete
  split
  · exact h
  next hgo =>
  split
  · exact h
  next horig =>
  obtain ⟨hpipe, hfin⟩ := not_or.mp hgo
  refine h.evict fun s hlookup => ?_
  exact ⟨res, response?_eq_some hres,
    hown res s hres hpipe (by simpa using hfin) (by simpa using horig) hlookup⟩

lemma Inv.destroy {r : ℕ} {now : ℤ} (h : st.Inv) (hres : st.response? r = some res) :
    (st.destroy r res now).Inv := by
  have hget := response?_eq_some hres
  have hgone : { st with responses := st.responses.set r { res with gone := true } }.Inv :=
    h.setResponse hget rfl rfl
  unfold StreamState.destroy
  split
  · exact hgone
  · next s hpipe =>
    refine hgone.finalizeSession fun _ => ?_
    exact ⟨_, getElem?_set_self (List.getElem?_eq_some_iff.mp hget).1, hpipe⟩

lemma Inv.resume {i : ℕ} {tail : StreamTail} {now : ℤ} (h : st.Inv)
    (htail : st.tails[i]? = some tail) : (st.resume i tail now).Inv := by
  have hmem := mem_of_getElem? htail
  unfold StreamState.resume
  split
  · have htails : { st with tails := st.tails.set i { tail with cancels := false } }.Inv := by
      refine h.of_eq rfl rfl (fun e he => he) (fun t ht => .inl ?_) fun e he => .inl he
      rcases mem_or_eq_of_mem_set ht with ht | rfl
      · exact ⟨t, ht, rfl, rfl⟩
      · exact ⟨tail, hmem, rfl, rfl⟩
    exact htails.modify (fun _ => rfl) (fun _ hx => hx) fun _ hx => hx
  · have htails : { st with tails := st.tails.eraseIdx i }.Inv := by
      refine h.of_eq rfl rfl (fun e he => he) (fun t ht => .inl ?_) fun e he => .inl he
      exact ⟨t, mem_of_mem_eraseIdx ht, rfl, rfl⟩
    exact htails.finalizeSession fun hlive => (h.tails tail hmem).2 hlive

lemma Inv.step {op : Op} (h : st.Inv) (hown : st.FindsOwn op) (hs : st.step op = some st') :
    st'.Inv := by
  cases op with
  | setReq headers =>
    cases hs
    exact h.setReq
  | setNext r =>
    obtain ⟨res, hres, rfl⟩ := map_eq_some_iff.mp hs
    exact h.setResponse (response?_eq_some hres) rfl rfl
  | next r hasNext =>
    obtain ⟨res, hres, rfl⟩ := map_eq_some_iff.mp hs
    exact h.setResponse (response?_eq_some (filter_eq_some_iff.mp hres).1) rfl rfl
  | onComplete r =>
    obtain ⟨res, hres, rfl⟩ := map_eq_some_iff.mp hs
    exact h.onComplete hown hres
  | destroy r now =>
    obtain ⟨res, hres, rfl⟩ := map_eq_some_iff.mp hs
    exact h.destroy hres
  | delete conversationId =>
    cases hs
    split
    · exact h
    · refine h.evict fun s hlookup => ?_
      exact h.of_lookup hlookup
  | gc cutoff =>
    cases hs
    exact h.gc
  | stopGc =>
    cases hs
    exact h.stopGc
  | resume i now =>
    obtain ⟨tail, htail, rfl⟩ := map_eq_some_iff.mp hs
    exact h.resume htail

/-- **Why sessions end.**  In the runs in which a response that failed before it streamed finds its
own session, or none, a live session is removed or finalized only by its own response, by a newer
response with its conversation id, by a stop of that id, or by the end of the manager.  What the
next step removes or finalizes is recorded, and every session has one response. -/
theorem allowed_of_reachable (h : Run.Reachable step FindsOwn init st) :
    (∀ e ∈ st.log, st.Allowed e.session e.cause) ∧
      (∀ op st' s, st.step op = some st' → st.Ends st' s → st'.Recorded s) ∧
      ∀ r r' s, st.Owner r s → st.Owner r' s → r = r' := by
  have hinv : st.Inv := h.invariant inv_init fun _ _ _ hi hown hs => hi.step hown hs
  have hinit : init.Keyed := List.nodup_nil
  have hkeyed : st.Keyed := h.invariant hinit fun _ _ _ hk _ hs => hk.step hs
  exact ⟨hinv.log, fun op st' s hs hends => recorded hkeyed hs hends, hinv.owner_unique⟩

/-- The headers of a request with a conversation id. -/
def convHeaders : List (String × String) := [("X-Conversation-Id", "c")]

/-- A session is replaced by a newer one, which is stopped. -/
theorem allowed_of_reachable_replaced : ∃ st, Run.Reachable step FindsOwn init st ∧
    st.log = [⟨0, .replaced 1⟩, ⟨0, .replaced 1⟩, ⟨1, .stop "c"⟩] ∧
    ∀ e ∈ st.log, st.Allowed e.session e.cause := by
  have hrun : ([.setReq convHeaders, .setReq convHeaders, .resume 0 1, .resume 0 2,
      .delete "c"].foldlM step init).map (fun st => st.log) =
      some [⟨0, .replaced 1⟩, ⟨0, .replaced 1⟩, ⟨1, .stop "c"⟩] := by
    decide +kernel
  obtain ⟨st, hst, hlog⟩ := Option.map_eq_some_iff.mp hrun
  have hreach : Run.Reachable step FindsOwn init st := by
    refine Run.Reachable.init.foldlM (fun st op hop => ?_) hst
    simp only [List.mem_cons, List.not_mem_nil, or_false] at hop
    rcases hop with rfl | rfl | rfl | rfl | rfl <;> trivial
  exact ⟨st, hreach, hlog, (allowed_of_reachable hreach).1⟩

/-- The first response fails after the second one replaced its session; its clean-up removes the
session of the second one. -/
theorem not_allowed_cleanup : ∃ st st', Run.Reachable step (fun _ _ => True) init st ∧
    st.step (.onComplete 0) = some st' ∧ st.Ends st' 1 ∧ st'.log.getLast? = some ⟨1, .cleanup 0⟩ ∧
    st.Owner 1 1 ∧ ¬st'.Allowed 1 (.cleanup 0) := by
  obtain ⟨st, hst⟩ : ∃ st, [.setReq convHeaders, .setReq convHeaders, .resume 0 1,
      .resume 0 2].foldlM step init = some st := Option.isSome_iff_exists.mp (by decide +kernel)
  have hrun : ([.setReq convHeaders, .setReq convHeaders, .resume 0 1, .resume 0 2].foldlM step
      init).bind (fun st => (st.step (.onComplete 0)).map fun st' =>
        (st.live 1, st.entries, st'.entries, st'.log.getLast?)) =
      some (true, [("c", 1)], [], some ⟨1, .cleanup 0⟩) := by
    decide +kernel
  have howners : ([.setReq convHeaders, .setReq convHeaders, .resume 0 1, .resume 0 2].foldlM step
      init).bind (fun st => (st.step (.onComplete 0)).map fun st' =>
        (st.responses.map ServerResSpipe.spipe, st'.responses.map ServerResSpipe.spipe)) =
      some ([some 0, some 1], [some 0, some 1]) := by
    decide +kernel
  rw [hst] at hrun howners
  obtain ⟨st', hst', heq⟩ := Option.map_eq_some_iff.mp hrun
  obtain ⟨st'', hst'', hpipes⟩ := Option.map_eq_some_iff.mp howners
  cases hst'.symm.trans hst''
  simp only [Prod.mk.injEq] at heq hpipes
  obtain ⟨hlive, hentries, hentries', hlog⟩ := heq
  refine ⟨st, st', Run.Reachable.init.foldlM (fun _ _ _ => trivial) hst, hst', ⟨hlive, .inr ?_⟩,
    hlog, ?_, ?_⟩
  · rw [hentries, hentries']
    decide
  · have hget : (st.responses.map ServerResSpipe.spipe)[1]? = some (some 1) := by
      rw [hpipes.1]
      rfl
    rw [List.getElem?_map] at hget
    exact Option.map_eq_some_iff.mp hget
  · rintro ⟨res, hres, hpipe⟩
    have hget : (st'.responses.map ServerResSpipe.spipe)[0]? = some (some 0) := by
      rw [hpipes.2]
      rfl
    rw [List.getElem?_map, hres, Option.map_some, hpipe] at hget
    exact absurd hget (by decide)

end StreamState

end Llama
