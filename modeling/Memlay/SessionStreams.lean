import Memlay.SessionLog

/-!
# The frames of a request

Each `REQ` that a connection's task accepts spawns a task.  In every state of a run, what
that task has placed in the connection's queue is

    a beginning of the answers to its filters, in the order of the frame, each filter
    clamped and answered from its lookups, each made in the index of a moment of the
    run, one after the other

or all of them and then one `EOSE` (`run_streams`): never more than 20 * max_limit + 1
frames, and nothing after `EOSE`.  While the connection is there and its queue is being
emptied a task that is not aborted does get to its `EOSE`, whatever state it is in
(`request_completes`).
-/

namespace Memlay
namespace Session

open Json (utf8Bytes)

def ReqTask.frame (t : ReqTask) (e : Event) : Frame := .event t.id (Json.fromUtf8Lossy e.raw)

def ReqTask.eose (t : ReqTask) : Frame := .message (.endOfStoredEvents t.id)

/-- The frames of the answers to the filters that were queried. -/
def ReqTask.answers (t : ReqTask) : List Frame := t.asked.flatMap fun p => (p.1.answer p.2).map t.frame

/-- The indexes that the lookups so far were made in. -/
def ReqTask.seen (t : ReqTask) : List Index := t.asked.flatMap Prod.snd ++ t.query.elim [] Query.seen

/-- What the task has placed, and what is left of the answers. -/
def ReqTask.OnTrack (t : ReqTask) : Prop :=
  t.sent ++ t.answer.map t.frame = t.answers ∨
    (t.ended = true ∧ t.answer = [] ∧ t.query = none ∧ t.filters = [] ∧ t.sent = t.answers ++ [t.eose])

/-- The frame that spawned the task. -/
def Requested (x : Serde) (cfg : Config) (turns : List Turn) (t : ReqTask) : Prop :=
  ∃ text filters, .receive t.conn (.text text) ∈ turns ∧
    NostrMessage.fromJson x (utf8Bytes text) = .ok (.request t.id filters) ∧ filters.length ≤ maxFiltersPerReq ∧
    t.asked.map Prod.fst ++ (t.query.toList.map Query.filter ++ t.filters) = prepareFilters filters cfg.maxLimit

/-- What a query has found is of the lookups it has made. -/
structure Query.Follows (q : Query) : Prop where
  lookups : q.lookups = q.filter.lookups.drop q.seen.length
  found : q.found = q.filter.found q.seen
  length : q.seen.length ≤ q.filter.lookups.length

structure Streams (x : Serde) (cfg : Config) (turns : List Turn) (s : Server) (t : ReqTask) : Prop where
  requested : Requested x cfg turns t
  query : ∀ q, t.query = some q → q.Follows
  asked : ∀ p ∈ t.asked, p.2.length = p.1.lookups.length
  track : t.OnTrack
  logged : t.sent.Sublist (s.log t.conn)

/-- One more lookup. -/
theorem Query.Follows.look {q : Query} {l : Lookup} {lookups : List Lookup} (h : q.Follows)
    (hlookups : q.lookups = l :: lookups) (index : Index) : Query.Follows { q with
      lookups := lookups
      found := q.filter.look index q.found l
      seen := q.seen ++ [index] } := by
  have hdrop : q.filter.lookups.drop q.seen.length = l :: lookups := h.lookups.symm.trans hlookups
  have hlen := congrArg List.length hdrop
  rw [List.length_drop, List.length_cons] at hlen
  refine ⟨?_, ?_, ?_⟩
  · show lookups = q.filter.lookups.drop (q.seen ++ [index]).length
    rw [List.length_append, List.length_singleton, ← List.drop_drop, hdrop]
    rfl
  · show q.filter.look index q.found l = q.filter.found (q.seen ++ [index])
    rw [Filter.found_concat hdrop, h.found]
  · show (q.seen ++ [index]).length ≤ q.filter.lookups.length
    rw [List.length_append, List.length_singleton]
    omega

section
variable {x : Serde} {cfg : Config} {a : Turn} {turns : List Turn} {s s' : Server} {t u : ReqTask}

theorem log_prefix (hfresh : Fresh s) (hmove : Move x cfg a s s') (c : ConnId) : s.log c <+: s'.log c := by
  rcases move_log hfresh hmove with ⟨_, _, _, -, -, -, hlog⟩ | hgrows
  · rw [hlog c]
    exact List.prefix_append _ _
  · obtain ⟨frames, hlog, -⟩ := hgrows.1 c
    rw [hlog]
    exact List.prefix_append _ _

/-- The same task, perhaps aborted or cancelled. -/
theorem Streams.congr (h : Streams x cfg turns s t) (hsame : Same t { u with ended := t.ended })
    (hended : t.ended = true → u.ended = true) (hlog : s.log t.conn <+: s'.log t.conn) :
    Streams x cfg turns s' u := by
  obtain ⟨conn, id, filters, query, answer, asked, sent, parked, aborted, ended⟩ := u
  obtain ⟨rfl, rfl, rfl, rfl, rfl, rfl, rfl, -⟩ := hsame
  refine ⟨h.requested, h.query, h.asked, ?_, h.logged.trans hlog.sublist⟩
  rcases h.track with htrack | ⟨he, ha, hq, hf, hs⟩
  · exact Or.inl htrack
  · exact Or.inr ⟨hended he, ha, hq, hf, hs⟩

/-- A task that has not ended has placed answers only. -/
theorem Streams.sent (h : Streams x cfg turns s t) (hended : t.ended = false) :
    t.sent ++ t.answer.map t.frame = t.answers :=
  h.track.resolve_right fun ⟨he, _⟩ => by
    rw [hended] at he
    cases he

/-- A turn that places no frame. -/
theorem Streams.next {index : Index} (h : Streams x cfg turns s t) (hended : t.ended = false)
    (hnext : t.Next index u) :
    Streams x cfg turns s u := by
  obtain ⟨text, fs, hmem, hreq, hlen, hfs⟩ := h.requested
  have hsent := h.sent hended
  cases hnext with
  | @ask filter filters hanswer hquery hfilters =>
    refine ⟨⟨text, fs, hmem, hreq, hlen, ?_⟩, fun q hq => ?_, h.asked, Or.inl hsent, h.logged⟩
    · rw [← hfs, hquery, hfilters]
      rfl
    · cases hq
      exact ⟨rfl, (Filter.found_nil filter).symm, Nat.zero_le _⟩
  | @look q l lookups hanswer hquery hlookups =>
    refine ⟨⟨text, fs, hmem, hreq, hlen, ?_⟩, fun q' hq => ?_, h.asked, Or.inl hsent, h.logged⟩
    · rw [← hfs, hquery]
      rfl
    · cases hq
      exact (h.query q hquery).look hlookups index
  | @choose q hanswer hquery hlookups =>
    have hq := h.query q hquery
    have hall : q.seen.length = q.filter.lookups.length := by
      have hdone := hq.lookups.symm.trans hlookups
      exact Nat.le_antisymm hq.length (List.drop_eq_nil_iff.1 hdone)
    refine ⟨⟨text, fs, hmem, hreq, hlen, ?_⟩, nofun, fun p hp => ?_, Or.inl ?_, h.logged⟩
    · rw [← hfs, hquery, List.map_append, List.append_assoc]
      rfl
    · rcases List.mem_append.1 hp with hp | hp
      · exact h.asked p hp
      · rw [List.mem_singleton.1 hp]
        exact hall
    · rw [hanswer, List.map_nil, List.append_nil] at hsent
      show t.sent ++ (q.filter.choose q.found).map t.frame = (t.asked ++ [(q.filter, q.seen)]).flatMap _
      rw [hsent, List.flatMap_append, List.flatMap_singleton, hq.found]
      rfl
  | park => exact ⟨⟨text, fs, hmem, hreq, hlen, hfs⟩, h.query, h.asked, Or.inl hsent, h.logged⟩

theorem Streams.stored {e : Event} {answer : List Event} (h : Streams x cfg turns s t) (hended : t.ended = false)
    (hanswer : t.answer = e :: answer) (hlog : s'.log t.conn = s.log t.conn ++ [t.frame e]) :
    Streams x cfg turns s' { t with answer := answer, sent := t.sent ++ [t.frame e], parked := false } := by
  refine ⟨h.requested, h.query, h.asked, Or.inl ?_, ?_⟩
  · show t.sent ++ [t.frame e] ++ answer.map t.frame = t.answers
    rw [← h.sent hended, hanswer, List.append_assoc]
    rfl
  · show (t.sent ++ [t.frame e]).Sublist (s'.log t.conn)
    rw [hlog]
    exact h.logged.append (List.Sublist.refl _)

theorem Streams.eose (h : Streams x cfg turns s t) (hended : t.ended = false) (hanswer : t.answer = [])
    (hquery : t.query = none) (hfilters : t.filters = []) (hlog : s'.log t.conn = s.log t.conn ++ [t.eose]) :
    Streams x cfg turns s' { t with sent := t.sent ++ [t.eose], parked := false, ended := true } := by
  refine ⟨h.requested, h.query, h.asked, Or.inr ⟨rfl, hanswer, hquery, hfilters, ?_⟩, ?_⟩
  · have hsent := h.sent hended
    rw [hanswer, List.map_nil, List.append_nil] at hsent
    show t.sent ++ [t.eose] = t.answers ++ [t.eose]
    rw [hsent]
  · show (t.sent ++ [t.eose]).Sublist (s'.log t.conn)
    rw [hlog]
    exact h.logged.append (List.Sublist.refl _)

/-- A frame that `try_send` has taken is the last of the log. -/
theorem log_trySend {c : ConnId} {conn : ConnState} {frame : Frame} (hsend : (s.conn c).trySend frame = some conn)
    (hwire : s'.wire = s.wire) (hfan : s'.fan = s.fan.modify c fun _ => conn) : s'.log c = s.log c ++ [frame] := by
  obtain ⟨-, -, hconn⟩ := Link.trySend_eq_some hsend
  unfold Server.log Server.conn
  rw [hwire, hfan, Fanout.state_modify, if_pos rfl, hconn, List.append_assoc]
  rfl

/-- The step lemma. -/
theorem streams_move (hfresh : Fresh s) (ha : a ∈ turns) (hmove : Move x cfg a s s')
    (h : ∀ t ∈ s.tasks, Streams x cfg turns s t) : ∀ t ∈ s'.tasks, Streams x cfg turns s' t := by
  have hlog := log_prefix hfresh hmove
  have hold : ∀ t ∈ s.tasks, Streams x cfg turns s' t :=
    fun t ht => (h t ht).congr ⟨rfl, rfl, rfl, rfl, rfl, rfl, rfl, rfl⟩ (fun he => he) (hlog t.conn)
  have haborted : ∀ {t u : ReqTask}, t ∈ s.tasks → Same t u → Streams x cfg turns s' u := fun {t u} ht hsame =>
    (h t ht).congr
      ⟨hsame.conn, hsame.id, hsame.filters, hsame.query, hsame.answer, hsame.asked, hsame.sent, rfl⟩
      (fun he => hsame.ended.trans he) (hlog t.conn)
  -- one task is replaced
  have hset : ∀ {i : Nat} {t' : ReqTask}, Streams x cfg turns s' t' →
      ∀ t ∈ s.tasks.set i t', Streams x cfg turns s' t := by
    intro i t' ht' t ht
    rcases List.mem_or_eq_of_mem_set ht with ht | rfl
    · exact hold t ht
    · exact ht'
  cases hmove with
  | connect | socket | conn | unregister | hangUp | drain | spawn | permit | process | advance | deliver | reply |
    promise | unheard | background => exact hold
  | openSub hturn _ _ hreq hfilters =>
    intro t ht
    rcases List.mem_append.1 ht with ht | ht
    · obtain ⟨u, hu, hsame⟩ := mem_abort ht
      exact haborted hu hsame
    · rw [List.mem_singleton.1 ht]
      exact ⟨⟨_, _, hturn ▸ ha, hreq, hfilters, rfl⟩, nofun, fun _ hp => absurd hp List.not_mem_nil, Or.inl rfl,
        List.nil_sublist _⟩
  | closeSub =>
    intro t ht
    obtain ⟨u, hu, hsame⟩ := mem_abort ht
    exact haborted hu hsame
  | finish =>
    intro t ht
    obtain ⟨u, hu, hsame⟩ := mem_abortAll ht
    exact haborted hu hsame
  | task _ ht hended hnext =>
    have hq := (h _ (List.mem_of_getElem? ht)).next hended hnext
    exact hset (hq.congr ⟨rfl, rfl, rfl, rfl, rfl, rfl, rfl, rfl⟩ (fun he => he) (hlog _))
  | stored ht hended hanswer hsend =>
    exact hset ((h _ (List.mem_of_getElem? ht)).stored hended hanswer (log_trySend hsend rfl rfl))
  | eose ht hended hanswer hquery hfilters hsend =>
    exact hset ((h _ (List.mem_of_getElem? ht)).eose hended hanswer hquery hfilters (log_trySend hsend rfl rfl))
  | endTask ht =>
    exact hset ((h _ (List.mem_of_getElem? ht)).congr ⟨rfl, rfl, rfl, rfl, rfl, rfl, rfl, rfl⟩
        (fun _ => rfl) (hlog _))

/-- What a turn of the task adds to the indexes that its lookups have seen. -/
theorem seen_request {i : Nat} (h : s.request i t = some s') :
    ∃ t', s'.tasks = s.tasks.set i t' ∧ (t'.seen = t.seen ∨ t'.seen = t.seen ++ [s.store.index]) := by
  have hplaced : ∀ {frame : Frame} {u : ReqTask}, s.place i t frame u = some s' → u.asked = t.asked →
      u.query = t.query →
      ∃ t', s'.tasks = s.tasks.set i t' ∧ (t'.seen = t.seen ∨ t'.seen = t.seen ++ [s.store.index]) := by
    intro frame u hplace hasked hquery
    rcases place_eq_some hplace with ⟨conn, -, rfl⟩ | rfl | rfl
    · refine ⟨_, rfl, Or.inl ?_⟩
      unfold ReqTask.seen
      simp only
      rw [hasked, hquery]
    · exact ⟨_, rfl, Or.inl rfl⟩
    · exact ⟨_, rfl, Or.inl rfl⟩
  unfold Server.request at h
  split at h
  · exact hplaced h rfl rfl
  · rename_i q _ _ hquery
    cases h
    refine ⟨_, rfl, ?_⟩
    unfold Server.lookUp ReqTask.seen
    split
    · refine Or.inr ?_
      simp only [hquery, Option.elim_some, List.append_assoc]
    · refine Or.inl ?_
      simp only [hquery, Option.elim_some, Option.elim_none, List.flatMap_append, List.flatMap_singleton,
          List.append_nil]
  · rename_i hquery _
    cases h
    refine ⟨_, rfl, Or.inl ?_⟩
    unfold ReqTask.seen
    rw [hquery]
    rfl
  · exact hplaced h rfl rfl

/-- Every other turn leaves them. -/
theorem seen_move (ha : ∀ i, a ≠ .request i) (hmove : Move x cfg a s s') (ht : t ∈ s'.tasks) :
    t.seen = [] ∨ ∃ u ∈ s.tasks, t.seen = u.seen := by
  have hsame : ∀ {t u : ReqTask}, Same u t → t.seen = u.seen := fun h => by
    unfold ReqTask.seen
    rw [h.asked, h.query]
  have hset : ∀ {i : Nat} {u u' : ReqTask}, s.tasks[i]? = some u → t ∈ s.tasks.set i u' → u'.seen = u.seen →
      t.seen = [] ∨ ∃ u ∈ s.tasks, t.seen = u.seen := by
    intro i u u' hu ht hseen
    rcases List.mem_or_eq_of_mem_set ht with ht | rfl
    · exact Or.inr ⟨t, ht, rfl⟩
    · exact Or.inr ⟨u, List.mem_of_getElem? hu, hseen⟩
  cases hmove with
  | connect | socket | conn | unregister | hangUp | drain | spawn | permit | process | advance | deliver | reply |
    promise | unheard | background => exact Or.inr ⟨t, ht, rfl⟩
  | openSub =>
    rcases List.mem_append.1 ht with ht | ht
    · obtain ⟨u, hu, h⟩ := mem_abort ht
      exact Or.inr ⟨u, hu, hsame h⟩
    · rw [List.mem_singleton.1 ht]
      exact Or.inl rfl
  | closeSub =>
    obtain ⟨u, hu, h⟩ := mem_abort ht
    exact Or.inr ⟨u, hu, hsame h⟩
  | finish =>
    obtain ⟨u, hu, h⟩ := mem_abortAll ht
    exact Or.inr ⟨u, hu, hsame h⟩
  | task hreq => exact absurd hreq (ha _)
  | stored hu | eose hu | endTask hu => exact hset hu ht rfl

/-- The step lemma: the lookup of a turn is made in the index as it was before the turn. -/
theorem seen_step (hstep : s.step x cfg a = some s') (ht : t ∈ s'.tasks) :
    t.seen = [] ∨ ∃ u ∈ s.tasks, t.seen = u.seen ∨ t.seen = u.seen ++ [s.store.index] := by
  by_cases ha : ∃ i, a = .request i
  · obtain ⟨i, rfl⟩ := ha
    simp only [Server.step] at hstep
    split at hstep
    · rename_i u hu
      split at hstep
      · cases hstep
      · obtain ⟨u', htasks, hseen⟩ := seen_request hstep
        rw [htasks] at ht
        rcases List.mem_or_eq_of_mem_set ht with ht | rfl
        · exact Or.inr ⟨t, ht, Or.inl rfl⟩
        · exact Or.inr ⟨u, List.mem_of_getElem? hu, hseen⟩
    · cases hstep
  · have hne : ∀ i, a ≠ .request i := fun i hi => ha ⟨i, hi⟩
    have hkeep : ∀ v w, Move x cfg a v w → (∀ t ∈ v.tasks, t.seen = [] ∨ ∃ u ∈ s.tasks, t.seen = u.seen) →
        ∀ t ∈ w.tasks, t.seen = [] ∨ ∃ u ∈ s.tasks, t.seen = u.seen := by
      intro v w hmove h t ht
      rcases seen_move hne hmove ht with hnil | ⟨u, hu, hseen⟩
      · exact Or.inl hnil
      · rw [hseen]
        exact h u hu
    have hall := (step_moves hstep).keep hkeep fun t ht => Or.inr ⟨t, ht, rfl⟩
    rcases hall t ht with hnil | ⟨u, hu, hseen⟩
    · exact Or.inl hnil
    · exact Or.inr ⟨u, hu, Or.inl hseen⟩

theorem length_answers_le (cfg : Config) (t : ReqTask)
    (h : ∀ p ∈ t.asked, ∃ n ≤ cfg.maxLimit, p.1.limit = some n) :
    t.answers.length ≤ t.asked.length * cfg.maxLimit := by
  have hgen : ∀ asked : List (Filter × List Index), (∀ p ∈ asked, ∃ n ≤ cfg.maxLimit, p.1.limit = some n) →
      (asked.flatMap fun p => (p.1.answer p.2).map t.frame).length ≤ asked.length * cfg.maxLimit := by
    intro asked hasked
    induction asked with
    | nil => exact Nat.zero_le _
    | cons p asked ih =>
      obtain ⟨n, hn, hlimit⟩ := hasked p List.mem_cons_self
      have hrest := ih fun q hq => hasked q (List.mem_cons_of_mem p hq)
      have hhead : (p.1.answer p.2).length ≤ n := Filter.length_choose_le hlimit _
      rw [List.flatMap_cons, List.length_append, List.length_map, List.length_cons, Nat.succ_mul]
      omega
  exact hgen t.asked h

/-- At most twenty answers of at most `max_limit` events, and `EOSE`. -/
theorem Streams.length_le (h : Streams x cfg turns s t) : t.sent.length ≤ maxFiltersPerReq * cfg.maxLimit + 1 := by
  obtain ⟨text, filters, -, -, hlen, hfs⟩ := h.requested
  have hprep : Prepared cfg (t.asked.map Prod.fst ++ (t.query.toList.map Query.filter ++ t.filters)) :=
    hfs ▸ prepared_prepareFilters hlen
  have hasked : t.asked.length ≤ maxFiltersPerReq := by
    have hle := hprep.1
    rw [List.length_append, List.length_map] at hle
    omega
  have hanswers := length_answers_le cfg t fun p hp =>
    hprep.2 p.1 (List.mem_append_left _ (List.mem_map_of_mem hp))
  have hmul := Nat.mul_le_mul_right cfg.maxLimit hasked
  rcases h.track with htrack | ⟨-, -, -, -, hsent⟩
  · have hsum := congrArg List.length htrack
    rw [List.length_append] at hsum
    omega
  · rw [hsent, List.length_append, List.length_singleton]
    omega

end

/-- The index as it was before each turn. -/
def moments (x : Serde) (cfg : Config) (store : Store) (turns : List Turn) : List Index :=
  (Machine.passed (Server.step x cfg) (.start store) turns).map fun u => u.store.index

/-- What the task of a request has placed in the queue of its connection. -/
structure Streamed (x : Serde) (cfg : Config) (store : Store) (turns : List Turn) (s : Server)
    (t : ReqTask) : Prop where
  /-- a `REQ` frame of the connection asks for the filters, queried or not -/
  requested : Requested x cfg turns t
  /-- every lookup of an answered filter was made -/
  asked : ∀ p ∈ t.asked, p.2.length = p.1.lookups.length
  /-- in the index of a moment of the run, each later than the one before it -/
  seen : t.seen.Sublist (moments x cfg store turns)
  /-- a beginning of the answers, or all of them and then `EOSE` -/
  frames : t.sent <+: t.answers ∨ (t.query = none ∧ t.filters = [] ∧ t.sent = t.answers ++ [t.eose])
  /-- they are among the connection's frames, in this order -/
  logged : t.sent.Sublist (s.log t.conn)
  length : t.sent.length ≤ maxFiltersPerReq * cfg.maxLimit + 1

theorem run_seen {x : Serde} {cfg : Config} {store : Store} {turns : List Turn} {s : Server}
    (hs : Machine.run (Server.step x cfg) (.start store) turns = some s) {t : ReqTask} (ht : t ∈ s.tasks) :
    t.seen.Sublist (moments x cfg store turns) := by
  induction turns using List.reverseRecOn generalizing s t with
  | nil =>
    cases hs
    cases ht
  | append_singleton turns a ih =>
    obtain ⟨u, hu, hstep⟩ := (Machine.run_concat_eq_some _).1 hs
    have hmoments : moments x cfg store (turns ++ [a]) = moments x cfg store turns ++ [u.store.index] := by
      unfold moments
      rw [Machine.passed_concat _ hu, List.map_append]
      rfl
    rw [hmoments]
    rcases seen_step hstep ht with hnil | ⟨v, hv, hseen | hseen⟩
    · rw [hnil]
      exact List.nil_sublist _
    · rw [hseen]
      exact (ih hu hv).trans (List.sublist_append_left _ _)
    · rw [hseen]
      exact (ih hu hv).append (List.Sublist.refl _)

/-- What `run_requests` keeps. -/
structure Streaming (x : Serde) (cfg : Config) (turns : List Turn) (s : Server) : Prop where
  fresh : Fresh s
  streams : ∀ t ∈ s.tasks, Streams x cfg turns s t

theorem run_requests {x : Serde} {cfg : Config} {store : Store} {turns : List Turn} {s : Server}
    (hs : Machine.run (Server.step x cfg) (.start store) turns = some s) :
    ∀ t ∈ s.tasks, Streams x cfg turns s t := by
  have hmove : ∀ a ∈ turns, ∀ u v, Move x cfg a u v → Streaming x cfg turns u → Streaming x cfg turns v :=
    fun a ha u v hmove hI => ⟨hI.fresh.move hmove, streams_move hI.fresh ha hmove hI.streams⟩
  have hI : Streaming x cfg turns s := Machine.run_invariant_mem
    (fun _ a _ hstep ha hI => (step_moves hstep).keep (hmove a ha) hI) hs
    ⟨fresh_start store, fun t ht => absurd ht List.not_mem_nil⟩
  exact hI.streams

/-- In every state of every run, for every task that a request has spawned. -/
theorem run_streams (x : Serde) (cfg : Config) (store : Store) (turns : List Turn) (s : Server)
    (hs : Machine.run (Server.step x cfg) (.start store) turns = some s) (t : ReqTask) (ht : t ∈ s.tasks) :
    Streamed x cfg store turns s t := by
  have h := run_requests hs t ht
  refine ⟨h.requested, h.asked, run_seen hs ht, ?_, h.logged, h.length_le⟩
  rcases h.track with htrack | ⟨-, -, hquery, hfilters, hsent⟩
  · exact Or.inl ⟨_, htrack⟩
  · exact Or.inr ⟨hquery, hfilters, hsent⟩

theorem run_streams_reqTwice : ∃ s t,
    Machine.run (Server.step NostrMessage.jsonSerde oneSub) (.start (.new ⟨none, none, none⟩)) reqTwice = some s ∧
      t ∈ s.tasks ∧ t.sent.length = 1 ∧
      Streamed NostrMessage.jsonSerde oneSub (.new ⟨none, none, none⟩) reqTwice s t := by
  obtain ⟨s, hs, hp⟩ := Machine.exists_run (Server.step NostrMessage.jsonSerde oneSub)
      (.start (.new ⟨none, none, none⟩))
    reqTwice (fun s => s.tasks.any fun t => t.sent.length == 1) (by decide +kernel)
  obtain ⟨t, ht, hsent⟩ := List.any_eq_true.1 hp
  exact ⟨s, t, hs, ht, eq_of_beq hsent, run_streams _ oneSub _ reqTwice s hs t ht⟩

/-! ## A request gets to its `EOSE` -/

/-- Every connection that was given an id has a queue of the fixed capacity. -/
structure Sized (s : Server) : Prop where
  capacity : ∀ c, 0 < c → c ≤ s.fan.nextId → (s.conn c).capacity = connSendCap
  sockets : ∀ c, c ∈ s.sockets → 0 < c ∧ c ≤ s.fan.nextId
  tasks : ∀ t ∈ s.tasks, 0 < t.conn ∧ t.conn ≤ s.fan.nextId

section
variable {x : Serde} {cfg : Config} {a : Turn} {s s' : Server} {c : ConnId}

theorem sized_start (store : Store) : Sized (.start store) :=
  ⟨fun _ hpos hle => absurd hle (Nat.not_le.2 hpos), fun _ hc => absurd hc (AList.notMem_empty _),
    fun _ ht => absurd ht List.not_mem_nil⟩

theorem Sized.congr (h : Sized s) (hnext : s'.fan.nextId = s.fan.nextId)
    (hcap : ∀ c, (s'.conn c).capacity = (s.conn c).capacity) (hsockets : ∀ c, c ∈ s'.sockets → c ∈ s.sockets)
    (htasks : ∀ t ∈ s'.tasks, t.conn ∈ s.sockets ∨ ∃ u ∈ s.tasks, t.conn = u.conn) : Sized s' := by
  refine ⟨fun c hpos hle => ?_, fun c hc => ?_, fun t ht => ?_⟩
  · rw [hcap c]
    exact h.capacity c hpos (hnext ▸ hle)
  · rw [hnext]
    exact h.sockets c (hsockets c hc)
  · rw [hnext]
    rcases htasks t ht with hin | ⟨u, hu, hconn⟩
    · exact h.sockets _ hin
    · rw [hconn]
      exact h.tasks u hu

theorem capacity_modify {f : ConnState → ConnState} (hf : (f (s.conn c)).capacity = (s.conn c).capacity)
    (hfan : s'.fan = s.fan.modify c f) (d : ConnId) : (s'.conn d).capacity = (s.conn d).capacity := by
  unfold Server.conn
  rw [hfan]
  exact Fanout.state_modify_congr s.fan c d f hf

theorem capacity_rewrites {subs : List Sub} {fan : Fanout} (h : s.fan.Rewrites c subs fan) (d : ConnId) :
    (fan.state d).capacity = (s.conn d).capacity := by
  by_cases hd : d = c
  · obtain ⟨key, hself⟩ := h.self
    rw [hd, hself]
    rfl
  · rw [h.others d hd]
    rfl

theorem Sized.move (hmove : Move x cfg a s s') (h : Sized s) : Sized s' := by
  have hsame : ∀ t ∈ s.tasks, t.conn ∈ s.sockets ∨ ∃ u ∈ s.tasks, t.conn = u.conn :=
    fun t ht => Or.inr ⟨t, ht, rfl⟩
  have hin : ∀ {c : ConnId} {sock : Socket}, s.sockets.lookup c = some sock → c ∈ s.sockets :=
    fun hsock => AList.lookup_isSome.1 (by rw [hsock]; rfl)
  have hput : ∀ {c : ConnId} {sock sock' : Socket}, s.sockets.lookup c = some sock →
      ∀ d, d ∈ s.sockets.insert c sock' → d ∈ s.sockets := by
    intro c sock sock' hsock d hd
    rcases (AList.mem_insert _).1 hd with rfl | hd
    · exact hin hsock
    · exact hd
  have hset : ∀ {i : Nat} {u u' : ReqTask}, s.tasks[i]? = some u → u'.conn = u.conn →
      ∀ t ∈ s.tasks.set i u', t.conn ∈ s.sockets ∨ ∃ u ∈ s.tasks, t.conn = u.conn := by
    intro i u u' hu hconn t ht
    rcases List.mem_or_eq_of_mem_set ht with ht | rfl
    · exact hsame t ht
    · exact Or.inr ⟨u, List.mem_of_getElem? hu, hconn⟩
  cases hmove with
  | connect now =>
    refine ⟨fun c hpos hle => ?_, fun c hc => ?_, fun t ht => ?_⟩
    · show ((s.fan.register now connSendCap).2.state c).capacity = connSendCap
      rw [Fanout.state_register]
      split
      · rfl
      · rename_i hne
        exact h.capacity c hpos (Nat.le_of_lt_succ (Nat.lt_of_le_of_ne hle hne))
    · rcases (AList.mem_insert _).1 hc with rfl | hc
      · exact ⟨Nat.succ_pos _, Nat.le_refl _⟩
      · exact ⟨(h.sockets c hc).1, (h.sockets c hc).2.trans (Nat.le_succ _)⟩
    · exact ⟨(h.tasks t ht).1, (h.tasks t ht).2.trans (Nat.le_succ _)⟩
  | promise | spawn | permit | process | advance | unheard | background =>
      exact h.congr rfl (fun _ => rfl) (fun _ hc => hc) hsame
  | socket hsock => exact h.congr rfl (fun _ => rfl) (hput hsock) hsame
  | conn hp => exact h.congr rfl (capacity_modify hp.capacity rfl) (fun _ hc => hc) hsame
  | openSub _ hsock =>
    refine h.congr (Fanout.rewrites_setSub ..).nextId (capacity_rewrites (Fanout.rewrites_setSub ..))
        (hput hsock) ?_
    intro t ht
    rcases List.mem_append.1 ht with ht | ht
    · obtain ⟨u, hu, husame⟩ := mem_abort ht
      exact Or.inr ⟨u, hu, husame.conn⟩
    · rw [List.mem_singleton.1 ht]
      exact Or.inl (hin hsock)
  | closeSub hsock =>
    refine h.congr (Fanout.rewrites_removeSub ..).nextId (capacity_rewrites (Fanout.rewrites_removeSub ..))
        (hput hsock) ?_
    intro t ht
    obtain ⟨u, hu, husame⟩ := mem_abort ht
    exact Or.inr ⟨u, hu, husame.conn⟩
  | @unregister c sock hsock =>
    refine h.congr (Fanout.nextId_unregister s.fan c) (fun d => ?_) (hput hsock) hsame
    show ((s.fan.unregister c).state d).capacity = (s.fan.state d).capacity
    rw [Fanout.state_unregister]
    split
    · rename_i hd
      rw [hd]
    · rfl
  | @hangUp c =>
    exact h.congr rfl (capacity_close s c) (fun _ hc => hc) hsame
  | @finish c =>
    refine h.congr rfl (capacity_close s c)
      (fun d hd => (AList.mem_erase.1 hd).2) fun t ht => ?_
    obtain ⟨u, hu, husame⟩ := mem_abortAll ht
    exact Or.inr ⟨u, hu, husame.conn⟩
  | @drain c _ queue =>
    exact h.congr rfl (capacity_modify (c := c) (f := fun conn => { conn with queue := queue }) rfl rfl)
        (fun _ hc => hc) hsame
  | task _ hu _ hnext => exact h.congr rfl (fun _ => rfl) (fun _ hc => hc) (hset hu hnext.conn)
  | endTask hu => exact h.congr rfl (fun _ => rfl) (fun _ hc => hc) (hset hu rfl)
  | @stored i u _ _ conn hu _ _ hsend =>
    refine h.congr rfl (capacity_modify (c := u.conn) (f := fun _ => conn) ?_ rfl) (fun _ hc => hc) (hset hu rfl)
    exact (places_sent hsend).capacity
  | @eose i u conn hu _ _ _ _ hsend =>
    refine h.congr rfl (capacity_modify (c := u.conn) (f := fun _ => conn) ?_ rfl) (fun _ hc => hc) (hset hu rfl)
    exact (places_sent hsend).capacity
  | deliver clock =>
    exact h.congr rfl (capacity_modify (places_deliver _ clock _ _).capacity rfl) (fun _ hc => hc) hsame
  | @reply k j m conn _ _ hsend =>
    refine h.congr rfl (capacity_modify (c := j.conn) (f := fun _ => conn) ?_ rfl) (fun _ hc => hc) hsame
    exact (places_sent hsend).capacity

theorem run_sized {store : Store} {turns : List Turn}
    (hs : Machine.run (Server.step x cfg) (.start store) turns = some s) :
    Sized s :=
  Machine.run_invariant (C := fun _ _ => True)
      (fun _ _ _ hstep _ hI => (step_moves hstep).keep (fun _ _ => Sized.move) hI)
    turns _ s hs (Machine.along_of_forall turns _ fun _ _ _ => trivial) (sized_start store)

end

/-- The turns that a request needs: its own, and the sender's of its connection. -/
def Own (c : ConnId) (i : Nat) (turns : List Turn) : Prop := ∀ a ∈ turns, a = .drain c ∨ a = .request i

/-- Such turns lead from one state to the other. -/
def Brings (x : Serde) (cfg : Config) (c : ConnId) (i : Nat) (s s' : Server) : Prop :=
  ∃ turns, Own c i turns ∧ Machine.run (Server.step x cfg) s turns = some s'

/-- The connection takes frames, if need be after one is sent. -/
structure Ready (c : ConnId) (s : Server) : Prop where
  isOpen : (s.conn c).closed = false
  pos : 0 < (s.conn c).capacity
  room : (s.conn c).queue.length ≤ (s.conn c).capacity

/-- The task is neither at its end nor aborted. -/
structure Going (c : ConnId) (i : Nat) (t : ReqTask) (s : Server) : Prop where
  ready : Ready c s
  task : s.tasks[i]? = some t
  conn : t.conn = c
  ended : t.ended = false
  aborted : t.aborted = false

section
variable {x : Serde} {cfg : Config} {s s' s'' : Server} {c : ConnId} {i : Nat} {t : ReqTask}

theorem Brings.refl (s : Server) : Brings x cfg c i s s := ⟨[], fun _ ha => absurd ha List.not_mem_nil, rfl⟩

theorem Brings.trans (h : Brings x cfg c i s s') (h' : Brings x cfg c i s' s'') : Brings x cfg c i s s'' := by
  obtain ⟨turns, hown, hrun⟩ := h
  obtain ⟨more, hown', hrun'⟩ := h'
  refine ⟨turns ++ more, List.forall_mem_append.2 ⟨hown, hown'⟩, ?_⟩
  rw [Machine.run_append, hrun]
  exact hrun'

theorem Brings.one {a : Turn} (ha : a = .drain c ∨ a = .request i) (h : s.step x cfg a = some s') :
    Brings x cfg c i s s' := by
  refine ⟨[a], fun b hb => ?_, (Machine.run_cons_eq_some _).2 ⟨s', h, rfl⟩⟩
  rw [List.mem_singleton.1 hb]
  exact ha

theorem Ready.congr (h : Ready c s) (hfan : s'.fan = s.fan) : Ready c s' := by
  have hconn : s'.conn c = s.conn c := by
    unfold Server.conn
    rw [hfan]
  exact ⟨hconn ▸ h.isOpen, hconn ▸ h.pos, hconn ▸ h.room⟩

variable (x cfg) in
/-- Room for a frame is made by sending one. -/
theorem Ready.makeRoom (h : Ready c s) (i : Nat) : ∃ s', Brings x cfg c i s s' ∧ s'.tasks = s.tasks ∧ Ready c s' ∧
    (s'.conn c).queue.length < (s'.conn c).capacity := by
  rcases Nat.lt_or_ge (s.conn c).queue.length (s.conn c).capacity with hlt | hge
  · exact ⟨s, .refl s, rfl, h, hlt⟩
  cases hqueue : (s.conn c).queue with
  | nil =>
    rw [hqueue] at hge
    exact absurd h.pos (Nat.not_lt.2 hge)
  | cons frame queue =>
    let s' : Server := { s with
      fan := s.fan.modify c fun conn => { conn with queue := queue }
      wire := Function.update s.wire c (s.wire c ++ [frame]) }
    have hstep : Server.step x cfg s (.drain c) = some s' := by
      simp only [Server.step, h.isOpen, hqueue]
      rfl
    have hconn : s'.conn c = { s.conn c with queue := queue } := by
      show (s.fan.modify c fun conn => { conn with queue := queue }).state c = _
      rw [Fanout.state_modify, if_pos rfl]
      rfl
    have hroom := h.room
    rw [hqueue, List.length_cons] at hroom
    refine ⟨s', .one (Or.inl rfl) hstep, rfl, ⟨?_, ?_, ?_⟩, ?_⟩
    all_goals rw [hconn]
    · exact h.isOpen
    · exact h.pos
    · exact Nat.le_of_succ_le hroom
    · exact hroom

/-- The state after `send` has placed a frame. -/
theorem Ready.send (h : Ready c s) (frame : Frame) (hlt : (s.conn c).queue.length < (s.conn c).capacity) :
    ∃ conn, s.send c frame = some (true, { s with fan := s.fan.modify c fun _ => conn }) ∧
      Ready c { s with fan := s.fan.modify c fun _ => conn } := by
  have hsend : (s.conn c).trySend frame = some { s.conn c with queue := (s.conn c).queue ++ [frame] } := by
    unfold ConnState.trySend
    rw [if_pos ⟨h.isOpen, hlt⟩]
  refine ⟨{ s.conn c with queue := (s.conn c).queue ++ [frame] }, ?_, ?_⟩
  · unfold Server.send
    rw [h.isOpen, if_neg Bool.false_ne_true, hsend]
    rfl
  · have hconn : ∀ conn : ConnState, Server.conn { s with fan := s.fan.modify c fun _ => conn } c = conn := by
      intro conn
      show (s.fan.modify c fun _ => conn).state c = conn
      rw [Fanout.state_modify, if_pos rfl]
    refine ⟨?_, ?_, ?_⟩
    all_goals rw [hconn]
    · exact h.isOpen
    · exact h.pos
    · show ((s.conn c).queue ++ [frame]).length ≤ _
      rw [List.length_append]
      exact hlt

theorem Going.step (h : Going c i t s) : Server.step x cfg s (.request i) = s.request i t := by
  simp only [Server.step, h.task, h.ended, h.aborted]
  rfl

theorem Going.getElem? (h : Going c i t s) (t' : ReqTask) : (s.setTask i t').tasks[i]? = some t' := by
  obtain ⟨hlt, -⟩ := List.getElem?_eq_some_iff.1 h.task
  exact List.getElem?_set_self hlt

variable (x cfg) in
/-- A turn that places no frame. -/
theorem Going.next (h : Going c i t s) {t' : ReqTask} (hreq : s.request i t = some (s.setTask i t'))
    (hconn : t'.conn = t.conn) (hended : t'.ended = t.ended) (haborted : t'.aborted = t.aborted) :
    Brings x cfg c i s (s.setTask i t') ∧ Going c i t' (s.setTask i t') :=
  ⟨.one (Or.inr rfl) (h.step.trans hreq), h.ready.congr rfl, h.getElem? t', hconn.trans h.conn,
    hended.trans h.ended, haborted.trans h.aborted⟩

variable (x cfg) in
/-- One frame of a task that is parked or finds a free place, once there is room. -/
theorem Going.placed (h : Going c i t s) (frame : Frame) (t' : ReqTask)
    (hreq : s.request i t = s.place i t frame t')
    (hlt : (s.conn c).queue.length < (s.conn c).capacity) (hfree : (!t.parked && s.full c) = false) :
    ∃ s', Brings x cfg c i s s' ∧ s'.tasks[i]? = some { t' with sent := t.sent ++ [frame], parked := false } ∧
      Ready c s' := by
  obtain ⟨conn, hplaced, hready⟩ := h.ready.send frame hlt
  let v : Server := { s with fan := s.fan.modify c fun _ => conn }
  have hv : Going c i t v := ⟨hready, h.task, h.conn, h.ended, h.aborted⟩
  refine ⟨v.setTask i { t' with sent := t.sent ++ [frame], parked := false }, .one (Or.inr rfl) ?_, hv.getElem? _,
    hready.congr rfl⟩
  rw [h.step, hreq]
  unfold Server.place
  rw [h.conn, Bool.and_assoc, hfree, Bool.and_false, if_neg Bool.false_ne_true, hplaced]
  rfl

variable (x cfg) in
/-- One frame of the task, with the sender's help; where the places left are promised to
others it is parked first. -/
theorem Going.place (h : Going c i t s) (frame : Frame) (t' : ReqTask)
    (hreq : ∀ (s : Server) (parked : Bool), s.request i { t with parked := parked } =
      s.place i { t with parked := parked } frame { t' with parked := parked }) :
    ∃ s', Brings x cfg c i s s' ∧ s'.tasks[i]? = some { t' with sent := t.sent ++ [frame], parked := false } ∧
      Ready c s' := by
  obtain ⟨u, hbrings, htasks, hready, hlt⟩ := h.ready.makeRoom x cfg i
  have hu : Going c i t u := ⟨hready, htasks ▸ h.task, h.conn, h.ended, h.aborted⟩
  cases hfree : !t.parked && u.full c with
  | false =>
    obtain ⟨v, hbrings', hplaced⟩ := hu.placed x cfg frame _ (hreq u t.parked) hlt hfree
    exact ⟨v, hbrings.trans hbrings', hplaced⟩
  | true =>
    have hpark : u.request i t = some (u.setTask i { t with parked := true }) := by
      refine (hreq u t.parked).trans ?_
      unfold Server.place
      rw [h.conn, hready.isOpen, Bool.and_assoc, hfree]
      rfl
    obtain ⟨hbrings', hgoing⟩ := hu.next x cfg hpark rfl rfl rfl
    obtain ⟨v, hbrings'', hplaced⟩ := hgoing.placed x cfg frame _ (hreq _ true) hlt rfl
    exact ⟨v, (hbrings.trans hbrings').trans hbrings'', hplaced⟩

variable (x cfg) in
/-- The rest of an answer. -/
theorem Going.answer (h : Going c i t s) :
    ∃ s' t', Brings x cfg c i s s' ∧ Going c i t' s' ∧ t'.answer = [] ∧ t'.query = t.query ∧
        t'.filters = t.filters := by
  -- by induction on what is left of the answer
  generalize hl : t.answer = l
  induction l generalizing s t with
  | nil => exact ⟨s, t, .refl s, h, hl, rfl, rfl⟩
  | cons e l ih =>
    obtain ⟨u, hbrings, hu, hready⟩ :=
      h.place x cfg (.event t.id (Json.fromUtf8Lossy e.raw)) { t with answer := l }
      fun s parked => by
        unfold Server.request
        simp only [hl]
    obtain ⟨v, t', hbrings', hgoing, hrest⟩ := ih ⟨hready, hu, h.conn, h.ended, h.aborted⟩ rfl
    exact ⟨v, t', hbrings.trans hbrings', hgoing, hrest⟩

variable (x cfg) in
/-- The rest of a query. -/
theorem Going.query (h : Going c i t s) (hanswer : t.answer = []) {q : Query} (hquery : t.query = some q) :
    ∃ s' t', Brings x cfg c i s s' ∧ Going c i t' s' ∧ t'.query = none ∧ t'.filters = t.filters := by
  -- by induction on the lookups still to make
  generalize hls : q.lookups = ls
  have hreq : s.request i t = some (s.setTask i (s.lookUp t q)) := by
    unfold Server.request
    rw [hanswer, hquery]
  induction ls generalizing s t q with
  | nil =>
    unfold Server.lookUp at hreq
    rw [hls] at hreq
    obtain ⟨hbrings, hgoing⟩ := h.next x cfg hreq rfl rfl rfl
    exact ⟨_, _, hbrings, hgoing, rfl, rfl⟩
  | cons l ls ih =>
    unfold Server.lookUp at hreq
    rw [hls] at hreq
    obtain ⟨hbrings, hgoing⟩ := h.next x cfg hreq rfl rfl rfl
    obtain ⟨u, t', hbrings', hrest⟩ := ih hgoing hanswer rfl rfl (by
      unfold Server.request
      simp only [hanswer])
    exact ⟨u, t', hbrings.trans hbrings', hrest⟩

variable (x cfg) in
/-- The rest of the answer and of the query, and the query's answer. -/
theorem Going.settle (h : Going c i t s) :
    ∃ s' t', Brings x cfg c i s s' ∧ Going c i t' s' ∧ t'.answer = [] ∧ t'.query = none ∧
        t'.filters = t.filters := by
  obtain ⟨u, t', hbrings, hgoing, hanswer, hquery, hfilters⟩ := h.answer x cfg
  cases hq : t'.query with
  | none => exact ⟨u, t', hbrings, hgoing, hanswer, hq, hfilters⟩
  | some q =>
    obtain ⟨v, t'', hbrings', hgoing', hquery', hfilters'⟩ := hgoing.query x cfg hanswer hq
    obtain ⟨w, last, hbrings'', hgoing'', hanswer'', hquery'', hfilters''⟩ := hgoing'.answer x cfg
    exact ⟨w, last, (hbrings.trans hbrings').trans hbrings'', hgoing'', hanswer'', hquery''.trans hquery',
      hfilters''.trans (hfilters'.trans hfilters)⟩

variable (x cfg) in
/-- All filters, one after another. -/
theorem Going.filters (h : Going c i t s) :
    ∃ s' t', Brings x cfg c i s s' ∧ Going c i t' s' ∧ t'.answer = [] ∧ t'.query = none ∧ t'.filters = [] := by
  generalize hfs : t.filters = fs
  induction fs generalizing s t with
  | nil =>
    obtain ⟨u, t', hbrings, hgoing, hanswer, hquery, hfilters⟩ := h.settle x cfg
    exact ⟨u, t', hbrings, hgoing, hanswer, hquery, hfilters.trans hfs⟩
  | cons filter fs ih =>
    obtain ⟨u, t', hbrings, hgoing, hanswer, hquery, hfilters⟩ := h.settle x cfg
    have hreq : u.request i t' =
        some (u.setTask i { t' with filters := fs, query := some ⟨filter, filter.lookups, [], []⟩ }) := by
      unfold Server.request
      rw [hanswer, hquery, hfilters, hfs]
    obtain ⟨hask, hgoing'⟩ := hgoing.next x cfg hreq rfl rfl rfl
    obtain ⟨v, t'', hbrings', hrest⟩ := ih hgoing' rfl
    exact ⟨v, t'', (hbrings.trans hask).trans hbrings', hrest⟩

end

/-- From every state of every run: a task that has not ended and is not aborted, on a
connection whose receiver is there, can be brought to its `EOSE` by turns of its own and
of the sender, all answers before it.  No other task takes the places that the sender
frees. -/
theorem request_completes (x : Serde) (cfg : Config) (store : Store) (turns : List Turn) (s : Server)
    (hs : Machine.run (Server.step x cfg) (.start store) turns = some s) (i : Nat) (t : ReqTask)
    (ht : s.tasks[i]? = some t) (hended : t.ended = false) (haborted : t.aborted = false)
    (hopen : (s.conn t.conn).closed = false) :
    ∃ more s' t', Own t.conn i more ∧ Machine.run (Server.step x cfg) s more = some s' ∧ s'.tasks[i]? = some t' ∧
      t'.ended = true ∧ t'.query = none ∧ t'.filters = [] ∧ t'.sent = t'.answers ++ [t'.eose] := by
  have hsized := run_sized hs
  have hmem := List.mem_of_getElem? ht
  have hready : Ready t.conn s := by
    refine ⟨hopen, ?_, ((run_inv hs).queue t.conn).1⟩
    rw [hsized.capacity t.conn (hsized.tasks t hmem).1 (hsized.tasks t hmem).2]
    decide
  obtain ⟨u, t', hbrings, hgoing, hanswer, hquery, hfilters⟩ :=
    Going.filters x cfg ⟨hready, ht, rfl, hended, haborted⟩
  obtain ⟨v, hbrings', hv, -⟩ := hgoing.place x cfg t'.eose { t' with ended := true } fun s parked => by
    unfold Server.request
    simp only [hanswer, hquery, hfilters]
    rfl
  -- the answers are all sent, as in every state of a run
  have hsent : t'.sent = t'.answers := by
    obtain ⟨more, -, hrun⟩ := hbrings
    have hall : Machine.run (Server.step x cfg) (.start store) (turns ++ more) = some u := by
      rw [Machine.run_append, hs]
      exact hrun
    have htrack := (run_requests hall t' (List.mem_of_getElem? hgoing.task)).sent hgoing.ended
    rwa [hanswer, List.map_nil, List.append_nil] at htrack
  obtain ⟨more, hown, hrun⟩ := hbrings.trans hbrings'
  refine ⟨more, v, _, hown, hrun, hv, rfl, hquery, hfilters, ?_⟩
  rw [hsent]
  rfl

theorem request_completes_noteReq : ∃ s t more s' t',
    Machine.run (Server.step NostrMessage.jsonSerde oneSub) (.start (.new ⟨none, none, none⟩))
        [.connect 0, .receive 1 (.text noteReq)] = some s ∧ s.tasks[0]? = some t ∧
      Machine.run (Server.step NostrMessage.jsonSerde oneSub) s more = some s' ∧ s'.tasks[0]? = some t' ∧
      t'.sent = t'.answers ++ [t'.eose] := by
  obtain ⟨s, hs, hp⟩ := Machine.exists_run (Server.step NostrMessage.jsonSerde oneSub)
      (.start (.new ⟨none, none, none⟩))
    [.connect 0, .receive 1 (.text noteReq)]
    (fun s => (s.tasks[0]?).any fun t => !t.ended && !t.aborted && !(s.conn t.conn).closed) (by decide +kernel)
  cases ht : s.tasks[0]? with
  | none =>
    rw [ht] at hp
    cases hp
  | some t =>
    rw [ht, Option.any_some, Bool.and_eq_true, Bool.and_eq_true, Bool.not_eq_true', Bool.not_eq_true',
      Bool.not_eq_true'] at hp
    obtain ⟨more, s', t', -, hrun, ht', -, -, -, hsent⟩ :=
      request_completes _ oneSub _ _ s hs 0 t ht hp.1.1 hp.1.2 hp.2
    exact ⟨s, t, more, s', t', hs, ht, hrun, ht', hsent⟩

end Session
end Memlay
