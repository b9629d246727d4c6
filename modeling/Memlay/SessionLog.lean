import Memlay.SessionBounds

/-!
# What a connection has been sent

`log` are the frames that were placed in a connection's queue, those already written to
the socket first.  It only grows, and each turn says where its frames come from:

    the connection's own task              NOTICE, CLOSED
    a publisher                            EVENT, for a subscription that is open
    the task of a REQ that has not ended   EVENT and EOSE, for its id
    the task of an EVENT frame             its reply

(`move_log`).  So a subscription id is silent once the subscription and its task are gone,
until the client asks again (`silent`).
-/

namespace Memlay
namespace Session

open Json (utf8Bytes)

/-- The frames placed so far. -/
def Server.log (s : Server) (c : ConnId) : List Frame := s.wire c ++ (s.conn c).queue

/-- Where a frame comes from, a reply to an `EVENT` frame apart. -/
inductive Source (s : Server) (c : ConnId) : Frame → Prop where
  | spoken {frame : Frame} (h : Spoken frame) : Source s c frame
  | live {frame : Frame} {j : Job} {ev : BroadcastEvent} {targets : List ConnId} {events : List Event}
      {reply : Option NostrMessage} (hj : j ∈ s.jobs) (hstage : j.stage = .delivering ev targets events reply)
      (h : Live ev (s.conn c).subs frame) : Source s c frame
  | stored {i : Nat} {t : ReqTask} {e : Event} (ht : s.tasks[i]? = some t) (hconn : t.conn = c)
      (hended : t.ended = false) (he : e ∈ t.answer) : Source s c (.event t.id (Json.fromUtf8Lossy e.raw))
  | eose {i : Nat} {t : ReqTask} (ht : s.tasks[i]? = some t) (hconn : t.conn = c) (hended : t.ended = false) :
    Source s c (.message (.endOfStoredEvents t.id))

/-- Nothing is there for ids that are not yet given out. -/
structure Fresh (s : Server) : Prop where
  wire : ∀ c, s.fan.nextId < c → s.wire c = []
  conn : ∀ c, s.fan.nextId < c → (s.conn c).queue = [] ∧ (s.conn c).capacity = 0

/-- The log of each connection grows by frames that `P` allows it. -/
def Grows (P : ConnId → Frame → Prop) (s t : Server) : Prop :=
  ∀ c, ∃ frames, t.log c = s.log c ++ frames ∧ ∀ frame ∈ frames, P c frame

section
variable {x : Serde} {cfg : Config} {a : Turn} {s t : Server} {c : ConnId}

theorem Grows.of_eq {P : ConnId → Frame → Prop} (h : ∀ c, t.log c = s.log c) : Grows P s t :=
  fun c => ⟨[], by rw [h, List.append_nil], by simp⟩

theorem log_of_queue {t : Server} (hwire : t.wire = s.wire) (hqueue : ∀ c, (t.conn c).queue = (s.conn c).queue)
    (c : ConnId) :
    t.log c = s.log c := by
  unfold Server.log
  rw [hwire, hqueue]

theorem queue_rewrites {subs : List Sub} {fan : Fanout} (h : s.fan.Rewrites c subs fan) (d : ConnId) :
    (fan.state d).queue = (s.conn d).queue := by
  by_cases hd : d = c
  · obtain ⟨key, hself⟩ := h.self
    rw [hd, hself]
    rfl
  · rw [h.others d hd]
    rfl

theorem queue_close (s : Server) (c d : ConnId) :
    ((s.fan.modify c fun conn => { conn with closed := true }).state d).queue = (s.conn d).queue :=
  Fanout.state_modify_congr s.fan c d _ (g := ConnState.queue) rfl

theorem capacity_close (s : Server) (c d : ConnId) :
    ((s.fan.modify c fun conn => { conn with closed := true }).state d).capacity = (s.conn d).capacity :=
  Fanout.state_modify_congr s.fan c d _ (g := ConnState.capacity) rfl

theorem grows_places {P : Frame → Prop} {f : ConnState → ConnState} (h : Places P (s.conn c) (f (s.conn c)))
    (hwire : t.wire = s.wire) (hfan : t.fan = s.fan.modify c f) : Grows (fun d frame => d = c ∧ P frame) s t := by
  intro d
  unfold Server.log Server.conn
  rw [hwire, hfan, Fanout.state_modify]
  split
  · rename_i hd
    obtain ⟨frames, hqueue, hP⟩ := h.queue
    refine ⟨frames, ?_, fun frame hf => ⟨hd, hP frame hf⟩⟩
    rw [hd, List.append_assoc]
    exact congrArg _ hqueue
  · exact ⟨[], (List.append_nil _).symm, by simp⟩

theorem log_connect (h : Fresh s) (now : Nat) (c : ConnId) : Server.log { s with
    fan := (s.fan.register now connSendCap).2
    sockets := s.sockets.insert (s.fan.nextId + 1) ⟨.select, ∅, false⟩
    connectionCount := s.connectionCount + 1 } c = s.log c := by
  unfold Server.log
  show s.wire c ++ ((s.fan.register now connSendCap).2.state c).queue = s.wire c ++ (s.fan.state c).queue
  rw [Fanout.state_register]
  split
  · rename_i hc
    have hempty : (s.fan.state c).queue = [] := (h.conn c (hc ▸ Nat.lt_succ_self _)).1
    rw [hempty]
    rfl
  · rfl

theorem log_drain {frame : Frame} {queue : List Frame} (hqueue : (s.conn c).queue = frame :: queue) (d : ConnId) :
    Server.log { s with
      fan := s.fan.modify c fun conn => { conn with queue := queue }
      wire := Function.update s.wire c (s.wire c ++ [frame]) } d = s.log d := by
  unfold Server.log Server.conn
  simp only [Fanout.state_modify, Function.update_apply]
  by_cases hd : d = c
  · rw [hd, if_pos rfl, if_pos rfl]
    change (s.fan.state c).queue = frame :: queue at hqueue
    rw [hqueue, List.append_assoc]
    rfl
  · rw [if_neg hd, if_neg hd]

end

/-- The reply that a task has placed. -/
def Stage.placed : Stage → Option NostrMessage
  | .answered m => some m
  | _ => none

/-- The connection, the frame and the reply that was placed. -/
def Job.answer (j : Job) : Option (ConnId × Str × NostrMessage) := j.stage.placed.map fun m => (j.conn, j.text, m)

def Server.answers (s : Server) : List (ConnId × Str × NostrMessage) := s.jobs.filterMap Job.answer

section
variable {x : Serde} {cfg : Config} {a : Turn} {s t : Server} {c : ConnId}

/-- One job among the others. -/
theorem exists_split {k : Nat} {j : Job} {jobs : List Job} (h : jobs[k]? = some j) :
    ∃ l r, jobs = l ++ j :: r ∧ ∀ j', jobs.set k j' = l ++ j' :: r := by
  obtain ⟨hlt, hget⟩ := List.getElem?_eq_some_iff.1 h
  refine ⟨jobs.take k, jobs.drop (k + 1), ?_, fun j' => List.set_eq_take_append_cons_drop.trans (if_pos hlt)⟩
  have hself := List.set_eq_take_append_cons_drop (l := jobs) (i := k) (a := j)
  rw [if_pos hlt, ← hget, List.set_getElem_self] at hself
  rw [← hget]
  exact hself

/-- A job that has not answered, and does not. -/
theorem answers_setStage {k : Nat} {j : Job} {stage : Stage} (hj : s.jobs[k]? = some j) (h : j.stage.placed = none)
    (h' : stage.placed = none) (hjobs : t.jobs = (s.setStage k j stage).jobs) : t.answers = s.answers := by
  obtain ⟨l, r, hl, hset⟩ := exists_split hj
  have hnone : ∀ j : Job, j.stage.placed = none → j.answer = none := by
    intro j hj
    unfold Job.answer
    rw [hj]
    rfl
  unfold Server.answers
  rw [hjobs]
  show (s.jobs.set k _).filterMap _ = _
  rw [hset, hl, List.filterMap_append, List.filterMap_append, List.filterMap_cons_none (hnone j h),
    List.filterMap_cons_none (hnone _ h')]

/-- The reply to an `EVENT` frame is placed. -/
def Replied (s t : Server) (k : Nat) (j : Job) (m : NostrMessage) : Prop :=
  s.jobs[k]? = some j ∧ j.stage = .replying m ∧ t.jobs = s.jobs.set k { j with stage := .answered m } ∧
    ∀ c, t.log c = s.log c ++ if c = j.conn then [.message m] else []

/-- What a piece of a turn adds to the logs. -/
theorem move_log (h : Fresh s) (hmove : Move x cfg a s t) :
    (∃ k j m, Replied s t k j m) ∨ (Grows (Source s) s t ∧ t.answers = s.answers) := by
  have hplaces : ∀ {c : ConnId} {P : Frame → Prop} {f : ConnState → ConnState} {u : Server},
      Places P (s.conn c) (f (s.conn c)) → (∀ frame, P frame → Source s c frame) → u.wire = s.wire →
        u.fan = s.fan.modify c f → Grows (Source s) s u := by
    intro c P f u hp hsource hwire hfan d
    obtain ⟨frames, hlog, hframes⟩ := grows_places hp hwire hfan d
    refine ⟨frames, hlog, fun frame hf => ?_⟩
    obtain ⟨rfl, hP⟩ := hframes frame hf
    exact hsource frame hP
  cases hmove with
  | connect now => exact Or.inr ⟨.of_eq (log_connect h now), rfl⟩
  | socket | promise | task | endTask | background => exact Or.inr ⟨.of_eq fun _ => rfl, rfl⟩
  | spawn =>
    refine Or.inr ⟨.of_eq fun _ => rfl, ?_⟩
    unfold Server.answers
    rw [List.filterMap_append]
    exact List.append_nil _
  | permit hj hstage => exact Or.inr ⟨.of_eq fun _ => rfl, answers_setStage hj (by rw [hstage]; rfl) rfl rfl⟩
  | process _ _ hj hstage => exact Or.inr ⟨.of_eq fun _ => rfl, answers_setStage hj (by rw [hstage]; rfl) rfl rfl⟩
  | unheard hj hstage => exact Or.inr ⟨.of_eq fun _ => rfl, answers_setStage hj (by rw [hstage]; rfl) rfl rfl⟩
  | @advance k j stage hj hnext =>
    have hnone : j.stage.placed = none ∧ stage.placed = none := by
      generalize j.stage = old at hnext
      cases hnext <;> exact ⟨rfl, rfl⟩
    exact Or.inr ⟨.of_eq fun _ => rfl, answers_setStage hj hnone.1 hnone.2 rfl⟩
  | conn hp => exact Or.inr ⟨hplaces hp (fun _ => .spoken) rfl rfl, rfl⟩
  | openSub => exact Or.inr ⟨.of_eq (log_of_queue rfl (queue_rewrites (Fanout.rewrites_setSub ..))), rfl⟩
  | closeSub => exact Or.inr ⟨.of_eq (log_of_queue rfl (queue_rewrites (Fanout.rewrites_removeSub ..))), rfl⟩
  | @unregister c sock hsock =>
    refine Or.inr ⟨.of_eq (log_of_queue rfl fun d => ?_), rfl⟩
    show ((s.fan.unregister c).state d).queue = (s.fan.state d).queue
    rw [Fanout.state_unregister]
    split
    · rename_i hd
      rw [hd]
    · rfl
  | finish | hangUp => exact Or.inr ⟨.of_eq (log_of_queue rfl (queue_close s _)), rfl⟩
  | drain _ hqueue => exact Or.inr ⟨.of_eq (log_drain hqueue), rfl⟩
  | @stored i task e answer conn ht hended hanswer hsend =>
    refine Or.inr ⟨hplaces (c := task.conn) (f := fun _ => conn)
      (places_trySend (P := fun frame => frame = .event task.id (Json.fromUtf8Lossy e.raw)) rfl hsend) ?_ rfl rfl,
      rfl⟩
    rintro frame rfl
    exact .stored ht rfl hended (hanswer ▸ List.mem_cons_self)
  | @eose i task conn ht hended _ _ _ hsend =>
    refine Or.inr ⟨hplaces (c := task.conn) (f := fun _ => conn)
      (places_trySend (P := fun frame => frame = .message (.endOfStoredEvents task.id)) rfl hsend) ?_ rfl rfl, rfl⟩
    rintro frame rfl
    exact .eose ht rfl hended
  | deliver clock hj hstage =>
    exact Or.inr ⟨hplaces (places_deliver _ clock _ _) (fun _ => .live (List.mem_of_getElem? hj) hstage) rfl rfl,
      answers_setStage hj (by rw [hstage]; rfl) rfl rfl⟩
  | @reply k j m conn hj hstage hsend =>
    refine Or.inl ⟨k, j, m, hj, hstage, rfl, fun c => ?_⟩
    obtain ⟨-, -, hconn⟩ := Link.trySend_eq_some hsend
    unfold Server.log
    show s.wire c ++ ((s.fan.modify j.conn fun _ => conn).state c).queue = s.wire c ++ (s.fan.state c).queue ++ _
    rw [Fanout.state_modify, List.append_assoc]
    split
    · rename_i hc
      rw [hc, hconn]
      rfl
    · rw [List.append_nil]

/-! ## Ids that are not yet given out -/

theorem fresh_start (store : Store) : Fresh (.start store) := ⟨fun _ _ => rfl, fun _ _ => ⟨rfl, rfl⟩⟩

theorem Fresh.congr (h : Fresh s) (hwire : t.wire = s.wire) (hnext : t.fan.nextId = s.fan.nextId)
    (hqueue : ∀ c, (t.conn c).queue = (s.conn c).queue ∧ (t.conn c).capacity = (s.conn c).capacity) : Fresh t := by
  refine ⟨fun c hc => ?_, fun c hc => ?_⟩
  · rw [hwire]
    exact h.wire c (hnext ▸ hc)
  · rw [(hqueue c).1, (hqueue c).2]
    exact h.conn c (hnext ▸ hc)

theorem Fresh.places {P : Frame → Prop} {f : ConnState → ConnState} (h : Fresh s)
    (hp : Places P (s.conn c) (f (s.conn c))) (hwire : t.wire = s.wire) (hfan : t.fan = s.fan.modify c f) :
    Fresh t := by
  have hnext : t.fan.nextId = s.fan.nextId := by
    rw [hfan]
    rfl
  refine ⟨fun d hd => ?_, fun d hd => ?_⟩
  · rw [hwire]
    exact h.wire d (hnext ▸ hd)
  · obtain ⟨hqueue, hcap⟩ := h.conn d (hnext ▸ hd)
    unfold Server.conn
    rw [hfan, Fanout.state_modify]
    split
    · rename_i hdc
      -- there is no room, so nothing was placed
      rw [hdc] at hqueue hcap
      have hroom := hp.room
      rw [hqueue, hcap] at hroom
      exact ⟨List.eq_nil_of_length_eq_zero (Nat.le_zero.1 hroom), hp.capacity.trans hcap⟩
    · exact ⟨hqueue, hcap⟩

theorem Fresh.rewrites {subs : List Sub} {fan : Fanout} (h : Fresh s) (hr : s.fan.Rewrites c subs fan)
    (hwire : t.wire = s.wire) (hfan : t.fan = fan) : Fresh t := by
  refine h.congr hwire (by rw [hfan]; exact hr.nextId) fun d => ?_
  unfold Server.conn
  rw [hfan]
  by_cases hd : d = c
  · obtain ⟨key, hself⟩ := hr.self
    rw [hd, hself]
    exact ⟨rfl, rfl⟩
  · rw [hr.others d hd]
    exact ⟨rfl, rfl⟩

theorem Fresh.connect (h : Fresh s) (now : Nat) : Fresh { s with
    fan := (s.fan.register now connSendCap).2
    sockets := s.sockets.insert (s.fan.nextId + 1) ⟨.select, ∅, false⟩
    connectionCount := s.connectionCount + 1 } := by
  refine ⟨fun c hc => h.wire c (Nat.lt_of_succ_lt hc), fun c hc => ?_⟩
  change s.fan.nextId + 1 < c at hc
  unfold Server.conn
  simp only [Fanout.state_register, if_neg (Nat.ne_of_gt hc)]
  exact h.conn c (Nat.lt_of_succ_lt hc)

theorem Fresh.drain {frame : Frame} {queue : List Frame} (h : Fresh s)
    (hqueue : (s.conn c).queue = frame :: queue) :
    Fresh { s with
      fan := s.fan.modify c fun conn => { conn with queue := queue }
      wire := Function.update s.wire c (s.wire c ++ [frame]) } := by
  -- a queue that holds a frame is of an id that was given out
  have hne : ∀ d, s.fan.nextId < d → d ≠ c := by
    rintro d hd rfl
    rw [(h.conn d hd).1] at hqueue
    cases hqueue
  refine ⟨fun d hd => ?_, fun d hd => ?_⟩
  · show Function.update s.wire c _ d = []
    rw [Function.update_of_ne (hne d hd)]
    exact h.wire d hd
  · unfold Server.conn
    rw [Fanout.state_modify, if_neg (hne d hd)]
    exact h.conn d hd

theorem Fresh.move (hmove : Move x cfg a s t) (h : Fresh s) : Fresh t := by
  cases hmove with
  | connect now => exact h.connect now
  | socket | promise | task | endTask | spawn | permit | process | advance | unheard | background =>
    exact h.congr rfl rfl fun _ => ⟨rfl, rfl⟩
  | conn hp => exact h.places hp rfl rfl
  | openSub => exact h.rewrites (Fanout.rewrites_setSub ..) rfl rfl
  | closeSub => exact h.rewrites (Fanout.rewrites_removeSub ..) rfl rfl
  | @unregister c sock hsock =>
    refine h.congr rfl (Fanout.nextId_unregister s.fan c) fun d => ?_
    show ((s.fan.unregister c).state d).queue = (s.fan.state d).queue ∧
      ((s.fan.unregister c).state d).capacity = (s.fan.state d).capacity
    rw [Fanout.state_unregister]
    split
    · rename_i hd
      rw [hd]
      exact ⟨rfl, rfl⟩
    · exact ⟨rfl, rfl⟩
  | finish | hangUp =>
    exact h.congr rfl rfl fun d => ⟨queue_close s _ d, capacity_close s _ d⟩
  | drain _ hqueue => exact h.drain hqueue
  | @stored i task _ _ conn _ _ _ hsend =>
    exact h.places (c := task.conn) (f := fun _ => conn) (P := fun _ => True)
        (places_trySend trivial hsend) rfl rfl
  | @eose i task conn _ _ _ _ _ hsend =>
    exact h.places (c := task.conn) (f := fun _ => conn) (P := fun _ => True)
        (places_trySend trivial hsend) rfl rfl
  | deliver clock => exact h.places (places_deliver _ clock _ _) rfl rfl
  | @reply k j m conn _ _ hsend =>
    exact h.places (c := j.conn) (f := fun _ => conn) (P := fun _ => True) (places_trySend trivial hsend) rfl rfl

/-! ## Replies -/

end

/-- The reply that a task has ready. -/
def Stage.reply : Stage → Option NostrMessage
  | .publishing _ reply => reply
  | .delivering _ _ _ reply => reply
  | .replying reply => some reply
  | .answered reply => some reply
  | _ => none

/-- An `OK` with the id of the event in the frame, or a `NOTICE` that says why there is none. -/
def Answers (x : Serde) (text : Str) (m : NostrMessage) : Prop :=
  (∃ subId ev accepted message, NostrMessage.fromJson x (utf8Bytes text) = .ok (.event subId ev) ∧
    m = .ok (hexEncode ev.id) accepted message) ∨
  ∃ err, NostrMessage.fromJson x (utf8Bytes text) = .error err ∧ m = .notification err

def Answered (x : Serde) (s : Server) : Prop := ∀ j ∈ s.jobs, ∀ m, j.stage.reply = some m → Answers x j.text m

theorem reply_applyDeletionRequest {ev : Event} {visit : Visit} {st : Store} {m : NostrMessage}
    (h : (Relay.applyDeletionRequest ev visit st).reply = some m) :
    ∃ accepted message, m = .ok (hexEncode ev.id) accepted message := by
  unfold Relay.applyDeletionRequest at h
  simp only at h
  split at h
  · cases h
    exact ⟨_, _, rfl⟩
  · split at h
    · cases h
      exact ⟨_, _, rfl⟩
    · split at h
      all_goals
        cases h
        exact ⟨_, _, rfl⟩

theorem reply_processEventMessage {x : Serde} {text : Str} {visit : Visit} {st : Store} {m : NostrMessage}
    (h : (Relay.processEventMessage x (utf8Bytes text) visit st).reply = some m) : Answers x text m := by
  unfold Relay.processEventMessage at h
  split at h
  · rename_i subId ev hev
    simp only at h
    split at h
    · obtain ⟨accepted, message, rfl⟩ := reply_applyDeletionRequest h
      exact Or.inl ⟨subId, ev, accepted, message, hev, rfl⟩
    · split at h
      all_goals
        cases h
        exact Or.inl ⟨subId, ev, _, _, hev, rfl⟩
  · cases h
  · rename_i err herr
    cases h
    exact Or.inr ⟨err, herr, rfl⟩

section
variable {x : Serde} {cfg : Config} {a : Turn} {s t : Server}

theorem Answered.setStage {k : Nat} {j : Job} {stage : Stage} (h : Answered x s)
    (hjobs : t.jobs = (s.setStage k j stage).jobs)
    (hstage : ∀ m, stage.reply = some m → Answers x j.text m) : Answered x t := by
  intro i hi m hm
  rw [hjobs] at hi
  rcases List.mem_or_eq_of_mem_set hi with hi | rfl
  · exact h i hi m hm
  · exact hstage m hm

theorem Answered.move (hmove : Move x cfg a s t) (h : Answered x s) : Answered x t := by
  have hold : ∀ {k : Nat} {j : Job}, s.jobs[k]? = some j → ∀ m, j.stage.reply = some m → Answers x j.text m :=
    fun hj m hm => h _ (List.mem_of_getElem? hj) m hm
  cases hmove with
  | connect | socket | conn | openSub | closeSub | unregister | finish | hangUp | drain | task | stored | eose |
    endTask | promise | background => exact h
  | spawn =>
    intro j hj m hm
    rcases List.mem_append.1 hj with hj | hj
    · exact h j hj m hm
    · rw [List.mem_singleton.1 hj] at hm
      cases hm
  | permit => exact h.setStage rfl fun m hm => by cases hm
  | process => exact h.setStage rfl fun m hm => reply_processEventMessage hm
  | advance hj hnext =>
    refine h.setStage rfl fun m hm => hold hj m ?_
    generalize (_ : Job).stage = stage at hnext
    cases hnext with
    | silent => cases hm
    | _ => exact hm
  | deliver clock hj hstage =>
    refine h.setStage rfl fun m hm => hold hj m ?_
    rw [hstage]
    exact hm
  | reply hj hstage =>
    refine h.setStage rfl fun m hm => hold hj m ?_
    rw [hstage]
    exact hm
  | unheard => exact h.setStage rfl fun m hm => by cases hm

end

/-! ## Silence -/

/-- The frames of a subscription, live or stored. -/
def Frame.names (id : Str) : Frame → Bool
  | .event subId _ => subId == id
  | .message (.endOfStoredEvents subId) => subId == id
  | _ => false

/-- The subscription is not open, and no task streams for it. -/
structure Quiet (c : ConnId) (id : Str) (s : Server) : Prop where
  sub : id ∉ (s.conn c).subs.map Sub.id
  task : ∀ t ∈ s.tasks, t.conn = c → t.id = id → t.ended = true

/-- One task before and after an abort. -/
structure Same (u v : ReqTask) : Prop where
  conn : v.conn = u.conn
  id : v.id = u.id
  filters : v.filters = u.filters
  query : v.query = u.query
  answer : v.answer = u.answer
  asked : v.asked = u.asked
  sent : v.sent = u.sent
  ended : v.ended = u.ended

/-- The client asks for the id again. -/
def asks (x : Serde) (c : ConnId) (id : Str) : Turn → Bool
  | .receive d (.text text) =>
    d == c && match NostrMessage.fromJson x (utf8Bytes text) with
      | .ok (.request subId _) => subId == id
      | _ => false
  | _ => false

section
variable {x : Serde} {cfg : Config} {a : Turn} {s t : Server} {c : ConnId} {id : Str}

theorem not_names_of_source (h : Quiet c id s) {frame : Frame} (hsource : Source s c frame) :
    Frame.names id frame = false := by
  cases hsource with
  | spoken hspoken =>
    rcases hspoken with ⟨text, rfl⟩ | ⟨id, text, rfl⟩
    · rfl
    · rfl
  | live _ _ hlive =>
    obtain ⟨sub, hsub, -, rfl⟩ := hlive
    exact beq_false_of_ne fun hid => h.sub (List.mem_map.2 ⟨sub, hsub, hid⟩)
  | stored ht hconn hended =>
    refine beq_false_of_ne fun hid => ?_
    rw [h.task _ (List.mem_of_getElem? ht) hconn hid] at hended
    cases hended
  | eose ht hconn hended =>
    refine beq_false_of_ne fun hid => ?_
    rw [h.task _ (List.mem_of_getElem? ht) hconn hid] at hended
    cases hended

theorem not_names_of_answers {text : Str} {m : NostrMessage} (h : Answers x text m) :
    Frame.names id (.message m) = false := by
  rcases h with ⟨_, _, _, _, -, rfl⟩ | ⟨_, -, rfl⟩
  · rfl
  · rfl

/-- The step lemma: no frame of the subscription is placed. -/
theorem Quiet.filter_log (h : Quiet c id s) (hfresh : Fresh s) (hans : Answered x s) (hmove : Move x cfg a s t) :
    (t.log c).filter (Frame.names id) = (s.log c).filter (Frame.names id) := by
  have hmore : ∃ frames, t.log c = s.log c ++ frames ∧ ∀ frame ∈ frames, Frame.names id frame = false := by
    rcases move_log hfresh hmove with ⟨k, j, m, hj, hstage, -, hlog⟩ | hgrows
    · refine ⟨_, hlog c, fun frame hframe => ?_⟩
      split at hframe
      · rw [List.mem_singleton.1 hframe]
        refine not_names_of_answers (hans j (List.mem_of_getElem? hj) m ?_)
        rw [hstage]
        rfl
      · cases hframe
    · obtain ⟨frames, hlog, hframes⟩ := hgrows.1 c
      exact ⟨frames, hlog, fun frame hframe => not_names_of_source h (hframes frame hframe)⟩
  obtain ⟨frames, hlog, hframes⟩ := hmore
  have hnone : frames.filter (Frame.names id) = [] := by
    refine List.filter_eq_nil_iff.2 fun frame hframe => ?_
    rw [hframes frame hframe]
    exact Bool.false_ne_true
  rw [hlog, List.filter_append, hnone, List.append_nil]

theorem Quiet.congr (h : Quiet c id s) (hsubs : (t.conn c).subs = (s.conn c).subs) (htasks : t.tasks = s.tasks) :
    Quiet c id t := by
  refine ⟨?_, ?_⟩
  · rw [hsubs]
    exact h.sub
  · rw [htasks]
    exact h.task

/-- A task moves on; one that has ended stays so. -/
theorem Quiet.setTask {i : Nat} {u u' : ReqTask} (h : Quiet c id s) (hu : s.tasks[i]? = some u)
    (htasks : t.tasks = s.tasks.set i u') (hsubs : (t.conn c).subs = (s.conn c).subs) (hconn : u'.conn = u.conn)
    (hid : u'.id = u.id) (hended : u.ended = true → u'.ended = true) : Quiet c id t := by
  refine ⟨?_, fun v hv hvc hvid => ?_⟩
  · rw [hsubs]
    exact h.sub
  · rw [htasks] at hv
    rcases List.mem_or_eq_of_mem_set hv with hv | rfl
    · exact h.task v hv hvc hvid
    · exact hended (h.task u (List.mem_of_getElem? hu) (hconn ▸ hvc) (hid ▸ hvid))

theorem subs_modify {d : ConnId} {f : ConnState → ConnState} (hf : (f (s.conn d)).subs = (s.conn d).subs)
    (hfan : t.fan = s.fan.modify d f) : (t.conn c).subs = (s.conn c).subs := by
  unfold Server.conn
  rw [hfan]
  exact Fanout.state_modify_congr s.fan d c f hf

/-- The tasks after an abort are the ones before it. -/
theorem mem_abort {sock : Socket} {i : Str} {u : ReqTask} (h : u ∈ s.abort sock i) : ∃ v ∈ s.tasks, Same v u := by
  obtain ⟨n, hn⟩ := List.getElem?_of_mem h
  rw [getElem?_abort] at hn
  split at hn
  · obtain ⟨v, hv, rfl⟩ := Option.map_eq_some_iff.1 hn
    exact ⟨v, List.mem_of_getElem? hv, rfl, rfl, rfl, rfl, rfl, rfl, rfl, rfl⟩
  · exact ⟨u, List.mem_of_getElem? hn, rfl, rfl, rfl, rfl, rfl, rfl, rfl, rfl⟩

theorem mem_abortAll {sock : Socket} {u : ReqTask} (h : u ∈ s.abortAll sock) : ∃ v ∈ s.tasks, Same v u := by
  obtain ⟨n, hn⟩ := List.getElem?_of_mem h
  unfold Server.abortAll at hn
  rw [getElem?_abortAll] at hn
  split at hn
  · obtain ⟨v, hv, rfl⟩ := Option.map_eq_some_iff.1 hn
    exact ⟨v, List.mem_of_getElem? hv, rfl, rfl, rfl, rfl, rfl, rfl, rfl, rfl⟩
  · exact ⟨u, List.mem_of_getElem? hn, rfl, rfl, rfl, rfl, rfl, rfl, rfl, rfl⟩

theorem Quiet.move (h : Quiet c id s) (hasks : asks x c id a = false) (hmove : Move x cfg a s t) :
    Quiet c id t := by
  cases hmove with
  | connect now =>
    refine ⟨?_, h.task⟩
    show id ∉ (((s.fan.register now connSendCap).2.state c).subs.map Sub.id)
    rw [Fanout.state_register]
    split
    · exact List.not_mem_nil
    · exact h.sub
  | socket | promise | spawn | permit | process | advance | unheard | background => exact h.congr rfl rfl
  | conn hp => exact h.congr (subs_modify hp.subs rfl) rfl
  | @openSub d sock text i filters ha _ _ hreq _ _ =>
    have hne : d = c → i ≠ id := by
      rintro rfl rfl
      rw [ha, asks, hreq] at hasks
      simp at hasks
    have hr := Fanout.rewrites_setSub s.fan d i (prepareFilters filters cfg.maxLimit)
    refine ⟨?_, fun u hu huc huid => ?_⟩
    · show id ∉ (((s.fan.setSub d i _).state c).subs.map Sub.id)
      by_cases hd : c = d
      · obtain ⟨key, hself⟩ := hr.self
        rw [hd, hself]
        show id ∉ (ConnState.putSub i _ (s.fan.state d).subs).map Sub.id
        rw [ConnState.mem_ids_putSub, not_or]
        exact ⟨Ne.symm (hne hd.symm), hd ▸ h.sub⟩
      · rw [hr.others c hd]
        exact h.sub
    · rcases List.mem_append.1 hu with hu | hu
      · obtain ⟨v, hv, hsame⟩ := mem_abort hu
        exact hsame.ended.trans (h.task v hv (hsame.conn ▸ huc) (hsame.id ▸ huid))
      · rw [List.mem_singleton.1 hu] at huc huid
        exact absurd huid (hne huc)
  | @closeSub d sock i _ _ =>
    have hr := Fanout.rewrites_removeSub s.fan d i
    refine ⟨?_, fun u hu huc huid => ?_⟩
    · show id ∉ (((s.fan.removeSub d i).2.state c).subs.map Sub.id)
      by_cases hd : c = d
      · obtain ⟨key, hself⟩ := hr.self
        rw [hd, hself]
        show id ∉ (ConnState.dropSub i (s.fan.state d).subs).map Sub.id
        rw [ConnState.mem_ids_dropSub]
        exact fun hin => h.sub (hd ▸ hin.2)
      · rw [hr.others c hd]
        exact h.sub
    · obtain ⟨v, hv, hsame⟩ := mem_abort hu
      exact hsame.ended.trans (h.task v hv (hsame.conn ▸ huc) (hsame.id ▸ huid))
  | @unregister d sock _ =>
    refine h.congr ?_ rfl
    show ((s.fan.unregister d).state c).subs = (s.fan.state c).subs
    rw [Fanout.unregister_eq, Fanout.subs_rekey]
  | @hangUp d =>
    exact h.congr (subs_modify (d := d) (f := fun conn => { conn with closed := true }) rfl rfl) rfl
  | @finish d =>
    refine ⟨?_, fun u hu huc huid => ?_⟩
    · rw [subs_modify (s := s) (d := d) (f := fun conn => { conn with closed := true }) rfl rfl]
      exact h.sub
    · obtain ⟨v, hv, hsame⟩ := mem_abortAll hu
      exact hsame.ended.trans (h.task v hv (hsame.conn ▸ huc) (hsame.id ▸ huid))
  | @drain d _ queue =>
    exact h.congr (subs_modify (d := d) (f := fun conn => { conn with queue := queue }) rfl rfl) rfl
  | task _ hu _ hnext => exact h.setTask hu rfl rfl hnext.conn hnext.id fun hended => hnext.ended.trans hended
  | @stored i u _ _ conn hu _ _ hsend =>
    refine h.setTask hu rfl (subs_modify (d := u.conn) (f := fun _ => conn) ?_ rfl) rfl rfl fun hended => hended
    exact (places_sent hsend).subs
  | @eose i u conn hu _ _ _ _ hsend =>
    refine h.setTask hu rfl (subs_modify (d := u.conn) (f := fun _ => conn) ?_ rfl) rfl rfl fun _ => rfl
    exact (places_sent hsend).subs
  | endTask hu => exact h.setTask hu rfl rfl rfl rfl fun _ => rfl
  | deliver clock => exact h.congr (subs_modify (places_deliver _ clock _ _).subs rfl) rfl
  | @reply k j m conn _ _ hsend =>
    refine h.congr (subs_modify (d := j.conn) (f := fun _ => conn) ?_ rfl) rfl
    exact (places_sent hsend).subs

end

/-- What every state that a run from the start reaches has. -/
structure Logged (x : Serde) (s : Server) : Prop where
  fresh : Fresh s
  answered : Answered x s

theorem Logged.move {x : Serde} {cfg : Config} {a : Turn} {s t : Server} (h : Logged x s)
    (hmove : Move x cfg a s t) :
    Logged x t := ⟨h.fresh.move hmove, h.answered.move hmove⟩

theorem run_logged {x : Serde} {cfg : Config} {store : Store} {turns : List Turn} {s : Server}
    (hs : Machine.run (Server.step x cfg) (.start store) turns = some s) : Logged x s :=
  Machine.run_invariant_mem (fun _ _ _ hstep _ hI =>
      (step_moves hstep).keep (fun _ _ hmove h => Logged.move h hmove) hI) hs
    ⟨fresh_start store, fun _ hj => absurd hj List.not_mem_nil⟩

/-- The subscription is quiet, and its frames are still those of `frames`. -/
structure Silent (x : Serde) (c : ConnId) (id : Str) (frames : List Frame) (s : Server) : Prop where
  logged : Logged x s
  quiet : Quiet c id s
  same : (s.log c).filter (Frame.names id) = frames

theorem Silent.move {x : Serde} {cfg : Config} {a : Turn} {s t : Server} {c : ConnId} {id : Str}
    {frames : List Frame}
    (h : Silent x c id frames s) (hasks : asks x c id a = false) (hmove : Move x cfg a s t) :
    Silent x c id frames t :=
  ⟨h.logged.move hmove, h.quiet.move hasks hmove,
    (h.quiet.filter_log h.logged.fresh h.logged.answered hmove).trans h.same⟩

/-- From every state of every run: where a subscription is not open and no task streams
for it, no frame of it is placed, whatever the other tasks and connections do, until the
client asks for it again. -/
theorem silent (x : Serde) (cfg : Config) (store : Store) (turns : List Turn) (s : Server)
    (hs : Machine.run (Server.step x cfg) (.start store) turns = some s) (c : ConnId) (id : Str)
    (hquiet : Quiet c id s)
    (more : List Turn) (t : Server) (ht : Machine.run (Server.step x cfg) s more = some t)
    (hasks : ∀ a ∈ more, asks x c id a = false) :
    Quiet c id t ∧ (t.log c).filter (Frame.names id) = (s.log c).filter (Frame.names id) := by
  have hI : Silent x c id ((s.log c).filter (Frame.names id)) t := Machine.run_invariant_mem
    (fun _ a _ hstep ha hI => (step_moves hstep).keep (fun _ _ hmove h => h.move (hasks a ha) hmove) hI) ht
    ⟨run_logged hs, hquiet, rfl⟩
  exact ⟨hI.quiet, hI.same⟩

/-- A client asks for notes, is told that there are none, and closes the subscription. -/
def reqThenClose : List Turn :=
  [.connect 0, .receive 1 (.text noteReq), .request 0, .request 0, .request 0, .request 0,
    .receive 1 (.text "[\"CLOSE\",\"a\"]".toList)]

/-- It asks for notes under another id, and sends an `EVENT` frame without an event. -/
def otherReq : List Turn :=
  [.receive 1 (.text "[\"REQ\",\"b\",\x7b\"kinds\":[1]\x7d]".toList), .request 1, .request 1,
    .request 1, .request 1, .receive 1 (.text "[\"EVENT\"]".toList)]

theorem silent_reqThenClose : ∃ s t,
    Machine.run (Server.step NostrMessage.jsonSerde oneSub) (.start (.new ⟨none, none, none⟩)) reqThenClose =
        some s ∧
      Machine.run (Server.step NostrMessage.jsonSerde oneSub) s otherReq = some t ∧
      ((s.log 1).length == 1 && (t.log 1).length == 2) = true ∧
      (t.log 1).filter (Frame.names ['a']) = (s.log 1).filter (Frame.names ['a']) := by
  let step := Server.step NostrMessage.jsonSerde oneSub
  let quiet : Server → Bool := fun s =>
      (s.conn 1).subs.isEmpty && s.tasks.all (fun t => t.ended) && (s.log 1).length == 1
  obtain ⟨s, hs, hp⟩ := Machine.exists_run step (.start (.new ⟨none, none, none⟩)) reqThenClose quiet
      (by decide +kernel)
  obtain ⟨t, ht, hq⟩ := Machine.exists_run step (.start (.new ⟨none, none, none⟩)) (reqThenClose ++ otherReq)
    (fun t => (t.log 1).length == 2) (by decide +kernel)
  rw [Machine.run_append, hs, Option.bind_some] at ht
  simp only [quiet, Bool.and_eq_true] at hp
  have hquiet : Quiet 1 ['a'] s := by
    refine ⟨?_, fun u hu _ _ => List.all_eq_true.1 hp.1.2 u hu⟩
    rw [List.isEmpty_iff.1 hp.1.1]
    exact List.not_mem_nil
  have hasks : ∀ a ∈ otherReq, asks NostrMessage.jsonSerde 1 ['a'] a = false := by
    have hnone : otherReq.all (fun a => asks NostrMessage.jsonSerde 1 ['a'] a == false) = true := by decide +kernel
    exact fun a ha => eq_of_beq (List.all_eq_true.1 hnone a ha)
  exact ⟨s, t, hs, ht, by rw [hp.2, hq]; rfl,
    (silent _ oneSub _ reqThenClose s hs 1 ['a'] hquiet otherReq t ht hasks).2⟩

end Session
end Memlay
