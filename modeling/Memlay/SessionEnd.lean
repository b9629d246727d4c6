import Memlay.Lib.Pool
import Memlay.SessionLog
import Memlay.SessionPermits

/-!
# After the last client (`src/relay.rs`)

A connection that ends aborts the tasks of its `REQ`s and drops its receiver; the tasks of
its `EVENT` frames go on by themselves, with their permits, and a task that is aborted may
still take a turn.  Once all connections are gone these tasks wind down, in any order:

    each of their turns is one of at most `Server.load` turns, and where none of them can
    take a turn every task has ended and every permit is free            (`winds_down`)
-/

namespace Memlay
namespace Session

open Json (utf8Bytes)

/-! ## Tasks and their connections -/

/-- The connection is there, or its receiver is gone. -/
def Server.Tied (s : Server) (c : ConnId) : Prop := c ∈ s.sockets ∨ (s.conn c).closed = true

/-- No task waits for a queue that nothing empties and nothing ends. -/
structure Server.AllTied (s : Server) : Prop where
  tasks : ∀ t ∈ s.tasks, s.Tied t.conn
  jobs : ∀ j ∈ s.jobs, s.Tied j.conn

section
variable {x : Serde} {cfg : Config} {a : Turn} {s t : Server}

theorem Server.AllTied.congr (h : s.AllTied) (htied : ∀ c, s.Tied c → t.Tied c)
    (htasks : ∀ u ∈ t.tasks, (∃ v ∈ s.tasks, v.conn = u.conn) ∨ t.Tied u.conn)
    (hjobs : ∀ j ∈ t.jobs, (∃ i ∈ s.jobs, i.conn = j.conn) ∨ t.Tied j.conn) : t.AllTied := by
  refine ⟨fun u hu => ?_, fun j hj => ?_⟩
  · rcases htasks u hu with ⟨v, hv, he⟩ | ht
    · rw [← he]
      exact htied _ (h.tasks v hv)
    · exact ht
  · rcases hjobs j hj with ⟨i, hi, he⟩ | ht
    · rw [← he]
      exact htied _ (h.jobs i hi)
    · exact ht

theorem allTied_start (store : Store) : (Server.start store).AllTied :=
  ⟨(fun t ht => by cases ht), fun j hj => by cases hj⟩

/-- A task that is replaced stays with its connection. -/
theorem conn_of_mem_setTask {i : Nat} {u u' : ReqTask} (hu : s.tasks[i]? = some u) (hconn : u'.conn = u.conn) :
    ∀ v ∈ (s.setTask i u').tasks, ∃ w ∈ s.tasks, w.conn = v.conn := by
  intro v hv
  rcases List.mem_or_eq_of_mem_set hv with hv | rfl
  · exact ⟨v, hv, rfl⟩
  · exact ⟨u, List.mem_of_getElem? hu, hconn.symm⟩

theorem conn_of_mem_setStage {k : Nat} {j : Job} {stage : Stage} (hj : s.jobs[k]? = some j) :
    ∀ i ∈ (s.setStage k j stage).jobs, ∃ i' ∈ s.jobs, i'.conn = i.conn := by
  intro i hi
  rcases List.mem_or_eq_of_mem_set hi with hi | rfl
  · exact ⟨i, hi, rfl⟩
  · exact ⟨j, List.mem_of_getElem? hj, rfl⟩

theorem closed_close (s : Server) (c d : ConnId) (h : (s.conn d).closed = true) :
    ((s.fan.modify c fun conn => { conn with closed := true }).state d).closed = true := by
  rw [Fanout.state_modify]
  split
  · rfl
  · exact h

theorem Server.AllTied.move (hmove : Move x cfg a s t) (h : s.AllTied) : t.AllTied := by
  have htasks : ∀ {u : Server}, u.tasks = s.tasks → ∀ v ∈ u.tasks, (∃ w ∈ s.tasks, w.conn = v.conn) ∨
      u.Tied v.conn :=
    fun he v hv => Or.inl ⟨v, he ▸ hv, rfl⟩
  have hjobs : ∀ {u : Server}, u.jobs = s.jobs → ∀ j ∈ u.jobs, (∃ i ∈ s.jobs, i.conn = j.conn) ∨ u.Tied j.conn :=
    fun he j hj => Or.inl ⟨j, he ▸ hj, rfl⟩
  have hset : ∀ {u : Server} {i : Nat} {v v' : ReqTask}, s.tasks[i]? = some v →
      u.tasks = (s.setTask i v').tasks → v'.conn = v.conn → ∀ w ∈ u.tasks, (∃ w' ∈ s.tasks, w'.conn = w.conn) ∨
      u.Tied w.conn :=
    fun hv he hconn w hw => Or.inl (conn_of_mem_setTask hv hconn w (he ▸ hw))
  have hstage : ∀ {u : Server} {k : Nat} {j : Job} {stage : Stage}, s.jobs[k]? = some j →
      u.jobs = (s.setStage k j stage).jobs → ∀ i ∈ u.jobs, (∃ i' ∈ s.jobs, i'.conn = i.conn) ∨ u.Tied i.conn :=
    fun hj he i hi => Or.inl (conn_of_mem_setStage hj i (he ▸ hi))
  -- the same connections, and none of them has its receiver back
  have hkeep : ∀ {u : Server}, (∀ c, c ∈ s.sockets → c ∈ u.sockets) →
      (∀ c, (s.conn c).closed = true → (u.conn c).closed = true) → ∀ c, s.Tied c → u.Tied c :=
    fun hsock hclosed c hc => hc.imp (hsock c) (hclosed c)
  have hinsert : ∀ {c : ConnId} {sock : Socket} (d : ConnId), d ∈ s.sockets → d ∈ s.sockets.insert c sock :=
    fun d hd => AList.mem_insert _ |>.2 (Or.inr hd)
  have hplaced : ∀ {P : Frame → Prop} {d : ConnId} {f : ConnState → ConnState} {u : Server},
      Places P (s.conn d) (f (s.conn d)) → u.fan = s.fan.modify d f →
      ∀ c, (s.conn c).closed = true → (u.conn c).closed = true := by
    intro P d f u hp hfan c hc
    rw [(conn_places hp hfan c).1]
    exact hc
  have habort : ∀ {sock : Socket} {id : Str} {u : ReqTask}, u ∈ s.abort sock id →
      ∃ v ∈ s.tasks, v.conn = u.conn := by
    intro sock id u hu
    obtain ⟨v, hv, hsame⟩ := mem_abort hu
    exact ⟨v, hv, hsame.conn.symm⟩
  cases hmove with
  | connect now =>
    refine h.congr (fun c hc => ?_) (htasks rfl) (hjobs rfl)
    by_cases hnew : c = s.fan.nextId + 1
    · exact Or.inl (AList.mem_insert _ |>.2 (Or.inl hnew))
    · refine hc.imp (hinsert c) fun hclosed => ?_
      show ((s.fan.register now connSendCap).2.state c).closed = true
      rw [Fanout.state_register, if_neg hnew]
      exact hclosed
  | socket => exact h.congr (hkeep hinsert fun _ hc => hc) (htasks rfl) (hjobs rfl)
  | conn hp => exact h.congr (hkeep (fun _ hc => hc) (hplaced hp rfl)) (htasks rfl) (hjobs rfl)
  | @openSub c sock text id filters ha hsock =>
    refine h.congr (hkeep hinsert fun d hd => ?_) (fun u hu => ?_) (hjobs rfl)
    · rw [(conn_rewrites (Fanout.rewrites_setSub ..) rfl d).1]
      exact hd
    · rcases List.mem_append.1 hu with hu | hu
      · exact Or.inl (habort hu)
      · rw [List.mem_singleton.1 hu]
        exact Or.inr (Or.inl (AList.mem_insert _ |>.2 (Or.inl rfl)))
  | closeSub =>
    refine h.congr (hkeep hinsert fun d hd => ?_) (fun u hu => Or.inl (habort hu)) (hjobs rfl)
    rw [(conn_rewrites (Fanout.rewrites_removeSub ..) rfl d).1]
    exact hd
  | @unregister d =>
    refine h.congr (hkeep hinsert fun c hc => ?_) (htasks rfl) (hjobs rfl)
    show ((s.fan.unregister d).state c).closed = true
    rw [Fanout.state_unregister]
    split
    · rename_i hd
      rw [← hd]
      exact hc
    · exact hc
  | @finish d sock =>
    refine h.congr (fun c hc => ?_) (fun u hu => ?_) (hjobs rfl)
    · by_cases hd : c = d
      · refine Or.inr ?_
        show ((s.fan.modify d fun conn => { conn with closed := true }).state c).closed = true
        rw [Fanout.state_modify, if_pos hd]
      · exact hc.imp (fun hm => AList.mem_erase.2 ⟨hd, hm⟩) (closed_close s d c)
    · obtain ⟨v, hv, hsame⟩ := mem_abortAll hu
      exact Or.inl ⟨v, hv, hsame.conn.symm⟩
  | @hangUp d => exact h.congr (hkeep (fun _ hc => hc) (closed_close s d)) (htasks rfl) (hjobs rfl)
  | @drain d frame queue =>
    refine h.congr (hkeep (fun _ hc => hc) fun c hc => ?_) (htasks rfl) (hjobs rfl)
    show ((s.fan.modify d fun conn => { conn with queue := queue }).state c).closed = true
    rw [Fanout.state_modify]
    split
    · rename_i hd
      rw [← hd]
      exact hc
    · exact hc
  | task _ ht _ hnext =>
    exact h.congr (hkeep (fun _ hc => hc) fun _ hc => hc) (hset ht rfl hnext.conn) (hjobs rfl)
  | @stored i u _ _ conn ht _ _ hsend =>
    exact h.congr (hkeep (fun _ hc => hc) (hplaced (d := u.conn) (f := fun _ => conn)
      (places_sent hsend) rfl)) (hset ht rfl rfl) (hjobs rfl)
  | @eose i u conn ht _ _ _ _ hsend =>
    exact h.congr (hkeep (fun _ hc => hc) (hplaced (d := u.conn) (f := fun _ => conn)
      (places_sent hsend) rfl)) (hset ht rfl rfl) (hjobs rfl)
  | endTask ht => exact h.congr (hkeep (fun _ hc => hc) fun _ hc => hc) (hset ht rfl rfl) (hjobs rfl)
  | @spawn c sock text _ hsock =>
    refine h.congr (hkeep (fun _ hc => hc) fun _ hc => hc) (htasks rfl) fun j hj => ?_
    rcases List.mem_append.1 hj with hj | hj
    · exact Or.inl ⟨j, hj, rfl⟩
    · rw [List.mem_singleton.1 hj]
      refine Or.inr (Or.inl (AList.lookup_isSome.1 ?_))
      rw [hsock]
      rfl
  | permit hj => exact h.congr (hkeep (fun _ hc => hc) fun _ hc => hc) (htasks rfl) (hstage hj rfl)
  | process _ _ hj => exact h.congr (hkeep (fun _ hc => hc) fun _ hc => hc) (htasks rfl) (hstage hj rfl)
  | advance hj => exact h.congr (hkeep (fun _ hc => hc) fun _ hc => hc) (htasks rfl) (hstage hj rfl)
  | deliver clock hj =>
    exact h.congr (hkeep (fun _ hc => hc) (hplaced (places_deliver _ clock _ _) rfl)) (htasks rfl) (hstage hj rfl)
  | @reply k j m conn hj _ hsend =>
    exact h.congr (hkeep (fun _ hc => hc) (hplaced (d := j.conn) (f := fun _ => conn)
      (places_sent hsend) rfl)) (htasks rfl) (hstage hj rfl)
  | unheard hj => exact h.congr (hkeep (fun _ hc => hc) fun _ hc => hc) (htasks rfl) (hstage hj rfl)
  | promise | background => exact h.congr (hkeep (fun _ hc => hc) fun _ hc => hc) (htasks rfl) (hjobs rfl)

/-- The run lemma. -/
theorem run_allTied {store : Store} {turns : List Turn}
    (hs : Machine.run (Server.step x cfg) (.start store) turns = some s) :
    s.AllTied :=
  Machine.run_invariant (C := fun _ _ => True)
    (fun _ _ _ hstep _ hI => (step_moves hstep).keep (fun _ _ => Server.AllTied.move) hI)
    turns _ s hs (Machine.along_of_forall turns _ fun _ _ _ => trivial) (allTied_start store)

end

/-! ## The turns that are left -/

/-- A turn of the task of a `REQ` or an `EVENT` frame, or its cancellation. -/
def Turn.isTask : Turn → Bool
  | .request _ => true
  | .cancel _ => true
  | .work .. => true
  | _ => false

/-- The lookups of each filter, with the turns before and after them, and the send that
fails. -/
def ReqTask.load (t : ReqTask) : Nat :=
  if t.ended then 0
  else (t.filters.map fun f => f.lookups.length + 2).sum + t.query.elim 0 (fun q => q.lookups.length + 1) + 1

/-- At most one event is published, and a reply is tried once. -/
def Stage.load : Stage → Nat
  | .waiting => 6
  | .permitted => 5
  | .publishing events _ => 2 * events.length + 2
  | .delivering _ targets events _ => 2 * events.length + targets.length + 3
  | .replying _ => 1
  | .answered _ => 0
  | .ended => 0

def Server.load (s : Server) : Nat := (s.tasks.map ReqTask.load).sum + (s.jobs.map fun j => j.stage.load).sum

/-- No connection is left. -/
structure Gone (s : Server) : Prop where
  sockets : s.sockets = ∅
  conns : s.fan.conns = ∅
  count : s.connectionCount = 0
  tasks : ∀ t ∈ s.tasks, (s.conn t.conn).closed = true
  jobs : ∀ j ∈ s.jobs, (s.conn j.conn).closed = true

section
variable {x : Serde} {cfg : Config} {a : Turn} {s t : Server}

theorem load_setTask {i : Nat} {u : ReqTask} (hu : s.tasks[i]? = some u) (u' : ReqTask) :
    (s.setTask i u').load + u.load = s.load + u'.load := by
  have hsum := Pool.sum_set ReqTask.load u' hu
  unfold Server.load Server.setTask
  simp only
  omega

theorem load_setStage {k : Nat} {j : Job} (hj : s.jobs[k]? = some j) (stage : Stage) :
    (s.setStage k j stage).load + j.stage.load = s.load + stage.load := by
  have hsum := Pool.sum_set (fun j : Job => j.stage.load) { j with stage := stage } hj
  unfold Server.load Server.setStage
  simp only at hsum ⊢
  omega

theorem load_congr (htasks : t.tasks = s.tasks) (hjobs : t.jobs = s.jobs) : t.load = s.load := by
  unfold Server.load
  rw [htasks, hjobs]

theorem length_published_applyDeletionRequest (ev : Event) (visit : Visit) (st : Store) :
    (Relay.applyDeletionRequest ev visit st).published.length ≤ 1 := by
  unfold Relay.applyDeletionRequest
  simp only
  split
  · exact Nat.zero_le _
  · split
    · exact Nat.zero_le _
    · split
      · exact Nat.zero_le _
      · exact Nat.le_refl _
      · exact Nat.le_refl _
      · exact Nat.le_refl _

/-- A frame publishes its event, or nothing. -/
theorem length_published (x : Serde) (text : Bytes) (visit : Visit) (st : Store) :
    (Relay.processEventMessage x text visit st).published.length ≤ 1 := by
  unfold Relay.processEventMessage
  split
  · simp only
    split
    · exact length_published_applyDeletionRequest _ _ _
    · split
      · exact Nat.le_refl _
      · exact Nat.zero_le _
      · exact Nat.zero_le _
      · exact Nat.le_refl _
  · exact Nat.zero_le _
  · exact Nat.zero_le _

theorem Gone.targets (h : Gone s) (order : ConnVisit) (kind : Nat) : s.fan.targets order kind = [] := by
  unfold Fanout.targets
  split
  · rfl
  · rw [h.conns]
    exact List.filter_eq_nil_iff.2 fun c _ hc => by simp at hc

theorem send_of_closed {c : ConnId} (h : (s.conn c).closed = true) (frame : Frame) :
    s.send c frame = some (false, s) := by
  unfold Server.send
  rw [if_pos h]

/-- The connections are as they were, up to their queues. -/
theorem Gone.congr (h : Gone s) (hsockets : t.sockets = s.sockets) (hconns : t.fan.conns = s.fan.conns)
    (hcount : t.connectionCount = s.connectionCount)
    (hclosed : ∀ c, (s.conn c).closed = true → (t.conn c).closed = true)
    (htasks : ∀ u ∈ t.tasks, ∃ v ∈ s.tasks, v.conn = u.conn)
    (hjobs : ∀ j ∈ t.jobs, ∃ i ∈ s.jobs, i.conn = j.conn) :
    Gone t := by
  refine ⟨hsockets.trans h.sockets, hconns.trans h.conns, hcount.trans h.count, fun u hu => ?_, fun j hj => ?_⟩
  · obtain ⟨v, hv, he⟩ := htasks u hu
    rw [← he]
    exact hclosed _ (h.tasks v hv)
  · obtain ⟨i, hi, he⟩ := hjobs j hj
    rw [← he]
    exact hclosed _ (h.jobs i hi)

theorem Gone.setTask (h : Gone s) {i : Nat} {u u' : ReqTask} (hu : s.tasks[i]? = some u)
    (hconn : u'.conn = u.conn) :
    Gone (s.setTask i u') :=
  h.congr rfl rfl rfl (fun _ hc => hc) (conn_of_mem_setTask hu hconn) fun j hj => ⟨j, hj, rfl⟩

theorem Gone.setStage (h : Gone s) {k : Nat} {j : Job} (hj : s.jobs[k]? = some j) (stage : Stage) :
    Gone (s.setStage k j stage) :=
  h.congr rfl rfl rfl (fun _ hc => hc) (fun u hu => ⟨u, hu, rfl⟩) (conn_of_mem_setStage hj)

/-! ## One turn -/

/-- A task of a `REQ` that has not ended can take its turn, and has one turn less. -/
theorem Gone.request (h : Gone s) {i : Nat} {u : ReqTask} (hu : s.tasks[i]? = some u) (hended : u.ended = false) :
    ∃ t, s.request i u = some t ∧ Gone t ∧ t.load + 1 ≤ s.load := by
  have hclosed := h.tasks u (List.mem_of_getElem? hu)
  have hnext : ∀ u' : ReqTask, u'.conn = u.conn → u'.load + 1 ≤ u.load →
      Gone (s.setTask i u') ∧ (s.setTask i u').load + 1 ≤ s.load := by
    intro u' hconn hload
    have hsum := load_setTask hu u'
    exact ⟨h.setTask hu hconn, by omega⟩
  have hend : ∀ (frame : Frame) (u' : ReqTask), ∃ t, s.place i u frame u' = some t ∧ Gone t ∧
      t.load + 1 ≤ s.load := by
    intro frame u'
    unfold Server.place
    rw [hclosed, if_neg (by simp), send_of_closed hclosed]
    refine ⟨_, rfl, hnext { u with ended := true } rfl ?_⟩
    unfold ReqTask.load
    rw [if_pos rfl, hended]
    exact Nat.succ_le_succ (Nat.zero_le _)
  unfold Server.request
  split
  · exact hend _ _
  · rename_i q _ _ hquery
    refine ⟨_, rfl, ?_⟩
    unfold Server.lookUp
    split
    · rename_i l lookups hlookups
      refine hnext _ rfl ?_
      unfold ReqTask.load
      simp only [hended, hquery, hlookups, Bool.false_eq_true, if_false, Option.elim_some, List.length_cons]
      omega
    · refine hnext _ rfl ?_
      unfold ReqTask.load
      simp only [hended, hquery, Bool.false_eq_true, if_false, Option.elim_some, Option.elim_none]
      omega
  · rename_i filter filters _ hquery hfilters
    refine ⟨_, rfl, hnext _ rfl ?_⟩
    unfold ReqTask.load
    simp only [hended, hquery, hfilters, Bool.false_eq_true, if_false, Option.elim_some, Option.elim_none,
      List.map_cons, List.sum_cons]
    omega
  · exact hend _ _

/-- The task has nothing more to do. -/
def Stage.done : Stage → Bool
  | .answered _ => true
  | .ended => true
  | _ => false

variable (x cfg) in
/-- A task of an `EVENT` frame that is not done can take its turn, once it has its permit,
and has one turn less. -/
theorem Gone.work (h : Gone s) {k : Nat} {j : Job} (hj : s.jobs[k]? = some j) (hdone : j.stage.done = false)
    (hpermit : j.stage = .waiting → s.held < verifyPermits cfg.cpus) (visit : Visit) (order : ConnVisit)
    (clock : Str → Nat) : ∃ t, s.work x cfg k j visit order clock = some t ∧ Gone t ∧ t.load + 1 ≤ s.load := by
  have hclosed := h.jobs j (List.mem_of_getElem? hj)
  have hstage : ∀ stage : Stage, stage.load + 1 ≤ j.stage.load →
      Gone (s.setStage k j stage) ∧ (s.setStage k j stage).load + 1 ≤ s.load := by
    intro stage hload
    have hsum := load_setStage hj stage
    exact ⟨h.setStage hj stage, by omega⟩
  unfold Server.work
  cases hs : j.stage with
  | waiting =>
    rw [hs] at hstage
    simp only [if_pos (hpermit hs)]
    exact ⟨_, rfl, hstage .permitted (by decide)⟩
  | permitted =>
    rw [hs] at hstage
    have hone := length_published x (utf8Bytes j.text) visit s.store
    obtain ⟨hgone, hload⟩ := hstage
        (.publishing (Relay.processEventMessage x (utf8Bytes j.text) visit s.store).published
      (Relay.processEventMessage x (utf8Bytes j.text) visit s.store).reply) (by simp only [Stage.load]; omega)
    refine ⟨_, rfl, ?_, hload⟩
    exact hgone.congr rfl rfl rfl (fun _ hc => hc) (fun u hu => ⟨u, hu, rfl⟩) fun i hi => ⟨i, hi, rfl⟩
  | publishing events reply =>
    rw [hs] at hstage
    cases events with
    | nil =>
      cases reply with
      | none => exact ⟨_, rfl, hstage .ended (by simp only [Stage.load, List.length_nil]; omega)⟩
      | some reply => exact ⟨_, rfl, hstage (.replying reply) (by simp only [Stage.load, List.length_nil]; omega)⟩
    | cons e events =>
      refine ⟨_, rfl, hstage _ ?_⟩
      simp only [Stage.load, h.targets, List.length_cons, List.length_nil]
      omega
  | delivering ev targets events reply =>
    rw [hs] at hstage
    cases targets with
    | nil => exact ⟨_, rfl, hstage (.publishing events reply) (by simp only [Stage.load, List.length_nil]; omega)⟩
    | cons c targets =>
      obtain ⟨hgone, hload⟩ := hstage (.delivering ev targets events reply)
        (by simp only [Stage.load, List.length_cons]; omega)
      refine ⟨_, rfl, ?_, hload⟩
      refine hgone.congr rfl rfl rfl (fun d hd => ?_) (fun u hu => ⟨u, hu, rfl⟩) fun i hi => ⟨i, hi, rfl⟩
      show ((s.fan.modify c (reserve (s.promised c) (ConnState.deliver clock ev))).state d).closed = true
      rw [Fanout.state_modify]
      split
      · rename_i hc
        rw [(places_deliver _ clock ev _).closed, ← hc]
        exact hd
      · exact hd
  | replying reply =>
    rw [hs] at hstage
    simp only [send_of_closed hclosed, Option.map_some, Bool.false_eq_true, if_false]
    exact ⟨_, rfl, hstage .ended (Nat.le_refl 1)⟩
  | answered reply =>
    rw [hs] at hdone
    cases hdone
  | ended =>
    rw [hs] at hdone
    cases hdone

/-- What a turn of a task asks for. -/
theorem of_work_eq_some {k : Nat} {j : Job} {visit : Visit} {order : ConnVisit} {clock : Str → Nat}
    (h : s.work x cfg k j visit order clock = some t) :
    j.stage.done = false ∧ (j.stage = .waiting → s.held < verifyPermits cfg.cpus) := by
  unfold Server.work at h
  cases hs : j.stage with
  | waiting =>
    refine ⟨rfl, fun _ => ?_⟩
    simp only [hs] at h
    split at h
    · assumption
    · cases h
  | answered reply =>
    simp only [hs] at h
    cases h
  | ended =>
    simp only [hs] at h
    cases h
  | permitted => exact ⟨rfl, fun hw => by cases hw⟩
  | publishing events reply => exact ⟨rfl, fun hw => by cases hw⟩
  | delivering ev targets events reply => exact ⟨rfl, fun hw => by cases hw⟩
  | replying reply => exact ⟨rfl, fun hw => by cases hw⟩

/-- The step lemma: without a new connection, each turn of a task is paid for. -/
theorem Gone.step (h : Gone s) (hnew : ∀ now, a ≠ .connect now) (hstep : s.step x cfg a = some t) :
    Gone t ∧ (if a.isTask then 1 else 0) + t.load ≤ s.load := by
  have hno : ∀ c, s.sockets.lookup c = none := by
    intro c
    rw [h.sockets]
    rfl
  have hsel : ∀ {c : ConnId} {next : Socket → Server}, s.selecting c next ≠ some t := by
    intro c next hc
    obtain ⟨sock, hsock, -⟩ := selecting_eq_some hc
    rw [hno] at hsock
    cases hsock
  cases a with
  | connect now => exact absurd rfl (hnew now)
  | receive c m => exact absurd hstep hsel
  | notified c => exact absurd hstep hsel
  | overflowed c =>
    simp only [Server.step, hno] at hstep
    cases hstep
  | idle c =>
    simp only [Server.step, hno] at hstep
    cases hstep
  | senderEnded c =>
    simp only [Server.step] at hstep
    split at hstep
    · exact absurd hstep hsel
    · cases hstep
  | unregister c =>
    simp only [Server.step, hno] at hstep
    cases hstep
  | finish c =>
    simp only [Server.step, hno] at hstep
    cases hstep
  | drain c =>
    simp only [Server.step] at hstep
    split at hstep
    · rename_i frame queue _ _
      cases hstep
      refine ⟨h.congr rfl rfl rfl (fun d hd => ?_) (fun u hu => ⟨u, hu, rfl⟩) fun j hj => ⟨j, hj, rfl⟩, ?_⟩
      · show ((s.fan.modify c fun conn => { conn with queue := queue }).state d).closed = true
        rw [Fanout.state_modify]
        split
        · rename_i hc
          rw [← hc]
          exact hd
        · exact hd
      · rw [load_congr rfl rfl]
        exact (Nat.zero_add _).le
    · cases hstep
  | hangUp c =>
    simp only [Server.step, h.sockets] at hstep
    split at hstep
    · rename_i hc
      exact absurd hc (AList.notMem_empty c)
    · cases hstep
  | request i =>
    simp only [Server.step] at hstep
    split at hstep
    · rename_i u hu
      split at hstep
      · cases hstep
      · rename_i hgo
        rw [Bool.or_eq_true, not_or] at hgo
        obtain ⟨t', ht', hgone, hload⟩ := h.request hu (eq_false_of_ne_true hgo.1)
        rw [ht'] at hstep
        cases hstep
        exact ⟨hgone, (Nat.add_comm 1 t.load).trans_le hload⟩
    · cases hstep
  | cancel i =>
    simp only [Server.step] at hstep
    split at hstep
    · rename_i u hu
      split at hstep
      · rename_i hgo
        rw [Bool.and_eq_true, Bool.not_eq_true'] at hgo
        cases hstep
        have hsum := load_setTask hu { u with ended := true }
        have hzero : ReqTask.load { u with ended := true } = 0 := rfl
        have hpos : 0 < u.load := by
          unfold ReqTask.load
          rw [hgo.2]
          exact Nat.succ_pos _
        exact ⟨h.setTask hu rfl, by show 1 + _ ≤ _; omega⟩
      · cases hstep
    · cases hstep
  | work k visit order clock =>
    obtain ⟨j, hj, hstep⟩ := Option.bind_eq_some_iff.1 hstep
    obtain ⟨hdone, hpermit⟩ := of_work_eq_some hstep
    obtain ⟨t', ht', hgone, hload⟩ := h.work x cfg hj hdone hpermit visit order clock
    rw [ht'] at hstep
    cases hstep
    exact ⟨hgone, (Nat.add_comm 1 t.load).trans_le hload⟩
  | promise c places =>
    cases hstep
    refine ⟨h.congr rfl rfl rfl (fun _ hc => hc) (fun u hu => ⟨u, hu, rfl⟩) fun j hj => ⟨j, hj, rfl⟩, ?_⟩
    rw [load_congr rfl rfl]
    exact (Nat.zero_add _).le
  | background store =>
    cases hstep
    refine ⟨h.congr rfl rfl rfl (fun _ hc => hc) (fun u hu => ⟨u, hu, rfl⟩) fun j hj => ⟨j, hj, rfl⟩, ?_⟩
    rw [load_congr rfl rfl]
    exact (Nat.zero_add _).le

/-- Where no task can take a turn, all of them have ended. -/
theorem Gone.idle (h : Gone s) (hidle : ∀ a : Turn, a.isTask = true → s.step x cfg a = none) :
    s.held = 0 ∧ (∀ j ∈ s.jobs, j.stage.done = true) ∧ ∀ u ∈ s.tasks, u.ended = true := by
  have hwork : ∀ j ∈ s.jobs, j.stage.done = false → ¬ (j.stage = .waiting → s.held < verifyPermits cfg.cpus) := by
    intro j hj hdone hpermit
    obtain ⟨k, hk⟩ := List.getElem?_of_mem hj
    obtain ⟨t, ht, -⟩ := h.work x cfg hk hdone hpermit Relay.sorted Fanout.visitAscending fun _ => 0
    have hnone := hidle (.work k Relay.sorted Fanout.visitAscending fun _ => 0) rfl
    simp only [Server.step, hk, Option.bind_some] at hnone
    rw [ht] at hnone
    cases hnone
  have hheld : s.held = 0 := by
    refine List.countP_eq_zero.2 fun j hj hholds => hwork j hj ?_ ?_
    · cases hs : j.stage with
      | answered reply =>
        rw [hs] at hholds
        cases hholds
      | ended =>
        rw [hs] at hholds
        cases hholds
      | waiting | permitted | publishing | delivering | replying => rfl
    · intro hw
      rw [hw] at hholds
      cases hholds
  refine ⟨hheld, fun j hj => ?_, fun u hu => ?_⟩
  · by_contra hdone
    refine hwork j hj (eq_false_of_ne_true hdone) fun _ => ?_
    rw [hheld]
    exact Nat.lt_of_lt_of_le (by decide) (Nat.le_max_left 64 _)
  · by_contra hended
    obtain ⟨i, hi⟩ := List.getElem?_of_mem hu
    have hopen := eq_false_of_ne_true hended
    by_cases hgo : (u.aborted && u.parked) = true
    · -- it is not polled again, only cancelled
      have hnone := hidle (.cancel i) rfl
      simp only [Server.step, hi, (Bool.and_eq_true_iff.1 hgo).1, hopen] at hnone
      cases hnone
    · obtain ⟨t, ht, -⟩ := h.request hi hopen
      have hnone := hidle (.request i) rfl
      simp only [Server.step, hi, hopen, Bool.false_or] at hnone
      rw [if_neg hgo, ht] at hnone
      cases hnone

end

/-- From any reachable state without connections, along every run in which no client
connects: the tasks of `REQ`s and `EVENT` frames take at most `load` turns, whatever the
order, nothing is registered, and where none of them can take a turn each has ended and
all permits are free. -/
theorem winds_down (x : Serde) (cfg : Config) (store : Store) (turns : List Turn) (s : Server)
    (hs : Machine.run (Server.step x cfg) (.start store) turns = some s) (hgone : s.sockets = ∅) (more : List Turn)
    (t : Server) (ht : Machine.run (Server.step x cfg) s more = some t)
    (hnew : ∀ a ∈ more, ∀ now, a ≠ .connect now) :
    more.countP Turn.isTask + t.load ≤ s.load ∧ t.connectionCount = 0 ∧ t.fan.conns = ∅ ∧
      ((∀ a : Turn, a.isTask = true → t.step x cfg a = none) →
        t.held = 0 ∧ (∀ j ∈ t.jobs, j.stage.done = true) ∧ ∀ u ∈ t.tasks, u.ended = true) := by
  have hstart : Gone s := by
    have hI := run_inv hs
    have htied := run_allTied hs
    have hno : ∀ c, c ∉ s.sockets := fun c => by rw [hgone]; exact AList.notMem_empty c
    refine ⟨hgone, Finset.eq_empty_of_forall_notMem fun c hc => ?_, ?_, fun u hu => ?_, fun j hj => ?_⟩
    · obtain ⟨sock, hsock, -⟩ := (hI.conns c).1 hc
      rw [hgone] at hsock
      cases hsock
    · rw [hI.count, hgone]
      rfl
    · exact (htied.tasks u hu).resolve_left (hno _)
    · exact (htied.jobs j hj).resolve_left (hno _)
  have hrun : Gone t ∧ more.countP Turn.isTask + t.load ≤ s.load := by
    clear hs hgone
    induction more generalizing s with
    | nil =>
      cases ht
      exact ⟨hstart, by simp⟩
    | cons a more ih =>
      obtain ⟨u, hu, ht⟩ := (Machine.run_cons_eq_some _).1 ht
      obtain ⟨hgone, hload⟩ := hstart.step (hnew a List.mem_cons_self) hu
      obtain ⟨hgone', hload'⟩ := ih u ht (fun b hb => hnew b (List.mem_cons_of_mem a hb)) hgone
      refine ⟨hgone', ?_⟩
      rw [List.countP_cons]
      omega
  exact ⟨hrun.2, hrun.1.count, hrun.1.conns, hrun.1.idle⟩

/-- A client asks for notes, sends an `EVENT` frame without an event, and hangs up. -/
def hangsUp : List Turn :=
  [.connect 0, .receive 1 (.text noteReq), .receive 1 (.text noEvent), .hangUp 1, .senderEnded 1,
      .unregister 1, .finish 1]

/-- The task of the frame takes a permit and fails to reply; that of the `REQ` queries and
fails to send. -/
def lastTurns : List Turn :=
  let work : Turn := .work 0 Relay.sorted Fanout.visitAscending fun _ => 0
  [work, .request 0, work, work, .request 0, .request 0, .request 0, work]

theorem winds_down_hangsUp : ∃ s t,
    Machine.run (Server.step NostrMessage.jsonSerde oneSub) (.start (.new ⟨none, none, none⟩)) hangsUp = some s ∧
      s.sockets = ∅ ∧ s.load = 10 ∧ Machine.run (Server.step NostrMessage.jsonSerde oneSub) s lastTurns = some t ∧
      lastTurns.countP Turn.isTask + t.load ≤ s.load ∧ t.connectionCount = 0 ∧ t.fan.conns = ∅ := by
  let step := Server.step NostrMessage.jsonSerde oneSub
  obtain ⟨s, hs, hp⟩ := Machine.exists_run step (.start (.new ⟨none, none, none⟩)) hangsUp
    (fun s => s.sockets.entries.isEmpty && s.load == 10) (by decide +kernel)
  obtain ⟨t, ht, -⟩ := Machine.exists_run step (.start (.new ⟨none, none, none⟩)) (hangsUp ++ lastTurns)
    (fun t => t.load == 0) (by decide +kernel)
  rw [Machine.run_append, hs, Option.bind_some] at ht
  rw [Bool.and_eq_true] at hp
  have hgone : s.sockets = ∅ := AList.ext (List.isEmpty_iff.1 hp.1)
  have hnew : ∀ a ∈ lastTurns, ∀ now, a ≠ .connect now := by
    have hall : lastTurns.all Turn.isTask = true := rfl
    rintro a ha now rfl
    cases List.all_eq_true.1 hall _ ha
  obtain ⟨hload, hcount, hconns, -⟩ :=
    winds_down NostrMessage.jsonSerde oneSub _ hangsUp s hs hgone lastTurns t ht hnew
  exact ⟨s, t, hs, hgone, eq_of_beq hp.2, ht, hload, hcount, hconns⟩

end Session
end Memlay
