import Memlay.Authenticity
import Memlay.SessionBounds

/-!
# The permits of the verifiers (`src/relay.rs`)

The task of an `EVENT` frame takes one of `verify_permits()` permits before it verifies and
keeps it until its reply is in the queue of its connection, where `send().await` waits for
room.  So tasks that only wait for a client to read keep others from verifying:

    all permits are with tasks that reply to full queues
      → no EVENT frame of any connection is worked on, along every run in which
        none of these connections is sent a frame or goes away      (`stalled`)

One client that sends and does not read gets the relay there (`exists_stalled`).
-/

namespace Memlay
namespace Session

open Json (utf8Bytes)

/-- All permits are held by tasks that wait for room in the queue of a connection of `B`. -/
structure Stalled (cfg : Config) (B : ConnId → Prop) (s : Server) : Prop where
  all : verifyPermits cfg.cpus ≤ s.held
  replying : ∀ j ∈ s.jobs, j.stage.holds = true → (∃ m, j.stage = .replying m) ∧ B j.conn
  full : ∀ c, B c → (s.conn c).closed = false ∧ (s.conn c).capacity ≤ (s.conn c).queue.length
  old : ∀ c, B c → c ≤ s.fan.nextId

/-- The turns that empty the queue of `c` or end its receiver. -/
def frees (c : ConnId) : Turn → Bool
  | .drain d => d == c
  | .hangUp d => d == c
  | .finish d => d == c
  | _ => false

section
variable {x : Serde} {cfg : Config} {a : Turn} {s t : Server} {c : ConnId} {B : ConnId → Prop}

theorem Stalled.trySend (h : Stalled cfg B s) (hc : B c) (frame : Frame) : (s.conn c).trySend frame = none := by
  unfold ConnState.trySend
  rw [if_neg fun hand => Nat.not_lt.2 (h.full c hc).2 hand.2]

/-- A task that holds its permit and does not wait to reply. -/
theorem Stalled.not_holds {k : Nat} {j : Job} (h : Stalled cfg B s) (hj : s.jobs[k]? = some j)
    (hholds : j.stage.holds = true)
    (hne : ∀ m, j.stage ≠ .replying m) : False := by
  obtain ⟨m, hm⟩ := (h.replying j (List.mem_of_getElem? hj) hholds).1
  exact hne m hm

/-- More tasks wait for a permit, and the full queues stay full. -/
theorem Stalled.congr {new : List Job} (h : Stalled cfg B s) (hjobs : t.jobs = s.jobs ++ new)
    (hnew : ∀ j ∈ new, j.stage = .waiting)
    (hconn : ∀ c, B c → (t.conn c).closed = (s.conn c).closed ∧ (t.conn c).capacity = (s.conn c).capacity ∧
      (s.conn c).queue <+: (t.conn c).queue) (hnext : s.fan.nextId ≤ t.fan.nextId) : Stalled cfg B t := by
  have hnone : ∀ j ∈ new, j.stage.holds = false := by
    intro j hj
    rw [hnew j hj]
    rfl
  refine ⟨?_, fun j hj hholds => ?_, fun c hc => ?_, fun c hc => (h.old c hc).trans hnext⟩
  · refine h.all.trans ?_
    unfold Server.held
    rw [hjobs, List.countP_append]
    exact Nat.le_add_right _ _
  · rw [hjobs] at hj
    rcases List.mem_append.1 hj with hj | hj
    · exact h.replying j hj hholds
    · rw [hnone j hj] at hholds
      cases hholds
  · obtain ⟨hclosed, hcap, hqueue⟩ := hconn c hc
    rw [hclosed, hcap]
    exact ⟨(h.full c hc).1, (h.full c hc).2.trans hqueue.length_le⟩

theorem conn_places {P : Frame → Prop} {d : ConnId} {f : ConnState → ConnState}
    (hp : Places P (s.conn d) (f (s.conn d)))
    (hfan : t.fan = s.fan.modify d f) (c : ConnId) : (t.conn c).closed = (s.conn c).closed ∧
      (t.conn c).capacity = (s.conn c).capacity ∧ (s.conn c).queue <+: (t.conn c).queue := by
  unfold Server.conn
  rw [hfan, Fanout.state_modify]
  split
  · rename_i hc
    obtain ⟨frames, hqueue, -⟩ := hp.queue
    rw [hc]
    exact ⟨hp.closed, hp.capacity, frames, hqueue.symm⟩
  · exact ⟨rfl, rfl, List.prefix_refl _⟩

theorem conn_rewrites {d : ConnId} {subs : List Sub} {fan : Fanout} (hr : s.fan.Rewrites d subs fan)
    (hfan : t.fan = fan)
    (c : ConnId) : (t.conn c).closed = (s.conn c).closed ∧ (t.conn c).capacity = (s.conn c).capacity ∧
      (s.conn c).queue <+: (t.conn c).queue := by
  unfold Server.conn
  rw [hfan]
  by_cases hc : c = d
  · obtain ⟨key, hself⟩ := hr.self
    rw [hc, hself]
    exact ⟨rfl, rfl, List.prefix_refl _⟩
  · rw [hr.others c hc]
    exact ⟨rfl, rfl, List.prefix_refl _⟩

theorem conn_other {d : ConnId} {f : ConnState → ConnState} (hne : c ≠ d) (hfan : t.fan = s.fan.modify d f) :
    (t.conn c).closed = (s.conn c).closed ∧ (t.conn c).capacity = (s.conn c).capacity ∧
      (s.conn c).queue <+: (t.conn c).queue := by
  unfold Server.conn
  rw [hfan, Fanout.state_modify, if_neg hne]
  exact ⟨rfl, rfl, List.prefix_refl _⟩

/-- The step lemma: no job moves. -/
theorem Stalled.move (h : Stalled cfg B s) (hfrees : ∀ c, B c → frees c a = false) (hmove : Move x cfg a s t) :
    Stalled cfg B t ∧ ∃ new, t.jobs = s.jobs ++ new ∧ ∀ j ∈ new, j.stage = .waiting := by
  have hsame : ∀ c, B c → (s.conn c).closed = (s.conn c).closed ∧ (s.conn c).capacity = (s.conn c).capacity ∧
      (s.conn c).queue <+: (s.conn c).queue := fun c _ => ⟨rfl, rfl, List.prefix_refl _⟩
  have hnil : s.jobs = s.jobs ++ [] := (List.append_nil _).symm
  have hkeep : ∀ {u : Server}, u.jobs = s.jobs →
      (∀ c, B c → (u.conn c).closed = (s.conn c).closed ∧ (u.conn c).capacity = (s.conn c).capacity ∧
        (s.conn c).queue <+: (u.conn c).queue) → s.fan.nextId ≤ u.fan.nextId →
      Stalled cfg B u ∧ ∃ new, u.jobs = s.jobs ++ new ∧ ∀ j ∈ new, j.stage = .waiting := fun hjobs hconn hnext =>
    ⟨h.congr (hjobs.trans hnil) (by simp) hconn hnext, [], hjobs.trans hnil, by simp⟩
  -- a connection of `B` is none that the turn frees
  have hne : ∀ {d : ConnId}, frees d a = true → ∀ c, B c → c ≠ d := by
    rintro d hd c hc rfl
    rw [hfrees c hc] at hd
    cases hd
  cases hmove with
  | connect now =>
    refine hkeep rfl (fun c hc => ?_) (Nat.le_succ _)
    show ((s.fan.register now connSendCap).2.state c).closed = _ ∧
        ((s.fan.register now connSendCap).2.state c).capacity = _ ∧
      _ <+: ((s.fan.register now connSendCap).2.state c).queue
    rw [Fanout.state_register, if_neg (Nat.ne_of_lt (Nat.lt_succ_of_le (h.old c hc)))]
    exact hsame c hc
  | socket | promise | task | endTask | background => exact hkeep rfl hsame (Nat.le_refl _)
  | conn hp => exact hkeep rfl (fun c _ => conn_places hp rfl c) (Nat.le_refl _)
  | openSub =>
    exact hkeep rfl (fun c _ => conn_rewrites (Fanout.rewrites_setSub ..) rfl c)
        (Fanout.rewrites_setSub ..).nextId.ge
  | closeSub =>
    exact hkeep rfl (fun c _ => conn_rewrites (Fanout.rewrites_removeSub ..) rfl c)
        (Fanout.rewrites_removeSub ..).nextId.ge
  | @unregister d =>
    refine hkeep rfl (fun c hc => ?_) (Fanout.nextId_unregister ..).ge
    show ((s.fan.unregister d).state c).closed = (s.fan.state c).closed ∧
      ((s.fan.unregister d).state c).capacity = (s.fan.state c).capacity ∧
      (s.fan.state c).queue <+: ((s.fan.unregister d).state c).queue
    rw [Fanout.state_unregister]
    split
    · rename_i hd
      rw [hd]
      exact ⟨rfl, rfl, List.prefix_refl _⟩
    · exact ⟨rfl, rfl, List.prefix_refl _⟩
  | finish ha =>
    refine hkeep rfl (fun c hc => ?_) (Nat.le_refl _)
    exact conn_other (f := fun conn => { conn with closed := true })
        (hne (by rw [ha]; exact beq_self_eq_true _) c hc) rfl
  | hangUp ha =>
    refine hkeep rfl (fun c hc => ?_) (Nat.le_refl _)
    exact conn_other (f := fun conn => { conn with closed := true })
        (hne (by rw [ha]; exact beq_self_eq_true _) c hc) rfl
  | @drain d frame queue ha =>
    refine hkeep rfl (fun c hc => ?_) (Nat.le_refl _)
    exact conn_other (f := fun conn => { conn with queue := queue })
        (hne (by rw [ha]; exact beq_self_eq_true _) c hc) rfl
  | @stored i u _ _ conn _ _ _ hsend =>
    exact hkeep rfl (fun c _ => conn_places (d := u.conn) (f := fun _ => conn)
      (places_sent hsend) rfl c) (Nat.le_refl _)
  | @eose i u conn _ _ _ _ _ hsend =>
    exact hkeep rfl (fun c _ => conn_places (d := u.conn) (f := fun _ => conn)
      (places_sent hsend) rfl c) (Nat.le_refl _)
  | @spawn c sock text =>
    have hnew : ∀ j ∈ [(⟨c, text, .waiting⟩ : Job)], j.stage = .waiting :=
      fun j hj => by rw [List.mem_singleton.1 hj]
    exact ⟨h.congr rfl hnew hsame (Nat.le_refl _), _, rfl, hnew⟩
  | permit hj hstage hheld => exact absurd h.all (Nat.not_le.2 hheld)
  | process _ _ hj hstage =>
    refine (h.not_holds hj (by rw [hstage]; rfl) fun m hm => ?_).elim
    rw [hstage] at hm
    cases hm
  | @advance k j stage hj hnext =>
    have hstage : j.stage.holds = true ∧ ∀ m, j.stage ≠ .replying m := by
      generalize j.stage = old at hnext
      cases hnext <;> exact ⟨rfl, fun m hm => by cases hm⟩
    exact (h.not_holds hj hstage.1 hstage.2).elim
  | deliver _ hj hstage =>
    refine (h.not_holds hj (by rw [hstage]; rfl) fun m hm => ?_).elim
    rw [hstage] at hm
    cases hm
  | reply hj hstage hsend =>
    have hB := (h.replying _ (List.mem_of_getElem? hj) (by rw [hstage]; rfl)).2
    rw [h.trySend hB] at hsend
    cases hsend
  | unheard hj hstage hclosed =>
    have hB := (h.replying _ (List.mem_of_getElem? hj) (by rw [hstage]; rfl)).2
    rw [(h.full _ hB).1] at hclosed
    cases hclosed

end

/-- Stalled ever since there were the tasks `jobs`. -/
structure StalledSince (cfg : Config) (B : ConnId → Prop) (jobs : List Job) (s : Server) : Prop where
  stalled : Stalled cfg B s
  waiting : ∃ new, s.jobs = jobs ++ new ∧ ∀ j ∈ new, j.stage = .waiting

/-- The step lemma. -/
theorem StalledSince.move {x : Serde} {cfg : Config} {B : ConnId → Prop} {jobs : List Job} {a : Turn}
    {s t : Server}
    (h : StalledSince cfg B jobs s) (hfrees : ∀ c, B c → frees c a = false) (hmove : Move x cfg a s t) :
    StalledSince cfg B jobs t := by
  obtain ⟨new, hjobs, hnew⟩ := h.waiting
  obtain ⟨hstalled, new', hjobs', hnew'⟩ := h.stalled.move hfrees hmove
  refine ⟨hstalled, new ++ new', ?_, List.forall_mem_append.2 ⟨hnew, hnew'⟩⟩
  rw [hjobs', hjobs, List.append_assoc]

/-- Whatever the clients send and however the tasks take turns: while none of the
connections that are waited for is sent a frame or goes away, every task of an `EVENT`
frame stays where it is, and those of new frames wait for a permit. -/
theorem stalled (x : Serde) (cfg : Config) (B : ConnId → Prop) (s : Server) (h : Stalled cfg B s)
    (more : List Turn)
    (t : Server) (ht : Machine.run (Server.step x cfg) s more = some t)
    (hfrees : ∀ a ∈ more, ∀ c, B c → frees c a = false) :
    Stalled cfg B t ∧ ∃ new, t.jobs = s.jobs ++ new ∧ ∀ j ∈ new, j.stage = .waiting := by
  have hI : StalledSince cfg B s.jobs t := Machine.run_invariant_mem
    (fun _ a _ hstep ha hI => (step_moves hstep).keep (fun _ _ hmove h => h.move (hfrees a ha) hmove) hI) ht
    ⟨h, [], (List.append_nil _).symm, fun _ hj => absurd hj List.not_mem_nil⟩
  exact ⟨hI.stalled, hI.waiting⟩

/-! ## A client that does not read -/

/-- Client 1 in its loop, with `n` frames in its queue, and `k` tasks that wait to reply to it. -/
structure Flooded (n k : Nat) (s : Server) : Prop where
  socket : ∃ sock, s.sockets.lookup 1 = some sock ∧ sock.loop = .select
  nextId : s.fan.nextId = 1
  isOpen : (s.conn 1).closed = false
  capacity : (s.conn 1).capacity = connSendCap
  queue : (s.conn 1).queue.length = n
  promised : s.promised 1 = 0
  jobs : s.jobs.length = k
  replying : ∀ j ∈ s.jobs, (∃ m, j.stage = .replying m) ∧ j.conn = 1

section
variable {x : Serde} (cfg : Config) {s : Server} {n k : Nat}

theorem step_receive {c : ConnId} (sock : Socket) (hsock : s.sockets.lookup c = some sock)
    (hloop : sock.loop = .select)
    (m : Incoming) : Server.step x cfg s (.receive c m) = some (s.receive x cfg c sock m) := by
  show s.selecting c _ = _
  unfold Server.selecting
  rw [hsock, Option.bind_some, if_pos hloop]

theorem Flooded.held (h : Flooded n k s) : s.held = k := by
  unfold Server.held
  rw [List.countP_eq_length.2 fun j hj => ?_, h.jobs]
  obtain ⟨⟨m, hm⟩, -⟩ := h.replying j hj
  rw [hm]
  rfl

theorem flooded_connect (x : Serde) (cfg : Config) (store : Store) : ∃ s,
    Machine.run (Server.step x cfg) (.start store) [.connect 0] = some s ∧ Flooded 0 0 s := by
  exact ⟨_, rfl, ⟨⟨_, AList.lookup_insert _, rfl⟩, rfl, rfl, rfl, rfl, rfl, rfl, by simp [Server.start]⟩⟩

/-- A binary frame puts a `NOTICE` in the queue. -/
theorem Flooded.binary (h : Flooded n k s) (hn : n < connSendCap) :
    ∃ s', Server.step x cfg s (.receive 1 .binary) = some s' ∧ Flooded (n + 1) k s' := by
  obtain ⟨sock, hsock, hloop⟩ := h.socket
  have hroom : (s.conn 1).queue.length < (s.conn 1).capacity := by
    rw [h.queue, h.capacity]
    exact hn
  have hsend : ∀ frame, (s.fan.state 1).trySend frame =
      some { s.conn 1 with queue := (s.conn 1).queue ++ [frame] } := by
    intro frame
    exact if_pos ⟨h.isOpen, hroom⟩
  have hconn : (s.receive x cfg 1 sock .binary).conn 1 = { s.conn 1 with
      queue := (s.conn 1).queue ++ [.message (.notification "binary messages are not supported".toList)] } := by
    show (s.fan.modify 1 (reserve (s.promised 1) fun conn => (conn.trySend _).getD conn)).state 1 = _
    rw [Fanout.state_modify, if_pos rfl, h.promised]
    show { ((s.fan.state 1).trySend _).getD (s.fan.state 1) with capacity := (s.conn 1).capacity } = _
    rw [hsend]
    rfl
  refine ⟨s.receive x cfg 1 sock .binary, step_receive cfg sock hsock hloop _,
    ⟨_, AList.lookup_insert _, hloop⟩, h.nextId, ?_, ?_, ?_, h.promised, h.jobs, h.replying⟩
  all_goals rw [hconn]
  · exact h.isOpen
  · exact h.capacity
  · show ((s.conn 1).queue ++ [_]).length = n + 1
    rw [List.length_append, h.queue]
    rfl

theorem Flooded.fill (h : Flooded n k s) (m : Nat) (hm : n + m ≤ connSendCap) :
    ∃ s', Machine.run (Server.step x cfg) s (List.replicate m (.receive 1 .binary)) = some s' ∧
        Flooded (n + m) k s' := by
  induction m generalizing n s with
  | zero => exact ⟨s, rfl, h⟩
  | succ m ih =>
    obtain ⟨u, hu, hflood⟩ := h.binary (x := x) cfg (by omega)
    obtain ⟨v, hv, hflood'⟩ := ih hflood (by omega)
    refine ⟨v, (Machine.run_cons_eq_some _).2 ⟨u, hu, hv⟩, ?_⟩
    rw [show n + (m + 1) = n + 1 + m by omega]
    exact hflood'

/-- A text that is sent as an event and is none. -/
structure BadEvent (x : Serde) (text err : Str) : Prop where
  type : messageType text = some "EVENT".toList
  length : (utf8Bytes text).length ≤ maxMessageBytes
  parse : NostrMessage.fromJson x (utf8Bytes text) = .error err

/-- Receiving it and the first three steps of its task. -/
def badEvent (text : Str) (visit : Visit) (order : ConnVisit) (k : Nat) : List Turn :=
  .receive 1 (.text text) :: List.replicate 3 (.work k visit order fun _ => 0)

/-- One more task takes a permit, and waits to reply. -/
theorem Flooded.event {text err : Str} (h : Flooded n k s) (hbad : BadEvent x text err) (visit : Visit)
    (order : ConnVisit)
    (hk : k < verifyPermits cfg.cpus) :
    ∃ s', Machine.run (Server.step x cfg) s (badEvent text visit order k) = some s' ∧ Flooded n (k + 1) s' := by
  obtain ⟨sock, hsock, hloop⟩ := h.socket
  let sock' : Socket := { sock with clientActive := true }
  let u (stage : Stage) : Server := { s.setSocket 1 sock' with jobs := s.jobs ++ [⟨1, text, stage⟩] }
  have hreceive : Server.step x cfg s (.receive 1 (.text text)) = some (u .waiting) := by
    rw [step_receive cfg sock hsock hloop]
    show some ((s.setSocket 1 sock').receiveText x cfg 1 sock' text) = _
    unfold Server.receiveText
    rw [if_neg (Nat.not_lt.2 hbad.length), if_pos hbad.type]
    rfl
  have hget : ∀ stage, (u stage).jobs[k]? = some ⟨1, text, stage⟩ := by
    intro stage
    show (s.jobs ++ [_])[k]? = _
    rw [← h.jobs]
    exact List.getElem?_concat_length
  have hset : ∀ stage stage', (u stage).setStage k ⟨1, text, stage⟩ stage' = u stage' := by
    intro stage stage'
    have hlist : (s.jobs ++ [(⟨1, text, stage⟩ : Job)]).set k ⟨1, text, stage'⟩ =
        s.jobs ++ [⟨1, text, stage'⟩] := by
      rw [← h.jobs, List.set_append_right _ _ (Nat.le_refl _), Nat.sub_self]
      rfl
    show ({ s.setSocket 1 sock' with jobs := (s.jobs ++ [(⟨1, text, stage⟩ : Job)]).set k ⟨1, text, stage'⟩ } :
        Server) = _
    rw [hlist]
  have hwork : ∀ {stage stage' : Stage},
      (u stage).work x cfg k ⟨1, text, stage⟩ visit order (fun _ => 0) =
          some ((u stage).setStage k ⟨1, text, stage⟩ stage') →
      Server.step x cfg (u stage) (.work k visit order fun _ => 0) = some (u stage') := by
    intro stage stage' hw
    show ((u stage).jobs[k]?).bind _ = _
    rw [hget, Option.bind_some, hw, hset]
  have hheld : (u .waiting).held < verifyPermits cfg.cpus := by
    have hsame : (u .waiting).held = s.held := by
      unfold Server.held
      show (s.jobs ++ [_]).countP _ = _
      rw [List.countP_append]
      rfl
    rw [hsame, h.held]
    exact hk
  have hpermit : Server.step x cfg (u .waiting) (.work k visit order fun _ => 0) = some (u .permitted) := by
    refine hwork ?_
    unfold Server.work
    simp only [if_pos hheld]
  have hprocess : Server.step x cfg (u .permitted) (.work k visit order fun _ => 0) =
      some (u (.publishing [] (some (.notification err)))) := by
    have hhandled : Relay.processEventMessage x (utf8Bytes text) visit s.store =
        ⟨some (.notification err), [], s.store⟩ := by
      unfold Relay.processEventMessage
      rw [hbad.parse]
    refine hwork ?_
    unfold Server.work
    simp only
    rw [show (u .permitted).store = s.store from rfl, hhandled]
    rfl
  have hreply : Server.step x cfg (u (.publishing [] (some (.notification err))))
      (.work k visit order fun _ => 0) =
      some (u (.replying (.notification err))) := hwork rfl
  refine ⟨u (.replying (.notification err)), ?_, ?_⟩
  · refine (Machine.run_cons_eq_some _).2 ⟨_, hreceive, ?_⟩
    refine (Machine.run_cons_eq_some _).2 ⟨_, hpermit, ?_⟩
    refine (Machine.run_cons_eq_some _).2 ⟨_, hprocess, ?_⟩
    exact (Machine.run_cons_eq_some _).2 ⟨_, hreply, rfl⟩
  · refine ⟨⟨_, AList.lookup_insert _, hloop⟩, h.nextId, h.isOpen, h.capacity, h.queue, h.promised, ?_,
        fun j hj => ?_⟩
    · show (s.jobs ++ [_]).length = k + 1
      rw [List.length_append, h.jobs]
      rfl
    · rcases List.mem_append.1 hj with hj | hj
      · exact h.replying j hj
      · rw [List.mem_singleton.1 hj]
        exact ⟨⟨_, rfl⟩, rfl⟩

theorem Flooded.events {text err : Str} (h : Flooded n k s) (hbad : BadEvent x text err) (visit : Visit)
    (order : ConnVisit)
    (m : Nat) (hm : k + m ≤ verifyPermits cfg.cpus) : ∃ turns s',
      (∀ a ∈ turns, a = .receive 1 (.text text) ∨ ∃ i, a = .work i visit order fun _ => 0) ∧
      Machine.run (Server.step x cfg) s turns = some s' ∧ Flooded n (k + m) s' := by
  induction m generalizing k s with
  | zero => exact ⟨[], s, by simp, rfl, h⟩
  | succ m ih =>
    obtain ⟨u, hu, hflood⟩ := h.event cfg hbad visit order (by omega)
    obtain ⟨turns, v, hturns, hv, hflood'⟩ := ih hflood (by omega)
    refine ⟨badEvent text visit order k ++ turns, v, List.forall_mem_append.2 ⟨fun a ha => ?_, hturns⟩, ?_, ?_⟩
    · rcases List.mem_cons.1 ha with rfl | ha
      · exact Or.inl rfl
      · exact Or.inr ⟨k, List.eq_of_mem_replicate ha⟩
    · rw [Machine.run_append, hu]
      exact hv
    · rw [show k + (m + 1) = k + 1 + m by omega]
      exact hflood'

theorem Flooded.toStalled (h : Flooded connSendCap (verifyPermits cfg.cpus) s) : Stalled cfg (· = 1) s := by
  refine ⟨h.held.ge, fun j hj _ => h.replying j hj, ?_, ?_⟩
  · rintro c rfl
    rw [h.capacity, h.queue]
    exact ⟨h.isOpen, Nat.le_refl _⟩
  · rintro c rfl
    exact h.nextId.ge

end

/-- One client connects, sends binary frames until its queue is full of `NOTICE`s, and
then as many bad events as there are permits. -/
theorem exists_stalled {x : Serde} {text err : Str} (cfg : Config) (store : Store) (hbad : BadEvent x text err)
    (visit : Visit)
    (order : ConnVisit) : ∃ turns s,
    (∀ a ∈ turns, a = .connect 0 ∨ a = .receive 1 .binary ∨ a = .receive 1 (.text text) ∨
        ∃ i, a = .work i visit order fun _ => 0) ∧
      Machine.run (Server.step x cfg) (.start store) turns = some s ∧ Stalled cfg (· = 1) s := by
  obtain ⟨s₁, h₁, hflood₁⟩ := flooded_connect x cfg store
  obtain ⟨s₂, h₂, hflood₂⟩ := hflood₁.fill (x := x) cfg connSendCap (by omega)
  obtain ⟨turns, s₃, hturns, h₃, hflood₃⟩ :=
    hflood₂.events cfg hbad visit order (verifyPermits cfg.cpus) (by omega)
  rw [Nat.zero_add, Nat.zero_add] at hflood₃
  refine ⟨.connect 0 :: List.replicate connSendCap (.receive 1 .binary) ++ turns, s₃, ?_, ?_,
      hflood₃.toStalled cfg⟩
  · refine List.forall_mem_append.2 ⟨fun a ha => ?_, fun a ha => Or.inr (Or.inr (hturns a ha))⟩
    rcases List.mem_cons.1 ha with rfl | ha
    · exact Or.inl rfl
    · exact Or.inr (Or.inl (List.eq_of_mem_replicate ha))
  · rw [Machine.run_append, ← List.singleton_append, Machine.run_append, h₁, Option.bind_some, h₂]
    exact h₃

def noEvent : Str := "[\"EVENT\"]".toList

theorem badEvent_noEvent : BadEvent NostrMessage.jsonSerde noEvent "Missing event data".toList := by
  refine ⟨by decide +kernel, by decide +kernel, ?_⟩
  have hparse : (match NostrMessage.fromJson NostrMessage.jsonSerde (utf8Bytes noEvent) with
      | .error err => err == "Missing event data".toList
      | .ok _ => false) = true := by decide +kernel
  split at hparse
  · rename_i err herr
    rw [herr, eq_of_beq hparse]
  · cases hparse

/-- The first client has stalled the relay, and the frame of a second one waits. -/
theorem stalled_secondClient : ∃ turns s c t new,
    Machine.run (Server.step NostrMessage.jsonSerde oneSub) (.start (.new ⟨none, none, none⟩)) turns = some s ∧
      Stalled oneSub (· = 1) s ∧
      Machine.run (Server.step NostrMessage.jsonSerde oneSub) s [.connect 0, .receive c (.text noEvent)] = some t ∧
      t.jobs = s.jobs ++ new ∧ ∀ j ∈ new, j.stage = .waiting := by
  obtain ⟨turns, s, -, hs, hstalled⟩ :=
    exists_stalled oneSub (.new ⟨none, none, none⟩) badEvent_noEvent Relay.sorted
    Fanout.visitAscending
  let c := s.fan.nextId + 1
  let more : List Turn := [.connect 0, .receive c (.text noEvent)]
  have hrun : ∃ t, Machine.run (Server.step NostrMessage.jsonSerde oneSub) s more = some t := by
    have hreceive := step_receive (x := NostrMessage.jsonSerde) oneSub (c := c) ⟨.select, ∅, false⟩ (s := { s with
      fan := (s.fan.register 0 connSendCap).2
      sockets := s.sockets.insert c ⟨.select, ∅, false⟩
      connectionCount := s.connectionCount + 1 }) (AList.lookup_insert _) rfl (.text noEvent)
    exact ⟨_, (Machine.run_cons_eq_some _).2 ⟨_, rfl, (Machine.run_cons_eq_some _).2 ⟨_, hreceive, rfl⟩⟩⟩
  obtain ⟨t, ht⟩ := hrun
  have hfrees : ∀ a ∈ more, ∀ d, d = 1 → frees d a = false := by
    intro a ha d _
    rcases List.mem_cons.1 ha with rfl | ha
    · rfl
    · rw [List.mem_singleton.1 ha]
      rfl
  obtain ⟨-, new, hjobs, hnew⟩ := stalled NostrMessage.jsonSerde oneSub (· = 1) s hstalled more t ht hfrees
  exact ⟨turns, s, c, t, new, hs, hstalled, ht, hjobs, hnew⟩

end Session
end Memlay
