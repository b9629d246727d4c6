import Mathlib.Data.List.Perm.Lattice
import Memlay.Authenticity
import Memlay.SessionLog

/-!
# Every `EVENT` frame is answered once

Each `EVENT` frame within the size limit spawns one task, which outlives the connection.
In every state of a run

    the tasks                are those of the frames received, in order
    the OK frames of a log   are, in some order, the `OK` replies of that connection's tasks
    a task without a reply   is still at work, or its connection is gone, or the text is
                             no event and no error

(`run_replies`): no frame is answered twice or to another connection, none is forgotten, and
an `OK` names the event of the frame it answers.
-/

namespace Memlay
namespace Session

open Json (utf8Bytes)

/-- The `EVENT` frame that a turn brings from connection `c`. -/
def eventFrame (c : ConnId) : Turn → Option Str
  | .receive d (.text text) =>
    if d = c ∧ (utf8Bytes text).length ≤ maxMessageBytes ∧
        messageType text = some "EVENT".toList then some text else none
  | _ => none

theorem eventFrame_text (c d : ConnId) (text : Str) : eventFrame c (.receive d (.text text)) =
    if d = c ∧ (utf8Bytes text).length ≤ maxMessageBytes ∧ messageType text = some "EVENT".toList then some text
        else none :=
  rfl

def Job.textFor (c : ConnId) (j : Job) : Option Str := if j.conn = c then some j.text else none

/-- The frames of connection `c` that have a task. -/
def Server.texts (s : Server) (c : ConnId) : List Str := s.jobs.filterMap (Job.textFor c)

/-! ## One task for each frame -/

section
variable {x : Serde} {cfg : Config} {a : Turn} {s t : Server} {c : ConnId}

theorem texts_setStage {k : Nat} {j : Job} {stage : Stage} (hj : s.jobs[k]? = some j)
    (hjobs : t.jobs = (s.setStage k j stage).jobs) : t.texts c = s.texts c := by
  obtain ⟨l, r, hl, hset⟩ := exists_split hj
  unfold Server.texts
  rw [hjobs]
  show (s.jobs.set k _).filterMap _ = _
  rw [hset, hl]
  simp only [List.filterMap_append, List.filterMap_cons]
  rfl

/-- Only a text frame spawns a task. -/
theorem texts_move (hmove : Move x cfg a s t) (ha : ∀ c text, a ≠ .receive c (.text text)) :
    t.texts c = s.texts c := by
  cases hmove with
  | connect | socket | conn | openSub | closeSub | unregister | finish | hangUp | drain | task | stored | eose |
    endTask | promise | background => rfl
  | spawn hturn => exact absurd hturn (ha _ _)
  | permit hj | process _ _ hj | advance hj | deliver _ hj | reply hj | unheard hj => exact texts_setStage hj rfl

theorem texts_receiveText {sock : Socket} (text : Str) (d : ConnId) : (s.receiveText x cfg d sock text).texts c =
    s.texts c ++ (eventFrame c (.receive d (.text text))).toList := by
  have hsame : ∀ u : Server, u.jobs = s.jobs → ¬ ((utf8Bytes text).length ≤ maxMessageBytes ∧
      messageType text = some "EVENT".toList) →
          u.texts c = s.texts c ++ (eventFrame c (.receive d (.text text))).toList := by
    intro u hu hno
    unfold Server.texts
    rw [hu, eventFrame_text, if_neg fun hand => hno hand.2]
    exact (List.append_nil _).symm
  unfold Server.receiveText
  split
  · rename_i hlen
    exact hsame _ rfl fun hand => Nat.not_lt.2 hand.1 hlen
  · rename_i hlen
    split
    · rename_i htype
      unfold Server.texts
      rw [List.filterMap_append]
      refine congrArg (s.jobs.filterMap (Job.textFor c) ++ ·) ?_
      rw [eventFrame_text]
      unfold Job.textFor
      by_cases hd : d = c
      · simp [hd, Nat.not_lt.1 hlen, htype]
      · simp [hd]
    · rename_i htype
      refine hsame _ ?_ fun hand => htype hand.2
      split
      · unfold Server.receiveReq
        split
        · split
          · rfl
          · split
            · rfl
            · rfl
        · rfl
        · rfl
      · split
        · unfold Server.receiveClose
          split
          · rfl
          · rfl
        · unfold Server.receiveOther
          split
          · rfl
          · rfl

theorem texts_step (hstep : s.step x cfg a = some t) (c : ConnId) :
    t.texts c = s.texts c ++ (eventFrame c a).toList := by
  have hother : (∀ d text, a ≠ .receive d (.text text)) → t.texts c = s.texts c := fun ha =>
    (step_moves hstep).keep (P := fun u => u.texts c = s.texts c)
    (fun u v hmove hu => (texts_move hmove ha).trans hu) rfl
  cases a with
  | receive d m =>
    cases m with
    | text text =>
      obtain ⟨sock, -, -, rfl⟩ := selecting_eq_some hstep
      exact texts_receiveText text d
    | _ =>
      refine (hother fun _ _ h => ?_).trans (List.append_nil _).symm
      cases h
  | _ =>
    refine (hother fun _ _ h => ?_).trans (List.append_nil _).symm
    cases h

theorem run_texts {store : Store} {turns : List Turn}
    (hs : Machine.run (Server.step x cfg) (.start store) turns = some s)
    (c : ConnId) : s.texts c = turns.filterMap (eventFrame c) := by
  induction turns using List.reverseRecOn generalizing s with
  | nil =>
    cases hs
    rfl
  | append_singleton turns a ih =>
    obtain ⟨u, hu, hstep⟩ := (Machine.run_concat_eq_some _).1 hs
    rw [texts_step hstep c, ih hu, List.filterMap_append]
    refine congrArg _ ?_
    cases h : eventFrame c a with
    | none => simp [h]
    | some text => simp [h]

end

/-! ## The `OK` frames -/

def isOk : NostrMessage → Bool
  | .ok _ _ _ => true
  | _ => false

def Frame.isOk : Frame → Bool
  | .message m => Session.isOk m
  | .event _ _ => false

/-- The replies placed for connection `c` that are `OK`s. -/
def Server.oks (s : Server) (c : ConnId) : List (Str × NostrMessage) :=
  (s.answers.filter fun p => decide (p.1 = c) && isOk p.2.2).map Prod.snd

section
variable {x : Serde} {cfg : Config} {a : Turn} {s t : Server} {c : ConnId}

theorem not_isOk_of_source {frame : Frame} (h : Source s c frame) : Frame.isOk frame = false := by
  cases h with
  | spoken h =>
    rcases h with ⟨_, rfl⟩ | ⟨_, _, rfl⟩
    · rfl
    · rfl
  | live _ _ h =>
    obtain ⟨_, -, -, rfl⟩ := h
    rfl
  | stored => rfl
  | eose => rfl

/-- The `OK` frames of each log are the `OK` replies placed. -/
def Balanced (s : Server) : Prop :=
  ∀ c, ((s.log c).filter Frame.isOk).Perm ((s.oks c).map fun p => .message p.2)

theorem Balanced.move (hfresh : Fresh s) (hmove : Move x cfg a s t) (h : Balanced s) : Balanced t := by
  intro c
  rcases move_log hfresh hmove with ⟨k, j, m, hj, hstage, hjobs, hlog⟩ | ⟨hgrows, hanswers⟩
  · obtain ⟨l, r, hl, hset⟩ := exists_split hj
    have hnone : j.answer = none := by
      unfold Job.answer
      rw [hstage]
      rfl
    have hold : s.answers = l.filterMap Job.answer ++ r.filterMap Job.answer := by
      unfold Server.answers
      rw [hl, List.filterMap_append, List.filterMap_cons_none hnone]
    have hnew : t.answers = l.filterMap Job.answer ++ (j.conn, j.text, m) :: r.filterMap Job.answer := by
      unfold Server.answers
      rw [hjobs, hset, List.filterMap_append,
          List.filterMap_cons_some (show Job.answer _ = some (j.conn, j.text, m) from rfl)]
    have hperm : (t.oks c).Perm (s.oks c ++
        ([(j.conn, j.text, m)].filter fun p => decide (p.1 = c) && isOk p.2.2).map Prod.snd) := by
      unfold Server.oks
      rw [hold, hnew, ← List.map_append, ← List.filter_append]
      refine ((List.perm_middle.trans ?_).filter _).map _
      exact (List.perm_append_singleton _ _).symm
    refine (List.Perm.trans ?_ (hperm.map _).symm)
    rw [hlog c, List.filter_append, List.map_append]
    refine (h c).append ?_
    by_cases hc : c = j.conn
    · subst hc
      cases hm : isOk m <;> simp [Frame.isOk, hm]
    · simp [hc, Ne.symm hc]
  · obtain ⟨frames, hlog, hframes⟩ := hgrows c
    have hfilter : frames.filter Frame.isOk = [] := by
      refine List.filter_eq_nil_iff.2 fun frame hframe => ?_
      rw [not_isOk_of_source (hframes frame hframe)]
      exact Bool.false_ne_true
    have hoks : t.oks c = s.oks c := by
      unfold Server.oks
      rw [hanswers]
    rw [hlog, List.filter_append, hfilter, List.append_nil, hoks]
    exact h c

/-! ## Tasks without a reply -/

end

/-- The text is a message of another kind. -/
def NoReply (x : Serde) (text : Str) : Prop :=
  ∃ m, NostrMessage.fromJson x (utf8Bytes text) = .ok m ∧ ∀ subId ev, m ≠ .event subId ev

/-- There is something to publish and nothing to reply. -/
def Stage.mute : Stage → Bool
  | .publishing _ none => true
  | .delivering _ _ _ none => true
  | _ => false

structure Settled (x : Serde) (s : Server) (j : Job) : Prop where
  old : j.conn ≤ s.fan.nextId
  mute : j.stage.mute = true → NoReply x j.text
  unanswered : j.stage = .ended → (s.conn j.conn).closed = true ∨ NoReply x j.text

theorem noReply_processEventMessage {x : Serde} {text : Str} {visit : Visit} {st : Store}
    (h : (Relay.processEventMessage x (utf8Bytes text) visit st).reply = none) : NoReply x text := by
  unfold Relay.processEventMessage at h
  split at h
  · rename_i subId ev hev
    simp only at h
    split at h
    · unfold Relay.applyDeletionRequest at h
      simp only at h
      split at h
      · cases h
      · split at h
        · cases h
        · split at h <;> cases h
    · split at h <;> cases h
  · rename_i m hne hm
    exact ⟨m, hm, fun subId ev heq => hne subId ev heq⟩
  · cases h

section
variable {x : Serde} {cfg : Config} {a : Turn} {s t : Server} {c : ConnId}

theorem nextId_move (hmove : Move x cfg a s t) : s.fan.nextId ≤ t.fan.nextId := by
  cases hmove with
  | connect => exact Nat.le_succ _
  | openSub => exact (Fanout.rewrites_setSub ..).nextId.ge
  | closeSub => exact (Fanout.rewrites_removeSub ..).nextId.ge
  | unregister => exact (Fanout.nextId_unregister ..).ge
  | _ => exact Nat.le_refl _

theorem closed_modify {d : ConnId} {f : ConnState → ConnState}
    (hf : (s.conn d).closed = true → (f (s.conn d)).closed = true)
    (hfan : t.fan = s.fan.modify d f) (h : (s.conn c).closed = true) : (t.conn c).closed = true := by
  unfold Server.conn
  rw [hfan, Fanout.state_modify]
  split
  · rename_i hc
    exact hf (hc ▸ h)
  · exact h

/-- A frame that is sent opens no queue. -/
theorem closed_sent {d : ConnId} {frame : Frame} {conn : ConnState} (hsend : (s.conn d).trySend frame = some conn)
    (hfan : t.fan = s.fan.modify d fun _ => conn) (h : (s.conn c).closed = true) : (t.conn c).closed = true :=
  closed_modify (places_sent hsend).closed.trans hfan h

theorem closed_rewrites {d : ConnId} {subs : List Sub} {fan : Fanout} (hr : s.fan.Rewrites d subs fan)
    (h : (s.conn c).closed = true) : (fan.state c).closed = true := by
  by_cases hc : c = d
  · obtain ⟨key, hself⟩ := hr.self
    rw [hc, hself]
    exact hc ▸ h
  · rw [hr.others c hc]
    exact h

/-- A receiver that is gone stays so. -/
theorem closed_move (hmove : Move x cfg a s t) (hold : c ≤ s.fan.nextId) (h : (s.conn c).closed = true) :
    (t.conn c).closed = true := by
  cases hmove with
  | connect now =>
    show ((s.fan.register now connSendCap).2.state c).closed = true
    rw [Fanout.state_register, if_neg (Nat.ne_of_lt (Nat.lt_succ_of_le hold))]
    exact h
  | socket | promise | task | endTask | spawn | permit | process | advance | unheard | background => exact h
  | conn hp => exact closed_modify hp.closed.trans rfl h
  | openSub => exact closed_rewrites (Fanout.rewrites_setSub ..) h
  | closeSub => exact closed_rewrites (Fanout.rewrites_removeSub ..) h
  | @unregister d =>
    show ((s.fan.unregister d).state c).closed = true
    rw [Fanout.state_unregister]
    split
    · rename_i hc
      exact hc ▸ h
    · exact h
  | @finish d | @hangUp d =>
    exact closed_modify (d := d) (f := fun conn => { conn with closed := true }) (fun _ => rfl) rfl h
  | @drain d _ queue =>
    exact closed_modify (d := d) (f := fun conn => { conn with queue := queue }) (fun hc => hc) rfl h
  | stored _ _ _ hsend | eose _ _ _ _ _ hsend => exact closed_sent hsend rfl h
  | deliver clock => exact closed_modify (places_deliver _ clock _ _).closed.trans rfl h
  | reply _ _ hsend => exact closed_sent hsend rfl h

theorem settled_move (hinv : Inv cfg s) (hmove : Move x cfg a s t) (h : ∀ j ∈ s.jobs, Settled x s j) :
    ∀ j ∈ t.jobs, Settled x t j := by
  have hids := nextId_move hmove
  have hold : ∀ j ∈ s.jobs, Settled x t j := by
    intro j hj
    refine ⟨(h j hj).old.trans hids, (h j hj).mute, fun hover => ?_⟩
    exact ((h j hj).unanswered hover).imp_left (closed_move hmove (h j hj).old)
  -- one job goes on to another stage
  have hset : ∀ {k : Nat} {j : Job} {stage : Stage}, s.jobs[k]? = some j → (stage.mute = true → NoReply x j.text) →
      (stage = .ended → (t.conn j.conn).closed = true ∨ NoReply x j.text) →
      ∀ i ∈ s.jobs.set k { j with stage := stage }, Settled x t i := by
    intro k j stage hj hmute hover i hi
    rcases List.mem_or_eq_of_mem_set hi with hi | rfl
    · exact hold i hi
    · exact ⟨(h j (List.mem_of_getElem? hj)).old.trans hids, hmute, hover⟩
  cases hmove with
  | connect | socket | conn | openSub | closeSub | unregister | finish | hangUp | drain | task | stored | eose |
    endTask | promise | background => exact hold
  | spawn _ hsock =>
    intro j hj
    rcases List.mem_append.1 hj with hj | hj
    · exact hold j hj
    · rw [List.mem_singleton.1 hj]
      refine ⟨hinv.old _ (AList.lookup_isSome.1 (by rw [hsock]; rfl)), fun hm => ?_, fun ho => ?_⟩
      · cases hm
      · cases ho
  | permit hj => exact hset hj (fun hm => by cases hm) fun ho => by cases ho
  | @process k j visit _ hj _ =>
    refine hset hj (fun hm => ?_) fun ho => by cases ho
    cases hreply : (Relay.processEventMessage x (utf8Bytes j.text) visit s.store).reply with
    | none => exact noReply_processEventMessage hreply
    | some m =>
      rw [hreply] at hm
      cases hm
  | @advance k j stage hj hnext =>
    have hmute := (h j (List.mem_of_getElem? hj)).mute
    refine hset hj (fun hm => hmute ?_) fun ho => Or.inr (hmute ?_)
    · generalize j.stage = old at hnext
      cases hnext with
      | reply | silent => cases hm
      | publish _ _ _ reply | published _ _ reply =>
        cases reply with
        | none => rfl
        | some m => cases hm
    · generalize j.stage = old at hnext
      cases ho
      cases hnext
      rfl
  | @deliver k j ev d targets events reply clock hj hstage =>
    refine hset hj (fun hm => (h j (List.mem_of_getElem? hj)).mute ?_) fun ho => by cases ho
    rw [hstage]
    cases reply with
    | none => rfl
    | some m => cases hm
  | reply hj => exact hset hj (fun hm => by cases hm) fun ho => by cases ho
  | unheard hj _ hclosed => exact hset hj (fun hm => by cases hm) fun _ => Or.inl hclosed

end

/-- Where the `EVENT` frames of a run are, and what was answered. -/
structure Replies (x : Serde) (turns : List Turn) (s : Server) : Prop where
  /-- each frame has one task, in the order of the frames -/
  tasks : ∀ c, s.texts c = turns.filterMap (eventFrame c)
  /-- the `OK` frames of a connection are the `OK` replies of its own tasks, each once -/
  oks : ∀ c, ((s.log c).filter Frame.isOk).Perm ((s.oks c).map fun p => .message p.2)
  /-- a reply is an `OK` with the id of the event in the frame, or the parser's complaint -/
  answered : ∀ j ∈ s.jobs, ∀ m, j.stage = .answered m → Answers x j.text m
  /-- a task ends without one only where the connection is gone, or the text is a
  message of another kind -/
  unanswered : ∀ j ∈ s.jobs, j.stage = .ended → (s.conn j.conn).closed = true ∨ NoReply x j.text

/-- What `run_replies` keeps. -/
structure Replying (x : Serde) (cfg : Config) (s : Server) : Prop where
  inv : Inv cfg s
  fresh : Fresh s
  balanced : Balanced s
  settled : ∀ j ∈ s.jobs, Settled x s j

theorem Replying.move {x : Serde} {cfg : Config} {a : Turn} {s t : Server} (h : Replying x cfg s)
    (hmove : Move x cfg a s t) : Replying x cfg t :=
  ⟨h.inv.move hmove, h.fresh.move hmove, h.balanced.move h.fresh hmove, settled_move h.inv hmove h.settled⟩

/-- In every state of every run. -/
theorem run_replies (x : Serde) (cfg : Config) (store : Store) (turns : List Turn) (s : Server)
    (hs : Machine.run (Server.step x cfg) (.start store) turns = some s) : Replies x turns s := by
  have hI : Replying x cfg s := Machine.run_invariant_mem
    (fun _ _ _ hstep _ hI => (step_moves hstep).keep (fun _ _ hmove h => Replying.move h hmove) hI) hs
    ⟨inv_start cfg store, fresh_start store, fun _ => List.Perm.nil, fun _ hj => absurd hj List.not_mem_nil⟩
  refine ⟨run_texts hs, hI.balanced, fun j hj m hm => ?_, fun j hj => (hI.settled j hj).unanswered⟩
  refine (run_logged hs).answered j hj m ?_
  rw [hm]
  rfl

def noteFrame : Str := "[\"EVENT\",".toList ++ noteText ++ "]".toList

def badFrame : Str := "[\"EVENT\"]".toList

/-- The parser on these two frames. -/
def knownFrames : Serde := { NostrMessage.jsonSerde with
  rawArray := fun json =>
    if json = utf8Bytes noteFrame then .ok [utf8Bytes "\"EVENT\"".toList, utf8Bytes noteText]
    else if json = utf8Bytes badFrame then .ok [utf8Bytes "\"EVENT\"".toList]
    else .error [] }

/-- A client sends a note and an `EVENT` frame without an event; the first is accepted. -/
def noteAndBad : List Turn :=
  [.connect 0, .receive 1 (.text noteFrame), .receive 1 (.text badFrame)] ++
    (List.replicate 6 0 ++ List.replicate 4 1).map
    (fun k => .work k Relay.sorted Fanout.visitAscending fun _ => 0) ++
    [.drain 1, .drain 1]

theorem run_replies_noteAndBad : ∃ s,
    Machine.run (Server.step knownFrames oneSub) (.start (.new ⟨none, none, none⟩)) noteAndBad = some s ∧
      ((s.wire 1).map Frame.isOk == [true, false] && s.answers.length == 2) = true ∧
      Replies knownFrames noteAndBad s := by
  obtain ⟨s, hs, hp⟩ := Machine.exists_run (Server.step knownFrames oneSub)
      (.start (.new ⟨none, none, none⟩)) noteAndBad
    (fun s => (s.wire 1).map Frame.isOk == [true, false] && s.answers.length == 2) (by decide +kernel)
  exact ⟨s, hs, hp, run_replies _ oneSub _ noteAndBad s hs⟩

end Session
end Memlay
