import Memlay.FanoutRouting

/-!
# Closing a subscription that overflowed (`src/relay.rs`, `handle_socket`)

A publisher whose frame does not fit the send queue files the subscription as
overflowed and notifies the connection's task, which removes the subscription and
places a `CLOSED` frame in the same queue, if that has room.  The machine has the
steps of all parties for one connection: publishers that collect their targets, take
the read lock of the subscriptions and work through `deliver` one shared access at a
time; the sender task that drains the queue; the other tasks that place frames or wait
for a place; the connection's own task in its loop.

The queue hands out its places in turn.  A place that the sender task frees is promised
to the first sender that waits in `send().await`, if there is one, and taken when that
sender runs again; `try_send` gets a place only when one is neither taken nor promised
(`Free`).

    the client is told of every close, in every state of a run   (`Told`)
      ↔  at each `CLOSED` frame a place is free, or the connection goes down anyway
                                                                 (`run_told_iff`)
-/

namespace Memlay

/-- Capacity of a connection's send queue. -/
def connSendCap : Nat := 16384

namespace ConnState

/-! ## The parts of `record_drop` -/

def fileOverflow (c : ConnState) (subId : Str) : ConnState :=
  { c with dropped := c.dropped + 1, overflow := if subId ∈ c.overflow then c.overflow else c.overflow ++ [subId] }

/-- The window of drops: over the limit?, and the window moved. -/
def countDrop (now : Nat) (c : ConnState) : Bool × ConnState :=
  if dropWindow < now - c.window.1 then (false, { c with window := (now, 1) })
  else (decide (maxDropsPerWindow < c.window.2 + 1), { c with window := (c.window.1, c.window.2 + 1) })

def flag (c : ConnState) (overLimit : Bool) : ConnState := { c with kill := c.kill || overLimit }

theorem recordDrop_eq (now : Nat) (c : ConnState) (subId : Str) : c.recordDrop now subId =
    ((c.fileOverflow subId).countDrop now).2.flag ((c.fileOverflow subId).countDrop now).1 := by
  unfold recordDrop countDrop flag fileOverflow
  simp only
  split
  · simp only [Bool.or_false]
  · rfl

end ConnState

/-- Where a publisher is in the loop of `deliver`. -/
inductive DropStage where
  | loop
  /-- the send failed, `record_drop` begins -/
  | failed (subId : Str)
  | filed
  | counted (overLimit : Bool)
  | flagged

/-- A publisher inside `deliver`, with the subscriptions it has not visited. -/
structure Delivery where
  ev : BroadcastEvent
  subs : List Sub
  stage : DropStage

/-- Where the connection's own task is. -/
inductive Task where
  /-- waiting in the loop -/
  | idle
  /-- between the two halves of `set_sub` or `remove_sub` -/
  | indexing (next : Task)
  /-- in the overflow branch, with the ids still to close -/
  | closing (ids : List Str)
  /-- `remove_sub` has returned `removed`; the `CLOSED` frame is next -/
  | telling (id : Str) (removed : Bool) (ids : List Str)
  /-- out of the loop -/
  | leaving
  | ended
deriving DecidableEq

structure Link where
  fan : Fanout
  me : ConnId
  /-- publishers that have the connection among their targets -/
  coming : List BroadcastEvent
  /-- publishers that hold the read lock of the subscriptions -/
  inside : List Delivery
  notify : Bool
  task : Task
  /-- the frames of the senders that wait in `send().await`, first come first -/
  parked : List Frame
  /-- the frames of senders that were promised a place and have not taken it yet -/
  granted : List Frame
  /-- every frame ever placed in the queue, oldest first -/
  placed : List Frame
  /-- the subscriptions that the overflow branch removed, each with the number of
  frames placed before its own -/
  closings : List (Str × Nat)

inductive Link.Act where
  | collect (visit : ConnVisit) (ev : BroadcastEvent)
  | enter (i : Nat)
  | advance (i : Nat) (now : Nat)
  /-- the sender task takes a frame out, or ends -/
  | recv
  | hangUp
  /-- any other frame that finds a free place: stored events, `EOSE`, `OK`, `NOTICE` -/
  | place (frame : Frame)
  /-- one that finds none, sent with `send().await` -/
  | park (frame : Frame)
  /-- a sender takes the place it was promised -/
  | resume (i : Nat)
  /-- the task of a sender is aborted, while it waits or with a place promised -/
  | giveUp (i : Nat)
  | handBack (i : Nat)
  | req (id : Str) (filters : List Filter)
  | close (id : Str)
  | reindex
  /-- the overflow branch, and its end -/
  | wake
  | remove
  | tell
  | settle
  /-- any other way out of the loop -/
  | leave
  | unregister

def tooSlowText : Str := "error: client too slow, resubscribe to resync".toList

def closedFrame (id : Str) : Frame := .message (.closed id tooSlowText)

namespace Link

def conn (s : Link) : ConnState := s.fan.state s.me

def setConn (s : Link) (c : ConnState) : Link := { s with fan := s.fan.modify s.me fun _ => c }

/-- Some place of the queue is neither taken nor promised. -/
def Free (s : Link) : Prop := s.conn.queue.length + s.granted.length < s.conn.capacity

instance (s : Link) : Decidable s.Free := inferInstanceAs (Decidable (_ < _))

/-- `try_send`: the frame takes a free place. -/
def offer (s : Link) (frame : Frame) : Option Link :=
  if s.Free then (s.conn.trySend frame).map fun c => { s.setConn c with placed := s.placed ++ [frame] } else none

/-- A freed place is promised to the first that waits. -/
def release (s : Link) : Link :=
  match s.parked with
  | [] => s
  | frame :: parked => { s with parked := parked, granted := s.granted ++ [frame] }

def setDelivery (s : Link) (i : Nat) (d : Delivery) : Link := { s with inside := s.inside.set i d }

/-- The next shared access of the publisher at `i`. -/
def access (s : Link) (i : Nat) (now : Nat) (d : Delivery) : Link :=
  match d.stage with
  | .loop =>
    match d.subs with
    | [] => { s with inside := s.inside.eraseIdx i }
    | sub :: subs =>
      if sub.matches d.ev.event then
        match s.offer (.event sub.id d.ev.json) with
        | some s => (s.setConn { s.conn with sent := s.conn.sent + 1 }).setDelivery i ⟨d.ev, subs, .loop⟩
        | none => s.setDelivery i ⟨d.ev, subs, .failed sub.id⟩
      else s.setDelivery i ⟨d.ev, subs, .loop⟩
  | .failed subId => (s.setConn (s.conn.fileOverflow subId)).setDelivery i ⟨d.ev, d.subs, .filed⟩
  | .filed =>
    let (overLimit, c) := s.conn.countDrop now
    (s.setConn c).setDelivery i ⟨d.ev, d.subs, .counted overLimit⟩
  | .counted overLimit => (s.setConn (s.conn.flag overLimit)).setDelivery i ⟨d.ev, d.subs, .flagged⟩
  | .flagged => { s with notify := true }.setDelivery i ⟨d.ev, d.subs, .loop⟩

/-- The subscriptions are written under a lock that excludes the publishers. -/
def write (s : Link) (t : Link) : Option Link := if s.inside.isEmpty then some t else none

def step (s : Link) : Act → Option Link
  | .collect visit ev =>
    if s.me ∈ s.fan.targets visit ev.event.kind then some { s with coming := s.coming ++ [ev] } else none
  | .enter i =>
    (s.coming[i]?).map fun ev =>
      { s with coming := s.coming.eraseIdx i, inside := s.inside ++ [⟨ev, s.conn.subs, .loop⟩] }
  | .advance i now => (s.inside[i]?).map (s.access i now)
  | .recv =>
    if s.conn.closed then none
    else
      match s.conn.queue with
      | [] => none
      | _ :: queue => some (s.setConn { s.conn with queue := queue }).release
  | .hangUp => some { s.setConn { s.conn with closed := true } with parked := [] }
  | .place frame => s.offer frame
  | .park frame => if s.conn.closed ∨ s.Free then none else some { s with parked := s.parked ++ [frame] }
  | .resume i =>
    match s.granted[i]? with
    | some frame =>
      let s := { s with granted := s.granted.eraseIdx i }
      -- the frame is lost if the receiver is gone
      some ((s.offer frame).getD s)
    | none => none
  | .giveUp i => if i < s.parked.length then some { s with parked := s.parked.eraseIdx i } else none
  | .handBack i => if i < s.granted.length then some { s with granted := s.granted.eraseIdx i }.release else none
  | .req id filters =>
    if s.task = .idle then s.write { s with fan := s.fan.writeSub s.me id filters, task := .indexing .idle }
        else none
  | .close id =>
    if s.task = .idle then
      let (removed, fan) := s.fan.eraseSub s.me id
      s.write { s with fan := fan, task := if removed then .indexing .idle else .idle }
    else none
  | .reindex =>
    match s.task with
    | .indexing next => some { s with fan := s.fan.reindex s.me, task := next }
    | _ => none
  | .wake =>
    if s.task = .idle ∧ s.notify then
      let (ids, c) := s.conn.takeOverflowed
      some { s.setConn c with notify := false, task := .closing ids }
    else none
  | .remove =>
    match s.task with
    | .closing (id :: ids) =>
      let (removed, fan) := s.fan.eraseSub s.me id
      s.write { s with
        fan := fan
        task := if removed then .indexing (.telling id true ids) else .telling id false ids }
    | _ => none
  | .tell =>
    match s.task with
    | .telling id removed ids =>
      some { (s.offer (closedFrame id)).getD s with
        task := .closing ids, closings := if removed then s.closings ++ [(id, s.placed.length)] else s.closings }
    | _ => none
  | .settle =>
    match s.task with
    | .closing [] => some { s with task := if s.conn.kill then .leaving else .idle }
    | _ => none
  | .leave => if s.task = .idle then some { s with task := .leaving } else none
  | .unregister => if s.task = .leaving then some { s with fan := s.fan.unregister s.me, task := .ended } else none

/-- A connection that has just registered. -/
def start (fan : Fanout) (now capacity : Nat) : Link where
  fan := (fan.register now capacity).2
  me := (fan.register now capacity).1
  coming := []
  inside := []
  notify := false
  task := .idle
  parked := []
  granted := []
  placed := []
  closings := []

/-- The connection is being torn down: the peer is to be disconnected, the receiver
is gone, or the task has left its loop. -/
def Down (s : Link) : Prop := s.conn.kill = true ∨ s.conn.closed = true ∨ s.task = .leaving ∨ s.task = .ended

/-- Each subscription that the overflow branch removed has its `CLOSED` frame placed
in the queue, unless the connection is being torn down. -/
def Told (s : Link) : Prop := ∀ p ∈ s.closings, s.placed[p.2]? = some (closedFrame p.1) ∨ s.Down

/-- A `CLOSED` frame finds a free place. -/
def Room (s : Link) : Act → Prop
  | .tell => ∀ id ids, s.task = .telling id true ids → s.Free ∨ s.Down
  | _ => True

/-! ## What a step leaves -/

@[simp] theorem conn_setConn (s : Link) (c : ConnState) : (s.setConn c).conn = c := by
  show (s.fan.modify s.me fun _ => c).state s.me = c
  rw [Fanout.state_modify, if_pos rfl]

/-- Frames are added and never taken back, and nothing that tears the connection down
is undone. -/
structure Grows (s t : Link) : Prop where
  placed : s.placed <+: t.placed
  kill : s.conn.kill = true → t.conn.kill = true
  closed : s.conn.closed = true → t.conn.closed = true
  left : s.task = .leaving ∨ s.task = .ended → t.task = .leaving ∨ t.task = .ended

section
variable {s t : Link}

theorem Grows.down (h : Grows s t) (hd : s.Down) : t.Down := by
  rcases hd with hk | hc | hl
  · exact Or.inl (h.kill hk)
  · exact Or.inr (Or.inl (h.closed hc))
  · exact Or.inr (Or.inr (h.left hl))

/-- What was told stays told. -/
theorem Grows.told_one (h : Grows s t) {p : Str × Nat} (hp : s.placed[p.2]? = some (closedFrame p.1) ∨ s.Down) :
    t.placed[p.2]? = some (closedFrame p.1) ∨ t.Down := by
  rcases hp with hframe | hd
  · refine Or.inl ?_
    obtain ⟨more, hmore⟩ := h.placed
    obtain ⟨hlt, -⟩ := List.getElem?_eq_some_iff.1 hframe
    rw [← hmore, List.getElem?_append_left hlt]
    exact hframe
  · exact Or.inr (h.down hd)

theorem Grows.told (h : Grows s t) (hc : t.closings = s.closings) (hI : s.Told) : t.Told := by
  intro p hp
  rw [hc] at hp
  exact h.told_one (hI p hp)

theorem trySend_eq_some {c c' : ConnState} {frame : Frame} (h : c.trySend frame = some c') :
    c.closed = false ∧ c.queue.length < c.capacity ∧ c' = { c with queue := c.queue ++ [frame] } := by
  unfold ConnState.trySend at h
  split at h
  · rename_i hroom
    cases h
    exact ⟨hroom.1, hroom.2, rfl⟩
  · cases h

theorem offer_eq_some {frame : Frame} (h : s.offer frame = some t) : s.conn.closed = false ∧ s.Free ∧
    t = { s.setConn { s.conn with queue := s.conn.queue ++ [frame] } with placed := s.placed ++ [frame] } := by
  unfold offer at h
  split at h
  · rename_i hfree
    obtain ⟨c, hsend, rfl⟩ := Option.map_eq_some_iff.1 h
    obtain ⟨hopen, -, rfl⟩ := trySend_eq_some hsend
    exact ⟨hopen, hfree, rfl⟩
  · cases h

/-- A free place is taken, if the receiver is there. -/
theorem offer_of_free (frame : Frame) (hfree : s.Free) (hopen : s.conn.closed = false) : s.offer frame =
    some { s.setConn { s.conn with queue := s.conn.queue ++ [frame] } with placed := s.placed ++ [frame] } := by
  have hroom : s.conn.queue.length < s.conn.capacity := by
    unfold Free at hfree
    omega
  unfold offer ConnState.trySend
  rw [if_pos hfree, if_pos ⟨hopen, hroom⟩]
  rfl

theorem offer_of_not_free (frame : Frame) (hfree : ¬ s.Free) : s.offer frame = none := if_neg hfree

/-- With no place promised it is `try_send` on the queue alone. -/
theorem offer_of_unpromised (hg : s.granted = []) (frame : Frame) : s.offer frame =
    (s.conn.trySend frame).map fun c => { s.setConn c with placed := s.placed ++ [frame] } := by
  by_cases hfree : s.Free
  · exact if_pos hfree
  · rw [offer_of_not_free frame hfree]
    unfold Free at hfree
    rw [hg, List.length_nil, Nat.add_zero] at hfree
    unfold ConnState.trySend
    rw [if_neg fun hand => hfree hand.2]
    rfl

theorem grows_offer {frame : Frame} (h : s.offer frame = some t) : Grows s t ∧ t.closings = s.closings := by
  obtain ⟨-, -, rfl⟩ := offer_eq_some h
  refine ⟨⟨⟨[frame], rfl⟩, fun hk => ?_, fun hc => ?_, fun hl => hl⟩, rfl⟩
  · exact (congrArg ConnState.kill (conn_setConn s _)).trans hk
  · exact (congrArg ConnState.closed (conn_setConn s _)).trans hc

/-- The connection's own state is replaced by one with the same flags, or more. -/
theorem grows_setConn (c : ConnState) (hk : s.conn.kill = true → c.kill = true)
    (hc : s.conn.closed = true → c.closed = true) : Grows s (s.setConn c) where
  placed := List.prefix_refl _
  kill := fun h => by
    rw [conn_setConn]
    exact hk h
  closed := fun h => by
    rw [conn_setConn]
    exact hc h
  left := fun h => h

/-- The registry and the connection's task: what the step does to the flags is what the
registry does to them. -/
theorem Grows.rest {u : Link} (h : Grows s t) (hk : u.conn.kill = t.conn.kill) (hc : u.conn.closed = t.conn.closed)
    (hp : u.placed = t.placed) (hl : s.task = .leaving ∨ s.task = .ended → u.task = .leaving ∨ u.task = .ended) :
    Grows s u where
  placed := by
    rw [hp]
    exact h.placed
  kill := by
    rw [hk]
    exact h.kill
  closed := by
    rw [hc]
    exact h.closed
  left := hl

theorem Grows.refl (s : Link) : Grows s s := ⟨List.prefix_refl _, id, id, id⟩

theorem Grows.trans {u : Link} (h : Grows s t) (h' : Grows t u) : Grows s u :=
  ⟨h.placed.trans h'.placed, h'.kill ∘ h.kill, h'.closed ∘ h.closed, h'.left ∘ h.left⟩

theorem grows_release (s : Link) : Grows s s.release ∧ s.release.closings = s.closings := by
  unfold release
  split
  · exact ⟨Grows.refl s, rfl⟩
  · exact ⟨(Grows.refl s).rest rfl rfl rfl id, rfl⟩

theorem countDrop_flags (now : Nat) (c : ConnState) :
    (c.countDrop now).2.kill = c.kill ∧ (c.countDrop now).2.closed = c.closed := by
  unfold ConnState.countDrop
  split
  · exact ⟨rfl, rfl⟩
  · exact ⟨rfl, rfl⟩

theorem state_reindex_self (fan : Fanout) (c : ConnId) :
    (fan.reindex c).state c = { fan.state c with kindKey := kindKeyOf (fan.state c).subs } := by
  rw [Fanout.state_reindex, if_pos rfl]

theorem writeSub_flags (fan : Fanout) (c : ConnId) (id : Str) (filters : List Filter) :
    ((fan.writeSub c id filters).state c).kill = (fan.state c).kill ∧
      ((fan.writeSub c id filters).state c).closed = (fan.state c).closed :=
  ⟨Fanout.state_modify_congr fan c c _ (g := ConnState.kill) rfl,
    Fanout.state_modify_congr fan c c _ (g := ConnState.closed) rfl⟩

theorem eraseSub_flags (fan : Fanout) (c : ConnId) (id : Str) :
    ((fan.eraseSub c id).2.state c).kill = (fan.state c).kill ∧
      ((fan.eraseSub c id).2.state c).closed = (fan.state c).closed := by
  simp only [Fanout.eraseSub]
  exact ⟨Fanout.state_modify_congr fan c c _ (g := ConnState.kill) rfl,
    Fanout.state_modify_congr fan c c _ (g := ConnState.closed) rfl⟩

theorem reindex_flags (fan : Fanout) (c : ConnId) :
    ((fan.reindex c).state c).kill = (fan.state c).kill ∧
    ((fan.reindex c).state c).closed = (fan.state c).closed := by
  rw [state_reindex_self]
  exact ⟨rfl, rfl⟩

theorem unregister_flags (fan : Fanout) (c : ConnId) :
    ((fan.unregister c).state c).kill = (fan.state c).kill ∧
      ((fan.unregister c).state c).closed = (fan.state c).closed := by
  rw [Fanout.state_unregister, if_pos rfl]
  exact ⟨rfl, rfl⟩

theorem grows_access (s : Link) (i now : Nat) (d : Delivery) :
    Grows s (s.access i now d) ∧ (s.access i now d).closings = s.closings := by
  unfold access
  split
  · split
    · exact ⟨(Grows.refl s).rest rfl rfl rfl id, rfl⟩
    · split
      · split
        · rename_i s' hoffer
          obtain ⟨hg, hc⟩ := grows_offer hoffer
          exact ⟨(hg.trans (grows_setConn { s'.conn with sent := s'.conn.sent + 1 } id id)).rest rfl rfl rfl
              hg.left, hc⟩
        · exact ⟨(Grows.refl s).rest rfl rfl rfl id, rfl⟩
      · exact ⟨(Grows.refl s).rest rfl rfl rfl id, rfl⟩
  · rename_i subId _
    exact ⟨(grows_setConn (s.conn.fileOverflow subId) id id).rest rfl rfl rfl id, rfl⟩
  · obtain ⟨hk, hc⟩ := countDrop_flags now s.conn
    exact ⟨(grows_setConn _ hk.trans hc.trans).rest rfl rfl rfl id, rfl⟩
  · rename_i overLimit _
    have hflag : s.conn.kill = true → (s.conn.flag overLimit).kill = true := by
      intro hk
      show (s.conn.kill || overLimit) = true
      rw [hk, Bool.true_or]
    exact ⟨(grows_setConn _ hflag id).rest rfl rfl rfl id, rfl⟩
  · exact ⟨(Grows.refl s).rest rfl rfl rfl id, rfl⟩

theorem write_eq_some {u : Link} (h : s.write u = some t) : u = t := by
  unfold write at h
  split at h
  · exact Option.some.inj h
  · cases h

/-- A step of a task that has not left the loop. -/
theorem not_left {task : Task} (h : s.task = task) (hl : task ≠ .leaving) (he : task ≠ .ended) {p : Prop} :
    s.task = .leaving ∨ s.task = .ended → p := by
  rw [h]
  rintro (h' | h')
  · exact absurd h' hl
  · exact absurd h' he

/-- The step lemma: every step but a `CLOSED` frame keeps the list of closings. -/
theorem step_grows {a : Act} (h : s.step a = some t) : Grows s t ∧ (a ≠ .tell → t.closings = s.closings) := by
  cases a with
  | collect visit ev =>
    simp only [step] at h
    split at h
    · cases h
      exact ⟨(Grows.refl s).rest rfl rfl rfl id, fun _ => rfl⟩
    · cases h
  | enter i =>
    obtain ⟨ev, -, rfl⟩ := Option.map_eq_some_iff.1 h
    exact ⟨(Grows.refl s).rest rfl rfl rfl id, fun _ => rfl⟩
  | advance i now =>
    obtain ⟨d, -, rfl⟩ := Option.map_eq_some_iff.1 h
    obtain ⟨hg, hc⟩ := grows_access s i now d
    exact ⟨hg, fun _ => hc⟩
  | recv =>
    simp only [step] at h
    split at h
    · cases h
    · split at h
      · cases h
      · rename_i queue _
        cases h
        obtain ⟨hg, hc⟩ := grows_release (s.setConn { s.conn with queue := queue })
        exact ⟨(grows_setConn { s.conn with queue := queue } id id).trans hg, fun _ => hc⟩
  | hangUp =>
    cases h
    exact ⟨(grows_setConn { s.conn with closed := true } id fun _ => rfl).rest rfl rfl rfl id, fun _ => rfl⟩
  | place frame =>
    obtain ⟨hg, hc⟩ := grows_offer h
    exact ⟨hg, fun _ => hc⟩
  | park frame =>
    simp only [step] at h
    split at h
    · cases h
    · cases h
      exact ⟨(Grows.refl s).rest rfl rfl rfl id, fun _ => rfl⟩
  | resume i =>
    simp only [step] at h
    split at h
    · rename_i frame _
      cases h
      have hless : Grows s { s with granted := s.granted.eraseIdx i } := (Grows.refl s).rest rfl rfl rfl id
      cases hoffer : ({ s with granted := s.granted.eraseIdx i } : Link).offer frame with
      | none => exact ⟨hless, fun _ => rfl⟩
      | some u => exact ⟨hless.trans (grows_offer hoffer).1, fun _ => (grows_offer hoffer).2⟩
    · cases h
  | giveUp i =>
    simp only [step] at h
    split at h
    · cases h
      exact ⟨(Grows.refl s).rest rfl rfl rfl id, fun _ => rfl⟩
    · cases h
  | handBack i =>
    simp only [step] at h
    split at h
    · cases h
      have hless : Grows s { s with granted := s.granted.eraseIdx i } := (Grows.refl s).rest rfl rfl rfl id
      obtain ⟨hg, hc⟩ := grows_release { s with granted := s.granted.eraseIdx i }
      exact ⟨hless.trans hg, fun _ => hc⟩
    · cases h
  | req id filters =>
    simp only [step] at h
    split at h
    · rename_i hidle
      cases write_eq_some h
      obtain ⟨hk, hc⟩ := writeSub_flags s.fan s.me id filters
      exact ⟨(Grows.refl s).rest hk hc rfl (not_left hidle nofun nofun), fun _ => rfl⟩
    · cases h
  | close id =>
    simp only [step] at h
    split at h
    · rename_i hidle
      cases write_eq_some h
      obtain ⟨hk, hc⟩ := eraseSub_flags s.fan s.me id
      exact ⟨(Grows.refl s).rest hk hc rfl (not_left hidle nofun nofun), fun _ => rfl⟩
    · cases h
  | reindex =>
    simp only [step] at h
    split at h
    · rename_i next hidx
      cases h
      obtain ⟨hk, hc⟩ := reindex_flags s.fan s.me
      exact ⟨(Grows.refl s).rest hk hc rfl (not_left hidx nofun nofun), fun _ => rfl⟩
    · cases h
  | wake =>
    simp only [step] at h
    split at h
    · rename_i hidle
      cases h
      exact ⟨(grows_setConn s.conn.takeOverflowed.2 id id).rest rfl rfl rfl (not_left hidle.1 nofun nofun),
          fun _ => rfl⟩
    · cases h
  | remove =>
    simp only [step] at h
    split at h
    · rename_i id ids hclosing
      cases write_eq_some h
      obtain ⟨hk, hc⟩ := eraseSub_flags s.fan s.me id
      exact ⟨(Grows.refl s).rest hk hc rfl (not_left hclosing nofun nofun), fun _ => rfl⟩
    · cases h
  | tell =>
    simp only [step] at h
    split at h
    · rename_i id removed ids htelling
      cases h
      refine ⟨?_, fun hne => absurd rfl hne⟩
      cases hoffer : s.offer (closedFrame id) with
      | none => exact (Grows.refl s).rest rfl rfl rfl (not_left htelling nofun nofun)
      | some u => exact (grows_offer hoffer).1.rest rfl rfl rfl (not_left htelling nofun nofun)
    · cases h
  | settle =>
    simp only [step] at h
    split at h
    · rename_i hclosing
      cases h
      exact ⟨(Grows.refl s).rest rfl rfl rfl (not_left hclosing nofun nofun), fun _ => rfl⟩
    · cases h
  | leave =>
    simp only [step] at h
    split at h
    · cases h
      exact ⟨(Grows.refl s).rest rfl rfl rfl fun _ => Or.inl rfl, fun _ => rfl⟩
    · cases h
  | unregister =>
    simp only [step] at h
    split at h
    · cases h
      obtain ⟨hk, hc⟩ := unregister_flags s.fan s.me
      exact ⟨(Grows.refl s).rest hk hc rfl fun _ => Or.inr rfl, fun _ => rfl⟩
    · cases h

/-- After a `CLOSED` frame everything closed so far was told, exactly when the frame
found a free place or the connection goes down. -/
theorem told_tell_iff (h : s.step .tell = some t) (hI : s.Told) : t.Told ↔ s.Room .tell := by
  have hg := (step_grows h).1
  simp only [step] at h
  split at h
  · rename_i id removed ids htelling
    cases removed with
    | false =>
      -- nothing was removed
      have hc : t.closings = s.closings := by
        cases h
        rfl
      refine iff_of_true (hg.told hc hI) fun id' ids' heq => ?_
      rw [htelling] at heq
      cases heq
    | true =>
      have hclosings : t.closings = s.closings ++ [(id, s.placed.length)] := by
        cases h
        rfl
      by_cases hdown : s.Down
      · exact iff_of_true (fun p _ => Or.inr (hg.down hdown)) fun _ _ _ => Or.inr hdown
      have hopen : s.conn.closed = false := eq_false_of_ne_true fun hc => hdown (Or.inr (Or.inl hc))
      by_cases hfree : s.Free
      · refine iff_of_true (fun p hp => ?_) fun _ _ _ => Or.inl hfree
        have hplaced : t.placed = s.placed ++ [closedFrame id] := by
          rw [offer_of_free (closedFrame id) hfree hopen] at h
          cases h
          rfl
        rw [hclosings] at hp
        rcases List.mem_append.1 hp with hp | hp
        · exact hg.told_one (hI p hp)
        · rw [List.mem_singleton.1 hp, hplaced]
          exact Or.inl List.getElem?_concat_length
      · refine iff_of_false (fun htold => ?_) fun hr => ?_
        · rw [offer_of_not_free (closedFrame id) hfree] at h
          cases h
          rcases htold (id, s.placed.length) (List.mem_append_right _ (List.mem_singleton.2 rfl)) with hframe | hd
          · have hlast : s.placed[s.placed.length]? = some (closedFrame id) := hframe
            simp at hlast
          · rcases hd with hk | hc | hl | hl
            · exact hdown (Or.inl hk)
            · exact hdown (Or.inr (Or.inl hc))
            · cases hl
            · cases hl
        · exact (hr id ids htelling).elim hfree hdown
  · cases h

end

theorem room_of_ne {s : Link} {a : Act} (h : a ≠ .tell) : s.Room a := by
  cases a with
  | tell => exact absurd rfl h
  | _ => trivial

/-! ## The places of the queue -/

/-- What the registry never touches of a connection. -/
def channel (conn : ConnState) : List Frame × Nat × Bool := (conn.queue, conn.capacity, conn.closed)

/-- No more places are taken and promised than there are, nobody waits while one is free,
and nobody waits for a receiver that is gone. -/
structure Fair (s : Link) : Prop where
  fits : s.conn.queue.length + s.granted.length ≤ s.conn.capacity
  waits : s.parked ≠ [] → ¬ s.Free
  gone : s.conn.closed = true → s.parked = []

section
variable {s t : Link}

theorem fair_start (fan : Fanout) (now capacity : Nat) : (start fan now capacity).Fair := by
  have hconn : (start fan now capacity).conn = .new now capacity := by
    show (fan.register now capacity).2.state _ = _
    rw [Fanout.state_register]
    exact if_pos rfl
  refine ⟨?_, fun h => absurd rfl h, fun _ => rfl⟩
  rw [hconn]
  exact Nat.zero_le _

theorem Fair.congr (h : s.Fair) (hq : t.conn.queue = s.conn.queue) (hcap : t.conn.capacity = s.conn.capacity)
    (hc : t.conn.closed = s.conn.closed) (hp : t.parked = s.parked) (hg : t.granted = s.granted) : t.Fair := by
  refine ⟨?_, fun hne hfree => ?_, fun hcl => ?_⟩
  · rw [hq, hg, hcap]
    exact h.fits
  · rw [hp] at hne
    unfold Free at hfree
    rw [hq, hg, hcap] at hfree
    exact h.waits hne hfree
  · rw [hp]
    exact h.gone (hc.symm.trans hcl)

/-- The registry's part of a connection does not touch its channel. -/
theorem Fair.registry (h : s.Fair) {fan : Fanout} {u : Link} (hu : u.conn = fan.state s.me)
    (hsame : channel (fan.state s.me) = channel s.conn) (hp : u.parked = s.parked) (hg : u.granted = s.granted) :
    u.Fair := by
  obtain ⟨hq, hrest⟩ := Prod.mk.inj hsame
  obtain ⟨hcap, hc⟩ := Prod.mk.inj hrest
  exact h.congr (by rw [hu]; exact hq) (by rw [hu]; exact hcap) (by rw [hu]; exact hc) hp hg

theorem Fair.writeSub (h : s.Fair) (id : Str) (filters : List Filter) (task : Task) :
    Fair { s with fan := s.fan.writeSub s.me id filters, task := task } :=
  h.registry rfl (Fanout.state_modify_congr s.fan s.me s.me
    (fun conn => { conn with subs := ConnState.putSub id filters conn.subs }) (g := channel) rfl) rfl rfl

theorem Fair.eraseSub (h : s.Fair) (id : Str) (task : Task) :
    Fair { s with fan := (s.fan.eraseSub s.me id).2, task := task } :=
  h.registry rfl (Fanout.state_modify_congr s.fan s.me s.me
    (fun conn => { conn with subs := ConnState.dropSub id (s.fan.state s.me).subs }) (g := channel) rfl) rfl rfl

theorem Fair.setConn (h : s.Fair) {c : ConnState} (hq : c.queue = s.conn.queue)
    (hcap : c.capacity = s.conn.capacity)
    (hc : c.closed = s.conn.closed) : (s.setConn c).Fair :=
  h.congr (by rw [conn_setConn, hq]) (by rw [conn_setConn, hcap]) (by rw [conn_setConn, hc]) rfl rfl

theorem offer_parts {frame : Frame} (hs : s.offer frame = some t) :
    t.conn = { s.conn with queue := s.conn.queue ++ [frame] } ∧ t.parked = s.parked ∧ t.granted = s.granted := by
  obtain ⟨-, -, rfl⟩ := offer_eq_some hs
  exact ⟨conn_setConn s _, rfl, rfl⟩

theorem Fair.offer (h : s.Fair) {frame : Frame} (hs : s.offer frame = some t) : t.Fair := by
  obtain ⟨-, hfree, -⟩ := offer_eq_some hs
  obtain ⟨hconn, hp, hg⟩ := offer_parts hs
  have hnobody : t.parked = [] := by
    rw [hp]
    by_contra hne
    exact h.waits hne hfree
  refine ⟨?_, fun hne => absurd hnobody hne, fun _ => hnobody⟩
  rw [hconn, hg]
  unfold Free at hfree
  show (s.conn.queue ++ [frame]).length + s.granted.length ≤ s.conn.capacity
  rw [List.length_append, List.length_singleton]
  omega

/-- With one place just freed. -/
theorem fair_release (hfits : s.conn.queue.length + s.granted.length + 1 ≤ s.conn.capacity)
    (hwaits : s.parked ≠ [] → s.conn.capacity ≤ s.conn.queue.length + s.granted.length + 1)
    (hgone : s.conn.closed = true → s.parked = []) : s.release.Fair := by
  unfold release
  split
  · rename_i hnil
    exact ⟨by omega, fun hne => absurd hnil hne, fun _ => hnil⟩
  · rename_i frame parked hparked
    have hfull := hwaits (by rw [hparked]; exact List.cons_ne_nil _ _)
    refine ⟨?_, fun _ hfree => ?_, fun hc => ?_⟩
    · show s.conn.queue.length + (s.granted ++ [frame]).length ≤ s.conn.capacity
      rw [List.length_append, List.length_singleton]
      omega
    · have hfree' : s.conn.queue.length + (s.granted ++ [frame]).length < s.conn.capacity := hfree
      rw [List.length_append, List.length_singleton] at hfree'
      omega
    · have hnil := hgone hc
      rw [hparked] at hnil
      cases hnil

/-- A sender that was promised a place finds it, unless the receiver is gone. -/
theorem Fair.resume (h : s.Fair) {i : Nat} {frame : Frame} (hi : s.granted[i]? = some frame)
    (hopen : s.conn.closed = false) :
    ∃ u, ({ s with granted := s.granted.eraseIdx i } : Link).offer frame = some u := by
  obtain ⟨hlt, -⟩ := List.getElem?_eq_some_iff.1 hi
  have hfits := h.fits
  refine ⟨_, offer_of_free frame ?_ hopen⟩
  show s.conn.queue.length + (s.granted.eraseIdx i).length < s.conn.capacity
  rw [List.length_eraseIdx_of_lt hlt]
  omega

/-- The frame goes into the promised place, or is lost with the receiver. -/
theorem Fair.takeUp (h : s.Fair) {i : Nat} {frame : Frame} (hi : s.granted[i]? = some frame) :
    ((({ s with granted := s.granted.eraseIdx i } : Link).offer frame).getD
      { s with granted := s.granted.eraseIdx i }).Fair := by
  obtain ⟨hlt, -⟩ := List.getElem?_eq_some_iff.1 hi
  have hfits := h.fits
  have hlen := List.length_eraseIdx_of_lt hlt
  cases hc : s.conn.closed with
  | true =>
    have hnone : ({ s with granted := s.granted.eraseIdx i } : Link).offer frame = none := by
      cases hoffer : ({ s with granted := s.granted.eraseIdx i } : Link).offer frame with
      | none => rfl
      | some u => exact absurd (hc.symm.trans (offer_eq_some hoffer).1) (by decide)
    rw [hnone]
    refine ⟨?_, fun hne => absurd (h.gone hc) hne, fun _ => h.gone hc⟩
    show s.conn.queue.length + (s.granted.eraseIdx i).length ≤ s.conn.capacity
    omega
  | false =>
    obtain ⟨u, hu⟩ := h.resume hi hc
    rw [hu]
    have hsum : (s.conn.queue ++ [frame]).length + (s.granted.eraseIdx i).length =
        s.conn.queue.length + s.granted.length := by
      rw [List.length_append, List.length_singleton]
      omega
    obtain ⟨hconn, hp, hg⟩ := offer_parts hu
    show u.Fair
    refine ⟨?_, fun hne hfree => h.waits (by rwa [hp] at hne) ?_, fun hcl => ?_⟩
    · rw [hconn, hg]
      exact hsum.le.trans hfits
    · unfold Free at hfree
      rw [hconn, hg] at hfree
      exact hsum.symm.le.trans_lt hfree
    · rw [hconn] at hcl
      exact absurd (hc.symm.trans hcl) (by decide)

/-- The place of the frame that is taken out goes to the first that waits. -/
theorem Fair.recv (h : s.Fair) {frame : Frame} {queue : List Frame} (hopen : s.conn.closed = false)
    (hq : s.conn.queue = frame :: queue) : (s.setConn { s.conn with queue := queue }).release.Fair := by
  have hfits := h.fits
  have hwaits := h.waits
  unfold Free at hwaits
  rw [hq, List.length_cons] at hfits hwaits
  have hconn : (s.setConn { s.conn with queue := queue }).conn = { s.conn with queue := queue } :=
    conn_setConn s _
  refine fair_release ?_ (fun hne => ?_) fun hc => ?_
  · rw [hconn]
    show queue.length + s.granted.length + 1 ≤ s.conn.capacity
    omega
  · have := hwaits hne
    rw [hconn]
    show s.conn.capacity ≤ queue.length + s.granted.length + 1
    omega
  · rw [hconn] at hc
    exact absurd (hopen.symm.trans hc) (by decide)

/-- So does a promised place that is handed back. -/
theorem Fair.handBack (h : s.Fair) {i : Nat} (hlt : i < s.granted.length) :
    ({ s with granted := s.granted.eraseIdx i } : Link).release.Fair := by
  have hlen := List.length_eraseIdx_of_lt hlt
  have hfits := h.fits
  have hwaits := h.waits
  unfold Free at hwaits
  refine fair_release ?_ (fun hne => ?_) h.gone
  · show s.conn.queue.length + (s.granted.eraseIdx i).length + 1 ≤ s.conn.capacity
    omega
  · have := hwaits hne
    show s.conn.capacity ≤ s.conn.queue.length + (s.granted.eraseIdx i).length + 1
    omega

/-- With the receiver gone nobody waits. -/
theorem Fair.hangUp (h : s.Fair) :
    Fair { s.setConn { s.conn with closed := true } with parked := [] } := by
  have hconn : ({ s.setConn { s.conn with closed := true } with parked := [] } : Link).conn =
      { s.conn with closed := true } := conn_setConn s _
  refine ⟨?_, fun hne => absurd rfl hne, fun _ => rfl⟩
  rw [hconn]
  exact h.fits

/-- No access of a publisher promises or frees a place. -/
theorem Fair.access (h : s.Fair) (i now : Nat) (d : Delivery) : (s.access i now d).Fair := by
  unfold Link.access
  split
  · split
    · exact h.congr rfl rfl rfl rfl rfl
    · split
      · split
        · rename_i s' hoffer
          exact ((h.offer hoffer).setConn (c := { s'.conn with sent := s'.conn.sent + 1 }) rfl rfl rfl).congr
            rfl rfl rfl rfl rfl
        · exact h.congr rfl rfl rfl rfl rfl
      · exact h.congr rfl rfl rfl rfl rfl
  · rename_i subId _
    exact (h.setConn (c := s.conn.fileOverflow subId) rfl rfl rfl).congr rfl rfl rfl rfl rfl
  · have hdrop : (s.conn.countDrop now).2.queue = s.conn.queue ∧
        (s.conn.countDrop now).2.capacity = s.conn.capacity ∧ (s.conn.countDrop now).2.closed = s.conn.closed := by
      unfold ConnState.countDrop
      split <;> exact ⟨rfl, rfl, rfl⟩
    exact (h.setConn hdrop.1 hdrop.2.1 hdrop.2.2).congr rfl rfl rfl rfl rfl
  · rename_i overLimit _
    exact (h.setConn (c := s.conn.flag overLimit) rfl rfl rfl).congr rfl rfl rfl rfl rfl
  · exact h.congr rfl rfl rfl rfl rfl

/-- The step lemma. -/
theorem Fair.step {a : Act} (h : s.Fair) (hs : s.step a = some t) : t.Fair := by
  cases a with
  | collect visit ev =>
    simp only [Link.step] at hs
    split at hs
    · cases hs
      exact h.congr rfl rfl rfl rfl rfl
    · cases hs
  | enter i =>
    obtain ⟨ev, -, rfl⟩ := Option.map_eq_some_iff.1 hs
    exact h.congr rfl rfl rfl rfl rfl
  | advance i now =>
    obtain ⟨d, -, rfl⟩ := Option.map_eq_some_iff.1 hs
    exact h.access i now d
  | recv =>
    simp only [Link.step] at hs
    split at hs
    · cases hs
    · rename_i hopen
      split at hs
      · cases hs
      · rename_i frame queue hq
        cases hs
        exact h.recv (eq_false_of_ne_true hopen) hq
  | hangUp =>
    cases hs
    exact h.hangUp
  | place frame => exact h.offer hs
  | park frame =>
    simp only [Link.step] at hs
    split at hs
    · cases hs
    · rename_i hno
      cases hs
      exact ⟨h.fits, fun _ hfree => hno (Or.inr hfree), fun hc => absurd (Or.inl hc) hno⟩
  | resume i =>
    simp only [Link.step] at hs
    split at hs
    · rename_i frame hi
      cases hs
      exact h.takeUp hi
    · cases hs
  | giveUp i =>
    simp only [Link.step] at hs
    split at hs
    · cases hs
      refine ⟨h.fits, fun hne => h.waits fun hnil => hne ?_, fun hc => ?_⟩
      · show s.parked.eraseIdx i = []
        rw [hnil, List.eraseIdx_nil]
      · show s.parked.eraseIdx i = []
        rw [h.gone hc, List.eraseIdx_nil]
    · cases hs
  | handBack i =>
    simp only [Link.step] at hs
    split at hs
    · rename_i hlt
      cases hs
      exact h.handBack hlt
    · cases hs
  | req id filters =>
    simp only [Link.step] at hs
    split at hs
    · cases write_eq_some hs
      exact h.writeSub id filters _
    · cases hs
  | close id =>
    simp only [Link.step] at hs
    split at hs
    · cases write_eq_some hs
      exact h.eraseSub id _
    · cases hs
  | reindex =>
    simp only [Link.step] at hs
    split at hs
    · cases hs
      refine h.registry rfl ?_ rfl rfl
      rw [state_reindex_self]
      rfl
    · cases hs
  | wake =>
    simp only [Link.step] at hs
    split at hs
    · cases hs
      exact (h.setConn (c := s.conn.takeOverflowed.2) rfl rfl rfl).congr rfl rfl rfl rfl rfl
    · cases hs
  | remove =>
    simp only [Link.step] at hs
    split at hs
    · cases write_eq_some hs
      exact h.eraseSub _ _
    · cases hs
  | tell =>
    simp only [Link.step] at hs
    split at hs
    · rename_i id removed ids _
      cases hs
      cases hoffer : s.offer (closedFrame id) with
      | none => exact h.congr rfl rfl rfl rfl rfl
      | some u => exact (h.offer hoffer).congr rfl rfl rfl rfl rfl
    · cases hs
  | settle =>
    simp only [Link.step] at hs
    split at hs
    · cases hs
      exact h.congr rfl rfl rfl rfl rfl
    · cases hs
  | leave =>
    simp only [Link.step] at hs
    split at hs
    · cases hs
      exact h.congr rfl rfl rfl rfl rfl
    · cases hs
  | unregister =>
    simp only [Link.step] at hs
    split at hs
    · cases hs
      refine h.registry rfl ?_ rfl rfl
      rw [Fanout.state_unregister, if_pos rfl]
      rfl
    · cases hs

end

/-- In every state of every run the places are handed out so. -/
theorem fair_run (fan : Fanout) (now capacity : Nat) {as : List Act} {t : Link}
    (hrun : Machine.run step (start fan now capacity) as = some t) : t.Fair :=
  Machine.run_invariant (I := Fair) (fun _ _ _ hs _ h => h.step hs) as _ t hrun
    (Machine.along_of_forall (C := fun _ _ => True) as _ fun _ _ _ => trivial) (fair_start fan now capacity)

/-! ## A publisher that nothing comes between -/

/-- The parts of a state that change when a delivery fails. -/
def view (s : Link) (c : ConnState) (inside : List Delivery) (notify : Bool) (task : Task) : Link :=
  { s.setConn c with inside := inside, notify := notify, task := task }

section
variable {s : Link} {c : ConnState} {inside : List Delivery} {notify : Bool} {task : Task}

theorem view_self (s : Link) : s.view s.conn s.inside s.notify s.task = s := by
  show { s with fan := { s.fan with state := Function.update s.fan.state s.me (s.fan.state s.me) } } = s
  rw [Function.update_eq_self]

theorem conn_view : (s.view c inside notify task).conn = c := conn_setConn s c

theorem setConn_view (c' : ConnState) :
    (s.view c inside notify task).setConn c' = s.view c' inside notify task := by
  show { s.view c inside notify task with fan := { s.fan with
    state := Function.update (Function.update s.fan.state s.me c) s.me c' } } = _
  rw [Function.update_idem]
  rfl

theorem view_view (c' : ConnState) (inside' : List Delivery) (notify' : Bool) (task' : Task) :
    (s.view c inside notify task).view c' inside' notify' task' = s.view c' inside' notify' task' := by
  show { (s.view c inside notify task).setConn c' with inside := inside', notify := notify', task := task' } = _
  rw [setConn_view]
  rfl

theorem task_view : (s.view c inside notify task).task = task := rfl

theorem me_view : (s.view c inside notify task).me = s.me := rfl

/-- The overflow branch removes a subscription that is there. -/
theorem remove_view {id : Str} {ids : List Str} (h : (ConnState.dropSub id c.subs).length ≠ c.subs.length) :
    (s.view c [] notify (.closing (id :: ids))).step .remove =
      some (s.view { c with subs := ConnState.dropSub id c.subs } [] notify
          (.indexing (.telling id true ids))) := by
  have hconn : (s.view c [] notify (.closing (id :: ids))).fan.state s.me = c := conn_view
  have hset : ({ s.view c [] notify (.closing (id :: ids)) with
      fan := (s.view c [] notify (.closing (id :: ids))).fan.modify s.me
        fun conn => { conn with subs := ConnState.dropSub id c.subs } } : Link) =
      (s.view c [] notify (.closing (id :: ids))).setConn { c with subs := ConnState.dropSub id c.subs } := by
    unfold setConn Fanout.modify
    rw [me_view, hconn]
    rfl
  rw [setConn_view] at hset
  simp only [step, task_view, me_view, Fanout.eraseSub, hconn, decide_eq_true h, if_true]
  exact congrArg (fun u : Link => some { u with task := .indexing (.telling id true ids) }) hset

theorem setDelivery_view (i : Nat) (d : Delivery) :
    (s.view c inside notify task).setDelivery i d = s.view c (inside.set i d) notify task := rfl

end

/-- The publisher at `i` takes some steps on its own. -/
def Alone (i now : Nat) (s t : Link) : Prop := ∃ n, Machine.run step s (List.replicate n (.advance i now)) = some t

section
variable {s t : Link} {i now : Nat} {d : Delivery}

theorem Alone.trans {u : Link} (h : Alone i now s t) (h' : Alone i now t u) : Alone i now s u := by
  obtain ⟨m, hm⟩ := h
  obtain ⟨n, hn⟩ := h'
  refine ⟨m + n, ?_⟩
  rw [List.replicate_add, Machine.run_append, hm, Option.bind_some, hn]

theorem run_advance (h : s.inside[i]? = some d) (now : Nat) (as : List Act) :
    Machine.run step s (.advance i now :: as) = Machine.run step (s.access i now d) as := by
  simp only [Machine.run, step, h, Option.map_some, Option.bind_some]

theorem Alone.access (h : s.inside[i]? = some d) (now : Nat) : Alone i now s (s.access i now d) :=
  ⟨1, run_advance h now []⟩

theorem getElem?_setDelivery (h : s.inside[i]? = some d) (e : Delivery) : (s.inside.set i e)[i]? = some e := by
  rw [List.getElem?_set_self]
  exact (List.getElem?_eq_some_iff.1 h).1

/-- `record_drop`, access by access. -/
theorem run_recordDrop {ev : BroadcastEvent} {subs : List Sub} {subId : Str}
    (h : s.inside[i]? = some ⟨ev, subs, .failed subId⟩) (now : Nat) (as : List Act) :
    Machine.run step s (List.replicate 4 (.advance i now) ++ as) =
      Machine.run step (s.view (s.conn.recordDrop now subId)
          (s.inside.set i ⟨ev, subs, .loop⟩) true s.task) as := by
  generalize hc1 : s.conn.fileOverflow subId = c1
  have e1 : s.access i now ⟨ev, subs, .failed subId⟩ =
      s.view c1 (s.inside.set i ⟨ev, subs, .filed⟩) s.notify s.task := by
    rw [← hc1]
    rfl
  have e2 : (s.view c1 (s.inside.set i ⟨ev, subs, .filed⟩) s.notify s.task).access i now ⟨ev, subs, .filed⟩ =
      s.view (c1.countDrop now).2 (s.inside.set i ⟨ev, subs, .counted (c1.countDrop now).1⟩) s.notify s.task := by
    simp only [access, conn_view, setConn_view, setDelivery_view, List.set_set]
  have e3 : (s.view (c1.countDrop now).2 (s.inside.set i ⟨ev, subs, .counted (c1.countDrop now).1⟩) s.notify
      s.task).access
      i now ⟨ev, subs, .counted (c1.countDrop now).1⟩ =
      s.view (s.conn.recordDrop now subId) (s.inside.set i ⟨ev, subs, .flagged⟩) s.notify s.task := by
    simp only [access, conn_view, setConn_view, setDelivery_view, List.set_set, ConnState.recordDrop_eq, hc1]
  have e4 : (s.view (s.conn.recordDrop now subId) (s.inside.set i ⟨ev, subs, .flagged⟩) s.notify s.task).access
      i now ⟨ev, subs, .flagged⟩ =
      s.view (s.conn.recordDrop now subId) (s.inside.set i ⟨ev, subs, .loop⟩) true s.task := by
    show s.view _ ((s.inside.set i _).set i _) true s.task = _
    rw [List.set_set]
  show Machine.run step s (.advance i now :: .advance i now :: .advance i now :: .advance i now :: as) = _
  rw [run_advance h, e1, run_advance (getElem?_setDelivery h _), e2, run_advance (getElem?_setDelivery h _), e3,
    run_advance (getElem?_setDelivery h _), e4]

/-- One subscription of the loop. -/
theorem alone_deliverSub {ev : BroadcastEvent} {sub : Sub} {subs : List Sub} (now : Nat) (hg : s.granted = [])
    (h : s.inside[i]? = some ⟨ev, sub :: subs, .loop⟩) :
    ∃ t, Alone i now s t ∧ t.conn = s.conn.deliverSub now ev sub ∧ t.inside = s.inside.set i ⟨ev, subs, .loop⟩ ∧
      t.granted = [] := by
  have hone := Alone.access h now
  unfold Link.access at hone
  simp only at hone
  unfold ConnState.deliverSub
  split at hone
  · rename_i hm
    rw [if_pos hm]
    cases hsend : s.conn.trySend (.event sub.id ev.json) with
    | some c =>
      have hoffer : s.offer (.event sub.id ev.json) =
          some { s.setConn c with placed := s.placed ++ [.event sub.id ev.json] } := by
        rw [offer_of_unpromised hg, hsend]
        rfl
      rw [hoffer] at hone
      refine ⟨_, hone, ?_, rfl, hg⟩
      have hconn : ({ s.setConn c with placed := s.placed ++ [.event sub.id ev.json] } : Link).conn = c :=
        conn_setConn s c
      show Link.conn (Link.setConn _ _) = _
      rw [conn_setConn, hconn]
    | none =>
      have hoffer : s.offer (.event sub.id ev.json) = none := by
        rw [offer_of_unpromised hg, hsend]
        rfl
      rw [hoffer] at hone
      have hfailed : (s.setDelivery i ⟨ev, subs, .failed sub.id⟩).inside[i]? = some ⟨ev, subs, .failed sub.id⟩ :=
        getElem?_setDelivery h _
      refine ⟨_, hone.trans ⟨4, run_recordDrop hfailed now []⟩, conn_setConn _ _, ?_, hg⟩
      exact List.set_set ..
  · rename_i hm
    rw [if_neg hm]
    exact ⟨_, hone, rfl, rfl, hg⟩

/-- On its own, and with no place promised, a publisher does what `deliver` does. -/
theorem alone_deliver {ev : BroadcastEvent} (now : Nat) (hg : s.granted = [])
    (h : s.inside[i]? = some ⟨ev, s.conn.subs, .loop⟩) :
    ∃ t, Alone i now s t ∧ t.conn = s.conn.deliver (fun _ => now) ev ∧ t.inside = s.inside.eraseIdx i := by
  unfold ConnState.deliver
  generalize s.conn.subs = subs at h ⊢
  induction subs generalizing s with
  | nil => exact ⟨_, Alone.access h now, rfl, rfl⟩
  | cons sub subs ih =>
    obtain ⟨t, hone, hconn, hin, hg'⟩ := alone_deliverSub now hg h
    obtain ⟨u, hrest, hconn', hin'⟩ := ih (s := t) hg' (by
      rw [hin]
      exact getElem?_setDelivery h _)
    refine ⟨u, hone.trans hrest, ?_, ?_⟩
    · rw [hconn', hconn]
      rfl
    · rw [hin', hin, List.eraseIdx_set_eq]

end

/-! ## Runs -/

/-- In every run: every close on overflow is told in every state of the run, exactly
when each `CLOSED` frame of the run found room in the queue, or a connection that is
going down. -/
theorem run_told_iff (fan : Fanout) (now capacity : Nat) (as : List Act) (t : Link)
    (hrun : Machine.run step (start fan now capacity) as = some t) :
    (∀ bs, bs <+: as → ∀ u, Machine.run step (start fan now capacity) bs = some u → u.Told) ↔
      Machine.Along step Room (start fan now capacity) as := by
  refine Machine.forall_prefix_iff Told (fun _ => True) as _ t ?_ hrun (fun _ _ _ _ => trivial) nofun
  intro s a s' _ hs _ _ hI
  by_cases ha : a = .tell
  · rw [ha] at hs ⊢
    exact told_tell_iff hs hI
  · obtain ⟨hg, hc⟩ := step_grows hs
    exact iff_of_true (hg.told (hc ha) hI) (room_of_ne ha)

/-! ## A run that tells nobody -/

/-- A publisher finds the queue full, and the task removes the subscription; its `CLOSED`
frame is next. -/
def overflow (visit : ConnVisit) (ev : BroadcastEvent) : List Act :=
  [.collect visit ev, .enter 0] ++ List.replicate 6 (.advance 0 0) ++ [.wake, .remove, .reindex]

section
variable {s : Link} {sub : Sub} {ev : BroadcastEvent}

/-- A publisher comes in. -/
theorem run_enter {visit : ConnVisit} (hidle : s.task = .idle) (hcoming : s.coming = []) (hinside : s.inside = [])
    (htarget : s.me ∈ s.fan.targets visit ev.event.kind) :
    Machine.run step s [.collect visit ev, .enter 0] =
      some (s.view s.conn [⟨ev, s.conn.subs, .loop⟩] s.notify .idle) := by
  have hcollect : s.step (.collect visit ev) = some { s with coming := [ev] } := by
    simp only [step, if_pos htarget, hcoming, List.nil_append]
  have hcome : ({ s with coming := [ev] } : Link).step (.enter 0) =
      some (s.view s.conn [⟨ev, s.conn.subs, .loop⟩] s.notify .idle) := by
    have hself : s.view s.conn [] s.notify .idle = s := by
      rw [← hinside, ← hidle]
      exact view_self s
    have hview : ({ s with inside := [⟨ev, s.conn.subs, .loop⟩] } : Link) =
        { s.view s.conn [] s.notify .idle with inside := [⟨ev, s.conn.subs, .loop⟩] } := by rw [hself]
    refine Eq.trans ?_ (congrArg some hview)
    show some ({ s with coming := [], inside := s.inside ++ [(⟨ev, s.conn.subs, .loop⟩ : Delivery)] } : Link) = _
    rw [hinside, ← hcoming]
    rfl
  exact (Machine.run_cons_eq_some step).2 ⟨_, hcollect, (Machine.run_cons_eq_some step).2 ⟨_, hcome, rfl⟩⟩

/-- Its frame does not fit, and the drop is recorded. -/
theorem run_miss (hm : sub.matches ev.event = true) (hfull : ¬ s.Free) :
    Machine.run step (s.view s.conn [⟨ev, [sub], .loop⟩] s.notify .idle) (List.replicate 6 (.advance 0 0)) =
      some (s.view (s.conn.recordDrop 0 sub.id) [] true .idle) := by
  have hfail : (s.view s.conn [⟨ev, [sub], .loop⟩] s.notify .idle).access 0 0 ⟨ev, [sub], .loop⟩ =
      s.view s.conn [⟨ev, [], .failed sub.id⟩] s.notify .idle := by
    have hoffer : (s.view s.conn [⟨ev, [sub], .loop⟩] s.notify .idle).offer (.event sub.id ev.json) = none := by
      refine offer_of_not_free _ fun hfree => hfull ?_
      unfold Free at hfree
      rwa [conn_view] at hfree
    simp only [access, hm, if_true, hoffer]
    rfl
  have hfailed : (s.view s.conn [⟨ev, [], .failed sub.id⟩] s.notify .idle).inside[0]? =
      some ⟨ev, [], .failed sub.id⟩ := rfl
  show Machine.run step _ (Act.advance 0 0 :: (List.replicate 4 (Act.advance 0 0) ++ [Act.advance 0 0])) = _
  rw [run_advance (d := ⟨ev, [sub], .loop⟩) rfl, hfail, run_recordDrop hfailed,
    run_advance (d := ⟨ev, [], .loop⟩) rfl, conn_view, view_view]
  rfl

/-- The task wakes up and removes the subscription. -/
theorem run_remove {c : ConnState} (hsubs : c.subs = [sub]) (hover : c.overflow = [sub.id]) :
    Machine.run step (s.view c [] true .idle) [.wake, .remove] =
      some (s.view { c with overflow := [], subs := [] } [] false (.indexing (.telling sub.id true []))) := by
  have hwake : (s.view c [] true .idle).step .wake =
      some (s.view { c with overflow := [] } [] false (.closing [sub.id])) := by
    simp only [step]
    rw [if_pos ⟨rfl, rfl⟩, conn_view, setConn_view]
    show some (s.view _ [] false (.closing c.overflow)) = _
    rw [hover]
    rfl
  have hnil : ConnState.dropSub sub.id c.subs = [] := by
    rw [hsubs]
    simp [ConnState.dropSub]
  have hlen : (ConnState.dropSub sub.id c.subs).length ≠ c.subs.length := by
    rw [hnil, hsubs]
    exact Nat.zero_ne_one
  have herase : (s.view { c with overflow := [] } [] false (.closing [sub.id])).step .remove =
      some (s.view { c with overflow := [], subs := [] } [] false (.indexing (.telling sub.id true []))) := by
    rw [remove_view (c := { c with overflow := [] }) hlen]
    show some (s.view { c with overflow := [], subs := ConnState.dropSub sub.id c.subs } _ _ _) = _
    rw [hnil]
  exact (Machine.run_cons_eq_some step).2 ⟨_, hwake, (Machine.run_cons_eq_some step).2 ⟨_, herase, rfl⟩⟩

theorem run_overflow {visit : ConnVisit} (hidle : s.task = .idle) (hcoming : s.coming = [])
    (hinside : s.inside = [])
    (hsubs : s.conn.subs = [sub]) (hempty : s.conn.overflow = []) (hm : sub.matches ev.event = true)
    (htarget : s.me ∈ s.fan.targets visit ev.event.kind) (hfull : ¬ s.Free)
    (hwindow : s.conn.window = (0, 0)) :
    ∃ t, Machine.run step s (overflow visit ev) = some t ∧ t.task = .telling sub.id true [] ∧
      t.conn.queue = s.conn.queue ∧ t.conn.capacity = s.conn.capacity ∧ t.conn.closed = s.conn.closed ∧
      t.conn.kill = s.conn.kill ∧ t.closings = s.closings ∧ t.parked = s.parked ∧ t.granted = s.granted := by
  have hdrop : s.conn.recordDrop 0 sub.id =
      { s.conn with dropped := s.conn.dropped + 1, overflow := [sub.id], window := (0, 1) } := by
    unfold ConnState.recordDrop
    simp [hempty, hwindow, dropWindow, maxDropsPerWindow]
  have henter := run_enter hidle hcoming hinside htarget
  rw [hsubs] at henter
  have hmiss := run_miss hm hfull
  rw [hdrop] at hmiss
  have hremove := @run_remove s sub
    { s.conn with dropped := s.conn.dropped + 1, overflow := [sub.id], window := (0, 1) } hsubs rfl
  generalize hu : s.view
    { s.conn with dropped := s.conn.dropped + 1, overflow := [], window := (0, 1), subs := [] }
    [] false (.indexing (.telling sub.id true [])) = u at hremove
  refine ⟨{ u with fan := u.fan.reindex u.me, task := .telling sub.id true [] }, ?_, rfl, ?_⟩
  · have hreindex : u.step .reindex =
        some { u with fan := u.fan.reindex u.me, task := .telling sub.id true [] } := by
      rw [← hu]
      rfl
    show Machine.run step s ([Act.collect visit ev, Act.enter 0] ++
      (List.replicate 6 (Act.advance 0 0) ++ ([Act.wake, Act.remove] ++ [Act.reindex]))) = _
    rw [Machine.run_append, henter, Option.bind_some, Machine.run_append, hmiss, Option.bind_some,
      Machine.run_append, hremove, Option.bind_some]
    exact (Machine.run_cons_eq_some step).2 ⟨_, hreindex, rfl⟩
  · have hlast : ({ u with fan := u.fan.reindex u.me, task := .telling sub.id true [] } : Link).conn =
        { u.conn with kindKey := kindKeyOf u.conn.subs } := state_reindex_self u.fan u.me
    rw [hlast, ← hu, conn_view]
    exact ⟨rfl, rfl, rfl, rfl, rfl, rfl, rfl⟩

end

/-- A queue with room for them takes `n` frames. -/
theorem run_fill (frame : Frame) (n : Nat) {s : Link} (hopen : s.conn.closed = false) (hg : s.granted = [])
    (hroom : s.conn.queue.length + n ≤ s.conn.capacity) :
    Machine.run step s (List.replicate n (.place frame)) =
      some { s.setConn { s.conn with queue := s.conn.queue ++ List.replicate n frame } with
        placed := s.placed ++ List.replicate n frame } := by
  induction n generalizing s with
  | zero =>
    simp only [List.replicate_zero, List.append_nil]
    exact congrArg some (view_self s).symm
  | succ n ih =>
    let s1 : Link := { s.setConn { s.conn with queue := s.conn.queue ++ [frame] } with placed := s.placed ++
        [frame] }
    have hfree : s.Free := by
      unfold Free
      rw [hg, List.length_nil]
      omega
    have hplace : s.step (.place frame) = some s1 := offer_of_free frame hfree hopen
    have hconn : s1.conn = { s.conn with queue := s.conn.queue ++ [frame] } := conn_setConn s _
    have hrest := ih (s := s1) (by rw [hconn]; exact hopen) hg (by
      rw [hconn]
      show (s.conn.queue ++ [frame]).length + n ≤ s.conn.capacity
      rw [List.length_append, List.length_singleton]
      omega)
    have hset : ∀ c, s1.setConn c = { s.setConn c with placed := s.placed ++ [frame] } := by
      intro c
      unfold setConn Fanout.modify
      show ({ s1 with fan := { s.fan with
        state := Function.update (Function.update s.fan.state s.me _) s.me c } } : Link) = _
      rw [Function.update_idem]
      rfl
    have hplaced : s1.placed = s.placed ++ [frame] := rfl
    rw [List.replicate_succ, Machine.run, hplace, Option.bind_some, hrest, hset, hconn, hplaced]
    simp only [List.append_assoc, List.singleton_append, List.replicate_succ]

/-- With no place free the senders wait. -/
theorem run_park (frames : List Frame) {s : Link} (hopen : s.conn.closed = false) (hfull : ¬ s.Free) :
    Machine.run step s (frames.map .park) = some { s with parked := s.parked ++ frames } := by
  induction frames generalizing s with
  | nil =>
    rw [List.append_nil]
    rfl
  | cons frame frames ih =>
    have hpark : s.step (.park frame) = some { s with parked := s.parked ++ [frame] } := by
      simp only [step]
      rw [if_neg (by rintro (hc | hf); exacts [Bool.false_ne_true (hopen.symm.trans hc), hfull hf])]
    refine (Machine.run_cons_eq_some step).2 ⟨_, hpark, ?_⟩
    rw [show Machine.run step _ _ = _ from ih (s := { s with parked := s.parked ++ [frame] }) hopen hfull]
    simp only [List.append_assoc, List.singleton_append]

/-- A connection that subscribes to notes. -/
def subscribed (capacity : Nat) : Link :=
  { start .new 0 capacity with fan := (start .new 0 capacity).fan.setSub 1 ['a'] [Fanout.notesFilter] }

theorem run_subscribed (capacity : Nat) (as : List Act) :
    Machine.run step (start .new 0 capacity) ([.req ['a'] [Fanout.notesFilter], .reindex] ++ as) =
      Machine.run step (subscribed capacity) as := rfl

def storedFrame : Frame := .event ['a'] (BroadcastEvent.new (note 0)).json

/-- Stored notes fill the queue, and more of them wait, before a new one is published. -/
def flood (capacity : Nat) (waiting : List Frame) : List Act :=
  [.req ['a'] [Fanout.notesFilter], .reindex] ++
    (List.replicate capacity (.place storedFrame) ++
      (waiting.map .park ++ overflow Fanout.visitAscending (.new (note 0))))

/-- The task is about to send the `CLOSED` frame, and the queue is full. -/
structure Flooded (capacity : Nat) (waiting : List Frame) (s : Link) : Prop where
  task : s.task = .telling ['a'] true []
  queue : s.conn.queue.length = capacity
  capacity : s.conn.capacity = capacity
  closed : s.conn.closed = false
  kill : s.conn.kill = false
  closings : s.closings = []
  parked : s.parked = waiting
  granted : s.granted = []

theorem run_flood (capacity : Nat) (waiting : List Frame) :
    ∃ t, Machine.run step (start .new 0 capacity) (flood capacity waiting) = some t ∧
      Flooded capacity waiting t := by
  have hconn : (subscribed capacity).conn =
      { ConnState.new 0 capacity with subs := [⟨['a'], [Fanout.notesFilter]⟩], kindKey := .some {1} } := rfl
  have hfill := run_fill storedFrame capacity (s := subscribed capacity) (by rw [hconn]; rfl) rfl (by
    rw [hconn]
    show 0 + capacity ≤ capacity
    omega)
  generalize hs : ({ (subscribed capacity).setConn _ with placed := _ } : Link) = s at hfill
  have hsconn : s.conn = { (subscribed capacity).conn with queue := List.replicate capacity storedFrame } := by
    rw [← hs]
    exact conn_setConn _ _
  rw [hconn] at hsconn
  have hfull : ¬ s.Free := by
    unfold Free
    rw [hsconn]
    simp [ConnState.new]
  have htarget : s.me ∈ s.fan.targets Fanout.visitAscending (note 0).kind := by
    rw [Fanout.mem_targets, ← hs]
    show (1 ∈ ((subscribed capacity).fan).anyKind ∨ 1 ∈ ((subscribed capacity).fan).kindSet 1) ∧
      1 ∈ (subscribed capacity).fan.conns
    exact ⟨Or.inr (Finset.mem_insert_self 1 ∅), Finset.mem_insert_self 1 ∅⟩
  have hm : Sub.matches ⟨['a'], [Fanout.notesFilter]⟩ (BroadcastEvent.new (note 0)).event = true := by decide
  have hpark := run_park waiting (s := s) (by rw [hsconn]; rfl) hfull
  have hidle : s.task = .idle := by rw [← hs]; rfl
  have hcoming : s.coming = [] := by rw [← hs]; rfl
  have hinside : s.inside = [] := by rw [← hs]; rfl
  have hclosings : s.closings = [] := by rw [← hs]; rfl
  have hparked : s.parked = [] := by rw [← hs]; rfl
  have hgranted : s.granted = [] := by rw [← hs]; rfl
  have hsubs : s.conn.subs = [⟨['a'], [Fanout.notesFilter]⟩] := by rw [hsconn]
  have hempty : s.conn.overflow = [] := by rw [hsconn]; rfl
  have hwindow : s.conn.window = (0, 0) := by rw [hsconn]; rfl
  obtain ⟨t, hrun, htask, hq, hcap, hclosed, hkill, hcl, hpk, hgr⟩ :=
    run_overflow (s := { s with parked := s.parked ++ waiting }) hidle hcoming hinside hsubs hempty hm
      htarget hfull hwindow
  have hsame : ({ s with parked := s.parked ++ waiting } : Link).conn = s.conn := rfl
  rw [hsame, hsconn] at hq hcap hclosed hkill
  refine ⟨t, ?_, htask, ?_, hcap, hclosed, hkill, hcl.trans hclosings, ?_, hgr.trans hgranted⟩
  · unfold flood
    rw [run_subscribed, Machine.run_append, hfill, Option.bind_some, Machine.run_append, hpark]
    exact hrun
  · rw [hq]
    simp
  · rw [hpk]
    show s.parked ++ waiting = waiting
    rw [hparked, List.nil_append]

/-- A `CLOSED` frame that finds no free place: the subscription is gone, and the client
is not told. -/
theorem not_told_of_not_free {s t : Link} (ht : s.step .tell = some t) (htask : s.task = .telling ['a'] true [])
    (hclosings : s.closings = []) (hfull : ¬ s.Free) (hclosed : s.conn.closed = false)
    (hkill : s.conn.kill = false) :
    ¬ t.Told := by
  have hI : s.Told := by
    intro p hp
    rw [hclosings] at hp
    cases hp
  rw [told_tell_iff ht hI]
  intro hroom
  rcases hroom ['a'] [] htask with hfree | hk | hc | hl | hl
  · exact hfull hfree
  · rw [hkill] at hk
    cases hk
  · rw [hclosed] at hc
    cases hc
  · rw [htask] at hl
    cases hl
  · rw [htask] at hl
    cases hl

theorem Flooded.not_free {capacity : Nat} {waiting : List Frame} {s : Link} (h : Flooded capacity waiting s) :
    ¬ s.Free := by
  unfold Free
  rw [h.queue, h.capacity]
  omega

theorem step_tell {s : Link} {id : Str} {removed : Bool} {ids : List Str}
    (htask : s.task = .telling id removed ids) :
    ∃ t, s.step .tell = some t := by
  simp only [step, htask]
  exact ⟨_, rfl⟩

/-- The `CLOSED` frame finds the queue as full as the publisher did. -/
theorem flood_not_told : ∃ t, Machine.run step (start .new 0 connSendCap)
    (flood connSendCap [] ++ [.tell]) = some t ∧
    ¬ t.Told := by
  obtain ⟨s, hrun, h⟩ := run_flood connSendCap []
  obtain ⟨t, ht⟩ := step_tell h.task
  exact ⟨t, (Machine.run_concat_eq_some step).2 ⟨s, hrun, ht⟩,
    not_told_of_not_free ht h.task h.closings h.not_free h.closed h.kill⟩

/-- What the sender task leaves when it takes a frame out of the full queue. -/
theorem Flooded.recv {n : Nat} {waiting : List Frame} {s : Link} (h : Flooded (n + 1) waiting s) :
    ∃ c : ConnState, s.step .recv = some (s.setConn c).release ∧ c.queue.length = n ∧ c.capacity = n + 1 ∧
      c.closed = false ∧ c.kill = false := by
  cases hq : s.conn.queue with
  | nil =>
    have hlen := h.queue
    rw [hq] at hlen
    cases hlen
  | cons frame queue =>
    refine ⟨{ s.conn with queue := queue }, ?_, ?_, h.capacity, h.closed, h.kill⟩
    · simp only [step, h.closed, Bool.false_eq_true, if_false, hq]
    · have hlen := h.queue
      rw [hq, List.length_cons] at hlen
      exact Nat.succ.inj hlen

/-- The sender task takes a frame out in between, but the place is promised to the
request's task that waits: the queue has room, and the client is not told. -/
theorem promised_not_told : ∃ s t,
    Machine.run step (start .new 0 connSendCap) (flood connSendCap [storedFrame] ++ [.recv]) = some s ∧
      s.conn.queue.length < s.conn.capacity ∧ s.step .tell = some t ∧ ¬ t.Told := by
  obtain ⟨s, hrun, h⟩ := run_flood connSendCap [storedFrame]
  obtain ⟨c, hrecv, hlen, hcap, hclosed, hkill⟩ := Flooded.recv (n := 16383) h
  have hrelease : (s.setConn c).release = { s.setConn c with parked := [], granted := [storedFrame] } := by
    unfold release
    rw [show (s.setConn c).parked = [storedFrame] from h.parked]
    show ({ s.setConn c with parked := [], granted := s.granted ++ [storedFrame] } : Link) = _
    rw [h.granted, List.nil_append]
  rw [hrelease] at hrecv
  have hconn : ({ s.setConn c with parked := [], granted := [storedFrame] } : Link).conn = c := conn_setConn s c
  obtain ⟨t, ht⟩ := step_tell (s := { s.setConn c with parked := [], granted := [storedFrame] }) h.task
  refine ⟨_, t, (Machine.run_concat_eq_some step).2 ⟨s, hrun, hrecv⟩, ?_, ht,
    not_told_of_not_free ht h.task h.closings ?_ ?_ ?_⟩
  · rw [hconn, hlen, hcap]
    omega
  · unfold Free
    rw [hconn, hlen, hcap]
    show ¬ 16383 + 1 < 16383 + 1
    omega
  · rw [hconn]
    exact hclosed
  · rw [hconn]
    exact hkill

/-- The sender task takes a frame out in between, and nobody waits. -/
def drained (capacity : Nat) : List Act := flood capacity [] ++ [.recv] ++ [.tell]

theorem run_told_iff_drained : ∃ t, Machine.run step (start .new 0 connSendCap) (drained connSendCap) = some t ∧
    ((∀ bs, bs <+: drained connSendCap → ∀ u, Machine.run step (start .new 0 connSendCap) bs = some u → u.Told) ↔
      Machine.Along step Room (start .new 0 connSendCap) (drained connSendCap)) := by
  obtain ⟨s, hrun, h⟩ := run_flood connSendCap []
  obtain ⟨c, hrecv, -⟩ := Flooded.recv (n := 16383) h
  have htask : (s.setConn c).release.task = .telling ['a'] true [] := by
    unfold release
    rw [show (s.setConn c).parked = [] from h.parked]
    exact h.task
  obtain ⟨t, ht⟩ := step_tell htask
  have hall : Machine.run step (start .new 0 connSendCap) (drained connSendCap) = some t :=
    (Machine.run_concat_eq_some step).2 ⟨_, (Machine.run_concat_eq_some step).2 ⟨s, hrun, hrecv⟩, ht⟩
  exact ⟨t, hall, run_told_iff .new 0 connSendCap _ t hall⟩

end Link
end Memlay
