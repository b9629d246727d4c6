import Memlay.Dispatch
import Memlay.FanoutIndex
import Memlay.FilterLookups
import Memlay.FrameNames
import Memlay.Relay

/-!
# The relay's connections (`src/relay.rs`, `handle_socket`)

All tasks of the relay over one store and one fanout, taking turns in any order: each
connection's own task in its loop, the sender task that empties its queue, the task that
each `REQ` spawns and streams the stored answer, the task that each `EVENT` frame spawns
and that holds one of a fixed number of permits while it verifies, stores, publishes and
answers.

A turn is one pass of a connection's loop, one subscription of its overflow branch, one
lookup or one frame of a `REQ` task, or one delivery to one connection.  A `send` that
awaits room is not possible while the queue is full; a `REQ` task is parked there.  An
aborted task may go on until it is cancelled, but not from where it is parked.

A freed place is promised to a sender that waits, and `try_send` does not get it.  How
many places of a queue are promised is left open: any number, which a turn may change.
-/

namespace Memlay

/-- Most filters of a `REQ`. -/
def maxFiltersPerReq : Nat := 20

/-- The most `EVENT` frames that are worked on at a time. -/
def verifyPermits (cpus : Nat) : Nat := max 64 (min 256 (cpus * 32))

/-- Clamp the limit and pre-parse the values of `e` and `p`. -/
def prepareFilter (maxLimit : Nat) (f : Filter) : Filter :=
  Filter.parseHexValues { f with limit := some (f.limit.elim maxLimit fun l => min l maxLimit) }

def prepareFilters (filters : List Filter) (maxLimit : Nat) : List Filter := filters.map (prepareFilter maxLimit)

namespace Session

open Json (utf8Bytes)

/-- What `handle_socket` reads of the configuration, and the number of processors. -/
structure Config where
  maxSubscriptions : Nat
  maxLimit : Nat
  /-- seconds; zero: connections may idle -/
  idleTimeout : Nat
  cpus : Nat

/-- A query under way. -/
structure Query where
  filter : Filter
  /-- the lookups still to make -/
  lookups : List Lookup
  found : List Event
  /-- the index that each lookup so far was made in -/
  seen : List Index

/-- The task that a `REQ` spawns. -/
structure ReqTask where
  conn : ConnId
  id : Str
  /-- the filters that are not yet queried -/
  filters : List Filter
  query : Option Query
  /-- the events not yet sent of the filter queried last -/
  answer : List Event
  /-- the filters queried so far, each with the indexes its lookups were made in -/
  asked : List (Filter × List Index)
  /-- the frames placed so far -/
  sent : List Frame
  /-- it waits for room in the queue -/
  parked : Bool
  aborted : Bool
  ended : Bool

def ReqTask.new (c : ConnId) (id : Str) (filters : List Filter) : ReqTask :=
  ⟨c, id, filters, none, [], [], [], false, false, false⟩

/-- Where the task of an `EVENT` frame is. -/
inductive Stage where
  /-- for a permit -/
  | waiting
  | permitted
  /-- the store has taken the event; what is to be published, and then answered -/
  | publishing (events : List Event) (reply : Option NostrMessage)
  | delivering (ev : BroadcastEvent) (targets : List ConnId) (events : List Event) (reply : Option NostrMessage)
  | replying (reply : NostrMessage)
  /-- the reply is in the queue -/
  | answered (reply : NostrMessage)
  /-- there was no reply, or no one to take it -/
  | ended

/-- The permit is held until the reply is in the queue. -/
def Stage.holds : Stage → Bool
  | .waiting | .answered _ | .ended => false
  | _ => true

/-- The task that an `EVENT` frame spawns. -/
structure Job where
  conn : ConnId
  text : Str
  stage : Stage

/-- Where a connection's own task is. -/
inductive Loop where
  | select
  /-- in the overflow branch, with the ids still to close -/
  | closing (ids : List Str)
  /-- out of the loop -/
  | leaving
  | unregistered
deriving DecidableEq

structure Socket where
  loop : Loop
  /-- the task of each subscription, by its number -/
  handles : Table Str Nat
  clientActive : Bool

structure Server where
  store : Store
  fan : Fanout
  sockets : Table ConnId Socket
  connectionCount : Nat
  tasks : List ReqTask
  jobs : List Job
  /-- the places of each queue that are promised to senders that wait -/
  promised : ConnId → Nat
  /-- what has been written to each socket -/
  wire : ConnId → List Frame

inductive Incoming where
  | text (text : Str)
  | binary
  | ping
  | pong
  | close
  /-- the stream has ended, or failed -/
  | ended

/-- A turn of one of the tasks. -/
inductive Turn where
  | connect (now : Nat)
  | receive (c : ConnId) (m : Incoming)
  /-- the overflow branch, then its loop and what follows it -/
  | notified (c : ConnId)
  | overflowed (c : ConnId)
  | idle (c : ConnId)
  | senderEnded (c : ConnId)
  | unregister (c : ConnId)
  | finish (c : ConnId)
  /-- the sender task writes a frame, or fails -/
  | drain (c : ConnId)
  | hangUp (c : ConnId)
  | promise (c : ConnId) (places : Nat)
  | request (i : Nat)
  | cancel (i : Nat)
  | work (k : Nat) (visit : Visit) (order : ConnVisit) (clock : Str → Nat)
  /-- the store is changed by a background task -/
  | background (store : Store)

/-- `f`, with so many places of the queue promised to others. -/
def reserve (promised : Nat) (f : ConnState → ConnState) (conn : ConnState) : ConnState :=
  { f { conn with capacity := conn.capacity - promised } with capacity := conn.capacity }

namespace Server

section
variable (s : Server) (c : ConnId)

def conn : ConnState := s.fan.state c

def setSocket (sock : Socket) : Server := { s with sockets := s.sockets.insert c sock }

def setTask (i : Nat) (t : ReqTask) : Server := { s with tasks := s.tasks.set i t }

def setStage (k : Nat) (j : Job) (stage : Stage) : Server :=
  { s with jobs := s.jobs.set k { j with stage := stage } }

/-- `try_send`; a frame that does not fit is lost. -/
def offer (frame : Frame) : Server :=
  { s with fan := s.fan.modify c (reserve (s.promised c) fun conn => (conn.trySend frame).getD conn) }

def notice (text : Str) : Server := s.offer c (.message (.notification text))

/-- `JoinHandle::abort` of the task filed under the id, if there is one. -/
def abort (sock : Socket) (id : Str) : List ReqTask :=
  match sock.handles.lookup id with
  | some i => s.tasks.modify i fun t => { t with aborted := true }
  | none => s.tasks

/-- A `REQ` that passes the checks. -/
def openSub (sock : Socket) (id : Str) (filters : List Filter) : Server :=
  { s with
    fan := s.fan.setSub c id filters
    tasks := s.abort sock id ++ [.new c id filters]
    sockets := s.sockets.insert c { sock with handles := sock.handles.insert id s.tasks.length } }

def closeSub (sock : Socket) (id : Str) : Server :=
  { s with
    fan := (s.fan.removeSub c id).2
    tasks := s.abort sock id
    sockets := s.sockets.insert c { sock with handles := sock.handles.erase id } }

end

def tooManyText : Str := "too many filters (max ".toList ++ Nat.toDigits 10 maxFiltersPerReq ++ ")".toList

def limitText (max : Nat) : Str := "subscription limit reached (max ".toList ++ Nat.toDigits 10 max ++ ")".toList

def idleText (seconds : Nat) : Str :=
  "idle: no REQ or EVENT within ".toList ++ Nat.toDigits 10 seconds ++ "s, closing".toList

section
variable (x : Serde) (cfg : Config) (s : Server) (c : ConnId) (sock : Socket)

def receiveReq (text : Str) : Server :=
  match NostrMessage.fromJson x (utf8Bytes text) with
  | .ok (.request id filters) =>
    if maxFiltersPerReq < filters.length then s.notice c tooManyText
    else if !s.fan.hasSub c id && decide (cfg.maxSubscriptions ≤ s.fan.subCount c) then
      s.notice c (limitText cfg.maxSubscriptions)
    else s.openSub c sock id (prepareFilters filters cfg.maxLimit)
  | .ok _ => s
  | .error err => s.notice c err

def receiveClose (text : Str) : Server :=
  match NostrMessage.fromJson x (utf8Bytes text) with
  | .ok (.close id) => s.closeSub c sock id
  | _ => s

/-- A frame of another type, or of none. -/
def receiveOther (text : Str) : Server :=
  match NostrMessage.fromJson x (utf8Bytes text) with
  | .ok _ => s
  | .error err => s.notice c err

def receiveText (text : Str) : Server :=
  if maxMessageBytes < (utf8Bytes text).length then s.notice c "message too large".toList
  else if messageType text = some "EVENT".toList then { s with jobs := s.jobs ++ [⟨c, text, .waiting⟩] }
  else if messageType text = some "REQ".toList then s.receiveReq x cfg c sock text
  else if messageType text = some "CLOSE".toList then s.receiveClose x c sock text
  else s.receiveOther x c text

def receive : Incoming → Server
  | .text text =>
    let sock := { sock with clientActive := true }
    (s.setSocket c sock).receiveText x cfg c sock text
  | .binary =>
    let sock := { sock with clientActive := true }
    (s.setSocket c sock).notice c "binary messages are not supported".toList
  | .ping => s
  | .pong => s
  | .close => s.setSocket c { sock with loop := .leaving }
  | .ended => s.setSocket c { sock with loop := .leaving }

/-- One id of the overflow branch, or what follows the last. -/
def overflowed : List Str → Server
  | id :: ids => (s.closeSub c { sock with loop := .closing ids } id).offer c (closedFrame id)
  | [] => s.setSocket c { sock with loop := if (s.conn c).kill then .leaving else .select }

end

/-- The abort of all tasks of a connection. -/
def abortAll (s : Server) (sock : Socket) : List ReqTask :=
  sock.handles.values.foldl (fun tasks i => tasks.modify i fun t => { t with aborted := true }) s.tasks

/-- `send().await`: `none` while the queue is full; otherwise whether the receiver is
still there, and the frame in the queue if it is. -/
def send (s : Server) (c : ConnId) (frame : Frame) : Option (Bool × Server) :=
  if (s.conn c).closed then some (false, s)
  else ((s.conn c).trySend frame).map fun conn => (true, { s with fan := s.fan.modify c fun _ => conn })

/-- Every place of the queue is taken or promised. -/
def full (s : Server) (c : ConnId) : Bool := decide ((s.conn c).capacity ≤ (s.conn c).queue.length + s.promised c)

/-- `send().await` of a `REQ` task, which goes on as `t'`, or ends because nobody receives,
or is parked because no place is free; once it is parked it may take a promised one. -/
def place (s : Server) (i : Nat) (t : ReqTask) (frame : Frame) (t' : ReqTask) : Option Server :=
  if !(s.conn t.conn).closed && !t.parked && s.full t.conn then some (s.setTask i { t with parked := true })
  else
    (s.send t.conn frame).map fun r =>
      if r.1 then r.2.setTask i { t' with sent := t.sent ++ [frame], parked := false }
      else r.2.setTask i { t with ended := true }

/-- One lookup of a query under way, or what follows the last. -/
def lookUp (s : Server) (t : ReqTask) (q : Query) : ReqTask :=
  match q.lookups with
  | l :: lookups => { t with query := some { q with
      lookups := lookups
      found := q.filter.look s.store.index q.found l
      seen := q.seen ++ [s.store.index] } }
  | [] => { t with query := none, answer := q.filter.choose q.found, asked := t.asked ++ [(q.filter, q.seen)] }

/-- The next lookup or frame of a `REQ` task. -/
def request (s : Server) (i : Nat) (t : ReqTask) : Option Server :=
  match t.answer, t.query, t.filters with
  | e :: answer, _, _ => s.place i t (.event t.id (Json.fromUtf8Lossy e.raw)) { t with answer := answer }
  | [], some q, _ => some (s.setTask i (s.lookUp t q))
  | [], none, filter :: filters =>
    some (s.setTask i { t with filters := filters, query := some ⟨filter, filter.lookups, [], []⟩ })
  | [], none, [] => s.place i t (.message (.endOfStoredEvents t.id)) { t with ended := true }

/-- The permits that are taken. -/
def held (s : Server) : Nat := s.jobs.countP fun j => j.stage.holds

/-- The next step of the task of an `EVENT` frame. -/
def work (x : Serde) (cfg : Config) (s : Server) (k : Nat) (j : Job) (visit : Visit) (order : ConnVisit)
    (clock : Str → Nat) : Option Server :=
  match j.stage with
  | .waiting => if s.held < verifyPermits cfg.cpus then some (s.setStage k j .permitted) else none
  | .permitted =>
    let h := Relay.processEventMessage x (utf8Bytes j.text) visit s.store
    some { s.setStage k j (.publishing h.published h.reply) with store := h.store }
  | .publishing [] none => some (s.setStage k j .ended)
  | .publishing [] (some reply) => some (s.setStage k j (.replying reply))
  | .publishing (e :: events) reply =>
    some (s.setStage k j (.delivering (.new e) (s.fan.targets order e.kind) events reply))
  | .delivering _ [] events reply => some (s.setStage k j (.publishing events reply))
  | .delivering ev (c :: targets) events reply =>
    some { s.setStage k j (.delivering ev targets events reply) with
      fan := s.fan.modify c (reserve (s.promised c) (ConnState.deliver clock ev)) }
  | .replying reply =>
    (s.send j.conn (.message reply)).map fun r => r.2.setStage k j (if r.1 then .answered reply else .ended)
  | .answered _ => none
  | .ended => none

/-- The task of connection `c`, where it waits in its loop. -/
def selecting (s : Server) (c : ConnId) (next : Socket → Server) : Option Server :=
  (s.sockets.lookup c).bind fun sock => if sock.loop = .select then some (next sock) else none

def step (x : Serde) (cfg : Config) (s : Server) : Turn → Option Server
  | .connect now =>
    let (c, fan) := s.fan.register now connSendCap
    some { s with
      fan := fan
      sockets := s.sockets.insert c ⟨.select, ∅, false⟩
      connectionCount := s.connectionCount + 1 }
  | .receive c m => s.selecting c fun sock => s.receive x cfg c sock m
  | .notified c =>
    s.selecting c fun sock =>
      let (ids, conn) := (s.conn c).takeOverflowed
      { s.setSocket c { sock with loop := .closing ids } with fan := s.fan.modify c fun _ => conn }
  | .overflowed c =>
    match s.sockets.lookup c with
    | some ⟨.closing ids, handles, active⟩ => some (s.overflowed c ⟨.closing ids, handles, active⟩ ids)
    | _ => none
  | .idle c =>
    (s.sockets.lookup c).bind fun sock =>
      if sock.loop = .select ∧ 0 < cfg.idleTimeout ∧ sock.clientActive = false then
        some ((s.setSocket c { sock with loop := .leaving }).notice c (idleText cfg.idleTimeout))
      else none
  | .senderEnded c =>
    if (s.conn c).closed then s.selecting c fun sock => s.setSocket c { sock with loop := .leaving } else none
  | .unregister c =>
    (s.sockets.lookup c).bind fun sock =>
      if sock.loop = .leaving then
        some { s.setSocket c { sock with loop := .unregistered } with fan := s.fan.unregister c }
      else none
  | .finish c =>
    (s.sockets.lookup c).bind fun sock =>
      if sock.loop = .unregistered then
        some { s with
          tasks := s.abortAll sock
          fan := s.fan.modify c fun conn => { conn with closed := true }
          sockets := s.sockets.erase c
          connectionCount := s.connectionCount - 1 }
      else none
  | .drain c =>
    match (s.conn c).closed, (s.conn c).queue with
    | false, frame :: queue =>
      some { s with
        fan := s.fan.modify c fun conn => { conn with queue := queue }
        wire := Function.update s.wire c (s.wire c ++ [frame]) }
    | _, _ => none
  | .hangUp c =>
    if c ∈ s.sockets then some { s with fan := s.fan.modify c fun conn => { conn with closed := true } } else none
  | .promise c places => some { s with promised := Function.update s.promised c places }
  | .request i =>
    match s.tasks[i]? with
    | some t => if t.ended || t.aborted && t.parked then none else s.request i t
    | none => none
  | .cancel i =>
    match s.tasks[i]? with
    | some t => if t.aborted && !t.ended then some (s.setTask i { t with ended := true }) else none
    | none => none
  | .work k visit order clock => (s.jobs[k]?).bind fun j => s.work x cfg k j visit order clock
  | .background store => some { s with store := store }

/-- The relay before the first connection. -/
def start (store : Store) : Server where
  store := store
  fan := .new
  sockets := ∅
  connectionCount := 0
  tasks := []
  jobs := []
  promised := fun _ => 0
  wire := fun _ => []

end Server

/-! ## What a turn is made of -/

/-- A frame of the connection's own task. -/
def Spoken (frame : Frame) : Prop :=
  (∃ text, frame = .message (.notification text)) ∨ ∃ id text, frame = .message (.closed id text)

/-- A connection with more frames in its queue, all of them `P`, and the same
subscriptions. -/
structure Places (P : Frame → Prop) (c c' : ConnState) : Prop where
  subs : c'.subs = c.subs
  kindKey : c'.kindKey = c.kindKey
  capacity : c'.capacity = c.capacity
  closed : c'.closed = c.closed
  queue : ∃ frames, c'.queue = c.queue ++ frames ∧ ∀ frame ∈ frames, P frame
  room : c'.queue.length ≤ max c.queue.length c.capacity

/-- The stages between the store and the reply that touch nothing else. -/
inductive Stage.Next : Stage → Stage → Prop where
  | publish (targets : List ConnId) (e : Event) (events : List Event) (reply : Option NostrMessage) :
    Next (.publishing (e :: events) reply) (.delivering (.new e) targets events reply)
  | published (ev : BroadcastEvent) (events : List Event) (reply : Option NostrMessage) :
    Next (.delivering ev [] events reply) (.publishing events reply)
  | reply (reply : NostrMessage) : Next (.publishing [] (some reply)) (.replying reply)
  | silent : Next (.publishing [] none) .ended

/-- A turn of a `REQ` task that places no frame, made with this index. -/
inductive ReqTask.Next (index : Index) (t : ReqTask) : ReqTask → Prop where
  | ask {filter : Filter} {filters : List Filter} (hanswer : t.answer = []) (hquery : t.query = none)
      (hfilters : t.filters = filter :: filters) :
    Next index t { t with filters := filters, query := some ⟨filter, filter.lookups, [], []⟩ }
  | look {q : Query} {l : Lookup} {lookups : List Lookup} (hanswer : t.answer = []) (hquery : t.query = some q)
      (hlookups : q.lookups = l :: lookups) :
    Next index t { t with query := some { q with
      lookups := lookups
      found := q.filter.look index q.found l
      seen := q.seen ++ [index] } }
  | choose {q : Query} (hanswer : t.answer = []) (hquery : t.query = some q) (hlookups : q.lookups = []) :
    Next index t { t with
      query := none
      answer := q.filter.choose q.found
      asked := t.asked ++ [(q.filter, q.seen)] }
  | park : Next index t { t with parked := true }

/-- The pieces of a turn `a`. -/
inductive Move (x : Serde) (cfg : Config) (a : Turn) : Server → Server → Prop where
  | connect {s : Server} (now : Nat) : Move x cfg a s { s with
      fan := (s.fan.register now connSendCap).2
      sockets := s.sockets.insert (s.fan.nextId + 1) ⟨.select, ∅, false⟩
      connectionCount := s.connectionCount + 1 }
  | socket {s : Server} {c : ConnId} {sock sock' : Socket} (hsock : s.sockets.lookup c = some sock)
      (hhandles : sock'.handles = sock.handles) (hloop : sock.loop ≠ .unregistered)
      (hloop' : sock'.loop ≠ .unregistered) :
    Move x cfg a s (s.setSocket c sock')
  | conn {s : Server} {c : ConnId} {f : ConnState → ConnState} (h : Places Spoken (s.conn c) (f (s.conn c))) :
    Move x cfg a s { s with fan := s.fan.modify c f }
  | openSub {s : Server} {c : ConnId} {sock : Socket} {text id : Str} {filters : List Filter}
      (ha : a = .receive c (.text text)) (hsock : s.sockets.lookup c = some sock)
      (hloop : sock.loop ≠ .unregistered)
      (hreq : NostrMessage.fromJson x (utf8Bytes text) = .ok (.request id filters))
      (hfilters : filters.length ≤ maxFiltersPerReq)
      (hlimit : (!s.fan.hasSub c id && decide (cfg.maxSubscriptions ≤ s.fan.subCount c)) = false) :
    Move x cfg a s (s.openSub c sock id (prepareFilters filters cfg.maxLimit))
  | closeSub {s : Server} {c : ConnId} {sock : Socket} {id : Str} (hsock : s.sockets.lookup c = some sock)
      (hloop : sock.loop ≠ .unregistered) : Move x cfg a s (s.closeSub c sock id)
  | unregister {s : Server} {c : ConnId} {sock : Socket} (hsock : s.sockets.lookup c = some sock) :
    Move x cfg a s { s.setSocket c { sock with loop := .unregistered } with fan := s.fan.unregister c }
  | finish {s : Server} {c : ConnId} {sock : Socket} (ha : a = .finish c) (hsock : s.sockets.lookup c = some sock)
      (hloop : sock.loop = .unregistered) : Move x cfg a s { s with
        tasks := s.abortAll sock
        fan := s.fan.modify c fun conn => { conn with closed := true }
        sockets := s.sockets.erase c
        connectionCount := s.connectionCount - 1 }
  | hangUp {s : Server} {c : ConnId} (ha : a = .hangUp c) :
    Move x cfg a s { s with fan := s.fan.modify c fun conn => { conn with closed := true } }
  | drain {s : Server} {c : ConnId} {frame : Frame} {queue : List Frame} (ha : a = .drain c)
      (hqueue : (s.conn c).queue = frame :: queue) : Move x cfg a s { s with
        fan := s.fan.modify c fun conn => { conn with queue := queue }
        wire := Function.update s.wire c (s.wire c ++ [frame]) }
  | promise {s : Server} (c : ConnId) (places : Nat) :
    Move x cfg a s { s with promised := Function.update s.promised c places }
  | task {s : Server} {i : Nat} {t t' : ReqTask} (ha : a = .request i) (ht : s.tasks[i]? = some t)
      (hended : t.ended = false) (hnext : t.Next s.store.index t') : Move x cfg a s (s.setTask i t')
  | stored {s : Server} {i : Nat} {t : ReqTask} {e : Event} {answer : List Event} {conn : ConnState}
      (ht : s.tasks[i]? = some t) (hended : t.ended = false) (hanswer : t.answer = e :: answer)
      (hsend : (s.conn t.conn).trySend (.event t.id (Json.fromUtf8Lossy e.raw)) = some conn) :
    Move x cfg a s ({ s with fan := s.fan.modify t.conn fun _ => conn }.setTask i { t with
      answer := answer
      sent := t.sent ++ [Frame.event t.id (Json.fromUtf8Lossy e.raw)]
      parked := false })
  | eose {s : Server} {i : Nat} {t : ReqTask} {conn : ConnState} (ht : s.tasks[i]? = some t)
      (hended : t.ended = false)
      (hanswer : t.answer = []) (hquery : t.query = none) (hfilters : t.filters = [])
      (hsend : (s.conn t.conn).trySend (.message (.endOfStoredEvents t.id)) = some conn) :
    Move x cfg a s ({ s with fan := s.fan.modify t.conn fun _ => conn }.setTask i { t with
      sent := t.sent ++ [Frame.message (.endOfStoredEvents t.id)]
      parked := false
      ended := true })
  | endTask {s : Server} {i : Nat} {t : ReqTask} (ht : s.tasks[i]? = some t) :
    Move x cfg a s (s.setTask i { t with ended := true })
  | spawn {s : Server} {c : ConnId} {sock : Socket} {text : Str} (ha : a = .receive c (.text text))
      (hsock : s.sockets.lookup c = some sock) (hlen : (utf8Bytes text).length ≤ maxMessageBytes)
      (htype : messageType text = some "EVENT".toList) :
    Move x cfg a s { s with jobs := s.jobs ++ [⟨c, text, .waiting⟩] }
  | permit {s : Server} {k : Nat} {j : Job} (hj : s.jobs[k]? = some j) (hstage : j.stage = .waiting)
      (hheld : s.held < verifyPermits cfg.cpus) : Move x cfg a s (s.setStage k j .permitted)
  | process {s : Server} {k : Nat} {j : Job} (visit : Visit) (ha : ∀ i, a ≠ .request i) (hj : s.jobs[k]? = some j)
      (hstage : j.stage = .permitted) :
    Move x cfg a s { s.setStage k j (.publishing
        (Relay.processEventMessage x (utf8Bytes j.text) visit s.store).published
        (Relay.processEventMessage x (utf8Bytes j.text) visit s.store).reply) with
      store := (Relay.processEventMessage x (utf8Bytes j.text) visit s.store).store }
  | advance {s : Server} {k : Nat} {j : Job} {stage : Stage} (hj : s.jobs[k]? = some j)
      (hnext : j.stage.Next stage) :
    Move x cfg a s (s.setStage k j stage)
  | deliver {s : Server} {k : Nat} {j : Job} {ev : BroadcastEvent} {c : ConnId} {targets : List ConnId}
      {events : List Event} {reply : Option NostrMessage} (clock : Str → Nat) (hj : s.jobs[k]? = some j)
      (hstage : j.stage = .delivering ev (c :: targets) events reply) :
    Move x cfg a s { s.setStage k j (.delivering ev targets events reply) with
      fan := s.fan.modify c (reserve (s.promised c) (ConnState.deliver clock ev)) }
  | reply {s : Server} {k : Nat} {j : Job} {m : NostrMessage} {conn : ConnState} (hj : s.jobs[k]? = some j)
      (hstage : j.stage = .replying m) (hsend : (s.conn j.conn).trySend (.message m) = some conn) :
    Move x cfg a s ({ s with fan := s.fan.modify j.conn fun _ => conn }.setStage k j (.answered m))
  | unheard {s : Server} {k : Nat} {j : Job} {m : NostrMessage} (hj : s.jobs[k]? = some j)
      (hstage : j.stage = .replying m) (hclosed : (s.conn j.conn).closed = true) :
    Move x cfg a s (s.setStage k j .ended)
  | background {s : Server} (store : Store) (ha : a = .background store) : Move x cfg a s { s with store := store }

section
variable {index : Index} {t t' : ReqTask}

theorem ReqTask.Next.conn (h : t.Next index t') : t'.conn = t.conn := by cases h <;> rfl

theorem ReqTask.Next.id (h : t.Next index t') : t'.id = t.id := by cases h <;> rfl

theorem ReqTask.Next.sent (h : t.Next index t') : t'.sent = t.sent := by cases h <;> rfl

theorem ReqTask.Next.aborted (h : t.Next index t') : t'.aborted = t.aborted := by cases h <;> rfl

theorem ReqTask.Next.ended (h : t.Next index t') : t'.ended = t.ended := by cases h <;> rfl

end

/-- A turn, as the sequence of its pieces. -/
def Moves (x : Serde) (cfg : Config) (a : Turn) : Server → Server → Prop := Relation.ReflTransGen (Move x cfg a)

section
variable {x : Serde} {cfg : Config} {a : Turn} {s t : Server} {c : ConnId} {sock : Socket}

theorem Moves.one (h : Move x cfg a s t) : Moves x cfg a s t := Relation.ReflTransGen.single h

theorem Moves.next {u : Server} (h : Moves x cfg a s t) (h' : Move x cfg a t u) : Moves x cfg a s u :=
  Relation.ReflTransGen.tail h h'

/-- What every piece keeps, the turn keeps. -/
theorem Moves.keep {P : Server → Prop} (hP : ∀ s t, Move x cfg a s t → P s → P t) (h : Moves x cfg a s t)
    (hs : P s) :
    P t := by
  induction h with
  | refl => exact hs
  | tail _ hmove ih => exact hP _ _ hmove ih

/-- Nothing is placed. -/
theorem Places.none {P : Frame → Prop} {c c' : ConnState} (hsubs : c'.subs = c.subs)
    (hkey : c'.kindKey = c.kindKey)
    (hcap : c'.capacity = c.capacity) (hclosed : c'.closed = c.closed) (hqueue : c'.queue = c.queue) :
    Places P c c' := by
  refine ⟨hsubs, hkey, hcap, hclosed, ⟨[], ?_, by simp⟩, ?_⟩
  · rw [hqueue, List.append_nil]
  · rw [hqueue]
    exact Nat.le_max_left _ _

theorem Places.refl (P : Frame → Prop) (conn : ConnState) : Places P conn conn := .none rfl rfl rfl rfl rfl

theorem Places.trans {P : Frame → Prop} {c c' c'' : ConnState} (h : Places P c c') (h' : Places P c' c'') :
    Places P c c'' := by
  obtain ⟨frames, hq, hP⟩ := h.queue
  obtain ⟨frames', hq', hP'⟩ := h'.queue
  refine ⟨h'.subs.trans h.subs, h'.kindKey.trans h.kindKey, h'.capacity.trans h.capacity,
      h'.closed.trans h.closed, ?_, ?_⟩
  · refine ⟨frames ++ frames', ?_, List.forall_mem_append.2 ⟨hP, hP'⟩⟩
    rw [hq', hq, List.append_assoc]
  · have hroom := h'.room
    rw [h.capacity] at hroom
    exact hroom.trans (max_le h.room (Nat.le_max_right _ _))

/-- Fewer places are free to those who have none promised. -/
theorem Places.reserve {P : Frame → Prop} {f : ConnState → ConnState} {promised : Nat} {conn : ConnState}
    (h : Places P { conn with capacity := conn.capacity - promised }
        (f { conn with capacity := conn.capacity - promised })) :
    Places P conn (Session.reserve promised f conn) :=
  ⟨h.subs, h.kindKey, rfl, h.closed, h.queue, h.room.trans (max_le_max_left _ (Nat.sub_le _ _))⟩

theorem places_trySend {P : Frame → Prop} {conn conn' : ConnState} {frame : Frame} (hframe : P frame)
    (h : conn.trySend frame = some conn') : Places P conn conn' := by
  obtain ⟨-, hroom, rfl⟩ := Link.trySend_eq_some h
  refine ⟨rfl, rfl, rfl, rfl, ⟨[frame], rfl, ?_⟩, ?_⟩
  · intro f hf
    rw [List.mem_singleton.1 hf]
    exact hframe
  · show (conn.queue ++ [frame]).length ≤ max conn.queue.length conn.capacity
    rw [List.length_append]
    exact Nat.le_trans hroom (Nat.le_max_right _ _)

theorem places_sent {conn conn' : ConnState} {frame : Frame} (h : conn.trySend frame = some conn') :
    Places (fun _ => True) conn conn' := places_trySend trivial h

theorem move_offer {frame : Frame} (hframe : Spoken frame) : Move x cfg a s (s.offer c frame) :=
  .conn <| .reserve <| by
    cases hsend : ConnState.trySend { s.conn c with capacity := (s.conn c).capacity - s.promised c } frame with
    | none => exact .refl _ _
    | some conn => exact places_trySend hframe hsend

theorem move_notice (text : Str) : Move x cfg a s (s.notice c text) := move_offer (Or.inl ⟨text, rfl⟩)

/-- `send().await` has placed the frame, or found the receiver gone. -/
theorem send_eq_some {frame : Frame} {r : Bool × Server} (h : s.send c frame = some r) :
    (r = (false, s) ∧ (s.conn c).closed = true) ∨ ∃ conn, (s.conn c).trySend frame = some conn ∧
      r = (true, { s with fan := s.fan.modify c fun _ => conn }) := by
  unfold Server.send at h
  split at h
  · rename_i hclosed
    cases h
    exact Or.inl ⟨rfl, hclosed⟩
  · obtain ⟨conn, hconn, rfl⟩ := Option.map_eq_some_iff.1 h
    exact Or.inr ⟨conn, hconn, rfl⟩

theorem selecting_eq_some {next : Socket → Server} (h : s.selecting c next = some t) :
    ∃ sock, s.sockets.lookup c = some sock ∧ sock.loop = .select ∧ t = next sock := by
  obtain ⟨sock, hsock, h⟩ := Option.bind_eq_some_iff.1 h
  split at h
  · rename_i hloop
    cases h
    exact ⟨sock, hsock, hloop, rfl⟩
  · cases h

theorem moves_receiveText {text : Str} (ha : a = .receive c (.text text)) (hsock : s.sockets.lookup c = some sock)
    (hloop : sock.loop ≠ .unregistered) : Moves x cfg a s (s.receiveText x cfg c sock text) := by
  unfold Server.receiveText
  split
  · exact .one (move_notice _)
  · rename_i hlen
    split
    · rename_i htype
      exact .one (.spawn ha hsock (Nat.not_lt.1 hlen) htype)
    · split
      · unfold Server.receiveReq
        split
        · rename_i id filters hreq
          split
          · exact .one (move_notice _)
          · rename_i hfilters
            split
            · exact .one (move_notice _)
            · rename_i hlimit
              exact .one (.openSub ha hsock hloop hreq (Nat.not_lt.1 hfilters) (eq_false_of_ne_true hlimit))
        · exact .refl
        · exact .one (move_notice _)
      · split
        · unfold Server.receiveClose
          split
          · exact .one (.closeSub hsock hloop)
          · exact .refl
        · unfold Server.receiveOther
          split
          · exact .refl
          · exact .one (move_notice _)

theorem moves_receive {m : Incoming} (ha : a = .receive c m) (hsock : s.sockets.lookup c = some sock)
    (hloop : sock.loop ≠ .unregistered) : Moves x cfg a s (s.receive x cfg c sock m) := by
  have hset : ∀ sock' : Socket, sock'.handles = sock.handles → sock'.loop ≠ .unregistered →
      Moves x cfg a s (s.setSocket c sock') := fun sock' hh hl => .one (.socket hsock hh hloop hl)
  cases m with
  | text text =>
    refine Relation.ReflTransGen.trans (hset { sock with clientActive := true } rfl hloop) ?_
    exact moves_receiveText ha (AList.lookup_insert _) hloop
  | binary => exact (hset { sock with clientActive := true } rfl hloop).next (move_notice _)
  | ping => exact .refl
  | pong => exact .refl
  | close => exact hset _ rfl nofun
  | ended => exact hset _ rfl nofun

theorem moves_overflowed {ids : List Str} (hsock : s.sockets.lookup c = some sock)
    (hloop : sock.loop ≠ .unregistered) :
    Moves x cfg a s (s.overflowed c sock ids) := by
  cases ids with
  | nil =>
    refine .one (.socket hsock rfl hloop ?_)
    split
    · nofun
    · nofun
  | cons id ids =>
    have hsocket : Moves x cfg a s (s.setSocket c { sock with loop := .closing ids }) :=
      .one (.socket hsock rfl hloop nofun)
    have hclose : (s.setSocket c { sock with loop := .closing ids }).closeSub c
        { sock with loop := .closing ids } id =
        s.closeSub c { sock with loop := .closing ids } id := by
      unfold Server.closeSub Server.setSocket
      simp only [AList.insert_insert]
      rfl
    have hmove : Move x cfg a (s.setSocket c { sock with loop := .closing ids })
        ((s.setSocket c { sock with loop := .closing ids }).closeSub c { sock with loop := .closing ids } id) :=
      .closeSub (AList.lookup_insert _) nofun
    rw [hclose] at hmove
    exact (hsocket.next hmove).next (move_offer (Or.inr ⟨id, _, rfl⟩))

/-- A frame is placed, or the task ends, or is parked. -/
theorem place_eq_some {i : Nat} {task task' : ReqTask} {frame : Frame} (h : s.place i task frame task' = some t) :
    (∃ conn, (s.conn task.conn).trySend frame = some conn ∧
      t = { s with fan := s.fan.modify task.conn fun _ => conn }.setTask i
        { task' with sent := task.sent ++ [frame], parked := false }) ∨
      t = s.setTask i { task with ended := true } ∨ t = s.setTask i { task with parked := true } := by
  unfold Server.place at h
  split at h
  · cases h
    exact Or.inr (Or.inr rfl)
  · obtain ⟨r, hr, rfl⟩ := Option.map_eq_some_iff.1 h
    rcases send_eq_some hr with ⟨rfl, -⟩ | ⟨conn, hconn, rfl⟩
    · exact Or.inr (Or.inl rfl)
    · exact Or.inl ⟨conn, hconn, rfl⟩

theorem moves_request {i : Nat} {task : ReqTask} (ha : a = .request i) (ht : s.tasks[i]? = some task)
    (hended : task.ended = false)
    (h : s.request i task = some t) : Moves x cfg a s t := by
  unfold Server.request at h
  split at h
  · rename_i e answer _ _ hanswer
    rcases place_eq_some h with ⟨conn, hsend, rfl⟩ | rfl | rfl
    · exact .one (.stored ht hended hanswer hsend)
    · exact .one (.endTask ht)
    · exact .one (.task ha ht hended .park)
  · rename_i q _ hanswer hquery
    cases h
    unfold Server.lookUp
    split
    · rename_i hlookups
      exact .one (.task ha ht hended (.look hanswer hquery hlookups))
    · rename_i hlookups
      exact .one (.task ha ht hended (.choose hanswer hquery hlookups))
  · rename_i filter filters hanswer hquery hfilters
    cases h
    exact .one (.task ha ht hended (.ask hanswer hquery hfilters))
  · rename_i hanswer hquery hfilters
    rcases place_eq_some h with ⟨conn, hsend, rfl⟩ | rfl | rfl
    · exact .one (.eose ht hended hanswer hquery hfilters hsend)
    · exact .one (.endTask ht)
    · exact .one (.task ha ht hended .park)

theorem moves_work {k : Nat} {j : Job} {visit : Visit} {order : ConnVisit} {clock : Str → Nat}
    (ha : ∀ i, a ≠ .request i) (hj : s.jobs[k]? = some j) (h : s.work x cfg k j visit order clock = some t) :
    Moves x cfg a s t := by
  unfold Server.work at h
  split at h
  · rename_i hstage
    split at h
    · rename_i hheld
      cases h
      exact .one (.permit hj hstage hheld)
    · cases h
  · rename_i hstage
    cases h
    exact .one (.process visit ha hj hstage)
  · rename_i hstage
    cases h
    exact .one (.advance hj (hstage ▸ .silent))
  · rename_i reply hstage
    cases h
    exact .one (.advance hj (hstage ▸ .reply reply))
  · rename_i e events reply hstage
    cases h
    exact .one (.advance hj (hstage ▸ .publish _ e events reply))
  · rename_i ev events reply hstage
    cases h
    exact .one (.advance hj (hstage ▸ .published ev events reply))
  · rename_i ev c targets events reply hstage
    cases h
    exact .one (.deliver clock hj hstage)
  · rename_i reply hstage
    obtain ⟨r, hr, rfl⟩ := Option.map_eq_some_iff.1 h
    rcases send_eq_some hr with ⟨rfl, hclosed⟩ | ⟨conn, hsend, rfl⟩
    · exact .one (.unheard hj hstage hclosed)
    · exact .one (.reply hj hstage hsend)
  · cases h
  · cases h

/-- Every turn is made of the pieces above. -/
theorem step_moves (h : s.step x cfg a = some t) : Moves x cfg a s t := by
  have hne : ∀ {sock : Socket}, sock.loop = .select → sock.loop ≠ .unregistered := fun hl => by
    rw [hl]
    nofun
  cases a with
  | connect now =>
    cases h
    exact .one (.connect now)
  | receive c m =>
    obtain ⟨sock, hsock, hloop, rfl⟩ := selecting_eq_some h
    exact moves_receive rfl hsock (hne hloop)
  | notified c =>
    obtain ⟨sock, hsock, hloop, rfl⟩ := selecting_eq_some h
    have hsocket : Moves x cfg (.notified c) s
        (s.setSocket c { sock with loop := .closing (s.conn c).overflow }) :=
      .one (.socket hsock rfl (hne hloop) nofun)
    exact hsocket.next (.conn (.none rfl rfl rfl rfl rfl))
  | overflowed c =>
    simp only [Server.step] at h
    split at h
    · rename_i ids handles active hsock
      cases h
      exact moves_overflowed hsock nofun
    · cases h
  | idle c =>
    obtain ⟨sock, hsock, h⟩ := Option.bind_eq_some_iff.1 h
    split at h
    · rename_i hidle
      cases h
      have hsocket : Moves x cfg (.idle c) s (s.setSocket c { sock with loop := .leaving }) :=
        .one (.socket hsock rfl (hne hidle.1) nofun)
      exact hsocket.next (move_notice _)
    · cases h
  | senderEnded c =>
    simp only [Server.step] at h
    split at h
    · obtain ⟨sock, hsock, hloop, rfl⟩ := selecting_eq_some h
      exact .one (.socket hsock rfl (hne hloop) nofun)
    · cases h
  | unregister c =>
    obtain ⟨sock, hsock, h⟩ := Option.bind_eq_some_iff.1 h
    split at h
    · cases h
      exact .one (.unregister hsock)
    · cases h
  | finish c =>
    obtain ⟨sock, hsock, h⟩ := Option.bind_eq_some_iff.1 h
    split at h
    · rename_i hloop
      cases h
      exact .one (.finish rfl hsock hloop)
    · cases h
  | drain c =>
    simp only [Server.step] at h
    split at h
    · rename_i frame queue _ hqueue
      cases h
      exact .one (.drain rfl hqueue)
    · cases h
  | hangUp c =>
    simp only [Server.step] at h
    split at h
    · cases h
      exact .one (.hangUp rfl)
    · cases h
  | promise c places =>
    cases h
    exact .one (.promise c places)
  | request i =>
    simp only [Server.step] at h
    split at h
    · rename_i task ht
      split at h
      · cases h
      · rename_i hgo
        rw [Bool.or_eq_true, not_or] at hgo
        exact moves_request rfl ht (eq_false_of_ne_true hgo.1) h
    · cases h
  | cancel i =>
    simp only [Server.step] at h
    split at h
    · rename_i task ht
      split at h
      · cases h
        exact .one (.endTask ht)
      · cases h
    · cases h
  | work k visit order clock =>
    obtain ⟨j, hj, h⟩ := Option.bind_eq_some_iff.1 h
    exact moves_work nofun hj h
  | background store =>
    cases h
    exact .one (.background store rfl)

end

end Session
end Memlay
