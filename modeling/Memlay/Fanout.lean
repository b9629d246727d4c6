import Memlay.Message
import Memlay.Lib.Json

/-!
# Live fanout (`src/fanout.rs`)

Connections register with a bounded send queue and open subscriptions; a publisher
walks an inverted index from kinds to interested connections and delivers.

Each connection's state is shared between its own task and the publishers, and stays
there after the connection is unregistered: `state` has it for every id, `conns` are
the registered ones.  Hash sets are finite sets; in which order they are visited is
an argument of the functions that visit them (`ConnVisit`).  A set of kinds is worked
through kind by kind, each with its own entry of `by_kind`, so `index` and `deindex`
say at once what happens to every entry.
-/

namespace Memlay

abbrev ConnId := Nat

/-- Nanoseconds. -/
def dropWindow : Nat := 10 * 10 ^ 9

def maxDropsPerWindow : Nat := 2048

/-- A registered subscription: its id and its filters. -/
structure Sub where
  id : Str
  filters : List Filter

/-- An event ready for delivery, and its JSON text. -/
structure BroadcastEvent where
  event : Event
  json : Str

def BroadcastEvent.new (e : Event) : BroadcastEvent := ⟨e, Json.fromUtf8Lossy e.raw⟩

/-- The kinds a connection is interested in. -/
inductive KindKey where
  | none
  | any
  | some (kinds : Finset Nat)
deriving DecidableEq

/-- A text frame in a send queue, by what it is made of. -/
inductive Frame where
  /-- put together by hand from the id and the event's JSON -/
  | event (subId : Str) (json : Str)
  /-- `to_json` of a message -/
  | message (m : NostrMessage)

structure ConnState where
  /-- the channel, oldest frame first, and its capacity -/
  queue : List Frame
  capacity : Nat
  /-- the receiver is gone -/
  closed : Bool
  subs : List Sub
  kindKey : KindKey
  /-- subscriptions that overflowed and must be closed by the connection task -/
  overflow : List Str
  kill : Bool
  sent : Nat
  dropped : Nat
  /-- window start, drops in the window -/
  window : Nat × Nat

def Sub.matches (sub : Sub) (e : Event) : Bool := sub.filters.any fun f => f.matchesEvent e

namespace ConnState

def new (now capacity : Nat) : ConnState where
  queue := []
  capacity := capacity
  closed := false
  subs := []
  kindKey := .none
  overflow := []
  kill := false
  sent := 0
  dropped := 0
  window := (now, 0)

/-- `try_send` where no place is promised to a sender that waits (`Link.offer` and
`Session.reserve` are for the others); `none`: the queue is full, or the receiver is gone. -/
def trySend (c : ConnState) (frame : Frame) : Option ConnState :=
  if c.closed = false ∧ c.queue.length < c.capacity then some { c with queue := c.queue ++ [frame] } else none

/-- A delivery that did not fit: the subscription is to be closed, and too many of
them within the window disconnect the peer. -/
def recordDrop (now : Nat) (c : ConnState) (subId : Str) : ConnState :=
  let overflow := if subId ∈ c.overflow then c.overflow else c.overflow ++ [subId]
  let c := { c with dropped := c.dropped + 1, overflow := overflow }
  if dropWindow < now - c.window.1 then { c with window := (now, 1) }
  else
    let drops := c.window.2 + 1
    { c with window := (c.window.1, drops), kill := c.kill || decide (maxDropsPerWindow < drops) }

/-- One subscription of the loop of `deliver`. -/
def deliverSub (now : Nat) (ev : BroadcastEvent) (c : ConnState) (sub : Sub) : ConnState :=
  if sub.matches ev.event then
    match c.trySend (.event sub.id ev.json) with
    | some c => { c with sent := c.sent + 1 }
    | none => c.recordDrop now sub.id
  else c

/-- Deliver to every matching subscription; `clock` is the time at which a drop of a
subscription is recorded. -/
def deliver (clock : Str → Nat) (ev : BroadcastEvent) (c : ConnState) : ConnState :=
  c.subs.foldl (fun c sub => c.deliverSub (clock sub.id) ev sub) c

/-- Take the subscriptions that overflowed since the last call. -/
def takeOverflowed (c : ConnState) : List Str × ConnState := (c.overflow, { c with overflow := [] })

/-- Add or replace a subscription. -/
def putSub (id : Str) (filters : List Filter) : List Sub → List Sub
  | [] => [⟨id, filters⟩]
  | sub :: subs => if sub.id = id then ⟨sub.id, filters⟩ :: subs else sub :: putSub id filters subs

def dropSub (id : Str) (subs : List Sub) : List Sub := subs.filter fun sub => sub.id ≠ id

end ConnState

/-! ## The key of a connection -/

/-- The loop over the filters; `none`: a filter does not constrain kinds. -/
def kindsOf : List Filter → Finset Nat → Option (Finset Nat)
  | [], kinds => some kinds
  | f :: fs, kinds =>
    match f.kinds with
    | some (k :: ks) => kindsOf fs (kinds ∪ (k :: ks).toFinset)
    | _ => none

def kindKeyOf (subs : List Sub) : KindKey :=
  if subs.isEmpty then .none
  else
    match kindsOf (subs.flatMap Sub.filters) ∅ with
    | some kinds => .some kinds
    | none => .any

/-! ## The registry -/

structure Fanout where
  /-- the registered connections -/
  conns : Finset ConnId
  state : ConnId → ConnState
  /-- connections whose subscriptions all constrain kinds -/
  byKind : Nat → Option (Finset ConnId)
  anyKind : Finset ConnId
  nextId : Nat

/-- An order in which a set of connections is visited. -/
def ConnVisit : Type := { order : Finset ConnId → List ConnId // ∀ s, (order s).Nodup ∧ (order s).toFinset = s }

namespace Fanout

def new : Fanout where
  conns := ∅
  state := fun _ => .new 0 0
  byKind := fun _ => none
  anyKind := ∅
  nextId := 0

def modify (s : Fanout) (c : ConnId) (f : ConnState → ConnState) : Fanout :=
  { s with state := Function.update s.state c (f (s.state c)) }

def index (s : Fanout) (c : ConnId) : KindKey → Fanout
  | .none => s
  | .any => { s with anyKind := insert c s.anyKind }
  | .some kinds =>
    { s with byKind := fun k => if k ∈ kinds then some (insert c ((s.byKind k).getD ∅)) else s.byKind k }

/-- A set that becomes empty is dropped. -/
def deindex (s : Fanout) (c : ConnId) : KindKey → Fanout
  | .none => s
  | .any => { s with anyKind := s.anyKind.erase c }
  | .some kinds =>
    { s with byKind := fun k =>
        if k ∈ kinds then (s.byKind k).bind fun set => if set.erase c = ∅ then none else some (set.erase c)
        else s.byKind k }

def register (s : Fanout) (now capacity : Nat) : ConnId × Fanout :=
  let id := s.nextId + 1
  (id, { s with
    nextId := id
    conns := insert id s.conns
    state := Function.update s.state id (.new now capacity) })

def unregister (s : Fanout) (c : ConnId) : Fanout :=
  let s := { s with conns := s.conns.erase c }
  (s.deindex c (s.state c).kindKey).modify c fun conn => { conn with kindKey := .none }

/-- Recompute a connection's key from its current subscriptions. -/
def reindex (s : Fanout) (c : ConnId) : Fanout :=
  let newKey := kindKeyOf (s.state c).subs
  let key := (s.state c).kindKey
  if key = newKey then s
  else ((s.deindex c key).index c newKey).modify c fun conn => { conn with kindKey := newKey }

/-- First half of `set_sub`. -/
def writeSub (s : Fanout) (c : ConnId) (id : Str) (filters : List Filter) : Fanout :=
  s.modify c fun conn => { conn with subs := ConnState.putSub id filters conn.subs }

def setSub (s : Fanout) (c : ConnId) (id : Str) (filters : List Filter) : Fanout :=
  (s.writeSub c id filters).reindex c

/-- First half of `remove_sub`: is there anything to remove, and without it. -/
def eraseSub (s : Fanout) (c : ConnId) (id : Str) : Bool × Fanout :=
  let subs := ConnState.dropSub id (s.state c).subs
  (decide (subs.length ≠ (s.state c).subs.length), s.modify c fun conn => { conn with subs := subs })

def removeSub (s : Fanout) (c : ConnId) (id : Str) : Bool × Fanout :=
  match s.eraseSub c id with
  | (true, s) => (true, s.reindex c)
  | (false, s) => (false, s)

def subCount (s : Fanout) (c : ConnId) : Nat := (s.state c).subs.length

def hasSub (s : Fanout) (c : ConnId) (id : Str) : Bool := (s.state c).subs.any fun sub => sub.id == id

/-- First half of `publish`, under the read lock: the connections to deliver to. -/
def targets (s : Fanout) (visit : ConnVisit) (kind : Nat) : List ConnId :=
  if s.anyKind = ∅ ∧ s.byKind kind = none then []
  else (visit.1 s.anyKind ++ visit.1 ((s.byKind kind).getD ∅)).filter fun c => c ∈ s.conns

def publish (s : Fanout) (visit : ConnVisit) (clock : ConnId → Str → Nat) (ev : BroadcastEvent) : Fanout :=
  (s.targets visit ev.event.kind).foldl (fun s c => s.modify c (ConnState.deliver (clock c) ev)) s

end Fanout
end Memlay
