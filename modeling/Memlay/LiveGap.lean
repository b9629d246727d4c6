import Memlay.FanoutRouting
import Memlay.Threads

/-!
# Stored events and live events leave no gap

A `REQ` is served from two sides: the subscription is filed in the live fanout, then
each filter is queried in the store.  A publisher stores its event, then collects its
targets from the fanout.  The machine interleaves the two halves of every change of
subscriptions, queries, the single steps of the calls on the index (`Threads`), target
collection and delivery, for any number of connections and publishers.

    targets collected after the subscription is filed   →  the connection is among them
    targets collected before                            →  the event was stored before,
                                                           so the later queries see it

`req` is the `REQ` that is followed; it is given up when the client closes or replaces
the subscription or the connection is unregistered.
-/

namespace Memlay

/-- The `REQ` that is followed. -/
structure Req where
  conn : ConnId
  id : Str
  filters : List Filter
  /-- `set_sub` has returned -/
  filed : Bool
  /-- the store at the query of the first filter, of the second, … -/
  queried : List Index

/-- A `publish` with its targets collected. -/
structure Publisher where
  /-- the call that stored the event -/
  thread : Nat
  ev : Event
  todo : List ConnId
  handed : List ConnId

structure Live where
  pool : Threads.Config
  /-- the calls on the index, in the order they began -/
  calls : List Threads.Call
  /-- the event of an insert was removed after the insert had stored it -/
  lost : Nat → Bool
  fan : Fanout
  /-- connections between the two halves of a change of their subscriptions -/
  busy : Finset ConnId
  publishers : List Publisher
  req : Option Req

namespace Live

inductive Act where
  /-- a call on the index begins, or takes a step -/
  | store (a : Pool.Act Threads.Call)
  | register (now capacity : Nat)
  /-- a `REQ` that may be the one to follow -/
  | writeSub (c : ConnId) (id : Str) (filters : List Filter) (follow : Bool)
  | eraseSub (c : ConnId) (id : Str)
  | reindex (c : ConnId)
  | unregister (c : ConnId)
  /-- the task of the `REQ` queries its next filter -/
  | query
  /-- the insert of a thread returned `Stored`: publish its event -/
  | collect (i : Nat) (visit : ConnVisit)
  | deliver (k : Nat) (clock : Str → Nat)

/-- The event that an insert is to store. -/
def eventOf (s : Live) (i : Nat) : Option Event :=
  match s.calls[i]? with
  | some (.insert e) => some e
  | _ => none

/-- Thread `i` is about to perform its `by_id.insert`. -/
def stores (s : Live) (i : Nat) : Bool :=
  match s.pool.threads[i]? with
  | some (.byId _ _) => true
  | _ => false

/-- After a step of the pool: what was removed is lost, and what has just been stored is
not. -/
def lostAfter (s : Live) (a : Pool.Act Threads.Call) (pool : Threads.Config) (j : Nat) : Bool :=
  if a = .step j ∧ s.stores j then false
  else s.lost j || (s.eventOf j).any fun e =>
    (s.pool.shared.live e.id).isSome && (pool.shared.live e.id).isNone

/-- The `REQ` is not followed any more once its subscription is closed or replaced. -/
def unfollow (s : Live) (c : ConnId) (id : Str) : Option Req :=
  s.req.filter fun q => ¬ (q.conn = c ∧ q.id = id)

def step (s : Live) : Act → Option Live
  | .store a =>
    (Threads.step s.pool a).map fun pool =>
      { s with
        pool := pool
        calls := match a with
          | .call c => s.calls ++ [c]
          | .step _ => s.calls
        lost := s.lostAfter a pool }
  | .register now capacity => some { s with fan := (s.fan.register now capacity).2 }
  | .writeSub c id filters follow =>
    if c ∈ s.fan.conns ∧ c ∉ s.busy then
      some { s with
        fan := s.fan.writeSub c id filters
        busy := insert c s.busy
        req := if follow then some ⟨c, id, filters, false, []⟩ else s.unfollow c id }
    else none
  | .eraseSub c id =>
    if c ∈ s.fan.conns ∧ c ∉ s.busy then
      let (removed, fan) := s.fan.eraseSub c id
      some { s with fan := fan, busy := if removed then insert c s.busy else s.busy, req := s.unfollow c id }
    else none
  | .reindex c =>
    if c ∈ s.busy then
      some { s with
        fan := s.fan.reindex c
        busy := s.busy.erase c
        req := s.req.map fun q => if q.conn = c then { q with filed := true } else q }
    else none
  | .unregister c =>
    if c ∈ s.fan.conns ∧ c ∉ s.busy then
      some { s with fan := s.fan.unregister c, req := s.req.filter fun q => q.conn ≠ c }
    else none
  | .query =>
    match s.req with
    | some q =>
      if q.filed ∧ q.queried.length < q.filters.length then
        some { s with req := some { q with queried := q.queried ++ [s.pool.shared.idx] } }
      else none
    | none => none
  | .collect i visit =>
    match s.eventOf i, s.pool.threads[i]? with
    | some e, some (.done (.inserted (.inserted _))) =>
      if s.publishers.any fun p => p.thread = i then none
      else some { s with publishers := s.publishers ++ [⟨i, e, s.fan.targets visit e.kind, []⟩] }
    | _, _ => none
  | .deliver k clock =>
    match s.publishers[k]? with
    | some ⟨i, e, c :: todo, handed⟩ =>
      some { s with
        fan := s.fan.modify c (ConnState.deliver clock (.new e))
        publishers := s.publishers.set k ⟨i, e, todo, handed ++ [c]⟩ }
    | _ => none

/-- Any store, no connections, no calls. -/
def start (idx : Index) : Live where
  pool := ⟨⟨idx, fun _ => none, none⟩, []⟩
  calls := []
  lost := fun _ => false
  fan := .new
  busy := ∅
  publishers := []
  req := none

end Live

/-! ## The insert of an event -/

namespace Threads

/-- Where the insert of `e` can be. -/
def OfInsert (e : Event) : Pc → Prop
  | .insert x | .insertTomb x | .entry x | .getOld x _ | .swapSlot x _ | .byId x _ | .early x _
  | .earlyDrop x | .addMemory x _ | .addCount x _ | .addSets x _ _ | .finalId x _ | .finalWinner x _
  | .cleanId x | .cleanMemory x | .cleanCount x => x = e
  | .cleanSets x o _ => x = e ∧ ∀ r, o ≠ .inserted r
  | .rmById c _ | .rmMemory c _ | .rmCount c _ | .rmSlot c _ | .rmSets c _ _ => c = .swap e
  | .tombPut _ _ | .tombPush _ _ | .tombEvict _ | .tombStore _ => False
  | .done r => ∃ o, r = .inserted o

/-- An insert past its `by_id.insert`, on the way to `Inserted`. -/
def Pc.Stored : Pc → Prop
  | .early _ _ | .addMemory _ _ | .addCount _ _ | .addSets _ _ _ | .finalId _ _ | .finalWinner _ _
  | .done (.inserted (.inserted _)) => True
  | _ => False

section
variable {i : Nat} {s s' : Shared} {pc pc' : Pc} {e : Event}

theorem lostRace_ne (r : Option Event) : InsertOutcome.lostRace ≠ .inserted r := nofun

theorem ofInsert_afterTombs (e : Event) : OfInsert e (afterTombs e) := by
  unfold afterTombs
  split
  · rfl
  · rfl

theorem not_stored_afterTombs (e : Event) : ¬ (afterTombs e).Stored := by
  unfold afterTombs
  split
  · exact id
  · exact id

/-- The only step into the states after it is the `by_id.insert` itself. -/
theorem move_ofInsert (h : move i s pc = some (s', pc')) (hpc : OfInsert e pc) :
    OfInsert e pc' ∧ (pc'.Stored → pc.Stored ∨ (∃ r, pc = .byId e r) ∧ (s'.live e.id).isSome = true) := by
  cases move_cases h with
  | noTombs x h =>
    cases hpc
    exact ⟨ofInsert_afterTombs e, fun hs => absurd hs (not_stored_afterTombs e)⟩
  | someTombs x h => exact ⟨hpc, False.elim⟩
  | tombed x h => exact ⟨⟨_, rfl⟩, False.elim⟩
  | untombed x h =>
    cases hpc
    exact ⟨ofInsert_afterTombs e, fun hs => absurd hs (not_stored_afterTombs e)⟩
  | occupied x oldId hg hs => exact ⟨hpc, False.elim⟩
  | vacant x hg hs => exact ⟨hpc, False.elim⟩
  | wins x oldId hw => exact ⟨hpc, False.elim⟩
  | loses x oldId hw => exact ⟨⟨_, rfl⟩, False.elim⟩
  | swaps x oldId =>
    cases hpc
    exact ⟨rfl, False.elim⟩
  | rmMissing c id h =>
    cases hpc
    exact ⟨rfl, False.elim⟩
  | rmFound c id x hx => exact ⟨hpc, False.elim⟩
  | rmMemory c x => exact ⟨hpc, False.elim⟩
  | rmCountSlot c x h => exact ⟨hpc, False.elim⟩
  | rmCountSets c x h => exact ⟨hpc, False.elim⟩
  | rmSlot c x hg => exact ⟨hpc, False.elim⟩
  | rmSet c x b bs => exact ⟨hpc, False.elim⟩
  | rmReturn c x =>
    cases hpc
    exact ⟨rfl, False.elim⟩
  | putDuplicate x r y hy => exact ⟨⟨_, rfl⟩, False.elim⟩
  | putReplaceable x r hx hr =>
    cases hpc
    refine ⟨rfl, fun _ => Or.inr ⟨⟨r, rfl⟩, ?_⟩⟩
    rw [Shared.live_putId, if_pos rfl]
    rfl
  | putPlain x r hx hr =>
    cases hpc
    refine ⟨rfl, fun _ => Or.inr ⟨⟨r, rfl⟩, ?_⟩⟩
    rw [Shared.live_putId, if_pos rfl]
    rfl
  | earlyWin x r hg hs => exact ⟨hpc, fun _ => Or.inl trivial⟩
  | earlyLose x r hg hs => exact ⟨hpc, False.elim⟩
  | earlyDrop x => exact ⟨⟨_, rfl⟩, False.elim⟩
  | addMemory x r => exact ⟨hpc, fun _ => Or.inl trivial⟩
  | addCount x r => exact ⟨hpc, fun _ => Or.inl trivial⟩
  | addSet x r b bs => exact ⟨hpc, fun _ => Or.inl trivial⟩
  | addedSets x r => exact ⟨hpc, fun _ => Or.inl trivial⟩
  | finalMissing x r h =>
    refine ⟨⟨hpc, fun r => ?_⟩, False.elim⟩
    split
    · exact lostRace_ne r
    · nofun
  | finalPlain x r hr => exact ⟨⟨_, rfl⟩, fun _ => Or.inl trivial⟩
  | finalFound x r hr => exact ⟨hpc, fun _ => Or.inl trivial⟩
  | finalWin x r hg hs => exact ⟨⟨_, rfl⟩, fun _ => Or.inl trivial⟩
  | finalLose x r hg hs => exact ⟨hpc, False.elim⟩
  | cleanFound x y hy => exact ⟨hpc, False.elim⟩
  | cleanMissing x h => exact ⟨⟨hpc, lostRace_ne⟩, False.elim⟩
  | cleanMemory x => exact ⟨hpc, False.elim⟩
  | cleanCount x => exact ⟨⟨hpc, lostRace_ne⟩, False.elim⟩
  | cleanSet x o b bs => exact ⟨hpc, False.elim⟩
  | cleaned x o =>
    refine ⟨⟨_, rfl⟩, fun hs => ?_⟩
    cases o with
    | inserted r => exact absurd rfl (hpc.2 r)
    | _ => exact False.elim hs
  | tomb _ _ t q hpc₁ hpc₂ =>
    rcases hpc₁ with ⟨id, r, rfl⟩ | ⟨id, r, rfl⟩ | ⟨r, rfl⟩ | ⟨r, rfl⟩
    all_goals exact False.elim hpc

end

end Threads

namespace Live

/-! ## The fanout -/

def Req.sub (q : Req) : Sub := ⟨q.id, q.filters⟩

/-- The subscription is there; once filed, the connection's key covers it, also while
another subscription of the connection changes. -/
structure Filed (fan : Fanout) (q : Req) : Prop where
  conn : q.conn ∈ fan.conns
  sub : Req.sub q ∈ (fan.state q.conn).subs
  covered : q.filed = true → ∃ subs, Req.sub q ∈ subs ∧ (fan.state q.conn).kindKey = kindKeyOf subs

section
variable {fan : Fanout} {q : Req} {busy : ConnId → Prop} {c : ConnId}

/-- Only the connection's own state matters. -/
theorem Filed.congr {fan' : Fanout} (h : Filed fan q) (hc : q.conn ∈ fan'.conns)
    (hsubs : (fan'.state q.conn).subs = (fan.state q.conn).subs)
    (hkey : (fan'.state q.conn).kindKey = (fan.state q.conn).kindKey) : Filed fan' q := by
  refine ⟨hc, ?_, ?_⟩
  · rw [hsubs]
    exact h.sub
  · rw [hkey]
    exact h.covered

theorem Filed.register (h : Filed fan q) (hr : fan.Routed busy) (now capacity : Nat) :
    Filed (fan.register now capacity).2 q := by
  have hne : q.conn ≠ fan.nextId + 1 := by
    intro heq
    have hle := hr.bound _ h.conn
    rw [heq] at hle
    exact Nat.not_succ_le_self _ hle
  have hstate := Fanout.state_register fan now capacity q.conn
  rw [if_neg hne] at hstate
  exact h.congr (Finset.mem_insert_of_mem h.conn) (by rw [hstate]) (by rw [hstate])

theorem Filed.modify (h : Filed fan q) {f : ConnState → ConnState}
    (hsubs : (f (fan.state c)).subs = (fan.state c).subs)
    (hkey : (f (fan.state c)).kindKey = (fan.state c).kindKey) : Filed (fan.modify c f) q :=
  h.congr h.conn (Fanout.state_modify_congr fan c q.conn f hsubs) (Fanout.state_modify_congr fan c q.conn f hkey)

/-- Other subscriptions, the same key. -/
theorem Filed.write (h : Filed fan q) {subs : List Sub} (hsub : q.conn = c → Req.sub q ∈ subs) :
    Filed (fan.modify c fun conn => { conn with subs := subs }) q := by
  have hstate := Fanout.state_modify fan c q.conn fun conn => { conn with subs := subs }
  by_cases hc : q.conn = c
  · rw [if_pos hc] at hstate
    refine ⟨h.conn, ?_, ?_⟩
    · rw [hstate]
      exact hsub hc
    · rw [hstate, ← hc]
      exact h.covered
  · rw [if_neg hc] at hstate
    exact h.congr h.conn (by rw [hstate]) (by rw [hstate])

/-- The second half of `set_sub` and `remove_sub` files the subscription. -/
theorem Filed.reindex (h : Filed fan q) (c : ConnId) :
    Filed (fan.reindex c) (if q.conn = c then { q with filed := true } else q) := by
  have hstate := Fanout.state_reindex fan c q.conn
  have hconn : q.conn ∈ (fan.reindex c).conns := by
    rw [Fanout.conns_reindex]
    exact h.conn
  by_cases hc : q.conn = c
  · rw [if_pos hc]
    rw [if_pos hc, ← hc] at hstate
    refine ⟨hconn, ?_, fun _ => ⟨(fan.state q.conn).subs, h.sub, ?_⟩⟩
    · show Req.sub q ∈ ((fan.reindex c).state q.conn).subs
      rw [← hc, hstate]
      exact h.sub
    · show ((fan.reindex c).state q.conn).kindKey = _
      rw [← hc, hstate]
  · rw [if_neg hc]
    rw [if_neg hc] at hstate
    exact h.congr hconn (by rw [hstate]) (by rw [hstate])

theorem Filed.unregister (h : Filed fan q) (hne : q.conn ≠ c) : Filed (fan.unregister c) q := by
  have hstate := Fanout.state_unregister fan c q.conn
  rw [if_neg hne] at hstate
  refine h.congr ?_ (by rw [hstate]) (by rw [hstate])
  rw [Fanout.conns_unregister]
  exact Finset.mem_erase.2 ⟨hne, h.conn⟩

end

/-! ## The invariant -/

/-- An insert that has stored its event: the event is live, unless it was removed since. -/
def Stored (s : Live) (i : Nat) (e : Event) (pc : Threads.Pc) : Prop :=
  Threads.OfInsert e pc ∧ (pc.Stored → s.lost i = true ∨ (s.pool.shared.live e.id).isSome = true)

/-- A publisher has the connection among its targets, or its event is seen by every
query, unless it was removed. -/
def Served (s : Live) (q : Req) (p : Publisher) : Prop :=
  (q.conn ∈ p.todo ∨ q.conn ∈ p.handed) ∨
    ∀ snap ∈ q.queried, s.lost p.thread = true ∨ (snap.get p.ev.id).isSome = true

structure Inv (s : Live) : Prop where
  routed : s.fan.Routed fun c => c ∈ s.busy
  busy : ∀ c ∈ s.busy, c ∈ s.fan.conns
  calls : s.calls.length = s.pool.threads.length
  inserts : ∀ i e pc, s.eventOf i = some e → s.pool.threads[i]? = some pc → s.Stored i e pc
  published : ∀ p ∈ s.publishers, s.eventOf p.thread = some p.ev ∧
    ∃ r, s.pool.threads[p.thread]? = some (.done (.inserted (.inserted r)))
  filed : ∀ q, s.req = some q → Filed s.fan q
  unqueried : ∀ q, s.req = some q → q.filed = false → q.queried = []
  served : ∀ q, s.req = some q → q.filed = true → ∀ p ∈ s.publishers, (Req.sub q).matches p.ev = true →
      s.Served q p

theorem inv_start (idx : Index) : Inv (start idx) where
  routed := Fanout.routed_new _
  busy := by simp [start]
  calls := rfl
  inserts := by simp [start, eventOf]
  published := by simp [start]
  filed := by simp [start]
  unqueried := by simp [start]
  served := by simp [start]

section
variable {s : Live}

/-- What changes only the fanout. -/
theorem Inv.fanout (h : Inv s) {fan : Fanout} {busy : Finset ConnId} {req : Option Req}
    (hr : fan.Routed fun c => c ∈ busy) (hb : ∀ c ∈ busy, c ∈ fan.conns)
    (hq : ∀ q, req = some q → Filed fan q ∧ (q.filed = false → q.queried = []) ∧
      (q.filed = true → ∀ p ∈ s.publishers, (Req.sub q).matches p.ev = true → s.Served q p)) :
    Inv { s with fan := fan, busy := busy, req := req } where
  routed := hr
  busy := hb
  calls := h.calls
  inserts := h.inserts
  published := h.published
  filed q hs := (hq q hs).1
  unqueried q hs := (hq q hs).2.1
  served q hs := (hq q hs).2.2

theorem Inv.register (h : Inv s) (now capacity : Nat) : Inv { s with fan := (s.fan.register now capacity).2 } :=
  h.fanout (h.routed.register now capacity) (fun c hc => Finset.mem_insert_of_mem (h.busy c hc))
    fun q hq => ⟨(h.filed q hq).register h.routed now capacity, h.unqueried q hq, h.served q hq⟩

theorem mem_unfollow {c : ConnId} {id : Str} {q : Req} (h : s.unfollow c id = some q) :
    s.req = some q ∧ (q.conn = c → q.id ≠ id) := by
  obtain ⟨hq, hp⟩ := Option.filter_eq_some_iff.1 h
  refine ⟨hq, fun hc hid => ?_⟩
  simp [hc, hid] at hp

/-- The first half of a change: the connection is busy, and the followed `REQ` keeps its
subscription. -/
theorem Inv.write (h : Inv s) {c : ConnId} (hc : c ∈ s.fan.conns) {subs : List Sub}
    (hids : (subs.map Sub.id).Nodup) {req : Option Req}
    (hreq : ∀ q, req = some q → (s.req = some q ∧ (q.conn = c → Req.sub q ∈ subs)) ∨
      q.conn = c ∧ Req.sub q ∈ subs ∧ q.filed = false ∧ q.queried = []) :
    Inv { s with
      fan := s.fan.modify c fun conn => { conn with subs := subs }
      busy := insert c s.busy
      req := req } := by
  refine h.fanout ?_ ?_ ?_
  · have hw := h.routed.write (c := c) hids
    simpa only [Finset.mem_insert] using hw
  · intro x hx
    rcases Finset.mem_insert.1 hx with rfl | hx
    · exact hc
    · exact h.busy x hx
  · intro q hq
    rcases hreq q hq with ⟨hs, hsub⟩ | ⟨hqc, hsub, hfiled, hqueried⟩
    · exact ⟨(h.filed q hs).write hsub, h.unqueried q hs, h.served q hs⟩
    · refine ⟨⟨by rw [hqc]; exact hc, ?_, ?_⟩, fun _ => hqueried, ?_⟩
      · rw [hqc, Fanout.state_modify, if_pos rfl]
        exact hsub
      · rw [hfiled]
        nofun
      · rw [hfiled]
        nofun

/-- A `REQ` that is still followed has its subscription, and under another id. -/
theorem Inv.sub_of_unfollow (h : Inv s) {c : ConnId} {id : Str} {q : Req} (hq : s.unfollow c id = some q) :
    s.req = some q ∧ (q.conn = c → Req.sub q ∈ (s.fan.state c).subs ∧ q.id ≠ id) := by
  obtain ⟨hreq, hid⟩ := mem_unfollow hq
  refine ⟨hreq, fun hqc => ⟨?_, hid hqc⟩⟩
  have hsub := (h.filed q hreq).sub
  rwa [hqc] at hsub

theorem Inv.writeSub (h : Inv s) {c : ConnId} (hc : c ∈ s.fan.conns) (id : Str) (filters : List Filter)
    (follow : Bool) :
    Inv { s with
      fan := s.fan.writeSub c id filters
      busy := insert c s.busy
      req := if follow then some ⟨c, id, filters, false, []⟩ else s.unfollow c id } := by
  refine h.write hc (ConnState.nodup_putSub id filters (h.routed.subIds c)) fun q hq => ?_
  split at hq
  · cases hq
    exact Or.inr ⟨rfl, ConnState.mem_putSub_self id filters _, rfl, rfl⟩
  · obtain ⟨hreq, hsub⟩ := h.sub_of_unfollow hq
    exact Or.inl ⟨hreq, fun hqc => ConnState.mem_putSub_of_ne filters (hsub hqc).1 (hsub hqc).2⟩

theorem Inv.eraseSub (h : Inv s) {c : ConnId} (hc : c ∈ s.fan.conns) (id : Str) :
    Inv { s with
      fan := (s.fan.eraseSub c id).2
      busy := if (s.fan.eraseSub c id).1 then insert c s.busy else s.busy
      req := s.unfollow c id } := by
  cases hrem : (s.fan.eraseSub c id).1 with
  | true =>
    simp only [if_true]
    refine h.write hc (ConnState.nodup_dropSub id (h.routed.subIds c)) fun q hq => Or.inl ?_
    obtain ⟨hreq, hsub⟩ := h.sub_of_unfollow hq
    exact ⟨hreq, fun hqc => List.mem_filter.2 ⟨(hsub hqc).1, decide_eq_true (hsub hqc).2⟩⟩
  | false =>
    -- nothing was removed
    simp only [Bool.false_eq_true, if_false]
    rw [Fanout.eraseSub_false hrem]
    refine h.fanout h.routed h.busy fun q hq => ?_
    have hreq := (h.sub_of_unfollow hq).1
    exact ⟨h.filed q hreq, h.unqueried q hreq, h.served q hreq⟩

theorem Inv.reindex (h : Inv s) {c : ConnId} (hc : c ∈ s.busy) :
    Inv { s with
      fan := s.fan.reindex c
      busy := s.busy.erase c
      req := s.req.map fun q => if q.conn = c then { q with filed := true } else q } := by
  have hb : (fun x => x ∈ s.busy) = fun x => x = c ∨ x ∈ s.busy.erase c := by
    funext x
    rw [Finset.mem_erase]
    by_cases hx : x = c
    · simp [hx, hc]
    · simp [hx]
  have hr := h.routed
  rw [hb] at hr
  refine h.fanout (hr.reindex (h.busy c hc)) ?_ ?_
  · intro x hx
    rw [Fanout.conns_reindex]
    exact h.busy x (Finset.mem_erase.1 hx).2
  · intro q' hq'
    obtain ⟨q, hq, rfl⟩ := Option.map_eq_some_iff.1 hq'
    refine ⟨(h.filed q hq).reindex c, ?_⟩
    split
    · refine ⟨nofun, fun _ p hp hm => ?_⟩
      cases hfiled : q.filed with
      | false =>
        -- nothing was queried before `set_sub` returned
        refine Or.inr fun snap hsnap => ?_
        rw [show ({ q with filed := true } : Req).queried = [] from h.unqueried q hq hfiled] at hsnap
        cases hsnap
      | true => exact h.served q hq hfiled p hp hm
    · exact ⟨h.unqueried q hq, h.served q hq⟩

theorem Inv.unregister (h : Inv s) {c : ConnId} (hc : c ∉ s.busy) :
    Inv { s with fan := s.fan.unregister c, req := s.req.filter fun q => q.conn ≠ c } := by
  refine h.fanout (h.routed.unregister c) ?_ ?_
  · intro x hx
    rw [Fanout.conns_unregister]
    exact Finset.mem_erase.2 ⟨fun heq => hc (heq ▸ hx), h.busy x hx⟩
  · intro q hq
    obtain ⟨hs, hne⟩ := Option.filter_eq_some_iff.1 hq
    exact ⟨(h.filed q hs).unregister (of_decide_eq_true hne), h.unqueried q hs, h.served q hs⟩

/-- Each query sees what was stored by then. -/
theorem Inv.query (h : Inv s) {q : Req} (hq : s.req = some q) (hfiled : q.filed = true) :
    Inv { s with req := some { q with queried := q.queried ++ [s.pool.shared.idx] } } where
  routed := h.routed
  busy := h.busy
  calls := h.calls
  inserts := h.inserts
  published := h.published
  filed := by
    rintro q' hq'
    cases hq'
    exact ⟨(h.filed q hq).conn, (h.filed q hq).sub, (h.filed q hq).covered⟩
  unqueried := by
    rintro q' hq' hf
    cases hq'
    rw [hfiled] at hf
    cases hf
  served := by
    rintro q' hq' - p hp hm
    cases hq'
    rcases h.served q hq hfiled p hp hm with htarget | hseen
    · exact Or.inl htarget
    · refine Or.inr fun snap hsnap => ?_
      rcases List.mem_append.1 hsnap with hsnap | hsnap
      · exact hseen snap hsnap
      · rw [List.mem_singleton.1 hsnap]
        obtain ⟨hev, r, hdone⟩ := h.published p hp
        exact (h.inserts p.thread p.ev _ hev hdone).2 trivial

/-- Targets collected now have the connection of a filed subscription that matches. -/
theorem Inv.collect (h : Inv s) {i : Nat} {e : Event} {r : Option Event} (he : s.eventOf i = some e)
    (hdone : s.pool.threads[i]? = some (.done (.inserted (.inserted r)))) (visit : ConnVisit) :
    Inv { s with publishers := s.publishers ++ [⟨i, e, s.fan.targets visit e.kind, []⟩] } where
  routed := h.routed
  busy := h.busy
  calls := h.calls
  inserts := h.inserts
  published := by
    intro p hp
    rcases List.mem_append.1 hp with hp | hp
    · exact h.published p hp
    · rw [List.mem_singleton.1 hp]
      exact ⟨he, r, hdone⟩
  filed := h.filed
  unqueried := h.unqueried
  served := by
    intro q hq hfiled p hp hm
    rcases List.mem_append.1 hp with hp | hp
    · exact h.served q hq hfiled p hp hm
    · rw [List.mem_singleton.1 hp] at hm ⊢
      obtain ⟨subs, hsub, hkey⟩ := (h.filed q hq).covered hfiled
      exact Or.inl (Or.inl (h.routed.indexed.mem_targets (h.filed q hq).conn hkey hsub hm visit))

theorem Inv.deliver (h : Inv s) {k i : Nat} {e : Event} {c : ConnId} {todo handed : List ConnId}
    (hk : s.publishers[k]? = some ⟨i, e, c :: todo, handed⟩) (clock : Str → Nat) :
    Inv { s with
      fan := s.fan.modify c (ConnState.deliver clock (.new e))
      publishers := s.publishers.set k ⟨i, e, todo, handed ++ [c]⟩ } := by
  obtain ⟨hsubs, hkey⟩ := ConnState.deliver_frame clock (.new e) (s.fan.state c)
  have hmem := List.mem_of_getElem? hk
  refine ⟨h.routed.modify hkey hsubs, h.busy, h.calls, h.inserts, ?_, ?_, h.unqueried, ?_⟩
  · intro p hp
    rcases List.mem_or_eq_of_mem_set hp with hp | rfl
    · exact h.published p hp
    · obtain ⟨hev, hdone⟩ := h.published _ hmem
      exact ⟨hev, hdone⟩
  · exact fun q hq => (h.filed q hq).modify hsubs hkey
  · intro q hq hfiled p hp hm
    rcases List.mem_or_eq_of_mem_set hp with hp | rfl
    · exact h.served q hq hfiled p hp hm
    · rcases h.served q hq hfiled _ hmem hm with (htodo | hhanded) | hseen
      · rcases List.mem_cons.1 htodo with heq | htodo
        · exact Or.inl (Or.inr (List.mem_append_right _ (List.mem_singleton.2 heq)))
        · exact Or.inl (Or.inl htodo)
      · exact Or.inl (Or.inr (List.mem_append_left _ hhanded))
      · exact Or.inr hseen

/-! ## The store -/

section
variable {a : Pool.Act Threads.Call} {pool : Threads.Config} {j : Nat}

theorem lostAfter_of_lost (hns : ¬ (a = .step j ∧ s.stores j = true)) (h : s.lost j = true) :
    s.lostAfter a pool j = true := by
  unfold lostAfter
  rw [if_neg hns, h, Bool.true_or]

/-- What was live is live still, or lost now. -/
theorem lostAfter_or_live {e : Event} (hns : ¬ (a = .step j ∧ s.stores j = true)) (he : s.eventOf j = some e)
    (h : s.lost j = true ∨ (s.pool.shared.live e.id).isSome = true) :
    s.lostAfter a pool j = true ∨ (pool.shared.live e.id).isSome = true := by
  rcases h with h | h
  · exact Or.inl (lostAfter_of_lost hns h)
  · cases hlive : pool.shared.live e.id with
    | some x => exact Or.inr rfl
    | none =>
      refine Or.inl ?_
      unfold lostAfter
      rw [if_neg hns, he, Option.any_some, h, hlive]
      exact Bool.or_true _

theorem not_stores {pc : Threads.Pc} (hpc : s.pool.threads[j]? = some pc) (hne : ∀ e r, pc ≠ .byId e r) :
    s.stores j = false := by
  unfold stores
  rw [hpc]
  split
  · rename_i e r heq
    exact absurd (Option.some.inj heq) (hne e r)
  · rfl

theorem stored_ne_byId {pc : Threads.Pc} (h : pc.Stored) (e : Event) (r : Option Event) : pc ≠ .byId e r := by
  rintro rfl
  exact h

end

/-- A call that begins changes nothing. -/
theorem Inv.begin (h : Inv s) (c : Threads.Call) :
    Inv { s with
      pool := ⟨s.pool.shared, s.pool.threads ++ [Threads.start c]⟩
      calls := s.calls ++ [c]
      lost := s.lostAfter (.call c) ⟨s.pool.shared, s.pool.threads ++ [Threads.start c]⟩ } := by
  have hns : ∀ j, ¬ (Pool.Act.call c = .step j ∧ s.stores j = true) := by
    rintro j ⟨heq, -⟩
    cases heq
  have hcalls : ∀ j, j < s.pool.threads.length → (s.calls ++ [c])[j]? = s.calls[j]? := by
    intro j hj
    rw [← h.calls] at hj
    exact List.getElem?_append_left hj
  have hthreads : ∀ j, j < s.pool.threads.length →
      (s.pool.threads ++ [Threads.start c])[j]? = s.pool.threads[j]? :=
    fun j hj => List.getElem?_append_left hj
  refine ⟨h.routed, h.busy, ?_, ?_, ?_, h.filed, h.unqueried, ?_⟩
  · show (s.calls ++ [c]).length = (s.pool.threads ++ [Threads.start c]).length
    rw [List.length_append, List.length_append, h.calls]
    rfl
  · intro j e pc he hj
    simp only [eventOf] at he hj
    by_cases hlt : j < s.pool.threads.length
    · rw [hcalls j hlt] at he
      rw [hthreads j hlt] at hj
      obtain ⟨hof, hold⟩ := h.inserts j e pc he hj
      exact ⟨hof, fun hstored => lostAfter_or_live (hns j) he (hold hstored)⟩
    · -- the call itself
      have hlast : j = s.pool.threads.length := by
        have hbound := (List.getElem?_eq_some_iff.1 hj).1
        rw [List.length_append, List.length_singleton] at hbound
        omega
      rw [hlast, List.getElem?_concat_length] at hj
      rw [hlast, ← h.calls, List.getElem?_concat_length] at he
      cases hj
      split at he
      · rename_i x heq
        cases heq
        cases he
        exact ⟨rfl, False.elim⟩
      · cases he
  · intro p hp
    obtain ⟨hev, r, hr⟩ := h.published p hp
    have hlt := (List.getElem?_eq_some_iff.1 hr).1
    refine ⟨?_, r, (hthreads _ hlt).trans hr⟩
    simp only [eventOf]
    rw [hcalls _ hlt]
    exact hev
  · intro q hq hfiled p hp hm
    rcases h.served q hq hfiled p hp hm with htarget | hseen
    · exact Or.inl htarget
    · refine Or.inr fun snap hsnap => ?_
      rcases hseen snap hsnap with hlost | hlive
      · exact Or.inl (lostAfter_of_lost (hns _) hlost)
      · exact Or.inr hlive

theorem Inv.store (h : Inv s) {a : Pool.Act Threads.Call} {s' : Live} (hs : s.step (.store a) = some s') :
    Inv s' := by
  obtain ⟨pool, hpool, rfl⟩ := Option.map_eq_some_iff.1 hs
  rcases Pool.step_cases hpool with ⟨c, rfl, rfl⟩ | ⟨i, pc, sh, pc', rfl, hp, hm, rfl⟩
  · exact h.begin c
  · have hevent : ∀ j, eventOf { s with
        pool := ⟨sh, s.pool.threads.set i pc'⟩
        lost := s.lostAfter (.step i) ⟨sh, s.pool.threads.set i pc'⟩ } j = s.eventOf j := fun j => rfl
    have hdone : ∀ p ∈ s.publishers, p.thread ≠ i := by
      intro p hp' heq
      obtain ⟨-, r, hr⟩ := h.published p hp'
      rw [heq, hp] at hr
      cases hr
      cases hm
    refine ⟨h.routed, h.busy, ?_, ?_, ?_, h.filed, h.unqueried, ?_⟩
    · show s.calls.length = (s.pool.threads.set i pc').length
      rw [List.length_set]
      exact h.calls
    · intro j e pcj he hj
      rw [hevent] at he
      by_cases hji : j = i
      · rw [hji] at he hj ⊢
        have hpcj : pcj = pc' := by
          have hset : (s.pool.threads.set i pc')[i]? = some pcj := hj
          rw [List.getElem?_set_self (List.getElem?_eq_some_iff.1 hp).1] at hset
          exact (Option.some.inj hset).symm
        rw [hpcj]
        obtain ⟨hof, hold⟩ := h.inserts i e pc he hp
        obtain ⟨hof', hnew⟩ := Threads.move_ofInsert hm hof
        refine ⟨hof', fun hstored => ?_⟩
        rcases hnew hstored with hpc | ⟨-, hlive⟩
        · refine lostAfter_or_live ?_ he (hold hpc)
          rintro ⟨-, hst⟩
          rw [not_stores hp (stored_ne_byId hpc)] at hst
          cases hst
        · exact Or.inr hlive
      · have hpcj : s.pool.threads[j]? = some pcj := by
          have hset : (s.pool.threads.set i pc')[j]? = some pcj := hj
          rwa [List.getElem?_set_ne (Ne.symm hji)] at hset
        obtain ⟨hof, hold⟩ := h.inserts j e pcj he hpcj
        refine ⟨hof, fun hstored => lostAfter_or_live ?_ he (hold hstored)⟩
        rintro ⟨heq, -⟩
        cases heq
        exact hji rfl
    · intro p hp'
      obtain ⟨hev, r, hr⟩ := h.published p hp'
      refine ⟨hev, r, ?_⟩
      show (s.pool.threads.set i pc')[p.thread]? = _
      rw [List.getElem?_set_ne (Ne.symm (hdone p hp'))]
      exact hr
    · intro q hq hfiled p hp' hmatch
      rcases h.served q hq hfiled p hp' hmatch with htarget | hseen
      · exact Or.inl htarget
      · refine Or.inr fun snap hsnap => ?_
        rcases hseen snap hsnap with hlost | hlive
        · refine Or.inl (lostAfter_of_lost ?_ hlost)
          rintro ⟨heq, -⟩
          cases heq
          exact hdone p hp' rfl
        · exact Or.inr hlive

/-! ## Runs -/

/-- The step lemma. -/
theorem Inv.step (h : Inv s) {a : Act} {s' : Live} (hs : s.step a = some s') : Inv s' := by
  cases a with
  | store a => exact h.store hs
  | register now capacity =>
    cases hs
    exact h.register now capacity
  | writeSub c id filters follow =>
    simp only [Live.step] at hs
    split at hs
    · rename_i hc
      cases hs
      exact h.writeSub hc.1 id filters follow
    · cases hs
  | eraseSub c id =>
    simp only [Live.step] at hs
    split at hs
    · rename_i hc
      cases hs
      exact h.eraseSub hc.1 id
    · cases hs
  | reindex c =>
    simp only [Live.step] at hs
    split at hs
    · rename_i hc
      cases hs
      exact h.reindex hc
    · cases hs
  | unregister c =>
    simp only [Live.step] at hs
    split at hs
    · rename_i hc
      cases hs
      exact h.unregister hc.2
    · cases hs
  | query =>
    simp only [Live.step] at hs
    split at hs
    · rename_i q hq
      split at hs
      · rename_i hguard
        cases hs
        exact h.query hq hguard.1
      · cases hs
    · cases hs
  | collect i visit =>
    simp only [Live.step] at hs
    split at hs
    · rename_i e r he hdone
      split at hs
      · cases hs
      · cases hs
        exact h.collect he hdone visit
    · cases hs
  | deliver k clock =>
    simp only [Live.step] at hs
    split at hs
    · rename_i hk
      cases hs
      exact h.deliver hk clock
    · cases hs

end

/-- The run lemma. -/
theorem run_inv (idx : Index) {as : List Act} {s : Live} (hs : Machine.run step (start idx) as = some s) : Inv s :=
  Machine.run_invariant (C := fun _ _ => True) (fun _ _ _ h _ hI => hI.step h) as _ s hs
    (Machine.along_of_forall as _ fun _ _ _ => trivial) (inv_start idx)

/-- In every state of every run, for the `REQ` that is followed, each filter of it that
was queried and each publisher whose event matches that filter and was not removed
since it was stored: the event was live in the store at the query, or the publisher
hands it to the connection. -/
theorem run_no_gap (idx : Index) (as : List Act) (s : Live) (hs : Machine.run step (start idx) as = some s)
    (q : Req) (hq : s.req = some q) (k : Nat) (f : Filter) (hf : q.filters[k]? = some f) (snap : Index)
    (hsnap : q.queried[k]? = some snap) (p : Publisher) (hp : p ∈ s.publishers) (hm : f.matchesEvent p.ev = true)
    (hkept : s.lost p.thread = false) :
    (snap.get p.ev.id).isSome = true ∨ q.conn ∈ p.todo ∨ q.conn ∈ p.handed := by
  have hI := run_inv idx hs
  have hfiled : q.filed = true := by
    by_contra hno
    rw [hI.unqueried q hq (eq_false_of_ne_true hno)] at hsnap
    cases hsnap
  have hmatch : (Req.sub q).matches p.ev = true := List.any_eq_true.2 ⟨f, List.mem_of_getElem? hf, hm⟩
  rcases hI.served q hq hfiled p hp hmatch with htarget | hseen
  · exact Or.inr htarget
  · rcases hseen snap (List.mem_of_getElem? hsnap) with hlost | hlive
    · rw [hkept] at hlost
      cases hlost
    · exact Or.inl hlive

/-- A note is stored and published, then subscribed to and queried. -/
def noteThenReq : List Act :=
  (.store (.call (.insert (note 0))) :: List.replicate 9 (.store (.step 0))) ++
    [.collect 0 Fanout.visitAscending, .register 0 8, .writeSub 1 ['a'] [Fanout.notesFilter] true,
        .reindex 1, .query]

theorem run_no_gap_noteThenReq : ∃ s q snap p, Machine.run step (start .new) noteThenReq = some s ∧
    s.req = some q ∧
    q.queried = [snap] ∧ s.publishers = [p] ∧ p.ev = note 0 ∧
    ((snap.get p.ev.id).isSome = true ∨ q.conn ∈ p.todo ∨ q.conn ∈ p.handed) := by
  refine ⟨_, ⟨1, ['a'], [Fanout.notesFilter], true, [_]⟩, _, ⟨0, note 0, _, []⟩, rfl, rfl, rfl, rfl, rfl, ?_⟩
  exact run_no_gap .new noteThenReq _ rfl _ rfl 0 Fanout.notesFilter rfl _ rfl _
    (List.mem_singleton.2 rfl) (by decide) (by decide)

end Live
end Memlay
