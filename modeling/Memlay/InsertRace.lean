import Memlay.CheckpointLoss
import Memlay.Lib.Pool

/-!
# Inserts beside a checkpoint

An insert is taken apart: `index.insert`, then each append to the log.  The appends
of several calls come in any order, before or behind the rotation, and the index is
ahead of the log by what the calls in flight still have to append.  A call that the
index refuses has returned at once.

    solo_eq_insert    alone, the steps are `insert`
    recovers_stored   in every state of every interleaving a load gives back each live
                      event one of whose calls has returned, if the snapshots have only
                      events of one line and no event comes again before its own record
                      is appended

No record is out of date in a way that matters: whatever order they come in, a
recorded version is beaten by the holder of its slot or is the holder, and a recorded
removal is of a version that is beaten (`Settled`).  So a live event comes back when
its own record is on disk, and `Safe` follows where that is: in the log it was
appended to, or in the snapshot, which has every event the index had when it was
collected.  `Sole` says that a call whose record is missing is the only one of its
event, so that no other can have returned.
-/

namespace Memlay
namespace InsertRace

open Index (Shows Inv Agree Fields rules)
open Registers (Board Settled)
open Store (Rec Recorded diskRecs segmentRecs snapshotRecs Whole recover)
open Sys (Puts)
open Lines (OneLine)

/-- A call that is through with the index, with the appends it has to make. -/
structure Call where
  event : Event
  todo : List WalOp
deriving DecidableEq

structure State where
  sys : Sys
  /-- those that have returned stay, with nothing to do -/
  calls : List Call

inductive Act where
  | begin (e : Event)
  /-- call `i` makes its next append -/
  | append (i : Nat)
  | checkpoint (a : Action)
deriving DecidableEq

def init : State := ⟨.init, []⟩

/-- The steps of a checkpoint that goes on. -/
def IsCheckpoint : Action → Bool
  | .rename => true
  | .reopen => true
  | .collect _ => true
  | .renameSnapshot => true
  | .removeOld _ => true
  | _ => false

def State.setIndex (s : State) (idx : Index) : State :=
  { s with sys := { s.sys with store := { s.sys.store with index := idx } } }

/-- The appends of an insert, by what the index answered. -/
def appends (e : Event) : InsertOutcome → List WalOp
  | .inserted replaced => .insert e.raw :: replaced.toList.map fun old => .delete old.id
  -- the call returns with this answer
  | _ => []

def step (x : Ext) (s : State) : Act → Option State
  | .begin e =>
    if e.isEphemeral then some { s with calls := s.calls ++ [⟨e, []⟩] }
    else
      match s.sys.store.index.insert e with
      | (outcome, idx) => some { s.setIndex idx with calls := s.calls ++ [⟨e, appends e outcome⟩] }
  | .append i =>
    -- the rotation holds the log's lock
    if s.sys.phase = .renamed then none
    else
      match s.calls[i]? with
      | some ⟨e, op :: todo⟩ =>
        some ⟨{ s.sys with store := s.sys.store.append op }, s.calls.set i ⟨e, todo⟩⟩
      | _ => none
  | .checkpoint a =>
    if IsCheckpoint a then (Sys.step x s.sys a).map fun t => ⟨t, s.calls⟩ else none

/-- The events of the calls of a run. -/
def Begun (as : List Act) (e : Event) : Prop := Act.begin e ∈ as

/-- No checkpoint starts while there is a `wal.log.old`. -/
def Fresh (s : State) (a : Act) : Prop := a = .checkpoint .rename → s.sys.store.files.walOld = none

/-- The call has stored its event, and has the event's record still to append. -/
def Call.Unlogged (c : Call) : Prop := ∃ data, WalOp.insert data ∈ c.todo

/-- No event that is live is sent again while a call of it is unlogged. -/
def Prompt (s : State) (a : Act) : Prop :=
  ∀ e, a = .begin e → (∃ y, s.sys.store.index.byId.lookup e.id = some y) →
    ∀ c ∈ s.calls, c.event.id = e.id → ¬ c.Unlogged

/-- Each event of a snapshot is written on one line. -/
def OneLiners (as : List Act) : Prop :=
  ∀ es, Act.checkpoint (.collect es) ∈ as → ∀ e ∈ es, e.raw ≠ [] ∧ OneLine e.raw

/-! ## Alone, the steps are `insert` -/

/-- The appends of one call, one after the other. -/
theorem run_appends (x : Ext) (e : Event) (todo : List WalOp) :
    ∀ s : State, s.sys.phase ≠ .renamed → ∀ i, s.calls[i]? = some ⟨e, todo⟩ →
      ∃ t, Machine.run (step x) s (todo.map fun _ => .append i) = some t ∧
        t.sys = { s.sys with store := todo.foldl Store.append s.sys.store } := by
  induction todo with
  | nil => exact fun s _ i _ => ⟨s, rfl, rfl⟩
  | cons op todo ih =>
    intro s hs i hi
    obtain ⟨t, ht, hsys⟩ := ih ⟨{ s.sys with store := s.sys.store.append op }, s.calls.set i ⟨e, todo⟩⟩ hs i
      (Pool.get_set_self _ hi)
    refine ⟨t, ?_, hsys⟩
    rw [List.map_cons]
    refine (Machine.run_cons_eq_some _).2 ⟨_, ?_, ht⟩
    simp only [step, if_neg hs, hi]

theorem foldl_appends (st : Store) (e : Event) (heph : e.isEphemeral = false) :
    (appends e (st.index.insert e).1).foldl Store.append { st with index := (st.index.insert e).2 } =
      (st.insert e).2 := by
  unfold Store.insert
  rw [if_neg (by rw [heph]; decide)]
  cases hi : st.index.insert e with
  | mk o idx =>
    cases o with
    | inserted replaced => cases replaced <;> rfl
    | duplicate => rfl
    | deleted => rfl
    | lostRace => rfl

theorem solo_eq_insert (x : Ext) (s : State) (e : Event) (hlock : s.sys.phase ≠ .renamed) :
    ∃ as : List Act, (∀ a ∈ as, a = .begin e ∨ ∃ i, a = .append i) ∧
      ∃ t, Machine.run (step x) s as = some t ∧ t.sys = { s.sys with store := (s.sys.store.insert e).2 } := by
  cases heph : e.isEphemeral with
  | true =>
    refine ⟨[.begin e], by simp, { s with calls := s.calls ++ [⟨e, []⟩] }, ?_, ?_⟩
    · refine (Machine.run_cons_eq_some _).2 ⟨_, ?_, rfl⟩
      simp only [step, if_pos heph]
    · unfold Store.insert
      rw [if_pos heph]
  | false =>
    obtain ⟨t, ht, hsys⟩ := run_appends x e (appends e (s.sys.store.index.insert e).1)
      { s.setIndex (s.sys.store.index.insert e).2 with
        calls := s.calls ++ [⟨e, appends e (s.sys.store.index.insert e).1⟩] } hlock s.calls.length (by simp)
    refine ⟨.begin e :: (appends e (s.sys.store.index.insert e).1).map fun _ => .append s.calls.length,
      fun a ha => ?_, t, (Machine.run_cons_eq_some _).2 ⟨_, ?_, ht⟩, ?_⟩
    · rcases List.mem_cons.1 ha with rfl | ha
      · exact Or.inl rfl
      · obtain ⟨op, -, rfl⟩ := List.mem_map.1 ha
        exact Or.inr ⟨_, rfl⟩
    · simp only [step, heph, Bool.false_eq_true, if_false]
    · rw [hsys, ← foldl_appends s.sys.store e heph]
      rfl

/-! ## What is on disk or on its way -/

/-- The records of the appends a call has to make. -/
def Call.recs (x : Ext) (c : Call) : List Rec := c.todo.filterMap (Store.parseOp x)

/-- A call in flight will record the id. -/
def Pending (x : Ext) (calls : List Call) (id : Bytes32) : Prop := ∃ c ∈ calls, Puts (c.recs x) id

/-- Every live event is among the records, or a call in flight will record it. -/
def Safe (x : Ext) (s : State) (recs : List Rec) : Prop :=
  ∀ id y, s.sys.store.index.byId.lookup id = some y → Pending x s.calls id ∨ Puts recs id

structure Flight (x : Ext) (E : Event → Prop) (fields : Bytes32 → Event) (b : Board Bytes32 Index.Slot)
    (s : State) : Prop where
  wholeOld : Whole s.sys.store.files.walOld
  wholeWal : Whole s.sys.store.files.wal
  handle : s.sys.phase ≠ .renamed → s.sys.store.handle = .wal
  inv : Inv E s.sys.store.index
  shows : Shows fields s.sys.store.index b
  /-- nothing is deleted -/
  unburied : b.buried = []
  recsIn : ∀ a ∈ diskRecs x s.sys.store.files, a.In E ∧ Settled (rules fields) b a.onBoard
  callsIn : ∀ c ∈ s.calls, (∀ op ∈ c.todo, Wal.Fits op) ∧
    ∀ a ∈ c.recs x, a.In E ∧ Settled (rules fields) b a.onBoard
  /-- each event that came to the index is beaten by now, or holds its slot -/
  offered : ∀ c ∈ s.calls, E c.event ∧
    (c.event.isEphemeral = false → Settled (rules fields) b (.put c.event.id))
  own : ∀ c ∈ s.calls, ∀ id, Puts (c.recs x) id → id = c.event.id
  onDisk : Safe x s (diskRecs x s.sys.store.files)
  collected : ∀ es, s.sys.phase = .collected es →
    (∀ e ∈ es, e.Readable x ∧ E e ∧ Settled (rules fields) b (.put e.id)) ∧
      Safe x s (es.map .put ++ segmentRecs x s.sys.store.files.wal)
  written : s.sys.phase = .written →
    Safe x s ((snapshotRecs x s.sys.store.files.events).map .put ++ segmentRecs x s.sys.store.files.wal)

section
variable {x : Ext} {E : Event → Prop} {fields : Bytes32 → Event} {b : Board Bytes32 Index.Slot} {s s' : State}

theorem Safe.mono {recs recs' : List Rec} (h : Safe x s recs) (hsub : ∀ id, Puts recs id → Puts recs' id) :
    Safe x s recs' := fun id y hy => (h id y hy).imp_right (hsub id)

theorem flight_init : Flight x E fields Registers.empty init where
  wholeOld := Store.whole_none
  wholeWal := Store.whole_nil
  handle := fun _ => rfl
  inv := Index.inv_new E
  shows := Index.shows_new
  unburied := rfl
  recsIn := fun a ha => absurd ha List.not_mem_nil
  callsIn := fun c hc => absurd hc List.not_mem_nil
  offered := fun c hc => absurd hc List.not_mem_nil
  own := fun c hc => absurd hc List.not_mem_nil
  onDisk := fun id y hy => by simp [init, Sys.init, Store.new, Index.new] at hy
  collected := fun es hes => by cases hes
  written := fun hw => by cases hw

/-! ## `index.insert` -/

theorem recs_appends {e : Event} (hrec : Recorded x e) (o : InsertOutcome) :
    (Call.mk e (appends e o)).recs x = Store.insertRecs e o := by
  unfold Call.recs
  cases o with
  | inserted replaced =>
    simp only [appends]
    rw [List.filterMap_cons, hrec.parseOp]
    cases replaced <;> rfl
  | duplicate => rfl
  | deleted => rfl
  | lostRace => rfl

theorem fits_appends {e : Event} (hrec : Recorded x e) (o : InsertOutcome) :
    ∀ op ∈ appends e o, Wal.Fits op := by
  intro op hop
  cases o with
  | inserted replaced =>
    rcases List.mem_cons.1 hop with rfl | hop
    · exact hrec.fits
    · obtain ⟨old, -, rfl⟩ := List.mem_map.1 hop
      trivial
  | duplicate => exact absurd hop List.not_mem_nil
  | deleted => exact absurd hop List.not_mem_nil
  | lostRace => exact absurd hop List.not_mem_nil

theorem puts_insertRecs {e : Event} {o : InsertOutcome} {id : Bytes32} (h : Puts (Store.insertRecs e o) id) :
    id = e.id := by
  obtain ⟨y, hy, rfl⟩ := h
  cases o with
  | inserted replaced =>
    rcases List.mem_cons.1 hy with hy | hy
    · cases hy
      rfl
    · obtain ⟨old, -, hold⟩ := List.mem_map.1 hy
      cases hold
  | duplicate => exact absurd hy List.not_mem_nil
  | deleted => exact absurd hy List.not_mem_nil
  | lostRace => exact absurd hy List.not_mem_nil

theorem step_begin {e : Event} (h : step x s (.begin e) = some s') :
    (e.isEphemeral = true ∧ s' = { s with calls := s.calls ++ [⟨e, []⟩] }) ∨
    (e.isEphemeral = false ∧ s' = { s.setIndex (s.sys.store.index.insert e).2 with
      calls := s.calls ++ [⟨e, appends e (s.sys.store.index.insert e).1⟩] }) := by
  simp only [step] at h
  split at h
  · exact Or.inl ⟨‹_›, (Option.some.inj h).symm⟩
  · exact Or.inr ⟨Bool.eq_false_iff.2 ‹_›, (Option.some.inj h).symm⟩

/-- A call with nothing to append is no call in flight. -/
theorem Flight.ephemeral (h : Flight x E fields b s) {e : Event} (hE : E e) (heph : e.isEphemeral = true) :
    Flight x E fields b { s with calls := s.calls ++ [⟨e, []⟩] } := by
  have hsafe : ∀ recs, Safe x s recs → Safe x { s with calls := s.calls ++ [⟨e, []⟩] } recs :=
    fun recs hs id y hy => (hs id y hy).imp_left fun ⟨c, hc, hp⟩ => ⟨c, List.mem_append_left _ hc, hp⟩
  refine ⟨h.wholeOld, h.wholeWal, h.handle, h.inv, h.shows, h.unburied, h.recsIn, fun c hc => ?_, fun c hc => ?_,
    fun c hc id hp => ?_, hsafe _ h.onDisk, fun es hes => ⟨(h.collected es hes).1, hsafe _ (h.collected es hes).2⟩,
    fun hw => hsafe _ (h.written hw)⟩
  · rcases List.mem_append.1 hc with hc | hc
    · exact h.callsIn c hc
    · rw [List.mem_singleton.1 hc]
      exact ⟨fun op hop => absurd hop List.not_mem_nil, fun a ha => absurd ha List.not_mem_nil⟩
  · rcases List.mem_append.1 hc with hc | hc
    · exact h.offered c hc
    · rw [List.mem_singleton.1 hc]
      exact ⟨hE, fun hno => absurd (heph.symm.trans hno) (by decide)⟩
  · rcases List.mem_append.1 hc with hc | hc
    · exact h.own c hc id hp
    · rw [List.mem_singleton.1 hc] at hp
      obtain ⟨a, ha, -⟩ := hp
      exact absurd ha List.not_mem_nil

/-- The step of the index: what it makes live is pending, or it changes nothing. -/
theorem Flight.index (h : Flight x E fields b s) (hF : Fields E fields) (hA : Agree E) {e : Event} (hE : E e)
    (hrec : Recorded x e) :
    Flight x E fields (Registers.put (rules fields) b e.id)
      { s.setIndex (s.sys.store.index.insert e).2 with
        calls := s.calls ++ [⟨e, appends e (s.sys.store.index.insert e).1⟩] } := by
  have hsafe : ∀ recs, Safe x s recs → Safe x { s.setIndex (s.sys.store.index.insert e).2 with
      calls := s.calls ++ [⟨e, appends e (s.sys.store.index.insert e).1⟩] } recs := by
    intro recs hs id y hy
    rcases Sys.live_insert hF hA h.inv h.shows hE hy with ⟨z, hz⟩ | hp
    · exact (hs id z hz).imp_left fun ⟨c, hc, hcp⟩ => ⟨c, List.mem_append_left _ hc, hcp⟩
    · exact Or.inl ⟨⟨e, appends e (s.sys.store.index.insert e).1⟩, by simp, by rw [recs_appends hrec]; exact hp⟩
  refine ⟨h.wholeOld, h.wholeWal, h.handle, h.inv.insert hA hE, (h.shows.insert hF h.inv hA hE).1,
    (Registers.put_buried _ _).trans h.unburied, fun a ha => ⟨(h.recsIn a ha).1, (h.recsIn a ha).2.put e.id⟩,
    fun c hc => ?_, fun c hc => ?_, fun c hc id hp => ?_, hsafe _ h.onDisk, fun es hes => ?_,
    fun hw => hsafe _ (h.written hw)⟩
  · rcases List.mem_append.1 hc with hc | hc
    · obtain ⟨h1, h2⟩ := h.callsIn c hc
      exact ⟨h1, fun a ha => ⟨(h2 a ha).1, (h2 a ha).2.put e.id⟩⟩
    · rw [List.mem_singleton.1 hc]
      refine ⟨fits_appends hrec _, fun a ha => ?_⟩
      rw [recs_appends hrec] at ha
      refine ⟨Store.insertRecs_in hE _ a ha, Registers.settled_recsOf h.shows.own e.id _ ?_⟩
      rw [← Store.insertRecs_eq_recsOf hF hA h.inv h.shows hE]
      exact List.mem_map_of_mem ha
  · rcases List.mem_append.1 hc with hc | hc
    · exact ⟨(h.offered c hc).1, fun hno => ((h.offered c hc).2 hno).put e.id⟩
    · rw [List.mem_singleton.1 hc]
      exact ⟨hE, fun _ => Registers.settled_put h.unburied e.id⟩
  · rcases List.mem_append.1 hc with hc | hc
    · exact h.own c hc id hp
    · rw [List.mem_singleton.1 hc] at hp ⊢
      rw [recs_appends hrec] at hp
      exact puts_insertRecs hp
  · obtain ⟨h1, h2⟩ := h.collected es hes
    exact ⟨fun a ha => ⟨(h1 a ha).1, (h1 a ha).2.1, (h1 a ha).2.2.put e.id⟩, hsafe _ h2⟩

theorem Flight.begin (h : Flight x E fields b s) (hF : Fields E fields) (hA : Agree E) {e : Event} (hE : E e)
    (hrec : Recorded x e) (hstep : step x s (.begin e) = some s') : ∃ b', Flight x E fields b' s' := by
  rcases step_begin hstep with ⟨heph, rfl⟩ | ⟨-, rfl⟩
  · exact ⟨b, h.ephemeral hE heph⟩
  · exact ⟨_, h.index hF hA hE hrec⟩

/-! ## An append -/

theorem recs_cons (e : Event) (op : WalOp) (todo : List WalOp) :
    (Call.mk e (op :: todo)).recs x = (Store.parseOp x op).toList ++ (Call.mk e todo).recs x := by
  unfold Call.recs
  rw [List.filterMap_cons]
  cases Store.parseOp x op <;> rfl

/-- What was pending is recorded now, or still pending. -/
theorem Flight.append (h : Flight x E fields b s) {i : Nat} (hstep : step x s (.append i) = some s') :
    Flight x E fields b s' := by
  simp only [step] at hstep
  split at hstep
  · cases hstep
  rename_i hlock
  split at hstep
  · rename_i e op todo hi
    cases hstep
    have hc : Call.mk e (op :: todo) ∈ s.calls := List.mem_of_getElem? hi
    obtain ⟨hfits, hin⟩ := h.callsIn _ hc
    rw [recs_cons] at hin
    have happ := (Store.Appends.refl (x := x) h.wholeOld h.wholeWal s.sys.store.index).concat op
      (hfits op List.mem_cons_self)
    rw [List.nil_append] at happ
    obtain ⟨hold, hwal⟩ := happ.onWal (h.handle hlock)
    have hcall : ∀ c ∈ s.calls.set i ⟨e, todo⟩, c = ⟨e, todo⟩ ∨ c ∈ s.calls := fun c hc =>
      (List.mem_or_eq_of_mem_set hc).symm
    have hsafe : ∀ recs recs', Safe x s recs →
        (∀ id, Puts recs id ∨ Puts (Store.parseOp x op).toList id → Puts recs' id) →
        Safe x ⟨{ s.sys with store := s.sys.store.append op }, s.calls.set i ⟨e, todo⟩⟩ recs' := by
      intro recs recs' hs hsub id y hy
      rcases hs id y hy with hp | hp
      · rcases Pool.exists_set ⟨e, todo⟩ hi hp with hp | hp
        · rw [recs_cons, Sys.puts_append] at hp
          rcases hp with hp | hp
          · exact Or.inr (hsub id (Or.inr hp))
          · exact Or.inl ⟨_, Pool.mem_set_self _ hi, hp⟩
        · exact Or.inl hp
      · exact Or.inr (hsub id (Or.inl hp))
    have hseg : ∀ pre id, Puts (pre ++ segmentRecs x s.sys.store.files.wal) id ∨
        Puts (Store.parseOp x op).toList id →
        Puts (pre ++ segmentRecs x (s.sys.store.append op).files.wal) id := by
      intro pre id hp
      rw [show (s.sys.store.append op).files.wal = ({ s.sys.store with index := s.sys.store.index }.append
        op).files.wal from rfl, hwal, ← List.append_assoc]
      exact Sys.puts_append.2 hp
    have hdisk : ∀ id, Puts (diskRecs x s.sys.store.files) id ∨ Puts (Store.parseOp x op).toList id →
        Puts (diskRecs x (s.sys.store.append op).files) id := by
      rintro id (⟨a, ha, hid⟩ | ⟨a, ha, hid⟩)
      · exact ⟨a, happ.mem_diskRecs.2 (Or.inl ha), hid⟩
      · exact ⟨a, happ.mem_diskRecs.2 (Or.inr ha), hid⟩
    refine ⟨happ.wholeOld, happ.wholeWal, fun hp => happ.handle.trans (h.handle hp), h.inv, h.shows, h.unburied,
      fun a ha => ?_, fun c hc => ?_, fun c hc => ?_, fun c hc id hp => ?_, hsafe _ _ h.onDisk hdisk,
      fun es hes => ?_, fun hw => ?_⟩
    · rcases happ.mem_diskRecs.1 ha with ha | ha
      · exact h.recsIn a ha
      · exact hin a (List.mem_append_left _ ha)
    · rcases hcall c hc with rfl | hc
      · exact ⟨fun op' hop => hfits op' (List.mem_cons_of_mem op hop),
            fun a ha => hin a (List.mem_append_right _ ha)⟩
      · exact h.callsIn c hc
    · rcases hcall c hc with rfl | hc
      · exact h.offered ⟨e, op :: todo⟩ (List.mem_of_getElem? hi)
      · exact h.offered c hc
    · rcases hcall c hc with rfl | hc
      · refine h.own ⟨e, op :: todo⟩ (List.mem_of_getElem? hi) id ?_
        rw [recs_cons]
        exact Sys.puts_append.2 (Or.inr hp)
      · exact h.own c hc id hp
    · obtain ⟨h1, h2⟩ := h.collected es hes
      exact ⟨h1, hsafe _ _ h2 (hseg _)⟩
    · refine hsafe _ _ (h.written hw) fun id hp => ?_
      show Puts ((snapshotRecs x (s.sys.store.append op).files.events).map .put ++ _) id
      rw [show (s.sys.store.append op).files.events = s.sys.store.files.events from happ.events]
      exact hseg _ id hp
  · cases hstep

/-! ## The steps of a checkpoint -/

/-- A step of the checkpoint leaves the calls alone. -/
theorem step_checkpoint {a : Action} (h : step x s (.checkpoint a) = some s') :
    ∃ t, Sys.step x s.sys a = some t ∧ s' = ⟨t, s.calls⟩ := by
  simp only [step] at h
  split at h
  · obtain ⟨t, ht, heq⟩ := Option.map_eq_some_iff.1 h
    exact ⟨t, ht, heq.symm⟩
  · cases h

theorem Flight.rename (h : Flight x E fields b s) (hno : s.sys.store.files.walOld = none)
    (hstep : step x s (.checkpoint .rename) = some s') : Flight x E fields b s' := by
  obtain ⟨t, ht, rfl⟩ := step_checkpoint hstep
  obtain ⟨-, segment, hwal, rfl⟩ := Sys.step_rename ht
  -- the records have moved, and none is gone
  have hrecs : diskRecs x { s.sys.store.files with walOld := some segment, wal := none } =
      diskRecs x s.sys.store.files := by
    unfold diskRecs
    rw [hwal, hno]
    simp only [Store.segmentRecs_none, List.append_nil, List.nil_append]
  have hwhole := h.wholeWal
  rw [hwal] at hwhole
  refine ⟨hwhole, Store.whole_none, fun hp => absurd rfl hp, h.inv, h.shows, h.unburied, fun a ha => ?_, h.callsIn,
    h.offered, h.own, ?_, (fun es hes => by cases hes), fun hw => by cases hw⟩
  · exact h.recsIn a (by rw [← hrecs]; exact ha)
  · show Safe x s (diskRecs x { s.sys.store.files with walOld := some segment, wal := none })
    rw [hrecs]
    exact h.onDisk

theorem Flight.reopen (h : Flight x E fields b s) (hstep : step x s (.checkpoint .reopen) = some s') :
    Flight x E fields b s' := by
  obtain ⟨t, ht, rfl⟩ := step_checkpoint hstep
  obtain ⟨-, rfl⟩ := Sys.step_reopen ht
  have hrecs : diskRecs x s.sys.store.openWal.files = diskRecs x s.sys.store.files :=
    Store.diskRecs_openWal x s.sys.store.files
  have hwhole : Whole (some (s.sys.store.files.wal.getD [])) := h.wholeWal
  refine ⟨h.wholeOld, hwhole, fun _ => rfl, h.inv, h.shows, h.unburied, fun a ha => ?_, h.callsIn,
    h.offered, h.own, ?_, (fun es hes => by cases hes), fun hw => by cases hw⟩
  · exact h.recsIn a (by rw [← hrecs]; exact ha)
  · show Safe x s (diskRecs x s.sys.store.openWal.files)
    rw [hrecs]
    exact h.onDisk

theorem Flight.collect (h : Flight x E fields b s) (hrec : ∀ e, E e → Recorded x e) {es : List Event}
    (hline : ∀ e ∈ es, e.raw ≠ [] ∧ OneLine e.raw) (hstep : step x s (.checkpoint (.collect es)) = some s') :
    Flight x E fields b s' := by
  obtain ⟨t, ht, rfl⟩ := step_checkpoint hstep
  obtain ⟨hrot, hperm, rfl⟩ := Sys.step_collect ht
  refine ⟨h.wholeOld, h.wholeWal, fun _ => h.handle (by rw [hrot]; simp), h.inv, h.shows, h.unburied, h.recsIn,
    h.callsIn, h.offered, h.own, h.onDisk, fun es' hes => ?_, fun hw => by cases hw⟩
  cases hes
  refine ⟨fun e he => ?_, fun id y hy => Or.inr ?_⟩
  · obtain ⟨id, hid⟩ := Table.mem_values_iff.1 (hperm.subset he)
    obtain ⟨hEe, rfl⟩ := h.inv.mem id e hid
    obtain ⟨hne, hl⟩ := hline e he
    exact ⟨⟨⟨hne, hl, (hrec e hEe).parses⟩, (hrec e hEe).fits⟩, hEe, e.id, h.shows.holder_of_lookup hid,
      (rules fields).irrefl _⟩
  · refine Sys.puts_append.2 (Or.inl (Sys.puts_map.2 ⟨y, ?_, (h.inv.mem id y hy).2⟩))
    exact hperm.symm.subset (Table.mem_values_iff.2 ⟨id, hy⟩)

theorem Flight.renameSnapshot (h : Flight x E fields b s)
    (hstep : step x s (.checkpoint .renameSnapshot) = some s') : Flight x E fields b s' := by
  obtain ⟨t, ht, rfl⟩ := step_checkpoint hstep
  obtain ⟨es, hes, rfl⟩ := Sys.step_renameSnapshot ht
  obtain ⟨hE, hlive⟩ := h.collected es hes
  have hsnap : snapshotRecs x (some (writeSnapshot es)) = es :=
    Store.snapshotRecs_writeSnapshot fun e he => (hE e he).1
  have hwritten : Safe x s ((snapshotRecs x (some (writeSnapshot es))).map .put ++
      segmentRecs x s.sys.store.files.wal) := by
    rw [hsnap]
    exact hlive
  refine ⟨h.wholeOld, h.wholeWal, fun _ => h.handle (by rw [hes]; simp), h.inv, h.shows, h.unburied,
    fun a ha => ?_, h.callsIn, h.offered, h.own, ?_, (fun es' hes' => by cases hes'), fun _ => hwritten⟩
  · have ha' : a ∈ (snapshotRecs x (some (writeSnapshot es))).map Rec.put ++
        (segmentRecs x s.sys.store.files.walOld ++ segmentRecs x s.sys.store.files.wal) := ha
    rw [hsnap] at ha'
    rcases List.mem_append.1 ha' with ha | ha
    · obtain ⟨e, he, rfl⟩ := List.mem_map.1 ha
      exact (hE e he).2
    · exact h.recsIn a (List.mem_append_right _ ha)
  · refine hwritten.mono fun id hp => ?_
    show Puts ((snapshotRecs x (some (writeSnapshot es))).map Rec.put ++
      (segmentRecs x s.sys.store.files.walOld ++ segmentRecs x s.sys.store.files.wal)) id
    rw [Sys.puts_append] at hp ⊢
    exact hp.imp_right fun hp => Sys.puts_append.2 (Or.inr hp)

theorem Flight.removeOld (h : Flight x E fields b s) {ok : Bool}
    (hstep : step x s (.checkpoint (.removeOld ok)) = some s') : Flight x E fields b s' := by
  obtain ⟨t, ht, rfl⟩ := step_checkpoint hstep
  obtain ⟨hw, rfl⟩ := Sys.step_removeOld ht
  have hhandle : s.sys.store.handle = .wal := h.handle (by rw [hw]; simp)
  cases ok with
  | false =>
    exact ⟨h.wholeOld, h.wholeWal, fun _ => hhandle, h.inv, h.shows, h.unburied, h.recsIn, h.callsIn, h.offered,
      h.own, h.onDisk, (fun es hes => by cases hes), fun hw => by cases hw⟩
  | true =>
    refine ⟨Store.whole_none, h.wholeWal, fun _ => hhandle, h.inv, h.shows, h.unburied, fun a ha => h.recsIn a ?_,
      h.callsIn, h.offered, h.own, ?_, (fun es hes => by cases hes), fun hw => by cases hw⟩
    · have ha' : a ∈ (snapshotRecs x s.sys.store.files.events).map Rec.put ++
          ([] ++ segmentRecs x s.sys.store.files.wal) := ha
      rw [List.nil_append] at ha'
      rcases List.mem_append.1 ha' with ha | ha
      · exact List.mem_append_left _ ha
      · exact List.mem_append_right _ (List.mem_append_right _ ha)
    · exact h.written hw

/-! ## Sent twice -/

/-- A call of a live event that is unlogged is the only call of the event. -/
def Sole (s : State) : Prop :=
  ∀ (i j : Nat) (c d : Call), s.calls[i]? = some c → s.calls[j]? = some d → c.event.id = d.event.id →
    (∃ y, s.sys.store.index.byId.lookup c.event.id = some y) → c.Unlogged → i = j

theorem sole_init : Sole init := fun i j c d hc => by simp [init] at hc

theorem not_unlogged_nil (e : Event) : ¬ (Call.mk e []).Unlogged := fun ⟨_, h⟩ => List.not_mem_nil h

theorem unlogged_of_puts {c : Call} {id : Bytes32} (h : Puts (c.recs x) id) : c.Unlogged := by
  obtain ⟨e, he, -⟩ := h
  obtain ⟨op, hop, hparse⟩ := List.mem_filterMap.1 he
  cases op with
  | insert data => exact ⟨data, hop⟩
  | delete id => cases hparse
  | tombstone id => cases hparse

theorem insertRecs_of_unlogged {e : Event} {o : InsertOutcome} (h : (Call.mk e (appends e o)).Unlogged) :
    Store.insertRecs e o ≠ [] := by
  cases o with
  | inserted replaced => exact List.cons_ne_nil _ _
  | duplicate => exact absurd h (not_unlogged_nil e)
  | deleted => exact absurd h (not_unlogged_nil e)
  | lostRace => exact absurd h (not_unlogged_nil e)

/-- The index stores no event of which there was a call before. -/
theorem Flight.insertRecs_eq_nil (h : Flight x E fields b s) (hF : Fields E fields) (hA : Agree E) {e : Event}
    (hE : E e) (heph : e.isEphemeral = false) {d : Call} (hd : d ∈ s.calls) (hid : d.event.id = e.id) :
    Store.insertRecs e (s.sys.store.index.insert e).1 = [] := by
  obtain ⟨hEd, hsettled⟩ := h.offered d hd
  have hkind : d.event.isEphemeral = e.isEphemeral := by
    unfold Event.isEphemeral
    rw [(hA d.event e hEd hE hid).kind]
  -- the slot has a holder that the event does not beat
  obtain ⟨u, hu, hbeats⟩ := hsettled (hkind.trans heph)
  rw [hid] at hu hbeats
  have hno : ¬ Registers.Accepts (rules fields) b e.id := fun ha => hbeats (ha.2 u hu)
  have hrecs := Store.insertRecs_eq_recsOf hF hA h.inv h.shows hE
  rw [Registers.recsOf, if_neg hno] at hrecs
  exact List.map_eq_nil_iff.1 hrecs

theorem Sole.begin (hS : Sole s) (h : Flight x E fields b s) (hF : Fields E fields) (hA : Agree E) {e : Event}
    (hE : E e) (hprompt : Prompt s (.begin e)) (hstep : step x s (.begin e) = some s') : Sole s' := by
  rcases step_begin hstep with ⟨-, rfl⟩ | ⟨heph, rfl⟩
  · intro i j c d hc hd hid hlive hun
    rcases Pool.get_concat hc with hc | ⟨-, rfl⟩
    · rcases Pool.get_concat hd with hd | ⟨-, rfl⟩
      · exact hS i j c d hc hd hid hlive hun
      · rw [hid] at hlive
        exact absurd hun (hprompt e rfl hlive c (List.mem_of_getElem? hc) hid)
    · exact absurd hun (not_unlogged_nil e)
  · intro i j c d hc hd hid hlive hun
    -- a call that stores the event is its first
    have hfirst : ∀ (k : Nat) (d' : Call), s.calls[k]? = some d' → d'.event.id = e.id →
        Store.insertRecs e (s.sys.store.index.insert e).1 = [] := fun k d' hk hid' =>
      h.insertRecs_eq_nil hF hA hE heph (List.mem_of_getElem? hk) hid'
    rcases Pool.get_concat hc with hc | ⟨hi, rfl⟩
    · obtain ⟨y, hy⟩ := hlive
      have hlive' : ∃ z, s.sys.store.index.byId.lookup c.event.id = some z := by
        rcases Sys.live_insert hF hA h.inv h.shows hE hy with hz | hp
        · exact hz
        · rw [hfirst i c hc (puts_insertRecs hp)] at hp
          obtain ⟨a, ha, -⟩ := hp
          exact absurd ha List.not_mem_nil
      rcases Pool.get_concat hd with hd | ⟨-, rfl⟩
      · exact hS i j c d hc hd hid hlive' hun
      · rw [hid] at hlive'
        exact absurd hun (hprompt e rfl hlive' c (List.mem_of_getElem? hc) hid)
    · rcases Pool.get_concat hd with hd | ⟨hj, -⟩
      · exact absurd (hfirst j d hd hid.symm) (insertRecs_of_unlogged hun)
      · rw [hi, hj]

theorem Sole.append (hS : Sole s) {i : Nat} (hstep : step x s (.append i) = some s') : Sole s' := by
  simp only [step] at hstep
  split at hstep
  · cases hstep
  split at hstep
  · rename_i e op todo hi
    cases hstep
    -- the call has less to do than before
    have hback : ∀ (k : Nat) (c : Call), (s.calls.set i ⟨e, todo⟩)[k]? = some c →
        ∃ c₀ : Call, s.calls[k]? = some c₀ ∧ c₀.event = c.event ∧ (c.Unlogged → c₀.Unlogged) := by
      intro k c hc
      rcases Pool.get_set hi hc with ⟨rfl, rfl⟩ | ⟨-, hc⟩
      · exact ⟨_, hi, rfl, fun ⟨data, hdata⟩ => ⟨data, List.mem_cons_of_mem op hdata⟩⟩
      · exact ⟨c, hc, rfl, id⟩
    intro j k c d hc hd hid hlive hun
    obtain ⟨c₀, hc₀, hce, hcu⟩ := hback j c hc
    obtain ⟨d₀, hd₀, hde, -⟩ := hback k d hd
    exact hS j k c₀ d₀ hc₀ hd₀ (by rw [hce, hde]; exact hid) (by rw [hce]; exact hlive) (hcu hun)
  · cases hstep

/-- No step of a checkpoint touches the index. -/
theorem Sole.checkpoint (hS : Sole s) {a : Action} (hstep : step x s (.checkpoint a) = some s') : Sole s' := by
  obtain ⟨t, ht, rfl⟩ := step_checkpoint hstep
  have hindex : t.store.index = s.sys.store.index := by
    cases a with
    | rename =>
      obtain ⟨-, segment, -, rfl⟩ := Sys.step_rename ht
      rfl
    | reopen =>
      obtain ⟨-, rfl⟩ := Sys.step_reopen ht
      rfl
    | collect es =>
      obtain ⟨-, -, rfl⟩ := Sys.step_collect ht
      rfl
    | renameSnapshot =>
      obtain ⟨es, -, rfl⟩ := Sys.step_renameSnapshot ht
      rfl
    | removeOld ok =>
      obtain ⟨-, rfl⟩ := Sys.step_removeOld ht
      cases ok <;> rfl
    | insert e => cases hstep
    | deletion ids coordinates author until_ => cases hstep
    | giveUp => cases hstep
    | restart es => cases hstep
  intro i j c d hc hd hid hlive
  rw [hindex] at hlive
  exact hS i j c d hc hd hid hlive

/-! ## Runs -/

theorem Flight.step (h : Flight x E fields b s) (hF : Fields E fields) (hA : Agree E)
    (hrec : ∀ e, E e → Recorded x e) {a : Act} (hbegin : ∀ e, a = .begin e → E e) (hfresh : Fresh s a)
    (hline : ∀ es, a = .checkpoint (.collect es) → ∀ e ∈ es, e.raw ≠ [] ∧ OneLine e.raw)
    (hstep : step x s a = some s') : ∃ b', Flight x E fields b' s' := by
  cases a with
  | begin e => exact h.begin hF hA (hbegin e rfl) (hrec e (hbegin e rfl)) hstep
  | append i => exact ⟨b, h.append hstep⟩
  | checkpoint a =>
    cases a with
    | rename => exact ⟨b, h.rename (hfresh rfl) hstep⟩
    | reopen => exact ⟨b, h.reopen hstep⟩
    | collect es => exact ⟨b, h.collect hrec (hline es rfl) hstep⟩
    | renameSnapshot => exact ⟨b, h.renameSnapshot hstep⟩
    | removeOld ok => exact ⟨b, h.removeOld hstep⟩
    | insert e => cases hstep
    | deletion ids coordinates author until_ => cases hstep
    | giveUp => cases hstep
    | restart es => cases hstep

theorem Sole.step (hS : Sole s) (h : Flight x E fields b s) (hF : Fields E fields) (hA : Agree E) {a : Act}
    (hbegin : ∀ e, a = .begin e → E e) (hprompt : Prompt s a) (hstep : step x s a = some s') : Sole s' := by
  cases a with
  | begin e => exact hS.begin h hF hA (hbegin e rfl) hprompt hstep
  | append i => exact hS.append hstep
  | checkpoint a => exact hS.checkpoint hstep

/-- The run lemma. -/
theorem flight_run {as : List Act} (hF : Fields (Begun as) fields) (hA : Agree (Begun as))
    (hrec : ∀ e, Begun as e → Recorded x e)
    (hcond : Machine.Along (step x) (fun u a => Fresh u a ∧ Prompt u a) init as)
    (hlines : OneLiners as) (hrun : Machine.run (step x) init as = some s) :
    ∃ b, Flight x (Begun as) fields b s ∧ Sole s := by
  refine Machine.run_invariant (I := fun u => ∃ b, Flight x (Begun as) fields b u ∧ Sole u) ?_ as init s hrun
    (Machine.along_and_mem as init hcond) ⟨_, flight_init, sole_init⟩
  rintro u a u' hstep ⟨⟨hfresh, hprompt⟩, hmem⟩ ⟨b, hb, hS⟩
  have hbegin : ∀ e, a = .begin e → Begun as e := fun e he => by
    rw [he] at hmem
    exact hmem
  obtain ⟨b', hb'⟩ := hb.step hF hA hrec hbegin hfresh
    (fun es hes => hlines es (by rw [hes] at hmem; exact hmem)) hstep
  exact ⟨b', hb', hS.step hb hF hA hbegin hprompt hstep⟩

end

/-- Inserts in any interleaving with checkpoints, and a crash in any state: the next
process has every live event of which an insert has returned. -/
theorem recovers_stored (x : Ext) (as : List Act) (hA : Agree (Begun as))
    (hrec : ∀ e, Begun as e → Recorded x e)
    (hcond : Machine.Along (step x) (fun u a => Fresh u a ∧ Prompt u a) init as)
    (hlines : OneLiners as) (s : State) (hrun : Machine.run (step x) init as = some s) (es : List Event) :
    ∃ st, (Store.new s.sys.store.files).loadFromDisk x 0 es = some st ∧
      ∀ id y, s.sys.store.index.byId.lookup id = some y →
        (∃ c ∈ s.calls, c.event.id = id ∧ c.todo = []) → ∃ z, st.index.byId.lookup id = some z := by
  obtain ⟨fields, hF⟩ := Index.exists_fields hA
  obtain ⟨b, hb, hS⟩ := flight_run hF hA hrec hcond hlines hrun
  have hrecover : ∀ id y, s.sys.store.index.byId.lookup id = some y → Puts (diskRecs x s.sys.store.files) id →
      ∃ z, (recover x s.sys.store.files).byId.lookup id = some z := by
    intro id y hy hp
    have hset : ∀ a ∈ (diskRecs x s.sys.store.files).map Rec.onBoard, Settled (rules fields) b a := by
      intro a ha
      obtain ⟨c, hc, rfl⟩ := List.mem_map.1 ha
      exact (hb.recsIn c hc).2
    rw [(Store.shows_recover hF hA fun a ha => (hb.recsIn a ha).1).2.live]
    exact (Registers.replay_holds_iff hset (hb.shows.holder_of_lookup hy)).2 (Sys.puts_iff_onBoard.2 hp)
  rw [Store.loadFromDisk_new]
  refine ⟨_, rfl, fun id y hy ⟨c, hc, hcid, hdone⟩ => ?_⟩
  have hback : ∃ z, (recover x s.sys.store.files).byId.lookup id = some z := by
    refine hrecover id y hy ?_
    rcases hb.onDisk id y hy with ⟨d, hd, hp⟩ | hp
    · -- the call whose record is missing is the one that has returned
      have hdid := hb.own d hd id hp
      obtain ⟨i, hi⟩ := List.mem_iff_getElem?.1 hd
      obtain ⟨j, hj⟩ := List.mem_iff_getElem?.1 hc
      have hij := hS i j d c hi hj (by rw [← hdid, hcid]) ⟨y, by rw [← hdid]; exact hy⟩ (unlogged_of_puts hp)
      rw [hij, hj] at hi
      rw [← Option.some.inj hi, Call.recs, hdone] at hp
      obtain ⟨e, he, -⟩ := hp
      exact absurd he List.not_mem_nil
    · exact hp
  split
  · exact hback
  · exact hback

/-! ## One insert and a checkpoint -/

def throughCheckpoint (e : Event) : List Act :=
  [.begin e, .append 0, .checkpoint .rename, .checkpoint .reopen, .checkpoint (.collect [e]),
    .checkpoint .renameSnapshot, .checkpoint (.removeOld true)]

theorem begun_throughCheckpoint {a e : Event} (h : Begun (throughCheckpoint e) a) : a = e := by
  simpa [Begun, throughCheckpoint] using h

section
variable {x : Ext} {e : Event} {idx : Index} (heph : e.isEphemeral = false)
  (hins : Index.new.insert e = (.inserted none, idx))

include heph hins

theorem begin_init : step x init (.begin e) =
    some ⟨⟨⟨idx, ⟨none, none, some []⟩, .wal⟩, .idle, true⟩, [⟨e, [.insert e.raw]⟩]⟩ := by
  have hins' : init.sys.store.index.insert e = (.inserted none, idx) := hins
  simp only [step, heph, Bool.false_eq_true, if_false, hins']
  rfl

theorem run_throughCheckpoint (hlive : idx.iterAll = [e]) :
    Machine.run (step x) init (throughCheckpoint e) =
      some ⟨⟨⟨idx, ⟨some (writeSnapshot [e]), none, some []⟩, .wal⟩, .idle, true⟩, [⟨e, []⟩]⟩ := by
  have hcollect : ∀ f, step x ⟨⟨⟨idx, f, .wal⟩, .rotated, false⟩, [⟨e, []⟩]⟩ (.checkpoint (.collect [e])) =
      some ⟨⟨⟨idx, f, .wal⟩, .collected [e], false⟩, [⟨e, []⟩]⟩ := by
    intro f
    simp only [step, IsCheckpoint, if_true, Sys.step, hlive, List.Perm.refl, and_self]
    rfl
  refine (Machine.run_cons_eq_some _).2 ⟨_, begin_init heph hins, ?_⟩
  refine (Machine.run_cons_eq_some _).2 ⟨_, rfl, (Machine.run_cons_eq_some _).2 ⟨_, rfl, ?_⟩⟩
  refine (Machine.run_cons_eq_some _).2 ⟨_, rfl, (Machine.run_cons_eq_some _).2 ⟨_, hcollect _, rfl⟩⟩

theorem conditions_throughCheckpoint :
    Machine.Along (step x) (fun u a => Fresh u a ∧ Prompt u a) init (throughCheckpoint e) := by
  refine ⟨⟨(fun h => by cases h), fun a ha => ?_⟩, fun s₁ h₁ => ⟨⟨(fun h => by cases h), fun a ha => by cases ha⟩,
    fun s₂ h₂ => ⟨⟨fun _ => ?_, fun a ha => by cases ha⟩, fun s₃ _ => ?_⟩⟩⟩
  · rintro ⟨y, hy⟩
    cases ha
    simp [init, Sys.init, Store.new, Index.new] at hy
  · rw [begin_init heph hins] at h₁
    cases h₁
    cases h₂
    rfl
  · have hother : ∀ u a, a ≠ Act.checkpoint .rename → (∀ d, a ≠ .begin d) → Fresh u a ∧ Prompt u a :=
      fun u a hrename hbegin => ⟨fun h => absurd h hrename, fun d hd => absurd hd (hbegin d)⟩
    refine ⟨hother _ _ (by simp) (by simp), fun _ _ => ⟨hother _ _ (by simp) (by simp), fun _ _ =>
      ⟨hother _ _ (by simp) (by simp), fun _ _ => ⟨hother _ _ (by simp) (by simp), fun _ _ => trivial⟩⟩⟩⟩

end

theorem recovers_stored_note :
    ∃ s, Machine.run (step noteExt) init (throughCheckpoint (note 0)) = some s ∧
      ∃ st, (Store.new s.sys.store.files).loadFromDisk noteExt 0 [note 0] = some st ∧
        ∃ z, st.index.byId.lookup (note 0).id = some z := by
  have hA : Agree (Begun (throughCheckpoint (note 0))) := by
    intro a b ha hb _
    rw [begun_throughCheckpoint ha, begun_throughCheckpoint hb]
    exact note_sameFields 0 0
  have hrec : ∀ e, Begun (throughCheckpoint (note 0)) e → Recorded noteExt e := by
    intro e he
    rw [begun_throughCheckpoint he]
    exact note_readable.recorded
  have hlines : OneLiners (throughCheckpoint (note 0)) := by
    intro es hes e he
    have hes' : es = [note 0] := by simpa [throughCheckpoint] using hes
    rw [hes', List.mem_singleton] at he
    rw [he]
    exact ⟨note_readable.restorable.1, note_readable.restorable.2.1⟩
  have hrun := @run_throughCheckpoint noteExt (note 0) (Index.new.insert (note 0)).2 rfl rfl rfl
  obtain ⟨st, hload, hlive⟩ := recovers_stored noteExt _ hA hrec
      (conditions_throughCheckpoint rfl rfl) hlines _ hrun
    [note 0]
  exact ⟨_, hrun, st, hload, hlive (note 0).id (note 0) ((lookup_note _ _).2 ⟨rfl, rfl⟩)
    ⟨_, List.mem_singleton_self _, rfl, rfl⟩⟩

/-- The note with a line break in its JSON: stored, logged, and in no line of the
snapshot that supersedes the log. -/
theorem brokenNote_lost_behind_checkpoint :
    Recorded (Ext.known [brokenNote] []) brokenNote ∧
    Machine.Along (step (Ext.known [brokenNote] [])) (fun u a => Fresh u a ∧ Prompt u a) init
      (throughCheckpoint brokenNote) ∧
    ∃ s, Machine.run (step (Ext.known [brokenNote] [])) init (throughCheckpoint brokenNote) = some s ∧
      s.sys.store.index.byId.lookup brokenNote.id = some brokenNote ∧
      (∃ c ∈ s.calls, c.event.id = brokenNote.id ∧ c.todo = []) ∧
      ∃ st, (Store.new s.sys.store.files).loadFromDisk (Ext.known [brokenNote] []) 0 [] = some st ∧
        st.index.byId.lookup brokenNote.id = none := by
  have hrec : Recorded (Ext.known [brokenNote] []) brokenNote := by
    refine ⟨fromJsonUnchecked_known (by simp) (by simp), ?_⟩
    rw [length_raw_brokenNote]
    decide
  have hins : Index.new.insert brokenNote = (.inserted none, (Index.new.insert brokenNote).2) := rfl
  have hrun := @run_throughCheckpoint (Ext.known [brokenNote] []) brokenNote _ rfl hins rfl
  refine ⟨hrec, conditions_throughCheckpoint rfl hins, _, hrun, rfl, ⟨_, List.mem_singleton_self _, rfl, rfl⟩, ?_⟩
  rw [Store.loadFromDisk_new]
  have hsnap : snapshotRecs (Ext.known [brokenNote] []) (some (writeSnapshot [brokenNote])) = [] := by
    refine List.eq_nil_iff_forall_not_mem.2 fun e he => ?_
    have he' : e ∈ snapshotEvents (Ext.known [brokenNote] []) (writeSnapshot [brokenNote]) := by
      simpa [snapshotRecs] using he
    obtain ⟨hl, -, hparse⟩ := mem_snapshotEvents_iff.1 he'
    rw [writeSnapshot_eq] at hl
    -- the only text that parses has a line break, and no line has
    rw [fromJsonUnchecked_unknown] at hparse
    · cases hparse
    · intro a ha hraw
      rw [List.append_nil, List.mem_singleton] at ha
      rw [ha] at hraw
      refine (Lines.mem_lines_write hl).1 ?_
      rw [← hraw]
      simp [brokenNote]
  have hrecs : diskRecs (Ext.known [brokenNote] []) ⟨some (writeSnapshot [brokenNote]), none, some []⟩ = [] := by
    unfold diskRecs
    rw [hsnap]
    rfl
  rw [hrecs]
  refine ⟨_, rfl, ?_⟩
  show (recover _ _).byId.lookup _ = none
  unfold recover
  rw [hrecs]
  rfl

/-- The note sent on two connections: the second insert is answered while the first
has its record still to append. -/
theorem note_lost_behind_duplicate :
    ∃ s, Machine.run (step noteExt) init [.begin (note 0), .begin (note 0)] = some s ∧
      s.sys.store.index.byId.lookup (note 0).id = some (note 0) ∧
      (∃ c ∈ s.calls, c.event.id = (note 0).id ∧ c.todo = []) ∧
      ∃ st, (Store.new s.sys.store.files).loadFromDisk noteExt 0 [] = some st ∧
        st.index.byId.lookup (note 0).id = none :=
  ⟨_, rfl, rfl, ⟨_, List.mem_append_right _ (List.mem_singleton_self _), rfl, rfl⟩, _, rfl, rfl⟩

end InsertRace
end Memlay
