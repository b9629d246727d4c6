import Mathlib.Data.Prod.Lex
import Memlay.Index
import Memlay.Lib.LockOrder

/-!
# The locks of the relay

Which locks every operation takes, in which order and over which others: the shards of
the maps of `src/store/index.rs` and the locks of its sets, the tombstone queue, the
writer of `src/store/wal.rs`, and the locks of `src/fanout.rs`.  A list of actions is what
one call does, given what it finds on its way (`Seen`, `Found`); the calls below are taken
with every possible finding, so every way through the source is covered.

Two locks are taken in both orders: `reindex` takes a connection's `kind_key` and then the
index of the fanout, `unregister` the index and then `kind_key`.  Only the connection's own
task makes these two calls, so `kind_key` is outside the order and has an owner.

    by_replaceable  <  by_id  <  by_pubkey .. by_tag_p  <  by_tag_other  <  inner map
        <  set  <  order  <  tombstone ids,   subs  <  overflow  <  drop_window

    tasks_never_stuck     some task is always granted its next lock, all can finish
-/

namespace Memlay

open LockOrder (Act Mode hold handOver Fits)

namespace Locks

/-- A lock; maps of `DashMap` have one for each of their shards. -/
inductive Lock where
  | byReplaceable (shard : Nat)
  | byId (shard : Nat)
  | byPubkey (shard : Nat)
  | byKind (shard : Nat)
  | byTagE (shard : Nat)
  | byTagP (shard : Nat)
  | byTagOther (shard : Nat)
  /-- the map of one letter in `by_tag_other` -/
  | inner (letter : Char) (shard : Nat)
  /-- the set of one key of a secondary index, or a shard of `by_oldest` -/
  | set (b : Bucket)
  | order
  | tombIds (shard : Nat)
  | writeFile
  | subs (conn : Nat)
  | overflow (conn : Nat)
  | dropWindow (conn : Nat)
  | kindKey (conn : Nat)
  | fanout
deriving DecidableEq

/-- Who runs an operation: the task of a connection, or any other thread. -/
inductive Name where
  | conn (id : Nat)
  | worker (n : Nat)
deriving DecidableEq

namespace Lock

@[simp] def level : Lock → Nat
  | byReplaceable _ => 0
  | byId _ => 1
  | byPubkey _ => 2
  | byKind _ => 3
  | byTagE _ => 4
  | byTagP _ => 5
  | byTagOther _ => 6
  | inner _ _ => 7
  | set _ => 8
  | order => 9
  | tombIds _ => 10
  | writeFile => 11
  | subs _ => 12
  | overflow _ => 13
  | dropWindow _ => 14
  | kindKey _ => 15
  | fanout => 16

/-- `iter_all` holds two shards of `by_id` at a time. -/
def rank : Lock → ℕ ×ₗ ℕ
  | byId shard => toLex (1, shard)
  | l => toLex (l.level, 0)

@[simp] def owner : Lock → Option Name
  | kindKey c => some (.conn c)
  | _ => none

theorem rank_lt {l k : Lock} (h : l.level < k.level) : l.rank < k.rank := by
  have hfst : ∀ l : Lock, (ofLex l.rank).1 = l.level := by
    intro l
    cases l <;> rfl
  refine Prod.Lex.lt_iff.2 (Or.inl ?_)
  rw [hfst, hfst]
  exact h

end Lock

/-! ## What the operations take -/

/-- Where the maps put their keys, and into how many shards. -/
structure Shards where
  key : ReplacementKey → Nat
  id : Bytes32 → Nat
  pubkey : BitVec 128 → Nat
  kind : Nat → Nat
  tagE : BitVec 128 → Nat
  tagP : BitVec 128 → Nat
  letter : Char → Nat
  value : Str → Nat
  tomb : Bytes32 → Nat
  count : Nat

/-- What a look-up of a set finds; `letter`: the inner map is there, the set is not. -/
inductive Found where
  | absent
  | letter
  | present
deriving DecidableEq

/-- What `insert` finds, in the order it looks. -/
structure Seen where
  /-- `count` of the tombstones is not 0 -/
  counted : Bool
  tombstoned : Bool
  /-- the id in the slot -/
  slot : Option Bytes32
  wins : Bool
  /-- what `by_id.remove` gives for the old id -/
  old : Option Event
  foundOld : Nat → Found
  duplicate : Bool
  winner : Bool
  live : Bool
  winnerAtEnd : Bool
  found : Nat → Found

abbrev Trace := List (Act Lock)

section
variable (sh : Shards)

/-- `entry`, then the set under it. -/
def setInsert (b : Bucket) : Trace :=
  let write := hold (Lock.set b) .exclusive []
  match b with
  | .pubkey h => hold (.byPubkey (sh.pubkey h)) .exclusive write
  | .kind k => hold (.byKind (sh.kind k)) .exclusive write
  | .tagE h => hold (.byTagE (sh.tagE h)) .exclusive write
  | .tagP h => hold (.byTagP (sh.tagP h)) .exclusive write
  | .tagOther letter value =>
    hold (.byTagOther (sh.letter letter)) .exclusive (hold (.inner letter (sh.value value)) .exclusive write)
  | .oldest _ => write

/-- `get`, then the set under it if there is one. -/
def setVisit (m : Mode) (found : Found) (b : Bucket) : Trace :=
  let visit := if found = .present then hold (Lock.set b) m [] else []
  match b with
  | .pubkey h => hold (.byPubkey (sh.pubkey h)) .shared visit
  | .kind k => hold (.byKind (sh.kind k)) .shared visit
  | .tagE h => hold (.byTagE (sh.tagE h)) .shared visit
  | .tagP h => hold (.byTagP (sh.tagP h)) .shared visit
  | .tagOther letter value =>
    hold (.byTagOther (sh.letter letter)) .shared
      (if found = .absent then [] else hold (.inner letter (sh.value value)) .shared visit)
  | .oldest _ => hold (.set b) m []

def cleanupSecondaryIndexes (found : Nat → Found) (e : Event) : Trace :=
  e.buckets.zipIdx.flatMap fun p => setVisit sh .exclusive (found p.2) p.1

def internalRemove (id : Bytes32) (removed : Option Event) (found : Nat → Found)
    (skipReplaceable : Bool) : Trace :=
  hold (.byId (sh.id id)) .exclusive [] ++
    match removed with
    | none => []
    | some e =>
      (if !skipReplaceable && e.isReplaceable then hold (.byReplaceable (sh.key e.replacementKey)) .exclusive []
        else []) ++ cleanupSecondaryIndexes sh found e

def contains (id : Bytes32) (counted : Bool) : Trace :=
  if counted then hold (.tombIds (sh.tomb id)) .shared [] else []

/-- `Tombstones::insert`; `ids.len()` takes one shard after the other. -/
def tombstonesInsert (id : Bytes32) (present : Bool) (evicted : List Bytes32) : Trace :=
  hold (.tombIds (sh.tomb id)) .exclusive [] ++
    if present then []
    else
      hold .order .exclusive
        (evicted.flatMap (fun id => hold (.tombIds (sh.tomb id)) .exclusive []) ++
          (List.range sh.count).flatMap fun i => hold (.tombIds i) .shared [])

def isStillWinner (e : Event) : Trace :=
  match e.replacementKey with
  | .none => []
  | key => hold (.byReplaceable (sh.key key)) .shared []

/-- The incoming event loses against the holder of its slot. -/
def stale (e : Event) (seen : Seen) : Bool :=
  e.isReplaceable && decide (e.replacementKey ≠ .none) && seen.slot.isSome && !seen.wins

/-- The slot is held over the look at its holder and over the holder's removal. -/
def swap (e : Event) (seen : Seen) : Trace :=
  if e.isReplaceable then
    match e.replacementKey with
    | .none => []
    | key =>
      hold (.byReplaceable (sh.key key)) .exclusive
        (match seen.slot with
        | none => []
        | some oldId =>
          hold (.byId (sh.id oldId)) .shared [] ++
            if seen.wins then internalRemove sh oldId seen.old seen.foundOld true else [])
  else []

def insert (e : Event) (seen : Seen) : Trace :=
  contains sh e.id seen.counted ++
    if seen.counted && seen.tombstoned then []
    else
      swap sh e seen ++
        if stale e seen then []
        else
          hold (.byId (sh.id e.id)) .exclusive [] ++
            if seen.duplicate then []
            else
              (if e.isReplaceable then isStillWinner sh e else []) ++
                if e.isReplaceable && !seen.winner then hold (.byId (sh.id e.id)) .exclusive []
                else
                  e.buckets.flatMap (setInsert sh) ++ hold (.byId (sh.id e.id)) .shared [] ++
                    if !seen.live then cleanupSecondaryIndexes sh seen.found e
                    else
                      (if e.isReplaceable then isStillWinner sh e else []) ++
                        if e.isReplaceable && !seen.winnerAtEnd then
                          hold (.byId (sh.id e.id)) .exclusive [] ++ cleanupSecondaryIndexes sh seen.found e
                        else []

/-- The holder of the slot is read, the slot is let go, the holder is looked at. -/
def coordinateTargets (key : ReplacementKey) (candidate : Option Bytes32) : Trace :=
  hold (.byReplaceable (sh.key key)) .shared [] ++
    match candidate with
    | none => []
    | some id => hold (.byId (sh.id id)) .shared []

/-- `get_oldest` and `get_newest`: one shard after the other. -/
def scanOldest : Trace := (List.range oldestShards).flatMap fun i => hold (.set (.oldest i)) .shared []

/-- `iter`: a map's iterator takes the next shard before it lets go of the last one. -/
def iterAll : Trace := handOver .shared ((List.range sh.count).map .byId)

end

/-- `deliver`: `record_drop` for every frame that finds the queue full. -/
def deliver (conn drops : Nat) : Trace :=
  hold (.subs conn) .shared
    ((List.range drops).flatMap fun _ =>
      hold (.overflow conn) .exclusive [] ++ hold (.dropWindow conn) .exclusive [])

/-- Recompute the index key; `changed`: it is another one. -/
def reindex (conn : Nat) (changed : Bool) : Trace :=
  hold (.subs conn) .shared [] ++
    hold (.kindKey conn) .exclusive (if changed then hold .fanout .exclusive [] else [])

/-- The calls, each with what it finds. -/
inductive Op where
  | insert (e : Event) (seen : Seen)
  | remove (id : Bytes32) (removed : Option Event) (found : Nat → Found)
  | deleteById (id : Bytes32) (removed : Option Event) (found : Nat → Found) (present : Bool)
      (evicted : List Bytes32)
  | tombstone (id : Bytes32) (present : Bool) (evicted : List Bytes32)
  | isTombstoned (id : Bytes32) (counted : Bool)
  | tombstoneCount
  | coordinateTargets (key : ReplacementKey) (candidate : Option Bytes32)
  | get (id : Bytes32)
  | len
  | iterAll
  | query (b : Bucket) (found : Found)
  | scanOldest
  /-- `append`, `flush`, `rotate`, `truncate` and, twice, `compact` -/
  | withFile
  | groupCommit (dirty : Bool)
  | register
  | connCount
  /-- the connections and how many frames each one drops -/
  | publish (targets : List (Nat × Nat))
  | setSub (conn : Nat) (changed : Bool)
  | removeSub (conn : Nat) (removed changed : Bool)
  /-- `sub_count` and `has_sub` -/
  | readSubs (conn : Nat)
  | takeOverflowed (conn : Nat)
  | unregister (conn : Nat)

def Op.trace (sh : Shards) : Op → Trace
  | .insert e seen => Locks.insert sh e seen
  | .remove id removed found => internalRemove sh id removed found true
  | .deleteById id removed found present evicted =>
    internalRemove sh id removed found false ++ tombstonesInsert sh id present evicted
  | .tombstone id present evicted => tombstonesInsert sh id present evicted
  | .isTombstoned id counted => contains sh id counted
  | .tombstoneCount => (List.range sh.count).flatMap fun i => hold (.tombIds i) .shared []
  | .coordinateTargets key candidate => Locks.coordinateTargets sh key candidate
  | .get id => hold (.byId (sh.id id)) .shared []
  | .len => (List.range sh.count).flatMap fun i => hold (.byId i) .shared []
  | .iterAll => Locks.iterAll sh
  | .query b found => setVisit sh .shared found b
  | .scanOldest => Locks.scanOldest
  | .withFile => hold .writeFile .exclusive []
  | .groupCommit dirty => if dirty then hold .writeFile .exclusive [] else []
  | .register => hold .fanout .exclusive []
  | .connCount => hold .fanout .shared []
  | .publish targets => hold .fanout .shared [] ++ targets.flatMap fun t => deliver t.1 t.2
  | .setSub conn changed => hold (.subs conn) .exclusive [] ++ reindex conn changed
  | .removeSub conn removed changed =>
    hold (.subs conn) .exclusive [] ++ if removed then reindex conn changed else []
  | .readSubs conn => hold (.subs conn) .shared []
  | .takeOverflowed conn => hold (.overflow conn) .exclusive []
  | .unregister conn => hold .fanout .exclusive (hold (.kindKey conn) .exclusive [])

/-- Subscriptions change on the connection's own task only. -/
def Op.allowed (name : Name) : Op → Prop
  | .setSub conn _ | .removeSub conn _ _ | .unregister conn => name = .conn conn
  | _ => True

/-! ## Every operation keeps to the order -/

section
variable {name : Name} {sh : Shards} {n k : Nat} {as : Trace}

/-- The locks of the order, from a level on. -/
@[simp] def Above (n : Nat) (l : Lock) : Prop := n ≤ l.level ∧ l.owner = none

/-- The list may stand wherever the locks from level `n` on may be taken. -/
abbrev FitsFrom (name : Name) (n : Nat) (as : Trace) : Prop := Fits Lock.rank Lock.owner name (Above n) as

theorem FitsFrom.of_le (h : FitsFrom name k as) (hnk : n ≤ k) : FitsFrom name n as :=
  Fits.mono h fun _ hl => ⟨hnk.trans hl.1, hl.2⟩

/-- One lock over a list that takes locks of higher levels. -/
theorem FitsFrom.hold (h : FitsFrom name k as) {l : Lock} (hl : Above n l) (hk : l.level < k) (m : Mode) :
    FitsFrom name n (hold l m as) := by
  refine Fits.hold h hl (fun j hj => ?_) m
  have hlt : l.level < j.level := lt_of_lt_of_le hk hj.1
  refine ⟨⟨hl.1.trans hlt.le, hj.2⟩, fun heq => ?_, Or.inr ⟨hj.2, fun _ => Lock.rank_lt hlt⟩⟩
  rw [heq] at hlt
  exact lt_irrefl _ hlt

/-- One lock and nothing under it. -/
theorem fits_take {l : Lock} (hl : Above n l) (m : Mode) : FitsFrom name n (hold l m []) :=
  LockOrder.fits_hold_nil hl m

theorem fits_ite {c : Prop} [Decidable c] {bs : Trace} (ha : FitsFrom name n as) (hb : FitsFrom name n bs) :
    FitsFrom name n (if c then as else bs) := by
  split
  · exact ha
  · exact hb

theorem fits_setInsert (b : Bucket) : FitsFrom name 2 (setInsert sh b) := by
  have hset : FitsFrom name 8 (hold (.set b) .exclusive []) := fits_take (by simp) _
  cases b with
  | pubkey h => exact hset.hold (by simp) (by simp) _
  | kind k => exact hset.hold (by simp) (by simp) _
  | tagE h => exact hset.hold (by simp) (by simp) _
  | tagP h => exact hset.hold (by simp) (by simp) _
  | tagOther letter value =>
    have hinner : FitsFrom name 7 (hold (.inner letter (sh.value value)) .exclusive
        (hold (.set _) .exclusive [])) :=
      hset.hold (by simp) (by simp) _
    exact hinner.hold (by simp) (by simp) _
  | oldest shard => exact hset.of_le (by decide)

theorem fits_setVisit (m : Mode) (found : Found) (b : Bucket) : FitsFrom name 2 (setVisit sh m found b) := by
  have hset : FitsFrom name 8 (hold (.set b) m []) := fits_take (by simp) _
  have hvisit : FitsFrom name 8 (if found = .present then hold (.set b) m [] else []) :=
    fits_ite hset LockOrder.fits_nil
  cases b with
  | pubkey h => exact hvisit.hold (by simp) (by simp) _
  | kind k => exact hvisit.hold (by simp) (by simp) _
  | tagE h => exact hvisit.hold (by simp) (by simp) _
  | tagP h => exact hvisit.hold (by simp) (by simp) _
  | tagOther letter value =>
    have hinner : FitsFrom name 7 (hold (.inner letter (sh.value value)) .shared _) :=
      hvisit.hold (by simp) (by simp) _
    exact (fits_ite LockOrder.fits_nil hinner).hold (by simp) (by simp) _
  | oldest shard => exact hset.of_le (by decide)

theorem fits_cleanup (found : Nat → Found) (e : Event) : FitsFrom name 2 (cleanupSecondaryIndexes sh found e) :=
  LockOrder.fits_flatMap fun _ _ => fits_setVisit _ _ _

/-- With `skip_replaceable` the slots are not touched, so the caller may have one. -/
theorem fits_internalRemove_skip (id : Bytes32) (removed : Option Event) (found : Nat → Found) :
    FitsFrom name 1 (internalRemove sh id removed found true) := by
  refine Fits.append (fits_take (by simp) _) ?_
  cases removed with
  | none => exact LockOrder.fits_nil
  | some e => exact Fits.append LockOrder.fits_nil ((fits_cleanup found e).of_le (by decide))

theorem fits_internalRemove (id : Bytes32) (removed : Option Event) (found : Nat → Found) (skip : Bool) :
    FitsFrom name 0 (internalRemove sh id removed found skip) := by
  refine Fits.append (fits_take (by simp) _) ?_
  cases removed with
  | none => exact LockOrder.fits_nil
  | some e =>
    exact Fits.append (fits_ite (fits_take (by simp) _) LockOrder.fits_nil)
        ((fits_cleanup found e).of_le (by decide))

theorem fits_contains (id : Bytes32) (counted : Bool) : FitsFrom name 10 (contains sh id counted) :=
  fits_ite (fits_take (by simp) _) LockOrder.fits_nil

theorem fits_tombShards : FitsFrom name 10 ((List.range sh.count).flatMap fun i => hold (.tombIds i) .shared []) :=
  LockOrder.fits_flatMap fun _ _ => fits_take (by simp) _

theorem fits_tombstonesInsert (id : Bytes32) (present : Bool) (evicted : List Bytes32) :
    FitsFrom name 9 (tombstonesInsert sh id present evicted) := by
  have hbody : FitsFrom name 10 (evicted.flatMap (fun id => hold (.tombIds (sh.tomb id)) .exclusive []) ++
      (List.range sh.count).flatMap fun i => hold (.tombIds i) .shared []) :=
    Fits.append (LockOrder.fits_flatMap fun _ _ => fits_take (by simp) _) fits_tombShards
  exact Fits.append (fits_take (by simp) _)
    (fits_ite LockOrder.fits_nil (hbody.hold (by simp) (by simp) _))

theorem fits_isStillWinner (e : Event) : FitsFrom name 0 (isStillWinner sh e) := by
  unfold isStillWinner
  cases e.replacementKey with
  | none => exact LockOrder.fits_nil
  | replaceable pubkey kind => exact fits_take (by simp) _
  | addressable pubkey kind d => exact fits_take (by simp) _

theorem fits_swap (e : Event) (seen : Seen) : FitsFrom name 0 (swap sh e seen) := by
  have hslot : ∀ key, FitsFrom name 0 (hold (.byReplaceable (sh.key key)) .exclusive
      (match seen.slot with
      | none => []
      | some oldId =>
        hold (.byId (sh.id oldId)) .shared [] ++
          if seen.wins then internalRemove sh oldId seen.old seen.foundOld true else [])) := by
    intro key
    have hbody : FitsFrom name 1 (match seen.slot with
      | none => []
      | some oldId =>
        hold (.byId (sh.id oldId)) .shared [] ++
          if seen.wins then internalRemove sh oldId seen.old seen.foundOld true else []) := by
      cases seen.slot with
      | none => exact LockOrder.fits_nil
      | some oldId =>
        exact Fits.append (fits_take (by simp) _) (fits_ite (fits_internalRemove_skip _ _ _) LockOrder.fits_nil)
    exact hbody.hold (by simp) (by simp) _
  unfold swap
  refine fits_ite ?_ LockOrder.fits_nil
  cases e.replacementKey with
  | none => exact LockOrder.fits_nil
  | replaceable pubkey kind => exact hslot _
  | addressable pubkey kind d => exact hslot _

theorem fits_insert (e : Event) (seen : Seen) : FitsFrom name 0 (insert sh e seen) := by
  have hid : ∀ m, FitsFrom name 0 (hold (.byId (sh.id e.id)) m []) := fun m => fits_take (by simp) m
  have hwinner : FitsFrom name 0 (if e.isReplaceable then isStillWinner sh e else []) :=
    fits_ite (fits_isStillWinner e) LockOrder.fits_nil
  have hcleanup : FitsFrom name 0 (cleanupSecondaryIndexes sh seen.found e) :=
    (fits_cleanup _ e).of_le (Nat.zero_le _)
  have hsets : FitsFrom name 0 (e.buckets.flatMap (setInsert sh)) :=
    LockOrder.fits_flatMap fun b _ => (fits_setInsert b).of_le (Nat.zero_le _)
  have hend : FitsFrom name 0 ((if e.isReplaceable then isStillWinner sh e else []) ++
      if e.isReplaceable && !seen.winnerAtEnd then
        hold (.byId (sh.id e.id)) .exclusive [] ++ cleanupSecondaryIndexes sh seen.found e
      else []) := Fits.append hwinner (fits_ite (Fits.append (hid _) hcleanup) LockOrder.fits_nil)
  refine Fits.append ((fits_contains _ _).of_le (Nat.zero_le _)) (fits_ite LockOrder.fits_nil ?_)
  refine Fits.append (fits_swap e seen) (fits_ite LockOrder.fits_nil ?_)
  refine Fits.append (hid _) (fits_ite LockOrder.fits_nil ?_)
  refine Fits.append hwinner (fits_ite (hid _) ?_)
  exact Fits.append (Fits.append hsets (hid _)) (fits_ite hcleanup hend)

theorem fits_iterAll : FitsFrom name 0 (iterAll sh) := by
  refine LockOrder.fits_handOver (fun l hl => ?_) ?_ _
  · obtain ⟨i, -, rfl⟩ := List.mem_map.1 hl
    exact ⟨⟨Nat.zero_le _, rfl⟩, rfl⟩
  · refine List.pairwise_map.2 (List.pairwise_lt_range.imp fun hij => ?_)
    exact Prod.Lex.lt_iff.2 (Or.inr ⟨rfl, hij⟩)

theorem fits_deliver (conn drops : Nat) : FitsFrom name 12 (deliver conn drops) := by
  have hdrop : FitsFrom name 13 (hold (.overflow conn) .exclusive [] ++ hold (.dropWindow conn) .exclusive []) :=
    Fits.append (fits_take (by simp) _) (fits_take (by simp) _)
  have hdrops : FitsFrom name 13 ((List.range drops).flatMap fun _ =>
      hold (.overflow conn) .exclusive [] ++ hold (.dropWindow conn) .exclusive []) :=
    LockOrder.fits_flatMap fun _ _ => hdrop
  exact hdrops.hold (by simp) (by simp) _

/-- The locks a task may take. -/
def Own (name : Name) (l : Lock) : Prop := l.owner = none ∨ l.owner = some name

theorem FitsFrom.own (h : FitsFrom name n as) : Fits Lock.rank Lock.owner name (Own name) as :=
  Fits.mono h fun _ hl => Or.inl hl.2

/-- The connection's own lock over the index of the fanout. -/
theorem fits_reindex (conn : Nat) (changed : Bool) :
    Fits Lock.rank Lock.owner (.conn conn) (Own (.conn conn)) (reindex conn changed) := by
  have hindex : FitsFrom (.conn conn) 16 (if changed then hold .fanout .exclusive [] else []) :=
    fits_ite (fits_take (by simp) _) LockOrder.fits_nil
  refine Fits.append (fits_take (n := 0) (by simp) _).own (Fits.hold hindex (Or.inr rfl) (fun j hj => ?_) _)
  have hne : j ≠ .kindKey conn := by
    rintro rfl
    exact absurd hj.2 (by simp [Lock.owner])
  exact ⟨Or.inl hj.2, hne, Or.inr ⟨hj.2, fun h => by cases h⟩⟩

theorem fits_trace {op : Op} (h : op.allowed name) : Fits Lock.rank Lock.owner name (Own name) (op.trace sh) := by
  have htake : ∀ {l : Lock} (m : Mode), l.owner = none → Fits Lock.rank Lock.owner name (Own name) (hold l m []) :=
    fun m hl => (fits_take (n := 0) ⟨Nat.zero_le _, hl⟩ m).own
  cases op with
  | insert e seen => exact (fits_insert e seen).own
  | remove id removed found => exact (fits_internalRemove _ _ _ _).own
  | deleteById id removed found present evicted =>
    exact Fits.append (fits_internalRemove _ _ _ _).own (fits_tombstonesInsert _ _ _).own
  | tombstone id present evicted => exact (fits_tombstonesInsert _ _ _).own
  | isTombstoned id counted => exact (fits_contains _ _).own
  | tombstoneCount => exact fits_tombShards.own
  | coordinateTargets key candidate =>
    refine Fits.append (htake _ rfl) ?_
    cases candidate with
    | none => exact LockOrder.fits_nil
    | some id => exact htake _ rfl
  | get id => exact htake _ rfl
  | len => exact LockOrder.fits_flatMap fun _ _ => htake _ rfl
  | iterAll => exact fits_iterAll.own
  | query b found => exact (fits_setVisit _ _ _).own
  | scanOldest => exact LockOrder.fits_flatMap fun _ _ => htake _ rfl
  | withFile => exact htake _ rfl
  | groupCommit dirty => exact (fits_ite (fits_take (n := 0) (by simp) _) LockOrder.fits_nil).own
  | register => exact htake _ rfl
  | connCount => exact htake _ rfl
  | publish targets => exact Fits.append (htake _ rfl) (LockOrder.fits_flatMap fun _ _ => (fits_deliver _ _).own)
  | setSub conn changed =>
    obtain rfl : name = .conn conn := h
    exact Fits.append (htake _ rfl) (fits_reindex conn changed)
  | removeSub conn removed changed =>
    obtain rfl : name = .conn conn := h
    refine Fits.append (htake _ rfl) ?_
    cases removed with
    | false => exact LockOrder.fits_nil
    | true => exact fits_reindex conn changed
  | readSubs conn => exact htake _ rfl
  | takeOverflowed conn => exact htake _ rfl
  | unregister conn =>
    obtain rfl : name = .conn conn := h
    have hkey : Fits Lock.rank Lock.owner (.conn conn) (fun l => l = Lock.kindKey conn)
        (hold (.kindKey conn) .exclusive []) := LockOrder.fits_hold_nil (by rfl) _
    refine Fits.hold hkey (Or.inl rfl) (fun j hj => ?_) _
    rw [hj]
    exact ⟨Or.inr rfl, by simp, Or.inl rfl⟩

/-- What a task does: its operations, one after the other. -/
theorem ordered_ops {ops : List Op} (h : ∀ op ∈ ops, op.allowed name) :
    LockOrder.Ordered Lock.rank Lock.owner name [] (ops.flatMap (Op.trace sh)) := by
  have hfits : Fits Lock.rank Lock.owner name (Own name) (ops.flatMap (Op.trace sh)) :=
    LockOrder.fits_flatMap fun op hop => fits_trace (h op hop)
  exact hfits.ordered fun _ hl => hl

end

/-! ## No deadlock -/

abbrev Task := LockOrder.Task Name Lock
abbrev Turn := LockOrder.Turn Name Lock

/-- Every task of the run makes calls it is allowed to make, and nothing else. -/
def OnlyCalls (sh : Shards) (turns : List Turn) : Prop :=
  ∀ name todo, LockOrder.Turn.start name todo ∈ turns →
    ∃ ops : List Op, (∀ op ∈ ops, op.allowed name) ∧ todo = ops.flatMap (Op.trace sh)

/-- However the calls of any number of connections and threads are interleaved: as long as
one of them is not at its end, one is granted its next lock even if every lock prefers the
ones that wait for it exclusively; all of them can finish; and no schedule goes on for
longer than there are actions left. -/
theorem tasks_never_stuck (sh : Shards) {turns : List Turn} {P : List Task}
    (hrun : Machine.run LockOrder.step [] turns = some P) (hcalls : OnlyCalls sh turns) :
    ((∃ t ∈ P, t.todo ≠ []) → ∃ t ∈ P, LockOrder.granted P t = true) ∧
      (∃ (is : List Nat) (Q : List Task), Machine.run LockOrder.step P (is.map LockOrder.Turn.step) = some Q ∧
        Machine.Along LockOrder.step LockOrder.StepGranted P (is.map LockOrder.Turn.step) ∧ ∀ t ∈ Q, t.todo = []) ∧
      ∀ (is : List Nat) (Q : List Task), Machine.run LockOrder.step P (is.map LockOrder.Turn.step) = some Q →
        is.length ≤ LockOrder.remaining P := by
  have hinv : LockOrder.InOrder Lock.rank Lock.owner P := by
    refine LockOrder.inOrder_run hrun fun name todo hmem => ?_
    obtain ⟨ops, hallowed, rfl⟩ := hcalls name todo hmem
    exact ordered_ops hallowed
  refine ⟨hinv.exists_granted, hinv.exists_finish, fun is Q hQ => ?_⟩
  have hlen := LockOrder.length_of_run hQ
  omega

/-- One shard for everything. -/
def oneShard : Shards :=
  ⟨fun _ => 0, fun _ => 0, fun _ => 0, fun _ => 0, fun _ => 0, fun _ => 0, fun _ => 0, fun _ => 0, fun _ => 0, 1⟩

/-- A connection has its `kind_key` and wants the index of the fanout, which a publisher reads. -/
def contended : List Turn :=
  [.start (.conn 1) ([Op.setSub 1 true].flatMap (Op.trace oneShard)),
    .start (.worker 0) ([Op.publish [(1, 1)]].flatMap (Op.trace oneShard)),
    .step 0, .step 0, .step 0, .step 0, .step 0, .step 1]

theorem tasks_never_stuck_contended :
    ∃ P : List Task, Machine.run LockOrder.step [] contended = some P ∧
      (∃ t ∈ P, LockOrder.granted P t = false ∧ t.todo ≠ []) ∧ ∃ t ∈ P, LockOrder.granted P t = true := by
  obtain ⟨P, hP⟩ := Option.isSome_iff_exists.1
    (show (Machine.run LockOrder.step [] contended).isSome = true by decide)
  have hwaits : ∃ t ∈ P, LockOrder.granted P t = false ∧ t.todo ≠ [] := by
    cases hP
    decide
  have hleft : ∃ t ∈ P, t.todo ≠ [] := hwaits.imp fun t ht => ⟨ht.1, ht.2.2⟩
  refine ⟨P, hP, hwaits, (tasks_never_stuck oneShard hP ?_).1 hleft⟩
  intro name todo hmem
  simp only [contended, List.mem_cons, LockOrder.Turn.start.injEq, reduceCtorEq, List.not_mem_nil,
      or_false] at hmem
  rcases hmem with ⟨rfl, rfl⟩ | ⟨rfl, rfl⟩
  · exact ⟨[.setSub 1 true], by simp [Op.allowed], rfl⟩
  · exact ⟨[.publish [(1, 1)]], by simp [Op.allowed], rfl⟩

/-- Were `reindex` and `unregister` of one connection run by two tasks, they could wait for
each other for ever. -/
example :
    (Machine.run LockOrder.step ([] : List Task)
      [.start (.conn 1) (Op.trace oneShard (.setSub 1 true)),
        .start (.worker 0) (Op.trace oneShard (.unregister 1)), .step 0, .step 0, .step 0, .step 0, .step 0,
        .step 1]).any
      (fun P => P.all fun t => !LockOrder.granted P t && !t.todo.isEmpty) = true := by decide

end Locks

end Memlay
