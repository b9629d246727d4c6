import Memlay.Event
import Memlay.Lib.Table
import Mathlib.Data.BitVec

/-!
# The in-memory index (`src/store/index.rs`)

One call at a time: each method is a function on the index state.  The methods
taken apart into their map, set and counter operations, and interleaved, are in
`Memlay.Threads`.

Every secondary index is a map from a key to an ordered set of events, so the
six of them are one map `sets` from a `Bucket`, the sum of their key types;
`buckets e` lists the sets an event belongs to in the order `insert` fills them.
A missing set and an empty one are the same thing to every reader, as in the
source, where sets are created on first use and never dropped.
-/

namespace Memlay

/-- `usize`. -/
abbrev Usize := BitVec 64

def usize (n : Nat) : Usize := BitVec.ofNat 64 n

/-- `OLDEST_SHARDS` -/
def oldestShards : Nat := 64

/-- `MAX_TOMBSTONES` -/
def maxTombstones : Nat := 262144

/-! ## Tombstones -/

/-- Bounded FIFO set of deleted event ids. -/
structure Tombstones where
  count : Nat
  ids : Finset Bytes32
  /-- oldest first -/
  order : List Bytes32
deriving DecidableEq

namespace Tombstones

def new : Tombstones := ⟨0, ∅, []⟩

/-- The count is asked first, so that an empty set takes no lock. -/
def contains (t : Tombstones) (id : Bytes32) : Bool := t.count != 0 && decide (id ∈ t.ids)

/-- The `while` loop of `insert`: drop the oldest ids until `max` are left. -/
def evict (max : Nat) : List Bytes32 → Finset Bytes32 → List Bytes32 × Finset Bytes32
  | [], ids => ([], ids)
  | id :: order, ids =>
    if max < (id :: order).length then evict max order (ids.erase id) else (id :: order, ids)

def insert (t : Tombstones) (id : Bytes32) : Tombstones :=
  if id ∈ t.ids then t
  else
    let (order, ids) := evict maxTombstones (t.order ++ [id]) (Insert.insert id t.ids)
    ⟨ids.card, ids, order⟩

def len (t : Tombstones) : Nat := t.ids.card

end Tombstones

/-! ## Ordered sets and the heap of the newest/oldest scans -/

/-- `BTreeSet::insert` under `EventRef`'s order: an element that compares equal stays. -/
def setInsert (e : Event) : List Event → List Event
  | [] => [e]
  | x :: xs =>
    if e.Beats x then e :: x :: xs
    else if x.Beats e then x :: setInsert e xs
    else x :: xs

/-- `BTreeSet::remove`: take out the element that compares equal. -/
def setRemove (e : Event) : List Event → List Event
  | [] => []
  | x :: xs => if ¬ e.Beats x ∧ ¬ x.Beats e then xs else x :: setRemove e xs

/-- `BinaryHeap<Reverse<EventRef>>` as its pop order: `Reverse` puts the least
`EventRef`, the newest event, on top. -/
def heapPush (e : Event) : List Event → List Event
  | [] => [e]
  | x :: xs => if x.Beats e then x :: heapPush e xs else e :: x :: xs

/-! ## Index keys -/

/-- `TagIdHash::from_id`: the two 16-byte halves folded by xor. -/
def tagIdHash (id : Bytes32) : BitVec 128 := id.extractLsb' 128 128 ^^^ id.extractLsb' 0 128

/-- Byte `i` of the array. -/
def byteAt (id : Bytes32) (i : Nat) : Nat := (id.extractLsb' (248 - 8 * i) 8).toNat

/-- Shard of an id in the oldest-first index. -/
def oldestShard (id : Bytes32) : Nat :=
  ((List.range 8).foldl (fun h i => h * usize 31 + usize (byteAt id i)) (usize 0)).toNat % oldestShards

/-- Where one of the secondary indexes keeps a set of events. -/
inductive Bucket where
  | pubkey (hash : BitVec 128)
  | kind (kind : Nat)
  | tagE (hash : BitVec 128)
  | tagP (hash : BitVec 128)
  | tagOther (letter : Char) (value : Str)
  | oldest (shard : Nat)
deriving DecidableEq, Repr

/-- Letter and value of a single-letter tag other than `e` and `p`. -/
def Tag.other (tag : Tag) : Option (Char × Str) :=
  match tag.name, tag.value with
  | [letter], some value => if letter ≠ 'e' ∧ letter ≠ 'p' then some (letter, value) else none
  | _, _ => none

/-- The sets an event belongs to, in the order `insert` fills them. -/
def Event.buckets (e : Event) : List Bucket :=
  Bucket.pubkey (tagIdHash e.pubkey) :: Bucket.kind e.kind ::
    (e.eTags.map (fun t => Bucket.tagE (tagIdHash t)) ++
      (e.pTags.map (fun t => Bucket.tagP (tagIdHash t)) ++
        (e.tags.filterMap (fun t => t.other.map fun lv => Bucket.tagOther lv.1 lv.2) ++
          [Bucket.oldest (oldestShard e.id)])))

/-! ## The index -/

/-- Result of inserting an event into the index. -/
inductive InsertOutcome where
  | inserted (replaced : Option Event)
  | duplicate
  | deleted
  | lostRace
deriving DecidableEq

structure Index where
  byId : Table Bytes32 Event
  byReplaceable : Table ReplacementKey Bytes32
  sets : Bucket → List Event
  tombstones : Tombstones
  memoryBytes : Usize
  eventCount : Usize

namespace Index

def new : Index where
  byId := ∅
  byReplaceable := ∅
  sets := fun _ => []
  tombstones := .new
  memoryBytes := 0
  eventCount := 0

/-! ### Single map, set and counter operations -/

def putId (s : Index) (e : Event) : Index := { s with byId := s.byId.insert e.id e }

def dropId (s : Index) (id : Bytes32) : Index := { s with byId := s.byId.erase id }

def putSlot (s : Index) (key : ReplacementKey) (id : Bytes32) : Index :=
  { s with byReplaceable := s.byReplaceable.insert key id }

def dropSlot (s : Index) (key : ReplacementKey) : Index :=
  { s with byReplaceable := s.byReplaceable.erase key }

def addMemory (s : Index) (n : Usize) : Index := { s with memoryBytes := s.memoryBytes + n }

def addCount (s : Index) (n : Usize) : Index := { s with eventCount := s.eventCount + n }

def setAdd (s : Index) (e : Event) (b : Bucket) : Index :=
  { s with sets := Function.update s.sets b (setInsert e (s.sets b)) }

def setDrop (s : Index) (e : Event) (b : Bucket) : Index :=
  { s with sets := Function.update s.sets b (setRemove e (s.sets b)) }

section
variable (s : Index) (e : Event) (id : Bytes32) (key : ReplacementKey) (n : Usize) (b : Bucket)

@[simp] theorem byId_putSlot : (s.putSlot key id).byId = s.byId := rfl
@[simp] theorem byId_dropSlot : (s.dropSlot key).byId = s.byId := rfl
@[simp] theorem byId_addMemory : (s.addMemory n).byId = s.byId := rfl
@[simp] theorem byId_addCount : (s.addCount n).byId = s.byId := rfl
@[simp] theorem byId_setAdd : (s.setAdd e b).byId = s.byId := rfl
@[simp] theorem byId_setDrop : (s.setDrop e b).byId = s.byId := rfl
@[simp] theorem byId_putId : (s.putId e).byId = s.byId.insert e.id e := rfl
@[simp] theorem byId_dropId : (s.dropId id).byId = s.byId.erase id := rfl

@[simp] theorem byReplaceable_putSlot :
    (s.putSlot key id).byReplaceable = s.byReplaceable.insert key id := rfl
@[simp] theorem byReplaceable_dropSlot :
    (s.dropSlot key).byReplaceable = s.byReplaceable.erase key := rfl
@[simp] theorem byReplaceable_addMemory : (s.addMemory n).byReplaceable = s.byReplaceable := rfl
@[simp] theorem byReplaceable_addCount : (s.addCount n).byReplaceable = s.byReplaceable := rfl
theorem tombstones_addMemory : (s.addMemory n).tombstones = s.tombstones := rfl
theorem tombstones_addCount : (s.addCount n).tombstones = s.tombstones := rfl
theorem sets_addMemory : (s.addMemory n).sets = s.sets := rfl
theorem sets_addCount : (s.addCount n).sets = s.sets := rfl
@[simp] theorem byReplaceable_setAdd : (s.setAdd e b).byReplaceable = s.byReplaceable := rfl
@[simp] theorem byReplaceable_setDrop : (s.setDrop e b).byReplaceable = s.byReplaceable := rfl
@[simp] theorem byReplaceable_putId : (s.putId e).byReplaceable = s.byReplaceable := rfl
@[simp] theorem byReplaceable_dropId : (s.dropId id).byReplaceable = s.byReplaceable := rfl

end

/-! ### Methods -/

/-- Is the event still the current winner in `by_replaceable`? -/
def isStillWinner (s : Index) (e : Event) : Bool :=
  match e.replacementKey with
  | .none => true
  | key => s.byReplaceable.lookup key == some e.id

/-- Remove an event from every secondary index. -/
def cleanupSecondaryIndexes (s : Index) (e : Event) : Index := e.buckets.foldl (fun s b => s.setDrop e b) s

/-- The counters are changed with the raw length of the event at hand. -/
def cleanupEvent (s : Index) (e : Event) : Index :=
  let s := if (s.byId.lookup e.id).isSome then
      ((s.dropId e.id).addMemory (-usize e.raw.length)).addCount (-1)
    else s
  s.cleanupSecondaryIndexes e

/-- `by_id` first, then the slot if asked, then the secondary sets. -/
def internalRemove (s : Index) (id : Bytes32) (skipReplaceable : Bool) : Option Event × Index :=
  match s.byId.lookup id with
  | none => (none, s)
  | some e =>
    let s := ((s.dropId id).addMemory (-usize e.raw.length)).addCount (-1)
    let s := if !skipReplaceable && e.isReplaceable then s.dropSlot e.replacementKey else s
    (some e, s.cleanupSecondaryIndexes e)

/-- The slot is left as it is. -/
def remove (s : Index) (id : Bytes32) : Option Event × Index := s.internalRemove id true

def tombstone (s : Index) (id : Bytes32) : Index := { s with tombstones := s.tombstones.insert id }

def deleteById (s : Index) (id : Bytes32) : Option Event × Index :=
  let (removed, s) := s.internalRemove id false
  (removed, s.tombstone id)

/-- Does the incoming event win over the holder of its slot?  A holder that is
gone from `by_id` is taken over. -/
def incomingWins (s : Index) (e : Event) (oldId : Bytes32) : Bool :=
  match s.byId.lookup oldId with
  | some old => decide (e.Beats old)
  | none => true

/-- The replaceable step of `insert`: take the slot over and remove its old
holder.  `none`: the incoming event is stale. -/
def swap (s : Index) (e : Event) : Option (Option Event × Index) :=
  if e.isReplaceable then
    match e.replacementKey with
    | .none => some (none, s)
    | key =>
      match s.byReplaceable.lookup key with
      | some oldId =>
        if s.incomingWins e oldId then some ((s.putSlot key e.id).internalRemove oldId true)
        else none
      | none => some (none, s.putSlot key e.id)
  else some (none, s)

def insert (s : Index) (e : Event) : InsertOutcome × Index :=
  if s.tombstones.contains e.id then (.deleted, s)
  else
    match s.swap e with
    | none => (.lostRace, s)
    | some (replaced, s) =>
      -- the map operation stores the new event whether or not the id was there
      let old := s.byId.lookup e.id
      let s := s.putId e
      if old.isSome then (.duplicate, s)
      else if e.isReplaceable && !s.isStillWinner e then (.lostRace, s.dropId e.id)
      else
        let s := (s.addMemory (usize e.raw.length)).addCount 1
        let s := e.buckets.foldl (fun s b => s.setAdd e b) s
        if !(s.byId.lookup e.id).isSome then
          (if e.isReplaceable then .lostRace else .duplicate, s.cleanupSecondaryIndexes e)
        else if e.isReplaceable && !s.isStillWinner e then (.lostRace, s.cleanupEvent e)
        else (.inserted replaced, s)

/-! ### Reads -/

def get (s : Index) (id : Bytes32) : Option Event := s.byId.lookup id

def isTombstoned (s : Index) (id : Bytes32) : Bool := s.tombstones.contains id

/-- All live events, in table order; the map's iteration order is any permutation of it. -/
def iterAll (s : Index) : List Event := s.byId.values

/-- First `limit` events of a set, newest first. -/
def query (s : Index) (b : Bucket) (limit : Nat) : List Event := (s.sets b).take limit

/-- The newest events of an author. -/
def queryByPubkey (s : Index) (pubkey : Bytes32) (limit : Nat) : List Event :=
  s.query (.pubkey (tagIdHash pubkey)) limit

def queryByKind (s : Index) (kind : Nat) (limit : Nat) : List Event := s.query (.kind kind) limit

/-- The author's newest events, down to `since`. -/
def queryByPubkeySince (s : Index) (pubkey : Bytes32) (since limit : Nat) : List Event :=
  ((s.sets (.pubkey (tagIdHash pubkey))).takeWhile fun e => decide (since ≤ e.createdAt)).take limit

def queryByETag (s : Index) (eventId : Bytes32) (limit : Nat) : List Event :=
  s.query (.tagE (tagIdHash eventId)) limit

def queryByPTag (s : Index) (pubkey : Bytes32) (limit : Nat) : List Event :=
  s.query (.tagP (tagIdHash pubkey)) limit

def queryByTag (s : Index) (letter : Char) (value : Str) (limit : Nat) : List Event :=
  s.query (.tagOther letter value) limit

/-- One shard of `get_oldest`, oldest first.  `peek` on an empty heap, where the
source panics, needs `count = 0`, which no caller passes. -/
def oldestScan (count : Nat) : List Event → List Event → List Event
  | [], heap => heap
  | e :: es, heap =>
    if heap.length < count then oldestScan count es (heapPush e heap)
    else
      match heap with
      | [] => []
      | top :: rest => if e.createdAt < top.createdAt then oldestScan count es (heapPush e rest) else heap

/-- The oldest `count` events, oldest first. -/
def getOldest (s : Index) (count : Nat) : List Event :=
  ((List.range oldestShards).foldl
    (fun heap shard => oldestScan count (s.sets (.oldest shard)).reverse heap) []).reverse

/-- One shard of `get_newest`, newest first. -/
def newestScan (count : Nat) : List Event → List Event → List Event
  | [], heap => heap
  | e :: es, heap =>
    if heap.length < count then newestScan count es (heapPush e heap)
    else
      match heap with
      | [] => []
      | top :: rest => if top.createdAt < e.createdAt then newestScan count es (heapPush e rest) else heap

def getNewest (s : Index) (count : Nat) : List Event :=
  if count = 0 then []
  else ((List.range oldestShards).foldl
    (fun heap shard => newestScan count (s.sets (.oldest shard)) heap) []).reverse

end Index
end Memlay
