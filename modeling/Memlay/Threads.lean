import Memlay.IndexInv
import Memlay.Lib.Pool

/-!
# Concurrent calls on the index

`insert`, `remove` and `delete_by_id` of `src/store/index.rs` taken apart into
their map, set and counter operations, each one atomic step (`move`).  The
program counter names the operation a call is about to perform, with its local
variables.

Two locks span several steps.  `by_replaceable.entry(key)` returns a guard that
is held until the match arm ends, so over the lookup in `by_id`, the swap and the
whole `internal_remove` of the old holder; while it is held every other
operation of `by_replaceable` on that key waits.  (The map locks a whole shard:
a lock for each key allows every interleaving the shard lock allows.)  The queue
of tombstones is a mutex held from its `push_back` to the store of the count.
-/

namespace Memlay
namespace Threads

open Pool Index

/-- The calls that write. -/
inductive Call where
  | insert (e : Event)
  | remove (id : Bytes32)
  | deleteById (id : Bytes32)
deriving DecidableEq

/-- What they return. -/
inductive Result where
  | inserted (outcome : InsertOutcome)
  | removed (event : Option Event)
deriving DecidableEq

/-- Who called `internal_remove`. -/
inductive Caller where
  | remove
  | delete (id : Bytes32)
  /-- `insert` of `e`, with the entry guard of its slot -/
  | swap (e : Event)
deriving DecidableEq

/-- The operation a call performs next. -/
inductive Pc where
  /-- load of the tombstone count -/
  | insert (e : Event)
  /-- lookup in the tombstone map -/
  | insertTomb (e : Event)
  /-- `by_replaceable.entry(key)` -/
  | entry (e : Event)
  /-- `by_id.get(&old_id)`, guard held -/
  | getOld (e : Event) (oldId : Bytes32)
  /-- `occ.insert(event.id)`, guard held -/
  | swapSlot (e : Event) (oldId : Bytes32)
  /-- `internal_remove`: `by_id.remove`, the two counters, the slot, the sets -/
  | rmById (c : Caller) (id : Bytes32)
  | rmMemory (c : Caller) (x : Event)
  | rmCount (c : Caller) (x : Event)
  | rmSlot (c : Caller) (x : Event)
  | rmSets (c : Caller) (x : Event) (bs : List Bucket)
  /-- `by_id.insert` -/
  | byId (e : Event) (replaced : Option Event)
  /-- early `is_still_winner`, and the `by_id.remove` when it fails -/
  | early (e : Event) (replaced : Option Event)
  | earlyDrop (e : Event)
  | addMemory (e : Event) (replaced : Option Event)
  | addCount (e : Event) (replaced : Option Event)
  | addSets (e : Event) (replaced : Option Event) (bs : List Bucket)
  /-- final `by_id.contains_key` and `is_still_winner` -/
  | finalId (e : Event) (replaced : Option Event)
  | finalWinner (e : Event) (replaced : Option Event)
  /-- `cleanup_event`: `by_id.remove`, the two counters, the sets -/
  | cleanId (e : Event)
  | cleanMemory (e : Event)
  | cleanCount (e : Event)
  | cleanSets (e : Event) (outcome : InsertOutcome) (bs : List Bucket)
  /-- `Tombstones::insert`: the map, the queue, the evictions, the count -/
  | tombPut (id : Bytes32) (removed : Option Event)
  | tombPush (id : Bytes32) (removed : Option Event)
  | tombEvict (removed : Option Event)
  | tombStore (removed : Option Event)
  | done (r : Result)
deriving DecidableEq

/-- The maps as all calls see them, with the lock of each slot and of the tombstones. -/
structure Shared where
  idx : Index
  /-- thread that holds the entry guard of a slot -/
  guard : ReplacementKey → Option Nat
  /-- thread that holds the mutex of the tombstone queue -/
  queue : Option Nat

namespace Shared

def new : Shared := ⟨Index.new, fun _ => none, none⟩

def lock (s : Shared) (key : ReplacementKey) (i : Nat) : Shared :=
  { s with guard := Function.update s.guard key (some i) }

def unlock (s : Shared) (key : ReplacementKey) : Shared :=
  { s with guard := Function.update s.guard key none }

def slot (s : Shared) (key : ReplacementKey) : Option Bytes32 := s.idx.byReplaceable.lookup key

def live (s : Shared) (id : Bytes32) : Option Event := s.idx.byId.lookup id

theorem live_congr {s s' : Shared} (h : s'.idx.byId = s.idx.byId) (id : Bytes32) :
    s'.live id = s.live id := by
  unfold live
  rw [h]

theorem slot_congr {s s' : Shared} (h : s'.idx.byReplaceable = s.idx.byReplaceable)
    (key : ReplacementKey) : s'.slot key = s.slot key := by
  unfold slot
  rw [h]

theorem live_putId (s : Shared) (e : Event) (id : Bytes32) :
    live { s with idx := s.idx.putId e } id = if id = e.id then some e else s.live id :=
  Index.putId_lookup s.idx e id

theorem live_dropId (s : Shared) (x id : Bytes32) :
    live { s with idx := s.idx.dropId x } id = if id = x then none else s.live id := by
  show (s.idx.byId.erase x).lookup id = _
  split
  · rename_i h
    rw [h, AList.lookup_erase]
  · rename_i h
    rw [AList.lookup_erase_ne h]
    rfl

theorem slot_putSlot (s : Shared) (k key : ReplacementKey) (id : Bytes32) :
    slot { s with idx := s.idx.putSlot k id } key = if key = k then some id else s.slot key := by
  show (s.idx.byReplaceable.insert k id).lookup key = _
  split
  · rename_i h
    rw [h, AList.lookup_insert]
  · rename_i h
    rw [AList.lookup_insert_ne h]
    rfl

theorem slot_dropSlot (s : Shared) (k key : ReplacementKey) :
    slot { s with idx := s.idx.dropSlot k } key = if key = k then none else s.slot key := by
  show (s.idx.byReplaceable.erase k).lookup key = _
  split
  · rename_i h
    rw [h, AList.lookup_erase]
  · rename_i h
    rw [AList.lookup_erase_ne h]
    rfl

end Shared

/-- The first program point of a call. -/
def start : Call → Pc
  | .insert e => .insert e
  | .remove id => .rmById .remove id
  | .deleteById id => .rmById (.delete id) id

/-- `insert` past the tombstone check. -/
def afterTombs (e : Event) : Pc := if e.isReplaceable then .entry e else .byId e none

/-- `internal_remove` returns to its caller. -/
def return' (s : Shared) (removed : Option Event) : Caller → Shared × Pc
  | .remove => (s, .done (.removed removed))
  | .delete id => (s, .tombPut id removed)
  | .swap e => (s.unlock e.replacementKey, .byId e removed)

/-- Only `delete_by_id` runs `internal_remove` with `skip_replaceable` off. -/
def dropsSlot (c : Caller) (x : Event) : Bool :=
  match c with
  | .delete _ => x.isReplaceable
  | _ => false

/-- The next atomic step of thread `i`. -/
def move (i : Nat) (s : Shared) : Pc → Option (Shared × Pc)
  | .insert e => some (s, if s.idx.tombstones.count = 0 then afterTombs e else .insertTomb e)
  | .insertTomb e =>
    some (s, if e.id ∈ s.idx.tombstones.ids then .done (.inserted .deleted) else afterTombs e)
  | .entry e =>
    if (s.guard e.replacementKey).isSome then none
    else
      match s.slot e.replacementKey with
      | some oldId => some (s.lock e.replacementKey i, .getOld e oldId)
      | none => some ({ s with idx := s.idx.putSlot e.replacementKey e.id }, .byId e none)
  | .getOld e oldId =>
    if s.idx.incomingWins e oldId then some (s, .swapSlot e oldId)
    else some (s.unlock e.replacementKey, .done (.inserted .lostRace))
  | .swapSlot e oldId =>
    some ({ s with idx := s.idx.putSlot e.replacementKey e.id }, .rmById (.swap e) oldId)
  | .rmById c id =>
    match s.live id with
    | none => some (return' s none c)
    | some x => some ({ s with idx := s.idx.dropId id }, .rmMemory c x)
  | .rmMemory c x => some ({ s with idx := s.idx.addMemory (-usize x.raw.length) }, .rmCount c x)
  | .rmCount c x =>
    some ({ s with idx := s.idx.addCount (-1) },
      if dropsSlot c x then .rmSlot c x else .rmSets c x x.buckets)
  | .rmSlot c x =>
    if (s.guard x.replacementKey).isSome then none
    else some ({ s with idx := s.idx.dropSlot x.replacementKey }, .rmSets c x x.buckets)
  | .rmSets c x [] => some (return' s (some x) c)
  | .rmSets c x (b :: bs) => some ({ s with idx := s.idx.setDrop x b }, .rmSets c x bs)
  | .byId e replaced =>
    some ({ s with idx := s.idx.putId e },
      if (s.live e.id).isSome then .done (.inserted .duplicate)
      else if e.isReplaceable then .early e replaced
      else .addMemory e replaced)
  | .early e replaced =>
    if (s.guard e.replacementKey).isSome then none
    else some (s, if s.slot e.replacementKey = some e.id then .addMemory e replaced else .earlyDrop e)
  | .earlyDrop e => some ({ s with idx := s.idx.dropId e.id }, .done (.inserted .lostRace))
  | .addMemory e replaced =>
    some ({ s with idx := s.idx.addMemory (usize e.raw.length) }, .addCount e replaced)
  | .addCount e replaced => some ({ s with idx := s.idx.addCount 1 }, .addSets e replaced e.buckets)
  | .addSets e replaced [] => some (s, .finalId e replaced)
  | .addSets e replaced (b :: bs) => some ({ s with idx := s.idx.setAdd e b }, .addSets e replaced bs)
  | .finalId e replaced =>
    some (s,
      if (s.live e.id).isSome then
        (if e.isReplaceable then .finalWinner e replaced else .done (.inserted (.inserted replaced)))
      else .cleanSets e (if e.isReplaceable then .lostRace else .duplicate) e.buckets)
  | .finalWinner e replaced =>
    if (s.guard e.replacementKey).isSome then none
    else some (s, if s.slot e.replacementKey = some e.id then .done (.inserted (.inserted replaced))
      else .cleanId e)
  | .cleanId e =>
    if (s.live e.id).isSome then some ({ s with idx := s.idx.dropId e.id }, .cleanMemory e)
    else some (s, .cleanSets e .lostRace e.buckets)
  | .cleanMemory e => some ({ s with idx := s.idx.addMemory (-usize e.raw.length) }, .cleanCount e)
  | .cleanCount e => some ({ s with idx := s.idx.addCount (-1) }, .cleanSets e .lostRace e.buckets)
  | .cleanSets _ outcome [] => some (s, .done (.inserted outcome))
  | .cleanSets e outcome (b :: bs) => some ({ s with idx := s.idx.setDrop e b }, .cleanSets e outcome bs)
  | .tombPut id removed =>
    if id ∈ s.idx.tombstones.ids then some (s, .done (.removed removed))
    else some ({ s with idx := { s.idx with tombstones :=
      { s.idx.tombstones with ids := insert id s.idx.tombstones.ids } } }, .tombPush id removed)
  | .tombPush id removed =>
    if s.queue.isSome then none
    else some ({ s with queue := some i, idx := { s.idx with tombstones :=
      { s.idx.tombstones with order := s.idx.tombstones.order ++ [id] } } }, .tombEvict removed)
  | .tombEvict removed =>
    match s.idx.tombstones.order with
    | [] => some (s, .tombStore removed)
    | id :: order =>
      if maxTombstones < (id :: order).length then
        some ({ s with idx := { s.idx with tombstones :=
          { s.idx.tombstones with order := order, ids := s.idx.tombstones.ids.erase id } } },
          .tombEvict removed)
      else some (s, .tombStore removed)
  | .tombStore removed =>
    some ({ s with queue := none, idx := { s.idx with tombstones :=
      { s.idx.tombstones with count := s.idx.tombstones.ids.card } } }, .done (.removed removed))
  | .done _ => none

/-! ## Everything a step can do -/

/-- The branches of `move`, with what was read. -/
inductive Moves (i : Nat) (s : Shared) : Pc → Shared → Pc → Prop
  | noTombs (e : Event) (h : s.idx.tombstones.count = 0) : Moves i s (.insert e) s (afterTombs e)
  | someTombs (e : Event) (h : s.idx.tombstones.count ≠ 0) : Moves i s (.insert e) s (.insertTomb e)
  | tombed (e : Event) (h : e.id ∈ s.idx.tombstones.ids) :
      Moves i s (.insertTomb e) s (.done (.inserted .deleted))
  | untombed (e : Event) (h : e.id ∉ s.idx.tombstones.ids) :
      Moves i s (.insertTomb e) s (afterTombs e)
  | occupied (e : Event) (oldId : Bytes32) (hg : s.guard e.replacementKey = none)
      (hs : s.slot e.replacementKey = some oldId) :
      Moves i s (.entry e) (s.lock e.replacementKey i) (.getOld e oldId)
  | vacant (e : Event) (hg : s.guard e.replacementKey = none) (hs : s.slot e.replacementKey = none) :
      Moves i s (.entry e) { s with idx := s.idx.putSlot e.replacementKey e.id } (.byId e none)
  | wins (e : Event) (oldId : Bytes32) (hw : s.idx.incomingWins e oldId = true) :
      Moves i s (.getOld e oldId) s (.swapSlot e oldId)
  | loses (e : Event) (oldId : Bytes32) (hw : s.idx.incomingWins e oldId = false) :
      Moves i s (.getOld e oldId) (s.unlock e.replacementKey) (.done (.inserted .lostRace))
  | swaps (e : Event) (oldId : Bytes32) :
      Moves i s (.swapSlot e oldId) { s with idx := s.idx.putSlot e.replacementKey e.id }
        (.rmById (.swap e) oldId)
  | rmMissing (c : Caller) (id : Bytes32) (h : s.live id = none) :
      Moves i s (.rmById c id) (return' s none c).1 (return' s none c).2
  | rmFound (c : Caller) (id : Bytes32) (x : Event) (h : s.live id = some x) :
      Moves i s (.rmById c id) { s with idx := s.idx.dropId id } (.rmMemory c x)
  | rmMemory (c : Caller) (x : Event) :
      Moves i s (.rmMemory c x) { s with idx := s.idx.addMemory (-usize x.raw.length) } (.rmCount c x)
  | rmCountSlot (c : Caller) (x : Event) (h : dropsSlot c x = true) :
      Moves i s (.rmCount c x) { s with idx := s.idx.addCount (-1) } (.rmSlot c x)
  | rmCountSets (c : Caller) (x : Event) (h : dropsSlot c x = false) :
      Moves i s (.rmCount c x) { s with idx := s.idx.addCount (-1) } (.rmSets c x x.buckets)
  | rmSlot (c : Caller) (x : Event) (hg : s.guard x.replacementKey = none) :
      Moves i s (.rmSlot c x) { s with idx := s.idx.dropSlot x.replacementKey }
        (.rmSets c x x.buckets)
  | rmSet (c : Caller) (x : Event) (b : Bucket) (bs : List Bucket) :
      Moves i s (.rmSets c x (b :: bs)) { s with idx := s.idx.setDrop x b } (.rmSets c x bs)
  | rmReturn (c : Caller) (x : Event) :
      Moves i s (.rmSets c x []) (return' s (some x) c).1 (return' s (some x) c).2
  | putDuplicate (e : Event) (r : Option Event) (x : Event) (h : s.live e.id = some x) :
      Moves i s (.byId e r) { s with idx := s.idx.putId e } (.done (.inserted .duplicate))
  | putReplaceable (e : Event) (r : Option Event) (h : s.live e.id = none)
      (hr : e.isReplaceable = true) :
      Moves i s (.byId e r) { s with idx := s.idx.putId e } (.early e r)
  | putPlain (e : Event) (r : Option Event) (h : s.live e.id = none) (hr : e.isReplaceable = false) :
      Moves i s (.byId e r) { s with idx := s.idx.putId e } (.addMemory e r)
  | earlyWin (e : Event) (r : Option Event) (hg : s.guard e.replacementKey = none)
      (hs : s.slot e.replacementKey = some e.id) : Moves i s (.early e r) s (.addMemory e r)
  | earlyLose (e : Event) (r : Option Event) (hg : s.guard e.replacementKey = none)
      (hs : s.slot e.replacementKey ≠ some e.id) : Moves i s (.early e r) s (.earlyDrop e)
  | earlyDrop (e : Event) :
      Moves i s (.earlyDrop e) { s with idx := s.idx.dropId e.id } (.done (.inserted .lostRace))
  | addMemory (e : Event) (r : Option Event) :
      Moves i s (.addMemory e r) { s with idx := s.idx.addMemory (usize e.raw.length) } (.addCount e r)
  | addCount (e : Event) (r : Option Event) :
      Moves i s (.addCount e r) { s with idx := s.idx.addCount 1 } (.addSets e r e.buckets)
  | addSet (e : Event) (r : Option Event) (b : Bucket) (bs : List Bucket) :
      Moves i s (.addSets e r (b :: bs)) { s with idx := s.idx.setAdd e b } (.addSets e r bs)
  | addedSets (e : Event) (r : Option Event) : Moves i s (.addSets e r []) s (.finalId e r)
  | finalMissing (e : Event) (r : Option Event) (h : s.live e.id = none) :
      Moves i s (.finalId e r) s
        (.cleanSets e (if e.isReplaceable then .lostRace else .duplicate) e.buckets)
  | finalPlain (e : Event) (r : Option Event) (hr : e.isReplaceable = false) :
      Moves i s (.finalId e r) s (.done (.inserted (.inserted r)))
  | finalFound (e : Event) (r : Option Event) (hr : e.isReplaceable = true) :
      Moves i s (.finalId e r) s (.finalWinner e r)
  | finalWin (e : Event) (r : Option Event) (hg : s.guard e.replacementKey = none)
      (hs : s.slot e.replacementKey = some e.id) :
      Moves i s (.finalWinner e r) s (.done (.inserted (.inserted r)))
  | finalLose (e : Event) (r : Option Event) (hg : s.guard e.replacementKey = none)
      (hs : s.slot e.replacementKey ≠ some e.id) : Moves i s (.finalWinner e r) s (.cleanId e)
  | cleanFound (e x : Event) (h : s.live e.id = some x) :
      Moves i s (.cleanId e) { s with idx := s.idx.dropId e.id } (.cleanMemory e)
  | cleanMissing (e : Event) (h : s.live e.id = none) :
      Moves i s (.cleanId e) s (.cleanSets e .lostRace e.buckets)
  | cleanMemory (e : Event) :
      Moves i s (.cleanMemory e) { s with idx := s.idx.addMemory (-usize e.raw.length) } (.cleanCount e)
  | cleanCount (e : Event) :
      Moves i s (.cleanCount e) { s with idx := s.idx.addCount (-1) }
        (.cleanSets e .lostRace e.buckets)
  | cleanSet (e : Event) (o : InsertOutcome) (b : Bucket) (bs : List Bucket) :
      Moves i s (.cleanSets e o (b :: bs)) { s with idx := s.idx.setDrop e b } (.cleanSets e o bs)
  | cleaned (e : Event) (o : InsertOutcome) : Moves i s (.cleanSets e o []) s (.done (.inserted o))
  /-- the four steps of `Tombstones::insert` -/
  | tomb (pc pc' : Pc) (t : Tombstones) (q : Option Nat)
      (hpc : (∃ id r, pc = .tombPut id r) ∨ (∃ id r, pc = .tombPush id r) ∨
        (∃ r, pc = .tombEvict r) ∨ ∃ r, pc = .tombStore r)
      (hpc' : (∃ id r, pc' = .tombPush id r) ∨ (∃ r, pc' = .tombEvict r) ∨
        (∃ r, pc' = .tombStore r) ∨ ∃ r, pc' = .done (.removed r)) :
      Moves i s pc { s with queue := q, idx := { s.idx with tombstones := t } } pc'

/-- The inversion lemma of one step. -/
theorem move_cases {i : Nat} {s s' : Shared} {pc pc' : Pc} (h : move i s pc = some (s', pc')) :
    Moves i s pc s' pc' := by
  cases pc with
  | insert e =>
    cases h
    split
    · exact .noTombs e (by assumption)
    · exact .someTombs e (by assumption)
  | insertTomb e =>
    cases h
    split
    · exact .tombed e (by assumption)
    · exact .untombed e (by assumption)
  | entry e =>
    simp only [move] at h
    split at h
    · cases h
    · rename_i hg
      have hg' : s.guard e.replacementKey = none := by simpa using hg
      split at h
      · cases h
        exact .occupied e _ hg' (by assumption)
      · cases h
        exact .vacant e hg' (by assumption)
  | getOld e oldId =>
    simp only [move] at h
    split at h
    · cases h
      exact .wins e oldId (by assumption)
    · rename_i hw
      cases h
      exact .loses e oldId (by simpa using hw)
  | swapSlot e oldId => cases h; exact .swaps e oldId
  | rmById c id =>
    simp only [move] at h
    split at h
    · rename_i hl
      have h' := Option.some.inj h
      rw [show s' = (return' s none c).1 by rw [h'], show pc' = (return' s none c).2 by rw [h']]
      exact .rmMissing c id hl
    · cases h
      exact .rmFound c id _ (by assumption)
  | rmMemory c x => cases h; exact .rmMemory c x
  | rmCount c x =>
    cases h
    split
    · exact .rmCountSlot c x (by assumption)
    · rename_i hd
      exact .rmCountSets c x (by simpa using hd)
  | rmSlot c x =>
    simp only [move] at h
    split at h
    · cases h
    · rename_i hg
      cases h
      exact .rmSlot c x (by simpa using hg)
  | rmSets c x bs =>
    cases bs with
    | nil =>
      have h' := Option.some.inj h
      rw [show s' = (return' s (some x) c).1 by rw [h'],
        show pc' = (return' s (some x) c).2 by rw [h']]
      exact .rmReturn c x
    | cons b bs => cases h; exact .rmSet c x b bs
  | byId e r =>
    cases h
    cases hl : s.live e.id with
    | some x => exact .putDuplicate e r x hl
    | none =>
      simp only [Option.isSome_none, Bool.false_eq_true, if_false]
      split
      · exact .putReplaceable e r hl (by assumption)
      · rename_i hr
        exact .putPlain e r hl (by simpa using hr)
  | early e r =>
    simp only [move] at h
    split at h
    · cases h
    · rename_i hg
      have hg' : s.guard e.replacementKey = none := by simpa using hg
      cases h
      split
      · exact .earlyWin e r hg' (by assumption)
      · exact .earlyLose e r hg' (by assumption)
  | earlyDrop e => cases h; exact .earlyDrop e
  | addMemory e r => cases h; exact .addMemory e r
  | addCount e r => cases h; exact .addCount e r
  | addSets e r bs =>
    cases bs with
    | nil => cases h; exact .addedSets e r
    | cons b bs => cases h; exact .addSet e r b bs
  | finalId e r =>
    cases h
    split
    · split
      · exact .finalFound e r (by assumption)
      · rename_i hr
        exact .finalPlain e r (by simpa using hr)
    · rename_i hl
      exact .finalMissing e r (by simpa using hl)
  | finalWinner e r =>
    simp only [move] at h
    split at h
    · cases h
    · rename_i hg
      have hg' : s.guard e.replacementKey = none := by simpa using hg
      cases h
      split
      · exact .finalWin e r hg' (by assumption)
      · exact .finalLose e r hg' (by assumption)
  | cleanId e =>
    simp only [move] at h
    split at h
    · rename_i hl
      cases h
      obtain ⟨x, hx⟩ := Option.isSome_iff_exists.1 hl
      exact .cleanFound e x hx
    · rename_i hl
      cases h
      exact .cleanMissing e (by simpa using hl)
  | cleanMemory e => cases h; exact .cleanMemory e
  | cleanCount e => cases h; exact .cleanCount e
  | cleanSets e o bs =>
    cases bs with
    | nil => cases h; exact .cleaned e o
    | cons b bs => cases h; exact .cleanSet e o b bs
  | tombPut id r =>
    simp only [move] at h
    split at h
    · cases h
      exact .tomb _ _ s.idx.tombstones s.queue (.inl ⟨id, r, rfl⟩) (.inr (.inr (.inr ⟨r, rfl⟩)))
    · cases h
      exact .tomb _ _ _ s.queue (.inl ⟨id, r, rfl⟩) (.inl ⟨id, r, rfl⟩)
  | tombPush id r =>
    simp only [move] at h
    split at h
    · cases h
    · cases h
      exact .tomb _ _ _ _ (.inr (.inl ⟨id, r, rfl⟩)) (.inr (.inl ⟨r, rfl⟩))
  | tombEvict r =>
    simp only [move] at h
    split at h
    · cases h
      exact .tomb _ _ s.idx.tombstones s.queue (.inr (.inr (.inl ⟨r, rfl⟩))) (.inr (.inr (.inl ⟨r, rfl⟩)))
    · split at h
      · cases h
        exact .tomb _ _ _ s.queue (.inr (.inr (.inl ⟨r, rfl⟩))) (.inr (.inl ⟨r, rfl⟩))
      · cases h
        exact .tomb _ _ s.idx.tombstones s.queue (.inr (.inr (.inl ⟨r, rfl⟩)))
          (.inr (.inr (.inl ⟨r, rfl⟩)))
  | tombStore r =>
    cases h
    exact .tomb _ _ _ _ (.inr (.inr (.inr ⟨r, rfl⟩))) (.inr (.inr (.inr ⟨r, rfl⟩)))
  | done r => cases h

/-! ## The pool -/

abbrev Config := Pool Shared Pc

/-- One step of the pool of calls. -/
def step (P : Config) (a : Act Call) : Option Config := Pool.step start move P a

/-- No call has begun. -/
def init : Config := ⟨Shared.new, []⟩

/-- No call is in progress. -/
def Quiescent (P : Config) : Prop := ∀ pc ∈ P.threads, ∃ r, pc = .done r

/-! ## Events of the calls -/

def Caller.events : Caller → List Event
  | .swap e => [e]
  | _ => []

/-- The events a call works on. -/
def Pc.events : Pc → List Event
  | .insert e | .insertTomb e | .entry e | .getOld e _ | .swapSlot e _ | .byId e _ | .early e _
  | .earlyDrop e | .addMemory e _ | .addCount e _ | .addSets e _ _ | .finalId e _ | .finalWinner e _
  | .cleanId e | .cleanMemory e | .cleanCount e | .cleanSets e _ _ => [e]
  | .rmById c _ => c.events
  | .rmMemory c x | .rmCount c x | .rmSlot c x | .rmSets c x _ => x :: c.events
  | .tombPut _ _ | .tombPush _ _ | .tombEvict _ | .tombStore _ | .done _ => []

/-- `by_id` is keyed by the id and holds events of `E`. -/
def LiveIn (E : Event → Prop) (s : Shared) : Prop := ∀ id x, s.live id = some x → E x ∧ x.id = id

/-- A write to `by_id` brings in that event only. -/
theorem LiveIn.putId {E : Event → Prop} {s : Shared} (h : LiveIn E s) {e : Event} (hE : E e) :
    LiveIn E { s with idx := s.idx.putId e } := by
  intro id x hx
  rw [Shared.live_putId] at hx
  split at hx
  · rename_i hid
    cases hx
    exact ⟨hE, hid.symm⟩
  · exact h id x hx

theorem LiveIn.dropId {E : Event → Prop} {s : Shared} (h : LiveIn E s) (id : Bytes32) :
    LiveIn E { s with idx := s.idx.dropId id } := by
  intro y x hx
  rw [Shared.live_dropId] at hx
  split at hx
  · cases hx
  · exact h y x hx

theorem LiveIn.congr {E : Event → Prop} {s s' : Shared} (h : LiveIn E s)
    (hid : s'.idx.byId = s.idx.byId) : LiveIn E s' := by
  intro id x hx
  rw [Shared.live_congr hid] at hx
  exact h id x hx

theorem events_return {s : Shared} {r : Option Event} (c : Caller) :
    (return' s r c).2.events = c.events := by
  cases c <;> rfl

theorem idx_return {s : Shared} {r : Option Event} (c : Caller) : (return' s r c).1.idx = s.idx := by
  cases c <;> rfl

theorem events_afterTombs (e : Event) : (afterTombs e).events = [e] := by
  unfold afterTombs
  split <;> rfl

/-- One step works on events of `E` only, and stores none other. -/
theorem move_events {E : Event → Prop} {i : Nat} {s s' : Shared} {pc pc' : Pc}
    (h : move i s pc = some (s', pc')) (hl : LiveIn E s) (hpc : ∀ x ∈ pc.events, E x) :
    LiveIn E s' ∧ ∀ x ∈ pc'.events, E x := by
  have hnil : ∀ x ∈ ([] : List Event), E x := by simp
  cases move_cases h with
  | noTombs e h => exact ⟨hl, by rw [events_afterTombs]; exact hpc⟩
  | someTombs e h => exact ⟨hl, hpc⟩
  | tombed e h => exact ⟨hl, hnil⟩
  | untombed e h => exact ⟨hl, by rw [events_afterTombs]; exact hpc⟩
  | occupied e oldId hg hs => exact ⟨hl, hpc⟩
  | vacant e hg hs => exact ⟨hl.congr rfl, hpc⟩
  | wins e oldId hw => exact ⟨hl, hpc⟩
  | loses e oldId hw => exact ⟨hl, hnil⟩
  | swaps e oldId => exact ⟨hl.congr rfl, hpc⟩
  | rmMissing c id h =>
    exact ⟨hl.congr (by rw [idx_return]), by rw [events_return]; exact hpc⟩
  | rmFound c id x hx =>
    refine ⟨hl.dropId id, fun y hy => ?_⟩
    rcases List.mem_cons.1 hy with rfl | hy
    · exact (hl _ _ hx).1
    · exact hpc y hy
  | rmMemory c x => exact ⟨hl.congr (Index.byId_addMemory _ _), hpc⟩
  | rmCountSlot c x h => exact ⟨hl.congr (Index.byId_addCount _ _), hpc⟩
  | rmCountSets c x h => exact ⟨hl.congr (Index.byId_addCount _ _), hpc⟩
  | rmSlot c x hg => exact ⟨hl.congr rfl, hpc⟩
  | rmSet c x b bs => exact ⟨hl.congr rfl, hpc⟩
  | rmReturn c x =>
    refine ⟨hl.congr (by rw [idx_return]), ?_⟩
    rw [events_return]
    exact fun y hy => hpc y (List.mem_cons_of_mem x hy)
  | putDuplicate e r x hx => exact ⟨hl.putId (hpc e (by simp [Pc.events])), hnil⟩
  | putReplaceable e r hx hr => exact ⟨hl.putId (hpc e (by simp [Pc.events])), hpc⟩
  | putPlain e r hx hr => exact ⟨hl.putId (hpc e (by simp [Pc.events])), hpc⟩
  | earlyWin e r hg hs => exact ⟨hl, hpc⟩
  | earlyLose e r hg hs => exact ⟨hl, hpc⟩
  | earlyDrop e => exact ⟨hl.dropId e.id, hnil⟩
  | addMemory e r => exact ⟨hl.congr (Index.byId_addMemory _ _), hpc⟩
  | addCount e r => exact ⟨hl.congr (Index.byId_addCount _ _), hpc⟩
  | addSet e r b bs => exact ⟨hl.congr rfl, hpc⟩
  | addedSets e r => exact ⟨hl, hpc⟩
  | finalMissing e r h => exact ⟨hl, hpc⟩
  | finalPlain e r hr => exact ⟨hl, hnil⟩
  | finalFound e r hr => exact ⟨hl, hpc⟩
  | finalWin e r hg hs => exact ⟨hl, hnil⟩
  | finalLose e r hg hs => exact ⟨hl, hpc⟩
  | cleanFound e x hx => exact ⟨hl.dropId e.id, hpc⟩
  | cleanMissing e h => exact ⟨hl, hpc⟩
  | cleanMemory e => exact ⟨hl.congr (Index.byId_addMemory _ _), hpc⟩
  | cleanCount e => exact ⟨hl.congr (Index.byId_addCount _ _), hpc⟩
  | cleanSet e o b bs => exact ⟨hl.congr rfl, hpc⟩
  | cleaned e o => exact ⟨hl, hnil⟩
  | tomb _ _ t q hpc₁ hpc₂ =>
    refine ⟨hl.congr rfl, ?_⟩
    rcases hpc₂ with ⟨id, r, rfl⟩ | ⟨r, rfl⟩ | ⟨r, rfl⟩ | ⟨r, rfl⟩ <;> exact hnil

/-- Everything stored or in the hands of a call is in `E`. -/
structure EventsIn (E : Event → Prop) (P : Config) : Prop where
  live : LiveIn E P.shared
  events : ∀ pc ∈ P.threads, ∀ x ∈ pc.events, E x

theorem eventsIn_init (E : Event → Prop) : EventsIn E init where
  live id x h := by cases h
  events pc h := by cases h

theorem events_start {E : Event → Prop} {c : Call} (hc : ∀ e, c = .insert e → E e) :
    ∀ x ∈ (start c).events, E x := by
  cases c with
  | insert e =>
    intro x hx
    rw [List.mem_singleton.1 hx]
    exact hc e rfl
  | remove id => exact fun x hx => by cases hx
  | deleteById id => exact fun x hx => by cases hx

/-- The step lemma: the events are those of the inserts called. -/
theorem EventsIn.step {E : Event → Prop} {P Q : Config} {a : Act Call}
    (h : Threads.step P a = some Q) (hcall : ∀ e, a = .call (.insert e) → E e) (hI : EventsIn E P) :
    EventsIn E Q := by
  rcases Pool.step_cases h with ⟨c, rfl, rfl⟩ | ⟨i, pc, s', pc', rfl, hp, hm, rfl⟩
  · refine ⟨hI.live, fun pc hpc => ?_⟩
    rcases List.mem_append.1 hpc with hpc | hpc
    · exact hI.events pc hpc
    · rw [List.mem_singleton.1 hpc]
      exact events_start fun e he => hcall e (by rw [he])
  · obtain ⟨hl, he⟩ := move_events hm hI.live (hI.events pc (List.mem_of_getElem? hp))
    refine ⟨hl, fun q hq => ?_⟩
    rcases List.mem_or_eq_of_mem_set hq with hq | rfl
    · exact hI.events q hq
    · exact he

/-- The events given to the inserts of a run. -/
def Called (as : List (Act Call)) (e : Event) : Prop := .call (.insert e) ∈ as

theorem called_iff {as : List (Act Call)} {e : Event} :
    Called as e ↔ e ∈ as.filterMap fun a => match a with | .call (.insert e) => some e | _ => none := by
  rw [List.mem_filterMap, Called]
  constructor
  · exact fun h => ⟨_, h, rfl⟩
  · rintro ⟨a, ha, h⟩
    split at h
    · cases h
      exact ha
    · cases h

/-! ## Schedules -/

instance (P : Config) : Decidable (Quiescent P) :=
  decidable_of_iff (∀ pc ∈ P.threads, (match pc with | .done _ => true | _ => false) = true)
    (forall₂_congr fun pc _ => by cases pc <;> simp)

/-- Thread `i` takes `n` steps. -/
def steps (i n : Nat) : List (Act Call) := List.replicate n (.step i)

/-! Three versions of one replaceable event, oldest first. -/

def versionA : Event :=
  .compact 0x33c56ef4f28ad653eaf01898381c3b0caba30e8fa76a553ecdcafc9a89580b78
    0xf9308a019258c31049344f85f89d5229b531c845836f99b08601f113bce036f9 1700000000 10002 [] ['a']
    0xdc7add2ef3e3d0b822d07e70a45bb0e6fd6b1c4150699008910ad390b826b1b209e695b3f0c093012e3e2718b726132dc7fb15c04b3e99fddb9a3a6270401dcb

def versionB : Event :=
  .compact 0x7a7e14834eea0fdfa28cba3f3eff66688ad07ba0f066ec1382716d7061b0e4e6
    0xf9308a019258c31049344f85f89d5229b531c845836f99b08601f113bce036f9 1700000060 10002 [] ['b']
    0xe14d4156c5c795164d5235d62bca80f3006c268938de41de0a0dc0e7d439bd19ddd64c4585fb776c13ac346af562bbdeafaa04d774667d0d27dab07533d1c1cd

def versionC : Event :=
  .compact 0x3f183540ce066d70729c1758e49783dd36780e863bc1bc4eba07ebed060e182d
    0xf9308a019258c31049344f85f89d5229b531c845836f99b08601f113bce036f9 1700000120 10002 [] ['c']
    0x64b4835003a748cf4c3e2e6685065a447e81c50a06c27805e7eb3e5f2cba2c6409a4e61e86094bd80077f39a2112e4cd6144a0ebf9b1dd4657b9078c7c47eea4

end Threads
end Memlay
