import Memlay.Deletion
import Memlay.Snapshot
import Memlay.Wal

/-!
# The store and its files (`src/store/mod.rs`)

The index, the three files of the data directory (`events.jsonl`, `wal.log.old`,
`wal.log`) and the file the log's write handle points to.  Persistence and the
WAL are on; appends and renames succeed unless a step says otherwise.
-/

namespace Memlay

/-- Bytes of the files; `none`: there is no such file. -/
structure Files where
  events : Option Bytes
  walOld : Option Bytes
  wal : Option Bytes
deriving DecidableEq, Repr

/-- Where the write handle points: to `wal.log`, or to the file that a rotation
renamed to `wal.log.old` without getting a new one open. -/
inductive Handle where
  | wal
  | old
deriving DecidableEq, Repr

structure Store where
  index : Index
  files : Files
  handle : Handle

inductive InsertResult where
  | ephemeral
  | duplicate
  | deleted
  | stored (event : Event) (replaced : List Event)
deriving DecidableEq

namespace Files

def empty : Files := ⟨none, none, none⟩

/-- Append to the file behind the handle. -/
def append (f : Files) (handle : Handle) (bs : Bytes) : Files :=
  match handle with
  | .wal => { f with wal := some (f.wal.getD [] ++ bs) }
  | .old => { f with walOld := some (f.walOld.getD [] ++ bs) }

/-- Open `wal.log`, creating it if it is not there. -/
def openWal (f : Files) : Files := { f with wal := some (f.wal.getD []) }

end Files

namespace Store

def append (st : Store) (op : WalOp) : Store :=
  { st with files := st.files.append st.handle (Wal.encodeOp op) }

/-! ## Inserts -/

def insert (st : Store) (e : Event) : InsertResult × Store :=
  if e.isEphemeral then (.ephemeral, st)
  else
    match st.index.insert e with
    | (.duplicate, s) => (.duplicate, { st with index := s })
    | (.lostRace, s) => (.duplicate, { st with index := s })
    | (.deleted, s) => (.deleted, { st with index := s })
    | (.inserted replaced, s) =>
      let st := { st with index := s }.append (.insert e.raw)
      -- the record of the replaced event's removal comes after
      let st := replaced.toList.foldl (fun st old => st.append (.delete old.id)) st
      (.stored e replaced.toList, st)

/-! ## Deletions -/

def contains (st : Store) (id : Bytes32) : Bool := (st.index.get id).isSome

def isTombstoned (st : Store) (id : Bytes32) : Bool := st.index.isTombstoned id

/-- The record is written before the event is removed. -/
def recordDeletion (st : Store) (id : Bytes32) : Store := st.append (.tombstone id)

/-- Record and remove one target. -/
def deleteTarget (p : DeletionOutcome × Store) (id : Bytes32) : DeletionOutcome × Store :=
  let (out, st) := p
  let st := st.recordDeletion id
  let (removed, s) := st.index.deleteById id
  let out := if removed.isSome then { out with deletedIds := out.deletedIds ++ [id] } else out
  (out, { st with index := s })

/-- One round of the loop over the ids. -/
def deleteId (author : Bytes32) (p : DeletionOutcome × Store) (id : Bytes32) : DeletionOutcome × Store :=
  match p.2.index.get id with
  | some existing =>
    if existing.pubkey = author then deleteTarget p id
    else ({ p.1 with skippedForeign := p.1.skippedForeign + 1 }, p.2)
  | none => p

/-- One round of the loop over the coordinates. -/
def deleteCoordinate (author : Bytes32) (until_ : Nat) (p : DeletionOutcome × Store)
    (coord : Coordinate) : DeletionOutcome × Store :=
  if coord.pubkey ≠ author then ({ p.1 with skippedForeign := p.1.skippedForeign + 1 }, p.2)
  else
    match p.2.index.coordinateTargets coord until_ with
    | [] => ({ p.1 with unknownCoordinates := p.1.unknownCoordinates + 1 }, p.2)
    | targets => targets.foldl deleteTarget p

/-- Apply a deletion request on behalf of `author`; `ids` is the order in which
the set of ids is visited. -/
def applyDeletion (st : Store) (ids : List Bytes32) (coordinates : List Coordinate)
    (author : Bytes32) (until_ : Nat) : DeletionOutcome × Store :=
  coordinates.foldl (deleteCoordinate author until_)
    (ids.foldl (deleteId author) (.default, st))

/-! ## Checkpoints

A checkpoint is taken apart into its file steps, so that an attempt can stop
after any of them. -/

/-- First half of `rotate`: `wal.log` becomes `wal.log.old`, whatever was there.
The handle follows the renamed file.  Fails when there is no `wal.log`. -/
def renameWal (st : Store) : Option Store :=
  match st.files.wal with
  | none => none
  | some segment =>
    some { st with
      files := { st.files with walOld := some segment, wal := none }
      handle := .old }

/-- Second half of `rotate`: a fresh `wal.log` takes the handle. -/
def openWal (st : Store) : Store := { st with files := st.files.openWal, handle := .wal }

/-- The rename at the end of `write_snapshot`. -/
def putSnapshot (st : Store) (es : List Event) : Store :=
  { st with files := { st.files with events := some (writeSnapshot es) } }

def removeOld (st : Store) : Store := { st with files := { st.files with walOld := none } }

/-- A checkpoint that runs to its end; `es` is the order in which `iter_all` gives
the live events. -/
def checkpoint (st : Store) (es : List Event) : Option Store :=
  st.renameWal.map fun st => (st.openWal.putSnapshot es).removeOld

/-! ## Recovery -/

/-- A parsed record. -/
inductive Rec where
  | put (e : Event)
  | remove (id : Bytes32)
  | bury (id : Bytes32)
deriving DecidableEq

/-- `none`: the event of an insert record does not parse, and the record is skipped. -/
def parseOp (x : Ext) : WalOp → Option Rec
  | .insert data => (Event.fromJsonUnchecked x data).toOption.map .put
  | .delete id => some (.remove id)
  | .tombstone id => some (.bury id)

/-- The records a segment applies, in order; a missing file has none. -/
def segmentRecs (x : Ext) (segment : Option Bytes) : List Rec :=
  (segment.map Wal.records).toList.flatten.filterMap (parseOp x)

/-- The events a snapshot file applies, in order. -/
def snapshotRecs (x : Ext) (file : Option Bytes) : List Event :=
  (file.map (snapshotEvents x)).toList.flatten

/-- `replay_op` -/
def replayOp (maxBytes : Usize) (s : Index) : Rec → Option Index
  | .put e => s.ingest maxBytes e
  | .remove id => some (s.remove id).2
  | .bury id => some ((s.tombstone id).remove id).2

/-- The reading half of `load_from_disk`: number of operations applied, and the
index.  `none`: an eviction loop did not end. -/
def replayFiles (x : Ext) (maxBytes : Usize) (s : Index) (f : Files) : Option (Nat × Index) := do
  let events := snapshotRecs x f.events
  let recs := segmentRecs x f.walOld ++ segmentRecs x f.wal
  let s ← events.foldlM (fun s e => s.ingest maxBytes e) s
  let s ← recs.foldlM (replayOp maxBytes) s
  return (events.length + recs.length, s)

/-- `EventStore::new` on a data directory. -/
def new (f : Files) : Store := ⟨.new, f.openWal, .wal⟩

/-- `load_from_disk`.  The rotated segment is removed, and what was applied is
folded into a new snapshot; `es` is the order `iter_all` gives there.  An error of
the checkpoint is logged only. -/
def loadFromDisk (x : Ext) (maxBytes : Usize) (es : List Event) (st : Store) : Option Store := do
  let (applied, s) ← replayFiles x maxBytes st.index st.files
  let st := { st with index := s }.removeOld
  if 0 < applied then return (st.checkpoint es).getD st
  else return st

end Store
end Memlay
