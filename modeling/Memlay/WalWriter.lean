import Memlay.Wal

/-!
# Writing the log (`src/store/wal.rs`)

The writing half of `WriteAheadLog`, with the failures of the device as inputs: a
transfer to the file may stop with an error after any number of bytes, and a sync, a
rename or an open may fail.  The standard library's `BufWriter` keeps what it could not
transfer, except for a text as long as its buffer, which goes straight to the file.

    wrote_writeParts    of what is written, a beginning reaches the file and the buffer
                        together, all of it if no write fails
-/

namespace Memlay

open Wal (encodeOp)

/-- A file as the system has it, and how much of it is on stable storage. -/
structure DiskFile where
  bytes : Bytes
  synced : Nat

/-- `BufWriter<File>` -/
structure BufWriter where
  file : DiskFile
  buf : Bytes

namespace BufWriter

/-- The default capacity. -/
def capacity : Nat := 8 * 1024

/-- How many of `len` bytes a transfer moves; fewer than `len` is an error. -/
def moved (fault : Option Nat) (len : Nat) : Nat :=
  match fault with
  | some n => min n len
  | none => len

def spareCapacity (w : BufWriter) : Nat := capacity - w.buf.length

def addBytes (w : BufWriter) (bytes : Bytes) : BufWriter :=
  { w with file := { w.file with bytes := w.file.bytes ++ bytes } }

/-- `flush_buf`: what was not transferred stays in the buffer. -/
def flushBuf (w : BufWriter) (fault : Option Nat) : Bool × BufWriter :=
  let n := moved fault w.buf.length
  (decide (n = w.buf.length), { w.addBytes (w.buf.take n) with buf := w.buf.drop n })

/-- `write_all`; `room` is the transfer that makes room, `direct` the one that goes past
the buffer. -/
def writeAll (w : BufWriter) (room direct : Option Nat) (bytes : Bytes) : Bool × BufWriter :=
  if bytes.length < w.spareCapacity then (true, { w with buf := w.buf ++ bytes })
  else
    let (ok, w) := if w.spareCapacity < bytes.length then w.flushBuf room else (true, w)
    if !ok then (false, w)
    else if capacity ≤ bytes.length then
      let n := moved direct bytes.length
      (decide (n = bytes.length), w.addBytes (bytes.take n))
    else (true, { w with buf := w.buf ++ bytes })

/-- `sync_data` -/
def syncData (w : BufWriter) (ok : Bool) : Bool × BufWriter :=
  if ok then (true, { w with file := { w.file with synced := w.file.bytes.length } }) else (false, w)

/-- `flush()?` and `sync_data()?` -/
def flushSync (w : BufWriter) (fault : Option Nat) (sync : Bool) : Bool × BufWriter :=
  let (ok, w) := w.flushBuf fault
  if ok then w.syncData sync else (false, w)

/-- One `write_all` after another, up to the first that fails; the transfers of the
`i`-th one are numbered `2 * i` and `2 * i + 1`. -/
def writeParts (fault : Nat → Option Nat) : Nat → List Bytes → BufWriter → Bool × BufWriter
  | _, [], w => (true, w)
  | i, part :: parts, w =>
    let (ok, w) := w.writeAll (fault (2 * i)) (fault (2 * i + 1)) part
    if ok then writeParts fault (i + 1) parts w else (false, w)

end BufWriter

structure WriteAheadLog where
  writer : BufWriter
  dirty : Bool
  bytesWritten : BitVec 64

namespace WriteAheadLog

/-- The log on an existing file. -/
def «open» (file : DiskFile) : WriteAheadLog := ⟨⟨file, []⟩, false, BitVec.ofNat 64 file.bytes.length⟩

def typeByte : WalOp → UInt8
  | .insert _ => 0
  | .delete _ => 1
  | .tombstone _ => 2

/-- What is written after the type byte. -/
def payloadParts : WalOp → List Bytes
  | .insert data => [Wal.toLeBytes data.length, data]
  | .delete id => [Wal.idBytes id]
  | .tombstone id => [Wal.idBytes id]

def written : WalOp → Nat
  | .insert data => 1 + (4 + data.length)
  | .delete _ | .tombstone _ => 1 + 32

/-- `append`; `false` is an error.  The last transfer is that of the flush. -/
def append (l : WriteAheadLog) (op : WalOp) (fault : Nat → Option Nat) : Bool × WriteAheadLog :=
  let (ok, w) := BufWriter.writeParts fault 0 ([typeByte op] :: payloadParts op) l.writer
  if !ok then (false, { l with writer := w })
  else
    let (ok, w) := w.flushBuf (fault 6)
    if !ok then (false, { l with writer := w })
    else (true, ⟨w, true, l.bytesWritten + BitVec.ofNat 64 (written op)⟩)

def pendingBytes (l : WriteAheadLog) : BitVec 64 := l.bytesWritten

/-- `group_commit`: was a sync performed?  `none` is an error. -/
def groupCommit (l : WriteAheadLog) (fault : Option Nat) (sync : Bool) : Option Bool × WriteAheadLog :=
  if !l.dirty then (some false, { l with dirty := false })
  else
    let (ok, w) := l.writer.flushSync fault sync
    (if ok then some true else none, { l with writer := w, dirty := false })

def flush (l : WriteAheadLog) (fault : Option Nat) (sync : Bool) : Bool × WriteAheadLog :=
  let (ok, w) := l.writer.flushSync fault sync
  if ok then (true, { l with writer := w, dirty := false }) else (false, { l with writer := w })

/-- `truncate`: the file is emptied through a handle of its own. -/
def truncate (l : WriteAheadLog) (fault : Option Nat) (sync opened emptied synced : Bool) : Bool × WriteAheadLog :=
  let (ok, w) := l.writer.flushSync fault sync
  if ok && opened && emptied then (synced, { l with writer := { w with file := ⟨[], 0⟩ } })
  else (false, { l with writer := w })

/-- `rotate`; the handle follows the renamed file until a new one is open. -/
def rotate (l : WriteAheadLog) (fault : Option Nat) (sync rename create : Bool) : Bool × WriteAheadLog :=
  let (ok, w) := l.writer.flushSync fault sync
  if ok && rename && create then (true, ⟨⟨⟨[], 0⟩, []⟩, false, 0⟩) else (false, { l with writer := w })

end WriteAheadLog

/-! ## File and buffer together -/

namespace BufWriter

/-- All bytes the writer has taken, in the file or still in the buffer. -/
def log (w : BufWriter) : Bytes := w.file.bytes ++ w.buf

section
variable (w : BufWriter) (fault : Option Nat)

theorem log_flushBuf : (w.flushBuf fault).2.log = w.log := by
  show w.file.bytes ++ w.buf.take _ ++ w.buf.drop _ = _
  rw [List.append_assoc, List.take_append_drop]
  rfl

theorem file_flushBuf : w.file.bytes <+: (w.flushBuf fault).2.file.bytes := List.prefix_append _ _

variable {w fault}

theorem buf_flushBuf (h : (w.flushBuf fault).1 = true) : (w.flushBuf fault).2.buf = [] := by
  have hall : moved fault w.buf.length = w.buf.length := of_decide_eq_true h
  show w.buf.drop (moved fault w.buf.length) = []
  rw [hall, List.drop_length]

theorem buf_flushSync {sync : Bool} (h : (w.flushSync fault sync).1 = true) :
    (w.flushSync fault sync).2.buf = [] := by
  unfold flushSync at h ⊢
  simp only at h ⊢
  split at h
  · rename_i hflush
    rw [if_pos hflush]
    unfold syncData at h ⊢
    split at h
    · rename_i hsync
      rw [if_pos hsync]
      exact buf_flushBuf hflush
    · cases h
  · cases h

end

/-- What a `write_all` leaves: it adds a beginning of the text, all of it if it succeeds. -/
structure Wrote (w : BufWriter) (bytes : Bytes) (r : Bool × BufWriter) : Prop where
  log : ∃ n, r.2.log = w.log ++ bytes.take n ∧ (r.1 = true → n = bytes.length)
  file : w.file.bytes <+: r.2.file.bytes
  synced : r.2.file.synced = w.file.synced

theorem Wrote.log_of_ok {w : BufWriter} {bytes : Bytes} {r : Bool × BufWriter} (h : Wrote w bytes r)
    (hok : r.1 = true) :
    r.2.log = w.log ++ bytes := by
  obtain ⟨n, hlog, hall⟩ := h.log
  rw [hlog, hall hok, List.take_length]

theorem wrote_buffered {w w' : BufWriter} (hlog : w'.log = w.log) (hfile : w.file.bytes <+: w'.file.bytes)
    (hsynced : w'.file.synced = w.file.synced) (bytes : Bytes) :
    Wrote w bytes (true, { w' with buf := w'.buf ++ bytes }) := by
  refine ⟨⟨bytes.length, ?_, fun _ => rfl⟩, hfile, hsynced⟩
  rw [List.take_length, ← hlog]
  exact (List.append_assoc _ _ _).symm

theorem wrote_direct {w w' : BufWriter} (hlog : w'.log = w.log) (hbuf : w'.buf = [])
    (hfile : w.file.bytes <+: w'.file.bytes) (hsynced : w'.file.synced = w.file.synced) (bytes : Bytes)
    (fault : Option Nat) :
    Wrote w bytes (decide (moved fault bytes.length = bytes.length),
        w'.addBytes (bytes.take (moved fault bytes.length))) := by
  refine ⟨⟨moved fault bytes.length, ?_, of_decide_eq_true⟩, hfile.trans (List.prefix_append _ _), hsynced⟩
  have hempty : w'.file.bytes = w.log := by
    rw [← hlog]
    unfold BufWriter.log
    rw [hbuf, List.append_nil]
  show w'.file.bytes ++ bytes.take _ ++ w'.buf = _
  rw [hbuf, List.append_nil, hempty]

theorem wrote_writeAll (w : BufWriter) (room direct : Option Nat) (bytes : Bytes) :
    Wrote w bytes (w.writeAll room direct bytes) := by
  unfold writeAll
  split
  · exact wrote_buffered rfl List.prefix_rfl rfl bytes
  · rename_i hspare
    by_cases hroom : w.spareCapacity < bytes.length
    · rw [if_pos hroom]
      have hlog := log_flushBuf w room
      have hfile := file_flushBuf w room
      cases hok : (w.flushBuf room).1 with
      | false =>
        have heq : w.flushBuf room = (false, (w.flushBuf room).2) := Prod.ext hok rfl
        rw [heq]
        refine ⟨⟨0, ?_, fun h => absurd h Bool.false_ne_true⟩, hfile, rfl⟩
        rw [List.take_zero, List.append_nil]
        exact hlog
      | true =>
        have heq : w.flushBuf room = (true, (w.flushBuf room).2) := Prod.ext hok rfl
        rw [heq]
        simp only [Bool.not_true, Bool.false_eq_true, if_false]
        split
        · exact wrote_direct hlog (buf_flushBuf hok) hfile rfl bytes direct
        · exact wrote_buffered hlog hfile rfl bytes
    · rw [if_neg hroom]
      simp only [Bool.not_true, Bool.false_eq_true, if_false]
      split
      · rename_i hcap
        -- a text that fills the whole buffer finds it empty
        have hbuf : w.buf = [] := by
          unfold spareCapacity at hspare hroom
          exact List.length_eq_zero_iff.1 (by unfold capacity at *; omega)
        exact wrote_direct rfl hbuf List.prefix_rfl rfl bytes direct
      · exact wrote_buffered rfl List.prefix_rfl rfl bytes

/-- A text that is shorter than the buffer is taken or refused as a whole. -/
theorem log_writeAll_refused {w : BufWriter} {room direct : Option Nat} {bytes : Bytes}
    (hlen : bytes.length < capacity)
    (h : (w.writeAll room direct bytes).1 = false) : (w.writeAll room direct bytes).2.log = w.log := by
  unfold writeAll at h ⊢
  split at h
  · cases h
  · rename_i hspare
    rw [if_neg hspare]
    by_cases hroom : w.spareCapacity < bytes.length
    · rw [if_pos hroom] at h ⊢
      cases hok : (w.flushBuf room).1 with
      | false =>
        have heq : w.flushBuf room = (false, (w.flushBuf room).2) := Prod.ext hok rfl
        rw [heq]
        exact log_flushBuf w room
      | true =>
        have heq : w.flushBuf room = (true, (w.flushBuf room).2) := Prod.ext hok rfl
        rw [heq] at h
        simp only [Bool.not_true, Bool.false_eq_true, if_false, if_neg (Nat.not_le.2 hlen)] at h
        cases h
    · rw [if_neg hroom] at h
      simp only [Bool.not_true, Bool.false_eq_true, if_false, if_neg (Nat.not_le.2 hlen)] at h
      cases h

theorem wrote_writeParts (fault : Nat → Option Nat) (i : Nat) (parts : List Bytes) (w : BufWriter) :
    Wrote w parts.flatten (writeParts fault i parts w) := by
  induction parts generalizing i w with
  | nil =>
    refine ⟨⟨0, ?_, fun _ => rfl⟩, List.prefix_rfl, rfl⟩
    exact (List.append_nil _).symm
  | cons part parts ih =>
    have hpart := wrote_writeAll w (fault (2 * i)) (fault (2 * i + 1)) part
    obtain ⟨n, hlog, hall⟩ := hpart.log
    unfold writeParts
    simp only
    split
    · rename_i hok
      obtain ⟨⟨m, hlog', hall'⟩, hfile, hsynced⟩ :=
        ih (i + 1) (w.writeAll (fault (2 * i)) (fault (2 * i + 1)) part).2
      refine ⟨⟨part.length + m, ?_, fun h => ?_⟩, hpart.file.trans hfile, hsynced.trans hpart.synced⟩
      · rw [hlog', hpart.log_of_ok hok, List.flatten_cons, List.take_length_add_append, List.append_assoc]
      · rw [hall' h, List.flatten_cons, List.length_append]
    · rename_i hok
      refine ⟨⟨min n part.length, ?_, fun h => absurd h Bool.false_ne_true⟩, hpart.file, hpart.synced⟩
      rw [hlog, List.flatten_cons, List.take_append_of_le_length (Nat.min_le_right _ _), ← List.take_eq_take_min]

end BufWriter

namespace WriteAheadLog

theorem flatten_parts (op : WalOp) : ([typeByte op] :: payloadParts op).flatten = encodeOp op := by
  cases op <;> simp [typeByte, payloadParts, encodeOp]

end WriteAheadLog
end Memlay
