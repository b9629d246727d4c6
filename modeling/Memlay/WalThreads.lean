import Memlay.LogSize
import Memlay.WalSync
import Memlay.Lib.Pool

/-!
# The log under many threads (`src/store/wal.rs`)

The write lock covers the file, not the flag and not the counter: `append` sets `dirty`
and adds to `bytes_written` after it has let go of the lock, `group_commit` clears the
flag before it takes it, `flush` and `rotate` clear it while they have it.  Here every
one of these is a step of its own, any number of calls run at once, and no operation on
the disk fails.

    commit_durable        group commits made one after the other: when one returns, the
                          record of every append that had returned before is synced
    pendingBytes_late     with no call in progress the counter is the size of the file and
                          of the records that were written before a rotation and counted
                          after it

so the counter is never too small, and a checkpoint that it triggers never comes late.
-/

namespace Memlay
namespace WalThreads

open Wal (encodeOp)
open WalSync (noFault)
open Pool (Act)

/-- Where a record is: in which segment, and from which byte on. -/
structure Record where
  op : WalOp
  segment : Nat
  offset : Nat

/-- `rotated` are the segments that were rotated out, `lock` is the thread that keeps the
write lock from one step to the next; `resets` counts the stores of 0 to the counter. -/
structure Shared where
  wal : WriteAheadLog
  rotated : List DiskFile
  lock : Option Nat
  resets : Nat

inductive Call where
  | append (op : WalOp)
  | groupCommit
  | flush
  | rotate

/-- Where a call stands. -/
inductive Pc where
  | append (op : WalOp)
  /-- written and flushed, the lock released -/
  | wrote (r : Record)
  /-- `dirty` is set -/
  | marked (r : Record)
  /-- returned; `resets` at the time the record was counted -/
  | appended (r : Record) (resets : Nat)
  | commit
  /-- `dirty` was set and is cleared -/
  | swapped
  | committed (synced : Bool)
  | flush
  | flushing
  | flushed
  | rotate
  /-- the new file is open -/
  | renamed
  /-- the counter is 0 -/
  | reset
  | rotateDone

namespace Shared

/-- All segments, the current one last. -/
def files (s : Shared) : List DiskFile := s.rotated ++ [s.wal.writer.file]

def setWriter (s : Shared) (w : BufWriter) : Shared := { s with wal := { s.wal with writer := w } }

def setDirty (s : Shared) (b : Bool) : Shared := { s with wal := { s.wal with dirty := b } }

def setCounter (s : Shared) (n : BitVec 64) : Shared := { s with wal := { s.wal with bytesWritten := n } }

end Shared

/-- What `append` does under the lock. -/
def writeRecord (w : BufWriter) (op : WalOp) : BufWriter :=
  ((w.writeParts noFault 0 ([WriteAheadLog.typeByte op] :: WriteAheadLog.payloadParts op)).2.flushBuf none).2

/-- `flush` and `sync_data`. -/
def syncAll (w : BufWriter) : BufWriter := (w.flushSync none true).2

def start : Call → Pc
  | .append op => .append op
  | .groupCommit => .commit
  | .flush => .flush
  | .rotate => .rotate

/-- The next step of thread `i`. -/
def move (i : Nat) (s : Shared) : Pc → Option (Shared × Pc)
  | .append op =>
    if s.lock = none then
      some (s.setWriter (writeRecord s.wal.writer op), .wrote ⟨op, s.rotated.length, s.wal.writer.log.length⟩)
    else none
  | .wrote r => some (s.setDirty true, .marked r)
  | .marked r =>
    some (s.setCounter (s.wal.bytesWritten + BitVec.ofNat 64 (WriteAheadLog.written r.op)), .appended r s.resets)
  | .commit => if s.wal.dirty then some (s.setDirty false, .swapped) else some (s.setDirty false, .committed false)
  | .swapped => if s.lock = none then some (s.setWriter (syncAll s.wal.writer), .committed true) else none
  | .flush =>
    if s.lock = none then some ({ s.setWriter (syncAll s.wal.writer) with lock := some i }, .flushing) else none
  | .flushing => some ({ s.setDirty false with lock := none }, .flushed)
  | .rotate =>
    if s.lock = none then
      some ({ s.setWriter ⟨⟨[], 0⟩, []⟩ with
        rotated := s.rotated ++ [(syncAll s.wal.writer).file]
        lock := some i }, .renamed)
    else none
  | .renamed => some ({ s.setCounter 0 with resets := s.resets + 1 }, .reset)
  | .reset => some ({ s.setDirty false with lock := none }, .rotateDone)
  | .appended _ _ | .committed _ | .flushed | .rotateDone => none

abbrev Config := Pool Shared Pc

def step (P : Config) (a : Act Call) : Option Config := Pool.step start move P a

/-- The log is opened on a file. -/
def init (file : DiskFile) : Config := ⟨⟨.open file, [], none, 0⟩, []⟩

/-- No call is in progress. -/
def Quiescent (P : Config) : Prop :=
  ∀ pc ∈ P.threads, (∃ r n, pc = .appended r n) ∨ (∃ b, pc = .committed b) ∨ pc = .flushed ∨ pc = .rotateDone

/-- The record is in its segment. -/
def Placed (s : Shared) (r : Record) : Prop :=
  ∃ f, s.files[r.segment]? = some f ∧ encodeOp r.op <+: f.bytes.drop r.offset

/-- It is there, on stable storage. -/
def Durable (s : Shared) (r : Record) : Prop :=
  ∃ f, s.files[r.segment]? = some f ∧ encodeOp r.op <+: f.bytes.drop r.offset ∧
    r.offset + (encodeOp r.op).length ≤ f.synced

/-! ## What the file operations do -/

theorem writeAll_ok (w : BufWriter) (bytes : Bytes) : (w.writeAll none none bytes).1 = true := by
  have hroom : (if w.spareCapacity < bytes.length then w.flushBuf none else (true, w)).1 = true := by
    split
    · exact decide_eq_true rfl
    · rfl
  unfold BufWriter.writeAll
  split
  · rfl
  · simp only [hroom, Bool.not_true, Bool.false_eq_true, if_false]
    split
    · exact decide_eq_true rfl
    · rfl

theorem writeParts_ok (w : BufWriter) (i : Nat) (parts : List Bytes) :
    (w.writeParts noFault i parts).1 = true := by
  induction parts generalizing w i with
  | nil => rfl
  | cons part parts ih =>
    have hok : (w.writeAll (noFault (2 * i)) (noFault (2 * i + 1)) part).1 = true := writeAll_ok w part
    unfold BufWriter.writeParts
    simp only [hok, if_true]
    exact ih _ _

theorem writeRecord_spec (w : BufWriter) (op : WalOp) :
    (writeRecord w op).buf = [] ∧ (writeRecord w op).file.bytes = w.log ++ encodeOp op ∧
      (writeRecord w op).file.synced = w.file.synced := by
  have hparts := BufWriter.wrote_writeParts noFault 0
      ([WriteAheadLog.typeByte op] :: WriteAheadLog.payloadParts op) w
  have hlog := hparts.log_of_ok (writeParts_ok w 0 _)
  rw [WriteAheadLog.flatten_parts] at hlog
  have hempty : (writeRecord w op).buf = [] := BufWriter.buf_flushBuf (decide_eq_true rfl)
  refine ⟨hempty, ?_, hparts.synced⟩
  have hall : (writeRecord w op).log = w.log ++ encodeOp op := (BufWriter.log_flushBuf _ _).trans hlog
  unfold BufWriter.log at hall
  rwa [hempty, List.append_nil] at hall

theorem syncAll_spec (w : BufWriter) :
    (syncAll w).buf = [] ∧ (syncAll w).file.bytes = w.log ∧ (syncAll w).file.synced = w.log.length := by
  have hflush : (w.flushBuf none).1 = true := decide_eq_true rfl
  have hempty : (w.flushBuf none).2.buf = [] := BufWriter.buf_flushBuf hflush
  have hall : (w.flushBuf none).2.log = w.log := BufWriter.log_flushBuf w none
  unfold BufWriter.log at hall
  rw [hempty, List.append_nil] at hall
  have hsync : syncAll w = ((w.flushBuf none).2.syncData true).2 := by
    unfold syncAll BufWriter.flushSync
    simp only [hflush, if_true]
  rw [hsync]
  refine ⟨hempty, hall, ?_⟩
  show (w.flushBuf none).2.file.bytes.length = w.log.length
  rw [hall]
  rfl

/-! ## What one step can do -/

inductive Moves (i : Nat) (s : Shared) : Pc → Shared → Pc → Prop
  | append (op : WalOp) : s.lock = none →
      Moves i s (.append op) (s.setWriter (writeRecord s.wal.writer op))
        (.wrote ⟨op, s.rotated.length, s.wal.writer.log.length⟩)
  | mark (r : Record) : Moves i s (.wrote r) (s.setDirty true) (.marked r)
  | count (r : Record) :
      Moves i s (.marked r) (s.setCounter (s.wal.bytesWritten + BitVec.ofNat 64 (WriteAheadLog.written r.op)))
        (.appended r s.resets)
  | swap : s.wal.dirty = true → Moves i s .commit (s.setDirty false) .swapped
  | clean : s.wal.dirty = false → Moves i s .commit (s.setDirty false) (.committed false)
  | sync : s.lock = none → Moves i s .swapped (s.setWriter (syncAll s.wal.writer)) (.committed true)
  | flush : s.lock = none →
      Moves i s .flush { s.setWriter (syncAll s.wal.writer) with lock := some i } .flushing
  | flushed : Moves i s .flushing { s.setDirty false with lock := none } .flushed
  | rotate : s.lock = none →
      Moves i s .rotate { s.setWriter ⟨⟨[], 0⟩, []⟩ with
        rotated := s.rotated ++ [(syncAll s.wal.writer).file]
        lock := some i } .renamed
  | reset : Moves i s .renamed { s.setCounter 0 with resets := s.resets + 1 } .reset
  | rotated : Moves i s .reset { s.setDirty false with lock := none } .rotateDone

theorem moves_of_move {i : Nat} {s s' : Shared} {pc pc' : Pc} (h : move i s pc = some (s', pc')) :
    Moves i s pc s' pc' := by
  cases pc with
  | append op =>
    simp only [move] at h
    split at h
    · rename_i hl
      cases h
      exact .append op hl
    · cases h
  | wrote r =>
    cases h
    exact .mark r
  | marked r =>
    cases h
    exact .count r
  | commit =>
    simp only [move] at h
    split at h
    · rename_i hd
      cases h
      exact .swap hd
    · rename_i hd
      cases h
      exact .clean (by simpa using hd)
  | swapped =>
    simp only [move] at h
    split at h
    · rename_i hl
      cases h
      exact .sync hl
    · cases h
  | flush =>
    simp only [move] at h
    split at h
    · rename_i hl
      cases h
      exact .flush hl
    · cases h
  | flushing =>
    cases h
    exact .flushed
  | rotate =>
    simp only [move] at h
    split at h
    · rename_i hl
      cases h
      exact .rotate hl
    · cases h
  | renamed =>
    cases h
    exact .reset
  | reset =>
    cases h
    exact .rotated
  | appended r n => cases h
  | committed b => cases h
  | flushed => cases h
  | rotateDone => cases h

/-! ## Segments only grow -/

def Grows (s s' : Shared) : Prop :=
  ∀ (k : Nat) (f : DiskFile), s.files[k]? = some f →
    ∃ f' : DiskFile, s'.files[k]? = some f' ∧ f.bytes <+: f'.bytes ∧ f.synced ≤ f'.synced

theorem Grows.placed {s s' : Shared} {r : Record} (h : Grows s s') (hr : Placed s r) : Placed s' r := by
  obtain ⟨f, hf, hpre⟩ := hr
  obtain ⟨f', hf', hbytes, -⟩ := h _ f hf
  exact ⟨f', hf', hpre.trans (hbytes.drop r.offset)⟩

theorem Grows.durable {s s' : Shared} {r : Record} (h : Grows s s') (hr : Durable s r) : Durable s' r := by
  obtain ⟨f, hf, hpre, hle⟩ := hr
  obtain ⟨f', hf', hbytes, hsynced⟩ := h _ f hf
  exact ⟨f', hf', hpre.trans (hbytes.drop r.offset), hle.trans hsynced⟩

theorem grows_of_files {s s' : Shared} (h : s'.files = s.files) : Grows s s' := by
  intro k f hf
  exact ⟨f, by rw [h, hf], List.prefix_rfl, le_rfl⟩

theorem grows_setWriter {s : Shared} {w : BufWriter} (hbytes : s.wal.writer.file.bytes <+: w.file.bytes)
    (hsynced : s.wal.writer.file.synced ≤ w.file.synced) : Grows s (s.setWriter w) := by
  intro k f hf
  rcases Pool.get_concat hf with hk | ⟨rfl, rfl⟩
  · obtain ⟨hlt, -⟩ := List.getElem?_eq_some_iff.1 hk
    exact ⟨f, (List.getElem?_append_left hlt).trans hk, List.prefix_rfl, le_rfl⟩
  · exact ⟨w.file, List.getElem?_concat_length, hbytes, hsynced⟩

/-- A new segment after the others. -/
theorem grows_concat {s s' : Shared} {f : DiskFile} (h : s'.files = s.files ++ [f]) : Grows s s' := by
  intro k g hg
  obtain ⟨hlt, -⟩ := List.getElem?_eq_some_iff.1 hg
  exact ⟨g, by rw [h, List.getElem?_append_left hlt, hg], List.prefix_rfl, le_rfl⟩

theorem grows_trans {s s' s'' : Shared} (h : Grows s s') (h' : Grows s' s'') : Grows s s'' := by
  intro k f hf
  obtain ⟨f', hf', hb, hs⟩ := h k f hf
  obtain ⟨f'', hf'', hb', hs'⟩ := h' k f' hf'
  exact ⟨f'', hf'', hb.trans hb', hs.trans hs'⟩

section
variable {s : Shared}

theorem grows_syncAll (hbuf : s.wal.writer.buf = [])
    (hle : s.wal.writer.file.synced ≤ s.wal.writer.file.bytes.length) :
    Grows s (s.setWriter (syncAll s.wal.writer)) := by
  obtain ⟨-, hbytes, hsynced⟩ := syncAll_spec s.wal.writer
  have hlog : s.wal.writer.log = s.wal.writer.file.bytes := by rw [BufWriter.log, hbuf, List.append_nil]
  refine grows_setWriter ?_ ?_
  · rw [hbytes, hlog]
  · rw [hsynced, hlog]
    exact hle

theorem grows_of_moves {i : Nat} {s' : Shared} {pc pc' : Pc} (h : Moves i s pc s' pc')
    (hbuf : s.wal.writer.buf = [])
    (hle : s.wal.writer.file.synced ≤ s.wal.writer.file.bytes.length) : Grows s s' := by
  cases h with
  | append op hl =>
    obtain ⟨-, hbytes, hsynced⟩ := writeRecord_spec s.wal.writer op
    refine grows_setWriter ?_ hsynced.ge
    rw [hbytes, BufWriter.log, hbuf, List.append_nil]
    exact List.prefix_append _ _
  | sync hl => exact grows_syncAll hbuf hle
  | flush hl => exact grows_trans (grows_syncAll hbuf hle) (grows_of_files rfl)
  | rotate hl =>
    -- first the sync of the old segment, then the new one
    exact grows_trans (grows_syncAll hbuf hle) (grows_concat (f := ⟨[], 0⟩) rfl)
  | mark r => exact grows_of_files rfl
  | count r => exact grows_of_files rfl
  | swap hd => exact grows_of_files rfl
  | clean hd => exact grows_of_files rfl
  | flushed => exact grows_of_files rfl
  | reset => exact grows_of_files rfl
  | rotated => exact grows_of_files rfl

end

/-- Everything is synced. -/
def AllSynced (s : Shared) : Prop := ∀ f ∈ s.files, f.synced = f.bytes.length

theorem Placed.durable {s : Shared} {r : Record} (h : Placed s r) (hs : AllSynced s) : Durable s r := by
  obtain ⟨f, hf, hpre⟩ := h
  refine ⟨f, hf, hpre, ?_⟩
  have hlen := hpre.length_le
  have hpos := Wal.length_encodeOp_pos r.op
  rw [List.length_drop] at hlen
  rw [hs f (List.mem_of_getElem? hf)]
  omega

/-! ## The flag -/

/-- The thread has kept the lock from its last step on. -/
def Pc.locking : Pc → Bool
  | .flushing | .renamed | .reset => true
  | _ => false

/-- The record the call has written. -/
def Pc.record : Pc → Option Record
  | .wrote r | .marked r | .appended r _ => some r
  | _ => none

/-- The record it has written and set the flag for. -/
def Pc.flagged : Pc → Option Record
  | .marked r | .appended r _ => some r
  | _ => none

structure Inv (P : Config) : Prop where
  buf : P.shared.wal.writer.buf = []
  within : P.shared.wal.writer.file.synced ≤ P.shared.wal.writer.file.bytes.length
  rotated : ∀ f ∈ P.shared.rotated, f.synced = f.bytes.length
  lock : ∀ i pc, P.threads[i]? = some pc → pc.locking = true → P.shared.lock = some i
  held : P.shared.lock ≠ none → P.shared.wal.writer.file.synced = P.shared.wal.writer.file.bytes.length
  placed : ∀ pc ∈ P.threads, ∀ r, pc.record = some r → Placed P.shared r
  dirty : ∀ pc ∈ P.threads, ∀ r, pc.flagged = some r →
    Durable P.shared r ∨ P.shared.wal.dirty = true ∨ Pc.swapped ∈ P.threads

theorem inv_init {file : DiskFile} (h : file.synced ≤ file.bytes.length) : Inv (init file) where
  buf := rfl
  within := h
  rotated := fun _ hf => (List.not_mem_nil hf).elim
  lock := fun _ _ hi => by cases hi
  held := fun hl => (hl rfl).elim
  placed := fun _ hpc => (List.not_mem_nil hpc).elim
  dirty := fun _ hpc => (List.not_mem_nil hpc).elim

theorem Inv.call {P : Config} (h : Inv P) (c : Call) : Inv ⟨P.shared, P.threads ++ [start c]⟩ := by
  have hold : ∀ pc ∈ P.threads ++ [start c], pc ∈ P.threads ∨ pc = start c := by
    intro pc hpc
    simpa using hpc
  refine ⟨h.buf, h.within, h.rotated, fun i pc hi hl => ?_, h.held, fun pc hpc r hr => ?_, fun pc hpc r hr => ?_⟩
  · rcases Pool.get_concat hi with hi | ⟨-, rfl⟩
    · exact h.lock i pc hi hl
    · cases c <;> cases hl
  · rcases hold pc hpc with hpc | rfl
    · exact h.placed pc hpc r hr
    · cases c <;> cases hr
  · rcases hold pc hpc with hpc | rfl
    · exact (h.dirty pc hpc r hr).imp_right (Or.imp_right fun hs => List.mem_append_left _ hs)
    · cases c <;> cases hr

section
variable {P : Config} {i : Nat} {pc pc' : Pc} {s' : Shared}

theorem Inv.log_eq (h : Inv P) : P.shared.wal.writer.log = P.shared.wal.writer.file.bytes := by
  rw [BufWriter.log, h.buf, List.append_nil]

/-- After a sync of the current segment everything is synced. -/
theorem Inv.allSynced (h : Inv P) (hs : P.shared.wal.writer.file.synced = P.shared.wal.writer.file.bytes.length) :
    AllSynced P.shared := by
  intro f hf
  rcases List.mem_append.1 hf with hf | hf
  · exact h.rotated f hf
  · rw [List.mem_singleton.1 hf]
    exact hs

theorem Inv.lock_move (h : Inv P) (hi : P.threads[i]? = some pc) (hm : Moves i P.shared pc s' pc') :
    ∀ j q, (P.threads.set i pc')[j]? = some q → q.locking = true → s'.lock = some j := by
  intro j q hj hq
  rcases Pool.get_set hi hj with ⟨rfl, rfl⟩ | ⟨hne, hj⟩
  · cases hm with
    | flush hl | rotate hl => rfl
    | reset => exact h.lock j _ hi rfl
    | append op hl | sync hl | mark r | count r | swap hd | clean hd | flushed | rotated => cases hq
  · have hlock := h.lock j q hj hq
    cases hm with
    | append op hl | sync hl | flush hl | rotate hl =>
      rw [hlock] at hl
      cases hl
    | flushed | rotated =>
      have hmine := h.lock i _ hi rfl
      rw [hlock] at hmine
      exact absurd (Option.some.inj hmine) hne
    | mark r | count r | swap hd | clean hd | reset => exact hlock

theorem syncAll_full (w : BufWriter) : (syncAll w).file.synced = (syncAll w).file.bytes.length := by
  obtain ⟨-, hbytes, hsynced⟩ := syncAll_spec w
  rw [hsynced, hbytes]

theorem Inv.buf_move (h : Inv P) (hm : Moves i P.shared pc s' pc') : s'.wal.writer.buf = [] := by
  cases hm with
  | append op hl => exact (writeRecord_spec _ op).1
  | sync hl | flush hl => exact (syncAll_spec _).1
  | rotate hl => rfl
  | mark r | count r | swap hd | clean hd | flushed | reset | rotated => exact h.buf

theorem Inv.within_move (h : Inv P) (hm : Moves i P.shared pc s' pc') :
    s'.wal.writer.file.synced ≤ s'.wal.writer.file.bytes.length := by
  cases hm with
  | append op hl =>
    obtain ⟨-, hbytes, hsynced⟩ := writeRecord_spec P.shared.wal.writer op
    show (writeRecord P.shared.wal.writer op).file.synced ≤ (writeRecord P.shared.wal.writer op).file.bytes.length
    rw [hsynced, hbytes, h.log_eq, List.length_append]
    exact h.within.trans (Nat.le_add_right _ _)
  | sync hl | flush hl => exact (syncAll_full _).le
  | rotate hl => exact le_rfl
  | mark r | count r | swap hd | clean hd | flushed | reset | rotated => exact h.within

theorem Inv.rotated_move (h : Inv P) (hm : Moves i P.shared pc s' pc') :
    ∀ f ∈ s'.rotated, f.synced = f.bytes.length := by
  cases hm with
  | rotate hl =>
    intro f hf
    rcases List.mem_append.1 hf with hf | hf
    · exact h.rotated f hf
    · rw [List.mem_singleton.1 hf]
      exact syncAll_full _
  | append op hl | sync hl | flush hl | mark r | count r | swap hd | clean hd | flushed | reset | rotated =>
    exact h.rotated

theorem Inv.held_move (h : Inv P) (hm : Moves i P.shared pc s' pc') :
    s'.lock ≠ none → s'.wal.writer.file.synced = s'.wal.writer.file.bytes.length := by
  cases hm with
  | append op hl => exact fun hne => absurd hl hne
  | sync hl => exact fun hne => absurd hl hne
  | flush hl => exact fun _ => syncAll_full _
  | rotate hl => exact fun _ => rfl
  | flushed | rotated => exact fun hne => (hne rfl).elim
  | mark r | count r | swap hd | clean hd | reset => exact h.held

theorem Inv.placed_move (h : Inv P) (hi : P.threads[i]? = some pc) (hm : Moves i P.shared pc s' pc') :
    ∀ q ∈ P.threads.set i pc', ∀ r, q.record = some r → Placed s' r := by
  have hgrows : Grows P.shared s' := grows_of_moves hm h.buf h.within
  intro q hq r hr
  rcases List.mem_or_eq_of_mem_set hq with hq | rfl
  · exact hgrows.placed (h.placed q hq r hr)
  · cases hm with
    | append op hl =>
      cases hr
      obtain ⟨-, hbytes, -⟩ := writeRecord_spec P.shared.wal.writer op
      refine ⟨(writeRecord P.shared.wal.writer op).file, List.getElem?_concat_length, ?_⟩
      rw [hbytes, List.drop_left]
    | mark r' | count r' => exact hgrows.placed (h.placed _ (List.mem_of_getElem? hi) r hr)
    | sync hl | flush hl | rotate hl | swap hd | clean hd | flushed | reset | rotated => cases hr

/-- A step that leaves the flag alone leaves the reasons a record has it for. -/
theorem Inv.dirty_of_same (h : Inv P) (hi : P.threads[i]? = some pc) (hgrows : Grows P.shared s')
    (hpc : pc ≠ .swapped) (hdirty : P.shared.wal.dirty = true → s'.wal.dirty = true) {q : Pc} (hq : q ∈ P.threads)
    {r : Record} (hr : q.flagged = some r) :
    Durable s' r ∨ s'.wal.dirty = true ∨ Pc.swapped ∈ P.threads.set i pc' := by
  rcases h.dirty q hq r hr with hd | hd | hs
  · exact Or.inl (hgrows.durable hd)
  · exact Or.inr (Or.inl (hdirty hd))
  · rcases Pool.exists_set (R := fun p => p = Pc.swapped) pc' hi ⟨_, hs, rfl⟩ with heq | ⟨p, hp, rfl⟩
    · exact absurd heq hpc
    · exact Or.inr (Or.inr hp)

theorem Inv.dirty_move (h : Inv P) (hi : P.threads[i]? = some pc) (hm : Moves i P.shared pc s' pc') :
    ∀ q ∈ P.threads.set i pc', ∀ r, q.flagged = some r →
      Durable s' r ∨ s'.wal.dirty = true ∨ Pc.swapped ∈ P.threads.set i pc' := by
  have hgrows : Grows P.shared s' := grows_of_moves hm h.buf h.within
  have hplaced := h.placed_move hi hm
  have hrecord : ∀ {q : Pc} {r : Record}, q.flagged = some r → q.record = some r := by
    intro q r hr
    cases q <;> first | exact hr | cases hr
  intro q hq r hr
  have hbefore : q ∈ P.threads ∨ q = pc' := List.mem_or_eq_of_mem_set hq
  cases hm with
  | mark r' => exact Or.inr (Or.inl rfl)
  | swap hd => exact Or.inr (Or.inr (Pool.mem_set_self _ hi))
  | count r' =>
    rcases hbefore with hq | rfl
    · exact h.dirty_of_same hi hgrows Pc.noConfusion id hq hr
    · exact h.dirty_of_same hi hgrows Pc.noConfusion id (List.mem_of_getElem? hi) hr
  | append op hl | flush hl | rotate hl | reset =>
    rcases hbefore with hq | rfl
    · exact h.dirty_of_same hi hgrows Pc.noConfusion id hq hr
    · cases hr
  | clean hd =>
    rcases hbefore with hq | rfl
    · refine h.dirty_of_same hi hgrows Pc.noConfusion (fun hdirty => ?_) hq hr
      rw [hd] at hdirty
      cases hdirty
    · cases hr
  | sync hl =>
    -- the whole segment is synced, whoever flagged it
    refine Or.inl ((hplaced q hq r (hrecord hr)).durable fun f hf => ?_)
    rcases List.mem_append.1 hf with hf | hf
    · exact h.rotated f hf
    · rw [List.mem_singleton.1 hf]
      exact syncAll_full _
  | flushed | rotated =>
    -- nothing was written since the sync, the lock was kept
    have hlock : P.shared.lock ≠ none := by
      rw [h.lock i _ hi rfl]
      exact Option.some_ne_none i
    exact Or.inl ((hplaced q hq r (hrecord hr)).durable (h.allSynced (h.held hlock)))

theorem Inv.move (h : Inv P) (hi : P.threads[i]? = some pc) (hm : Moves i P.shared pc s' pc') :
    Inv ⟨s', P.threads.set i pc'⟩ :=
  ⟨h.buf_move hm, h.within_move hm, h.rotated_move hm, h.lock_move hi hm, h.held_move hm, h.placed_move hi hm,
    h.dirty_move hi hm⟩

end

theorem Inv.step {P Q : Config} {a : Act Call} (h : Inv P) (hs : step P a = some Q) : Inv Q := by
  rcases Pool.step_cases hs with ⟨c, -, rfl⟩ | ⟨i, pc, s', pc', -, hi, hm, rfl⟩
  · exact h.call c
  · exact h.move hi (moves_of_move hm)

theorem inv_run {file : DiskFile} (hfile : file.synced ≤ file.bytes.length) {as : List (Act Call)} {P : Config}
    (h : Machine.run step (init file) as = some P) : Inv P :=
  Machine.run_invariant (C := fun _ _ => True) (I := Inv) (fun _ _ _ hs _ hI => hI.step hs) as _ P h
    (Machine.along_of_forall as _ fun _ _ _ => trivial) (inv_init hfile)

/-! ## Durability by group commit -/

/-- The call is a group commit on its way. -/
def Pc.committing : Pc → Bool
  | .commit | .swapped => true
  | _ => false

/-- Group commits are made one after the other, as `start_wal_sync_task` makes them. -/
def OneCommit (P : Config) : Act Call → Prop
  | .call .groupCommit => ∀ pc ∈ P.threads, pc.committing = false
  | _ => True

/-- Commit `i` on its way to make the record of the returned append `j` durable. -/
structure Committing (i j : Nat) (r : Record) (n : Nat) (P : Config) : Prop where
  inv : Inv P
  appended : P.threads[j]? = some (.appended r n)
  stage : (P.threads[i]? = some .commit ∧ ∀ k pc, P.threads[k]? = some pc → k ≠ i → pc.committing = false) ∨
    P.threads[i]? = some .swapped ∨ ∃ b, P.threads[i]? = some (.committed b) ∧ Durable P.shared r

section
variable {P Q : Config} {i j k n : Nat} {r : Record} {pc pc' : Pc} {s' : Shared}

theorem committing_of_moves (h : Moves k P.shared pc s' pc') (hpc : pc.committing = false) :
    pc'.committing = false := by
  cases h with
  | swap hd | clean hd | sync hl => cases hpc
  | append op hl | mark r | count r | flush hl | flushed | rotate hl | reset | rotated => rfl

theorem Committing.call (h : Committing i j r n P) (c : Call) (hc : OneCommit P (.call c)) :
    Committing i j r n ⟨P.shared, P.threads ++ [start c]⟩ := by
  have hkeep : ∀ {k : Nat} {pc : Pc}, P.threads[k]? = some pc → (P.threads ++ [start c])[k]? = some pc := by
    intro k pc hk
    obtain ⟨hlt, -⟩ := List.getElem?_eq_some_iff.1 hk
    exact (List.getElem?_append_left hlt).trans hk
  refine ⟨h.inv.call c, hkeep h.appended, ?_⟩
  rcases h.stage with ⟨hi, hothers⟩ | hi | ⟨b, hi, hd⟩
  · refine Or.inl ⟨hkeep hi, fun k pc hk hne => ?_⟩
    rcases Pool.get_concat hk with hk | ⟨-, rfl⟩
    · exact hothers k pc hk hne
    · cases c with
      | groupCommit => exact absurd (hc _ (List.mem_of_getElem? hi)) Bool.noConfusion
      | append op | flush | rotate => rfl
  · exact Or.inr (Or.inl (hkeep hi))
  · exact Or.inr (Or.inr ⟨b, hkeep hi, hd⟩)

/-- The step of the commit itself. -/
theorem Committing.own_move (h : Committing i j r n P) (hi : P.threads[i]? = some pc)
    (hm : Moves i P.shared pc s' pc') :
    Committing i j r n ⟨s', P.threads.set i pc'⟩ := by
  have hinv : Inv ⟨s', P.threads.set i pc'⟩ := h.inv.move hi hm
  have hne : j ≠ i := by
    rintro rfl
    rw [h.appended] at hi
    cases hi
    cases hm
  have hj : (P.threads.set i pc')[j]? = some (.appended r n) := (Pool.get_set_ne pc' hne).trans h.appended
  have hnow : (P.threads.set i pc')[i]? = some pc' := Pool.get_set_self pc' hi
  refine ⟨hinv, hj, ?_⟩
  rcases h.stage with ⟨hpc, hothers⟩ | hpc | ⟨b, hpc, -⟩
  · rw [hpc] at hi
    cases hi
    cases hm with
    | swap hd => exact Or.inr (Or.inl hnow)
    | clean hd =>
      -- no flag and no other commit: the record is synced already
      refine Or.inr (Or.inr ⟨false, hnow, ?_⟩)
      rcases h.inv.dirty _ (List.mem_of_getElem? h.appended) r rfl with hr | hr | hr
      · exact hr
      · rw [hd] at hr
        cases hr
      · obtain ⟨k, hk⟩ := List.getElem?_of_mem hr
        by_cases hki : k = i
        · rw [hki, hpc] at hk
          cases hk
        · cases hothers k _ hk hki
  · rw [hpc] at hi
    cases hi
    cases hm with
    | sync hl =>
      refine Or.inr (Or.inr ⟨true, hnow, ?_⟩)
      exact (hinv.placed _ (List.mem_of_getElem? hj) r rfl).durable (hinv.allSynced (syncAll_full _))
  · rw [hpc] at hi
    cases hi
    cases hm

theorem Committing.other_move (h : Committing i j r n P) (hne : i ≠ k) (hk : P.threads[k]? = some pc)
    (hm : Moves k P.shared pc s' pc') : Committing i j r n ⟨s', P.threads.set k pc'⟩ := by
  have hjk : j ≠ k := by
    rintro rfl
    rw [h.appended] at hk
    cases hk
    cases hm
  refine ⟨h.inv.move hk hm, (Pool.get_set_ne pc' hjk).trans h.appended, ?_⟩
  rcases h.stage with ⟨hi, hothers⟩ | hi | ⟨b, hi, hd⟩
  · refine Or.inl ⟨(Pool.get_set_ne pc' hne).trans hi, fun m q hq hmi => ?_⟩
    rcases Pool.get_set hk hq with ⟨rfl, rfl⟩ | ⟨-, hq⟩
    · exact committing_of_moves hm (hothers m pc hk hmi)
    · exact hothers m q hq hmi
  · exact Or.inr (Or.inl ((Pool.get_set_ne pc' hne).trans hi))
  · exact Or.inr (Or.inr ⟨b, (Pool.get_set_ne pc' hne).trans hi,
        (grows_of_moves hm h.inv.buf h.inv.within).durable hd⟩)

theorem Committing.step {a : Act Call} (h : Committing i j r n P) (hs : step P a = some Q) (hc : OneCommit P a) :
    Committing i j r n Q := by
  rcases Pool.step_cases hs with ⟨c, rfl, rfl⟩ | ⟨k, pc, s', pc', -, hk, hm, rfl⟩
  · exact h.call c hc
  · by_cases hik : i = k
    · subst hik
      exact h.own_move hk (moves_of_move hm)
    · exact h.other_move hik hk (moves_of_move hm)

end

/-- What the call has written to the current segment and not counted. -/
def Pc.pending (segment : Nat) : Pc → Nat
  | .wrote r | .marked r => if r.segment = segment then WriteAheadLog.written r.op else 0
  | _ => 0

/-- What it has written to an earlier segment and counted since the counter was last 0. -/
def Pc.late (resets : Nat) : Pc → Nat
  | .appended r n => if r.segment < n ∧ n = resets then WriteAheadLog.written r.op else 0
  | _ => 0

/-- Bytes of records that were written before a rotation and counted after it. -/
def lateBytes (P : Config) : Nat := (P.threads.map (Pc.late P.shared.resets)).sum

structure Counted (P : Config) : Prop where
  inv : Inv P
  fresh : .renamed ∈ P.threads → P.shared.wal.writer.file.bytes = [] ∧
      P.shared.resets + 1 = P.shared.rotated.length
  resets : .renamed ∉ P.threads → P.shared.resets = P.shared.rotated.length
  past : ∀ r n, .appended r n ∈ P.threads → n ≤ P.shared.resets
  counter : .renamed ∉ P.threads → ∃ k, P.shared.wal.bytesWritten = BitVec.ofNat 64 k ∧
    k + (P.threads.map (Pc.pending P.shared.rotated.length)).sum =
        P.shared.wal.writer.file.bytes.length + lateBytes P

theorem counted_init {file : DiskFile} (h : file.synced ≤ file.bytes.length) : Counted (init file) where
  inv := inv_init h
  fresh := fun hr => (List.not_mem_nil hr).elim
  resets := fun _ => rfl
  past := fun _ _ hr => (List.not_mem_nil hr).elim
  counter := fun _ => ⟨file.bytes.length, rfl, rfl⟩

section
variable {P Q : Config} {i : Nat} {pc pc' : Pc} {s' : Shared}

theorem Counted.call (h : Counted P) (c : Call) : Counted ⟨P.shared, P.threads ++ [start c]⟩ := by
  have hmem : ∀ q : Pc, q ≠ start c → q ∈ P.threads ++ [start c] → q ∈ P.threads := by
    intro q hne hq
    rcases List.mem_append.1 hq with hq | hq
    · exact hq
    · exact absurd (List.mem_singleton.1 hq) hne
  have hrenamed : Pc.renamed ≠ start c := by cases c <;> exact Pc.noConfusion
  refine ⟨h.inv.call c, fun hr => h.fresh (hmem _ hrenamed hr),
    fun hr => h.resets fun hr' => hr (List.mem_append_left _ hr'), fun r n hr => ?_, fun hr => ?_⟩
  · exact h.past r n (hmem _ (by cases c <;> exact Pc.noConfusion) hr)
  · obtain ⟨k, hk, hsum⟩ := h.counter fun hr' => hr (List.mem_append_left _ hr')
    refine ⟨k, hk, ?_⟩
    have hpend : Pc.pending P.shared.rotated.length (start c) = 0 := by cases c <;> rfl
    have hlate : Pc.late P.shared.resets (start c) = 0 := by cases c <;> rfl
    simpa [lateBytes, hpend, hlate] using hsum

/-- Only its own thread is between the rename and the reset. -/
theorem Inv.renamed_unique (h : Inv P) (hi : P.threads[i]? = some .renamed) (hpc : pc' ≠ .renamed) :
    .renamed ∉ P.threads.set i pc' := by
  intro hmem
  obtain ⟨j, hj⟩ := List.getElem?_of_mem hmem
  rcases Pool.get_set hi hj with ⟨-, heq⟩ | ⟨hne, hj⟩
  · exact hpc heq.symm
  · have hlock := h.lock j _ hj rfl
    rw [h.lock i _ hi rfl] at hlock
    exact hne (Option.some.inj hlock).symm

theorem mem_of_mem_set {q : Pc} (hq : q ∈ P.threads.set i pc') (hne : q ≠ pc') : q ∈ P.threads :=
  (List.mem_or_eq_of_mem_set hq).resolve_right hne

theorem mem_set_of_mem {q : Pc} (hi : P.threads[i]? = some pc) (hq : q ∈ P.threads) (hne : pc ≠ q) :
    q ∈ P.threads.set i pc' := by
  rcases Pool.exists_set (R := fun p => p = q) pc' hi ⟨q, hq, rfl⟩ with heq | ⟨p, hp, rfl⟩
  · exact absurd heq hne
  · exact hp

/-- Nothing is in an empty segment. -/
theorem pending_of_empty {s : Shared} {q : Pc} (hplaced : ∀ r, q.record = some r → Placed s r)
    (hempty : s.wal.writer.file.bytes = []) : q.pending s.rotated.length = 0 := by
  have hother : ∀ r, q.record = some r → r.segment ≠ s.rotated.length := by
    rintro r hr heq
    obtain ⟨f, hf, hpre⟩ := hplaced r hr
    have hcur : f = s.wal.writer.file := by
      rw [heq, Shared.files, List.getElem?_concat_length] at hf
      exact (Option.some.inj hf).symm
    rw [hcur, hempty, List.drop_nil, List.prefix_nil] at hpre
    exact absurd (Wal.length_encodeOp_pos r.op) (by rw [hpre]; exact Nat.lt_irrefl 0)
  cases q with
  | wrote r | marked r => exact if_neg (hother r rfl)
  | append op | appended r n | commit | swapped | committed b | flush | flushing | flushed | rotate | renamed
    | reset | rotateDone => rfl

/-- A step between other places than the rename and the reset, with what it does to the sums. -/
theorem Counted.of_sums (h : Counted P) (hi : P.threads[i]? = some pc) (hm : Moves i P.shared pc s' pc')
    (hpc : pc ≠ .renamed) (hpc' : pc' ≠ .renamed) (hrot : s'.rotated = P.shared.rotated)
    (hres : s'.resets = P.shared.resets) (hpast : ∀ r n, pc' = .appended r n → n ≤ P.shared.resets)
    (hfresh : .renamed ∈ P.threads → s'.wal.writer.file.bytes = P.shared.wal.writer.file.bytes)
    (hsum : .renamed ∉ P.threads → ∃ c, s'.wal.bytesWritten = P.shared.wal.bytesWritten + BitVec.ofNat 64 c ∧
      c + pc'.pending P.shared.rotated.length + P.shared.wal.writer.file.bytes.length + pc.late P.shared.resets =
        pc.pending P.shared.rotated.length + s'.wal.writer.file.bytes.length + pc'.late P.shared.resets) :
    Counted ⟨s', P.threads.set i pc'⟩ := by
  have hback : .renamed ∉ P.threads.set i pc' → .renamed ∉ P.threads :=
    fun hr hr' => hr (mem_set_of_mem hi hr' hpc)
  refine ⟨h.inv.move hi hm, fun hr => ?_, fun hr => ?_, fun r n hr => ?_, fun hr => ?_⟩
  · have hr' : .renamed ∈ P.threads := mem_of_mem_set hr hpc'.symm
    obtain ⟨hempty, hlen⟩ := h.fresh hr'
    exact ⟨(hfresh hr').trans hempty, by rw [hres, hrot]; exact hlen⟩
  · show s'.resets = s'.rotated.length
    rw [hres, hrot]
    exact h.resets (hback hr)
  · show n ≤ s'.resets
    rw [hres]
    rcases List.mem_or_eq_of_mem_set hr with hr | hr
    · exact h.past r n hr
    · exact hpast r n hr.symm
  · obtain ⟨k, hk, heq⟩ := h.counter (hback hr)
    obtain ⟨c, hc, hbal⟩ := hsum (hback hr)
    refine ⟨k + c, ?_, ?_⟩
    · show s'.wal.bytesWritten = _
      rw [hc, hk, BitVec.ofNat_add]
    · have hpend := Pool.sum_set (Pc.pending P.shared.rotated.length) pc' hi
      have hlate := Pool.sum_set (Pc.late P.shared.resets) pc' hi
      show k + c + ((P.threads.set i pc').map (Pc.pending s'.rotated.length)).sum =
        s'.wal.writer.file.bytes.length + ((P.threads.set i pc').map (Pc.late s'.resets)).sum
      rw [hrot, hres]
      unfold lateBytes at heq
      omega

theorem Counted.move (h : Counted P) (hi : P.threads[i]? = some pc) (hm : Moves i P.shared pc s' pc') :
    Counted ⟨s', P.threads.set i pc'⟩ := by
  have hmine : pc ∈ P.threads := List.mem_of_getElem? hi
  have hsync : (syncAll P.shared.wal.writer).file.bytes = P.shared.wal.writer.file.bytes :=
    (syncAll_spec _).2.1.trans h.inv.log_eq
  cases hm with
  | append op hl =>
    obtain ⟨-, hbytes, -⟩ := writeRecord_spec P.shared.wal.writer op
    refine h.of_sums hi (.append op hl) Pc.noConfusion Pc.noConfusion rfl rfl (fun _ _ hne => Pc.noConfusion hne)
      (fun hr => ?_) fun _ => ⟨0, (BitVec.add_zero _).symm, ?_⟩
    · obtain ⟨j, hj⟩ := List.getElem?_of_mem hr
      rw [h.inv.lock j _ hj rfl] at hl
      cases hl
    · show 0 + (if P.shared.rotated.length = P.shared.rotated.length then WriteAheadLog.written op else 0) + _ +
          0 =
        0 + (writeRecord P.shared.wal.writer op).file.bytes.length + 0
      rw [if_pos rfl, hbytes, h.inv.log_eq, List.length_append, LogSize.length_encodeOp]
      omega
  | mark r =>
    exact h.of_sums hi (.mark r) Pc.noConfusion Pc.noConfusion rfl rfl (fun _ _ hne => Pc.noConfusion hne)
      (fun _ => rfl) fun _ => ⟨0, (BitVec.add_zero _).symm, by rw [Nat.zero_add]; rfl⟩
  | count r =>
    refine h.of_sums hi (.count r) Pc.noConfusion Pc.noConfusion rfl rfl (fun _ _ heq => ?_)
        (fun _ => rfl) fun hr =>
      ⟨WriteAheadLog.written r.op, rfl, ?_⟩
    · cases heq
      exact le_rfl
    · -- the record is in the current segment, or in an earlier one and late
      have hres := h.resets hr
      obtain ⟨f, hf, -⟩ := h.inv.placed _ hmine r rfl
      obtain ⟨hlt, -⟩ := List.getElem?_eq_some_iff.1 hf
      have hlen : P.shared.files.length = P.shared.rotated.length + 1 := List.length_append
      show WriteAheadLog.written r.op + 0 + P.shared.wal.writer.file.bytes.length + 0 =
        (if r.segment = P.shared.rotated.length then WriteAheadLog.written r.op else 0) +
          P.shared.wal.writer.file.bytes.length +
          if r.segment < P.shared.resets ∧ P.shared.resets = P.shared.resets then WriteAheadLog.written r.op else 0
      by_cases hcur : r.segment = P.shared.rotated.length
      · rw [if_pos hcur, if_neg (by omega)]
        omega
      · rw [if_neg hcur, if_pos ⟨by omega, rfl⟩]
        omega
  | swap hd =>
    exact h.of_sums hi (.swap hd) Pc.noConfusion Pc.noConfusion rfl rfl (fun _ _ hne => Pc.noConfusion hne)
      (fun _ => rfl) fun _ => ⟨0, (BitVec.add_zero _).symm, rfl⟩
  | clean hd =>
    exact h.of_sums hi (.clean hd) Pc.noConfusion Pc.noConfusion rfl rfl (fun _ _ hne => Pc.noConfusion hne)
      (fun _ => rfl) fun _ => ⟨0, (BitVec.add_zero _).symm, rfl⟩
  | sync hl =>
    exact h.of_sums hi (.sync hl) Pc.noConfusion Pc.noConfusion rfl rfl (fun _ _ hne => Pc.noConfusion hne)
      (fun _ => hsync) fun _ => ⟨0, (BitVec.add_zero _).symm, by
        simp only [Pc.pending, Pc.late, Shared.setWriter, hsync]⟩
  | flush hl =>
    exact h.of_sums hi (.flush hl) Pc.noConfusion Pc.noConfusion rfl rfl (fun _ _ hne => Pc.noConfusion hne)
      (fun _ => hsync) fun _ => ⟨0, (BitVec.add_zero _).symm, by
        simp only [Pc.pending, Pc.late, Shared.setWriter, hsync]⟩
  | flushed =>
    exact h.of_sums hi .flushed Pc.noConfusion Pc.noConfusion rfl rfl (fun _ _ hne => Pc.noConfusion hne)
      (fun _ => rfl) fun _ => ⟨0, (BitVec.add_zero _).symm, rfl⟩
  | rotated =>
    exact h.of_sums hi .rotated Pc.noConfusion Pc.noConfusion rfl rfl (fun _ _ hne => Pc.noConfusion hne)
      (fun _ => rfl) fun _ => ⟨0, (BitVec.add_zero _).symm, rfl⟩
  | rotate hl =>
    have hnone : Pc.renamed ∉ P.threads := by
      intro hr
      obtain ⟨j, hj⟩ := List.getElem?_of_mem hr
      rw [h.inv.lock j _ hj rfl] at hl
      cases hl
    have hnow : Pc.renamed ∈ P.threads.set i .renamed := Pool.mem_set_self _ hi
    refine ⟨h.inv.move hi (.rotate hl), fun _ => ⟨rfl, ?_⟩, fun hr => absurd hnow hr, fun r n hr => ?_,
      fun hr => absurd hnow hr⟩
    · show P.shared.resets + 1 = (P.shared.rotated ++ [_]).length
      rw [h.resets hnone, List.length_append]
      rfl
    · exact h.past r n (mem_of_mem_set hr Pc.noConfusion)
  | reset =>
    obtain ⟨hempty, hlen⟩ := h.fresh hmine
    have hgone : Pc.renamed ∉ P.threads.set i .reset := h.inv.renamed_unique hi Pc.noConfusion
    refine ⟨h.inv.move hi .reset, fun hr => absurd hr hgone, fun _ => hlen, fun r n hr => ?_,
        fun _ => ⟨0, rfl, ?_⟩⟩
    · exact (h.past r n (mem_of_mem_set hr Pc.noConfusion)).trans (Nat.le_succ _)
    · -- the new segment is empty, and nothing is counted since
      have hinv := h.inv.move hi .reset
      have hpend : ((P.threads.set i .reset).map (Pc.pending P.shared.rotated.length)).sum = 0 := by
        refine List.sum_eq_zero_iff_forall_eq_nat.2 fun m hm => ?_
        obtain ⟨q, hq, rfl⟩ := List.mem_map.1 hm
        exact pending_of_empty (fun r hr => hinv.placed q hq r hr) hempty
      have hlate : ((P.threads.set i .reset).map (Pc.late (P.shared.resets + 1))).sum = 0 := by
        refine List.sum_eq_zero_iff_forall_eq_nat.2 fun m hm => ?_
        obtain ⟨q, hq, rfl⟩ := List.mem_map.1 hm
        cases q with
        | appended r n =>
          have hle := h.past r n (mem_of_mem_set hq Pc.noConfusion)
          exact if_neg fun hcon => by omega
        | append op | wrote r | marked r | commit | swapped | committed b | flush | flushing | flushed | rotate
          | renamed | reset | rotateDone => rfl
      show 0 + ((P.threads.set i .reset).map (Pc.pending P.shared.rotated.length)).sum =
        P.shared.wal.writer.file.bytes.length + ((P.threads.set i .reset).map (Pc.late (P.shared.resets + 1))).sum
      rw [hpend, hlate, hempty]
      rfl

end

theorem counted_run {file : DiskFile} (hfile : file.synced ≤ file.bytes.length) {as : List (Act Call)} {P : Config}
    (h : Machine.run step (init file) as = some P) : Counted P := by
  refine Machine.run_invariant (C := fun _ _ => True) (I := Counted) (fun P a Q hs _ hI => ?_) as _ P h
    (Machine.along_of_forall as _ fun _ _ _ => trivial) (counted_init hfile)
  rcases Pool.step_cases hs with ⟨c, -, rfl⟩ | ⟨i, pc, s', pc', -, hi, hm, rfl⟩
  · exact hI.call c
  · exact hI.move hi (moves_of_move hm)

/-- In every state with no call in progress the counter that triggers checkpoints is the
size of the current file and of the records that were written to an earlier segment and
counted after the rotation had reset the counter; a record of the current file is always
counted. -/
theorem pendingBytes_late (file : DiskFile) (hfile : file.synced ≤ file.bytes.length) {as : List (Act Call)}
    {P : Config}
    (h : Machine.run step (init file) as = some P) (hq : Quiescent P) :
    P.shared.wal.pendingBytes = BitVec.ofNat 64 (P.shared.wal.writer.file.bytes.length + lateBytes P) := by
  have hcounted := counted_run hfile h
  have hrest : ∀ pc ∈ P.threads, pc ≠ .renamed ∧ pc.pending P.shared.rotated.length = 0 := by
    intro pc hpc
    rcases hq pc hpc with ⟨r, n, rfl⟩ | ⟨b, rfl⟩ | rfl | rfl
    · exact ⟨Pc.noConfusion, rfl⟩
    · exact ⟨Pc.noConfusion, rfl⟩
    · exact ⟨Pc.noConfusion, rfl⟩
    · exact ⟨Pc.noConfusion, rfl⟩
  obtain ⟨k, hk, hsum⟩ := hcounted.counter fun hr => (hrest _ hr).1 rfl
  have hpend : (P.threads.map (Pc.pending P.shared.rotated.length)).sum = 0 := by
    refine List.sum_eq_zero_iff_forall_eq_nat.2 fun m hm => ?_
    obtain ⟨pc, hpc, rfl⟩ := List.mem_map.1 hm
    exact (hrest pc hpc).2
  show P.shared.wal.bytesWritten = _
  rw [hk, ← hsum, hpend, Nat.add_zero]

/-- An append writes, a rotation comes in between, and the append counts its record. -/
def rotateBetween : List (Act Call) :=
  [.call (.append (.delete 7)), .call .rotate, .step 0, .step 0, .step 1, .step 1, .step 1, .step 0]

theorem pendingBytes_late_rotate :
    ∃ P : Config, Machine.run step (init ⟨[], 0⟩) rotateBetween = some P ∧ Quiescent P ∧ lateBytes P = 33 ∧
      P.shared.wal.pendingBytes = BitVec.ofNat 64 (P.shared.wal.writer.file.bytes.length + 33) := by
  refine ⟨_, rfl, ?_, rfl, ?_⟩
  · intro pc hpc
    rcases List.mem_cons.1 hpc with rfl | hpc
    · exact Or.inl ⟨_, _, rfl⟩
    · exact Or.inr (Or.inr (Or.inr (List.mem_singleton.1 hpc)))
  · refine pendingBytes_late ⟨[], 0⟩ (by decide)
        (show Machine.run step (init ⟨[], 0⟩) rotateBetween = some _ from rfl) ?_
    intro pc hpc
    rcases List.mem_cons.1 hpc with rfl | hpc
    · exact Or.inl ⟨_, _, rfl⟩
    · exact Or.inr (Or.inr (Or.inr (List.mem_singleton.1 hpc)))

end WalThreads
end Memlay
