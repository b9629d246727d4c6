import Memlay.WalWriter
import Memlay.Lib.Machine

/-!
# A clean log is a synced log

`dirty` says that returned appends are not on stable storage yet, and the group commit
is a no-op without it.  `flush` and `rotate` clear it once the sync has succeeded,
`group_commit` before it tries: when it then fails, the flag is gone and nothing tries
again.  Over every run of the four operations, with any failures,

    CleanSynced in every state  ↔  no group commit fails on unsynced appends   (run_cleanSynced_iff)
-/

namespace Memlay
namespace WalSync

/-- The log, and the length of its file when the last append to it returned. -/
structure State where
  wal : WriteAheadLog
  acked : Nat

/-- An operation, with what fails in it. -/
inductive Call where
  | append (op : WalOp) (fault : Nat → Option Nat)
  | groupCommit (fault : Option Nat) (sync : Bool)
  | flush (fault : Option Nat) (sync : Bool)
  | rotate (fault : Option Nat) (sync rename create : Bool)

/-- Length of the current file. -/
def State.size (s : State) : Nat := s.wal.writer.file.bytes.length

def call (s : State) : Call → State
  | .append op fault =>
    let (ok, l) := s.wal.append op fault
    ⟨l, if ok then l.writer.file.bytes.length else s.acked⟩
  | .groupCommit fault sync => { s with wal := (s.wal.groupCommit fault sync).2 }
  | .flush fault sync => { s with wal := (s.wal.flush fault sync).2 }
  | .rotate fault sync rename create =>
    let (ok, l) := s.wal.rotate fault sync rename create
    ⟨l, if ok then 0 else s.acked⟩

def step (s : State) (c : Call) : Option State := some (call s c)

def start (file : DiskFile) : State := ⟨.open file, 0⟩

/-- The bytes of all returned appends to the current file are synced. -/
def State.Synced (s : State) : Prop := s.acked ≤ s.wal.writer.file.synced

/-- Without the flag everything is synced; so as long as something is not, the next
group commit goes to the disk. -/
structure CleanSynced (s : State) : Prop where
  clean : s.wal.dirty = false → s.Synced
  retried : ¬ s.Synced → ∀ fault sync, (s.wal.groupCommit fault sync).1 ≠ some false

/-- A group commit whose flush or sync fails finds everything synced. -/
def NoLostCommit (s : State) : Call → Prop
  | .groupCommit fault sync => (s.wal.writer.flushSync fault sync).1 = false → s.Synced
  | _ => True

/-! ## One operation -/

/-- The file holds what was returned and what was synced. -/
structure Within (s : State) : Prop where
  acked : s.acked ≤ s.size
  synced : s.wal.writer.file.synced ≤ s.size

theorem cleanSynced_iff (s : State) : CleanSynced s ↔ (s.wal.dirty = false → s.Synced) := by
  constructor
  · exact fun h => h.clean
  · intro h
    refine ⟨h, fun hs fault sync => ?_⟩
    cases hd : s.wal.dirty with
    | false => exact absurd (h hd) hs
    | true =>
      unfold WriteAheadLog.groupCommit
      rw [hd]
      simp only [Bool.not_true, Bool.false_eq_true, if_false]
      split <;> simp

section
variable (w : BufWriter) (fault : Option Nat) (sync : Bool)

/-- What a flush and sync do: everything is synced, or only the file has grown. -/
theorem flushSync_cases :
    (w.file.bytes <+: (w.flushSync fault sync).2.file.bytes) ∧
      (((w.flushSync fault sync).1 = true ∧
        (w.flushSync fault sync).2.file.synced = (w.flushSync fault sync).2.file.bytes.length) ∨
      ((w.flushSync fault sync).1 = false ∧ (w.flushSync fault sync).2.file.synced = w.file.synced)) := by
  have hfile := BufWriter.file_flushBuf w fault
  unfold BufWriter.flushSync
  simp only
  split
  · unfold BufWriter.syncData
    split
    · exact ⟨hfile, Or.inl ⟨rfl, rfl⟩⟩
    · exact ⟨hfile, Or.inr ⟨rfl, rfl⟩⟩
  · exact ⟨hfile, Or.inr ⟨rfl, rfl⟩⟩

end

/-- A failed append leaves the flag as it was, and syncs nothing. -/
theorem append_cases (l : WriteAheadLog) (op : WalOp) (fault : Nat → Option Nat) :
    l.writer.file.bytes <+: (l.append op fault).2.writer.file.bytes ∧
      (l.append op fault).2.writer.file.synced = l.writer.file.synced ∧
      (((l.append op fault).1 = true ∧ (l.append op fault).2.dirty = true) ∨
        ((l.append op fault).1 = false ∧ (l.append op fault).2.dirty = l.dirty)) := by
  have hparts := BufWriter.wrote_writeParts fault 0
      ([WriteAheadLog.typeByte op] :: WriteAheadLog.payloadParts op) l.writer
  unfold WriteAheadLog.append
  simp only
  split
  · exact ⟨hparts.file, hparts.synced, Or.inr ⟨rfl, rfl⟩⟩
  · have hfile := hparts.file.trans (BufWriter.file_flushBuf _ (fault 6))
    split
    · exact ⟨hfile, hparts.synced, Or.inr ⟨rfl, rfl⟩⟩
    · exact ⟨hfile, hparts.synced, Or.inl ⟨rfl, rfl⟩⟩

theorem within_call {s : State} (h : Within s) (c : Call) : Within (call s c) := by
  obtain ⟨hacked, hsynced⟩ := h
  unfold State.size at hacked hsynced
  have hgrown : ∀ fault sync, s.acked ≤ (s.wal.writer.flushSync fault sync).2.file.bytes.length ∧
      (s.wal.writer.flushSync fault sync).2.file.synced ≤
      (s.wal.writer.flushSync fault sync).2.file.bytes.length := by
    intro fault sync
    obtain ⟨hfile, hcases⟩ := flushSync_cases s.wal.writer fault sync
    have hle := hfile.length_le
    refine ⟨by omega, ?_⟩
    rcases hcases with ⟨-, heq⟩ | ⟨-, heq⟩
    · exact heq.le
    · omega
  cases c with
  | append op fault =>
    obtain ⟨hfile, heq, -⟩ := append_cases s.wal op fault
    have hle := hfile.length_le
    refine ⟨?_, ?_⟩
    · show (if (s.wal.append op fault).1 then _ else s.acked) ≤ (s.wal.append op fault).2.writer.file.bytes.length
      split
      · exact Nat.le_refl _
      · omega
    · show (s.wal.append op fault).2.writer.file.synced ≤ (s.wal.append op fault).2.writer.file.bytes.length
      omega
  | groupCommit fault sync =>
    obtain ⟨ha, hs⟩ := hgrown fault sync
    simp only [call, WriteAheadLog.groupCommit]
    split
    · exact ⟨hacked, hsynced⟩
    · exact ⟨ha, hs⟩
  | flush fault sync =>
    obtain ⟨ha, hs⟩ := hgrown fault sync
    simp only [call, WriteAheadLog.flush]
    split <;> exact ⟨ha, hs⟩
  | rotate fault sync rename create =>
    obtain ⟨ha, hs⟩ := hgrown fault sync
    simp only [call, WriteAheadLog.rotate]
    split
    · exact ⟨Nat.le_refl 0, Nat.le_refl 0⟩
    · exact ⟨ha, hs⟩

/-- The step lemma: only a group commit that fails can take the flag from what is not synced. -/
theorem cleanSynced_call_iff {s : State} (hw : Within s) (h : CleanSynced s) (c : Call) :
    CleanSynced (call s c) ↔ NoLostCommit s c := by
  rw [cleanSynced_iff] at h ⊢
  obtain ⟨hacked, -⟩ := hw
  unfold State.size at hacked
  cases c with
  | append op fault =>
    obtain ⟨-, heq, hcases⟩ := append_cases s.wal op fault
    refine iff_of_true ?_ trivial
    simp only [call, State.Synced, heq]
    rcases hcases with ⟨-, hd⟩ | ⟨hok, hd⟩
    · rw [hd]
      exact fun hfalse => absurd hfalse (by decide)
    · rw [hd, hok]
      exact h
  | groupCommit fault sync =>
    obtain ⟨hfile, hcases⟩ := flushSync_cases s.wal.writer fault sync
    have hle := hfile.length_le
    simp only [call, NoLostCommit, State.Synced, WriteAheadLog.groupCommit]
    cases hd : s.wal.dirty with
    | false => exact iff_of_true (fun _ => h hd) fun _ => h hd
    | true =>
      simp only [Bool.not_true, Bool.false_eq_true, if_false]
      rcases hcases with ⟨hok, heq⟩ | ⟨hok, heq⟩
      · rw [hok, heq]
        exact iff_of_true (fun _ => by omega) fun hfalse => absurd hfalse (by decide)
      · rw [hok, heq]
        exact ⟨fun hs _ => hs trivial, fun hs _ => hs rfl⟩
  | flush fault sync =>
    obtain ⟨hfile, hcases⟩ := flushSync_cases s.wal.writer fault sync
    have hle := hfile.length_le
    refine iff_of_true ?_ trivial
    simp only [call, State.Synced, WriteAheadLog.flush]
    rcases hcases with ⟨hok, heq⟩ | ⟨hok, heq⟩
    · rw [hok]
      intro _
      show s.acked ≤ (s.wal.writer.flushSync fault sync).2.file.synced
      omega
    · rw [hok]
      intro hd
      show s.acked ≤ (s.wal.writer.flushSync fault sync).2.file.synced
      rw [heq]
      exact h hd
  | rotate fault sync rename create =>
    obtain ⟨hfile, hcases⟩ := flushSync_cases s.wal.writer fault sync
    have hle := hfile.length_le
    refine iff_of_true ?_ trivial
    simp only [call, State.Synced, WriteAheadLog.rotate]
    split
    · exact fun _ => Nat.le_refl 0
    · intro hd
      show s.acked ≤ (s.wal.writer.flushSync fault sync).2.file.synced
      rcases hcases with ⟨-, heq⟩ | ⟨-, heq⟩
      · omega
      · rw [heq]
        exact h hd

/-! ## Runs -/

theorem within_start {file : DiskFile} (h : file.synced ≤ file.bytes.length) : Within (start file) :=
  ⟨Nat.zero_le _, h⟩

/-- For every run of appends, group commits, flushes and rotations in which any transfer,
sync, rename or open may fail: a clean log is a synced log in every state exactly when no
group commit fails while bytes of returned appends are not synced. -/
theorem run_cleanSynced_iff (file : DiskFile) (hfile : file.synced ≤ file.bytes.length) (calls : List Call) :
    (∀ pre, pre <+: calls → ∀ s, Machine.run step (start file) pre = some s → CleanSynced s) ↔
      Machine.Along step NoLostCommit (start file) calls := by
  have htotal : ∀ (cs : List Call) (s : State), ∃ t, Machine.run step s cs = some t := by
    intro cs
    induction cs with
    | nil => exact fun s => ⟨s, rfl⟩
    | cons c cs ih => exact fun s => ih (call s c)
  obtain ⟨t, ht⟩ := htotal calls (start file)
  refine Machine.forall_prefix_iff CleanSynced Within calls (start file) t ?_ ht ?_ ?_
  · rintro s c s' - hs hw - hclean
    cases hs
    exact cleanSynced_call_iff hw hclean c
  · intro pre hpre s hs
    refine Machine.run_invariant (I := Within) ?_ pre (start file) s hs
      (Machine.along_of_forall (C := fun _ _ => True) pre _ fun _ _ _ => trivial) (within_start hfile)
    rintro s c s' hstep - hw
    cases hstep
    exact within_call hw c
  · rw [cleanSynced_iff]
    exact fun _ => Nat.zero_le _

/-- Nothing fails. -/
def noFault : Nat → Option Nat := fun _ => none

/-- A deletion is recorded, and the sync of the group commit fails. -/
def failedCommit : List Call := [.append (.delete 7) noFault, .groupCommit none false]

theorem run_cleanSynced_iff_failedCommit :
    (∀ pre, pre <+: failedCommit → ∀ s, Machine.run step (start ⟨[], 0⟩) pre = some s → CleanSynced s) ↔
      Machine.Along step NoLostCommit (start ⟨[], 0⟩) failedCommit :=
  run_cleanSynced_iff ⟨[], 0⟩ (Nat.le_refl 0) failedCommit

/-- The record is not synced, the flag is gone, and the next group commit does nothing. -/
theorem failedCommit_forgotten : ∃ s, Machine.run step (start ⟨[], 0⟩) failedCommit = some s ∧
    s.wal.dirty = false ∧ ¬ s.Synced ∧ (s.wal.groupCommit none true).1 = some false ∧ ¬ CleanSynced s := by
  have hlost : ¬ (call (call (start ⟨[], 0⟩) (.append (.delete 7) noFault)) (.groupCommit none false)).Synced := by
    unfold State.Synced
    decide
  exact ⟨_, rfl, by decide, hlost, by decide, fun h => hlost (h.clean (by decide))⟩

end WalSync
end Memlay
