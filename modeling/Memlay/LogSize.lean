import Memlay.Compact
import Memlay.WalWriter
import Memlay.Lib.Machine

/-!
# The counter and the file

`pending_bytes` triggers checkpoints by the size of the log, from a counter that each
operation keeps beside the file.  `open` sets it, `append` adds to it, `rotate` clears it;
`truncate` and `compact` shorten the file and leave the counter as it was.  Over every run
of operations that succeed,

    the counter is the size in every state
      ↔  truncate finds an empty file, and compact nothing to leave out       (`run_pendingBytes`)
-/

namespace Memlay

open Wal (encodeOp encodeAll insertOp keptEvents)

/-- `compact`; `none` is an error.  The old handle is flushed to the old file, and the
counter and the flag are not touched. -/
def WriteAheadLog.compact (x : Ext) (live : Finset Bytes32) (l : WriteAheadLog) (copied : Bool)
    (fault : Option Nat)
    (rename create : Bool) : Option Nat × WriteAheadLog :=
  match Wal.compact x live l.writer.file.bytes with
  | .error _ => (none, l)
  | .ok (removed, out) =>
    if !copied then (none, l)
    else
      let (ok, w) := l.writer.flushBuf fault
      if ok && rename && create then (some removed, { l with writer := ⟨⟨out, out.length⟩, []⟩ })
      else (none, { l with writer := w })

namespace LogSize

/-- An operation, with what fails in it. -/
inductive Call where
  /-- the log is dropped, and opened again on its file -/
  | reopen
  | append (op : WalOp) (fault : Nat → Option Nat)
  | rotate (fault : Option Nat) (sync rename create : Bool)
  | truncate (fault : Option Nat) (sync opened emptied synced : Bool)
  | compact (live : Finset Bytes32) (copied : Bool) (fault : Option Nat) (rename create : Bool)

def succeeded : Bool × WriteAheadLog → Option WriteAheadLog
  | (true, l) => some l
  | (false, _) => none

/-- An operation that succeeds. -/
def step (x : Ext) (l : WriteAheadLog) : Call → Option WriteAheadLog
  | .reopen => some (.open (l.writer.flushBuf none).2.file)
  | .append op fault => succeeded (l.append op fault)
  | .rotate fault sync rename create => succeeded (l.rotate fault sync rename create)
  | .truncate fault sync opened emptied synced => succeeded (l.truncate fault sync opened emptied synced)
  | .compact live copied fault rename create =>
    match l.compact x live copied fault rename create with
    | (some _, l) => some l
    | (none, _) => none

/-- The counter is the size of the file. -/
def Sized (l : WriteAheadLog) : Prop := l.pendingBytes = BitVec.ofNat 64 l.writer.file.bytes.length

/-- The log has nothing but inserts of live events, one for each id. -/
def Tidy (x : Ext) (live : Finset Bytes32) (log : Bytes) : Prop :=
  ∃ es : List Event, log = encodeAll (es.map insertOp) ∧
    (∀ e ∈ es, e.raw.length ≤ maxWalRecordSize ∧ Event.fromJsonUnchecked x e.raw = .ok e ∧ e.id ∈ live) ∧
    (es.map Event.id).Nodup

/-- The operation does not shorten the file behind the counter's back. -/
def KeepsSize (x : Ext) (l : WriteAheadLog) : Call → Prop
  | .truncate .. => l.writer.file.bytes = []
  | .compact live .. => Tidy x live l.writer.file.bytes
  | _ => True

/-! ## What each operation does -/

/-- The file and the counter after an operation. -/
def Effect (x : Ext) (l : WriteAheadLog) (l' : WriteAheadLog) : Call → Prop
  | .reopen => l'.writer.file.bytes = l.writer.file.bytes ∧ Sized l'
  | .append op _ => l'.writer.file.bytes = l.writer.file.bytes ++ encodeOp op ∧
      l'.pendingBytes = l.pendingBytes + BitVec.ofNat 64 (encodeOp op).length
  | .rotate .. => l'.writer.file.bytes = [] ∧ l'.pendingBytes = 0
  | .truncate .. => l'.writer.file.bytes = [] ∧ l'.pendingBytes = l.pendingBytes
  | .compact live .. => (∃ removed, Wal.compact x live l.writer.file.bytes = .ok (removed, l'.writer.file.bytes)) ∧
      l'.pendingBytes = l.pendingBytes

theorem length_encodeOp (op : WalOp) : (encodeOp op).length = WriteAheadLog.written op := by
  have hid : ∀ id, (Wal.idBytes id).length = 32 := fun id => Wal.length_beBytes 32 _
  cases op with
  | insert data =>
    show (0 :: (Wal.toLeBytes data.length ++ data)).length = 1 + (4 + data.length)
    rw [List.length_cons, List.length_append, Wal.toLeBytes, List.length_reverse, Wal.length_beBytes]
    omega
  | delete id => exact congrArg (· + 1) (hid id)
  | tombstone id => exact congrArg (· + 1) (hid id)

theorem of_succeeded {r : Bool × WriteAheadLog} {l : WriteAheadLog} (h : succeeded r = some l) :
    r.1 = true ∧ r.2 = l := by
  obtain ⟨ok, l'⟩ := r
  cases ok with
  | true => exact ⟨rfl, Option.some.inj h⟩
  | false => cases h

section
variable {l l' : WriteAheadLog}

/-- An append that succeeds leaves its record in the file and nothing in the buffer. -/
theorem append_ok {op : WalOp} {fault : Nat → Option Nat} (hbuf : l.writer.buf = [])
    (h : (l.append op fault).1 = true) :
    (l.append op fault).2.writer.buf = [] ∧
      (l.append op fault).2.writer.file.bytes = l.writer.file.bytes ++ encodeOp op ∧
      (l.append op fault).2.pendingBytes = l.pendingBytes + BitVec.ofNat 64 (encodeOp op).length := by
  have hparts := BufWriter.wrote_writeParts fault 0
      ([WriteAheadLog.typeByte op] :: WriteAheadLog.payloadParts op) l.writer
  have hlog := hparts.log_of_ok
  rw [WriteAheadLog.flatten_parts] at hlog
  unfold WriteAheadLog.append at h ⊢
  generalize BufWriter.writeParts fault 0 ([WriteAheadLog.typeByte op] :: WriteAheadLog.payloadParts op) l.writer =
      r
    at h hlog ⊢
  obtain ⟨ok, w⟩ := r
  cases ok with
  | false => cases h
  | true =>
    have hall := BufWriter.log_flushBuf w (fault 6)
    simp only [Bool.not_true, Bool.false_eq_true, if_false] at h ⊢
    split at h
    · cases h
    · rename_i hok
      have hempty := @BufWriter.buf_flushBuf w (fault 6) (by simpa using hok)
      rw [if_neg hok]
      refine ⟨hempty, ?_, ?_⟩
      · rw [hlog rfl] at hall
        unfold BufWriter.log at hall
        rw [hempty, hbuf, List.append_nil, List.append_nil] at hall
        exact hall
      · rw [length_encodeOp]
        rfl

theorem flushBuf_file (hbuf : l.writer.buf = []) (fault : Option Nat) :
    (l.writer.flushBuf fault).2.file.bytes = l.writer.file.bytes := by
  show l.writer.file.bytes ++ l.writer.buf.take _ = _
  rw [hbuf, List.take_nil, List.append_nil]

/-- Between operations the buffer is empty, and each does what `Effect` says. -/
theorem step_effect {x : Ext} {c : Call} (hbuf : l.writer.buf = []) (h : step x l c = some l') :
    l'.writer.buf = [] ∧ Effect x l l' c := by
  cases c with
  | reopen =>
    cases h
    exact ⟨rfl, flushBuf_file hbuf none, rfl⟩
  | append op fault =>
    obtain ⟨hok, rfl⟩ := of_succeeded h
    exact append_ok hbuf hok
  | rotate fault sync rename create =>
    obtain ⟨hok, rfl⟩ := of_succeeded h
    unfold WriteAheadLog.rotate at hok ⊢
    simp only at hok ⊢
    split at hok
    · rename_i hall
      rw [if_pos hall]
      exact ⟨rfl, rfl, rfl⟩
    · cases hok
  | truncate fault sync opened emptied synced =>
    obtain ⟨hok, rfl⟩ := of_succeeded h
    unfold WriteAheadLog.truncate at hok ⊢
    simp only at hok ⊢
    split at hok
    · rename_i hall
      rw [if_pos hall]
      refine ⟨?_, rfl, rfl⟩
      -- the flush succeeded
      have hflush : (l.writer.flushSync fault sync).1 = true := by
        simp only [Bool.and_eq_true] at hall
        exact hall.1.1
      exact BufWriter.buf_flushSync hflush
    · cases hok
  | compact live copied fault rename create =>
    simp only [step, WriteAheadLog.compact] at h
    cases hcompact : Wal.compact x live l.writer.file.bytes with
    | error err =>
      rw [hcompact] at h
      cases h
    | ok p =>
      obtain ⟨removed, out⟩ := p
      rw [hcompact] at h
      simp only at h
      cases copied with
      | false => cases h
      | true =>
        simp only [Bool.not_true, Bool.false_eq_true, if_false] at h
        by_cases hall : ((l.writer.flushBuf fault).1 && rename && create) = true
        · rw [if_pos hall] at h
          cases h
          exact ⟨rfl, ⟨removed, hcompact⟩, rfl⟩
        · rw [if_neg hall] at h
          cases h

end

/-! ## What a compaction leaves out -/

theorem compact_length {x : Ext} {live : Finset Bytes32} {log out : Bytes} {removed : Nat}
    (h : Wal.compact x live log = .ok (removed, out)) :
    out.length ≤ log.length ∧ (out.length = log.length ↔ Tidy x live log) := by
  obtain ⟨ops, rest, rfl, hfits, rfl⟩ := Wal.of_compact h
  obtain ⟨hle, heq⟩ := Wal.length_encodeAll_sublist (@Wal.keptEvents_sublist x live ∅ ops)
  rw [List.length_append]
  refine ⟨by omega, fun hlen => ?_, ?_⟩
  · -- as long as before: all records are kept, and nothing follows them
    have hops := heq (by omega)
    have hrest : rest = [] := List.length_eq_zero_iff.1 (by omega)
    refine ⟨keptEvents x live ∅ ops, ?_, fun e he => ?_, Wal.nodup_keptEvents⟩
    · rw [hops, hrest, List.append_nil]
    · obtain ⟨hop, hparse, hlive, -⟩ := Wal.of_mem_keptEvents he
      exact ⟨hfits _ hop, hparse, hlive⟩
  · rintro ⟨es, hlog, hes, hids⟩
    have hfit : ∀ op ∈ es.map insertOp, Wal.Fits op := by
      intro op hop
      obtain ⟨e, he, rfl⟩ := List.mem_map.1 hop
      exact (hes e he).1
    have hkept : keptEvents x live ∅ (es.map insertOp) = es :=
      Wal.keptEvents_eq (fun e he => ⟨(hes e he).2.1, (hes e he).2.2, Finset.notMem_empty _⟩) hids
    obtain ⟨n, hcompact, -⟩ := @Wal.compact_encodeAll x live (es.map insertOp) hfit
    rw [hlog, hcompact, hkept] at h
    have hout := congrArg Prod.snd (Except.ok.inj h)
    rw [← List.length_append, hlog]
    exact congrArg List.length hout.symm

/-! ## Every run -/

theorem ofNat_eq_iff {m n : Nat} (hm : m < 2 ^ 64) (hn : n < 2 ^ 64) :
    BitVec.ofNat 64 m = BitVec.ofNat 64 n ↔ m = n := by
  constructor
  · intro h
    have htoNat := congrArg BitVec.toNat h
    rwa [BitVec.toNat_ofNat, BitVec.toNat_ofNat, Nat.mod_eq_of_lt hm, Nat.mod_eq_of_lt hn] at htoNat
  · exact congrArg _

section
variable {x : Ext} {l l' : WriteAheadLog} {c : Call}

/-- An operation that keeps the size keeps the counter right, on files of any size. -/
theorem sized_of_keepsSize (he : Effect x l l' c) (hc : KeepsSize x l c) (h : Sized l) : Sized l' := by
  unfold Sized at h ⊢
  cases c with
  | reopen => exact he.2
  | append op fault => rw [he.1, he.2, h, List.length_append, BitVec.ofNat_add]
  | rotate =>
    rw [he.1, he.2]
    rfl
  | truncate =>
    have hempty : l.writer.file.bytes = [] := hc
    rw [he.1, he.2, h, hempty]
  | compact live =>
    obtain ⟨⟨removed, hcompact⟩, hsame⟩ := he
    rw [hsame, h, (compact_length hcompact).2.2 hc]

/-- The counter stays right exactly when the operation keeps the size. -/
theorem sized_iff (he : Effect x l l' c) (hlt : l.writer.file.bytes.length < 2 ^ 64) (h : Sized l) :
    Sized l' ↔ KeepsSize x l c := by
  refine ⟨fun h' => ?_, fun hc => sized_of_keepsSize he hc h⟩
  unfold Sized at h h'
  cases c with
  | reopen => trivial
  | append => trivial
  | rotate => trivial
  | truncate =>
    rw [he.1, he.2, h, ofNat_eq_iff hlt (by decide)] at h'
    exact List.length_eq_zero_iff.1 h'
  | compact live =>
    obtain ⟨⟨removed, hcompact⟩, hsame⟩ := he
    obtain ⟨hle, htidy⟩ := compact_length hcompact
    rw [hsame, h, ofNat_eq_iff hlt (by omega)] at h'
    exact htidy.1 h'.symm

end

/-- The run lemma for the buffer. -/
theorem buf_run {x : Ext} {cs : List Call} {l l' : WriteAheadLog} (hbuf : l.writer.buf = [])
    (h : Machine.run (step x) l cs = some l') : l'.writer.buf = [] := by
  refine Machine.run_invariant (C := fun _ _ => True) (I := fun l => l.writer.buf = []) ?_ cs l l' h
    (Machine.along_of_forall cs l fun _ _ _ => trivial) hbuf
  exact fun l c l' hs _ hb => (step_effect hb hs).1

/-- In every state of a run that truncates empty files only and compacts only what has
nothing to leave out, the counter is the size of the file; and, where no file reaches
2^64 bytes, in no other run. -/
theorem run_pendingBytes (x : Ext) (file : DiskFile) (cs : List Call) (l : WriteAheadLog)
    (hrun : Machine.run (step x) (.open file) cs = some l) :
    (Machine.Along (step x) (KeepsSize x) (.open file) cs →
      ∀ bs, bs <+: cs → ∀ u, Machine.run (step x) (.open file) bs = some u → Sized u) ∧
    ((∀ bs, bs <+: cs → ∀ u, Machine.run (step x) (.open file) bs = some u → u.writer.file.bytes.length < 2 ^ 64) →
      (∀ bs, bs <+: cs → ∀ u, Machine.run (step x) (.open file) bs = some u → Sized u) →
      Machine.Along (step x) (KeepsSize x) (.open file) cs) := by
  constructor
  · rintro halong bs ⟨rest, rfl⟩ u hu
    refine (Machine.run_invariant (C := KeepsSize x) (I := fun l => l.writer.buf = [] ∧ Sized l) ?_ bs _ u hu
      (Machine.Along.of_append bs rest _ halong) ⟨rfl, rfl⟩).2
    rintro l c l' hs hc ⟨hbuf, hsized⟩
    obtain ⟨hbuf', he⟩ := step_effect hbuf hs
    exact ⟨hbuf', sized_of_keepsSize he hc hsized⟩
  · intro hlt
    refine (Machine.forall_prefix_iff (C := KeepsSize x) Sized
      (fun l => l.writer.buf = [] ∧ l.writer.file.bytes.length < 2 ^ 64) cs _ l ?_ hrun ?_ rfl).1
    · intro l c l' _ hs hl _ hsized
      exact sized_iff (step_effect hl.1 hs).2 hl.2 hsized
    · exact fun bs hbs u hu => ⟨buf_run rfl hu, hlt bs hbs u hu⟩

/-- A record is appended and rotated away, and the new file truncated. -/
def rotatedAway : List Call :=
  [.append (.delete 7) fun _ => none, .rotate none true true true, .truncate none true true true true]

theorem run_pendingBytes_rotatedAway :
    (∃ l, Machine.run (step (Ext.known [] [])) (.open ⟨[], 0⟩) rotatedAway = some l) ∧
    ∀ bs, bs <+: rotatedAway → ∀ u, Machine.run (step (Ext.known [] [])) (.open ⟨[], 0⟩) bs = some u →
    Sized u := by
  obtain ⟨l, hl, -⟩ := Machine.exists_run (step (Ext.known [] [])) (.open ⟨[], 0⟩) rotatedAway
      (fun _ => true) (by decide)
  refine ⟨⟨l, hl⟩, (run_pendingBytes (Ext.known [] []) ⟨[], 0⟩ rotatedAway l hl).1 ?_⟩
  refine ⟨trivial, fun l₁ h₁ => ⟨trivial, fun l₂ h₂ => ⟨?_, fun l₃ h₃ => trivial⟩⟩⟩
  obtain ⟨hbuf, -⟩ := step_effect rfl h₁
  exact (step_effect hbuf h₂).2.1

/-- A record is appended and the file truncated: the file is empty, the counter is not. -/
theorem truncated_not_sized : ∃ l,
    Machine.run (step (Ext.known [] [])) (.open ⟨[], 0⟩)
      [.append (.delete 7) fun _ => none, .truncate none true true true true] = some l ∧
    l.writer.file.bytes = [] ∧ l.pendingBytes = 33 ∧ ¬ Sized l := by
  obtain ⟨l, hl, hp⟩ := Machine.exists_run (step (Ext.known [] [])) (.open ⟨[], 0⟩)
    [.append (.delete 7) fun _ => none, .truncate none true true true true]
    (fun l => decide (l.writer.file.bytes = [] ∧ l.pendingBytes = 33)) (by decide)
  obtain ⟨hempty, hcount⟩ := of_decide_eq_true hp
  refine ⟨l, hl, hempty, hcount, fun hsized => ?_⟩
  unfold Sized at hsized
  rw [hempty, hcount] at hsized
  exact absurd hsized (by decide)

end LogSize
end Memlay
