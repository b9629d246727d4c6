import Memlay.WalSync

/-!
# Appends that fail

An append is one write of the type byte, one or two of the payload, and a flush; nothing
is taken back when one of them fails.  If the type byte is refused, or only the flush
fails, the log stays a sequence of records: nothing was added, or the record is complete
as soon as the buffer is transferred.  A failure in between leaves a piece of a record,
and the reader takes what follows for the rest of it.

    acked_readable   when no append fails in between, every record whose append returned is read
    torn_swallows    behind a piece of a record there is a deletion that is not read
-/

namespace Memlay
namespace WalFailures

open Wal (Fits encodeOp encodeAll records replayLoop)
open WriteAheadLog (typeByte payloadParts)

/-- The log, and the records whose append has returned. -/
structure State where
  wal : WriteAheadLog
  acked : List WalOp

structure Call where
  op : WalOp
  fault : Nat → Option Nat

def call (s : State) (c : Call) : State :=
  let (ok, l) := s.wal.append c.op c.fault
  ⟨l, if ok then s.acked ++ [c.op] else s.acked⟩

def step (s : State) (c : Call) : Option State := some (call s c)

/-- A log opened on whole records. -/
def start (whole : List WalOp) (synced : Nat) : State := ⟨.open ⟨encodeAll whole, synced⟩, []⟩

/-- The reader yields the records of all returned appends, in their order. -/
def Readable (s : State) : Prop := s.acked.Sublist (records s.wal.writer.file.bytes)

/-- Once the type byte is taken, the rest of the record is, and the reader admits it. -/
def Unbroken (s : State) (c : Call) : Prop :=
  (s.wal.writer.writeAll (c.fault 0) (c.fault 1) [typeByte c.op]).1 = true →
    Fits c.op ∧ (BufWriter.writeParts c.fault 1 (payloadParts c.op)
      (s.wal.writer.writeAll (c.fault 0) (c.fault 1) [typeByte c.op]).2).1 = true

/-! ## What an append leaves -/

/-- Nothing is added, or the record; if the append returns, it is in the file. -/
theorem append_unbroken {s : State} {c : Call} (h : Unbroken s c) :
    s.wal.writer.file.bytes <+: (s.wal.append c.op c.fault).2.writer.file.bytes ∧
      (((s.wal.append c.op c.fault).1 = false ∧ (s.wal.append c.op c.fault).2.writer.log = s.wal.writer.log) ∨
      (Fits c.op ∧ (s.wal.append c.op c.fault).2.writer.log = s.wal.writer.log ++ encodeOp c.op ∧
        ((s.wal.append c.op c.fault).1 = true → (s.wal.append c.op c.fault).2.writer.buf = []))) := by
  obtain ⟨l, acked⟩ := s
  obtain ⟨op, fault⟩ := c
  have htype := BufWriter.wrote_writeAll l.writer (fault 0) (fault 1) [typeByte op]
  unfold Unbroken at h
  simp only at h ⊢
  unfold WriteAheadLog.append BufWriter.writeParts
  simp only [Nat.mul_zero, Nat.zero_add]
  cases hok : (l.writer.writeAll (fault 0) (fault 1) [typeByte op]).1 with
  | false =>
    -- one byte does not go past the buffer, so it is refused as a whole
    simp only [Bool.false_eq_true, if_false, Bool.not_false, if_true]
    exact ⟨htype.file, Or.inl ⟨trivial,
        BufWriter.log_writeAll_refused (show 1 < BufWriter.capacity by decide) hok⟩⟩
  | true =>
    obtain ⟨hfits, hrest⟩ := h hok
    have hparts := BufWriter.wrote_writeParts fault 1 (payloadParts op)
        (l.writer.writeAll (fault 0) (fault 1) [typeByte op]).2
    have hlog : (BufWriter.writeParts fault 1 (payloadParts op)
        (l.writer.writeAll (fault 0) (fault 1) [typeByte op]).2).2.log = l.writer.log ++ encodeOp op := by
      rw [hparts.log_of_ok hrest, htype.log_of_ok hok, List.append_assoc, ← WriteAheadLog.flatten_parts]
      rfl
    have hfile := (htype.file.trans hparts.file).trans (BufWriter.file_flushBuf _ (fault 6))
    simp only [if_true, hrest, Bool.not_true, Bool.false_eq_true, if_false]
    split
    · exact ⟨hfile, Or.inr ⟨hfits, (BufWriter.log_flushBuf _ _).trans hlog,
          fun hfalse => absurd hfalse Bool.false_ne_true⟩⟩
    · rename_i hflush
      exact ⟨hfile, Or.inr ⟨hfits, (BufWriter.log_flushBuf _ _).trans hlog,
        fun _ => BufWriter.buf_flushBuf (by simpa using hflush)⟩⟩

/-- `done` are in the file as a whole and `pending` follow them, as far as they go. -/
structure Framed (s : State) (done pending : List WalOp) : Prop where
  fits : ∀ op ∈ done ++ pending, Fits op
  acked : s.acked.Sublist done
  file : encodeAll done <+: s.wal.writer.file.bytes
  log : s.wal.writer.log = encodeAll (done ++ pending)

theorem framed_start {whole : List WalOp} (h : ∀ op ∈ whole, Fits op) (synced : Nat) :
    Framed (start whole synced) whole [] := by
  refine ⟨by rwa [List.append_nil], List.nil_sublist whole, List.prefix_rfl, ?_⟩
  rw [List.append_nil]
  exact List.append_nil _

/-- The step lemma. -/
theorem framed_call {s : State} {done pending : List WalOp} (h : Framed s done pending) {c : Call}
    (hc : Unbroken s c) : ∃ done' pending', Framed (call s c) done' pending' := by
  obtain ⟨hfile, ⟨hok, hlog⟩ | ⟨hfits, hlog, hbuf⟩⟩ := append_unbroken hc
  · refine ⟨done, pending, h.fits, ?_, h.file.trans hfile, hlog.trans h.log⟩
    show List.Sublist (if (s.wal.append c.op c.fault).1 then _ else s.acked) done
    rw [hok]
    exact h.acked
  · have hall : ∀ op ∈ done ++ (pending ++ [c.op]), Fits op := by
      intro op hop
      rw [← List.append_assoc] at hop
      rcases List.mem_append.1 hop with hop | hop
      · exact h.fits op hop
      · rw [List.mem_singleton.1 hop]
        exact hfits
    have hlog' : (call s c).wal.writer.log = encodeAll (done ++ (pending ++ [c.op])) := by
      rw [← List.append_assoc, Wal.encodeAll_append, Wal.encodeAll_singleton, ← h.log]
      exact hlog
    cases hok : (s.wal.append c.op c.fault).1 with
    | false =>
      refine ⟨done, pending ++ [c.op], hall, ?_, h.file.trans hfile, hlog'⟩
      show List.Sublist (if (s.wal.append c.op c.fault).1 then _ else s.acked) done
      rw [hok]
      exact h.acked
    | true =>
      -- everything the writer has taken is in the file
      have hempty : (call s c).wal.writer.file.bytes = encodeAll (done ++ (pending ++ [c.op])) := by
        rw [← hlog']
        show _ = _ ++ (s.wal.append c.op c.fault).2.writer.buf
        rw [hbuf hok, List.append_nil]
      refine ⟨done ++ (pending ++ [c.op]), [],
          by rwa [List.append_nil], ?_, ?_, by rw [List.append_nil]; exact hlog'⟩
      · show List.Sublist (if (s.wal.append c.op c.fault).1 then s.acked ++ [c.op] else _) _
        rw [hok, if_pos rfl]
        exact h.acked.append (List.sublist_append_right pending [c.op])
      · rw [hempty]

theorem Framed.readable {s : State} {done pending : List WalOp} (h : Framed s done pending) : Readable s := by
  have hpre : s.wal.writer.file.bytes <+: encodeAll (done ++ pending) := by
    rw [← h.log]
    exact List.prefix_append _ _
  obtain ⟨k, err, -, hloop, -, hlt, -⟩ := Wal.replayLoop_prefix h.fits hpre _ (Nat.lt_succ_self _)
  have hrecs : records s.wal.writer.file.bytes = (done ++ pending).take k := by
    show (replayLoop _ _).1 = _
    rw [hloop]
  have hk : done.length ≤ k := by
    by_contra hlt'
    have hcut := hlt (by rw [List.length_append]; omega)
    rw [List.take_append_of_le_length (by omega)] at hcut
    have hmono := Wal.length_encodeAll_take_le done (i := k + 1) (j := done.length) (by omega)
    rw [List.take_length] at hmono
    have hfile := h.file.length_le
    omega
  unfold Readable
  rw [hrecs, List.take_append, List.take_of_length_le hk]
  exact h.acked.trans (List.sublist_append_left _ _)

/-! ## The reader behind a piece of a record -/

theorem beVal_append (bs : Bytes) (b : UInt8) : Wal.beVal (bs ++ [b]) = 256 * Wal.beVal bs + b.toNat := by
  unfold Wal.beVal
  rw [List.foldl_append]
  rfl

theorem beVal_lt (bs : Bytes) : Wal.beVal bs < 256 ^ bs.length := by
  induction bs using List.reverseRecOn with
  | nil => exact Nat.one_pos
  | append_singleton bs b ih =>
    have hb := b.toNat_lt
    rw [beVal_append, List.length_append, List.length_singleton, Nat.pow_succ]
    omega

theorem eq_zero_of_beVal {bs : Bytes} (h : Wal.beVal bs = 0) : ∀ b ∈ bs, b = 0 := by
  induction bs using List.reverseRecOn with
  | nil => simp
  | append_singleton bs b ih =>
    rw [beVal_append] at h
    intro a ha
    rcases List.mem_append.1 ha with ha | ha
    · exact ih (by omega) a ha
    · rw [List.mem_singleton.1 ha]
      exact UInt8.toNat_inj.1 (show b.toNat = 0 by omega)

theorem bytesId_ne_zero {bs : Bytes} (hlen : bs.length = 32) (h : (1 : UInt8) ∈ bs) : Wal.bytesId bs ≠ 0 := by
  intro hzero
  have hlt : Wal.beVal bs < 2 ^ 256 := by
    have h := beVal_lt bs
    rw [hlen] at h
    exact h
  have hval := congrArg BitVec.toNat hzero
  unfold Wal.bytesId at hval
  rw [BitVec.toNat_ofNat, Nat.mod_eq_of_lt hlt] at hval
  exact absurd (eq_zero_of_beVal hval 1 h) (by decide)

/-- An id does not fit into so few bytes. -/
theorem not_mem_replayLoop_of_short (id : Bytes32) (rounds : Nat) {bs : Bytes} (h : bs.length ≤ 32) :
    .delete id ∉ (replayLoop rounds bs).1 := by
  induction rounds generalizing bs with
  | zero => exact List.not_mem_nil
  | succ rounds ih =>
    unfold Wal.replayLoop
    split
    · exact List.not_mem_nil
    · exact List.not_mem_nil
    · rename_i op rest hnext
      cases bs with
      | nil => cases hnext
      | cons b bs =>
        rw [List.length_cons] at h
        rcases Wal.nextOp_cases hnext with ⟨-, len, -, -, -, rfl, rfl⟩ | ⟨-, -, -, h32, -⟩
        · intro hmem
          rcases List.mem_cons.1 hmem with heq | hmem
          · cases heq
          · exact ih (by rw [List.length_drop]; omega) hmem
        · omega

/-- The first round takes at least one byte of the deletion, and reads another one. -/
theorem not_mem_replayLoop_torn (rounds : Nat) {op : WalOp} (hfit : Fits op) {torn : Bytes} (hne : torn ≠ [])
    (hpre : torn <+: encodeOp op) (hlen : torn.length < (encodeOp op).length) :
    .delete 0 ∉ (replayLoop rounds (torn ++ encodeOp (.delete 0))).1 := by
  have hid : ∀ id, (Wal.idBytes id).length = 32 := fun id => Wal.length_beBytes 32 _
  obtain ⟨b, t, rfl⟩ := List.exists_cons_of_ne_nil hne
  have hsize : (t ++ encodeOp (.delete 0)).length = t.length + 33 := by
    rw [List.length_append]
    rfl
  cases rounds with
  | zero => exact List.not_mem_nil
  | succ rounds =>
    unfold Wal.replayLoop
    split
    · exact List.not_mem_nil
    · exact List.not_mem_nil
    · rename_i op' rest hnext
      rw [List.cons_append] at hnext
      -- what is left is too short for a deletion
      have hrest : rest.length ≤ 32 ∧ op' ≠ .delete 0 := by
        rcases Wal.nextOp_cases hnext with ⟨rfl, len, hl, -, -, rfl, rfl⟩ | ⟨hb, -, hdelete, -, rfl⟩
        · refine ⟨?_, fun heq => by cases heq⟩
          rw [List.length_drop, hsize]
          cases op with
          | insert data =>
            have hlen4 : (Wal.toLeBytes data.length).length = 4 := by
              unfold Wal.toLeBytes
              rw [List.length_reverse, Wal.length_beBytes]
            obtain ⟨tail, htail⟩ := hpre
            obtain ⟨-, htail⟩ := List.cons.inj htail
            rw [encodeOp, List.length_cons, List.length_cons, List.length_append, hlen4] at hlen
            by_cases h4 : t.length < 4
            · omega
            · have htake : (t ++ encodeOp (.delete 0)).take 4 = Wal.toLeBytes data.length := by
                have h : (t ++ tail).take 4 = (Wal.toLeBytes data.length ++ data).take 4 :=
                  congrArg (List.take 4) htail
                rw [List.take_append_of_le_length (by omega), List.take_left' hlen4] at h
                rw [List.take_append_of_le_length (by omega), h]
              have hdata : data.length ≤ maxWalRecordSize := hfit
              rw [htake, Wal.fromLeBytes_toLeBytes (by unfold maxWalRecordSize at hdata; omega)] at hl
              omega
          | delete id => exact absurd hpre (by simp [encodeOp])
          | tombstone id => exact absurd hpre (by simp [encodeOp])
        · have ht : t.length < 32 := by
            cases op with
            | insert data =>
              obtain ⟨tail, htail⟩ := hpre
              obtain ⟨rfl, -⟩ := List.cons.inj htail
              exact absurd hb (by decide)
            | delete id =>
              rw [encodeOp, List.length_cons, List.length_cons, hid] at hlen
              omega
            | tombstone id =>
              rw [encodeOp, List.length_cons, List.length_cons, hid] at hlen
              omega
          refine ⟨by rw [List.length_drop, hsize]; omega, fun heq => ?_⟩
          have hone : (1 : UInt8) ∈ (t ++ encodeOp (.delete 0)).take 32 := by
            rw [List.take_append, List.take_of_length_le (by omega)]
            obtain ⟨m, hm⟩ : ∃ m, 32 - t.length = m + 1 := ⟨31 - t.length, by omega⟩
            rw [hm, encodeOp, List.take_succ_cons]
            exact List.mem_append_right _ List.mem_cons_self
          exact bytesId_ne_zero (by rw [List.length_take, hsize]; omega) hone (hdelete 0 heq).symm
      intro hmem
      rcases List.mem_cons.1 hmem with heq | hmem
      · exact hrest.2 heq.symm
      · exact not_mem_replayLoop_of_short 0 rounds hrest.1 hmem

/-- Behind the whole records and a piece of one more, the deletion of id 0 is not read. -/
theorem torn_swallows {whole : List WalOp} (hwhole : ∀ op ∈ whole, Fits op) {op : WalOp} (hfit : Fits op)
    {torn : Bytes} (hne : torn ≠ []) (hpre : torn <+: encodeOp op) (hlen : torn.length < (encodeOp op).length) :
    ∃ read, records (encodeAll whole ++ (torn ++ encodeOp (.delete 0))) = whole ++ read ∧ .delete 0 ∉ read := by
  have hrounds : ∃ n, (encodeAll whole ++ (torn ++ encodeOp (.delete 0))).length + 1 = whole.length + n := by
    have hle := Wal.length_le_encodeAll whole
    rw [List.length_append]
    exact ⟨(encodeAll whole).length + (torn ++ encodeOp (.delete 0)).length + 1 - whole.length, by omega⟩
  obtain ⟨n, hn⟩ := hrounds
  refine ⟨_, ?_, not_mem_replayLoop_torn n hfit hne hpre hlen⟩
  show (replayLoop _ _).1 = _
  rw [hn, Wal.replayLoop_encodeAll_append hwhole]

/-! ## Runs -/

/-- For every log opened on whole records and every sequence of appends, each failing in
any way: if no append fails between the type byte and the end of its record, then in
every state the reader yields all records whose append returned. -/
theorem acked_readable (whole : List WalOp) (hwhole : ∀ op ∈ whole, Fits op) (synced : Nat) (calls : List Call)
    (hok : Machine.Along step Unbroken (start whole synced) calls) (pre : List Call)
    (hpre : pre <+: calls) (s : State)
    (hs : Machine.run step (start whole synced) pre = some s) : Readable s := by
  obtain ⟨rest, rfl⟩ := hpre
  have hframed : ∃ done pending, Framed s done pending := by
    refine Machine.run_invariant (I := fun s => ∃ done pending, Framed s done pending) ?_ pre
        (start whole synced) s hs
      (Machine.Along.of_append pre rest _ hok) ⟨whole, [], framed_start hwhole synced⟩
    rintro s c s' hstep hc ⟨done, pending, h⟩
    cases hstep
    exact framed_call h hc
  obtain ⟨done, pending, h⟩ := hframed
  exact h.readable

/-! ## A payload that does not arrive -/

open WalSync (noFault)

/-- The flush of an append stops after three bytes. -/
def flushFault : Nat → Option Nat := fun i => if i = 6 then some 3 else none

theorem acked_readable_flush :
    ∃ s, Machine.run step (start [] 0) [⟨.delete 0, flushFault⟩, ⟨.tombstone 7, noFault⟩] =
    some s ∧ s.acked = [.tombstone 7] ∧ Readable s := by
  refine ⟨_, rfl, by decide, acked_readable [] (by simp) 0 [⟨.delete 0, flushFault⟩, ⟨.tombstone 7, noFault⟩] ?_ _
    List.prefix_rfl _ rfl⟩
  refine ⟨fun _ => ⟨trivial, by decide⟩, fun s hs => ?_⟩
  cases hs
  exact ⟨fun _ => ⟨trivial, by decide⟩, fun _ _ => trivial⟩

/-- Nothing of the payload arrives. -/
def payloadFault : Nat → Option Nat := fun i => if i = 5 then some 0 else none

/-- A payload as long as the buffer. -/
def blanks : Bytes := List.replicate BufWriter.capacity 32

theorem length_blanks : blanks.length = BufWriter.capacity := List.length_replicate

theorem append_blanks : (WriteAheadLog.open ⟨[], 0⟩).append (.insert blanks) payloadFault =
    (false, ⟨⟨⟨0 :: Wal.toLeBytes BufWriter.capacity, 0⟩, []⟩, false, 0⟩) := by
  have htype : BufWriter.writeAll ⟨⟨[], 0⟩, []⟩ (payloadFault 0) (payloadFault 1) [0] = (true, ⟨⟨[], 0⟩, [0]⟩) :=
    rfl
  have hlength : BufWriter.writeAll ⟨⟨[], 0⟩, [0]⟩ (payloadFault 2) (payloadFault 3)
      (Wal.toLeBytes BufWriter.capacity) =
      (true, ⟨⟨[], 0⟩, 0 :: Wal.toLeBytes BufWriter.capacity⟩) := rfl
  have hpayload : BufWriter.writeAll ⟨⟨[], 0⟩, 0 :: Wal.toLeBytes BufWriter.capacity⟩ (payloadFault 4)
      (payloadFault 5)
      blanks = (false, ⟨⟨0 :: Wal.toLeBytes BufWriter.capacity, 0⟩, []⟩) := by
    unfold BufWriter.writeAll
    rw [length_blanks, if_neg (by decide), if_pos (by decide)]
    rfl
  have hparts : payloadParts (.insert blanks) = [Wal.toLeBytes BufWriter.capacity, blanks] := by
    rw [payloadParts, length_blanks]
  unfold WriteAheadLog.append
  rw [hparts]
  simp only [BufWriter.writeParts, WriteAheadLog.open, typeByte, Nat.mul_zero, Nat.zero_add, htype,
    if_true, hlength, hpayload]
  rfl

/-- The header of a record stays behind, the deletion is appended and returned, and the
reader takes it for the payload. -/
theorem header_swallows : ∃ s, Machine.run step (start [] 0)
    [⟨.insert blanks, payloadFault⟩, ⟨.delete 0, noFault⟩] =
    some s ∧ s.acked = [.delete 0] ∧ .delete 0 ∉ records s.wal.writer.file.bytes ∧ ¬ Readable s := by
  have hfirst : call (start [] 0) ⟨.insert blanks, payloadFault⟩ =
      ⟨⟨⟨⟨0 :: Wal.toLeBytes BufWriter.capacity, 0⟩, []⟩, false, 0⟩, []⟩ := by
    unfold call start
    rw [show encodeAll [] = [] from rfl, append_blanks]
    rfl
  have hfit : Fits (.insert blanks) := by
    show blanks.length ≤ maxWalRecordSize
    rw [length_blanks]
    decide
  have hpre : 0 :: Wal.toLeBytes BufWriter.capacity <+: encodeOp (.insert blanks) := by
    rw [encodeOp, length_blanks]
    exact List.prefix_append _ _
  have hlen : (0 :: Wal.toLeBytes BufWriter.capacity).length < (encodeOp (.insert blanks)).length := by
    rw [encodeOp, List.length_cons, List.length_cons, List.length_append, length_blanks]
    decide
  obtain ⟨read, hread, hnot⟩ := @torn_swallows [] (by simp) _ hfit _ (List.cons_ne_nil _ _) hpre hlen
  have hmem : .delete 0 ∉ records (0 :: Wal.toLeBytes BufWriter.capacity ++ encodeOp (.delete 0)) := by
    have hall : records (0 :: Wal.toLeBytes BufWriter.capacity ++ encodeOp (.delete 0)) = read := hread
    rw [hall]
    exact hnot
  refine ⟨call (call (start [] 0) ⟨.insert blanks, payloadFault⟩) ⟨.delete 0, noFault⟩, rfl, ?_, ?_, fun h => ?_⟩
  · rw [hfirst]
    rfl
  · rw [hfirst]
    exact hmem
  · rw [hfirst] at h
    exact hmem (h.subset List.mem_cons_self)

end WalFailures
end Memlay
