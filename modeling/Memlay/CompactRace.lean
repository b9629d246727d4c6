import Memlay.Compact
import Memlay.Lib.Machine

/-!
# Compaction and appends at the same time (`src/store/wal.rs`)

`compact` takes the write lock twice for a moment: to flush before the rename, and to
swap the handle at the end.  It reads the log without it, up to where the file ends at
that time, and what is appended from then on to the swap goes to a file that no name
leads to any more.  Of what is appended before, only the live ids are copied, and the
live ids are those of an earlier moment.

    noLoss_iff      nothing is lost  ↔  each insert that starts during the compaction is written
                    after the swap, or in time to be read and is of a live id (or another
                    insert of its id is)
    gap_loses       an insert between the end of the file and the swap is lost

An append is taken apart into the bytes that reach the file; the lock keeps its record in
one piece.
-/

namespace Memlay
namespace CompactRace

open Wal (Compaction Fits compactNext encodeAll encodeOp insertOp keptEvents)
open Store (Logged)

/-- Where the compaction stands, seen from an append. -/
inductive Period where
  /-- not called yet -/
  | before
  /-- called, and the end of the file not read -/
  | reading
  /-- the end read, and the handle not swapped -/
  | ended
  /-- returned -/
  | after
deriving DecidableEq

inductive Stage where
  | before
  /-- the loop, `pos` bytes into the file -/
  | reading (pos : Nat) (c : Compaction)
  | ended
  | flushed
  | renamed
  | opened
  | swapped
  /-- a record was too large, and nothing was changed -/
  | failed

def Stage.period : Stage → Period
  | .before => .before
  | .reading _ _ => .reading
  | .ended | .flushed | .renamed | .opened => .ended
  | .swapped | .failed => .after

/-- A call of `append`: where the compaction stood when it started, when the last byte of
its record reached a file, and when it returned. -/
structure Append where
  op : WalOp
  began : Period
  filed : Option Period
  returned : Option Period

structure Race where
  /-- the file that the log's name leads to at first -/
  old : Bytes
  /-- the temporary file -/
  temp : Bytes
  stage : Stage
  calls : Nat → Option Append
  /-- the call that holds the write lock, and what is left to write of its record -/
  writer : Option (Nat × Bytes)

inductive Step where
  | start (i : Nat) (op : WalOp)
  | lock (i : Nat)
  | write (n : Nat)
  | unlock
  | finish (i : Nat)
  | call
  | read
  | stop
  | flush
  | rename
  | openNew
  | swap
deriving DecidableEq

namespace Race

/-- What the log's name leads to. -/
def walLog (r : Race) : Bytes :=
  match r.stage with
  | .renamed | .opened | .swapped => r.temp
  | _ => r.old

/-- Bytes go to the file of the write handle. -/
def addBytes (r : Race) (bytes : Bytes) : Race :=
  match r.stage with
  | .swapped => { r with temp := r.temp ++ bytes }
  | _ => { r with old := r.old ++ bytes }

def set (r : Race) (i : Nat) (a : Append) : Race := { r with calls := Function.update r.calls i (some a) }

/-- The holder of the lock transfers the next `n` bytes of its record. -/
def writeStep (r : Race) (n i : Nat) (left : Bytes) (a : Append) : Option Race :=
  if left = [] then none
  else
    let r := { r.addBytes (left.take n) with writer := some (i, left.drop n) }
    some (if left.drop n = [] then r.set i { a with filed := some r.stage.period } else r)

/-- One round of the loop of `compact`. -/
def readStep (x : Ext) (live : Finset Bytes32) (r : Race) (pos : Nat) (c : Compaction) : Option Race :=
  match compactNext (r.old.drop pos) with
  | .ok (some (op, rest)) => some { r with stage := .reading (r.old.length - rest.length) (c.record x live op) }
  | _ => none

/-- The round that ends the loop, or fails. -/
def stopStep (r : Race) (pos : Nat) (c : Compaction) : Option Race :=
  match compactNext (r.old.drop pos) with
  | .ok none => some { r with stage := .ended, temp := c.out }
  | .error _ => some { r with stage := .failed }
  | .ok (some _) => none

def step (x : Ext) (live : Finset Bytes32) (r : Race) : Step → Option Race
  | .start i op =>
    match r.calls i with
    | none => some (r.set i ⟨op, r.stage.period, none, none⟩)
    | some _ => none
  | .lock i =>
    match r.writer, r.calls i with
    | none, some a => if a.filed = none then some { r with writer := some (i, encodeOp a.op) } else none
    | _, _ => none
  | .write n =>
    match r.writer with
    | some (i, left) => (r.calls i).bind (r.writeStep n i left)
    | none => none
  | .unlock =>
    match r.writer with
    | some (_, []) => some { r with writer := none }
    | _ => none
  | .finish i =>
    match r.calls i with
    | some a =>
      if a.filed ≠ none ∧ a.returned = none ∧ r.writer.map Prod.fst ≠ some i then
        some (r.set i { a with returned := some r.stage.period })
      else none
    | none => none
  | .call =>
    match r.stage with
    | .before => some { r with stage := .reading 0 .start }
    | _ => none
  | .read =>
    match r.stage with
    | .reading pos c => r.readStep x live pos c
    | _ => none
  | .stop =>
    match r.stage with
    | .reading pos c => r.stopStep pos c
    | _ => none
  | .flush =>
    match r.stage, r.writer with
    | .ended, none => some { r with stage := .flushed }
    | _, _ => none
  | .rename =>
    match r.stage with
    | .flushed => some { r with stage := .renamed }
    | _ => none
  | .openNew =>
    match r.stage with
    | .renamed => some { r with stage := .opened }
    | _ => none
  | .swap =>
    match r.stage, r.writer with
    | .opened, none => some { r with stage := .swapped }
    | _, _ => none

/-- A log of whole records, no calls. -/
def init (whole : List WalOp) : Race := ⟨encodeAll whole, [], .before, fun _ => none, none⟩

/-- All calls have returned. -/
structure Done (r : Race) : Prop where
  compact : r.stage.period = .after
  appends : ∀ i a, r.calls i = some a → a.returned ≠ none
  writer : r.writer = none

end Race

/-! ## What is asked for -/

section
variable (x : Ext) (live : Finset Bytes32) (whole : List WalOp) (r : Race)

/-- The event's insert was in the log, or its append returned, before `compact` was called. -/
def Early (e : Event) : Prop :=
  insertOp e ∈ whole ∨ ∃ i a, r.calls i = some a ∧ a.op = insertOp e ∧ a.returned = some .before

/-- The event's append started after `compact` was called, and has returned. -/
def Late (e : Event) : Prop :=
  ∃ i a, r.calls i = some a ∧ a.op = insertOp e ∧ a.began ≠ .before ∧ a.returned ≠ none

/-- A replay of the log yields the event. -/
def Yields (log : Bytes) (id : Bytes32) : Prop := ∃ e, Logged x (Wal.records log) e ∧ e.id = id

def NoLoss : Prop :=
  ∀ e, Event.fromJsonUnchecked x e.raw = .ok e → (Early whole r e ∧ e.id ∈ live) ∨ Late r e →
      Yields x r.walLog e.id

/-- The record reached its file at that time of the compaction. -/
def Filed (calls : Nat → Option Append) (p : Period) (op : WalOp) : Prop :=
  ∃ i a, calls i = some a ∧ a.op = op ∧ a.filed = some p

/-- The record was in the log before the compaction read its end. -/
def InTime (calls : Nat → Option Append) (op : WalOp) : Prop :=
  op ∈ whole ∨ Filed calls .before op ∨ Filed calls .reading op

/-- An insert of the id is copied, or written to the new log. -/
def Kept (id : Bytes32) : Prop :=
  ∃ e, Event.fromJsonUnchecked x e.raw = .ok e ∧ e.id = id ∧
    (Filed r.calls .after (insertOp e) ∨ (id ∈ live ∧ InTime whole r.calls (insertOp e)))

end

/-! ## The invariant -/

/-- The records the compaction can still copy or has copied. -/
def caught (reads pending : List WalOp) : Stage → List WalOp
  | .before | .reading _ _ => reads ++ pending
  | _ => reads

/-- The piece of a record that is in the old file. -/
def oldPart (part : Bytes) : Stage → Bytes
  | .swapped => []
  | _ => part

section
variable (x : Ext) (live : Finset Bytes32)

/-- What the compaction has, after it has read the records `reads`; `news` are the whole
records appended to the new file. -/
def AtStage (temp : Bytes) (reads news : List WalOp) (part : Bytes) : Stage → Prop
  | .before => reads = [] ∧ news = []
  | .reading pos c => pos = (encodeAll reads).length ∧
      c = reads.foldl (Compaction.record x live) .start ∧ news = []
  | .ended | .flushed | .renamed | .opened =>
    temp = encodeAll ((keptEvents x live ∅ reads).map insertOp) ∧ news = []
  | .swapped => temp = encodeAll ((keptEvents x live ∅ reads).map insertOp ++ news) ++ part
  | .failed => False

end

/-- `part` is what the holder of the lock has written of a record that is not complete. -/
def Holding (calls : Nat → Option Append) (part : Bytes) : Option (Nat × Bytes) → Prop
  | none => part = []
  | some (i, left) => ∃ a, calls i = some a ∧
      ((left = [] ∧ part = [] ∧ a.filed ≠ none) ∨ (left ≠ [] ∧ a.filed = none ∧ part ++ left = encodeOp a.op))

/-- The whole records of the old file are `reads`, which the compaction has read, and
`pending`; those of the calls are where their times say. -/
structure Traced (x : Ext) (live : Finset Bytes32) (whole : List WalOp) (r : Race)
    (reads pending news : List WalOp)
    (part : Bytes) : Prop where
  fitsOld : ∀ op ∈ reads ++ pending, Fits op
  fitsNew : ∀ op ∈ news, Fits op
  fitsCalls : ∀ i a, r.calls i = some a → Fits a.op
  old : r.old = encodeAll (reads ++ pending) ++ oldPart part r.stage
  stage : AtStage x live r.temp reads news part r.stage
  writer : Holding r.calls part r.writer
  inTime : ∀ op, op ∈ caught reads pending r.stage ↔ InTime whole r.calls op
  after : ∀ op, op ∈ news ↔ Filed r.calls .after op
  /-- before the call, nothing has a later time -/
  early : r.stage = .before → ∀ i a p, r.calls i = some a → a.filed = some p → p = .before
  returned : ∀ i a, r.calls i = some a → a.returned = some .before → a.filed = some .before

def Inv (x : Ext) (live : Finset Bytes32) (whole : List WalOp) (r : Race) : Prop :=
  ∃ reads pending news part, Traced x live whole r reads pending news part

section
variable {x : Ext} {live : Finset Bytes32} {whole reads pending news : List WalOp} {part : Bytes} {r r' : Race}

theorem inv_init (h : ∀ op ∈ whole, Fits op) : Inv x live whole (Race.init whole) := by
  refine ⟨[], whole, [], [], h, fun _ hop => (List.not_mem_nil hop).elim, ?_, ?_, ⟨rfl, rfl⟩, rfl, ?_, ?_, ?_, ?_⟩
  · exact fun i a hi => by cases hi
  · exact (List.append_nil _).symm
  · intro op
    refine ⟨Or.inl, fun hop => ?_⟩
    rcases hop with hop | ⟨i, a, hi, -⟩ | ⟨i, a, hi, -⟩
    · exact hop
    · cases hi
    · cases hi
  · refine fun op => ⟨fun hop => (List.not_mem_nil hop).elim, ?_⟩
    rintro ⟨i, a, hi, -⟩
    cases hi
  · exact fun _ i a p hi => by cases hi
  · exact fun i a hi => by cases hi

/-! ### The calls -/

theorem of_update {calls : Nat → Option Append} {i j : Nat} {a' b : Append}
    (h : Function.update calls i (some a') j = some b) : b = a' ∨ calls j = some b := by
  rw [Function.update_apply] at h
  split at h
  · exact Or.inl (Option.some.inj h).symm
  · exact Or.inr h

theorem filed_set {calls : Nat → Option Append} {i : Nat} {a' : Append}
    (h : ∀ a, calls i = some a → a.filed = none ∨ (a.op = a'.op ∧ a.filed = a'.filed)) {p : Period} {op : WalOp} :
    Filed (Function.update calls i (some a')) p op ↔ Filed calls p op ∨ (a'.op = op ∧ a'.filed = some p) := by
  constructor
  · rintro ⟨j, b, hj, hop, hfiled⟩
    rcases of_update hj with rfl | hj
    · exact Or.inr ⟨hop, hfiled⟩
    · exact Or.inl ⟨j, b, hj, hop, hfiled⟩
  · rintro (⟨j, b, hj, hop, hfiled⟩ | ⟨hop, hfiled⟩)
    · by_cases hji : j = i
      · subst hji
        rcases h b hj with hnone | ⟨hop', hfiled'⟩
        · rw [hnone] at hfiled
          cases hfiled
        · exact ⟨j, a', Function.update_self .., hop'.symm.trans hop, hfiled'.symm.trans hfiled⟩
      · exact ⟨j, b, (Function.update_of_ne hji ..).trans hj, hop, hfiled⟩
    · exact ⟨i, a', Function.update_self .., hop, hfiled⟩

/-- A change that leaves every record where it is. -/
theorem filed_set_same {calls : Nat → Option Append} {i : Nat} {a' : Append}
    (h : calls i = none ∧ a'.filed = none ∨ ∃ a, calls i = some a ∧ a.op = a'.op ∧ a.filed = a'.filed) {p : Period}
    {op : WalOp} : Filed (Function.update calls i (some a')) p op ↔ Filed calls p op := by
  rw [filed_set]
  · refine or_iff_left_of_imp ?_
    rintro ⟨hop, hfiled⟩
    rcases h with ⟨-, hnone⟩ | ⟨a, ha, hop', hfiled'⟩
    · rw [hnone] at hfiled
      cases hfiled
    · exact ⟨i, a, ha, hop'.trans hop, hfiled'.trans hfiled⟩
  · intro b hb
    rcases h with ⟨hnone, -⟩ | ⟨a, ha, hop', hfiled'⟩
    · rw [hnone] at hb
      cases hb
    · rw [ha] at hb
      cases hb
      exact Or.inr ⟨hop', hfiled'⟩

theorem inTime_congr {calls calls' : Nat → Option Append} (h : ∀ p op, Filed calls' p op ↔ Filed calls p op)
    (op : WalOp) :
    InTime whole calls' op ↔ InTime whole calls op := by
  unfold InTime
  rw [h, h]

theorem Traced.set (h : Traced x live whole r reads pending news part) {i : Nat} {a' : Append}
    (hsame : r.calls i = none ∧ a'.filed = none ∨ ∃ a, r.calls i = some a ∧ a.op = a'.op ∧ a.filed = a'.filed)
    (hfit : Fits a'.op) (hfree : ∀ left, r.writer ≠ some (i, left))
    (hret : a'.returned = some .before → a'.filed = some .before) :
    Traced x live whole (r.set i a') reads pending news part := by
  have hfiled : ∀ p op, Filed (r.set i a').calls p op ↔ Filed r.calls p op := fun p op => filed_set_same hsame
  refine ⟨h.fitsOld, h.fitsNew, ?_, h.old, h.stage, ?_, ?_, ?_, ?_, ?_⟩
  · intro j b hj
    rcases of_update hj with rfl | hj
    · exact hfit
    · exact h.fitsCalls j b hj
  · -- the holder of the lock is another call
    have hw := h.writer
    show Holding (Function.update r.calls i (some a')) part r.writer
    cases hwr : r.writer with
    | none =>
      rw [hwr] at hw
      exact hw
    | some w =>
      obtain ⟨j, left⟩ := w
      rw [hwr] at hw
      obtain ⟨b, hb, hcases⟩ := hw
      have hji : j ≠ i := by
        rintro rfl
        exact hfree left hwr
      exact ⟨b, (Function.update_of_ne hji ..).trans hb, hcases⟩
  · intro op
    rw [inTime_congr hfiled]
    exact h.inTime op
  · intro op
    rw [hfiled]
    exact h.after op
  · intro hst j b p hj hp
    rcases of_update hj with rfl | hj
    · rcases hsame with ⟨-, hnone⟩ | ⟨a, ha, -, hfil⟩
      · rw [hnone] at hp
        cases hp
      · exact h.early hst i a p ha (hfil.trans hp)
    · exact h.early hst j b p hj hp
  · intro j b hj hb
    rcases of_update hj with rfl | hj
    · exact hret hb
    · exact h.returned j b hj hb

/-! ### The lock -/

theorem Traced.part_eq_nil (h : Traced x live whole r reads pending news part) (hfree : r.writer = none) :
    part = [] := by
  have hw := h.writer
  rw [hfree] at hw
  exact hw

theorem Traced.lock (h : Traced x live whole r reads pending news part) {i : Nat} {a : Append}
    (hfree : r.writer = none)
    (ha : r.calls i = some a) (hfiled : a.filed = none) :
    Traced x live whole { r with writer := some (i, encodeOp a.op) } reads pending news part := by
  have hpart := h.part_eq_nil hfree
  refine ⟨h.fitsOld, h.fitsNew, h.fitsCalls, h.old, h.stage, ⟨a, ha, Or.inr ⟨?_, hfiled, ?_⟩⟩, h.inTime,
    h.after, h.early, h.returned⟩
  · exact List.ne_nil_of_length_pos (Wal.length_encodeOp_pos a.op)
  · rw [hpart, List.nil_append]

theorem Traced.unlock (h : Traced x live whole r reads pending news part) {i : Nat}
    (hw : r.writer = some (i, [])) :
    Traced x live whole { r with writer := none } reads pending news part := by
  have hpart : part = [] := by
    have hhold := h.writer
    rw [hw] at hhold
    obtain ⟨a, -, ⟨-, hnil, -⟩ | ⟨hne, -⟩⟩ := hhold
    · exact hnil
    · exact absurd rfl hne
  exact ⟨h.fitsOld, h.fitsNew, h.fitsCalls, h.old, h.stage, hpart, h.inTime, h.after, h.early, h.returned⟩

/-! ### The reader -/

/-- A record that is not complete ends the loop. -/
theorem Holding.compactNext {calls : Nat → Option Append} {w : Option (Nat × Bytes)} (h : Holding calls part w)
    (hfit : ∀ i a, calls i = some a → Fits a.op) : Wal.compactNext part = .ok none := by
  have hempty : Wal.compactNext [] = .ok none := rfl
  cases w with
  | none =>
    rw [show part = [] from h]
    exact hempty
  | some w =>
    obtain ⟨a, ha, ⟨-, hpart, -⟩ | ⟨hleft, -, hop⟩⟩ := h
    · rw [hpart]
      exact hempty
    · by_cases hne : part = []
      · rw [hne]
        exact hempty
      · have hlen : part.length < (encodeOp a.op).length := by
          have := List.length_pos_iff.2 hleft
          rw [← hop, List.length_append]
          omega
        have hpre : part <+: encodeOp a.op ++ [] := by
          rw [List.append_nil, ← hop]
          exact List.prefix_append _ _
        unfold Wal.compactNext
        rw [Wal.nextOp_cut (hfit _ a ha) hne hpre hlen]

theorem Traced.call (h : Traced x live whole r reads pending news part) (hst : r.stage = .before) :
    Traced x live whole { r with stage := .reading 0 .start } reads pending news part := by
  obtain ⟨hreads, hnews⟩ : reads = [] ∧ news = [] := by
    have hat := h.stage
    rw [hst] at hat
    exact hat
  have hold := h.old
  have hin := h.inTime
  rw [hst] at hold hin
  refine ⟨h.fitsOld, h.fitsNew, h.fitsCalls, hold, ⟨?_, ?_, hnews⟩, h.writer, hin, h.after,
    (fun hf => by cases hf), h.returned⟩
  · rw [hreads]
    rfl
  · rw [hreads]
    rfl

/-- The facts while the loop runs. -/
theorem Traced.reading (h : Traced x live whole r reads pending news part) {pos : Nat} {c : Compaction}
    (hst : r.stage = .reading pos c) :
    r.old = encodeAll (reads ++ pending) ++ part ∧ pos = (encodeAll reads).length ∧
      c = reads.foldl (Compaction.record x live) .start ∧ news = [] ∧
      ∀ op, op ∈ reads ++ pending ↔ InTime whole r.calls op := by
  have hold := h.old
  have hat := h.stage
  have hin := h.inTime
  rw [hst] at hold hat hin
  exact ⟨hold, hat.1, hat.2.1, hat.2.2, hin⟩

/-- What the reader has in front of it. -/
theorem Traced.drop (h : Traced x live whole r reads pending news part) {pos : Nat} {c : Compaction}
    (hst : r.stage = .reading pos c) : r.old.drop pos = encodeAll pending ++ part := by
  obtain ⟨hold, hpos, -⟩ := h.reading hst
  rw [hold, hpos, Wal.encodeAll_append, List.append_assoc, List.drop_left]

theorem Traced.read (h : Traced x live whole r reads pending news part) {pos : Nat} {c : Compaction}
    (hst : r.stage = .reading pos c) (hs : r.readStep x live pos c = some r') : Inv x live whole r' := by
  obtain ⟨hold, -, hc, hnews, hin⟩ := h.reading hst
  unfold Race.readStep at hs
  rw [h.drop hst] at hs
  cases pending with
  | nil =>
    rw [show encodeAll [] ++ part = part from rfl, h.writer.compactNext h.fitsCalls] at hs
    cases hs
  | cons op rest =>
    have hfit := h.fitsOld op (by simp)
    rw [Wal.encodeAll_cons, List.append_assoc, Wal.compactNext_encodeOp hfit] at hs
    cases hs
    have hsplit : reads ++ op :: rest = reads ++ [op] ++ rest := by simp
    have hfits := h.fitsOld
    rw [hsplit] at hfits hold hin
    refine ⟨reads ++ [op], rest, news, part, hfits, h.fitsNew, h.fitsCalls, hold, ⟨?_, ?_, hnews⟩, h.writer,
      hin, h.after, (fun hf => by cases hf), h.returned⟩
    · rw [hold, Wal.encodeAll_append (reads ++ [op]) rest, List.append_assoc, List.length_append,
          Nat.add_sub_cancel]
    · rw [List.foldl_append, ← hc]
      rfl

theorem Traced.stop (h : Traced x live whole r reads pending news part) {pos : Nat} {c : Compaction}
    (hst : r.stage = .reading pos c) (hs : r.stopStep pos c = some r') : Inv x live whole r' := by
  obtain ⟨hold, -, hc, hnews, hin⟩ := h.reading hst
  unfold Race.stopStep at hs
  rw [h.drop hst] at hs
  cases pending with
  | nil =>
    -- only here has everything been read
    rw [show encodeAll [] ++ part = part from rfl, h.writer.compactNext h.fitsCalls] at hs
    cases hs
    rw [List.append_nil] at hin
    refine ⟨reads, [], news, part, h.fitsOld, h.fitsNew, h.fitsCalls, hold, ⟨?_, hnews⟩, h.writer, hin, h.after,
      (fun hf => by cases hf), h.returned⟩
    have hout := (@Wal.foldl_record x live reads .start).1
    rw [← hc] at hout
    exact hout
  | cons op rest =>
    have hfit := h.fitsOld op (by simp)
    rw [Wal.encodeAll_cons, List.append_assoc, Wal.compactNext_encodeOp hfit] at hs
    cases hs

/-! ### The bytes of a record -/

theorem addBytes_swapped (hst : r.stage = .swapped) (bytes : Bytes) :
    r.addBytes bytes = { r with temp := r.temp ++ bytes } := by
  unfold Race.addBytes
  rw [hst]

theorem addBytes_old (hst : r.stage ≠ .swapped) (bytes : Bytes) :
    r.addBytes bytes = { r with old := r.old ++ bytes } := by
  unfold Race.addBytes
  split
  · rename_i h
    exact absurd h hst
  · rfl

/-- Only after the swap is a piece of a record in the new file. -/
theorem atStage_part {temp part' : Bytes} {st : Stage} (hst : st ≠ .swapped)
    (h : AtStage x live temp reads news part st) :
    AtStage x live temp reads news part' st := by
  cases st with
  | swapped => exact absurd rfl hst
  | before | reading | ended | flushed | renamed | opened | failed => exact h

theorem oldPart_eq {st : Stage} (hst : st ≠ .swapped) : oldPart part st = part := by
  cases st with
  | swapped => exact absurd rfl hst
  | before | reading | ended | flushed | renamed | opened | failed => rfl

/-- More of a record is written, and not all of it. -/
theorem Traced.write_part (h : Traced x live whole r reads pending news part) {i : Nat} {left more rest : Bytes}
    {a : Append} (hleft : left = more ++ rest) (hrest : rest ≠ []) (ha : r.calls i = some a)
    (hfiled : a.filed = none)
    (hop : part ++ left = encodeOp a.op) :
    Traced x live whole { r.addBytes more with writer := some (i, rest) } reads pending news (part ++ more) := by
  have hhold : Holding r.calls (part ++ more) (some (i, rest)) := by
    refine ⟨a, ha, Or.inr ⟨hrest, hfiled, ?_⟩⟩
    rw [List.append_assoc, ← hleft, hop]
  have hold := h.old
  have hat := h.stage
  by_cases hst : r.stage = .swapped
  · rw [addBytes_swapped hst]
    rw [hst] at hold hat
    refine ⟨h.fitsOld, h.fitsNew, h.fitsCalls, ?_, ?_, hhold, h.inTime, h.after, h.early, h.returned⟩
    · show r.old = _ ++ oldPart _ r.stage
      rw [hst]
      exact hold
    · show AtStage x live (r.temp ++ more) reads news (part ++ more) r.stage
      rw [hst]
      show r.temp ++ more = _
      rw [show r.temp = _ from hat, List.append_assoc]
  · rw [addBytes_old hst]
    refine ⟨h.fitsOld, h.fitsNew, h.fitsCalls, ?_, atStage_part hst hat, hhold, h.inTime, h.after,
        h.early, h.returned⟩
    show r.old ++ more = _ ++ oldPart _ r.stage
    rw [hold, oldPart_eq hst, oldPart_eq hst, List.append_assoc]

theorem mem_caught_append {op o : WalOp} {st : Stage} : o ∈ caught reads (pending ++ [op]) st ↔
    o ∈ caught reads pending st ∨ (op = o ∧ (st.period = .before ∨ st.period = .reading)) := by
  cases st with
  | before | reading =>
    simp only [caught, Stage.period, List.mem_append, List.mem_singleton, true_or, or_true, and_true, or_assoc]
    rw [eq_comm (a := o)]
  | ended | flushed | renamed | opened | swapped | failed => simp [caught, Stage.period]

/-- The record of a call is complete. -/
theorem filed_complete {calls : Nat → Option Append} {i : Nat} {a : Append} (ha : calls i = some a)
    (hnone : a.filed = none)
    (p q : Period) (op : WalOp) : Filed (Function.update calls i (some { a with filed := some p })) q op ↔
      Filed calls q op ∨ (a.op = op ∧ p = q) := by
  rw [filed_set]
  · simp only [Option.some.injEq]
  · intro b hb
    rw [ha] at hb
    cases hb
    exact Or.inl hnone

theorem inTime_complete {calls : Nat → Option Append} {i : Nat} {a : Append} (ha : calls i = some a)
    (hnone : a.filed = none) (p : Period) (op : WalOp) :
    InTime whole (Function.update calls i (some { a with filed := some p })) op ↔
      InTime whole calls op ∨ (a.op = op ∧ (p = .before ∨ p = .reading)) := by
  unfold InTime
  rw [filed_complete ha hnone, filed_complete ha hnone]
  tauto

/-- Until the swap the compaction has not returned. -/
theorem period_ne_after {temp : Bytes} {st : Stage} (hst : st ≠ .swapped)
    (h : AtStage x live temp reads news part st) :
    st.period ≠ .after := by
  cases st with
  | swapped => exact absurd rfl hst
  | failed => exact h.elim
  | before | reading | ended | flushed | renamed | opened => exact fun hafter => by cases hafter

/-- What the invariant says of the calls alone, once a record is complete. -/
theorem Traced.calls_complete (h : Traced x live whole r reads pending news part) {i : Nat} {a : Append}
    (ha : r.calls i = some a) (hfiled : a.filed = none) {calls : Nat → Option Append}
    (hcalls : calls = Function.update r.calls i (some { a with filed := some r.stage.period })) :
    (∀ j b, calls j = some b → Fits b.op) ∧
    (r.stage = .before → ∀ j b p, calls j = some b → b.filed = some p → p = .before) ∧
    (∀ j b, calls j = some b → b.returned = some .before → b.filed = some .before) := by
  subst hcalls
  refine ⟨fun j b hj => ?_, fun hst j b p hj hp => ?_, fun j b hj hb => ?_⟩
  · rcases of_update hj with rfl | hj
    · exact h.fitsCalls i a ha
    · exact h.fitsCalls j b hj
  · rcases of_update hj with rfl | hj
    · rw [hst] at hp
      exact (Option.some.inj hp).symm
    · exact h.early hst j b p hj hp
  · rcases of_update hj with rfl | hj
    · rw [h.returned i a ha hb] at hfiled
      cases hfiled
    · exact h.returned j b hj hb

/-- The last byte of a record is written: the record is one of the file's. -/
theorem Traced.write_last (h : Traced x live whole r reads pending news part) {i : Nat} {left : Bytes} {a : Append}
    (ha : r.calls i = some a) (hfiled : a.filed = none) (hop : part ++ left = encodeOp a.op) :
    Inv x live whole ({ r.addBytes left with writer := some (i, []) }.set i
        { a with filed := some r.stage.period }) := by
  have hfit := h.fitsCalls i a ha
  obtain ⟨hfits, hearly, hret⟩ := h.calls_complete ha hfiled rfl
  have hhold : Holding (Function.update r.calls i (some { a with filed := some r.stage.period })) []
      (some (i, [])) :=
    ⟨_, Function.update_self .., Or.inl ⟨rfl, rfl, Option.some_ne_none _⟩⟩
  have hold := h.old
  have hat := h.stage
  by_cases hst : r.stage = .swapped
  · rw [addBytes_swapped hst]
    rw [hst] at hold hat
    refine ⟨reads, pending, news ++ [a.op], [], h.fitsOld, ?_, hfits, ?_, ?_, hhold, fun o => ?_, fun o => ?_,
        hearly, hret⟩
    · exact List.forall_mem_append.2 ⟨h.fitsNew, List.forall_mem_singleton.2 hfit⟩
    · show r.old = _ ++ oldPart _ r.stage
      rw [hst]
      exact hold
    · show AtStage x live (r.temp ++ left) reads (news ++ [a.op]) [] r.stage
      rw [hst]
      show r.temp ++ left = _
      rw [show r.temp = _ from hat, List.append_assoc, hop, List.append_nil, ← List.append_assoc _ news,
        Wal.encodeAll_append _ [a.op], Wal.encodeAll_singleton]
    · show o ∈ caught reads pending r.stage ↔ InTime whole (Function.update r.calls i _) o
      rw [h.inTime o, inTime_complete ha hfiled, hst]
      simp [Stage.period]
    · show o ∈ news ++ [a.op] ↔ Filed (Function.update r.calls i _) .after o
      rw [filed_complete ha hfiled, ← h.after o, hst, List.mem_append, List.mem_singleton, eq_comm (a := o)]
      simp [Stage.period]
  · -- the handle is still the old one
    rw [addBytes_old hst]
    refine ⟨reads, pending ++ [a.op], news, [], ?_, h.fitsNew, hfits, ?_, atStage_part hst hat, hhold, fun o => ?_,
      fun o => ?_, hearly, hret⟩
    · rw [← List.append_assoc]
      exact List.forall_mem_append.2 ⟨h.fitsOld, List.forall_mem_singleton.2 hfit⟩
    · show r.old ++ left = _ ++ oldPart _ r.stage
      rw [hold, oldPart_eq hst, oldPart_eq hst, List.append_assoc, hop, List.append_nil, ← List.append_assoc reads,
        Wal.encodeAll_append _ [a.op], Wal.encodeAll_singleton]
    · show o ∈ caught reads (pending ++ [a.op]) r.stage ↔ InTime whole (Function.update r.calls i _) o
      rw [mem_caught_append, h.inTime o, inTime_complete ha hfiled]
    · show o ∈ news ↔ Filed (Function.update r.calls i _) .after o
      rw [filed_complete ha hfiled, ← h.after o]
      simp [period_ne_after hst hat]

/-! ### The rest of the compaction -/

/-- The compaction goes on after its loop. -/
theorem Traced.move (h : Traced x live whole r reads pending news part) {st : Stage}
    (hold : oldPart part st = oldPart part r.stage)
    (hat : AtStage x live r.temp reads news part r.stage → AtStage x live r.temp reads news part st)
    (hcaught : caught reads pending st = caught reads pending r.stage) (hne : st ≠ .before) :
    Traced x live whole { r with stage := st } reads pending news part := by
  refine ⟨h.fitsOld, h.fitsNew, h.fitsCalls, ?_, hat h.stage, h.writer, ?_, h.after,
      fun hst => absurd hst hne, h.returned⟩
  · show r.old = _ ++ oldPart part st
    rw [hold]
    exact h.old
  · intro op
    show op ∈ caught reads pending st ↔ _
    rw [hcaught]
    exact h.inTime op

theorem atStage_ended {st : Stage} (h : st.period = .ended) {temp : Bytes} :
    AtStage x live temp reads news part st ↔
    temp = encodeAll ((keptEvents x live ∅ reads).map insertOp) ∧ news = [] := by
  cases st with
  | ended | flushed | renamed | opened => exact Iff.rfl
  | before | reading | swapped | failed => cases h

theorem caught_ended {st : Stage} (h : st.period = .ended) : caught reads pending st = reads := by
  cases st with
  | ended | flushed | renamed | opened => rfl
  | before | reading | swapped | failed => cases h

/-- Between the end of the loop and the swap the compaction touches no file. -/
theorem Traced.move_ended (h : Traced x live whole r reads pending news part) (hfrom : r.stage.period = .ended)
    {st : Stage}
    (hto : st.period = .ended) : Traced x live whole { r with stage := st } reads pending news part := by
  have hne : ∀ {s : Stage}, s.period = .ended → s ≠ .swapped ∧ s ≠ .before := by
    intro s hs
    constructor <;> rintro rfl <;> cases hs
  refine h.move ?_ ?_ ?_ (hne hto).2
  · rw [oldPart_eq (hne hto).1, oldPart_eq (hne hfrom).1]
  · intro hat
    rw [atStage_ended hfrom] at hat
    rwa [atStage_ended hto]
  · rw [caught_ended hto, caught_ended hfrom]

theorem Traced.swap (h : Traced x live whole r reads pending news part) (hst : r.stage = .opened)
    (hfree : r.writer = none) :
    Traced x live whole { r with stage := .swapped } reads pending news part := by
  have hpart := h.part_eq_nil hfree
  refine h.move ?_ ?_ ?_ (fun hf => by cases hf)
  · rw [hst, hpart]
    rfl
  · rw [hst]
    rintro ⟨htemp, hnews⟩
    show r.temp = _
    rw [htemp, hnews, hpart, List.append_nil, List.append_nil]
  · rw [hst]
    rfl

/-! ## Every run -/

theorem Stage.eq_before {st : Stage} (h : st.period = .before) : st = .before := by
  cases st with
  | before => rfl
  | reading | ended | flushed | renamed | opened | swapped | failed => cases h

/-- The record of a call that starts is one the size check lets through. -/
def FitsStep (_ : Race) : Step → Prop
  | .start _ op => Fits op
  | _ => True

theorem Inv.write (h : Inv x live whole r) {n i : Nat} {left : Bytes} {a : Append} (hw : r.writer = some (i, left))
    (ha : r.calls i = some a) (hs : r.writeStep n i left a = some r') : Inv x live whole r' := by
  obtain ⟨reads, pending, news, part, h⟩ := h
  have hhold := h.writer
  rw [hw] at hhold
  obtain ⟨b, hb, hcases⟩ := hhold
  rw [ha] at hb
  cases hb
  unfold Race.writeStep at hs
  split at hs
  · cases hs
  · rename_i hne
    simp only at hs
    obtain ⟨hnil, -⟩ | ⟨-, hfiled, hop⟩ := hcases
    · exact absurd hnil hne
    · by_cases hlast : left.drop n = []
      · have hall : left.take n = left := by
          have hsplit := List.take_append_drop n left
          rwa [hlast, List.append_nil] at hsplit
        have hperiod : (r.addBytes left).stage.period = r.stage.period := by
          unfold Race.addBytes
          split <;> rfl
        rw [if_pos hlast, hall, hlast, hperiod] at hs
        cases hs
        exact h.write_last ha hfiled hop
      · rw [if_neg hlast] at hs
        cases hs
        exact ⟨reads, pending, news, _,
          h.write_part (List.take_append_drop n left).symm hlast ha hfiled hop⟩

/-- The step lemma. -/
theorem Inv.step {c : Step} (h : Inv x live whole r) (hs : r.step x live c = some r') (hc : FitsStep r c) :
    Inv x live whole r' := by
  obtain ⟨reads, pending, news, part, ht⟩ := h
  cases c with
  | start i op =>
    simp only [Race.step] at hs
    split at hs
    · rename_i hnone
      cases hs
      refine ⟨reads, pending, news, part,
          ht.set (Or.inl ⟨hnone, rfl⟩) hc (fun left hw => ?_) (fun hf => by cases hf)⟩
      have hhold := ht.writer
      rw [hw] at hhold
      obtain ⟨a, ha, -⟩ := hhold
      rw [hnone] at ha
      cases ha
    · cases hs
  | lock i =>
    simp only [Race.step] at hs
    split at hs
    · rename_i a hfree ha
      split at hs
      · rename_i hfiled
        cases hs
        exact ⟨reads, pending, news, part, ht.lock hfree ha hfiled⟩
      · cases hs
    · cases hs
  | write n =>
    simp only [Race.step] at hs
    split at hs
    · rename_i i left hw
      obtain ⟨a, ha, hs⟩ := Option.bind_eq_some_iff.1 hs
      exact Inv.write ⟨reads, pending, news, part, ht⟩ hw ha hs
    · cases hs
  | unlock =>
    simp only [Race.step] at hs
    split at hs
    · rename_i i hw
      cases hs
      exact ⟨reads, pending, news, part, ht.unlock hw⟩
    · cases hs
  | finish i =>
    simp only [Race.step] at hs
    split at hs
    · rename_i a ha
      split at hs
      · rename_i hcond
        cases hs
        refine ⟨reads, pending, news, part,
            ht.set (Or.inr ⟨a, ha, rfl, rfl⟩) (ht.fitsCalls i a ha) (fun left hw => ?_) ?_⟩
        · refine hcond.2.2 ?_
          rw [hw]
          rfl
        · intro hret
          -- it returns before the call, so its record was complete before it
          have hst : r.stage = .before := Stage.eq_before (Option.some.inj hret)
          obtain ⟨p, hp⟩ := Option.ne_none_iff_exists'.1 hcond.1
          show a.filed = some .before
          rw [hp, ht.early hst i a p ha hp]
      · cases hs
    · cases hs
  | call =>
    simp only [Race.step] at hs
    split at hs
    · rename_i hst
      cases hs
      exact ⟨reads, pending, news, part, ht.call hst⟩
    · cases hs
  | read =>
    simp only [Race.step] at hs
    split at hs
    · rename_i pos c hst
      exact ht.read hst hs
    · cases hs
  | stop =>
    simp only [Race.step] at hs
    split at hs
    · rename_i pos c hst
      exact ht.stop hst hs
    · cases hs
  | flush =>
    simp only [Race.step] at hs
    split at hs
    · rename_i hst hfree
      cases hs
      exact ⟨reads, pending, news, part, ht.move_ended (congrArg Stage.period hst) rfl⟩
    · cases hs
  | rename =>
    simp only [Race.step] at hs
    split at hs
    · rename_i hst
      cases hs
      exact ⟨reads, pending, news, part, ht.move_ended (congrArg Stage.period hst) rfl⟩
    · cases hs
  | openNew =>
    simp only [Race.step] at hs
    split at hs
    · rename_i hst
      cases hs
      exact ⟨reads, pending, news, part, ht.move_ended (congrArg Stage.period hst) rfl⟩
    · cases hs
  | swap =>
    simp only [Race.step] at hs
    split at hs
    · rename_i hst hfree
      cases hs
      exact ⟨reads, pending, news, part, ht.swap hst hfree⟩
    · cases hs

/-- The run lemma. -/
theorem inv_run {steps : List Step} (hwhole : ∀ op ∈ whole, Fits op)
    (hfit : ∀ i op, Step.start i op ∈ steps → Fits op)
    (hrun : Machine.run (Race.step x live) (Race.init whole) steps = some r) : Inv x live whole r := by
  refine Machine.run_invariant (C := FitsStep) (I := Inv x live whole) ?_ steps _ r hrun ?_ (inv_init hwhole)
  · exact fun s c s' hs hc hI => hI.step hs hc
  · refine Machine.along_of_forall steps _ fun c hc s => ?_
    cases c with
    | start i op => exact hfit i op hc
    | lock | write | unlock | finish | call | read | stop | flush | rename | openNew | swap => trivial

/-! ## What is in the log at the end -/

/-- When all calls have returned, the log holds what was copied and what was added to it. -/
theorem Traced.done (h : Traced x live whole r reads pending news part) (hdone : r.Done) :
    Wal.records r.walLog = (keptEvents x live ∅ reads).map insertOp ++ news ∧
      ∀ op, op ∈ reads ↔ InTime whole r.calls op := by
  have hpart := h.part_eq_nil hdone.writer
  have hat := h.stage
  have hin := h.inTime
  have hafter := hdone.compact
  unfold Race.walLog
  cases hst : r.stage with
  | swapped =>
    rw [hst] at hat hin
    refine ⟨?_, hin⟩
    show Wal.records r.temp = _
    rw [show r.temp = _ from hat, hpart, List.append_nil]
    have hreads : ∀ op ∈ reads, Fits op := fun op hop => h.fitsOld op (List.mem_append_left _ hop)
    exact Wal.records_encodeAll (List.forall_mem_append.2 ⟨Wal.fits_keptEvents hreads, h.fitsNew⟩)
  | failed =>
    rw [hst] at hat
    exact hat.elim
  | before | reading | ended | flushed | renamed | opened =>
    rw [hst] at hafter
    cases hafter

theorem insertOp_inj {a b : Event} (h : insertOp a = insertOp b) (ha : Event.fromJsonUnchecked x a.raw = .ok a)
    (hb : Event.fromJsonUnchecked x b.raw = .ok b) : a = b := by
  have hraw : a.raw = b.raw := WalOp.insert.inj h
  rw [hraw, hb] at ha
  exact (Except.ok.inj ha).symm

theorem Traced.yields_iff (h : Traced x live whole r reads pending news part) (hdone : r.Done) (id : Bytes32) :
    Yields x r.walLog id ↔ Kept x live whole r id := by
  obtain ⟨hlog, hin⟩ := h.done hdone
  unfold Yields
  rw [hlog]
  constructor
  · rintro ⟨e, ⟨hop, hparse⟩, rfl⟩
    refine ⟨e, hparse, rfl, ?_⟩
    rcases List.mem_append.1 hop with hop | hop
    · obtain ⟨b, hb, heq⟩ := List.mem_map.1 hop
      obtain ⟨hread, hbp, hlive, -⟩ := Wal.of_mem_keptEvents hb
      obtain rfl := insertOp_inj heq hbp hparse
      exact Or.inr ⟨hlive, (hin _).1 hread⟩
    · exact Or.inl ((h.after _).1 hop)
  · rintro ⟨e, hparse, rfl, hfiled | ⟨hlive, htime⟩⟩
    · exact ⟨e, ⟨List.mem_append_right _ ((h.after _).2 hfiled), hparse⟩, rfl⟩
    · have hmem := Wal.mem_ids_keptEvents ((hin _).2 htime) hparse hlive (Finset.notMem_empty _)
      obtain ⟨b, hb, hid⟩ := List.mem_map.1 hmem
      exact ⟨b, ⟨List.mem_append_left _ (List.mem_map_of_mem hb), (Wal.of_mem_keptEvents hb).2.1⟩, hid⟩

/-- What was there before the call is in time. -/
theorem Traced.inTime_of_early (h : Traced x live whole r reads pending news part) {e : Event}
    (he : Early whole r e) :
    InTime whole r.calls (insertOp e) := by
  rcases he with hwhole | ⟨i, a, ha, hop, hret⟩
  · exact Or.inl hwhole
  · exact Or.inr (Or.inl ⟨i, a, ha, hop, h.returned i a ha hret⟩)

end

/-- For every interleaving of one compaction with appends, once all have returned: no
insert is lost exactly when of each event whose append started during the compaction an
insert was written after the swap, or in time to be read while its id is live. -/
theorem noLoss_iff (x : Ext) (live : Finset Bytes32) (whole : List WalOp) (hwhole : ∀ op ∈ whole, Fits op)
    (steps : List Step) (hfit : ∀ i op, Step.start i op ∈ steps → Fits op) (r : Race)
    (hrun : Machine.run (Race.step x live) (Race.init whole) steps = some r) (hdone : r.Done) :
    NoLoss x live whole r ↔
      ∀ e, Event.fromJsonUnchecked x e.raw = .ok e → Late r e → Kept x live whole r e.id := by
  obtain ⟨reads, pending, news, part, h⟩ := inv_run hwhole hfit hrun
  have hyields := h.yields_iff hdone
  constructor
  · intro hno e hparse hlate
    exact (hyields e.id).1 (hno e hparse (Or.inr hlate))
  · rintro hkept e hparse (⟨hearly, hlive⟩ | hlate)
    · exact (hyields e.id).2 ⟨e, hparse, rfl, Or.inr ⟨hlive, h.inTime_of_early hearly⟩⟩
    · exact (hyields e.id).2 (hkept e hparse hlate)

/-! ## Two runs -/

/-- A whole append, once it has started. -/
def appendSteps (i : Nat) (op : WalOp) : List Step := [.lock i, .write (encodeOp op).length, .unlock, .finish i]

/-- An append starts while the log is read, and gets the lock after the swap. -/
def delayed (op : WalOp) : List Step :=
  [.call, .start 0 op, .stop, .flush, .rename, .openNew, .swap] ++ appendSteps 0 op

/-- An append comes after the end of the log was read. -/
def gap (op : WalOp) : List Step :=
  [.call, .stop, .start 0 op] ++ (appendSteps 0 op ++ [.flush, .rename, .openNew, .swap])

theorem writeStep_all (r : Race) (i : Nat) {left : Bytes} (hne : left ≠ []) (a : Append) :
    r.writeStep left.length i left a =
      some ({ r.addBytes left with writer := some (i, []) }.set i
          { a with filed := some (r.addBytes left).stage.period }) := by
  unfold Race.writeStep
  rw [if_neg hne, List.take_length, List.drop_length]
  rfl

section
variable (x : Ext) (live : Finset Bytes32) (op : WalOp)

theorem run_append {r : Race} {i : Nat} {p : Period} (hcall : r.calls i = some ⟨op, p, none, none⟩)
    (hfree : r.writer = none) :
    Machine.run (Race.step x live) r (appendSteps i op) =
      some ((r.addBytes (encodeOp op)).set i ⟨op, p, some r.stage.period, some r.stage.period⟩) := by
  have hne : encodeOp op ≠ [] := List.ne_nil_of_length_pos (Wal.length_encodeOp_pos op)
  obtain ⟨old, temp, st, calls, writer⟩ := r
  cases hfree
  have hcall' : calls i = some ⟨op, p, none, none⟩ := hcall
  have hwrite := fun r a => writeStep_all r i hne a
  cases st <;>
    simp only [appendSteps, Machine.run, Race.step, hcall', if_true, Option.bind_some, hwrite,
      Race.addBytes, Race.set, Function.update_self, Function.update_idem, Stage.period, ne_eq, reduceCtorEq,
      not_false_eq_true, Option.map_none,
      and_self]

theorem run_delayed : Machine.run (Race.step x live) (Race.init []) (delayed op) =
    some ⟨[], encodeOp op, .swapped,
      Function.update (fun _ => none) 0 (some ⟨op, .reading, some .after, some .after⟩), none⟩ := by
  have hstart : Machine.run (Race.step x live)
      (Race.init []) [.call, .start 0 op, .stop, .flush, .rename, .openNew, .swap] =
      some ⟨[], [], .swapped, Function.update (fun _ => none) 0 (some ⟨op, .reading, none, none⟩), none⟩ := rfl
  unfold delayed
  rw [Machine.run_append, hstart, Option.bind_some, run_append x live op (p := .reading) rfl rfl]
  simp only [Race.addBytes, Race.set, Function.update_idem, List.nil_append, Stage.period]

theorem run_gap : Machine.run (Race.step x live) (Race.init []) (gap op) =
    some ⟨encodeOp op, [], .swapped,
      Function.update (fun _ => none) 0 (some ⟨op, .ended, some .ended, some .ended⟩), none⟩ := by
  have hstart : Machine.run (Race.step x live) (Race.init []) [.call, .stop, .start 0 op] =
      some ⟨[], [], .ended, Function.update (fun _ => none) 0 (some ⟨op, .ended, none, none⟩), none⟩ := rfl
  unfold gap
  rw [Machine.run_append, hstart, Option.bind_some, Machine.run_append,
    run_append x live op (p := .ended) rfl rfl, Option.bind_some]
  simp only [Race.addBytes, Race.set, Function.update_idem, List.nil_append, Stage.period]
  rfl

end

theorem eq_of_one {a b : Append} {i : Nat} (h : Function.update (fun _ => none) 0 (some a) i = some b) :
    b = a := by
  rcases of_update h with heq | hnone
  · exact heq
  · cases hnone

/-- One call, and it has returned. -/
theorem done_of_one (old temp : Bytes) {a : Append} (ha : a.returned ≠ none) :
    Race.Done ⟨old, temp, .swapped, Function.update (fun _ => none) 0 (some a), none⟩ :=
  ⟨rfl, fun _ _ hb => eq_of_one hb ▸ ha, rfl⟩

/-- The append that waited is in the new log. -/
theorem noLoss_iff_delayed : ∃ r,
    Machine.run (Race.step (Ext.known [note 0] []) ∅) (Race.init []) (delayed (insertOp (note 0))) =
        some r ∧ r.Done ∧
      Late r (note 0) ∧ NoLoss (Ext.known [note 0] []) ∅ [] r := by
  have hrun := run_delayed (Ext.known [note 0] []) ∅ (insertOp (note 0))
  have hfit : ∀ i op, Step.start i op ∈ delayed (insertOp (note 0)) → Fits op := by
    intro i op hop
    obtain ⟨-, rfl⟩ : i = 0 ∧ op = insertOp (note 0) := by simpa [delayed, appendSteps] using hop
    show (note 0).raw.length ≤ maxWalRecordSize
    rw [length_raw_note]
    decide
  have hdone := done_of_one [] (encodeOp (insertOp (note 0)))
    (a := ⟨insertOp (note 0), .reading, some .after, some .after⟩) (Option.some_ne_none _)
  refine ⟨_, hrun, hdone, ⟨0, _, rfl, rfl, (fun h => by cases h), Option.some_ne_none _⟩, ?_⟩
  refine (noLoss_iff _ ∅ [] (fun _ hop => (List.not_mem_nil hop).elim) _ hfit _ hrun hdone).2 ?_
  rintro e hparse ⟨i, a, ha, hop, -⟩
  refine ⟨e, hparse, rfl, Or.inl ⟨i, a, ha, hop, ?_⟩⟩
  rw [eq_of_one ha]

/-- The append that came too late for the copy is in no log, though its id is live. -/
theorem gap_loses : ∃ r,
    Machine.run (Race.step (Ext.known [note 0] []) {(note 0).id}) (Race.init []) (gap (insertOp (note 0))) =
        some r ∧
      r.Done ∧ Late r (note 0) ∧ r.walLog = [] ∧ ¬ NoLoss (Ext.known [note 0] []) {(note 0).id} [] r := by
  have hparse : Event.fromJsonUnchecked (Ext.known [note 0] []) (note 0).raw = .ok (note 0) :=
    fromJsonUnchecked_known List.mem_cons_self fun b hb _ => List.mem_singleton.1 hb
  refine ⟨_, run_gap _ _ _, done_of_one _ _ (Option.some_ne_none _),
    ⟨0, _, rfl, rfl, (fun h => by cases h), Option.some_ne_none _⟩, rfl, fun hno => ?_⟩
  obtain ⟨e, ⟨hop, -⟩, -⟩ := hno (note 0) hparse
      (Or.inr ⟨0, _, rfl, rfl, (fun h => by cases h), Option.some_ne_none _⟩)
  exact List.not_mem_nil hop

end CompactRace
end Memlay
