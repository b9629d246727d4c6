import Memlay.Relay

/-!
# Live events are verified ones

The verifying parser runs once, when a frame comes in.  A restart parses the
stored bytes again without verifying, after the snapshot has split them into
lines.

    Relay.authentic        in every run whose accepted frames have no line that only the
                           unchecked parser accepts, every live event is verified
    Relay.hidden_accepted  a frame with such a line makes a forged event live

What is kept is that the bytes behind every live event, log record and snapshot
are trusted: verified as a whole, and each line of them verified if it parses.
-/

namespace Memlay

open Lines (Segment lines)
open Store (Rec segmentRecs diskRecs Whole)

/-- Every live event's bytes are accepted by the verifying parser. -/
def Authentic (x : Ext) (s : Index) : Prop :=
  ∀ id e, s.byId.lookup id = some e → Event.fromJson x e.raw = .ok e

/-- Every line of the text that the unchecked parser accepts verifies, also with
carriage returns cut off its end: each write and load of a snapshot cuts one. -/
def LinesVerified (x : Ext) (text : Bytes) : Prop :=
  ∀ l n a, Segment (l ++ List.replicate n 13) text → Event.fromJsonUnchecked x l = .ok a →
    Event.fromJson x l = .ok a

structure Event.Trusted (x : Ext) (e : Event) : Prop where
  verified : Event.fromJson x e.raw = .ok e
  lines : LinesVerified x e.raw

namespace Store

section
variable {x : Ext}

/-! ## Snapshots -/

/-- A snapshot of trusted events gives back trusted events. -/
theorem trusted_of_mem_snapshotEvents {es : List Event} (hes : ∀ e ∈ es, e.Trusted x) {e : Event}
    (he : e ∈ snapshotEvents x (writeSnapshot es)) : e.Trusted x := by
  obtain ⟨hline, -, hok⟩ := mem_snapshotEvents_iff.1 he
  rw [writeSnapshot_eq] at hline
  obtain ⟨hnl, -, t, ht, seg, hseg, hcut⟩ := Lines.mem_lines_write hline
  obtain ⟨a, ha, rfl⟩ := List.mem_map.1 ht
  have hlines := (hes a ha).lines
  -- the line with the carriage returns that the file had behind it
  have hback : ∃ m, Segment (e.raw ++ List.replicate m 13) a.raw := by
    rcases hcut with ⟨h, -⟩ | h
    · exact ⟨0, by simpa [h] using hseg⟩
    · exact ⟨1, by simpa [h] using hseg⟩
  obtain ⟨m, hm⟩ := hback
  refine ⟨hlines e.raw m e hm hok, fun l n b hl hb => ?_⟩
  have hwhole := Lines.eq_of_segment hnl hl
  refine hlines l (n + m) b ?_ hb
  rwa [List.replicate_add, ← List.append_assoc, hwhole]

/-! ## Log segments -/

/-- A segment of whole records whose events are trusted. -/
structure TrustedLog (x : Ext) (segment : Option Bytes) : Prop where
  whole : Whole segment
  puts : ∀ e, Rec.put e ∈ segmentRecs x segment → e.Trusted x

theorem trustedLog_nil : TrustedLog x (some []) :=
  ⟨whole_nil, fun e he => by cases he⟩

theorem TrustedLog.getD {segment : Option Bytes} (h : TrustedLog x segment) :
    TrustedLog x (some (segment.getD [])) := by
  refine ⟨h.whole, fun e he => h.puts e ?_⟩
  rwa [segmentRecs_getD] at he

theorem TrustedLog.append {segment : Option Bytes} (h : TrustedLog x segment) {op : WalOp}
    (hop : Wal.Fits op) (hput : ∀ e, parseOp x op = some (.put e) → e.Trusted x) :
    TrustedLog x (some (segment.getD [] ++ Wal.encodeOp op)) := by
  obtain ⟨hwhole, hrecs⟩ := h.whole.append (x := x) hop
  refine ⟨hwhole, fun e he => ?_⟩
  rw [hrecs] at he
  rcases List.mem_append.1 he with he | he
  · exact h.puts e he
  · exact hput e (Option.mem_toList.1 he)

/-! ## The store -/

structure Trusted (x : Ext) (st : Store) : Prop where
  live : ∀ id e, st.index.byId.lookup id = some e → e.Trusted x
  wal : TrustedLog x st.files.wal
  walOld : TrustedLog x st.files.walOld
  events : ∀ file, st.files.events = some file → ∃ es, file = writeSnapshot es ∧ ∀ e ∈ es, e.Trusted x

theorem Trusted.setIndex {st : Store} (h : Trusted x st) {s : Index}
    (hs : ∀ id e, s.byId.lookup id = some e → e.Trusted x) : Trusted x { st with index := s } :=
  ⟨hs, h.wal, h.walOld, h.events⟩

theorem Trusted.append {st : Store} (h : Trusted x st) {op : WalOp} (hop : Wal.Fits op)
    (hput : ∀ e, parseOp x op = some (.put e) → e.Trusted x) : Trusted x (st.append op) := by
  cases hh : st.handle with
  | wal =>
    refine ⟨h.live, ?_, ?_, ?_⟩
    · simp only [Store.append, Files.append, hh]
      exact h.wal.append hop hput
    · simp only [Store.append, Files.append, hh]
      exact h.walOld
    · simp only [Store.append, Files.append, hh]
      exact h.events
  | old =>
    refine ⟨h.live, ?_, ?_, ?_⟩
    · simp only [Store.append, Files.append, hh]
      exact h.wal
    · simp only [Store.append, Files.append, hh]
      exact h.walOld.append hop hput
    · simp only [Store.append, Files.append, hh]
      exact h.events

theorem Trusted.insert {st : Store} (h : Trusted x st) {e : Event} (he : e.Trusted x)
    (hlen : e.raw.length ≤ maxWalRecordSize) : Trusted x (st.insert e).2 := by
  have hidx : ∀ id y, (st.index.insert e).2.byId.lookup id = some y → y.Trusted x := by
    intro id y hy
    rcases Index.lookup_of_insert hy with ⟨rfl, -⟩ | hy
    · exact he
    · exact h.live id y hy
  have hput : ∀ y, parseOp x (.insert e.raw) = some (.put y) → y.Trusted x := by
    intro y hy
    have hok := (Event.fromJson_eq_ok_iff.1 he.verified).1
    simp only [parseOp, hok] at hy
    cases hy
    exact he
  unfold Store.insert
  split
  · exact h
  · cases hi : st.index.insert e with
    | mk o s =>
      rw [hi] at hidx
      cases o with
      | inserted replaced =>
        have hfits : Wal.Fits (.insert e.raw) := hlen
        have hone := (h.setIndex hidx).append hfits hput
        cases replaced with
        | none => exact hone
        | some old =>
          have hdel : Wal.Fits (.delete old.id) := trivial
          exact hone.append hdel (fun y hy => by cases hy)
      | duplicate => exact h.setIndex hidx
      | deleted => exact h.setIndex hidx
      | lostRace => exact h.setIndex hidx

theorem Trusted.deleteTarget {st : Store} (h : Trusted x st) (out : DeletionOutcome) (id : Bytes32) :
    Trusted x (deleteTarget (out, st) id).2 := by
  have hfits : Wal.Fits (.tombstone id) := trivial
  have hrec : Trusted x (st.append (.tombstone id)) := h.append hfits (fun y hy => by cases hy)
  refine hrec.setIndex fun i y hy => ?_
  exact h.live i y (Index.lookup_of_internalRemove hy)

theorem Trusted.applyDeletion {st : Store} (h : Trusted x st) (ids : List Bytes32)
    (coordinates : List Coordinate) (author : Bytes32) (until_ : Nat) :
    Trusted x (st.applyDeletion ids coordinates author until_).2 :=
  applyDeletion_invariant (fun out _ id _ ht _ => ht.deleteTarget out id) ids coordinates author until_ h

theorem Trusted.renameWal {st st' : Store} (h : Trusted x st) (hs : st.renameWal = some st') :
    Trusted x st' := by
  unfold Store.renameWal at hs
  split at hs
  · cases hs
  · rename_i segment hseg
    cases hs
    have hw := h.wal
    rw [hseg] at hw
    exact ⟨h.live, ⟨whole_none, fun e he => by cases he⟩, hw, h.events⟩

theorem Trusted.openWal {st : Store} (h : Trusted x st) : Trusted x st.openWal :=
  ⟨h.live, h.wal.getD, h.walOld, h.events⟩

theorem Trusted.putSnapshot {st : Store} (h : Trusted x st) {es : List Event}
    (hes : ∀ e ∈ es, e.Trusted x) : Trusted x (st.putSnapshot es) :=
  ⟨h.live, h.wal, h.walOld, fun _ hf => ⟨es, (Option.some.inj hf).symm, hes⟩⟩

theorem Trusted.removeOld {st : Store} (h : Trusted x st) : Trusted x st.removeOld :=
  ⟨h.live, h.wal, ⟨whole_none, fun e he => by cases he⟩, h.events⟩

theorem Trusted.checkpoint {st st' : Store} (h : Trusted x st) {es : List Event}
    (hes : ∀ e ∈ es, e.Trusted x) (hs : st.checkpoint es = some st') : Trusted x st' := by
  obtain ⟨st₁, h₁, rfl⟩ := Option.map_eq_some_iff.1 hs
  exact ((h.renameWal h₁).openWal.putSnapshot hes).removeOld

/-- Trusted files give back trusted events. -/
theorem Trusted.replayFiles {st : Store} (h : Trusted x st) {maxBytes : Usize} {applied : Nat} {s : Index}
    (hs : Store.replayFiles x maxBytes .new st.files = some (applied, s)) {id : Bytes32} {y : Event}
    (hy : s.byId.lookup id = some y) : y.Trusted x := by
  rcases List.mem_append.1 (put_mem_of_replayFiles hs hy) with hm | hm
  · obtain ⟨e, he, hey⟩ := List.mem_map.1 hm
    cases hey
    cases hev : st.files.events with
    | none =>
      rw [hev] at he
      cases he
    | some file =>
      obtain ⟨es, rfl, hes⟩ := h.events file hev
      rw [hev] at he
      refine trusted_of_mem_snapshotEvents hes ?_
      simpa [snapshotRecs] using he
  · rcases List.mem_append.1 hm with hm | hm
    · exact h.walOld.puts y hm
    · exact h.wal.puts y hm

/-- A load of trusted files is trusted. -/
theorem Trusted.loadFromDisk {st st' : Store} (h : Trusted x st) {maxBytes : Usize} {es : List Event}
    {applied : Nat} {s : Index} (hnew : st.index = .new)
    (hs : Store.replayFiles x maxBytes st.index st.files = some (applied, s)) (hp : es.Perm s.iterAll)
    (hload : st.loadFromDisk x maxBytes es = some st') : Trusted x st' := by
  have hlive : ∀ id y, s.byId.lookup id = some y → y.Trusted x := by
    intro id y hy
    rw [hnew] at hs
    exact h.replayFiles hs hy
  have hes : ∀ e ∈ es, e.Trusted x := by
    intro e he
    obtain ⟨id, hid⟩ := Table.mem_values_iff.1 (hp.subset he)
    exact hlive id e hid
  have hread : Trusted x ({ st with index := s }.removeOld) := (h.setIndex hlive).removeOld
  unfold Store.loadFromDisk at hload
  simp only [hs, bind, Option.bind, pure] at hload
  split at hload
  · cases hload
    cases hc : ({ st with index := s } : Store).removeOld.checkpoint es with
    | none => exact hread
    | some st₁ => exact hread.checkpoint hes hc
  · cases hload
    exact hread

end
end Store

namespace Relay

section
variable {x : Serde}

/-! ## Runs of the relay -/

/-- The accepted frame has no line that only the unchecked parser accepts. -/
def NoHiddenLine (x : Serde) (_ : Sys) : Turn → Prop
  | .frame text _ => ∀ subId ev, NostrMessage.fromJson x text = .ok (.event subId ev) →
      LinesVerified x.toExt ev.raw
  | _ => True

/-- The elements of an array are slices of its text. -/
def Slices (x : Serde) : Prop := ∀ text items, x.rawArray text = .ok items → ∀ t ∈ items, t <:+: text

structure Guarded (x : Serde) (s : Sys) : Prop where
  store : s.store.Trusted x.toExt
  collected : ∀ es, s.phase = .collected es → ∀ e ∈ es, e.Trusted x.toExt

theorem Guarded.frame {s : Sys} (h : Guarded x s) (hslices : Slices x) {text : Bytes} {visit : Visit}
    (hc : NoHiddenLine x s (.frame text visit)) :
    (handleText x text visit s.store).store.Trusted x.toExt := by
  rcases store_handleText x text visit s.store with heq | ⟨subId, ev, hev, hlen, heq⟩
  · rw [heq]
    exact h.store
  · obtain ⟨-, head, data, more, harr, -, hok⟩ := NostrMessage.fromJson_eq_event_iff.1 hev
    have hraw : ev.raw = data := Event.raw_of_fromJsonUnchecked (Event.fromJson_eq_ok_iff.1 hok).1
    have htrust : ev.Trusted x.toExt := ⟨by rw [hraw]; exact hok, hc subId ev hev⟩
    have hfits : ev.raw.length ≤ maxWalRecordSize := by
      have := (hslices text _ harr data (by simp)).length_le
      rw [hraw]
      unfold maxMessageBytes at hlen
      unfold maxWalRecordSize
      omega
    rcases heq with heq | heq
    · rw [heq]
      exact h.store.insert htrust hfits
    · rw [heq]
      exact (h.store.applyDeletion _ _ _ _).insert htrust hfits

theorem Guarded.live_of_perm {s : Sys} (h : Guarded x s) {es : List Event}
    (hp : es.Perm s.store.index.iterAll) : ∀ e ∈ es, e.Trusted x.toExt := by
  intro e he
  obtain ⟨id, hid⟩ := Table.mem_values_iff.1 (hp.subset he)
  exact h.store.live id e hid

theorem Guarded.restart {s s' : Sys} (h : Guarded x s) {maxBytes : Usize} {es : List Event}
    (hstep : step x s (.restart maxBytes es) = some s') : Guarded x s' := by
  unfold step at hstep
  simp only [bind, Option.bind_eq_some_iff] at hstep
  obtain ⟨⟨applied, live⟩, hrep, hstep⟩ := hstep
  have hnew : (Store.new s.store.files).Trusted x.toExt :=
    ⟨fun _ _ hy => (by cases hy), h.store.wal.getD, h.store.walOld, h.store.events⟩
  simp only at hstep
  split at hstep
  · rename_i hp
    obtain ⟨st, hload, hret⟩ := Option.bind_eq_some_iff.1 hstep
    cases hret
    exact ⟨hnew.loadFromDisk rfl hrep hp hload, fun _ hph => by cases hph⟩
  · cases hstep

/-- The step lemma. -/
theorem Guarded.step {s s' : Sys} {t : Turn} (h : Guarded x s) (hslices : Slices x)
    (hc : NoHiddenLine x s t) (hstep : Relay.step x s t = some s') : Guarded x s' := by
  cases t with
  | frame text visit =>
    unfold Relay.step at hstep
    simp only at hstep
    split at hstep
    · cases hstep
    · cases hstep
      exact ⟨h.frame hslices hc, h.collected⟩
  | rename =>
    unfold Relay.step Sys.step at hstep
    simp only at hstep
    split at hstep
    · obtain ⟨st, hst, rfl⟩ := Option.map_eq_some_iff.1 hstep
      exact ⟨h.store.renameWal hst, fun _ hph => by cases hph⟩
    · cases hstep
  | reopen =>
    unfold Relay.step Sys.step at hstep
    simp only at hstep
    split at hstep
    · cases hstep
      exact ⟨h.store.openWal, fun _ hph => by cases hph⟩
    · cases hstep
  | collect es =>
    unfold Relay.step Sys.step at hstep
    simp only at hstep
    split at hstep
    · rename_i hcond
      cases hstep
      refine ⟨h.store, fun es' hph => ?_⟩
      cases hph
      exact h.live_of_perm hcond.2
    · cases hstep
  | renameSnapshot =>
    unfold Relay.step Sys.step at hstep
    simp only at hstep
    split at hstep
    · rename_i es hph
      cases hstep
      exact ⟨h.store.putSnapshot (h.collected es hph), fun _ hn => by cases hn⟩
    · cases hstep
  | removeOld ok =>
    unfold Relay.step Sys.step at hstep
    simp only at hstep
    split at hstep
    · cases hstep
      refine ⟨?_, fun _ hph => by cases hph⟩
      cases ok with
      | true => exact h.store.removeOld
      | false => exact h.store
    · cases hstep
  | giveUp =>
    unfold Relay.step Sys.step at hstep
    simp only at hstep
    split at hstep
    · cases hstep
    · cases hstep
      exact ⟨h.store, fun _ hph => by cases hph⟩
  | restart maxBytes es => exact h.restart hstep

theorem guarded_init : Guarded x Sys.init :=
  ⟨⟨fun _ _ hy => (by cases hy), Store.trustedLog_nil, ⟨Store.whole_none, fun _ he => (by cases he)⟩,
    fun _ hf => (by cases hf)⟩, fun _ hph => by cases hph⟩

/-- In every run whose accepted frames have no hidden line, every live event is a
verified one. -/
theorem authentic (hslices : Slices x) {turns : List Turn} {s : Sys}
    (hrun : Machine.run (Relay.step x) Sys.init turns = some s)
    (hlines : Machine.Along (Relay.step x) (NoHiddenLine x) Sys.init turns) :
    Authentic x.toExt s.store.index := by
  have h := Machine.run_invariant (fun s t s' hs hc (hJ : Guarded x s) => hJ.step hslices hc hs)
    turns Sys.init s hrun hlines guarded_init
  exact fun id e he => (h.store.live id e he).verified

end

/-! ## Known frames -/

/-- The message parser of known libraries; it is asked for no other value. -/
def serdeOf (x : Ext) : Serde :=
  { x with string := fun _ => .error [], bool := fun _ => .error [], filter := fun _ => .error [] }

section
variable {signed unsigned : List Event} {e : Event}

theorem frame_inj {a b : Event} (h : a.frame = b.frame) : a.raw = b.raw := by
  simpa [Event.frame, Event.jsonArray] using h

theorem slices_known (signed unsigned : List Event) : Slices (serdeOf (Ext.known signed unsigned)) := by
  intro text items hitems t ht
  obtain ⟨e, -, rfl, rfl⟩ := of_rawArray_known hitems
  simp only [List.mem_cons, List.not_mem_nil, or_false] at ht
  rcases ht with rfl | rfl
  · exact ⟨[91], [44] ++ e.raw ++ [93], by simp [Event.frame, Event.jsonArray]⟩
  · exact ⟨[91] ++ Event.quoted "EVENT".toList ++ [44], [93], by simp [Event.frame, Event.jsonArray]⟩

/-- The frame of a signed event is accepted. -/
theorem fromJson_frame (he : e ∈ signed) (h : ∀ a ∈ signed ++ unsigned, a.raw = e.raw → a = e)
    (hs : ∀ a ∈ signed ++ unsigned, a.serialised = e.serialised → a.id = e.id) :
    NostrMessage.fromJson (serdeOf (Ext.known signed unsigned)) e.frame = .ok (.event none e) := by
  refine NostrMessage.fromJson_eq_event_iff.2 ⟨rfl, Event.quoted "EVENT".toList, e.raw, [], ?_, ?_,
    fromJson_known he h hs⟩
  · exact rawArray_known (List.mem_append_left unsigned he) fun a ha hf => h a ha (frame_inj hf)
  · show (if Event.quoted "EVENT".toList = Event.quoted "EVENT".toList then Except.ok "EVENT".toList
      else Except.error []) = .ok "EVENT".toList
    exact if_pos rfl

/-- The text of one line has no line but itself. -/
theorem linesVerified_of_oneLine {x : Ext} (hone : Lines.OneLine e.raw) (h : Event.fromJson x e.raw = .ok e) :
    LinesVerified x e.raw := by
  intro l n a hseg ha
  have hwhole := Lines.eq_of_segment hone.1 hseg
  have hn : n = 0 := by
    by_contra hne
    obtain ⟨m, rfl⟩ : ∃ m, n = m + 1 := ⟨n - 1, by omega⟩
    refine hone.2.2 ?_
    rw [← hwhole, List.replicate_succ', ← List.append_assoc, List.getLast?_concat]
  subst hn
  rw [List.replicate_zero, List.append_nil] at hwhole
  rw [hwhole] at ha ⊢
  have hok := (Event.fromJson_eq_ok_iff.1 h).1
  rw [hok] at ha
  cases ha
  exact h

end

/-! ## A note, and an event hidden in a field that no parser reads -/

def sorted : Visit := ⟨fun s => s.sort (· ≤ ·), fun s => ⟨s.sort_nodup (· ≤ ·), s.sort_toFinset (· ≤ ·)⟩⟩

/-- The signed note in another spelling. -/
def noteWith (raw : Bytes) : Event := { note 0 with raw := raw }

/-- The frame of the note, a checkpoint and a restart, after which `f` is live. -/
def frameAndRestart (raw : Bytes) (f : Event) : List Turn :=
  [.frame (noteWith raw).frame sorted, .rename, .reopen, .collect [noteWith raw], .renameSnapshot,
    .removeOld true, .restart 0 [f]]

/-- The end of that run, when the snapshot of the note gives back `f`. -/
theorem run_frameAndRestart {x : Serde} {raw : Bytes} {f : Event}
    (hframe : NostrMessage.fromJson x (noteWith raw).frame = .ok (.event none (noteWith raw)))
    (hlen : (noteWith raw).frame.length ≤ maxMessageBytes)
    (hsnap : snapshotEvents x.toExt (writeSnapshot [noteWith raw]) = [f])
    (hlive : (Index.new.insert f).2.iterAll = [f]) :
    Machine.run (step x) Sys.init (frameAndRestart raw f) =
      some ⟨⟨(Index.new.insert f).2, ⟨some (writeSnapshot [f]), none, some []⟩, .wal⟩, .idle, true⟩ := by
  have hstored : (handleText x (noteWith raw).frame sorted Sys.init.store).store =
      (Sys.init.store.insert (noteWith raw)).2 := by
    unfold handleText processEventMessage
    rw [if_neg (by omega), hframe]
    rfl
  have h₁ : step x Sys.init (.frame (noteWith raw).frame sorted) =
      some ⟨(Sys.init.store.insert (noteWith raw)).2, .idle, true⟩ := by
    show some (⟨_, _, _⟩ : Sys) = _
    rw [hstored]
    rfl
  have h₂ : Machine.run (step x) ⟨(Sys.init.store.insert (noteWith raw)).2, .idle, true⟩ [.rename, .reopen] =
      some ⟨⟨(Index.new.insert (noteWith raw)).2, ⟨none, (Sys.init.store.insert (noteWith raw)).2.files.wal,
        some []⟩, .wal⟩, .rotated, false⟩ := rfl
  have h₃ : ∀ st : Store, st.index = (Index.new.insert (noteWith raw)).2 →
      step x ⟨st, .rotated, false⟩ (.collect [noteWith raw]) = some ⟨st, .collected [noteWith raw], false⟩ := by
    intro st hst
    have hall : (Index.new.insert (noteWith raw)).2.iterAll = [noteWith raw] := rfl
    simp only [step, Sys.step, hst, hall, List.Perm.refl, and_self, if_true]
  have hrecs : diskRecs x.toExt ⟨some (writeSnapshot [noteWith raw]), none, some []⟩ = [.put f] := by
    unfold diskRecs
    show ([snapshotEvents x.toExt (writeSnapshot [noteWith raw])].flatten).map Rec.put ++ _ = _
    rw [hsnap]
    rfl
  have hrecover : Store.recover x.toExt ⟨some (writeSnapshot [noteWith raw]), none, some []⟩ =
      (Index.new.insert f).2 := by
    unfold Store.recover
    rw [hrecs]
    rfl
  have h₄ : ∀ s h p b, step x ⟨⟨s, ⟨some (writeSnapshot [noteWith raw]), none, some []⟩, h⟩, p, b⟩
      (.restart 0 [f]) = some ⟨⟨(Index.new.insert f).2, ⟨some (writeSnapshot [f]), none, some []⟩, .wal⟩,
        .idle, true⟩ := by
    intro s h p b
    have hload := Store.loadFromDisk_new x.toExt [f] ⟨some (writeSnapshot [noteWith raw]), none, some []⟩
    rw [hrecs, hrecover, if_pos (by simp)] at hload
    have hreplay := Store.replayFiles_zero x.toExt ⟨some (writeSnapshot [noteWith raw]), none, some []⟩
    rw [hrecs, hrecover] at hreplay
    unfold step
    show (Store.replayFiles x.toExt 0 .new ⟨some (writeSnapshot [noteWith raw]), none, some []⟩).bind _ = _
    rw [hreplay]
    show (if [f].Perm (Index.new.insert f).2.iterAll then
      ((Store.new ⟨some (writeSnapshot [noteWith raw]), none, some []⟩).loadFromDisk x.toExt 0 [f]).bind _
        else none) = _
    rw [hlive, if_pos (List.Perm.refl _), hload]
    rfl
  refine (Machine.run_cons_eq_some _).2 ⟨_, h₁, ?_⟩
  rw [show [Turn.rename, .reopen, .collect [noteWith raw], .renameSnapshot, .removeOld true, .restart 0 [f]] =
    [.rename, .reopen] ++ [.collect [noteWith raw], .renameSnapshot, .removeOld true, .restart 0 [f]] from rfl,
    Machine.run_append, h₂, Option.bind_some]
  refine (Machine.run_cons_eq_some _).2 ⟨_, h₃ _ rfl, ?_⟩
  refine (Machine.run_cons_eq_some _).2 ⟨_, rfl, ?_⟩
  refine (Machine.run_cons_eq_some _).2 ⟨_, rfl, ?_⟩
  refine (Machine.run_cons_eq_some _).2 ⟨_, h₄ _ _ _ _, rfl⟩

theorem authentic_note :
    ∃ s, Machine.run (step (serdeOf noteExt)) Sys.init (frameAndRestart (note 0).raw (note 0)) = some s ∧
      s.store.index.byId.lookup (note 0).id = some (note 0) ∧ Authentic noteExt s.store.index := by
  have hframe : NostrMessage.fromJson (serdeOf noteExt) (note 0).frame = .ok (.event none (note 0)) :=
    fromJson_frame (by simp) (by simp) (by simp)
  have hsnap : snapshotEvents noteExt (writeSnapshot [note 0]) = [note 0] :=
    snapshotEvents_writeSnapshot fun e he => by
      rw [List.mem_singleton.1 he]
      exact note_readable.restorable
  have hlen : (note 0).frame.length ≤ maxMessageBytes := by
    rw [Event.length_frame, length_raw_note]
    decide
  have hrun := @run_frameAndRestart (serdeOf noteExt) (note 0).raw (note 0) hframe hlen hsnap rfl
  refine ⟨_, hrun, (lookup_note _ _).2 ⟨rfl, rfl⟩, authentic (slices_known [note 0] []) hrun ?_⟩
  refine ⟨fun subId ev hev => ?_, fun _ _ => ⟨trivial, fun _ _ => ⟨trivial, fun _ _ => ⟨trivial, fun _ _ =>
    ⟨trivial, fun _ _ => ⟨trivial, fun _ _ => ⟨trivial, fun _ _ => trivial⟩⟩⟩⟩⟩⟩⟩
  have hev' := hframe.symm.trans hev
  cases hev'
  exact linesVerified_of_oneLine note_readable.restorable.2.1 (fromJson_known_self (note 0))

/-- An event with the right hash and no signature. -/
def forged : Event :=
  Event.compact 0xb92cce83fc13a0edb23ad5216a9fad55148314f275a38508df5e635412d29c5c
    0x5cbdf0646e5db4eaa398f365f2ea7a0e3d419b7e0330e39ce92bddedcac4f9bc 1700000001 1 [] "forged".toList 0

/-- The text before the forged event: the note, and one more field. -/
def hidingHead : Bytes := (note 0).raw.dropLast ++ ascii ",\"x\":["

/-- The note with one more field, in which the forged event stands on a line of its own. -/
def hidingRaw : Bytes := hidingHead ++ [10] ++ forged.raw ++ [10] ++ ascii "]\x7d"

theorem length_raw_forged : forged.raw.length = 348 := Event.length_compactJson ..

theorem length_hidingHead : hidingHead.length = 349 := by
  have htail : (ascii ",\"x\":[").length = 6 := rfl
  unfold hidingHead
  rw [List.length_append, List.length_dropLast, length_raw_note, htail]

theorem length_hidingRaw : hidingRaw.length = 701 := by
  unfold hidingRaw
  simp only [List.length_append, length_hidingHead, length_raw_forged]
  rfl

def hidingExt : Ext := Ext.known [noteWith hidingRaw] [forged]

theorem lines_hiding : lines (writeSnapshot [noteWith hidingRaw]) = [hidingHead, forged.raw, ascii "]\x7d"] := by
  have hwrite : writeSnapshot [noteWith hidingRaw] = Lines.write [hidingHead, forged.raw, ascii "]\x7d"] := by
    simp [writeSnapshot, Lines.write, noteWith, hidingRaw]
  rw [hwrite]
  refine Lines.lines_write ?_
  simp only [List.forall_mem_cons, List.not_mem_nil, false_implies, implies_true, and_true]
  have hhead : Event.Printable hidingHead :=
    .append (fun b hb => printable_raw_note 0 b (List.mem_of_mem_dropLast hb)) (Event.printable_of_all rfl)
  have hforged : Event.Printable forged.raw :=
    Event.printable_compactJson _ _ _ _ _ (Event.printable_of_all rfl) (Event.printable_of_all rfl)
  exact ⟨Lines.oneLine_of_printable hhead, Lines.oneLine_of_printable hforged, by decide⟩

/-- The two known texts differ from each other and from the lines around the forged one. -/
theorem raw_ne_hiding : forged.raw ≠ hidingRaw ∧ forged.raw ≠ hidingHead ∧ hidingRaw ≠ hidingHead := by
  refine ⟨fun h => ?_, fun h => ?_, fun h => ?_⟩ <;> have hlen := congrArg List.length h
  · rw [length_raw_forged, length_hidingRaw] at hlen
    cases hlen
  · rw [length_raw_forged, length_hidingHead] at hlen
    cases hlen
  · rw [length_hidingRaw, length_hidingHead] at hlen
    cases hlen

/-- Of three lines the middle one parses. -/
theorem filterMap_middle {α ε β : Type} {g : α → Except ε β} {a b c : α} {y : β} {ea ec : ε}
    (ha : g a = .error ea) (hb : g b = .ok y) (hc : g c = .error ec) :
    [a, b, c].filterMap (fun l => (g l).toOption) = [y] := by
  simp only [List.filterMap_cons, List.filterMap_nil, ha, hb, hc, Except.toOption]

theorem snapshotEvents_hiding : snapshotEvents hidingExt (writeSnapshot [noteWith hidingRaw]) = [forged] := by
  obtain ⟨h₁, h₂, h₃⟩ := raw_ne_hiding
  have hhead : Event.fromJsonUnchecked hidingExt hidingHead = .error (.json []) :=
    fromJsonUnchecked_unknown (by simpa [noteWith] using ⟨h₃, h₂⟩)
  have htail : Event.fromJsonUnchecked hidingExt (ascii "]\x7d") = .error (.json []) := by
    refine fromJsonUnchecked_unknown fun e he h => ?_
    have hlong : 2 < e.raw.length := by
      have hcases : e = noteWith hidingRaw ∨ e = forged := by simpa using he
      rcases hcases with rfl | rfl
      · show 2 < hidingRaw.length
        rw [length_hidingRaw]
        decide
      · rw [length_raw_forged]
        decide
    rw [h] at hlong
    exact absurd hlong (by decide)
  have hforged : Event.fromJsonUnchecked hidingExt forged.raw = .ok forged :=
    fromJsonUnchecked_known (by simp) (by simpa [noteWith] using fun h => absurd h.symm h₁)
  have hkept : [hidingHead, forged.raw, ascii "]\x7d"].filter (fun l => !l.isEmpty) =
      [hidingHead, forged.raw, ascii "]\x7d"] := rfl
  unfold snapshotEvents
  rw [lines_hiding, hkept]
  exact filterMap_middle hhead hforged htail

/-- The checkpoint puts the forged event on a line of its own, and the restart loads it. -/
theorem hidden_accepted :
    Slices (serdeOf hidingExt) ∧
      ∃ s, Machine.run (step (serdeOf hidingExt)) Sys.init (frameAndRestart hidingRaw forged) = some s ∧
        s.store.index.byId.lookup forged.id = some forged ∧ ¬ Authentic hidingExt s.store.index := by
  have hframe : NostrMessage.fromJson (serdeOf hidingExt) (noteWith hidingRaw).frame =
      .ok (.event none (noteWith hidingRaw)) := by
    refine fromJson_frame (by simp) ?_ ?_
    · simpa [noteWith] using fun h => absurd h raw_ne_hiding.1
    · have hne : forged.serialised ≠ (note 0).serialised := by decide +kernel
      have hsame : (noteWith hidingRaw).serialised = (note 0).serialised := by
        simp only [Event.serialised, Event.toRaw, noteWith]
      simpa [hsame] using fun h => absurd h hne
  have hlen : (noteWith hidingRaw).frame.length ≤ maxMessageBytes := by
    rw [Event.length_frame, show (noteWith hidingRaw).raw.length = 701 from length_hidingRaw]
    decide
  have hrun := @run_frameAndRestart (serdeOf hidingExt) hidingRaw forged hframe hlen snapshotEvents_hiding rfl
  have hlive : (Index.new.insert forged).2.byId.lookup forged.id = some forged :=
    ((separate_singleton forged).holds_foldl forged.id forged).2 ⟨by simp, rfl⟩
  refine ⟨slices_known _ _, _, hrun, hlive, fun hall => ?_⟩
  obtain ⟨-, -, -, -, -, -, -, hsig⟩ := Event.fromJson_eq_ok_iff.1 (hall forged.id forged hlive)
  have hno : hidingExt.verifySchnorr forged.sig forged.id forged.pubkey = false := by decide +kernel
  rw [hno] at hsig
  cases hsig

end Relay
end Memlay
