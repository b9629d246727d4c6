import Memlay.Eviction
import Memlay.LogSize

/-!
# The persistence task (`src/store/mod.rs`, `maybe_checkpoint`)

Each round of the task looks at the size of the log.  A log that has reached twice the
live data, and 64 MiB, is folded into a snapshot; a smaller one is only synced.  Over
every run of operations, evictions and rounds,

    after a round the log is smaller than max(64 MiB, 2 · live)
    all snapshots together are no larger than what has been logged
    there is at most one snapshot for each 64 MiB that have been logged

(`run_upkeep`), so the rounds bound the log and at most double what is written to disk.
-/

namespace Memlay

def minCheckpointBytes : Nat := 64 * 1024 * 1024

namespace Store

/-- The size of `wal.log`. -/
def logLength (st : Store) : Nat := (st.files.wal.getD []).length

/-- The counter of the log, which is its size (`LogSize.run_pendingBytes`). -/
def pendingBytes (st : Store) : BitVec 64 := BitVec.ofNat 64 st.logLength

/-- Twice the live bytes, saturating, and no less than the minimum. -/
def checkpointThreshold (st : Store) : Nat :=
  max minCheckpointBytes (min (2 ^ 64 - 1) (st.index.memoryBytes.toNat * 2))

def checkpointDue (st : Store) : Bool := decide (st.checkpointThreshold ≤ st.pendingBytes.toNat)

/-- A round of the persistence task; `es` is the order in which `iter_all` gives the live
events.  A sync changes no file. -/
def maybeCheckpoint (st : Store) (es : List Event) : Store :=
  if st.checkpointDue then (st.checkpoint es).getD st else st

end Store

namespace Upkeep

open Index (Agree Kept Balanced Inserts Exact)
open Wal (encodeOp encodeAll)

inductive Turn where
  | insert (e : Event)
  | insertBatch (es : List Event)
  | applyDeletion (ids : List Bytes32) (coordinates : List Coordinate) (author : Bytes32) (until_ : Nat)
  | maybeEvict (processMem amplification : Usize)
  | maybeCheckpoint (es : List Event)

/-- The store, and what has been written so far. -/
structure Tally where
  store : Store
  /-- bytes appended to the log -/
  logged : Nat
  /-- bytes of the snapshots -/
  rewritten : Nat
  snapshots : Nat

def Tally.start : Tally := ⟨.new ⟨none, none, none⟩, 0, 0, 0⟩

/-- After an operation, which appends to the log. -/
def Tally.after (t : Tally) (st : Store) : Tally :=
  { t with store := st, logged := t.logged + (st.logLength - t.store.logLength) }

def step (maxBytes : Usize) (t : Tally) : Turn → Option Tally
  | .insert e => some (t.after (t.store.insert e).2)
  | .insertBatch es => some (t.after (t.store.insertBatch es).2)
  | .applyDeletion ids coordinates author until_ =>
    some (t.after (t.store.applyDeletion ids coordinates author until_).2)
  | .maybeEvict processMem amplification =>
    some (t.after { t.store with index := t.store.index.maybeEvict maxBytes processMem amplification })
  | .maybeCheckpoint es =>
    if t.store.checkpointDue then
      if es.Perm t.store.index.iterAll then some { t with
        store := t.store.maybeCheckpoint es
        rewritten := t.rewritten + (writeSnapshot es).length
        snapshots := t.snapshots + 1 }
      else none
    else some { t with store := t.store.maybeCheckpoint es }

/-- The events given to the run. -/
def Given (turns : List Turn) (e : Event) : Prop := .insert e ∈ turns ∨ ∃ es, .insertBatch es ∈ turns ∧ e ∈ es

theorem Given.mono {turns more : List Turn} {e : Event} (h : Given turns e) (hsub : turns ⊆ more) : Given more e :=
  h.imp (fun he => hsub he) fun ⟨es, hes, he⟩ => ⟨es, hsub hes, he⟩

/-! ## What an operation does -/

/-- The store has its log open, and its counters are right. -/
structure Sound (E : Event → Prop) (st : Store) : Prop where
  kept : Kept E st.index
  balanced : Balanced st.index
  handle : st.handle = .wal
  log : ∃ bytes, st.files.wal = some bytes

/-- The log has grown, and by no less than the live events. -/
structure Logs (E : Event → Prop) (st st' : Store) : Prop where
  sound : Sound E st'
  log : st.logLength ≤ st'.logLength
  live : st'.index.liveBytes + st.logLength ≤ st.index.liveBytes + st'.logLength

section
variable {E : Event → Prop} {st st' st'' : Store}

theorem Sound.refl (h : Sound E st) : Logs E st st := ⟨h, Nat.le_refl _, Nat.le_refl _⟩

theorem Logs.trans (h : Logs E st st') (h' : Logs E st' st'') : Logs E st st'' := by
  refine ⟨h'.sound, h.log.trans h'.log, ?_⟩
  have hlive := h.live
  have hlive' := h'.live
  omega

/-- The index changes, and records are appended. -/
theorem Sound.logs (h : Sound E st) {s : Index} (hk : Kept E s) (hb : Balanced s) (ops : List WalOp)
    (hlive : s.liveBytes ≤ st.index.liveBytes + (encodeAll ops).length) :
    Logs E st (ops.foldl Store.append { st with index := s }) := by
  obtain ⟨bytes, hbytes⟩ := h.log
  have hfold : ∀ (ops : List WalOp) (bytes : Bytes), ops.foldl Store.append
      { st with index := s, files := { st.files with wal := some bytes } } =
        { st with index := s, files := { st.files with wal := some (bytes ++ encodeAll ops) } } := by
    intro ops
    induction ops with
    | nil =>
      intro bytes
      show _ = ({ st with index := s, files := { st.files with wal := some (bytes ++ []) } } : Store)
      rw [List.append_nil]
      rfl
    | cons op ops ih =>
      intro bytes
      have hone : Store.append { st with index := s, files := { st.files with wal := some bytes } } op =
          { st with index := s, files := { st.files with wal := some (bytes ++ encodeOp op) } } := by
        unfold Store.append Files.append
        simp only [h.handle, Option.getD_some]
      rw [List.foldl_cons, hone, ih, Wal.encodeAll_cons, List.append_assoc]
  have hst : ({ st with index := s } : Store) =
      { st with index := s, files := { st.files with wal := some bytes } } := by
    rw [← hbytes]
  have hlen : st.logLength = bytes.length := by
    unfold Store.logLength
    rw [hbytes]
    rfl
  rw [hst, hfold]
  refine ⟨⟨hk, hb, h.handle, _, rfl⟩, ?_, ?_⟩
  · rw [hlen]
    show bytes.length ≤ (bytes ++ encodeAll ops).length
    rw [List.length_append]
    exact Nat.le_add_right _ _
  · rw [hlen]
    show s.liveBytes + bytes.length ≤ st.index.liveBytes + (bytes ++ encodeAll ops).length
    rw [List.length_append]
    omega

theorem liveBytes_without {s : Index} {x : Event} (h : s.byId.lookup x.id = some x) :
    (s.without x).liveBytes + x.raw.length = s.liveBytes := by
  rw [Nat.add_comm]
  exact Table.total_erase (fun e : Event => e.raw.length) h

theorem liveBytes_stored {s : Index} {e : Event} (h : s.byId.lookup e.id = none) :
    (s.stored e).liveBytes = e.raw.length + s.liveBytes :=
      Table.total_insert_of_none (fun e : Event => e.raw.length) e h

theorem liveBytes_withSlot (s : Index) (e : Event) : (s.withSlot e).liveBytes = s.liveBytes := by
  unfold Index.liveBytes
  rw [Index.withSlot_byId]

theorem liveBytes_internalRemove {s : Index} (h : Kept E s) (id : Bytes32) (skip : Bool) :
    (s.internalRemove id skip).2.liveBytes ≤ s.liveBytes := by
  rcases h.inv.internalRemove_eq id skip with ⟨-, he⟩ | ⟨x, rfl, hx, he⟩
  · rw [he]
  · have hone := liveBytes_without hx
    rw [he]
    simp only
    split
    · show (s.without x).liveBytes ≤ s.liveBytes
      omega
    · omega

/-- The records of an insert. -/
def records (e : Event) : InsertOutcome → List WalOp
  | .inserted replaced => .insert e.raw :: replaced.toList.map fun old => .delete old.id
  | _ => []

/-- A spelling of the event that is stored has as many bytes. -/
def SameLength (E : Event → Prop) : Prop := ∀ a b, E a → E b → a.id = b.id → a.raw.length = b.raw.length

theorem length_records (e : Event) (replaced : Option Event) :
    e.raw.length ≤ (encodeAll (records e (.inserted replaced))).length := by
  show _ ≤ (encodeAll (.insert e.raw :: _)).length
  rw [Wal.encodeAll_cons, List.length_append, LogSize.length_encodeOp]
  show _ ≤ 1 + (4 + e.raw.length) + _
  omega

/-- An insert logs the bytes that it adds. -/
theorem liveBytes_inserts {s s' : Index} {e : Event} {out : InsertOutcome} (hc : Inserts s e out s')
    (hlen : ∀ old, s.byId.lookup e.id = some old → e.raw.length = old.raw.length) :
    s'.liveBytes ≤ s.liveBytes + (encodeAll (records e out)).length := by
  cases hc with
  | deleted | lostRace => exact Nat.le_add_right _ _
  | duplicate old _ _ hl =>
    have hsum := Table.total_insert_of_some (fun e : Event => e.raw.length) e hl
    rw [hlen old hl] at hsum
    exact (Nat.add_left_cancel hsum).le.trans (Nat.le_add_right _ _)
  | fresh _ hl =>
    have hrec := length_records e none
    rw [liveBytes_stored (by rw [Index.withSlot_byId]; exact hl), liveBytes_withSlot]
    omega
  | replaced old _ _ hl ho =>
    have hrec := length_records e (some old)
    have hold := liveBytes_without ho
    have hnone : ((s.withSlot e).without old).byId.lookup e.id = none := by
      rw [Index.without_lookup, Index.withSlot_byId, hl]
      split <;> rfl
    rw [liveBytes_stored hnone, Index.withSlot_without, liveBytes_withSlot]
    omega

theorem Sound.inserts (h : Sound E st) (hA : Agree E) (hlen : SameLength E) {e : Event} (hE : E e) :
    Logs E st ((records e (st.index.insert e).1).foldl Store.append
        { st with index := (st.index.insert e).2 }) := by
  have hc := Index.insert_cases h.kept.inv hA hE
  have hsame : ∀ old, st.index.byId.lookup e.id = some old → e.raw.length = old.raw.length := by
    intro old hold
    obtain ⟨hold', hid⟩ := h.kept.inv.mem _ _ hold
    exact hlen e old hE hold' hid.symm
  exact h.logs (h.kept.insert hA hE) (hc.balanced h.balanced fun _ => hsame) _ (liveBytes_inserts hc hsame)

theorem Sound.insert (h : Sound E st) (hA : Agree E) (hlen : SameLength E) {e : Event} (hE : E e) :
    Logs E st (st.insert e).2 := by
  have hins := h.inserts hA hlen hE
  unfold Store.insert
  split
  · exact h.refl
  · generalize st.index.insert e = r at hins
    obtain ⟨out, s⟩ := r
    cases out with
    | inserted replaced => cases replaced <;> exact hins
    | duplicate | deleted | lostRace => exact hins

/-- A new event that replaces none is stored, and its record logged. -/
theorem Sound.insert_fresh (h : Sound E st) (hA : Agree E) {e : Event} (hE : E e) (hkind : e.isEphemeral = false)
    (hplain : e.isReplaceable = false) (htomb : e.id ∉ st.index.tombstones.ids)
    (hnone : st.index.byId.lookup e.id = none) : (st.insert e).1 = .stored e [] ∧
      (st.insert e).2.index = st.index.stored e ∧
      (st.insert e).2.logLength = st.logLength + (5 + e.raw.length) := by
  obtain ⟨bytes, hbytes⟩ := h.log
  have hslot : st.index.withSlot e = st.index := by
    unfold Index.withSlot
    rw [hplain]
    rfl
  have hins : st.index.insert e = (.inserted none, st.index.stored e) := by
    have hc := Index.insert_cases h.kept.inv hA hE
    generalize st.index.insert e = r at hc
    obtain ⟨out, s⟩ := r
    cases hc with
    | deleted ht => exact absurd ht htomb
    | lostRace old hr | replaced old ht hr =>
      rw [hplain] at hr
      cases hr
    | duplicate old ht hr hl =>
      rw [hnone] at hl
      cases hl
    | fresh =>
      rw [hslot]
      rfl
  have hinsert : st.insert e = (.stored e [], { st with index := st.index.stored e }.append (.insert e.raw)) := by
    unfold Store.insert
    rw [hkind, hins]
    rfl
  rw [hinsert]
  refine ⟨rfl, rfl, ?_⟩
  simp only [Store.logLength, Store.append, h.handle, Files.append, hbytes, Option.getD_some, List.length_append,
    LogSize.length_encodeOp]
  show bytes.length + (1 + (4 + e.raw.length)) = _
  omega

theorem Sound.batchEvent (h : Sound E st) (hA : Agree E) (hlen : SameLength E) {e : Event} (hE : E e)
    (counts : Nat × List Event) : Logs E st (Store.batchEvent (counts, st) e).2 := by
  have hins := h.inserts hA hlen hE
  unfold Store.batchEvent
  simp only
  split
  · exact h.refl
  · generalize st.index.insert e = r at hins
    obtain ⟨out, s⟩ := r
    cases out with
    | inserted replaced => cases replaced <;> exact hins
    | duplicate | deleted | lostRace => exact hins

theorem Sound.insertBatch (h : Sound E st) (hA : Agree E) (hlen : SameLength E) {es : List Event}
    (hE : ∀ e ∈ es, E e) :
    Logs E st (st.insertBatch es).2 := by
  have hgen : ∀ (es : List Event), (∀ e ∈ es, E e) → ∀ p : (Nat × List Event) × Store, Logs E st p.2 →
      Logs E st (es.foldl Store.batchEvent p).2 := by
    intro es
    induction es with
    | nil => exact fun _ p hp => hp
    | cons e es ih =>
      intro hes p hp
      exact ih (fun a ha => hes a (List.mem_cons_of_mem e ha)) _
        (hp.trans (hp.sound.batchEvent hA hlen (hes e List.mem_cons_self) p.1))
  exact hgen es hE ((0, []), st) h.refl

theorem Sound.deleteTarget (h : Sound E st) (hA : Agree E) (out : DeletionOutcome) (id : Bytes32) :
    Logs E st (Store.deleteTarget (out, st) id).2 := by
  have hbalanced := h.balanced.internalRemove h.kept.inv id false
  exact h.logs (h.kept.deleteById hA id) ⟨hbalanced.memory, hbalanced.count⟩ [.tombstone id]
    ((liveBytes_internalRemove h.kept id false).trans (Nat.le_add_right _ _))

theorem Sound.applyDeletion (h : Sound E st) (hA : Agree E) (ids : List Bytes32) (coordinates : List Coordinate)
    (author : Bytes32) (until_ : Nat) : Logs E st (st.applyDeletion ids coordinates author until_).2 :=
  Store.applyDeletion_invariant (P := fun st' => Logs E st st')
    (fun out _ id _ hst _ => hst.trans (hst.sound.deleteTarget hA out id)) ids coordinates author until_ h.refl

theorem Sound.maybeEvict (h : Sound E st) (hA : Agree E) (maxBytes processMem amplification : Usize) :
    Logs E st { st with index := st.index.maybeEvict maxBytes processMem amplification } := by
  obtain ⟨hk, hb, hlive⟩ := Index.maybeEvict_keeps
    (P := fun s => Kept E s ∧ Balanced s ∧ s.liveBytes ≤ st.index.liveBytes)
    (fun s id hs => ⟨hs.1.remove hA id, hs.2.1.internalRemove hs.1.inv id true,
      (liveBytes_internalRemove hs.1 id true).trans hs.2.2⟩)
    ⟨h.kept, h.balanced, Nat.le_refl _⟩ maxBytes processMem amplification
  exact h.logs hk hb [] hlive

end

/-! ## What a round does -/

section
variable {E : Event → Prop} {st : Store}

/-- While they fit a word, the counters are the sizes. -/
theorem Sound.exact (h : Sound E st) (hfits : st.index.liveBytes < 2 ^ 64) : Exact E st.index :=
  ⟨h.kept.inv, h.balanced, hfits⟩

theorem pendingBytes_toNat (hfits : st.logLength < 2 ^ 64) : st.pendingBytes.toNat = st.logLength := by
  unfold Store.pendingBytes
  rw [BitVec.toNat_ofNat, Nat.mod_eq_of_lt hfits]

/-- A checkpoint is due exactly when the log has reached the threshold. -/
theorem Sound.checkpointDue_iff (h : Sound E st) (hlive : st.index.liveBytes < 2 ^ 64)
    (hlog : st.logLength < 2 ^ 64 - 1) :
    st.checkpointDue = true ↔ max minCheckpointBytes (2 * st.index.liveBytes) ≤ st.logLength := by
  unfold Store.checkpointDue Store.checkpointThreshold
  rw [decide_eq_true_iff, pendingBytes_toNat (by omega), (h.exact hlive).memoryBytes]
  omega

theorem length_writeSnapshot {es : List Event} (hraw : ∀ e ∈ es, e.raw ≠ []) :
    (writeSnapshot es).length ≤ 2 * (es.map fun e => e.raw.length).sum := by
  unfold writeSnapshot
  induction es with
  | nil => exact Nat.le_refl _
  | cons e es ih =>
    have hone := List.length_pos_iff.2 (hraw e List.mem_cons_self)
    have hrest := ih fun a ha => hraw a (List.mem_cons_of_mem e ha)
    simp only [List.map_cons, List.flatten_cons, List.length_append, List.sum_cons,
        List.length_singleton] at hrest ⊢
    omega

/-- A snapshot is no larger than twice the live events. -/
theorem Sound.length_snapshot (h : Sound E st) (hraw : ∀ e, E e → e.raw ≠ []) {es : List Event}
    (hes : es.Perm st.index.iterAll) : (writeSnapshot es).length ≤ 2 * st.index.liveBytes := by
  have hmem : ∀ e ∈ es, e.raw ≠ [] := by
    intro e he
    obtain ⟨id, hid⟩ := Table.mem_values_iff.1 (hes.mem_iff.1 he)
    exact hraw e (h.kept.inv.mem id e hid).1
  have hsum : (es.map fun e => e.raw.length).sum = st.index.liveBytes := (hes.map _).sum_eq
  rw [← hsum]
  exact length_writeSnapshot hmem

/-- A checkpoint empties the log. -/
theorem Sound.checkpoint (h : Sound E st) (es : List Event) :
    Sound E ((st.checkpoint es).getD st) ∧ ((st.checkpoint es).getD st).logLength = 0 ∧
      ((st.checkpoint es).getD st).index = st.index := by
  obtain ⟨bytes, hbytes⟩ := h.log
  have hsome : st.checkpoint es = some ((({ st with
      files := { st.files with walOld := some bytes, wal := none }
      handle := .old }.openWal).putSnapshot es).removeOld) := by
    unfold Store.checkpoint Store.renameWal
    rw [hbytes]
    rfl
  rw [hsome, Option.getD_some]
  exact ⟨⟨h.kept, h.balanced, rfl, [], rfl⟩, rfl, rfl⟩

end

/-! ## Runs -/

/-- What is live, and what has been rewritten, has been logged before; what the log
still holds has paid for nothing yet. -/
structure Good (E : Event → Prop) (t : Tally) : Prop where
  sound : Sound E t.store
  live : t.store.index.liveBytes ≤ t.logged
  rewritten : t.rewritten + t.store.logLength ≤ t.logged
  snapshots : minCheckpointBytes * t.snapshots + t.store.logLength ≤ t.logged

theorem good_start (E : Event → Prop) : Good E .start where
  sound := ⟨Index.kept_new E, ⟨rfl, rfl⟩, rfl, [], rfl⟩
  live := Nat.le_refl 0
  rewritten := Nat.le_refl 0
  snapshots := Nat.le_refl 0

section
variable {E : Event → Prop} {t t' : Tally} {maxBytes : Usize} {es : List Event} {turn : Turn}

theorem Good.after (h : Good E t) {st : Store} (hlogs : Logs E t.store st) : Good E (t.after st) := by
  have hlog := hlogs.log
  have hlive := hlogs.live
  have hlive' := h.live
  have hrewritten := h.rewritten
  have hsnapshots := h.snapshots
  refine ⟨hlogs.sound, ?_, ?_, ?_⟩
  · show st.index.liveBytes ≤ t.logged + (st.logLength - t.store.logLength)
    omega
  · show t.rewritten + st.logLength ≤ t.logged + (st.logLength - t.store.logLength)
    omega
  · show minCheckpointBytes * t.snapshots + st.logLength ≤ t.logged + (st.logLength - t.store.logLength)
    omega

theorem Good.exact (h : Good E t) (hfits : t.logged < 2 ^ 64 - 1) : Exact E t.store.index := by
  have hlive := h.live
  exact h.sound.exact (by omega)

theorem Good.checkpointDue_iff (h : Good E t) (hfits : t.logged < 2 ^ 64 - 1) :
    t.store.checkpointDue = true ↔ max minCheckpointBytes (2 * t.store.index.liveBytes) ≤ t.store.logLength := by
  have hlive := h.live
  have hrewritten := h.rewritten
  exact h.sound.checkpointDue_iff (by omega) (by omega)

/-- A snapshot is paid for by the log that it empties. -/
theorem Good.maybeCheckpoint (h : Good E t) (hraw : ∀ e, E e → e.raw ≠ []) (hfits : t.logged < 2 ^ 64 - 1)
    (hs : step maxBytes t (.maybeCheckpoint es) = some t') :
    Good E t' ∧ t'.store.logLength < max minCheckpointBytes (2 * t'.store.index.liveBytes) := by
  have hdue := h.checkpointDue_iff hfits
  simp only [step] at hs
  split at hs
  · rename_i hd
    split at hs
    · rename_i hes
      cases hs
      obtain ⟨hsound, hlog, hindex⟩ := h.sound.checkpoint es
      have hsize := h.sound.length_snapshot hraw hes
      have hpaid := hdue.1 hd
      have hlive := h.live
      have hrewritten := h.rewritten
      have hsnapshots := h.snapshots
      have hstore : t.store.maybeCheckpoint es = (t.store.checkpoint es).getD t.store := if_pos hd
      refine ⟨⟨?_, ?_, ?_, ?_⟩, ?_⟩
      all_goals simp only [hstore, hlog, hindex]
      · exact hsound
      · exact hlive
      · omega
      · rw [Nat.mul_add_one]
        omega
      · exact lt_max_of_lt_left (by decide)
    · cases hs
  · rename_i hd
    cases hs
    have hstore : t.store.maybeCheckpoint es = t.store := if_neg hd
    simp only [hstore]
    exact ⟨⟨h.sound, h.live, h.rewritten, h.snapshots⟩, Nat.lt_of_not_le fun hle => hd (hdue.2 hle)⟩

theorem step_logged (hs : step maxBytes t turn = some t') : t.logged ≤ t'.logged := by
  cases turn with
  | insert | insertBatch | applyDeletion | maybeEvict =>
    cases hs
    exact Nat.le_add_right _ _
  | maybeCheckpoint es =>
    simp only [step] at hs
    split at hs
    · split at hs
      · cases hs
        exact Nat.le_refl _
      · cases hs
    · cases hs
      exact Nat.le_refl _

theorem Good.step (h : Good E t) (hA : Agree E) (hlen : SameLength E) (hraw : ∀ e, E e → e.raw ≠ [])
    (hfits : t.logged < 2 ^ 64 - 1) (hE : ∀ e, Given [turn] e → E e) (hs : step maxBytes t turn = some t') :
    Good E t' := by
  cases turn with
  | insert e =>
    cases hs
    exact h.after (h.sound.insert hA hlen (hE e (.inl List.mem_cons_self)))
  | insertBatch es =>
    cases hs
    exact h.after (h.sound.insertBatch hA hlen fun e he => hE e (.inr ⟨es, List.mem_cons_self, he⟩))
  | applyDeletion ids coordinates author until_ =>
    cases hs
    exact h.after (h.sound.applyDeletion hA ids coordinates author until_)
  | maybeEvict processMem amplification =>
    cases hs
    exact h.after (h.sound.maybeEvict hA maxBytes processMem amplification)
  | maybeCheckpoint es => exact (h.maybeCheckpoint hraw hfits hs).1

end

section
variable {maxBytes : Usize} {turns : List Turn} {t : Tally}

/-- What has been logged only grows, so a run that ends below `2 ^ 64 - 1` has been
below it all along. -/
theorem run_good (hA : Agree (Given turns)) (hlen : SameLength (Given turns))
    (hraw : ∀ e, Given turns e → e.raw ≠ []) (hrun : Machine.run (step maxBytes) .start turns = some t)
    (hfits : t.logged < 2 ^ 64 - 1) : Good (Given turns) t := by
  refine Machine.run_invariant_mem (I := fun t => t.logged < 2 ^ 64 - 1 → Good (Given turns) t) ?_ hrun
    (fun _ => good_start _) hfits
  intro t turn t' hs hturn hgood hfits'
  have hlogged := step_logged hs
  exact (hgood (by omega)).step hA hlen hraw (by omega) (fun e he => he.mono (by simpa using hturn)) hs

/-- In every run that logs less than `2 ^ 64 - 1` bytes, whose events have one length
for each id, all snapshots together are no larger than what has been logged, there is at
most one for each 64 MiB, and a round leaves a log smaller than twice the live events or
64 MiB. -/
theorem run_upkeep (hA : Agree (Given turns)) (hlen : SameLength (Given turns))
    (hraw : ∀ e, Given turns e → e.raw ≠ []) (hrun : Machine.run (step maxBytes) .start turns = some t)
    (hfits : t.logged < 2 ^ 64 - 1) :
    t.rewritten + t.store.logLength ≤ t.logged ∧ minCheckpointBytes * t.snapshots + t.store.logLength ≤ t.logged ∧
      ∀ es t', step maxBytes t (.maybeCheckpoint es) = some t' →
        t'.store.logLength < max minCheckpointBytes (2 * t'.store.index.liveBytes) := by
  have hgood := run_good hA hlen hraw hrun hfits
  exact ⟨hgood.rewritten, hgood.snapshots, fun es t' hs => (hgood.maybeCheckpoint hraw hfits hs).2⟩

end

/-! ## A note that comes again and again -/

/-- A note is stored under a limit of one byte and evicted, `n` times. -/
def churn (n : Nat) : List Turn := (List.replicate n [.insert (note 0), .maybeEvict 2 1000]).flatten

/-- After `n` times: nothing is live, and the log has the records. -/
structure Churned (n : Nat) (t : Tally) : Prop where
  good : Good (· = note 0) t
  empty : t.store.index.liveCount = 0
  tombs : t.store.index.tombstones.ids = ∅
  log : t.store.logLength = 349 * n
  logged : t.logged = 349 * n
  rewritten : t.rewritten = 0
  snapshots : t.snapshots = 0

/-- Of events that are all one note. -/
theorem only_note {E : Event → Prop} (h : ∀ e, E e → e = note 0) :
    Agree E ∧ SameLength E ∧ ∀ e, E e → e.raw ≠ [] := by
  refine ⟨fun a b ha hb _ => ?_, fun a b ha hb _ => ?_, fun e he => ?_⟩
  · rw [h a ha, h b hb]
    exact ⟨rfl, rfl, rfl, rfl, rfl⟩
  · rw [h a ha, h b hb]
  · rw [h e he]
    decide

section
variable {n : Nat} {t : Tally}

/-- The note is stored. -/
theorem Churned.insert (h : Churned n t) : Good (· = note 0) (t.after (t.store.insert (note 0)).2) ∧
    (t.store.insert (note 0)).2.index.iterAll = [note 0] ∧ (t.store.insert (note 0)).2.index.tombstones.ids = ∅ ∧
      (t.store.insert (note 0)).2.logLength = 349 * (n + 1) ∧
      (t.after (t.store.insert (note 0)).2).logged = 349 * (n + 1) := by
  obtain ⟨hA, hlen, -⟩ := only_note (E := (· = note 0)) fun e he => he
  have hvalues : t.store.index.byId.values = [] := by
    have hcount := h.empty
    rw [Index.liveCount_eq, List.length_eq_zero_iff] at hcount
    exact hcount
  have hnone : t.store.index.byId.lookup (note 0).id = none := by
    cases hl : t.store.index.byId.lookup (note 0).id with
    | none => rfl
    | some e =>
      have hmem := Table.mem_values_iff.2 ⟨_, hl⟩
      rw [hvalues] at hmem
      cases hmem
  obtain ⟨-, hindex, hlog⟩ := h.good.sound.insert_fresh hA rfl (by decide) (by decide)
    (by rw [h.tombs]; exact Finset.notMem_empty _) hnone
  have hlength : (t.store.insert (note 0)).2.logLength = 349 * (n + 1) := by
    rw [hlog, h.log, length_raw_note]
    omega
  refine ⟨h.good.after (h.good.sound.insert hA hlen rfl), ?_, ?_, hlength, ?_⟩
  · rw [hindex]
    show Table.values (t.store.index.byId.insert (note 0).id (note 0)) = [note 0]
    unfold Table.values at hvalues ⊢
    rw [AList.entries_insert_of_notMem (AList.lookup_eq_none.1 hnone), List.map_cons, hvalues]
  · rw [hindex]
    exact h.tombs
  · show t.logged + ((t.store.insert (note 0)).2.logLength - t.store.logLength) = 349 * (n + 1)
    rw [hlength, h.logged, h.log]
    omega

/-- And evicted, for the process is over its limit. -/
theorem Churned.again (h : Churned n t) (hfits : 349 * (n + 1) < 2 ^ 64 - 1) :
    ∃ t', Machine.run (step 1) t [.insert (note 0), .maybeEvict 2 1000] = some t' ∧ Churned (n + 1) t' := by
  obtain ⟨hA, -, -⟩ := only_note (E := (· = note 0)) fun e he => he
  obtain ⟨hgood, hall, htombs, hlog, hlogged⟩ := h.insert
  have hstep : step 1 t (.insert (note 0)) = some (t.after (t.store.insert (note 0)).2) := rfl
  generalize (t.store.insert (note 0)).2 = st at hgood hall htombs hlog hlogged hstep
  have hkept : Kept (· = note 0) st.index := hgood.sound.kept
  have hexact : Exact (· = note 0) st.index := hgood.exact (hlogged ▸ hfits)
  have hone : st.index.liveCount = 1 := by
    rw [Index.liveCount_eq, hall]
    rfl
  obtain ⟨removed, heq, hcount, -, hends⟩ :=
    hexact.maybeEvict_removes hkept hA (show (1 : Usize) ≠ 0 by decide) 2 1000
  refine ⟨(t.after st).after { st with index := st.index.maybeEvict 1 2 1000 },
    (Machine.run_cons_eq_some _).2 ⟨_, hstep, rfl⟩, hgood.after (hgood.sound.maybeEvict hA 1 2 1000), ?_,
    ?_, hlog, ?_,
    h.rewritten, h.snapshots⟩
  · show (st.index.maybeEvict 1 2 1000).liveCount = 0
    rw [heq]
    rcases hends with ⟨-, hrss⟩ | hlen
    · exact absurd hrss (by decide)
    · rw [hone, if_pos (by decide)] at hlen
      omega
  · show (st.index.maybeEvict 1 2 1000).tombstones.ids = ∅
    rw [hkept.maybeEvict_tombstones hA]
    exact htombs
  · show (t.after st).logged + (st.logLength - st.logLength) = 349 * (n + 1)
    rw [hlogged, Nat.sub_self, Nat.add_zero]

end

theorem churned {n : Nat} (hfits : 349 * n < 2 ^ 64 - 1) :
    ∃ t, Machine.run (step 1) .start (churn n) = some t ∧ Churned n t := by
  induction n with
  | zero => exact ⟨.start, rfl, good_start _, rfl, rfl, rfl, rfl, rfl, rfl⟩
  | succ n ih =>
    obtain ⟨t, hrun, h⟩ := ih (by omega)
    obtain ⟨t', hagain, h'⟩ := h.again hfits
    refine ⟨t', ?_, h'⟩
    have hsplit : churn (n + 1) = churn n ++ [.insert (note 0), .maybeEvict 2 1000] := by
      unfold churn
      rw [List.replicate_succ', List.flatten_append, List.flatten_singleton]
    rw [hsplit, Machine.run_append, hrun]
    exact hagain

/-- The note is stored once more, and the next round finds a log of 64 MiB. -/
def churnAndRound (n : Nat) : List Turn := churn n ++ [.insert (note 0), .maybeCheckpoint [note 0]]

theorem given_churnAndRound {n : Nat} {e : Event} (h : Given (churnAndRound n) e) : e = note 0 := by
  unfold churnAndRound churn at h
  rcases h with h | ⟨es, h, -⟩
  · have hor : ¬ n = 0 ∧ e = note 0 ∨ e = note 0 := by simpa using h
    exact hor.elim And.right id
  · simp at h

/-- The log is folded into a snapshot of the note. -/
theorem snapshot_churnAndRound {n : Nat} (hdue : minCheckpointBytes ≤ 349 * (n + 1))
    (hfits : 349 * (n + 1) < 2 ^ 64 - 1) :
    ∃ t, Machine.run (step 1) .start (churnAndRound n) = some t ∧ t.snapshots = 1 ∧ t.rewritten = 345 ∧
      t.logged = 349 * (n + 1) := by
  obtain ⟨t, hrun, h⟩ := churned (n := n) (by omega)
  obtain ⟨hgood, hall, -, hlog, hlogged⟩ := h.insert
  have hstep : step 1 t (.insert (note 0)) = some (t.after (t.store.insert (note 0)).2) := rfl
  generalize (t.store.insert (note 0)).2 = st at hgood hall hlog hlogged hstep
  have hround : (t.after st).store.checkpointDue = true := by
    refine (hgood.checkpointDue_iff (hlogged ▸ hfits)).2 ?_
    show max minCheckpointBytes (2 * st.index.liveBytes) ≤ st.logLength
    rw [hlog, Index.liveBytes_of_values [note 0] hall, List.map_singleton, List.sum_singleton, length_raw_note]
    refine max_le hdue (Nat.le_trans ?_ hdue)
    decide
  have hperm : [note 0].Perm (t.after st).store.index.iterAll := by
    rw [show (t.after st).store.index.iterAll = [note 0] from hall]
  let t' : Tally := { t.after st with
    store := (t.after st).store.maybeCheckpoint [note 0]
    rewritten := t.rewritten + (writeSnapshot [note 0]).length
    snapshots := t.snapshots + 1 }
  have hstep' : step 1 (t.after st) (.maybeCheckpoint [note 0]) = some t' := by
    simp only [step, hround, if_true, if_pos hperm]
    rfl
  have hlast : Machine.run (step 1) t [.insert (note 0), .maybeCheckpoint [note 0]] = some t' :=
    (Machine.run_cons_eq_some _).2 ⟨t.after st, hstep, (Machine.run_cons_eq_some _).2 ⟨t', hstep', rfl⟩⟩
  refine ⟨t', ?_, ?_, ?_, hlogged⟩
  · unfold churnAndRound
    rw [Machine.run_append, hrun]
    exact hlast
  · show t.snapshots + 1 = 1
    rw [h.snapshots]
  · show t.rewritten + (writeSnapshot [note 0]).length = 345
    rw [h.rewritten]
    simp [writeSnapshot, length_raw_note]

theorem run_upkeep_churnAndRound : ∃ t, Machine.run (step 1) .start (churnAndRound 200000) = some t ∧
    t.snapshots = 1 ∧
    t.rewritten = 345 ∧ t.rewritten + t.store.logLength ≤ t.logged ∧
      minCheckpointBytes * t.snapshots + t.store.logLength ≤ t.logged := by
  obtain ⟨t, hrun, hsnapshots, hrewritten, hlogged⟩ :=
    snapshot_churnAndRound (n := 200000) (by decide) (by decide)
  obtain ⟨hA, hlen, hraw⟩ := only_note fun e => given_churnAndRound (n := 200000)
  obtain ⟨hlog, hsnap, -⟩ := run_upkeep hA hlen hraw hrun (by rw [hlogged]; decide)
  exact ⟨t, hrun, hsnapshots, hrewritten, hlog, hsnap⟩

end Upkeep
end Memlay
