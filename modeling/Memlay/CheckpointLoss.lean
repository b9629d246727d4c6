import Memlay.Checkpoint

/-!
# What checkpoint attempts keep on disk

Inserts and checkpoint attempts, which may fail after any file step and be
followed by more inserts and more attempts.  `Durable` says that every live event
comes back from the files.

    durable_iff     every state of a run is durable  ↔  at every rotation each live event
                    is in `events.jsonl` or has its record in the `wal.log` being rotated

A rotation overwrites `wal.log.old`.  After an attempt that failed behind its own
rotation, the old segment holds the only copy of what was logged before.
-/

namespace Memlay
namespace Sys

open Index (Shows Inv Agree Fields rules)
open Registers (Board Settled)
open Store (Rec diskRecs segmentRecs snapshotRecs Whole recover)

/-- Every live event comes back when the files are loaded. -/
def Durable (x : Ext) (s : Sys) : Prop :=
  ∃ applied t, Store.replayFiles x 0 .new s.store.files = some (applied, t) ∧
    ∀ id y, s.store.index.byId.lookup id = some y → ∃ z, t.byId.lookup id = some z

/-- An event with this id is among the records. -/
def Puts (recs : List Rec) (id : Bytes32) : Prop := ∃ e, Rec.put e ∈ recs ∧ e.id = id

/-- At a rotation, each live event is in the snapshot or in the segment rotated. -/
def Covers (x : Ext) (s : Sys) : Action → Prop
  | .rename => ∀ id y, s.store.index.byId.lookup id = some y →
      (∃ e ∈ snapshotRecs x s.store.files.events, e.id = id) ∨
        Puts (segmentRecs x s.store.files.wal) id
  | _ => True

/-- Inserts and the steps of checkpoint attempts. -/
def Attempt : Action → Prop
  | .deletion _ _ _ _ => False
  | .restart _ => False
  | _ => True

/-! ## Records and durability -/

theorem puts_append {as bs : List Rec} {id : Bytes32} : Puts (as ++ bs) id ↔ Puts as id ∨ Puts bs id := by
  unfold Puts
  constructor
  · rintro ⟨e, he, hid⟩
    rcases List.mem_append.1 he with he | he
    · exact Or.inl ⟨e, he, hid⟩
    · exact Or.inr ⟨e, he, hid⟩
  · rintro (⟨e, he, hid⟩ | ⟨e, he, hid⟩)
    · exact ⟨e, List.mem_append_left _ he, hid⟩
    · exact ⟨e, List.mem_append_right _ he, hid⟩

theorem puts_map {es : List Event} {id : Bytes32} : Puts (es.map .put) id ↔ ∃ e ∈ es, e.id = id := by
  unfold Puts
  constructor
  · rintro ⟨e, he, hid⟩
    obtain ⟨a, ha, hae⟩ := List.mem_map.1 he
    cases hae
    exact ⟨e, ha, hid⟩
  · rintro ⟨e, he, hid⟩
    exact ⟨e, List.mem_map_of_mem he, hid⟩

theorem puts_iff_onBoard {recs : List Rec} {id : Bytes32} :
    Registers.Rec.put id ∈ recs.map Rec.onBoard ↔ Puts recs id := by
  rw [List.mem_map]
  constructor
  · rintro ⟨a, ha, hput⟩
    cases a with
    | put e =>
      cases hput
      exact ⟨e, ha, rfl⟩
    | remove id => cases hput
    | bury id => cases hput
  · rintro ⟨e, he, rfl⟩
    exact ⟨_, he, rfl⟩

/-- What the disk holds of a store without deletions. -/
structure Kept (x : Ext) (E : Event → Prop) (fields : Bytes32 → Event) (b : Board Bytes32 Index.Slot)
    (s : Sys) : Prop where
  wholeOld : Whole s.store.files.walOld
  wholeWal : Whole s.store.files.wal
  recsIn : ∀ a ∈ diskRecs x s.store.files, a.In E
  inv : Inv E s.store.index
  shows : Shows fields s.store.index b
  settled : ∀ a ∈ diskRecs x s.store.files, Settled (rules fields) b a.onBoard
  handle : s.phase ≠ .idle → s.phase ≠ .renamed → s.store.handle = .wal
  /-- what was not collected is in the new segment -/
  collected : ∀ es, s.phase = .collected es →
    (∀ e ∈ es, E e ∧ Settled (rules fields) b (.put e.id)) ∧
      ∀ id y, s.store.index.byId.lookup id = some y →
        (∃ e ∈ es, e.id = id) ∨ Puts (segmentRecs x s.store.files.wal) id
  written : s.phase = .written → ∀ id y, s.store.index.byId.lookup id = some y →
    (∃ e ∈ snapshotRecs x s.store.files.events, e.id = id) ∨
      Puts (segmentRecs x s.store.files.wal) id

section
variable {x : Ext} {E : Event → Prop} {fields : Bytes32 → Event} {b : Board Bytes32 Index.Slot}
  {s s' : Sys}

/-- A live event comes back exactly when it is recorded. -/
theorem Kept.durable_iff_puts (h : Kept x E fields b s) (hF : Fields E fields) (hA : Agree E) :
    Durable x s ↔ ∀ id y, s.store.index.byId.lookup id = some y →
      Puts (diskRecs x s.store.files) id := by
  have hdisk := (Store.shows_recover hF hA h.recsIn).2
  have hset : ∀ a ∈ (diskRecs x s.store.files).map Rec.onBoard, Settled (rules fields) b a := by
    intro a ha
    obtain ⟨c, hc, rfl⟩ := List.mem_map.1 ha
    exact h.settled c hc
  have hone : ∀ id y, s.store.index.byId.lookup id = some y →
      ((∃ z, (recover x s.store.files).byId.lookup id = some z) ↔
        Puts (diskRecs x s.store.files) id) := by
    intro id y hy
    rw [hdisk.live id, ← puts_iff_onBoard]
    exact Registers.replay_holds_iff hset (h.shows.holder_of_lookup hy)
  unfold Durable
  rw [Store.replayFiles_zero]
  constructor
  · rintro ⟨n, t, ht, hall⟩ id y hy
    cases ht
    exact (hone id y hy).1 (hall id y hy)
  · intro hall
    exact ⟨_, _, rfl, fun id y hy => (hone id y hy).2 (hall id y hy)⟩

theorem puts_diskRecs {f : Files} {id : Bytes32} :
    Puts (diskRecs x f) id ↔ (∃ e ∈ snapshotRecs x f.events, e.id = id) ∨
      Puts (segmentRecs x f.walOld) id ∨ Puts (segmentRecs x f.wal) id := by
  unfold diskRecs
  rw [puts_append, puts_append, puts_map]

/-! ## Inserts -/

/-- What an insert makes live it has logged. -/
theorem live_insert (hF : Fields E fields) (hA : Agree E) (hI : Inv E s.store.index)
    (hs : Shows fields s.store.index b) {e : Event} (hE : E e) {id : Bytes32} {y : Event}
    (hy : (s.store.index.insert e).2.byId.lookup id = some y) :
    (∃ z, s.store.index.byId.lookup id = some z) ∨
      Puts (Store.insertRecs e (s.store.index.insert e).1) id := by
  obtain ⟨hs', hrecs⟩ := hs.insert hF hI hA hE
  have hhold := hs'.holder_of_lookup hy
  by_cases ha : Registers.Accepts (rules fields) b e.id
  · by_cases hk : (rules fields).key id = (rules fields).key e.id
    · rw [hk, Registers.put_holder_self ha] at hhold
      right
      rw [← puts_iff_onBoard, Store.insertRecs_onBoard, hrecs, ← Option.some.inj hhold]
      simp only [Registers.recsOf, if_pos ha]
      exact List.mem_cons_self
    · rw [Registers.put_holder_ne b hk] at hhold
      exact Or.inl ((hs.live id).2 hhold)
  · rw [Registers.put_of_not_accepts ha] at hhold
    exact Or.inl ((hs.live id).2 hhold)

theorem Kept.insert (h : Kept x E fields b s) (hF : Fields E fields) (hA : Agree E) {e : Event}
    (hE : E e) (hread : e.Readable x) (he : e.isEphemeral = false) :
    Kept x E fields (Registers.put (rules fields) b e.id) { s with store := (s.store.insert e).2 } ∧
      (Durable x s → Durable x { s with store := (s.store.insert e).2 }) := by
  have happ := Store.insert_appends he hread h.wholeOld h.wholeWal
  have hboard := Store.insertRecs_eq_recsOf hF hA h.inv h.shows hE
  have hidx : (s.store.insert e).2.index = (s.store.index.insert e).2 := by
    rw [Store.insert_index, he]
    rfl
  have hlive : ∀ id y, (s.store.insert e).2.index.byId.lookup id = some y →
      (∃ z, s.store.index.byId.lookup id = some z) ∨
        Puts (Store.insertRecs e (s.store.index.insert e).1) id := by
    intro id y hy
    rw [hidx] at hy
    exact live_insert hF hA h.inv h.shows hE hy
  have hwal : s.store.handle = .wal → ∀ id,
      Puts (segmentRecs x s.store.files.wal) id ∨
        Puts (Store.insertRecs e (s.store.index.insert e).1) id →
      Puts (segmentRecs x (s.store.insert e).2.files.wal) id := by
    intro hh id hp
    rw [(happ.onWal hh).2]
    exact puts_append.2 hp
  have hkept : Kept x E fields (Registers.put (rules fields) b e.id)
      { s with store := (s.store.insert e).2 } := by
    refine ⟨happ.wholeOld, happ.wholeWal, fun a ha => ?_, by rw [hidx]; exact h.inv.insert hA hE,
      by rw [hidx]; exact (h.shows.insert hF h.inv hA hE).1, fun a ha => ?_,
      fun h1 h2 => happ.handle.trans (h.handle h1 h2), fun es hes => ?_, fun hw id y hy => ?_⟩
    · rcases happ.mem_diskRecs.1 ha with ha | ha
      · exact h.recsIn a ha
      · exact Store.insertRecs_in hE _ a ha
    · rcases happ.mem_diskRecs.1 ha with ha | ha
      · exact (h.settled a ha).put e.id
      · refine Registers.settled_recsOf h.shows.own e.id _ ?_
        rw [← hboard]
        exact List.mem_map_of_mem ha
    · obtain ⟨h1, h2⟩ := h.collected es hes
      have hh : s.store.handle = .wal := h.handle (by rw [hes]; simp) (by rw [hes]; simp)
      refine ⟨fun a ha => ⟨(h1 a ha).1, (h1 a ha).2.put e.id⟩, fun id y hy => ?_⟩
      rcases hlive id y hy with ⟨z, hz⟩ | hp
      · exact (h2 id z hz).imp_right fun hp => hwal hh id (Or.inl hp)
      · exact Or.inr (hwal hh id (Or.inr hp))
    · have hh : s.store.handle = .wal := h.handle (by rw [hw]; simp) (by rw [hw]; simp)
      show (∃ e' ∈ snapshotRecs x (s.store.insert e).2.files.events, e'.id = id) ∨ _
      rw [happ.events]
      rcases hlive id y hy with ⟨z, hz⟩ | hp
      · exact (h.written hw id z hz).imp_right fun hp => hwal hh id (Or.inl hp)
      · exact Or.inr (hwal hh id (Or.inr hp))
  refine ⟨hkept, fun hd => ?_⟩
  rw [hkept.durable_iff_puts hF hA]
  rw [h.durable_iff_puts hF hA] at hd
  intro id y hy
  rcases hlive id y hy with ⟨z, hz⟩ | ⟨a, ha, hid⟩
  · obtain ⟨a, ha, hid⟩ := hd id z hz
    exact ⟨a, happ.mem_diskRecs.2 (Or.inl ha), hid⟩
  · exact ⟨a, happ.mem_diskRecs.2 (Or.inr ha), hid⟩

/-! ## File steps

None of them touches the index, so the board stays. -/

theorem Kept.rename (h : Kept x E fields b s) (hF : Fields E fields) (hA : Agree E)
    (hstep : step x s .rename = some s') :
    Kept x E fields b s' ∧ (Durable x s' ↔ Covers x s .rename) := by
  obtain ⟨-, segment, hwal, rfl⟩ := step_rename hstep
  have hrecs : ∀ a, a ∈ diskRecs x { s.store.files with walOld := some segment, wal := none } ↔
      a ∈ (snapshotRecs x s.store.files.events).map Rec.put ∨
        a ∈ segmentRecs x s.store.files.wal := by
    intro a
    rw [diskRecs, hwal]
    simp only [Store.segmentRecs_none, List.append_nil, List.mem_append]
  have hsub : ∀ a, a ∈ diskRecs x { s.store.files with walOld := some segment, wal := none } →
      a ∈ diskRecs x s.store.files := by
    intro a ha
    rw [diskRecs, List.mem_append, List.mem_append]
    rcases (hrecs a).1 ha with ha | ha
    · exact Or.inl ha
    · exact Or.inr (Or.inr ha)
  have hwhole := h.wholeWal
  rw [hwal] at hwhole
  have hkept : Kept x E fields b
      ⟨{ s.store with
          files := { s.store.files with walOld := some segment, wal := none }
          handle := .old }, .renamed, false⟩ :=
    ⟨hwhole, Store.whole_none, fun a ha => h.recsIn a (hsub a ha), h.inv, h.shows,
      fun a ha => h.settled a (hsub a ha), fun _ h2 => absurd rfl h2,
      (fun es hes => by cases hes), fun hw => by cases hw⟩
  refine ⟨hkept, (hkept.durable_iff_puts hF hA).trans ?_⟩
  refine forall_congr' fun id => forall_congr' fun y => imp_congr_right fun _ => ?_
  rw [← puts_map, ← puts_append]
  refine exists_congr fun e => and_congr_left fun _ => ?_
  rw [List.mem_append]
  exact hrecs _

theorem Kept.reopen (h : Kept x E fields b s) (hF : Fields E fields) (hA : Agree E)
    (hstep : step x s .reopen = some s') :
    Kept x E fields b s' ∧ (Durable x s → Durable x s') := by
  obtain ⟨-, rfl⟩ := step_reopen hstep
  have hrecs : diskRecs x s.store.openWal.files = diskRecs x s.store.files :=
    Store.diskRecs_openWal x s.store.files
  have hwhole : Whole (some (s.store.files.wal.getD [])) := h.wholeWal
  have hkept : Kept x E fields b { s with store := s.store.openWal, phase := .rotated } :=
    ⟨h.wholeOld, hwhole, (fun a ha => h.recsIn a (hrecs ▸ ha)), h.inv, h.shows,
      (fun a ha => h.settled a (hrecs ▸ ha)), fun _ _ => rfl, (fun es hes => by cases hes),
      fun hw => by cases hw⟩
  refine ⟨hkept, fun hd => (hkept.durable_iff_puts hF hA).2 fun id y hy => ?_⟩
  show Puts (diskRecs x s.store.openWal.files) id
  rw [hrecs]
  exact (h.durable_iff_puts hF hA).1 hd id y hy

theorem Kept.collect (h : Kept x E fields b s) {es : List Event}
    (hstep : step x s (.collect es) = some s') :
    Kept x E fields b s' ∧ (Durable x s → Durable x s') := by
  obtain ⟨hrot, hperm, rfl⟩ := step_collect hstep
  refine ⟨⟨h.wholeOld, h.wholeWal, h.recsIn, h.inv, h.shows, h.settled,
    fun _ _ => h.handle (by rw [hrot]; simp) (by rw [hrot]; simp), fun es' hes => ?_,
    fun hw => by cases hw⟩, id⟩
  cases hes
  refine ⟨fun e he => ?_, fun id y hy => Or.inl ?_⟩
  · obtain ⟨id, hid⟩ := Table.mem_values_iff.1 (hperm.subset he)
    obtain ⟨hEe, rfl⟩ := h.inv.mem id e hid
    exact ⟨hEe, e.id, h.shows.holder_of_lookup hid, (rules fields).irrefl _⟩
  · exact ⟨y, hperm.symm.subset (Table.mem_values_iff.2 ⟨id, hy⟩), (h.inv.mem id y hy).2⟩

theorem Kept.renameSnapshot (h : Kept x E fields b s) (hF : Fields E fields) (hA : Agree E)
    (hread : ∀ e, E e → e.Readable x) (hstep : step x s .renameSnapshot = some s') :
    Kept x E fields b s' ∧ Durable x s' := by
  obtain ⟨es, hes, rfl⟩ := step_renameSnapshot hstep
  obtain ⟨hE, hlive⟩ := h.collected es hes
  have hsnap : snapshotRecs x (some (writeSnapshot es)) = es :=
    Store.snapshotRecs_writeSnapshot fun e he => hread e (hE e he).1
  have hrecs : ∀ a ∈ diskRecs x (s.store.putSnapshot es).files,
      a ∈ es.map Rec.put ∨ a ∈ diskRecs x s.store.files := by
    intro a ha
    rw [diskRecs, List.mem_append] at ha ⊢
    rcases ha with ha | ha
    · exact Or.inl (by rw [← hsnap]; exact ha)
    · exact Or.inr (Or.inr ha)
  have hput : ∀ a ∈ es.map Rec.put, a.In E ∧ Settled (rules fields) b a.onBoard := by
    intro a ha
    obtain ⟨e, he, rfl⟩ := List.mem_map.1 ha
    exact hE e he
  have hlive' : ∀ id y, s.store.index.byId.lookup id = some y →
      (∃ e ∈ snapshotRecs x (some (writeSnapshot es)), e.id = id) ∨
        Puts (segmentRecs x s.store.files.wal) id := by
    rw [hsnap]
    exact hlive
  have hkept : Kept x E fields b ⟨s.store.putSnapshot es, .written, true⟩ :=
    ⟨h.wholeOld, h.wholeWal, fun a ha => (hrecs a ha).elim (fun h' => (hput a h').1) (h.recsIn a),
      h.inv, h.shows, fun a ha => (hrecs a ha).elim (fun h' => (hput a h').2) (h.settled a),
      fun _ _ => h.handle (by rw [hes]; simp) (by rw [hes]; simp), (fun es' hes' => by cases hes'),
      fun _ => hlive'⟩
  refine ⟨hkept, (hkept.durable_iff_puts hF hA).2 fun id y hy => puts_diskRecs.2 ?_⟩
  exact (hlive' id y hy).imp_right Or.inr

theorem Kept.removeOld (h : Kept x E fields b s) (hF : Fields E fields) (hA : Agree E) {ok : Bool}
    (hstep : step x s (.removeOld ok) = some s') :
    Kept x E fields b s' ∧ (Durable x s → Durable x s') := by
  obtain ⟨hw, rfl⟩ := step_removeOld hstep
  cases ok with
  | false =>
    exact ⟨⟨h.wholeOld, h.wholeWal, h.recsIn, h.inv, h.shows, h.settled, fun h1 => absurd rfl h1,
      (fun es hes => by cases hes), fun hw => by cases hw⟩, id⟩
  | true =>
    have hsub : ∀ a ∈ diskRecs x s.store.removeOld.files, a ∈ diskRecs x s.store.files := by
      intro a ha
      rw [diskRecs, List.mem_append, List.mem_append] at ha ⊢
      rcases ha with ha | ha | ha
      · exact Or.inl ha
      · exact absurd ha List.not_mem_nil
      · exact Or.inr (Or.inr ha)
    have hkept : Kept x E fields b { s with store := s.store.removeOld, phase := .idle } :=
      ⟨Store.whole_none, h.wholeWal, fun a ha => h.recsIn a (hsub a ha), h.inv, h.shows,
        fun a ha => h.settled a (hsub a ha), fun h1 => absurd rfl h1,
        (fun es hes => by cases hes), fun hw => by cases hw⟩
    refine ⟨hkept, fun _ => (hkept.durable_iff_puts hF hA).2 fun id y hy => puts_diskRecs.2 ?_⟩
    exact (h.written hw id y hy).imp_right Or.inr

theorem Kept.giveUp (h : Kept x E fields b s) (hstep : step x s .giveUp = some s') :
    Kept x E fields b s' ∧ (Durable x s → Durable x s') := by
  obtain rfl := step_giveUp hstep
  exact ⟨⟨h.wholeOld, h.wholeWal, h.recsIn, h.inv, h.shows, h.settled, fun h1 => absurd rfl h1,
      (fun es hes => by cases hes), fun hw => by cases hw⟩, id⟩

/-! ## Runs -/

/-- The step lemma: the disk keeps its shape, and stays complete exactly when a
rotation finds everything covered. -/
theorem Kept.step (h : Kept x E fields b s) (hF : Fields E fields) (hA : Agree E)
    (hread : ∀ e, E e → e.Readable x) {a : Action} (hatt : Attempt a)
    (hins : ∀ e, a = .insert e → E e) (hstep : step x s a = some s') :
    ∃ b', Kept x E fields b' s' ∧ (Durable x s → (Durable x s' ↔ Covers x s a)) := by
  have hkeep : ∀ {b'}, Kept x E fields b' s' → (Durable x s → Durable x s') → Covers x s a →
      ∃ b', Kept x E fields b' s' ∧ (Durable x s → (Durable x s' ↔ Covers x s a)) :=
    fun hk hd hc => ⟨_, hk, fun h => ⟨fun _ => hc, fun _ => hd h⟩⟩
  cases a with
  | insert e =>
    obtain ⟨-, rfl⟩ := Sys.step_insert hstep
    have hE := hins e rfl
    cases he : e.isEphemeral with
    | false =>
      obtain ⟨hk, hd⟩ := h.insert hF hA hE (hread e hE) he
      exact hkeep hk hd trivial
    | true =>
      have hsame : (s.store.insert e).2 = s.store := by
        unfold Store.insert
        rw [if_pos he]
      rw [hsame] at hkeep ⊢
      exact hkeep h id trivial
  | rename =>
    obtain ⟨hk, hd⟩ := h.rename hF hA hstep
    exact ⟨b, hk, fun _ => hd⟩
  | reopen =>
    obtain ⟨hk, hd⟩ := h.reopen hF hA hstep
    exact hkeep hk hd trivial
  | collect es =>
    obtain ⟨hk, hd⟩ := h.collect hstep
    exact hkeep hk hd trivial
  | renameSnapshot =>
    obtain ⟨hk, hd⟩ := h.renameSnapshot hF hA hread hstep
    exact hkeep hk (fun _ => hd) trivial
  | removeOld ok =>
    obtain ⟨hk, hd⟩ := h.removeOld hF hA hstep
    exact hkeep hk hd trivial
  | giveUp =>
    obtain ⟨hk, hd⟩ := h.giveUp hstep
    exact hkeep hk hd trivial
  | deletion ids coordinates author until_ => exact absurd hatt id
  | restart es => exact absurd hatt id

theorem kept_init : Kept x E fields Registers.empty init where
  wholeOld := Store.whole_none
  wholeWal := Store.whole_nil
  recsIn := fun a ha => absurd ha List.not_mem_nil
  inv := Index.inv_new E
  shows := Index.shows_new
  settled := fun a ha => absurd ha List.not_mem_nil
  handle := fun _ _ => rfl
  collected := fun es hes => by cases hes
  written := fun hw => by cases hw

end

/-- Over a run of inserts and checkpoint attempts, failed ones among them: the
files always give back every live event, if and only if no rotation overwrites
the segment that holds the only record of one. -/
theorem durable_iff {x : Ext} {as : List Action} {t : Sys} (hrun : Machine.run (step x) init as = some t)
    (hatt : ∀ a ∈ as, Attempt a) (hA : Agree (Inserted as))
    (hread : ∀ e, Inserted as e → e.Readable x) :
    (∀ bs, bs <+: as → ∀ u, Machine.run (step x) init bs = some u → Durable x u) ↔
      Machine.Along (step x) (Covers x) init as := by
  obtain ⟨fields, hF⟩ := Index.exists_fields hA
  have hins : ∀ a ∈ as, ∀ e, a = .insert e → Inserted as e := by
    rintro a ha e rfl
    exact ha
  have hJ : ∀ bs, bs <+: as → ∀ u, Machine.run (step x) init bs = some u →
      ∃ b, Kept x (Inserted as) fields b u := by
    intro bs
    induction bs using List.reverseRecOn with
    | nil =>
      intro _ u hu
      cases hu
      exact ⟨_, kept_init⟩
    | append_singleton bs a ih =>
      intro hpre u hu
      obtain ⟨v, hv, hstep⟩ := (Machine.run_concat_eq_some (step x)).1 hu
      obtain ⟨b, hb⟩ := ih ((List.prefix_append bs [a]).trans hpre) v hv
      have hmem : a ∈ as := hpre.subset (by simp)
      obtain ⟨b', hb', -⟩ := hb.step hF hA hread (hatt a hmem) (hins a hmem) hstep
      exact ⟨b', hb'⟩
  refine Machine.forall_prefix_iff (Durable x) (fun u => ∃ b, Kept x (Inserted as) fields b u) as init t
    ?_ hrun hJ ?_
  · rintro u a u' hmem hstep ⟨b, hb⟩ - hd
    obtain ⟨b', -, hiff⟩ := hb.step hF hA hread (hatt a hmem) (hins a hmem) hstep
    exact hiff hd
  · exact ⟨0, Index.new, rfl, fun id y hy => by simp [init, Store.new, Index.new] at hy⟩

/-! ## A failed attempt -/

/-- One insert, and an attempt that fails behind its rotation. -/
def failedAttempt : List Action := [.insert (note 0), .rename, .reopen, .giveUp]

theorem durable_iff_failedAttempt :
    ∃ t, Machine.run (step noteExt) init failedAttempt = some t ∧ Durable noteExt t := by
  have hrun : Machine.run (step noteExt) init failedAttempt =
      some ⟨⟨(Index.new.insert (note 0)).2,
        ⟨none, noteSegment, some []⟩, .wal⟩, .idle, false⟩ := rfl
  have hone : ∀ e, Inserted failedAttempt e → e = note 0 := by
    intro e he
    simpa [Inserted, failedAttempt] using he
  refine ⟨_, hrun, (durable_iff hrun ?_ ?_ ?_).2 ?_ failedAttempt (List.prefix_refl _) _ hrun⟩
  · intro a ha
    simp only [failedAttempt, List.mem_cons, List.not_mem_nil, or_false] at ha
    rcases ha with rfl | rfl | rfl | rfl <;> trivial
  · intro a b ha hb _
    rw [hone a ha, hone b hb]
    exact note_sameFields 0 0
  · intro e he
    rw [hone e he]
    exact note_readable
  · refine ⟨trivial, fun s' hs' => ?_⟩
    cases hs'
    refine ⟨fun id y hy => Or.inr ?_, fun _ _ => ⟨trivial, fun _ _ => ⟨trivial, fun _ _ => trivial⟩⟩⟩
    obtain ⟨rfl, hid⟩ := (lookup_note id y).1 hy
    refine ⟨note 0, ?_, hid⟩
    show Rec.put (note 0) ∈ segmentRecs noteExt noteSegment
    rw [segmentRecs_noteSegment]
    exact List.mem_singleton_self _

/-- The next attempt rotates an empty segment over the one that holds the note. -/
theorem secondRotate_loses :
    ∃ t, Machine.run (step noteExt) init (failedAttempt ++ [.rename]) = some t ∧
      (∀ e, Inserted (failedAttempt ++ [.rename]) e → e.Readable noteExt) ∧ ¬ Durable noteExt t := by
  have hrun : Machine.run (step noteExt) init (failedAttempt ++ [.rename]) =
      some ⟨⟨(Index.new.insert (note 0)).2, ⟨none, some [], none⟩, .old⟩, .renamed, false⟩ := rfl
  refine ⟨_, hrun, fun e he => ?_, ?_⟩
  · have : e = note 0 := by simpa [Inserted, failedAttempt] using he
    rw [this]
    exact note_readable
  · rintro ⟨n, t, ht, hall⟩
    rw [Store.replayFiles_zero] at ht
    cases ht
    obtain ⟨z, hz⟩ := hall (note 0).id (note 0) ((lookup_note _ _).2 ⟨rfl, rfl⟩)
    have hempty : (recover noteExt ⟨none, some [], none⟩).byId.lookup (note 0).id = none := rfl
    rw [hempty] at hz
    cases hz

end Sys
end Memlay
