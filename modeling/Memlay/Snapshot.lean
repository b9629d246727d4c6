import Memlay.IndexInv
import Memlay.Lib.Lines

/-!
# The snapshot file (`src/store/mod.rs`)

`write_snapshot` writes the raw JSON of each live event and a newline; the
snapshot loop of `load_from_disk` reads the file line by line, parses each line
without verification and ingests it.

    restore_writeSnapshot_iff     with no memory limit, the events written are
                                  exactly the events restored ↔ each raw is one line
-/

namespace Memlay

open Lines (lines OneLine)

namespace Index

/-! ## Ingest with eviction -/

/-- The eviction loop of `ingest`.  A round whose oldest event is not live removes
nothing and leaves everything as it is, so the loop never ends: `none`.  Every
other round takes one event out of `by_id`, so a loop that ends has ended when
the rounds are used up. -/
def evictTo (target : Usize) : Nat → Index → Option Index
  | 0, _ => none
  | rounds + 1, s =>
    if target < s.memoryBytes then
      match s.getOldest 1 with
      | [] => some s
      | e :: _ => evictTo target rounds (s.remove e.id).2
    else some s

/-- Insert one event, evicting the oldest ones if the limit is exceeded; no
limit when `max_bytes` is 0. -/
def ingest (maxBytes : Usize) (s : Index) (e : Event) : Option Index :=
  let evictionThreshold := maxBytes * 90 / 100
  let evictionTarget := maxBytes * 70 / 100
  let s := (s.insert e).2
  if 0 < evictionThreshold ∧ evictionThreshold < s.memoryBytes then
    s.evictTo evictionTarget (s.byId.entries.length + 1)
  else some s

/-- Eviction makes nothing live. -/
theorem lookup_of_evictTo {target : Usize} {rounds : Nat} {s s' : Index} {id : Bytes32} {y : Event}
    (hs : s.evictTo target rounds = some s') (h : s'.byId.lookup id = some y) :
    s.byId.lookup id = some y := by
  induction rounds generalizing s with
  | zero => cases hs
  | succ rounds ih =>
    unfold evictTo at hs
    split at hs
    · split at hs
      · cases hs
        exact h
      · exact lookup_of_internalRemove (ih hs)
    · cases hs
      exact h

theorem lookup_of_ingest {maxBytes : Usize} {s s' : Index} {e y : Event} {id : Bytes32}
    (hs : s.ingest maxBytes e = some s') (h : s'.byId.lookup id = some y) :
    (y = e ∧ id = e.id) ∨ s.byId.lookup id = some y := by
  unfold ingest at hs
  simp only at hs
  split at hs
  · exact lookup_of_insert (lookup_of_evictTo hs h)
  · cases hs
    exact lookup_of_insert h

theorem ingest_zero (s : Index) (e : Event) : s.ingest 0 e = some (s.insert e).2 := by
  unfold ingest
  simp

end Index

/-! ## Writing and reading the file -/

/-- `events.jsonl` for the live events in the order `iter_all` gives them. -/
def writeSnapshot (es : List Event) : Bytes := (es.map fun e => e.raw ++ [10]).flatten

/-- The events the snapshot loop parses; empty lines and texts that do not parse
are skipped. -/
def snapshotEvents (x : Ext) (file : Bytes) : List Event :=
  ((lines file).filter fun l => !l.isEmpty).filterMap fun l => (Event.fromJsonUnchecked x l).toOption

/-- The snapshot loop of `load_from_disk`. -/
def restoreSnapshot (x : Ext) (maxBytes : Usize) (s : Index) (file : Bytes) : Option Index :=
  (snapshotEvents x file).foldlM (fun s e => s.ingest maxBytes e) s

theorem writeSnapshot_eq (es : List Event) : writeSnapshot es = Lines.write (es.map Event.raw) := by
  simp [writeSnapshot, Lines.write, List.map_map, Function.comp_def]

theorem length_le_writeSnapshot {es : List Event} {e : Event} (he : e ∈ es) :
    e.raw.length ≤ (writeSnapshot es).length := by
  unfold writeSnapshot
  have hsub : (e.raw ++ [10]).Sublist (es.map fun a : Event => a.raw ++ [10]).flatten :=
    List.sublist_flatten_of_mem (List.mem_map_of_mem he)
  have := hsub.length_le
  rw [List.length_append] at this
  omega

theorem mem_snapshotEvents_iff {x : Ext} {file : Bytes} {e : Event} :
    e ∈ snapshotEvents x file ↔
      e.raw ∈ lines file ∧ e.raw ≠ [] ∧ Event.fromJsonUnchecked x e.raw = .ok e := by
  unfold snapshotEvents
  rw [List.mem_filterMap]
  constructor
  · rintro ⟨l, hl, hp⟩
    have hok : Event.fromJsonUnchecked x l = .ok e := by
      cases h : Event.fromJsonUnchecked x l with
      | error err => rw [h] at hp; cases hp
      | ok a => rw [h] at hp; cases hp; rfl
    obtain ⟨hl, hne⟩ := List.mem_filter.1 hl
    rw [Event.raw_of_fromJsonUnchecked hok]
    exact ⟨hl, by simpa using hne, hok⟩
  · rintro ⟨hl, hne, hok⟩
    refine ⟨e.raw, List.mem_filter.2 ⟨hl, by simpa using hne⟩, ?_⟩
    rw [hok]
    rfl

/-- The event's JSON comes back from the snapshot as it went in. -/
def Event.Restorable (x : Ext) (e : Event) : Prop :=
  e.raw ≠ [] ∧ OneLine e.raw ∧ Event.fromJsonUnchecked x e.raw = .ok e

theorem snapshotEvents_writeSnapshot {x : Ext} {es : List Event} (h : ∀ e ∈ es, e.Restorable x) :
    snapshotEvents x (writeSnapshot es) = es := by
  have hlines : lines (writeSnapshot es) = es.map Event.raw := by
    rw [writeSnapshot_eq, Lines.lines_write]
    intro t ht
    obtain ⟨e, he, rfl⟩ := List.mem_map.1 ht
    exact (h e he).2.1
  unfold snapshotEvents
  rw [hlines]
  clear hlines
  induction es with
  | nil => rfl
  | cons e es ih =>
    obtain ⟨hne, -, hok⟩ := h e (by simp)
    have hrest := ih fun a ha => h a (List.mem_cons_of_mem e ha)
    have hkept : (!e.raw.isEmpty) = true := by simpa using hne
    rw [List.map_cons, List.filter_cons, if_pos hkept, List.filterMap_cons, hok]
    exact congrArg (e :: ·) hrest

theorem restoreSnapshot_zero (x : Ext) (s : Index) (file : Bytes) :
    restoreSnapshot x 0 s file = some ((snapshotEvents x file).foldl (fun s e => (s.insert e).2) s) := by
  unfold restoreSnapshot
  generalize snapshotEvents x file = es
  induction es generalizing s with
  | nil => rfl
  | cons e es ih =>
    rw [List.foldlM_cons, Index.ingest_zero, List.foldl_cons]
    exact ih _

/-! ## The round trip -/

/-- The live events are exactly `es`. -/
def Index.Holds (s : Index) (es : List Event) : Prop :=
  ∀ id y, s.byId.lookup id = some y ↔ y ∈ es ∧ y.id = id

/-- Pairwise distinct ids, and no two events with one replacement key. -/
structure Separate (es : List Event) : Prop where
  ids : (es.map Event.id).Nodup
  keys : es.Pairwise fun a b => a.replacementKey ≠ .none → a.replacementKey ≠ b.replacementKey

theorem Separate.agree {es : List Event} (h : Separate es) : Index.Agree (· ∈ es) := by
  intro a b ha hb hid
  have := List.inj_on_of_nodup_map h.ids ha hb hid
  rw [this]
  exact ⟨rfl, rfl, rfl, rfl, rfl⟩

theorem Index.Holds.insert {E : Event → Prop} {s : Index} {e : Event} {es : List Event}
    (hs : s.Holds es) (hI : Inv E s) (hA : Agree E) (hE : E e) (ht : s.tombstones = .new)
    (hid : ∀ a ∈ es, a.id ≠ e.id)
    (hkey : ∀ a ∈ es, a.replacementKey ≠ .none → a.replacementKey ≠ e.replacementKey) :
    (s.insert e).2.Holds (es ++ [e]) ∧ (s.insert e).2.tombstones = .new := by
  have hempty : e.id ∉ s.tombstones.ids := by
    rw [ht]
    exact Finset.notMem_empty _
  have hrival : ∀ old : Event, e.isReplaceable = true → s.byId.lookup old.id = some old →
      old.replacementKey ≠ e.replacementKey := by
    intro old hr hl hk
    refine hkey old ((hs _ _).1 hl).1 (fun hn => ?_) hk
    rw [hk, Event.replacementKey_eq_none_iff, hr] at hn
    cases hn
  have hc := insert_cases hI hA hE
  generalize s.insert e = r at hc ⊢
  obtain ⟨o, s'⟩ := r
  cases hc with
  | deleted ht' => exact absurd ht' hempty
  | lostRace old hr hl hk hb => exact absurd hk (hrival old hr hl)
  | replaced old ht' hr hl ho hk hb => exact absurd hk (hrival old hr ho)
  | duplicate old ht' hr hl =>
    obtain ⟨hm, hi⟩ := (hs _ _).1 hl
    exact absurd hi (hid old hm)
  | fresh ht' hl hk =>
    refine ⟨fun id y => ?_, (withSlot_tombstones s e).trans ht⟩
    show ((s.withSlot e).stored e).byId.lookup id = some y ↔ _
    rw [stored_lookup, withSlot_byId, List.mem_append, List.mem_singleton]
    split
    · rename_i he
      constructor
      · intro h
        cases h
        exact ⟨Or.inr rfl, he.symm⟩
      · rintro ⟨hy | rfl, hi⟩
        · exact absurd (hi.trans he) (hid y hy)
        · rfl
    · rename_i he
      rw [hs id y]
      constructor
      · exact fun h => ⟨Or.inl h.1, h.2⟩
      · rintro ⟨hy | rfl, hi⟩
        · exact ⟨hy, hi⟩
        · exact absurd hi.symm he

/-- Separate events all stay live when they are inserted one after the other. -/
theorem Separate.holds_foldl {es : List Event} (h : Separate es) :
    (es.foldl (fun s e => (s.insert e).2) Index.new).Holds es := by
  have hgen : ∀ pre, pre <+: es →
      let s := pre.foldl (fun s e => (Index.insert s e).2) Index.new
      s.Holds pre ∧ s.tombstones = .new ∧ Index.Inv (· ∈ es) s := by
    intro pre
    induction pre using List.reverseRecOn with
    | nil =>
      intro _
      refine ⟨fun id y => ?_, rfl, Index.inv_new _⟩
      simp [Index.new]
    | append_singleton pre e ih =>
      intro hpre
      obtain ⟨hh, ht, hI⟩ := ih ((List.prefix_append pre [e]).trans hpre)
      have he : e ∈ es := hpre.subset (by simp)
      obtain ⟨post, rfl⟩ := hpre
      have hids := h.ids
      have hkeys := h.keys
      rw [List.append_assoc, List.map_append, List.nodup_append] at hids
      rw [List.append_assoc, List.pairwise_append] at hkeys
      have hid : ∀ a ∈ pre, a.id ≠ e.id := fun a ha =>
        hids.2.2 a.id (List.mem_map_of_mem ha) e.id (List.mem_map_of_mem (by simp))
      have hkey : ∀ a ∈ pre, a.replacementKey ≠ .none → a.replacementKey ≠ e.replacementKey :=
        fun a ha => hkeys.2.2 a ha e (by simp)
      rw [List.foldl_append]
      obtain ⟨hh', ht'⟩ := hh.insert hI h.agree he ht hid hkey
      exact ⟨hh', ht', hI.insert h.agree he⟩
  exact (hgen es (List.prefix_refl es)).1

/-- Every live event of a restored index was parsed from a line. -/
theorem mem_of_lookup_foldl {es : List Event} {s : Index} {id : Bytes32} {y : Event}
    (h : (es.foldl (fun s e => (Index.insert s e).2) s).byId.lookup id = some y) :
    y ∈ es ∨ s.byId.lookup id = some y := by
  induction es generalizing s with
  | nil => exact Or.inr h
  | cons e es ih =>
    rcases ih h with hm | hl
    · exact Or.inl (List.mem_cons_of_mem e hm)
    · rcases Index.lookup_of_insert hl with ⟨rfl, -⟩ | hl
      · exact Or.inl (by simp)
      · exact Or.inr hl

/-- Events that come back were written on one line each. -/
theorem oneLine_of_holds {x : Ext} {es : List Event} {s : Index}
    (hs : restoreSnapshot x 0 Index.new (writeSnapshot es) = some s) (hh : s.Holds es) :
    ∀ e ∈ es, e.raw ≠ [] ∧ OneLine e.raw := by
  rw [restoreSnapshot_zero] at hs
  cases hs
  have hparsed : ∀ e ∈ es, e.raw ∈ lines (writeSnapshot es) ∧ e.raw ≠ [] := by
    intro e he
    rcases mem_of_lookup_foldl ((hh e.id e).2 ⟨he, rfl⟩) with hm | hl
    · obtain ⟨hl, hne, -⟩ := mem_snapshotEvents_iff.1 hm
      exact ⟨hl, hne⟩
    · simp [Index.new] at hl
  have hline : ∀ e ∈ es, 10 ∉ e.raw := by
    intro e he
    have := (hparsed e he).1
    rw [writeSnapshot_eq] at this
    exact (Lines.mem_lines_write this).1
  -- the line of a raw that ends with a carriage return was written with one more
  have hlonger : ∀ e ∈ es, e.raw.getLast? = some 13 → ∃ a ∈ es, a.raw = e.raw ++ [13] := by
    intro e he hcr
    have hl := (hparsed e he).1
    rw [writeSnapshot_eq] at hl
    obtain ⟨-, -, t, ht, seg, hseg, hcase⟩ := Lines.mem_lines_write hl
    obtain ⟨a, ha, rfl⟩ := List.mem_map.1 ht
    have := Lines.eq_of_segment (hline a ha) hseg
    rcases hcase with ⟨h1, h2⟩ | h1
    · rw [← h1] at h2
      exact absurd hcr h2
    · exact ⟨a, ha, by rw [← this, h1]⟩
  -- so there is none: the texts of the file have a longest one
  have hcr : ∀ n, ∀ e ∈ es, (writeSnapshot es).length < e.raw.length + n →
      e.raw.getLast? ≠ some 13 := by
    intro n
    induction n with
    | zero =>
      intro e he hlt
      have := length_le_writeSnapshot he
      omega
    | succ n ih =>
      intro e he hlt hcr
      obtain ⟨a, ha, hra⟩ := hlonger e he hcr
      refine ih a ha ?_ (by rw [hra]; simp)
      rw [hra, List.length_append, List.length_singleton]
      omega
  intro e he
  have hl := (hparsed e he).1
  rw [writeSnapshot_eq] at hl
  exact ⟨(hparsed e he).2, hline e he, (Lines.mem_lines_write hl).2.1,
    hcr ((writeSnapshot es).length + 1) e he (by omega)⟩

/-- Distinct events restored from their own snapshot are exactly the events
written, raw bytes included, if and only if each raw is a single line. -/
theorem restore_writeSnapshot_iff {x : Ext} {es : List Event}
    (hacc : ∀ e ∈ es, Event.fromJson x e.raw = .ok e) (hsep : Separate es) :
    (∃ s, restoreSnapshot x 0 Index.new (writeSnapshot es) = some s ∧ s.Holds es) ↔
      ∀ e ∈ es, e.raw ≠ [] ∧ OneLine e.raw := by
  constructor
  · rintro ⟨s, hs, hh⟩
    exact oneLine_of_holds hs hh
  · intro h
    refine ⟨_, restoreSnapshot_zero x Index.new (writeSnapshot es), ?_⟩
    rw [snapshotEvents_writeSnapshot]
    · exact hsep.holds_foldl
    · intro e he
      exact ⟨(h e he).1, (h e he).2, (Event.fromJson_eq_ok_iff.1 (hacc e he)).1⟩

theorem separate_singleton (e : Event) : Separate [e] :=
  ⟨List.nodup_singleton _, List.pairwise_singleton _ _⟩

theorem fromJson_known_self (e : Event) : Event.fromJson (Ext.known [e] []) e.raw = .ok e :=
  fromJson_known (by simp) (by simp) (by simp)

theorem oneLine_note : OneLine (note 0).raw := Lines.oneLine_of_printable (printable_raw_note 0)

theorem restore_writeSnapshot_iff_note :
    Event.fromJson (Ext.known [note 0] []) (note 0).raw = .ok (note 0) ∧
      ∃ s, restoreSnapshot (Ext.known [note 0] []) 0 Index.new (writeSnapshot [note 0]) = some s ∧
        s.Holds [note 0] := by
  have hacc : ∀ e ∈ [note 0], Event.fromJson (Ext.known [note 0] []) e.raw = .ok e := by
    intro e he
    rw [List.mem_singleton.1 he]
    exact fromJson_known_self (note 0)
  refine ⟨hacc _ (by simp), (restore_writeSnapshot_iff hacc (separate_singleton _)).2 fun e he => ?_⟩
  rw [List.mem_singleton.1 he]
  exact ⟨by decide, oneLine_note⟩

/-- The signed note, with a line break after the brace of its JSON. -/
def brokenNote : Event :=
  { note 0 with raw := (note 0).raw.take 1 ++ 10 :: (note 0).raw.drop 1 }

theorem length_raw_brokenNote : brokenNote.raw.length = 345 := by
  show ((note 0).raw.take 1 ++ 10 :: (note 0).raw.drop 1).length = 345
  rw [List.length_append, List.length_cons, List.length_take, List.length_drop, length_raw_note]
  rfl

/-- A line break between two tokens is valid JSON, and the event is gone after a restart. -/
theorem brokenNote_lost :
    Event.fromJson (Ext.known [brokenNote] []) brokenNote.raw = .ok brokenNote ∧
      Separate [brokenNote] ∧
      ¬ ∃ s, restoreSnapshot (Ext.known [brokenNote] []) 0 Index.new (writeSnapshot [brokenNote]) =
        some s ∧ s.Holds [brokenNote] := by
  refine ⟨fromJson_known_self brokenNote, separate_singleton brokenNote, ?_⟩
  rintro ⟨s, hs, hh⟩
  have hline := (oneLine_of_holds hs hh brokenNote (by simp)).2.1
  exact hline (by simp [brokenNote])

end Memlay
