import Memlay.IndexInv
import Mathlib.Tactic.Ring

/-!
# Memory accounting of sequential runs

`memory_bytes` and `event_count` are moved by hand.  On a state where they are
right, an operation keeps them right except in one case: an insert of a live,
non-replaceable id stores the incoming event over the old one and returns
`Duplicate` without touching the counters, so the counter is off by the
difference of the two raw lengths.

    Inv s → Fits s → Fits s' → Accounted s → (Accounted s' ↔ SameRawLength s op)   (step_accounted_iff)
    … → (Accounted in every state of a run ↔ SameRawLength along it)               (run_accounted_iff)
-/

namespace Memlay

theorem usize_add (a b : Nat) : usize (a + b) = usize a + usize b := by
  unfold usize
  exact BitVec.ofNat_add a b

theorem usize_toNat {n : Nat} (h : n < 2 ^ 64) : (usize n).toNat = n := by
  unfold usize
  rw [BitVec.toNat_ofNat, Nat.mod_eq_of_lt h]

theorem usize_inj {a b : Nat} (ha : a < 2 ^ 64) (hb : b < 2 ^ 64) (h : usize a = usize b) : a = b := by
  have := congrArg BitVec.toNat h
  rwa [usize_toNat ha, usize_toNat hb] at this

theorem usize_total {κ ν : Type*} (w : ν → Nat) (m : Table κ ν) :
    usize (Table.total w m) = Table.total (fun v => usize (w v)) m := by
  unfold Table.total
  induction m.values with
  | nil => rfl
  | cons v vs ih =>
    simp only [List.map_cons, List.sum_cons]
    rw [usize_add, ih]

namespace Index

/-- Raw JSON bytes of the live events. -/
def liveBytes (s : Index) : Nat := Table.total (fun e => e.raw.length) s.byId

theorem liveBytes_of_values {s : Index} (es : List Event) (h : s.byId.values = es) :
    s.liveBytes = (es.map fun e => e.raw.length).sum := by
  unfold liveBytes Table.total
  rw [h]

/-- Number of live events. -/
def liveCount (s : Index) : Nat := Table.total (fun _ => 1) s.byId

/-- Both counters are exact. -/
structure Accounted (s : Index) : Prop where
  memory : s.memoryBytes.toNat = s.liveBytes
  count : s.eventCount.toNat = s.liveCount

/-- What is in memory fits the address space. -/
structure Fits (s : Index) : Prop where
  bytes : s.liveBytes < 2 ^ 64
  events : s.liveCount < 2 ^ 64

/-- Both counters are exact modulo the word size. -/
structure Balanced (s : Index) : Prop where
  memory : s.memoryBytes = Table.total (fun e => usize e.raw.length) s.byId
  count : s.eventCount = Table.total (fun _ => 1) s.byId

theorem usize_liveCount (s : Index) : usize s.liveCount = Table.total (fun _ => 1) s.byId :=
  usize_total (fun _ => 1) s.byId

theorem accounted_iff_balanced {s : Index} (hf : Fits s) : Accounted s ↔ Balanced s := by
  constructor
  · rintro ⟨hm, hc⟩
    refine ⟨?_, ?_⟩
    · rw [← usize_total]
      apply BitVec.eq_of_toNat_eq
      rw [hm]
      exact (usize_toNat hf.bytes).symm
    · rw [← usize_liveCount]
      apply BitVec.eq_of_toNat_eq
      rw [hc, usize_toNat hf.events]
  · rintro ⟨hm, hc⟩
    refine ⟨?_, ?_⟩
    · rw [hm, ← usize_total]
      exact usize_toNat hf.bytes
    · rw [hc, ← usize_liveCount, usize_toNat hf.events]

theorem length_lt_of_fits {s : Index} (hf : Fits s) {id : Bytes32} {e : Event}
    (h : s.byId.lookup id = some e) : e.raw.length < 2 ^ 64 := by
  have := Table.total_erase (fun e : Event => e.raw.length) h
  have hb := hf.bytes
  unfold liveBytes at hb
  omega

/-! ## How each operation moves the counters -/

theorem Balanced.without {s : Index} (h : Balanced s) {x : Event} (hx : s.byId.lookup x.id = some x) :
    Balanced (s.without x) := by
  refine ⟨?_, ?_⟩
  · have := Table.total_erase (fun e : Event => usize e.raw.length) hx
    simp only [Index.without]
    rw [h.memory, ← this]
    ring
  · have := Table.total_erase (fun _ : Event => (1 : Usize)) hx
    simp only [Index.without]
    rw [h.count, ← this]
    ring

theorem Balanced.stored {s : Index} (h : Balanced s) {e : Event} (he : s.byId.lookup e.id = none) :
    Balanced (s.stored e) := by
  refine ⟨?_, ?_⟩
  · simp only [Index.stored]
    rw [Table.total_insert_of_none _ e he, h.memory]
    ring
  · simp only [Index.stored]
    rw [Table.total_insert_of_none _ e he, h.count]
    ring

theorem Balanced.withSlot {s : Index} (h : Balanced s) (e : Event) : Balanced (s.withSlot e) := by
  unfold Index.withSlot
  split
  · exact ⟨h.memory, h.count⟩
  · exact h

/-- Overwriting a live id keeps the balance exactly when the lengths agree. -/
theorem balanced_putId_iff {s : Index} (h : Balanced s) {e old : Event}
    (hl : s.byId.lookup e.id = some old) :
    Balanced (s.putId e) ↔ usize e.raw.length = usize old.raw.length := by
  have hm := Table.total_insert_of_some (fun e : Event => usize e.raw.length) e hl
  have hc := Table.total_insert_of_some (fun _ : Event => (1 : Usize)) e hl
  constructor
  · rintro ⟨hm', -⟩
    simp only [putId] at hm'
    rw [← hm', h.memory] at hm
    exact (add_right_cancel hm).symm
  · intro hlen
    refine ⟨?_, ?_⟩
    · simp only [putId]
      rw [hlen] at hm
      rw [h.memory]
      exact (add_left_cancel hm).symm
    · simp only [putId]
      rw [h.count]
      exact (add_left_cancel hc).symm

/-! ## Runs -/

/-- An insert of a live, non-replaceable id brings as many raw bytes as the stored event has. -/
def SameRawLength (s : Index) : Op → Prop
  | .insert e => e.isReplaceable = false →
      ∀ old, s.byId.lookup e.id = some old → e.raw.length = old.raw.length
  | _ => True

theorem Balanced.internalRemove {E : Event → Prop} {s : Index} (hI : Inv E s) (h : Balanced s)
    (id : Bytes32) (skip : Bool) : Balanced (s.internalRemove id skip).2 := by
  rcases hI.internalRemove_eq id skip with ⟨-, he⟩ | ⟨x, rfl, hx, he⟩
  · rw [he]
    exact h
  · rw [he]
    simp only
    split
    · exact ⟨(h.without hx).memory, (h.without hx).count⟩
    · exact h.without hx

/-- An insert that does not overwrite a live event with one of another length keeps the balance. -/
theorem Inserts.balanced {s s' : Index} {e : Event} {o : InsertOutcome} (hc : Inserts s e o s') (h : Balanced s)
    (hlen : SameRawLength s (.insert e)) : Balanced s' := by
  cases hc with
  | deleted ht => exact h
  | lostRace old hr hl hk hb => exact h
  | fresh ht hl hk => exact (h.withSlot e).stored (by rw [withSlot_byId]; exact hl)
  | replaced old ht hr hl ho hk hb =>
    rw [withSlot_without]
    refine ((h.without ho).withSlot e).stored ?_
    rw [withSlot_byId, without_lookup, hl]
    split <;> rfl
  | duplicate old ht hr hl =>
    rw [balanced_putId_iff h hl, hlen hr old hl]

/-- The counters stay right over one operation exactly when it is no insert that
overwrites a live event with one of another length. -/
theorem step_balanced_iff {ops : List Op} {s : Index} {op : Op} (hA : Agree (Inserted ops))
    (hop : op ∈ ops) (hI : Inv (Inserted ops) s) (hu : LiveUntombed s) (hf : Fits s)
    (hf' : Fits (s.apply op)) (h : Balanced s) : Balanced (s.apply op) ↔ SameRawLength s op := by
  cases op with
  | remove id => exact iff_of_true (h.internalRemove hI id true) trivial
  | deleteById id =>
    have := h.internalRemove hI id false
    exact iff_of_true ⟨this.memory, this.count⟩ trivial
  | insert e =>
    refine ⟨fun hb hr old hl => ?_, (insert_cases hI hA hop).balanced h⟩
    have ht : s.isTombstoned e.id = false := by
      rw [isTombstoned, Bool.eq_false_iff]
      exact fun hm => hu _ _ hl ((hI.contains_iff e.id).1 hm)
    simp only [Index.apply] at hb hf'
    rw [insert_of_regular hr ht, hl, Option.isSome_some, if_pos rfl] at hb hf'
    exact usize_inj (length_lt_of_fits hf' (by rw [putId_lookup, if_pos rfl])) (length_lt_of_fits hf hl)
      ((balanced_putId_iff h hl).1 hb)

/-- **Memory accounting.**  The counters are exact in every state of a run from
an empty index exactly when no insert of the run overwrites a live event with
one of another raw length. -/
theorem run_accounted_iff (ops : List Op) (hA : Agree (Inserted ops))
    (hfits : ∀ pre s, pre <+: ops → Machine.run step new pre = some s → Fits s) :
    (∀ pre s, pre <+: ops → Machine.run step new pre = some s → Accounted s) ↔
      Machine.Along step SameRawLength new ops := by
  have htotal : ∀ (as : List Op) (s : Index), ∃ t, Machine.run step s as = some t := by
    intro as
    induction as with
    | nil => exact fun s => ⟨s, rfl⟩
    | cons a as ih => exact fun s => ih (s.apply a)
  obtain ⟨t, ht⟩ := htotal ops new
  rw [← Machine.forall_prefix_iff Accounted
    (fun s => (Inv (Inserted ops) s ∧ LiveUntombed s) ∧ Fits s) ops new t ?_ ht ?_ ⟨rfl, rfl⟩]
  · exact ⟨fun h bs hbs u hu => h bs u hbs hu, fun h bs u hbs hu => h bs hbs u hu⟩
  · rintro s op s' hop hs ⟨⟨hI, hu⟩, hf⟩ ⟨-, hf'⟩ ha
    cases hs
    rw [accounted_iff_balanced hf']
    exact step_balanced_iff hA hop hI hu hf hf' ((accounted_iff_balanced hf).1 ha)
  · exact fun bs hbs u hu => ⟨run_inv hA hbs hu, hfits bs u hbs hu⟩

/-- The same note again with one space more: `Duplicate`, and the counter is one byte short. -/
theorem duplicate_drifts :
    Event.SameFields (note 0) (note 1) ∧ (note 0).id = (note 1).id ∧
    ((new.insert (note 0)).2.insert (note 1)).1 = .duplicate ∧
    ¬ Accounted ((new.insert (note 0)).2.insert (note 1)).2 := by
  have hlive : ((new.insert (note 0)).2.insert (note 1)).2.liveBytes = 345 := by
    rw [liveBytes_of_values [note 1] rfl, List.map_singleton, List.sum_singleton, length_raw_note]
  have hmemory : ((new.insert (note 0)).2.insert (note 1)).2.memoryBytes.toNat = 344 := by
    show (usize 0 + usize (note 0).raw.length).toNat = 344
    rw [length_raw_note]
    decide
  refine ⟨note_sameFields 0 1, rfl, rfl, fun h => ?_⟩
  have hbytes := h.memory
  rw [hlive, hmemory] at hbytes
  cases hbytes

theorem run_accounted_iff_note :
    (∀ pre s, pre <+: [Op.insert (note 0), Op.insert (note 1)] →
      Machine.run step new pre = some s → Accounted s) ↔
    Machine.Along step SameRawLength new [Op.insert (note 0), Op.insert (note 1)] := by
  refine run_accounted_iff _ ?_ ?_
  · intro a b ha hb _
    have hnote : ∀ x, Inserted [Op.insert (note 0), Op.insert (note 1)] x → ∃ n, x = note n := by
      intro x hx
      simp only [Inserted, List.mem_cons, Op.insert.injEq, List.not_mem_nil, or_false] at hx
      rcases hx with rfl | rfl
      · exact ⟨0, rfl⟩
      · exact ⟨1, rfl⟩
    obtain ⟨m, rfl⟩ := hnote a ha
    obtain ⟨n, rfl⟩ := hnote b hb
    exact note_sameFields m n
  · intro pre s hpre hs
    simp only [List.prefix_cons_iff, List.prefix_nil] at hpre
    rcases hpre with rfl | ⟨_, rfl, rfl | ⟨_, rfl, rfl⟩⟩
    · cases hs
      exact ⟨by decide, by decide⟩
    · cases hs
      refine ⟨?_, by decide⟩
      rw [liveBytes_of_values [note 0] rfl, List.map_singleton, List.sum_singleton, length_raw_note]
      decide
    · cases hs
      refine ⟨?_, by decide⟩
      rw [liveBytes_of_values [note 1] rfl, List.map_singleton, List.sum_singleton, length_raw_note]
      decide

end Index
end Memlay
