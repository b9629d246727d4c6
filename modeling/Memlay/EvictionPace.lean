import Memlay.Upkeep

/-!
# How eviction keeps up (`src/store/mod.rs`, `maybe_evict`)

A round that leaves the payload over its target has taken a whole batch, the 1000 oldest
events.  A round that finds the process over its limit takes the 5000 oldest or all there
are, for the measurement is not repeated between the chunks.  So from any state of a run
to any later one

    1000 · short + 5000 · pressed + live after ≤ live before + stored

where `short` rounds leave the payload over the target and `pressed` ones an event of a
process over its limit (`run_pace`); after such a round the next one is a second away.
-/

namespace Memlay

namespace Index

/-- The pause before the next round, in seconds. -/
def newInterval (maxBytes processMem amplification : Usize) (s : Index) : Nat :=
  let budget := payloadBudget maxBytes amplification
  if budget * 90 / 100 ≤ s.memoryBytes ∨ maxBytes ≤ processMem then 1
  else if budget * 70 / 100 ≤ s.memoryBytes then 2
  else 5

end Index

namespace EvictionPace

open Index (Agree Kept Exact Inserts removeAll payloadBudget)
open Upkeep (Turn Tally Given SameLength Sound Good)

/-- The run, and its rounds so far. -/
structure Pace where
  tally : Tally
  /-- `interval_seconds` -/
  interval : Nat
  /-- events stored -/
  stored : Nat
  /-- rounds that left the payload over the target -/
  short : Nat
  /-- rounds over the process limit that left an event -/
  pressed : Nat

/-- Nothing has been stored, and no round has run. -/
def Pace.start : Pace := ⟨.start, 10, 0, 0, 0⟩

def Pace.live (p : Pace) : Nat := p.tally.store.index.liveCount

/-- One for an event that was stored. -/
def storedAs : InsertResult → Nat
  | .stored _ _ => 1
  | _ => 0

/-- The number of events that a turn stores. -/
def storedBy (st : Store) : Turn → Nat
  | .insert e => storedAs (st.insert e).1
  | .insertBatch es => (st.insertBatch es).1.1
  | _ => 0

def IsShort (maxBytes processMem amplification : Usize) (s : Index) : Prop :=
  maxBytes ≠ 0 ∧ processMem ≤ maxBytes ∧ payloadBudget maxBytes amplification * 90 / 100 < s.memoryBytes

def IsPressed (maxBytes processMem : Usize) (s : Index) : Prop :=
  maxBytes ≠ 0 ∧ maxBytes < processMem ∧ 0 < s.liveCount

instance (maxBytes processMem amplification : Usize) (s : Index) :
    Decidable (IsShort maxBytes processMem amplification s) :=
  inferInstanceAs (Decidable (_ ∧ _))

instance (maxBytes processMem : Usize) (s : Index) : Decidable (IsPressed maxBytes processMem s) :=
  inferInstanceAs (Decidable (_ ∧ _))

/-- A round counts by what it leaves; without a limit it sets no pause. -/
def Pace.round (maxBytes processMem amplification : Usize) (p : Pace) (t : Tally) : Pace where
  tally := t
  interval := if maxBytes = 0 then p.interval
      else p.tally.store.index.newInterval maxBytes processMem amplification
  stored := p.stored
  short := if IsShort maxBytes processMem amplification t.store.index then p.short + 1 else p.short
  pressed := if IsPressed maxBytes processMem t.store.index then p.pressed + 1 else p.pressed

def step (maxBytes : Usize) (p : Pace) (turn : Turn) : Option Pace :=
  (Upkeep.step maxBytes p.tally turn).map fun t =>
    match turn with
    | .maybeEvict processMem amplification => p.round maxBytes processMem amplification t
    | turn => { p with tally := t, stored := p.stored + storedBy p.tally.store turn }

/-! ## Counting the live events -/

section
variable {E : Event → Prop} {s : Index}

/-- A removal leaves no more events live. -/
theorem liveCount_internalRemove (h : Kept E s) (id : Bytes32) (skip : Bool) :
    (s.internalRemove id skip).2.liveCount ≤ s.liveCount := by
  rcases h.inv.internalRemove_eq id skip with ⟨-, he⟩ | ⟨x, rfl, hx, he⟩
  · rw [he]
  · have hone := Index.liveCount_without hx
    rw [he]
    simp only
    split
    · show (s.without x).liveCount ≤ s.liveCount
      omega
    · omega

/-- An insert adds an event at most when it stores one. -/
theorem liveCount_inserts {s' : Index} {e : Event} {out : InsertOutcome} (hc : Inserts s e out s') :
    s'.liveCount ≤ s.liveCount ∨ ∃ replaced, out = .inserted replaced ∧ s'.liveCount ≤ s.liveCount + 1 := by
  have hstored : ∀ {s : Index}, s.byId.lookup e.id = none →
      ((s.withSlot e).stored e).liveCount = s.liveCount + 1 := by
    intro s hnone
    have htotal := Table.total_insert_of_none (fun _ : Event => 1) e hnone
    rw [Nat.add_comm]
    unfold Index.liveCount Index.stored
    simp only [Index.withSlot_byId]
    exact htotal
  cases hc with
  | deleted | lostRace => exact .inl (Nat.le_refl _)
  | duplicate old _ _ hl =>
    have hsum := Table.total_insert_of_some (fun _ : Event => 1) e hl
    exact .inl (Nat.add_left_cancel hsum).le
  | fresh _ hl => exact .inr ⟨none, rfl, (hstored hl).le⟩
  | replaced old _ _ hl ho =>
    have hold := Index.liveCount_without ho
    have hnone : (s.without old).byId.lookup e.id = none := by
      rw [Index.without_lookup, hl]
      split <;> rfl
    refine .inl ?_
    rw [Index.withSlot_without, hstored hnone]
    omega

end

/-! ## What a turn does to the number of live events -/

section
variable {E : Event → Prop} {st : Store}

/-- An insert brings in the event it stores, at most. -/
theorem liveCount_insert (h : Sound E st) (hA : Agree E) {e : Event} (hE : E e) :
    (st.insert e).2.index.liveCount ≤ st.index.liveCount + storedAs (st.insert e).1 := by
  rw [Store.insert_index]
  split
  · exact Nat.le_add_right _ _
  · rename_i he
    rcases liveCount_inserts (Index.insert_cases h.kept.inv hA hE) with hcount | ⟨replaced, hout, hcount⟩
    · exact hcount.trans (Nat.le_add_right _ _)
    · have hstored : storedAs (st.insert e).1 = 1 := by
        unfold Store.insert
        rw [if_neg he]
        generalize st.index.insert e = r at hout
        obtain ⟨out, s⟩ := r
        cases hout
        rfl
      rw [hstored]
      exact hcount

theorem liveCount_batchEvent (h : Sound E st) (hA : Agree E) {e : Event} (hE : E e) (counts : Nat × List Event) :
    (Store.batchEvent (counts, st) e).2.index.liveCount + counts.1 ≤
      st.index.liveCount + (Store.batchEvent (counts, st) e).1.1 := by
  have hcounts : counts.1 ≤ (Store.batchEvent (counts, st) e).1.1 := by
    unfold Store.batchEvent
    simp only
    split
    · exact Nat.le_refl _
    · generalize st.index.insert e = r
      obtain ⟨out, s⟩ := r
      cases out with
      | inserted => exact Nat.le_succ _
      | duplicate | deleted | lostRace => exact Nat.le_refl _
  rw [Store.batchEvent_index]
  split
  · exact Nat.add_le_add_left hcounts _
  · rename_i he
    rcases liveCount_inserts (Index.insert_cases h.kept.inv hA hE) with hcount | ⟨replaced, hout, hcount⟩
    · exact Nat.add_le_add hcount hcounts
    · have hstored : (Store.batchEvent (counts, st) e).1.1 = counts.1 + 1 := by
        unfold Store.batchEvent
        simp only [if_neg he]
        generalize st.index.insert e = r at hout
        obtain ⟨out, s⟩ := r
        cases hout
        rfl
      rw [hstored]
      show (st.index.insert e).2.liveCount + counts.1 ≤ _
      omega

/-- A batch brings in the events it stores. -/
theorem liveCount_insertBatch (h : Sound E st) (hA : Agree E) (hlen : SameLength E) {es : List Event}
    (hE : ∀ e ∈ es, E e) : (st.insertBatch es).2.index.liveCount ≤ st.index.liveCount +
    (st.insertBatch es).1.1 := by
  have hgen : ∀ (es : List Event), (∀ e ∈ es, E e) → ∀ p : (Nat × List Event) × Store, Sound E p.2 →
      p.2.index.liveCount ≤ st.index.liveCount + p.1.1 →
      (es.foldl Store.batchEvent p).2.index.liveCount ≤ st.index.liveCount +
      (es.foldl Store.batchEvent p).1.1 := by
    intro es
    induction es with
    | nil => exact fun _ p _ hp => hp
    | cons e es ih =>
      rintro hes ⟨counts, st'⟩ hsound hp
      have hone : (Store.batchEvent (counts, st') e).2.index.liveCount + counts.1 ≤
          st'.index.liveCount + (Store.batchEvent (counts, st') e).1.1 :=
        liveCount_batchEvent hsound hA (hes e List.mem_cons_self) counts
      have hsound' : Sound E (Store.batchEvent (counts, st') e).2 :=
        (hsound.batchEvent hA hlen (hes e List.mem_cons_self) counts).sound
      refine ih (fun a ha => hes a (List.mem_cons_of_mem e ha)) _ hsound' ?_
      simp only at hp
      omega
  exact hgen es hE ((0, []), st) h (Nat.le_refl _)

/-- A deletion leaves no more events live. -/
theorem liveCount_applyDeletion (h : Sound E st) (hA : Agree E) (ids : List Bytes32)
    (coordinates : List Coordinate)
    (author : Bytes32) (until_ : Nat) :
    (st.applyDeletion ids coordinates author until_).2.index.liveCount ≤ st.index.liveCount := by
  refine (Store.applyDeletion_invariant (P := fun st' => Sound E st' ∧ st'.index.liveCount ≤ st.index.liveCount) ?_
    ids coordinates author until_ ⟨h, Nat.le_refl _⟩).2
  intro out st' id y hst _
  exact ⟨(hst.1.deleteTarget hA out id).sound, (liveCount_internalRemove hst.1.kept id false).trans hst.2⟩

end

/-! ## Rounds -/

section
variable {E : Event → Prop} {s : Index} {maxBytes processMem amplification : Usize}

/-- A round that falls short has removed a whole batch. -/
theorem liveCount_of_isShort (hk : Kept E s) (hA : Agree E) (hx : Exact E s)
    (maxBytes processMem amplification : Usize)
    (hshort : IsShort maxBytes processMem amplification (s.maybeEvict maxBytes processMem amplification)) :
    (s.maybeEvict maxBytes processMem amplification).liveCount + 1000 = s.liveCount := by
  obtain ⟨hmax, hrss, hmem⟩ := hshort
  obtain ⟨removed, heq, hcount, -, hends⟩ := hx.maybeEvict_removes hk hA hmax processMem amplification
  have hx' := (hx.maybeEvict maxBytes processMem amplification).1
  rw [heq] at hmem hx' ⊢
  -- what is left has bytes, so it is not empty
  have hsome : (s.removeAll removed).liveCount ≠ 0 := by
    intro hzero
    rw [BitVec.lt_def, hx'.memoryBytes_zero hzero] at hmem
    exact Nat.not_lt_zero _ hmem
  rcases hends with ⟨hle, -⟩ | hall
  · exact absurd hmem (BitVec.not_lt.2 hle)
  · rw [if_neg (BitVec.not_lt.2 hrss)] at hall
    omega

theorem liveCount_of_isPressed (hk : Kept E s) (hA : Agree E) (hx : Exact E s)
    (maxBytes processMem amplification : Usize)
    (hpressed : IsPressed maxBytes processMem (s.maybeEvict maxBytes processMem amplification)) :
    (s.maybeEvict maxBytes processMem amplification).liveCount + 5000 = s.liveCount := by
  obtain ⟨hmax, hrss, hsome⟩ := hpressed
  obtain ⟨removed, heq, hcount, -, hends⟩ := hx.maybeEvict_removes hk hA hmax processMem amplification
  rw [heq] at hsome ⊢
  rcases hends with ⟨-, hle⟩ | hall
  · exact absurd hrss (BitVec.not_lt.2 hle)
  · rw [if_pos hrss] at hall
    omega

theorem liveCount_maybeEvict (hk : Kept E s) (hA : Agree E) (maxBytes processMem amplification : Usize) :
    (s.maybeEvict maxBytes processMem amplification).liveCount ≤ s.liveCount :=
  (Index.maybeEvict_keeps (P := fun s' => Kept E s' ∧ s'.liveCount ≤ s.liveCount)
    (fun _ id h => ⟨h.1.remove hA id, (liveCount_internalRemove h.1 id true).trans h.2⟩) ⟨hk, Nat.le_refl _⟩
    maxBytes processMem amplification).2

end

/-! ## Runs -/

/-- From `p` to `q` the live events have paid for the rounds. -/
def Paid (p q : Pace) : Prop :=
  1000 * q.short + 5000 * q.pressed + q.live + p.stored ≤ 1000 * p.short + 5000 * p.pressed + p.live + q.stored

theorem Paid.trans {p q r : Pace} (h : Paid p q) (h' : Paid q r) : Paid p r := by
  unfold Paid at h h' ⊢
  omega

section
variable {E : Event → Prop} {maxBytes : Usize} {p q : Pace} {turn : Turn}

/-- The counters are those of the run of upkeep. -/
theorem tally_step (hs : step maxBytes p turn = some q) : Upkeep.step maxBytes p.tally turn = some q.tally := by
  unfold step at hs
  obtain ⟨t, ht, rfl⟩ := Option.map_eq_some_iff.1 hs
  rw [ht]
  cases turn <;> rfl

/-- A checkpoint is none of the index's business. -/
theorem index_maybeCheckpoint {t t' : Tally} {es : List Event} (h : Sound E t.store)
    (hs : Upkeep.step maxBytes t (.maybeCheckpoint es) = some t') : t'.store.index = t.store.index := by
  have hindex : (t.store.maybeCheckpoint es).index = t.store.index := by
    unfold Store.maybeCheckpoint
    split
    · exact (h.checkpoint es).2.2
    · rfl
  simp only [Upkeep.step] at hs
  split at hs
  · split at hs
    · cases hs
      exact hindex
    · cases hs
  · cases hs
    exact hindex

/-- A round that is short or pressed takes its events out. -/
theorem paid_round (h : Good E p.tally) (hA : Agree E) (hfits : p.tally.logged < 2 ^ 64 - 1)
    (processMem amplification : Usize) {t : Tally}
    (ht : t.store.index = p.tally.store.index.maybeEvict maxBytes processMem amplification) :
    Paid p (p.round maxBytes processMem amplification t) := by
  have hx := h.exact hfits
  have hle := liveCount_maybeEvict h.sound.kept hA maxBytes processMem amplification
  have hshort := liveCount_of_isShort h.sound.kept hA hx maxBytes processMem amplification
  have hpressed := liveCount_of_isPressed h.sound.kept hA hx maxBytes processMem amplification
  show 1000 * (if IsShort maxBytes processMem amplification t.store.index then p.short + 1 else p.short) +
    5000 * (if IsPressed maxBytes processMem t.store.index then p.pressed + 1 else p.pressed) +
      t.store.index.liveCount + p.stored ≤
    1000 * p.short + 5000 * p.pressed + p.tally.store.index.liveCount + p.stored
  rw [ht]
  -- within the limit a round is not pressed, over it not short
  by_cases hrss : maxBytes < processMem
  · rw [if_neg fun hc : IsShort _ _ _ _ => BitVec.not_lt.2 hc.2.1 hrss]
    split
    · rename_i hp
      have hcount := hpressed hp
      omega
    · omega
  · rw [if_neg fun hc : IsPressed _ _ _ => hrss hc.2.1]
    split
    · rename_i hp
      have hcount := hshort hp
      omega
    · omega

/-- The step lemma. -/
theorem paid_step (h : Good E p.tally) (hA : Agree E) (hlen : SameLength E) (hfits : p.tally.logged < 2 ^ 64 - 1)
    (hE : ∀ e, Given [turn] e → E e) (hs : step maxBytes p turn = some q) : Paid p q := by
  have hplain : ∀ n, q = { p with tally := q.tally, stored := p.stored + n } →
      q.tally.store.index.liveCount ≤ p.tally.store.index.liveCount + n → Paid p q := by
    intro n hq hcount
    rw [hq]
    unfold Paid Pace.live
    simp only
    omega
  unfold step at hs
  obtain ⟨t, ht', rfl⟩ := Option.map_eq_some_iff.1 hs
  cases turn with
  | insert e =>
    cases ht'
    exact hplain _ rfl (liveCount_insert h.sound hA (hE e (.inl List.mem_cons_self)))
  | insertBatch es =>
    cases ht'
    exact hplain _ rfl (liveCount_insertBatch h.sound hA hlen fun e he => hE e (.inr ⟨es, List.mem_cons_self, he⟩))
  | applyDeletion ids coordinates author until_ =>
    cases ht'
    exact hplain 0 rfl (liveCount_applyDeletion h.sound hA ids coordinates author until_)
  | maybeEvict processMem amplification =>
    cases ht'
    exact paid_round h hA hfits processMem amplification rfl
  | maybeCheckpoint es =>
    refine hplain 0 rfl ?_
    show t.store.index.liveCount ≤ p.tally.store.index.liveCount
    rw [index_maybeCheckpoint h.sound ht']

theorem interval_round (h : Good E p.tally) (hfits : p.tally.logged < 2 ^ 64 - 1)
    {processMem amplification : Usize}
    (hs : step maxBytes p (.maybeEvict processMem amplification) = some q)
    (hlate : q.short ≠ p.short ∨ q.pressed ≠ p.pressed) : q.interval = 1 := by
  have hx := h.exact hfits
  cases hs
  have hle : (p.tally.store.index.maybeEvict maxBytes processMem amplification).memoryBytes ≤
      p.tally.store.index.memoryBytes := (hx.maybeEvict maxBytes processMem amplification).2
  have hnear : maxBytes ≠ 0 ∧ (payloadBudget maxBytes amplification * 90 / 100 ≤ p.tally.store.index.memoryBytes ∨
      maxBytes ≤ processMem) := by
    rcases hlate with hshort | hpressed
    · by_cases hc : IsShort maxBytes processMem amplification
          (p.tally.store.index.maybeEvict maxBytes processMem amplification)
      · exact ⟨hc.1, .inl (BitVec.le_trans (BitVec.le_of_lt hc.2.2) hle)⟩
      · exact absurd (if_neg hc) hshort
    · by_cases hc : IsPressed maxBytes processMem
          (p.tally.store.index.maybeEvict maxBytes processMem amplification)
      · exact ⟨hc.1, .inr (BitVec.le_of_lt hc.2.1)⟩
      · exact absurd (if_neg hc) hpressed
  show (if maxBytes = 0 then p.interval else p.tally.store.index.newInterval maxBytes processMem amplification) = 1
  rw [if_neg hnear.1]
  exact if_pos hnear.2

end

section
variable {E : Event → Prop} {maxBytes : Usize} {turns more : List Turn} {p q : Pace}

theorem run_logged (hrun : Machine.run (step maxBytes) p turns = some q) : p.tally.logged ≤ q.tally.logged := by
  refine Machine.run_invariant_mem (I := fun r : Pace => p.tally.logged ≤ r.tally.logged) ?_ hrun (Nat.le_refl _)
  exact fun r turn r' hs _ hr => hr.trans (Upkeep.step_logged (tally_step hs))

/-- The run lemma. -/
theorem run_paid (hA : Agree E) (hlen : SameLength E) (hraw : ∀ e, E e → e.raw ≠ [])
    (hE : ∀ e, Given turns e → E e)
    (hp : Good E p.tally) (hrun : Machine.run (step maxBytes) p turns = some q)
    (hfits : q.tally.logged < 2 ^ 64 - 1) :
    Good E q.tally ∧ Paid p q := by
  refine Machine.run_invariant_mem
      (I := fun r : Pace => r.tally.logged < 2 ^ 64 - 1 → Good E r.tally ∧ Paid p r) ?_
    hrun (fun _ => ⟨hp, Nat.le_refl _⟩) hfits
  intro r turn r' hs hturn hr hfits'
  have hlogged := Upkeep.step_logged (tally_step hs)
  obtain ⟨hgood, hpaid⟩ := hr (by omega)
  have hgiven : ∀ e, Given [turn] e → E e := fun e he => hE e (he.mono (by simpa using hturn))
  exact ⟨hgood.step hA hlen hraw (by omega) hgiven (tally_step hs),
    hpaid.trans (paid_step hgood hA hlen (by omega) hgiven hs)⟩

/-- From any state of a run to any later one: a round that falls short is paid for with
1000 events and a pressed one with 5000, by those that were live or have been stored
since; and the round after such a one is a second away. -/
theorem run_pace (hA : Agree (Given (turns ++ more))) (hlen : SameLength (Given (turns ++ more)))
    (hraw : ∀ e, Given (turns ++ more) e → e.raw ≠ []) (hp : Machine.run (step maxBytes) .start turns = some p)
    (hq : Machine.run (step maxBytes) p more = some q) (hfits : q.tally.logged < 2 ^ 64 - 1) :
    1000 * q.short + 5000 * q.pressed + q.live + p.stored ≤ 1000 * p.short + 5000 * p.pressed + p.live + q.stored ∧
      ∀ processMem amplification q', step maxBytes q (.maybeEvict processMem amplification) = some q' →
        q'.short ≠ q.short ∨ q'.pressed ≠ q.pressed → q'.interval = 1 := by
  have hfits' := run_logged hq
  have hturns : ∀ e, Given turns e → Given (turns ++ more) e :=
    fun e he => he.mono (List.subset_append_left turns more)
  have hmore : ∀ e, Given more e → Given (turns ++ more) e :=
    fun e he => he.mono (List.subset_append_right turns more)
  obtain ⟨hgood, -⟩ := run_paid hA hlen hraw hturns (Upkeep.good_start _) hp (by omega)
  obtain ⟨hgood', hpaid⟩ := run_paid hA hlen hraw hmore hgood hq hfits
  exact ⟨hpaid, fun processMem amplification q' hs hlate => interval_round hgood' hfits hs hlate⟩

end

/-! ## A store that is too full -/

/-- The note under another id. -/
def numbered (k : Nat) : Event := { note 0 with id := BitVec.ofNat 256 k }

def IsNumbered (e : Event) : Prop := ∃ k, e = numbered k

def fill (n : Nat) : List Turn := (List.range n).map fun k => .insert (numbered k)

/-- `n` notes are stored, and the next ones are new. -/
structure Filled (n : Nat) (p : Pace) : Prop where
  good : Good IsNumbered p.tally
  live : p.live = n
  new : ∀ k, n ≤ k → k < 2 ^ 64 → p.tally.store.index.byId.lookup (numbered k).id = none
  tombs : p.tally.store.index.tombstones.ids = ∅
  logged : p.tally.logged = 349 * n
  stored : p.stored = n
  short : p.short = 0
  pressed : p.pressed = 0

theorem numbered_apart : Agree IsNumbered ∧ SameLength IsNumbered ∧ ∀ e, IsNumbered e → e.raw ≠ [] := by
  refine ⟨?_, ?_, ?_⟩
  · rintro a b ⟨i, rfl⟩ ⟨j, rfl⟩ -
    exact ⟨rfl, rfl, rfl, rfl, rfl⟩
  · rintro a b ⟨i, rfl⟩ ⟨j, rfl⟩ -
    rfl
  · rintro e ⟨i, rfl⟩
    show (note 0).raw ≠ []
    decide

theorem numbered_ne {i j : Nat} (hi : i < 2 ^ 64) (hj : j < 2 ^ 64) (hne : i ≠ j) :
    (numbered i).id ≠ (numbered j).id := by
  intro heq
  have hnat := congrArg BitVec.toNat heq
  simp only [numbered, BitVec.toNat_ofNat] at hnat
  omega

section
variable {n : Nat} {p : Pace}

theorem Filled.insert (h : Filled n p) (hn : n < 2 ^ 64) :
    ∃ q, step 1 p (.insert (numbered n)) = some q ∧ Filled (n + 1) q := by
  obtain ⟨hA, hlen, -⟩ := numbered_apart
  obtain ⟨hres, hindex, hlog⟩ := h.good.sound.insert_fresh hA ⟨n, rfl⟩ rfl rfl
    (by rw [h.tombs]; exact Finset.notMem_empty _) (h.new n (Nat.le_refl n) hn)
  refine ⟨_, rfl, h.good.after (h.good.sound.insert hA hlen ⟨n, rfl⟩), ?_, fun k hk hk' => ?_, ?_, ?_, ?_, h.short,
    h.pressed⟩
  · show (p.tally.store.insert (numbered n)).2.index.liveCount = n + 1
    have htotal : (p.tally.store.index.stored (numbered n)).liveCount = 1 + p.live :=
      Table.total_insert_of_none (fun _ : Event => 1) (numbered n) (h.new n (Nat.le_refl n) hn)
    rw [hindex, htotal, h.live, Nat.add_comm]
  · show (p.tally.store.insert (numbered n)).2.index.byId.lookup (numbered k).id = none
    rw [hindex]
    show (p.tally.store.index.byId.insert (numbered n).id (numbered n)).lookup (numbered k).id = none
    rw [AList.lookup_insert_ne (numbered_ne hk' hn (by omega))]
    exact h.new k (by omega) hk'
  · show (p.tally.store.insert (numbered n)).2.index.tombstones.ids = ∅
    rw [hindex]
    exact h.tombs
  · show p.tally.logged + ((p.tally.store.insert (numbered n)).2.logLength - p.tally.store.logLength) =
        349 * (n + 1)
    rw [hlog, h.logged, show (numbered n).raw = (note 0).raw from rfl, length_raw_note]
    omega
  · show p.stored + storedAs (p.tally.store.insert (numbered n)).1 = n + 1
    rw [hres, h.stored]
    rfl

end

theorem filled {n : Nat} (hn : n ≤ 2 ^ 64) : ∃ p, Machine.run (step 1) .start (fill n) = some p ∧ Filled n p := by
  induction n with
  | zero => exact ⟨.start, rfl, Upkeep.good_start _, rfl, fun _ _ _ => rfl, rfl, rfl, rfl, rfl, rfl⟩
  | succ n ih =>
    obtain ⟨p, hrun, h⟩ := ih (by omega)
    obtain ⟨q, hstep, h'⟩ := h.insert (by omega)
    refine ⟨q, ?_, h'⟩
    unfold fill
    rw [List.range_succ, List.map_append, Machine.run_append]
    change (Machine.run (step 1) .start (fill n)).bind _ = _
    rw [hrun]
    exact (Machine.run_cons_eq_some _).2 ⟨q, hstep, rfl⟩

theorem given_fill {n : Nat} {more : List Turn} (hmore : ∀ turn ∈ more, ∃ processMem amplification,
    turn = .maybeEvict processMem amplification) {e : Event} (h : Given (fill n ++ more) e) : IsNumbered e := by
  have hno : ∀ {turn : Turn}, turn ∈ fill n ++ more → (∃ k, turn = .insert (numbered k)) ∨
      ∃ processMem amplification, turn = .maybeEvict processMem amplification := by
    intro turn hturn
    rcases List.mem_append.1 hturn with hturn | hturn
    · obtain ⟨k, -, hk⟩ := List.mem_map.1 hturn
      exact Or.inl ⟨k, hk.symm⟩
    · exact Or.inr (hmore turn hturn)
  rcases h with h | ⟨es, h, -⟩
  · rcases hno h with ⟨k, hk⟩ | ⟨processMem, amplification, hk⟩
    · cases hk
      exact ⟨k, rfl⟩
    · cases hk
  · rcases hno h with ⟨k, hk⟩ | ⟨processMem, amplification, hk⟩
    · cases hk
    · cases hk

/-- Under a limit of one byte a round takes its whole batch, where it finds more. -/
theorem liveCount_tight {E : Event → Prop} {s : Index} (hk : Kept E s) (hA : Agree E) (hx : Exact E s)
    (hraw : ∀ e, E e → e.raw ≠ []) {processMem : Usize} {batchSize : Nat}
    (hbatch : (if 1 < processMem then 5000 else 1000) = batchSize) (hmany : batchSize < s.liveCount) :
    (s.maybeEvict 1 processMem 1000).liveCount + batchSize = s.liveCount := by
  obtain ⟨removed, heq, hcount, hfew, hends⟩ :=
    hx.maybeEvict_removes hk hA (show (1 : Usize) ≠ 0 by decide) processMem 1000
  have hleft := (hx.maybeEvict 1 processMem 1000).1
  rw [heq] at hleft ⊢
  rw [hbatch] at hfew hends
  rcases hends with ⟨hmem, -⟩ | hall
  · -- the target is no byte, so nothing would be left
    have hbytes := hleft.inv.liveCount_le hraw
    rw [BitVec.le_def, hleft.memoryBytes] at hmem
    have hzero : (payloadBudget 1 1000 * 90 / 100).toNat = 0 := by decide
    omega
  · omega

/-- A round of a process at the limit, and one of a process over it. -/
def roundsTight : List Turn := [.maybeEvict 1 1000, .maybeEvict 2 1000]

/-- 6001 events, a round that takes 1000 of them and leaves the payload over the target,
and one over the limit that leaves an event. -/
theorem run_pace_fill : ∃ p q, Machine.run (step 1) .start (fill 6001) = some p ∧
    Machine.run (step 1) p roundsTight = some q ∧ q.short = 1 ∧ q.pressed = 1 ∧ q.live = 1 ∧
      1000 * q.short + 5000 * q.pressed + q.live + p.stored ≤ 1000 * p.short + 5000 * p.pressed + p.live +
          q.stored := by
  obtain ⟨hA, hlen, hraw⟩ := numbered_apart
  obtain ⟨p, hp, h⟩ := filled (n := 6001) (by decide)
  have hfits : p.tally.logged < 2 ^ 64 - 1 := by
    rw [h.logged]
    decide
  have hx := h.good.exact hfits
  let s : Index := p.tally.store.index.maybeEvict 1 1 1000
  let q₁ : Pace := p.round 1 1 1000 (p.tally.after { p.tally.store with index := s })
  let q₂ : Pace := q₁.round 1 2 1000 (q₁.tally.after { q₁.tally.store with index := s.maybeEvict 1 2 1000 })
  have hrun : Machine.run (step 1) p roundsTight = some q₂ := rfl
  have hx' : Exact IsNumbered s := (hx.maybeEvict 1 1 1000).1
  have hk' : Kept IsNumbered s := h.good.sound.kept.maybeEvict hA 1 1 1000
  have hlive : p.tally.store.index.liveCount = 6001 := h.live
  have hfirst : s.liveCount + 1000 = p.tally.store.index.liveCount :=
    liveCount_tight h.good.sound.kept hA hx hraw (by decide) (by omega)
  have hsecond : (s.maybeEvict 1 2 1000).liveCount + 5000 = s.liveCount :=
    liveCount_tight hk' hA hx' hraw (by decide) (by omega)
  have hshort : q₂.short = 1 := by
    have hover : IsShort 1 1 1000 s := by
      refine ⟨by decide, by decide, ?_⟩
      have hbytes := hx'.inv.liveCount_le hraw
      have hzero : (payloadBudget 1 1000 * 90 / 100).toNat = 0 := by decide
      rw [BitVec.lt_def, hx'.memoryBytes]
      omega
    -- the round over the limit is not short
    show (if IsShort 1 2 1000 (s.maybeEvict 1 2 1000) then q₁.short + 1 else q₁.short) = 1
    rw [if_neg fun hc => absurd hc.2.1 (by decide)]
    show (if IsShort 1 1 1000 s then p.short + 1 else p.short) = 1
    rw [if_pos hover, h.short]
  have hpressed : q₂.pressed = 1 := by
    have hover : IsPressed 1 2 (s.maybeEvict 1 2 1000) := ⟨by decide, by decide, by omega⟩
    show (if IsPressed 1 2 (s.maybeEvict 1 2 1000) then q₁.pressed + 1 else q₁.pressed) = 1
    rw [if_pos hover]
    show (if IsPressed 1 1 s then p.pressed + 1 else p.pressed) + 1 = 1
    rw [if_neg fun hc => absurd hc.2.1 (by decide), h.pressed]
  have hgiven : ∀ {e : Event}, Given (fill 6001 ++ roundsTight) e → IsNumbered e := fun he => given_fill (by
    simp [roundsTight]) he
  have hlogged : q₂.tally.logged < 2 ^ 64 - 1 := by
    show p.tally.logged + (p.tally.store.logLength - p.tally.store.logLength) +
      (p.tally.store.logLength - p.tally.store.logLength) < _
    rwa [Nat.sub_self]
  refine ⟨p, q₂, hp, hrun, hshort, hpressed, ?_, ?_⟩
  · show (s.maybeEvict 1 2 1000).liveCount = 1
    omega
  · exact (run_pace (fun a b ha hb => hA a b (hgiven ha) (hgiven hb))
        (fun a b ha hb => hlen a b (hgiven ha) (hgiven hb))
      (fun e he => hraw e (hgiven he)) hp hrun hlogged).1

end EvictionPace
end Memlay
