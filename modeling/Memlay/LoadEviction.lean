import Memlay.NewestOldest
import Memlay.Recovery

/-!
# Eviction during a load

`ingest` removes the oldest event until the payload is down to the target.  A round makes
progress only when the entry it finds in the shards is of a live event; then the loop
ends at the target or with nothing live.  Records are not verified when they are read, and
one of them breaks this: a live id with another time.  The map takes the new object, the
shard keeps the entry with the old time, and no later removal finds it.  Once such an
entry is the oldest the loop goes round for ever (`stale_entry_spins`).  Without such a
record every ingest ends within bounds (`load_bounded`).
-/

namespace Memlay

open Store (Rec replayOp)

namespace Index

/-! ## The loop and its rounds -/

theorem length_entries (s : Index) : s.byId.entries.length = Table.total (fun _ : Event => 1) s.byId := by
  unfold Table.total Table.values
  rw [List.map_map, Function.comp_def, List.map_const', List.sum_replicate]
  simp

theorem length_entries_remove {s : Index} {id : Bytes32} {e : Event} (h : s.byId.lookup id = some e) :
    (s.remove id).2.byId.entries.length + 1 = s.byId.entries.length := by
  have hbyId : (s.remove id).2.byId = s.byId.erase id := by
    unfold Index.remove internalRemove
    rw [h]
    simp only [Bool.not_true, Bool.false_and, Bool.false_eq_true, if_false, cleanupSecondaryIndexes_eq]
    rfl
  have htotal := Table.total_erase (fun _ : Event => 1) h
  rw [length_entries, length_entries, hbyId, ← htotal, Nat.add_comm]

/-- A round that removes nothing is repeated for ever. -/
theorem evictTo_stuck {s : Index} {target : Usize} {e : Event} {rest : List Event} (hmem : target < s.memoryBytes)
    (hold : s.getOldest 1 = e :: rest) (hnone : s.byId.lookup e.id = none) (rounds : Nat) :
    s.evictTo target rounds = none := by
  induction rounds with
  | zero => rfl
  | succ rounds ih =>
    unfold evictTo
    rw [if_pos hmem, hold]
    simp only
    rw [Index.remove, internalRemove_none hnone]
    exact ih

/-- One round more than there are live events is enough to see that a loop does not end. -/
theorem evictTo_forever {s : Index} {target : Usize} (h : s.evictTo target (s.byId.entries.length + 1) = none)
    (rounds : Nat) : s.evictTo target rounds = none := by
  generalize hn : s.byId.entries.length = n at h
  induction n generalizing s rounds with
  | zero =>
    unfold evictTo at h
    split at h
    · rename_i hmem
      split at h
      · cases h
      · rename_i e rest hold
        refine evictTo_stuck hmem hold ?_ rounds
        by_contra hne
        obtain ⟨x, hx⟩ := Option.ne_none_iff_exists'.1 hne
        have := length_entries_remove hx
        omega
    · cases h
  | succ n ih =>
    unfold evictTo at h
    split at h
    · rename_i hmem
      split at h
      · cases h
      · rename_i e rest hold
        cases hx : s.byId.lookup e.id with
        | none => exact evictTo_stuck hmem hold hx rounds
        | some x =>
          have hlen := length_entries_remove hx
          cases rounds with
          | zero => rfl
          | succ rounds =>
            unfold evictTo
            rw [if_pos hmem, hold]
            exact ih rounds (by omega) h
    · cases h

/-! ## Shards that follow `by_id` -/

/-- Each entry of the shards is of a live event with its time, and each live event has one. -/
structure Sharded (s : Index) : Prop where
  keyed : ∀ id e, s.byId.lookup id = some e → e.id = id
  sorted : ∀ shard, (s.sets (.oldest shard)).Pairwise Event.Beats
  live : ∀ shard, ∀ x ∈ s.sets (.oldest shard), shard = oldestShard x.id ∧
    ∃ e, s.byId.lookup x.id = some e ∧ e.createdAt = x.createdAt
  filed : ∀ id e, s.byId.lookup id = some e → ∃ x ∈ s.sets (.oldest (oldestShard id)), x.id = id

theorem count_oldest (e : Event) (shard : Nat) :
    e.buckets.count (.oldest shard) = if shard = oldestShard e.id then 1 else 0 := by
  have hother : ∀ l : List Bucket, (∀ b ∈ l, ∀ n, b ≠ .oldest n) → l.count (.oldest shard) = 0 :=
    fun l hl => List.count_eq_zero.2 fun hm => hl _ hm shard rfl
  unfold Event.buckets
  rw [List.count_cons_of_ne (by simp), List.count_cons_of_ne (by simp), List.count_append, List.count_append,
    List.count_append, hother, hother, hother, List.count_singleton]
  · simp only [beq_iff_eq, Bucket.oldest.injEq, Nat.zero_add]
    by_cases h : shard = oldestShard e.id
    · rw [if_pos h, if_pos h.symm]
    · rw [if_neg h, if_neg (Ne.symm h)]
  all_goals
    intro b hb n
    simp only [List.mem_map, List.mem_filterMap, Option.map_eq_some_iff] at hb
  · obtain ⟨t, -, lv, -, rfl⟩ := hb
    simp
  · obtain ⟨t, -, rfl⟩ := hb
    simp
  · obtain ⟨t, -, rfl⟩ := hb
    simp

theorem dropSets_oldest (f : Bucket → List Event) (e : Event) (shard : Nat) :
    dropSets f e (.oldest shard) =
      if shard = oldestShard e.id then setRemove e (f (.oldest shard)) else f (.oldest shard) := by
  unfold dropSets
  rw [foldl_update_apply, count_oldest]
  split <;> rfl

theorem addSets_oldest (f : Bucket → List Event) (e : Event) (shard : Nat) :
    addSets f e (.oldest shard) =
      if shard = oldestShard e.id then setInsert e (f (.oldest shard)) else f (.oldest shard) := by
  unfold addSets
  rw [foldl_update_apply, count_oldest]
  split <;> rfl

section
variable {s : Index} {e : Event}

theorem sharded_new : Sharded new where
  keyed := by intro id e h; simp [new] at h
  sorted := fun _ => List.Pairwise.nil
  live := by intro shard x h; simp [new] at h
  filed := by intro id e h; simp [new] at h

theorem Sharded.congr {s' : Index} (h : Sharded s) (hbyId : s'.byId = s.byId) (hsets : s'.sets = s.sets) :
    Sharded s' :=
  ⟨by rw [hbyId]; exact h.keyed, by rw [hsets]; exact h.sorted, by rw [hbyId, hsets]; exact h.live,
    by rw [hbyId, hsets]; exact h.filed⟩

theorem Sharded.without (h : Sharded s) {x : Event} (hx : s.byId.lookup x.id = some x) :
    Sharded (s.without x) := by
  have hsets : ∀ shard, (s.without x).sets (.oldest shard) = dropSets s.sets x (.oldest shard) := fun _ => rfl
  refine ⟨fun id y hy => ?_, fun shard => ?_, fun shard y hy => ?_, fun id y hy => ?_⟩
  · rw [without_lookup] at hy
    split at hy
    · cases hy
    · exact h.keyed id y hy
  · rw [hsets, dropSets_oldest]
    split
    · exact sorted_setRemove x (h.sorted shard)
    · exact h.sorted shard
  · rw [hsets, dropSets_oldest] at hy
    -- the entry is of another id: one of this id would be in this shard, with the time of `x`
    have hother : y ∈ s.sets (.oldest shard) ∧ y.id ≠ x.id := by
      split at hy
      · obtain ⟨hy, hne⟩ := (mem_setRemove_iff (h.sorted shard)).1 hy
        refine ⟨hy, fun hid => hne ⟨?_, hid.symm⟩⟩
        obtain ⟨-, e, he, ht⟩ := h.live shard y hy
        rw [hid, hx] at he
        cases he
        exact ht
      · rename_i hshard
        refine ⟨hy, fun hid => hshard ?_⟩
        rw [← hid]
        exact (h.live shard y hy).1
    obtain ⟨hshard, e, he, ht⟩ := h.live shard y hother.1
    refine ⟨hshard, e, ?_, ht⟩
    rw [without_lookup, if_neg hother.2]
    exact he
  · rw [without_lookup] at hy
    split at hy
    · cases hy
    · rename_i hid
      obtain ⟨z, hz, hzid⟩ := h.filed id y hy
      refine ⟨z, ?_, hzid⟩
      rw [hsets, dropSets_oldest]
      split
      · exact mem_setRemove_of_ne hz (by rw [hzid]; exact hid)
      · exact hz

theorem Sharded.stored (h : Sharded s) (hl : s.byId.lookup e.id = none) : Sharded (s.stored e) := by
  have hsets : ∀ shard, (s.stored e).sets (.oldest shard) = addSets s.sets e (.oldest shard) := fun _ => rfl
  have hkept : ∀ shard y, y ∈ s.sets (.oldest shard) → y ∈ (s.stored e).sets (.oldest shard) := by
    intro shard y hy
    rw [hsets, addSets_oldest]
    split
    · exact mem_setInsert_of_mem e hy
    · exact hy
  refine ⟨fun id y hy => ?_, fun shard => ?_, fun shard y hy => ?_, fun id y hy => ?_⟩
  · rw [stored_lookup] at hy
    split at hy
    · rename_i hid
      cases hy
      exact hid.symm
    · exact h.keyed id y hy
  · rw [hsets, addSets_oldest]
    split
    · exact sorted_setInsert e (h.sorted shard)
    · exact h.sorted shard
  · have hcases : (y = e ∧ shard = oldestShard e.id) ∨ y ∈ s.sets (.oldest shard) := by
      rw [hsets, addSets_oldest] at hy
      split at hy
      · rename_i hshard
        exact (mem_of_mem_setInsert hy).imp_left fun hye => ⟨hye, hshard⟩
      · exact Or.inr hy
    rcases hcases with ⟨rfl, hshard⟩ | hy
    · exact ⟨hshard, y, by rw [stored_lookup, if_pos rfl], rfl⟩
    · obtain ⟨hshard, x, hx, ht⟩ := h.live shard y hy
      have hne : y.id ≠ e.id := by
        intro hid
        rw [hid, hl] at hx
        cases hx
      exact ⟨hshard, x, by rw [stored_lookup, if_neg hne]; exact hx, ht⟩
  · rw [stored_lookup] at hy
    split at hy
    · rename_i hid
      rw [hid, hsets, addSets_oldest, if_pos rfl]
      exact exists_mem_setInsert e _
    · obtain ⟨z, hz, hzid⟩ := h.filed id y hy
      exact ⟨z, hkept _ z hz, hzid⟩

/-- Overwriting a live event with one of its time. -/
theorem Sharded.putId (h : Sharded s) {old : Event} (hl : s.byId.lookup e.id = some old)
    (ht : old.createdAt = e.createdAt) : Sharded (s.putId e) := by
  refine ⟨fun id y hy => ?_, h.sorted, fun shard y hy => ?_, fun id y hy => ?_⟩
  · rw [putId_lookup] at hy
    split at hy
    · rename_i hid
      cases hy
      exact hid.symm
    · exact h.keyed id y hy
  · obtain ⟨hshard, x, hx, hxt⟩ := h.live shard y hy
    refine ⟨hshard, ?_⟩
    rw [putId_lookup]
    split
    · rename_i hid
      rw [hid, hl] at hx
      cases hx
      exact ⟨e, rfl, by rw [← ht, hxt]⟩
    · exact ⟨x, hx, hxt⟩
  · rw [putId_lookup] at hy
    split at hy
    · rename_i hid
      rw [hid]
      exact h.filed e.id old hl
    · exact h.filed id y hy

theorem Sharded.internalRemove (h : Sharded s) (id : Bytes32) : Sharded (s.internalRemove id true).2 := by
  cases hl : s.byId.lookup id with
  | none =>
    rw [internalRemove_none hl]
    exact h
  | some x =>
    have hid := h.keyed id x hl
    subst hid
    rw [internalRemove_skip hl]
    exact h.without hl

end

/-! ## Inserts -/

/-- An insert record of a live id has the time of the live event, or it is refused, or
the slot it takes over is that of the live event itself. -/
def KeepsTime (s : Index) (e : Event) : Prop :=
  ∀ old, s.get e.id = some old → old.createdAt = e.createdAt ∨ s.isTombstoned e.id = true ∨
    (e.isReplaceable = true ∧ ∃ holder, s.byReplaceable.lookup e.replacementKey = some holder ∧
      (holder = e.id ∨ s.incomingWins e holder = false))

section
variable {s s' : Index} {e : Event} {replaced : Option Event}

theorem Sharded.swap (h : Sharded s) (hs : s.swap e = some (replaced, s')) : Sharded s' := by
  cases hr : e.isReplaceable with
  | false =>
    rw [swap_of_not_replaceable s hr] at hs
    cases hs
    exact h
  | true =>
    rw [swap_of_replaceable s hr] at hs
    have hput : Sharded (s.putSlot e.replacementKey e.id) := h.congr rfl rfl
    split at hs
    · rename_i oldId hslot
      split at hs
      · have hremove := hput.internalRemove oldId
        rw [Option.some.inj hs] at hremove
        exact hremove
      · cases hs
    · cases hs
      exact hput

/-- What is left of the id after the replaceable step. -/
theorem KeepsTime.of_swap (hk : KeepsTime s e) (ht : ¬ s.tombstones.contains e.id = true)
    (hs : s.swap e = some (replaced, s')) {old : Event} (hl : s'.byId.lookup e.id = some old) :
    old.createdAt = e.createdAt := by
  rcases hk old (lookup_of_swap hs hl) with heq | htomb | ⟨hr, holder, hslot, hholder⟩
  · exact heq
  · exact absurd htomb ht
  · rw [swap_of_replaceable s hr, hslot] at hs
    simp only at hs
    split at hs
    · rename_i hwins
      rcases hholder with rfl | hlost
      · have hnone := remove_lookup (s.putSlot e.replacementKey e.id) e.id e.id
        rw [if_pos rfl, Index.remove, Option.some.inj hs, hl] at hnone
        cases hnone
      · rw [hlost] at hwins
        cases hwins
    · cases hs

theorem Sharded.insert (h : Sharded s) (hk : KeepsTime s e) : Sharded (s.insert e).2 := by
  rw [insert_eq]
  split
  · exact h
  · rename_i ht
    cases hs : s.swap e with
    | none => exact h
    | some p =>
      obtain ⟨replaced, s'⟩ := p
      have hswap := h.swap hs
      simp only
      cases hl : s'.byId.lookup e.id with
      | none => exact hswap.stored hl
      | some old => exact hswap.putId hl (hk.of_swap ht hs hl)

end

/-! ## The bound -/

/-- At most 90 percent of the limit, or nothing live. -/
def Bounded (maxBytes : Usize) (s : Index) : Prop :=
  s.memoryBytes ≤ maxBytes * 90 / 100 ∨ ∀ id, s.byId.lookup id = none

theorem toNat_percent {maxBytes p : Usize} (h : maxBytes.toNat * p.toNat < 2 ^ 64) :
    (maxBytes * p / 100).toNat = maxBytes.toNat * p.toNat / 100 := by
  rw [BitVec.toNat_udiv, BitVec.toNat_mul, Nat.mod_eq_of_lt h]
  rfl

section
variable {s : Index} {maxBytes : Usize}

theorem Sharded.oldest (h : Sharded s) :
    (s.getOldest 1 = [] ∧ ∀ id, s.byId.lookup id = none) ∨
      ∃ e rest x, s.getOldest 1 = e :: rest ∧ s.byId.lookup e.id = some x := by
  obtain ⟨heap, seen, heq, hperm, hsmall⟩ := smallest_of_sorted h.sorted (show 0 < 1 by decide)
  cases hold : s.getOldest 1 with
  | nil =>
    refine Or.inl ⟨rfl, fun id => ?_⟩
    have hlen := hsmall.length
    rw [← List.length_reverse, ← heq, hold, hperm.length_eq] at hlen
    have hnil : s.shards = [] := List.length_eq_zero_iff.1 (by rw [List.length_nil] at hlen; omega)
    by_contra hne
    obtain ⟨e, he⟩ := Option.ne_none_iff_exists'.1 hne
    obtain ⟨x, hx, -⟩ := h.filed id e he
    have hmem : x ∈ s.shards :=
      List.mem_flatMap.2 ⟨oldestShard id, List.mem_range.2 (oldestShard_lt id), hx⟩
    rw [hnil] at hmem
    cases hmem
  | cons e rest =>
    obtain ⟨dropped, hsplit, -⟩ := hsmall.split
    have hin : e ∈ heap := by
      rw [← List.mem_reverse, ← heq, hold]
      exact List.mem_cons_self
    have hmem : e ∈ s.shards := hperm.subset (hsplit.subset (List.mem_append_left dropped hin))
    obtain ⟨shard, -, hx⟩ := List.mem_flatMap.1 hmem
    obtain ⟨-, x, hl, -⟩ := h.live shard e hx
    exact Or.inr ⟨e, rest, x, rfl, hl⟩

/-- The loop ends: every round takes a live event out. -/
theorem Sharded.evictTo (h : Sharded s) (target : Usize) {rounds : Nat}
    (hrounds : s.byId.entries.length < rounds) :
    ∃ s', s.evictTo target rounds = some s' ∧ Sharded s' ∧
      (s'.memoryBytes ≤ target ∨ ∀ id, s'.byId.lookup id = none) := by
  induction rounds generalizing s with
  | zero => omega
  | succ rounds ih =>
    unfold Index.evictTo
    split
    · rcases h.oldest with ⟨hold, hnone⟩ | ⟨e, rest, x, hold, hx⟩
      · rw [hold]
        exact ⟨s, rfl, h, Or.inr hnone⟩
      · rw [hold]
        have hlen := length_entries_remove hx
        exact ih (h.internalRemove e.id) (by omega)
    · rename_i hmem
      exact ⟨s, rfl, h, Or.inl (BitVec.not_lt.1 hmem)⟩

/-- The step lemma: an ingest ends, within bounds. -/
theorem Sharded.ingest (h : Sharded s) {e : Event} (hk : KeepsTime s e) (h2 : 2 ≤ maxBytes.toNat)
    (h90 : maxBytes.toNat * 90 < 2 ^ 64) :
    ∃ s', s.ingest maxBytes e = some s' ∧ Sharded s' ∧ Bounded maxBytes s' := by
  have hthreshold : (maxBytes * 90 / 100).toNat = maxBytes.toNat * 90 / 100 := toNat_percent h90
  have htarget : (maxBytes * 70 / 100).toNat = maxBytes.toNat * 70 / 100 :=
    toNat_percent (show maxBytes.toNat * 70 < 2 ^ 64 by omega)
  have hle : maxBytes * 70 / 100 ≤ maxBytes * 90 / 100 := by
    rw [BitVec.le_def, hthreshold, htarget]
    omega
  have hpos : 0 < maxBytes * 90 / 100 := by
    rw [BitVec.lt_def, hthreshold]
    show 0 < _
    omega
  have hinsert := h.insert hk
  unfold Index.ingest
  simp only
  split
  · obtain ⟨s', hs', hshard, hend⟩ := hinsert.evictTo (maxBytes * 70 / 100) (Nat.lt_succ_self _)
    exact ⟨s', hs', hshard, hend.imp_left fun hmem => BitVec.le_trans hmem hle⟩
  · rename_i hquiet
    refine ⟨_, rfl, hinsert, Or.inl (BitVec.not_lt.1 fun hlt => hquiet ⟨hpos, hlt⟩)⟩

/-! ## Loads -/

/-- The condition on one replayed record. -/
def KeepsTimes (s : Index) : Rec → Prop
  | .put e => s.KeepsTime e
  | .remove _ | .bury _ => True

theorem Sharded.replayOp (h : Sharded s) {a : Rec} (hk : KeepsTimes s a) (h2 : 2 ≤ maxBytes.toNat)
    (h90 : maxBytes.toNat * 90 < 2 ^ 64) :
    ∃ s', Store.replayOp maxBytes s a = some s' ∧ Sharded s' ∧ ∀ e, a = .put e → Bounded maxBytes s' := by
  cases a with
  | put e =>
    obtain ⟨s', hs', hshard, hbound⟩ := h.ingest hk h2 h90
    exact ⟨s', hs', hshard, fun _ _ => hbound⟩
  | remove id =>
    refine ⟨_, rfl, h.internalRemove id, fun e he => ?_⟩
    cases he
  | bury id =>
    have hbury : Sharded (s.tombstone id) := h.congr rfl rfl
    refine ⟨_, rfl, hbury.internalRemove id, fun e he => ?_⟩
    cases he

end

/-- For every limit and every sequence of snapshot and WAL records, replayed on an empty
index, in which no insert gives a live id another time: every operation ends, and after
every ingest the payload is within bounds or nothing is live. -/
theorem load_bounded (maxBytes : Usize) (h2 : 2 ≤ maxBytes.toNat) (h90 : maxBytes.toNat * 90 < 2 ^ 64)
    (recs : List Rec) (hok : Machine.Along (replayOp maxBytes) KeepsTimes new recs) (pre : List Rec) (a : Rec)
    (hpre : pre ++ [a] <+: recs) :
    ∃ s s', Machine.run (replayOp maxBytes) new pre = some s ∧ replayOp maxBytes s a = some s' ∧
      ∀ e, a = .put e → Bounded maxBytes s' := by
  have hrun : ∀ (pre recs : List Rec) (s : Index), Sharded s →
      Machine.Along (replayOp maxBytes) KeepsTimes s recs →
      pre ++ [a] <+: recs → ∃ t s', Machine.run (replayOp maxBytes) s pre = some t ∧
        replayOp maxBytes t a = some s' ∧ ∀ e, a = .put e → Bounded maxBytes s' := by
    intro pre
    induction pre with
    | nil =>
      intro recs s hs halong hpre
      obtain ⟨rest, rfl⟩ := hpre
      obtain ⟨s', hs', -, hbound⟩ := hs.replayOp halong.1 h2 h90
      exact ⟨s, s', rfl, hs', hbound⟩
    | cons b pre ih =>
      intro recs s hs halong hpre
      obtain ⟨rest, rfl⟩ := hpre
      obtain ⟨s₁, hs₁, hshard, -⟩ := hs.replayOp halong.1 h2 h90
      obtain ⟨t, s', ht, hs', hbound⟩ := ih _ s₁ hshard (halong.2 s₁ hs₁) (List.prefix_append _ _)
      exact ⟨t, s', (Machine.run_cons_eq_some _).2 ⟨s₁, hs₁, ht⟩, hs', hbound⟩
  exact hrun pre recs new sharded_new hok hpre

/-! ## A stale entry -/

/-- The earlier note under its id, with a later time. -/
def laterCopy : Event := Event.compact 2 (note 0).pubkey 1650000000 1 [] ['h', 'o'] 0

def notesRecs : List Rec := [.put earlierNote, .put (note 0)]

theorem load_bounded_notes : (∃ s, Machine.run (replayOp 400) new [.put earlierNote] = some s ∧
    ∃ s', replayOp 400 s (.put (note 0)) = some s' ∧ Bounded 400 s') := by
  have hok : Machine.Along (replayOp 400) KeepsTimes new notesRecs := by
    have hnew : ∀ old, new.get earlierNote.id = some old → False := by
      intro old hold
      simp [new, get] at hold
    have hsecond : ∀ s', replayOp 400 new (.put earlierNote) = some s' → s'.get (note 0).id = none := by
      have hall : (replayOp 400 new (.put earlierNote)).all (fun s' => (s'.get (note 0).id).isNone) = true := by
        decide +kernel
      intro s' hs'
      rw [hs'] at hall
      exact Option.isNone_iff_eq_none.1 hall
    refine ⟨fun old hold => (hnew old hold).elim, fun s' hs' => ⟨fun old hold => ?_, fun _ _ => trivial⟩⟩
    rw [hsecond s' hs'] at hold
    cases hold
  obtain ⟨s, s', hs, hs', hbound⟩ := load_bounded 400 (by decide) (by decide) notesRecs hok [.put earlierNote]
    (.put (note 0)) List.prefix_rfl
  exact ⟨s, hs, s', hs', hbound _ rfl⟩

/-- Two copies of a note with different times, its deletion, and one more note: the entry
of the first copy is the oldest, its id is not live, and no number of rounds is enough. -/
theorem stale_entry_spins : ∃ s, Machine.run (replayOp 400) new
    [.put earlierNote, .put laterCopy, .remove 2] = some s ∧
    replayOp 400 s (.put (note 100)) = none ∧
    ∀ rounds, (s.insert (note 100)).2.evictTo (400 * 70 / 100) rounds = none := by
  have hspins : (Machine.run (replayOp 400) new [.put earlierNote, .put laterCopy, .remove 2]).any (fun s =>
      ((s.insert (note 100)).2.evictTo (400 * 70 / 100)
          ((s.insert (note 100)).2.byId.entries.length + 1)).isNone &&
        (replayOp 400 s (.put (note 100))).isNone) = true := by decide +kernel
  obtain ⟨s, hs, hnone⟩ := Machine.exists_run _ _ _ _ hspins
  obtain ⟨hloop, hop⟩ := Bool.and_eq_true_iff.1 hnone
  exact ⟨s, hs, Option.isNone_iff_eq_none.1 hop, evictTo_forever (Option.isNone_iff_eq_none.1 hloop)⟩

end Index
end Memlay
