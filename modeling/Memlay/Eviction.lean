import Memlay.Accounting
import Memlay.NewestOldest
import Memlay.StoreRuns
import Memlay.Lib.Chunks

/-!
# An eviction round

`maybe_evict` takes the oldest events, 1000 of them or 5000 when the process is over its
limit, and removes them in chunks of 100 until the payload is down to the target.  What
goes is a beginning of the list of the oldest (`oldestGone_of_part`); and because the
counter is exact (`run_balanced`), the payload never rises during the round, so the test
after a chunk is not missed (`Chunks.needed_loop`).
-/

namespace Memlay
namespace Index

def removeAll (s : Index) (es : List Event) : Index := es.foldl (fun s e => (s.remove e.id).2) s

/-- What an eviction may take: `removed`, in this order, each event once and none of
them younger than one that stays. -/
structure OldestGone (s s' : Index) (batchSize : Nat) (removed : List Event) : Prop where
  state : s' = s.removeAll removed
  gone : ∀ id, id ∈ removed.map Event.id ↔ (s.byId.lookup id).isSome ∧ s'.byId.lookup id = none
  stays : ∀ id e, s'.byId.lookup id = some e → s.byId.lookup id = some e
  once : (removed.map Event.id).Nodup
  few : removed.length ≤ batchSize
  oldest : ∀ id a, s.byId.lookup id = some a → s'.byId.lookup id = none →
    ∀ id' b, s'.byId.lookup id' = some b → a.createdAt ≤ b.createdAt

/-- The round ends at the target or with the whole batch gone, less than a chunk after
the target was reached. -/
structure StopsInTime (target : Usize) (s : Index) (batchSize : Nat) (removed : List Event) : Prop where
  ends : (s.removeAll removed).memoryBytes ≤ target ∨ IsOldest s batchSize removed
  prompt : ∀ i ≤ removed.length, (s.removeAll (removed.take i)).memoryBytes ≤ target →
      removed.length - i < evictChunk

/-- Events of one id have one text. -/
def SameRaw (E : Event → Prop) : Prop := ∀ a b, E a → E b → a.id = b.id → a.raw = b.raw

/-! ## Removing the oldest -/

theorem removeAll_lookup (s : Index) (es : List Event) (id : Bytes32) :
    (s.removeAll es).byId.lookup id = if id ∈ es.map Event.id then none else s.byId.lookup id := by
  unfold removeAll
  induction es generalizing s with
  | nil => rfl
  | cons e es ih =>
    rw [List.foldl_cons, ih, remove_lookup]
    by_cases hid : id = e.id
    · simp [hid]
    · simp [hid]

theorem oldestGone_of_part {s : Index} {batchSize : Nat} {es removed : List Event} (h : IsOldest s batchSize es)
    (hpart : removed <+: es) : OldestGone s (s.removeAll removed) batchSize removed := by
  obtain ⟨rest, rfl⟩ := hpart
  have hlive : ∀ x ∈ removed ++ rest, ∃ e, s.byId.lookup x.id = some e ∧ Event.SameFields e x := h.live
  have hgone : ∀ id, id ∈ removed.map Event.id ↔
      (s.byId.lookup id).isSome ∧ (s.removeAll removed).byId.lookup id = none := by
    intro id
    rw [removeAll_lookup]
    constructor
    · intro hid
      obtain ⟨x, hx, rfl⟩ := List.mem_map.1 hid
      obtain ⟨e, he, -⟩ := hlive x (List.mem_append_left rest hx)
      rw [he, if_pos hid]
      exact ⟨rfl, rfl⟩
    · rintro ⟨hsome, hnone⟩
      by_contra hid
      rw [if_neg hid] at hnone
      rw [hnone] at hsome
      cases hsome
  have hstays : ∀ id e, (s.removeAll removed).byId.lookup id = some e →
      id ∉ removed.map Event.id ∧ s.byId.lookup id = some e := by
    intro id e he
    rw [removeAll_lookup] at he
    split at he
    · cases he
    · rename_i hid
      exact ⟨hid, he⟩
  refine ⟨rfl, hgone, fun id e he => (hstays id e he).2, ?_, ?_, fun id a ha hnone id' b hb => ?_⟩
  · exact h.distinct.sublist ((List.sublist_append_left removed rest).map Event.id)
  · have hlen := h.length
    rw [List.length_append] at hlen
    omega
  · obtain ⟨hid', hb⟩ := hstays id' b hb
    obtain ⟨x, hx, rfl⟩ := List.mem_map.1 ((hgone id).2 ⟨by rw [ha]; rfl, hnone⟩)
    obtain ⟨e, he, hsame⟩ := hlive x (List.mem_append_left rest hx)
    cases ha.symm.trans he
    rw [hsame.createdAt]
    -- a survivor is of the rest of the batch, or it was not among the oldest
    by_cases hrest : id' ∈ rest.map Event.id
    · obtain ⟨y, hy, rfl⟩ := List.mem_map.1 hrest
      obtain ⟨e', he', hsame'⟩ := hlive y (List.mem_append_right removed hy)
      cases hb.symm.trans he'
      rw [hsame'.createdAt]
      exact (List.pairwise_append.1 h.sorted).2.2 x hx y hy
    · refine h.rest id' b hb ?_ x (List.mem_append_left rest hx)
      rw [List.map_append, List.mem_append]
      exact not_or.2 ⟨hid', hrest⟩

/-! ## The payload -/

section
variable {E : Event → Prop} {s : Index}

theorem Inv.liveBytes_remove_le (h : Inv E s) (id : Bytes32) : (s.remove id).2.liveBytes ≤ s.liveBytes := by
  unfold Index.remove
  rcases h.internalRemove_eq id true with ⟨-, he⟩ | ⟨x, rfl, hx, he⟩
  · rw [he]
  · rw [he]
    have htotal := Table.total_erase (fun e : Event => e.raw.length) hx
    show Table.total (fun e : Event => e.raw.length) (s.byId.erase x.id) ≤ s.liveBytes
    unfold liveBytes
    omega

/-- The counter is exact and has not wrapped. -/
structure Exact (E : Event → Prop) (s : Index) : Prop where
  inv : Inv E s
  balanced : Balanced s
  fits : s.liveBytes < 2 ^ 64

theorem Exact.memoryBytes (h : Exact E s) : s.memoryBytes.toNat = s.liveBytes := by
  rw [h.balanced.memory, ← usize_total]
  exact usize_toNat h.fits

theorem Exact.remove (h : Exact E s) (id : Bytes32) : Exact E (s.remove id).2 :=
  ⟨h.inv.internalRemove id true, h.balanced.internalRemove h.inv id true,
    Nat.lt_of_le_of_lt (h.inv.liveBytes_remove_le id) h.fits⟩

/-- A removal does not add to the payload. -/
theorem Exact.memoryBytes_remove_le (h : Exact E s) (id : Bytes32) :
    (s.remove id).2.memoryBytes ≤ s.memoryBytes := by
  rw [BitVec.le_def, (h.remove id).memoryBytes, h.memoryBytes]
  exact h.inv.liveBytes_remove_le id

theorem liveCount_eq (s : Index) : s.liveCount = s.iterAll.length := by
  unfold liveCount Table.total iterAll
  simp

theorem liveCount_without {x : Event} (h : s.byId.lookup x.id = some x) :
    (s.without x).liveCount + 1 = s.liveCount := by
  rw [Nat.add_comm]
  exact Table.total_erase (fun _ : Event => 1) h

theorem Inv.liveCount_removeAll {es : List Event} (h : Inv E s) (hnodup : (es.map Event.id).Nodup)
    (hlive : ∀ x ∈ es, (s.byId.lookup x.id).isSome) : (s.removeAll es).liveCount + es.length = s.liveCount := by
  induction es generalizing s with
  | nil => rfl
  | cons e es ih =>
    obtain ⟨hfirst, hrest⟩ := List.nodup_cons.1 hnodup
    have hone : (s.remove e.id).2.liveCount + 1 = s.liveCount := by
      rcases h.internalRemove_eq e.id true with ⟨hnone, -⟩ | ⟨x, hid, hx, he⟩
      · have hsome := hlive e List.mem_cons_self
        rw [hnone] at hsome
        cases hsome
      · rw [← hid] at hx
        unfold Index.remove
        rw [he]
        exact liveCount_without hx
    have hrest' := ih (h.internalRemove e.id true) hrest fun x hx => by
      have hne : x.id ≠ e.id := fun hid => hfirst (List.mem_map.2 ⟨x, hx, hid⟩)
      show ((s.remove e.id).2.byId.lookup x.id).isSome = true
      rw [remove_lookup, if_neg hne]
      exact hlive x (List.mem_cons_of_mem e hx)
    rw [← hone]
    exact congrArg (· + 1) hrest'

/-- With no event there is no payload. -/
theorem Exact.memoryBytes_zero (h : Exact E s) (hzero : s.liveCount = 0) : s.memoryBytes.toNat = 0 := by
  rw [liveCount_eq, List.length_eq_zero_iff] at hzero
  rw [h.memoryBytes, liveBytes_of_values [] hzero]
  rfl

/-- An event has bytes. -/
theorem Inv.liveCount_le (h : Inv E s) (hraw : ∀ e, E e → e.raw ≠ []) : s.liveCount ≤ s.liveBytes :=
  Table.total_le_total fun id e he => List.length_pos_iff.2 (hraw e (h.mem id e he).1)

end

/-- With one text for each id the counters are right, modulo the word size, in every
state of a run. -/
theorem run_balanced {cs : List Edit} (hA : Agree (Offered cs)) (hraw : SameRaw (Offered cs)) {s : Index}
    (hs : Machine.run editStep new cs = some s) : Inv (Offered cs) s ∧ Balanced s := by
  refine Machine.run_invariant (I := fun s => Inv (Offered cs) s ∧ Balanced s) ?_ cs new s hs
    (Machine.along_and_mem cs new (Machine.along_of_forall (C := fun _ _ => True) cs new
      fun _ _ _ => trivial)) ⟨inv_new _, ⟨rfl, rfl⟩⟩
  rintro s c s' hstep ⟨-, hc⟩ ⟨hI, hb⟩
  cases hstep
  cases c with
  | insert e =>
    refine ⟨hI.insert hA hc, (insert_cases hI hA hc).balanced hb fun _ old hl => ?_⟩
    obtain ⟨hE, hid⟩ := hI.mem _ _ hl
    rw [hraw e old hc hE hid.symm]
  | remove id => exact ⟨hI.internalRemove id true, hb.internalRemove hI id true⟩
  | deleteById id =>
    have hb' := hb.internalRemove hI id false
    exact ⟨(hI.internalRemove id false).tombstone id, ⟨hb'.memory, hb'.count⟩⟩
  | tombstone id => exact ⟨hI.tombstone id, ⟨hb.memory, hb.count⟩⟩

/-! ## The round -/

theorem evictChunks_eq (target maxBytes processMem : Usize) (chunks : List (List Event)) (s : Index) :
    evictChunks target maxBytes processMem chunks s =
      Chunks.loop (fun s e => (s.remove e.id).2)
          (fun s => s.memoryBytes ≤ target ∧ processMem ≤ maxBytes) chunks s := by
  induction chunks generalizing s with
  | nil => rfl
  | cons chunk chunks ih =>
    unfold evictChunks Chunks.loop
    simp only [ih]

/-- The chunks that are removed are what was needed to get down to the target. -/
theorem Exact.needed {E : Event → Prop} {s : Index} (h : Exact E s) {target maxBytes processMem : Usize}
    (hnot : ¬ (s.memoryBytes ≤ target ∧ processMem ≤ maxBytes)) (es : List Event) :
    ∃ removed, evictChunks target maxBytes processMem (es.toChunks evictChunk) s = s.removeAll removed ∧
      Chunks.Needed (fun (s : Index) (e : Event) => (s.remove e.id).2)
        (fun s => s.memoryBytes ≤ target ∧ processMem ≤ maxBytes) evictChunk es s removed := by
  have hloop := @Chunks.needed_loop Index Event (fun s e => (s.remove e.id).2)
    (fun s => s.memoryBytes ≤ target ∧ processMem ≤ maxBytes) _ evictChunk (Exact E)
    (fun t e ht => ht.remove e.id)
    (fun t e ht hok => ⟨BitVec.le_trans (ht.memoryBytes_remove_le e.id) hok.1, hok.2⟩)
    (es.toChunks evictChunk) (fun chunk hc => Chunks.length_le_of_mem_toChunks (by decide) hc) (by decide) s h hnot
  rw [Chunks.flatten_toChunks] at hloop
  rw [evictChunks_eq]
  exact hloop

section
variable {E : Event → Prop} {s : Index} {maxBytes : Usize}

/-- A round removes what was needed of the oldest events. -/
theorem Exact.maybeEvict_needed (h : Exact E s) (hmax : maxBytes ≠ 0) (processMem amplification : Usize) :
    ∃ removed, s.maybeEvict maxBytes processMem amplification = s.removeAll removed ∧
      Chunks.Needed (fun (s : Index) (e : Event) => (s.remove e.id).2)
        (fun s => s.memoryBytes ≤ payloadBudget maxBytes amplification * 90 / 100 ∧
            processMem ≤ maxBytes) evictChunk
        (s.getOldest (if maxBytes < processMem then 5000 else 1000)) s removed := by
  unfold Index.maybeEvict
  rw [if_neg hmax]
  generalize payloadBudget maxBytes amplification * 90 / 100 = target
  simp only
  split
  · rename_i htrigger
    refine h.needed ?_ _
    rintro ⟨hmem, hrss⟩
    rcases htrigger with h | h
    · exact BitVec.not_le.2 h hmem
    · exact BitVec.not_le.2 h hrss
  · rename_i hquiet
    have hmem : s.memoryBytes ≤ target := BitVec.not_lt.1 fun h => hquiet (.inl h)
    have hrss : processMem ≤ maxBytes := BitVec.not_lt.1 fun h => hquiet (.inr h)
    refine ⟨[], rfl, List.nil_prefix, Or.inl ⟨hmem, hrss⟩, fun i _ _ => ?_⟩
    rw [List.length_nil, Nat.zero_sub]
    decide

/-- A round removes a beginning of the oldest events; all of the batch, unless it gets
down to the target in a process within its limit. -/
theorem Exact.maybeEvict_removes (h : Exact E s) (hk : Kept E s) (hA : Agree E) (hmax : maxBytes ≠ 0)
    (processMem amplification : Usize) :
    ∃ removed, s.maybeEvict maxBytes processMem amplification = s.removeAll removed ∧
      (s.removeAll removed).liveCount + removed.length = s.liveCount ∧
      removed.length ≤ (if maxBytes < processMem then 5000 else 1000) ∧
      (((s.removeAll removed).memoryBytes ≤ payloadBudget maxBytes amplification * 90 / 100 ∧
          processMem ≤ maxBytes) ∨
        removed.length = min (if maxBytes < processMem then 5000 else 1000) s.liveCount) := by
  obtain ⟨removed, heq, hneed⟩ := h.maybeEvict_needed hmax processMem amplification
  have hold := hk.filed.isOldest hk.inv hA
    (show 0 < if maxBytes < processMem then 5000 else 1000 by split <;> decide)
  refine ⟨removed, heq, hk.inv.liveCount_removeAll ?_ fun x hx => ?_, ?_, ?_⟩
  · exact hold.distinct.sublist (hneed.part.sublist.map Event.id)
  · obtain ⟨e, he, -⟩ := hold.live x (hneed.part.subset hx)
    rw [he]
    rfl
  · refine hneed.part.length_le.trans ?_
    rw [hold.length]
    exact Nat.min_le_left _ _
  · refine hneed.ends.imp id fun hall => ?_
    rw [hall, hold.length, liveCount_eq]

/-- The payload does not grow. -/
theorem Exact.maybeEvict (h : Exact E s) (maxBytes processMem amplification : Usize) :
    Exact E (s.maybeEvict maxBytes processMem amplification) ∧
      (s.maybeEvict maxBytes processMem amplification).memoryBytes ≤ s.memoryBytes :=
  maybeEvict_keeps (P := fun s' => Exact E s' ∧ s'.memoryBytes ≤ s.memoryBytes)
    (fun _ id hs => ⟨hs.1.remove id, BitVec.le_trans (hs.1.memoryBytes_remove_le id) hs.2⟩) ⟨h, BitVec.le_refl _⟩
    maxBytes processMem amplification

end

/-- In every state of every sequential run, for every limit, RSS and amplification: a
round removes only the oldest events, no more than a batch, and it stops in time. -/
theorem run_maybeEvict (cs : List Edit) (hA : Agree (Offered cs)) (hraw : SameRaw (Offered cs)) (s : Index)
    (hs : Machine.run editStep new cs = some s) (hfits : s.liveBytes < 2 ^ 64)
    (maxBytes processMem amplification : Usize) (hmax : maxBytes ≠ 0) :
    ∃ removed, OldestGone s (s.maybeEvict maxBytes processMem amplification)
        (if maxBytes < processMem then 5000 else 1000) removed ∧
      (processMem ≤ maxBytes → StopsInTime (payloadBudget maxBytes amplification * 90 / 100) s 1000 removed) := by
  obtain ⟨hI, hF⟩ := run_filed hA hs
  have hexact : Exact (Offered cs) s := ⟨hI, (run_balanced hA hraw hs).2, hfits⟩
  have hold : ∀ count, 0 < count → IsOldest s count (s.getOldest count) := fun count hc => hF.isOldest hI hA hc
  obtain ⟨removed, heq, hneed⟩ := hexact.maybeEvict_needed hmax processMem amplification
  rw [heq]
  refine ⟨removed, oldestGone_of_part (hold _ (by split <;> decide)) hneed.part,
      fun hrss => ⟨?_, fun i hi hmem => ?_⟩⟩
  · rcases hneed.ends with hok | hall
    · exact Or.inl hok.1
    · refine Or.inr ?_
      rw [hall, if_neg (BitVec.not_lt.2 hrss)]
      exact hold 1000 (by decide)
  · exact hneed.prompt i hi ⟨hmem, hrss⟩

theorem sameRaw_twoNotes : SameRaw (Offered twoNotes) := by
  intro a b ha hb hid
  rcases offered_twoNotes ha with rfl | rfl <;> rcases offered_twoNotes hb with rfl | rfl
  · rfl
  · exact absurd hid (by show (2 : Bytes32) ≠ (note 0).id; decide)
  · exact absurd hid (by show (note 0).id ≠ (2 : Bytes32); decide)
  · rfl

theorem run_maybeEvict_twoNotes : ∃ s, Machine.run editStep new twoNotes = some s ∧ s.liveBytes < 2 ^ 64 ∧
    ∃ removed, OldestGone s (s.maybeEvict 1 0 1000) 1000 removed ∧
      StopsInTime (payloadBudget 1 1000 * 90 / 100) s 1000 removed := by
  have hfits : ((new.edit (.insert earlierNote)).edit (.insert (note 0))).liveBytes < 2 ^ 64 := by
    have hearlier : earlierNote.raw.length = 344 := Event.length_compactJson ..
    rw [liveBytes_of_values [note 0, earlierNote] rfl]
    simp only [List.map_cons, List.map_nil, List.sum_cons, List.sum_nil, length_raw_note, hearlier]
    decide
  obtain ⟨removed, hgone, hstop⟩ :=
    run_maybeEvict twoNotes agree_twoNotes sameRaw_twoNotes _ rfl hfits 1 0 1000 (by decide)
  exact ⟨_, rfl, hfits, removed, hgone, hstop (by decide)⟩

end Index
end Memlay
