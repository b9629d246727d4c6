import Memlay.IndexConsistency

/-!
# What a refused insert leaves behind

`insert` refuses an event in four places.  A tombstoned id and a stale version of a
replaceable event are turned away before anything is written, and one caller at a time
never meets the two checks at the end.  The fourth is the test for a live id, which is
the map insert itself: the old object is given up before `Duplicate` is returned.

    a refused insert changes nothing  ↔  KeepsCopy s e                (refused_same_iff)
-/

namespace Memlay

def InsertOutcome.Refused : InsertOutcome → Prop
  | .inserted _ => False
  | .duplicate | .deleted | .lostRace => True

namespace Index

/-- The two states hold the same: the maps entry by entry, the sets, the tombstones with
their order of eviction, and the counters. -/
structure SameState (s s' : Index) : Prop where
  byId : ∀ id, s'.byId.lookup id = s.byId.lookup id
  byReplaceable : ∀ key, s'.byReplaceable.lookup key = s.byReplaceable.lookup key
  sets : s'.sets = s.sets
  tombstones : s'.tombstones = s.tombstones
  memoryBytes : s'.memoryBytes = s.memoryBytes
  eventCount : s'.eventCount = s.eventCount

theorem SameState.refl (s : Index) : SameState s s :=
  ⟨fun _ => rfl, fun _ => rfl, rfl, rfl, rfl, rfl⟩

/-- A regular event that is live and not tombstoned comes with the bytes and the signature
that are stored. -/
def KeepsCopy (s : Index) (e : Event) : Prop :=
  s.isTombstoned e.id = false → e.isReplaceable = false →
    ∀ old, s.get e.id = some old → e.raw = old.raw ∧ e.sig = old.sig

section
variable {E : Event → Prop} {s : Index} {e : Event}

theorem Inv.mono {E' : Event → Prop} (h : Inv E s) (hE : ∀ x, E x → E' x) : Inv E' s := by
  refine ⟨fun id x hx => ?_, h.slot, fun key id hid => ?_, h.count⟩
  · obtain ⟨hx, hid⟩ := h.mem id x hx
    exact ⟨hE x hx, hid⟩
  · obtain ⟨x, hx, hid, hk⟩ := h.slotOf key id hid
    exact ⟨x, hE x hx, hid, hk⟩

theorem sameState_putId_iff {old : Event} (hl : s.byId.lookup e.id = some old) :
    SameState s (s.putId e) ↔ e = old := by
  constructor
  · intro h
    have hid := h.byId e.id
    rw [putId_lookup, if_pos rfl, hl] at hid
    exact Option.some.inj hid
  · rintro rfl
    refine ⟨fun id => ?_, fun _ => rfl, rfl, rfl, rfl, rfl⟩
    rw [putId_lookup]
    split
    · rename_i hid
      rw [hid, hl]
    · rfl

/-- The id fixes all but the signature and the bytes. -/
theorem eq_iff_of_sameFields {a b : Event} (hid : a.id = b.id) (h : Event.SameFields a b) :
    a = b ↔ a.raw = b.raw ∧ a.sig = b.sig := by
  constructor
  · rintro rfl
    exact ⟨rfl, rfl⟩
  · rintro ⟨hraw, hsig⟩
    cases a
    cases b
    cases hid
    cases hraw
    cases hsig
    cases h.pubkey
    cases h.createdAt
    cases h.kind
    cases h.tags
    cases h.content
    rfl

theorem Inv.sameState_iff_keepsCopy (h : Inv E s) (hA : Agree E) (hE : E e) :
    ((s.insert e).1.Refused → SameState s (s.insert e).2) ↔ KeepsCopy s e := by
  have hc := insert_cases h hA hE
  generalize (s.insert e).1 = o at hc
  generalize (s.insert e).2 = s' at hc
  cases hc with
  | deleted ht =>
    refine iff_of_true (fun _ => .refl s) fun htomb => ?_
    rw [isTombstoned, (h.contains_iff e.id).2 ht] at htomb
    exact absurd htomb (by decide)
  | lostRace old hr hl hk hb =>
    refine iff_of_true (fun _ => .refl s) fun _ hr' => ?_
    rw [hr] at hr'
    exact absurd hr' (by decide)
  | fresh ht hl hk =>
    refine iff_of_true (fun hf => hf.elim) fun _ _ old ho => ?_
    rw [get, hl] at ho
    cases ho
  | replaced old ht hr hl ho hk hb =>
    refine iff_of_true (fun hf => hf.elim) fun _ hr' => ?_
    rw [hr] at hr'
    exact absurd hr' (by decide)
  | duplicate old ht hr hl =>
    obtain ⟨hEo, hid⟩ := h.mem _ _ hl
    have hsame := eq_iff_of_sameFields hid.symm (hA e old hE hEo hid.symm)
    have htomb : s.isTombstoned e.id = false := by
      rw [isTombstoned, Bool.eq_false_iff]
      exact fun hm => ht ((h.contains_iff e.id).1 hm)
    constructor
    · intro hrefused _ _ old' ho
      cases hl.symm.trans ho
      exact hsame.1 ((sameState_putId_iff hl).1 (hrefused trivial))
    · intro hkeeps _
      exact (sameState_putId_iff hl).2 (hsame.2 (hkeeps htomb hr old hl))

end

/-- In every state of every sequential run and for every event: an insert that is refused
leaves the state as it was exactly when the event is no other copy of a live one. -/
theorem refused_same_iff (cs : List Edit) (e : Event) (hA : Agree (Offered (cs ++ [.insert e]))) (s : Index)
    (hs : Machine.run editStep new cs = some s) :
    ((s.insert e).1.Refused → SameState s (s.insert e).2) ↔ KeepsCopy s e := by
  have hmono : ∀ x, Offered cs x → Offered (cs ++ [.insert e]) x := fun x hx => List.mem_append_left _ hx
  have hI := (run_filed (fun a b ha hb => hA a b (hmono a ha) (hmono b hb)) hs).1.mono hmono
  exact hI.sameState_iff_keepsCopy hA (List.mem_append_right cs List.mem_cons_self)

theorem agree_notes (m n : Nat) : Agree (Offered ([.insert (note m)] ++ [.insert (note n)])) := by
  have hnote : ∀ x, Offered ([.insert (note m)] ++ [.insert (note n)]) x → ∃ k, x = note k := by
    intro x hx
    simp only [Offered, List.singleton_append, List.mem_cons, Edit.insert.injEq, List.not_mem_nil, or_false] at hx
    rcases hx with rfl | rfl
    · exact ⟨m, rfl⟩
    · exact ⟨n, rfl⟩
  intro a b ha hb _
  obtain ⟨i, rfl⟩ := hnote a ha
  obtain ⟨j, rfl⟩ := hnote b hb
  exact note_sameFields i j

theorem refused_same_iff_note : ∃ s, Machine.run editStep new [.insert (note 0)] = some s ∧
    (s.insert (note 0)).1 = .duplicate ∧
    (((s.insert (note 0)).1.Refused → SameState s (s.insert (note 0)).2) ↔ KeepsCopy s (note 0)) :=
  ⟨_, rfl, by decide +kernel, refused_same_iff [.insert (note 0)] (note 0) (agree_notes 0 0) _ rfl⟩

/-- The note again with one space more: `Duplicate`, and the copy that is served is the new one. -/
theorem duplicate_takes_over : ∃ s, Machine.run editStep new [.insert (note 0)] = some s ∧
    Event.SameFields (note 0) (note 1) ∧ (note 0).id = (note 1).id ∧ (s.insert (note 1)).1 = .duplicate ∧
    ¬ ((s.insert (note 1)).1.Refused → SameState s (s.insert (note 1)).2) := by
  have hdup : ((new.edit (.insert (note 0))).insert (note 1)).1 = .duplicate := by decide +kernel
  refine ⟨_, rfl, note_sameFields 0 1, rfl, hdup, fun h => ?_⟩
  have hsame := h (by rw [hdup]; trivial)
  exact absurd (hsame.byId (note 0).id) (by decide +kernel)

end Index
end Memlay
