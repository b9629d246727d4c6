import Memlay.IndexInv
import Memlay.Lib.Ordered

/-!
# What the secondary indexes hold

The events of the sets are events of the run, and each stands only in sets whose
key it has (`InSets`): `insert` fills the sets of `buckets e`, a removal only
takes out.  The store of one event has it in exactly these sets (`single_sets`).
-/

namespace Memlay

/-! ## One ordered set -/

instance : IsStrictWeakOrder Event Event.Beats where
  irrefl := Event.Beats.irrefl
  trans _ _ _ := Event.Beats.trans
  incomp_trans a b c := by
    unfold Event.Beats
    simp only [BitVec.lt_def]
    omega

/-- A set is an ordered list of the library, by `Event.Beats`. -/
theorem setInsert_eq (e : Event) (l : List Event) : setInsert e l = Ordered.insert Event.Beats e l := by
  induction l with
  | nil => rfl
  | cons x l ih => rw [setInsert, Ordered.insert, ih]

theorem setRemove_eq (e : Event) (l : List Event) : setRemove e l = Ordered.remove Event.Beats e l := by
  induction l with
  | nil => rfl
  | cons x l ih => rw [setRemove, Ordered.remove, ih]

/-- `EventRef`s compare equal when their times and ids do. -/
theorem tie_iff {a b : Event} : Ordered.Tie Event.Beats a b ↔ a.createdAt = b.createdAt ∧ a.id = b.id := by
  constructor
  · rintro ⟨hab, hba⟩
    have hid : a.id = b.id := by
      by_contra hne
      exact (Event.beats_or_beats hne).elim hab hba
    unfold Event.Beats at hab hba
    exact ⟨by omega, hid⟩
  · rintro ⟨hc, hid⟩
    exact ⟨fun h => h.ne_id hid hc, fun h => h.ne_id hid.symm hc.symm⟩

section
variable {e x : Event} {l : List Event}

theorem mem_of_mem_setInsert (h : x ∈ setInsert e l) : x = e ∨ x ∈ l := by
  rw [setInsert_eq] at h
  exact Ordered.mem_of_mem_insert h

theorem mem_setInsert_of_mem (e : Event) (h : x ∈ l) : x ∈ setInsert e l := by
  rw [setInsert_eq]
  exact Ordered.mem_insert_of_mem e h

/-- After an insert the set has the id. -/
theorem exists_mem_setInsert (e : Event) (l : List Event) : ∃ y ∈ setInsert e l, y.id = e.id := by
  rw [setInsert_eq]
  have hin : e ∈ Ordered.insert Event.Beats e l ∨
      ∃ y ∈ l, y ∈ Ordered.insert Event.Beats e l ∧ Ordered.Tie Event.Beats e y := Ordered.exists_mem_insert e l
  rcases hin with h | ⟨y, -, hy, ht⟩
  · exact ⟨e, h, rfl⟩
  · exact ⟨y, hy, (tie_iff.1 ht).2.symm⟩

theorem sorted_setInsert (e : Event) (h : l.Pairwise Event.Beats) : (setInsert e l).Pairwise Event.Beats := by
  rw [setInsert_eq]
  exact Ordered.pairwise_insert e h

theorem mem_of_mem_setRemove (h : x ∈ setRemove e l) : x ∈ l := by
  rw [setRemove_eq] at h
  exact (Ordered.remove_sublist e l).subset h

theorem mem_setRemove_of_ne (h : x ∈ l) (hid : x.id ≠ e.id) : x ∈ setRemove e l := by
  rw [setRemove_eq]
  exact Ordered.mem_remove_of_not_tie h fun ht => hid (tie_iff.1 ht).2.symm

/-- Of a set in order only the entry of that time and id goes out. -/
theorem mem_setRemove_iff (h : l.Pairwise Event.Beats) :
    x ∈ setRemove e l ↔ x ∈ l ∧ ¬ (e.createdAt = x.createdAt ∧ e.id = x.id) := by
  rw [setRemove_eq, Ordered.mem_remove_iff h, tie_iff]

theorem sorted_setRemove (e : Event) (h : l.Pairwise Event.Beats) : (setRemove e l).Pairwise Event.Beats := by
  rw [setRemove_eq]
  exact Ordered.pairwise_remove e h

end

/-! ## The sets of an event -/

/-- Which sets an event's fields call for. -/
def Event.CallsFor (e : Event) : Bucket → Prop
  | .pubkey hash => tagIdHash e.pubkey = hash
  | .kind kind => e.kind = kind
  | .tagE hash => ∃ t ∈ e.eTags, tagIdHash t = hash
  | .tagP hash => ∃ t ∈ e.pTags, tagIdHash t = hash
  | .tagOther letter value => letter ≠ 'e' ∧ letter ≠ 'p' ∧
      ∃ tag ∈ e.tags, tag.name = [letter] ∧ tag.value = some value
  | .oldest shard => oldestShard e.id = shard

theorem Tag.other_eq_some {tag : Tag} {letter : Char} {value : Str} :
    tag.other = some (letter, value) ↔
      letter ≠ 'e' ∧ letter ≠ 'p' ∧ tag.name = [letter] ∧ tag.value = some value := by
  unfold Tag.other
  split
  · rename_i l v hn hv
    rw [hn, hv]
    by_cases hl : l ≠ 'e' ∧ l ≠ 'p'
    · rw [if_pos hl]
      simp only [Option.some.injEq, Prod.mk.injEq, List.cons.injEq, and_true]
      constructor
      · rintro ⟨rfl, rfl⟩
        exact ⟨hl.1, hl.2, rfl, rfl⟩
      · rintro ⟨-, -, rfl, rfl⟩
        exact ⟨rfl, rfl⟩
    · rw [if_neg hl]
      simp only [reduceCtorEq, List.cons.injEq, and_true, false_iff]
      rintro ⟨he, hp, rfl, -⟩
      exact hl ⟨he, hp⟩
  · rename_i hno
    simp only [reduceCtorEq, false_iff]
    rintro ⟨-, -, hn, hv⟩
    exact hno letter value hn hv

/-- The walk over an event visits the sets its fields call for. -/
theorem mem_buckets_iff {e : Event} {b : Bucket} : b ∈ e.buckets ↔ e.CallsFor b := by
  unfold Event.buckets
  cases b with
  | pubkey hash => simp [Event.CallsFor, eq_comm]
  | kind kind => simp [Event.CallsFor, eq_comm]
  | tagE hash => simp [Event.CallsFor]
  | tagP hash => simp [Event.CallsFor]
  | tagOther letter value =>
    have hother : (∃ tag ∈ e.tags, tag.other = some (letter, value)) ↔ e.CallsFor (.tagOther letter value) := by
      simp only [Tag.other_eq_some, Event.CallsFor]
      constructor
      · rintro ⟨tag, ht, he, hp, hn, hv⟩
        exact ⟨he, hp, tag, ht, hn, hv⟩
      · rintro ⟨he, hp, tag, ht, hn, hv⟩
        exact ⟨tag, ht, he, hp, hn, hv⟩
    simpa using hother
  | oldest shard => simp [Event.CallsFor, eq_comm]

namespace Index

/-- The sets hold events of `E`, each in sets of its own keys only. -/
def InSets (E : Event → Prop) (f : Bucket → List Event) : Prop := ∀ b, ∀ e ∈ f b, E e ∧ b ∈ e.buckets

section
variable {E : Event → Prop}

/-- Events of one id call for the same sets. -/
theorem buckets_eq (hA : Agree E) {a b : Event} (ha : E a) (hb : E b) (hid : a.id = b.id) :
    a.buckets = b.buckets := by
  have h := hA a b ha hb hid
  unfold Event.buckets Event.eTags Event.pTags Event.hexTags
  rw [h.pubkey, h.kind, h.tags, hid]

theorem inSets_empty : InSets E fun _ => [] := fun _ _ h => by cases h

theorem inSets_setInsert {f : Bucket → List Event} (h : InSets E f) {e : Event} {b : Bucket} (he : E e)
    (hb : b ∈ e.buckets) : InSets E (Function.update f b (setInsert e (f b))) := by
  intro b' x hx
  by_cases hbb : b' = b
  · subst hbb
    rw [Function.update_self] at hx
    rcases mem_of_mem_setInsert hx with rfl | hx
    · exact ⟨he, hb⟩
    · exact h b' x hx
  · rw [Function.update_of_ne hbb] at hx
    exact h b' x hx

theorem inSets_setRemove {f : Bucket → List Event} (h : InSets E f) (e : Event) (b : Bucket) :
    InSets E (Function.update f b (setRemove e (f b))) := by
  intro b' x hx
  by_cases hbb : b' = b
  · subst hbb
    rw [Function.update_self] at hx
    exact h b' x (mem_of_mem_setRemove hx)
  · rw [Function.update_of_ne hbb] at hx
    exact h b' x hx

/-- Every set is in order, newest first. -/
def SortedSets (f : Bucket → List Event) : Prop := ∀ b, (f b).Pairwise Event.Beats

theorem sortedSets_setInsert {f : Bucket → List Event} (h : SortedSets f) (e : Event) (b : Bucket) :
    SortedSets (Function.update f b (setInsert e (f b))) := by
  intro b'
  by_cases hbb : b' = b
  · subst hbb
    rw [Function.update_self]
    exact sorted_setInsert e (h b')
  · rw [Function.update_of_ne hbb]
    exact h b'

theorem sortedSets_setRemove {f : Bucket → List Event} (h : SortedSets f) (e : Event) (b : Bucket) :
    SortedSets (Function.update f b (setRemove e (f b))) := by
  intro b'
  by_cases hbb : b' = b
  · subst hbb
    rw [Function.update_self]
    exact sorted_setRemove e (h b')
  · rw [Function.update_of_ne hbb]
    exact h b'

/-- An event that goes into the sets its fields call for keeps them right. -/
theorem inSets_addSets {f : Bucket → List Event} (h : InSets E f) {e : Event} (he : E e) :
    InSets E (addSets f e) := by
  unfold addSets
  have hgen : ∀ (bs : List Bucket) (f : Bucket → List Event), InSets E f → (∀ b ∈ bs, b ∈ e.buckets) →
      InSets E (bs.foldl (fun f b => Function.update f b (setInsert e (f b))) f) := by
    intro bs
    induction bs with
    | nil => exact fun f hf _ => hf
    | cons b bs ih =>
      intro f hf hbs
      exact ih _ (inSets_setInsert hf he (hbs b (by simp))) fun b' hb' => hbs b' (List.mem_cons_of_mem b hb')
  exact hgen e.buckets f h fun b hb => hb

/-- A removal leaves only entries that were there. -/
theorem inSets_dropSets {f : Bucket → List Event} (h : InSets E f) (e : Event) :
    InSets E (dropSets f e) := by
  unfold dropSets
  generalize e.buckets = bs
  induction bs generalizing f with
  | nil => exact h
  | cons b bs ih => exact ih (inSets_setRemove h e b)

theorem inSets_internalRemove {s : Index} (h : InSets E s.sets) (id : Bytes32) (skip : Bool) :
    InSets E (s.internalRemove id skip).2.sets := by
  unfold internalRemove
  split
  · exact h
  · rename_i e _
    simp only [cleanupSecondaryIndexes_eq]
    split <;> exact inSets_dropSets h e

/-- The step lemma of an insert. -/
theorem inSets_insert {s : Index} (h : InSets E s.sets) {e : Event} (he : E e) :
    InSets E (s.insert e).2.sets := by
  rw [insert_eq]
  split
  · exact h
  cases hsw : s.swap e with
  | none => exact h
  | some p =>
    obtain ⟨replaced, s'⟩ := p
    have hs' : InSets E s'.sets := by
      unfold swap at hsw
      split at hsw
      · split at hsw
        · cases hsw
          exact h
        · split at hsw
          · split at hsw
            · have h2 := congrArg Prod.snd (Option.some.inj hsw)
              rw [← show _ = s' from h2]
              exact inSets_internalRemove (by exact h) _ true
            · cases hsw
          · cases hsw
            exact h
      · cases hsw
        exact h
    simp only
    split
    · exact hs'
    · exact inSets_addSets hs' he

/-- The run lemma. -/
theorem run_inSets {ops : List Op} {s : Index} (h : Machine.run step new ops = some s) :
    InSets (Inserted ops) s.sets := by
  refine Machine.run_invariant (I := fun s : Index => InSets (Inserted ops) s.sets) ?_ ops new s h
    (Machine.along_and_mem ops new (Machine.along_of_forall (C := fun _ _ => True) ops new
      fun _ _ _ => trivial)) inSets_empty
  rintro s op s' hs ⟨-, hop⟩ hI
  cases hs
  cases op with
  | insert e => exact inSets_insert hI hop
  | remove id => exact inSets_internalRemove hI id true
  | deleteById id => exact inSets_internalRemove hI id false

end

/-! ## The store of one event -/

/-- The index after one insert. -/
def single (e : Event) : Index := (new.insert e).2

/-- The insert meets nothing, so it stores the event. -/
theorem single_eq (e : Event) : single e = (new.withSlot e).stored e := by
  have hA : Agree (· = e) := by
    rintro a b rfl rfl _
    exact ⟨rfl, rfl, rfl, rfl, rfl⟩
  have hc := insert_cases (inv_new (· = e)) hA (e := e) rfl
  unfold single
  generalize (new.insert e).1 = o at hc
  generalize (new.insert e).2 = s' at hc ⊢
  cases hc with
  | deleted ht => simp [new, Tombstones.new] at ht
  | lostRace old hr hl hk hb => cases hl
  | duplicate old ht hr hl => cases hl
  | fresh ht hl hk => rfl
  | replaced old ht hr hl ho hk hb => cases ho

theorem single_byId (e : Event) : (single e).byId.lookup e.id = some e := by
  rw [single_eq, stored_lookup, if_pos rfl]

theorem setInsert_self (e : Event) : setInsert e [e] = [e] := by
  simp [setInsert, Event.Beats.irrefl]

/-- A walk changes each set once for every time the event lists it. -/
theorem foldl_update_apply (g : List Event → List Event) (bs : List Bucket) (f : Bucket → List Event)
    (b : Bucket) :
    bs.foldl (fun f b => Function.update f b (g (f b))) f b = g^[bs.count b] (f b) := by
  induction bs generalizing f with
  | nil => rfl
  | cons b' bs ih =>
    rw [List.foldl_cons, ih]
    by_cases hb : b' = b
    · subst hb
      rw [Function.update_self, List.count_cons_self, Function.iterate_succ_apply]
    · rw [Function.update_of_ne (Ne.symm hb), List.count_cons_of_ne hb]

/-- Its sets hold it where its fields call for it, and nothing else. -/
theorem single_sets (e : Event) (b : Bucket) :
    (single e).sets b = if b ∈ e.buckets then [e] else [] := by
  have hsets : (new.withSlot e).sets = fun _ => [] := by
    unfold withSlot
    split <;> rfl
  rw [single_eq]
  show addSets (new.withSlot e).sets e b = _
  rw [hsets]
  show e.buckets.foldl (fun f b => Function.update f b (setInsert e (f b))) (fun _ => []) b = _
  rw [foldl_update_apply]
  by_cases hb : b ∈ e.buckets
  · -- the first visit puts the event there, and the others find it
    obtain ⟨n, hn⟩ : ∃ n, e.buckets.count b = n + 1 := by
      have := List.count_pos_iff.2 hb
      exact ⟨e.buckets.count b - 1, by omega⟩
    rw [if_pos hb, hn, Function.iterate_succ_apply]
    exact Function.iterate_fixed (setInsert_self e) n
  · rw [if_neg hb, List.count_eq_zero_of_not_mem hb]
    rfl

theorem oldestShard_lt (id : Bytes32) : oldestShard id < oldestShards :=
  Nat.mod_lt _ (by decide)

theorem single_getNewest (e : Event) {count : Nat} (hc : 0 < count) : (single e).getNewest count = [e] := by
  have hshard : ∀ shard, (single e).sets (.oldest shard) = if shard = oldestShard e.id then [e] else [] := by
    intro shard
    rw [single_sets]
    congr 1
    simp [Event.buckets]
  have hgen : ∀ n, (List.range n).foldl
      (fun heap shard => newestScan count ((single e).sets (.oldest shard)) heap) [] =
      if oldestShard e.id < n then [e] else [] := by
    intro n
    induction n with
    | zero => rfl
    | succ n ih =>
      rw [List.range_succ, List.foldl_append, ih, List.foldl_cons, List.foldl_nil, hshard]
      by_cases hn : n = oldestShard e.id
      · subst hn
        rw [if_neg (Nat.lt_irrefl _), if_pos rfl, if_pos (Nat.lt_succ_self _)]
        simp [newestScan, hc, heapPush]
      · rw [if_neg hn]
        show (if oldestShard e.id < n then [e] else []) = _
        congr 1
        simp only [eq_iff_iff]
        omega
  unfold getNewest
  rw [if_neg (by omega), hgen, if_pos (oldestShard_lt e.id)]
  rfl

end Index
end Memlay
