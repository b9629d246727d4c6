import Memlay.StoreRuns

/-!
# What a deletion request removes

`apply_deletion` looks ids up in `by_id` and checks the author there; coordinates go
through `by_replaceable`, where nothing checks the author again and entries may be
stale.  In every state of a run of the store the two together remove exactly the
events of `targets`: nothing else changes in the index, and each removed id is
reported and buried (`run_applyDeletion`).

`Erases s s' gone` says what a removal does to the index.  Removals one after another
compose (`Erases.trans`), and the loop carries the composition from the start.
-/

namespace Memlay

/-- The slot a coordinate names, as `coordinate_targets` derives it. -/
def Coordinate.key (c : Coordinate) : ReplacementKey :=
  if c.dTag = [] then .replaceable c.pubkey c.kind else .addressable c.pubkey c.kind c.dTag

theorem Coordinate.key_ne_none (c : Coordinate) : c.key ≠ .none := by
  unfold Coordinate.key
  split <;> simp

theorem Event.pubkey_of_key {e : Event} {c : Coordinate} (h : e.replacementKey = c.key) : e.pubkey = c.pubkey := by
  unfold Event.replacementKey Coordinate.key at h
  split at h
  · split at h
    all_goals
      split at h
      all_goals simp_all
  · split at h
    · split at h
      all_goals simp_all
    · split at h
      all_goals simp_all

/-- The author may have the event removed by the request. -/
def Condemned (req : DeletionRequest) (author : Bytes32) (until_ : Nat) (e : Event) : Prop :=
  (e.id ∈ req.ids ∧ e.pubkey = author) ∨
    (e.pubkey = author ∧ e.createdAt ≤ until_ ∧
      ∃ c ∈ req.coordinates, c.pubkey = author ∧ e.replacementKey = c.key)

instance (req : DeletionRequest) (author : Bytes32) (until_ : Nat) (e : Event) :
    Decidable (Condemned req author until_ e) := inferInstanceAs (Decidable (_ ∨ _))

namespace Index

/-- Ids of the live events that a request condemns. -/
def targets (s : Index) (req : DeletionRequest) (author : Bytes32) (until_ : Nat) : Finset Bytes32 :=
  s.byId.keys.toFinset.filter fun id => (s.byId.lookup id).any fun e => decide (Condemned req author until_ e)

theorem mem_targets {s : Index} {req : DeletionRequest} {author : Bytes32} {until_ : Nat} {id : Bytes32} :
    id ∈ s.targets req author until_ ↔ ∃ e, s.byId.lookup id = some e ∧ Condemned req author until_ e := by
  unfold targets
  rw [Finset.mem_filter, List.mem_toFinset, Option.any_eq_true]
  constructor
  · rintro ⟨-, e, he, hc⟩
    exact ⟨e, he, of_decide_eq_true hc⟩
  · rintro ⟨e, he, hc⟩
    refine ⟨AList.lookup_isSome.1 ?_, e, he, decide_eq_true hc⟩
    rw [he]
    rfl

theorem card_targets_le (s : Index) (req : DeletionRequest) (author : Bytes32) (until_ : Nat) :
    (s.targets req author until_).card ≤ s.byId.keys.length :=
  (Finset.card_filter_le _ _).trans (List.toFinset_card_le _)

/-! ## Removing live events -/

/-- `s'` is `s` without the live events of the ids `gone`, which are buried. -/
structure Erases (s s' : Index) (gone : List Bytes32) : Prop where
  once : gone.Nodup
  live : ∀ id ∈ gone, (s.byId.lookup id).isSome
  byId : ∀ id, s'.byId.lookup id = if id ∈ gone then none else s.byId.lookup id
  /-- every other entry of every set is still there, in the same order -/
  sets : ∀ b, s'.sets b = (s.sets b).filter fun x => x.id ∉ gone
  slotGone : ∀ id ∈ gone, ∀ e, s.byId.lookup id = some e → e.isReplaceable = true →
    s'.byReplaceable.lookup e.replacementKey = none
  slotKept : ∀ key, (∀ id ∈ gone, ∀ e, s.byId.lookup id = some e → e.isReplaceable = true →
      e.replacementKey ≠ key) →
    s'.byReplaceable.lookup key = s.byReplaceable.lookup key
  buried : s'.tombstones = gone.foldl Tombstones.insert s.tombstones

theorem Erases.refl (s : Index) : Erases s s [] where
  once := List.nodup_nil
  live := by simp
  byId := by simp
  sets := by simp
  slotGone := by simp
  slotKept := fun _ _ => rfl
  buried := rfl

section
variable {s s₁ s₂ : Index} {a b : List Bytes32} {id : Bytes32} {e : Event}

theorem Erases.lookup_of_lookup (h : Erases s s₁ a) (he : s₁.byId.lookup id = some e) :
    id ∉ a ∧ s.byId.lookup id = some e := by
  rw [h.byId] at he
  split at he
  · cases he
  · rename_i hid
    exact ⟨hid, he⟩

theorem Erases.not_mem_of_isSome (h : Erases s s₁ a) (hl : (s₁.byId.lookup id).isSome) : id ∉ a := by
  obtain ⟨e, he⟩ := Option.isSome_iff_exists.1 hl
  exact (h.lookup_of_lookup he).1

/-- One removal after another. -/
theorem Erases.trans (h : Erases s s₁ a) (h' : Erases s₁ s₂ b) : Erases s s₂ (a ++ b) := by
  have hdisj : ∀ id ∈ b, id ∉ a := fun id hid => h.not_mem_of_isSome (h'.live id hid)
  refine ⟨?_, ?_, ?_, ?_, ?_, ?_, ?_⟩
  · refine List.nodup_append.2 ⟨h.once, h'.once, ?_⟩
    intro x hx y hy hxy
    rw [hxy] at hx
    exact hdisj y hy hx
  · intro id hid
    rcases List.mem_append.1 hid with hid | hid
    · exact h.live id hid
    · obtain ⟨e, he⟩ := Option.isSome_iff_exists.1 (h'.live id hid)
      rw [(h.lookup_of_lookup he).2]
      rfl
  · intro id
    rw [h'.byId, h.byId]
    by_cases ha : id ∈ a
    · simp [ha]
    · simp [ha]
  · intro bu
    rw [h'.sets, h.sets, List.filter_filter]
    refine List.filter_congr fun x _ => ?_
    simp [Bool.and_comm]
  · intro id hid e he hr
    by_cases hb : ∃ id' ∈ b, ∃ e', s₁.byId.lookup id' = some e' ∧ e'.isReplaceable = true ∧
        e'.replacementKey = e.replacementKey
    · obtain ⟨id', hid', e', he', hr', hk⟩ := hb
      rw [← hk]
      exact h'.slotGone id' hid' e' he' hr'
    · rcases List.mem_append.1 hid with hida | hidb
      · rw [h'.slotKept _ fun id' hid' e' he' hr' hk => hb ⟨id', hid', e', he', hr', hk⟩]
        exact h.slotGone id hida e he hr
      · refine absurd ⟨id, hidb, e, ?_, hr, rfl⟩ hb
        rw [h.byId, if_neg (hdisj id hidb)]
        exact he
  · intro key hk
    rw [h'.slotKept, h.slotKept]
    · exact fun id hid => hk id (List.mem_append_left b hid)
    · intro id hid e he
      exact hk id (List.mem_append_right a hid) e (h.lookup_of_lookup he).2
  · rw [h'.buried, h.buried, List.foldl_append]

end

/-! ## One removal -/

section
variable {E : Event → Prop} {s : Index} {e : Event}

/-- The entries of a removed event are its own, in every set. -/
theorem Filed.sets_without (h : Filed E s) (hA : Agree E) (hE : E e) (b : Bucket) :
    (s.without e).sets b = (s.sets b).filter fun x => x.id ∉ [e.id] := by
  have hsymm : Std.Irrefl Event.Beats := ⟨Event.Beats.irrefl⟩
  have hanti : Std.Antisymm Event.Beats := ⟨fun x y hxy hyx => absurd hyx hxy.asymm⟩
  refine List.Pairwise.eq_of_mem_iff (sortedSets_dropSets h.sorted e b) ((h.sorted b).filter _) ?_
  intro x
  rw [List.mem_filter, decide_eq_true_eq, List.mem_singleton]
  constructor
  · intro hx
    have hx' := mem_of_mem_dropSets hx
    refine ⟨hx', fun hid => ?_⟩
    obtain ⟨hEx, hb⟩ := h.inSets b x hx'
    rw [buckets_eq hA hEx hE hid] at hb
    exact not_tie_of_mem_dropSets h.sorted hb hx ⟨(hA e x hE hEx hid.symm).createdAt, hid.symm⟩
  · rintro ⟨hx, hid⟩
    exact mem_dropSets_of_ne hx hid

theorem Kept.erases_deleteById (h : Kept E s) (hA : Agree E) (he : s.byId.lookup e.id = some e) :
    Erases s (s.deleteById e.id).2 [e.id] := by
  have hE := (h.inv.mem _ _ he).1
  have hrem : (s.deleteById e.id).2 =
      ((if e.isReplaceable then (s.without e).dropSlot e.replacementKey else s.without e).tombstone e.id) := by
    unfold Index.deleteById
    rw [internalRemove_slot he]
  have hlive : ∀ id ∈ [e.id], ∀ x, s.byId.lookup id = some x → x = e := by
    intro id hid x hx
    rw [List.mem_singleton.1 hid, he] at hx
    exact (Option.some.inj hx).symm
  refine ⟨List.nodup_singleton _, ?_, ?_, ?_, ?_, ?_, ?_⟩
  · intro id hid
    rw [List.mem_singleton.1 hid, he]
    rfl
  · intro id
    have hl : (s.deleteById e.id).2.byId.lookup id = (s.without e).byId.lookup id := by
      rw [hrem]
      split <;> rfl
    rw [hl, without_lookup]
    simp only [List.mem_singleton]
  · intro b
    have hs : (s.deleteById e.id).2.sets b = (s.without e).sets b := by
      rw [hrem]
      split <;> rfl
    rw [hs]
    exact h.filed.sets_without hA hE b
  · intro id hid x hx hr
    rw [hlive id hid x hx] at hr ⊢
    rw [hrem, if_pos hr]
    exact AList.lookup_erase _ _
  · intro key hk
    rw [hrem]
    split
    · rename_i hr
      exact AList.lookup_erase_ne (hk e.id (List.mem_singleton_self _) e he hr).symm
    · rfl
  · rw [hrem]
    split <;> rfl

end
end Index

/-! ## The loops -/

namespace Store

open Index (Kept Agree Erases targets mem_targets)

section
variable {E : Event → Prop} {s : Index} {req : DeletionRequest} {author : Bytes32} {until_ : Nat}
  {p : DeletionOutcome × Store} {ids : List Bytes32} {coordinates : List Coordinate}

/-- The state of the loops: what was removed since the start, and that nothing
condemned by the references visited so far is left. -/
structure Swept (E : Event → Prop) (s : Index) (req : DeletionRequest) (author : Bytes32) (until_ : Nat)
    (p : DeletionOutcome × Store) (ids : List Bytes32) (coordinates : List Coordinate) : Prop where
  erases : Erases s p.2.index p.1.deletedIds
  kept : Kept E p.2.index
  condemned : p.1.deletedIds.toFinset ⊆ s.targets req author until_
  ids : ∀ id ∈ ids, ∀ e, p.2.index.byId.lookup id = some e → e.pubkey ≠ author
  coordinates : ∀ c ∈ coordinates, c.pubkey = author → ∀ id e, p.2.index.byId.lookup id = some e →
    e.replacementKey = c.key → until_ < e.createdAt

/-- One target is removed. -/
theorem Swept.deleteTarget (h : Swept E s req author until_ p ids coordinates) (hA : Agree E)
    {id : Bytes32} {e : Event}
    (he : p.2.index.byId.lookup id = some e) (hc : Condemned req author until_ e) :
    Swept E s req author until_ (deleteTarget p id) ids coordinates ∧
      Erases p.2.index (deleteTarget p id).2.index [id] := by
  obtain ⟨out, st⟩ := p
  obtain ⟨-, hs⟩ := h.erases.lookup_of_lookup he
  have ht : id ∈ s.targets req author until_ := mem_targets.2 ⟨e, hs, hc⟩
  obtain ⟨-, rfl⟩ := h.kept.inv.mem _ _ he
  have hone : Erases st.index (st.index.deleteById e.id).2 [e.id] :=
    h.kept.erases_deleteById hA he
  have hrem : (st.index.deleteById e.id).1 = some e := by
    unfold Index.deleteById
    rw [Index.internalRemove_slot he]
  have heq : Store.deleteTarget (out, st) e.id =
      ({ out with deletedIds := out.deletedIds ++ [e.id] },
        { st.recordDeletion e.id with index := (st.index.deleteById e.id).2 }) := by
    unfold Store.deleteTarget
    simp only
    rw [show (st.recordDeletion e.id).index = st.index from rfl, hrem]
    rfl
  rw [heq]
  refine ⟨⟨h.erases.trans hone, h.kept.deleteById hA e.id, ?_, ?_, ?_⟩, hone⟩
  · rw [List.toFinset_append]
    refine Finset.union_subset h.condemned ?_
    simpa using ht
  · intro id hid x hx
    exact h.ids id hid x (hone.lookup_of_lookup hx).2
  · intro c hc hpk id x hx hk
    exact h.coordinates c hc hpk id x (hone.lookup_of_lookup hx).2 hk

/-- One more id of which nothing is left. -/
theorem Swept.visitId (h : Swept E s req author until_ p ids coordinates) {id : Bytes32}
    (hlast : ∀ e, p.2.index.byId.lookup id = some e → e.pubkey ≠ author) :
    Swept E s req author until_ p (ids ++ [id]) coordinates := by
  refine ⟨h.erases, h.kept, h.condemned, fun id' hid' => ?_, h.coordinates⟩
  rcases List.mem_append.1 hid' with hid' | hid'
  · exact h.ids id' hid'
  · rw [List.mem_singleton.1 hid']
    exact hlast

/-- One more coordinate of which nothing is left. -/
theorem Swept.visitCoordinate (h : Swept E s req author until_ p ids coordinates) {c : Coordinate}
    (hlast : c.pubkey = author → ∀ id e, p.2.index.byId.lookup id = some e → e.replacementKey = c.key →
      until_ < e.createdAt) :
    Swept E s req author until_ p ids (coordinates ++ [c]) := by
  refine ⟨h.erases, h.kept, h.condemned, h.ids, fun c' hc' => ?_⟩
  rcases List.mem_append.1 hc' with hc' | hc'
  · exact h.coordinates c' hc'
  · rw [List.mem_singleton.1 hc']
    exact hlast

/-- Only the reported ids of an outcome matter. -/
theorem Swept.outcome (h : Swept E s req author until_ p ids coordinates) (out : DeletionOutcome)
    (hout : out.deletedIds = p.1.deletedIds) : Swept E s req author until_ (out, p.2) ids coordinates := by
  refine ⟨?_, h.kept, ?_, h.ids, h.coordinates⟩
  · show Erases s p.2.index out.deletedIds
    rw [hout]
    exact h.erases
  · show out.deletedIds.toFinset ⊆ _
    rw [hout]
    exact h.condemned

theorem Swept.deleteId (h : Swept E s req author until_ p ids coordinates) (hA : Agree E) {id : Bytes32}
    (hid : id ∈ req.ids) : Swept E s req author until_ (deleteId author p id) (ids ++ [id]) coordinates := by
  unfold Store.deleteId
  split
  · rename_i existing hget
    have hget' : p.2.index.byId.lookup id = some existing := hget
    split
    · rename_i hpk
      have hex := (h.kept.inv.mem _ _ hget').2
      obtain ⟨hsw, her⟩ := h.deleteTarget hA hget' (Or.inl ⟨by rwa [hex], hpk⟩)
      refine hsw.visitId fun e he => ?_
      exact absurd (List.mem_singleton_self id) (her.lookup_of_lookup he).1
    · rename_i hpk
      refine (h.outcome { p.1 with skippedForeign := p.1.skippedForeign + 1 } rfl).visitId fun e he => ?_
      have he' : p.2.index.byId.lookup id = some e := he
      rw [hget'] at he'
      cases he'
      exact hpk
  · rename_i hget
    refine h.visitId fun e he => ?_
    have hget' : p.2.index.byId.lookup id = none := hget
    rw [hget'] at he
    cases he

variable (until_) in
/-- What a coordinate finds: the holder of its slot, if it is live and not newer than
the request. -/
theorem mem_coordinateTargets_iff {s : Index} (h : Kept E s) (hA : Agree E) {c : Coordinate} {id : Bytes32} :
    id ∈ s.coordinateTargets c until_ ↔
      ∃ e, s.byId.lookup id = some e ∧ e.replacementKey = c.key ∧ e.createdAt ≤ until_ := by
  have hmem : id ∈ s.coordinateTargets c until_ ↔
      s.byReplaceable.lookup c.key = some id ∧ ∃ e, s.byId.lookup id = some e ∧ e.createdAt ≤ until_ := by
    show id ∈ (s.byReplaceable.lookup c.key).toList.filter _ ↔ _
    simp [Option.any_eq_true]
  rw [hmem]
  constructor
  · rintro ⟨hslot, e, he, hle⟩
    obtain ⟨x, hEx, hid, hk⟩ := h.inv.slotOf _ _ hslot
    obtain ⟨hE, heid⟩ := h.inv.mem _ _ he
    refine ⟨e, he, ?_, hle⟩
    rw [(hA e x hE hEx (by rw [hid, heid])).replacementKey]
    exact hk
  · rintro ⟨e, he, hk, hle⟩
    have hr : e.isReplaceable = true := by
      rw [← Bool.not_eq_false, ← Event.replacementKey_eq_none_iff, hk]
      exact c.key_ne_none
    rw [← hk]
    exact ⟨h.inv.slot _ _ he hr, e, he, hle⟩

theorem Swept.deleteCoordinate (h : Swept E s req author until_ p ids coordinates) (hA : Agree E) {c : Coordinate}
    (hc : c ∈ req.coordinates) :
    Swept E s req author until_ (deleteCoordinate author until_ p c) ids (coordinates ++ [c]) := by
  unfold Store.deleteCoordinate
  split
  · rename_i hpk
    have hsw := h.outcome { p.1 with skippedForeign := p.1.skippedForeign + 1 } rfl
    exact hsw.visitCoordinate fun hpk' => absurd hpk' hpk
  · rename_i hpk
    have hpk' : c.pubkey = author := not_not.1 hpk
    split
    · rename_i hnil
      have hsw := h.outcome { p.1 with unknownCoordinates := p.1.unknownCoordinates + 1 } rfl
      refine hsw.visitCoordinate fun _ id e he hk => ?_
      by_contra hle
      have hin := (mem_coordinateTargets_iff until_ h.kept hA).2 ⟨e, he, hk, by omega⟩
      rw [hnil] at hin
      cases hin
    · rename_i hne
      have hlen := p.2.index.length_coordinateTargets_le c until_
      cases ht : p.2.index.coordinateTargets c until_ with
      | nil => exact absurd ht hne
      | cons id rest =>
        rw [ht, List.length_cons] at hlen
        have hrest : rest = [] := List.length_eq_zero_iff.1 (by omega)
        subst hrest
        have hin : id ∈ p.2.index.coordinateTargets c until_ := by
          rw [ht]
          exact List.mem_singleton_self id
        obtain ⟨e, he, hk, hle⟩ := (mem_coordinateTargets_iff until_ h.kept hA).1 hin
        have hpub : e.pubkey = author := (Event.pubkey_of_key hk).trans hpk'
        obtain ⟨hsw, her⟩ := h.deleteTarget hA he (Or.inr ⟨hpub, hle, c, hc, hpk', hk⟩)
        refine hsw.visitCoordinate fun _ id' e' he' hk' => ?_
        by_contra hle'
        -- a second event of this key and time would be the one just removed
        obtain ⟨hne', hl'⟩ := her.lookup_of_lookup he'
        have hin' := (mem_coordinateTargets_iff until_ h.kept hA).2 ⟨e', hl', hk', by omega⟩
        rw [ht] at hin'
        exact hne' hin'

theorem Swept.ids_loop (hA : Agree E) {more : List Bytes32}
    (hmore : ∀ id ∈ more, id ∈ req.ids) (h : Swept E s req author until_ p ids coordinates) :
    Swept E s req author until_ (more.foldl (Store.deleteId author) p) (ids ++ more) coordinates := by
  induction more generalizing p ids with
  | nil =>
    rw [List.append_nil]
    exact h
  | cons id more ih =>
    have hstep := h.deleteId hA (hmore id List.mem_cons_self)
    have hrest := ih (fun id' hid' => hmore id' (List.mem_cons_of_mem id hid')) hstep
    rwa [List.append_assoc, List.singleton_append] at hrest

theorem Swept.coordinates_loop (hA : Agree E) {more : List Coordinate}
    (hmore : ∀ c ∈ more, c ∈ req.coordinates) (h : Swept E s req author until_ p ids coordinates) :
    Swept E s req author until_ (more.foldl (Store.deleteCoordinate author until_) p) ids
        (coordinates ++ more) := by
  induction more generalizing p coordinates with
  | nil =>
    rw [List.append_nil]
    exact h
  | cons c more ih =>
    have hstep := h.deleteCoordinate hA (hmore c List.mem_cons_self)
    have hrest := ih (fun c' hc' => hmore c' (List.mem_cons_of_mem c hc')) hstep
    rwa [List.append_assoc, List.singleton_append] at hrest

/-- After both loops every target is gone. -/
theorem Swept.complete (h : Swept E s req author until_ p ids req.coordinates) (hI : Index.Inv E s)
    (hids : ids.toFinset = req.ids) : p.1.deletedIds.toFinset = s.targets req author until_ := by
  refine Finset.Subset.antisymm h.condemned fun id hid => ?_
  rw [List.mem_toFinset]
  by_contra hno
  obtain ⟨e, he, hc⟩ := mem_targets.1 hid
  have heid := (hI.mem _ _ he).2
  have hleft : p.2.index.byId.lookup id = some e := by
    rw [h.erases.byId, if_neg hno]
    exact he
  rcases hc with ⟨hin, hpk⟩ | ⟨hpk, hle, c, hc, hcpk, hk⟩
  · refine h.ids id ?_ e hleft hpk
    rw [← List.mem_toFinset, hids, ← heid]
    exact hin
  · have hlt := h.coordinates c hc hcpk id e hleft hk
    omega

variable (author until_) in
theorem applyDeletion_swept {st : Store} (hk : Kept E st.index) (hA : Agree E) (hids : ids.toFinset = req.ids) :
    Swept E st.index req author until_
        (st.applyDeletion ids req.coordinates author until_) ids req.coordinates := by
  have hstart : Swept E st.index req author until_ (.default, st) [] [] :=
    ⟨Erases.refl _, hk, Finset.empty_subset _, by simp, by simp⟩
  have hmem : ∀ id ∈ ids, id ∈ req.ids := by
    intro id hid
    rw [← hids]
    exact List.mem_toFinset.2 hid
  exact (hstart.ids_loop hA hmem).coordinates_loop hA fun _ hc => hc

variable (author until_) in
/-- The removals of a request, whatever the number of tombstones. -/
theorem applyDeletion_erases {st : Store} (hk : Kept E st.index) (hA : Agree E) (hids : ids.toFinset = req.ids) :
    Erases st.index (st.applyDeletion ids req.coordinates author until_).2.index
        (st.applyDeletion ids req.coordinates author until_).1.deletedIds ∧
      (st.applyDeletion ids req.coordinates author until_).1.deletedIds.toFinset =
        st.index.targets req author until_ := by
  have hsw := applyDeletion_swept author until_ hk hA hids
  exact ⟨hsw.erases, hsw.complete hk.inv hids⟩

/-- What `apply_deletion` does to the index. -/
structure Deletes (s s' : Index) (deletedIds : List Bytes32) (gone : Finset Bytes32) : Prop where
  erases : Erases s s' deletedIds
  reported : deletedIds.toFinset = gone
  /-- none of them was buried before -/
  fresh : Disjoint s.tombstones.ids gone
  buried : s'.tombstones.ids = s.tombstones.ids ∪ gone

variable (req author until_) in
/-- Live ids are not buried yet. -/
theorem disjoint_targets (hk : Kept E s) : Disjoint s.tombstones.ids (s.targets req author until_) := by
  refine Finset.disjoint_left.2 fun id hid ht => ?_
  obtain ⟨e, he, -⟩ := mem_targets.1 ht
  exact hk.untombed id e he hid

theorem applyDeletion_deletes {st : Store} (hk : Kept E st.index) (hA : Agree E) (hids : ids.toFinset = req.ids)
    (hcap : st.index.tombstones.len + (st.index.targets req author until_).card ≤ maxTombstones) :
    Deletes st.index (st.applyDeletion ids req.coordinates author until_).2.index
      (st.applyDeletion ids req.coordinates author until_).1.deletedIds
      (st.index.targets req author until_) := by
  obtain ⟨her, hrep⟩ := applyDeletion_erases author until_ hk hA hids
  refine ⟨her, hrep, disjoint_targets req author until_ hk, ?_⟩
  rw [← hrep, List.toFinset_card_of_nodup her.once] at hcap
  rw [← hrep, her.buried, hk.ordered.ids_foldl_insert hcap]

end

/-- In every state of every run of the store, a deletion request removes exactly the
author's events that it names. -/
theorem run_applyDeletion (x : Ext) (maxBytes : Usize) (f : Files) (E : Event → Prop) (hA : Agree E)
    (cs : List Call) (hin : Machine.Along (call x maxBytes) (fun st c => c.In x E st) (Store.new f) cs)
    (st : Store) (hs : Machine.run (call x maxBytes) (Store.new f) cs = some st)
    (req : DeletionRequest) (ids : List Bytes32) (hids : ids.toFinset = req.ids) (author : Bytes32) (until_ : Nat)
    (hcap : st.index.tombstones.len + (st.index.targets req author until_).card ≤ maxTombstones) :
    Deletes st.index (st.applyDeletion ids req.coordinates author until_).2.index
      (st.applyDeletion ids req.coordinates author until_).1.deletedIds
      (st.index.targets req author until_) :=
  applyDeletion_deletes (run_kept hA hin hs) hA hids hcap

theorem agree_eq (e : Event) : Agree (fun a => a = e) := by
  rintro a b rfl rfl -
  exact ⟨rfl, rfl, rfl, rfl, rfl⟩

/-- A note is inserted; its author asks for it, and for a list that is not there. -/
theorem run_applyDeletion_note :
    ∃ st, Machine.run (call (Ext.known [] []) 0) (Store.new .empty) [.insert (note 0)] = some st ∧
      Deletes st.index
        (st.applyDeletion [(note 0).id] [⟨10002, (note 0).pubkey, []⟩] (note 0).pubkey 1700000001).2.index
        (st.applyDeletion [(note 0).id] [⟨10002, (note 0).pubkey, []⟩] (note 0).pubkey 1700000001).1.deletedIds
        (st.index.targets ⟨{(note 0).id}, [⟨10002, (note 0).pubkey, []⟩]⟩ (note 0).pubkey 1700000001) := by
  refine ⟨_, rfl, run_applyDeletion (Ext.known [] []) 0 .empty (fun a => a = note 0) (agree_eq _)
    [.insert (note 0)] ⟨fun _ => rfl, fun _ _ => trivial⟩ _ rfl ⟨_, _⟩ [(note 0).id] (by simp)
    (note 0).pubkey 1700000001 ?_⟩
  have hidx : ((Store.new .empty).insert (note 0)).2.index = (Index.new.insert (note 0)).2 := by
    rw [insert_index, if_neg (by decide)]
    rfl
  have hkeys : ((Index.new.insert (note 0)).2.byId.keys).length = 1 := by decide
  have hcard := (Index.new.insert (note 0)).2.card_targets_le ⟨{(note 0).id}, [⟨10002, (note 0).pubkey, []⟩]⟩
    (note 0).pubkey 1700000001
  rw [hidx, Index.insert_tombstones, show Index.new.tombstones.len = 0 from rfl]
  unfold maxTombstones
  omega

end Store
end Memlay
