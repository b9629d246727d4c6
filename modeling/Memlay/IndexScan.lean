import Memlay.IndexConsistency

/-!
# What the scan over all events reads

`get_newest` goes through the shards of the oldest-first index.  It returns events
of the shards only (`mem_getNewest`), and all of them when its bound is no smaller
than their number (`getNewest_perm`), which no more than the live events can be
(`Filed.length_shards_le`).
-/

namespace Memlay

/-- A push adds the event and nothing else. -/
theorem perm_heapPush (e : Event) (heap : List Event) : (heapPush e heap).Perm (e :: heap) := by
  induction heap with
  | nil => exact List.Perm.refl _
  | cons x heap ih =>
    unfold heapPush
    split
    · exact (ih.cons x).trans (List.Perm.swap e x heap)
    · exact List.Perm.refl _

namespace Index

/-- The heap holds only events that were read. -/
theorem mem_newestScan {count : Nat} {es heap : List Event} {x : Event} (h : x ∈ newestScan count es heap) :
    x ∈ es ∨ x ∈ heap := by
  induction es generalizing heap with
  | nil => exact Or.inr h
  | cons e es ih =>
    unfold newestScan at h
    have hpush : ∀ heap', x ∈ newestScan count es (heapPush e heap') → x ∈ e :: es ∨ x ∈ heap' := by
      intro heap' hx
      rcases ih hx with hx | hx
      · exact Or.inl (List.mem_cons_of_mem e hx)
      · rcases List.mem_cons.1 ((perm_heapPush e heap').mem_iff.1 hx) with rfl | hx
        · exact Or.inl List.mem_cons_self
        · exact Or.inr hx
    split at h
    · exact hpush heap h
    · split at h
      · cases h
      · rename_i top rest _
        split at h
        · exact (hpush rest h).imp_right (List.mem_cons_of_mem top)
        · exact Or.inr h

/-- As long as there is room, everything is kept. -/
theorem newestScan_perm {count : Nat} {es heap : List Event} (h : es.length + heap.length ≤ count) :
    (newestScan count es heap).Perm (es ++ heap) := by
  induction es generalizing heap with
  | nil => exact List.Perm.refl _
  | cons e es ih =>
    have hlen := (perm_heapPush e heap).length_eq
    rw [List.length_cons] at h hlen
    unfold newestScan
    rw [if_pos (by omega)]
    refine (ih (by omega)).trans ?_
    exact ((perm_heapPush e heap).append_left es).trans List.perm_middle

/-- All entries of the oldest-first index, shard by shard. -/
def shards (s : Index) : List Event := (List.range oldestShards).flatMap fun shard => s.sets (.oldest shard)

section
variable {s : Index} {count : Nat}

theorem mem_getNewest {x : Event} (h : x ∈ s.getNewest count) : x ∈ s.shards := by
  unfold getNewest at h
  split at h
  · cases h
  · have hgen : ∀ (ns : List Nat) (heap : List Event),
        x ∈ ns.foldl (fun heap shard => newestScan count (s.sets (.oldest shard)) heap) heap →
          x ∈ ns.flatMap (fun shard => s.sets (.oldest shard)) ∨ x ∈ heap := by
      intro ns
      induction ns with
      | nil => exact fun heap hx => Or.inr hx
      | cons n ns ih =>
        intro heap hx
        rw [List.flatMap_cons, List.mem_append]
        rcases ih _ hx with hx | hx
        · exact Or.inl (Or.inr hx)
        · exact (mem_newestScan hx).imp_left Or.inl
    exact (hgen _ _ (List.mem_reverse.1 h)).resolve_right List.not_mem_nil

/-- Where the count is no bound, the scan returns every entry of the shards. -/
theorem getNewest_perm (h : s.shards.length ≤ count) : (s.getNewest count).Perm s.shards := by
  unfold getNewest
  split
  · have hnil : s.shards = [] := List.length_eq_zero_iff.1 (by omega)
    rw [hnil]
  · have hgen : ∀ (ns : List Nat) (heap : List Event),
        (ns.flatMap fun shard => s.sets (.oldest shard)).length + heap.length ≤ count →
        (ns.foldl (fun heap shard => newestScan count (s.sets (.oldest shard)) heap) heap).Perm
          (ns.flatMap (fun shard => s.sets (.oldest shard)) ++ heap) := by
      intro ns
      induction ns with
      | nil => exact fun heap _ => List.Perm.refl _
      | cons n ns ih =>
        intro heap hlen
        rw [List.flatMap_cons, List.length_append] at hlen
        have hscan : (newestScan count (s.sets (.oldest n)) heap).Perm (s.sets (.oldest n) ++ heap) :=
          newestScan_perm (by omega)
        have hl := hscan.length_eq
        rw [List.length_append] at hl
        rw [List.foldl_cons, List.flatMap_cons, List.append_assoc]
        refine (ih _ (by omega)).trans ((hscan.append_left _).trans ?_)
        rw [← List.append_assoc, ← List.append_assoc]
        exact List.perm_append_comm.append_right heap
    refine (List.reverse_perm _).trans ?_
    have hall := hgen (List.range oldestShards) [] (by rw [List.length_nil, Nat.add_zero]; exact h)
    rw [List.append_nil] at hall
    exact hall

end

/-! ## How many -/

section
variable {E : Event → Prop} {s : Index}

/-- Entries of distinct ids are no more than the live events. -/
theorem length_le_of_live {l : List Event} (hids : (l.map Event.id).Nodup)
    (hlive : ∀ x ∈ l, (s.byId.lookup x.id).isSome) : l.length ≤ s.iterAll.length := by
  have hsub : l.map Event.id ⊆ s.byId.keys := by
    intro id hid
    obtain ⟨x, hx, rfl⟩ := List.mem_map.1 hid
    exact AList.lookup_isSome.1 (hlive x hx)
  have hle := (List.subperm_of_subset hids hsub).length_le
  unfold iterAll Table.values
  rw [List.length_map] at hle ⊢
  simpa [AList.keys, List.keys] using hle

/-- A set holds each id once. -/
theorem Filed.nodup_ids (h : Filed E s) (b : Bucket) : ((s.sets b).map Event.id).Nodup := by
  refine List.pairwise_map.2 ((h.sorted b).imp_of_mem fun {x y} hx hy hb hid => ?_)
  rw [h.same b b x hx y hy hid] at hb
  exact Event.Beats.irrefl y hb

/-- A set holds no more than the live events. -/
theorem Filed.length_le (h : Filed E s) (b : Bucket) : (s.sets b).length ≤ s.iterAll.length :=
  length_le_of_live (h.nodup_ids b) (h.noOrphan b)

theorem Filed.mem_shards (h : Filed E s) {x : Event} : x ∈ s.shards ↔ x ∈ s.sets (.oldest (oldestShard x.id)) := by
  unfold shards
  rw [List.mem_flatMap]
  constructor
  · rintro ⟨shard, -, hx⟩
    have hcall := mem_buckets_iff.1 (h.inSets _ x hx).2
    rwa [show oldestShard x.id = shard from hcall]
  · exact fun hx => ⟨oldestShard x.id, List.mem_range.2 (oldestShard_lt x.id), hx⟩

/-- An id is in one shard only, and there once. -/
theorem Filed.nodup_shards (h : Filed E s) : (s.shards.map Event.id).Nodup := by
  refine List.Nodup.map_on (fun x hx y hy hid => h.same _ _ x (h.mem_shards.1 hx) y (h.mem_shards.1 hy) hid) ?_
  unfold shards
  refine List.nodup_flatMap.2 ⟨fun shard _ => (h.nodup_ids _).of_map _, ?_⟩
  -- an entry's id decides its shard
  refine (List.nodup_range).imp_of_mem fun {m n} _ _ hne => ?_
  refine List.disjoint_left.2 fun x hx hy => hne ?_
  have hm := mem_buckets_iff.1 (h.inSets _ x hx).2
  have hn := mem_buckets_iff.1 (h.inSets _ x hy).2
  exact (show oldestShard x.id = m from hm).symm.trans hn

theorem Filed.length_shards_le (h : Filed E s) : s.shards.length ≤ s.iterAll.length :=
  length_le_of_live h.nodup_shards fun x hx => h.noOrphan _ x (h.mem_shards.1 hx)

end

end Index
end Memlay
