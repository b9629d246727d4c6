import Memlay.IndexScan
import Memlay.Lib.TopK

/-!
# `get_oldest` and `get_newest`

Both merge the 64 shards through one heap, `BinaryHeap<Reverse<EventRef>>`, whose
top is the newest event.  For `get_oldest` that is the right end: it returns the
oldest events, oldest first (`run_getOldest`).  For `get_newest` it is the wrong
end: the first events of the shards stay in the heap, only the newest of them gives
way, and the final reversal puts the oldest first.  `mem_getNewest_iff` says by the
places in the shards which events are returned, `run_getNewest_iff` in which states
they are still the newest events, newest first.
-/

namespace Memlay
namespace Index

/-! ## The scans as runs through a heap -/

theorem heapPush_eq (e : Event) (heap : List Event) : heapPush e heap = TopK.push Event.Beats e heap := by
  induction heap with
  | nil => rfl
  | cons x heap ih =>
    unfold heapPush TopK.push
    rw [ih]

theorem oldestScan_eq (count : Nat) (es heap : List Event) :
    oldestScan count es heap =
      TopK.scan Event.Beats (fun e top => e.createdAt < top.createdAt) count es heap := by
  induction es generalizing heap with
  | nil => rfl
  | cons e es ih =>
    unfold oldestScan TopK.scan
    simp only [ih, heapPush_eq]
    cases heap <;> rfl

theorem newestScan_eq (count : Nat) (es heap : List Event) :
    newestScan count es heap =
      TopK.scan Event.Beats (fun e top => top.createdAt < e.createdAt) count es heap := by
  induction es generalizing heap with
  | nil => rfl
  | cons e es ih =>
    unfold newestScan TopK.scan
    simp only [ih, heapPush_eq]
    cases heap <;> rfl

theorem byKey_beats : TopK.ByKey Event.createdAt Event.Beats := by
  intro a b
  unfold Event.Beats
  constructor
  · intro h
    omega
  · intro h
    omega

theorem weak_beats : TopK.Weak Event.Beats where
  asymm := Event.Beats.asymm
  not_trans := by
    intro a b c hab hbc hac
    unfold Event.Beats at hab hbc hac
    simp only [BitVec.lt_def] at hab hbc hac
    omega

section
variable {E : Event → Prop} {s : Index} {count : Nat}

theorem Filed.down (h : Filed E s) (b : Bucket) : TopK.Down Event.createdAt (s.sets b) :=
  (h.sorted b).imp fun {x y} hxy => (byKey_beats x y).1 hxy

/-- The heap `get_oldest` ends with, when the shards are sorted. -/
theorem smallest_of_sorted (h : ∀ shard, (s.sets (.oldest shard)).Pairwise Event.Beats) (hc : 0 < count) :
    ∃ heap seen, s.getOldest count = heap.reverse ∧ seen.Perm s.shards ∧
      TopK.Smallest Event.createdAt count seen heap := by
  let runs := (List.range oldestShards).map fun shard => (s.sets (.oldest shard)).reverse
  have hruns : ∀ run ∈ runs, TopK.Up Event.createdAt run := by
    intro run hrun
    obtain ⟨shard, -, rfl⟩ := List.mem_map.1 hrun
    exact List.pairwise_reverse.2 ((h shard).imp fun {x y} hxy => (byKey_beats x y).1 hxy)
  have hall := TopK.Smallest.runs byKey_beats hc hruns (TopK.Smallest.nil Event.createdAt count)
  refine ⟨_, _, ?_, ?_, hall⟩
  · unfold getOldest TopK.scanRuns
    rw [List.foldl_map]
    simp only [oldestScan_eq]
  · rw [List.nil_append]
    exact List.Perm.flatMap_left _ fun shard _ => List.reverse_perm _

theorem Filed.smallest (h : Filed E s) (hc : 0 < count) :
    ∃ heap seen, s.getOldest count = heap.reverse ∧ seen.Perm s.shards ∧
      TopK.Smallest Event.createdAt count seen heap :=
  smallest_of_sorted (fun _ => h.sorted _) hc

/-- The heap `get_newest` ends with, when the shards are sorted. -/
theorem stuck_of_sorted (h : ∀ shard, (s.sets (.oldest shard)).Pairwise Event.Beats) (hc : 0 < count) :
    ∃ heap, s.getNewest count = heap.reverse ∧
      TopK.Stuck Event.createdAt Event.Beats count s.shards heap := by
  let runs := (List.range oldestShards).map fun shard => s.sets (.oldest shard)
  have hruns : ∀ run ∈ runs, TopK.Down Event.createdAt run := by
    intro run hrun
    obtain ⟨shard, -, rfl⟩ := List.mem_map.1 hrun
    exact (h shard).imp fun {x y} hxy => (byKey_beats x y).1 hxy
  have hall := TopK.Stuck.runs byKey_beats weak_beats hruns (TopK.Stuck.nil Event.createdAt hc)
  refine ⟨_, ?_, hall⟩
  unfold getNewest TopK.scanRuns
  rw [if_neg (by omega), List.foldl_map]
  simp only [newestScan_eq]

theorem Filed.stuck (h : Filed E s) (hc : 0 < count) :
    ∃ heap, s.getNewest count = heap.reverse ∧
      TopK.Stuck Event.createdAt Event.Beats count s.shards heap :=
  stuck_of_sorted (fun _ => h.sorted _) hc

end

/-! ## What `get_newest` keeps -/

/-- The shards as every state has them: each a sorted set, each event in the shard of
its id. -/
structure Shelved (s : Index) : Prop where
  sorted : ∀ shard, (s.sets (.oldest shard)).Pairwise Event.Beats
  own : ∀ shard, ∀ x ∈ s.sets (.oldest shard), oldestShard x.id = shard

/-- First of the first `count` events of the shards, and some event is newer. -/
def Displaced (s : Index) (count : Nat) (x : Event) : Prop :=
  TopK.Displaced Event.createdAt Event.Beats count s.shards x

/-- Behind the first `count` events of the shards, newer than all before it, and none
behind it is newer. -/
def Displaces (s : Index) (count : Nat) (x : Event) : Prop :=
  0 < count ∧ TopK.Displaces Event.createdAt count s.shards x

section
variable {E : Event → Prop} {s : Index} {count : Nat}

theorem shelved_of_sets (hin : InSets E s.sets) (hsorted : SortedSets s.sets) : s.Shelved where
  sorted := fun _ => hsorted _
  own := fun _ x hx => mem_buckets_iff.1 (hin _ x hx).2

theorem Filed.shelved (h : Filed E s) : s.Shelved := shelved_of_sets h.inSets h.sorted

theorem Shelved.length_getNewest_le (h : s.Shelved) (count : Nat) : (s.getNewest count).length ≤ count := by
  rcases Nat.eq_zero_or_pos count with rfl | hc
  · exact Nat.le_refl 0
  · obtain ⟨heap, heq, hs⟩ := stuck_of_sorted h.sorted hc
    rw [heq, List.length_reverse, hs.length_eq]
    exact Nat.min_le_left _ _

theorem Shelved.mem_shards (h : s.Shelved) {x : Event} :
    x ∈ s.shards ↔ x ∈ s.sets (.oldest (oldestShard x.id)) := by
  unfold shards
  rw [List.mem_flatMap]
  constructor
  · rintro ⟨shard, -, hx⟩
    rwa [h.own shard x hx]
  · exact fun hx => ⟨oldestShard x.id, List.mem_range.2 (oldestShard_lt x.id), hx⟩

theorem Shelved.nodup (h : s.Shelved) : s.shards.Nodup := by
  unfold shards
  refine List.nodup_flatMap.2 ⟨fun shard _ => (h.sorted shard).imp fun {x y} hxy heq => ?_, ?_⟩
  · rw [heq] at hxy
    exact Event.Beats.irrefl y hxy
  · -- an entry's id decides its shard
    refine List.nodup_range.imp_of_mem fun {m n} _ _ hne => List.disjoint_left.2 fun x hx hy => hne ?_
    rw [← h.own m x hx, h.own n x hy]

theorem Shelved.total (h : s.Shelved) : ∀ a ∈ s.shards, ∀ b ∈ s.shards, a = b ∨ a.Beats b ∨ b.Beats a := by
  intro a ha b hb
  by_cases hid : a.id = b.id
  · -- two entries of one sorted set
    rw [h.mem_shards] at ha hb
    rw [hid] at ha
    by_cases heq : a = b
    · exact Or.inl heq
    · have hcomm : Std.Symm fun x y : Event => x.Beats y ∨ y.Beats x := ⟨fun _ _ hxy => hxy.symm⟩
      have hpairs : (s.sets (.oldest (oldestShard b.id))).Pairwise fun x y => x.Beats y ∨ y.Beats x :=
        (h.sorted _).imp Or.inl
      exact Or.inr (hpairs.forall ha hb heq)
  · exact Or.inr (Event.beats_or_beats hid)

/-- The events `get_newest` returns: the first `count` of the shards, without the one
that is displaced, and the one that displaces it. -/
theorem mem_getNewest_iff (h : s.Shelved) {x : Event} :
    x ∈ s.getNewest count ↔ (x ∈ s.shards.take count ∧ ¬ s.Displaced count x) ∨ s.Displaces count x := by
  rcases Nat.eq_zero_or_pos count with rfl | hc
  · have hnil : s.getNewest 0 = [] := rfl
    rw [hnil, List.take_zero]
    refine iff_of_false List.not_mem_nil ?_
    rintro (⟨hx, -⟩ | ⟨hlt, -⟩)
    · cases hx
    · exact Nat.lt_irrefl 0 hlt
  · obtain ⟨heap, heq, hs⟩ := stuck_of_sorted h.sorted hc
    rw [heq, List.mem_reverse, hs.mem_iff byKey_beats h.nodup h.total, Displaces, and_iff_right hc, Displaced]

/-- What displaces is newer than all it is returned with. -/
theorem Displaces.lt {x y : Event} (hx : s.Displaces count x) (hy : y ∈ s.shards.take count) :
    y.createdAt < x.createdAt :=
  (TopK.displaces_iff.1 hx.2).1.lt hy

theorem Displaces.max {x : Event} (hx : s.Displaces count x) : ∀ y ∈ s.shards, y.createdAt ≤ x.createdAt :=
  (TopK.displaces_iff.1 hx.2).2

theorem Displaces.mem_drop {x : Event} (hx : s.Displaces count x) : x ∈ s.shards.drop count :=
  (TopK.displaces_iff.1 hx.2).1.mem_drop

end

/-! ## The shards and the live events -/

section
variable {E : Event → Prop} {s : Index}

theorem Filed.exists_mem_shards (h : Filed E s) (hI : Inv E s) {id : Bytes32} {e : Event}
    (he : s.byId.lookup id = some e) : ∃ x ∈ s.shards, x.id = id := by
  have hb : Bucket.oldest (oldestShard e.id) ∈ e.buckets := mem_buckets_iff.2 rfl
  obtain ⟨x, hx, hid⟩ := h.complete id e he _ hb
  refine ⟨x, h.mem_shards.2 ?_, hid⟩
  rwa [hid, ← (hI.mem _ _ he).2]

theorem Filed.length_shards (h : Filed E s) (hI : Inv E s) : s.shards.length = s.iterAll.length := by
  refine Nat.le_antisymm h.length_shards_le ?_
  have hsub : s.byId.keys ⊆ s.shards.map Event.id := by
    intro id hid
    obtain ⟨e, he⟩ := Option.isSome_iff_exists.1 (AList.lookup_isSome.2 hid)
    obtain ⟨x, hx, hxid⟩ := h.exists_mem_shards hI he
    exact List.mem_map.2 ⟨x, hx, hxid⟩
  have hle := (List.subperm_of_subset s.byId.nodupKeys hsub).length_le
  unfold iterAll Table.values
  rw [List.length_map] at hle ⊢
  simpa [AList.keys, List.keys] using hle

/-- An entry of a shard is a live event, up to the copy at hand. -/
theorem Filed.live_of_mem_shards (h : Filed E s) (hI : Inv E s) (hA : Agree E) {x : Event} (hx : x ∈ s.shards) :
    ∃ e, s.byId.lookup x.id = some e ∧ Event.SameFields e x := by
  have hx' := h.mem_shards.1 hx
  obtain ⟨e, he⟩ := Option.isSome_iff_exists.1 (h.noOrphan _ x hx')
  obtain ⟨hE, hid⟩ := hI.mem _ _ he
  exact ⟨e, he, hA e x hE (h.inSets _ x hx').1 hid⟩

end

/-! ## Oldest first -/

/-- `es` are the `count` live events that go first in an order of times, in that order. -/
structure Foremost (before : Nat → Nat → Prop) (s : Index) (count : Nat) (es : List Event) : Prop where
  live : ∀ x ∈ es, ∃ e, s.byId.lookup x.id = some e ∧ Event.SameFields e x
  distinct : (es.map Event.id).Nodup
  length : es.length = min count s.iterAll.length
  sorted : es.Pairwise fun a b => before a.createdAt b.createdAt
  rest : ∀ id e, s.byId.lookup id = some e → id ∉ es.map Event.id → ∀ x ∈ es, before x.createdAt e.createdAt

def IsOldest (s : Index) (count : Nat) (es : List Event) : Prop := Foremost (fun a b => a ≤ b) s count es

def IsNewest (s : Index) (count : Nat) (es : List Event) : Prop := Foremost (fun a b => b ≤ a) s count es

section
variable {E : Event → Prop} {s : Index} {count : Nat}

/-- The parts that hold of any selection from the shards. -/
theorem Filed.distinct_of_subperm (h : Filed E s) {es : List Event} (hsub : es.Subperm s.shards) :
    (es.map Event.id).Nodup := by
  obtain ⟨l, hperm, hl⟩ := hsub
  exact (hperm.map Event.id).nodup_iff.1 ((hl.map Event.id).nodup h.nodup_shards)

theorem Filed.isOldest (h : Filed E s) (hI : Inv E s) (hA : Agree E) (hc : 0 < count) :
    IsOldest s count (s.getOldest count) := by
  obtain ⟨heap, seen, heq, hseen, hs⟩ := h.smallest hc
  obtain ⟨dropped, hperm, hle⟩ := hs.split
  rw [heq]
  have hall : (heap ++ dropped).Perm s.shards := hperm.trans hseen
  have hsub : heap.reverse.Subperm s.shards :=
    (List.reverse_perm heap).subperm.trans ((List.sublist_append_left heap dropped).subperm.trans hall.subperm)
  refine ⟨fun x hx => h.live_of_mem_shards hI hA (hsub.subset hx), h.distinct_of_subperm hsub, ?_,
    List.pairwise_reverse.2 hs.down, fun id e he hid x hx => ?_⟩
  · rw [List.length_reverse, hs.length, hseen.length_eq, h.length_shards hI]
  · obtain ⟨y, hy, hyid⟩ := h.exists_mem_shards hI he
    obtain ⟨e', he', hsame⟩ := h.live_of_mem_shards hI hA hy
    rw [hyid, he] at he'
    cases he'
    rw [hsame.createdAt]
    rcases List.mem_append.1 (hall.mem_iff.2 hy) with hy | hy
    · exact absurd (List.mem_map.2 ⟨y, List.mem_reverse.2 hy, hyid⟩) hid
    · exact hle x (List.mem_reverse.1 hx) y hy

end

/-- In every state of every sequential run, `get_oldest` returns the oldest live
events, oldest first. -/
theorem run_getOldest (cs : List Edit) (hA : Agree (Offered cs)) (s : Index)
    (hs : Machine.run editStep new cs = some s) (count : Nat) (hc : 0 < count) :
    IsOldest s count (s.getOldest count) := by
  obtain ⟨hI, hF⟩ := run_filed hA hs
  exact hF.isOldest hI hA hc

/-- Two notes, the earlier one first. -/
def earlierNote : Event := Event.compact 2 (note 0).pubkey 1600000000 1 [] ['h', 'o'] 0

def twoNotes : List Edit := [.insert earlierNote, .insert (note 0)]

theorem offered_twoNotes {e : Event} (he : Offered twoNotes e) : e = earlierNote ∨ e = note 0 := by
  simp only [Offered, twoNotes, List.mem_cons, Edit.insert.injEq, List.not_mem_nil, or_false] at he
  exact he

theorem agree_twoNotes : Agree (Offered twoNotes) := by
  intro a b ha hb hid
  rcases offered_twoNotes ha with rfl | rfl <;> rcases offered_twoNotes hb with rfl | rfl
  · exact ⟨rfl, rfl, rfl, rfl, rfl⟩
  · exact absurd hid (by show (2 : Bytes32) ≠ (note 0).id; decide)
  · exact absurd hid (by show (note 0).id ≠ (2 : Bytes32); decide)
  · exact ⟨rfl, rfl, rfl, rfl, rfl⟩

theorem run_getOldest_twoNotes :
    ∃ s, Machine.run editStep new twoNotes = some s ∧ IsOldest s 1 (s.getOldest 1) :=
  ⟨_, rfl, run_getOldest twoNotes agree_twoNotes _ rfl 1 (by decide)⟩

/-! ## Newest first -/

section
variable {E : Event → Prop} {s : Index} {count : Nat}

/-- The live events that `get_newest` meets first all have the latest time. -/
def LatestFirst (s : Index) (count : Nat) : Prop :=
  ∀ x ∈ s.shards.take count, ∀ id e, s.byId.lookup id = some e → e.createdAt ≤ x.createdAt

theorem Filed.le_of_live_iff (h : Filed E s) (hI : Inv E s) (hA : Agree E) (t : Nat) :
    (∀ id e, s.byId.lookup id = some e → e.createdAt ≤ t) ↔ ∀ y ∈ s.shards, y.createdAt ≤ t := by
  constructor
  · intro hlive y hy
    obtain ⟨e, he, hsame⟩ := h.live_of_mem_shards hI hA hy
    rw [← hsame.createdAt]
    exact hlive y.id e he
  · intro hshards id e he
    obtain ⟨y, hy, rfl⟩ := h.exists_mem_shards hI he
    obtain ⟨e', he', hsame⟩ := h.live_of_mem_shards hI hA hy
    rw [he] at he'
    cases he'
    rw [hsame.createdAt]
    exact hshards y hy

theorem Filed.latestFirst_iff (h : Filed E s) (hI : Inv E s) (hA : Agree E) :
    LatestFirst s count ↔ ∀ x ∈ s.shards.take count, ∀ y ∈ s.shards, y.createdAt ≤ x.createdAt := by
  unfold LatestFirst
  simp only [h.le_of_live_iff hI hA]

/-- The answer is sorted oldest first and holds the newest event, so it is the top-k
only if all its times are the same. -/
theorem Filed.isNewest_iff_greatest (h : Filed E s) (hI : Inv E s) (hA : Agree E) (hc : 0 < count) :
    IsNewest s count (s.getNewest count) ↔
      ∀ x ∈ s.getNewest count, ∀ y ∈ s.shards, y.createdAt ≤ x.createdAt := by
  obtain ⟨heap, heq, hs⟩ := h.stuck hc
  rw [heq]
  have hsub : heap.reverse.Subperm s.shards := (List.reverse_perm heap).subperm.trans hs.subperm
  constructor
  · intro htop x hx y hy
    obtain ⟨z, hz, hmax⟩ := hs.exists_greatest byKey_beats (List.mem_reverse.1 hx)
    -- sorted both ways: one time
    have hup : heap.reverse.Pairwise fun a b => a.createdAt ≤ b.createdAt :=
      List.pairwise_reverse.2 (hs.down byKey_beats)
    have hsame : heap.reverse.Pairwise fun a b => a.createdAt = b.createdAt :=
      (hup.and htop.sorted).imp fun {a b} hab => Nat.le_antisymm hab.1 hab.2
    have hsymm : Std.Symm fun a b : Event => a.createdAt = b.createdAt := ⟨fun _ _ hab => hab.symm⟩
    have hxz : x.createdAt = z.createdAt :=
      List.Pairwise.forall_of_forall (R := fun a b : Event => a.createdAt = b.createdAt) (fun _ _ => rfl) hsame hx
        (List.mem_reverse.2 hz)
    rw [hxz]
    exact hmax y hy
  · intro hmax
    have hlen : heap.reverse.length = min count s.iterAll.length := by
      rw [List.length_reverse, hs.length_eq, h.length_shards hI]
    refine ⟨fun x hx => h.live_of_mem_shards hI hA (hsub.subset hx), h.distinct_of_subperm hsub, hlen, ?_, ?_⟩
    · refine List.pairwise_of_forall_mem_list fun a ha b hb => ?_
      exact hmax a ha b (hsub.subset hb)
    · intro id e he _ x hx
      exact (h.le_of_live_iff hI hA _).2 (hmax x hx) id e he

theorem Filed.isNewest_iff (h : Filed E s) (hI : Inv E s) (hA : Agree E) :
    IsNewest s count (s.getNewest count) ↔ count ≤ 1 ∨ LatestFirst s count := by
  rcases Nat.lt_or_ge 0 count with hc | hc
  · rw [h.isNewest_iff_greatest hI hA hc, h.latestFirst_iff hI hA]
    obtain ⟨heap, heq, hs⟩ := h.stuck hc
    rw [heq]
    simp only [List.mem_reverse]
    rcases Nat.lt_or_ge 1 count with hc2 | hc1
    · rw [hs.all_greatest_iff byKey_beats hc2]
      exact ⟨Or.inr, fun hor => hor.resolve_left (by omega)⟩
    · -- one place: the newest event has it
      refine iff_of_true ?_ (Or.inl hc1)
      intro x hx y hy
      obtain ⟨z, hz, hmax⟩ := hs.exists_greatest byKey_beats hx
      have hlen := hs.length_eq
      have hpos := List.length_pos_of_mem hx
      obtain ⟨a, rfl⟩ := List.length_eq_one_iff.1 (show heap.length = 1 by omega)
      rw [List.mem_singleton.1 hx, ← List.mem_singleton.1 hz]
      exact hmax y hy
  · refine iff_of_true ?_ (Or.inl (by omega))
    have h0 : count = 0 := by omega
    subst h0
    have hnil : s.getNewest 0 = [] := rfl
    rw [hnil]
    exact ⟨by simp, by simp, by simp, List.Pairwise.nil, by simp⟩

end

/-- In every state of every sequential run and for every bound: `get_newest`
returns the newest live events, newest first, exactly when at most one is asked for
or the first events of the shards all have the latest time. -/
theorem run_getNewest_iff (cs : List Edit) (hA : Agree (Offered cs)) (s : Index)
    (hs : Machine.run editStep new cs = some s) (count : Nat) :
    IsNewest s count (s.getNewest count) ↔ count ≤ 1 ∨ LatestFirst s count := by
  obtain ⟨hI, hF⟩ := run_filed hA hs
  exact hF.isNewest_iff hI hA

theorem run_getNewest_iff_twoNotes :
    ∃ s, Machine.run editStep new twoNotes = some s ∧
      (IsNewest s 2 (s.getNewest 2) ↔ 2 ≤ 1 ∨ LatestFirst s 2) :=
  ⟨_, rfl, run_getNewest_iff twoNotes agree_twoNotes _ rfl 2⟩

theorem lookup_twoNotes (id : Bytes32) :
    ((new.insert earlierNote).2.insert (note 0)).2.byId.lookup id =
      if id = (note 0).id then some (note 0) else if id = 2 then some earlierNote else none := by
  rw [lookup_insert_of_regular (by decide) ?_, lookup_insert_of_regular (by decide) (by decide)]
  · rfl
  · unfold isTombstoned
    rw [insert_tombstones]
    decide

/-- Two notes of different times, and room for both: the older one is returned first. -/
theorem getNewest_twoNotes_oldest_first :
    ∃ s, Machine.run editStep new twoNotes = some s ∧ ¬ IsNewest s 2 (s.getNewest 2) := by
  refine ⟨((new.insert earlierNote).2.insert (note 0)).2, rfl, ?_⟩
  generalize hs : ((new.insert earlierNote).2.insert (note 0)).2 = s
  have hlookup := lookup_twoNotes
  rw [hs] at hlookup
  obtain ⟨hI, hF⟩ := run_filed agree_twoNotes (congrArg some hs)
  rw [hF.isNewest_iff hI agree_twoNotes]
  rintro (h | h)
  · omega
  · have hold : s.byId.lookup 2 = some earlierNote := by
      rw [hlookup, if_neg (by decide), if_pos rfl]
    have hnew : s.byId.lookup (note 0).id = some (note 0) := by rw [hlookup, if_pos rfl]
    have hlen : s.shards.length = 2 := by
      rw [hF.length_shards hI, ← hs]
      decide
    obtain ⟨x, hx, hid⟩ := hF.exists_mem_shards hI hold
    obtain ⟨e, he, hsame⟩ := hF.live_of_mem_shards hI agree_twoNotes hx
    rw [hid, hold] at he
    cases he
    rw [LatestFirst, List.take_of_length_le (by omega)] at h
    have hle := h x hx _ _ hnew
    rw [← hsame.createdAt] at hle
    exact absurd hle (by decide)

end Index
end Memlay
