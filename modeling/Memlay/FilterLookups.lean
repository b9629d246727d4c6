import Memlay.FilterFacts

/-!
# The lookups of a query (`src/subscription.rs`, `query_filter_internal`)

A query takes its locks one after another, one for each event by its id, for each set and
for each shard of the scan, and the index may change in between:

    lookups   what the planner reads, in this order
    look      one lookup, put after what has been found
    choose    the AND filters, the first of each id, and the limit

Where nothing changes, all of them together are `query_filter` (`answer_replicate`).
-/

namespace Memlay

/-- What one lock is taken for. -/
inductive Lookup where
  | event (id : Bytes32)
  | set (b : Bucket)
  | pubkeySince (pubkey : Bytes32) (since : Nat)
  /-- of the scan over all events -/
  | shard (shard : Nat)

namespace Filter

open Index (newestScan)

def lookups (f : Filter) : List Lookup :=
  if f.useIds then (f.ids.getD []).map .event
  else if f.useETags then f.eQueried.map fun b => .set (.tagE (tagIdHash b))
  else if f.usePTags then f.pQueried.map fun b => .set (.tagP (tagIdHash b))
  else if f.hasGenericTags then
    match f.firstGeneric with
    | some (letter, values) => values.map fun v => .set (.tagOther letter v)
    | none => []
  else if f.useAuthors then
    match f.authors with
    | some authors => authors.map fun a =>
      match f.since with
      | some since => .pubkeySince a since
      | none => .set (.pubkey (tagIdHash a))
    | none => (decoded (f.pTags.getD [])).map fun b => .set (.pubkey (tagIdHash b))
  else if f.useKinds then (f.kinds.getD []).map fun kind => .set (.kind kind)
  -- `get_newest` of 0 takes no lock
  else if f.fetchLimit = 0 then [] else (List.range oldestShards).map .shard

/-- What has been found, after one more lookup; in the scan it is the heap. -/
def look (s : Index) (f : Filter) (found : List Event) : Lookup → List Event
  | .event id => found ++ ((s.get id).filter f.inTime).toList
  | .set b => found ++ s.query b f.fetchLimit
  | .pubkeySince pubkey since => found ++ s.queryByPubkeySince pubkey since f.fetchLimit
  | .shard shard => newestScan f.fetchLimit (s.sets (.oldest shard)) found

/-- What is left of what has been found; the heap of the scan is reversed first. -/
def choose (f : Filter) (found : List Event) : List Event :=
  let results := collect f.keeps [] (if f.scans then found.reverse else found)
  match f.limit with
  | some lim => results.take lim
  | none => results

/-- What the first lookups find, each in its own index. -/
def found (f : Filter) (seen : List Index) : List Event :=
  (f.lookups.zip seen).foldl (fun found p => f.look p.2 found p.1) []

/-- The answer, each lookup made in its own index. -/
def answer (f : Filter) (seen : List Index) : List Event := f.choose (f.found seen)

section
variable {f : Filter} {s : Index} {l : Lookup} {e : Event}

@[simp] theorem found_nil (f : Filter) : f.found [] = [] := by
  unfold found
  rw [List.zip_nil_right]
  rfl

/-- One more lookup. -/
theorem found_concat {seen : List Index} {ls : List Lookup} (h : f.lookups.drop seen.length = l :: ls)
    (s : Index) :
    f.found (seen ++ [s]) = f.look s (f.found seen) l := by
  have hlen : (f.lookups.take seen.length).length = seen.length := by
    have hlt : seen.length < f.lookups.length := by
      by_contra hge
      rw [List.drop_eq_nil_of_le (Nat.not_lt.1 hge)] at h
      cases h
    rw [List.length_take, Nat.min_eq_left hlt.le]
  have hzip : ∀ more, f.lookups.zip (seen ++ more) = (f.lookups.take seen.length).zip seen ++
      (l :: ls).zip more := by
    intro more
    rw [← List.zip_append hlen, ← h, List.take_append_drop]
  have hseen := hzip []
  rw [List.append_nil, List.zip_nil_right, List.append_nil] at hseen
  unfold found
  rw [hzip, hseen, List.zip_cons_cons, List.zip_nil_right, List.foldl_append]
  rfl

theorem mem_choose {found : List Event} (h : e ∈ f.choose found) : e ∈ found ∧ f.keeps e = true := by
  have hcollect : e ∈ collect f.keeps [] (if f.scans then found.reverse else found) := by
    unfold choose at h
    simp only at h
    split at h
    · exact List.mem_of_mem_take h
    · exact h
  obtain ⟨hmem, hkeeps⟩ := mem_collect _ _ hcollect
  refine ⟨?_, hkeeps⟩
  split at hmem
  · exact List.mem_reverse.1 hmem
  · exact hmem

theorem length_choose_le {n : Nat} (h : f.limit = some n) (found : List Event) : (f.choose found).length ≤ n := by
  unfold choose
  rw [h]
  exact List.length_take_le _ _

/-! ## Alone, the lookups are `query_filter` -/

theorem foldl_zip_replicate (ls : List Lookup) (found : List Event) :
    (ls.zip (List.replicate ls.length s)).foldl (fun found p => f.look p.2 found p.1) found =
      ls.foldl (f.look s) found := by
  induction ls generalizing found with
  | nil => rfl
  | cons l ls ih =>
    rw [List.length_cons, List.replicate_succ, List.zip_cons_cons, List.foldl_cons, List.foldl_cons]
    exact ih _

/-- Lookups that put what they find after the rest. -/
theorem foldl_map_look {α : Type} {mk : α → Lookup} {g : α → List Event}
    (hg : ∀ a found, f.look s found (mk a) = found ++ g a) (as : List α) (found : List Event) :
    (as.map mk).foldl (f.look s) found = found ++ as.flatMap g := by
  induction as generalizing found with
  | nil => simp
  | cons a as ih =>
    rw [List.map_cons, List.foldl_cons, hg, ih, List.flatMap_cons, List.append_assoc]

/-- The scan's lookups are `get_newest`, but for the order. -/
theorem foldl_shards : (if f.fetchLimit = 0 then [] else (List.range oldestShards).map Lookup.shard).foldl
    (f.look s) [] =
    (s.getNewest f.fetchLimit).reverse := by
  unfold Index.getNewest
  split
  · rfl
  · rw [List.reverse_reverse, List.foldl_map]
    rfl

theorem foldl_lookups (f : Filter) (s : Index) :
    (if f.scans then (f.lookups.foldl (f.look s) []).reverse else f.lookups.foldl (f.look s) []) =
        f.candidates s := by
  have hset : ∀ {α : Type} (key : α → Bucket) (as : List α),
      (as.map fun a => Lookup.set (key a)).foldl (f.look s) [] = as.flatMap fun a =>
          s.query (key a) f.fetchLimit :=
    fun key as => foldl_map_look (fun _ _ => rfl) as []
  unfold lookups candidates scans
  by_cases hids : f.useIds = true
  · rw [if_pos hids, if_pos hids, hids]
    simp only [Bool.true_or, Bool.not_true, Bool.false_eq_true, if_false]
    rw [foldl_map_look (g := fun id => ((s.get id).filter f.inTime).toList) fun _ _ => rfl, List.nil_append,
      List.filterMap_eq_flatMap_toList]
  by_cases he : f.useETags = true
  · simp only [hids, he, if_true, Bool.false_eq_true, if_false, Bool.true_or, Bool.false_or, Bool.not_true]
    exact hset _ _
  by_cases hp : f.usePTags = true
  · simp only [hids, he, hp, if_true, Bool.false_eq_true, if_false, Bool.true_or, Bool.false_or, Bool.not_true]
    exact hset _ _
  by_cases hg : f.hasGenericTags = true
  · simp only [hids, he, hp, hg, if_true, Bool.false_eq_true, if_false, Bool.true_or, Bool.false_or, Bool.not_true]
    cases f.firstGeneric with
    | none => rfl
    | some first => exact hset _ _
  by_cases ha : f.useAuthors = true
  · simp only [hids, he, hp, hg, ha, if_true, Bool.false_eq_true, if_false, Bool.true_or, Bool.false_or,
        Bool.not_true]
    cases f.authors with
    | none => exact hset _ _
    | some authors =>
      cases f.since with
      | none => exact hset _ _
      | some since => exact foldl_map_look (fun _ _ => rfl) authors []
  by_cases hk : f.useKinds = true
  · simp only [hids, he, hp, hg, ha, hk, if_true, Bool.false_eq_true, if_false, Bool.false_or, Bool.not_true]
    exact hset _ _
  · simp only [hids, he, hp, hg, ha, hk, if_true, Bool.false_eq_true, if_false, Bool.or_self, Bool.not_false]
    rw [foldl_shards, List.reverse_reverse]

/-- With no change in between. -/
theorem answer_replicate (f : Filter) (s : Index) :
    f.answer (List.replicate f.lookups.length s) = f.queryFilter s := by
  have hfound : (if f.scans then (f.found (List.replicate f.lookups.length s)).reverse
      else f.found (List.replicate f.lookups.length s)) = f.candidates s := by
    unfold found
    rw [foldl_zip_replicate, foldl_lookups]
  unfold answer choose queryFilter
  cases f.limit with
  | none => exact congrArg (collect f.keeps []) hfound
  | some lim => exact congrArg (fun es => (collect f.keeps [] es).take lim) hfound

end
end Filter
end Memlay
