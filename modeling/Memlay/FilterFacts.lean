import Memlay.Filter
import Memlay.IndexSets
import Memlay.Lib.Paging

/-!
# The planner's conditions as propositions

What the checks of a filter say of an event, what `queryFilter` returns, and the
lists it reads (`readSets`): but for a lookup by id and the scan over all events,
the planner takes the first `limit` entries of one set after another.
-/

namespace Memlay
namespace Filter

/-! ## Conditions -/

/-- An absent list admits everything. -/
theorem among_iff {α : Type} [DecidableEq α] {list : Option (List α)} {a : α} :
    among list a = true ↔ ∀ l, list = some l → a ∈ l := by
  cases list <;> simp [among]

theorem inTime_iff {f : Filter} {e : Event} : f.inTime e = true ↔
    (∀ s, f.since = some s → s ≤ e.createdAt) ∧ ∀ u, f.until = some u → e.createdAt ≤ u := by
  unfold inTime
  rw [Bool.and_eq_true]
  cases f.since <;> cases f.until <;> simp

theorem nonempty_iff {α : Type} {o : Option (List α)} : nonempty o = true ↔ ∃ l, o = some l ∧ l ≠ [] := by
  rcases o with _ | _ | ⟨a, l⟩ <;> simp [nonempty]

/-- What an event has to pass after its candidate list. -/
theorem keeps_iff {f : Filter} {e : Event} : f.keeps e = true ↔
    f.inTime e = true ∧ among f.kinds e.kind = true ∧ among f.authors e.pubkey = true ∧
      ∀ entry ∈ f.tagFilters.entries, f.skips entry.1 = true ∨ tagMatches e entry.1 entry.2 = true := by
  unfold keeps
  simp only [Bool.and_eq_true, List.all_eq_true, Bool.or_eq_true, and_assoc]

/-- What a live subscription asks of an event. -/
theorem matchesEvent_iff {f : Filter} {e : Event} : f.matchesEvent e = true ↔
    f.inTime e = true ∧ among f.kinds e.kind = true ∧ among f.ids e.id = true ∧
      among f.authors e.pubkey = true ∧
      ∀ entry ∈ f.tagFilters.entries, tagMatches e entry.1 entry.2 = true := by
  unfold matchesEvent
  simp only [Bool.and_eq_true, List.all_eq_true, and_assoc]

/-- Some tag has that letter as its name and one of the values. -/
theorem tagMatches_iff {e : Event} {letter : Char} {values : List Str} :
    tagMatches e letter values = true ↔
      ∃ tag ∈ e.tags, tag.name = [letter] ∧ ∃ v, tag.value = some v ∧ v ∈ values := by
  unfold tagMatches
  rw [List.any_eq_true]
  refine exists_congr fun tag => and_congr_right fun _ => ?_
  rw [Bool.and_eq_true]
  refine and_congr ?_ ?_
  · rcases tag.name with _ | ⟨l, _ | ⟨m, n⟩⟩ <;> simp
  · cases tag.value <;> simp

/-- An indexed reference is the first value of a tag of that name. -/
theorem mem_hexTags {e : Event} {name : Str} {q : Bytes32} (h : q ∈ e.hexTags name) :
    ∃ tag ∈ e.tags, tag.name = name ∧ ∃ v, tag.value = some v ∧ parseHex32 v = some q := by
  obtain ⟨tag, htag, hq⟩ := List.mem_filterMap.1 h
  refine ⟨tag, htag, ?_⟩
  split at hq
  · rename_i hname
    exact ⟨hname, Option.bind_eq_some_iff.1 hq⟩
  · cases hq

theorem mem_of_firstGeneric {f : Filter} {letter : Char} {values : List Str}
    (h : f.firstGeneric = some (letter, values)) :
    ⟨letter, values⟩ ∈ f.tagFilters.entries ∧ generic letter = true := by
  obtain ⟨⟨l, vs⟩, hfind, heq⟩ := Option.map_eq_some_iff.1 h
  have hg := List.find?_some hfind
  cases heq
  exact ⟨List.mem_of_find?_eq_some hfind, hg⟩

/-- One entry for each letter. -/
theorem values_unique {f : Filter} {a b : Sigma fun _ : Char => List Str}
    (ha : a ∈ f.tagFilters.entries) (hb : b ∈ f.tagFilters.entries) (h : a.1 = b.1) : a.2 = b.2 := by
  have h1 := AList.mem_lookup_iff.2 (show (⟨a.1, a.2⟩ : Sigma _) ∈ f.tagFilters.entries from ha)
  have h2 := AList.mem_lookup_iff.2 (show (⟨b.1, b.2⟩ : Sigma _) ∈ f.tagFilters.entries from hb)
  rw [h] at h1
  exact Option.some.inj (h1.symm.trans h2)

/-! ## Results -/

theorem fetchLimit_pos {f : Filter} (h : f.limit ≠ some 0) : 0 < f.fetchLimit := by
  unfold fetchLimit
  cases hl : f.limit with
  | none => simp
  | some n =>
    rw [hl] at h
    have : n ≠ 0 := fun h0 => h (by rw [h0])
    simp only [Option.getD_some]
    omega

theorem mem_of_mem_query {s : Index} {b : Bucket} {n : Nat} {e : Event} (h : e ∈ s.query b n) :
    e ∈ s.sets b := List.mem_of_mem_take h

/-- The reading loop is the pass of the library, by id. -/
theorem collect_eq (keep : Event → Bool) (seen : List Bytes32) (es : List Event) :
    collect keep seen es = Paging.collect Event.id keep seen es := by
  induction es generalizing seen with
  | nil => rfl
  | cons e es ih => rw [collect, Paging.collect, ih, ih]

theorem mem_collect {keep : Event → Bool} {e : Event} (es : List Event) (seen : List Bytes32)
    (h : e ∈ collect keep seen es) : e ∈ es ∧ keep e = true := by
  rw [collect_eq] at h
  exact ⟨(Paging.collect_sublist _ _).subset h, (Paging.keep_of_mem_collect h).1⟩

/-- What is answered is a candidate that the filter keeps. -/
theorem queryFilter_spec {f : Filter} {s : Index} {e : Event} (h : e ∈ f.queryFilter s) :
    e ∈ f.candidates s ∧ f.keeps e = true ∧ f.limit ≠ some 0 := by
  unfold queryFilter at h
  simp only at h
  split at h
  · rename_i lim hlim
    obtain ⟨hm, hk⟩ := mem_collect _ _ (List.mem_of_mem_take h)
    refine ⟨hm, hk, fun h0 => ?_⟩
    rw [hlim] at h0
    cases h0
    cases h
  · rename_i hlim
    obtain ⟨hm, hk⟩ := mem_collect _ _ h
    exact ⟨hm, hk, by rw [hlim]; exact nofun⟩

/-! ## What is read -/

/-- No index looks selective: the planner scans all events. -/
def scans (f : Filter) : Bool :=
  !(f.useIds || f.useETags || f.usePTags || f.hasGenericTags || f.useAuthors || f.useKinds)

theorem useIds_of_scans {f : Filter} (hscan : f.scans = true) : f.useIds = false := by
  unfold scans at hscan
  cases hu : f.useIds with
  | false => rfl
  | true =>
    rw [hu] at hscan
    simp at hscan

/-- The events a lookup by id finds. -/
def byIds (s : Index) (f : Filter) : List Event :=
  (f.ids.getD []).filterMap fun id => (s.get id).filter f.inTime

/-- The sets the planner goes through, in this order, when it neither looks up by id
nor scans all events; of a set that is cut at `since`, what is not older. -/
def readSets (s : Index) (f : Filter) : List (List Event) :=
  if f.useETags then f.eQueried.map fun b => s.sets (.tagE (tagIdHash b))
  else if f.usePTags then f.pQueried.map fun b => s.sets (.tagP (tagIdHash b))
  else if f.hasGenericTags then
    match f.firstGeneric with
    | some (letter, values) => values.map fun v => s.sets (.tagOther letter v)
    | none => []
  else if f.useAuthors then
    (f.authors.getD []).map fun a =>
      match f.since with
      | some since => (s.sets (.pubkey (tagIdHash a))).takeWhile fun e => decide (since ≤ e.createdAt)
      | none => s.sets (.pubkey (tagIdHash a))
  else (f.kinds.getD []).map fun kind => s.sets (.kind kind)

/-- The three ways to the candidates: by id, by scan, by the sets. -/
theorem candidates_eq (s : Index) (f : Filter) : f.candidates s =
    if f.useIds then f.byIds s
    else if f.scans then s.getNewest f.fetchLimit
    else (f.readSets s).flatMap fun l => l.take f.fetchLimit := by
  unfold candidates readSets scans byIds
  by_cases hids : f.useIds = true
  · rw [if_pos hids, if_pos hids]
  rw [if_neg hids, if_neg hids]
  by_cases he : f.useETags = true
  · simp [he, List.flatMap_map, Index.queryByETag, Index.query]
  by_cases hp : f.usePTags = true
  · simp [he, hp, List.flatMap_map, Index.queryByPTag, Index.query]
  by_cases hg : f.hasGenericTags = true
  · simp only [he, hp, hg, if_true, Bool.false_eq_true, if_false, Bool.or_true, Bool.true_or, Bool.not_true]
    cases f.firstGeneric with
    | none => rfl
    | some first => simp [List.flatMap_map, Index.queryByTag, Index.query]
  by_cases ha : f.useAuthors = true
  · obtain ⟨authors, hauthors, -⟩ := nonempty_iff.1 ha
    simp only [he, hp, hg, ha, if_true, Bool.false_eq_true, if_false, Bool.or_true, Bool.true_or, Bool.not_true,
      hauthors, Option.getD_some]
    rw [List.flatMap_map]
    refine List.flatMap_congr fun a _ => ?_
    cases f.since <;> rfl
  by_cases hk : f.useKinds = true
  · simp [he, hp, hg, ha, hk, List.flatMap_map, Index.queryByKind, Index.query]
  · simp [hids, he, hp, hg, ha, hk]

/-- The lists and what is read of them with limit `n`, for `Paging`. -/
def parts (s : Index) (f : Filter) (n : Nat) : List (Paging.Part Event) :=
  if f.useIds then (f.byIds s).map fun e => ⟨[e], [e]⟩
  else if f.scans then [⟨s.getNewest (2 ^ 64 - 1), s.getNewest n⟩]
  else (f.readSets s).map fun l => ⟨l, l.take n⟩

end Filter
end Memlay
