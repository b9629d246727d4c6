import Memlay.FilterFacts
import Mathlib.Data.Set.Function

/-!
# When a stored query agrees with live matching

A candidate satisfies what its index enforces (`Fetched`) and what the planner
checks (`keeps`).  For a given filter this is all: an event that is fetched and
kept is returned by the store that holds just this event.  So a filter is sound,
in every reachable index, exactly when fetched and kept events match it, and
this can be read off the filter (`SoundShape`): the planner drops

* an empty `ids` list, which matches no event,
* every tag filter when it looks up by id,
* on the `e` and `p` paths the other tag filters, and the spelling of the values
  (`#e` and `#p` are compared as bytes, live matching compares text),
* on the generic path every letter but the first.

    Sound f  ↔  SoundShape f                                              (sound_iff)
-/

namespace Memlay
namespace Filter

open Index

/-! ## What a candidate satisfies -/

/-- What the index of the chosen path enforces. -/
def Fetched (f : Filter) (e : Event) : Prop :=
  if f.useIds then e.id ∈ f.ids.getD []
  else if f.useETags then ∃ q ∈ f.eQueried, q ∈ e.eTags
  else if f.usePTags then ∃ q ∈ f.pQueried, q ∈ e.pTags
  else if f.hasGenericTags then
    ∃ letter values v, f.firstGeneric = some (letter, values) ∧ v ∈ values ∧
      (letter, v) ∈ e.tags.filterMap Tag.other
  else True

theorem tagOther_mem_buckets {e : Event} {letter : Char} {v : Str} :
    Bucket.tagOther letter v ∈ e.buckets ↔ (letter, v) ∈ e.tags.filterMap Tag.other := by
  simp [Event.buckets]

/-- The 32-byte values of an event that are used as index keys. -/
def hashed (e : Event) : List Bytes32 := e.pubkey :: (e.eTags ++ e.pTags)

/-- The 32-byte values a filter is looked up with. -/
def values (f : Filter) : List Bytes32 := f.authors.getD [] ++ (f.eQueried ++ f.pQueried)

/-- The 32-byte values of the filter and of the events inserted in a run. -/
def Present (f : Filter) (ops : List Op) : Set Bytes32 :=
  {x | x ∈ f.values ∨ ∃ e, Inserted ops e ∧ x ∈ hashed e}

theorem candidates_fetched {f : Filter} {ops : List Op} {s : Index} {e : Event}
    (hI : Inv (Inserted ops) s) (hS : InSets (Inserted ops) s.sets)
    (hcol : Set.InjOn tagIdHash (Present f ops)) (h : e ∈ f.candidates s) : f.Fetched e := by
  unfold candidates at h
  unfold Fetched
  by_cases hids : f.useIds = true
  · rw [if_pos hids] at h ⊢
    obtain ⟨id, hid, hx⟩ := List.mem_filterMap.1 h
    rw [Option.filter_eq_some_iff] at hx
    have := (hI.mem id e hx.1).2
    rwa [this]
  rw [if_neg hids] at h ⊢
  by_cases he : f.useETags = true
  · rw [if_pos he] at h ⊢
    obtain ⟨q, hq, hx⟩ := List.mem_flatMap.1 h
    obtain ⟨hE, hb⟩ := hS _ _ (mem_of_mem_query hx)
    obtain ⟨t, ht, htq⟩ := mem_buckets_iff.1 hb
    have : t = q := hcol (Or.inr ⟨e, hE, by simp [hashed, ht]⟩) (Or.inl (by simp [values, hq])) htq
    exact ⟨q, hq, this ▸ ht⟩
  rw [if_neg he] at h ⊢
  by_cases hp : f.usePTags = true
  · rw [if_pos hp] at h ⊢
    obtain ⟨q, hq, hx⟩ := List.mem_flatMap.1 h
    obtain ⟨hE, hb⟩ := hS _ _ (mem_of_mem_query hx)
    obtain ⟨t, ht, htq⟩ := mem_buckets_iff.1 hb
    have : t = q := hcol (Or.inr ⟨e, hE, by simp [hashed, ht]⟩) (Or.inl (by simp [values, hq])) htq
    exact ⟨q, hq, this ▸ ht⟩
  rw [if_neg hp] at h ⊢
  by_cases hg : f.hasGenericTags = true
  · rw [if_pos hg] at h ⊢
    split at h
    · rename_i letter values hfirst
      obtain ⟨v, hv, hx⟩ := List.mem_flatMap.1 h
      exact ⟨letter, values, v, hfirst, hv, tagOther_mem_buckets.1 (hS _ _ (mem_of_mem_query hx)).2⟩
    · cases h
  · rw [if_neg hg]
    trivial

/-! ## The store of one event returns it -/

theorem eq_of_mem_single {e x : Event} {b : Bucket} (h : x ∈ (single e).sets b) : x = e := by
  rw [single_sets] at h
  split at h
  · exact List.mem_singleton.1 h
  · cases h

theorem eq_of_get_single {e x : Event} {id : Bytes32} (h : (single e).get id = some x) :
    x = e ∧ id = e.id := by
  unfold Index.get at h
  rw [single_eq, stored_lookup] at h
  split at h
  · rename_i hid
    exact ⟨(Option.some.inj h).symm, hid⟩
  · rw [withSlot_byId] at h
    cases h

theorem query_single {e : Event} {b : Bucket} (hb : b ∈ e.buckets) {n : Nat} (hn : 0 < n) :
    (single e).query b n = [e] := by
  unfold Index.query
  rw [single_sets, if_pos hb]
  obtain ⟨m, rfl⟩ := Nat.exists_eq_succ_of_ne_zero (by omega : n ≠ 0)
  simp

/-- All candidates of the one-event store are that event. -/
theorem eq_of_mem_candidates_single {f : Filter} {e x : Event} (hl : f.limit ≠ some 0)
    (h : x ∈ f.candidates (single e)) : x = e := by
  have hq : ∀ b n, x ∈ (single e).query b n → x = e := fun b n hx => eq_of_mem_single (mem_of_mem_query hx)
  unfold candidates at h
  split at h
  · obtain ⟨id, -, hx⟩ := List.mem_filterMap.1 h
    rw [Option.filter_eq_some_iff] at hx
    exact (eq_of_get_single hx.1).1
  split at h
  · obtain ⟨q, -, hx⟩ := List.mem_flatMap.1 h
    exact hq _ _ hx
  split at h
  · obtain ⟨q, -, hx⟩ := List.mem_flatMap.1 h
    exact hq _ _ hx
  split at h
  · split at h
    · obtain ⟨q, -, hx⟩ := List.mem_flatMap.1 h
      exact hq _ _ hx
    · cases h
  split at h
  · split at h
    · obtain ⟨q, -, hx⟩ := List.mem_flatMap.1 h
      split at hx
      · exact eq_of_mem_single ((List.takeWhile_sublist _).subset (List.mem_of_mem_take hx))
      · exact hq _ _ hx
    · obtain ⟨q, -, hx⟩ := List.mem_flatMap.1 h
      exact hq _ _ hx
  split at h
  · obtain ⟨q, -, hx⟩ := List.mem_flatMap.1 h
    exact hq _ _ hx
  · rw [single_getNewest e (fetchLimit_pos hl)] at h
    exact List.mem_singleton.1 h

/-- A fetched event that passes the checks is a candidate of its own store. -/
theorem mem_candidates_single {f : Filter} {e : Event} (hl : f.limit ≠ some 0) (hf : f.Fetched e)
    (hk : f.keeps e = true) : e ∈ f.candidates (single e) := by
  have hn := fetchLimit_pos hl
  obtain ⟨htime, hkinds, hauthors, -⟩ := keeps_iff.1 hk
  have hq : ∀ b, b ∈ e.buckets → e ∈ (single e).query b f.fetchLimit := by
    intro b hb
    rw [query_single hb hn]
    simp
  unfold candidates
  unfold Fetched at hf
  split
  · rename_i h
    rw [if_pos h] at hf
    refine List.mem_filterMap.2 ⟨e.id, hf, ?_⟩
    rw [Option.filter_eq_some_iff]
    exact ⟨single_byId e, htime⟩
  rename_i h1
  rw [if_neg h1] at hf
  split
  · rename_i h
    rw [if_pos h] at hf
    obtain ⟨q, hqf, hqe⟩ := hf
    exact List.mem_flatMap.2 ⟨q, hqf, hq _ (mem_buckets_iff.2 ⟨q, hqe, rfl⟩)⟩
  rename_i h2
  rw [if_neg h2] at hf
  split
  · rename_i h
    rw [if_pos h] at hf
    obtain ⟨q, hqf, hqe⟩ := hf
    exact List.mem_flatMap.2 ⟨q, hqf, hq _ (mem_buckets_iff.2 ⟨q, hqe, rfl⟩)⟩
  rename_i h3
  rw [if_neg h3] at hf
  split
  · rename_i h
    rw [if_pos h] at hf
    obtain ⟨letter, values, v, hfirst, hv, hmem⟩ := hf
    rw [hfirst]
    exact List.mem_flatMap.2 ⟨v, hv, hq _ (tagOther_mem_buckets.2 hmem)⟩
  split
  · rename_i h
    obtain ⟨authors, ha, -⟩ := nonempty_iff.1 h
    rw [ha]
    refine List.mem_flatMap.2 ⟨e.pubkey, among_iff.1 hauthors authors ha, ?_⟩
    have hb : Bucket.pubkey (tagIdHash e.pubkey) ∈ e.buckets := by simp [Event.buckets]
    split
    · rename_i since hs
      have hle := (inTime_iff.1 htime).1 since hs
      unfold Index.queryByPubkeySince
      rw [single_sets, if_pos hb]
      obtain ⟨m, hm⟩ := Nat.exists_eq_succ_of_ne_zero (by omega : f.fetchLimit ≠ 0)
      rw [hm]
      simp [hle]
    · exact hq _ hb
  split
  · rename_i h
    obtain ⟨kinds, hks, -⟩ := nonempty_iff.1 h
    rw [hks]
    exact List.mem_flatMap.2 ⟨e.kind, among_iff.1 hkinds kinds hks, hq _ (by simp [Event.buckets])⟩
  · rw [single_getNewest e hn]
    simp

theorem collect_seen {keep : Event → Bool} {e : Event} {seen : List Bytes32} (hs : e.id ∈ seen) :
    ∀ es : List Event, (∀ x ∈ es, x = e) → collect keep seen es = [] := by
  intro es
  induction es with
  | nil => exact fun _ => rfl
  | cons x es ih =>
    intro h
    have hx : x = e := h x (by simp)
    unfold collect
    rw [if_neg (by simp [hx, hs])]
    exact ih fun y hy => h y (List.mem_cons_of_mem x hy)

/-- An event that is fetched and kept is what its own store returns. -/
theorem single_returned {f : Filter} {e : Event} (hl : f.limit ≠ some 0) (hf : f.Fetched e)
    (hk : f.keeps e = true) : e ∈ f.queryFilter (single e) := by
  have hall : ∀ x ∈ f.candidates (single e), x = e := fun x hx => eq_of_mem_candidates_single hl hx
  have hmem := mem_candidates_single hl hf hk
  have hcollect : collect f.keeps [] (f.candidates (single e)) = [e] := by
    cases hc : f.candidates (single e) with
    | nil => rw [hc] at hmem; cases hmem
    | cons x es =>
      have hx : x = e := hall x (by rw [hc]; simp)
      unfold collect
      rw [if_pos (by simp [hx, hk]), hx, collect_seen (e := e) (by simp)]
      exact fun y hy => hall y (by rw [hc]; exact List.mem_cons_of_mem x hy)
  unfold queryFilter
  simp only [hcollect]
  split
  · rename_i lim hlim
    have : lim ≠ 0 := fun h0 => hl (by rw [hlim, h0])
    obtain ⟨m, rfl⟩ := Nat.exists_eq_succ_of_ne_zero this
    simp
  · simp

/-! ## Reading soundness off the filter -/

/-- The chosen path has something to look up. -/
def Fetches (f : Filter) : Prop :=
  if f.useIds then True
  else if f.useETags then f.eQueried ≠ []
  else if f.usePTags then f.pQueried ≠ []
  else if f.hasGenericTags then ∃ letter values, f.firstGeneric = some (letter, values) ∧ values ≠ []
  else True

/-- Some store makes the filter return an event: no condition is unsatisfiable,
and no tag filter is checked (those that are have no values). -/
structure CanReturn (f : Filter) : Prop where
  limit : f.limit ≠ some 0
  time : ∀ s u, f.since = some s → f.until = some u → s ≤ u
  kinds : f.kinds ≠ some []
  authors : f.authors ≠ some []
  fetches : f.Fetches
  skipped : ∀ entry ∈ f.tagFilters.entries, f.skips entry.1 = true

/-- The chosen path enforces every tag filter. -/
def Enforced (f : Filter) : Prop :=
  if f.useIds then f.tagFilters.entries = []
  else if f.useETags then ∀ entry ∈ f.tagFilters.entries, entry.1 = 'e' ∧
    ∀ v q, parseHex32 v = some q → q ∈ f.eQueried → v ∈ entry.2
  else if f.usePTags then ∀ entry ∈ f.tagFilters.entries, entry.1 = 'p' ∧
    ∀ v q, parseHex32 v = some q → q ∈ f.pQueried → v ∈ entry.2
  else if f.hasGenericTags then ∀ entry ∈ f.tagFilters.entries, ∀ letter values,
    f.firstGeneric = some (letter, values) → entry.1 = letter
  else True

/-- The filter can return nothing, or what the planner leaves unchecked holds. -/
def SoundShape (f : Filter) : Prop := f.CanReturn → f.ids ≠ some [] ∧ f.Enforced

/-- Only a tag filter without values is checked again. -/
theorem skips_of_values {f : Filter} {entry : Sigma fun _ : Char => List Str}
    (h : entry ∈ f.tagFilters.entries) (hv : entry.2 ≠ []) : f.skips entry.1 = true := by
  obtain ⟨letter, values⟩ := entry
  have hlookup : f.tagFilters.lookup letter = some values := AList.mem_lookup_iff.2 h
  unfold skips
  by_cases he : letter = 'e'
  · subst he
    have : f.useETags = true := by
      rw [useETags, Bool.or_eq_true]
      exact Or.inr (nonempty_iff.2 ⟨values, hlookup, hv⟩)
    simp [this]
  · by_cases hp : letter = 'p'
    · subst hp
      have : f.usePTags = true := by
        rw [usePTags, Bool.or_eq_true]
        exact Or.inr (nonempty_iff.2 ⟨values, hlookup, hv⟩)
      simp [this]
    · have hg : generic letter = true := by simp [generic, he, hp]
      have : f.hasGenericTags = true := by
        refine List.any_eq_true.2 ⟨⟨letter, values⟩, h, ?_⟩
        simp [hg, hv]
      simp [this, hg]

theorem canReturn_of_fetched {f : Filter} {e : Event} (hl : f.limit ≠ some 0) (hf : f.Fetched e)
    (hk : f.keeps e = true) : f.CanReturn := by
  obtain ⟨htime, hkinds, hauthors, htags⟩ := keeps_iff.1 hk
  obtain ⟨hsince, huntil⟩ := inTime_iff.1 htime
  refine ⟨hl, fun s u hs hu => (hsince s hs).trans (huntil u hu), fun h => ?_, fun h => ?_, ?_, ?_⟩
  · have := among_iff.1 hkinds [] h
    cases this
  · have := among_iff.1 hauthors [] h
    cases this
  · unfold Fetches
    unfold Fetched at hf
    split
    · trivial
    · rename_i h1
      rw [if_neg h1] at hf
      split
      · rename_i h2
        rw [if_pos h2] at hf
        obtain ⟨q, hq, -⟩ := hf
        exact List.ne_nil_of_mem hq
      · rename_i h2
        rw [if_neg h2] at hf
        split
        · rename_i h3
          rw [if_pos h3] at hf
          obtain ⟨q, hq, -⟩ := hf
          exact List.ne_nil_of_mem hq
        · rename_i h3
          rw [if_neg h3] at hf
          split
          · rename_i h4
            rw [if_pos h4] at hf
            obtain ⟨letter, values, v, hfirst, hv, -⟩ := hf
            exact ⟨letter, values, hfirst, List.ne_nil_of_mem hv⟩
          · trivial
  · intro entry hentry
    rcases htags entry hentry with h | h
    · exact h
    · obtain ⟨-, -, -, v, -, hv⟩ := tagMatches_iff.1 h
      exact skips_of_values hentry (List.ne_nil_of_mem hv)

/-- What is enforced and what is checked make a match. -/
theorem matches_of_shape {f : Filter} {e : Event} (hs : f.SoundShape) (hl : f.limit ≠ some 0)
    (hf : f.Fetched e) (hk : f.keeps e = true) : f.matchesEvent e = true := by
  have hcan := canReturn_of_fetched hl hf hk
  obtain ⟨hids, henf⟩ := hs hcan
  obtain ⟨htime, hkinds, hauthors, -⟩ := keeps_iff.1 hk
  refine matchesEvent_iff.2 ⟨htime, hkinds, ?_, hauthors, fun entry hentry => ?_⟩
  · refine among_iff.2 fun ids h => ?_
    have huse : f.useIds = true := nonempty_iff.2 ⟨ids, h, fun h0 => hids (by rw [h, h0])⟩
    unfold Fetched at hf
    rw [if_pos huse, h] at hf
    exact hf
  · unfold Fetched at hf
    unfold Enforced at henf
    rw [tagMatches_iff]
    by_cases h1 : f.useIds = true
    · rw [if_pos h1] at henf
      rw [henf] at hentry
      cases hentry
    rw [if_neg h1] at hf henf
    by_cases h2 : f.useETags = true
    · rw [if_pos h2] at hf henf
      obtain ⟨q, hq, hqe⟩ := hf
      obtain ⟨hletter, hspell⟩ := henf entry hentry
      obtain ⟨tag, htag, hname, v, hv, hparse⟩ := mem_hexTags hqe
      exact ⟨tag, htag, by rw [hname, hletter], v, hv, hspell v q hparse hq⟩
    rw [if_neg h2] at hf henf
    by_cases h3 : f.usePTags = true
    · rw [if_pos h3] at hf henf
      obtain ⟨q, hq, hqe⟩ := hf
      obtain ⟨hletter, hspell⟩ := henf entry hentry
      obtain ⟨tag, htag, hname, v, hv, hparse⟩ := mem_hexTags hqe
      exact ⟨tag, htag, by rw [hname, hletter], v, hv, hspell v q hparse hq⟩
    rw [if_neg h3] at hf henf
    by_cases h4 : f.hasGenericTags = true
    · rw [if_pos h4] at hf henf
      obtain ⟨letter, values, v, hfirst, hv, hmem⟩ := hf
      have hletter := henf entry hentry letter values hfirst
      have hvalues : entry.2 = values :=
        values_unique hentry (mem_of_firstGeneric hfirst).1 hletter
      obtain ⟨tag, htag, hother⟩ := List.mem_filterMap.1 hmem
      obtain ⟨-, -, hname, hvalue⟩ := Tag.other_eq_some.1 hother
      exact ⟨tag, htag, by rw [hname, hletter], v, hvalue, by rw [hvalues]; exact hv⟩
    · -- nothing is skipped on the remaining paths, so there are no tag filters
      have := hcan.skipped entry hentry
      simp [skips, h1, h2, h3, h4] at this

/-! ## An event that slips through -/

/-- A key for the probe that collides with nothing. -/
def probeAuthor (f : Filter) : Bytes32 := f.values.head?.getD 0

/-- An event that passes all that is checked, with these tags. -/
def probe (f : Filter) (id : Bytes32) (tags : List Tag) : Event :=
  .compact id f.probeAuthor (f.since.getD 0) ((f.kinds.bind List.head?).getD 1) tags [] 0

theorem keeps_probe {f : Filter} (h : f.CanReturn) (id : Bytes32) (tags : List Tag) :
    f.keeps (f.probe id tags) = true := by
  refine keeps_iff.2 ⟨inTime_iff.2 ⟨fun s hs => ?_, fun u hu => ?_⟩, among_iff.2 fun kinds hk => ?_,
    among_iff.2 fun authors ha => ?_, fun entry hentry => Or.inl (h.skipped entry hentry)⟩
  · show s ≤ f.since.getD 0
    rw [hs]
    exact Nat.le_refl s
  · show f.since.getD 0 ≤ u
    cases hs : f.since with
    | none => exact Nat.zero_le u
    | some s => exact h.time s u hs hu
  · show (f.kinds.bind List.head?).getD 1 ∈ kinds
    have hne : kinds ≠ [] := fun h0 => h.kinds (by rw [hk, h0])
    obtain ⟨k, ks, rfl⟩ := List.exists_cons_of_ne_nil hne
    rw [hk]
    simp
  · show f.values.head?.getD 0 ∈ authors
    have hne : authors ≠ [] := fun h0 => h.authors (by rw [ha, h0])
    obtain ⟨a, as, rfl⟩ := List.exists_cons_of_ne_nil hne
    unfold values
    rw [ha]
    simp

theorem hexTags_probe (f : Filter) (id : Bytes32) (name n v : Str) :
    (f.probe id [⟨n, [v]⟩]).hexTags name = if n = name then (parseHex32 v).toList else [] := by
  unfold Event.hexTags
  show List.filterMap _ [(⟨n, [v]⟩ : Tag)] = _
  rw [List.filterMap_cons]
  split
  · rename_i hnone
    split
    · rename_i hn
      rw [if_pos hn] at hnone
      have : parseHex32 v = none := hnone
      rw [this]
      rfl
    · rfl
  · rename_i q hq
    split at hq
    · rename_i hn
      rw [if_pos hn]
      have : parseHex32 v = some q := hq
      rw [this]
      rfl
    · cases hq

theorem tagMatches_probe {f : Filter} {id : Bytes32} {n v : Str} {letter : Char} {vs : List Str}
    (h : tagMatches (f.probe id [⟨n, [v]⟩]) letter vs = true) : n = [letter] ∧ v ∈ vs := by
  obtain ⟨tag, htag, hname, w, hw, hmem⟩ := tagMatches_iff.1 h
  have : tag = ⟨n, [v]⟩ := List.mem_singleton.1 htag
  subst this
  cases hw
  exact ⟨hname, hmem⟩

/-- What the event slips past: an empty `ids` list, or a tag filter it does not meet. -/
def SlipsPast (f : Filter) (e : Event) : Prop :=
  f.ids = some [] ∨ ∃ entry ∈ f.tagFilters.entries, tagMatches e entry.1 entry.2 ≠ true

theorem not_matches_of_slipsPast {f : Filter} {e : Event} (h : f.SlipsPast e) :
    f.matchesEvent e ≠ true := by
  intro hm
  obtain ⟨-, -, hids, -, htags⟩ := matchesEvent_iff.1 hm
  rcases h with h | ⟨entry, hentry, h⟩
  · have := among_iff.1 hids [] h
    cases this
  · exact h (htags entry hentry)

/-- An event of the store that the filter returns and does not match, with no
index keys but the filter's own. -/
structure Slips (f : Filter) (e : Event) : Prop where
  fetched : f.Fetched e
  keeps : f.keeps e = true
  past : f.SlipsPast e
  keys : ∀ x ∈ hashed e, x = f.probeAuthor ∨ x ∈ f.values

theorem mem_hashed_probe {f : Filter} {id : Bytes32} {tags : List Tag} {x : Bytes32}
    (h : x ∈ hashed (f.probe id tags)) : x = f.probeAuthor ∨
      x ∈ (f.probe id tags).hexTags ['e'] ∨ x ∈ (f.probe id tags).hexTags ['p'] := by
  simpa [hashed, Event.eTags, Event.pTags, probe, Event.compact] using h

/-- The keys of a probe without tags. -/
theorem keys_probe_nil {f : Filter} {id x : Bytes32} (h : x ∈ hashed (f.probe id [])) :
    x = f.probeAuthor ∨ x ∈ f.values := by
  rcases mem_hashed_probe h with h | h | h
  · exact Or.inl h
  · cases h
  · cases h

/-- The keys of a probe with one tag, if an `e` or `p` tag has a value of the filter. -/
theorem keys_probe_tag {f : Filter} {id x : Bytes32} {letter : Char} {v : Str}
    (hq : letter = 'e' ∨ letter = 'p' → ∀ q, parseHex32 v = some q → q ∈ f.values)
    (h : x ∈ hashed (f.probe id [⟨[letter], [v]⟩])) : x = f.probeAuthor ∨ x ∈ f.values := by
  have htag : ∀ c, c = 'e' ∨ c = 'p' → x ∈ (f.probe id [⟨[letter], [v]⟩]).hexTags [c] → x ∈ f.values := by
    intro c hc hx
    rw [hexTags_probe] at hx
    split at hx
    · rename_i hletter
      rw [(List.cons.inj hletter).1] at hq
      exact hq hc x (Option.mem_toList.1 hx)
    · cases hx
  rcases mem_hashed_probe h with h | h | h
  · exact Or.inl h
  · exact Or.inr (htag 'e' (Or.inl rfl) h)
  · exact Or.inr (htag 'p' (Or.inr rfl) h)

/-- A spelling of a queried value that the filter of its letter does not have,
or any spelling where another condition is left out. -/
theorem exists_spelling {f : Filter} {letter : Char} {qs : List Bytes32} (hne : qs ≠ [])
    (hbad : f.ids = some [] ∨ ¬ ∀ entry ∈ f.tagFilters.entries, entry.1 = letter ∧
      ∀ v q, parseHex32 v = some q → q ∈ qs → v ∈ entry.2) :
    ∃ v q, parseHex32 v = some q ∧ q ∈ qs ∧ f.SlipsPast (f.probe 0 [⟨[letter], [v]⟩]) := by
  obtain ⟨q, qs', rfl⟩ := List.exists_cons_of_ne_nil hne
  rcases hbad with hbad | hbad
  · exact ⟨hexEncode q, q, parseHex32_hexEncode q, by simp, Or.inl hbad⟩
  · push Not at hbad
    obtain ⟨entry, hentry, hbad⟩ := hbad
    by_cases hletter : entry.1 = letter
    · obtain ⟨v, q', hparse, hq', hv⟩ := hbad hletter
      exact ⟨v, q', hparse, hq', Or.inr ⟨entry, hentry, fun hm => hv (tagMatches_probe hm).2⟩⟩
    · refine ⟨hexEncode q, q, parseHex32_hexEncode q, by simp, Or.inr ⟨entry, hentry, fun hm => ?_⟩⟩
      exact hletter (List.cons.inj (tagMatches_probe hm).1).1.symm

/-- By `e` or `p` tags: one tag of a queried value, spelled so that the filter does not have it. -/
theorem exists_slips_hex {f : Filter} {letter : Char} {qs : List Bytes32} (hcan : f.CanReturn) (hne : qs ≠ [])
    (hqs : ∀ q ∈ qs, q ∈ f.values)
    (hfetched : ∀ (e : Event) q, q ∈ qs → q ∈ e.hexTags [letter] → f.Fetched e)
    (hbad : f.ids = some [] ∨ ¬ ∀ entry ∈ f.tagFilters.entries, entry.1 = letter ∧
      ∀ v q, parseHex32 v = some q → q ∈ qs → v ∈ entry.2) : ∃ e, f.Slips e := by
  obtain ⟨v, q, hparse, hq, hpast⟩ := exists_spelling hne hbad
  have hmem : q ∈ (f.probe 0 [⟨[letter], [v]⟩]).hexTags [letter] := by
    rw [hexTags_probe, if_pos rfl, hparse]
    simp
  refine ⟨f.probe 0 [⟨[letter], [v]⟩], hfetched _ q hq hmem, keeps_probe hcan _ _, hpast, fun x hx => ?_⟩
  refine keys_probe_tag (fun _ q' hq' => ?_) hx
  rw [hparse] at hq'
  cases hq'
  exact hqs q hq

theorem exists_slips {f : Filter} (h : ¬ f.SoundShape) : ∃ e, f.Slips e := by
  unfold SoundShape at h
  rw [Classical.not_imp, not_and_or, not_not] at h
  obtain ⟨hcan, hbad⟩ := h
  have hfetch := hcan.fetches
  unfold Fetches at hfetch
  unfold Enforced at hbad
  by_cases h1 : f.useIds = true
  · -- by id, no tag at all
    rw [if_pos h1] at hbad
    obtain ⟨ids, hids, hne⟩ := nonempty_iff.1 h1
    obtain ⟨id, ids', rfl⟩ := List.exists_cons_of_ne_nil hne
    refine ⟨f.probe id [], ?_, keeps_probe hcan id [], ?_, fun x hx => ?_⟩
    · unfold Fetched
      rw [if_pos h1, hids]
      simp [probe, Event.compact]
    · rcases hbad with hbad | hbad
      · rw [hids] at hbad
        cases hbad
      · obtain ⟨entry, rest, hcons⟩ := List.exists_cons_of_ne_nil hbad
        refine Or.inr ⟨entry, by rw [hcons]; simp, fun hm => ?_⟩
        obtain ⟨tag, htag, -⟩ := tagMatches_iff.1 hm
        cases htag
    · exact keys_probe_nil hx
  rw [if_neg h1] at hfetch hbad
  by_cases h2 : f.useETags = true
  · rw [if_pos h2] at hfetch hbad
    refine exists_slips_hex hcan hfetch (fun q hq => ?_) (fun e q hq hmem => ?_) hbad
    · simp [values, hq]
    · unfold Fetched
      rw [if_neg h1, if_pos h2]
      exact ⟨q, hq, hmem⟩
  rw [if_neg h2] at hfetch hbad
  by_cases h3 : f.usePTags = true
  · rw [if_pos h3] at hfetch hbad
    refine exists_slips_hex hcan hfetch (fun q hq => ?_) (fun e q hq hmem => ?_) hbad
    · simp [values, hq]
    · unfold Fetched
      rw [if_neg h1, if_neg h2, if_pos h3]
      exact ⟨q, hq, hmem⟩
  rw [if_neg h3] at hfetch hbad
  by_cases h4 : f.hasGenericTags = true
  · -- one tag of the first generic letter
    rw [if_pos h4] at hfetch hbad
    obtain ⟨letter, vs, hfirst, hne⟩ := hfetch
    obtain ⟨v, vs', rfl⟩ := List.exists_cons_of_ne_nil hne
    obtain ⟨-, hg⟩ := mem_of_firstGeneric hfirst
    have hep : letter ≠ 'e' ∧ letter ≠ 'p' := by simpa [generic] using hg
    refine ⟨f.probe 0 [⟨[letter], [v]⟩], ?_, keeps_probe hcan _ _, ?_, fun x hx => ?_⟩
    · unfold Fetched
      rw [if_neg h1, if_neg h2, if_neg h3, if_pos h4]
      refine ⟨letter, v :: vs', v, hfirst, by simp, List.mem_filterMap.2 ⟨⟨[letter], [v]⟩, ?_, ?_⟩⟩
      · simp [probe, Event.compact]
      · simp [Tag.other, Tag.value, hep.1, hep.2]
    · rcases hbad with hbad | hbad
      · exact Or.inl hbad
      · push Not at hbad
        obtain ⟨entry, hentry, l, ws, hl, hne'⟩ := hbad
        rw [hfirst] at hl
        cases hl
        exact Or.inr ⟨entry, hentry, fun hm => hne' (List.cons.inj (tagMatches_probe hm).1).1.symm⟩
    · exact keys_probe_tag (fun h => absurd h (not_or.2 hep)) hx
  · rw [if_neg h4] at hbad
    refine ⟨f.probe 0 [], ?_, keeps_probe hcan _ _, ?_, fun x hx => ?_⟩
    · unfold Fetched
      rw [if_neg h1, if_neg h2, if_neg h3, if_neg h4]
      trivial
    · rcases hbad with hbad | hbad
      · exact Or.inl hbad
      · exact absurd trivial hbad
    · exact keys_probe_nil hx

/-! ## The theorem -/

/-- Whatever the filter returns it matches, in every index a sequential run can
reach, as long as no two 32-byte values present collide. -/
def Sound (f : Filter) : Prop :=
  ∀ ops s, Agree (Inserted ops) → Machine.run step new ops = some s →
    Set.InjOn tagIdHash (Present f ops) → ∀ e ∈ f.queryFilter s, f.matchesEvent e = true

/-- The keys of a probe collide with nothing either. -/
theorem Slips.injOn {f : Filter} {e : Event} (h : f.Slips e)
    (hf : Set.InjOn tagIdHash {x | x ∈ f.values}) : Set.InjOn tagIdHash (Present f [.insert e]) := by
  have hsub : ∀ x ∈ Present f [.insert e], x = f.probeAuthor ∨ x ∈ f.values := by
    rintro x (hx | ⟨y, hy, hx⟩)
    · exact Or.inr hx
    · have : y = e := by simpa [Inserted] using hy
      subst this
      exact h.keys x hx
  cases hv : f.values with
  | nil =>
    intro a ha b hb _
    have ha' := hsub a ha
    have hb' := hsub b hb
    simp only [hv, List.not_mem_nil, or_false] at ha' hb'
    rw [ha', hb']
  | cons v vs =>
    have hauthor : f.probeAuthor ∈ f.values := by
      unfold probeAuthor
      rw [hv]
      simp
    refine hf.mono fun x hx => ?_
    rcases hsub x hx with rfl | hx
    · exact hauthor
    · exact hx

/-- **Soundness of stored queries.**  A filter agrees with live matching on every
reachable index exactly when its shape leaves nothing unchecked. -/
theorem sound_iff (f : Filter) (hf : Set.InjOn tagIdHash {x | x ∈ f.values}) :
    f.Sound ↔ f.SoundShape := by
  constructor
  · intro hs
    by_contra hshape
    obtain ⟨e, he⟩ := exists_slips hshape
    have hlimit : f.limit ≠ some 0 := by
      unfold SoundShape at hshape
      rw [Classical.not_imp] at hshape
      exact hshape.1.limit
    have hA : Agree (Inserted [.insert e]) := by
      intro a b ha hb _
      have ha' : a = e := by simpa [Inserted] using ha
      have hb' : b = e := by simpa [Inserted] using hb
      rw [ha', hb']
      exact ⟨rfl, rfl, rfl, rfl, rfl⟩
    exact not_matches_of_slipsPast he.past (hs [.insert e] (single e) hA rfl (he.injOn hf) e
      (single_returned hlimit he.fetched he.keeps))
  · intro hshape ops s hA hrun hcol e he
    obtain ⟨hmem, hkeeps, hlimit⟩ := queryFilter_spec he
    have hI := (run_inv hA (List.prefix_refl ops) hrun).1
    exact matches_of_shape hshape hlimit (candidates_fetched hI (run_inSets hrun) hcol hmem) hkeeps

/-- `{"ids":[…],"#t":["nostr"]}` -/
def byIdAndTopic : Filter where
  ids := some [(note 0).id]
  kinds := none
  authors := none
  tagFilters := AList.insert 't' [['n', 'o', 's', 't', 'r']] ∅
  since := none
  «until» := none
  limit := none
  eTagsBytes := none
  pTagsBytes := none

/-- The note has no tags and is returned all the same. -/
theorem byIdAndTopic_unsound :
    Set.InjOn tagIdHash {x | x ∈ byIdAndTopic.values} ∧ Agree (Inserted [.insert (note 0)]) ∧
    Machine.run step new [.insert (note 0)] = some (single (note 0)) ∧
    Set.InjOn tagIdHash (Present byIdAndTopic [.insert (note 0)]) ∧
    byIdAndTopic.queryFilter (single (note 0)) = [note 0] ∧
    byIdAndTopic.matchesEvent (note 0) = false ∧ ¬ byIdAndTopic.Sound := by
  have hA : Agree (Inserted [.insert (note 0)]) := by
    intro a b ha hb _
    have ha' : a = note 0 := by simpa [Inserted] using ha
    have hb' : b = note 0 := by simpa [Inserted] using hb
    rw [ha', hb']
    exact note_sameFields 0 0
  have hvalues : byIdAndTopic.values = [] := rfl
  have hcol : Set.InjOn tagIdHash (Present byIdAndTopic [.insert (note 0)]) := by
    have hone : ∀ x ∈ Present byIdAndTopic [.insert (note 0)], x = (note 0).pubkey := by
      rintro x (hx | ⟨y, hy, hx⟩)
      · rw [hvalues] at hx
        cases hx
      · have : y = note 0 := by simpa [Inserted] using hy
        subst this
        exact List.mem_singleton.1 hx
    intro a ha b hb _
    rw [hone a ha, hone b hb]
  have hquery : byIdAndTopic.queryFilter (single (note 0)) = [note 0] := by rfl
  refine ⟨?_, hA, rfl, hcol, hquery, by rfl, fun hs => ?_⟩
  · rw [hvalues]
    intro a ha
    cases ha
  · have := hs _ (single (note 0)) hA rfl hcol (note 0) (by rw [hquery]; simp)
    cases this

/-- `{"kinds":[1],"authors":[…],"limit":20}` -/
def byKindAndAuthor : Filter where
  ids := none
  kinds := some [1]
  authors := some [(note 0).pubkey]
  tagFilters := ∅
  since := none
  «until» := none
  limit := some 20
  eTagsBytes := none
  pTagsBytes := none

theorem sound_iff_byKindAndAuthor : byKindAndAuthor.SoundShape ∧ byKindAndAuthor.Sound := by
  have hf : Set.InjOn tagIdHash {x | x ∈ byKindAndAuthor.values} := by
    intro a ha b hb _
    exact (List.mem_singleton.1 ha).trans (List.mem_singleton.1 hb).symm
  have hshape : byKindAndAuthor.SoundShape := fun _ => ⟨nofun, trivial⟩
  exact ⟨hshape, (sound_iff byKindAndAuthor hf).2 hshape⟩

end Filter
end Memlay
