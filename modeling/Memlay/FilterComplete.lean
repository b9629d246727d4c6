import Memlay.FilterFacts
import Memlay.IndexScan

/-!
# Without a limit a stored query misses nothing

Whatever path the planner takes, the event is in one of the lists it reads: the
path's own condition names a set that the event's fields call for, and the sets
are complete (`Filed`).  With `limit` unset nothing is cut off, `usize::MAX` being
no smaller than the number of live events.  What a set holds is the object of the
first insert, `by_id` the one of the last: they agree on id and parsed fields.
-/

namespace Memlay
namespace Filter

open Index

/-! ## What the conditions of a match give the planner -/

/-- The bytes of one tag are not there yet, or are what `parse_hex_values` makes of
the strings. -/
def Prepared (vals : Option (List Str)) (bytes : Option (List Bytes32)) : Prop :=
  bytes = none ∨ bytes = parsedBytes vals none

/-- A tag path that is taken has strings, and looks each of them up. -/
theorem Prepared.queried {vals : Option (List Str)} {bytes : Option (List Bytes32)} (h : Prepared vals bytes)
    (huse : (nonempty bytes || nonempty vals) = true) :
    ∃ l, vals = some l ∧ ∀ q ∈ decoded l, q ∈ queried bytes vals := by
  cases hv : vals with
  | none =>
    have hb : bytes = none := by
      rcases h with h | h
      · exact h
      · rw [h, hv]
        rfl
    rw [hb, hv] at huse
    cases huse
  | some l =>
    refine ⟨l, rfl, fun q hq => ?_⟩
    rcases h with rfl | h
    · exact hq
    · have hne : decoded l ≠ [] := List.ne_nil_of_mem hq
      rw [h, hv, parsedBytes, if_neg hne]
      exact hq

section
variable {f : Filter} {e : Event}

theorem tagMatches_of_lookup (hm : f.matchesEvent e = true) {letter : Char} {vals : List Str}
    (hl : f.tagFilters.lookup letter = some vals) : tagMatches e letter vals = true :=
  (matchesEvent_iff.1 hm).2.2.2.2 ⟨letter, vals⟩ (AList.mem_lookup_iff.1 hl)

/-- The value of a hex tag that matches is decoded for the event and for the filter. -/
theorem exists_decoded {letter : Char} {vals : List Str} (hm : tagMatches e letter vals = true)
    (hhex : ∀ v ∈ vals, IsHex64 v) : ∃ q ∈ decoded vals, q ∈ e.hexTags [letter] := by
  obtain ⟨tag, htag, hname, v, hv, hvals⟩ := tagMatches_iff.1 hm
  obtain ⟨q, hq⟩ := exists_parseHex32 (hhex v hvals)
  refine ⟨q, List.mem_filterMap.2 ⟨v, hvals, hq⟩, List.mem_filterMap.2 ⟨tag, htag, ?_⟩⟩
  rw [if_pos hname, hv]
  exact hq

theorem firstGeneric_of_has (h : f.hasGenericTags = true) :
    ∃ letter values, f.firstGeneric = some (letter, values) := by
  obtain ⟨entry, hmem, hg⟩ := List.any_eq_true.1 h
  rw [Bool.and_eq_true] at hg
  have hsome : (f.tagFilters.entries.find? fun entry => generic entry.1).isSome = true :=
    List.find?_isSome.2 ⟨entry, hmem, hg.1⟩
  obtain ⟨first, hfirst⟩ := Option.isSome_iff_exists.1 hsome
  refine ⟨first.1, first.2, ?_⟩
  unfold firstGeneric
  rw [hfirst]
  rfl

theorem keeps_of_matches (hm : f.matchesEvent e = true) : f.keeps e = true := by
  obtain ⟨ht, hk, -, ha, htags⟩ := matchesEvent_iff.1 hm
  exact keeps_iff.2 ⟨ht, hk, ha, fun entry hmem => Or.inr (htags entry hmem)⟩

theorem keeps_congr {x : Event} (h : Event.SameFields x e) : f.keeps x = f.keeps e := by
  unfold keeps inTime tagMatches
  rw [h.createdAt, h.kind, h.pubkey, h.tags]

end

/-! ## The event is in a list that is read -/

/-- In a list in order nothing before an entry is older. -/
theorem mem_takeWhile_since {l : List Event} (hl : l.Pairwise Event.Beats) {x : Event} (hx : x ∈ l) {since : Nat}
    (hs : since ≤ x.createdAt) : x ∈ l.takeWhile fun e => decide (since ≤ e.createdAt) := by
  induction l with
  | nil => cases hx
  | cons y l ih =>
    obtain ⟨hy, hl⟩ := List.pairwise_cons.1 hl
    have hsy : since ≤ y.createdAt := by
      rcases List.mem_cons.1 hx with rfl | hx
      · exact hs
      · rcases hy x hx with h | ⟨h, -⟩ <;> omega
    rw [List.takeWhile_cons, if_pos (by simpa using hsy)]
    rcases List.mem_cons.1 hx with rfl | hx
    · exact List.mem_cons_self
    · exact List.mem_cons_of_mem y (ih hl hx)

section
variable {E : Event → Prop} {s : Index} {f : Filter}

/-- Lists that are read are sets, or what a set has since some time. -/
theorem exists_bucket {l : List Event} (hl : l ∈ f.readSets s) : ∃ b, l <+: s.sets b := by
  unfold readSets at hl
  split at hl
  · obtain ⟨q, -, rfl⟩ := List.mem_map.1 hl
    exact ⟨_, List.prefix_refl _⟩
  split at hl
  · obtain ⟨q, -, rfl⟩ := List.mem_map.1 hl
    exact ⟨_, List.prefix_refl _⟩
  split at hl
  · split at hl
    · obtain ⟨v, -, rfl⟩ := List.mem_map.1 hl
      exact ⟨_, List.prefix_refl _⟩
    · cases hl
  split at hl
  · obtain ⟨a, -, rfl⟩ := List.mem_map.1 hl
    split
    · exact ⟨_, List.takeWhile_prefix _⟩
    · exact ⟨_, List.prefix_refl _⟩
  · obtain ⟨k, -, rfl⟩ := List.mem_map.1 hl
    exact ⟨_, List.prefix_refl _⟩

/-- Neither by id nor a scan: one of the sets that are read has the id. -/
theorem exists_readSets (h : Filed E s) (hI : Inv E s) (hA : Agree E) {e : Event}
    (he : s.byId.lookup e.id = some e) (hm : f.matchesEvent e = true) (hids : f.useIds = false)
    (hscan : f.scans = false) (hE : Prepared f.eTags f.eTagsBytes) (hP : Prepared f.pTags f.pTagsBytes)
    (hhex : ∀ letter, letter = 'e' ∨ letter = 'p' → ∀ vals, f.tagFilters.lookup letter = some vals →
      ∀ v ∈ vals, IsHex64 v) :
    ∃ l ∈ f.readSets s, ∃ x ∈ l, x.id = e.id := by
  have hin : ∀ b, e.CallsFor b → ∃ x ∈ s.sets b, x.id = e.id := fun b hb =>
    h.complete e.id e he b (mem_buckets_iff.2 hb)
  obtain ⟨htime, hkinds, -, hauthors, htags⟩ := matchesEvent_iff.1 hm
  unfold readSets
  by_cases he' : f.useETags = true
  · rw [if_pos he']
    obtain ⟨vals, hvals, hq⟩ := hE.queried he'
    obtain ⟨q, hqd, hqe⟩ := exists_decoded (tagMatches_of_lookup hm hvals) (hhex 'e' (Or.inl rfl) vals hvals)
    exact ⟨_, List.mem_map.2 ⟨q, hq q hqd, rfl⟩, hin (.tagE (tagIdHash q)) ⟨q, hqe, rfl⟩⟩
  rw [if_neg he']
  by_cases hp' : f.usePTags = true
  · rw [if_pos hp']
    obtain ⟨vals, hvals, hq⟩ := hP.queried hp'
    obtain ⟨q, hqd, hqe⟩ := exists_decoded (tagMatches_of_lookup hm hvals) (hhex 'p' (Or.inr rfl) vals hvals)
    exact ⟨_, List.mem_map.2 ⟨q, hq q hqd, rfl⟩, hin (.tagP (tagIdHash q)) ⟨q, hqe, rfl⟩⟩
  rw [if_neg hp']
  by_cases hg : f.hasGenericTags = true
  · rw [if_pos hg]
    obtain ⟨letter, values, hfirst⟩ := firstGeneric_of_has hg
    obtain ⟨hmem, hgen⟩ := mem_of_firstGeneric hfirst
    obtain ⟨tag, htag, hname, v, hv, hvals⟩ := tagMatches_iff.1 (htags ⟨letter, values⟩ hmem)
    have hletter : letter ≠ 'e' ∧ letter ≠ 'p' := by simpa [generic] using hgen
    simp only [hfirst]
    exact ⟨_, List.mem_map.2 ⟨v, hvals, rfl⟩,
      hin (.tagOther letter v) ⟨hletter.1, hletter.2, tag, htag, hname, hv⟩⟩
  rw [if_neg hg]
  by_cases ha : f.useAuthors = true
  · rw [if_pos ha]
    obtain ⟨authors, hauth, -⟩ := nonempty_iff.1 ha
    have hmem : e.pubkey ∈ f.authors.getD [] := by
      rw [hauth]
      exact among_iff.1 hauthors authors hauth
    obtain ⟨x, hx, hxid⟩ := hin (.pubkey (tagIdHash e.pubkey)) rfl
    refine ⟨_, List.mem_map.2 ⟨e.pubkey, hmem, rfl⟩, x, ?_, hxid⟩
    split
    · rename_i since hsince
      have hsame := hA x e (h.inSets _ x hx).1 (hI.mem _ _ he).1 hxid
      refine mem_takeWhile_since (h.sorted _) hx ?_
      rw [hsame.createdAt]
      exact (inTime_iff.1 htime).1 since hsince
    · exact hx
  rw [if_neg ha]
  have hk : f.useKinds = true := by
    unfold scans at hscan
    simpa [hids, he', hp', hg, ha] using hscan
  obtain ⟨kinds, hks, -⟩ := nonempty_iff.1 hk
  have hmem : e.kind ∈ f.kinds.getD [] := by
    rw [hks]
    exact among_iff.1 hkinds kinds hks
  exact ⟨_, List.mem_map.2 ⟨e.kind, hmem, rfl⟩, hin (.kind e.kind) rfl⟩

/-- What is read comes from the run. -/
theorem offered_of_mem_candidates (h : Filed E s) (hI : Inv E s) {x : Event} (hx : x ∈ f.candidates s) : E x := by
  rw [candidates_eq] at hx
  split at hx
  · obtain ⟨id, -, hget⟩ := List.mem_filterMap.1 hx
    exact (hI.mem id x (Option.filter_eq_some_iff.1 hget).1).1
  · split at hx
    · exact (h.inSets _ x (h.mem_shards.1 (mem_getNewest hx))).1
    · obtain ⟨l, hl, hxl⟩ := List.mem_flatMap.1 hx
      obtain ⟨b, hpre⟩ := exists_bucket hl
      exact (h.inSets b x (hpre.subset (List.mem_of_mem_take hxl))).1

/-- A live event that matches is among the candidates. -/
theorem exists_candidates (h : Filed E s) (hI : Inv E s) (hA : Agree E) (hlive : s.iterAll.length < 2 ^ 64)
    (hlim : f.limit = none) {e : Event} (he : s.byId.lookup e.id = some e) (hm : f.matchesEvent e = true)
    (hE : Prepared f.eTags f.eTagsBytes) (hP : Prepared f.pTags f.pTagsBytes)
    (hhex : ∀ letter, letter = 'e' ∨ letter = 'p' → ∀ vals, f.tagFilters.lookup letter = some vals →
      ∀ v ∈ vals, IsHex64 v) :
    ∃ x ∈ f.candidates s, x.id = e.id := by
  have hfetch : f.fetchLimit = 2 ^ 64 - 1 := by
    unfold fetchLimit
    rw [hlim]
    rfl
  rw [candidates_eq, hfetch]
  cases hids : f.useIds with
  | true =>
    obtain ⟨htime, -, hid, -⟩ := matchesEvent_iff.1 hm
    obtain ⟨ids, hids', -⟩ := nonempty_iff.1 hids
    refine ⟨e, List.mem_filterMap.2 ⟨e.id, ?_, Option.filter_eq_some_iff.2 ⟨he, htime⟩⟩, rfl⟩
    rw [hids']
    exact among_iff.1 hid ids hids'
  | false =>
    rw [if_neg Bool.false_ne_true]
    cases hscan : f.scans with
    | true =>
      rw [if_pos rfl]
      obtain ⟨x, hx, hxid⟩ := h.complete e.id e he (.oldest (oldestShard e.id)) (mem_buckets_iff.2 rfl)
      have hperm : (s.getNewest (2 ^ 64 - 1)).Perm s.shards :=
        getNewest_perm (by have := h.length_shards_le; omega)
      refine ⟨x, hperm.mem_iff.2 (h.mem_shards.2 ?_), hxid⟩
      rwa [hxid]
    | false =>
      rw [if_neg Bool.false_ne_true]
      obtain ⟨l, hl, x, hx, hxid⟩ := exists_readSets h hI hA he hm hids hscan hE hP hhex
      obtain ⟨b, hpre⟩ := exists_bucket hl
      refine ⟨x, List.mem_flatMap.2 ⟨l, hl, ?_⟩, hxid⟩
      rw [List.take_of_length_le]
      · exact hx
      · have h1 := hpre.length_le
        have h2 := h.length_le b
        omega

end

/-! ## Every reachable index -/

theorem prepared_of_eq {g f : Filter} (hraw : g.eTagsBytes = none ∧ g.pTagsBytes = none)
    (hf : f = g ∨ f = g.parseHexValues) : Prepared f.eTags f.eTagsBytes ∧ Prepared f.pTags f.pTagsBytes := by
  rcases hf with rfl | rfl
  · exact ⟨Or.inl hraw.1, Or.inl hraw.2⟩
  · refine ⟨Or.inr ?_, Or.inr ?_⟩
    · show parsedBytes g.eTags g.eTagsBytes = parsedBytes g.eTags none
      rw [hraw.1]
    · show parsedBytes g.pTags g.pTagsBytes = parsedBytes g.pTags none
      rw [hraw.2]

/-- Every live event that the filter matches is returned, and no id twice. -/
theorem queryFilter_complete (cs : List Edit) (hA : Agree (Offered cs)) (s : Index)
    (hs : Machine.run editStep new cs = some s) (hlive : s.iterAll.length < 2 ^ 64) (g f : Filter)
    (hraw : g.eTagsBytes = none ∧ g.pTagsBytes = none) (hf : f = g ∨ f = g.parseHexValues) (hlim : g.limit = none)
    (hhex : ∀ letter, letter = 'e' ∨ letter = 'p' → ∀ vals, g.tagFilters.lookup letter = some vals →
      ∀ v ∈ vals, IsHex64 v) :
    (∀ id e, s.byId.lookup id = some e → f.matchesEvent e = true →
      ∃ x ∈ f.queryFilter s, x.id = id ∧ Event.SameFields x e) ∧
    ((f.queryFilter s).map Event.id).Nodup := by
  obtain ⟨hI, hF⟩ := run_filed hA hs
  obtain ⟨hE, hP⟩ := prepared_of_eq hraw hf
  have htags : f.tagFilters = g.tagFilters := by
    rcases hf with rfl | rfl
    · rfl
    · rfl
  have hlim' : f.limit = none := by
    rcases hf with rfl | rfl
    · exact hlim
    · exact hlim
  have hquery : f.queryFilter s = Paging.collect Event.id f.keeps [] (f.candidates s) := by
    unfold queryFilter
    rw [hlim', collect_eq]
  rw [hquery]
  refine ⟨fun id e he hm => ?_, Paging.nodup_collect [] _⟩
  obtain ⟨hEe, rfl⟩ := hI.mem id e he
  have hsame : ∀ x ∈ f.candidates s, x.id = e.id → Event.SameFields x e := fun x hx hid =>
    hA x e (offered_of_mem_candidates hF hI hx) hEe hid
  obtain ⟨x, hx, hxid⟩ := exists_candidates hF hI hA hlive hlim' he hm hE hP (by rw [htags]; exact hhex)
  have hkeep : f.keeps x = true := by
    rw [keeps_congr (hsame x hx hxid)]
    exact keeps_of_matches hm
  have hunseen : x.id ∉ ([] : List Bytes32) := List.not_mem_nil
  obtain ⟨y, hy, hyid⟩ := Paging.exists_mem_collect hx hkeep hunseen
  have hyc : y ∈ f.candidates s := (Paging.collect_sublist _ _).subset hy
  exact ⟨y, hy, hyid.trans hxid, hsame y hyc (hyid.trans hxid)⟩

/-- A note that answers another one. -/
def reply : Event := { note 0 with id := 9, tags := [⟨['e'], [hexEncode 7]⟩] }

/-- The answers of one author to a note, by their tags. -/
def repliesBy : Filter where
  ids := none
  kinds := some [1]
  authors := some [reply.pubkey]
  tagFilters := (∅ : Table Char (List Str)).insert 'e' [hexEncode 7]
  since := some 10
  «until» := none
  limit := none
  eTagsBytes := none
  pTagsBytes := none

theorem queryFilter_complete_reply :
    repliesBy.matchesEvent reply = true ∧
      ∃ x ∈ repliesBy.parseHexValues.queryFilter (single reply), x.id = 9 ∧ Event.SameFields x reply := by
  have hm : repliesBy.matchesEvent reply = true := by decide +kernel
  have hA : Agree (Offered [.insert reply]) := by
    intro a b ha hb _
    have honly : ∀ e, Offered [.insert reply] e → e = reply := by
      intro e he
      simpa [Offered] using he
    rw [honly a ha, honly b hb]
    exact ⟨rfl, rfl, rfl, rfl, rfl⟩
  have hlive : (single reply).iterAll.length < 2 ^ 64 := by
    rw [single_eq]
    show (Table.values ((new.withSlot reply).byId.insert reply.id reply)).length < 2 ^ 64
    rw [withSlot_byId]
    show 1 < 2 ^ 64
    decide
  have hhex : ∀ letter, letter = 'e' ∨ letter = 'p' → ∀ vals, repliesBy.tagFilters.lookup letter = some vals →
      ∀ v ∈ vals, IsHex64 v := by
    rintro letter (rfl | rfl) vals hvals v hv
    · have hone : vals = [hexEncode 7] := (Option.some.inj hvals).symm
      rw [hone, List.mem_singleton] at hv
      rw [hv]
      exact isHex64_hexEncode 7
    · cases hvals
  obtain ⟨hall, -⟩ := queryFilter_complete [.insert reply] hA (single reply) rfl hlive repliesBy
    repliesBy.parseHexValues ⟨rfl, rfl⟩ (Or.inr rfl) rfl hhex
  exact ⟨hm, hall 9 reply (single_byId reply) hm⟩

end Filter
end Memlay
