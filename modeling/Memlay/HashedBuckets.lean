import Memlay.IndexConsistency

/-!
# Buckets keyed by the folded id

`by_tag_e`, `by_tag_p` and `by_pubkey` are keyed by `TagIdHash`, the xor of the two
halves of a 32-byte value, and the readers do not look at the full value again.  The
fold is not injective: with its halves swapped a value goes to the same bucket
(`tagIdHash_swapHalves`), and a client may put any value in a tag.
`run_answersOnly_iff` says in which states a query still returns only what was asked
for.
-/

namespace Memlay

/-- The value with its two halves exchanged. -/
def swapHalves (x : Bytes32) : Bytes32 := (x.extractLsb' 0 128 ++ x.extractLsb' 128 128 : BitVec 256)

theorem tagIdHash_swapHalves (x : Bytes32) : tagIdHash (swapHalves x) = tagIdHash x := by
  unfold tagIdHash swapHalves
  rw [BitVec.extractLsb'_append_eq_left, BitVec.extractLsb'_append_eq_right, BitVec.xor_comm]

namespace Index

/-- The three hashed queries for `x`, whatever the limit, return only events that
carry `x` itself. -/
structure AnswersOnly (s : Index) (x : Bytes32) : Prop where
  eTag : ∀ limit, ∀ e ∈ s.queryByETag x limit, x ∈ e.eTags
  pTag : ∀ limit, ∀ e ∈ s.queryByPTag x limit, x ∈ e.pTags
  pubkey : ∀ limit, ∀ e ∈ s.queryByPubkey x limit, e.pubkey = x

/-- A live event that carries a value with the same fold carries `x` too. -/
structure Unforged (s : Index) (x : Bytes32) : Prop where
  eTag : ∀ id e, s.byId.lookup id = some e → (∃ t ∈ e.eTags, tagIdHash t = tagIdHash x) → x ∈ e.eTags
  pTag : ∀ id e, s.byId.lookup id = some e → (∃ t ∈ e.pTags, tagIdHash t = tagIdHash x) → x ∈ e.pTags
  pubkey : ∀ id e, s.byId.lookup id = some e → tagIdHash e.pubkey = tagIdHash x → e.pubkey = x

section
variable {E : Event → Prop} {s : Index}

/-- What the reads of a set return, whatever the limit, is what the live events that
call for the set are. -/
theorem Filed.forall_query_iff (h : Filed E s) (hI : Inv E s) (hA : Agree E) (b : Bucket) {P : Event → Prop}
    (hP : ∀ a c, Event.SameFields a c → (P a ↔ P c)) :
    (∀ limit, ∀ e ∈ s.query b limit, P e) ↔ ∀ id e, s.byId.lookup id = some e → e.CallsFor b → P e := by
  constructor
  · intro hq id e he hb
    obtain ⟨x, hx, hid⟩ := h.complete id e he b (mem_buckets_iff.2 hb)
    have hmem : x ∈ s.query b (s.sets b).length := by
      unfold query
      rw [List.take_length]
      exact hx
    obtain ⟨hE, heid⟩ := hI.mem _ _ he
    have hsame := hA x e (h.inSets b x hx).1 hE (by rw [hid, heid])
    exact (hP x e hsame).1 (hq _ x hmem)
  · intro hlive limit x hx
    have hx' : x ∈ s.sets b := List.mem_of_mem_take hx
    obtain ⟨e, he, hb⟩ := (h.held hI hA b x.id).1 ⟨x, hx', rfl⟩
    obtain ⟨hE, heid⟩ := hI.mem _ _ he
    exact (hP e x (hA e x hE (h.inSets b x hx').1 heid)).1 (hlive x.id e he hb)

theorem eTags_congr {a c : Event} (h : Event.SameFields a c) : a.eTags = c.eTags := by
  unfold Event.eTags Event.hexTags
  rw [h.tags]

theorem pTags_congr {a c : Event} (h : Event.SameFields a c) : a.pTags = c.pTags := by
  unfold Event.pTags Event.hexTags
  rw [h.tags]

theorem Filed.answersOnly_iff (h : Filed E s) (hI : Inv E s) (hA : Agree E) (x : Bytes32) :
    AnswersOnly s x ↔ Unforged s x := by
  have he := h.forall_query_iff hI hA (.tagE (tagIdHash x)) (P := fun e => x ∈ e.eTags)
    fun a c hac => by rw [eTags_congr hac]
  have hp := h.forall_query_iff hI hA (.tagP (tagIdHash x)) (P := fun e => x ∈ e.pTags)
    fun a c hac => by rw [pTags_congr hac]
  have hk := h.forall_query_iff hI hA (.pubkey (tagIdHash x)) (P := fun e => e.pubkey = x)
    fun a c hac => by rw [hac.pubkey]
  constructor
  · intro hans
    exact ⟨he.1 hans.eTag, hp.1 hans.pTag, hk.1 hans.pubkey⟩
  · intro hun
    exact ⟨he.2 hun.eTag, hp.2 hun.pTag, hk.2 hun.pubkey⟩

end

/-- In every state of every sequential run and for every value: the hashed queries
return only events that carry the value, exactly when no live event carries, in its
place, another value of the same fold. -/
theorem run_answersOnly_iff (cs : List Edit) (hA : Agree (Offered cs)) (s : Index)
    (hs : Machine.run editStep new cs = some s) (x : Bytes32) : AnswersOnly s x ↔ Unforged s x := by
  obtain ⟨hI, hF⟩ := run_filed hA hs
  exact hF.answersOnly_iff hI hA x

/-- A note that mentions `target` in an `e` tag. -/
def mention (target : Bytes32) : Event :=
  Event.compact 2 (note 0).pubkey 1700000000 1 [⟨['e'], [hexEncode target]⟩] ['h', 'o'] 0

theorem agree_mention (target : Bytes32) : Agree (Offered [.insert (mention target)]) := by
  intro a b ha hb _
  have hone : ∀ e, Offered [.insert (mention target)] e → e = mention target := by
    intro e he
    simpa [Offered] using he
  rw [hone a ha, hone b hb]
  exact ⟨rfl, rfl, rfl, rfl, rfl⟩

theorem run_answersOnly_iff_mention :
    ∃ s, Machine.run editStep new [.insert (mention 7)] = some s ∧ (AnswersOnly s 7 ↔ Unforged s 7) :=
  ⟨_, rfl, run_answersOnly_iff _ (agree_mention 7) _ rfl 7⟩

theorem eTags_mention (target : Bytes32) : (mention target).eTags = [target] := by
  have htags : (mention target).tags = [⟨['e'], [hexEncode target]⟩] := rfl
  unfold Event.eTags Event.hexTags
  rw [htags]
  simp only [List.filterMap_cons, List.filterMap_nil, Tag.value, List.head?_cons, Option.bind_some, if_pos,
    parseHex32_hexEncode]

/-- The query for an id returns a note that mentions that id with its halves swapped. -/
theorem mention_swapped_returned :
    ∃ s, Machine.run editStep new [.insert (mention (swapHalves 7))] = some s ∧ ¬ AnswersOnly s 7 := by
  refine ⟨_, rfl, ?_⟩
  have hs : Machine.run editStep new [.insert (mention (swapHalves 7))] = some (single (mention (swapHalves 7))) :=
    rfl
  obtain ⟨hI, hF⟩ := run_filed (agree_mention (swapHalves 7)) hs
  show ¬ AnswersOnly (single (mention (swapHalves 7))) 7
  rw [hF.answersOnly_iff hI (agree_mention _) 7]
  intro hun
  have hmem := hun.eTag _ _ (single_byId (mention (swapHalves 7)))
    ⟨swapHalves 7, by rw [eTags_mention]; exact List.mem_singleton_self _, tagIdHash_swapHalves 7⟩
  rw [eTags_mention] at hmem
  exact absurd (List.mem_singleton.1 hmem) (by decide)

end Index
end Memlay
