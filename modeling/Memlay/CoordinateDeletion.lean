import Memlay.DeletionExact

/-!
# Deleting a replaceable event by its coordinate

Three places say which event a coordinate means: `Event::replacement_key` gives an
addressable event with a `d` tag the key of that tag, the empty one included; the
parser splits `<kind>:<pubkey>:<d>` at the first two colons; `coordinate_targets`
takes an empty `d` for the key without one.  They agree on every event but those whose
`d` tag is the empty string: `run_delete_by_coordinate_iff`.
-/

namespace Memlay

/-! ## The text of a coordinate -/

/-- The `d` of the coordinate: the event's, or empty when it has none. -/
def Event.coordinateTag (e : Event) : Str := e.dTag.getD []

/-- `<kind>:<hex pubkey>:<d>` -/
def Event.coordinateText (e : Event) : Str :=
  Nat.toDigits 10 e.kind ++ ':' :: (hexEncode e.pubkey ++ ':' :: e.coordinateTag)

/-- The first colon is where a text is split. -/
theorem splitColon_append {before : Str} (h : ':' ∉ before) (after : Str) :
    splitColon (before ++ ':' :: after) = (before, some after) := by
  induction before with
  | nil => rfl
  | cons c before ih =>
    rw [List.mem_cons, not_or] at h
    rw [List.cons_append, splitColon, if_neg (Ne.symm h.1), ih h.2]

theorem decFold_eq {digits : Str} (h : ∀ c ∈ digits, c.isDigit = true) (acc : Nat) :
    decFold acc digits = some (Nat.ofDigitChars 10 digits acc) := by
  induction digits generalizing acc with
  | nil => rfl
  | cons c digits ih =>
    have hc : '0' ≤ c ∧ c ≤ '9' := by
      have hd := h c List.mem_cons_self
      simp only [Char.isDigit, ge_iff_le, Bool.and_eq_true, decide_eq_true_eq] at hd
      exact hd
    rw [decFold, if_pos hc, ih (fun x hx => h x (List.mem_cons_of_mem c hx)), Nat.ofDigitChars_cons]
    rfl

theorem isDigit_toDigits {n : Nat} {c : Char} (h : c ∈ Nat.toDigits 10 n) : c.isDigit = true :=
  Nat.isDigit_of_mem_toDigits (by omega) (by omega) h

/-- A number in decimal parses back. -/
theorem parseU32_toDigits {n : Nat} (h : n < 2 ^ 32) : parseU32 (Nat.toDigits 10 n) = some n := by
  have hplus : (Nat.toDigits 10 n).head? ≠ some '+' := by
    intro hp
    exact absurd (isDigit_toDigits (List.mem_of_mem_head? hp)) (by decide)
  unfold parseU32
  simp only [if_neg hplus, if_neg Nat.toDigits_ne_nil]
  rw [decFold_eq (fun c hc => isDigit_toDigits hc), Nat.ofDigitChars_ten_toDigits, Option.filter_some,
    if_pos (decide_eq_true h)]

/-- An event's own coordinate names its kind, its author and its `d` tag. -/
theorem parseCoordinate_coordinateText {e : Event} (h : e.kind < 2 ^ 32) :
    parseCoordinate e.coordinateText = some ⟨e.kind, e.pubkey, e.coordinateTag⟩ := by
  have hkind : ':' ∉ Nat.toDigits 10 e.kind := fun hc => absurd (isDigit_toDigits hc) (by decide)
  have hhex : ':' ∉ hexEncode e.pubkey := fun hc => absurd ((isHex64_hexEncode e.pubkey).2 _ hc) (by decide)
  unfold parseCoordinate Event.coordinateText
  simp only [splitColon_append hkind, parseU32_toDigits h, splitColon_append hhex, parseHex32_hexEncode,
    Option.bind_eq_bind, Option.bind_some]
  rfl

/-! ## The key of a coordinate -/

theorem Event.dTag_isAddressable {e : Event} {d : Str} (h : e.dTag = some d) : e.isAddressable = true := by
  unfold Event.dTag at h
  split at h
  · cases h
  · rename_i ha
    simpa using ha

/-- The key of the event, by its `d` tag. -/
theorem Event.replacementKey_of_replaceable {e : Event} (h : e.isReplaceable = true) :
    e.replacementKey =
      match e.dTag with
      | some d => .addressable e.pubkey e.kind d
      | none => .replaceable e.pubkey e.kind := by
  unfold Event.replacementKey
  cases hd : e.dTag with
  | some d => rw [if_pos (Event.dTag_isAddressable hd)]
  | none =>
    rw [if_pos h]
    split <;> rfl

/-- The coordinate names the event's slot, unless the `d` tag is empty. -/
theorem key_coordinate_iff {e : Event} (h : e.isReplaceable = true) :
    e.replacementKey = Coordinate.key ⟨e.kind, e.pubkey, e.coordinateTag⟩ ↔ e.dTag ≠ some [] := by
  rw [Event.replacementKey_of_replaceable h]
  unfold Coordinate.key Event.coordinateTag
  cases hd : e.dTag with
  | none => simp
  | some d =>
    by_cases hnil : d = []
    · simp [hnil]
    · simp [hnil]

/-- No coordinate has the key of an empty `d` tag. -/
theorem Coordinate.key_ne_empty (c : Coordinate) (pubkey : Bytes32) (kind : Nat) :
    c.key ≠ .addressable pubkey kind [] := by
  unfold Coordinate.key
  split
  · simp
  · rename_i hne
    intro h
    exact hne (ReplacementKey.addressable.inj h).2.2

theorem Event.kind_lt_of_replaceable {e : Event} (h : e.isReplaceable = true) : e.kind < 2 ^ 32 := by
  unfold Event.isReplaceable at h
  simp only [Bool.or_eq_true, Bool.and_eq_true, decide_eq_true_eq] at h
  omega

theorem mem_coordinates {r : Event} {v : Str} {more : List Str} (h : ⟨['a'], v :: more⟩ ∈ r.tags) {c : Coordinate}
    (hv : parseCoordinate v = some c) : c ∈ r.deletionRequest.coordinates := by
  refine List.mem_filterMap.2 ⟨_, h, ?_⟩
  rw [if_pos rfl]
  exact hv

/-! ## The request -/

namespace Store

open Index (Kept Agree mem_targets)

/-- A request by the author, late enough, with the event's coordinate in an `a` tag. -/
structure Requests (r e : Event) : Prop where
  pubkey : r.pubkey = e.pubkey
  late : e.createdAt ≤ r.createdAt
  tag : ∃ more, ⟨['a'], e.coordinateText :: more⟩ ∈ r.tags

/-- What such a request condemns an event for. -/
theorem Requests.condemned_iff {r e : Event} (h : Requests r e) (hr : e.isReplaceable = true) :
    Condemned r.deletionRequest r.pubkey r.createdAt e ↔ e.dTag ≠ some [] ∨ e.id ∈ r.eTags := by
  constructor
  · rintro (⟨hid, -⟩ | ⟨-, -, c, -, -, hk⟩)
    · exact Or.inr (List.mem_toFinset.1 hid)
    · refine Or.inl fun hd => ?_
      rw [Event.replacementKey_of_replaceable hr, hd] at hk
      exact c.key_ne_empty e.pubkey e.kind hk.symm
  · rintro (hd | hid)
    · obtain ⟨more, hmem⟩ := h.tag
      have hc := mem_coordinates hmem (parseCoordinate_coordinateText (Event.kind_lt_of_replaceable hr))
      exact Or.inr ⟨h.pubkey.symm, h.late, _, hc, h.pubkey.symm, (key_coordinate_iff hr).2 hd⟩
    · exact Or.inl ⟨List.mem_toFinset.2 hid, h.pubkey.symm⟩

/-- The deletion takes the event out exactly then. -/
theorem applyDeletion_removes_iff {E : Event → Prop} {st : Store} (hk : Kept E st.index) (hA : Agree E)
    {e r : Event} (he : st.index.byId.lookup e.id = some e) (hr : e.isReplaceable = true) (h : Requests r e)
    {ids : List Bytes32} (hids : ids.toFinset = r.deletionRequest.ids) :
    (st.applyDeletion ids r.deletionRequest.coordinates r.pubkey r.createdAt).2.index.byId.lookup e.id = none ↔
      e.dTag ≠ some [] ∨ e.id ∈ r.eTags := by
  obtain ⟨her, hrep⟩ := applyDeletion_erases r.pubkey r.createdAt hk hA hids
  have htarget : e.id ∈ st.index.targets r.deletionRequest r.pubkey r.createdAt ↔
      Condemned r.deletionRequest r.pubkey r.createdAt e := by
    rw [mem_targets]
    constructor
    · rintro ⟨e', he', hc⟩
      rw [he] at he'
      cases he'
      exact hc
    · exact fun hc => ⟨e, he, hc⟩
  rw [← h.condemned_iff hr, ← htarget, ← hrep, List.mem_toFinset, her.byId, he]
  split
  · rename_i hin
    exact iff_of_true rfl hin
  · rename_i hin
    exact iff_of_false (by simp) hin

/-- In every state of every run of the store: a request by the author, late enough and
with the coordinate of a live replaceable event, removes it exactly when the event's
`d` tag is not the empty string, or the request names its id too. -/
theorem run_delete_by_coordinate_iff (x : Ext) (maxBytes : Usize) (f : Files) (E : Event → Prop) (hA : Agree E)
    (cs : List Call) (hin : Machine.Along (call x maxBytes) (fun st c => c.In x E st) (Store.new f) cs)
    (st : Store) (hs : Machine.run (call x maxBytes) (Store.new f) cs = some st)
    (e : Event) (he : st.index.byId.lookup e.id = some e) (hr : e.isReplaceable = true)
    (r : Event) (h : Requests r e) (ids : List Bytes32) (hids : ids.toFinset = r.deletionRequest.ids) :
    (st.applyDeletion ids r.deletionRequest.coordinates r.pubkey r.createdAt).2.index.byId.lookup e.id = none ↔
      e.dTag ≠ some [] ∨ e.id ∈ r.eTags :=
  applyDeletion_removes_iff (run_kept hA hin hs) hA he hr h hids

/-! ## An article with an empty `d` tag -/

/-- A long-form article with the given `d` tag. -/
def article (d : Str) : Event := Event.compact 2 (note 0).pubkey 1700000000 30023 [⟨['d'], [d]⟩] ['h', 'o'] 0

/-- Its author's deletion request. -/
def articleRequest (d : Str) : Event :=
  Event.compact 3 (note 0).pubkey 1700000001 5 [⟨['a'], [(article d).coordinateText]⟩] [] 0

theorem requests_article (d : Str) : Requests (articleRequest d) (article d) where
  pubkey := rfl
  late := by
    show 1700000000 ≤ 1700000001
    omega
  tag := ⟨[], List.mem_singleton_self _⟩

theorem eTags_articleRequest (d : Str) : (articleRequest d).eTags = [] := by
  have htags : (articleRequest d).tags = [⟨['a'], [(article d).coordinateText]⟩] := rfl
  unfold Event.eTags Event.hexTags
  rw [htags]
  simp

theorem kind_article (d : Str) : (article d).kind = 30023 := rfl

theorem isReplaceable_article (d : Str) : (article d).isReplaceable = true := by
  unfold Event.isReplaceable
  rw [kind_article]
  decide

theorem dTag_article (d : Str) : (article d).dTag = some d := by
  have htags : (article d).tags = [⟨['d'], [d]⟩] := rfl
  unfold Event.dTag Event.isAddressable
  rw [kind_article, htags]
  simp [Tag.value]

theorem index_insert_article (d : Str) :
    ((Store.new .empty).insert (article d)).2.index = Index.single (article d) := by
  have heph : ¬ (article d).isEphemeral = true := by
    unfold Event.isEphemeral
    rw [kind_article]
    decide
  rw [insert_index, if_neg heph]
  rfl

theorem kept_article (d : Str) :
    Kept (fun a => a = article d) ((Store.new .empty).insert (article d)).2.index :=
  kept_insert (Index.kept_new _) (agree_eq (article d)) fun _ => rfl

theorem lookup_article (d : Str) :
    ((Store.new .empty).insert (article d)).2.index.byId.lookup (article d).id = some (article d) := by
  rw [index_insert_article]
  exact Index.single_byId _

theorem run_delete_by_coordinate_iff_article :
    ∃ st, Machine.run (call (Ext.known [] []) 0) (Store.new .empty) [.insert (article ['x'])] = some st ∧
      ((st.applyDeletion [] (articleRequest ['x']).deletionRequest.coordinates (articleRequest ['x']).pubkey
        (articleRequest ['x']).createdAt).2.index.byId.lookup (article ['x']).id = none ↔
        (article ['x']).dTag ≠ some [] ∨ (article ['x']).id ∈ (articleRequest ['x']).eTags) := by
  refine ⟨_, rfl, run_delete_by_coordinate_iff (Ext.known [] []) 0 .empty (fun a => a = article ['x'])
    (agree_eq _) [.insert (article ['x'])] ⟨fun _ => rfl, fun _ _ => trivial⟩ _ rfl (article ['x'])
    (lookup_article ['x']) (isReplaceable_article _) (articleRequest ['x']) (requests_article _) [] ?_⟩
  show ([] : List Bytes32).toFinset = (articleRequest ['x']).eTags.toFinset
  rw [eTags_articleRequest]

/-- An article whose `d` tag is empty survives its author's request. -/
theorem article_empty_tag_survives :
    ∃ st, Machine.run (call (Ext.known [] []) 0) (Store.new .empty) [.insert (article [])] = some st ∧
      st.index.byId.lookup (article []).id = some (article []) ∧ (article []).isReplaceable = true ∧
      Requests (articleRequest []) (article []) ∧
      (st.applyDeletion [] (articleRequest []).deletionRequest.coordinates (articleRequest []).pubkey
        (articleRequest []).createdAt).2.index.byId.lookup (article []).id ≠ none := by
  refine ⟨_, rfl, lookup_article [], isReplaceable_article _, requests_article _, ?_⟩
  have hids : ([] : List Bytes32).toFinset = (articleRequest []).deletionRequest.ids := by
    show _ = (articleRequest []).eTags.toFinset
    rw [eTags_articleRequest]
  have hiff := applyDeletion_removes_iff (kept_article []) (agree_eq _) (lookup_article [])
    (isReplaceable_article _) (requests_article []) hids
  intro hnone
  rcases hiff.1 hnone with hd | hid
  · exact hd (dTag_article [])
  · rw [eTags_articleRequest] at hid
    cases hid

end Store
end Memlay
