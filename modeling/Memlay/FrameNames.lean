import Memlay.OverflowClose

/-!
# Which subscription a frame names

Four kinds of frames carry a subscription id: live and stored `EVENT` frames, `EOSE` and
`CLOSED`.  The last two write the id with serde_json; both kinds of `EVENT` frames put
it between quotes as it is.  So every frame of a subscription is a JSON array that names
the subscription exactly when its id has no character that a string must escape
(`frames_name_iff`).
-/

namespace Memlay

/-- The text of a frame. -/
def Frame.text (x : SerdeOut) : Frame → Str
  | .event subId json => "[\"EVENT\",\"".toList ++ subId ++ "\",".toList ++ json ++ "]".toList
  | .message m => m.toJson x

/-- The frames of the task that a `REQ` spawns: the stored events of each filter, then
`EOSE`. -/
def requestFrames (id : Str) (queryFilter : Filter → List Event) (filters : List Filter) : List Frame :=
  (filters.flatMap fun filter => (queryFilter filter).map fun e => .event id (Json.fromUtf8Lossy e.raw)) ++
    [.message (.endOfStoredEvents id)]

/-- A JSON array whose second element is the text `id`. -/
def Names (id : Str) (text : Str) : Prop :=
  ∃ vs, Json.ArrayOf vs text ∧ ∃ v, vs[1]? = some v ∧ Json.StringOf v id

/-- The event's raw JSON is an object. -/
def RawObject (e : Event) : Prop := ∃ json, e.raw = Json.utf8Bytes json ∧ Json.IsObject json

/-- Texts are written as string tokens that stand for them. -/
def SerdeOut.Inverse (x : SerdeOut) : Prop := ∀ s, ∃ v, x.string s = some v ∧ Json.StringOf v s

/-! ## The texts -/

theorem toList_event : "[\"EVENT\",\"".toList = '[' :: '"' :: ("EVENT".toList ++ ['"', ',', '"']) := rfl

theorem toList_mid : "\",".toList = ['"', ','] := rfl

theorem toList_comma : ",".toList = [','] := rfl

theorem toList_close : "]".toList = [']'] := rfl

theorem toList_eose : "[\"EOSE\",".toList = '[' :: '"' :: ("EOSE".toList ++ ['"', ',']) := rfl

theorem toList_closed : "[\"CLOSED\",".toList = '[' :: '"' :: ("CLOSED".toList ++ ['"', ',']) := rfl

/-- The frame of an event, in pieces. -/
theorem text_event (x : SerdeOut) (id json : Str) : Frame.text x (.event id json) =
    '[' :: '"' :: ("EVENT".toList ++ '"' :: ',' :: '"' :: (id ++ '"' :: ',' :: (json ++ [']']))) := by
  show "[\"EVENT\",\"".toList ++ id ++ "\",".toList ++ json ++ "]".toList = _
  rw [toList_event, toList_mid, toList_close]
  simp only [List.cons_append, List.append_assoc, List.nil_append]

theorem text_eose (x : SerdeOut) (id : Str) : Frame.text x (.message (.endOfStoredEvents id)) =
    '[' :: '"' :: ("EOSE".toList ++ '"' :: ',' :: (x.jsonStr id ++ [']'])) := by
  show "[\"EOSE\",".toList ++ x.jsonStr id ++ "]".toList = _
  rw [toList_eose, toList_close]
  simp only [List.cons_append, List.append_assoc, List.nil_append]

theorem text_closed (x : SerdeOut) (id message : Str) : Frame.text x (.message (.closed id message)) =
    '[' :: '"' :: ("CLOSED".toList ++ '"' :: ',' :: (x.jsonStr id ++ ',' :: (x.jsonStr message ++ [']']))) := by
  show "[\"CLOSED\",".toList ++ x.jsonStr id ++ ",".toList ++ x.jsonStr message ++ "]".toList = _
  rw [toList_closed, toList_comma, toList_close]
  simp only [List.cons_append, List.append_assoc, List.nil_append]

/-! ## Each kind of frame -/

/-- An array of a tag and more elements. -/
theorem arrayOf_tag {tag inner : Str} {more : List Str} (htag : ∀ c ∈ tag, Json.Plain c)
    (hmore : ∀ w ∈ more, Json.Value w) (hin : Json.Elements more inner) :
    Json.ArrayOf (('"' :: (tag ++ ['"'])) :: more) ('[' :: '"' :: (tag ++ '"' :: ',' :: (inner ++ [']']))) := by
  have hparen : '"' :: (tag ++ '"' :: ',' :: (inner ++ [']'])) = '"' :: (tag ++ ['"']) ++ ',' ::
      inner ++ [']'] := by
    simp only [List.cons_append, List.append_assoc, List.nil_append]
  rw [hparen]
  refine ⟨fun w hw => ?_, _, Or.inr (.cons (.self _) hin), .self _⟩
  rcases List.mem_cons.1 hw with rfl | hw
  · exact .string (Json.stringOf_plain htag)
  · exact hmore w hw

/-- The first element after the tag is the id. -/
theorem names_of_elements {tag id v inner : Str} {more : List Str} (htag : ∀ c ∈ tag, Json.Plain c)
    (hv : Json.StringOf v id) (hmore : ∀ w ∈ more, Json.Value w) (hin : Json.Elements (v :: more) inner) :
    Names id ('[' :: '"' :: (tag ++ '"' :: ',' :: (inner ++ [']']))) := by
  refine ⟨_, arrayOf_tag htag (fun w hw => ?_) hin, v, rfl, hv⟩
  rcases List.mem_cons.1 hw with rfl | hw
  · exact .string hv
  · exact hmore w hw

/-- It names the subscription, if the id needs no escape. -/
theorem names_event {x : SerdeOut} {id : Str} {e : Event} (he : RawObject e) (hid : ∀ c ∈ id, Json.Plain c) :
    Names id (Frame.text x (.event id (Json.fromUtf8Lossy e.raw))) := by
  obtain ⟨json, hraw, hobj, -⟩ := he
  have hinner : id ++ '"' :: ',' :: (json ++ [']']) = id ++ ['"'] ++ ',' :: json ++ [']'] := by
    simp only [List.cons_append, List.append_assoc, List.nil_append]
  rw [text_event, hraw, Json.fromUtf8Lossy_utf8Bytes, hinner]
  refine names_of_elements (Json.plain_of_all (by decide)) (Json.stringOf_plain hid) ?_
      (.cons (.self _) (.one (.self json)))
  intro w hw
  rw [List.mem_singleton.1 hw]
  exact hobj

/-- The id is read back from an `EVENT` frame only where it needs no escapes. -/
theorem plain_of_names_event {x : SerdeOut} {id json : Str} (h : Names id (Frame.text x (.event id json))) :
    ∀ c ∈ id, Json.Plain c := by
  obtain ⟨vs, harray, v, hv, hstr⟩ := h
  rw [text_event] at harray
  obtain ⟨t, ps, r, hchars, hdec, heq⟩ := harray.second (Json.plain_of_all (by decide)) hv hstr
  exact Json.plain_of_reads_back hchars hdec heq

section
variable {x : SerdeOut} (hx : x.Inverse)
include hx

theorem stringOf_jsonStr (s : Str) : Json.StringOf (x.jsonStr s) s := by
  obtain ⟨v, hv, hstr⟩ := hx s
  unfold SerdeOut.jsonStr
  rw [hv]
  exact hstr

/-- The id of an `EOSE` is escaped. -/
theorem names_eose (id : Str) : Names id (Frame.text x (.message (.endOfStoredEvents id))) := by
  rw [text_eose]
  exact names_of_elements (Json.plain_of_all (by decide)) (stringOf_jsonStr hx id) (by simp) (.one (.self _))

theorem names_closed (id message : Str) : Names id (Frame.text x (.message (.closed id message))) := by
  have hinner : x.jsonStr id ++ ',' :: (x.jsonStr message ++ [']']) = x.jsonStr id ++ ',' ::
      x.jsonStr message ++ [']'] := by
    simp only [List.cons_append, List.append_assoc]
  rw [text_closed, hinner]
  refine names_of_elements (Json.plain_of_all (by decide)) (stringOf_jsonStr hx id) ?_
      (.cons (.self _) (.one (.self _)))
  intro w hw
  rw [List.mem_singleton.1 hw]
  exact .string (stringOf_jsonStr hx message)

end

/-! ## Every frame of a subscription -/

/-- What `deliver` adds to the queue for one subscription. -/
def liveFrames (c : ConnState) (now : Nat) (e : Event) (sub : Sub) : List Frame :=
  (c.deliverSub now (.new e) sub).queue.drop c.queue.length

theorem liveFrames_eq {c : ConnState} {now : Nat} {e : Event} {sub : Sub} (hroom : c.Takes 1)
    (hm : sub.matches e = true) : liveFrames c now e sub = [.event sub.id (Json.fromUtf8Lossy e.raw)] := by
  unfold liveFrames ConnState.deliverSub ConnState.trySend
  rw [if_pos (by exact hm), if_pos ⟨hroom.1, hroom.2⟩]
  exact List.drop_left

/-- For every subscription id, every event and any stored events whose raw JSON are
objects: each frame for the subscription is an array whose second element is the id,
exactly when no character of the id needs an escape. -/
theorem frames_name_iff (x : SerdeOut) (hx : x.Inverse) (sub : Sub) (c : ConnState) (hroom : c.Takes 1) (now : Nat)
    (e : Event) (hm : sub.matches e = true) (he : RawObject e) (queryFilter : Filter → List Event)
    (hq : ∀ filter ∈ sub.filters, ∀ e ∈ queryFilter filter, RawObject e) :
    (∀ frame ∈ liveFrames c now e sub ++ requestFrames sub.id queryFilter sub.filters ++ [closedFrame sub.id],
      Names sub.id (frame.text x)) ↔ ∀ ch ∈ sub.id, Json.Plain ch := by
  rw [liveFrames_eq hroom hm]
  constructor
  · intro h
    have hlive : Frame.event sub.id (Json.fromUtf8Lossy e.raw) ∈ [Frame.event sub.id (Json.fromUtf8Lossy e.raw)] ++
        requestFrames sub.id queryFilter sub.filters ++ [closedFrame sub.id] := by simp
    exact plain_of_names_event (h _ hlive)
  · intro hid frame hframe
    rcases List.mem_append.1 hframe with hframe | hframe
    · rcases List.mem_append.1 hframe with hframe | hframe
      · rw [List.mem_singleton.1 hframe]
        exact names_event he hid
      · rcases List.mem_append.1 hframe with hframe | hframe
        · obtain ⟨filter, hfilter, hframe⟩ := List.mem_flatMap.1 hframe
          obtain ⟨e', he', rfl⟩ := List.mem_map.1 hframe
          exact names_event (hq filter hfilter e' he') hid
        · rw [List.mem_singleton.1 hframe]
          exact names_eose hx sub.id
    · rw [List.mem_singleton.1 hframe]
      exact names_closed hx sub.id tooSlowText


/-! ## A note under two ids -/

def serdeStrings : SerdeOut := ⟨fun s => some (Json.writeString s), fun _ => none⟩

theorem serdeStrings_inverse : serdeStrings.Inverse := fun s => ⟨_, rfl, Json.stringOf_writeString s⟩

/-- A field of an event, and its value. -/
def field (key : String) (value : Str) : Json.Member := ⟨'"' :: (key.toList ++ ['"']), [], [], value⟩

def quotedText (s : Str) : Str := '"' :: (s ++ ['"'])

def noteFields : List Json.Member :=
  [field "id" (quotedText (hexEncode (note 0).id)), field "pubkey" (quotedText (hexEncode (note 0).pubkey)),
    field "created_at" "1700000000".toList, field "kind" "1".toList, field "tags" "[]".toList,
    field "content" (quotedText "hi".toList), field "sig" (quotedText (hexDigits 128 (note 0).sig.toNat))]

/-- The raw of that note as a text. -/
def noteText : Str := '{' :: (List.intercalate [','] (noteFields.map Json.Member.text) ++ ['}'])

theorem note_raw : (note 0).raw = Json.utf8Bytes noteText := by decide +kernel

theorem value_quotedText {s : Str} (h : s.all (fun c => decide (Json.Plain c)) = true) :
    Json.Value (quotedText s) :=
  .string (Json.stringOf_plain (Json.plain_of_all h))

theorem field_ok {key : String} (h : key.toList.all (fun c => decide (Json.Plain c)) = true) (value : Str) :
    (field key value).Ok :=
  ⟨⟨_, Json.stringOf_plain (Json.plain_of_all h)⟩, by simp [field], by simp [field]⟩

theorem value_digits {t : Str} (hne : t ≠ []) (h : t.all Char.isDigit = true) (h0 : t.head? ≠ some '0') :
    Json.Value t :=
  .number ⟨[], t, [], [], by simp, Or.inl rfl, Or.inr ⟨⟨hne, List.all_eq_true.1 h⟩, h0⟩, Or.inl rfl, Or.inl rfl⟩

theorem rawObject_note : RawObject (note 0) := by
  refine ⟨noteText, note_raw,
    @Json.Value.object noteFields _ ?_ ?_ (Or.inr (Json.elements_intercalate (by decide))), rfl⟩
  · simp only [noteFields, List.forall_mem_cons]
    exact ⟨field_ok (by decide) _, field_ok (by decide) _, field_ok (by decide) _, field_ok (by decide) _,
      field_ok (by decide) _, field_ok (by decide) _, field_ok (by decide) _, by simp⟩
  · simp only [noteFields, List.forall_mem_cons]
    exact ⟨value_quotedText (by decide +kernel), value_quotedText (by decide +kernel),
      value_digits (by decide) (by decide) (by decide), value_digits (by decide) (by decide) (by decide),
      @Json.Value.array [] [] (by simp) (Or.inl ⟨rfl, by simp⟩),
      value_quotedText (by decide), value_quotedText (by decide +kernel), by simp⟩

/-- A subscription to notes. -/
def notesUnder (id : Str) : Sub := ⟨id, [Fanout.notesFilter]⟩

theorem frames_name_iff_plain :
    (∀ frame ∈ liveFrames (.new 0 connSendCap) 0 (note 0) (notesUnder ['a']) ++
        requestFrames ['a'] (fun _ => [note 0]) [Fanout.notesFilter] ++ [closedFrame ['a']],
      Names ['a'] (frame.text serdeStrings)) ↔ ∀ ch ∈ ['a'], Json.Plain ch :=
  frames_name_iff serdeStrings serdeStrings_inverse (notesUnder ['a']) (.new 0 connSendCap)
      ⟨rfl, by decide⟩ 0 (note 0)
    (by decide) rawObject_note (fun _ => [note 0]) fun _ _ e he => List.mem_singleton.1 he ▸ rawObject_note

/-- An id with a quote in it: the live frame does not name it. -/
theorem quote_not_named : RawObject (note 0) ∧ ∃ frame ∈ liveFrames (.new 0 connSendCap) 0 (note 0)
    (notesUnder ['a', '"', 'b']),
    ¬ Names ['a', '"', 'b'] (frame.text serdeStrings) := by
  refine ⟨rawObject_note, ?_⟩
  rw [liveFrames_eq ⟨rfl, by decide⟩ (by decide)]
  refine ⟨_, List.mem_singleton.2 rfl, fun h => ?_⟩
  exact absurd (plain_of_names_event h '"' (by decide)) (by decide)

end Memlay
