import Memlay.FilterJson
import Memlay.FrameNames

/-!
# Messages written and read back

`to_json` and `from_json` are written by hand, variant by variant.  Four of the variants
that the parser returns are written as the array it reads.  The other two are not: an
event without a subscription is written as the bare event, which has no message type, and
the filters of a request are written as one array where the parser wants each filter to
be an element of its own.  So

    from_json(m.to_json()) = m
      ↔  m is a `CLOSE`, an `EOSE`, a `NOTICE` or an `OK`        (`fromJson_toJson_iff`)

for every message `m` that the parser returns.
-/

namespace Memlay

open Json (Content utf8Bytes)

/-- What serde_json does on what it wrote and on the values of JSON. -/
structure Faithful (x : Serde) (out : SerdeOut) (content : Bytes → Option Content) : Prop where
  /-- texts are written as string tokens -/
  strings : out.Inverse
  /-- a list of filters is written as a value that holds their maps -/
  filters : ∀ fs : List Filter, (∀ f ∈ fs, f.Wire) →
    ∃ v, out.filters fs = some v ∧ Json.Value v ∧ content (utf8Bytes v) = some (.seq (fs.map Filter.serialize))
  /-- a filter is read by its visitor -/
  filter : ∀ json, (x.filter json).toOption = (content json).bind fun c => (Filter.deserialize c).toOption
  /-- an array is read as the texts of its elements -/
  array : ∀ vs text, Json.ArrayOf vs text → x.rawArray (utf8Bytes text) = .ok (vs.map utf8Bytes)
  /-- an element of a text is a text -/
  texts : ∀ text items, x.rawArray (utf8Bytes text) = .ok items → ∀ t ∈ items, ∃ s, t = utf8Bytes s
  string : ∀ v s, Json.StringOf v s → x.string (utf8Bytes v) = .ok s
  /-- a text is borrowed where it has no escapes -/
  borrowed : ∀ s, (∀ c ∈ s, Json.Plain c) → x.borrowedStr (utf8Bytes ('"' :: (s ++ ['"']))) = .ok s
  borrowed_string : ∀ v s, x.borrowedStr v = .ok s → x.string v = .ok s
  bool : ∀ b : Bool, x.bool (utf8Bytes (if b then "true" else "false").toList) = .ok b
  /-- an array that is read as an event has its fields in order, the id first -/
  event : ∀ json r items, x.rawEvent json = .ok r → x.rawArray json = .ok items →
    ∃ head rest, items = head :: rest ∧ x.string head = .ok r.id

namespace NostrMessage

/-- The messages of a tag and scalars. -/
def flat : NostrMessage → Bool
  | .event _ _ => false
  | .request _ _ => false
  | _ => true

/-! ## What the parser returns -/

def tags : List Str :=
  ["EVENT".toList, "REQ".toList, "CLOSE".toList, "EOSE".toList, "NOTICE".toList, "OK".toList]

theorem mem_tags_of_ofType {x : Serde} {msgType : Str} {args : List Bytes} {m : NostrMessage}
    (h : ofType x msgType args = .ok m) : msgType ∈ tags := by
  rcases ofType_cases h with ⟨h, -⟩ | ⟨h, -⟩ | ⟨h, -⟩ | ⟨h, -⟩ | ⟨h, -⟩ | ⟨h, -⟩ <;> simp [tags, h]

/-- No message type is the id of an event. -/
theorem parseHex32_tag {t : Str} (h : t ∈ tags) : parseHex32 t = none := by
  simp only [tags, List.mem_cons, List.not_mem_nil, or_false] at h
  rcases h with rfl | rfl | rfl | rfl | rfl | rfl <;> decide

section
variable {x : Serde} {out : SerdeOut} {content : Bytes → Option Content} (hx : Faithful x out content)
include hx

theorem wire_of_filter {json : Bytes} {f : Filter} (h : x.filter json = .ok f) : f.Wire := by
  have hread := hx.filter json
  rw [h] at hread
  obtain ⟨c, -, hc⟩ := Option.bind_eq_some_iff.1 hread.symm
  cases hd : Filter.deserialize c with
  | error err =>
    rw [hd] at hc
    cases hc
  | ok g =>
    rw [hd] at hc
    cases hc
    exact Filter.wire_of_deserialize hd

theorem wire_of_filtersOf {jsons : List Bytes} {fs : List Filter} (h : filtersOf x jsons = .ok fs) :
    ∀ f ∈ fs, f.Wire := by
  induction jsons generalizing fs with
  | nil =>
    cases h
    exact fun f hf => by cases hf
  | cons json jsons ih =>
    obtain ⟨f, hf, h⟩ := Event.bind_eq_ok_iff.1 h
    obtain ⟨fs', hfs, h⟩ := Event.bind_eq_ok_iff.1 h
    cases h
    intro g hg
    rcases List.mem_cons.1 hg with rfl | hg
    · exact wire_of_filter hx (mapError_ok_iff.1 hf)
    · exact ih hfs g hg

/-! ## Each variant -/

omit hx in
theorem text_tag {opening : String} {tag : Str} (h : opening.toList = '[' :: '"' :: (tag ++ ['"', ',']))
    (inner : Str) :
    opening.toList ++ inner ++ "]".toList = '[' :: '"' :: (tag ++ '"' :: ',' :: (inner ++ [']'])) := by
  rw [h, toList_close]
  simp only [List.cons_append, List.append_assoc, List.nil_append]

/-- An array of a tag and more values is read by the arm of the tag. -/
theorem fromJson_arrayOf {tag text : Str} {more : List Str} (htag : ∀ c ∈ tag, Json.Plain c)
    (h : Json.ArrayOf (('"' :: (tag ++ ['"'])) :: more) text) :
    fromJson x (utf8Bytes text) = ofType x tag (more.map utf8Bytes) := by
  unfold fromJson
  rw [hx.array _ _ h]
  show (orText (x.borrowedStr (utf8Bytes ('"' :: (tag ++ ['"'])))) "Invalid message type" >>= fun msgType =>
    ofType x msgType (more.map utf8Bytes)) = _
  rw [hx.borrowed tag htag]
  rfl

theorem fromJson_tag {opening : String} (tag : Str) {inner : Str} {more : List Str}
    (h : opening.toList = '[' :: '"' :: (tag ++ ['"', ','])) (htag : ∀ c ∈ tag, Json.Plain c)
    (hmore : ∀ w ∈ more, Json.Value w) (hin : Json.Elements more inner) :
    fromJson x (utf8Bytes (opening.toList ++ inner ++ "]".toList)) = ofType x tag (more.map utf8Bytes) := by
  rw [text_tag h]
  exact fromJson_arrayOf hx htag (arrayOf_tag htag hmore hin)

/-- The messages whose one argument is a text. -/
theorem fromJson_text {opening missing invalid : String} (tag : Str) {message : Str → NostrMessage}
    (h : opening.toList = '[' :: '"' :: (tag ++ ['"', ','])) (htag : ∀ c ∈ tag, Json.Plain c)
    (harm : ∀ args, ofType x tag args = textOf x missing invalid message args) (t : Str) :
    fromJson x (utf8Bytes (opening.toList ++ out.jsonStr t ++ "]".toList)) = .ok (message t) := by
  have hstr := stringOf_jsonStr hx.strings t
  have hvalue : ∀ w ∈ [out.jsonStr t], Json.Value w := by simpa using .string hstr
  rw [fromJson_tag hx tag h htag hvalue (.one (.self _)), harm]
  show (orText (x.string (utf8Bytes (out.jsonStr t))) invalid).map message = _
  rw [hx.string _ t hstr]
  rfl

theorem fromJson_ok (id message : Str) (accepted : Bool) :
    fromJson x (utf8Bytes (toJson out (.ok id accepted message))) = .ok (.ok id accepted message) := by
  have hid := stringOf_jsonStr hx.strings id
  have hmessage := stringOf_jsonStr hx.strings message
  have hbool : Json.Value (if accepted then "true" else "false").toList := by
    cases accepted
    · exact .false
    · exact .true
  have htext : toJson out (.ok id accepted message) = "[\"OK\",".toList ++ (out.jsonStr id ++ ',' ::
      ((if accepted then "true" else "false").toList ++ ',' :: out.jsonStr message)) ++ "]".toList := by
    show "[\"OK\",".toList ++ out.jsonStr id ++ ",".toList ++ (if accepted then "true" else "false").toList ++
      ",".toList ++ out.jsonStr message ++ "]".toList = _
    rw [toList_comma]
    simp only [List.cons_append, List.append_assoc, List.nil_append]
  rw [htext, fromJson_tag hx "OK".toList rfl (Json.plain_of_all (by decide))
    (by simpa using ⟨.string hid, hbool, .string hmessage⟩) (.cons (.self _) (.cons (.self _) (.one (.self _))))]
  refine Event.bind_eq_ok_iff.2 ⟨id, orText_eq_ok_iff.2 (hx.string _ id hid), ?_⟩
  refine Event.bind_eq_ok_iff.2 ⟨accepted, orText_eq_ok_iff.2 (hx.bool accepted), ?_⟩
  exact Event.bind_eq_ok_iff.2 ⟨message, orText_eq_ok_iff.2 (hx.string _ message hmessage), rfl⟩

/-- The filters of a request are written as an array, and an array is no filter. -/
theorem fromJson_request_ne {id : Str} {filters : List Filter} (hw : ∀ f ∈ filters, f.Wire) (m : NostrMessage) :
    fromJson x (utf8Bytes (toJson out (.request id filters))) ≠ .ok m := by
  have hid := stringOf_jsonStr hx.strings id
  obtain ⟨v, hv, hval, hcontent⟩ := hx.filters filters hw
  have htext : toJson out (.request id filters) = "[\"REQ\",".toList ++ (out.jsonStr id ++ ',' :: v) ++
      "]".toList := by
    show "[\"REQ\",".toList ++ out.jsonStr id ++ ",".toList ++ (out.filters filters).getD [] ++ "]".toList = _
    rw [hv, toList_comma]
    simp only [Option.getD_some, List.cons_append, List.append_assoc, List.nil_append]
  rw [htext, fromJson_tag hx "REQ".toList rfl (Json.plain_of_all (by decide))
    (by simpa using ⟨.string hid, hval⟩) (.cons (.self _) (.one (.self _)))]
  intro h
  obtain ⟨_, -, h⟩ := Event.bind_eq_ok_iff.1
      (show requestOf x [utf8Bytes (out.jsonStr id), utf8Bytes v] = .ok m from h)
  obtain ⟨_, h, -⟩ := Event.bind_eq_ok_iff.1 h
  obtain ⟨f, hf, -⟩ := Event.bind_eq_ok_iff.1 h
  have hread := hx.filter (utf8Bytes v)
  rw [mapError_ok_iff.1 hf, hcontent] at hread
  cases hread

/-- The bare event has no message type: it is an object, or an array with the id in front. -/
theorem fromJson_event_ne {text : Str} {subId : Option Str} {e : Event}
    (h : fromJson x (utf8Bytes text) = .ok (.event subId e)) (m : NostrMessage) :
    fromJson x (utf8Bytes (toJson out (.event subId e))) ≠ .ok m := by
  obtain ⟨rfl, head, data, more, harr, -, hev⟩ := fromJson_eq_event_iff.1 h
  obtain ⟨s, rfl⟩ := hx.texts text _ harr data (by simp)
  obtain ⟨hun, -⟩ := Event.fromJson_eq_ok_iff.1 hev
  have hraw := Event.raw_of_fromJsonUnchecked hun
  obtain ⟨r, eid, pubkey, sig, hr, hid, -, -, -⟩ := Event.fromJsonUnchecked_eq_ok_iff.1 hun
  show fromJson x (utf8Bytes (Json.fromUtf8Lossy e.raw)) ≠ .ok m
  rw [hraw, Json.fromUtf8Lossy_utf8Bytes]
  intro hm
  obtain ⟨head', args, msgType, harr', htype, hof⟩ := fromJson_eq_ok_iff.1 hm
  obtain ⟨head'', rest, heq, hstr⟩ := hx.event _ r _ hr harr'
  cases heq
  have hsame : x.string head' = .ok msgType := hx.borrowed_string _ _ htype
  rw [hstr] at hsame
  cases hsame
  rw [parseHex32_tag (mem_tags_of_ofType hof)] at hid
  cases hid

end

/-! ## Every message -/

/-- For every message that the parser returns: what is written for it is read back as the
message exactly when it is neither an event nor a request. -/
theorem fromJson_toJson_iff (x : Serde) (out : SerdeOut) (content : Bytes → Option Content)
    (hx : Faithful x out content) (text : Str) (m : NostrMessage) (hm : fromJson x (utf8Bytes text) = .ok m) :
    fromJson x (utf8Bytes (m.toJson out)) = .ok m ↔ m.flat = true := by
  obtain ⟨head, args, msgType, -, -, hof⟩ := fromJson_eq_ok_iff.1 hm
  rcases ofType_cases hof with ⟨-, hev⟩ | ⟨-, id, filters, jsons, rfl, hfs⟩ | ⟨-, id, rfl⟩ | ⟨-, id, rfl⟩ |
    ⟨-, message, rfl⟩ | ⟨-, id, accepted, message, rfl⟩
  · obtain ⟨data, more, e, -, -, rfl⟩ := eventOf_eq_ok_iff.1 hev
    exact ⟨fun h => absurd h (fromJson_event_ne hx hm _), fun h => by cases h⟩
  · exact ⟨fun h => absurd h (fromJson_request_ne hx (wire_of_filtersOf hx hfs) _), fun h => by cases h⟩
  · exact iff_of_true (fromJson_text hx "CLOSE".toList rfl (Json.plain_of_all (by decide)) (fun _ => rfl) id) rfl
  · exact iff_of_true (fromJson_text hx "EOSE".toList rfl (Json.plain_of_all (by decide)) (fun _ => rfl) id) rfl
  · exact iff_of_true
      (fromJson_text hx "NOTICE".toList rfl (Json.plain_of_all (by decide)) (fun _ => rfl) message) rfl
  · exact iff_of_true (fromJson_ok hx id message accepted) rfl

/-! ## A reader and a writer -/

def orRefused {α : Type} : Option α → Except Str α
  | some a => .ok a
  | none => .error []

/-- A text without escapes is borrowed. -/
def borrow (v : Str) : Option Str := if '\\' ∈ v then none else Json.readString v

def readBool (v : Str) : Option Bool :=
  if v = "true".toList then some true else if v = "false".toList then some false else none

def readContent (json : Bytes) : Option Content :=
  Content.read ((Json.fromUtf8Lossy json).length + 1) (Json.fromUtf8Lossy json)

/-- The JSON reader, with the known note as its one event. -/
def jsonSerde : Serde where
  toExt := { Ext.known [note 0] [] with
    rawArray := fun json => (orRefused (Json.readArray (Json.fromUtf8Lossy json))).map fun vs => vs.map utf8Bytes
    borrowedStr := fun json => orRefused (borrow (Json.fromUtf8Lossy json)) }
  string json := orRefused (Json.readString (Json.fromUtf8Lossy json))
  bool json := orRefused (readBool (Json.fromUtf8Lossy json))
  filter json := orRefused ((readContent json).bind fun c => (Filter.deserialize c).toOption)

def jsonOut : SerdeOut where
  string s := some (Json.writeString s)
  filters fs := some (Content.seq (fs.map Filter.serialize)).write

theorem orRefused_toOption {α : Type} (o : Option α) : (orRefused o).toOption = o := by
  cases o <;> rfl

theorem orRefused_eq_ok_iff {α : Type} {o : Option α} {a : α} : orRefused o = .ok a ↔ o = some a := by
  cases o <;> simp [orRefused]

/-- What is written is read with a depth of its length. -/
theorem readContent_write {c : Content} (h : c.Written) : readContent (utf8Bytes c.write) = some c := by
  unfold readContent
  rw [Json.fromUtf8Lossy_utf8Bytes]
  exact Content.read_write h _ (Nat.lt_succ_self _)

theorem borrow_plain {s : Str} (h : ∀ c ∈ s, Json.Plain c) : borrow ('"' :: (s ++ ['"'])) = some s := by
  have hno : '\\' ∉ '"' :: (s ++ ['"']) := by
    intro hin
    simp only [List.mem_cons, List.mem_append, List.not_mem_nil, or_false] at hin
    rcases hin with hin | hin | hin
    · cases hin
    · exact (h _ hin).2.1 rfl
    · cases hin
  unfold borrow
  rw [if_neg hno]
  exact Json.readString_eq (Json.stringOf_plain h)

theorem readString_of_borrow {v s : Str} (h : borrow v = some s) : Json.readString v = some s := by
  unfold borrow at h
  split at h
  · cases h
  · exact h

/-- The known event is an object. -/
theorem rawArray_of_rawEvent {json : Bytes} {r : RawEvent} (h : jsonSerde.rawEvent json = .ok r)
    (items : List Bytes) :
    jsonSerde.rawArray json ≠ .ok items := by
  obtain ⟨e, he, rfl⟩ := @of_rawEvent_known [note 0] [] _ _ h
  have hnote : e = note 0 := by simpa using he
  obtain ⟨text, htext, hobject⟩ := rawObject_note
  rw [hnote, htext]
  show (orRefused (Json.readArray (Json.fromUtf8Lossy (utf8Bytes text)))).map _ ≠ _
  rw [Json.fromUtf8Lossy_utf8Bytes, Json.readArray_object hobject]
  intro hfalse
  cases hfalse

theorem faithful_json : Faithful jsonSerde jsonOut readContent where
  strings s := ⟨_, rfl, Json.stringOf_writeString s⟩
  filters fs hfs := by
    have hw : (Content.seq (fs.map Filter.serialize)).Written := Filter.written_seq fun f hf => (hfs f hf).written
    exact ⟨_, rfl, hw.value, readContent_write hw⟩
  filter json := orRefused_toOption _
  array vs text h := by
    show (orRefused (Json.readArray (Json.fromUtf8Lossy (utf8Bytes text)))).map _ = _
    rw [Json.fromUtf8Lossy_utf8Bytes, Json.readArray_eq h]
    rfl
  texts text items h t ht := by
    obtain ⟨vs, -, rfl⟩ := map_ok_iff.1 h
    obtain ⟨v, -, rfl⟩ := List.mem_map.1 ht
    exact ⟨v, rfl⟩
  string v s h := by
    show orRefused (Json.readString (Json.fromUtf8Lossy (utf8Bytes v))) = _
    rw [Json.fromUtf8Lossy_utf8Bytes, Json.readString_eq h]
    rfl
  borrowed s h := by
    show orRefused (borrow (Json.fromUtf8Lossy (utf8Bytes _))) = _
    rw [Json.fromUtf8Lossy_utf8Bytes, borrow_plain h]
    rfl
  borrowed_string v s h := orRefused_eq_ok_iff.2 (readString_of_borrow (orRefused_eq_ok_iff.1 h))
  bool b := by
    show orRefused (readBool (Json.fromUtf8Lossy (utf8Bytes _))) = _
    rw [Json.fromUtf8Lossy_utf8Bytes]
    cases b <;> rfl
  event json r items hr harr := absurd harr (rawArray_of_rawEvent hr items)

def closeText : Str := "[\"CLOSE\",\"a\"]".toList

/-- Notes only. -/
def kindFilter : Filter := { Filter.default with kinds := some [1] }

theorem wire_kindFilter : kindFilter.Wire := by
  constructor <;> simp [kindFilter, Filter.default]

def requestText : Str := "[\"REQ\",\"a\",\x7b\"kinds\":[1]\x7d]".toList

theorem fromJson_requestText : fromJson jsonSerde (utf8Bytes requestText) = .ok (.request ['a'] [kindFilter]) := by
  have hid : Json.StringOf "\"a\"".toList ['a'] := Json.stringOf_writeString ['a']
  have hval : Json.Value kindFilter.serialize.write := wire_kindFilter.written.value
  have hfilter : jsonSerde.filter (utf8Bytes kindFilter.serialize.write) = .ok kindFilter := by
    show orRefused ((readContent (utf8Bytes kindFilter.serialize.write)).bind _) = _
    rw [readContent_write wire_kindFilter.written]
    rfl
  have htext : requestText =
      "[\"REQ\",".toList ++ ("\"a\"".toList ++ ',' :: kindFilter.serialize.write) ++ "]".toList := by decide
  rw [htext, fromJson_tag faithful_json "REQ".toList rfl (Json.plain_of_all (by decide))
    (by simpa using ⟨.string hid, hval⟩) (.cons (.self _) (.one (.self _)))]
  refine Event.bind_eq_ok_iff.2 ⟨['a'], orText_eq_ok_iff.2 (faithful_json.string _ _ hid), ?_⟩
  refine Event.bind_eq_ok_iff.2 ⟨[kindFilter], ?_, rfl⟩
  exact Event.bind_eq_ok_iff.2 ⟨kindFilter, mapError_ok_iff.2 hfilter, rfl⟩

/-- One message that comes back, and one that does not. -/
theorem fromJson_toJson_iff_closeAndRequest :
    (fromJson jsonSerde (utf8Bytes closeText) = .ok (.close ['a']) ∧
      (fromJson jsonSerde (utf8Bytes ((NostrMessage.close ['a']).toJson jsonOut)) = .ok (.close ['a']) ↔
        (NostrMessage.close ['a']).flat = true)) ∧
    fromJson jsonSerde (utf8Bytes requestText) = .ok (.request ['a'] [kindFilter]) ∧
      (fromJson jsonSerde (utf8Bytes ((NostrMessage.request ['a'] [kindFilter]).toJson jsonOut)) =
          .ok (.request ['a'] [kindFilter]) ↔ (NostrMessage.request ['a'] [kindFilter]).flat = true) := by
  have htext : closeText = "[\"CLOSE\",".toList ++ jsonOut.jsonStr ['a'] ++ "]".toList := by decide
  have hclose : fromJson jsonSerde (utf8Bytes closeText) = .ok (.close ['a']) := by
    rw [htext]
    exact fromJson_text faithful_json "CLOSE".toList rfl (Json.plain_of_all (by decide)) (fun _ => rfl) ['a']
  exact ⟨⟨hclose, fromJson_toJson_iff jsonSerde jsonOut readContent faithful_json closeText _ hclose⟩,
    fromJson_requestText,
    fromJson_toJson_iff jsonSerde jsonOut readContent faithful_json requestText _ fromJson_requestText⟩

/-- A request with one filter is read, written with a bracket more, and refused. -/
theorem request_refused :
    fromJson jsonSerde (utf8Bytes "[\"REQ\",\"a\",\x7b\"kinds\":[1]\x7d]".toList) =
        .ok (.request ['a'] [kindFilter]) ∧
      toJson jsonOut (.request ['a'] [kindFilter]) = "[\"REQ\",\"a\",[\x7b\"kinds\":[1]\x7d]]".toList ∧
      fromJson jsonSerde (utf8Bytes (toJson jsonOut (.request ['a'] [kindFilter]))) ≠
          .ok (.request ['a'] [kindFilter]) :=
  ⟨fromJson_requestText, by decide, fromJson_request_ne faithful_json (by simpa using wire_kindFilter) _⟩

end NostrMessage

end Memlay
