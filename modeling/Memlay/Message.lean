import Memlay.Filter
import Memlay.Lib.Json

/-!
# Messages (`src/message.rs`)

The parser of client frames and the writer of the relay's.  The elements of the outer
array keep their own text, so the event of an `EVENT` message is parsed from the bytes
the client sent.
-/

namespace Memlay

/-- The functions of serde_json that only the message parser calls. -/
structure Serde extends Ext where
  /-- `serde_json::from_str::<String>` -/
  string : Bytes → Except Str Str
  /-- `serde_json::from_str::<bool>` -/
  bool : Bytes → Except Str Bool
  /-- `serde_json::from_str::<Filter>` -/
  filter : Bytes → Except Str Filter

inductive NostrMessage where
  | event (subId : Option Str) (event : Event)
  | request (id : Str) (filters : List Filter)
  | close (id : Str)
  | endOfStoredEvents (id : Str)
  | notification (message : Str)
  | ok (id : Str) (accepted : Bool) (message : Str)
  | closed (id : Str) (message : Str)

namespace NostrMessage

/-- The library's error is replaced by a text. -/
def orText {α : Type} (y : Except Str α) (text : String) : Except Str α := y.mapError fun _ => text.toList

/-- The filters of a `REQ`, up to the first that does not parse. -/
def filtersOf (x : Serde) : List Bytes → Except Str (List Filter)
  | [] => .ok []
  | json :: rest => do
    let filter ← (x.filter json).mapError fun err => "Invalid filter: ".toList ++ err
    let filters ← filtersOf x rest
    return filter :: filters

/-- The messages whose one argument is a text. -/
def textOf (x : Serde) (missing invalid : String) (message : Str → NostrMessage) :
    List Bytes → Except Str NostrMessage
  | [] => .error missing.toList
  | json :: _ => (orText (x.string json) invalid).map message

def eventOf (x : Serde) : List Bytes → Except Str NostrMessage
  | [] => .error "Missing event data".toList
  | json :: _ => ((Event.fromJson x.toExt json).mapError EventParseError.text).map (.event none)

def requestOf (x : Serde) : List Bytes → Except Str NostrMessage
  | id :: filter :: filters => do
    let id ← orText (x.string id) "Missing subscription ID"
    let filters ← filtersOf x (filter :: filters)
    return .request id filters
  | _ => .error "Missing filters".toList

def okOf (x : Serde) : List Bytes → Except Str NostrMessage
  | id :: accepted :: message :: _ => do
    let id ← orText (x.string id) "Invalid OK id"
    let accepted ← orText (x.bool accepted) "Invalid OK accepted field"
    let message ← orText (x.string message) "Invalid OK message"
    return .ok id accepted message
  | _ => .error "Missing OK fields".toList

/-- The arms of the match on the message type. -/
def ofType (x : Serde) (msgType : Str) (args : List Bytes) : Except Str NostrMessage :=
  if msgType = "EVENT".toList then eventOf x args
  else if msgType = "REQ".toList then requestOf x args
  else if msgType = "CLOSE".toList then
    textOf x "Missing subscription ID" "Invalid subscription ID" .close args
  else if msgType = "EOSE".toList then textOf x "Missing EOSE id" "Invalid EOSE id" .endOfStoredEvents args
  else if msgType = "NOTICE".toList then
    textOf x "Missing notice message" "Invalid notice message" .notification args
  else if msgType = "OK".toList then okOf x args
  else .error ("Unknown message type: ".toList ++ msgType)

def fromJson (x : Serde) (json : Bytes) : Except Str NostrMessage := do
  match ← (x.rawArray json).mapError fun err => "JSON parse error: ".toList ++ err with
  | [] => throw "Empty array".toList
  | head :: args => ofType x (← orText (x.borrowedStr head) "Invalid message type") args

theorem orText_eq_ok_iff {α : Type} {y : Except Str α} {text : String} {a : α} :
    orText y text = .ok a ↔ y = .ok a := by
  cases y <;> simp [orText, Except.mapError]

theorem mapError_ok_iff {ε ε' α : Type} {y : Except ε α} {f : ε → ε'} {a : α} :
    y.mapError f = .ok a ↔ y = .ok a := by
  cases y <;> simp [Except.mapError]

theorem map_ok_iff {ε α β : Type} {y : Except ε α} {f : α → β} {b : β} :
    y.map f = .ok b ↔ ∃ a, y = .ok a ∧ f a = b := by
  cases y <;> simp [Except.map]

/-! ### What each arm returns -/

section
variable {x : Serde} {args : List Bytes} {m : NostrMessage}

theorem eventOf_eq_ok_iff : eventOf x args = .ok m ↔
    ∃ data more e, args = data :: more ∧ Event.fromJson x.toExt data = .ok e ∧ m = .event none e := by
  constructor
  · intro h
    cases args with
    | nil => cases h
    | cons data more =>
      obtain ⟨e, he, rfl⟩ := map_ok_iff.1 h
      exact ⟨data, more, e, rfl, mapError_ok_iff.1 he, rfl⟩
  · rintro ⟨data, more, e, rfl, he, rfl⟩
    exact map_ok_iff.2 ⟨e, mapError_ok_iff.2 he, rfl⟩

theorem of_textOf {missing invalid : String} {message : Str → NostrMessage}
    (h : textOf x missing invalid message args = .ok m) : ∃ t, m = message t := by
  cases args with
  | nil => cases h
  | cons json more =>
    obtain ⟨t, -, ht⟩ := map_ok_iff.1 h
    exact ⟨t, ht.symm⟩

theorem of_requestOf (h : requestOf x args = .ok m) :
    ∃ id filters jsons, m = .request id filters ∧ filtersOf x jsons = .ok filters := by
  unfold requestOf at h
  split at h
  · obtain ⟨id, -, h⟩ := Event.bind_eq_ok_iff.1 h
    obtain ⟨filters, hf, h⟩ := Event.bind_eq_ok_iff.1 h
    cases h
    exact ⟨id, filters, _, rfl, hf⟩
  · cases h

theorem of_okOf (h : okOf x args = .ok m) : ∃ id accepted message, m = .ok id accepted message := by
  unfold okOf at h
  split at h
  · obtain ⟨id, -, h⟩ := Event.bind_eq_ok_iff.1 h
    obtain ⟨accepted, -, h⟩ := Event.bind_eq_ok_iff.1 h
    obtain ⟨message, -, h⟩ := Event.bind_eq_ok_iff.1 h
    cases h
    exact ⟨id, accepted, message, rfl⟩
  · cases h

end

/-- What a message type can return. -/
theorem ofType_cases {x : Serde} {msgType : Str} {args : List Bytes} {m : NostrMessage}
    (h : ofType x msgType args = .ok m) :
    (msgType = "EVENT".toList ∧ eventOf x args = .ok m) ∨
      (msgType = "REQ".toList ∧ ∃ id filters jsons, m = .request id filters ∧ filtersOf x jsons = .ok filters) ∨
      (msgType = "CLOSE".toList ∧ ∃ id, m = .close id) ∨
      (msgType = "EOSE".toList ∧ ∃ id, m = .endOfStoredEvents id) ∨
      (msgType = "NOTICE".toList ∧ ∃ message, m = .notification message) ∨
      (msgType = "OK".toList ∧ ∃ id accepted message, m = .ok id accepted message) := by
  unfold ofType at h
  split_ifs at h with h₁ h₂ h₃ h₄ h₅ h₆
  · exact .inl ⟨h₁, h⟩
  · exact .inr (.inl ⟨h₂, of_requestOf h⟩)
  · exact .inr (.inr (.inl ⟨h₃, of_textOf h⟩))
  · exact .inr (.inr (.inr (.inl ⟨h₄, of_textOf h⟩)))
  · exact .inr (.inr (.inr (.inr (.inl ⟨h₅, of_textOf h⟩))))
  · exact .inr (.inr (.inr (.inr (.inr ⟨h₆, of_okOf h⟩))))

/-- Only the `EVENT` arm returns an event, and it is the first argument, verified. -/
theorem ofType_eq_event_iff {x : Serde} {msgType : Str} {args : List Bytes} {subId : Option Str}
    {e : Event} : ofType x msgType args = .ok (.event subId e) ↔
      subId = none ∧ msgType = "EVENT".toList ∧
        ∃ data more, args = data :: more ∧ Event.fromJson x.toExt data = .ok e := by
  constructor
  · intro h
    rcases ofType_cases h with ⟨htag, h⟩ | ⟨-, _, _, _, h, -⟩ | ⟨-, _, h⟩ | ⟨-, _, h⟩ | ⟨-, _, h⟩ | ⟨-, _, _, _, h⟩
    · obtain ⟨data, more, e', hargs, he, hm⟩ := eventOf_eq_ok_iff.1 h
      cases hm
      exact ⟨rfl, htag, data, more, hargs, he⟩
    all_goals cases h
  · rintro ⟨rfl, htag, data, more, hargs, he⟩
    unfold ofType
    rw [if_pos htag]
    exact eventOf_eq_ok_iff.2 ⟨data, more, e, hargs, he, rfl⟩

/-- The parser takes the array apart and reads its type. -/
theorem fromJson_eq_ok_iff {x : Serde} {json : Bytes} {m : NostrMessage} :
    fromJson x json = .ok m ↔ ∃ head args msgType, x.rawArray json = .ok (head :: args) ∧
      x.borrowedStr head = .ok msgType ∧ ofType x msgType args = .ok m := by
  unfold fromJson
  rw [Event.bind_eq_ok_iff]
  constructor
  · rintro ⟨arr, harr, h⟩
    cases arr with
    | nil => cases h
    | cons head args =>
      obtain ⟨msgType, htype, h⟩ := Event.bind_eq_ok_iff.1 h
      exact ⟨head, args, msgType, mapError_ok_iff.1 harr, orText_eq_ok_iff.1 htype, h⟩
  · rintro ⟨head, args, msgType, harr, htype, h⟩
    exact ⟨head :: args, mapError_ok_iff.2 harr, Event.bind_eq_ok_iff.2 ⟨msgType, orText_eq_ok_iff.2 htype, h⟩⟩

/-- The event of an `EVENT` message is an element of the array, verified. -/
theorem fromJson_eq_event_iff {x : Serde} {json : Bytes} {subId : Option Str} {e : Event} :
    fromJson x json = .ok (.event subId e) ↔
      subId = none ∧ ∃ head data more, x.rawArray json = .ok (head :: data :: more) ∧
        x.borrowedStr head = .ok "EVENT".toList ∧ Event.fromJson x.toExt data = .ok e := by
  rw [fromJson_eq_ok_iff]
  constructor
  · rintro ⟨head, args, msgType, harr, htype, h⟩
    obtain ⟨hsub, rfl, data, more, rfl, hev⟩ := ofType_eq_event_iff.1 h
    exact ⟨hsub, head, data, more, harr, htype, hev⟩
  · rintro ⟨hsub, head, data, more, harr, htype, hev⟩
    exact ⟨head, data :: more, _, harr, htype, ofType_eq_event_iff.2 ⟨hsub, rfl, data, more, rfl, hev⟩⟩

end NostrMessage

/-! ## Writing -/

/-- The functions of serde_json that write; `none` is an error. -/
structure SerdeOut where
  /-- `serde_json::to_string` of a text -/
  string : Str → Option Str
  /-- `serde_json::to_string` of a list of filters -/
  filters : List Filter → Option Str

def SerdeOut.jsonStr (x : SerdeOut) (s : Str) : Str := (x.string s).getD "\"\"".toList

def NostrMessage.toJson (x : SerdeOut) : NostrMessage → Str
  | .event (some id) e => "[\"EVENT\",\"".toList ++ id ++ "\",".toList ++ Json.fromUtf8Lossy e.raw ++ "]".toList
  | .event none e => Json.fromUtf8Lossy e.raw
  | .request id filters => "[\"REQ\",".toList ++ x.jsonStr id ++ ",".toList ++
      (x.filters filters).getD [] ++ "]".toList
  | .close id => "[\"CLOSE\",".toList ++ x.jsonStr id ++ "]".toList
  | .endOfStoredEvents id => "[\"EOSE\",".toList ++ x.jsonStr id ++ "]".toList
  | .notification message => "[\"NOTICE\",".toList ++ x.jsonStr message ++ "]".toList
  | .ok id accepted message =>
    "[\"OK\",".toList ++ x.jsonStr id ++ ",".toList ++ (if accepted then "true" else "false").toList ++
        ",".toList ++
      x.jsonStr message ++ "]".toList
  | .closed id message => "[\"CLOSED\",".toList ++ x.jsonStr id ++ ",".toList ++ x.jsonStr message ++ "]".toList
end Memlay
