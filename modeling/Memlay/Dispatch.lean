import Memlay.MessageRoundTrip

/-!
# Dispatch by message type (`src/relay.rs`)

`handle_socket` looks at the first string of a frame before it decides what to do, by
scanning characters.  The parser reads the same string out of the parsed array.

    from_json(text) = Ok(m)  →  message_type(text) = Some(tag of m)        (`messageType_eq_tag`)

Nothing is assumed of serde_json beyond what it accepts: an array is brackets around
elements with commas between them and JSON's white space, and a string is borrowed only
where its token is the text itself between quotes (`Strict`).  The scan skips more than
JSON's white space, and stops at the first quote whatever stands before it.
-/

namespace Memlay

open Json (Body IsSpace Padded Plain utf8Bytes)

/-! ## The scan -/

/-- `char::is_whitespace` -/
def isWhitespace (c : Char) : Bool :=
  (9 ≤ c.toNat && c.toNat ≤ 13) || c.toNat == 32 || c.toNat == 0x85 || c.toNat == 0xA0 || c.toNat == 0x1680 ||
    (0x2000 ≤ c.toNat && c.toNat ≤ 0x200A) || c.toNat == 0x2028 || c.toNat == 0x2029 || c.toNat == 0x202F ||
    c.toNat == 0x205F || c.toNat == 0x3000

/-- `str::trim_start` -/
def trimStart (s : Str) : Str := s.dropWhile isWhitespace

/-- `str::strip_prefix` of one character -/
def stripChar (c : Char) : Str → Option Str
  | [] => none
  | d :: s => if d = c then some s else none

/-- The text before the first quote, if there is one. -/
def beforeQuote (s : Str) : Option Str := if '"' ∈ s then some (s.takeWhile fun c => c ≠ '"') else none

/-- The first array element of a frame, without a parse. -/
def messageType (text : Str) : Option Str := do
  let s ← stripChar '[' (trimStart text)
  let s ← stripChar '"' (trimStart s)
  beforeQuote s

/-- How each message names its type. -/
def NostrMessage.tag : NostrMessage → Str
  | .event _ _ => "EVENT".toList
  | .request _ _ => "REQ".toList
  | .close _ => "CLOSE".toList
  | .endOfStoredEvents _ => "EOSE".toList
  | .notification _ => "NOTICE".toList
  | .ok _ _ _ => "OK".toList
  | .closed _ _ => "CLOSED".toList

theorem isWhitespace_of_isSpace {c : Char} (h : IsSpace c) : isWhitespace c = true := by
  rcases h with rfl | rfl | rfl | rfl <;> decide

theorem trimStart_append {pre : Str} (h : ∀ c ∈ pre, IsSpace c) {c : Char} (hc : isWhitespace c = false)
    (rest : Str) :
    trimStart (pre ++ c :: rest) = c :: rest := by
  unfold trimStart
  rw [List.dropWhile_append_of_pos fun d hd => isWhitespace_of_isSpace (h d hd)]
  exact List.dropWhile_cons_of_neg (by rw [hc]; exact Bool.false_ne_true)

theorem beforeQuote_append {s : Str} (h : ∀ c ∈ s, Plain c) (rest : Str) :
    beforeQuote (s ++ '"' :: rest) = some s := by
  unfold beforeQuote
  rw [if_pos (by simp), List.takeWhile_append_of_pos fun c hc => decide_eq_true (h c hc).1]
  simp

/-- White space, a bracket, white space and a plain string: the scan finds the string. -/
theorem messageType_eq {pre mid s : Str} (hpre : ∀ c ∈ pre, IsSpace c) (hmid : ∀ c ∈ mid, IsSpace c)
    (hs : ∀ c ∈ s, Plain c) (rest : Str) :
    messageType (pre ++ '[' :: (mid ++ '"' :: (s ++ '"' :: rest))) = some s := by
  unfold messageType
  rw [trimStart_append hpre (by decide)]
  show (stripChar '"' (trimStart (mid ++ '"' :: (s ++ '"' :: rest)))).bind beforeQuote = some s
  rw [trimStart_append hmid (by decide)]
  exact beforeQuote_append hs rest

/-! ## The parser -/

/-- What serde_json accepts as an array of raw values and as a borrowed text. -/
structure Strict (x : Serde) : Prop where
  /-- an array that is read stands between brackets, with commas between its elements -/
  array : ∀ text items, x.rawArray (utf8Bytes text) = .ok items →
    ∃ vs inner, items = vs.map utf8Bytes ∧ Body vs inner ∧ Padded ('[' :: (inner ++ [']'])) text
  /-- a text is borrowed from between its quotes, and not where it has escapes -/
  borrowed : ∀ v s, x.borrowedStr (utf8Bytes v) = .ok s → Padded ('"' :: (s ++ ['"'])) v ∧ ∀ c ∈ s, Plain c

namespace NostrMessage

/-- The type the parser matched on is the type of what it returns. -/
theorem ofType_tag {x : Serde} {msgType : Str} {args : List Bytes} {m : NostrMessage}
    (h : ofType x msgType args = .ok m) : msgType = m.tag := by
  rcases ofType_cases h with ⟨htag, hev⟩ | ⟨htag, _, _, _, rfl, -⟩ | ⟨htag, _, rfl⟩ | ⟨htag, _, rfl⟩ |
    ⟨htag, _, rfl⟩ | ⟨htag, _, _, _, rfl⟩
  · obtain ⟨_, _, _, -, -, rfl⟩ := eventOf_eq_ok_iff.1 hev
    exact htag
  all_goals exact htag

/-- Where the first element of an array stands. -/
theorem text_of_array {vs : List Str} {v inner text : Str} (hb : Body (v :: vs) inner)
    (hp : Padded ('[' :: (inner ++ [']'])) text) :
    ∃ pre mid rest, (∀ c ∈ pre, IsSpace c) ∧ (∀ c ∈ mid, IsSpace c) ∧
        text = pre ++ '[' :: (mid ++ (v ++ rest)) := by
  obtain ⟨pre, post, hpre, -, rfl⟩ := hp
  rcases hb with ⟨hnil, -⟩ | helem
  · cases hnil
  · obtain ⟨w, rest, ⟨mid, post', hmid, -, rfl⟩, rfl⟩ := helem.head rfl
    refine ⟨pre, mid, post' ++ (rest ++ ']' :: post), hpre, hmid, ?_⟩
    simp only [List.cons_append, List.append_assoc, List.nil_append]

/-- Whatever text the parser takes, the scan names the message it returns. -/
theorem messageType_eq_tag (x : Serde) (hx : Strict x) (text : Str) (m : NostrMessage)
    (hm : fromJson x (utf8Bytes text) = .ok m) : messageType text = some m.tag := by
  obtain ⟨head, args, msgType, harr, htype, hof⟩ := fromJson_eq_ok_iff.1 hm
  obtain ⟨vs, inner, hitems, hbody, hpad⟩ := hx.array text _ harr
  cases vs with
  | nil => cases hitems
  | cons v vs =>
    obtain ⟨rfl, rfl⟩ := List.cons.inj hitems
    obtain ⟨pre, mid, rest, hpre, hmid, rfl⟩ := text_of_array hbody hpad
    obtain ⟨⟨pre', post', hpre', -, rfl⟩, hplain⟩ := hx.borrowed v msgType htype
    -- the white space around the element and in its own text is one run
    have hspace : ∀ c ∈ mid ++ pre', IsSpace c := List.forall_mem_append.2 ⟨hmid, hpre'⟩
    have hscan := messageType_eq hpre hspace hplain (post' ++ rest)
    simp only [List.cons_append, List.append_assoc, List.nil_append] at hscan ⊢
    rw [hscan, ofType_tag hof]

/-! ## The reader of JSON -/

theorem strict_json : Strict jsonSerde where
  array text items h := by
    obtain ⟨vs, hvs, rfl⟩ := map_ok_iff.1 h
    rw [Json.fromUtf8Lossy_utf8Bytes] at hvs
    obtain ⟨inner, hbody, hpad⟩ := Json.of_readGroup (orRefused_eq_ok_iff.1 hvs)
    exact ⟨vs, inner, rfl, hbody, hpad⟩
  borrowed v s h := by
    have hborrow := orRefused_eq_ok_iff.1 h
    rw [Json.fromUtf8Lossy_utf8Bytes] at hborrow
    unfold borrow at hborrow
    split at hborrow
    · cases hborrow
    · rename_i hno
      obtain ⟨rfl, hplain⟩ := Json.of_readString hno hborrow
      exact ⟨.self _, hplain⟩

/-- A `CLOSE` with white space wherever JSON allows it. -/
def spacedClose : Str := "\n[ \"CLOSE\"\t,\"a\" ] ".toList

theorem arrayOf_spacedClose :
    Json.ArrayOf ['"' :: ("CLOSE".toList ++ ['"']), '"' :: (['a'] ++ ['"'])] spacedClose := by
  have hspace : ∀ {t : Str}, t.all (fun c => decide (IsSpace c)) = true → ∀ c ∈ t, IsSpace c :=
    fun h c hc => of_decide_eq_true (List.all_eq_true.1 h c hc)
  have hfirst : Padded ('"' :: ("CLOSE".toList ++ ['"'])) " \"CLOSE\"\t".toList :=
    ⟨[' '], ['\t'], hspace (by decide), hspace (by decide), by decide⟩
  have hsecond : Padded ('"' :: (['a'] ++ ['"'])) "\"a\" ".toList :=
    ⟨[], [' '], hspace (by decide), hspace (by decide), by decide⟩
  refine ⟨?_, _, Or.inr (.cons hfirst (.one hsecond)), ['\n'], [' '], hspace (by decide),
      hspace (by decide), by decide⟩
  intro v hv
  rcases List.mem_pair.1 hv with rfl | rfl
  · exact .string (Json.stringOf_plain (Json.plain_of_all (by decide)))
  · exact .string (Json.stringOf_plain (Json.plain_of_all (by decide)))

theorem messageType_eq_tag_spacedClose : fromJson jsonSerde (utf8Bytes spacedClose) = .ok (.close ['a']) ∧
    messageType spacedClose = some (NostrMessage.close ['a']).tag := by
  have hclose : fromJson jsonSerde (utf8Bytes spacedClose) = .ok (.close ['a']) := by
    rw [fromJson_arrayOf faithful_json (Json.plain_of_all (by decide)) arrayOf_spacedClose]
    show (orText (jsonSerde.string (utf8Bytes ('"' :: (['a'] ++ ['"'])))) "Invalid subscription ID").map close = _
    rw [faithful_json.string _ ['a'] (Json.stringOf_plain (Json.plain_of_all (by decide)))]
    rfl
  exact ⟨hclose, messageType_eq_tag jsonSerde strict_json spacedClose _ hclose⟩

end NostrMessage
end Memlay
