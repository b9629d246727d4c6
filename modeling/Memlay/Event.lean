import Mathlib.Data.List.Basic
import Mathlib.Tactic.Ring
import Mathlib.Tactic.NormNum

/-!
# Events (`src/event.rs`)

An event with its parsed fields and the raw bytes it was parsed from, the two
parsers (`fromJsonUnchecked`, `fromJson`) and the replacement key.

`[u8; 32]` is a `BitVec 256` read big-endian, so `<` on it is Rust's
lexicographic order on the array.  A `String` is its list of characters, a byte
slice its list of bytes.  serde_json, SHA-256 and secp256k1 are not part of the
repository: the functions of theirs that the code calls are the fields of
`Ext`, and every parser takes them as an argument.
-/

namespace Memlay

abbrev Bytes := List UInt8
abbrev Str := List Char

/-- One name for what membership in lists of texts rests on. -/
instance : LawfulBEq Str := inferInstance

/-- `[u8; 32]`, big-endian. -/
abbrev Bytes32 := BitVec 256
/-- `[u8; 64]`, big-endian. -/
abbrev Bytes64 := BitVec 512

/-- Bytes of an ASCII text. -/
def ascii (s : String) : Bytes := s.toList.map fun c => UInt8.ofNat c.toNat

/-! ## Hex -/

def hexVal (c : Char) : Option Nat :=
  if '0' ≤ c ∧ c ≤ '9' then some (c.toNat - 48)
  else if 'a' ≤ c ∧ c ≤ 'f' then some (c.toNat - 87)
  else if 'A' ≤ c ∧ c ≤ 'F' then some (c.toNat - 55)
  else none

/-- Big-endian value of a string of hex digits, after the digits read so far. -/
def hexFold (acc : Nat) : Str → Option Nat
  | [] => some acc
  | c :: cs =>
    match hexVal c with
    | some d => hexFold (16 * acc + d) cs
    | none => none

/-- `str::len`: bytes of the UTF-8 encoding. -/
def byteLen (s : Str) : Nat := (s.map Char.utf8Size).sum

/-- `from_hex` into an `n`-byte array, after the length check of its callers. -/
def parseHex (n : Nat) (s : Str) : Option (BitVec (8 * n)) :=
  if byteLen s ≠ 2 * n then none
  else (hexFold 0 s).map (BitVec.ofNat (8 * n))

def parseHex32 (s : Str) : Option Bytes32 := parseHex 32 s

def parseHex64 (s : Str) : Option Bytes64 := parseHex 64 s

def hexDigit (d : Nat) : Char := if d < 10 then Char.ofNat (48 + d) else Char.ofNat (87 + d)

/-- The `n` lowest hex digits of `v`, most significant first. -/
def hexDigits : Nat → Nat → Str
  | 0, _ => []
  | n + 1, v => hexDigits n (v / 16) ++ [hexDigit (v % 16)]

/-- `hex::encode` of a 32-byte array. -/
def hexEncode (id : Bytes32) : Str := hexDigits 64 id.toNat

theorem hexVal_hexDigit {d : Nat} (h : d < 16) : hexVal (hexDigit d) = some d := by
  have : ∀ d : Fin 16, hexVal (hexDigit d.val) = some d.val := by decide
  exact this ⟨d, h⟩

theorem utf8Size_hexDigit {d : Nat} (h : d < 16) : (hexDigit d).utf8Size = 1 := by
  have : ∀ d : Fin 16, (hexDigit d.val).utf8Size = 1 := by decide
  exact this ⟨d, h⟩

theorem hexFold_append (acc : Nat) (xs ys : Str) :
    hexFold acc (xs ++ ys) = (hexFold acc xs).bind fun a => hexFold a ys := by
  induction xs generalizing acc with
  | nil => rfl
  | cons c cs ih =>
    simp only [List.cons_append, hexFold]
    cases hexVal c with
    | none => rfl
    | some d => exact ih _

theorem hexFold_hexDigits (n v : Nat) : hexFold 0 (hexDigits n v) = some (v % 16 ^ n) := by
  induction n generalizing v with
  | zero => simp [hexDigits, hexFold, Nat.mod_one]
  | succ n ih =>
    rw [hexDigits, hexFold_append, ih]
    simp only [Option.bind_some, hexFold, hexVal_hexDigit (Nat.mod_lt v (by omega : 0 < 16))]
    rw [show (16 : Nat) ^ (n + 1) = 16 * 16 ^ n by ring, Nat.mod_mul]
    congr 1
    ring

theorem byteLen_hexDigits (n v : Nat) : byteLen (hexDigits n v) = n := by
  induction n generalizing v with
  | zero => rfl
  | succ n ih =>
    have := ih (v / 16)
    unfold byteLen at this ⊢
    rw [hexDigits, List.map_append, List.sum_append, this]
    simp [utf8Size_hexDigit (Nat.mod_lt v (by omega : 0 < 16))]

theorem length_hexDigits (n v : Nat) : (hexDigits n v).length = n := by
  induction n generalizing v with
  | zero => rfl
  | succ n ih => rw [hexDigits, List.length_append, ih, List.length_singleton]

theorem parseHex_hexDigits {n : Nat} (v : BitVec (8 * n)) :
    parseHex n (hexDigits (2 * n) v.toNat) = some v := by
  unfold parseHex
  rw [if_neg (by rw [byteLen_hexDigits]; omega), hexFold_hexDigits]
  have hpow : (16 : Nat) ^ (2 * n) = 2 ^ (8 * n) := by
    rw [show (16 : Nat) = 2 ^ 4 by norm_num, ← Nat.pow_mul]
    congr 1
    omega
  rw [hpow, Nat.mod_eq_of_lt v.isLt, Option.map_some, BitVec.ofNat_toNat, BitVec.setWidth_eq]

theorem parseHex32_hexEncode (id : Bytes32) : parseHex32 (hexEncode id) = some id :=
  parseHex_hexDigits (n := 32) id

/-- 64 hex digits, of either case. -/
def IsHex64 (v : Str) : Prop := v.length = 64 ∧ ∀ c ∈ v, (hexVal c).isSome = true

theorem hexVal_hexDigits (n v : Nat) : ∀ c ∈ hexDigits n v, (hexVal c).isSome = true := by
  induction n generalizing v with
  | zero => exact fun c hc => absurd hc List.not_mem_nil
  | succ n ih =>
    intro c hc
    rcases List.mem_append.1 hc with hc | hc
    · exact ih (v / 16) c hc
    · rw [List.mem_singleton.1 hc, hexVal_hexDigit (Nat.mod_lt v (by omega : 0 < 16))]
      rfl

theorem isHex64_hexEncode (id : Bytes32) : IsHex64 (hexEncode id) :=
  ⟨length_hexDigits 64 id.toNat, hexVal_hexDigits 64 id.toNat⟩

theorem range_of_hexVal {c : Char} (h : (hexVal c).isSome = true) : '0' ≤ c ∧ c ≤ 'f' := by
  unfold hexVal at h
  split at h
  · rename_i hc
    exact ⟨hc.1, Char.le_trans hc.2 (by decide)⟩
  · split at h
    · rename_i hc
      exact ⟨Char.le_trans (by decide) hc.1, hc.2⟩
    · split at h
      · rename_i hc
        exact ⟨Char.le_trans (by decide) hc.1, Char.le_trans hc.2 (by decide)⟩
      · cases h

theorem utf8Size_of_hexVal {c : Char} (h : (hexVal c).isSome = true) : c.utf8Size = 1 := by
  have hval : c.val ≤ 0x7f := UInt32.le_trans (Char.le_def.1 (range_of_hexVal h).2) (by decide)
  exact if_pos hval

theorem exists_parseHex32 {v : Str} (h : IsHex64 v) : ∃ q, parseHex32 v = some q := by
  have hlen : byteLen v = v.length := by
    have hone : v.map Char.utf8Size = v.map fun _ => 1 :=
      List.map_congr_left fun c hc => utf8Size_of_hexVal (h.2 c hc)
    unfold byteLen
    rw [hone]
    simp
  have hfold : ∀ (cs : Str) (acc : Nat), (∀ c ∈ cs, (hexVal c).isSome = true) → ∃ n, hexFold acc cs = some n := by
    intro cs
    induction cs with
    | nil => exact fun acc _ => ⟨acc, rfl⟩
    | cons c cs ih =>
      intro acc hcs
      obtain ⟨d, hd⟩ := Option.isSome_iff_exists.1 (hcs c (by simp))
      simp only [hexFold, hd]
      exact ih _ fun c' hc' => hcs c' (List.mem_cons_of_mem c hc')
  obtain ⟨n, hn⟩ := hfold v 0 h.2
  unfold parseHex32 parseHex
  rw [if_neg (by rw [hlen, h.1]; omega), hn]
  exact ⟨_, rfl⟩

/-! ## Events -/

/-- First element is the tag type (`e`, `p`, `t`, …), the rest are values. -/
structure Tag where
  name : Str
  values : List Str
deriving DecidableEq, Repr

def Tag.value (t : Tag) : Option Str := t.values.head?

structure Event where
  id : Bytes32
  pubkey : Bytes32
  createdAt : Nat
  kind : Nat
  tags : List Tag
  content : Str
  sig : Bytes64
  /-- the JSON text the event was parsed from -/
  raw : Bytes
deriving DecidableEq, Repr

/-- Key used to identify replaceable events. -/
inductive ReplacementKey where
  | none
  | replaceable (pubkey : Bytes32) (kind : Nat)
  | addressable (pubkey : Bytes32) (kind : Nat) (dTag : Str)
deriving DecidableEq, Repr

namespace Event

/-- Values of the tags called `name` that parse as 32-byte hex. -/
def hexTags (name : Str) (e : Event) : List Bytes32 :=
  e.tags.filterMap fun tag => if tag.name = name then tag.value.bind parseHex32 else .none

def eTags (e : Event) : List Bytes32 := e.hexTags ['e']

def pTags (e : Event) : List Bytes32 := e.hexTags ['p']

def isEphemeral (e : Event) : Bool := decide (20000 ≤ e.kind) && decide (e.kind < 30000)

def isReplaceable (e : Event) : Bool :=
  (decide (10000 ≤ e.kind) && decide (e.kind < 20000)) ||
    (decide (30000 ≤ e.kind) && decide (e.kind < 40000))

def isAddressable (e : Event) : Bool := decide (30000 ≤ e.kind) && decide (e.kind < 40000)

def dTag (e : Event) : Option Str :=
  if !e.isAddressable then .none
  else e.tags.findSome? fun tag => if tag.name = ['d'] then tag.value else .none

def replacementKey (e : Event) : ReplacementKey :=
  if e.isAddressable then
    match e.dTag with
    | some d => .addressable e.pubkey e.kind d
    | .none => .replaceable e.pubkey e.kind
  else if e.isReplaceable then .replaceable e.pubkey e.kind
  else .none

theorem isReplaceable_of_isAddressable {e : Event} (h : e.isAddressable = true) :
    e.isReplaceable = true := by
  unfold isAddressable at h
  unfold isReplaceable
  rw [h, Bool.or_true]

/-- An event has a replacement key exactly when its kind is replaceable. -/
theorem replacementKey_eq_none_iff (e : Event) :
    e.replacementKey = .none ↔ e.isReplaceable = false := by
  unfold replacementKey
  by_cases ha : e.isAddressable = true
  · rw [if_pos ha, isReplaceable_of_isAddressable ha]
    cases e.dTag <;> simp
  · rw [if_neg ha]
    by_cases hr : e.isReplaceable = true
    · simp [hr]
    · simp [hr]

theorem isReplaceable_eq_of_key {a b : Event} (h : a.replacementKey = b.replacementKey) :
    a.isReplaceable = b.isReplaceable := by
  cases ha : a.isReplaceable with
  | false =>
    rw [← replacementKey_eq_none_iff, h, replacementKey_eq_none_iff] at ha
    exact ha.symm
  | true =>
    cases hb : b.isReplaceable with
    | true => rfl
    | false =>
      rw [← replacementKey_eq_none_iff, ← h, replacementKey_eq_none_iff, ha] at hb
      cases hb

/-- NIP-01: the newer version wins, a tie goes to the smaller id.  It is also
`EventRef`'s order, newest first. -/
def Beats (e old : Event) : Prop :=
  old.createdAt < e.createdAt ∨ (e.createdAt = old.createdAt ∧ e.id < old.id)

instance (e old : Event) : Decidable (Beats e old) := inferInstanceAs (Decidable (_ ∨ _))

theorem Beats.irrefl (e : Event) : ¬ Beats e e := by
  rintro (h | ⟨-, h⟩)
  · omega
  · exact absurd h (BitVec.lt_irrefl _)

theorem Beats.trans {a b c : Event} (hab : Beats a b) (hbc : Beats b c) : Beats a c := by
  unfold Beats at *
  simp only [BitVec.lt_def] at *
  omega

theorem Beats.asymm {a b : Event} (hab : Beats a b) : ¬ Beats b a := fun hba =>
  Beats.irrefl a (hab.trans hba)

theorem Beats.ne_id {a b : Event} (h : Beats a b) (hid : a.id = b.id)
    (hc : a.createdAt = b.createdAt) : False := by
  unfold Beats at h
  simp only [BitVec.lt_def, hid] at h
  omega

/-- Two versions with different ids are always comparable. -/
theorem beats_or_beats {a b : Event} (h : a.id ≠ b.id) : Beats a b ∨ Beats b a := by
  have hn : a.id.toNat ≠ b.id.toNat := fun he => h (BitVec.eq_of_toNat_eq he)
  unfold Beats
  simp only [BitVec.lt_def]
  omega

/-- Same id, same parsed fields: what a collision-free id hash gives for two
events that both carry the hash of their fields.  `raw` and `sig` may differ. -/
structure SameFields (a b : Event) : Prop where
  pubkey : a.pubkey = b.pubkey
  createdAt : a.createdAt = b.createdAt
  kind : a.kind = b.kind
  tags : a.tags = b.tags
  content : a.content = b.content

theorem SameFields.replacementKey {a b : Event} (h : SameFields a b) :
    a.replacementKey = b.replacementKey := by
  unfold Event.replacementKey dTag isAddressable isReplaceable
  rw [h.kind, h.pubkey, h.tags]

theorem SameFields.isReplaceable {a b : Event} (h : SameFields a b) :
    a.isReplaceable = b.isReplaceable := by
  unfold Event.isReplaceable
  rw [h.kind]

end Event

/-! ## Parsing -/

/-- Raw JSON structure for parsing. -/
structure RawEvent where
  id : Str
  pubkey : Str
  createdAt : Nat
  kind : Nat
  tags : List (List Str)
  content : Str
  sig : Str
deriving DecidableEq, Repr

inductive EventParseError where
  | json (text : Str)
  | invalidId
  | invalidPubkey
  | invalidSignature
  | idMismatch
  | badSignature
deriving DecidableEq, Repr

def EventParseError.text : EventParseError → Str
  | .json t => "Invalid JSON: ".toList ++ t
  | .invalidId => "Invalid event id (expected 32-byte hex)".toList
  | .invalidPubkey => "Invalid pubkey (expected 32-byte hex)".toList
  | .invalidSignature => "Invalid signature (expected 64-byte hex)".toList
  | .idMismatch => "Event id does not match content hash".toList
  | .badSignature => "Signature verification failed".toList

/-- The library functions the relay calls on bytes it received. -/
structure Ext where
  /-- `serde_json::from_slice::<RawEvent>` -/
  rawEvent : Bytes → Except Str RawEvent
  /-- `serde_json::from_str::<Vec<&RawValue>>`: the elements' own text -/
  rawArray : Bytes → Except Str (List Bytes)
  /-- `serde_json::from_str::<&str>` -/
  borrowedStr : Bytes → Except Str Str
  /-- `serde_json::to_vec(&(0, pubkey, created_at, kind, tags, content))` -/
  toVec : Str → Nat → Nat → List (List Str) → Str → Except Str Bytes
  /-- `Sha256::digest` -/
  sha256 : Bytes → Bytes32
  /-- `XOnlyPublicKey::from_byte_array(..).is_ok()` -/
  xonly : Bytes32 → Bool
  /-- `verify_schnorr(sig, id, pubkey).is_ok()` -/
  verifySchnorr : Bytes64 → Bytes32 → Bytes32 → Bool

namespace Event

def tagOf (arr : List Str) : Option Tag :=
  match arr with
  | [] => none
  | name :: values => some ⟨name, values⟩

/-- The event built from the parsed JSON; both parsers return it. -/
def ofRaw (r : RawEvent) (id pubkey : Bytes32) (sig : Bytes64) (json : Bytes) : Event where
  id := id
  pubkey := pubkey
  createdAt := r.createdAt
  kind := r.kind
  tags := r.tags.filterMap tagOf
  content := r.content
  sig := sig
  raw := json

def orErr {α : Type} (o : Option α) (err : EventParseError) : Except EventParseError α :=
  match o with
  | some a => .ok a
  | none => .error err

/-- Parse without id and signature verification. -/
def fromJsonUnchecked (x : Ext) (json : Bytes) : Except EventParseError Event := do
  let r ← (x.rawEvent json).mapError .json
  let id ← orErr (parseHex32 r.id) .invalidId
  let pubkey ← orErr (parseHex32 r.pubkey) .invalidPubkey
  let sig ← orErr (parseHex64 r.sig) .invalidSignature
  return ofRaw r id pubkey sig json

/-- Parse and verify id and signature. -/
def fromJson (x : Ext) (json : Bytes) : Except EventParseError Event := do
  let r ← (x.rawEvent json).mapError .json
  let id ← orErr (parseHex32 r.id) .invalidId
  let pubkey ← orErr (parseHex32 r.pubkey) .invalidPubkey
  let sig ← orErr (parseHex64 r.sig) .invalidSignature
  let serialised ← (x.toVec r.pubkey r.createdAt r.kind r.tags r.content).mapError .json
  if x.sha256 serialised ≠ id then throw .idMismatch
  if !x.xonly pubkey then throw .invalidPubkey
  if !x.verifySchnorr sig id pubkey then throw .badSignature
  return ofRaw r id pubkey sig json

/-- What the verifying parser checks on top of the unchecked one. -/
def Verified (x : Ext) (r : RawEvent) (e : Event) : Prop :=
  ∃ s, x.toVec r.pubkey r.createdAt r.kind r.tags r.content = .ok s ∧ x.sha256 s = e.id ∧
    x.xonly e.pubkey = true ∧ x.verifySchnorr e.sig e.id e.pubkey = true

theorem orErr_eq_ok_iff {α : Type} {o : Option α} {err : EventParseError} {a : α} :
    orErr o err = .ok a ↔ o = some a := by
  cases o <;> simp [orErr]

theorem mapError_eq_ok_iff {α : Type} {y : Except Str α} {f : Str → EventParseError} {a : α} :
    y.mapError f = .ok a ↔ y = .ok a := by
  cases y <;> simp [Except.mapError]

theorem bind_eq_ok_iff {ε α β : Type} {y : Except ε α} {f : α → Except ε β} {b : β} :
    y >>= f = .ok b ↔ ∃ a, y = .ok a ∧ f a = .ok b := by
  cases y <;> simp [bind, Except.bind]

theorem fromJsonUnchecked_eq_ok_iff {x : Ext} {json : Bytes} {e : Event} :
    fromJsonUnchecked x json = .ok e ↔
      ∃ r id pubkey sig, x.rawEvent json = .ok r ∧ parseHex32 r.id = some id ∧
        parseHex32 r.pubkey = some pubkey ∧ parseHex64 r.sig = some sig ∧
        e = ofRaw r id pubkey sig json := by
  unfold fromJsonUnchecked
  simp only [bind_eq_ok_iff, mapError_eq_ok_iff, orErr_eq_ok_iff, pure, Except.pure,
    Except.ok.injEq]
  constructor
  · rintro ⟨r, hr, id, hid, pk, hpk, sig, hsig, rfl⟩
    exact ⟨r, id, pk, sig, hr, hid, hpk, hsig, rfl⟩
  · rintro ⟨r, id, pk, sig, hr, hid, hpk, hsig, rfl⟩
    exact ⟨r, hr, id, hid, pk, hpk, sig, hsig, rfl⟩

/-- The verifying parser accepts what the unchecked one does, verified. -/
theorem fromJson_eq_ok_iff {x : Ext} {json : Bytes} {e : Event} :
    fromJson x json = .ok e ↔
      fromJsonUnchecked x json = .ok e ∧ ∃ r, x.rawEvent json = .ok r ∧ Verified x r e := by
  rw [fromJsonUnchecked_eq_ok_iff]
  unfold fromJson Verified
  simp only [bind_eq_ok_iff, mapError_eq_ok_iff, orErr_eq_ok_iff]
  constructor
  · rintro ⟨r, hr, id, hid, pk, hpk, sig, hsig, s, hs, h⟩
    by_cases h1 : x.sha256 s = id
    · by_cases h2 : x.xonly pk = true
      · by_cases h3 : x.verifySchnorr sig id pk = true
        · simp [h1, h2, h3, pure, Except.pure] at h
          subst h
          exact ⟨⟨r, id, pk, sig, hr, hid, hpk, hsig, rfl⟩, r, hr, s, hs, h1, h2, h3⟩
        · simp [h1, h2, h3, throw, throwThe, MonadExceptOf.throw, bind, Except.bind] at h
      · simp [h1, h2, throw, throwThe, MonadExceptOf.throw, bind, Except.bind] at h
    · simp [h1, throw, throwThe, MonadExceptOf.throw, bind, Except.bind] at h
  · rintro ⟨⟨r, id, pk, sig, hr, hid, hpk, hsig, rfl⟩, r', hr', s, hs, h1, h2, h3⟩
    rw [hr] at hr'
    cases hr'
    refine ⟨r, hr, id, hid, pk, hpk, sig, hsig, s, hs, ?_⟩
    simp only [ofRaw] at h1 h2 h3
    simp [h1, h2, h3, pure, Except.pure]

theorem raw_of_fromJsonUnchecked {x : Ext} {json : Bytes} {e : Event}
    (h : fromJsonUnchecked x json = .ok e) : e.raw = json := by
  obtain ⟨r, id, pk, sig, -, -, -, -, rfl⟩ := fromJsonUnchecked_eq_ok_iff.1 h
  rfl

/-! ## The compact spelling

What most clients send: no blanks, the fields in this order.  The text is put
between the quotes as it stands, so it fits texts without escapes only. -/

def plainBytes (s : Str) : Bytes := s.map fun c => UInt8.ofNat c.toNat

def quoted (s : Str) : Bytes := 34 :: plainBytes s ++ [34]

/-- `[a,b,c]` -/
def jsonArray (items : List Bytes) : Bytes := 91 :: List.intercalate [44] items ++ [93]

def compactJson (id pubkey : Bytes32) (createdAt kind : Nat) (tags : List Tag) (content : Str)
    (sig : Bytes64) : Bytes :=
  ascii "\x7b\"id\":" ++ quoted (hexEncode id) ++
    ascii ",\"pubkey\":" ++ quoted (hexEncode pubkey) ++
    ascii ",\"created_at\":" ++ plainBytes (Nat.toDigits 10 createdAt) ++
    ascii ",\"kind\":" ++ plainBytes (Nat.toDigits 10 kind) ++
    ascii ",\"tags\":" ++ jsonArray (tags.map fun t => jsonArray ((t.name :: t.values).map quoted)) ++
    ascii ",\"content\":" ++ quoted content ++
    ascii ",\"sig\":" ++ quoted (hexDigits 128 sig.toNat) ++ ascii "\x7d"

theorem length_quoted (s : Str) : (quoted s).length = s.length + 2 := by
  simp [quoted, plainBytes]

theorem length_compactJson (id pubkey : Bytes32) (createdAt kind : Nat) (tags : List Tag) (content : Str)
    (sig : Bytes64) :
    (compactJson id pubkey createdAt kind tags content sig).length =
      329 + (Nat.toDigits 10 createdAt).length + (Nat.toDigits 10 kind).length +
        (jsonArray (tags.map fun t => jsonArray ((t.name :: t.values).map quoted))).length + content.length := by
  have hid : (ascii "\x7b\"id\":").length = 6 := rfl
  have hpubkey : (ascii ",\"pubkey\":").length = 10 := rfl
  have hcreated : (ascii ",\"created_at\":").length = 14 := rfl
  have hkind : (ascii ",\"kind\":").length = 8 := rfl
  have htags : (ascii ",\"tags\":").length = 8 := rfl
  have hcontent : (ascii ",\"content\":").length = 11 := rfl
  have hsig : (ascii ",\"sig\":").length = 7 := rfl
  have hclose : (ascii "\x7d").length = 1 := rfl
  unfold compactJson
  simp only [List.length_append, length_quoted, hexEncode, length_hexDigits, plainBytes, List.length_map,
    hid, hpubkey, hcreated, hkind, htags, hcontent, hsig, hclose]
  omega

/-- Every byte is a printable ASCII character. -/
def Printable (bs : Bytes) : Prop := ∀ b ∈ bs, 32 ≤ b ∧ b ≤ 0x7E

theorem Printable.append {as bs : Bytes} (ha : Printable as) (hb : Printable bs) : Printable (as ++ bs) :=
  fun b hmem => (List.mem_append.1 hmem).elim (ha b) (hb b)

/-- The form that evaluates. -/
theorem printable_of_all {bs : Bytes} (h : (bs.all fun b => decide (32 ≤ b ∧ b ≤ 0x7E)) = true) : Printable bs :=
  fun b hb => of_decide_eq_true (List.all_eq_true.1 h b hb)

theorem printable_plainBytes {s : Str} (h : ∀ c ∈ s, ' ' ≤ c ∧ c ≤ '~') : Printable (plainBytes s) := by
  intro b hb
  obtain ⟨c, hc, rfl⟩ := List.mem_map.1 hb
  have hlo : 32 ≤ c.toNat := UInt32.le_iff_toNat_le.1 (Char.le_def.1 (h c hc).1)
  have hhi : c.toNat ≤ 126 := UInt32.le_iff_toNat_le.1 (Char.le_def.1 (h c hc).2)
  simp only [UInt8.le_iff_toNat_le, UInt8.toNat_ofNat', UInt8.reduceToNat]
  omega

theorem printable_hexDigits (n v : Nat) : Printable (plainBytes (hexDigits n v)) := by
  refine printable_plainBytes fun c hc => ?_
  obtain ⟨hlo, hhi⟩ := range_of_hexVal (hexVal_hexDigits n v c hc)
  exact ⟨Char.le_trans (by decide) hlo, Char.le_trans hhi (by decide)⟩

theorem printable_toDigits (n : Nat) : Printable (plainBytes (Nat.toDigits 10 n)) := by
  refine printable_plainBytes fun c hc => ?_
  have hdigit := Nat.isDigit_of_mem_toDigits (by decide) (by decide) hc
  simp only [Char.isDigit, ge_iff_le, Bool.and_eq_true, decide_eq_true_eq] at hdigit
  exact ⟨Char.le_trans (by decide) (Char.le_def.2 hdigit.1), Char.le_trans (Char.le_def.2 hdigit.2) (by decide)⟩

theorem Printable.quoted {s : Str} (h : Printable (plainBytes s)) : Printable (quoted s) :=
  have hquote : Printable [34] := printable_of_all rfl
  (hquote.append h).append hquote

theorem printable_compactJson (id pubkey : Bytes32) (createdAt kind : Nat) {tags : List Tag} {content : Str}
    (sig : Bytes64) (htags : Printable
        (jsonArray (tags.map fun t => jsonArray ((t.name :: t.values).map Event.quoted))))
    (hcontent : Printable (plainBytes content)) :
    Printable (compactJson id pubkey createdAt kind tags content sig) := by
  unfold compactJson
  -- one goal for each piece, from the left
  refine .append (.append (.append (.append (.append (.append (.append (.append (.append (.append (.append (.append
    (.append (.append ?_ ?_) ?_) ?_) ?_) ?_) ?_) ?_) ?_) ?_) ?_) ?_) ?_) ?_) ?_
  · exact printable_of_all rfl
  · exact (printable_hexDigits 64 id.toNat).quoted
  · exact printable_of_all rfl
  · exact (printable_hexDigits 64 pubkey.toNat).quoted
  · exact printable_of_all rfl
  · exact printable_toDigits createdAt
  · exact printable_of_all rfl
  · exact printable_toDigits kind
  · exact printable_of_all rfl
  · exact htags
  · exact printable_of_all rfl
  · exact hcontent.quoted
  · exact printable_of_all rfl
  · exact (printable_hexDigits 128 sig.toNat).quoted
  · exact printable_of_all rfl

/-- The event a client sends in the compact spelling. -/
def compact (id pubkey : Bytes32) (createdAt kind : Nat) (tags : List Tag) (content : Str)
    (sig : Bytes64) : Event where
  id := id
  pubkey := pubkey
  createdAt := createdAt
  kind := kind
  tags := tags
  content := content
  sig := sig
  raw := compactJson id pubkey createdAt kind tags content sig

end Event

/-! ## The libraries on known events -/

open Event (jsonArray quoted plainBytes)

/-- The event's JSON fields. -/
def Event.toRaw (e : Event) : RawEvent where
  id := hexEncode e.id
  pubkey := hexEncode e.pubkey
  createdAt := e.createdAt
  kind := e.kind
  tags := e.tags.map fun t => t.name :: t.values
  content := e.content
  sig := hexDigits 128 e.sig.toNat

/-- `[0,pubkey,created_at,kind,tags,content]`, for texts without escapes. -/
def serialised (pubkey : Str) (createdAt kind : Nat) (tags : List (List Str)) (content : Str) : Bytes :=
  jsonArray [[48], quoted pubkey, plainBytes (Nat.toDigits 10 createdAt),
    plainBytes (Nat.toDigits 10 kind), jsonArray (tags.map fun t => jsonArray (t.map quoted)),
    quoted content]

def Event.serialised (e : Event) : Bytes :=
  Memlay.serialised e.toRaw.pubkey e.createdAt e.kind e.toRaw.tags e.content

/-- `["EVENT",{..}]` -/
def Event.frame (e : Event) : Bytes := jsonArray [quoted "EVENT".toList, e.raw]

theorem Event.length_frame (e : Event) : e.frame.length = e.raw.length + 10 := by
  have htype : (quoted "EVENT".toList).length = 7 := rfl
  show (91 :: (quoted "EVENT".toList ++ ([44] ++ (e.raw ++ []))) ++ [93]).length = e.raw.length + 10
  simp only [List.length_append, List.length_cons, List.length_nil, htype]
  omega

/-- The libraries as they act on the JSON, the frames, the hashes and the
signatures of known events, the `unsigned` ones among them with a signature that
does not verify.  Every other text is refused. -/
def Ext.known (signed unsigned : List Event) : Ext where
  rawEvent json :=
    match (signed ++ unsigned).find? fun e => e.raw = json with
    | some e => .ok e.toRaw
    | none => .error []
  rawArray text :=
    match (signed ++ unsigned).find? fun e => e.frame = text with
    | some e => .ok [quoted "EVENT".toList, e.raw]
    | none => .error []
  borrowedStr text := if text = quoted "EVENT".toList then .ok "EVENT".toList else .error []
  toVec pubkey createdAt kind tags content := .ok (serialised pubkey createdAt kind tags content)
  sha256 bytes :=
    match (signed ++ unsigned).find? fun e => e.serialised = bytes with
    | some e => e.id
    | none => 0
  xonly pubkey := (signed ++ unsigned).any fun e => e.pubkey = pubkey
  verifySchnorr sig id pubkey := signed.any fun e => e.sig = sig ∧ e.id = id ∧ e.pubkey = pubkey

section
variable {signed unsigned : List Event} {e : Event}

theorem ofRaw_toRaw (e : Event) : Event.ofRaw e.toRaw e.id e.pubkey e.sig e.raw = e := by
  have htags : (e.tags.map fun t => t.name :: t.values).filterMap Event.tagOf = e.tags := by
    rw [List.filterMap_map]
    exact List.filterMap_some
  unfold Event.ofRaw Event.toRaw
  rw [htags]

/-- A table of known texts finds an entry for each of them. -/
theorem exists_find (text : Event → Bytes) {es : List Event} (he : e ∈ es) :
    ∃ a ∈ es, text a = text e ∧ (es.find? fun a => text a = text e) = some a := by
  cases hf : es.find? fun a => text a = text e with
  | none =>
    have := List.find?_eq_none.1 hf e he
    simp at this
  | some a =>
    have ha : text a = text e := by simpa using List.find?_some hf
    exact ⟨a, List.mem_of_find?_eq_some hf, ha, rfl⟩

theorem rawEvent_known (he : e ∈ signed ++ unsigned) (h : ∀ a ∈ signed ++ unsigned, a.raw = e.raw → a = e) :
    (Ext.known signed unsigned).rawEvent e.raw = .ok e.toRaw := by
  show (match (signed ++ unsigned).find? fun a => a.raw = e.raw with
    | some e => Except.ok e.toRaw
    | none => Except.error []) = .ok e.toRaw
  obtain ⟨a, ha, hr, hf⟩ := exists_find Event.raw he
  rw [hf, h a ha hr]

/-- Only the known texts parse. -/
theorem of_rawEvent_known {json : Bytes} {r : RawEvent} (h : (Ext.known signed unsigned).rawEvent json = .ok r) :
    ∃ e ∈ signed ++ unsigned, e.raw = json := by
  have hfind : (match (signed ++ unsigned).find? fun e => e.raw = json with
    | some e => Except.ok e.toRaw
    | none => Except.error []) = .ok r := h
  split at hfind
  · rename_i e he
    exact ⟨e, List.mem_of_find?_eq_some he, by simpa using List.find?_some he⟩
  · cases hfind

/-- A known frame is an array of the type and the event. -/
theorem rawArray_known (he : e ∈ signed ++ unsigned) (h : ∀ a ∈ signed ++ unsigned, a.frame = e.frame → a = e) :
    (Ext.known signed unsigned).rawArray e.frame = .ok [Event.quoted "EVENT".toList, e.raw] := by
  show (match (signed ++ unsigned).find? fun a => a.frame = e.frame with
    | some e => Except.ok [Event.quoted "EVENT".toList, e.raw]
    | none => Except.error []) = .ok [Event.quoted "EVENT".toList, e.raw]
  obtain ⟨a, ha, hr, hf⟩ := exists_find Event.frame he
  rw [hf, h a ha hr]

theorem of_rawArray_known {text : Bytes} {items : List Bytes}
    (h : (Ext.known signed unsigned).rawArray text = .ok items) :
    ∃ e ∈ signed ++ unsigned, e.frame = text ∧ items = [Event.quoted "EVENT".toList, e.raw] := by
  have hfind : (match (signed ++ unsigned).find? fun e => e.frame = text with
    | some e => Except.ok [Event.quoted "EVENT".toList, e.raw]
    | none => Except.error []) = .ok items := h
  split at hfind
  · rename_i e he
    cases hfind
    exact ⟨e, List.mem_of_find?_eq_some he, by simpa using List.find?_some he, rfl⟩
  · cases hfind

/-- A known text parses as its event. -/
theorem fromJsonUnchecked_known (he : e ∈ signed ++ unsigned)
    (h : ∀ a ∈ signed ++ unsigned, a.raw = e.raw → a = e) :
    Event.fromJsonUnchecked (Ext.known signed unsigned) e.raw = .ok e := by
  exact Event.fromJsonUnchecked_eq_ok_iff.2 ⟨e.toRaw, e.id, e.pubkey, e.sig, rawEvent_known he h,
    parseHex32_hexEncode e.id, parseHex32_hexEncode e.pubkey, parseHex_hexDigits (n := 64) e.sig,
    (ofRaw_toRaw e).symm⟩

/-- A text that is none of the known ones does not parse. -/
theorem fromJsonUnchecked_unknown {json : Bytes} (h : ∀ e ∈ signed ++ unsigned, e.raw ≠ json) :
    Event.fromJsonUnchecked (Ext.known signed unsigned) json = .error (.json []) := by
  have hfind : ((signed ++ unsigned).find? fun e => e.raw = json) = none :=
    List.find?_eq_none.2 fun e he => by simpa using h e he
  have hraw : (Ext.known signed unsigned).rawEvent json = .error [] := by
    show (match (signed ++ unsigned).find? fun e => e.raw = json with
      | some e => Except.ok e.toRaw
      | none => Except.error []) = _
    rw [hfind]
  unfold Event.fromJsonUnchecked
  rw [hraw]
  rfl

/-- A signed one verifies, where one serialisation has one id. -/
theorem fromJson_known (he : e ∈ signed) (h : ∀ a ∈ signed ++ unsigned, a.raw = e.raw → a = e)
    (hs : ∀ a ∈ signed ++ unsigned, a.serialised = e.serialised → a.id = e.id) :
    Event.fromJson (Ext.known signed unsigned) e.raw = .ok e := by
  have hmem : e ∈ signed ++ unsigned := List.mem_append_left _ he
  refine Event.fromJson_eq_ok_iff.2
    ⟨fromJsonUnchecked_known hmem h, e.toRaw, rawEvent_known hmem h, e.serialised, rfl, ?_, ?_, ?_⟩
  · show (match (signed ++ unsigned).find? fun a => a.serialised = e.serialised with
      | some a => a.id
      | none => 0) = e.id
    obtain ⟨a, ha, hr, hf⟩ := exists_find Event.serialised hmem
    rw [hf]
    exact hs a ha hr
  · show ((signed ++ unsigned).any fun a => a.pubkey = e.pubkey) = true
    exact List.any_eq_true.2 ⟨e, hmem, decide_eq_true rfl⟩
  · show (signed.any fun a => a.sig = e.sig ∧ a.id = e.id ∧ a.pubkey = e.pubkey) = true
    exact List.any_eq_true.2 ⟨e, he, decide_eq_true ⟨rfl, rfl, rfl⟩⟩

end

/-- A signed kind-1 note; its JSON has `pad` blanks after the brace. -/
def note (pad : Nat) : Event :=
  let e := Event.compact 0x01990444fb40d2f641e324c49c18ed6797b4e2abc8e0cff0e83257c297370bc9
    0xf9308a019258c31049344f85f89d5229b531c845836f99b08601f113bce036f9 1700000000 1 [] ['h', 'i']
    0x115940bef04ec4581f519ae897b608372f2851bbaa4061fe3b307972e36504b53cbce4165a136449a5599986f6bb725f08f9353b8f783c04034ae392508888f1
  { e with raw := e.raw.take 1 ++ List.replicate pad 32 ++ e.raw.drop 1 }

theorem note_sameFields (m n : Nat) : Event.SameFields (note m) (note n) := ⟨rfl, rfl, rfl, rfl, rfl⟩

theorem length_raw_note (pad : Nat) : (note pad).raw.length = 344 + pad := by
  have hlen : (Event.compactJson (note 0).id (note 0).pubkey 1700000000 1 [] ['h', 'i'] (note 0).sig).length =
      344 :=
    Event.length_compactJson ..
  show ((Event.compactJson (note 0).id (note 0).pubkey 1700000000 1 [] ['h', 'i'] (note 0).sig).take 1 ++
    List.replicate pad 32 ++
    (Event.compactJson (note 0).id (note 0).pubkey 1700000000 1 [] ['h', 'i'] (note 0).sig).drop 1).length = _
  rw [List.length_append, List.length_append, List.length_take, List.length_drop, List.length_replicate, hlen]
  omega

theorem printable_raw_note (pad : Nat) : Event.Printable (note pad).raw := by
  have hjson : Event.Printable (Event.compactJson (note 0).id (note 0).pubkey 1700000000 1 [] ['h', 'i']
      (note 0).sig) :=
    Event.printable_compactJson _ _ _ _ _ (Event.printable_of_all rfl) (Event.printable_of_all rfl)
  have hpad : Event.Printable (List.replicate pad 32) := fun b hb => by
    rw [List.eq_of_mem_replicate hb]
    decide
  exact .append (.append (fun b hb => hjson b (List.mem_of_mem_take hb)) hpad)
    fun b hb => hjson b (List.mem_of_mem_drop hb)

/-- A version of a replaceable event. -/
def relayList (id : Bytes32) (createdAt : Nat) : Event :=
  { note 0 with id := id, kind := 10002, createdAt := createdAt }

end Memlay
