import Memlay.Event
import Memlay.Lib.JsonReader

/-!
# What an id stands for (`src/event.rs`)

`from_json` hashes the JSON of `[0, pubkey, created_at, kind, tags, content]`, written by
`serde_json` without white space, and compares with the id.  The text can be read back, so
two accepted events with one id agree on everything that was hashed, or the two texts are a
collision of SHA-256:

    same_id      equal ids  →  the same fields, or the two hashed texts are a collision

This is where "events with equal ids agree on their fields" comes from, which the index
takes for granted.  The signature and the text that was sent are not hashed and may differ.
-/

namespace Memlay

open Json (Content utf8Bytes)

/-- What is hashed. -/
def RawEvent.idContent (r : RawEvent) : Content :=
  .seq [.unsigned 0, .str r.pubkey, .unsigned r.createdAt, .unsigned r.kind,
    .seq (r.tags.map fun tag => .seq (tag.map .str)), .str r.content]

/-- Its bytes. -/
def RawEvent.idBytes (r : RawEvent) : Bytes := utf8Bytes r.idContent.write

/-- `serde_json`: numbers fit their types, and tuples, lists, texts and integers are written
as JSON without white space. -/
structure SerdeIds (x : Ext) : Prop where
  createdAt : ∀ json r, x.rawEvent json = .ok r → r.createdAt < 2 ^ 64
  kind : ∀ json r, x.rawEvent json = .ok r → r.kind < 2 ^ 32
  toVec : ∀ r : RawEvent, x.toVec r.pubkey r.createdAt r.kind r.tags r.content = .ok r.idBytes

theorem RawEvent.written {r : RawEvent} (ht : r.createdAt < 2 ^ 64) (hk : r.kind < 2 ^ 32) :
    r.idContent.Written := by
  refine .seq fun c hc => ?_
  simp only [List.mem_cons, List.not_mem_nil, or_false] at hc
  rcases hc with rfl | rfl | rfl | rfl | rfl | rfl
  · exact .unsigned (by decide)
  · exact .str _
  · exact .unsigned ht
  · exact .unsigned (hk.trans (by decide))
  · refine .seq fun c hc => ?_
    obtain ⟨tag, -, rfl⟩ := List.mem_map.1 hc
    refine .seq fun c hc => ?_
    obtain ⟨s, -, rfl⟩ := List.mem_map.1 hc
    exact .str s
  · exact .str _

/-- A text that is written for something stands for it alone. -/
theorem written_injective {c d : Content} (hc : c.Written) (hd : d.Written)
    (h : utf8Bytes c.write = utf8Bytes d.write) :
    c = d := by
  have htext : c.write = d.write := by
    rw [← Json.fromUtf8Lossy_utf8Bytes c.write, h, Json.fromUtf8Lossy_utf8Bytes]
  have hread := Content.read_write hc _ (Nat.lt_succ_self _)
  rw [htext, Content.read_write hd _ (Nat.lt_succ_self _)] at hread
  exact (Option.some.inj hread).symm

/-- The content that is hashed has all fields in it. -/
theorem RawEvent.eq_of_idContent {r r' : RawEvent} (h : r.idContent = r'.idContent) :
    r.pubkey = r'.pubkey ∧ r.createdAt = r'.createdAt ∧ r.kind = r'.kind ∧ r.tags = r'.tags ∧
        r.content = r'.content := by
  have hstr : Function.Injective Content.str := fun s t hst => Content.str.inj hst
  have htag : Function.Injective fun tag : List Str => Content.seq (tag.map .str) :=
    fun s t hst => List.map_injective_iff.2 hstr (Content.seq.inj hst)
  unfold RawEvent.idContent at h
  injection h with h
  simp only [List.cons.injEq, Content.str.injEq, Content.unsigned.injEq, Content.seq.injEq, and_true,
      true_and] at h
  obtain ⟨hp, hc, hk, ht, hcon⟩ := h
  exact ⟨hp, hc, hk, List.map_injective_iff.2 htag ht, hcon⟩

/-- Two texts that `from_json` accepts as events with one id are events with the same
fields, or what was hashed for the one and for the other are two texts with one hash. -/
theorem same_id (x : Ext) (hx : SerdeIds x) {a b : Bytes} {e f : Event} (ha : Event.fromJson x a = .ok e)
    (hb : Event.fromJson x b = .ok f) (hid : e.id = f.id) :
    e.SameFields f ∨ ∃ r r', x.rawEvent a = .ok r ∧ x.rawEvent b = .ok r' ∧ r.idBytes ≠ r'.idBytes ∧
      x.sha256 r.idBytes = x.sha256 r'.idBytes := by
  obtain ⟨ha, r, hr, s, hs, hsha, -⟩ := Event.fromJson_eq_ok_iff.1 ha
  obtain ⟨hb, r', hr', t, ht, hsha', -⟩ := Event.fromJson_eq_ok_iff.1 hb
  rw [hx.toVec] at hs ht
  cases hs
  cases ht
  by_cases heq : r.idBytes = r'.idBytes
  · left
    have hcontent := written_injective (RawEvent.written (hx.createdAt a r hr) (hx.kind a r hr))
      (RawEvent.written (hx.createdAt b r' hr') (hx.kind b r' hr')) heq
    obtain ⟨hp, hc, hk, htags, hcon⟩ := RawEvent.eq_of_idContent hcontent
    obtain ⟨r₁, id₁, pk₁, sig₁, hr₁, -, hpk₁, -, rfl⟩ := Event.fromJsonUnchecked_eq_ok_iff.1 ha
    obtain ⟨r₂, id₂, pk₂, sig₂, hr₂, -, hpk₂, -, rfl⟩ := Event.fromJsonUnchecked_eq_ok_iff.1 hb
    rw [hr] at hr₁
    rw [hr'] at hr₂
    cases hr₁
    cases hr₂
    rw [hp, hpk₂] at hpk₁
    exact ⟨(Option.some.inj hpk₁).symm, hc, hk, congrArg (List.filterMap Event.tagOf) htags, hcon⟩
  · exact Or.inr ⟨r, r', hr, hr', heq, by rw [hsha, hsha', hid]⟩

section
variable {signed unsigned : List Event} {e : Event}

theorem xonly_known (he : e ∈ signed ++ unsigned) : (Ext.known signed unsigned).xonly e.pubkey = true :=
  List.any_eq_true.2 ⟨e, he, decide_eq_true rfl⟩

theorem verifySchnorr_known (he : e ∈ signed) :
    (Ext.known signed unsigned).verifySchnorr e.sig e.id e.pubkey = true :=
  List.any_eq_true.2 ⟨e, he, decide_eq_true ⟨rfl, rfl, rfl⟩⟩

end

/-- The libraries on two spellings of one note. -/
def twoNotes : Ext :=
  { Ext.known [note 0, note 1] [] with
    toVec := fun pubkey createdAt kind tags content =>
      .ok (RawEvent.idBytes ⟨[], pubkey, createdAt, kind, tags, content, []⟩)
    sha256 := fun bytes => if bytes = (note 0).toRaw.idBytes then (note 0).id else 0 }

theorem toRaw_note (pad : Nat) : (note pad).toRaw = (note 0).toRaw := by
  have hid : (note pad).id = (note 0).id := rfl
  have hpubkey : (note pad).pubkey = (note 0).pubkey := rfl
  have hsig : (note pad).sig = (note 0).sig := rfl
  obtain ⟨-, hcreated, hkind, htags, hcontent⟩ := note_sameFields pad 0
  unfold Event.toRaw
  rw [hid, hpubkey, hsig, hcreated, hkind, htags, hcontent]

theorem rawEvent_twoNotes {json : Bytes} {r : RawEvent} (h : twoNotes.rawEvent json = .ok r) :
    r = (note 0).toRaw := by
  have hfind := h
  simp only [twoNotes, Ext.known] at hfind
  split at hfind
  · rename_i e he
    have hmem := List.mem_of_find?_eq_some he
    simp only [List.append_nil, List.mem_cons, List.not_mem_nil, or_false] at hmem
    rw [← Except.ok.inj hfind]
    rcases hmem with rfl | rfl
    · rfl
    · exact toRaw_note 1
  · cases hfind

theorem serdeIds_twoNotes : SerdeIds twoNotes where
  createdAt json r h := by
    rw [rawEvent_twoNotes h]
    decide
  kind json r h := by
    rw [rawEvent_twoNotes h]
    decide
  toVec r := rfl

theorem fromJson_twoNotes {pad : Nat} (h : note pad ∈ [note 0, note 1]) :
    Event.fromJson twoNotes (note pad).raw = .ok (note pad) := by
  have hraw : twoNotes.rawEvent (note pad).raw = .ok (note pad).toRaw := by
    refine rawEvent_known (by simpa using h) fun a ha heq => ?_
    have hlen := congrArg List.length heq
    simp only [List.append_nil, List.mem_cons, List.not_mem_nil, or_false] at ha
    rcases ha with rfl | rfl <;> rw [length_raw_note, length_raw_note] at hlen <;>
      exact congrArg note (Nat.add_left_cancel hlen)
  have hsha : twoNotes.sha256 (note pad).toRaw.idBytes = (note pad).id := by
    rw [toRaw_note]
    show (if (note 0).toRaw.idBytes = (note 0).toRaw.idBytes then (note 0).id else 0) = _
    rw [if_pos rfl]
    rfl
  refine Event.fromJson_eq_ok_iff.2 ⟨Event.fromJsonUnchecked_eq_ok_iff.2 ⟨(note pad).toRaw, _, _, _, hraw,
    parseHex32_hexEncode _, parseHex32_hexEncode _, parseHex_hexDigits (n := 64) _, (ofRaw_toRaw _).symm⟩,
        (note pad).toRaw,
    hraw, _, serdeIds_twoNotes.toVec _, hsha, ?_, ?_⟩
  · exact xonly_known (List.mem_append_left [] h)
  · dsimp only [twoNotes]
    exact verifySchnorr_known h

theorem same_id_twoNotes : (note 0).raw ≠ (note 1).raw ∧ (note 0).SameFields (note 1) := by
  refine ⟨fun h => ?_, ?_⟩
  · have hlen := congrArg List.length h
    rw [length_raw_note, length_raw_note] at hlen
    omega
  · have hfirst : Event.fromJson twoNotes (note 0).raw = .ok (note 0) := fromJson_twoNotes (by simp)
    have hsecond : Event.fromJson twoNotes (note 1).raw = .ok (note 1) := fromJson_twoNotes (by simp)
    refine (same_id twoNotes serdeIds_twoNotes hfirst hsecond rfl).resolve_right ?_
    rintro ⟨r, r', hr, hr', hne, -⟩
    rw [rawEvent_twoNotes hr, rawEvent_twoNotes hr'] at hne
    exact hne rfl

end Memlay
