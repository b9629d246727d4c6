import Memlay.Message
import Memlay.Lib.JsonReader

/-!
# Filters as JSON (`src/subscription.rs`)

The hand-written `Serialize` and `Deserialize` of `Hex32` and `Filter`, between a filter
and the content that serde_json reads or writes.  The visitor of `Filter` takes a map and
nothing else.  A filter that was read is written and read back as it was, up to the order
of its table of tags (`deserialize_serialize`).
-/

namespace Memlay

open Json (Content)

/-- Why a visitor refuses a value; serde_json adds the position. -/
inductive DeError where
  /-- `invalid_type` or `invalid_value`, with what the visitor expects -/
  | expected (what : String)
  /-- the error of `hex::decode` -/
  | hex (value : Str)
  | custom (text : String)

/-! ## The values of serde -/

/-- `Vec<T>` -/
def vecOf {α : Type} (read : Content → Except DeError α) : Content → Except DeError (List α)
  | .seq items => items.mapM read
  | _ => .error (.expected "a sequence")

/-- `u32`, `u64`, `usize` -/
def uintOf (name : String) (bits : Nat) : Content → Except DeError Nat
  | .unsigned n => if n < 2 ^ bits then .ok n else .error (.expected name)
  | _ => .error (.expected name)

/-- `String` -/
def stringOf : Content → Except DeError Str
  | .str s => .ok s
  | _ => .error (.expected "a string")

/-! ## `Hex32` -/

namespace Hex32

def serialize (bytes : Bytes32) : Content := .str (hexEncode bytes)

/-- `Hex32Visitor::visit_str` -/
def visitStr (v : Str) : Except DeError Bytes32 :=
  if byteLen v % 2 = 1 then .error (.hex v)
  else
    match hexFold 0 v with
    | none => .error (.hex v)
    | some n => if byteLen v / 2 ≠ 32 then .error (.custom "expected 32 bytes") else .ok (BitVec.ofNat 256 n)

def deserialize : Content → Except DeError Bytes32
  | .str v => visitStr v
  | _ => .error (.expected "a 64-character hex string")

/-- Where both lengths are right the visitor is `parseHex32`. -/
theorem visitStr_of_parseHex32 {v : Str} {bytes : Bytes32} (h : parseHex32 v = some bytes) :
    visitStr v = .ok bytes := by
  unfold parseHex32 parseHex at h
  split at h
  · cases h
  · rename_i hlen
    obtain ⟨n, hn, rfl⟩ := Option.map_eq_some_iff.1 h
    have hlen' : byteLen v = 64 := by omega
    unfold visitStr
    rw [if_neg (by omega), hn]
    exact if_neg (by omega)

/-- Every id reads back. -/
theorem deserialize_serialize (bytes : Bytes32) : deserialize (serialize bytes) = .ok bytes := by
  rw [serialize, deserialize]
  exact visitStr_of_parseHex32 (parseHex32_hexEncode bytes)

end Hex32

namespace Filter

/-! ## `Serialize` -/

/-- An entry of the map, for a field that is there. -/
def entry (key : String) (value : Option Content) : List (Str × Content) :=
  value.toList.map fun v => (key.toList, v)

/-- A list of ids, authors or references as it is written. -/
def hexes (list : List Bytes32) : Content := .seq (list.map Hex32.serialize)

/-- A tag filter as it is written, under `#` and its letter. -/
def tagEntry (e : Sigma fun _ : Char => List Str) : Str × Content := (['#', e.1], .seq (e.2.map .str))

def serialize (f : Filter) : Content :=
  .map (entry "ids" (f.ids.map hexes) ++ entry "kinds" (f.kinds.map fun ks => .seq (ks.map .unsigned)) ++
    entry "authors" (f.authors.map hexes) ++ f.tagFilters.entries.map tagEntry ++
    entry "since" (f.since.map .unsigned) ++ entry "until" (f.until.map .unsigned) ++
    entry "limit" (f.limit.map .unsigned))

/-! ## `Deserialize` -/

/-- What a filter starts from: no field is set. -/
def default : Filter := ⟨none, none, none, ∅, none, none, none, none, none⟩

/-- The keys that begin with `#`; a key of more than one letter is skipped. -/
def visitTag (f : Filter) (key : Str) (value : Content) : Except DeError Filter :=
  match key with
  | [] => .error (.custom "empty tag filter key")
  | [letter] => (vecOf stringOf value).map fun values => { f with tagFilters := f.tagFilters.insert letter values }
  | _ => .ok f

/-- One round of the loop of `visit_map`. -/
def visitEntry (f : Filter) (e : Str × Content) : Except DeError Filter :=
  if e.1 = "ids".toList then (vecOf Hex32.deserialize e.2).map fun v => { f with ids := some v }
  else if e.1 = "kinds".toList then (vecOf (uintOf "u32" 32) e.2).map fun v => { f with kinds := some v }
  else if e.1 = "authors".toList then (vecOf Hex32.deserialize e.2).map fun v => { f with authors := some v }
  else if e.1 = "since".toList then (uintOf "u64" 64 e.2).map fun v => { f with since := some v }
  else if e.1 = "until".toList then (uintOf "u64" 64 e.2).map fun v => { f with «until» := some v }
  else if e.1 = "limit".toList then (uintOf "usize" 64 e.2).map fun v => { f with limit := some v }
  else
    match e.1 with
    | '#' :: key => visitTag f key e.2
    | _ => .ok f

def visitMap (entries : List (Str × Content)) : Except DeError Filter := entries.foldlM visitEntry default

def deserialize : Content → Except DeError Filter
  | .map entries => visitMap entries
  | _ => .error (.expected "a NIP-01 filter object")

/-! ## What was read -/

/-- What a filter read from JSON keeps to: the widths of its numbers, and no parsed bytes. -/
structure Wire (f : Filter) : Prop where
  kinds : ∀ ks ∈ f.kinds, ∀ k ∈ ks, k < 2 ^ 32
  since : ∀ n ∈ f.since, n < 2 ^ 64
  «until» : ∀ n ∈ f.until, n < 2 ^ 64
  limit : ∀ n ∈ f.limit, n < 2 ^ 64
  eTagsBytes : f.eTagsBytes = none
  pTagsBytes : f.pTagsBytes = none

theorem wire_default : Wire default := by
  constructor <;> simp [default]

/-- An integer that was read fits its width. -/
theorem uintOf_lt {name : String} {bits : Nat} {c : Content} {n : Nat} (h : uintOf name bits c = .ok n) :
    n < 2 ^ bits := by
  unfold uintOf at h
  split at h
  · split at h
    · cases h
      assumption
    · cases h
  · cases h

theorem mapM_forall {α β : Type} {f : α → Except DeError β} {p : β → Prop} (hp : ∀ a b, f a = .ok b → p b)
    {l : List α} {bs : List β} (h : l.mapM f = .ok bs) : ∀ b ∈ bs, p b := by
  induction l generalizing bs with
  | nil =>
    cases h
    exact fun b hb => by cases hb
  | cons a l ih =>
    rw [List.mapM_cons] at h
    obtain ⟨b, hb, h⟩ := Event.bind_eq_ok_iff.1 h
    obtain ⟨bs', hbs, h⟩ := Event.bind_eq_ok_iff.1 h
    cases h
    intro c hc
    rcases List.mem_cons.1 hc with rfl | hc
    · exact hp a c hb
    · exact ih hbs c hc

/-- What holds of every value read holds of every element of a list. -/
theorem vecOf_forall {α : Type} {read : Content → Except DeError α} {p : α → Prop}
    (hp : ∀ c a, read c = .ok a → p a)
    {c : Content} {l : List α} (h : vecOf read c = .ok l) : ∀ a ∈ l, p a := by
  unfold vecOf at h
  split at h
  · exact mapM_forall hp h
  · cases h

theorem Wire.visitTag {f g : Filter} (hf : Wire f) {key : Str} {value : Content}
    (h : Filter.visitTag f key value = .ok g) : Wire g := by
  unfold Filter.visitTag at h
  split at h
  · cases h
  · obtain ⟨values, -, rfl⟩ := NostrMessage.map_ok_iff.1 h
    exact { hf with }
  · cases h
    exact hf

/-- One entry read keeps the bounds on the integers. -/
theorem Wire.visitEntry {f g : Filter} (hf : Wire f) {e : Str × Content} (h : Filter.visitEntry f e = .ok g) :
    Wire g := by
  unfold Filter.visitEntry at h
  split_ifs at h
  · obtain ⟨ids, -, rfl⟩ := NostrMessage.map_ok_iff.1 h
    exact { hf with }
  · obtain ⟨ks, hks, rfl⟩ := NostrMessage.map_ok_iff.1 h
    have hlt : ∀ k ∈ ks, k < 2 ^ 32 := vecOf_forall (fun _ _ hn => uintOf_lt hn) hks
    exact { hf with kinds := fun _ hs => Option.mem_some_iff.1 hs ▸ hlt }
  · obtain ⟨authors, -, rfl⟩ := NostrMessage.map_ok_iff.1 h
    exact { hf with }
  · obtain ⟨n, hn, rfl⟩ := NostrMessage.map_ok_iff.1 h
    exact { hf with since := fun _ hs => Option.mem_some_iff.1 hs ▸ uintOf_lt hn }
  · obtain ⟨n, hn, rfl⟩ := NostrMessage.map_ok_iff.1 h
    exact { hf with «until» := fun _ hs => Option.mem_some_iff.1 hs ▸ uintOf_lt hn }
  · obtain ⟨n, hn, rfl⟩ := NostrMessage.map_ok_iff.1 h
    exact { hf with limit := fun _ hs => Option.mem_some_iff.1 hs ▸ uintOf_lt hn }
  · split at h
    · exact hf.visitTag h
    · cases h
      exact hf

theorem Wire.visitEntries {f g : Filter} (hf : Wire f) {entries : List (Str × Content)}
    (h : entries.foldlM Filter.visitEntry f = .ok g) : Wire g := by
  induction entries generalizing f with
  | nil =>
    cases h
    exact hf
  | cons e entries ih =>
    rw [List.foldlM_cons] at h
    obtain ⟨f', hf', h⟩ := Event.bind_eq_ok_iff.1 h
    exact ih (hf.visitEntry hf') h

/-- A filter that was read keeps them. -/
theorem wire_of_deserialize {c : Content} {f : Filter} (h : deserialize c = .ok f) : Wire f := by
  unfold deserialize at h
  split at h
  · exact wire_default.visitEntries h
  · cases h

/-! ## Writing and reading back -/

/-- A list reads back if its elements do. -/
theorem vecOf_seq {α : Type} {read : Content → Except DeError α} {write : α → Content} {l : List α}
    (h : ∀ a ∈ l, read (write a) = .ok a) : vecOf read (.seq (l.map write)) = .ok l :=
  Content.mapM_map (m := Except DeError) h

theorem vecOf_hexes (l : List Bytes32) : vecOf Hex32.deserialize (hexes l) = .ok l :=
  vecOf_seq fun bytes _ => Hex32.deserialize_serialize bytes

theorem uintOf_unsigned {name : String} {bits n : Nat} (h : n < 2 ^ bits) :
    uintOf name bits (.unsigned n) = .ok n :=
  if_pos h

theorem vecOf_strings (l : List Str) : vecOf stringOf (.seq (l.map .str)) = .ok l := vecOf_seq fun _ _ => rfl

/-- One field of the map, there or not. -/
theorem foldlM_entry {α : Type} {f g : Filter} {key : String} {field : Option α} {write : α → Content}
    {read : Content → Except DeError α} {put : α → Filter}
    (hvisit : ∀ v, visitEntry f (key.toList, v) = (read v).map put) (hread : ∀ a ∈ field, read (write a) = .ok a)
    (hg : field.elim f put = g) : (entry key (field.map write)).foldlM visitEntry f = .ok g := by
  rw [← hg]
  cases field with
  | none => rfl
  | some a =>
    show (do visitEntry f (key.toList, write a) >>= fun f => pure f) = Except.ok (put a)
    rw [hvisit, hread a rfl]
    rfl

/-- The table after all tag entries are read. -/
def insertAll (table : Table Char (List Str)) (l : List (Sigma fun _ : Char => List Str)) :
    Table Char (List Str) :=
  l.foldl (fun table e => table.insert e.1 e.2) table

/-- The tag entries, read one after the other. -/
theorem foldlM_tags (l : List (Sigma fun _ : Char => List Str)) (f : Filter) :
    (l.map tagEntry).foldlM visitEntry f = .ok { f with tagFilters := insertAll f.tagFilters l } := by
  induction l generalizing f with
  | nil => rfl
  | cons e l ih =>
    have hvisit : visitEntry f (tagEntry e) = .ok { f with tagFilters := f.tagFilters.insert e.1 e.2 } := by
      show (vecOf stringOf (.seq (e.2.map .str))).map _ = _
      rw [vecOf_strings]
      rfl
    rw [List.map_cons, List.foldlM_cons, hvisit]
    exact ih _

/-- Under each letter the table holds what was written there. -/
theorem lookup_insertAll {l : List (Sigma fun _ : Char => List Str)} (hl : l.NodupKeys)
    (table : Table Char (List Str)) (letter : Char) :
    (insertAll table l).lookup letter = (l.dlookup letter).or (table.lookup letter) := by
  induction l generalizing table with
  | nil => rfl
  | cons e l ih =>
    obtain ⟨hnot, hl⟩ := List.nodupKeys_cons.1 hl
    show (insertAll (table.insert e.1 e.2) l).lookup letter = _
    rw [ih hl]
    by_cases heq : letter = e.1
    · subst heq
      rw [AList.lookup_insert, List.dlookup_cons_eq, List.dlookup_eq_none.2 hnot]
      rfl
    · rw [AList.lookup_insert_ne heq, List.dlookup_cons_ne _ _ heq]

/-- A filter that was read is written and read back, up to the order of the table. -/
theorem deserialize_serialize {f : Filter} (hf : Wire f) :
    ∃ table, deserialize (serialize f) = .ok { f with tagFilters := table } ∧
      ∀ letter, table.lookup letter = f.tagFilters.lookup letter := by
  refine ⟨insertAll ∅ f.tagFilters.entries, ?_, fun letter => ?_⟩
  · let f₁ : Filter := { default with ids := f.ids }
    let f₂ : Filter := { f₁ with kinds := f.kinds }
    let f₃ : Filter := { f₂ with authors := f.authors }
    let f₄ : Filter := { f₃ with tagFilters := insertAll ∅ f.tagFilters.entries }
    let f₅ : Filter := { f₄ with since := f.since }
    let f₆ : Filter := { f₅ with «until» := f.until }
    let f₇ : Filter := { f₆ with limit := f.limit }
    have hids : (entry "ids" (f.ids.map hexes)).foldlM visitEntry default = .ok f₁ :=
      foldlM_entry (fun _ => rfl) (fun l _ => vecOf_hexes l) (by cases h : f.ids <;> simp [f₁, h, default])
    have hkinds : (entry "kinds" (f.kinds.map fun ks => .seq (ks.map .unsigned))).foldlM visitEntry f₁ = .ok f₂ :=
      foldlM_entry (fun _ => rfl) (fun ks hks => vecOf_seq fun k hk => uintOf_unsigned (hf.kinds ks hks k hk))
        (by cases h : f.kinds <;> simp [f₁, f₂, h, default])
    have hauthors : (entry "authors" (f.authors.map hexes)).foldlM visitEntry f₂ = .ok f₃ :=
      foldlM_entry (fun _ => rfl) (fun l _ => vecOf_hexes l)
          (by cases h : f.authors <;> simp [f₁, f₂, f₃, h, default])
    have htags : (f.tagFilters.entries.map tagEntry).foldlM visitEntry f₃ = .ok f₄ := foldlM_tags _ f₃
    have hsince : (entry "since" (f.since.map .unsigned)).foldlM visitEntry f₄ = .ok f₅ :=
      foldlM_entry (fun _ => rfl) (fun n hn => uintOf_unsigned (hf.since n hn))
        (by cases h : f.since <;> simp [f₁, f₂, f₃, f₄, f₅, h, default])
    have huntil : (entry "until" (f.until.map .unsigned)).foldlM visitEntry f₅ = .ok f₆ :=
      foldlM_entry (fun _ => rfl) (fun n hn => uintOf_unsigned (hf.until n hn))
        (by cases h : f.until <;> simp [f₁, f₂, f₃, f₄, f₅, f₆, h, default])
    have hlimit : (entry "limit" (f.limit.map .unsigned)).foldlM visitEntry f₆ = .ok f₇ :=
      foldlM_entry (fun _ => rfl) (fun n hn => uintOf_unsigned (hf.limit n hn))
        (by cases h : f.limit <;> simp [f₁, f₂, f₃, f₄, f₅, f₆, f₇, h, default])
    have hlast : f₇ = { f with tagFilters := insertAll ∅ f.tagFilters.entries } := by
      simp [f₁, f₂, f₃, f₄, f₅, f₆, f₇, default, hf.eTagsBytes, hf.pTagsBytes]
    rw [← hlast]
    show visitMap _ = _
    unfold visitMap
    simp only [List.foldlM_append, hids, hkinds, hauthors, htags, hsince, huntil, hlimit, bind, Except.bind]
  · rw [lookup_insertAll f.tagFilters.nodupKeys]
    exact Option.or_none

theorem written_entry {key : String} {value : Option Content} (h : ∀ c ∈ value, c.Written) :
    ∀ e ∈ entry key value, e.2.Written := by
  intro e he
  obtain ⟨c, hc, rfl⟩ := List.mem_map.1 he
  exact h c (Option.mem_toList.1 hc)

theorem written_map {α : Type} {field : Option α} {write : α → Content} (h : ∀ a ∈ field, (write a).Written) :
    ∀ c ∈ field.map write, c.Written := by
  intro c hc
  obtain ⟨a, ha, rfl⟩ := Option.mem_map.1 hc
  exact h a ha

theorem written_seq {α : Type} {write : α → Content} {l : List α} (h : ∀ a ∈ l, (write a).Written) :
    (Content.seq (l.map write)).Written := by
  refine .seq fun c hc => ?_
  obtain ⟨a, ha, rfl⟩ := List.mem_map.1 hc
  exact h a ha

theorem written_hexes (l : List Bytes32) : (hexes l).Written := written_seq fun _ _ => .str _

theorem Wire.written {f : Filter} (hf : Wire f) : f.serialize.Written := by
  refine .map ?_
  simp only [List.forall_mem_append]
  refine ⟨⟨⟨⟨⟨⟨?_, ?_⟩, ?_⟩, ?_⟩, ?_⟩, ?_⟩, ?_⟩
  · exact written_entry (written_map fun l _ => written_hexes l)
  · refine written_entry (written_map fun ks hks => written_seq fun k hk => .unsigned ?_)
    have := hf.kinds ks hks k hk
    omega
  · exact written_entry (written_map fun l _ => written_hexes l)
  · intro e he
    obtain ⟨tag, -, rfl⟩ := List.mem_map.1 he
    exact written_seq fun s _ => .str s
  · exact written_entry (written_map fun n hn => .unsigned (hf.since n hn))
  · exact written_entry (written_map fun n hn => .unsigned (hf.until n hn))
  · exact written_entry (written_map fun n hn => .unsigned (hf.limit n hn))

end Filter

end Memlay
