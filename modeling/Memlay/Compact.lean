import Memlay.Recovery

/-!
# Compaction of the log (`src/store/wal.rs`)

`compact` copies the log to a new file that takes its place: of every live id the first
insert, and nothing else.  Deletes, tombstones and the other inserts are dropped without
a look at their order.

    compact_encodeAll     the new log has one insert for each live id that the old one inserts
    compact_replay        of a whole log, with the ids a replay leaves live, a replay of the
                          new log leaves the same ids live

The second holds because the events that are live together do not compete: none of them
replaces another, and no tombstone is left to refuse one.
-/

namespace Memlay

/-- The ids of the live events. -/
def Index.liveIds (s : Index) : Finset Bytes32 := s.byId.keys.toFinset

theorem Index.mem_liveIds {s : Index} {id : Bytes32} : id ∈ s.liveIds ↔ ∃ e, s.byId.lookup id = some e := by
  unfold Index.liveIds
  rw [List.mem_toFinset]
  exact AList.lookup_isSome.symm.trans Option.isSome_iff_exists

namespace Wal

/-- What the loop has so far: the temporary file, how many records are in it and how many
were left out, and the ids kept. -/
structure Compaction where
  out : Bytes
  kept : Nat
  removed : Nat
  seen : Finset Bytes32

section
variable (x : Ext) (live : Finset Bytes32)

/-- The event of a record to keep: an insert that parses, of a live id not kept before. -/
def keep (seen : Finset Bytes32) : WalOp → Option Event
  | .insert data =>
    match Event.fromJsonUnchecked x data with
    | .ok e => if e.id ∈ live ∧ e.id ∉ seen then some e else none
    | .error _ => none
  | .delete _ | .tombstone _ => none

namespace Compaction

def start : Compaction := ⟨[], 0, 0, ∅⟩

/-- One record, copied as it was read. -/
def record (c : Compaction) (op : WalOp) : Compaction :=
  match keep x live c.seen op with
  | some e => { c with out := c.out ++ encodeOp op, kept := c.kept + 1, seen := insert e.id c.seen }
  | none => { c with removed := c.removed + 1 }

end Compaction

/-- One round of the loop; a record that ends early breaks it, where a replay fails. -/
def compactNext (bs : Bytes) : Except WalError (Option (WalOp × Bytes)) :=
  match nextOp bs with
  | .error .unexpectedEof => .ok none
  | r => r

def compactLoop : Nat → Bytes → Compaction → Except WalError Compaction
  | 0, _, c => .ok c
  | rounds + 1, bs, c =>
    match compactNext bs with
    | .error err => .error err
    | .ok none => .ok c
    | .ok (some (op, rest)) => compactLoop rounds rest (c.record x live op)

/-- `compact`: how many records were removed, and the bytes that take the log's place. -/
def compact (log : Bytes) : Except WalError (Nat × Bytes) :=
  (compactLoop x live (log.length + 1) log .start).map fun c => (c.removed, c.out)

/-! ## What is kept -/

/-- The events kept of the records, when the ids `seen` have been. -/
def keptEvents : Finset Bytes32 → List WalOp → List Event
  | _, [] => []
  | seen, op :: ops =>
    match keep x live seen op with
    | some e => e :: keptEvents (insert e.id seen) ops
    | none => keptEvents seen ops

end

def insertOp (e : Event) : WalOp := .insert e.raw

section
variable {x : Ext} {live seen : Finset Bytes32} {op : WalOp} {ops : List WalOp} {e : Event}

theorem keep_eq_some_iff : keep x live seen op = some e ↔
    op = insertOp e ∧ Event.fromJsonUnchecked x e.raw = .ok e ∧ e.id ∈ live ∧ e.id ∉ seen := by
  constructor
  · intro h
    cases op with
    | insert data =>
      simp only [keep] at h
      split at h
      · rename_i a ha
        split at h
        · rename_i hkeep
          cases h
          have hraw := Event.raw_of_fromJsonUnchecked ha
          refine ⟨?_, ?_, hkeep⟩
          · unfold insertOp
            rw [hraw]
          · rw [hraw]
            exact ha
        · cases h
      · cases h
    | delete id => cases h
    | tombstone id => cases h
  · rintro ⟨rfl, hparse, hkeep⟩
    simp only [keep, insertOp, hparse]
    exact if_pos hkeep

theorem keptEvents_cons_some (h : keep x live seen op = some e) :
    keptEvents x live seen (op :: ops) = e :: keptEvents x live (insert e.id seen) ops := by
  simp only [keptEvents, h]

theorem keptEvents_cons_none (h : keep x live seen op = none) :
    keptEvents x live seen (op :: ops) = keptEvents x live seen ops := by
  simp only [keptEvents, h]

/-- A kept event is one of the records', is live and was not kept before. -/
theorem of_mem_keptEvents (h : e ∈ keptEvents x live seen ops) :
    insertOp e ∈ ops ∧ Event.fromJsonUnchecked x e.raw = .ok e ∧ e.id ∈ live ∧ e.id ∉ seen := by
  induction ops generalizing seen with
  | nil => cases h
  | cons op ops ih =>
    cases hk : keep x live seen op with
    | some a =>
      rw [keptEvents_cons_some hk] at h
      rcases List.mem_cons.1 h with rfl | h
      · obtain ⟨rfl, hkeep⟩ := keep_eq_some_iff.1 hk
        exact ⟨List.mem_cons_self, hkeep⟩
      · obtain ⟨hop, hparse, hlive, hseen⟩ := ih h
        exact ⟨List.mem_cons_of_mem op hop, hparse, hlive, fun hin => hseen (Finset.mem_insert_of_mem hin)⟩
    | none =>
      rw [keptEvents_cons_none hk] at h
      obtain ⟨hop, hkeep⟩ := ih h
      exact ⟨List.mem_cons_of_mem op hop, hkeep⟩

theorem nodup_keptEvents : ((keptEvents x live seen ops).map Event.id).Nodup := by
  induction ops generalizing seen with
  | nil => exact List.nodup_nil
  | cons op ops ih =>
    cases hk : keep x live seen op with
    | some a =>
      rw [keptEvents_cons_some hk, List.map_cons]
      refine List.nodup_cons.2 ⟨fun hin => ?_, ih⟩
      obtain ⟨b, hb, hid⟩ := List.mem_map.1 hin
      exact (of_mem_keptEvents hb).2.2.2 (hid ▸ Finset.mem_insert_self _ _)
    | none =>
      rw [keptEvents_cons_none hk]
      exact ih

/-- Of a live id that the records insert, one event is kept. -/
theorem mem_ids_keptEvents (h : insertOp e ∈ ops) (hparse : Event.fromJsonUnchecked x e.raw = .ok e)
    (hlive : e.id ∈ live) (hseen : e.id ∉ seen) : e.id ∈ (keptEvents x live seen ops).map Event.id := by
  induction ops generalizing seen with
  | nil => cases h
  | cons op ops ih =>
    by_cases hop : insertOp e = op
    · rw [keptEvents_cons_some (keep_eq_some_iff.2 ⟨hop.symm, hparse, hlive, hseen⟩), List.map_cons]
      exact List.mem_cons_self
    · have hrest : insertOp e ∈ ops := (List.mem_cons.1 h).resolve_left hop
      cases hk : keep x live seen op with
      | some a =>
        rw [keptEvents_cons_some hk, List.map_cons]
        by_cases hid : e.id = a.id
        · rw [hid]
          exact List.mem_cons_self
        · exact List.mem_cons_of_mem _ (ih hrest fun hin => (Finset.mem_insert.1 hin).elim hid hseen)
      | none =>
        rw [keptEvents_cons_none hk]
        exact ih hrest hseen

end

/-! ## The loop -/

section
variable {x : Ext} {live : Finset Bytes32}

theorem record_some {c : Compaction} {op : WalOp} {e : Event} (h : keep x live c.seen op = some e) :
    c.record x live op = ⟨c.out ++ encodeOp op, c.kept + 1, c.removed, insert e.id c.seen⟩ := by
  simp only [Compaction.record, h]

theorem record_none {c : Compaction} {op : WalOp} (h : keep x live c.seen op = none) :
    c.record x live op = { c with removed := c.removed + 1 } := by
  simp only [Compaction.record, h]

/-- What the records come to: those of the kept events are copied, the others counted. -/
theorem foldl_record (ops : List WalOp) (c : Compaction) :
    (ops.foldl (Compaction.record x live) c).out =
        c.out ++ encodeAll ((keptEvents x live c.seen ops).map insertOp) ∧
      (ops.foldl (Compaction.record x live) c).removed + (keptEvents x live c.seen ops).length =
        c.removed + ops.length := by
  induction ops generalizing c with
  | nil => exact ⟨(List.append_nil _).symm, rfl⟩
  | cons op ops ih =>
    rw [List.foldl_cons, List.length_cons]
    cases hk : keep x live c.seen op with
    | some e =>
      obtain ⟨hop, -⟩ := keep_eq_some_iff.1 hk
      obtain ⟨hout, hrem⟩ := ih (c.record x live op)
      rw [record_some hk] at hout hrem ⊢
      rw [keptEvents_cons_some hk, List.map_cons, encodeAll_cons, List.length_cons]
      refine ⟨?_, ?_⟩
      · rw [hout, List.append_assoc, hop]
      · show _ + ((keptEvents x live (insert e.id c.seen) ops).length + 1) = _
        dsimp only at hrem
        omega
    | none =>
      obtain ⟨hout, hrem⟩ := ih (c.record x live op)
      rw [record_none hk] at hout hrem ⊢
      rw [keptEvents_cons_none hk]
      refine ⟨hout, ?_⟩
      dsimp only at hrem
      omega

theorem compactNext_encodeOp {op : WalOp} (h : Fits op) (rest : Bytes) :
    compactNext (encodeOp op ++ rest) = .ok (some (op, rest)) := by
  unfold compactNext
  rw [nextOp_encodeOp h]

/-- The loop takes the whole records and stops where there are none. -/
theorem compactLoop_encodeAll {ops : List WalOp} (h : ∀ op ∈ ops, Fits op) {rest : Bytes}
    (hrest : compactNext rest = .ok none) (c : Compaction) :
    ∀ rounds, ops.length < rounds →
      compactLoop x live rounds (encodeAll ops ++ rest) c = .ok (ops.foldl (Compaction.record x live) c) := by
  induction ops generalizing c with
  | nil =>
    intro rounds hr
    obtain ⟨n, rfl⟩ : ∃ n, rounds = n + 1 := ⟨rounds - 1, by rw [List.length_nil] at hr; omega⟩
    show (match compactNext rest with
      | .error err => Except.error err
      | .ok none => .ok c
      | .ok (some (op, rest)) => compactLoop x live n rest (c.record x live op)) = .ok c
    rw [hrest]
  | cons op ops ih =>
    intro rounds hr
    rw [List.length_cons] at hr
    obtain ⟨n, rfl⟩ : ∃ n, rounds = n + 1 := ⟨rounds - 1, by omega⟩
    rw [encodeAll_cons, List.append_assoc, compactLoop, compactNext_encodeOp (h op List.mem_cons_self)]
    exact ih (fun o ho => h o (List.mem_cons_of_mem op ho)) (c.record x live op) n (by omega)

/-- A log is compacted to the inserts of the kept events of its whole records. -/
theorem compact_append {ops : List WalOp} (h : ∀ op ∈ ops, Fits op) {rest : Bytes}
    (hrest : compactNext rest = .ok none) :
    ∃ removed, compact x live (encodeAll ops ++ rest) =
        .ok (removed, encodeAll ((keptEvents x live ∅ ops).map insertOp)) ∧
      removed + (keptEvents x live ∅ ops).length = ops.length := by
  have hlen := length_le_encodeAll ops
  have hloop : compactLoop x live ((encodeAll ops ++ rest).length + 1) (encodeAll ops ++ rest) .start =
      .ok (ops.foldl (Compaction.record x live) .start) :=
    compactLoop_encodeAll h hrest .start _ (by rw [List.length_append]; omega)
  obtain ⟨hout, hrem⟩ : (ops.foldl (Compaction.record x live) .start).out =
        [] ++ encodeAll ((keptEvents x live ∅ ops).map insertOp) ∧
      (ops.foldl (Compaction.record x live) .start).removed + (keptEvents x live ∅ ops).length = 0 + ops.length :=
    foldl_record ops .start
  refine ⟨(ops.foldl (Compaction.record x live) .start).removed, ?_, by omega⟩
  unfold compact
  rw [hloop]
  show Except.ok ((ops.foldl (Compaction.record x live) .start).removed,
      (ops.foldl (Compaction.record x live) .start).out) = _
  rw [hout, List.nil_append]

theorem compact_encodeAll {ops : List WalOp} (h : ∀ op ∈ ops, Fits op) :
    ∃ removed, compact x live (encodeAll ops) = .ok (removed, encodeAll ((keptEvents x live ∅ ops).map insertOp)) ∧
      removed + (keptEvents x live ∅ ops).length = ops.length := by
  have hwhole := @compact_append x live ops h [] rfl
  rwa [List.append_nil] at hwhole

theorem of_compactNext {bs rest : Bytes} {op : WalOp} (h : compactNext bs = .ok (some (op, rest))) :
    bs = encodeOp op ++ rest ∧ Fits op := by
  unfold compactNext at h
  split at h
  · cases h
  · exact nextOp_eq h

/-- A loop that ends without an error has taken whole records and stopped behind them. -/
theorem of_compactLoop {rounds : Nat} {bs : Bytes} {c c' : Compaction} (hr : bs.length < rounds)
    (h : compactLoop x live rounds bs c = .ok c') :
    ∃ ops rest, bs = encodeAll ops ++ rest ∧ (∀ op ∈ ops, Fits op) ∧ compactNext rest = .ok none := by
  induction rounds generalizing bs c with
  | zero => omega
  | succ n ih =>
    rw [compactLoop] at h
    split at h
    · cases h
    · rename_i hnext
      exact ⟨[], bs, rfl, fun _ hop => (List.not_mem_nil hop).elim, hnext⟩
    · rename_i op rest hnext
      obtain ⟨rfl, hfit⟩ := of_compactNext hnext
      have hpos := length_encodeOp_pos op
      rw [List.length_append] at hr
      obtain ⟨ops, tail, rfl, hfits, htail⟩ := ih (by omega) h
      refine ⟨op :: ops, tail, ?_, ?_, htail⟩
      · rw [encodeAll_cons, List.append_assoc]
      · exact List.forall_mem_cons.2 ⟨hfit, hfits⟩

/-- Whatever is in a file that is compacted, whole records come first, and the new file
has the inserts of their kept events. -/
theorem of_compact {log out : Bytes} {removed : Nat} (h : compact x live log = .ok (removed, out)) :
    ∃ ops rest, log = encodeAll ops ++ rest ∧ (∀ op ∈ ops, Fits op) ∧
      out = encodeAll ((keptEvents x live ∅ ops).map insertOp) := by
  have hrun := h
  unfold compact at hrun
  cases hloop : compactLoop x live (log.length + 1) log .start with
  | error err =>
    rw [hloop] at hrun
    cases hrun
  | ok c =>
    obtain ⟨ops, rest, rfl, hfits, hrest⟩ := of_compactLoop (Nat.lt_succ_self _) hloop
    obtain ⟨n, hcompact, -⟩ := @compact_append x live ops hfits rest hrest
    rw [hcompact] at h
    cases h
    exact ⟨ops, rest, rfl, hfits, rfl⟩

theorem keptEvents_sublist (seen : Finset Bytes32) (ops : List WalOp) :
    ((keptEvents x live seen ops).map insertOp).Sublist ops := by
  induction ops generalizing seen with
  | nil => exact List.Sublist.slnil
  | cons op ops ih =>
    cases hk : keep x live seen op with
    | some e =>
      obtain ⟨rfl, -⟩ := keep_eq_some_iff.1 hk
      rw [keptEvents_cons_some hk, List.map_cons]
      exact (ih _).cons_cons _
    | none =>
      rw [keptEvents_cons_none hk]
      exact (ih _).cons _

/-- Distinct live events are all kept. -/
theorem keptEvents_eq {seen : Finset Bytes32} {es : List Event}
    (h : ∀ e ∈ es, Event.fromJsonUnchecked x e.raw = .ok e ∧ e.id ∈ live ∧ e.id ∉ seen)
    (hids : (es.map Event.id).Nodup) :
    keptEvents x live seen (es.map insertOp) = es := by
  induction es generalizing seen with
  | nil => rfl
  | cons e es ih =>
    obtain ⟨hid, hids⟩ := List.nodup_cons.1 hids
    have hkeep := keep_eq_some_iff.2 ⟨rfl, h e List.mem_cons_self⟩
    rw [List.map_cons, keptEvents_cons_some hkeep, ih (fun a ha => ?_) hids]
    obtain ⟨hparse, hlive, hseen⟩ := h a (List.mem_cons_of_mem e ha)
    refine ⟨hparse, hlive, fun hin => ?_⟩
    rcases Finset.mem_insert.1 hin with heq | hin
    · exact hid (heq ▸ List.mem_map_of_mem ha)
    · exact hseen hin

theorem fits_of_inserts {ops : List WalOp} (h : ∀ data, WalOp.insert data ∈ ops → data.length ≤ maxWalRecordSize) :
    ∀ op ∈ ops, Fits op := by
  intro op hop
  cases op with
  | insert data => exact h data hop
  | delete id => trivial
  | tombstone id => trivial

theorem fits_keptEvents {ops : List WalOp} (h : ∀ op ∈ ops, Fits op) :
    ∀ op ∈ (keptEvents x live ∅ ops).map insertOp, Fits op := by
  intro op hop
  obtain ⟨e, he, rfl⟩ := List.mem_map.1 hop
  exact h _ (of_mem_keptEvents he).1

end
end Wal

/-! ## A replay of what is kept -/

namespace Store

open Index (Inv Agree)
open Wal (Fits encodeAll insertOp keptEvents)

section
variable {x : Ext} {ops : List WalOp}

/-- The events of the insert records. -/
def Logged (x : Ext) (ops : List WalOp) (e : Event) : Prop :=
  insertOp e ∈ ops ∧ Event.fromJsonUnchecked x e.raw = .ok e

theorem put_mem_iff {e : Event} : Rec.put e ∈ ops.filterMap (parseOp x) ↔ Logged x ops e := by
  rw [List.mem_filterMap]
  constructor
  · rintro ⟨op, hop, hparse⟩
    cases op with
    | insert data =>
      simp only [parseOp, Option.map_eq_some_iff] at hparse
      obtain ⟨a, ha, hput⟩ := hparse
      cases hput
      cases hok : Event.fromJsonUnchecked x data with
      | error err =>
        rw [hok] at ha
        cases ha
      | ok b =>
        rw [hok] at ha
        cases ha
        have hraw := Event.raw_of_fromJsonUnchecked hok
        refine ⟨?_, ?_⟩
        · unfold insertOp
          rwa [hraw]
        · rwa [hraw]
    | delete id => cases hparse
    | tombstone id => cases hparse
  · rintro ⟨hop, hparse⟩
    refine ⟨insertOp e, hop, ?_⟩
    simp only [parseOp, insertOp, hparse]
    rfl

/-- What a directory with nothing but a whole log applies. -/
theorem diskRecs_encodeAll (hfit : ∀ op ∈ ops, Fits op) :
    diskRecs x ⟨none, none, some (encodeAll ops)⟩ = ops.filterMap (parseOp x) := by
  show [] ++ ([] ++ segmentRecs x (some (encodeAll ops))) = _
  rw [List.nil_append, List.nil_append]
  exact segmentRecs_of_encodeAll rfl hfit

theorem inv_foldl_redo {E : Event → Prop} (hA : Agree E) {recs : List Rec} (hrecs : ∀ a ∈ recs, a.In E) {s : Index}
    (hI : Inv E s) : Inv E (recs.foldl redo s) := by
  induction recs generalizing s with
  | nil => exact hI
  | cons a recs ih =>
    exact ih (fun b hb => hrecs b (List.mem_cons_of_mem a hb)) (inv_redo hA hI (hrecs a List.mem_cons_self))

/-- The index a whole log is replayed into holds its events only. -/
theorem inv_replay (hfit : ∀ op ∈ ops, Fits op) (hA : Agree (Logged x ops)) :
    Inv (Logged x ops) (recover x ⟨none, none, some (encodeAll ops)⟩) := by
  unfold recover
  rw [diskRecs_encodeAll hfit]
  refine inv_foldl_redo hA (fun a ha => ?_) (Index.inv_new _)
  cases a with
  | put e => exact put_mem_iff.1 ha
  | remove id => trivial
  | bury id => trivial

/-- Events whose ids are live together, one for each id, do not compete. -/
theorem separate_of_live {E : Event → Prop} {s : Index} (hI : Inv E s) (hA : Agree E) {es : List Event}
    (hE : ∀ e ∈ es, E e) (hlive : ∀ e ∈ es, e.id ∈ s.liveIds) (hids : (es.map Event.id).Nodup) : Separate es := by
  have hheld : ∀ e ∈ es, ∃ y, s.byId.lookup y.id = some y ∧ y.id = e.id ∧ Event.SameFields y e := by
    intro e he
    obtain ⟨y, hy⟩ := Index.mem_liveIds.1 (hlive e he)
    obtain ⟨hEy, hid⟩ := hI.mem _ _ hy
    refine ⟨y, ?_, hid, hA y e hEy (hE e he) hid⟩
    rwa [hid]
  refine ⟨hids, hids.of_map.pairwise_of_forall_ne fun a ha b hb hab hn hk => hab ?_⟩
  obtain ⟨y, hy, hya, hfa⟩ := hheld a ha
  obtain ⟨z, hz, hzb, hfb⟩ := hheld b hb
  have hr : y.isReplaceable = true := by
    rw [hfa.isReplaceable]
    cases h : a.isReplaceable with
    | true => rfl
    | false => exact absurd ((Event.replacementKey_eq_none_iff a).2 h) hn
  have hkey : y.replacementKey = z.replacementKey := by rw [hfa.replacementKey, hk, hfb.replacementKey]
  have hyz : y = z := hI.unique hy hz hr hkey
  refine List.inj_on_of_nodup_map hids ha hb ?_
  rw [← hya, hyz, hzb]

/-- Separate events in a log come back as they are. -/
theorem holds_recover {es : List Event} (hfit : ∀ op ∈ es.map insertOp, Fits op)
    (hparse : ∀ e ∈ es, Event.fromJsonUnchecked x e.raw = .ok e) (hsep : Separate es) :
    (recover x ⟨none, none, some (encodeAll (es.map insertOp))⟩).Holds es := by
  have hrecs : (es.map insertOp).filterMap (parseOp x) = es.map .put := by
    rw [List.filterMap_map, ← List.filterMap_eq_map]
    refine List.filterMap_congr fun e he => ?_
    simp only [Function.comp_apply, insertOp, parseOp, hparse e he]
    rfl
  unfold recover
  rw [diskRecs_encodeAll hfit, hrecs, List.foldl_map]
  exact hsep.holds_foldl

theorem liveIds_of_holds {s : Index} {es : List Event} (h : s.Holds es) :
    s.liveIds = (es.map Event.id).toFinset := by
  ext id
  rw [Index.mem_liveIds, List.mem_toFinset, List.mem_map]
  exact exists_congr fun e => h id e

/-- What is live was put by a record of the log. -/
theorem logged_of_lookup (hfit : ∀ op ∈ ops, Fits op) {id : Bytes32} {y : Event}
    (h : (recover x ⟨none, none, some (encodeAll ops)⟩).byId.lookup id = some y) : Logged x ops y := by
  have hput := put_mem_of_replayFiles (replayFiles_zero x ⟨none, none, some (encodeAll ops)⟩) h
  rw [diskRecs_encodeAll hfit] at hput
  exact put_mem_iff.1 hput

/-- The kept events are one for each live id. -/
theorem ids_keptEvents (hfit : ∀ op ∈ ops, Fits op) (hA : Agree (Logged x ops)) {live : Finset Bytes32}
    (hlive : live = (recover x ⟨none, none, some (encodeAll ops)⟩).liveIds) :
    ((keptEvents x live ∅ ops).map Event.id).toFinset = live := by
  ext id
  rw [List.mem_toFinset]
  constructor
  · intro hin
    obtain ⟨e, he, rfl⟩ := List.mem_map.1 hin
    exact (Wal.of_mem_keptEvents he).2.2.1
  · intro hin
    have hmem := hin
    rw [hlive] at hmem
    obtain ⟨y, hy⟩ := Index.mem_liveIds.1 hmem
    obtain ⟨-, rfl⟩ := (inv_replay hfit hA).mem _ _ hy
    obtain ⟨hop, hparse⟩ := logged_of_lookup hfit hy
    exact Wal.mem_ids_keptEvents hop hparse hin (Finset.notMem_empty _)

end

/-- A whole log, compacted with the ids that its replay leaves live: the new log has one
insert for each of them and no other record, its replay leaves the same ids live, and
every record of the old log was kept or counted as removed. -/
theorem compact_replay (x : Ext) (ops : List WalOp)
    (hfit : ∀ data, WalOp.insert data ∈ ops → data.length ≤ maxWalRecordSize) (hA : Agree (Logged x ops))
    (n : Nat) (s : Index) (hs : replayFiles x 0 .new ⟨none, none, some (encodeAll ops)⟩ = some (n, s)) :
    ∃ removed newLog, Wal.compact x s.liveIds (encodeAll ops) = .ok (removed, newLog) ∧
      (∃ m s', replayFiles x 0 .new ⟨none, none, some newLog⟩ = some (m, s') ∧ s'.liveIds = s.liveIds) ∧
      (∃ es : List Event, newLog = encodeAll (es.map insertOp) ∧ Wal.records newLog = es.map insertOp ∧
        (∀ e ∈ es, Event.fromJsonUnchecked x e.raw = .ok e) ∧
        (es.map Event.id).Nodup ∧ (es.map Event.id).toFinset = s.liveIds) ∧
      removed + (Wal.records newLog).length = ops.length := by
  have hfits := Wal.fits_of_inserts hfit
  have hs' : s = recover x ⟨none, none, some (encodeAll ops)⟩ := by
    rw [replayFiles_zero] at hs
    cases hs
    rfl
  obtain ⟨removed, hcompact, hrem⟩ := @Wal.compact_encodeAll x s.liveIds ops hfits
  have hkept : ∀ e ∈ keptEvents x s.liveIds ∅ ops, Logged x ops e ∧ e.id ∈ s.liveIds := by
    intro e he
    obtain ⟨hop, hparse, hlive, -⟩ := Wal.of_mem_keptEvents he
    exact ⟨⟨hop, hparse⟩, hlive⟩
  have hids : ((keptEvents x s.liveIds ∅ ops).map Event.id).toFinset = s.liveIds :=
    ids_keptEvents hfits hA (congrArg Index.liveIds hs')
  have hsep : Separate (keptEvents x s.liveIds ∅ ops) := by
    refine separate_of_live (E := Logged x ops) (s := s) ?_ hA (fun e he => (hkept e he).1)
        (fun e he => (hkept e he).2)
      Wal.nodup_keptEvents
    rw [hs']
    exact inv_replay hfits hA
  have hnew := @Wal.fits_keptEvents x s.liveIds ops hfits
  have hrecords := Wal.records_encodeAll hnew
  refine ⟨removed, _, hcompact, ⟨_, _, replayFiles_zero x _, ?_⟩,
    ⟨_, rfl, hrecords, fun e he => (hkept e he).1.2, Wal.nodup_keptEvents, hids⟩, ?_⟩
  · rw [liveIds_of_holds (holds_recover hnew (fun e he => (hkept e he).1.2) hsep), hids]
  · rw [hrecords, List.length_map, hrem]

/-- A note is inserted, deleted and inserted again; a tombstone is of another id. -/
def reinserted : List WalOp := [insertOp (note 0), .tombstone 7, .delete (note 0).id, insertOp (note 0)]

theorem compact_replay_reinserted : ∃ n s,
    replayFiles (Ext.known [note 0] []) 0 .new ⟨none, none, some (encodeAll reinserted)⟩ = some (n, s) ∧
    s.liveIds = {(note 0).id} ∧
    ∃ removed newLog, Wal.compact (Ext.known [note 0] []) s.liveIds (encodeAll reinserted) =
        .ok (removed, newLog) ∧
      (∃ m s', replayFiles (Ext.known [note 0] []) 0 .new ⟨none, none, some newLog⟩ = some (m, s') ∧
        s'.liveIds = s.liveIds) ∧
      (∃ es : List Event, newLog = encodeAll (es.map insertOp) ∧ Wal.records newLog = es.map insertOp ∧
        (∀ e ∈ es, Event.fromJsonUnchecked (Ext.known [note 0] []) e.raw = .ok e) ∧
        (es.map Event.id).Nodup ∧ (es.map Event.id).toFinset = s.liveIds) ∧
      removed + (Wal.records newLog).length = 4 := by
  have hparse : Event.fromJsonUnchecked (Ext.known [note 0] []) (note 0).raw = .ok (note 0) :=
    fromJsonUnchecked_known List.mem_cons_self fun a ha _ => List.mem_singleton.1 ha
  have hfit : ∀ data, WalOp.insert data ∈ reinserted → data.length ≤ maxWalRecordSize := by
    intro data hdata
    have hraw : data = (note 0).raw := by simpa [reinserted, insertOp] using hdata
    rw [hraw, length_raw_note]
    decide
  have hA : Agree (Logged (Ext.known [note 0] []) reinserted) := by
    have hnote : ∀ e, Logged (Ext.known [note 0] []) reinserted e → e = note 0 := by
      rintro e ⟨hop, he⟩
      have hraw : e.raw = (note 0).raw := by simpa [reinserted, insertOp] using hop
      rw [hraw, hparse] at he
      exact (Except.ok.inj he).symm
    intro a b ha hb _
    rw [hnote a ha, hnote b hb]
    exact note_sameFields 0 0
  have hrecs : diskRecs (Ext.known [note 0] []) ⟨none, none, some (encodeAll reinserted)⟩ =
      [.put (note 0), .bury 7, .remove (note 0).id, .put (note 0)] := by
    rw [diskRecs_encodeAll (Wal.fits_of_inserts hfit)]
    simp only [reinserted, insertOp, List.filterMap_cons, List.filterMap_nil, parseOp, hparse]
    rfl
  have hs := replayFiles_zero (Ext.known [note 0] []) ⟨none, none, some (encodeAll reinserted)⟩
  refine ⟨_, _, hs, ?_, compact_replay (Ext.known [note 0] []) reinserted hfit hA _ _ hs⟩
  unfold recover
  rw [hrecs]
  rfl

end Store
end Memlay
