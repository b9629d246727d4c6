import Memlay.Checkpoint

/-!
# Appends behind a torn record

A crash in the middle of an append leaves a segment that ends inside a record.  The
next process opens it in append mode, and nothing marks where the new records start:
they are read as the rest of the torn one.  Only a load that has applied a record
ends with a checkpoint, which gives the log a new file.

    recovers_inserts_iff   the inserts behind a cut segment come back ↔ the load has
                           applied a record, or the cut is between two records

The first insert is lost otherwise.  Its record is swallowed at least in part, and
from then on the reader is inside a record of an insert (`Inside`), whose JSON has no
type byte and whose length is followed by JSON: it stops there, reads a removal, or
arrives at the start of a later record.
-/

namespace Memlay
namespace Wal

/-- JSON has no control characters but tab, line feed and carriage return. -/
def Clean (data : Bytes) : Prop := 4 ≤ data.length ∧ ∀ b ∈ data, 9 ≤ b.toNat

instance (data : Bytes) : Decidable (Clean data) := inferInstanceAs (Decidable (_ ∧ _))

theorem clean_of_printable {data : Bytes} (hlen : 4 ≤ data.length) (h : Event.Printable data) : Clean data := by
  refine ⟨hlen, fun b hb => ?_⟩
  have hb32 : 32 ≤ b.toNat := UInt8.le_iff_toNat_le.1 (h b hb).1
  omega

/-- Records of inserts that are read back. -/
def Inserts (ops : List WalOp) : Prop := ∀ op ∈ ops, ∃ data, op = .insert data ∧ Clean data ∧ Fits op

/-! ## Where a segment is cut -/

theorem cut_cases {ops : List WalOp} {bs : Bytes} (hpre : bs <+: encodeAll ops) :
    (∃ j ≤ ops.length, bs = encodeAll (ops.take j)) ∨
      ∃ whole op post torn, ops = whole ++ op :: post ∧ bs = encodeAll whole ++ torn ∧ torn ≠ [] ∧
        torn <+: encodeOp op ∧ torn.length < (encodeOp op).length := by
  induction ops generalizing bs with
  | nil => exact Or.inl ⟨0, Nat.le_refl 0, List.prefix_nil.1 hpre⟩
  | cons op ops ih =>
    rw [encodeAll_cons] at hpre
    by_cases hlen : bs.length < (encodeOp op).length
    · by_cases hne : bs = []
      · exact Or.inl ⟨0, Nat.zero_le _, hne⟩
      · refine Or.inr ⟨[], op, ops, bs, rfl, rfl, hne, ?_, hlen⟩
        exact List.prefix_of_prefix_length_le hpre (List.prefix_append _ _) hlen.le
    · obtain ⟨rest, rfl⟩ : encodeOp op <+: bs :=
        List.prefix_of_prefix_length_le (List.prefix_append _ _) hpre (by omega)
      rcases ih ((List.prefix_append_right_inj _).1 hpre) with
          ⟨j, hj, hrest⟩ | ⟨whole, o, post, torn, hops, hrest, htorn⟩
      · refine Or.inl ⟨j + 1, Nat.succ_le_succ hj, ?_⟩
        rw [List.take_succ_cons, encodeAll_cons, hrest]
      · refine Or.inr ⟨op :: whole, o, post, torn, by rw [hops, List.cons_append], ?_, htorn⟩
        rw [encodeAll_cons, hrest, List.append_assoc]

theorem fromLeBytes_four (a b c d : UInt8) :
    fromLeBytes [a, b, c, d] = a.toNat + 256 * b.toNat + 65536 * c.toNat + 16777216 * d.toNat := by
  simp only [fromLeBytes, beVal, List.reverse_cons, List.reverse_nil, List.nil_append, List.cons_append,
    List.foldl_cons, List.foldl_nil]
  omega

/-! ## The reader inside a record -/

/-- The rest of an insert's record, behind its type byte or further on. -/
def Inside (s : Bytes) : Prop := ∃ data k, Clean data ∧ 0 < k ∧ s = (encodeOp (.insert data)).drop k

theorem Inside.drop {s : Bytes} (h : Inside s) (n : Nat) : Inside (s.drop n) := by
  obtain ⟨data, k, hc, hk, rfl⟩ := h
  exact ⟨data, k + n, hc, by omega, by rw [List.drop_drop]⟩

theorem exists_toLeBytes (n : Nat) : ∃ l₀ l₁ l₂ l₃, toLeBytes n = [l₀, l₁, l₂, l₃] := by
  have hlen : (toLeBytes n).length = 4 := by
    unfold toLeBytes
    rw [List.length_reverse, length_beBytes]
  match toLeBytes n, hlen with
  | [l₀, l₁, l₂, l₃], _ => exact ⟨l₀, l₁, l₂, l₃, rfl⟩

/-- No insert is read inside a record. -/
theorem exists_four {data : Bytes} (h : 4 ≤ data.length) :
    ∃ d₀ d₁ d₂ d₃ ds, data = d₀ :: d₁ :: d₂ :: d₃ :: ds := by
  obtain ⟨d₀, t₀, rfl⟩ := List.exists_cons_of_length_pos (show 0 < data.length by omega)
  rw [List.length_cons] at h
  obtain ⟨d₁, t₁, rfl⟩ := List.exists_cons_of_length_pos (show 0 < t₀.length by omega)
  rw [List.length_cons] at h
  obtain ⟨d₂, t₂, rfl⟩ := List.exists_cons_of_length_pos (show 0 < t₁.length by omega)
  rw [List.length_cons] at h
  obtain ⟨d₃, t₃, rfl⟩ := List.exists_cons_of_length_pos (show 0 < t₂.length by omega)
  exact ⟨d₀, d₁, d₂, d₃, t₃, rfl⟩

theorem Inside.nextOp {s : Bytes} (h : Inside s) (hne : s ≠ []) {bs rest : Bytes} {op : WalOp}
    (hnext : nextOp (s ++ bs) = .ok (some (op, rest))) :
    (∀ data, op ≠ .insert data) ∧ rest = (s ++ bs).drop 33 := by
  obtain ⟨b, s', rfl⟩ := List.exists_cons_of_ne_nil hne
  rw [List.cons_append] at hnext
  rcases nextOp_cases hnext with ⟨hb, len, hlen, hmax, -⟩ | ⟨-, hop, -, -, hrest⟩
  · exfalso
    obtain ⟨data, k, ⟨h4, hclean⟩, hk, hs⟩ := h
    -- four bytes of a length that has JSON in its highest byte
    have hlarge : ∀ a b c d : UInt8, 9 ≤ d.toNat → (s' ++ bs).take 4 = [a, b, c, d] → False := by
      intro a b c d hd htake
      rw [htake, fromLeBytes_four] at hlen
      unfold maxWalRecordSize at hmax
      omega
    obtain ⟨l₀, l₁, l₂, l₃, hle⟩ := exists_toLeBytes data.length
    obtain ⟨d₀, d₁, d₂, d₃, ds, rfl⟩ := exists_four h4
    simp only [encodeOp, hle, List.cons_append, List.nil_append] at hs
    have hcases : k = 1 ∨ k = 2 ∨ k = 3 ∨ k = 4 ∨ 5 ≤ k := by omega
    rcases hcases with rfl | rfl | rfl | rfl | hfive
    · obtain ⟨-, rfl⟩ := List.cons.inj hs
      exact hlarge l₁ l₂ l₃ d₀ (hclean _ (by simp)) rfl
    · obtain ⟨-, rfl⟩ := List.cons.inj hs
      exact hlarge l₂ l₃ d₀ d₁ (hclean _ (by simp)) rfl
    · obtain ⟨-, rfl⟩ := List.cons.inj hs
      exact hlarge l₃ d₀ d₁ d₂ (hclean _ (by simp)) rfl
    · obtain ⟨-, rfl⟩ := List.cons.inj hs
      exact hlarge d₀ d₁ d₂ d₃ (hclean _ (by simp)) rfl
    · obtain ⟨k, rfl⟩ := Nat.exists_eq_add_of_le' hfive
      have hmem : b ∈ d₀ :: d₁ :: d₂ :: d₃ :: ds := by
        refine List.mem_of_mem_drop (i := k) ?_
        have hs' : b :: s' = (d₀ :: d₁ :: d₂ :: d₃ :: ds).drop k := hs
        rw [← hs']
        exact List.mem_cons_self
      have := hclean b hmem
      rw [hb] at this
      exact absurd this (by decide)
  · exact ⟨hop, hrest⟩

theorem Inserts.tail {op : WalOp} {ops : List WalOp} (h : Inserts (op :: ops)) : Inserts ops :=
  fun o ho => h o (List.mem_cons_of_mem op ho)

/-- The record behind its first byte. -/
theorem inside_tail {data : Bytes} (h : Clean data) : Inside (encodeOp (.insert data)).tail :=
  ⟨data, 1, h, Nat.one_pos, List.drop_one.symm⟩

/-- Any later place is inside a record or at the start of one. -/
theorem Inside.drop_append {ops : List WalOp} (hops : Inserts ops) {s : Bytes} (h : Inside s) (n : Nat) :
    ∃ s' ops', ops' <:+ ops ∧ Inside s' ∧ (s ++ encodeAll ops).drop n = s' ++ encodeAll ops' := by
  induction ops generalizing s n with
  | nil =>
    exact ⟨(s ++ encodeAll []).drop n, [], List.suffix_refl [],
        by simpa [encodeAll] using h.drop n, by simp [encodeAll]⟩
  | cons op ops ih =>
    by_cases hn : n ≤ s.length
    · exact ⟨s.drop n, op :: ops, List.suffix_refl _, h.drop n, List.drop_append_of_le_length hn⟩
    · obtain ⟨data, rfl, hclean, -⟩ := hops op (by simp)
      obtain ⟨s', ops', hsuf, hin, heq⟩ := ih hops.tail (inside_tail hclean) (n - s.length - 1)
      refine ⟨s', ops', hsuf.trans (List.suffix_cons _ ops), hin, ?_⟩
      rw [← heq, List.drop_append, List.drop_eq_nil_of_le (by omega), List.nil_append, encodeAll_cons]
      obtain ⟨m, hm⟩ : ∃ m, n - s.length = m + 1 := ⟨n - s.length - 1, by omega⟩
      rw [hm, Nat.add_sub_cancel]
      rfl

/-- Every insert that is read from inside a record is one of the records behind it. -/
theorem Inside.mem_of_replayLoop (rounds : Nat) {s : Bytes} (h : Inside s) {ops : List WalOp} (hops : Inserts ops)
    {data : Bytes} (hmem : .insert data ∈ (replayLoop rounds (s ++ encodeAll ops)).1) : .insert data ∈ ops := by
  induction rounds generalizing s ops with
  | zero => exact absurd hmem List.not_mem_nil
  | succ rounds ih =>
    unfold replayLoop at hmem
    split at hmem
    · exact absurd hmem List.not_mem_nil
    · exact absurd hmem List.not_mem_nil
    · rename_i op rest hnext
      by_cases hs : s = []
      · -- at the start of a record
        subst hs
        cases ops with
        | nil => cases hnext
        | cons o ops =>
          obtain ⟨d, rfl, hclean, hfit⟩ := hops o (by simp)
          rw [List.nil_append, encodeAll_cons, nextOp_encodeOp hfit] at hnext
          cases hnext
          rcases List.mem_cons.1 hmem with heq | hmem
          · rw [heq]
            exact List.mem_cons_self
          · exact List.mem_cons_of_mem _ (ih h hops.tail hmem)
      · obtain ⟨hop, hrest⟩ := h.nextOp hs hnext
        obtain ⟨s', ops', hsuf, hin, heq⟩ := h.drop_append hops 33
        rw [hrest, heq] at hmem
        rcases List.mem_cons.1 hmem with heq | hmem
        · exact absurd heq.symm (hop data)
        · exact hsuf.subset (ih hin (fun o ho => hops o (hsuf.subset ho)) hmem)

/-! ## Behind a torn record -/

/-- What the torn record swallows of the first record behind it leaves the reader
inside that one, or further on. -/
theorem mem_of_replayLoop_drop (rounds : Nat) {first : Bytes} {ops : List WalOp}
    (hops : Inserts (.insert first :: ops))
    {n : Nat} (hn : 0 < n) {data : Bytes}
    (hmem : .insert data ∈ (replayLoop rounds ((encodeAll (.insert first :: ops)).drop n)).1) :
    .insert data ∈ ops := by
  obtain ⟨d, hd, hclean, -⟩ := hops _ List.mem_cons_self
  cases hd
  obtain ⟨s', ops', hsuf, hin, heq⟩ := (inside_tail hclean).drop_append hops.tail (n - 1)
  have hdrop : (encodeAll (.insert first :: ops)).drop n = s' ++ encodeAll ops' := by
    rw [← heq]
    obtain ⟨m, rfl⟩ : ∃ m, n = m + 1 := ⟨n - 1, by omega⟩
    rfl
  rw [hdrop] at hmem
  exact hsuf.subset (hin.mem_of_replayLoop rounds
      (fun o ho => hops o (List.mem_cons_of_mem _ (hsuf.subset ho))) hmem)

/-- The highest byte of the length of a record that fits. -/
theorem toLeBytes_high {n : Nat} (h : n ≤ maxWalRecordSize) {l₀ l₁ l₂ l₃ : UInt8}
    (hle : toLeBytes n = [l₀, l₁, l₂, l₃]) : l₃.toNat < 9 := by
  unfold maxWalRecordSize at h
  have hback : fromLeBytes (toLeBytes n) = n := fromLeBytes_toLeBytes (by omega)
  rw [hle, fromLeBytes_four] at hback
  omega

/-- The data that a torn insert ends up with is no JSON: it runs over the type byte of
the next record, or over the length of it. -/
theorem not_clean_of_torn {d first : Bytes} {ops : List WalOp} (hd : Fits (.insert d))
    (hfirst : Fits (.insert first))
    {p : Bytes} (hpre : p <+: toLeBytes d.length ++ d) (hlen : p.length < 4 + d.length) {len : Nat}
    (hl : len = fromLeBytes ((p ++ encodeAll (.insert first :: ops)).take 4)) :
    p.length < 4 + len ∧ ¬ Clean (((p ++ encodeAll (.insert first :: ops)).drop 4).take len) := by
  obtain ⟨l₀, l₁, l₂, l₃, hle⟩ := exists_toLeBytes first.length
  have hhigh := toLeBytes_high hfirst hle
  have hrec : encodeAll (.insert first :: ops) = 0 :: l₀ :: l₁ :: l₂ :: l₃ :: (first ++ encodeAll ops) := by
    rw [encodeAll_cons]
    simp only [encodeOp, hle, List.cons_append, List.nil_append]
  rw [hrec] at hl ⊢
  by_cases h4 : 4 ≤ p.length
  · -- the length is whole
    have hlen4 : (toLeBytes d.length).length = 4 := by
      unfold toLeBytes
      rw [List.length_reverse, length_beBytes]
    have htake : p.take 4 = toLeBytes d.length := by
      obtain ⟨t, ht⟩ := hpre
      have := congrArg (List.take 4) ht
      rwa [List.take_append_of_le_length h4, List.take_left' hlen4] at this
    have hlen' : len = d.length := by
      have hle : d.length ≤ maxWalRecordSize := hd
      unfold maxWalRecordSize at hle
      rw [hl, List.take_append_of_le_length h4, htake, fromLeBytes_toLeBytes (by omega)]
    refine ⟨by omega, fun hclean => ?_⟩
    obtain ⟨m, hm⟩ : ∃ m, len - (p.drop 4).length = m + 1 := ⟨len - (p.drop 4).length - 1, by
      rw [List.length_drop]
      omega⟩
    have hzero : (0 : UInt8) ∈ ((p ++ 0 :: l₀ :: l₁ :: l₂ :: l₃ :: (first ++ encodeAll ops)).drop 4).take len := by
      rw [List.drop_append_of_le_length h4, List.take_append, hm, List.take_succ_cons]
      exact List.mem_append_right _ List.mem_cons_self
    exact absurd (hclean.2 0 hzero) (by decide)
  · refine ⟨by omega, fun hclean => ?_⟩
    obtain ⟨m, rfl⟩ : ∃ m, len = m + 4 := by
      have := hclean.1
      rw [List.length_take] at this
      exact ⟨len - 4, by omega⟩
    have hmem : l₃ ∈ ((p ++ 0 :: l₀ :: l₁ :: l₂ :: l₃ :: (first ++ encodeAll ops)).drop 4).take (m + 4) := by
      rw [List.drop_append, List.drop_eq_nil_of_le (by omega), List.nil_append]
      have ho : 4 - p.length = 1 ∨ 4 - p.length = 2 ∨ 4 - p.length = 3 ∨ 4 - p.length = 4 := by omega
      rcases ho with ho | ho | ho | ho <;> simp [ho]
    have := hclean.2 l₃ hmem
    omega

/-- Every insert that is read behind a torn record is behind the first of the records
that were appended there. -/
theorem mem_of_replayLoop_torn (rounds : Nat) {op : WalOp} (hfit : Fits op) {torn : Bytes} (hne : torn ≠ [])
    (hpre : torn <+: encodeOp op) (hlen : torn.length < (encodeOp op).length) {first : Bytes} {ops : List WalOp}
    (hops : Inserts (.insert first :: ops)) {data : Bytes} (hclean : Clean data)
    (hmem : .insert data ∈ (replayLoop rounds (torn ++ encodeAll (.insert first :: ops))).1) :
    .insert data ∈ ops := by
  cases rounds with
  | zero => exact absurd hmem List.not_mem_nil
  | succ rounds =>
    obtain ⟨b, p, rfl⟩ := List.exists_cons_of_ne_nil hne
    unfold replayLoop at hmem
    split at hmem
    · exact absurd hmem List.not_mem_nil
    · exact absurd hmem List.not_mem_nil
    · rename_i o rest hnext
      rw [List.cons_append] at hnext
      have hdrop : ∀ n, p.length < n → (p ++ encodeAll (.insert first :: ops)).drop n =
          (encodeAll (.insert first :: ops)).drop (n - p.length) := by
        intro n hn
        rw [List.drop_append, List.drop_eq_nil_of_le (by omega), List.nil_append]
      rcases nextOp_cases hnext with ⟨hb, len, hl, -, -, ho, hrest⟩ | ⟨hb, ho, -, -, hrest⟩
      · cases op with
        | insert d =>
          obtain ⟨d₁, hd₁, -, hfirst⟩ := hops _ List.mem_cons_self
          have hp : p <+: toLeBytes d.length ++ d := (List.cons_prefix_cons.1 hpre).2
          have hplen : p.length < 4 + d.length := by
            simp only [encodeOp, List.length_cons, List.length_append] at hlen
            unfold toLeBytes at hlen
            rw [List.length_reverse, length_beBytes] at hlen
            omega
          obtain ⟨hshort, hnot⟩ := not_clean_of_torn hfit hfirst hp hplen hl
          rw [hrest, hdrop _ hshort] at hmem
          rcases List.mem_cons.1 hmem with heq | hmem
          · rw [ho] at heq
            cases heq
            exact absurd hclean hnot
          · exact mem_of_replayLoop_drop rounds hops (by omega) hmem
        | delete id => exact absurd (hb.symm.trans (List.cons_prefix_cons.1 hpre).1) (by decide)
        | tombstone id => exact absurd (hb.symm.trans (List.cons_prefix_cons.1 hpre).1) (by decide)
      · have hshort : p.length < 32 := by
          cases op with
          | insert d =>
            rw [(List.cons_prefix_cons.1 hpre).1] at hb
            exact absurd hb (by decide)
          | delete id =>
            simp only [encodeOp, List.length_cons, idBytes, length_beBytes] at hlen
            omega
          | tombstone id =>
            simp only [encodeOp, List.length_cons, idBytes, length_beBytes] at hlen
            omega
        rw [hrest, hdrop _ hshort] at hmem
        rcases List.mem_cons.1 hmem with heq | hmem
        · exact absurd heq.symm (ho data)
        · exact mem_of_replayLoop_drop rounds hops (by omega) hmem

/-- The whole records of a segment are read first. -/
theorem mem_of_replayLoop_encodeAll_append {whole : List WalOp} (hfit : ∀ op ∈ whole, Fits op) {bs : Bytes}
    (rounds : Nat) {op : WalOp} (hmem : op ∈ (replayLoop rounds (encodeAll whole ++ bs)).1) :
    op ∈ whole ∨ ∃ n, op ∈ (replayLoop n bs).1 := by
  induction whole generalizing rounds with
  | nil => exact Or.inr ⟨rounds, hmem⟩
  | cons o whole ih =>
    cases rounds with
    | zero => exact absurd hmem List.not_mem_nil
    | succ rounds =>
      unfold replayLoop at hmem
      rw [encodeAll_cons, List.append_assoc, nextOp_encodeOp (hfit o (by simp))] at hmem
      rcases List.mem_cons.1 hmem with rfl | hmem
      · exact Or.inl List.mem_cons_self
      · exact (ih (fun o ho => hfit o (List.mem_cons_of_mem _ ho)) rounds hmem).imp_left (List.mem_cons_of_mem _)

end Wal

namespace TornTail

open Store (Rec Recorded diskRecs segmentRecs snapshotRecs recover)
open Wal (encodeAll recordEnd)

/-- The text of an event is JSON: no control characters but white space, and room for
six members. -/
def JsonTexts (x : Ext) : Prop := ∀ json raw, x.rawEvent json = .ok raw → Wal.Clean json

/-- Inserts of regular events that the index does not know, each with its own id. -/
structure FreshRegular (x : Ext) (s : Index) (es : List Event) : Prop where
  regular : ∀ e ∈ es, e.isEphemeral = false ∧ e.isReplaceable = false
  recorded : ∀ e ∈ es, Recorded x e
  distinct : (es.map Event.id).Nodup
  absent : ∀ e ∈ es, s.byId.lookup e.id = none ∧ s.isTombstoned e.id = false

/-- The data directory after the crash. -/
def image (bs : Bytes) : Files := ⟨none, none, some bs⟩

def insertAll (st : Store) (es : List Event) : Store := es.foldl (fun st e => (st.insert e).2) st

/-- A second crash and load give each event back. -/
def Recovers (x : Ext) (order : List Event) (st : Store) (es : List Event) : Prop :=
  ∃ st', (Store.new st.files).loadFromDisk x 0 order = some st' ∧ ∀ e ∈ es, st'.index.byId.lookup e.id = some e

/-- The cut leaves a record that a load applies, or it is between two records. -/
def Repaired (x : Ext) (ops : List WalOp) (bs : Bytes) : Prop :=
  (∃ i op, ops[i]? = some op ∧ recordEnd ops i ≤ bs.length ∧ (Store.parseOp x op).isSome) ∨
    ∃ j ≤ ops.length, bs = encodeAll (ops.take j)

/-! ## Inserts of regular events -/

section
variable {x : Ext}

/-- Inserting regular events makes each of them live. -/
theorem lookup_foldl_insert {es : List Event} (hr : ∀ e ∈ es, e.isReplaceable = false)
    (hd : (es.map Event.id).Nodup) {s : Index} (ht : s.tombstones = .new) (id : Bytes32) :
    (∀ e ∈ es, (es.foldl (fun s e => (s.insert e).2) s).byId.lookup e.id = some e) ∧
      ((∀ e ∈ es, e.id ≠ id) → (es.foldl (fun s e => (s.insert e).2) s).byId.lookup id = s.byId.lookup id) := by
  induction es generalizing s id with
  | nil => exact ⟨fun e he => absurd he List.not_mem_nil, fun _ => rfl⟩
  | cons a es ih =>
    rw [List.map_cons, List.nodup_cons] at hd
    have hta : s.isTombstoned a.id = false := by
      unfold Index.isTombstoned
      rw [ht]
      rfl
    have hins := Index.lookup_insert_of_regular (hr a (by simp)) hta
    have ih' := fun id => ih (fun e he => hr e (List.mem_cons_of_mem a he)) hd.2
        ((Index.insert_tombstones s a).trans ht) id
    refine ⟨fun e he => ?_, fun hne => ?_⟩
    · rcases List.mem_cons.1 he with rfl | he
      · refine ((ih' e.id).2 fun b hb heq => hd.1 (heq ▸ List.mem_map_of_mem hb)).trans ?_
        rw [hins, if_pos rfl]
      · exact (ih' id).1 e he
    · refine ((ih' id).2 fun b hb => hne b (List.mem_cons_of_mem a hb)).trans ?_
      rw [hins, if_neg fun heq => hne a (by simp) heq.symm]

/-- The records of the inserts are appended, in order. -/
theorem files_insertAll {es : List Event} {st : Store} (h : FreshRegular x st.index es) (hh : st.handle = .wal)
    {w : Bytes} (hw : st.files.wal = some w) :
    (insertAll st es).files = { st.files with wal := some (w ++ encodeAll (es.map fun e => .insert e.raw)) } := by
  induction es generalizing st w with
  | nil =>
    show st.files = _
    rw [show w ++ encodeAll (([] : List Event).map fun e => WalOp.insert e.raw) = w from List.append_nil w, ← hw]
  | cons a es ih =>
    obtain ⟨heph, hr⟩ := h.regular a (by simp)
    obtain ⟨hlook, htomb⟩ := h.absent a (by simp)
    have hd := h.distinct
    rw [List.map_cons, List.nodup_cons] at hd
    have hins : (st.insert a).2 = { st with index := st.index.stored a }.append (.insert a.raw) := by
      unfold Store.insert
      rw [Index.insert_of_regular hr htomb, hlook]
      simp only [heph]
      rfl
    have hfiles : (st.insert a).2.files = { st.files with wal := some (w ++ Wal.encodeOp (.insert a.raw)) } := by
      rw [hins]
      simp only [Store.append, Files.append, hh, hw]
      rfl
    have hrest : FreshRegular x (st.insert a).2.index es := by
      refine ⟨fun e he => h.regular e (List.mem_cons_of_mem a he),
        fun e he => h.recorded e (List.mem_cons_of_mem a he), hd.2, fun e he => ?_⟩
      obtain ⟨h1, h2⟩ := h.absent e (List.mem_cons_of_mem a he)
      rw [hins]
      have hne : e.id ≠ a.id := by
        intro heq
        rw [← heq] at hd
        exact hd.1 (List.mem_map_of_mem he)
      refine ⟨?_, h2⟩
      show (st.index.stored a).byId.lookup e.id = none
      rw [Index.stored_lookup, if_neg hne, h1]
    have := ih hrest (by rw [hins]; exact hh) (by rw [hfiles])
    rw [show insertAll st (a :: es) = insertAll (st.insert a).2 es from rfl, this, hfiles, List.map_cons,
      Wal.encodeAll_cons, List.append_assoc]

/-! ## Loads -/

theorem inserts_map {es : List Event} (hjson : JsonTexts x) (hrec : ∀ e ∈ es, Recorded x e) :
    Wal.Inserts (es.map fun e => .insert e.raw) := by
  intro op hop
  obtain ⟨e, he, rfl⟩ := List.mem_map.1 hop
  obtain ⟨raw, -, -, -, hraw, -⟩ := Event.fromJsonUnchecked_eq_ok_iff.1 (hrec e he).parses
  exact ⟨e.raw, rfl, hjson e.raw raw hraw, (hrec e he).fits⟩

/-- Behind whole records that apply nothing, whatever the snapshot has. -/
theorem recovers_of_whole {es : List Event} {st : Store} (h : FreshRegular x st.index es) (hh : st.handle = .wal)
    (hold : st.files.walOld = none) {whole : List WalOp} (hfit : ∀ op ∈ whole, Wal.Fits op)
    (hw : st.files.wal = some (encodeAll whole)) (hnone : ∀ op ∈ whole, Store.parseOp x op = none)
    (order : List Event) : Recovers x order (insertAll st es) es := by
  have hfiles := files_insertAll h hh hw
  rw [← Wal.encodeAll_append] at hfiles
  have hall : ∀ op ∈ whole ++ es.map (fun e => WalOp.insert e.raw), Wal.Fits op := by
    intro op hop
    rcases List.mem_append.1 hop with hop | hop
    · exact hfit op hop
    · obtain ⟨e, he, rfl⟩ := List.mem_map.1 hop
      exact (h.recorded e he).fits
  have hputs : ∀ l : List Event, (∀ e ∈ l, Recorded x e) →
      (l.map fun e => WalOp.insert e.raw).filterMap (Store.parseOp x) = l.map Rec.put := by
    intro l hl
    rw [List.filterMap_map]
    refine (List.filterMap_congr fun e he => (hl e he).parseOp).trans ?_
    rw [List.filterMap_eq_map']
  have hsnap : ∀ (l : List Event) (s : Index), s.tombstones = .new →
      (l.foldl (fun s e => (s.insert e).2) s).tombstones = .new := by
    intro l
    induction l with
    | nil => exact fun s hs => hs
    | cons e l ih => exact fun s hs => ih _ ((Index.insert_tombstones s e).trans hs)
  have hrecs : diskRecs x (insertAll st es).files = (snapshotRecs x st.files.events ++ es).map Rec.put := by
    unfold diskRecs
    rw [hfiles]
    simp only [hold, Store.segmentRecs_none, List.nil_append]
    rw [Store.segmentRecs_of_encodeAll rfl hall, List.filterMap_append, List.filterMap_eq_nil_iff.2 hnone,
      List.nil_append, hputs es h.recorded, List.map_append]
  have hrecover : recover x (insertAll st es).files = es.foldl (fun s e => (s.insert e).2)
      ((snapshotRecs x st.files.events).foldl (fun s e => (s.insert e).2) .new) := by
    unfold recover
    rw [hrecs, List.foldl_map, List.foldl_append]
    rfl
  have hlive : ∀ e ∈ es, (recover x (insertAll st es).files).byId.lookup e.id = some e := by
    intro e he
    rw [hrecover]
    exact (lookup_foldl_insert (fun a ha => (h.regular a ha).2) h.distinct (hsnap _ _ rfl) e.id).1 e he
  refine ⟨_, Store.loadFromDisk_new x order _, fun e he => ?_⟩
  split
  · exact hlive e he
  · exact hlive e he

/-- A load applies nothing, and its log ends in a torn record: the first insert is lost. -/
theorem not_recovers_of_torn (hjson : JsonTexts x) {whole : List WalOp} (hfit : ∀ op ∈ whole, Wal.Fits op)
    (hnone : ∀ op ∈ whole, Store.parseOp x op = none) {op : WalOp} (hop : Wal.Fits op) {torn : Bytes}
    (hne : torn ≠ []) (hpre : torn <+: Wal.encodeOp op) (hlen : torn.length < (Wal.encodeOp op).length)
    {first : Event} {es : List Event} {st : Store} (h : FreshRegular x st.index (first :: es))
    (hh : st.handle = .wal)
    (hf : st.files = image (encodeAll whole ++ torn)) (order : List Event) :
    ¬ Recovers x order (insertAll st (first :: es)) (first :: es) := by
  rintro ⟨st', hload, hall⟩
  have hfiles := files_insertAll h hh (w := encodeAll whole ++ torn) (by rw [hf]; rfl)
  rw [hf] at hfiles
  have hlive : (recover x (insertAll st (first :: es)).files).byId.lookup first.id = some first := by
    have := hall first List.mem_cons_self
    rw [Store.loadFromDisk_new] at hload
    cases hload
    split at this
    · exact this
    · exact this
  have hput := Store.put_mem_of_replayFiles (Store.replayFiles_zero x _) hlive
  rw [hfiles] at hput
  have hrecord : ∃ o ∈ Wal.records
      (encodeAll whole ++ torn ++ encodeAll ((first :: es).map fun e => .insert e.raw)),
      Store.parseOp x o = some (.put first) := by
    simpa [diskRecs, image, snapshotRecs, segmentRecs] using hput
  obtain ⟨o, ho, hparse⟩ := hrecord
  cases o with
  | delete id => cases hparse
  | tombstone id => cases hparse
  | insert data =>
    have hok : Event.fromJsonUnchecked x data = .ok first := by
      cases hd : Event.fromJsonUnchecked x data with
      | error err =>
        simp only [Store.parseOp, hd] at hparse
        cases hparse
      | ok e =>
        simp only [Store.parseOp, hd] at hparse
        cases hparse
        rfl
    obtain ⟨raw, -, -, -, hraw, -⟩ := Event.fromJsonUnchecked_eq_ok_iff.1 hok
    unfold Wal.records Wal.replayPath at ho
    rw [List.append_assoc] at ho
    rcases Wal.mem_of_replayLoop_encodeAll_append hfit _ ho with ho | ⟨n, ho⟩
    · rw [hnone _ ho] at hparse
      cases hparse
    · -- it is the record of a later event, with another id
      have hlater := Wal.mem_of_replayLoop_torn n hop hne hpre hlen (inserts_map hjson h.recorded)
        (hjson data raw hraw) ho
      obtain ⟨e, he, heq⟩ := List.mem_map.1 hlater
      cases heq
      have hsame : e = first := by
        rw [(h.recorded e (List.mem_cons_of_mem _ he)).parses] at hok
        exact Except.ok.inj hok
      have hd := h.distinct
      rw [List.map_cons, List.nodup_cons, ← hsame] at hd
      exact hd.1 (List.mem_map_of_mem he)

theorem segmentRecs_pos_iff {ops : List WalOp} (hfit : ∀ op ∈ ops, Wal.Fits op) {bs : Bytes}
    (hpre : bs <+: encodeAll ops) : 0 < (diskRecs x (image bs)).length ↔
      ∃ i op, ops[i]? = some op ∧ recordEnd ops i ≤ bs.length ∧ (Store.parseOp x op).isSome := by
  have hrecs : diskRecs x (image bs) = (Wal.records bs).filterMap (Store.parseOp x) := by
    simp [diskRecs, image, snapshotRecs, segmentRecs]
  rw [hrecs, List.length_pos_iff_exists_mem]
  constructor
  · rintro ⟨a, ha⟩
    obtain ⟨op, hop, hparse⟩ := List.mem_filterMap.1 ha
    obtain ⟨i, hi, hend⟩ := (Wal.mem_records_prefix_iff hfit hpre).1 hop
    exact ⟨i, op, hi, hend, by rw [hparse]; rfl⟩
  · rintro ⟨i, op, hi, hend, hsome⟩
    obtain ⟨a, ha⟩ := Option.isSome_iff_exists.1 hsome
    exact ⟨a, List.mem_filterMap.2 ⟨op, (Wal.mem_records_prefix_iff hfit hpre).2 ⟨i, hi, hend⟩, ha⟩⟩

end

/-- A cut behind the whole records leaves each of them. -/
theorem exists_recordEnd_le {whole : List WalOp} (post : List WalOp) {n : Nat} (hn : (encodeAll whole).length ≤ n)
    {op : WalOp}
    (hop : op ∈ whole) : ∃ i, (whole ++ post)[i]? = some op ∧ recordEnd (whole ++ post) i ≤ n := by
  obtain ⟨i, hi, hget⟩ := List.mem_iff_getElem.1 hop
  refine ⟨i, ?_, ?_⟩
  · rw [List.getElem?_append_left hi, List.getElem?_eq_getElem hi, hget]
  · have hle := Wal.length_encodeAll_take_le whole (i := i + 1) (j := whole.length) (by omega)
    rw [List.take_length] at hle
    unfold recordEnd
    rw [List.take_append_of_le_length (by omega)]
    omega

/-- A segment cut anywhere, a load, inserts of fresh regular events, a second crash
and load: every insert comes back exactly when there is none, the first load applied
a record, or the cut tore none. -/
theorem recovers_inserts_iff {x : Ext} (hjson : JsonTexts x) {ops : List WalOp} (hfit : ∀ op ∈ ops, Wal.Fits op)
    {bs : Bytes} (hpre : bs <+: encodeAll ops) (order order' : List Event) {es : List Event} {st : Store}
    (hload : (Store.new (image bs)).loadFromDisk x 0 order = some st) (h : FreshRegular x st.index es) :
    Recovers x order' (insertAll st es) es ↔ es = [] ∨ Repaired x ops bs := by
  rw [Store.loadFromDisk_new] at hload
  have happlied := segmentRecs_pos_iff (x := x) hfit hpre
  have hskipped : ∀ whole post, ops = whole ++ post → (encodeAll whole).length ≤ bs.length →
      (¬ ∃ i op, ops[i]? = some op ∧ recordEnd ops i ≤ bs.length ∧ (Store.parseOp x op).isSome) →
      ∀ op ∈ whole, Store.parseOp x op = none := by
    rintro whole post rfl hlen hnone op hop
    by_contra hsome
    obtain ⟨i, hi, hend⟩ := exists_recordEnd_le post hlen hop
    exact hnone ⟨i, op, hi, hend, Option.isSome_iff_ne_none.2 hsome⟩
  constructor
  · intro hrec
    by_contra hnot
    obtain ⟨hne, hnot⟩ := not_or.1 hnot
    obtain ⟨hnone, hcut⟩ := not_or.1 hnot
    rw [if_neg (mt happlied.1 hnone)] at hload
    cases hload
    obtain ⟨first, es, rfl⟩ := List.exists_cons_of_ne_nil hne
    rcases Wal.cut_cases hpre with hcut' | ⟨whole, op, post, torn, rfl, rfl, htorn, hpre', hlen⟩
    · exact hcut hcut'
    · have hnone' := hskipped whole (op :: post) rfl (by rw [List.length_append]; omega) hnone
      exact not_recovers_of_torn hjson (fun o ho => hfit o (List.mem_append_left _ ho)) hnone'
          (hfit op (by simp)) htorn
        hpre' hlen h rfl rfl order' hrec
  · rintro (rfl | hrep)
    · exact ⟨_, Store.loadFromDisk_new x order' _, fun e he => absurd he List.not_mem_nil⟩
    · by_cases hpos : 0 < (diskRecs x (image bs)).length
      · rw [if_pos hpos] at hload
        cases hload
        have hnil : ∀ {P : WalOp → Prop}, ∀ op ∈ ([] : List WalOp), P op :=
          fun op hop => absurd hop List.not_mem_nil
        exact recovers_of_whole h rfl rfl hnil rfl hnil order'
      · rw [if_neg hpos] at hload
        cases hload
        rcases hrep with hrep | ⟨j, hj, rfl⟩
        · exact absurd (happlied.2 hrep) hpos
        · have hnone := hskipped (ops.take j) (ops.drop j) (List.take_append_drop j ops).symm (Nat.le_refl _)
            (mt happlied.2 hpos)
          exact recovers_of_whole h rfl rfl (fun op hop => hfit op (List.mem_of_mem_take hop)) rfl hnone order'

/-! ## Two notes -/

theorem jsonTexts_known {signed unsigned : List Event} (h : ∀ e ∈ signed ++ unsigned, Wal.Clean e.raw) :
    JsonTexts (Ext.known signed unsigned) := by
  intro json raw hraw
  obtain ⟨e, he, rfl⟩ := of_rawEvent_known hraw
  exact h e he

/-- The first event of the log; no load looks at its signature. -/
def firstNote : Event := Event.compact 2 (note 0).pubkey 1600000000 1 [] ['h', 'o'] 0

theorem length_raw_firstNote : firstNote.raw.length = 344 := Event.length_compactJson ..

def notesExt : Ext := Ext.known [note 0] [firstNote]

theorem jsonTexts_notesExt : JsonTexts notesExt := by
  refine jsonTexts_known fun e he => ?_
  have hcases : e = note 0 ∨ e = firstNote := by simpa using he
  rcases hcases with rfl | rfl
  · exact Wal.clean_of_printable (by rw [length_raw_note]; omega) (printable_raw_note 0)
  · exact Wal.clean_of_printable (by rw [length_raw_firstNote]; omega)
      (Event.printable_compactJson _ _ _ _ _ (Event.printable_of_all rfl) (Event.printable_of_all rfl))

/-- The log the crash cuts. -/
def notesLog : List WalOp := [.insert firstNote.raw, .insert (note 0).raw]

theorem recorded_notes : ∀ e ∈ [note 0, firstNote], Recorded notesExt e := by
  have hraw : firstNote.raw ≠ (note 0).raw := by decide +kernel
  have hsize : ∀ e ∈ [note 0, firstNote], e.raw.length ≤ maxWalRecordSize := by
    simp only [List.forall_mem_cons, length_raw_note, length_raw_firstNote]
    decide
  intro e he
  refine ⟨fromJsonUnchecked_known he fun a ha heq => ?_, hsize e he⟩
  have hcases : ∀ b ∈ [note 0, firstNote], b = note 0 ∨ b = firstNote := by simp
  rcases hcases a ha with rfl | rfl
  · rcases hcases e he with rfl | rfl
    · rfl
    · exact absurd heq.symm hraw
  · rcases hcases e he with rfl | rfl
    · exact absurd heq hraw
    · rfl

theorem fits_notesLog : ∀ op ∈ notesLog, Wal.Fits op := by
  intro op hop
  have hcases : op = .insert firstNote.raw ∨ op = .insert (note 0).raw := by simpa [notesLog] using hop
  rcases hcases with rfl | rfl
  · exact (recorded_notes firstNote (by simp)).fits
  · exact (recorded_notes (note 0) (by simp)).fits

theorem fresh_note {s : Index} (hlook : s.byId.lookup (note 0).id = none) (ht : s.tombstones = .new) :
    FreshRegular notesExt s [note 0] := by
  have htomb : s.isTombstoned (note 0).id = false := by
    unfold Index.isTombstoned
    rw [ht]
    rfl
  refine ⟨fun e he => ?_, fun e he => ?_, List.nodup_singleton _, fun e he => ?_⟩ <;> rw [List.mem_singleton.1 he]
  · exact ⟨rfl, rfl⟩
  · exact recorded_notes (note 0) (by simp)
  · exact ⟨hlook, htomb⟩

/-- One whole record and the type byte of the next. -/
def secondTorn : Bytes := encodeAll [.insert firstNote.raw] ++ [0]

theorem diskRecs_secondTorn : diskRecs notesExt (image secondTorn) = [.put firstNote] := by
  have hfit : Wal.Fits (.insert firstNote.raw) := (recorded_notes firstNote (by simp)).fits
  have hrecs : Wal.records secondTorn = [.insert firstNote.raw] := by
    have htorn : Wal.nextOp [0] = .error .unexpectedEof := rfl
    have hloop : ∀ n, (Wal.replayLoop (n + 2) (Wal.encodeOp (.insert firstNote.raw) ++ [0])).1 =
        [.insert firstNote.raw] := by
      intro n
      simp only [Wal.replayLoop, Wal.nextOp_encodeOp hfit, htorn]
    have hlen : secondTorn.length + 1 = (Wal.encodeOp (.insert firstNote.raw)).length + 2 := by
      unfold secondTorn
      rw [Wal.encodeAll_singleton, List.length_append, List.length_singleton]
    unfold Wal.records Wal.replayPath
    rw [hlen]
    unfold secondTorn
    rw [Wal.encodeAll_singleton]
    exact hloop _
  simp [diskRecs, image, snapshotRecs, segmentRecs, hrecs, (recorded_notes firstNote (by simp)).parseOp]

/-- Cut in the second record: the load keeps the first one and gives the log a new
file, and the insert that follows comes back. -/
theorem recovers_inserts_iff_secondTorn :
    secondTorn <+: encodeAll notesLog ∧
      ∃ st, (Store.new (image secondTorn)).loadFromDisk notesExt 0 [firstNote] = some st ∧
        Recovers notesExt [] (insertAll st [note 0]) [note 0] := by
  have hpre : secondTorn <+: encodeAll notesLog := by
    have hsplit : encodeAll notesLog = encodeAll [.insert firstNote.raw] ++ encodeAll [.insert (note 0).raw] :=
      Wal.encodeAll_append [.insert firstNote.raw] [.insert (note 0).raw]
    have htype : [0] <+: encodeAll [.insert (note 0).raw] := by
      rw [Wal.encodeAll_singleton]
      exact ⟨Wal.toLeBytes (note 0).raw.length ++ (note 0).raw, rfl⟩
    rw [hsplit]
    exact (List.prefix_append_right_inj _).2 htype
  obtain ⟨st, hload, hst⟩ : ∃ st, (Store.new (image secondTorn)).loadFromDisk notesExt 0 [firstNote] = some st ∧
      st.index = recover notesExt (image secondTorn) := by
    rw [Store.loadFromDisk_new, diskRecs_secondTorn, if_pos (by decide)]
    refine ⟨_, rfl, ?_⟩
    dsimp only
  have hindex : recover notesExt (image secondTorn) = (Index.new.insert firstNote).2 := by
    unfold recover
    rw [diskRecs_secondTorn]
    rfl
  have hfresh : FreshRegular notesExt st.index [note 0] := by
    rw [hst, hindex]
    exact fresh_note rfl rfl
  have hiff := recovers_inserts_iff jsonTexts_notesExt fits_notesLog hpre [firstNote] [] hload hfresh
  refine ⟨hpre, st, hload, hiff.2 (Or.inr (Or.inl ?_))⟩
  refine ⟨0, .insert firstNote.raw, rfl, ?_, by rw [(recorded_notes firstNote (by simp)).parseOp]; rfl⟩
  show (encodeAll [.insert firstNote.raw]).length ≤ secondTorn.length
  unfold secondTorn
  rw [List.length_append]
  omega

/-- Cut in the first record: the load applies nothing, and the note is appended
behind the torn byte. -/
theorem firstTorn_loses :
    [0] <+: encodeAll notesLog ∧
      ∃ st, (Store.new (image [0])).loadFromDisk notesExt 0 [] = some st ∧
      FreshRegular notesExt st.index [note 0] ∧
        ¬ Recovers notesExt [] (insertAll st [note 0]) [note 0] := by
  have hlen : ([0] : Bytes).length < (Wal.encodeOp (.insert firstNote.raw)).length := by
    simp [Wal.encodeOp, Wal.toLeBytes, Wal.length_beBytes]
  have hpre : ([0] : Bytes) <+: Wal.encodeOp (.insert firstNote.raw) := ⟨_, rfl⟩
  refine ⟨hpre.trans (List.prefix_append _ _), _, Store.loadFromDisk_new _ _ _, fresh_note rfl rfl, ?_⟩
  exact not_recovers_of_torn jsonTexts_notesExt (fun o ho => absurd ho List.not_mem_nil)
    (fun o ho => absurd ho List.not_mem_nil) (fits_notesLog _ List.mem_cons_self) (List.cons_ne_nil _ _) hpre hlen
    (fresh_note rfl rfl) rfl rfl _

end TornTail
end Memlay
