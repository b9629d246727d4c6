import Mathlib.Data.List.Induction
import Memlay.Event

/-!
# The write-ahead log (`src/store/wal.rs`)

Records are appended as a type byte and a payload: the length-prefixed JSON of
an inserted event, or a 32-byte id.  `replayPath` reads a segment until its end,
an unknown type byte or an error.

    replayPath_encodeAll     a segment of records that fit is read back record by record
    replayPath_prefix        of a segment that is cut, the records that lie wholly inside it
-/

namespace Memlay

/-- Maximum size for a single WAL record. -/
def maxWalRecordSize : Nat := 16 * 1024 * 1024

inductive WalOp where
  | insert (data : Bytes)
  | delete (id : Bytes32)
  /-- NIP-09 deletion: replayed as a delete that also re-arms the tombstone -/
  | tombstone (id : Bytes32)
deriving DecidableEq, Repr

namespace Wal

/-! ## Integers and ids as bytes -/

/-- The `n` lowest bytes of `v`, big-endian. -/
def beBytes : Nat → Nat → Bytes
  | 0, _ => []
  | n + 1, v => beBytes n (v / 256) ++ [UInt8.ofNat (v % 256)]

/-- Big-endian value of the bytes. -/
def beVal (bs : Bytes) : Nat := bs.foldl (fun acc b => 256 * acc + b.toNat) 0

/-- `u32::to_le_bytes` of the length cast with `as u32`. -/
def toLeBytes (len : Nat) : Bytes := (beBytes 4 len).reverse

/-- `u32::from_le_bytes` -/
def fromLeBytes (bs : Bytes) : Nat := beVal bs.reverse

def idBytes (id : Bytes32) : Bytes := beBytes 32 id.toNat

def bytesId (bs : Bytes) : Bytes32 := BitVec.ofNat 256 (beVal bs)

theorem length_beBytes (n v : Nat) : (beBytes n v).length = n := by
  induction n generalizing v with
  | zero => rfl
  | succ n ih => simp [beBytes, ih]

theorem beVal_beBytes (n v : Nat) : beVal (beBytes n v) = v % 256 ^ n := by
  induction n generalizing v with
  | zero => simp [beBytes, beVal, Nat.mod_one]
  | succ n ih =>
    have hb : (UInt8.ofNat (v % 256)).toNat = v % 256 :=
      UInt8.toNat_ofNat_of_lt' (Nat.mod_lt v (by omega))
    rw [beBytes, beVal, List.foldl_append]
    show 256 * beVal (beBytes n (v / 256)) + (UInt8.ofNat (v % 256)).toNat = _
    rw [ih, hb, show (256 : Nat) ^ (n + 1) = 256 * 256 ^ n by ring, Nat.mod_mul]
    omega

theorem fromLeBytes_toLeBytes {len : Nat} (h : len < 2 ^ 32) : fromLeBytes (toLeBytes len) = len := by
  unfold fromLeBytes toLeBytes
  rw [List.reverse_reverse, beVal_beBytes]
  exact Nat.mod_eq_of_lt h

theorem bytesId_idBytes (id : Bytes32) : bytesId (idBytes id) = id := by
  have hlt : id.toNat % 256 ^ 32 = id.toNat := Nat.mod_eq_of_lt id.isLt
  unfold bytesId idBytes
  rw [beVal_beBytes, hlt, BitVec.ofNat_toNat, BitVec.setWidth_eq]

theorem beVal_append (bs : Bytes) (b : UInt8) : beVal (bs ++ [b]) = 256 * beVal bs + b.toNat := by
  unfold beVal
  rw [List.foldl_append]
  rfl

theorem beBytes_beVal (bs : Bytes) : beBytes bs.length (beVal bs) = bs := by
  induction bs using List.reverseRecOn with
  | nil => rfl
  | append_singleton bs b ih =>
    have hb : b.toNat < 256 := b.toNat_lt
    have hdiv : (256 * beVal bs + b.toNat) / 256 = beVal bs := by omega
    have hmod : (256 * beVal bs + b.toNat) % 256 = b.toNat := by omega
    rw [List.length_append, List.length_singleton, beBytes, beVal_append, hdiv, hmod, ih, UInt8.ofNat_toNat]

theorem beVal_lt (bs : Bytes) : beVal bs < 256 ^ bs.length := by
  induction bs using List.reverseRecOn with
  | nil => exact Nat.one_pos
  | append_singleton bs b ih =>
    have hb : b.toNat < 256 := b.toNat_lt
    rw [beVal_append, List.length_append, List.length_singleton, Nat.pow_succ]
    omega

theorem toLeBytes_fromLeBytes {bs : Bytes} (h : bs.length = 4) : toLeBytes (fromLeBytes bs) = bs := by
  have hback := beBytes_beVal bs.reverse
  rw [List.length_reverse, h] at hback
  unfold toLeBytes fromLeBytes
  rw [hback, List.reverse_reverse]

theorem idBytes_bytesId {bs : Bytes} (h : bs.length = 32) : idBytes (bytesId bs) = bs := by
  have hlt := beVal_lt bs
  have hback := beBytes_beVal bs
  rw [h] at hlt hback
  unfold idBytes bytesId
  rw [BitVec.toNat_ofNat, show (2 : Nat) ^ 256 = 256 ^ 32 by rfl, Nat.mod_eq_of_lt hlt, hback]

/-! ## Records -/

/-- The bytes `append` adds to the segment. -/
def encodeOp : WalOp → Bytes
  | .insert data => 0 :: (toLeBytes data.length ++ data)
  | .delete id => 1 :: idBytes id
  | .tombstone id => 2 :: idBytes id

/-- Why a replay ends with an error: a record is cut short, or claims to be too long. -/
inductive WalError where
  | unexpectedEof
  | tooLarge (len : Nat)
deriving DecidableEq, Repr

def readExact (n : Nat) (bs : Bytes) : Except WalError (Bytes × Bytes) :=
  if bs.length < n then .error .unexpectedEof else .ok (bs.take n, bs.drop n)

/-- One round of the replay loop; `ok none` breaks it. -/
def nextOp : Bytes → Except WalError (Option (WalOp × Bytes))
  | [] => .ok none
  | opType :: bs =>
    if opType = 0 then do
      let (lenBuf, bs) ← readExact 4 bs
      let len := fromLeBytes lenBuf
      if maxWalRecordSize < len then throw (.tooLarge len)
      let (data, bs) ← readExact len bs
      return some (.insert data, bs)
    else if opType = 1 then do
      let (id, bs) ← readExact 32 bs
      return some (.delete (bytesId id), bs)
    else if opType = 2 then do
      let (id, bs) ← readExact 32 bs
      return some (.tombstone (bytesId id), bs)
    else .ok none

/-- The replay loop: the records handed to the callback, and the error it ended
with.  Every round but the last takes at least one byte. -/
def replayLoop : Nat → Bytes → List WalOp × Option WalError
  | 0, _ => ([], none)
  | rounds + 1, bs =>
    match nextOp bs with
    | .error err => ([], some err)
    | .ok none => ([], none)
    | .ok (some (op, rest)) =>
      let (ops, err) := replayLoop rounds rest
      (op :: ops, err)

def replayPath (segment : Bytes) : List WalOp × Option WalError :=
  replayLoop (segment.length + 1) segment

/-- The records a segment gives to the callback. -/
def records (segment : Bytes) : List WalOp := (replayPath segment).1

/-! ## A segment is read back -/

def encodeAll (ops : List WalOp) : Bytes := (ops.map encodeOp).flatten

/-- The record is one that the size check lets through. -/
def Fits : WalOp → Prop
  | .insert data => data.length ≤ maxWalRecordSize
  | _ => True

theorem encodeAll_append (as bs : List WalOp) : encodeAll (as ++ bs) = encodeAll as ++ encodeAll bs := by
  simp [encodeAll]

theorem encodeAll_singleton (op : WalOp) : encodeAll [op] = encodeOp op := by
  simp [encodeAll]

theorem readExact_append {as : Bytes} {n : Nat} (h : as.length = n) (bs : Bytes) :
    readExact n (as ++ bs) = .ok (as, bs) := by
  unfold readExact
  rw [if_neg (by rw [List.length_append]; omega), List.take_left' h, List.drop_left' h]

theorem nextOp_encodeOp {op : WalOp} (h : Fits op) (rest : Bytes) :
    nextOp (encodeOp op ++ rest) = .ok (some (op, rest)) := by
  have hid : ∀ id, (idBytes id).length = 32 := fun id => length_beBytes 32 _
  cases op with
  | insert data =>
    have hlen : (toLeBytes data.length).length = 4 := by
      unfold toLeBytes
      rw [List.length_reverse, length_beBytes]
    have hle : data.length ≤ maxWalRecordSize := h
    have hback : fromLeBytes (toLeBytes data.length) = data.length := by
      refine fromLeBytes_toLeBytes ?_
      unfold maxWalRecordSize at hle
      omega
    simp only [encodeOp, List.cons_append, List.append_assoc, nextOp, if_true,
      readExact_append hlen, bind, Except.bind, hback]
    rw [if_neg (by omega)]
    simp only [pure, Except.pure, readExact_append rfl]
  | delete id =>
    simp [encodeOp, nextOp, readExact_append (hid id), bind, Except.bind, pure, Except.pure,
      bytesId_idBytes]
  | tombstone id =>
    simp [encodeOp, nextOp, readExact_append (hid id), bind, Except.bind, pure, Except.pure,
      bytesId_idBytes]

theorem replayLoop_encodeAll {ops : List WalOp} (h : ∀ op ∈ ops, Fits op) :
    ∀ rounds, ops.length < rounds → replayLoop rounds (encodeAll ops) = (ops, none) := by
  induction ops with
  | nil =>
    intro rounds hr
    obtain ⟨n, rfl⟩ : ∃ n, rounds = n + 1 := ⟨rounds - 1, by simp at hr; omega⟩
    rfl
  | cons op ops ih =>
    intro rounds hr
    obtain ⟨n, rfl⟩ : ∃ n, rounds = n + 1 := ⟨rounds - 1, by omega⟩
    have hn : ops.length < n := by
      rw [List.length_cons] at hr
      omega
    have hsplit : encodeAll (op :: ops) = encodeOp op ++ encodeAll ops := rfl
    unfold replayLoop
    rw [hsplit, nextOp_encodeOp (h op (by simp))]
    simp only [ih (fun o ho => h o (List.mem_cons_of_mem op ho)) n hn]

/-- The whole records of a segment are read first. -/
theorem replayLoop_encodeAll_append {whole : List WalOp} (h : ∀ op ∈ whole, Fits op) (bs : Bytes) (rounds : Nat) :
    replayLoop (whole.length + rounds) (encodeAll whole ++ bs) =
      (whole ++ (replayLoop rounds bs).1, (replayLoop rounds bs).2) := by
  induction whole with
  | nil =>
    rw [List.length_nil, Nat.zero_add]
    rfl
  | cons op whole ih =>
    have hsplit : encodeAll (op :: whole) ++ bs = encodeOp op ++ (encodeAll whole ++ bs) := by
      simp [encodeAll]
    rw [List.length_cons, Nat.add_right_comm, replayLoop, hsplit, nextOp_encodeOp (h op (by simp))]
    simp only
    rw [ih fun o ho => h o (List.mem_cons_of_mem op ho)]
    rfl

theorem length_le_encodeAll (ops : List WalOp) : ops.length ≤ (encodeAll ops).length := by
  induction ops with
  | nil => exact Nat.le_refl 0
  | cons op ops ih =>
    have hsplit : encodeAll (op :: ops) = encodeOp op ++ encodeAll ops := rfl
    have hop : 0 < (encodeOp op).length := by cases op <;> simp [encodeOp]
    rw [hsplit, List.length_append, List.length_cons]
    omega

/-- A segment of records that fit is replayed in full. -/
theorem replayPath_encodeAll {ops : List WalOp} (h : ∀ op ∈ ops, Fits op) :
    replayPath (encodeAll ops) = (ops, none) := by
  have := length_le_encodeAll ops
  exact replayLoop_encodeAll h _ (by omega)

theorem records_encodeAll {ops : List WalOp} (h : ∀ op ∈ ops, Fits op) :
    records (encodeAll ops) = ops := by
  unfold records
  rw [replayPath_encodeAll h]

/-! ## A segment that is cut -/

/-- What `replay_path` returns: the number of records, or the error. -/
def replayReturn (segment : Bytes) : Except WalError Nat :=
  match replayPath segment with
  | (ops, none) => .ok ops.length
  | (_, some err) => .error err

/-- Where record `i` of the segment ends. -/
def recordEnd (ops : List WalOp) (i : Nat) : Nat := (encodeAll (ops.take (i + 1))).length

theorem length_encodeOp_pos (op : WalOp) : 0 < (encodeOp op).length := by
  cases op <;> simp [encodeOp]

theorem encodeAll_cons (op : WalOp) (ops : List WalOp) :
    encodeAll (op :: ops) = encodeOp op ++ encodeAll ops := rfl

/-- Records left out make the segment shorter. -/
theorem length_encodeAll_sublist {as bs : List WalOp} (h : as.Sublist bs) :
    (encodeAll as).length ≤ (encodeAll bs).length ∧ ((encodeAll as).length = (encodeAll bs).length → as = bs) := by
  induction h with
  | slnil => exact ⟨Nat.le_refl _, fun _ => rfl⟩
  | @cons as bs op _ ih =>
    have hpos := length_encodeOp_pos op
    rw [encodeAll_cons, List.length_append]
    exact ⟨by omega, fun heq => by omega⟩
  | @cons_cons as bs op _ ih =>
    rw [encodeAll_cons, encodeAll_cons, List.length_append, List.length_append]
    refine ⟨by omega, fun heq => ?_⟩
    rw [ih.2 (by omega)]

theorem readExact_short {n : Nat} {bs : Bytes} (h : bs.length < n) : readExact n bs = .error .unexpectedEof :=
  if_pos h

/-! ## One round -/

/-- What a round that goes on has read. -/
theorem nextOp_cases {b : UInt8} {bs rest : Bytes} {op : WalOp} (h : nextOp (b :: bs) = .ok (some (op, rest))) :
    (b = 0 ∧ ∃ len, len = fromLeBytes (bs.take 4) ∧ len ≤ maxWalRecordSize ∧ 4 + len ≤ bs.length ∧
      op = .insert ((bs.drop 4).take len) ∧ rest = bs.drop (4 + len)) ∨
    ((b = 1 ∨ b = 2) ∧ (∀ data, op ≠ .insert data) ∧ (∀ id, op = .delete id → id = bytesId (bs.take 32)) ∧
      32 ≤ bs.length ∧ rest = bs.drop 32) := by
  have hread : ∀ n (xs : Bytes) p, readExact n xs = .ok p → n ≤ xs.length ∧ p = (xs.take n, xs.drop n) := by
    intro n xs p hp
    unfold readExact at hp
    split at hp
    · cases hp
    · cases hp
      exact ⟨by omega, rfl⟩
  simp only [nextOp] at h
  split at h
  · rename_i hb
    obtain ⟨⟨lenBuf, bs₁⟩, h₁, h⟩ := Event.bind_eq_ok_iff.1 h
    obtain ⟨h4, hp⟩ := hread _ _ _ h₁
    cases hp
    simp only at h
    split at h
    · cases h
    · rename_i hmax
      obtain ⟨⟨data, bs₂⟩, h₂, h⟩ := Event.bind_eq_ok_iff.1 h
      obtain ⟨hlen, hp⟩ := hread _ _ _ h₂
      cases hp
      cases h
      rw [List.length_drop] at hlen
      refine Or.inl ⟨hb, _, rfl, by omega, by omega, rfl, ?_⟩
      rw [List.drop_drop]
  · split at h
    · rename_i hb
      obtain ⟨⟨id, bs₁⟩, h₁, h⟩ := Event.bind_eq_ok_iff.1 h
      obtain ⟨h32, hp⟩ := hread _ _ _ h₁
      cases hp
      cases h
      exact Or.inr ⟨Or.inl hb, (fun data hd => by cases hd), (fun id' hd => by cases hd; rfl), h32, rfl⟩
    · split at h
      · rename_i hb
        obtain ⟨⟨id, bs₁⟩, h₁, h⟩ := Event.bind_eq_ok_iff.1 h
        obtain ⟨h32, hp⟩ := hread _ _ _ h₁
        cases hp
        cases h
        exact Or.inr ⟨Or.inr hb, (fun data hd => by cases hd), (fun id' hd => by cases hd), h32, rfl⟩
      · cases h

/-- What a round has read is the record's own encoding. -/
theorem nextOp_eq {bs rest : Bytes} {op : WalOp} (h : nextOp bs = .ok (some (op, rest))) :
    bs = encodeOp op ++ rest ∧ Fits op := by
  have hread : ∀ n (xs : Bytes) p, readExact n xs = .ok p → p.1.length = n ∧ xs = p.1 ++ p.2 := by
    intro n xs p hp
    unfold readExact at hp
    split at hp
    · cases hp
    · cases hp
      exact ⟨by rw [List.length_take]; omega, (List.take_append_drop n xs).symm⟩
  cases bs with
  | nil => cases h
  | cons b bs =>
    simp only [nextOp] at h
    split at h
    · rename_i hb
      obtain ⟨⟨lenBuf, bs₁⟩, h₁, h'⟩ := Event.bind_eq_ok_iff.1 h
      obtain ⟨h4, hbs⟩ := hread _ _ _ h₁
      simp only at h' h4 hbs
      split at h'
      · cases h'
      · rename_i hmax
        obtain ⟨⟨data, bs₂⟩, h₂, h''⟩ := Event.bind_eq_ok_iff.1 h'
        obtain ⟨hlen, hbs₁⟩ := hread _ _ _ h₂
        cases h''
        simp only at hlen hbs₁
        refine ⟨?_, show data.length ≤ maxWalRecordSize by omega⟩
        show b :: bs = 0 :: (toLeBytes data.length ++ data) ++ bs₂
        rw [hb, hbs, hbs₁, hlen, toLeBytes_fromLeBytes h4, List.cons_append, List.append_assoc]
    · split at h
      · rename_i hb
        obtain ⟨⟨id, bs₁⟩, h₁, h'⟩ := Event.bind_eq_ok_iff.1 h
        obtain ⟨h32, hbs⟩ := hread _ _ _ h₁
        cases h'
        refine ⟨?_, trivial⟩
        show b :: bs = 1 :: idBytes (bytesId id) ++ bs₁
        rw [hb, hbs, idBytes_bytesId h32, List.cons_append]
      · split at h
        · rename_i hb
          obtain ⟨⟨id, bs₁⟩, h₁, h'⟩ := Event.bind_eq_ok_iff.1 h
          obtain ⟨h32, hbs⟩ := hread _ _ _ h₁
          cases h'
          refine ⟨?_, trivial⟩
          show b :: bs = 2 :: idBytes (bytesId id) ++ bs₁
          rw [hb, hbs, idBytes_bytesId h32, List.cons_append]
        · cases h

/-- A record that is cut behind its first byte is an error. -/
theorem nextOp_cut {op : WalOp} (h : Fits op) {bs rest : Bytes} (hne : bs ≠ []) (hpre : bs <+: encodeOp op ++ rest)
    (hlen : bs.length < (encodeOp op).length) : nextOp bs = .error .unexpectedEof := by
  obtain ⟨tail, htail⟩ := hpre
  obtain ⟨b, bs, rfl⟩ := List.exists_cons_of_ne_nil hne
  have hid : ∀ id, (idBytes id).length = 32 := fun id => length_beBytes 32 _
  cases op with
  | insert data =>
    have hlen4 : (toLeBytes data.length).length = 4 := by
      unfold toLeBytes
      rw [List.length_reverse, length_beBytes]
    obtain ⟨rfl, hbs⟩ := List.cons.inj htail
    simp only [encodeOp, List.length_cons, List.length_append, hlen4] at hlen
    by_cases h4 : bs.length < 4
    · simp [nextOp, readExact_short h4, bind, Except.bind]
    · -- the length is whole, the data is not
      have hsplit : bs = toLeBytes data.length ++ bs.drop 4 := by
        have htake : bs.take 4 = toLeBytes data.length := by
          have hbs' : bs ++ tail = toLeBytes data.length ++ (data ++ rest) := by
            rw [← List.append_assoc]
            exact hbs
          have := congrArg (List.take 4) hbs'
          rwa [List.take_append_of_le_length (by omega), List.take_left' hlen4] at this
        conv_lhs => rw [← List.take_append_drop 4 bs, htake]
      have hback : fromLeBytes (toLeBytes data.length) = data.length := by
        have hle : data.length ≤ maxWalRecordSize := h
        refine fromLeBytes_toLeBytes ?_
        unfold maxWalRecordSize at hle
        omega
      have hshort : (bs.drop 4).length < data.length := by
        rw [List.length_drop]
        omega
      have hfit : ¬ maxWalRecordSize < data.length := by
        have hle : data.length ≤ maxWalRecordSize := h
        omega
      rw [hsplit]
      simp [nextOp, readExact_append hlen4, bind, Except.bind, hback, hfit, readExact_short hshort]
  | delete id =>
    obtain ⟨rfl, -⟩ := List.cons.inj htail
    have hshort : bs.length < 32 := by
      simp only [encodeOp, List.length_cons, hid] at hlen
      omega
    simp [nextOp, readExact_short hshort, bind, Except.bind]
  | tombstone id =>
    obtain ⟨rfl, -⟩ := List.cons.inj htail
    have hshort : bs.length < 32 := by
      simp only [encodeOp, List.length_cons, hid] at hlen
      omega
    simp [nextOp, readExact_short hshort, bind, Except.bind]

/-- The loop on a prefix: the first `k` records, and no error exactly when the
prefix ends behind them. -/
theorem replayLoop_prefix {ops : List WalOp} (h : ∀ op ∈ ops, Fits op) {bs : Bytes} (hpre : bs <+: encodeAll ops) :
    ∀ rounds, bs.length < rounds → ∃ k err, k ≤ ops.length ∧ replayLoop rounds bs = (ops.take k, err) ∧
      (encodeAll (ops.take k)).length ≤ bs.length ∧
      (k < ops.length → bs.length < (encodeAll (ops.take (k + 1))).length) ∧
      (err = none ↔ bs = encodeAll (ops.take k)) := by
  induction ops generalizing bs with
  | nil =>
    intro rounds hr
    obtain ⟨n, rfl⟩ : ∃ n, rounds = n + 1 := ⟨rounds - 1, by omega⟩
    have hnil : bs = [] := List.prefix_nil.1 hpre
    subst hnil
    exact ⟨0, none, Nat.le_refl 0, rfl, Nat.le_refl 0, fun hlt => absurd hlt (Nat.lt_irrefl 0),
        by simp [encodeAll]⟩
  | cons op ops ih =>
    intro rounds hr
    obtain ⟨n, rfl⟩ : ∃ n, rounds = n + 1 := ⟨rounds - 1, by omega⟩
    have hop := h op (by simp)
    rw [encodeAll_cons] at hpre
    by_cases hlen : bs.length < (encodeOp op).length
    · -- cut inside the first record, or before it
      have hfirst : 0 < (op :: ops).length → bs.length < (encodeAll ((op :: ops).take (0 + 1))).length := by
        intro _
        rw [List.take_succ_cons, List.take_zero, encodeAll_singleton]
        exact hlen
      by_cases hne : bs = []
      · subst hne
        exact ⟨0, none, Nat.zero_le _, rfl, Nat.zero_le _, hfirst, by simp [encodeAll]⟩
      · refine ⟨0, some .unexpectedEof, Nat.zero_le _, ?_, Nat.zero_le _, hfirst, ?_⟩
        · unfold replayLoop
          rw [nextOp_cut hop hne hpre hlen]
          rfl
        · simp only [reduceCtorEq, false_iff]
          exact hne
    · -- the first record is whole
      obtain ⟨tail, htail⟩ := hpre
      obtain ⟨rest, rfl⟩ : ∃ rest, bs = encodeOp op ++ rest := by
        refine ⟨bs.drop (encodeOp op).length, ?_⟩
        have htake := congrArg (List.take (encodeOp op).length) htail
        rw [List.take_append_of_le_length (by omega), List.take_left] at htake
        conv_lhs => rw [← List.take_append_drop (encodeOp op).length bs, htake]
      have hpre' : rest <+: encodeAll ops := by
        refine ⟨tail, ?_⟩
        rw [List.append_assoc] at htail
        exact List.append_cancel_left htail
      have hpos := length_encodeOp_pos op
      rw [List.length_append] at hr
      obtain ⟨k, err, hk, hloop, hle, hlt, herr⟩ :=
        ih (fun o ho => h o (List.mem_cons_of_mem op ho)) hpre' n (by omega)
      refine ⟨k + 1, err, by rw [List.length_cons]; omega, ?_, ?_, ?_, ?_⟩
      · unfold replayLoop
        rw [nextOp_encodeOp hop]
        simp only [hloop, List.take_succ_cons]
      · rw [List.take_succ_cons, encodeAll_cons, List.length_append, List.length_append]
        omega
      · intro hlt'
        rw [List.take_succ_cons, encodeAll_cons, List.length_append, List.length_append]
        have := hlt (by rw [List.length_cons] at hlt'; omega)
        omega
      · rw [herr, List.take_succ_cons, encodeAll_cons]
        exact List.append_cancel_left_eq .. ▸ Iff.rfl

theorem length_encodeAll_take_lt {ops : List WalOp} {i j : Nat} (h : i < j) (hj : j ≤ ops.length) :
    (encodeAll (ops.take i)).length < (encodeAll (ops.take j)).length := by
  have hsplit : ops.take j = ops.take i ++ (ops.take j).drop i := by
    conv_lhs => rw [← List.take_append_drop i (ops.take j), List.take_take, Nat.min_eq_left (by omega)]
  have hlen := length_le_encodeAll ((ops.take j).drop i)
  rw [List.length_drop, List.length_take] at hlen
  rw [hsplit, encodeAll_append, List.length_append]
  omega

theorem length_encodeAll_take_le (ops : List WalOp) {i j : Nat} (h : i ≤ j) :
    (encodeAll (ops.take i)).length ≤ (encodeAll (ops.take j)).length := by
  obtain ⟨t, ht⟩ := List.take_prefix_take_left (l := ops) h
  rw [← ht, encodeAll_append, List.length_append]
  omega

/-- The first `k` records are those that lie wholly inside the prefix. -/
theorem lt_iff_recordEnd_le {ops : List WalOp} {n k : Nat} (hle : (encodeAll (ops.take k)).length ≤ n)
    (hlt : k < ops.length → n < (encodeAll (ops.take (k + 1))).length) {i : Nat} (hi : i < ops.length) :
    i < k ↔ recordEnd ops i ≤ n := by
  constructor
  · intro hik
    exact (length_encodeAll_take_le ops (Nat.succ_le_of_lt hik)).trans hle
  · intro hend
    by_contra hik
    have hcut := hlt (by omega)
    have hmono := length_encodeAll_take_le ops (i := k + 1) (j := i + 1) (by omega)
    unfold recordEnd at hend
    omega

theorem mem_records_prefix_iff {ops : List WalOp} (h : ∀ op ∈ ops, Fits op) {bs : Bytes}
    (hpre : bs <+: encodeAll ops)
    {op : WalOp} : op ∈ records bs ↔ ∃ i, ops[i]? = some op ∧ recordEnd ops i ≤ bs.length := by
  obtain ⟨k, err, -, hloop, hle, hlt, -⟩ := replayLoop_prefix h hpre (bs.length + 1) (by omega)
  have hrecs : records bs = ops.take k := by
    show (replayLoop (bs.length + 1) bs).1 = _
    rw [hloop]
  have hbound : ∀ i, ops[i]? = some op → i < ops.length := by
    intro i hi
    by_contra hge
    rw [List.getElem?_eq_none (by omega)] at hi
    cases hi
  rw [hrecs, List.mem_iff_getElem?]
  constructor
  · rintro ⟨i, hi⟩
    rw [List.getElem?_take] at hi
    split at hi
    · rename_i hik
      exact ⟨i, hi, (lt_iff_recordEnd_le hle hlt (hbound i hi)).1 hik⟩
    · cases hi
  · rintro ⟨i, hi, hend⟩
    refine ⟨i, ?_⟩
    rw [List.getElem?_take, if_pos ((lt_iff_recordEnd_le hle hlt (hbound i hi)).2 hend)]
    exact hi

/-- Replaying any prefix of a segment hands over exactly the records that lie
wholly inside it, and ends without an error exactly on a record boundary. -/
theorem replayPath_prefix {ops : List WalOp} (h : ∀ op ∈ ops, Fits op) {bs : Bytes}
    (hpre : bs <+: encodeAll ops) : ∃ k ≤ ops.length, (replayPath bs).1 = ops.take k ∧
      (∀ i < ops.length, i < k ↔ recordEnd ops i ≤ bs.length) ∧
      ((∃ n, replayReturn bs = .ok n) ↔ ∃ j ≤ ops.length, bs = encodeAll (ops.take j)) ∧
      ∀ n, replayReturn bs = .ok n → n = k := by
  obtain ⟨k, err, hk, hloop, hle, hlt, herr⟩ := replayLoop_prefix h hpre (bs.length + 1) (by omega)
  have hpath : replayPath bs = (ops.take k, err) := hloop
  refine ⟨k, hk, by rw [hpath], fun i hi => lt_iff_recordEnd_le hle hlt hi, ?_, ?_⟩
  · unfold replayReturn
    rw [hpath]
    constructor
    · rintro ⟨n, hn⟩
      cases err with
      | none => exact ⟨k, hk, herr.1 rfl⟩
      | some err => cases hn
    · rintro ⟨j, hj, hbs⟩
      have hjk : j = k := by
        have hlen := congrArg List.length hbs
        rcases Nat.lt_trichotomy j k with hjk | hjk | hjk
        · have := length_encodeAll_take_lt hjk hk
          omega
        · exact hjk
        · have hcut := hlt (by omega)
          have hmono := length_encodeAll_take_le ops (i := k + 1) (j := j) (by omega)
          omega
      subst hjk
      rw [herr.2 hbs]
      exact ⟨_, rfl⟩
  · intro n hn
    unfold replayReturn at hn
    rw [hpath] at hn
    cases err with
    | none =>
      cases hn
      rw [List.length_take]
      omega
    | some err => cases hn

/-- Seven bytes of a note's record and thirteen of a tombstone's: the cut is in
the second, so the first is handed over and the replay ends with an error. -/
theorem replayPath_prefix_cut :
    ∃ k ≤ 2, (replayPath ((encodeAll [.insert [1, 2], .tombstone 7]).take 20)).1 =
      [WalOp.insert [1, 2], .tombstone 7].take k ∧
      (∀ i < 2, i < k ↔ recordEnd [.insert [1, 2], .tombstone 7] i ≤ 20) ∧
      ¬∃ n, replayReturn ((encodeAll [.insert [1, 2], .tombstone 7]).take 20) = .ok n := by
  have hfits : ∀ op ∈ [WalOp.insert [1, 2], .tombstone 7], Fits op := by
    intro op hop
    have hcases : op = .insert [1, 2] ∨ op = .tombstone 7 := by simpa using hop
    rcases hcases with rfl | rfl
    · show 2 ≤ maxWalRecordSize
      decide
    · trivial
  obtain ⟨k, hk, hops, hin, hok, -⟩ := replayPath_prefix hfits (List.take_prefix 20 _)
  refine ⟨k, hk, hops, hin, ?_⟩
  intro hret
  obtain ⟨j, hj, hbs⟩ := hok.1 hret
  have hlen := congrArg List.length hbs
  have hends : ∀ j < 3, (encodeAll ([WalOp.insert [1, 2], .tombstone 7].take j)).length ≠
      ((encodeAll [.insert [1, 2], .tombstone 7]).take 20).length := by decide
  exact hends j (Nat.lt_succ_of_le hj) hlen.symm

end Wal
end Memlay
