import Memlay.Index

/-!
# Deletion requests (`src/deletion.rs`)

A kind-5 event names events by id (`e` tags) and replaceable events by coordinate
(`a` tags).  `coordinateTargets` is the index's side of a coordinate.
-/

namespace Memlay

structure Coordinate where
  kind : Nat
  pubkey : Bytes32
  dTag : Str
deriving DecidableEq, Repr

/-- Parsed references of a deletion request.  `ids` is a hash set: the order in
which a loop visits it is not fixed. -/
structure DeletionRequest where
  ids : Finset Bytes32
  coordinates : List Coordinate

structure DeletionOutcome where
  deletedIds : List Bytes32
  skippedForeign : Nat
  unknownCoordinates : Nat
deriving DecidableEq, Repr

def DeletionOutcome.default : DeletionOutcome := ⟨[], 0, 0⟩

def kindDeletion : Nat := 5

/-- Decimal value after the digits read so far. -/
def decFold (acc : Nat) : Str → Option Nat
  | [] => some acc
  | c :: cs => if '0' ≤ c ∧ c ≤ '9' then decFold (10 * acc + (c.toNat - 48)) cs else none

/-- `str::parse::<u32>`: an optional `+`, at least one digit, no overflow. -/
def parseU32 (s : Str) : Option Nat :=
  let digits := if s.head? = some '+' then s.tail else s
  if digits = [] then none else (decFold 0 digits).filter fun n => n < 2 ^ 32

/-- The text before the first colon and the text after it, if there is one. -/
def splitColon : Str → Str × Option Str
  | [] => ([], none)
  | c :: cs =>
    if c = ':' then ([], some cs)
    else
      let (before, after) := splitColon cs
      (c :: before, after)

/-- `<kind>:<pubkey>:<d-identifier>`, split at the first two colons. -/
def parseCoordinate (value : Str) : Option Coordinate := do
  let (kindText, rest) := splitColon value
  let kind ← parseU32 kindText
  let (pubkeyHex, rest) := splitColon (← rest)
  let pubkey ← parseHex32 pubkeyHex
  let dTag ← rest
  return ⟨kind, pubkey, dTag⟩

def Event.isDeletionRequest (e : Event) : Bool := e.kind == kindDeletion

/-- Malformed values are skipped. -/
def Event.deletionRequest (e : Event) : DeletionRequest where
  ids := e.eTags.toFinset
  coordinates := e.tags.filterMap fun tag =>
    if tag.name = ['a'] then tag.value.bind parseCoordinate else none

/-- Ids of the live versions of a coordinate up to `until`. -/
def Index.coordinateTargets (s : Index) (coord : Coordinate) (until_ : Nat) : List Bytes32 :=
  let key : ReplacementKey :=
    if coord.dTag = [] then .replaceable coord.pubkey coord.kind
    else .addressable coord.pubkey coord.kind coord.dTag
  (s.byReplaceable.lookup key).toList.filter fun id =>
    (s.byId.lookup id).any fun e => decide (e.createdAt ≤ until_)

/-- A target of a coordinate is live. -/
theorem Index.live_of_mem_coordinateTargets {s : Index} {coord : Coordinate} {until_ : Nat}
    {id : Bytes32} (h : id ∈ s.coordinateTargets coord until_) : ∃ e, s.byId.lookup id = some e := by
  have := (List.mem_filter.1 h).2
  cases hl : s.byId.lookup id with
  | none =>
    rw [hl] at this
    cases this
  | some e => exact ⟨e, rfl⟩

/-- A coordinate names one slot, so it has at most one target. -/
theorem Index.length_coordinateTargets_le (s : Index) (coord : Coordinate) (until_ : Nat) :
    (s.coordinateTargets coord until_).length ≤ 1 := by
  have hone : ∀ o : Option Bytes32, o.toList.length ≤ 1 := by
    intro o
    cases o with
    | none => exact Nat.zero_le 1
    | some id => exact Nat.le_refl 1
  exact (List.length_filter_le _ _).trans (hone _)

example : parseU32 "+30023".toList = some 30023 ∧ parseU32 "4294967296".toList = none ∧
    parseU32 [] = none := by decide

end Memlay
