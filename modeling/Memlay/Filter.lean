import Memlay.IndexInv

/-!
# Filters (`src/subscription.rs`)

The NIP-01 filter, live matching (`matchesEvent`) and the query planner of
stored events (`queryFilter`).  The planner fetches candidates from one index
and checks the rest of the filter on them, all but what it takes the index to
have enforced (`skips`).

`tag_filters` is a hash map: a table in some order, so that a statement about
every table covers every iteration order.
-/

namespace Memlay

structure Filter where
  ids : Option (List Bytes32)
  kinds : Option (List Nat)
  authors : Option (List Bytes32)
  /-- keyed by the single-letter tag name -/
  tagFilters : Table Char (List Str)
  since : Option Nat
  «until» : Option Nat
  limit : Option Nat
  eTagsBytes : Option (List Bytes32)
  pTagsBytes : Option (List Bytes32)

namespace Filter

def eTags (f : Filter) : Option (List Str) := f.tagFilters.lookup 'e'

def pTags (f : Filter) : Option (List Str) := f.tagFilters.lookup 'p'

/-- `hex::decode` of each value, those of 32 bytes kept. -/
def decoded (vals : List Str) : List Bytes32 := vals.filterMap parseHex32

/-- Pre-parse the values of one tag; nothing is stored when none parses. -/
def parsedBytes (vals : Option (List Str)) (bytes : Option (List Bytes32)) : Option (List Bytes32) :=
  match vals with
  | some vals => if decoded vals = [] then bytes else some (decoded vals)
  | none => bytes

def parseHexValues (f : Filter) : Filter :=
  { f with eTagsBytes := parsedBytes f.eTags f.eTagsBytes, pTagsBytes := parsedBytes f.pTags f.pTagsBytes }

/-! ## Live matching -/

def inTime (f : Filter) (e : Event) : Bool :=
  (match f.since with | some s => decide (s ≤ e.createdAt) | none => true) &&
    (match f.until with | some u => decide (e.createdAt ≤ u) | none => true)

/-- No such condition, or the value is on its list. -/
def among {α : Type} [DecidableEq α] (list : Option (List α)) (a : α) : Bool :=
  match list with
  | some l => decide (a ∈ l)
  | none => true

/-- The event has a tag of this letter with one of these values. -/
def tagMatches (e : Event) (letter : Char) (values : List Str) : Bool :=
  e.tags.any fun tag =>
    (match tag.name with
      | [l] => decide (l = letter)
      | _ => false) &&
    (match tag.value with
      | some v => decide (v ∈ values)
      | none => false)

def matchesEvent (f : Filter) (e : Event) : Bool :=
  f.inTime e && among f.kinds e.kind && among f.ids e.id && among f.authors e.pubkey &&
    f.tagFilters.entries.all fun entry => tagMatches e entry.1 entry.2

/-! ## The planner -/

def nonempty {α : Type} : Option (List α) → Bool
  | some (_ :: _) => true
  | _ => false

def useIds (f : Filter) : Bool := nonempty f.ids

def useETags (f : Filter) : Bool := nonempty f.eTagsBytes || nonempty f.eTags

def usePTags (f : Filter) : Bool := nonempty f.pTagsBytes || nonempty f.pTags

/-- Letters of the generic string index. -/
def generic (letter : Char) : Bool := decide (letter ≠ 'e') && decide (letter ≠ 'p')

def hasGenericTags (f : Filter) : Bool :=
  f.tagFilters.entries.any fun entry => generic entry.1 && !entry.2.isEmpty

def useAuthors (f : Filter) : Bool := nonempty f.authors

def useKinds (f : Filter) : Bool := nonempty f.kinds

/-- `limit.unwrap_or(usize::MAX)` -/
def fetchLimit (f : Filter) : Nat := f.limit.getD (2 ^ 64 - 1)

/-- The 32-byte values one tag is queried with: the pre-parsed ones, or else the
strings parsed on demand. -/
def queried (bytes : Option (List Bytes32)) (vals : Option (List Str)) : List Bytes32 :=
  match bytes with
  | some bytes => bytes
  | none => decoded (vals.getD [])

def eQueried (f : Filter) : List Bytes32 := queried f.eTagsBytes f.eTags

def pQueried (f : Filter) : List Bytes32 := queried f.pTagsBytes f.pTags

/-- First key of the generic index, in iteration order, with its values. -/
def firstGeneric (f : Filter) : Option (Char × List Str) :=
  (f.tagFilters.entries.find? fun entry => generic entry.1).map fun entry => (entry.1, entry.2)

/-- What is fetched from the index that looks most selective. -/
def candidates (s : Index) (f : Filter) : List Event :=
  if f.useIds then (f.ids.getD []).filterMap fun id => (s.get id).filter f.inTime
  else if f.useETags then f.eQueried.flatMap fun b => s.queryByETag b f.fetchLimit
  else if f.usePTags then f.pQueried.flatMap fun b => s.queryByPTag b f.fetchLimit
  else if f.hasGenericTags then
    match f.firstGeneric with
    | some (letter, values) => values.flatMap fun v => s.queryByTag letter v f.fetchLimit
    | none => []
  else if f.useAuthors then
    match f.authors with
    | some authors => authors.flatMap fun a =>
      match f.since with
      | some since => s.queryByPubkeySince a since f.fetchLimit
      | none => s.queryByPubkey a f.fetchLimit
    | none => (decoded (f.pTags.getD [])).flatMap fun b => s.queryByPubkey b f.fetchLimit
  else if f.useKinds then (f.kinds.getD []).flatMap fun kind => s.queryByKind kind f.fetchLimit
  else s.getNewest f.fetchLimit

/-- Tag filters the planner does not check again. -/
def skips (f : Filter) (letter : Char) : Bool :=
  f.useIds || (f.useETags && decide (letter = 'e')) || (f.usePTags && decide (letter = 'p')) ||
    (f.hasGenericTags && generic letter)

/-- The AND filters on a candidate. -/
def keeps (f : Filter) (e : Event) : Bool :=
  f.inTime e && among f.kinds e.kind && among f.authors e.pubkey &&
    f.tagFilters.entries.all fun entry => f.skips entry.1 || tagMatches e entry.1 entry.2

/-- Candidates that pass, the first of each id. -/
def collect (keep : Event → Bool) : List Bytes32 → List Event → List Event
  | _, [] => []
  | seen, e :: es =>
    if keep e && decide (e.id ∉ seen) then e :: collect keep (e.id :: seen) es
    else collect keep seen es

def queryFilter (s : Index) (f : Filter) : List Event :=
  let results := collect f.keeps [] (f.candidates s)
  match f.limit with
  | some lim => results.take lim
  | none => results

end Filter
end Memlay
