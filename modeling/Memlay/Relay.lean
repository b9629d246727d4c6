import Mathlib.Data.Finset.Sort
import Memlay.Checkpoint
import Memlay.Message

/-!
# The relay's write path (`src/relay.rs`)

`process_event_message`: parse and verify an `EVENT` frame, apply it as a
deletion request or store it, publish it, answer.  The relay as a machine takes
frames one after another, checkpoint attempts file step by file step, and
restarts with any memory limit.
-/

namespace Memlay

/-- Largest text frame that is parsed. -/
def maxMessageBytes : Nat := 512 * 1024

/-- What a frame does: the answer, the events handed to live subscribers, the store. -/
structure Handled where
  reply : Option NostrMessage
  published : List Event
  store : Store

/-- An order in which the set of ids of a request is visited. -/
def Visit : Type := { order : Finset Bytes32 → List Bytes32 // ∀ s, (order s).Nodup ∧ (order s).toFinset = s }

namespace Relay

def duplicateText : Str := "duplicate: already have this event".toList

def deletedText : Str := "deleted: this event was removed by a deletion request".toList

/-- Apply a kind-5 event, then store and publish the request itself. -/
def applyDeletionRequest (ev : Event) (visit : Visit) (st : Store) : Handled :=
  let id := hexEncode ev.id
  if st.contains ev.id then ⟨some (.ok id true duplicateText), [], st⟩
  else if st.isTombstoned ev.id then ⟨some (.ok id false deletedText), [], st⟩
  else
    let req := ev.deletionRequest
    let (outcome, st) := st.applyDeletion (visit.1 req.ids) req.coordinates ev.pubkey ev.createdAt
    match st.insert ev with
    | (.deleted, st) => ⟨some (.ok id false deletedText), [], st⟩
    | (.ephemeral, st) => ⟨some (.ok id true []), [ev], st⟩
    | (.duplicate, st) => ⟨some (.ok id true []), [ev], st⟩
    | (.stored event _, st) =>
      let text := "deleted ".toList ++ Nat.toDigits 10 outcome.deletedIds.length ++ " event(s)".toList
      ⟨some (.ok id true text), [event], st⟩

/-- Parse, verify, store and broadcast an `EVENT` message. -/
def processEventMessage (x : Serde) (text : Bytes) (visit : Visit) (st : Store) : Handled :=
  match NostrMessage.fromJson x text with
  | .ok (.event _ ev) =>
    let id := hexEncode ev.id
    if ev.isDeletionRequest then applyDeletionRequest ev visit st
    else
      match st.insert ev with
      | (.ephemeral, st) => ⟨some (.ok id true "ephemeral: will not be stored".toList), [ev], st⟩
      | (.duplicate, st) => ⟨some (.ok id true duplicateText), [], st⟩
      | (.deleted, st) => ⟨some (.ok id false deletedText), [], st⟩
      | (.stored event _, st) => ⟨some (.ok id true []), [event], st⟩
  | .ok _ => ⟨none, [], st⟩
  | .error err => ⟨some (.notification err), [], st⟩

/-- The size check of the socket loop, before the frame is parsed. -/
def handleText (x : Serde) (text : Bytes) (visit : Visit) (st : Store) : Handled :=
  if maxMessageBytes < text.length then ⟨some (.notification "message too large".toList), [], st⟩
  else processEventMessage x text visit st

/-- What the machine does next. -/
inductive Turn where
  | frame (text : Bytes) (visit : Visit)
  | rename
  | reopen
  | collect (es : List Event)
  | renameSnapshot
  | removeOld (ok : Bool)
  | giveUp
  /-- `EventStore::new` and `load_from_disk` on the files left behind -/
  | restart (maxBytes : Usize) (es : List Event)

def step (x : Serde) (s : Sys) : Turn → Option Sys
  | .frame text visit =>
    if s.phase = .renamed then none else some { s with store := (handleText x text visit s.store).store }
  | .rename => Sys.step x.toExt s .rename
  | .reopen => Sys.step x.toExt s .reopen
  | .collect es => Sys.step x.toExt s (.collect es)
  | .renameSnapshot => Sys.step x.toExt s .renameSnapshot
  | .removeOld ok => Sys.step x.toExt s (.removeOld ok)
  | .giveUp => Sys.step x.toExt s .giveUp
  | .restart maxBytes es => do
    let st := Store.new s.store.files
    let (_, live) ← Store.replayFiles x.toExt maxBytes st.index st.files
    if es.Perm live.iterAll then
      let st ← st.loadFromDisk x.toExt maxBytes es
      return ⟨st, .idle, true⟩
    else none

/-! ## What a frame does to the store -/

theorem store_applyDeletionRequest (ev : Event) (visit : Visit) (st : Store) :
    (applyDeletionRequest ev visit st).store = st ∨
      (applyDeletionRequest ev visit st).store =
        ((st.applyDeletion (visit.1 ev.deletionRequest.ids) ev.deletionRequest.coordinates ev.pubkey
          ev.createdAt).2.insert ev).2 := by
  unfold applyDeletionRequest
  simp only
  split
  · exact Or.inl rfl
  · split
    · exact Or.inl rfl
    · refine Or.inr ?_
      split
      all_goals
        rename_i h
        rw [h]

/-- A frame leaves the store alone, or it is an `EVENT` frame within the size limit
whose event is inserted, a deletion request having been applied first. -/
theorem store_handleText (x : Serde) (text : Bytes) (visit : Visit) (st : Store) :
    (handleText x text visit st).store = st ∨
      ∃ subId ev, NostrMessage.fromJson x text = .ok (.event subId ev) ∧ text.length ≤ maxMessageBytes ∧
        ((handleText x text visit st).store = (st.insert ev).2 ∨
          (handleText x text visit st).store =
            ((st.applyDeletion (visit.1 ev.deletionRequest.ids) ev.deletionRequest.coordinates ev.pubkey
              ev.createdAt).2.insert ev).2) := by
  unfold handleText
  by_cases hlen : maxMessageBytes < text.length
  · rw [if_pos hlen]
    exact Or.inl rfl
  · rw [if_neg hlen]
    unfold processEventMessage
    split
    · rename_i subId ev hev
      by_cases hdel : ev.isDeletionRequest = true
      · rw [if_pos hdel]
        rcases store_applyDeletionRequest ev visit st with h | h
        · exact Or.inl h
        · exact Or.inr ⟨subId, ev, hev, by omega, Or.inr h⟩
      · rw [if_neg hdel]
        refine Or.inr ⟨subId, ev, hev, by omega, Or.inl ?_⟩
        split
        all_goals
          rename_i h
          rw [h]
    · exact Or.inl rfl
    · exact Or.inl rfl

end Relay
end Memlay
