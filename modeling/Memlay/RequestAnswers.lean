import Memlay.FrameNames
import Memlay.FilterOrder
import Memlay.ThreadSets

/-!
# The stored answer of a request

The task of a `REQ` streams the answer of each filter in turn.  Within one answer an id
stands once (`nodup_queryFilter`), across them nothing is compared, whereas the live path
sends an event once to a subscription whichever of its filters it matches.  So a request
is answered with each event once exactly when no two of its filters reach the same one:

    AnswersOnce s id filters  ↔  filters.Pairwise fun f g => ¬ Overlap s f g    (answersOnce_iff)

A filter reaches an event that passes it in one of the sets it reads, within the limit
there and with fewer than the limit reached before; or in the scan, where `get_newest`
keeps it.
-/

namespace Memlay

/-- The events of the stored frames, in the order of the frames. -/
def streamed (s : Index) (filters : List Filter) : List Event :=
  filters.flatMap fun filter => filter.queryFilter s

/-- The frames before `EOSE` show each id at most once, and every event that one of the
filters selects. -/
structure AnswersOnce (s : Index) (id : Str) (filters : List Filter) : Prop where
  frames : requestFrames id (fun filter => filter.queryFilter s) filters =
    (streamed s filters).map (fun e => Frame.event id (Json.fromUtf8Lossy e.raw)) ++
      [.message (.endOfStoredEvents id)]
  once : ((streamed s filters).map Event.id).Nodup
  all : ∀ filter ∈ filters, ∀ e ∈ filter.queryFilter s, e ∈ streamed s filters

/-- An event of the id passes the filter and is within its reach: in the scan, one of the
first of the shards that is not displaced, or the one that displaces it; else at a place
of the lists the planner reads with fewer matches before it than the limit. -/
def Filter.Reaches (s : Index) (f : Filter) (id : Bytes32) : Prop :=
  if f.scans then
    ∃ e, e.id = id ∧ f.keeps e = true ∧
      ((e ∈ s.shards.take f.fetchLimit ∧ ¬ s.Displaced f.fetchLimit e) ∨ s.Displaces f.fetchLimit e)
  else
    ∃ pre e post, (f.reads s).flatten = pre ++ e :: post ∧ e.id = id ∧ f.keeps e = true ∧
      Paging.Room f.limit (Paging.distinct Event.id f.keeps pre)

/-- Both filters reach one event. -/
def Overlap (s : Index) (f g : Filter) : Prop := ∃ id, f.Reaches s id ∧ g.Reaches s id

theorem nodup_queryFilter (s : Index) (f : Filter) : ((f.queryFilter s).map Event.id).Nodup := by
  rw [Filter.queryFilter_eq]
  exact (Paging.nodup_collect [] _).sublist ((Paging.cut_sublist _ _).map Event.id)

/-! ## What a filter reaches -/

namespace Filter

variable {s : Index} {f : Filter}

/-- A scan reads no more events than its limit, so there is a place for each. -/
theorem room_scans (h : s.Shelved) {pre post : List Event} {e : Event}
    (hread : s.getNewest f.fetchLimit = pre ++ e :: post) :
    Paging.Room f.limit (Paging.distinct Event.id f.keeps pre) := by
  intro n hn
  have hlen := h.length_getNewest_le f.fetchLimit
  have hle : Paging.distinct Event.id f.keeps pre ≤ pre.length := Paging.distinct_le_length pre
  have hfetch : f.fetchLimit = n := by
    unfold fetchLimit
    rw [hn]
    rfl
  rw [hread, List.length_append, List.length_cons] at hlen
  omega

/-- The ids of an answer. -/
theorem mem_queryFilter_ids_iff (h : s.Shelved) {id : Bytes32} :
    id ∈ (f.queryFilter s).map Event.id ↔ f.Reaches s id := by
  rw [queryFilter_eq, Paging.mem_keys_shown_iff]
  unfold Reaches
  cases hscan : f.scans with
  | false => rw [if_neg Bool.false_ne_true, candidates_reads hscan]
  | true =>
    rw [if_pos rfl, candidates_scans hscan]
    constructor
    · rintro ⟨pre, e, post, hread, hid, hk, -⟩
      exact ⟨e, hid, hk, (Index.mem_getNewest_iff h).1 (by rw [hread]; simp)⟩
    · rintro ⟨e, hid, hk, hkept⟩
      obtain ⟨pre, post, hread⟩ := List.append_of_mem ((Index.mem_getNewest_iff h).2 hkept)
      exact ⟨pre, e, post, hread, hid, hk, room_scans h hread⟩

/-- What is reached is among the candidates and passes. -/
theorem Reaches.exists_candidate (h : s.Shelved) {id : Bytes32} (hr : f.Reaches s id) :
    ∃ e ∈ f.candidates s, e.id = id ∧ f.keeps e = true := by
  obtain ⟨e, he, hid⟩ := List.mem_map.1 ((mem_queryFilter_ids_iff h).2 hr)
  exact ⟨e, (queryFilter_spec he).1, hid, (queryFilter_spec he).2.1⟩

end Filter

/-! ## Across the filters -/

theorem requestFrames_eq (s : Index) (id : Str) (filters : List Filter) :
    requestFrames id (fun filter => filter.queryFilter s) filters =
      (streamed s filters).map (fun e => Frame.event id (Json.fromUtf8Lossy e.raw)) ++
        [.message (.endOfStoredEvents id)] := by
  unfold requestFrames streamed
  rw [List.map_flatMap]

theorem nodup_streamed_iff {s : Index} (h : s.Shelved) (filters : List Filter) :
    ((streamed s filters).map Event.id).Nodup ↔ filters.Pairwise fun f g => ¬ Overlap s f g := by
  unfold streamed
  rw [List.map_flatMap, List.nodup_flatMap]
  constructor
  · rintro ⟨-, hdisjoint⟩
    refine hdisjoint.imp fun {f g} hfg ⟨id, hf, hg⟩ => ?_
    exact hfg ((Filter.mem_queryFilter_ids_iff h).2 hf) ((Filter.mem_queryFilter_ids_iff h).2 hg)
  · intro hapart
    refine ⟨fun f _ => nodup_queryFilter s f, hapart.imp fun {f g} hfg id hf hg => hfg ⟨id, ?_, ?_⟩⟩
    · exact (Filter.mem_queryFilter_ids_iff h).1 hf
    · exact (Filter.mem_queryFilter_ids_iff h).1 hg

/-- For every list of filters: the request is answered with each event once exactly when
no two of its filters reach one event. -/
theorem answersOnce_iff (s : Index) (h : s.Shelved) (id : Str) (filters : List Filter) :
    AnswersOnce s id filters ↔ filters.Pairwise fun f g => ¬ Overlap s f g := by
  constructor
  · intro hall
    exact (nodup_streamed_iff h filters).1 hall.once
  · intro hapart
    refine ⟨requestFrames_eq s id filters, (nodup_streamed_iff h filters).2 hapart, ?_⟩
    intro filter hfilter e he
    exact List.mem_flatMap.2 ⟨filter, hfilter, he⟩

/-! ## Every state has its sets so -/

theorem Index.shelved_run {cs : List Index.Edit} (hA : Index.Agree (Index.Offered cs)) {s : Index}
    (hs : Machine.run Index.editStep Index.new cs = some s) : s.Shelved :=
  (Index.run_filed hA hs).2.shelved

/-- Also between the steps of concurrent calls. -/
theorem Threads.shelved_run {as : List (Pool.Act Threads.Call)} {P : Threads.Config}
    (hrun : Machine.run Threads.step Threads.init as = some P) : P.shared.idx.Shelved :=
  Index.shelved_of_sets (Threads.setsIn_run as P hrun).inSets (Threads.setsIn_run as P hrun).sorted

/-! ## Notes and relay lists -/

def relaysFilter : Filter := { Fanout.notesFilter with kinds := some [10002] }

/-- The sets of the two kinds have no event in common. -/
theorem answersOnce_kinds : ∃ s, Machine.run Index.editStep Index.new Filter.noteThenRelays = some s ∧
    AnswersOnce s ['a'] [Fanout.notesFilter, relaysFilter] ∧
    streamed s [Fanout.notesFilter, relaysFilter] = [note 0, relayList 2 1800000000] := by
  have hrun : Machine.run Index.editStep Index.new Filter.noteThenRelays =
      some ((Index.new.edit (.insert (note 0))).edit (.insert (relayList 2 1800000000))) := rfl
  have hshelved := Index.shelved_run Filter.agree_noteThenRelays hrun
  refine ⟨_, hrun, (answersOnce_iff _ hshelved ['a'] _).2 ?_, rfl⟩
  refine List.pairwise_pair.2 ?_
  rintro ⟨id, hnote, hrelay⟩
  obtain ⟨a, ha, haid, -⟩ := hnote.exists_candidate hshelved
  obtain ⟨b, hb, hbid, -⟩ := hrelay.exists_candidate hshelved
  have ha' : a = note 0 := List.mem_singleton.1 ha
  have hb' : b = relayList 2 1800000000 := List.mem_singleton.1 hb
  rw [← haid, ha', hb'] at hbid
  exact absurd hbid (by decide)

/-- One note is stored, and a request for notes that says so twice is sent it twice. -/
theorem notes_streamed_twice : ∃ s, Machine.run Index.editStep Index.new [.insert (note 0)] = some s ∧
    Fanout.notesFilter.queryFilter s = [note 0] ∧
    ¬ AnswersOnce s ['a'] [Fanout.notesFilter, Fanout.notesFilter] := by
  have hall : Fanout.notesFilter.queryFilter (Index.new.edit (.insert (note 0))) = [note 0] := rfl
  refine ⟨_, rfl, hall, fun h => ?_⟩
  have hnodup := h.once
  unfold streamed at hnodup
  rw [List.flatMap_cons, List.flatMap_singleton, hall] at hnodup
  exact absurd hnodup (by decide)

end Memlay
