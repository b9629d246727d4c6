import Memlay.Authenticity
import Memlay.FilterComplete
import Memlay.SessionLog
import Memlay.StoreRuns

/-!
# Where the events of a connection come from

The relay sends a connection an event for two reasons, a stored answer or a live
delivery.  Either way

    the event was in the store at the start, or a client has sent it in an `EVENT` frame
    that parses and verifies;
    the connection has sent a `REQ` with the id of the frame and a filter that admits the
    event                                                                   (`run_origins`)

A filter admits an event by its ids, kinds, authors and times: what tags it asks for is
left to the index that answers.
-/

namespace Memlay

open Json (utf8Bytes)

/-! ## What a filter admits -/

namespace Filter

/-- The conditions that both the planner and live matching check, an empty list of ids
apart. -/
structure Admits (f : Filter) (e : Event) : Prop where
  time : f.inTime e = true
  kind : among f.kinds e.kind = true
  author : among f.authors e.pubkey = true
  id : f.useIds = true → among f.ids e.id = true

section
variable {f : Filter} {e : Event} {s : Index}

theorem admits_of_matchesEvent (h : f.matchesEvent e = true) : f.Admits e := by
  obtain ⟨htime, hkind, hid, hauthor, -⟩ := matchesEvent_iff.1 h
  exact ⟨htime, hkind, hauthor, fun _ => hid⟩

/-- A stored answer, where what is found by id is of the ids. -/
theorem admits_of_mem_choose {found : List Event} (hids : ∀ e ∈ found, f.useIds = true → among f.ids e.id = true)
    (h : e ∈ f.choose found) : f.Admits e := by
  obtain ⟨hmem, hkeeps⟩ := mem_choose h
  unfold keeps at hkeeps
  simp only [Bool.and_eq_true] at hkeeps
  obtain ⟨⟨⟨htime, hkind⟩, hauthor⟩, -⟩ := hkeeps
  exact ⟨htime, hkind, hauthor, hids e hmem⟩

/-- Preparing a filter changes its limit and what it has parsed. -/
theorem Admits.of_prepareFilter {maxLimit : Nat} (h : (prepareFilter maxLimit f).Admits e) : f.Admits e :=
  ⟨h.time, h.kind, h.author, h.id⟩

end
end Filter

/-! ## What an index holds -/

namespace Index

/-- Every event of the index is of `E`, and where it belongs. -/
structure MadeOf (E : Event → Prop) (s : Index) : Prop where
  live : ∀ id e, s.byId.lookup id = some e → E e ∧ e.id = id
  sets : InSets E s.sets

section
variable {E : Event → Prop} {s : Index}

theorem madeOf_new : MadeOf E new := ⟨fun _ _ h => (by cases h), inSets_empty⟩

theorem MadeOf.insert (h : MadeOf E s) {e : Event} (he : E e) : MadeOf E (s.insert e).2 := by
  refine ⟨fun id y hy => ?_, inSets_insert h.sets he⟩
  rcases lookup_of_insert hy with ⟨rfl, hid⟩ | hy
  · exact ⟨he, hid.symm⟩
  · exact h.live id y hy

theorem MadeOf.deleteById (h : MadeOf E s) (id : Bytes32) : MadeOf E (s.deleteById id).2 :=
  ⟨fun id' y hy => h.live id' y (lookup_of_internalRemove hy), inSets_internalRemove h.sets id false⟩

theorem MadeOf.maybeEvict (h : MadeOf E s) (maxBytes processMem amplification : Usize) :
    MadeOf E (s.maybeEvict maxBytes processMem amplification) := by
  refine maybeEvict_keeps (fun s id hs => ?_) h maxBytes processMem amplification
  exact ⟨fun id' y hy => hs.live id' y (lookup_of_internalRemove hy), inSets_internalRemove hs.sets id true⟩

/-- What a lookup finds is of the index, and of the ids where the planner looks up by id. -/
theorem MadeOf.look (h : MadeOf E s) {f : Filter} {l : Lookup} (hl : l ∈ f.lookups)
    {found : List Event} {e : Event}
    (he : e ∈ f.look s found l) : e ∈ found ∨ (E e ∧ (f.useIds = true → Filter.among f.ids e.id = true)) := by
  have hevent : ∀ id, l = .event id → e ∈ ((s.get id).filter f.inTime).toList → E e ∧ e.id = id := by
    rintro id - hget
    exact h.live id e (Option.filter_eq_some_iff.1 (Option.mem_toList.1 hget)).1
  have hnew : e ∈ found ∨ E e := by
    cases l with
    | event id => exact (List.mem_append.1 he).imp_right fun hget => (hevent id rfl hget).1
    | set b => exact (List.mem_append.1 he).imp_right fun hset => (h.sets b e (List.mem_of_mem_take hset)).1
    | pubkeySince pubkey since =>
      refine (List.mem_append.1 he).imp_right fun hset => ?_
      exact (h.sets _ e ((List.takeWhile_sublist _).subset (List.mem_of_mem_take hset))).1
    | shard shard => exact (mem_newestScan he).symm.imp_right fun hset => (h.sets _ e hset).1
  by_cases hids : f.useIds = true
  · -- the lookups are by id
    obtain ⟨ids, hsome, -⟩ := Filter.nonempty_iff.1 hids
    rw [Filter.lookups, if_pos hids, hsome] at hl
    obtain ⟨id, hid, rfl⟩ := List.mem_map.1 hl
    refine (List.mem_append.1 he).imp_right fun hget => ?_
    obtain ⟨hE, rfl⟩ := hevent id rfl hget
    refine ⟨hE, fun _ => ?_⟩
    rw [hsome]
    exact decide_eq_true hid
  · exact hnew.imp_right fun hE => ⟨hE, fun h => absurd h hids⟩

end
end Index

/-! ## What a frame does -/

namespace Relay

open Index (MadeOf)

section
variable {E : Event → Prop} {x : Serde} {text : Bytes} {st : Store}

theorem madeOf_insert (h : MadeOf E st.index) {e : Event} (he : E e) : MadeOf E (st.insert e).2.index := by
  rw [Store.insert_index]
  split
  · exact h
  · exact h.insert he

theorem madeOf_applyDeletion (h : MadeOf E st.index) (ids : List Bytes32) (coordinates : List Coordinate)
    (author : Bytes32) (until_ : Nat) : MadeOf E (st.applyDeletion ids coordinates author until_).2.index :=
  Store.applyDeletion_invariant (P := fun st => MadeOf E st.index) (fun _ _ id _ hst _ => hst.deleteById id) ids
    coordinates author until_ h

/-- The event in the frame is the only one that is stored or published. -/
theorem madeOf_processEventMessage (visit : Visit) (h : MadeOf E st.index)
    (hE : ∀ subId e, NostrMessage.fromJson x text = .ok (.event subId e) → E e) :
    MadeOf E (processEventMessage x text visit st).store.index ∧
      ∀ e ∈ (processEventMessage x text visit st).published, E e := by
  have hstored : ∀ {st : Store} {e e' : Event} {replaced : List Event} {st' : Store},
      st.insert e = (.stored e' replaced, st') → e' = e := by
    intro st e e' replaced st' hins
    unfold Store.insert at hins
    split at hins
    · cases hins
    · split at hins <;> cases hins
      rfl
  unfold processEventMessage
  split
  · rename_i subId ev hev
    have hone : ∀ e ∈ [ev], E e := fun e he => List.mem_singleton.1 he ▸ hE subId ev hev
    have hnone : ∀ e ∈ ([] : List Event), E e := fun e he => by cases he
    simp only
    split
    · unfold applyDeletionRequest
      simp only
      split
      · exact ⟨h, hnone⟩
      · split
        · exact ⟨h, hnone⟩
        · have hstore := madeOf_insert (madeOf_applyDeletion h (visit.1 ev.deletionRequest.ids)
            ev.deletionRequest.coordinates ev.pubkey ev.createdAt) (hE subId ev hev)
          split
          all_goals
            rename_i hins
            rw [hins] at hstore
          · exact ⟨hstore, hnone⟩
          · exact ⟨hstore, hone⟩
          · exact ⟨hstore, hone⟩
          · rw [hstored hins]
            exact ⟨hstore, hone⟩
    · have hstore := madeOf_insert h (hE subId ev hev)
      split
      all_goals
        rename_i hins
        rw [hins] at hstore
      · exact ⟨hstore, hone⟩
      · exact ⟨hstore, hnone⟩
      · exact ⟨hstore, hnone⟩
      · rw [hstored hins]
        exact ⟨hstore, hone⟩
  · exact ⟨h, fun e he => by cases he⟩
  · exact ⟨h, fun e he => by cases he⟩

end
end Relay

/-! ## The invariant -/

namespace Session

open Index (MadeOf)

/-- A client has sent the event, in a frame that parses and verifies. -/
def Offered (x : Serde) (turns : List Turn) (e : Event) : Prop :=
  ∃ c text subId, Turn.receive c (.text text) ∈ turns ∧
      NostrMessage.fromJson x (utf8Bytes text) = .ok (.event subId e)

/-- Connection `c` has asked for the filters under the id. -/
def AskedFor (x : Serde) (turns : List Turn) (c : ConnId) (id : Str) (filters : List Filter) : Prop :=
  ∃ text, Turn.receive c (.text text) ∈ turns ∧
      NostrMessage.fromJson x (utf8Bytes text) = .ok (.request id filters)

/-- One of the filters asked for admits the event. -/
def Wanted (x : Serde) (turns : List Turn) (c : ConnId) (id : Str) (e : Event) : Prop :=
  ∃ filters, AskedFor x turns c id filters ∧ ∃ f ∈ filters, f.Admits e

/-- The filters are those of a `REQ` of the connection, after `prepare_filters`. -/
def Prepares (x : Serde) (cfg : Config) (turns : List Turn) (c : ConnId) (id : Str)
    (filters : List Filter) : Prop :=
  ∃ asked, AskedFor x turns c id asked ∧ ∀ f ∈ filters, ∃ g ∈ asked, f = prepareFilter cfg.maxLimit g

/-- What is published is of `E`. -/
def Stage.Carries (E : Event → Prop) : Stage → Prop
  | .publishing events _ => ∀ e ∈ events, E e
  | .delivering ev _ events _ => (∃ e, E e ∧ ev = .new e) ∧ ∀ e ∈ events, E e
  | _ => True

/-- What the task of a `REQ` works on is asked for, and what it finds is of `E`. -/
structure Serves (x : Serde) (cfg : Config) (turns : List Turn) (E : Event → Prop) (t : ReqTask) : Prop where
  filters : Prepares x cfg turns t.conn t.id t.filters
  query : ∀ q, t.query = some q → Prepares x cfg turns t.conn t.id [q.filter] ∧ q.lookups ⊆ q.filter.lookups ∧
    ∀ e ∈ q.found, E e ∧ (q.filter.useIds = true → Filter.among q.filter.ids e.id = true)
  answer : ∀ e ∈ t.answer, E e ∧ Wanted x turns t.conn t.id e

structure Rooted (x : Serde) (cfg : Config) (turns : List Turn) (E : Event → Prop) (s : Server) : Prop where
  store : MadeOf E s.store.index
  frames : ∀ j ∈ s.jobs, ∀ subId e, NostrMessage.fromJson x (utf8Bytes j.text) = .ok (.event subId e) → E e
  jobs : ∀ j ∈ s.jobs, j.stage.Carries E
  tasks : ∀ t ∈ s.tasks, Serves x cfg turns E t
  subs : ∀ c, ∀ sub ∈ (s.conn c).subs, Prepares x cfg turns c sub.id sub.filters
  log : ∀ c id json, Frame.event id json ∈ s.log c → ∃ e, E e ∧ json = Json.fromUtf8Lossy e.raw ∧
      Wanted x turns c id e

section
variable {x : Serde} {cfg : Config} {turns : List Turn} {E : Event → Prop} {a : Turn} {s t : Server}

theorem Prepares.wanted {c : ConnId} {id : Str} {filters : List Filter} (h : Prepares x cfg turns c id filters)
    {f : Filter} (hf : f ∈ filters) {e : Event} (hadmits : f.Admits e) : Wanted x turns c id e := by
  obtain ⟨asked, hreq, hprep⟩ := h
  obtain ⟨g, hg, rfl⟩ := hprep f hf
  exact ⟨asked, hreq, g, hg, hadmits.of_prepareFilter⟩

/-- Frames of events come from the answers of `REQ` tasks and from publishers. -/
theorem Rooted.log_move (h : Rooted x cfg turns E s) (hfresh : Fresh s) (hmove : Move x cfg a s t) :
    ∀ c id json, Frame.event id json ∈ t.log c → ∃ e, E e ∧ json = Json.fromUtf8Lossy e.raw ∧
        Wanted x turns c id e := by
  intro c id json hframe
  rcases move_log hfresh hmove with ⟨k, j, m, -, -, -, hlog⟩ | ⟨hgrows, -⟩
  · rw [hlog c] at hframe
    rcases List.mem_append.1 hframe with hframe | hframe
    · exact h.log c id json hframe
    · split at hframe
      · cases List.mem_singleton.1 hframe
      · cases hframe
  · obtain ⟨frames, hlog, hsource⟩ := hgrows c
    rw [hlog] at hframe
    rcases List.mem_append.1 hframe with hframe | hframe
    · exact h.log c id json hframe
    · generalize hf : Frame.event id json = frame at hframe
      cases hsource frame hframe with
      | spoken hspoken =>
        rcases hspoken with ⟨_, rfl⟩ | ⟨_, _, rfl⟩ <;> cases hf
      | @live _ j ev _ _ _ hj hstage hlive =>
        obtain ⟨sub, hsub, hmatch, rfl⟩ := hlive
        cases hf
        have hcarries := h.jobs j hj
        rw [hstage] at hcarries
        obtain ⟨⟨e, he, rfl⟩, -⟩ := hcarries
        obtain ⟨f, hfilter, hf⟩ := List.any_eq_true.1 hmatch
        exact ⟨e, he, rfl, (h.subs c sub hsub).wanted hfilter (Filter.admits_of_matchesEvent hf)⟩
      | @stored i u e hu hconn _ he =>
        cases hf
        obtain ⟨hE, hwanted⟩ := (h.tasks u (List.mem_of_getElem? hu)).answer e he
        exact ⟨e, hE, rfl, hconn ▸ hwanted⟩
      | eose => cases hf

/-- The task of an `EVENT` frame is at another stage. -/
theorem Rooted.stage (h : Rooted x cfg turns E s) {k : Nat} {j : Job} (hj : s.jobs[k]? = some j) (stage : Stage)
    (hstage : stage.Carries E) : (∀ i ∈ s.jobs.set k { j with stage := stage }, ∀ subId e,
      NostrMessage.fromJson x (utf8Bytes i.text) = .ok (.event subId e) → E e) ∧
      ∀ i ∈ s.jobs.set k { j with stage := stage }, i.stage.Carries E := by
  refine ⟨fun i hi => ?_, fun i hi => ?_⟩
  · rcases List.mem_or_eq_of_mem_set hi with hi | rfl
    · exact h.frames i hi
    · exact h.frames j (List.mem_of_getElem? hj)
  · rcases List.mem_or_eq_of_mem_set hi with hi | rfl
    · exact h.jobs i hi
    · exact hstage

/-- The task of a `REQ` goes on. -/
theorem Rooted.task (h : Rooted x cfg turns E s) {i : Nat} {u' : ReqTask} (hserves : Serves x cfg turns E u') :
    ∀ v ∈ s.tasks.set i u', Serves x cfg turns E v := by
  intro v hv
  rcases List.mem_or_eq_of_mem_set hv with hv | rfl
  · exact h.tasks v hv
  · exact hserves

theorem Rooted.same (h : Rooted x cfg turns E s) {u v : ReqTask} (hu : u ∈ s.tasks) (hsame : Same u v) :
    Serves x cfg turns E v := by
  have hserves := h.tasks u hu
  refine ⟨?_, ?_, ?_⟩
  all_goals rw [hsame.conn, hsame.id]
  · rw [hsame.filters]
    exact hserves.filters
  · rw [hsame.query]
    exact hserves.query
  · rw [hsame.answer]
    exact hserves.answer

/-- A turn that places no frame. -/
theorem Serves.next {u u' : ReqTask} {index : Index} (h : Serves x cfg turns E u) (hmade : MadeOf E index)
    (hnext : u.Next index u') : Serves x cfg turns E u' := by
  cases hnext with
  | @ask filter filters hanswer hquery hfilters =>
    obtain ⟨asked, hreq, hfrom⟩ := h.filters
    rw [hfilters] at hfrom
    refine ⟨⟨asked, hreq, fun f hf => hfrom f (List.mem_cons_of_mem filter hf)⟩, fun q hq => ?_, h.answer⟩
    cases hq
    refine ⟨⟨asked, hreq, fun f hf => ?_⟩, List.Subset.refl _, fun e he => absurd he List.not_mem_nil⟩
    rw [List.mem_singleton.1 hf]
    exact hfrom filter List.mem_cons_self
  | @look q l lookups hanswer hquery hlookups =>
    obtain ⟨hprep, hsub, hfound⟩ := h.query q hquery
    rw [hlookups] at hsub
    refine ⟨h.filters, fun q' hq => ?_, h.answer⟩
    cases hq
    refine ⟨hprep, fun l' hl => hsub (List.mem_cons_of_mem l hl), fun e he => ?_⟩
    exact (hmade.look (hsub List.mem_cons_self) he).elim (hfound e) id
  | @choose q hanswer hquery hlookups =>
    obtain ⟨hprep, -, hfound⟩ := h.query q hquery
    refine ⟨h.filters, nofun, fun e he => ⟨(hfound e (Filter.mem_choose he).1).1, ?_⟩⟩
    exact hprep.wanted List.mem_cons_self (Filter.admits_of_mem_choose (fun e he => (hfound e he).2) he)
  | park => exact ⟨h.filters, h.query, h.answer⟩

theorem Rooted.subs_congr (h : Rooted x cfg turns E s) (hsubs : ∀ c, (t.conn c).subs = (s.conn c).subs) :
    ∀ c, ∀ sub ∈ (t.conn c).subs, Prepares x cfg turns c sub.id sub.filters := by
  intro c sub hsub
  rw [hsubs] at hsub
  exact h.subs c sub hsub

theorem Rooted.subs_rewrites (h : Rooted x cfg turns E s) {d : ConnId} {subs : List Sub} {fan : Fanout}
    (hr : s.fan.Rewrites d subs fan) (hfan : t.fan = fan)
    (hsubs : ∀ sub ∈ subs, Prepares x cfg turns d sub.id sub.filters) :
    ∀ c, ∀ sub ∈ (t.conn c).subs, Prepares x cfg turns c sub.id sub.filters := by
  intro c sub hsub
  unfold Server.conn at hsub
  rw [hfan] at hsub
  by_cases hc : c = d
  · obtain ⟨key, hself⟩ := hr.self
    rw [hc, hself] at hsub
    rw [hc]
    exact hsubs sub hsub
  · rw [hr.others c hc] at hsub
    exact h.subs c sub hsub

/-- The step lemma, piece by piece: what comes in is sent by a client, and a background
task brings nothing new. -/
theorem Rooted.move (h : Rooted x cfg turns E s) (hmove : Move x cfg a s t) (hin : a ∈ turns)
    (hE : ∀ e, Offered x turns e → E e) (hback : ∀ st, a = .background st → MadeOf E st.index) (hfresh : Fresh s) :
    Rooted x cfg turns E t := by
  have hlog := h.log_move hfresh hmove
  have hmodify : ∀ {d : ConnId} {f : ConnState → ConnState} {u : Server}, (f (s.conn d)).subs = (s.conn d).subs →
      u.fan = s.fan.modify d f → ∀ c, ∀ sub ∈ (u.conn c).subs, Prepares x cfg turns c sub.id sub.filters :=
    fun hf hfan => h.subs_congr fun _ => subs_modify hf hfan
  have hsend : ∀ {u : ReqTask} {frame : Frame} {conn : ConnState}, (s.conn u.conn).trySend frame = some conn →
      conn.subs = (s.conn u.conn).subs := fun hs => (places_sent hs).subs
  cases hmove with
  | connect now =>
    refine ⟨h.store, h.frames, h.jobs, h.tasks, fun c sub hsub => ?_, hlog⟩
    change sub ∈ ((s.fan.register now connSendCap).2.state c).subs at hsub
    rw [Fanout.state_register] at hsub
    split at hsub
    · cases hsub
    · exact h.subs c sub hsub
  | socket => exact ⟨h.store, h.frames, h.jobs, h.tasks, h.subs, hlog⟩
  | conn hp => exact ⟨h.store, h.frames, h.jobs, h.tasks, hmodify hp.subs rfl, hlog⟩
  | @openSub c sock text id filters ha _ _ hreq =>
    have hprep : Prepares x cfg turns c id (prepareFilters filters cfg.maxLimit) := by
      refine ⟨filters, ⟨text, ha ▸ hin, hreq⟩, fun f hf => ?_⟩
      obtain ⟨g, hg, rfl⟩ := List.mem_map.1 hf
      exact ⟨g, hg, rfl⟩
    refine ⟨h.store, h.frames, h.jobs, fun u hu => ?_, ?_, hlog⟩
    · rcases List.mem_append.1 hu with hu | hu
      · obtain ⟨v, hv, hsame⟩ := mem_abort hu
        exact h.same hv hsame
      · rw [List.mem_singleton.1 hu]
        exact ⟨hprep, nofun, fun e he => absurd he List.not_mem_nil⟩
    · refine h.subs_rewrites (Fanout.rewrites_setSub ..) rfl fun sub hsub => ?_
      rcases ConnState.mem_putSub hsub with rfl | hsub
      · exact hprep
      · exact h.subs c sub hsub
  | @closeSub c =>
    refine ⟨h.store, h.frames, h.jobs, fun u hu => ?_, ?_, hlog⟩
    · obtain ⟨v, hv, hsame⟩ := mem_abort hu
      exact h.same hv hsame
    · exact h.subs_rewrites (Fanout.rewrites_removeSub ..) rfl fun sub hsub =>
        h.subs c sub (ConnState.mem_dropSub.1 hsub).1
  | @unregister c =>
    refine ⟨h.store, h.frames, h.jobs, h.tasks, h.subs_congr fun d => ?_, hlog⟩
    show ((s.fan.unregister c).state d).subs = (s.fan.state d).subs
    rw [Fanout.unregister_eq, Fanout.subs_rekey]
  | @finish d =>
    refine ⟨h.store, h.frames, h.jobs, fun u hu => ?_,
      hmodify (d := d) (f := fun conn => { conn with closed := true }) rfl rfl, hlog⟩
    obtain ⟨v, hv, hsame⟩ := mem_abortAll hu
    exact h.same hv hsame
  | @hangUp d =>
    exact ⟨h.store, h.frames, h.jobs, h.tasks,
      hmodify (d := d) (f := fun conn => { conn with closed := true }) rfl rfl, hlog⟩
  | @drain d _ queue =>
    exact ⟨h.store, h.frames, h.jobs, h.tasks,
      hmodify (d := d) (f := fun conn => { conn with queue := queue }) rfl rfl, hlog⟩
  | @task i u u' _ hu _ hnext =>
    have hserves := (h.tasks u (List.mem_of_getElem? hu)).next h.store hnext
    exact ⟨h.store, h.frames, h.jobs, h.task hserves, h.subs, hlog⟩
  | @stored i u e answer conn hu _ hanswer hs =>
    obtain ⟨hprep, hquery, hans⟩ := h.tasks u (List.mem_of_getElem? hu)
    rw [hanswer] at hans
    exact ⟨h.store, h.frames, h.jobs, h.task ⟨hprep, hquery, fun e' he' => hans e' (List.mem_cons_of_mem e he')⟩,
      hmodify (d := u.conn) (f := fun _ => conn) (hsend hs) rfl, hlog⟩
  | @eose i u conn hu _ _ _ _ hs =>
    obtain ⟨hprep, hquery, hans⟩ := h.tasks u (List.mem_of_getElem? hu)
    exact ⟨h.store, h.frames, h.jobs, h.task ⟨hprep, hquery, hans⟩,
      hmodify (d := u.conn) (f := fun _ => conn) (hsend hs) rfl, hlog⟩
  | @endTask i u hu =>
    obtain ⟨hprep, hquery, hans⟩ := h.tasks u (List.mem_of_getElem? hu)
    exact ⟨h.store, h.frames, h.jobs, h.task ⟨hprep, hquery, hans⟩, h.subs, hlog⟩
  | @spawn c sock text ha =>
    refine ⟨h.store, fun j hj subId e he => ?_, fun j hj => ?_, h.tasks, h.subs, hlog⟩
    · rcases List.mem_append.1 hj with hj | hj
      · exact h.frames j hj subId e he
      · rw [List.mem_singleton.1 hj] at he
        exact hE e ⟨c, text, subId, ha ▸ hin, he⟩
    · rcases List.mem_append.1 hj with hj | hj
      · exact h.jobs j hj
      · rw [List.mem_singleton.1 hj]
        trivial
  | permit hj =>
    obtain ⟨hframes, hjobs⟩ := h.stage hj .permitted trivial
    exact ⟨h.store, hframes, hjobs, h.tasks, h.subs, hlog⟩
  | process visit _ hj =>
    obtain ⟨hstore, hpub⟩ := Relay.madeOf_processEventMessage visit h.store (h.frames _ (List.mem_of_getElem? hj))
    obtain ⟨hframes, hjobs⟩ := h.stage hj (.publishing _ _) hpub
    exact ⟨hstore, hframes, hjobs, h.tasks, h.subs, hlog⟩
  | @advance k j stage hj hnext =>
    have hcarries : stage.Carries E := by
      have hold := h.jobs j (List.mem_of_getElem? hj)
      generalize j.stage = old at hold hnext
      cases hnext with
      | publish targets e events reply =>
        exact ⟨⟨e, hold e List.mem_cons_self, rfl⟩, fun e' he' => hold e' (List.mem_cons_of_mem e he')⟩
      | published ev events reply => exact hold.2
      | reply | silent => trivial
    obtain ⟨hframes, hjobs⟩ := h.stage hj stage hcarries
    exact ⟨h.store, hframes, hjobs, h.tasks, h.subs, hlog⟩
  | @deliver k j ev c targets events reply clock hj hstage =>
    have hcarries := h.jobs j (List.mem_of_getElem? hj)
    rw [hstage] at hcarries
    obtain ⟨hframes, hjobs⟩ := h.stage hj (.delivering ev targets events reply) hcarries
    exact ⟨h.store, hframes, hjobs, h.tasks, hmodify (places_deliver _ clock _ _).subs rfl, hlog⟩
  | @reply k j m conn hj _ hs =>
    obtain ⟨hframes, hjobs⟩ := h.stage hj (.answered m) trivial
    exact ⟨h.store, hframes, hjobs, h.tasks, hmodify (d := j.conn) (f := fun _ => conn)
      (places_sent hs).subs rfl, hlog⟩
  | unheard hj =>
    obtain ⟨hframes, hjobs⟩ := h.stage hj .ended trivial
    exact ⟨h.store, hframes, hjobs, h.tasks, h.subs, hlog⟩
  | promise => exact ⟨h.store, h.frames, h.jobs, h.tasks, h.subs, hlog⟩
  | background store ha => exact ⟨hback store ha, h.frames, h.jobs, h.tasks, h.subs, hlog⟩

end

/-- A background task evicts, or works on the files. -/
def Housekeeping (s : Server) (a : Turn) : Prop :=
  ∀ st, a = .background st → st.index = s.store.index ∨
    ∃ maxBytes processMem amplification, st.index = s.store.index.maybeEvict maxBytes processMem amplification

/-- What `run_origins` keeps. -/
structure Traced (x : Serde) (cfg : Config) (turns : List Turn) (E : Event → Prop) (s : Server) : Prop where
  fresh : Fresh s
  rooted : Rooted x cfg turns E s

theorem traced_start (x : Serde) (cfg : Config) (turns : List Turn) {E : Event → Prop} {store : Store}
    (h : MadeOf E store.index) : Traced x cfg turns E (.start store) where
  fresh := fresh_start store
  rooted :=
    ⟨h, fun _ hj => absurd hj List.not_mem_nil, fun _ hj => absurd hj List.not_mem_nil,
      fun _ ht => absurd ht List.not_mem_nil, fun _ _ hsub => absurd hsub List.not_mem_nil,
      fun _ _ _ hf => absurd hf List.not_mem_nil⟩

/-- The step lemma. -/
theorem Traced.step {x : Serde} {cfg : Config} {turns : List Turn} {E : Event → Prop} {s t : Server} {a : Turn}
    (h : Traced x cfg turns E s) (hstep : s.step x cfg a = some t) (hkeep : Housekeeping s a) (hin : a ∈ turns)
    (hE : ∀ e, Offered x turns e → E e) : Traced x cfg turns E t := by
  have hback : ∀ st, a = .background st → MadeOf E st.index := by
    intro st ha
    rcases hkeep st ha with he | ⟨maxBytes, processMem, amplification, he⟩
    · rw [he]
      exact h.rooted.store
    · rw [he]
      exact h.rooted.store.maybeEvict maxBytes processMem amplification
  exact (step_moves hstep).keep (fun _ _ hmove hI =>
    ⟨hI.fresh.move hmove, hI.rooted.move hmove hin hE hback hI.fresh⟩) h

/-- In every state of every run, for every frame of an event that was placed for a
connection, whatever the other connections, publishers and background tasks did. -/
theorem run_origins (x : Serde) (cfg : Config) (store : Store) (Old : Event → Prop)
    (hstore : MadeOf Old store.index)
    (turns : List Turn) (s : Server) (hs : Machine.run (Server.step x cfg) (.start store) turns = some s)
    (hback : Machine.Along (Server.step x cfg) Housekeeping (.start store) turns) (c : ConnId) (id json : Str)
    (hframe : Frame.event id json ∈ s.log c) :
    ∃ e, (Old e ∨ Offered x turns e) ∧ json = Json.fromUtf8Lossy e.raw ∧ Wanted x turns c id e := by
  have hmade : MadeOf (fun e => Old e ∨ Offered x turns e) store.index :=
    ⟨fun id e he => ⟨Or.inl (hstore.live id e he).1, (hstore.live id e he).2⟩,
      fun b e he => ⟨Or.inl (hstore.sets b e he).1, (hstore.sets b e he).2⟩⟩
  have hI := Machine.run_invariant (I := Traced x cfg turns fun e => Old e ∨ Offered x turns e)
    (fun _ _ _ hstep ha h => h.step hstep ha.1 ha.2 fun _ => Or.inr) turns _ s hs
    (Machine.along_and_mem turns _ hback) (traced_start x cfg turns hmade)
  exact hI.rooted.log c id json hframe

/-- The store holds a note when the relay starts, and a client asks for notes. -/
def noteStore : Store := { Store.new ⟨none, none, none⟩ with index := (Index.new.insert (note 0)).2 }

def storedNote : List Turn := [.connect 0, .receive 1 (.text noteReq), .request 0, .request 0, .request 0,
  .request 0]

def isNote : Frame → Bool
  | .event id _ => id == ['a']
  | .message _ => false

theorem run_origins_storedNote : ∃ s json,
    Machine.run (Server.step NostrMessage.jsonSerde oneSub) (.start noteStore) storedNote = some s ∧
      Frame.event ['a'] json ∈ s.log 1 ∧ ∃ e, (e = note 0 ∨ Offered NostrMessage.jsonSerde storedNote e) ∧
        json = Json.fromUtf8Lossy e.raw ∧ Wanted NostrMessage.jsonSerde storedNote 1 ['a'] e := by
  obtain ⟨s, hs, hp⟩ := Machine.exists_run (Server.step NostrMessage.jsonSerde oneSub)
      (.start noteStore) storedNote
    (fun s => (s.log 1).any isNote) (by decide +kernel)
  obtain ⟨frame, hframe, hnote⟩ := List.any_eq_true.1 hp
  cases frame with
  | message m => cases hnote
  | event id json =>
    obtain rfl : id = ['a'] := eq_of_beq hnote
    have hback : Machine.Along (Server.step NostrMessage.jsonSerde oneSub) Housekeeping
        (.start noteStore) storedNote := by
      refine Machine.along_of_forall _ _ fun a ha u st hst => ?_
      rw [hst] at ha
      simp [storedNote] at ha
    have hstore : MadeOf (fun e => e = note 0) noteStore.index := Index.madeOf_new.insert rfl
    exact ⟨s, json, hs, hframe, run_origins _ oneSub noteStore
        (fun e => e = note 0) hstore storedNote s hs hback 1 ['a']
      json hframe⟩

end Session
end Memlay
