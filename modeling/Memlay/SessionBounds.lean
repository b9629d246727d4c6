import Mathlib.Algebra.Order.BigOperators.Group.Finset
import Memlay.Session

/-!
# What the relay holds for its clients is bounded

A connection's own task keeps three things in step: the subscriptions in the fanout, the
handles of the tasks that stream their stored answers, and the registration.  `Inv` says
how they belong together in every state that the tasks of all connections reach.  From it

    subscriptions of a connection  ≤  max_subscriptions, each of at most 20 clamped filters
    frames in a send queue         ≤  16384
    running REQ tasks              ≤  connections * max_subscriptions
    EVENT frames being worked on   ≤  the permits

whatever the clients send and however the tasks take turns (`run_bounded`).
-/

namespace Memlay

namespace Fanout

/-- The subscriptions of `c` are replaced, and its key perhaps. -/
structure Rewrites (c : ConnId) (subs : List Sub) (s t : Fanout) : Prop where
  conns : t.conns = s.conns
  nextId : t.nextId = s.nextId
  others : ∀ x, x ≠ c → t.state x = s.state x
  self : ∃ key, t.state c = { s.state c with subs := subs, kindKey := key }

theorem rewrites_reindex (s : Fanout) (c : ConnId) (subs : List Sub) :
    Rewrites c subs s ((s.modify c fun conn => { conn with subs := subs }).reindex c) where
  conns := conns_reindex _ c
  nextId := nextId_reindex _ c
  others := by
    intro x hx
    rw [state_reindex, if_neg hx, state_modify, if_neg hx]
  self := by
    rw [state_reindex, if_pos rfl, state_modify, if_pos rfl]
    exact ⟨_, rfl⟩

theorem rewrites_setSub (s : Fanout) (c : ConnId) (id : Str) (filters : List Filter) :
    Rewrites c (ConnState.putSub id filters (s.state c).subs) s (s.setSub c id filters) :=
  rewrites_reindex s c _

theorem rewrites_removeSub (s : Fanout) (c : ConnId) (id : Str) :
    Rewrites c (ConnState.dropSub id (s.state c).subs) s (s.removeSub c id).2 := by
  rw [removeSub_eq]
  split
  · exact rewrites_reindex s c _
  · rename_i hnone
    rw [dropSub_of_eraseSub_false (eq_false_of_ne_true hnone)]
    exact ⟨rfl, rfl, fun _ _ => rfl, _, rfl⟩

end Fanout

theorem ConnState.mem_dropSub {id : Str} {subs : List Sub} {sub : Sub} :
    sub ∈ ConnState.dropSub id subs ↔ sub ∈ subs ∧ sub.id ≠ id := by
  unfold ConnState.dropSub
  rw [List.mem_filter, decide_eq_true_eq]

theorem ConnState.mem_ids_dropSub {id x : Str} {subs : List Sub} :
    x ∈ (ConnState.dropSub id subs).map Sub.id ↔ x ≠ id ∧ x ∈ subs.map Sub.id := by
  simp only [List.mem_map, ConnState.mem_dropSub]
  constructor
  · rintro ⟨sub, ⟨hsub, hne⟩, rfl⟩
    exact ⟨hne, sub, hsub, rfl⟩
  · rintro ⟨hne, sub, hsub, rfl⟩
    exact ⟨sub, ⟨hsub, hne⟩, rfl⟩

theorem ConnState.mem_putSub {id : Str} {filters : List Filter} {subs : List Sub} {sub : Sub}
    (h : sub ∈ ConnState.putSub id filters subs) : sub = ⟨id, filters⟩ ∨ sub ∈ subs := by
  induction subs with
  | nil => exact Or.inl (List.mem_singleton.1 h)
  | cons sub' subs ih =>
    unfold ConnState.putSub at h
    split at h
    · rename_i hid
      rcases List.mem_cons.1 h with rfl | h
      · rw [hid]
        exact Or.inl rfl
      · exact Or.inr (List.mem_cons_of_mem _ h)
    · rcases List.mem_cons.1 h with rfl | h
      · exact Or.inr List.mem_cons_self
      · exact (ih h).imp_right (List.mem_cons_of_mem _)

namespace Session

open Json (utf8Bytes)

/-! ## Delivery -/

/-- A frame of a live event, for one of the subscriptions that it matches. -/
def Live (ev : BroadcastEvent) (subs : List Sub) (frame : Frame) : Prop :=
  ∃ sub ∈ subs, sub.matches ev.event = true ∧ frame = .event sub.id ev.json

theorem places_deliverSub (now : Nat) (ev : BroadcastEvent) (c : ConnState) {sub : Sub} {subs : List Sub}
    (hsub : sub ∈ subs) : Places (Live ev subs) c (c.deliverSub now ev sub) := by
  unfold ConnState.deliverSub
  split
  · rename_i hmatch
    split
    · rename_i c' hsend
      exact (places_trySend (P := Live ev subs) ⟨sub, hsub, hmatch, rfl⟩ hsend).trans (.none rfl rfl rfl rfl rfl)
    · unfold ConnState.recordDrop
      simp only
      split
      · exact .none rfl rfl rfl rfl rfl
      · exact .none rfl rfl rfl rfl rfl
  · exact .refl _ _

theorem places_deliver (promised : Nat) (clock : Str → Nat) (ev : BroadcastEvent) (c : ConnState) :
    Places (Live ev c.subs) c (reserve promised (ConnState.deliver clock ev) c) := by
  have hgen : ∀ (l : List Sub) (c' : ConnState), (∀ sub ∈ l, sub ∈ c.subs) →
      Places (Live ev c.subs) c' (l.foldl (fun c sub => c.deliverSub (clock sub.id) ev sub) c') := by
    intro l
    induction l with
    | nil => exact fun c' _ => .refl _ c'
    | cons sub l ih =>
      intro c' hl
      have hone := places_deliverSub (clock sub.id) ev c' (hl sub List.mem_cons_self)
      exact hone.trans (ih _ fun sub' hsub' => hl sub' (List.mem_cons_of_mem sub hsub'))
  exact .reserve (hgen c.subs _ fun sub hsub => hsub)

/-! ## The invariant -/

/-- Few filters, with limits that are clamped. -/
def Prepared (cfg : Config) (filters : List Filter) : Prop :=
  filters.length ≤ maxFiltersPerReq ∧ ∀ f ∈ filters, ∃ n ≤ cfg.maxLimit, f.limit = some n

theorem prepared_prepareFilters {cfg : Config} {filters : List Filter} (h : filters.length ≤ maxFiltersPerReq) :
    Prepared cfg (prepareFilters filters cfg.maxLimit) := by
  unfold prepareFilters
  refine ⟨by rwa [List.length_map], fun f hf => ?_⟩
  obtain ⟨g, -, rfl⟩ := List.mem_map.1 hf
  refine ⟨g.limit.elim cfg.maxLimit fun l => min l cfg.maxLimit, ?_, rfl⟩
  cases g.limit with
  | none => exact Nat.le_refl _
  | some l => exact Nat.min_le_right l cfg.maxLimit

/-- The subscriptions, the handles and the registration belong together. -/
structure Inv (cfg : Config) (s : Server) : Prop where
  routed : s.fan.Routed fun _ => False
  tight : s.fan.Tight cfg.maxSubscriptions
  conns : ∀ c, c ∈ s.fan.conns ↔ ∃ sock, s.sockets.lookup c = some sock ∧ sock.loop ≠ .unregistered
  /-- ids are not used again -/
  old : ∀ c, c ∈ s.sockets → c ≤ s.fan.nextId
  count : s.connectionCount = s.sockets.total fun _ => 1
  handles : ∀ c sock, s.sockets.lookup c = some sock → ∀ id, id ∈ sock.handles ↔ id ∈ (s.conn c).subs.map Sub.id
  filed : ∀ c sock, s.sockets.lookup c = some sock → ∀ id i, sock.handles.lookup id = some i →
    ∃ t, s.tasks[i]? = some t ∧ t.conn = c ∧ t.id = id
  running : ∀ i t, s.tasks[i]? = some t → t.aborted = false →
    ∃ sock, s.sockets.lookup t.conn = some sock ∧ sock.handles.lookup t.id = some i
  filters : ∀ c, ∀ sub ∈ (s.conn c).subs, Prepared cfg sub.filters
  queue : ∀ c, (s.conn c).queue.length ≤ (s.conn c).capacity ∧ (s.conn c).capacity ≤ connSendCap
  permits : s.held ≤ verifyPermits cfg.cpus

theorem inv_start (cfg : Config) (store : Store) : Inv cfg (.start store) where
  routed := Fanout.routed_new _
  tight := Fanout.tight_new _
  conns := by simp [Server.start, Fanout.new]
  old := by simp [Server.start]
  count := rfl
  handles := by simp [Server.start]
  filed := by simp [Server.start]
  running := by simp [Server.start]
  filters := by simp [Server.conn, Server.start, Fanout.new, ConnState.new]
  queue := by simp [Server.conn, Server.start, Fanout.new, ConnState.new]
  permits := Nat.zero_le _

section
variable {x : Serde} {cfg : Config} {s : Server} {c : ConnId} {sock : Socket}

/-- A connection changes and keeps its subscriptions. -/
theorem Inv.modify {f : ConnState → ConnState} (h : Inv cfg s) (hsubs : (f (s.conn c)).subs = (s.conn c).subs)
    (hkey : (f (s.conn c)).kindKey = (s.conn c).kindKey) (hcap : (f (s.conn c)).capacity = (s.conn c).capacity)
    (hroom : (f (s.conn c)).queue.length ≤ (s.conn c).capacity) : Inv cfg { s with fan := s.fan.modify c f } where
  routed := h.routed.modify hkey hsubs
  tight := h.tight.congr rfl fun x => Fanout.state_modify_congr s.fan c x f hsubs
  conns := h.conns
  old := h.old
  count := h.count
  handles := by
    intro x sock hsock id
    rw [h.handles x sock hsock, Server.conn, ← Fanout.state_modify_congr s.fan c x f hsubs]
    rfl
  filed := h.filed
  running := h.running
  filters := by
    intro x
    have hsame : ((s.fan.modify c f).state x).subs = (s.fan.state x).subs :=
      Fanout.state_modify_congr s.fan c x f hsubs
    show ∀ sub ∈ ((s.fan.modify c f).state x).subs, Prepared cfg sub.filters
    rw [hsame]
    exact h.filters x
  queue := by
    intro x
    show ((s.fan.modify c f).state x).queue.length ≤ ((s.fan.modify c f).state x).capacity ∧
      ((s.fan.modify c f).state x).capacity ≤ connSendCap
    rw [Fanout.state_modify]
    split
    · exact ⟨hroom.trans_eq hcap.symm, hcap.le.trans (h.queue c).2⟩
    · exact h.queue x
  permits := h.permits

/-- Frames are placed in one queue. -/
theorem Inv.places {P : Frame → Prop} {f : ConnState → ConnState} (h : Inv cfg s)
    (hf : Places P (s.conn c) (f (s.conn c))) : Inv cfg { s with fan := s.fan.modify c f } :=
  h.modify hf.subs hf.kindKey hf.capacity (hf.room.trans (max_le (h.queue c).1 (Nat.le_refl _)))

/-- A task moves on, for the same subscription. -/
theorem Inv.setTask {i : Nat} {t t' : ReqTask} (h : Inv cfg s) (ht : s.tasks[i]? = some t)
    (hconn : t'.conn = t.conn)
    (hid : t'.id = t.id) (haborted : t'.aborted = t.aborted) : Inv cfg (s.setTask i t') := by
  obtain ⟨hlt, -⟩ := List.getElem?_eq_some_iff.1 ht
  have hget : ∀ n, (s.tasks.set i t')[n]? = if n = i then some t' else s.tasks[n]? := by
    intro n
    rw [List.getElem?_set]
    by_cases hn : i = n
    · rw [if_pos hn, if_pos hn.symm, if_pos hlt]
    · rw [if_neg hn, if_neg (Ne.symm hn)]
  refine ⟨h.routed, h.tight, h.conns, h.old, h.count, h.handles, ?_, ?_, h.filters, h.queue, h.permits⟩
  · intro x sock hsock id n hn
    obtain ⟨u, hu, hux, huid⟩ := h.filed x sock hsock id n hn
    show ∃ t, (s.tasks.set i t')[n]? = some t ∧ _
    rw [hget]
    split
    · rename_i hni
      rw [hni, ht] at hu
      cases hu
      exact ⟨t', rfl, hconn.trans hux, hid.trans huid⟩
    · exact ⟨u, hu, hux, huid⟩
  · intro n u hu hrun
    change (s.tasks.set i t')[n]? = some u at hu
    rw [hget] at hu
    split at hu
    · rename_i hni
      cases hu
      rw [hni, hconn, hid]
      exact h.running i t ht (haborted ▸ hrun)
    · exact h.running n u hu hrun

/-! ### Subscriptions -/

/-- The task filed under the id, and no other, is aborted. -/
theorem getElem?_abort (s : Server) (sock : Socket) (id : Str) (n : Nat) : (s.abort sock id)[n]? =
    if sock.handles.lookup id = some n then (s.tasks[n]?).map fun t => { t with aborted := true }
        else s.tasks[n]? := by
  unfold Server.abort
  split
  · rename_i i hi
    rw [hi]
    by_cases hn : i = n
    · rw [hn, if_pos rfl]
      exact List.getElem?_modify_eq ..
    · rw [if_neg fun heq => hn (Option.some.inj heq)]
      exact List.getElem?_modify_ne _ _ hn
  · rename_i hnone
    rw [hnone, if_neg nofun]

theorem length_abort (s : Server) (sock : Socket) (id : Str) : (s.abort sock id).length = s.tasks.length := by
  unfold Server.abort
  split
  · exact List.length_modify ..
  · rfl

/-- A task that is not aborted has not changed. -/
theorem of_getElem?_abort {id : Str} {n : Nat} {t : ReqTask} (h : (s.abort sock id)[n]? = some t)
    (hrun : t.aborted = false) :
    s.tasks[n]? = some t ∧ sock.handles.lookup id ≠ some n := by
  rw [getElem?_abort] at h
  split at h
  · obtain ⟨u, -, rfl⟩ := Option.map_eq_some_iff.1 h
    cases hrun
  · rename_i hne
    exact ⟨h, hne⟩

/-- Every task is there after the abort, for the same subscription. -/
theorem getElem?_abort_some (sock : Socket) (id : Str) {n : Nat} {t : ReqTask} (h : s.tasks[n]? = some t) :
    ∃ t', (s.abort sock id)[n]? = some t' ∧ t'.conn = t.conn ∧ t'.id = t.id := by
  rw [getElem?_abort]
  split
  · rw [h]
    exact ⟨_, rfl, rfl, rfl⟩
  · exact ⟨t, h, rfl, rfl⟩

end

/-- What a change of one connection's subscriptions has to leave in step: its socket with
the new handles, the tasks, and the subscriptions in the fanout. -/
structure Stepped (cfg : Config) (s : Server) (c : ConnId) (sock sock' : Socket) (subs : List Sub) (fan : Fanout)
    (tasks : List ReqTask) : Prop where
  rewrites : s.fan.Rewrites c subs fan
  routed : fan.Routed fun _ => False
  tight : fan.Tight cfg.maxSubscriptions
  loop : sock'.loop = .unregistered ↔ sock.loop = .unregistered
  ids : ∀ id, id ∈ sock'.handles ↔ id ∈ subs.map Sub.id
  filed : ∀ id (i : Nat), sock'.handles.lookup id = some i → ∃ t :
      ReqTask, tasks[i]? = some t ∧ t.conn = c ∧ t.id = id
  /-- the tasks of other connections are left -/
  kept : ∀ (i : Nat) (t : ReqTask), s.tasks[i]? = some t → ∃ t' : ReqTask, tasks[i]? = some t' ∧ t'.conn = t.conn ∧
      t'.id = t.id
  running : ∀ (i : Nat) (t : ReqTask), tasks[i]? = some t → t.aborted = false →
    (t.conn = c ∧ sock'.handles.lookup t.id = some i) ∨ (t.conn ≠ c ∧ s.tasks[i]? = some t)
  filters : ∀ sub ∈ subs, Prepared cfg sub.filters

section
variable {x : Serde} {cfg : Config} {s : Server} {c : ConnId} {sock : Socket}

theorem Inv.stepped {sock' : Socket} {subs : List Sub} {fan : Fanout} {tasks : List ReqTask} (h : Inv cfg s)
    (hsock : s.sockets.lookup c = some sock) (hs : Stepped cfg s c sock sock' subs fan tasks) :
    Inv cfg { s with fan := fan, tasks := tasks, sockets := s.sockets.insert c sock' } := by
  have hlookup : ∀ x, x ≠ c → (s.sockets.insert c sock').lookup x = s.sockets.lookup x :=
    fun x hx => AList.lookup_insert_ne hx
  obtain ⟨key, hself⟩ := hs.rewrites.self
  refine ⟨hs.routed, hs.tight, ?_, ?_, ?_, ?_, ?_, ?_, ?_, ?_, h.permits⟩
  · intro x
    show x ∈ fan.conns ↔ ∃ sock, (s.sockets.insert c sock').lookup x = some sock ∧ _
    rw [hs.rewrites.conns, h.conns x]
    by_cases hx : x = c
    · subst hx
      rw [AList.lookup_insert, hsock]
      simp [not_congr hs.loop]
    · rw [hlookup x hx]
  · intro x hx
    show x ≤ fan.nextId
    rw [hs.rewrites.nextId]
    rcases (AList.mem_insert _).1 hx with rfl | hx
    · exact h.old _ (AList.lookup_isSome.1 (by rw [hsock]; rfl))
    · exact h.old x hx
  · have hsame := Table.total_insert_of_some (fun _ => 1) sock' hsock
    show s.connectionCount = Table.total (fun _ => 1) (s.sockets.insert c sock')
    rw [h.count]
    omega
  · intro x sock'' hsock'' id
    change (s.sockets.insert c sock').lookup x = some sock'' at hsock''
    show id ∈ sock''.handles ↔ id ∈ (fan.state x).subs.map Sub.id
    by_cases hx : x = c
    · subst hx
      rw [AList.lookup_insert] at hsock''
      cases hsock''
      rw [hself]
      exact hs.ids id
    · rw [hlookup x hx] at hsock''
      rw [hs.rewrites.others x hx]
      exact h.handles x sock'' hsock'' id
  · intro x sock'' hsock'' id i hi
    change (s.sockets.insert c sock').lookup x = some sock'' at hsock''
    by_cases hx : x = c
    · subst hx
      rw [AList.lookup_insert] at hsock''
      cases hsock''
      exact hs.filed id i hi
    · rw [hlookup x hx] at hsock''
      obtain ⟨t, ht, htc, htid⟩ := h.filed x sock'' hsock'' id i hi
      obtain ⟨t', ht', htc', htid'⟩ := hs.kept i t ht
      exact ⟨t', ht', htc'.trans htc, htid'.trans htid⟩
  · intro i t ht hrun
    show ∃ sock, (s.sockets.insert c sock').lookup t.conn = some sock ∧ _
    rcases hs.running i t ht hrun with ⟨htc, hi⟩ | ⟨hne, ht'⟩
    · rw [htc, AList.lookup_insert]
      exact ⟨sock', rfl, hi⟩
    · rw [hlookup _ hne]
      exact h.running i t ht' hrun
  · intro x
    show ∀ sub ∈ (fan.state x).subs, Prepared cfg sub.filters
    by_cases hx : x = c
    · rw [hx, hself]
      exact hs.filters
    · rw [hs.rewrites.others x hx]
      exact h.filters x
  · intro x
    show (fan.state x).queue.length ≤ (fan.state x).capacity ∧ (fan.state x).capacity ≤ connSendCap
    by_cases hx : x = c
    · rw [hx, hself]
      exact h.queue c
    · rw [hs.rewrites.others x hx]
      exact h.queue x

/-- Only the connection's own view of its loop changes. -/
theorem Inv.socket {sock' : Socket} (h : Inv cfg s) (hsock : s.sockets.lookup c = some sock)
    (hhandles : sock'.handles = sock.handles) (hloop : sock.loop ≠ .unregistered)
    (hloop' : sock'.loop ≠ .unregistered) :
    Inv cfg (s.setSocket c sock') := by
  refine h.stepped hsock
    ⟨⟨rfl, rfl, fun _ _ => rfl, _, rfl⟩, h.routed, h.tight, ?_, ?_, ?_, ?_, ?_, h.filters c⟩
  · exact iff_of_false hloop' hloop
  · rw [hhandles]
    exact h.handles c sock hsock
  · rw [hhandles]
    exact h.filed c sock hsock
  · exact fun i t ht => ⟨t, ht, rfl, rfl⟩
  · intro i t ht hrun
    by_cases htc : t.conn = c
    · obtain ⟨sock'', hsock'', hi⟩ := h.running i t ht hrun
      rw [htc, hsock] at hsock''
      cases hsock''
      exact Or.inl ⟨htc, by rwa [hhandles]⟩
    · exact Or.inr ⟨htc, ht⟩

theorem Inv.mem_conns (h : Inv cfg s) (hsock : s.sockets.lookup c = some sock)
    (hloop : sock.loop ≠ .unregistered) :
    c ∈ s.fan.conns := (h.conns c).2 ⟨sock, hsock, hloop⟩

/-- A running task of the connection is filed under its id in the old handles. -/
theorem Inv.lookup_of_running (h : Inv cfg s) (hsock : s.sockets.lookup c = some sock) {i : Nat} {t : ReqTask}
    (ht : s.tasks[i]? = some t) (hrun : t.aborted = false) (htc : t.conn = c) :
    sock.handles.lookup t.id = some i := by
  obtain ⟨sock', hsock', hi⟩ := h.running i t ht hrun
  rw [htc, hsock] at hsock'
  cases hsock'
  exact hi

theorem Inv.openSub {id : Str} {filters : List Filter} (h : Inv cfg s) (hsock : s.sockets.lookup c = some sock)
    (hloop : sock.loop ≠ .unregistered) (hfilters : Prepared cfg filters)
    (hlimit : (!s.fan.hasSub c id && decide (cfg.maxSubscriptions ≤ s.fan.subCount c)) = false) :
    Inv cfg (s.openSub c sock id filters) := by
  have hrequest : s.fan.requestSub cfg.maxSubscriptions c id filters = s.fan.setSub c id filters := by
    unfold Fanout.requestSub
    rw [hlimit, if_neg Bool.false_ne_true]
  have hlast : (s.abort sock id ++ [ReqTask.new c id filters])[s.tasks.length]? = some (.new c id filters) := by
    rw [← length_abort s sock id]
    exact List.getElem?_concat_length
  refine h.stepped hsock ⟨Fanout.rewrites_setSub s.fan c id filters,
    h.routed.setSub (h.mem_conns hsock hloop) id filters, hrequest ▸ h.tight.requestSub c id filters, Iff.rfl, ?_,
    ?_, ?_, ?_, ?_⟩
  · intro id'
    rw [AList.mem_insert, ConnState.mem_ids_putSub]
    exact or_congr_right (h.handles c sock hsock id')
  · intro id' i hi
    by_cases hid : id' = id
    · rw [hid, AList.lookup_insert] at hi
      cases hi
      exact ⟨_, hlast, rfl, hid.symm⟩
    · rw [AList.lookup_insert_ne hid] at hi
      obtain ⟨t, ht, htc, htid⟩ := h.filed c sock hsock id' i hi
      obtain ⟨t', ht', htc', htid'⟩ := getElem?_abort_some sock id ht
      obtain ⟨hlt, -⟩ := List.getElem?_eq_some_iff.1 ht'
      exact ⟨t', by rwa [List.getElem?_append_left hlt], htc'.trans htc, htid'.trans htid⟩
  · intro i t ht
    obtain ⟨t', ht', htc', htid'⟩ := getElem?_abort_some sock id ht
    obtain ⟨hlt, -⟩ := List.getElem?_eq_some_iff.1 ht'
    exact ⟨t', by rwa [List.getElem?_append_left hlt], htc', htid'⟩
  · intro i t ht hrun
    rcases Nat.lt_or_ge i (s.abort sock id).length with hlt | hge
    · rw [List.getElem?_append_left hlt] at ht
      obtain ⟨ht, hne⟩ := of_getElem?_abort ht hrun
      by_cases htc : t.conn = c
      · -- a task that is still running is not the one of this id
        have hi := h.lookup_of_running hsock ht hrun htc
        have hid : t.id ≠ id := fun hid => hne (hid ▸ hi)
        exact Or.inl ⟨htc, (AList.lookup_insert_ne hid).trans hi⟩
      · exact Or.inr ⟨htc, ht⟩
    · have hi : i = s.tasks.length := by
        obtain ⟨hlt, -⟩ := List.getElem?_eq_some_iff.1 ht
        rw [List.length_append, List.length_singleton] at hlt
        rw [length_abort] at hlt hge
        omega
      rw [hi, hlast] at ht
      cases ht
      rw [hi]
      exact Or.inl ⟨rfl, AList.lookup_insert _⟩
  · intro sub hsub
    rcases ConnState.mem_putSub hsub with rfl | hsub
    · exact hfilters
    · exact h.filters c sub hsub

theorem Inv.closeSub (h : Inv cfg s) (hsock : s.sockets.lookup c = some sock) (hloop : sock.loop ≠ .unregistered)
    (id : Str) : Inv cfg (s.closeSub c sock id) := by
  refine h.stepped hsock ⟨Fanout.rewrites_removeSub s.fan c id, h.routed.removeSub (h.mem_conns hsock hloop) id,
    h.tight.removeSub c id, Iff.rfl, ?_, ?_, ?_, ?_, ?_⟩
  · intro id'
    rw [AList.mem_erase, ConnState.mem_ids_dropSub]
    exact and_congr_right fun _ => h.handles c sock hsock id'
  · intro id' i hi
    have hid : id' ≠ id := by
      rintro rfl
      rw [AList.lookup_erase] at hi
      cases hi
    rw [AList.lookup_erase_ne hid] at hi
    obtain ⟨t, ht, htc, htid⟩ := h.filed c sock hsock id' i hi
    obtain ⟨t', ht', htc', htid'⟩ := getElem?_abort_some sock id ht
    exact ⟨t', ht', htc'.trans htc, htid'.trans htid⟩
  · exact fun i t ht => getElem?_abort_some sock id ht
  · intro i t ht hrun
    obtain ⟨ht, hne⟩ := of_getElem?_abort ht hrun
    by_cases htc : t.conn = c
    · have hi := h.lookup_of_running hsock ht hrun htc
      have hid : t.id ≠ id := fun hid => hne (hid ▸ hi)
      exact Or.inl ⟨htc, (AList.lookup_erase_ne hid).trans hi⟩
    · exact Or.inr ⟨htc, ht⟩
  · exact fun sub hsub => h.filters c sub (ConnState.mem_dropSub.1 hsub).1

/-! ### Connections -/

theorem Inv.connect (h : Inv cfg s) (now : Nat) : Inv cfg { s with
    fan := (s.fan.register now connSendCap).2
    sockets := s.sockets.insert (s.fan.nextId + 1) ⟨.select, ∅, false⟩
    connectionCount := s.connectionCount + 1 } := by
  have hfresh : s.fan.nextId + 1 ∉ s.sockets := fun hin => Nat.not_succ_le_self _ (h.old _ hin)
  have hnone : s.sockets.lookup (s.fan.nextId + 1) = none := AList.lookup_eq_none.2 hfresh
  have hstate := Fanout.state_register s.fan now connSendCap
  have hcases : ∀ {x sock}, (s.sockets.insert (s.fan.nextId + 1) ⟨.select, ∅, false⟩).lookup x = some sock →
      (x = s.fan.nextId + 1 ∧ sock = ⟨.select, ∅, false⟩) ∨
      (x ≠ s.fan.nextId + 1 ∧ s.sockets.lookup x = some sock) := by
    intro x sock hsock
    by_cases hx : x = s.fan.nextId + 1
    · rw [hx, AList.lookup_insert] at hsock
      cases hsock
      exact Or.inl ⟨hx, rfl⟩
    · rw [AList.lookup_insert_ne hx] at hsock
      exact Or.inr ⟨hx, hsock⟩
  refine ⟨h.routed.register now connSendCap, h.tight.register now connSendCap, ?_, ?_, ?_, ?_, ?_, ?_, ?_,
      ?_, h.permits⟩
  · intro x
    show x ∈ insert (s.fan.nextId + 1) s.fan.conns ↔ _
    rw [Finset.mem_insert, h.conns x]
    by_cases hx : x = s.fan.nextId + 1
    · subst hx
      refine iff_of_true (Or.inl rfl) ⟨_, AList.lookup_insert _, nofun⟩
    · rw [or_iff_right hx]
      show _ ↔ ∃ sock, (s.sockets.insert _ _).lookup x = some sock ∧ _
      rw [AList.lookup_insert_ne hx]
  · intro x hx
    rcases (AList.mem_insert _).1 hx with rfl | hx
    · exact Nat.le_refl _
    · exact (h.old x hx).trans (Nat.le_succ _)
  · have hmore := Table.total_insert_of_none (fun _ => 1) ⟨.select, ∅, false⟩ hnone
    show s.connectionCount + 1 = Table.total (fun _ => 1) (s.sockets.insert _ _)
    rw [hmore, h.count, Nat.add_comm]
  · intro x sock hsock id
    show id ∈ sock.handles ↔ id ∈ ((s.fan.register now connSendCap).2.state x).subs.map Sub.id
    rw [hstate]
    rcases hcases hsock with ⟨hx, rfl⟩ | ⟨hx, hsock⟩
    · rw [if_pos hx]
      exact iff_of_false (AList.notMem_empty id) List.not_mem_nil
    · rw [if_neg hx]
      exact h.handles x sock hsock id
  · intro x sock hsock id i hi
    rcases hcases hsock with ⟨-, rfl⟩ | ⟨-, hsock⟩
    · cases hi
    · exact h.filed x sock hsock id i hi
  · intro i t ht hrun
    obtain ⟨sock, hsock, hi⟩ := h.running i t ht hrun
    have hx : t.conn ≠ s.fan.nextId + 1 := by
      intro hx
      rw [hx, hnone] at hsock
      cases hsock
    exact ⟨sock, (AList.lookup_insert_ne hx).trans hsock, hi⟩
  · intro x
    show ∀ sub ∈ ((s.fan.register now connSendCap).2.state x).subs, Prepared cfg sub.filters
    rw [hstate]
    split
    · exact fun sub hsub => absurd hsub List.not_mem_nil
    · exact h.filters x
  · intro x
    show ((s.fan.register now connSendCap).2.state x).queue.length ≤
        ((s.fan.register now connSendCap).2.state x).capacity ∧
      ((s.fan.register now connSendCap).2.state x).capacity ≤ _
    rw [hstate]
    split
    · exact ⟨Nat.zero_le _, Nat.le_refl _⟩
    · exact h.queue x

theorem Inv.unregister (h : Inv cfg s) (hsock : s.sockets.lookup c = some sock) :
    Inv cfg { s.setSocket c { sock with loop := .unregistered } with fan := s.fan.unregister c } := by
  have hsub : ∀ x, ((s.fan.unregister c).state x).subs = (s.conn x).subs := fun x => by
    rw [Fanout.unregister_eq, Fanout.subs_rekey]
    rfl
  have hcases : ∀ {x sock'}, (s.sockets.insert c { sock with loop := .unregistered }).lookup x = some sock' →
      ∃ sock'', s.sockets.lookup x = some sock'' ∧ sock'.handles = sock''.handles := by
    intro x sock' hsock'
    by_cases hx : x = c
    · rw [hx, AList.lookup_insert] at hsock'
      cases hsock'
      exact ⟨sock, hx ▸ hsock, rfl⟩
    · rw [AList.lookup_insert_ne hx] at hsock'
      exact ⟨sock', hsock', rfl⟩
  refine ⟨h.routed.unregister c, h.tight.unregister c, ?_, ?_, ?_, ?_, ?_, ?_, ?_, ?_, h.permits⟩
  · intro x
    show x ∈ (s.fan.unregister c).conns ↔ ∃ sock', (s.sockets.insert c _).lookup x = some sock' ∧ _
    rw [Fanout.conns_unregister, Finset.mem_erase, h.conns x]
    by_cases hx : x = c
    · subst hx
      rw [AList.lookup_insert]
      simp
    · rw [AList.lookup_insert_ne hx]
      exact and_iff_right hx
  · intro x hx
    show x ≤ (s.fan.unregister c).nextId
    rw [Fanout.nextId_unregister]
    rcases (AList.mem_insert _).1 hx with rfl | hx
    · exact h.old _ (AList.lookup_isSome.1 (by rw [hsock]; rfl))
    · exact h.old x hx
  · have hsame := Table.total_insert_of_some (fun _ => 1) { sock with loop := .unregistered } hsock
    show s.connectionCount = Table.total (fun _ => 1) (s.sockets.insert c _)
    rw [h.count]
    omega
  · intro x sock' hsock' id
    obtain ⟨sock'', hsock'', hhandles⟩ := hcases hsock'
    show id ∈ sock'.handles ↔ id ∈ ((s.fan.unregister c).state x).subs.map Sub.id
    rw [hsub, hhandles]
    exact h.handles x sock'' hsock'' id
  · intro x sock' hsock' id i hi
    obtain ⟨sock'', hsock'', hhandles⟩ := hcases hsock'
    rw [hhandles] at hi
    exact h.filed x sock'' hsock'' id i hi
  · intro i t ht hrun
    obtain ⟨sock', hsock', hi⟩ := h.running i t ht hrun
    show ∃ sock', (s.sockets.insert c _).lookup t.conn = some sock' ∧ _
    by_cases hx : t.conn = c
    · rw [hx, hsock] at hsock'
      cases hsock'
      rw [hx, AList.lookup_insert]
      exact ⟨_, rfl, hi⟩
    · rw [AList.lookup_insert_ne hx]
      exact ⟨sock', hsock', hi⟩
  · intro x
    show ∀ sub ∈ ((s.fan.unregister c).state x).subs, Prepared cfg sub.filters
    rw [hsub]
    exact h.filters x
  · intro x
    show ((s.fan.unregister c).state x).queue.length ≤ ((s.fan.unregister c).state x).capacity ∧
      ((s.fan.unregister c).state x).capacity ≤ _
    rw [Fanout.state_unregister]
    split
    · exact h.queue c
    · exact h.queue x

/-- A list of tasks, some of them aborted. -/
theorem getElem?_abortAll (l : List Nat) (tasks : List ReqTask) (n : Nat) :
    (l.foldl (fun tasks i => tasks.modify i fun t => { t with aborted := true }) tasks)[n]? =
      if n ∈ l then (tasks[n]?).map fun t => { t with aborted := true } else tasks[n]? := by
  induction l generalizing tasks with
  | nil => rfl
  | cons i l ih =>
    rw [List.foldl_cons, ih]
    by_cases hi : i = n
    · subst hi
      rw [List.getElem?_modify_eq, if_pos List.mem_cons_self]
      cases tasks[i]? with
      | none => exact ite_self none
      | some t => exact ite_self _
    · rw [List.getElem?_modify_ne _ _ hi]
      simp only [List.mem_cons, Ne.symm hi, false_or]

theorem Inv.finish (h : Inv cfg s) (hsock : s.sockets.lookup c = some sock) (hloop : sock.loop = .unregistered) :
    Inv cfg { s with
      tasks := s.abortAll sock
      fan := s.fan.modify c fun conn => { conn with closed := true }
      sockets := s.sockets.erase c
      connectionCount := s.connectionCount - 1 } := by
  have hclosed : Inv cfg { s with fan := s.fan.modify c fun conn => { conn with closed := true } } :=
    h.modify rfl rfl rfl (h.queue c).1
  have hcases : ∀ {x sock'}, (s.sockets.erase c).lookup x = some sock' → x ≠ c ∧
      s.sockets.lookup x = some sock' := by
    intro x sock' hsock'
    by_cases hx : x = c
    · rw [hx, AList.lookup_erase] at hsock'
      cases hsock'
    · rw [AList.lookup_erase_ne hx] at hsock'
      exact ⟨hx, hsock'⟩
  refine ⟨hclosed.routed, hclosed.tight, ?_, ?_, ?_, ?_, ?_, ?_, hclosed.filters, hclosed.queue, h.permits⟩
  · intro x
    show x ∈ s.fan.conns ↔ ∃ sock', (s.sockets.erase c).lookup x = some sock' ∧ _
    rw [h.conns x]
    by_cases hx : x = c
    · rw [hx, AList.lookup_erase, hsock]
      simp [hloop]
    · rw [AList.lookup_erase_ne hx]
  · exact fun x hx => h.old x (AList.mem_erase.1 hx).2
  · have hless := Table.total_erase (fun _ => 1) hsock
    show s.connectionCount - 1 = Table.total (fun _ => 1) (s.sockets.erase c)
    rw [h.count]
    omega
  · intro x sock' hsock'
    exact hclosed.handles x sock' (hcases hsock').2
  · intro x sock' hsock' id i hi
    obtain ⟨t, ht, htc, htid⟩ := h.filed x sock' (hcases hsock').2 id i hi
    show ∃ t, (s.abortAll sock)[i]? = some t ∧ _
    unfold Server.abortAll
    rw [getElem?_abortAll, ht]
    split
    · exact ⟨_, rfl, htc, htid⟩
    · exact ⟨t, rfl, htc, htid⟩
  · intro i t ht hrun
    change (s.abortAll sock)[i]? = some t at ht
    unfold Server.abortAll at ht
    rw [getElem?_abortAll] at ht
    split at ht
    · obtain ⟨u, -, rfl⟩ := Option.map_eq_some_iff.1 ht
      cases hrun
    · rename_i hnot
      obtain ⟨sock', hsock', hi⟩ := h.running i t ht hrun
      have hx : t.conn ≠ c := by
        intro hx
        rw [hx, hsock] at hsock'
        cases hsock'
        exact hnot (Table.mem_values_iff.2 ⟨t.id, hi⟩)
      exact ⟨sock', (AList.lookup_erase_ne hx).trans hsock', hi⟩

theorem Inv.drain {frame : Frame} {queue : List Frame} (h : Inv cfg s) (hqueue : (s.conn c).queue = frame :: queue)
    (wire : ConnId → List Frame) :
    Inv cfg { s with fan := s.fan.modify c fun conn => { conn with queue := queue }, wire := wire } := by
  have hle := (h.queue c).1
  rw [hqueue] at hle
  have h' := h.modify (c := c) (f := fun conn => { conn with queue := queue }) rfl rfl rfl
      ((Nat.le_succ _).trans hle)
  exact ⟨h'.routed, h'.tight, h'.conns, h'.old, h'.count, h'.handles, h'.filed, h'.running, h'.filters,
      h'.queue, h'.permits⟩

/-! ### The tasks of `EVENT` frames -/

theorem held_setStage {k : Nat} {j : Job} (hj : s.jobs[k]? = some j) (stage : Stage) :
    (s.setStage k j stage).held + (if j.stage.holds then 1 else 0) = s.held + (if stage.holds then 1 else 0) := by
  obtain ⟨hlt, hget⟩ := List.getElem?_eq_some_iff.1 hj
  have hpos : j.stage.holds = true → 0 < s.held := by
    intro hholds
    exact List.countP_pos_iff.2 ⟨j, List.mem_of_getElem? hj, hholds⟩
  unfold Server.held Server.setStage at *
  simp only [List.countP_set hlt, hget]
  split
  · rename_i hholds
    have := hpos hholds
    omega
  · omega

/-- Only the jobs and the store change, and no more permits are held. -/
theorem Inv.jobs {jobs : List Job} (h : Inv cfg s) (store : Store)
    (hheld : jobs.countP (fun j => j.stage.holds) ≤ verifyPermits cfg.cpus) :
    Inv cfg { s with jobs := jobs, store := store } :=
  ⟨h.routed, h.tight, h.conns, h.old, h.count, h.handles, h.filed, h.running, h.filters, h.queue, hheld⟩

/-- A job that holds its permit, or gives it back. -/
theorem Inv.setStage {k : Nat} {j : Job} (h : Inv cfg s) (hj : s.jobs[k]? = some j) (hholds : j.stage.holds = true)
    (stage : Stage) : Inv cfg (s.setStage k j stage) := by
  refine h.jobs s.store ?_
  have hheld := held_setStage hj stage
  rw [if_pos hholds] at hheld
  have hle := h.permits
  show (s.setStage k j stage).held ≤ _
  split at hheld
  · omega
  · omega

/-- The step lemma. -/
theorem Inv.move {a : Turn} {s t : Server} (hmove : Move x cfg a s t) (h : Inv cfg s) : Inv cfg t := by
  cases hmove with
  | connect now => exact h.connect now
  | socket hsock hhandles hloop hloop' => exact h.socket hsock hhandles hloop hloop'
  | conn hplaces => exact h.places hplaces
  | openSub _ hsock hloop _ hfilters hlimit =>
      exact h.openSub hsock hloop (prepared_prepareFilters hfilters) hlimit
  | closeSub hsock hloop => exact h.closeSub hsock hloop _
  | unregister hsock => exact h.unregister hsock
  | finish _ hsock hloop => exact h.finish hsock hloop
  | hangUp => exact h.modify rfl rfl rfl (h.queue _).1
  | drain _ hqueue => exact h.drain hqueue _
  | task _ ht _ hnext => exact h.setTask ht hnext.conn hnext.id hnext.aborted
  | stored ht _ _ hsend =>
    exact (h.places (P := fun _ => True) (f := fun _ => _) (places_trySend trivial hsend)).setTask ht rfl rfl rfl
  | eose ht _ _ _ _ hsend =>
    exact (h.places (P := fun _ => True) (f := fun _ => _) (places_trySend trivial hsend)).setTask ht rfl rfl rfl
  | endTask ht => exact h.setTask ht rfl rfl rfl
  | spawn =>
    refine h.jobs s.store ?_
    rw [List.countP_append]
    exact h.permits
  | permit hj hstage hheld =>
    rename_i k j
    refine h.jobs s.store ?_
    have hsame := held_setStage hj .permitted
    rw [hstage] at hsame
    change (s.setStage k j .permitted).held + 0 = s.held + 1 at hsame
    show (s.setStage k j .permitted).held ≤ _
    omega
  | @process k j visit _ hj hstage =>
    have h' : ∀ stage, Inv cfg (s.setStage k j stage) := h.setStage hj (by rw [hstage]; rfl)
    exact (h' _).jobs _ (h' _).permits
  | advance hj hnext =>
    refine h.setStage hj ?_ _
    generalize (_ : Job).stage = stage at hnext
    cases hnext <;> rfl
  | deliver clock hj hstage =>
    exact (h.setStage hj (by rw [hstage]; rfl) _).places (places_deliver _ clock _ _)
  | reply hj hstage hsend =>
    exact (h.places (P := fun _ => True) (f := fun _ => _) (places_trySend trivial hsend)).setStage hj
        (by rw [hstage]; rfl) _
  | unheard hj hstage => exact h.setStage hj (by rw [hstage]; rfl) _
  | promise => exact { h with }
  | background store => exact h.jobs store h.permits

/-- The run lemma. -/
theorem run_inv {store : Store} {turns : List Turn} {s : Server}
    (hs : Machine.run (Server.step x cfg) (.start store) turns = some s) : Inv cfg s :=
  Machine.run_invariant (C := fun _ _ => True)
      (fun _ _ _ hstep _ hI => (step_moves hstep).keep (fun _ _ => Inv.move) hI)
    turns _ s hs (Machine.along_of_forall turns _ fun _ _ _ => trivial) (inv_start cfg store)

/-! ## The bounds -/

/-- What the relay holds at one time. -/
structure Bounded (cfg : Config) (s : Server) : Prop where
  /-- the counter of the connections is the number of their tasks -/
  connections : s.connectionCount = s.sockets.entries.length
  /-- events are routed to the connections that are there -/
  registered : ∀ c ∈ s.fan.conns, c ∈ s.sockets
  subscriptions : ∀ c, (s.conn c).subs.length ≤ cfg.maxSubscriptions ∧ ((s.conn c).subs.map Sub.id).Nodup
  filters : ∀ c, ∀ sub ∈ (s.conn c).subs, Prepared cfg sub.filters
  queues : ∀ c, (s.conn c).queue.length ≤ connSendCap
  /-- a task that is not aborted streams for a subscription that is there -/
  current : ∀ t ∈ s.tasks, t.aborted = false → t.conn ∈ s.sockets ∧ t.id ∈ (s.conn t.conn).subs.map Sub.id
  tasks : (s.tasks.countP fun t => !t.aborted) ≤ s.connectionCount * cfg.maxSubscriptions
  /-- the `EVENT` frames that are worked on -/
  events : s.held ≤ verifyPermits cfg.cpus

theorem Inv.connections (h : Inv cfg s) : s.connectionCount = s.sockets.entries.length := by
  rw [h.count, Table.total, List.map_const', List.sum_replicate, Table.values, List.length_map]
  exact Nat.mul_one _

theorem Inv.current (h : Inv cfg s) {t : ReqTask} (ht : t ∈ s.tasks) (hrun : t.aborted = false) :
    t.conn ∈ s.sockets ∧ t.id ∈ (s.conn t.conn).subs.map Sub.id := by
  obtain ⟨i, hi⟩ := List.getElem?_of_mem ht
  obtain ⟨sock, hsock, hhandle⟩ := h.running i t hi hrun
  refine ⟨AList.lookup_isSome.1 (by rw [hsock]; rfl), (h.handles t.conn sock hsock t.id).1 ?_⟩
  exact AList.lookup_isSome.1 (by rw [hhandle]; rfl)

/-- Two tasks that are not aborted are for different subscriptions. -/
theorem Inv.nodup_running (h : Inv cfg s) :
    ((s.tasks.filter fun t => !t.aborted).map fun t => (t.conn, t.id)).Nodup := by
  refine List.pairwise_map.2 (List.pairwise_filter.2 (List.pairwise_iff_getElem.2 ?_))
  intro i k hi hk hlt hri hrk heq
  obtain ⟨hconn, hid⟩ := Prod.mk.inj heq
  obtain ⟨sock, hsock, hhandle⟩ := h.running i _ (List.getElem?_eq_getElem hi) (by simpa using hri)
  obtain ⟨sock', hsock', hhandle'⟩ := h.running k _ (List.getElem?_eq_getElem hk) (by simpa using hrk)
  rw [← hconn, hsock] at hsock'
  cases hsock'
  rw [← hid, hhandle] at hhandle'
  exact absurd (Option.some.inj hhandle') (Nat.ne_of_lt hlt)

theorem Inv.tasks (h : Inv cfg s) :
    (s.tasks.countP fun t => !t.aborted) ≤ s.connectionCount * cfg.maxSubscriptions := by
  -- the pairs of a connection and one of its subscriptions
  let pairs := s.sockets.keys.toFinset.biUnion fun c => (((s.conn c).subs.map Sub.id).map (Prod.mk c)).toFinset
  have hpairs : ((s.tasks.filter fun t => !t.aborted).map fun t => (t.conn, t.id)).toFinset ⊆ pairs := by
    intro p hp
    obtain ⟨t, ht, rfl⟩ := List.mem_map.1 (List.mem_toFinset.1 hp)
    obtain ⟨ht, hrun⟩ := List.mem_filter.1 ht
    obtain ⟨hconn, hid⟩ := h.current ht (by simpa using hrun)
    refine Finset.mem_biUnion.2 ⟨t.conn, List.mem_toFinset.2 (AList.mem_keys.1 hconn), ?_⟩
    exact List.mem_toFinset.2 (List.mem_map_of_mem hid)
  have hcard : pairs.card ≤ s.sockets.keys.toFinset.card * cfg.maxSubscriptions := by
    refine Finset.card_biUnion_le_card_mul _ _ _ fun c _ => ?_
    refine (List.toFinset_card_le _).trans ?_
    rw [List.length_map, List.length_map]
    exact h.tight.limit c
  have hkeys : s.sockets.keys.toFinset.card ≤ s.connectionCount := by
    refine (List.toFinset_card_le _).trans_eq ?_
    rw [h.connections]
    exact List.length_map _
  calc (s.tasks.countP fun t => !t.aborted)
      = ((s.tasks.filter fun t => !t.aborted).map fun t => (t.conn, t.id)).toFinset.card := by
        rw [List.toFinset_card_of_nodup h.nodup_running, List.length_map, List.countP_eq_length_filter]
    _ ≤ pairs.card := Finset.card_le_card hpairs
    _ ≤ s.sockets.keys.toFinset.card * cfg.maxSubscriptions := hcard
    _ ≤ s.connectionCount * cfg.maxSubscriptions := Nat.mul_le_mul_right _ hkeys

end

/-- In every state that the tasks of the relay reach from its start, whatever the clients
send and however the tasks take turns. -/
theorem run_bounded (x : Serde) (cfg : Config) (store : Store) (turns : List Turn) (s : Server)
    (hs : Machine.run (Server.step x cfg) (.start store) turns = some s) : Bounded cfg s := by
  have h := run_inv hs
  refine ⟨h.connections, ?_, ?_, h.filters, ?_, fun t ht hrun => h.current ht hrun, h.tasks, h.permits⟩
  · intro c hc
    obtain ⟨sock, hsock, -⟩ := (h.conns c).1 hc
    exact AList.lookup_isSome.1 (by rw [hsock]; rfl)
  · exact fun c => ⟨h.tight.limit c, h.routed.subIds c⟩
  · exact fun c => (h.queue c).1.trans (h.queue c).2

/-- A client asks for notes, twice under the same id. -/
def noteReq : Str := "[\"REQ\",\"a\",\x7b\"kinds\":[1]\x7d]".toList

def reqTwice : List Turn :=
  [.connect 0, .receive 1 (.text noteReq), .receive 1 (.text noteReq), .request 1, .request 1, .request 1,
    .request 1, .drain 1]

def oneSub : Config := ⟨1, 500, 0, 4⟩

theorem run_bounded_reqTwice :
    ∃ s, Machine.run (Server.step NostrMessage.jsonSerde oneSub) (.start (.new ⟨none, none, none⟩)) reqTwice =
        some s ∧
      (s.tasks.length == 2 && (s.conn 1).subs.length == 1 && (s.wire 1).length == 1) = true ∧
      Bounded oneSub s := by
  obtain ⟨s, hs, hp⟩ := Machine.exists_run (Server.step NostrMessage.jsonSerde oneSub)
      (.start (.new ⟨none, none, none⟩))
    reqTwice (fun s => s.tasks.length == 2 && (s.conn 1).subs.length == 1 && (s.wire 1).length == 1)
        (by decide +kernel)
  exact ⟨s, hs, hp, run_bounded _ oneSub _ reqTwice s hs⟩

end Session
end Memlay
