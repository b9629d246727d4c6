import Memlay.FanoutRouting

/-!
# What the kind index holds

The index is kept up to date by taking a connection out from under its cached key and
filing it under the new one.  `Routed` says that key and entries agree; `Tight` adds
what is about sizes: no entry of `by_kind` is left empty, and no connection has more
subscriptions than the relay allows.  Both are kept by every call the relay makes
(`relayCall`: a `REQ` over the limit is refused before it reaches the registry).
-/

namespace Memlay

namespace ConnState

/-- A subscription that is there is replaced, another one is added. -/
theorem length_putSub (id : Str) (filters : List Filter) (subs : List Sub) :
    (putSub id filters subs).length = if id ∈ subs.map Sub.id then subs.length else subs.length + 1 := by
  induction subs with
  | nil => rfl
  | cons sub subs ih =>
    unfold putSub
    by_cases hid : sub.id = id
    · rw [if_pos hid, if_pos (by simp [hid])]
      rfl
    · have hmem : id ∈ (sub :: subs).map Sub.id ↔ id ∈ subs.map Sub.id := by
        rw [List.map_cons, List.mem_cons, or_iff_right (Ne.symm hid)]
      rw [if_neg hid, List.length_cons, ih, List.length_cons]
      by_cases hin : id ∈ subs.map Sub.id
      · rw [if_pos hin, if_pos (hmem.2 hin)]
      · rw [if_neg hin, if_neg fun h => hin (hmem.1 h)]

end ConnState

namespace Fanout

/-! ## The calls of the relay -/

theorem hasSub_iff (s : Fanout) (c : ConnId) (id : Str) :
    s.hasSub c id = true ↔ id ∈ (s.state c).subs.map Sub.id := by
  unfold hasSub
  rw [List.any_eq_true, List.mem_map]
  simp only [beq_iff_eq]

/-- A `REQ` in `handle_socket`: a new subscription at the limit is refused. -/
def requestSub (max : Nat) (s : Fanout) (c : ConnId) (id : Str) (filters : List Filter) : Fanout :=
  if !s.hasSub c id && decide (max ≤ s.subCount c) then s else s.setSub c id filters

/-- The calls as the relay makes them, with `max` subscriptions per connection. -/
def relayCall (max : Nat) (s : Fanout) : Call → Option Fanout
  | .setSub c id filters => if c ∈ s.conns then some (s.requestSub max c id filters) else none
  | a => s.call a

/-! ## Sizes -/

structure Tight (max : Nat) (s : Fanout) : Prop where
  nonempty : ∀ k, s.byKind k ≠ some ∅
  limit : ∀ c, s.subCount c ≤ max

theorem tight_new (max : Nat) : Tight max new := ⟨by simp [new], fun _ => Nat.zero_le _⟩

section
variable {s t : Fanout} {max : Nat}

theorem nonempty_index (h : ∀ k, s.byKind k ≠ some ∅) (c : ConnId) (key : KindKey) (k : Nat) :
    (s.index c key).byKind k ≠ some ∅ := by
  cases key with
  | none => exact h k
  | any => exact h k
  | some kinds =>
    show (if k ∈ kinds then some (insert c ((s.byKind k).getD ∅)) else s.byKind k) ≠ some ∅
    split
    · exact fun heq => Finset.insert_ne_empty c _ (Option.some.inj heq)
    · exact h k

/-- The set a connection leaves is dropped if it was the last one in it. -/
theorem nonempty_deindex (h : ∀ k, s.byKind k ≠ some ∅) (c : ConnId) (key : KindKey) (k : Nat) :
    (s.deindex c key).byKind k ≠ some ∅ := by
  cases key with
  | none => exact h k
  | any => exact h k
  | some kinds =>
    show (if k ∈ kinds then (s.byKind k).bind fun set => if set.erase c = ∅ then none else some (set.erase c)
      else s.byKind k) ≠ some ∅
    split
    · cases s.byKind k with
      | none => exact Option.some_ne_none _ ∘ Eq.symm
      | some set =>
        rw [Option.bind_some]
        split
        · exact Option.some_ne_none _ ∘ Eq.symm
        · rename_i hne
          exact fun heq => hne (Option.some.inj heq)
    · exact h k

/-- Only the entries and the subscriptions matter. -/
theorem Tight.congr (h : Tight max s) (hby : t.byKind = s.byKind)
    (hsubs : ∀ c, (t.state c).subs = (s.state c).subs) :
    Tight max t := by
  refine ⟨fun k => ?_, fun c => ?_⟩
  · rw [hby]
    exact h.nonempty k
  · unfold subCount
    rw [hsubs]
    exact h.limit c

theorem Tight.rekey (h : Tight max s) (c : ConnId) (newKey : KindKey) : Tight max (s.rekey c newKey) := by
  refine ⟨nonempty_index (nonempty_deindex h.nonempty c _) c newKey, fun x => ?_⟩
  unfold subCount
  rw [subs_rekey]
  exact h.limit x

theorem Tight.reindex (h : Tight max s) (c : ConnId) : Tight max (s.reindex c) := by
  rw [reindex_eq]
  split
  · exact h
  · exact h.rekey c _

theorem Tight.write (h : Tight max s) {c : ConnId} {subs : List Sub} (hlen : subs.length ≤ max) :
    Tight max (s.modify c fun conn => { conn with subs := subs }) := by
  refine ⟨h.nonempty, fun x => ?_⟩
  unfold subCount
  rw [state_modify]
  split
  · exact hlen
  · exact h.limit x

theorem Tight.register (h : Tight max s) (now capacity : Nat) : Tight max (s.register now capacity).2 := by
  refine ⟨h.nonempty, fun x => ?_⟩
  unfold subCount
  rw [state_register]
  split
  · exact Nat.zero_le _
  · exact h.limit x

theorem Tight.unregister (h : Tight max s) (c : ConnId) : Tight max (s.unregister c) := by
  have hgone : Tight max { s with conns := s.conns.erase c } := h.congr rfl fun _ => rfl
  exact hgone.rekey c .none

theorem Tight.requestSub (h : Tight max s) (c : ConnId) (id : Str) (filters : List Filter) :
    Tight max (s.requestSub max c id filters) := by
  unfold Fanout.requestSub
  split
  · exact h
  · rename_i hroom
    refine (h.write ?_).reindex c
    rw [ConnState.length_putSub]
    split
    · exact h.limit c
    · rename_i hnew
      -- a new id passed the check, so there is room for one more
      have hfalse : s.hasSub c id = false := Bool.eq_false_iff.2 fun htrue => hnew ((hasSub_iff s c id).1 htrue)
      rw [hfalse] at hroom
      have hlt : ¬ max ≤ s.subCount c := by simpa using hroom
      exact Nat.not_le.1 hlt

theorem Tight.removeSub (h : Tight max s) (c : ConnId) (id : Str) : Tight max (s.removeSub c id).2 := by
  rw [removeSub_eq]
  split
  · exact (h.write ((List.length_filter_le _ _).trans (h.limit c))).reindex c
  · exact h

theorem Tight.deliver_all (h : Tight max s) (clock : ConnId → Str → Nat) (ev : BroadcastEvent) (ts : List ConnId) :
    Tight max (ts.foldl (fun s c => s.modify c (ConnState.deliver (clock c) ev)) s) := by
  induction ts generalizing s with
  | nil => exact h
  | cons c ts ih =>
    have hsubs := (ConnState.deliver_frame (clock c) ev (s.state c)).1
    exact ih (h.congr rfl fun x => state_modify_congr s c x _ hsubs)

/-! ## Every call keeps both -/

/-- The relay's check either refuses a call or lets it through as it is. -/
theorem relayCall_cases {a : Call} (hs : s.relayCall max a = some t) : s.call a = some t ∨ t = s := by
  cases a with
  | setSub c id filters =>
    simp only [Fanout.relayCall, Fanout.requestSub] at hs
    simp only [Fanout.call]
    split at hs
    · rename_i hc
      rw [if_pos hc]
      split at hs
      · exact Or.inr (Option.some.inj hs).symm
      · exact Or.inl hs
    · cases hs
  | register now capacity => exact Or.inl hs
  | removeSub c id => exact Or.inl hs
  | unregister c => exact Or.inl hs
  | publish visit clock ev => exact Or.inl hs
  | send c m => exact Or.inl hs
  | recv c => exact Or.inl hs

theorem Routed.relayCall {a : Call} (h : Routed (fun _ => False) s) (hs : s.relayCall max a = some t) :
    Routed (fun _ => False) t := by
  rcases relayCall_cases hs with hcall | rfl
  · exact h.call hcall
  · exact h

theorem Tight.relayCall {a : Call} (h : Tight max s) (hs : s.relayCall max a = some t) : Tight max t := by
  cases a with
  | register now capacity =>
    cases hs
    exact h.register now capacity
  | setSub c id filters =>
    simp only [Fanout.relayCall] at hs
    split at hs
    · cases hs
      exact h.requestSub c id filters
    · cases hs
  | removeSub c id =>
    simp only [Fanout.relayCall, Fanout.call] at hs
    split at hs
    · cases hs
      exact h.removeSub c id
    · cases hs
  | unregister c =>
    simp only [Fanout.relayCall, Fanout.call] at hs
    split at hs
    · cases hs
      exact h.unregister c
    · cases hs
  | publish visit clock ev =>
    cases hs
    exact h.deliver_all clock ev _
  | send c m =>
    cases hs
    exact h.congr rfl fun x => state_modify_congr s c x _ (trySend_frame (s.state c) (.message m)).1
  | recv c =>
    cases hs
    exact h.congr rfl fun x => state_modify_congr s c x _ rfl

theorem mem_kindSet_iff {c : ConnId} {k : Nat} : c ∈ s.kindSet k ↔ ∃ set, s.byKind k = some set ∧ c ∈ set := by
  unfold kindSet
  cases s.byKind k with
  | none => simp
  | some set => simp

end

/-- The run lemma. -/
theorem run_routed_tight {max : Nat} {cs : List Call} {s t : Fanout} (hr : Routed (fun _ => False) s)
    (ht : Tight max s)
    (hs : Machine.run (relayCall max) s cs = some t) : Routed (fun _ => False) t ∧ Tight max t := by
  refine Machine.run_invariant (C := fun _ _ => True) (I := fun u => Routed (fun _ => False) u ∧ Tight max u)
    ?_ cs s t hs (Machine.along_of_forall cs s fun _ _ _ => trivial) ⟨hr, ht⟩
  rintro u a u' hu - ⟨hur, hut⟩
  exact ⟨hur.relayCall hu, hut.relayCall hu⟩

/-- After any calls of the relay, the index holds each connection exactly where its key
says, in sets that are not empty; what is not registered is nowhere, and each
connection's subscriptions have distinct ids and are within the limit. -/
theorem index_represents (max : Nat) (cs : List Call) (s : Fanout)
    (hs : Machine.run (relayCall max) new cs = some s) :
    (∀ c, c ∈ s.anyKind ↔ (s.state c).kindKey = .any) ∧
    (∀ c k, (∃ set, s.byKind k = some set ∧ c ∈ set) ↔ ∃ ks, (s.state c).kindKey = .some ks ∧ k ∈ ks) ∧
    (∀ c ∈ s.anyKind, ∀ k set, s.byKind k = some set → c ∉ set) ∧
    (∀ k set, s.byKind k = some set → set.Nonempty) ∧
    (∀ c, c ∉ s.conns → c ∉ s.anyKind ∧ ∀ k set, s.byKind k = some set → c ∉ set) ∧
    ∀ c, ((s.state c).subs.map Sub.id).Nodup ∧ (s.state c).subs.length ≤ max := by
  obtain ⟨hr, ht⟩ := run_routed_tight (routed_new _) (tight_new max) hs
  have hfiled : ∀ c k set, s.byKind k = some set → c ∈ set → KindKey.Has (s.state c).kindKey k :=
    fun c k set hset hin => (hr.indexed.byKind c k).1 (mem_kindSet_iff.2 ⟨set, hset, hin⟩)
  refine ⟨hr.indexed.any, ?_, ?_, ?_, ?_, fun c => ⟨hr.subIds c, ht.limit c⟩⟩
  · intro c k
    rw [← mem_kindSet_iff]
    exact hr.indexed.byKind c k
  · intro c hc k set hset hin
    -- one key cannot be both
    obtain ⟨ks, hks, -⟩ := hfiled c k set hset hin
    rw [(hr.indexed.any c).1 hc] at hks
    cases hks
  · intro k set hset
    refine Finset.nonempty_iff_ne_empty.2 fun hempty => ht.nonempty k ?_
    rw [hset, hempty]
  · intro c hc
    have hnone := hr.gone c hc
    refine ⟨fun hin => ?_, fun k set hset hin => ?_⟩
    · rw [(hr.indexed.any c).1 hin] at hnone
      cases hnone
    · obtain ⟨ks, hks, -⟩ := hfiled c k set hset hin
      rw [hks] at hnone
      cases hnone

/-- One subscription is allowed: the second is refused, the first replaced, removed and put back. -/
def oneSub : List Call :=
  [.register 0 8, .setSub 1 ['a'] [notesFilter], .setSub 1 ['b'] [notesFilter], .setSub 1 ['a'] [],
    .removeSub 1 ['a'], .register 0 8, .setSub 2 ['c'] [notesFilter], .unregister 1]

theorem index_represents_oneSub : ∃ s, Machine.run (relayCall 1) new oneSub = some s ∧
    (∀ c, c ∈ s.anyKind ↔ (s.state c).kindKey = .any) ∧
    (∀ c k, (∃ set, s.byKind k = some set ∧ c ∈ set) ↔ ∃ ks, (s.state c).kindKey = .some ks ∧ k ∈ ks) ∧
    (∀ c ∈ s.anyKind, ∀ k set, s.byKind k = some set → c ∉ set) ∧
    (∀ k set, s.byKind k = some set → set.Nonempty) ∧
    (∀ c, c ∉ s.conns → c ∉ s.anyKind ∧ ∀ k set, s.byKind k = some set → c ∉ set) ∧
    ∀ c, ((s.state c).subs.map Sub.id).Nodup ∧ (s.state c).subs.length ≤ 1 := by
  obtain ⟨s, hs, -⟩ := Machine.exists_run (relayCall 1) new oneSub
    (fun s => decide (s.conns = {2} ∧ s.byKind 1 = some {2} ∧ (s.state 1).subs.length = 0)) (by decide)
  exact ⟨s, hs, index_represents 1 oneSub s hs⟩

end Fanout
end Memlay
