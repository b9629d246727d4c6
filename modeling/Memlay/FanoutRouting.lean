import Mathlib.Data.Finset.Sort
import Memlay.Fanout
import Memlay.Lib.Machine

/-!
# Routing by kind is broadcast to all

The kind index is kept up to date from a key per connection that is recomputed when
its subscriptions change.  `Routed` is the invariant: the index files a connection
under its key and nowhere else, and the key is the one of the current subscriptions.
It follows that a connection with a matching subscription is among the targets of a
publish (`Routed.mem_targets_of_matches`), once (`Routed.nodup_targets`), so that what
a publish enqueues is what a broadcast to every connection enqueues (`run_publish`).

`busy` are the connections between the two halves of a call that changes their
subscriptions; there are none where calls come one after the other.
-/

namespace Memlay

/-! ## Keys -/

theorem kindsOf_spec {fs : List Filter} {acc ks : Finset Nat} (h : kindsOf fs acc = some ks) :
    acc ⊆ ks ∧ ∀ f ∈ fs, ∃ l, f.kinds = some l ∧ ∀ k ∈ l, k ∈ ks := by
  induction fs generalizing acc with
  | nil =>
    cases h
    exact ⟨Finset.Subset.refl _, by simp⟩
  | cons f fs ih =>
    unfold kindsOf at h
    split at h
    · rename_i k l hf
      obtain ⟨hacc, hfs⟩ := ih h
      refine ⟨Finset.union_subset_left hacc, ?_⟩
      intro g hg
      rcases List.mem_cons.1 hg with rfl | hg
      · refine ⟨_, hf, fun x hx => hacc (Finset.mem_union_right _ (List.mem_toFinset.2 hx))⟩
      · exact hfs g hg
    · cases h

/-- The key is wide enough for every event that a subscription matches. -/
theorem kindKeyOf_covers {subs : List Sub} {sub : Sub} (hsub : sub ∈ subs) {e : Event}
    (hm : sub.matches e = true) :
    kindKeyOf subs = .any ∨ ∃ ks, kindKeyOf subs = .some ks ∧ e.kind ∈ ks := by
  obtain ⟨f, hf, hfe⟩ := List.any_eq_true.1 hm
  have hne : ¬ subs.isEmpty = true := by
    intro hnil
    rw [List.isEmpty_iff.1 hnil] at hsub
    cases hsub
  unfold kindKeyOf
  rw [if_neg hne]
  cases hks : kindsOf (subs.flatMap Sub.filters) ∅ with
  | none => exact Or.inl rfl
  | some ks =>
    refine Or.inr ⟨ks, rfl, ?_⟩
    obtain ⟨l, hl, hin⟩ := (kindsOf_spec hks).2 f (List.mem_flatMap.2 ⟨sub, hsub, hf⟩)
    apply hin
    -- the filter constrains kinds, and the event passes it
    simp only [Filter.matchesEvent, Bool.and_eq_true] at hfe
    have hkind := hfe.1.1.1.2
    rw [hl] at hkind
    exact of_decide_eq_true hkind

/-! ## Subscriptions of a connection -/

namespace ConnState

theorem mem_ids_putSub {id x : Str} {filters : List Filter} {subs : List Sub} :
    x ∈ (putSub id filters subs).map Sub.id ↔ x = id ∨ x ∈ subs.map Sub.id := by
  induction subs with
  | nil => simp [putSub]
  | cons sub subs ih =>
    unfold putSub
    split
    · rename_i hid
      simp only [List.map_cons, List.mem_cons, hid]
      tauto
    · rw [List.map_cons, List.mem_cons, ih, List.map_cons, List.mem_cons]
      tauto

theorem mem_putSub_self (id : Str) (filters : List Filter) (subs : List Sub) :
    ⟨id, filters⟩ ∈ putSub id filters subs := by
  induction subs with
  | nil => exact List.mem_singleton.2 rfl
  | cons sub subs ih =>
    unfold putSub
    split
    · rename_i hid
      rw [hid]
      exact List.mem_cons_self
    · exact List.mem_cons_of_mem sub ih

theorem mem_putSub_of_ne {id : Str} (filters : List Filter) {subs : List Sub} {sub : Sub} (h : sub ∈ subs)
    (hne : sub.id ≠ id) : sub ∈ putSub id filters subs := by
  induction subs with
  | nil => cases h
  | cons sub' subs ih =>
    unfold putSub
    rcases List.mem_cons.1 h with rfl | h
    · rw [if_neg hne]
      exact List.mem_cons_self
    · split
      · exact List.mem_cons_of_mem _ h
      · exact List.mem_cons_of_mem _ (ih h)

theorem nodup_putSub (id : Str) (filters : List Filter) {subs : List Sub} (h : (subs.map Sub.id).Nodup) :
    ((putSub id filters subs).map Sub.id).Nodup := by
  induction subs with
  | nil => exact List.nodup_singleton id
  | cons sub subs ih =>
    obtain ⟨hsub, hsubs⟩ := List.nodup_cons.1 h
    unfold putSub
    split
    · exact h
    · rename_i hid
      refine List.nodup_cons.2 ⟨?_, ih hsubs⟩
      rw [mem_ids_putSub]
      rintro (heq | hin)
      · exact hid heq
      · exact hsub hin

theorem nodup_dropSub (id : Str) {subs : List Sub} (h : (subs.map Sub.id).Nodup) :
    ((dropSub id subs).map Sub.id).Nodup :=
  h.sublist ((List.filter_sublist).map Sub.id)

end ConnState

namespace Fanout

/-! ## The index and the keys -/

/-- The connections filed under a kind. -/
def kindSet (s : Fanout) (kind : Nat) : Finset ConnId := (s.byKind kind).getD ∅

/-- The key says that a kind is wanted. -/
def KindKey.Has (key : KindKey) (kind : Nat) : Prop := ∃ ks, key = .some ks ∧ kind ∈ ks

section
variable (s : Fanout) (c x : ConnId) (key : KindKey) (f : ConnState → ConnState)

@[simp] theorem conns_modify : (s.modify c f).conns = s.conns := rfl
@[simp] theorem anyKind_modify : (s.modify c f).anyKind = s.anyKind := rfl
@[simp] theorem kindSet_modify (k : Nat) : (s.modify c f).kindSet k = s.kindSet k := rfl
@[simp] theorem nextId_modify : (s.modify c f).nextId = s.nextId := rfl

@[simp] theorem state_modify : (s.modify c f).state x = if x = c then f (s.state c) else s.state x := by
  show Function.update s.state c (f (s.state c)) x = _
  rw [Function.update_apply]

/-- What the change leaves of one connection's state is left of every one's. -/
theorem state_modify_congr {α : Type} {g : ConnState → α} (h : g (f (s.state c)) = g (s.state c)) :
    g ((s.modify c f).state x) = g (s.state x) := by
  rw [state_modify]
  split
  · rename_i hx
    rw [h, hx]
  · rfl

@[simp] theorem conns_index : (s.index c key).conns = s.conns := by cases key <;> rfl
@[simp] theorem state_index : (s.index c key).state = s.state := by cases key <;> rfl
@[simp] theorem nextId_index : (s.index c key).nextId = s.nextId := by cases key <;> rfl
@[simp] theorem conns_deindex : (s.deindex c key).conns = s.conns := by cases key <;> rfl
@[simp] theorem state_deindex : (s.deindex c key).state = s.state := by cases key <;> rfl
@[simp] theorem nextId_deindex : (s.deindex c key).nextId = s.nextId := by cases key <;> rfl

theorem mem_anyKind_index : x ∈ (s.index c key).anyKind ↔ (x = c ∧ key = .any) ∨ x ∈ s.anyKind := by
  cases key <;> simp [index]

theorem mem_anyKind_deindex : x ∈ (s.deindex c key).anyKind ↔ x ∈ s.anyKind ∧ ¬ (x = c ∧ key = .any) := by
  cases key <;> simp [deindex, and_comm]

theorem mem_kindSet_index (k : Nat) :
    x ∈ (s.index c key).kindSet k ↔ (x = c ∧ KindKey.Has key k) ∨ x ∈ s.kindSet k := by
  cases key with
  | none => simp [index, KindKey.Has]
  | any => simp [index, KindKey.Has, kindSet]
  | some ks =>
    by_cases hk : k ∈ ks
    · simp [index, KindKey.Has, kindSet, hk]
    · simp [index, KindKey.Has, kindSet, hk]

theorem mem_kindSet_deindex (k : Nat) :
    x ∈ (s.deindex c key).kindSet k ↔ x ∈ s.kindSet k ∧ ¬ (x = c ∧ KindKey.Has key k) := by
  cases key with
  | none => simp [deindex, KindKey.Has]
  | any => simp [deindex, KindKey.Has, kindSet]
  | some ks =>
    by_cases hk : k ∈ ks
    · cases hset : s.byKind k with
      | none => simp [deindex, kindSet, hk, hset]
      | some set =>
        -- a dropped set is an empty one
        have hget : (s.deindex c (.some ks)).kindSet k = set.erase c := by
          unfold kindSet deindex
          simp only [if_pos hk, hset, Option.bind_some]
          split
          · rename_i hempty
            rw [hempty]
            rfl
          · rfl
        rw [hget, kindSet, hset, Option.getD_some, Finset.mem_erase]
        simp [KindKey.Has, hk, and_comm]
    · simp [deindex, KindKey.Has, kindSet, hk]

end

/-- The index files each connection under its key. -/
structure Indexed (s : Fanout) : Prop where
  any : ∀ c, c ∈ s.anyKind ↔ (s.state c).kindKey = .any
  byKind : ∀ c k, c ∈ s.kindSet k ↔ KindKey.Has (s.state c).kindKey k

/-- Move a connection to another key. -/
def rekey (s : Fanout) (c : ConnId) (newKey : KindKey) : Fanout :=
  ((s.deindex c (s.state c).kindKey).index c newKey).modify c fun conn => { conn with kindKey := newKey }

section
variable {s : Fanout}

/-- A move from the old key to the new one. -/
theorem Indexed.rekey (h : Indexed s) (c : ConnId) (newKey : KindKey) : Indexed (s.rekey c newKey) := by
  unfold Fanout.rekey
  constructor
  · intro x
    rw [anyKind_modify, mem_anyKind_index, mem_anyKind_deindex, h.any, state_modify, state_index, state_deindex]
    by_cases hx : x = c
    · rw [if_pos hx, hx]
      tauto
    · rw [if_neg hx]
      tauto
  · intro x k
    rw [kindSet_modify, mem_kindSet_index, mem_kindSet_deindex, h.byKind, state_modify, state_index, state_deindex]
    by_cases hx : x = c
    · rw [if_pos hx, hx]
      tauto
    · rw [if_neg hx]
      tauto

/-- Only keys, sets and their kinds matter. -/
theorem Indexed.congr {t : Fanout} (h : Indexed s) (hany : t.anyKind = s.anyKind) (hby : t.byKind = s.byKind)
    (hkey : ∀ c, (t.state c).kindKey = (s.state c).kindKey) : Indexed t := by
  constructor
  · intro c
    rw [hany, hkey]
    exact h.any c
  · intro c k
    unfold kindSet
    rw [hby, hkey]
    exact h.byKind c k

theorem reindex_eq (s : Fanout) (c : ConnId) : s.reindex c =
    if (s.state c).kindKey = kindKeyOf (s.state c).subs then s else s.rekey c (kindKeyOf (s.state c).subs) := rfl

theorem unregister_eq (s : Fanout) (c : ConnId) :
    s.unregister c = { s with conns := s.conns.erase c }.rekey c .none := rfl

theorem state_rekey (s : Fanout) (c x : ConnId) (newKey : KindKey) :
    (s.rekey c newKey).state x = if x = c then { s.state c with kindKey := newKey } else s.state x := by
  unfold rekey
  rw [state_modify, state_index, state_deindex]

theorem state_reindex (s : Fanout) (c x : ConnId) : (s.reindex c).state x =
    if x = c then { s.state c with kindKey := kindKeyOf (s.state c).subs } else s.state x := by
  rw [reindex_eq]
  split
  · rename_i hkey
    split
    · rename_i hx
      rw [← hkey, hx]
    · rfl
  · exact state_rekey s c x _

theorem state_unregister (s : Fanout) (c x : ConnId) :
    (s.unregister c).state x = if x = c then { s.state c with kindKey := .none } else s.state x :=
  state_rekey { s with conns := s.conns.erase c } c x .none

theorem conns_rekey (s : Fanout) (c : ConnId) (newKey : KindKey) : (s.rekey c newKey).conns = s.conns := by
  unfold rekey
  rw [conns_modify, conns_index, conns_deindex]

theorem nextId_rekey (s : Fanout) (c : ConnId) (newKey : KindKey) : (s.rekey c newKey).nextId = s.nextId := by
  unfold rekey
  rw [nextId_modify, nextId_index, nextId_deindex]

theorem conns_unregister (s : Fanout) (c : ConnId) : (s.unregister c).conns = s.conns.erase c :=
  conns_rekey { s with conns := s.conns.erase c } c .none

theorem nextId_unregister (s : Fanout) (c : ConnId) : (s.unregister c).nextId = s.nextId :=
  nextId_rekey { s with conns := s.conns.erase c } c .none

/-- A connection keeps its subscriptions when it is filed under another key. -/
theorem subs_rekey (s : Fanout) (c x : ConnId) (newKey : KindKey) :
    ((s.rekey c newKey).state x).subs = (s.state x).subs := by
  rw [state_rekey]
  split
  · rename_i hx
    rw [hx]
  · rfl

theorem state_register (s : Fanout) (now capacity : Nat) (x : ConnId) :
    (s.register now capacity).2.state x = if x = s.nextId + 1 then .new now capacity else s.state x := by
  show Function.update s.state (s.nextId + 1) _ x = _
  rw [Function.update_apply]

end

/-! ## The invariant -/

/-- Every connection is filed under its key, but for those whose task is at work. -/
structure Routed (busy : ConnId → Prop) (s : Fanout) : Prop where
  indexed : Indexed s
  key : ∀ c ∈ s.conns, ¬ busy c → (s.state c).kindKey = kindKeyOf (s.state c).subs
  gone : ∀ c, c ∉ s.conns → (s.state c).kindKey = .none
  bound : ∀ c ∈ s.conns, c ≤ s.nextId
  subIds : ∀ c, ((s.state c).subs.map Sub.id).Nodup

theorem routed_new (busy : ConnId → Prop) : Routed busy new where
  indexed := ⟨by simp [new, ConnState.new], by simp [new, kindSet, ConnState.new, KindKey.Has]⟩
  key := by simp [new]
  gone := by simp [new, ConnState.new]
  bound := by simp [new]
  subIds := by simp [new, ConnState.new]

section
variable {busy : ConnId → Prop} {s : Fanout} {c : ConnId}

theorem Routed.register (h : Routed busy s) (now capacity : Nat) : Routed busy (s.register now capacity).2 := by
  have hfresh : s.nextId + 1 ∉ s.conns := fun hin => Nat.not_succ_le_self _ (h.bound _ hin)
  have hstate := state_register s now capacity
  have hkey : ∀ x, ((s.register now capacity).2.state x).kindKey = (s.state x).kindKey := by
    intro x
    rw [hstate]
    split
    · rename_i hx
      rw [hx, h.gone _ hfresh]
      rfl
    · rfl
  refine ⟨h.indexed.congr rfl rfl hkey, ?_, ?_, ?_, ?_⟩
  · intro x hx hb
    rw [hstate]
    split
    · rfl
    · rename_i hne
      exact h.key x ((Finset.mem_insert.1 hx).resolve_left hne) hb
  · intro x hx
    rw [hkey]
    exact h.gone x fun hin => hx (Finset.mem_insert_of_mem hin)
  · intro x hx
    show x ≤ s.nextId + 1
    rcases Finset.mem_insert.1 hx with rfl | hx
    · exact Nat.le_refl _
    · exact (h.bound x hx).trans (Nat.le_succ _)
  · intro x
    rw [hstate]
    split
    · exact List.nodup_nil
    · exact h.subIds x

/-- An unregistered connection is filed nowhere. -/
theorem Routed.unregister (h : Routed busy s) (c : ConnId) : Routed busy (s.unregister c) := by
  have hidx : Indexed { s with conns := s.conns.erase c } := h.indexed.congr rfl rfl fun _ => rfl
  refine ⟨hidx.rekey c .none, ?_, ?_, ?_, ?_⟩
  · intro x hx hb
    rw [conns_unregister] at hx
    obtain ⟨hne, hin⟩ := Finset.mem_erase.1 hx
    rw [state_unregister, if_neg hne]
    exact h.key x hin hb
  · intro x hx
    rw [conns_unregister] at hx
    rw [state_unregister]
    split
    · rfl
    · rename_i hne
      exact h.gone x fun hin => hx (Finset.mem_erase.2 ⟨hne, hin⟩)
  · intro x hx
    rw [conns_unregister] at hx
    rw [nextId_unregister]
    exact h.bound x (Finset.mem_erase.1 hx).2
  · intro x
    rw [unregister_eq, subs_rekey]
    exact h.subIds x

/-- The first half of a call: the subscriptions change, the key is not yet recomputed. -/
theorem Routed.write (h : Routed busy s) {subs : List Sub} (hids : (subs.map Sub.id).Nodup) :
    Routed (fun x => x = c ∨ busy x) (s.modify c fun conn => { conn with subs := subs }) := by
  have hkey : ∀ x, ((s.modify c fun conn => { conn with subs := subs }).state x).kindKey = (s.state x).kindKey :=
    fun x => state_modify_congr s c x _ (g := ConnState.kindKey) rfl
  refine ⟨h.indexed.congr rfl rfl hkey, ?_, ?_, h.bound, ?_⟩
  · intro x hx hb
    rw [state_modify, if_neg fun hxc => hb (Or.inl hxc)]
    exact h.key x hx fun hbx => hb (Or.inr hbx)
  · intro x hx
    rw [hkey]
    exact h.gone x hx
  · intro x
    rw [state_modify]
    split
    · exact hids
    · exact h.subIds x

/-- The second half: the connection is filed under the key of its subscriptions. -/
theorem Routed.reindex (h : Routed (fun x => x = c ∨ busy x) s) (hc : c ∈ s.conns) :
    Routed busy (s.reindex c) := by
  rw [reindex_eq]
  split
  · rename_i heq
    refine ⟨h.indexed, ?_, h.gone, h.bound, h.subIds⟩
    intro x hx hb
    by_cases hxc : x = c
    · rw [hxc]
      exact heq
    · exact h.key x hx fun hor => hor.elim hxc hb
  · refine ⟨h.indexed.rekey c _, ?_, ?_, ?_, ?_⟩
    · intro x hx hb
      rw [conns_rekey] at hx
      rw [subs_rekey, state_rekey]
      split
      · rename_i hxc
        rw [hxc]
      · rename_i hne
        exact h.key x hx fun hor => hor.elim hne hb
    · intro x hx
      rw [conns_rekey] at hx
      have hne : x ≠ c := fun hxc => hx (hxc ▸ hc)
      rw [state_rekey, if_neg hne]
      exact h.gone x hx
    · intro x hx
      rw [conns_rekey] at hx
      rw [nextId_rekey]
      exact h.bound x hx
    · intro x
      rw [subs_rekey]
      exact h.subIds x

theorem Routed.setSub (h : Routed busy s) (hc : c ∈ s.conns) (id : Str) (filters : List Filter) :
    Routed busy (s.setSub c id filters) :=
  (h.write (ConnState.nodup_putSub id filters (h.subIds c))).reindex hc

/-- Nothing to remove, nothing changed. -/
theorem dropSub_of_eraseSub_false {id : Str} (h : (s.eraseSub c id).1 = false) :
    ConnState.dropSub id (s.state c).subs = (s.state c).subs := by
  refine List.filter_eq_self.2 (List.length_filter_eq_length_iff.1 ?_)
  by_contra hne
  have htrue : (s.eraseSub c id).1 = true := decide_eq_true hne
  rw [htrue] at h
  cases h

theorem eraseSub_false {id : Str} (h : (s.eraseSub c id).1 = false) : (s.eraseSub c id).2 = s := by
  show { s with
    state := Function.update s.state c { s.state c with subs := ConnState.dropSub id (s.state c).subs } } = s
  rw [dropSub_of_eraseSub_false h, Function.update_eq_self]

theorem removeSub_eq (s : Fanout) (c : ConnId) (id : Str) :
    s.removeSub c id = if (s.eraseSub c id).1 then (true, (s.eraseSub c id).2.reindex c) else (false, s) := by
  unfold removeSub
  split
  · rename_i t heq
    rw [heq]
    rfl
  · rename_i t heq
    have hfalse : (s.eraseSub c id).2 = s := eraseSub_false (by rw [heq])
    rw [heq] at hfalse ⊢
    rw [if_neg Bool.false_ne_true, ← hfalse]

theorem Routed.removeSub (h : Routed busy s) (hc : c ∈ s.conns) (id : Str) : Routed busy (s.removeSub c id).2 := by
  rw [removeSub_eq]
  split
  · exact (h.write (ConnState.nodup_dropSub id (h.subIds c))).reindex hc
  · exact h

/-- What leaves keys and subscriptions alone keeps the invariant. -/
theorem Routed.modify (h : Routed busy s) {f : ConnState → ConnState}
    (hkey : (f (s.state c)).kindKey = (s.state c).kindKey)
    (hsubs : (f (s.state c)).subs = (s.state c).subs) : Routed busy (s.modify c f) := by
  have hkeys : ∀ x, ((s.modify c f).state x).kindKey = (s.state x).kindKey :=
    fun x => state_modify_congr s c x f hkey
  have hsubss : ∀ x, ((s.modify c f).state x).subs = (s.state x).subs :=
    fun x => state_modify_congr s c x f hsubs
  refine ⟨h.indexed.congr rfl rfl hkeys, ?_, ?_, h.bound, ?_⟩
  · intro x hx hb
    rw [hkeys, hsubss]
    exact h.key x hx hb
  · intro x hx
    rw [hkeys]
    exact h.gone x hx
  · intro x
    rw [hsubss]
    exact h.subIds x

/-! ## Targets -/

/-- The connections that `publish` visits. -/
theorem mem_targets {visit : ConnVisit} {kind : Nat} :
    c ∈ s.targets visit kind ↔ (c ∈ s.anyKind ∨ c ∈ s.kindSet kind) ∧ c ∈ s.conns := by
  have hvisit : ∀ set : Finset ConnId, c ∈ visit.1 set ↔ c ∈ set := by
    intro set
    rw [← List.mem_toFinset, (visit.2 set).2]
  unfold targets
  split
  · rename_i hempty
    unfold kindSet
    rw [hempty.1, hempty.2]
    simp
  · rw [List.mem_filter, List.mem_append, hvisit, hvisit, decide_eq_true_eq]
    rfl

/-- A connection has one key, so it is visited at most once. -/
theorem Routed.nodup_targets (h : Routed busy s) (visit : ConnVisit) (kind : Nat) :
    (s.targets visit kind).Nodup := by
  unfold targets
  split
  · exact List.nodup_nil
  · refine List.Nodup.filter _ (List.nodup_append.2 ⟨(visit.2 _).1, (visit.2 _).1, ?_⟩)
    intro x hx y hy hxy
    rw [← List.mem_toFinset, (visit.2 _).2] at hx hy
    obtain ⟨ks, hks, -⟩ := (h.indexed.byKind y kind).1 hy
    rw [← hxy, (h.indexed.any x).1 hx] at hks
    cases hks

/-- A connection whose key covers a matching subscription is a target. -/
theorem Indexed.mem_targets (h : Indexed s) (hc : c ∈ s.conns) {subs : List Sub}
    (hkey : (s.state c).kindKey = kindKeyOf subs) {sub : Sub} (hsub : sub ∈ subs) {e : Event}
    (hm : sub.matches e = true)
    (visit : ConnVisit) : c ∈ s.targets visit e.kind := by
  refine Fanout.mem_targets.2 ⟨?_, hc⟩
  rw [h.any, h.byKind, hkey]
  exact kindKeyOf_covers hsub hm

theorem Routed.mem_targets_of_matches (h : Routed busy s) (hc : c ∈ s.conns) (hb : ¬ busy c) {sub : Sub}
    (hsub : sub ∈ (s.state c).subs) {e : Event} (hm : sub.matches e = true) (visit : ConnVisit) :
    c ∈ s.targets visit e.kind :=
  h.indexed.mem_targets hc (h.key c hc hb) hsub hm visit

end

/-! ## Delivery -/

end Fanout

namespace ConnState

theorem deliverSub_frame (now : Nat) (ev : BroadcastEvent) (c : ConnState) (sub : Sub) :
    (c.deliverSub now ev sub).subs = c.subs ∧ (c.deliverSub now ev sub).kindKey = c.kindKey ∧
      (c.deliverSub now ev sub).capacity = c.capacity ∧ (c.deliverSub now ev sub).closed = c.closed := by
  unfold deliverSub trySend recordDrop
  split
  · split
    · rename_i c' hsend
      split at hsend
      · cases hsend
        exact ⟨rfl, rfl, rfl, rfl⟩
      · cases hsend
    · simp only
      split
      · exact ⟨rfl, rfl, rfl, rfl⟩
      · exact ⟨rfl, rfl, rfl, rfl⟩
  · exact ⟨rfl, rfl, rfl, rfl⟩

theorem deliver_frame (clock : Str → Nat) (ev : BroadcastEvent) (c : ConnState) :
    (c.deliver clock ev).subs = c.subs ∧ (c.deliver clock ev).kindKey = c.kindKey := by
  unfold deliver
  have hgen : ∀ (l : List Sub) (c : ConnState),
      (l.foldl (fun c sub => c.deliverSub (clock sub.id) ev sub) c).subs = c.subs ∧
        (l.foldl (fun c sub => c.deliverSub (clock sub.id) ev sub) c).kindKey = c.kindKey := by
    intro l
    induction l with
    | nil => exact fun c => ⟨rfl, rfl⟩
    | cons sub l ih =>
      intro c
      obtain ⟨hs, hk, -, -⟩ := deliverSub_frame (clock sub.id) ev c sub
      rw [List.foldl_cons, (ih _).1, (ih _).2, hs, hk]
      exact ⟨rfl, rfl⟩
  exact hgen c.subs c

/-- The queue takes `n` more frames. -/
def Takes (c : ConnState) (n : Nat) : Prop := c.closed = false ∧ c.queue.length + n ≤ c.capacity

/-- With room for all of them, one frame per matching subscription. -/
theorem queue_deliver (clock : Str → Nat) (ev : BroadcastEvent) {c : ConnState}
    (h : c.Takes (c.subs.filter fun sub => sub.matches ev.event).length) :
    (c.deliver clock ev).queue =
      c.queue ++ (c.subs.filter fun sub => sub.matches ev.event).map fun sub => .event sub.id ev.json := by
  unfold deliver
  have hgen : ∀ (l : List Sub) (c : ConnState), c.Takes (l.filter fun sub => sub.matches ev.event).length →
      (l.foldl (fun c sub => c.deliverSub (clock sub.id) ev sub) c).queue =
        c.queue ++ (l.filter fun sub => sub.matches ev.event).map fun sub => Frame.event sub.id ev.json := by
    intro l
    induction l with
    | nil =>
      intro c _
      simp
    | cons sub l ih =>
      intro c hc
      rw [List.foldl_cons]
      by_cases hm : sub.matches ev.event = true
      · rw [List.filter_cons, if_pos hm] at hc ⊢
        obtain ⟨hopen, hroom⟩ := hc
        rw [List.length_cons] at hroom
        have hstep : c.deliverSub (clock sub.id) ev sub =
            { c with queue := c.queue ++ [.event sub.id ev.json], sent := c.sent + 1 } := by
          unfold deliverSub trySend
          rw [if_pos hm, if_pos ⟨hopen, by omega⟩]
        have hmore := ih { c with queue := c.queue ++ [.event sub.id ev.json], sent := c.sent + 1 }
          ⟨hopen, by
            show (c.queue ++ [_]).length + _ ≤ c.capacity
            rw [List.length_append, List.length_singleton]
            omega⟩
        rw [hstep, hmore, List.append_assoc]
        rfl
      · rw [List.filter_cons, if_neg hm] at hc ⊢
        have hstep : c.deliverSub (clock sub.id) ev sub = c := by
          unfold deliverSub
          rw [if_neg hm]
        rw [hstep, ih c hc]
  exact hgen c.subs c h

end ConnState

namespace Fanout

section
variable {busy : ConnId → Prop} {s : Fanout} {c : ConnId}

/-- Each target gets the event, and nobody else. -/
theorem state_deliver_all (clock : ConnId → Str → Nat) (ev : BroadcastEvent) {ts : List ConnId} (hts : ts.Nodup)
    (s : Fanout) (c : ConnId) :
    (ts.foldl (fun s c => s.modify c (ConnState.deliver (clock c) ev)) s).state c =
      if c ∈ ts then (s.state c).deliver (clock c) ev else s.state c := by
  induction ts generalizing s with
  | nil => rfl
  | cons t ts ih =>
    obtain ⟨ht, hts⟩ := List.nodup_cons.1 hts
    rw [List.foldl_cons, ih hts, state_modify]
    by_cases hct : c = t
    · rw [if_neg (by rwa [hct]), if_pos hct, if_pos (List.mem_cons.2 (Or.inl hct)), hct]
    · rw [if_neg hct]
      simp only [List.mem_cons, hct, false_or]

theorem Routed.deliver_all (h : Routed busy s) (clock : ConnId → Str → Nat) (ev : BroadcastEvent)
    (ts : List ConnId) :
    Routed busy (ts.foldl (fun s c => s.modify c (ConnState.deliver (clock c) ev)) s) := by
  induction ts generalizing s with
  | nil => exact h
  | cons t ts ih =>
    obtain ⟨hs, hk⟩ := ConnState.deliver_frame (clock t) ev (s.state t)
    exact ih (h.modify hk hs)

/-- What a publish enqueues, where the queues have room. -/
theorem Routed.queue_publish (h : Routed (fun _ => False) s) (visit : ConnVisit) (clock : ConnId → Str → Nat)
    (ev : BroadcastEvent)
    (hroom : ∀ c ∈ s.conns, (s.state c).Takes ((s.state c).subs.filter fun sub => sub.matches ev.event).length)
    (c : ConnId) :
    ((s.publish visit clock ev).state c).queue = (s.state c).queue ++
      if c ∈ s.conns then
        ((s.state c).subs.filter fun sub => sub.matches ev.event).map fun sub => .event sub.id ev.json
      else [] := by
  unfold publish
  rw [state_deliver_all clock ev (h.nodup_targets visit ev.event.kind)]
  by_cases hc : c ∈ s.conns
  · rw [if_pos hc]
    split
    · exact ConnState.queue_deliver (clock c) ev (hroom c hc)
    · rename_i hnot
      -- not a target: no subscription matches
      have hnone : (s.state c).subs.filter (fun sub => sub.matches ev.event) = [] := by
        refine List.filter_eq_nil_iff.2 fun sub hsub hm => hnot ?_
        exact h.mem_targets_of_matches hc not_false hsub hm visit
      rw [hnone]
      simp
  · rw [if_neg hc, if_neg fun hin => hc (mem_targets.1 hin).2, List.append_nil]

end

/-! ## Calls one after the other -/

/-- A call, or what happens to a queue between calls.  A connection is used only
between its register and its unregister. -/
inductive Call where
  | register (now capacity : Nat)
  | setSub (c : ConnId) (id : Str) (filters : List Filter)
  | removeSub (c : ConnId) (id : Str)
  | unregister (c : ConnId)
  | publish (visit : ConnVisit) (clock : ConnId → Str → Nat) (ev : BroadcastEvent)
  /-- the connection's own task places a message -/
  | send (c : ConnId) (m : NostrMessage)
  /-- the sender task takes a frame out -/
  | recv (c : ConnId)

def call (s : Fanout) : Call → Option Fanout
  | .register now capacity => some (s.register now capacity).2
  | .setSub c id filters => if c ∈ s.conns then some (s.setSub c id filters) else none
  | .removeSub c id => if c ∈ s.conns then some (s.removeSub c id).2 else none
  | .unregister c => if c ∈ s.conns then some (s.unregister c) else none
  | .publish visit clock ev => some (s.publish visit clock ev)
  | .send c m => some (s.modify c fun conn => (conn.trySend (.message m)).getD conn)
  | .recv c => some (s.modify c fun conn => { conn with queue := conn.queue.tail })

theorem trySend_frame (conn : ConnState) (frame : Frame) :
    ((conn.trySend frame).getD conn).subs = conn.subs ∧
    ((conn.trySend frame).getD conn).kindKey = conn.kindKey := by
  unfold ConnState.trySend
  split
  · exact ⟨rfl, rfl⟩
  · exact ⟨rfl, rfl⟩

/-- The step lemma: one case for each call. -/
theorem Routed.call {s s' : Fanout} {a : Call} (h : Routed (fun _ => False) s) (hs : s.call a = some s') :
    Routed (fun _ => False) s' := by
  cases a with
  | register now capacity =>
    cases hs
    exact h.register now capacity
  | setSub c id filters =>
    simp only [Fanout.call] at hs
    split at hs
    · rename_i hc
      cases hs
      exact h.setSub hc id filters
    · cases hs
  | removeSub c id =>
    simp only [Fanout.call] at hs
    split at hs
    · rename_i hc
      cases hs
      exact h.removeSub hc id
    · cases hs
  | unregister c =>
    simp only [Fanout.call] at hs
    split at hs
    · cases hs
      exact h.unregister c
    · cases hs
  | publish visit clock ev =>
    cases hs
    exact h.deliver_all clock ev _
  | send c m =>
    cases hs
    obtain ⟨hsubs, hkey⟩ := trySend_frame (s.state c) (.message m)
    exact h.modify hkey hsubs
  | recv c =>
    cases hs
    exact h.modify rfl rfl

/-! ## Broadcast to all -/

/-- What the calls mean: which connections are registered, and the filters of each of
their subscriptions. -/
structure Naive where
  conns : Finset ConnId
  subs : ConnId → Str → Option (List Filter)
  nextId : Nat

namespace Naive

def new : Naive := ⟨∅, fun _ _ => none, 0⟩

def call (n : Naive) : Call → Naive
  | .register _ _ =>
    ⟨insert (n.nextId + 1) n.conns, Function.update n.subs (n.nextId + 1) fun _ => none, n.nextId + 1⟩
  | .setSub c id filters =>
    { n with subs := Function.update n.subs c (Function.update (n.subs c) id (some filters)) }
  | .removeSub c id => { n with subs := Function.update n.subs c (Function.update (n.subs c) id none) }
  | .unregister c => { n with conns := n.conns.erase c }
  | _ => n

/-- A broadcast sends the event to every registered connection, once for every
subscription that has a matching filter. -/
def Sends (n : Naive) (ev : BroadcastEvent) (c : ConnId) (frame : Frame) : Prop :=
  c ∈ n.conns ∧ ∃ id filters, n.subs c id = some filters ∧
    (filters.any fun f => f.matchesEvent ev.event) = true ∧ frame = .event id ev.json

end Naive

/-- The filters of a subscription. -/
def filtersOf (subs : List Sub) (id : Str) : Option (List Filter) :=
  (subs.find? fun sub => sub.id = id).map Sub.filters

/-- The registry holds what the calls mean. -/
structure Holds (s : Fanout) (n : Naive) : Prop where
  conns : s.conns = n.conns
  nextId : s.nextId = n.nextId
  subs : ∀ c, filtersOf (s.state c).subs = n.subs c

theorem filtersOf_putSub (id : Str) (filters : List Filter) (subs : List Sub) :
    filtersOf (ConnState.putSub id filters subs) = Function.update (filtersOf subs) id (some filters) := by
  funext x
  rw [Function.update_apply]
  induction subs with
  | nil =>
    by_cases hx : id = x
    · simp [ConnState.putSub, filtersOf, hx]
    · simp [ConnState.putSub, filtersOf, hx, Ne.symm hx]
  | cons sub subs ih =>
    unfold filtersOf at ih ⊢
    unfold ConnState.putSub
    by_cases hid : sub.id = id
    · rw [if_pos hid]
      by_cases hx : x = id
      · simp [hid, hx]
      · simp [hid, hx, Ne.symm hx]
    · rw [if_neg hid]
      by_cases hx : sub.id = x
      · have hxid : x ≠ id := fun heq => hid (hx.trans heq)
        simp [hx, hxid]
      · simp only [List.find?_cons, hx, decide_false]
        exact ih

theorem filtersOf_dropSub (id : Str) (subs : List Sub) :
    filtersOf (ConnState.dropSub id subs) = Function.update (filtersOf subs) id none := by
  funext x
  rw [Function.update_apply]
  unfold filtersOf ConnState.dropSub
  rw [List.find?_filter]
  split
  · rename_i hx
    rw [Option.map_eq_none_iff, List.find?_eq_none]
    intro sub _
    simp [hx]
  · rename_i hx
    congr 2
    funext sub
    by_cases hs : sub.id = x
    · simp [hs, hx]
    · simp [hs]

theorem subs_reindex (s : Fanout) (c x : ConnId) : ((s.reindex c).state x).subs = (s.state x).subs := by
  rw [reindex_eq]
  split
  · rfl
  · exact subs_rekey s c x _

theorem conns_reindex (s : Fanout) (c : ConnId) : (s.reindex c).conns = s.conns := by
  rw [reindex_eq]
  split
  · rfl
  · exact conns_rekey s c _

theorem nextId_reindex (s : Fanout) (c : ConnId) : (s.reindex c).nextId = s.nextId := by
  rw [reindex_eq]
  split
  · rfl
  · exact nextId_rekey s c _

section
variable {s s' : Fanout} {n : Naive}

/-- A call that gives one connection other subscriptions. -/
theorem Holds.write (h : Holds s n) {c : ConnId} {subs : List Sub} {m : Str → Option (List Filter)}
    (hsubs : filtersOf subs = m) :
    Holds ((s.modify c fun conn => { conn with subs := subs }).reindex c)
        { n with subs := Function.update n.subs c m } := by
  refine ⟨?_, ?_, fun x => ?_⟩
  · rw [conns_reindex]
    exact h.conns
  · rw [nextId_reindex]
    exact h.nextId
  · show _ = Function.update n.subs c m x
    rw [subs_reindex, state_modify, Function.update_apply]
    split
    · exact hsubs
    · exact h.subs x

/-- What leaves subscriptions alone. -/
theorem Holds.modify (h : Holds s n) {c : ConnId} {f : ConnState → ConnState}
    (hf : (f (s.state c)).subs = (s.state c).subs) : Holds (s.modify c f) n := by
  refine ⟨h.conns, h.nextId, fun x => ?_⟩
  rw [state_modify_congr s c x f hf]
  exact h.subs x

theorem Holds.deliver_all (h : Holds s n) (clock : ConnId → Str → Nat) (ev : BroadcastEvent) (ts : List ConnId) :
    Holds (ts.foldl (fun s c => s.modify c (ConnState.deliver (clock c) ev)) s) n := by
  induction ts generalizing s with
  | nil => exact h
  | cons t ts ih => exact ih (h.modify (ConnState.deliver_frame (clock t) ev (s.state t)).1)

/-- The step lemma of the refinement. -/
theorem Holds.call {a : Call} (h : Holds s n) (hs : s.call a = some s') : Holds s' (n.call a) := by
  cases a with
  | register now capacity =>
    cases hs
    refine ⟨?_, congrArg (· + 1) h.nextId, fun x => ?_⟩
    · show insert (s.nextId + 1) s.conns = insert (n.nextId + 1) n.conns
      rw [h.nextId, h.conns]
    · show filtersOf (Function.update s.state (s.nextId + 1) (.new now capacity) x).subs =
        Function.update n.subs (n.nextId + 1) (fun _ => none) x
      rw [h.nextId, Function.update_apply, Function.update_apply]
      split
      · rfl
      · exact h.subs x
  | setSub c id filters =>
    simp only [Fanout.call] at hs
    split at hs
    · cases hs
      refine h.write ?_
      rw [filtersOf_putSub, h.subs]
    · cases hs
  | removeSub c id =>
    simp only [Fanout.call] at hs
    split at hs
    · cases hs
      have hdrop := filtersOf_dropSub id (s.state c).subs
      rw [h.subs] at hdrop
      rw [removeSub_eq]
      split
      · exact h.write hdrop
      · rename_i hfalse
        -- nothing to remove: the map had no such id
        rw [dropSub_of_eraseSub_false (eq_false_of_ne_true hfalse)] at hdrop
        refine ⟨h.conns, h.nextId, fun x => ?_⟩
        show _ = Function.update n.subs c _ x
        rw [Function.update_apply]
        split
        · rename_i hx
          rw [hx]
          exact hdrop
        · exact h.subs x
    · cases hs
  | unregister c =>
    simp only [Fanout.call] at hs
    split at hs
    · cases hs
      refine ⟨?_, ?_, fun x => ?_⟩
      · show (s.unregister c).conns = n.conns.erase c
        rw [conns_unregister, h.conns]
      · rw [nextId_unregister]
        exact h.nextId
      · rw [unregister_eq, subs_rekey]
        exact h.subs x
    · cases hs
  | publish visit clock ev =>
    cases hs
    exact h.deliver_all clock ev _
  | send c m =>
    cases hs
    exact h.modify (trySend_frame (s.state c) (.message m)).1
  | recv c =>
    cases hs
    exact h.modify rfl

end

/-- The run lemma. -/
theorem run_routed_holds {cs : List Call} {s t : Fanout} {n : Naive} (hr : Routed (fun _ => False) s)
    (hn : Holds s n)
    (hs : Machine.run call s cs = some t) : Routed (fun _ => False) t ∧ Holds t (cs.foldl Naive.call n) := by
  induction cs generalizing s n with
  | nil =>
    cases hs
    exact ⟨hr, hn⟩
  | cons a cs ih =>
    obtain ⟨s', hstep, hs⟩ := (Machine.run_cons_eq_some call).1 hs
    exact ih (hr.call hstep) (hn.call hstep) hs

theorem holds_new : Holds new .new := ⟨rfl, rfl, fun _ => rfl⟩

/-- With unique ids, looking a subscription up is finding it. -/
theorem filtersOf_eq_some_iff {subs : List Sub} (h : (subs.map Sub.id).Nodup) {id : Str} {filters : List Filter} :
    filtersOf subs id = some filters ↔ ⟨id, filters⟩ ∈ subs := by
  unfold filtersOf
  rw [Option.map_eq_some_iff]
  constructor
  · rintro ⟨sub, hfind, rfl⟩
    have hid : sub.id = id := by simpa using List.find?_some hfind
    rw [← hid]
    exact List.mem_of_find?_eq_some hfind
  · intro hmem
    cases hfind : subs.find? (fun sub => sub.id = id) with
    | none => exact absurd (decide_eq_true rfl) (List.find?_eq_none.1 hfind _ hmem)
    | some sub =>
      have hid : sub.id = id := by simpa using List.find?_some hfind
      have heq : sub = ⟨id, filters⟩ := List.inj_on_of_nodup_map h (List.mem_of_find?_eq_some hfind) hmem hid
      exact ⟨sub, rfl, by rw [heq]⟩

/-- After any calls, in queues that have room, a publish enqueues for each connection
what the broadcast sends to it, each frame once, and nothing else. -/
theorem run_publish (cs : List Call) (s : Fanout) (hs : Machine.run call new cs = some s) (visit : ConnVisit)
    (clock : ConnId → Str → Nat) (ev : BroadcastEvent)
    (hroom : ∀ c ∈ s.conns, (s.state c).Takes ((s.state c).subs.filter fun sub => sub.matches ev.event).length)
    (c : ConnId) :
    ∃ added, ((s.publish visit clock ev).state c).queue = (s.state c).queue ++ added ∧ added.Nodup ∧
      ∀ frame, frame ∈ added ↔ (cs.foldl Naive.call .new).Sends ev c frame := by
  obtain ⟨hr, hn⟩ := run_routed_holds (routed_new _) holds_new hs
  refine ⟨_, hr.queue_publish visit clock ev hroom c, ?_, fun frame => ?_⟩
  · split
    · -- the ids are unique, so are the frames
      have hids : (((s.state c).subs.filter fun sub => sub.matches ev.event).map Sub.id).Nodup :=
        (hr.subIds c).sublist ((List.filter_sublist).map Sub.id)
      have hmap := hids.map (f := fun id => Frame.event id ev.json) fun _ _ hab => (Frame.event.inj hab).1
      rwa [List.map_map] at hmap
    · exact List.nodup_nil
  · unfold Naive.Sends
    rw [← hn.conns, ← hn.subs]
    by_cases hc : c ∈ s.conns
    · rw [if_pos hc, List.mem_map]
      constructor
      · rintro ⟨sub, hsub, rfl⟩
        obtain ⟨hmem, hm⟩ := List.mem_filter.1 hsub
        exact ⟨hc, sub.id, sub.filters, (filtersOf_eq_some_iff (hr.subIds c)).2 hmem, hm, rfl⟩
      · rintro ⟨-, id, filters, hf, hm, rfl⟩
        exact ⟨⟨id, filters⟩, List.mem_filter.2 ⟨(filtersOf_eq_some_iff (hr.subIds c)).1 hf, hm⟩, rfl⟩
    · rw [if_neg hc]
      constructor
      · intro hin
        cases hin
      · rintro ⟨hin, -⟩
        exact absurd hin hc

/-- Ids ascending. -/
def visitAscending : ConnVisit := ⟨fun s => s.sort, fun s => ⟨s.sort_nodup _, s.sort_toFinset _⟩⟩

/-- All notes. -/
def notesFilter : Filter := ⟨none, some [1], none, ∅, none, none, none, none, none⟩

/-- A connection opens a subscription to notes. -/
def noteSub : List Call := [.register 0 8, .setSub 1 ['a'] [notesFilter]]

theorem run_publish_noteSub : ∃ s, Machine.run call new noteSub = some s ∧
    ∃ added, ((s.publish visitAscending (fun _ _ => 0) (.new (note 0))).state 1).queue =
    (s.state 1).queue ++ added ∧
      added.Nodup ∧ ∀ frame, frame ∈ added ↔ (noteSub.foldl Naive.call .new).Sends (.new (note 0)) 1 frame := by
  refine ⟨_, rfl, run_publish noteSub _ rfl visitAscending (fun _ _ => 0) (.new (note 0)) ?_ 1⟩
  intro c hc
  have h1 : c = 1 := by simpa [setSub, writeSub, conns_reindex, register, new] using hc
  rw [h1]
  exact ⟨rfl, by decide⟩

end Fanout
end Memlay
