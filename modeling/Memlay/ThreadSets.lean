import Memlay.IndexSets
import Memlay.Threads

/-!
# The sets and `by_id` under concurrent calls

`insert` stores the event in `by_id`, fills the sets and looks once more whether
the id is still there; `internal_remove` takes the id out of `by_id` and clears
the sets afterwards.  What a call still has to do to the sets of an id is its
role.  In every state a live id is in all its sets or some insert is still going
to add it, and an entry of an id that is not live has a call that is still going
to clear it or to look (`SetInv`).

Two steps break this.  A set removal can come so late that its id is live again
and has been added again; and an insert that lost its early check can take an id
out of `by_id` whose entries another insert has added.

    run along KeepsSets, then Quiescent  →  an id is live exactly when it is in its
                                            sets                    (quiescent_sets)
-/

namespace Memlay
namespace Threads

open Pool Index

/-! ## What a call still does to the sets -/

inductive Role where
  | idle
  /-- stored, the early check is still to come or has failed -/
  | unsure (e : Event)
  /-- these sets are still to be filled, then the final check -/
  | adding (e : Event) (bs : List Bucket)
  /-- these sets are still to be cleared -/
  | cleaning (e : Event) (bs : List Bucket)

def Pc.role : Pc → Role
  | .early e _ | .earlyDrop e => .unsure e
  | .addMemory e _ | .addCount e _ => .adding e e.buckets
  | .addSets e _ bs => .adding e bs
  | .finalId e _ => .adding e []
  | .rmMemory _ x | .rmCount _ x | .rmSlot _ x => .cleaning x x.buckets
  | .rmSets _ x bs => .cleaning x bs
  | .cleanMemory e | .cleanCount e => .cleaning e e.buckets
  | .cleanSets e _ bs => .cleaning e bs
  | _ => .idle

namespace Role

def isUnsure (id : Bytes32) : Role → Bool
  | .unsure e => decide (e.id = id)
  | _ => false

def adds (id : Bytes32) (b : Bucket) : Role → Bool
  | .adding e bs => decide (e.id = id) && decide (b ∈ bs)
  | _ => false

/-- An insert of the id whose final check is still to come. -/
def checks (id : Bytes32) : Role → Bool
  | .adding e _ => decide (e.id = id)
  | _ => false

def cleans (id : Bytes32) (b : Bucket) : Role → Bool
  | .cleaning e bs => decide (e.id = id) && decide (b ∈ bs)
  | _ => false

end Role

/-- Some call has such a role. -/
def anyRole (P : Config) (r : Role → Bool) : Bool := P.threads.any fun pc => r pc.role

/-- The set has an entry of the id. -/
def holds (s : Shared) (id : Bytes32) (b : Bucket) : Bool := (s.idx.sets b).any fun y => decide (y.id = id)

/-- A removal from the set hits no live id, unless a running insert of the id will
add it to the set or has not passed its early check. -/
def removalOk (P : Config) (id : Bytes32) (b : Bucket) : Bool :=
  (P.shared.live id).isNone || anyRole P (Role.isUnsure id) || anyRole P (Role.adds id b)

/-- Taking the id out of `by_id` leaves no entry that no running call will clear or
check. -/
def takeBackOk (P : Config) (e : Event) : Bool :=
  e.buckets.all fun b =>
    !holds P.shared e.id b || anyRole P (Role.cleans e.id b) || anyRole P (Role.checks e.id)

/-- The two steps that can part the sets from `by_id` do not. -/
def KeepsSets (P : Config) : Act Call → Bool
  | .call _ => true
  | .step i =>
    match P.threads[i]? with
    | some (.rmSets _ x (b :: _)) => removalOk P x.id b
    | some (.cleanSets x _ (b :: _)) => removalOk P x.id b
    | some (.earlyDrop e) => takeBackOk P e
    | _ => true

theorem anyRole_iff {P : Config} {r : Role → Bool} :
    anyRole P r = true ↔ ∃ pc ∈ P.threads, r pc.role = true := by
  unfold anyRole
  rw [List.any_eq_true]

theorem holds_iff {s : Shared} {id : Bytes32} {b : Bucket} :
    holds s id b = true ↔ ∃ y ∈ s.idx.sets b, y.id = id := by
  unfold holds
  simp only [List.any_eq_true, decide_eq_true_eq]

theorem holds_congr {s s' : Shared} (h : s'.idx.sets = s.idx.sets) (id : Bytes32) (b : Bucket) :
    holds s' id b = holds s id b := by
  unfold holds
  rw [h]

theorem holds_setAdd_self (s : Shared) (e : Event) (b : Bucket) :
    holds { s with idx := s.idx.setAdd e b } e.id b = true := by
  refine holds_iff.2 ?_
  show ∃ y ∈ Function.update s.idx.sets b (setInsert e (s.idx.sets b)) b, y.id = e.id
  rw [Function.update_self]
  exact exists_mem_setInsert e _

theorem holds_setAdd_of_holds {s : Shared} {id : Bytes32} {b : Bucket} (e : Event) (b' : Bucket)
    (h : holds s id b = true) : holds { s with idx := s.idx.setAdd e b' } id b = true := by
  obtain ⟨y, hy, hid⟩ := holds_iff.1 h
  refine holds_iff.2 ⟨y, ?_, hid⟩
  show y ∈ Function.update s.idx.sets b' (setInsert e (s.idx.sets b')) b
  by_cases hb : b = b'
  · subst hb
    rw [Function.update_self]
    exact mem_setInsert_of_mem e hy
  · rwa [Function.update_of_ne hb]

/-- An entry after an insert was there before or is the new one. -/
theorem holds_of_setAdd {s : Shared} {e : Event} {id : Bytes32} {b b' : Bucket}
    (h : holds { s with idx := s.idx.setAdd e b' } id b = true) : holds s id b = true ∨ id = e.id := by
  obtain ⟨y, hy, hid⟩ := holds_iff.1 h
  by_cases hb : b = b'
  · subst hb
    have hy' : y ∈ setInsert e (s.idx.sets b) := by
      simpa only [Index.setAdd, Function.update_self] using hy
    rcases mem_of_mem_setInsert hy' with rfl | hy'
    · exact Or.inr hid.symm
    · exact Or.inl (holds_iff.2 ⟨y, hy', hid⟩)
  · have hy' : y ∈ s.idx.sets b := by
      simpa only [Index.setAdd, Function.update_of_ne hb] using hy
    exact Or.inl (holds_iff.2 ⟨y, hy', hid⟩)

theorem holds_setDrop_of_ne {s : Shared} {x : Event} {id : Bytes32} {b b' : Bucket}
    (h : holds s id b = true) (hne : id ≠ x.id ∨ b ≠ b') :
    holds { s with idx := s.idx.setDrop x b' } id b = true := by
  obtain ⟨y, hy, hid⟩ := holds_iff.1 h
  refine holds_iff.2 ⟨y, ?_, hid⟩
  show y ∈ Function.update s.idx.sets b' (setRemove x (s.idx.sets b')) b
  by_cases hb : b = b'
  · subst hb
    rw [Function.update_self]
    refine mem_setRemove_of_ne hy ?_
    rw [hid]
    exact hne.resolve_right fun hn => hn rfl
  · rwa [Function.update_of_ne hb]

theorem holds_of_setDrop {s : Shared} {x : Event} {id : Bytes32} {b b' : Bucket}
    (h : holds { s with idx := s.idx.setDrop x b' } id b = true) : holds s id b = true := by
  obtain ⟨y, hy, hid⟩ := holds_iff.1 h
  refine holds_iff.2 ⟨y, ?_, hid⟩
  by_cases hb : b = b'
  · subst hb
    have hy' : y ∈ setRemove x (s.idx.sets b) := by
      simpa only [Index.setDrop, Function.update_self] using hy
    exact mem_of_mem_setRemove hy'
  · simpa only [Index.setDrop, Function.update_of_ne hb] using hy

/-! ## Everything a step does to the sets and `by_id` -/

inductive Shift (s : Shared) (pc : Pc) : Role → Shared → Role → Prop
  | same (r : Role) (s' : Shared) (hid : s'.idx.byId = s.idx.byId) (hs : s'.idx.sets = s.idx.sets) :
      Shift s pc r s' r
  | putNew (e : Event) (r' : Role) (hl : s.live e.id = none)
      (hr : r' = .unsure e ∨ r' = .adding e e.buckets) :
      Shift s pc .idle { s with idx := s.idx.putId e } r'
  | putOver (e x : Event) (he : e ∈ pc.events) (hl : s.live e.id = some x) :
      Shift s pc .idle { s with idx := s.idx.putId e } .idle
  | confirm (e : Event) : Shift s pc (.unsure e) s (.adding e e.buckets)
  | takeBack (e : Event) (hpc : pc = .earlyDrop e) :
      Shift s pc (.unsure e) { s with idx := s.idx.dropId e.id } .idle
  | addSet (e : Event) (b : Bucket) (bs : List Bucket) :
      Shift s pc (.adding e (b :: bs)) { s with idx := s.idx.setAdd e b } (.adding e bs)
  | missing (e : Event) (hl : s.live e.id = none) : Shift s pc (.adding e []) s (.cleaning e e.buckets)
  | found (e x : Event) (hl : s.live e.id = some x) : Shift s pc (.adding e []) s .idle
  | drop (x : Event) : Shift s pc .idle { s with idx := s.idx.dropId x.id } (.cleaning x x.buckets)
  | cleanup (e : Event) (hl : s.live e.id = none) : Shift s pc .idle s (.cleaning e e.buckets)
  | dropSet (x : Event) (b : Bucket) (bs : List Bucket)
      (hpc : (∃ c, pc = .rmSets c x (b :: bs)) ∨ ∃ o, pc = .cleanSets x o (b :: bs)) :
      Shift s pc (.cleaning x (b :: bs)) { s with idx := s.idx.setDrop x b } (.cleaning x bs)
  | cleaned (x : Event) (s' : Shared) (hid : s'.idx.byId = s.idx.byId) (hs : s'.idx.sets = s.idx.sets) :
      Shift s pc (.cleaning x []) s' .idle

theorem role_return (s : Shared) (r : Option Event) (c : Caller) : (return' s r c).2.role = .idle := by
  cases c <;> rfl

theorem role_afterTombs (e : Event) : (afterTombs e).role = .idle := by
  unfold afterTombs
  split <;> rfl

/-- The final check reads `by_id` and decides by it. -/
theorem shift_finalId {i : Nat} {s s' : Shared} {e : Event} {r : Option Event} {pc' : Pc}
    (h : move i s (.finalId e r) = some (s', pc')) :
    Shift s (.finalId e r) (.adding e []) s' pc'.role := by
  unfold move at h
  simp only [Option.some.injEq, Prod.mk.injEq] at h
  obtain ⟨rfl, rfl⟩ := h
  cases hl : s.live e.id with
  | none => exact .missing e hl
  | some x =>
    by_cases hr : e.isReplaceable = true
    · simp only [Option.isSome_some, if_true, if_pos hr]
      exact .found e x hl
    · simp only [Option.isSome_some, if_true, if_neg hr]
      exact .found e x hl

theorem move_shift {E : Event → Prop} {i : Nat} {s s' : Shared} {pc pc' : Pc}
    (h : move i s pc = some (s', pc')) (hl : LiveIn E s) : Shift s pc pc.role s' pc'.role := by
  cases move_cases h with
  | noTombs e ht =>
    rw [role_afterTombs]
    exact .same _ _ rfl rfl
  | someTombs e ht => exact .same _ _ rfl rfl
  | tombed e ht => exact .same _ _ rfl rfl
  | untombed e ht =>
    rw [role_afterTombs]
    exact .same _ _ rfl rfl
  | occupied e oldId hg hs => exact .same _ _ rfl rfl
  | vacant e hg hs => exact .same _ _ rfl rfl
  | wins e oldId hw => exact .same _ _ rfl rfl
  | loses e oldId hw => exact .same _ _ rfl rfl
  | swaps e oldId => exact .same _ _ rfl rfl
  | rmMissing c id hm =>
    rw [role_return]
    exact .same _ _ (by rw [idx_return]) (by rw [idx_return])
  | rmFound c id x hx =>
    rw [← (hl id x hx).2]
    exact .drop x
  | rmMemory c x => exact .same _ _ (Index.byId_addMemory _ _) (Index.sets_addMemory _ _)
  | rmCountSlot c x hd => exact .same _ _ (Index.byId_addCount _ _) (Index.sets_addCount _ _)
  | rmCountSets c x hd => exact .same _ _ (Index.byId_addCount _ _) (Index.sets_addCount _ _)
  | rmSlot c x hg => exact .same _ _ rfl rfl
  | rmSet c x b bs => exact .dropSet x b bs (Or.inl ⟨c, rfl⟩)
  | rmReturn c x =>
    rw [role_return]
    exact .cleaned x _ (by rw [idx_return]) (by rw [idx_return])
  | putDuplicate e r x hx => exact .putOver e x (by simp [Pc.events]) hx
  | putReplaceable e r hx hr => exact .putNew e _ hx (Or.inl rfl)
  | putPlain e r hx hr => exact .putNew e _ hx (Or.inr rfl)
  | earlyWin e r hg hs => exact .confirm e
  | earlyLose e r hg hs => exact .same _ _ rfl rfl
  | earlyDrop e => exact .takeBack e rfl
  | addMemory e r => exact .same _ _ (Index.byId_addMemory _ _) (Index.sets_addMemory _ _)
  | addCount e r => exact .same _ _ (Index.byId_addCount _ _) (Index.sets_addCount _ _)
  | addSet e r b bs => exact .addSet e b bs
  | addedSets e r => exact .same _ _ rfl rfl
  | finalMissing e r hm => exact shift_finalId h
  | finalPlain e r hr => exact shift_finalId h
  | finalFound e r hr => exact shift_finalId h
  | finalWin e r hg hs => exact .same _ _ rfl rfl
  | finalLose e r hg hs => exact .same _ _ rfl rfl
  | cleanFound e x hx => exact .drop e
  | cleanMissing e hm => exact .cleanup e hm
  | cleanMemory e => exact .same _ _ (Index.byId_addMemory _ _) (Index.sets_addMemory _ _)
  | cleanCount e => exact .same _ _ (Index.byId_addCount _ _) (Index.sets_addCount _ _)
  | cleanSet e o b bs => exact .dropSet e b bs (Or.inr ⟨o, rfl⟩)
  | cleaned e o => exact .cleaned e _ rfl rfl
  | tomb _ _ t q hpc₁ hpc₂ =>
    rcases hpc₁ with ⟨id, r, rfl⟩ | ⟨id, r, rfl⟩ | ⟨r, rfl⟩ | ⟨r, rfl⟩ <;>
      rcases hpc₂ with ⟨id, r, rfl⟩ | ⟨r, rfl⟩ | ⟨r, rfl⟩ | ⟨r, rfl⟩ <;> exact .same _ _ rfl rfl

/-! ## The invariant -/

section
variable {E : Event → Prop} {P : Config} {i : Nat} {pc pc' : Pc} {s' : Shared}

/-- A role that the moving thread has not given up is still there. -/
theorem anyRole_keep {r : Role → Bool} (hp : P.threads[i]? = some pc) (h : anyRole P r = true)
    (himp : r pc.role = true → r pc'.role = true) : anyRole ⟨s', P.threads.set i pc'⟩ r = true := by
  rw [anyRole_iff] at h ⊢
  rcases Pool.exists_set pc' hp h with hr | hr
  · exact ⟨pc', Pool.mem_set_self pc' hp, himp hr⟩
  · exact hr

theorem anyRole_self {r : Role → Bool} (hp : P.threads[i]? = some pc) (h : r pc'.role = true) :
    anyRole ⟨s', P.threads.set i pc'⟩ r = true :=
  anyRole_iff.2 ⟨pc', Pool.mem_set_self pc' hp, h⟩

/-- What the sets hold. -/
structure SetsIn (E : Event → Prop) (P : Config) : Prop where
  inSets : InSets E P.shared.idx.sets
  sorted : SortedSets P.shared.idx.sets
  adding : ∀ pc ∈ P.threads, ∀ e bs, pc.role = .adding e bs → ∀ b ∈ bs, b ∈ e.buckets

/-- The id is in these sets, or an insert is at work on it. -/
def Tended (P : Config) (id : Bytes32) (bs : List Bucket) : Prop :=
  anyRole P (Role.isUnsure id) = true ∨
    ∀ b ∈ bs, holds P.shared id b = true ∨ anyRole P (Role.adds id b) = true

/-- A call will clear the entry, or look whether the id is live. -/
def Watched (P : Config) (id : Bytes32) (b : Bucket) : Prop :=
  anyRole P (Role.cleans id b) = true ∨ anyRole P (Role.checks id) = true

structure SetInv (P : Config) : Prop where
  complete : ∀ id x, P.shared.live id = some x → Tended P id x.buckets
  noOrphan : ∀ id b, P.shared.live id = none → holds P.shared id b = true → Watched P id b

/-- An entry stands in a set of its own. -/
theorem SetsIn.mem_buckets (h : SetsIn E P) (hA : Agree E) {x : Event} (hx : E x) {b : Bucket}
    (hh : holds P.shared x.id b = true) : b ∈ x.buckets := by
  obtain ⟨y, hy, hid⟩ := holds_iff.1 hh
  obtain ⟨hyE, hb⟩ := h.inSets b y hy
  rwa [buckets_eq hA hyE hx hid] at hb

/-- A removal leaves no entry of the id in the set. -/
theorem SetsIn.not_holds_setDrop (h : SetsIn E P) (hA : Agree E) {x : Event} (hx : E x) (b : Bucket) :
    holds { P.shared with idx := P.shared.idx.setDrop x b } x.id b = false := by
  cases hh : holds { P.shared with idx := P.shared.idx.setDrop x b } x.id b with
  | false => rfl
  | true =>
    obtain ⟨y, hy, hid⟩ := holds_iff.1 hh
    have hy' : y ∈ setRemove x (P.shared.idx.sets b) := by
      simpa only [Index.setDrop, Function.update_self] using hy
    obtain ⟨hmem, hne⟩ := (mem_setRemove_iff (h.sorted b)).1 hy'
    have hyE := (h.inSets b y hmem).1
    exact absurd ⟨(hA x y hx hyE hid.symm).createdAt, hid.symm⟩ hne

theorem mem_events_of_adding {e : Event} {bs : List Bucket} (h : pc.role = .adding e bs) : e ∈ pc.events := by
  cases pc <;> simp_all [Pc.role, Pc.events]

theorem mem_events_of_cleaning {e : Event} {bs : List Bucket} (h : pc.role = .cleaning e bs) :
    e ∈ pc.events := by
  cases pc <;> simp_all [Pc.role, Pc.events]

theorem mem_events_of_unsure {e : Event} (h : pc.role = .unsure e) : e ∈ pc.events := by
  cases pc <;> simp_all [Pc.role, Pc.events]

theorem SetsIn.step (h : SetsIn E P) (hp : P.threads[i]? = some pc)
    (hsh : Shift P.shared pc pc.role s' pc'.role) (hpc : ∀ x ∈ pc.events, E x) :
    SetsIn E ⟨s', P.threads.set i pc'⟩ := by
  have hmem : pc ∈ P.threads := List.mem_of_getElem? hp
  -- only the moving thread can have come to add to other sets
  have hadd : (∀ e bs, pc'.role = .adding e bs → ∀ b ∈ bs, b ∈ e.buckets) →
      ∀ q ∈ P.threads.set i pc', ∀ e bs, q.role = .adding e bs → ∀ b ∈ bs, b ∈ e.buckets := by
    intro hself q hq
    rcases List.mem_or_eq_of_mem_set hq with hq | rfl
    · exact h.adding q hq
    · exact hself
  generalize hr : pc.role = r at hsh
  generalize hr' : pc'.role = r' at hsh
  cases hsh with
  | same _ _ hid hs =>
    refine ⟨by rw [hs]; exact h.inSets, by rw [hs]; exact h.sorted, hadd fun e bs he => ?_⟩
    exact h.adding pc hmem e bs (by rw [hr, ← hr', he])
  | putNew e _ hl hcase =>
    refine ⟨h.inSets, h.sorted, hadd fun a bs ha => ?_⟩
    rcases hcase with hcase | hcase
    · rw [hr', hcase] at ha
      cases ha
    · rw [hr', hcase] at ha
      cases ha
      exact fun b hb => hb
  | putOver e x he hl => exact ⟨h.inSets, h.sorted, hadd fun a bs ha => by rw [hr'] at ha; cases ha⟩
  | confirm e =>
    refine ⟨h.inSets, h.sorted, hadd fun a bs ha => ?_⟩
    rw [hr'] at ha
    cases ha
    exact fun b hb => hb
  | takeBack e he => exact ⟨h.inSets, h.sorted, hadd fun a bs ha => by rw [hr'] at ha; cases ha⟩
  | addSet e b bs =>
    have hold := h.adding pc hmem e (b :: bs) hr
    refine ⟨inSets_setInsert h.inSets (hpc e (mem_events_of_adding hr)) (hold b (by simp)),
      sortedSets_setInsert h.sorted e b, hadd fun a cs ha => ?_⟩
    rw [hr'] at ha
    cases ha
    exact fun c hc => hold c (List.mem_cons_of_mem b hc)
  | missing e hl => exact ⟨h.inSets, h.sorted, hadd fun a bs ha => by rw [hr'] at ha; cases ha⟩
  | found e x hl => exact ⟨h.inSets, h.sorted, hadd fun a bs ha => by rw [hr'] at ha; cases ha⟩
  | drop x => exact ⟨h.inSets, h.sorted, hadd fun a bs ha => by rw [hr'] at ha; cases ha⟩
  | cleanup e hl => exact ⟨h.inSets, h.sorted, hadd fun a bs ha => by rw [hr'] at ha; cases ha⟩
  | dropSet x b bs he =>
    exact ⟨inSets_setRemove h.inSets x b, sortedSets_setRemove h.sorted x b,
      hadd fun a cs ha => by rw [hr'] at ha; cases ha⟩
  | cleaned x _ hid hs =>
    exact ⟨by rw [hs]; exact h.inSets, by rw [hs]; exact h.sorted,
      hadd fun a bs ha => by rw [hr'] at ha; cases ha⟩

/-! ## A live id is in its sets -/

/-- A step that removes no entry, and gives up no work that is still to be done. -/
theorem Tended.carry {id : Bytes32} {bs : List Bucket} (h : Tended P id bs) (hp : P.threads[i]? = some pc)
    (hunsure : Role.isUnsure id pc.role = true →
      Role.isUnsure id pc'.role = true ∨ ∀ b ∈ bs, Role.adds id b pc'.role = true)
    (hadds : ∀ b ∈ bs, Role.adds id b pc.role = true →
      holds s' id b = true ∨ Role.adds id b pc'.role = true)
    (hholds : ∀ b ∈ bs, holds P.shared id b = true → holds s' id b = true) :
    Tended ⟨s', P.threads.set i pc'⟩ id bs := by
  rcases h with h | h
  · rcases Pool.exists_set pc' hp (anyRole_iff.1 h) with hr | hr
    · rcases hunsure hr with hu | hu
      · exact Or.inl (anyRole_self hp hu)
      · exact Or.inr fun b hb => Or.inr (anyRole_self hp (hu b hb))
    · exact Or.inl (anyRole_iff.2 hr)
  · refine Or.inr fun b hb => ?_
    rcases h b hb with h | h
    · exact Or.inl (hholds b hb h)
    · rcases Pool.exists_set pc' hp (anyRole_iff.1 h) with hr | hr
      · exact (hadds b hb hr).imp_right (anyRole_self hp)
      · exact Or.inr (anyRole_iff.2 hr)

/-- A step of a thread that neither adds nor is unsure of this id. -/
theorem Tended.frame {id : Bytes32} {bs : List Bucket} (h : Tended P id bs) (hp : P.threads[i]? = some pc)
    (hunsure : Role.isUnsure id pc.role = false) (hadds : ∀ b, Role.adds id b pc.role = false)
    (hholds : ∀ b ∈ bs, holds P.shared id b = true → holds s' id b = true) :
    Tended ⟨s', P.threads.set i pc'⟩ id bs := by
  refine h.carry hp (fun hu => ?_) (fun b _ ha => ?_) hholds
  · rw [hunsure] at hu
    cases hu
  · rw [hadds b] at ha
    cases ha

/-- The removal of an entry, by a call that neither adds nor is unsure: if the id is
this one, an insert is there that makes the removal good. -/
theorem Tended.dropSet {id : Bytes32} {bs : List Bucket} {y : Event} {b : Bucket} (h : Tended P id bs)
    (hp : P.threads[i]? = some pc) (hunsure : ∀ c, Role.isUnsure c pc.role = false)
    (hadds : ∀ c b, Role.adds c b pc.role = false)
    (hok : id = y.id → anyRole P (Role.isUnsure id) = true ∨ anyRole P (Role.adds id b) = true) :
    Tended ⟨{ P.shared with idx := P.shared.idx.setDrop y b }, P.threads.set i pc'⟩ id bs := by
  have hkept : ∀ {r : Role → Bool}, anyRole P r = true → r pc.role = false →
      anyRole ⟨{ P.shared with idx := P.shared.idx.setDrop y b }, P.threads.set i pc'⟩ r = true :=
    fun hany hno => anyRole_keep hp hany fun hyes => by rw [hno] at hyes; cases hyes
  rcases h with hu | hall
  · exact Or.inl (hkept hu (hunsure id))
  · by_cases hhit : id = y.id
    · rcases hok hhit with hu | ha
      · exact Or.inl (hkept hu (hunsure id))
      · refine Or.inr fun c hc => ?_
        by_cases hcb : c = b
        · rw [hcb]
          exact Or.inr (hkept ha (hadds id b))
        · exact (hall c hc).imp (fun hh => holds_setDrop_of_ne hh (Or.inr hcb)) fun hh => hkept hh (hadds id c)
    · exact Or.inr fun c hc => (hall c hc).imp (fun hh => holds_setDrop_of_ne hh (Or.inl hhit)) fun hh =>
        hkept hh (hadds id c)

theorem SetInv.complete_step (h : SetInv P) (hA : Agree E) (hl : LiveIn E P.shared)
    (hp : P.threads[i]? = some pc) (hsh : Shift P.shared pc pc.role s' pc'.role)
    (hpc : ∀ x ∈ pc.events, E x) (hkeep : KeepsSets P (.step i) = true) {id : Bytes32} {x : Event}
    (hx : s'.live id = some x) :
    Tended ⟨s', P.threads.set i pc'⟩ id x.buckets := by
  generalize hr : pc.role = r at hsh
  generalize hr' : pc'.role = r' at hsh
  cases hsh with
  | same _ _ hid hs =>
    rw [Shared.live_congr hid] at hx
    refine (h.complete id x hx).carry hp (fun hu => Or.inl ?_) (fun b _ ha => Or.inr ?_) fun b _ hh => ?_
    · rwa [hr', ← hr]
    · rwa [hr', ← hr]
    · rwa [holds_congr hs]
  | putNew e _ hn hcase =>
    rw [Shared.live_putId] at hx
    by_cases hid : id = e.id
    · rw [if_pos hid] at hx
      cases hx
      rcases hcase with rfl | rfl
      · exact Or.inl (anyRole_self hp (by rw [hr']; simp [Role.isUnsure, hid]))
      · exact Or.inr fun b hb => Or.inr (anyRole_self hp (by rw [hr']; simp [Role.adds, hid, hb]))
    · rw [if_neg hid] at hx
      exact (h.complete id x hx).frame hp (by rw [hr]; rfl) (fun b => by rw [hr]; rfl) fun b _ hh => hh
  | putOver e y he hy =>
    rw [Shared.live_putId] at hx
    by_cases hid : id = e.id
    · rw [if_pos hid] at hx
      cases hx
      rw [← hid] at hy
      obtain ⟨hyE, hyid⟩ := hl id y hy
      rw [← buckets_eq hA hyE (hpc x he) (hyid.trans hid)]
      exact (h.complete id y hy).frame hp (by rw [hr]; rfl) (fun b => by rw [hr]; rfl) fun b _ hh => hh
    · rw [if_neg hid] at hx
      exact (h.complete id x hx).frame hp (by rw [hr]; rfl) (fun b => by rw [hr]; rfl) fun b _ hh => hh
  | confirm e =>
    refine (h.complete id x hx).carry hp (fun hu => Or.inr fun b hb => ?_) (fun b _ ha => ?_) fun b _ hh => hh
    · rw [hr] at hu
      have hid : e.id = id := by simpa [Role.isUnsure] using hu
      have hb' : b ∈ e.buckets := by
        rwa [buckets_eq hA (hpc e (mem_events_of_unsure hr)) (hl id x hx).1 (hid.trans (hl id x hx).2.symm)]
      rw [hr']
      simp [Role.adds, hid, hb']
    · rw [hr] at ha
      cases ha
  | takeBack e he =>
    rw [Shared.live_dropId] at hx
    by_cases hid : id = e.id
    · rw [if_pos hid] at hx
      cases hx
    · rw [if_neg hid] at hx
      refine (h.complete id x hx).frame hp ?_ (fun b => by rw [hr]; rfl) fun b _ hh => hh
      rw [hr]
      simpa [Role.isUnsure] using fun he => hid he.symm
  | addSet e b bs =>
    refine (h.complete id x hx).carry hp (fun hu => ?_) (fun c hc ha => ?_) fun c _ hh => ?_
    · rw [hr] at hu
      cases hu
    · rw [hr] at ha
      have hcase : e.id = id ∧ (c = b ∨ c ∈ bs) := by simpa [Role.adds] using ha
      rcases hcase.2 with rfl | hcb
      · rw [← hcase.1]
        exact Or.inl (holds_setAdd_self P.shared e c)
      · exact Or.inr (by rw [hr']; simp [Role.adds, hcase.1, hcb])
    · exact holds_setAdd_of_holds e b hh
  | missing e hn =>
    exact (h.complete id x hx).frame hp (by rw [hr]; rfl) (fun b => by rw [hr]; simp [Role.adds]) fun b _ hh => hh
  | found e y hy =>
    exact (h.complete id x hx).frame hp (by rw [hr]; rfl) (fun b => by rw [hr]; simp [Role.adds]) fun b _ hh => hh
  | drop y =>
    rw [Shared.live_dropId] at hx
    by_cases hid : id = y.id
    · rw [if_pos hid] at hx
      cases hx
    · rw [if_neg hid] at hx
      exact (h.complete id x hx).frame hp (by rw [hr]; rfl) (fun b => by rw [hr]; rfl) fun b _ hh => hh
  | cleanup e hn =>
    exact (h.complete id x hx).frame hp (by rw [hr]; rfl) (fun b => by rw [hr]; rfl) fun b _ hh => hh
  | dropSet y b bs he =>
    have hok : removalOk P y.id b = true := by
      unfold KeepsSets at hkeep
      rcases he with ⟨c, rfl⟩ | ⟨o, rfl⟩
      · simpa only [hp] using hkeep
      · simpa only [hp] using hkeep
    refine (h.complete id x hx).dropSet hp (fun c => by rw [hr]; rfl) (fun c b => by rw [hr]; rfl) ?_
    rintro rfl
    have hlive : (P.shared.live y.id).isNone = false := by
      rw [show P.shared.live y.id = some x from hx]
      rfl
    simpa only [removalOk, hlive, Bool.false_or, Bool.or_eq_true] using hok
  | cleaned y _ hid hs =>
    rw [Shared.live_congr hid] at hx
    refine (h.complete id x hx).frame hp (by rw [hr]; rfl) (fun b => by rw [hr]; rfl) fun b _ hh => ?_
    rwa [holds_congr hs]

/-! ## An entry of an id that is not live is watched -/

theorem Watched.carry {id : Bytes32} {b : Bucket} (h : Watched P id b) (hp : P.threads[i]? = some pc)
    (hcleans : Role.cleans id b pc.role = true → Role.cleans id b pc'.role = true)
    (hchecks : Role.checks id pc.role = true →
      Role.cleans id b pc'.role = true ∨ Role.checks id pc'.role = true) :
    Watched ⟨s', P.threads.set i pc'⟩ id b := by
  rcases h with h | h
  · exact Or.inl (anyRole_keep hp h hcleans)
  · rcases Pool.exists_set pc' hp (anyRole_iff.1 h) with hr | hr
    · exact (hchecks hr).imp (anyRole_self hp) (anyRole_self hp)
    · exact Or.inr (anyRole_iff.2 hr)

theorem Watched.frame {id : Bytes32} {b : Bucket} (h : Watched P id b) (hp : P.threads[i]? = some pc)
    (hcleans : Role.cleans id b pc.role = false) (hchecks : Role.checks id pc.role = false) :
    Watched ⟨s', P.threads.set i pc'⟩ id b := by
  refine h.carry hp (fun hc => ?_) fun hc => ?_
  · rw [hcleans] at hc
    cases hc
  · rw [hchecks] at hc
    cases hc

theorem SetInv.noOrphan_step (h : SetInv P) (hS : SetsIn E P) (hA : Agree E)
    (hp : P.threads[i]? = some pc) (hsh : Shift P.shared pc pc.role s' pc'.role)
    (hpc : ∀ x ∈ pc.events, E x) (hpc' : ∀ x ∈ pc'.events, E x) (hkeep : KeepsSets P (.step i) = true)
    {id : Bytes32} {b : Bucket} (hn : s'.live id = none) (hh : holds s' id b = true) :
    Watched ⟨s', P.threads.set i pc'⟩ id b := by
  generalize hr : pc.role = r at hsh
  generalize hr' : pc'.role = r' at hsh
  cases hsh with
  | same _ _ hid hs =>
    rw [Shared.live_congr hid] at hn
    rw [holds_congr hs] at hh
    refine (h.noOrphan id b hn hh).carry hp (fun hc => ?_) fun hc => Or.inr ?_
    · rwa [hr', ← hr]
    · rwa [hr', ← hr]
  | putNew e _ hl hcase =>
    rw [Shared.live_putId] at hn
    by_cases hid : id = e.id
    · rw [if_pos hid] at hn
      cases hn
    · rw [if_neg hid] at hn
      exact (h.noOrphan id b hn hh).frame hp (by rw [hr]; rfl) (by rw [hr]; rfl)
  | putOver e y he hy =>
    rw [Shared.live_putId] at hn
    by_cases hid : id = e.id
    · rw [if_pos hid] at hn
      cases hn
    · rw [if_neg hid] at hn
      exact (h.noOrphan id b hn hh).frame hp (by rw [hr]; rfl) (by rw [hr]; rfl)
  | confirm e => exact (h.noOrphan id b hn hh).frame hp (by rw [hr]; rfl) (by rw [hr]; rfl)
  | takeBack e he =>
    have hframe : ∀ {id b}, Watched P id b →
        Watched ⟨{ P.shared with idx := P.shared.idx.dropId e.id }, P.threads.set i pc'⟩ id b :=
      fun hw => hw.frame hp (by rw [hr]; rfl) (by rw [hr]; rfl)
    by_cases hid : id = e.id
    · -- another insert may have added the id: the condition of the step
      subst hid
      have hok : takeBackOk P e = true := by
        unfold KeepsSets at hkeep
        subst he
        simpa only [hp] using hkeep
      have hb := hS.mem_buckets hA (hpc e (mem_events_of_unsure hr)) hh
      have hone := List.all_eq_true.1 hok b hb
      rw [show holds P.shared e.id b = true from hh] at hone
      simp only [Bool.not_true, Bool.false_or, Bool.or_eq_true] at hone
      exact hframe hone
    · rw [Shared.live_dropId, if_neg hid] at hn
      exact hframe (h.noOrphan id b hn hh)
  | addSet e c bs =>
    rcases holds_of_setAdd hh with hold | hnew
    · refine (h.noOrphan id b hn hold).carry hp (fun hc => ?_) fun hc => Or.inr ?_
      · rw [hr] at hc
        cases hc
      · rw [hr] at hc
        rw [hr']
        exact hc
    · exact Or.inr (anyRole_self hp (by rw [hr', hnew]; simp [Role.checks]))
  | missing e hl =>
    refine (h.noOrphan id b hn hh).carry hp (fun hc => ?_) fun hc => Or.inl ?_
    · rw [hr] at hc
      cases hc
    · rw [hr] at hc
      have hid : e.id = id := by simpa [Role.checks] using hc
      have hb := hS.mem_buckets hA (hpc e (mem_events_of_adding hr)) (b := b) (by rw [hid]; exact hh)
      rw [hr']
      simp [Role.cleans, hid, hb]
  | found e y hy =>
    refine (h.noOrphan id b hn hh).carry hp (fun hc => ?_) fun hc => ?_
    · rw [hr] at hc
      cases hc
    · rw [hr] at hc
      have hid : e.id = id := by simpa [Role.checks] using hc
      rw [hid, show P.shared.live id = none from hn] at hy
      cases hy
  | drop y =>
    rw [Shared.live_dropId] at hn
    by_cases hid : id = y.id
    · subst hid
      have hb := hS.mem_buckets hA (hpc' y (mem_events_of_cleaning hr')) hh
      exact Or.inl (anyRole_self hp (by rw [hr']; simp [Role.cleans, hb]))
    · rw [if_neg hid] at hn
      exact (h.noOrphan id b hn hh).frame hp (by rw [hr]; rfl) (by rw [hr]; rfl)
  | cleanup e hl => exact (h.noOrphan id b hn hh).frame hp (by rw [hr]; rfl) (by rw [hr]; rfl)
  | dropSet y c bs he =>
    refine (h.noOrphan id b hn (holds_of_setDrop hh)).carry hp (fun hc => ?_) fun hc => ?_
    · rw [hr] at hc
      have hcase : y.id = id ∧ (b = c ∨ b ∈ bs) := by simpa [Role.cleans] using hc
      rcases hcase.2 with hbc | hbs
      · have hno := hS.not_holds_setDrop hA (hpc y (mem_events_of_cleaning hr)) c
        rw [hbc, ← hcase.1, hno] at hh
        cases hh
      · rw [hr']
        simp [Role.cleans, hcase.1, hbs]
    · rw [hr] at hc
      cases hc
  | cleaned y _ hid hs =>
    rw [Shared.live_congr hid] at hn
    rw [holds_congr hs] at hh
    exact (h.noOrphan id b hn hh).frame hp (by rw [hr]; simp [Role.cleans]) (by rw [hr]; rfl)

/-! ## Whole runs -/

/-- All that the run keeps. -/
structure SetState (E : Event → Prop) (P : Config) : Prop where
  events : EventsIn E P
  sets : SetsIn E P
  inv : SetInv P

theorem role_start (c : Call) : (start c).role = .idle := by
  cases c <;> rfl

theorem anyRole_call {r : Role → Bool} (c : Call) (h : anyRole P r = true) :
    anyRole ⟨P.shared, P.threads ++ [start c]⟩ r = true := by
  obtain ⟨pc, hpc, hr⟩ := anyRole_iff.1 h
  exact anyRole_iff.2 ⟨pc, List.mem_append_left _ hpc, hr⟩

theorem setState_init (E : Event → Prop) : SetState E init := by
  refine ⟨eventsIn_init E, ⟨inSets_empty, fun b => List.Pairwise.nil, fun pc h => by cases h⟩, ?_, ?_⟩
  · intro id x hx
    cases hx
  · intro id b hn hh
    cases hh

theorem SetsIn.run_step {Q : Config} {a : Act Call} (h : SetsIn E P) (hev : EventsIn E P)
    (hstep : Threads.step P a = some Q) : SetsIn E Q := by
  rcases Pool.step_cases hstep with ⟨c, rfl, rfl⟩ | ⟨i, pc, s', pc', rfl, hp, hm, rfl⟩
  · refine ⟨h.inSets, h.sorted, fun pc hpc => ?_⟩
    rcases List.mem_append.1 hpc with hpc | hpc
    · exact h.adding pc hpc
    · intro e bs he
      rw [List.mem_singleton.1 hpc, role_start] at he
      cases he
  · exact h.step hp (move_shift hm hev.live) (hev.events pc (List.mem_of_getElem? hp))

/-- In every interleaving the sets are sorted, and each entry stands in sets of its own. -/
theorem setsIn_run (as : List (Act Call)) (P : Config) (hrun : Machine.run step init as = some P) :
    SetsIn (Called as) P := by
  have h : EventsIn (Called as) P ∧ SetsIn (Called as) P := by
    refine Machine.run_invariant (I := fun P => EventsIn (Called as) P ∧ SetsIn (Called as) P) ?_ as init P hrun
      (Machine.along_and_mem as init (Machine.along_of_forall (C := fun _ _ => True) as init fun _ _ _ => trivial))
      ⟨eventsIn_init _, (setState_init _).sets⟩
    rintro P a Q hstep ⟨-, ha⟩ ⟨hev, hsets⟩
    exact ⟨hev.step hstep (fun e he => by rw [Called, ← he]; exact ha), hsets.run_step hev hstep⟩
  exact h.2

theorem SetState.step {Q : Config} {a : Act Call} (hA : Agree E) (h : SetState E P)
    (hstep : Threads.step P a = some Q) (hcall : ∀ e, a = .call (.insert e) → E e)
    (hkeep : KeepsSets P a = true) : SetState E Q := by
  refine ⟨h.events.step hstep hcall, h.sets.run_step h.events hstep, ?_⟩
  · rcases Pool.step_cases hstep with ⟨c, rfl, rfl⟩ | ⟨i, pc, s', pc', rfl, hp, hm, rfl⟩
    · refine ⟨fun id x hx => ?_, fun id b hn hh => ?_⟩
      · exact (h.inv.complete id x hx).imp (anyRole_call c) fun hall b hb =>
          (hall b hb).imp_right (anyRole_call c)
      · exact (h.inv.noOrphan id b hn hh).imp (anyRole_call c) (anyRole_call c)
    · have hsh := move_shift hm h.events.live
      have hpc := h.events.events pc (List.mem_of_getElem? hp)
      have hpc' := (move_events hm h.events.live hpc).2
      exact ⟨fun id x hx => h.inv.complete_step hA h.events.live hp hsh hpc hkeep hx,
        fun id b hn hh => h.inv.noOrphan_step h.sets hA hp hsh hpc hpc' hkeep hn hh⟩

theorem anyRole_of_quiescent (hq : Quiescent P) {r : Role → Bool} (hr : r .idle = false) :
    anyRole P r = false := by
  cases h : anyRole P r with
  | false => rfl
  | true =>
    obtain ⟨pc, hpc, hrole⟩ := anyRole_iff.1 h
    obtain ⟨res, rfl⟩ := hq pc hpc
    rw [show (Pc.done res).role = .idle from rfl, hr] at hrole
    cases hrole

end

/-- An event of the run is in `by_id` exactly when it is in each of its sets, and no
other set has it. -/
def SetsAgree (E : Event → Prop) (s : Index) : Prop :=
  ∀ e, E e → ((∃ x, s.byId.lookup e.id = some x) ↔ ∀ b ∈ e.buckets, ∃ y ∈ s.sets b, y.id = e.id) ∧
    ∀ b, (∃ y ∈ s.sets b, y.id = e.id) → (∃ x, s.byId.lookup e.id = some x) ∧ b ∈ e.buckets

/-- In every interleaving in which the two steps part nothing, `by_id` and the sets
agree whenever no call is in progress. -/
theorem quiescent_sets (as : List (Act Call)) (hA : Agree (Called as)) (P : Config)
    (hrun : Machine.run step init as = some P) (halong : Machine.Along step (KeepsSets · ·) init as)
    (hq : Quiescent P) : SetsAgree (Called as) P.shared.idx := by
  have h : SetState (Called as) P := by
    refine Machine.run_invariant ?_ as init P hrun (Machine.along_and_mem as init halong)
      (setState_init (Called as))
    rintro P a Q hstep ⟨hkeep, ha⟩ hI
    exact hI.step hA hstep (fun e he => by rw [Called, ← he]; exact ha) hkeep
  intro e he
  have hback : ∀ b, (∃ y ∈ P.shared.idx.sets b, y.id = e.id) →
      (∃ x, P.shared.idx.byId.lookup e.id = some x) ∧ b ∈ e.buckets := by
    intro b hb
    have hh : holds P.shared e.id b = true := holds_iff.2 hb
    refine ⟨?_, h.sets.mem_buckets hA he hh⟩
    cases hl : P.shared.idx.byId.lookup e.id with
    | some x => exact ⟨x, rfl⟩
    | none =>
      rcases h.inv.noOrphan e.id b hl hh with hw | hw
      · rw [anyRole_of_quiescent hq rfl] at hw
        cases hw
      · rw [anyRole_of_quiescent hq rfl] at hw
        cases hw
  refine ⟨⟨?_, fun hall => ?_⟩, hback⟩
  · rintro ⟨x, hx⟩ b hb
    obtain ⟨hxE, hxid⟩ := h.events.live e.id x hx
    rw [← buckets_eq hA hxE he hxid] at hb
    rcases h.inv.complete e.id x hx with hu | hall
    · rw [anyRole_of_quiescent hq rfl] at hu
      cases hu
    · rcases hall b hb with hh | ha
      · exact holds_iff.1 hh
      · rw [anyRole_of_quiescent hq rfl] at ha
        cases ha
  · exact (hback _ (hall (.pubkey (tagIdHash e.pubkey)) (by simp [Event.buckets]))).1

/-- The insert and the removal of one event overlap, and the insert clears what it
has added. -/
def overlap : List (Act Call) :=
  [.call (.insert (note 0)), .call (.remove (note 0).id)] ++ steps 0 5 ++ steps 1 7 ++ steps 0 8

theorem agree_called_note {as : List (Act Call)} (h : ∀ e, Called as e → e = note 0) : Agree (Called as) := by
  intro a b ha hb _
  rw [h a ha, h b hb]
  exact note_sameFields 0 0

theorem quiescent_sets_overlap :
    ∃ P, Machine.run step init overlap = some P ∧ Quiescent P ∧ SetsAgree (Called overlap) P.shared.idx := by
  obtain ⟨P, hP, h⟩ := Machine.exists_run step init overlap (fun P => decide (Quiescent P)) (by decide +kernel)
  have hq := of_decide_eq_true h
  refine ⟨P, hP, hq, quiescent_sets overlap (agree_called_note fun e he => ?_) P hP (by decide +kernel) hq⟩
  simpa [overlap, steps, called_iff] using he

/-- The event is inserted again while its removal has still to clear the sets. -/
def insertAgain : List (Act Call) :=
  [.call (.insert (note 0))] ++ steps 0 9 ++ [.call (.remove (note 0).id), .call (.insert (note 0))] ++
    steps 1 1 ++ steps 2 9 ++ steps 1 6

theorem insertAgain_parts :
    Agree (Called insertAgain) ∧ ∃ P, Machine.run step init insertAgain = some P ∧ Quiescent P ∧
      ¬ SetsAgree (Called insertAgain) P.shared.idx := by
  refine ⟨agree_called_note fun e he => ?_, ?_⟩
  · simpa [insertAgain, steps, called_iff] using he
  · obtain ⟨P, hP, h⟩ := Machine.exists_run step init insertAgain (fun P => decide (Quiescent P) &&
      (P.shared.live (note 0).id).isSome && (P.shared.idx.sets (.kind 1)).isEmpty) (by decide +kernel)
    simp only [Bool.and_eq_true, decide_eq_true_eq] at h
    obtain ⟨⟨hq, hlive⟩, hempty⟩ := h
    refine ⟨P, hP, hq, fun hall => ?_⟩
    have hcalled : Called insertAgain (note 0) := by simp [insertAgain, Called]
    obtain ⟨y, hy, -⟩ := ((hall (note 0) hcalled).1.1 (Option.isSome_iff_exists.1 hlive)) (.kind 1)
      (by simp [Event.buckets, note, Event.compact])
    rw [List.isEmpty_iff.1 hempty] at hy
    cases hy

end Threads
end Memlay
