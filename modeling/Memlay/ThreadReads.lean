import Memlay.ThreadSets

/-!
# Reads beside concurrent writers

An `insert` that has returned `Inserted` has filled every set of its event, and no other
call takes the entries out again: not one that stores the same id once more, nor one that
replaces, removes or deletes other ids.  So every query finds the event, whatever else
is in progress:

    insert(e) has returned Inserted, no call of it removes the id  →
      get(e.id) finds it, and a query of each set of e returns it, or `limit` newer
      events                                                       (`stored_visible`)

`e` is not replaceable; a replaceable event gives way to its next version.
-/

namespace Memlay
namespace Threads

open Pool Index

/-! ## Calls that could take an id out -/

/-- The call is on the way of replaceable events with the id, or with an old holder of
this id. -/
def Pc.vies (id : Bytes32) : Pc → Bool
  | .entry y | .early y _ | .earlyDrop y | .finalWinner y _ | .cleanId y => decide (y.id = id)
  | .getOld y oldId | .swapSlot y oldId => decide (y.id = id) || decide (oldId = id)
  | _ => false

/-- The call is about to take the id out, or its entries. -/
def Pc.clears (id : Bytes32) : Pc → Bool
  | .rmById _ oldId => decide (oldId = id)
  | .rmMemory _ x | .rmCount _ x | .rmSlot _ x | .rmSets _ x _ => decide (x.id = id)
  | .cleanMemory x | .cleanCount x | .cleanSets x _ _ => decide (x.id = id)
  | _ => false

/-- The call will add entries of the id, or look whether it is live. -/
def Pc.fills (id : Bytes32) (pc : Pc) : Bool := pc.role.checks id

section
variable {E : Event → Prop} {i : Nat} {s s' : Shared} {pc pc' : Pc} {id : Bytes32}

theorem vies_return (r : Option Event) (c : Caller) : (return' s r c).2.vies id = false := by
  cases c <;> rfl

theorem clears_return (r : Option Event) (c : Caller) : (return' s r c).2.clears id = false := by
  cases c <;> rfl

theorem vies_afterTombs {e : Event} (h : e.id = id → e.isReplaceable = false) :
    (afterTombs e).vies id = false := by
  unfold afterTombs
  split
  · rename_i hr
    refine decide_eq_false fun hid => ?_
    rw [h hid] at hr
    cases hr
  · rfl

theorem clears_afterTombs (e : Event) : (afterTombs e).clears id = false := by
  unfold afterTombs
  split <;> rfl

/-- No call comes to vie for an id that is not replaceable and in no slot. -/
theorem vies_move (h : move i s pc = some (s', pc')) (hvies : pc.vies id = false)
    (hplain : ∀ y ∈ pc.events, y.id = id → y.isReplaceable = false) (hslots : ∀ key, s.slot key ≠ some id) :
    pc'.vies id = false := by
  have hnot : ∀ {y : Event}, y ∈ pc.events → y.isReplaceable = true → decide (y.id = id) = false := by
    intro y hy hr
    refine decide_eq_false fun hid => ?_
    rw [hplain y hy hid] at hr
    cases hr
  cases move_cases h with
  | noTombs e | untombed e => exact vies_afterTombs (hplain e List.mem_cons_self)
  | occupied e oldId hg hs =>
    have hold : decide (oldId = id) = false := decide_eq_false fun he => hslots e.replacementKey (he ▸ hs)
    show (decide (e.id = id) || decide (oldId = id)) = false
    rw [hold, Bool.or_false]
    exact hvies
  | wins | earlyLose | finalLose => exact hvies
  | putReplaceable e r hl hr => exact hnot List.mem_cons_self hr
  | finalFound e r hr => exact hnot List.mem_cons_self hr
  | rmMissing | rmReturn => exact vies_return _ _
  | tomb _ _ t q hpc₁ hpc₂ =>
    rcases hpc₂ with ⟨_, _, rfl⟩ | ⟨_, rfl⟩ | ⟨_, rfl⟩ | ⟨_, rfl⟩ <;> rfl
  | _ => rfl

/-- A slot is given to the event of a call that vies for it. -/
theorem slot_move (h : move i s pc = some (s', pc')) (hvies : pc.vies id = false)
    (hslots : ∀ key, s.slot key ≠ some id)
    (key : ReplacementKey) : s'.slot key ≠ some id := by
  have hput : ∀ {e : Event}, decide (e.id = id) = false →
      Shared.slot { s with idx := s.idx.putSlot e.replacementKey e.id } key ≠ some id := by
    intro e he hs
    rw [Shared.slot_putSlot] at hs
    split at hs
    · exact of_decide_eq_false he (Option.some.inj hs)
    · exact hslots key hs
  have hsame : ∀ {u : Shared}, u.idx.byReplaceable = s.idx.byReplaceable → u.slot key ≠ some id := by
    intro u hu
    rw [Shared.slot_congr hu]
    exact hslots key
  cases move_cases h with
  | vacant e => exact hput hvies
  | swaps e oldId => exact hput (Bool.or_eq_false_iff.1 hvies).1
  | rmMissing c | rmReturn c =>
    unfold Shared.slot
    rw [idx_return]
    exact hslots key
  | rmSlot c x =>
    rw [Shared.slot_dropSlot]
    split
    · nofun
    · exact hslots key
  | rmMemory | addMemory | cleanMemory => exact hsame (byReplaceable_addMemory _ _)
  | rmCountSlot | rmCountSets | addCount | cleanCount => exact hsame (byReplaceable_addCount _ _)
  | _ => exact hslots key

/-- No call comes to take out an id that no other call vies for, unless it finds the id
missing. -/
theorem clears_move (h : move i s pc = some (s', pc')) (hl : LiveIn E s) (hclears : pc.clears id = false)
    (hvies : pc.vies id = false) (hlive : pc.fills id = true → (s.live id).isSome = true) :
    pc'.clears id = false := by
  cases move_cases h with
  | noTombs e | untombed e => exact clears_afterTombs e
  | swaps e oldId => exact (Bool.or_eq_false_iff.1 hvies).2
  | rmMissing | rmReturn => exact clears_return _ _
  | rmFound c oldId x hx =>
    show decide (x.id = id) = false
    rw [(hl oldId x hx).2]
    exact hclears
  | rmMemory | rmCountSlot | rmCountSets | rmSlot | rmSet | cleanMemory | cleanCount | cleanSet => exact hclears
  | finalMissing e r hn =>
    refine decide_eq_false fun hid => ?_
    have hsome := hlive (decide_eq_true hid)
    rw [← hid, hn] at hsome
    cases hsome
  | cleanFound | cleanMissing => exact hvies
  | tomb _ _ t q hpc₁ hpc₂ =>
    rcases hpc₂ with ⟨_, _, rfl⟩ | ⟨_, rfl⟩ | ⟨_, rfl⟩ | ⟨_, rfl⟩ <;> rfl
  | _ => rfl

theorem clears_of_cleaning {x : Event} {bs : List Bucket} (h : pc.role = .cleaning x bs) :
    pc.clears id = decide (x.id = id) := by
  cases pc <;> simp_all [Pc.role, Pc.clears]

theorem vies_of_unsure {y : Event} (h : pc.role = .unsure y) : pc.vies id = decide (y.id = id) := by
  cases pc <;> simp_all [Pc.role, Pc.vies]

/-- A step of a call that leaves the id alone takes neither the id nor an entry of it. -/
theorem kept_shift (h : Shift s pc pc.role s' pc'.role) (hclears : pc.clears id = false)
    (hclears' : pc'.clears id = false) (hvies : pc.vies id = false) :
    ((s.live id).isSome = true → (s'.live id).isSome = true) ∧ ∀ b, holds s id b = true →
    holds s' id b = true := by
  have hput : ∀ e : Event, (s.live id).isSome = true →
      (Shared.live { s with idx := s.idx.putId e } id).isSome = true := by
    intro e hs
    rw [Shared.live_putId]
    split
    · rfl
    · exact hs
  have hdrop : ∀ {x : Event}, decide (x.id = id) = false → (s.live id).isSome = true →
      (Shared.live { s with idx := s.idx.dropId x.id } id).isSome = true := by
    intro x hne hs
    rw [Shared.live_dropId, if_neg fun he => of_decide_eq_false hne he.symm]
    exact hs
  generalize hr : pc.role = r at h
  generalize hr' : pc'.role = r' at h
  cases h with
  | same _ _ hid hs | cleaned _ _ hid hs =>
    refine ⟨fun hsome => ?_, fun b hb => ?_⟩
    · rw [Shared.live_congr hid]
      exact hsome
    · rw [holds_congr hs]
      exact hb
  | putNew e => exact ⟨hput e, fun b hb => hb⟩
  | putOver e => exact ⟨hput e, fun b hb => hb⟩
  | confirm | missing | found | cleanup => exact ⟨fun hs => hs, fun b hb => hb⟩
  | takeBack e hpc =>
    refine ⟨hdrop ?_, fun b hb => hb⟩
    rw [← vies_of_unsure hr]
    exact hvies
  | addSet e b bs => exact ⟨fun hs => hs, fun c hc => holds_setAdd_of_holds e b hc⟩
  | drop x =>
    refine ⟨hdrop ?_, fun b hb => hb⟩
    rw [← clears_of_cleaning hr']
    exact hclears'
  | dropSet x b bs =>
    refine ⟨fun hs => hs, fun c hc => holds_setDrop_of_ne hc (Or.inl fun he => ?_)⟩
    rw [clears_of_cleaning hr] at hclears
    exact of_decide_eq_false hclears he.symm

end

/-! ## The invariants -/

/-- No call vies for the id, and no slot names it. -/
structure Plain (id : Bytes32) (P : Config) : Prop where
  calls : ∀ pc ∈ P.threads, pc.vies id = false
  slots : ∀ key, P.shared.slot key ≠ some id

/-- No call takes the event out, and a call that fills its sets has stored it and filled
all but those that it still has before it. -/
structure Spared (e : Event) (P : Config) : Prop where
  calls : ∀ pc ∈ P.threads, pc.clears e.id = false
  live : ∀ pc ∈ P.threads, pc.fills e.id = true → (P.shared.live e.id).isSome = true
  filled : ∀ pc ∈ P.threads, ∀ y bs, pc.role = .adding y bs → y.id = e.id →
    ∀ b ∈ e.buckets, b ∈ bs ∨ holds P.shared e.id b = true

/-- The event is in `by_id` and in all its sets. -/
def Seen (e : Event) (s : Shared) : Prop :=
  (s.live e.id).isSome = true ∧ ∀ b ∈ e.buckets, holds s e.id b = true

/-- A call of `insert(e)` that has not returned `Inserted`; `e` is not replaceable. -/
def Pc.inserting (e : Event) : Pc → Prop
  | .insert y | .insertTomb y | .byId y _ | .addMemory y _ | .addCount y _ | .addSets y _ _ | .finalId y _ => y = e
  | .done (.inserted (.inserted _)) => False
  | .done _ => True
  | _ => False

/-- The call has not returned, or what it has stored is seen. -/
def Underway (k : Nat) (e : Event) (P : Config) : Prop :=
  (∃ pc, P.threads[k]? = some pc ∧ pc.inserting e) ∨ Seen e P.shared

section
variable {E : Event → Prop} {P Q : Config} {a : Act Call} {e : Event}

/-- Events with the id of a plain event are plain. -/
theorem plain_of_agree (hA : Agree E) (he : E e) (hplain : e.isReplaceable = false) {y : Event} (hy : E y)
    (hid : y.id = e.id) : y.isReplaceable = false := by
  rw [(hA y e hy he hid).isReplaceable]
  exact hplain

theorem plain_init (id : Bytes32) : Plain id init := ⟨(fun pc hpc => by cases hpc), fun key hs => by cases hs⟩

theorem Plain.step (h : Plain e.id P) (hI : EventsIn E P) (hA : Agree E) (he : E e)
    (hplain : e.isReplaceable = false)
    (hs : Threads.step P a = some Q) : Plain e.id Q := by
  rcases Pool.step_cases hs with ⟨c, rfl, rfl⟩ | ⟨i, pc, s', pc', rfl, hp, hm, rfl⟩
  · refine ⟨fun pc hpc => ?_, h.slots⟩
    rcases List.mem_append.1 hpc with hpc | hpc
    · exact h.calls pc hpc
    · rw [List.mem_singleton.1 hpc]
      cases c <;> rfl
  · have hmem := List.mem_of_getElem? hp
    have hvies := h.calls pc hmem
    refine ⟨fun q hq => ?_, slot_move hm hvies h.slots⟩
    rcases List.mem_or_eq_of_mem_set hq with hq | rfl
    · exact h.calls q hq
    · exact vies_move hm hvies (fun y hy => plain_of_agree hA he hplain (hI.events pc hmem y hy)) h.slots

/-- What the moving call comes to fill, it has stored. -/
theorem Spared.self {pc pc' : Pc} {s' : Shared} (h : Spared e P) (hvies : pc.vies e.id = false)
    (hA : Agree E) (he : E e) (hpc : pc ∈ P.threads) (hE' : ∀ y ∈ pc'.events, E y)
    (hsh : Shift P.shared pc pc.role s' pc'.role) (hclears' : pc'.clears e.id = false)
    {y : Event} {bs : List Bucket} (hrole : pc'.role = .adding y bs) (hy : y.id = e.id) :
    (s'.live e.id).isSome = true ∧ ∀ b ∈ e.buckets, b ∈ bs ∨ holds s' e.id b = true := by
  obtain ⟨hlive, hholds⟩ := kept_shift hsh (h.calls pc hpc) hclears' hvies
  have hfills : ∀ {z : Event} {cs : List Bucket}, pc.role = .adding z cs → z.id = e.id → pc.fills e.id = true := by
    intro z cs hz hid
    unfold Pc.fills
    rw [hz]
    exact decide_eq_true hid
  generalize hr : pc.role = r at hsh
  rw [hrole] at hsh
  cases hsh with
  | same =>
    refine ⟨hlive (h.live pc hpc (hfills hr hy)), fun b hb => ?_⟩
    exact (h.filled pc hpc y bs hr hy b hb).imp_right (hholds b)
  | putNew z _ _ hcase =>
    rcases hcase with hcase | hcase
    · cases hcase
    · cases hcase
      refine ⟨?_, fun b hb => Or.inl ?_⟩
      · rw [Shared.live_putId, if_pos hy.symm]
        rfl
      · rwa [buckets_eq hA (hE' y (mem_events_of_adding hrole)) he hy]
  | confirm =>
    rw [vies_of_unsure hr] at hvies
    exact absurd hy (of_decide_eq_false hvies)
  | addSet _ c =>
    refine ⟨hlive (h.live pc hpc (hfills hr hy)), fun b hb => ?_⟩
    rcases h.filled pc hpc y (c :: bs) hr hy b hb with hmem | hh
    · rcases List.mem_cons.1 hmem with rfl | hmem
      · rw [← hy]
        exact Or.inr (holds_setAdd_self P.shared y b)
      · exact Or.inl hmem
    · exact Or.inr (hholds b hh)

theorem Spared.step (h : Spared e P) (hI : EventsIn E P) (hp : Plain e.id P) (hA : Agree E) (he : E e)
    (hs : Threads.step P a = some Q) (hspare : a ≠ .call (.remove e.id) ∧ a ≠ .call (.deleteById e.id)) :
    Spared e Q ∧ (Seen e P.shared → Seen e Q.shared) := by
  rcases Pool.step_cases hs with ⟨c, rfl, rfl⟩ | ⟨i, pc, s', pc', rfl, hi, hm, rfl⟩
  · have hrole : (start c).role = .idle := role_start c
    refine ⟨⟨fun pc hpc => ?_, fun pc hpc hf => ?_, fun pc hpc y bs hy => ?_⟩, fun hseen => hseen⟩
    · rcases List.mem_append.1 hpc with hpc | hpc
      · exact h.calls pc hpc
      · rw [List.mem_singleton.1 hpc]
        cases c with
        | insert y => rfl
        | remove id => exact decide_eq_false fun hid => hspare.1 (by rw [hid])
        | deleteById id => exact decide_eq_false fun hid => hspare.2 (by rw [hid])
    · rcases List.mem_append.1 hpc with hpc | hpc
      · exact h.live pc hpc hf
      · unfold Pc.fills at hf
        rw [List.mem_singleton.1 hpc, hrole] at hf
        cases hf
    · rcases List.mem_append.1 hpc with hpc | hpc
      · exact h.filled pc hpc y bs hy
      · rw [List.mem_singleton.1 hpc, hrole] at hy
        cases hy
  · have hpc := List.mem_of_getElem? hi
    have hsh := move_shift hm hI.live
    have hvies := hp.calls pc hpc
    have hclears' := clears_move hm hI.live (h.calls pc hpc) hvies (h.live pc hpc)
    obtain ⟨hlive, hholds⟩ := kept_shift hsh (h.calls pc hpc) hclears' hvies
    have hself : ∀ y bs, pc'.role = .adding y bs → y.id = e.id →
        (s'.live e.id).isSome = true ∧ ∀ b ∈ e.buckets, b ∈ bs ∨ holds s' e.id b = true :=
      fun _ _ => h.self hvies hA he hpc (move_events hm hI.live (hI.events pc hpc)).2 hsh hclears'
    refine ⟨⟨fun q hq => ?_, fun q hq hf => ?_, fun q hq y bs hy hid b hb => ?_⟩,
      fun hseen => ⟨hlive hseen.1, fun b hb => hholds b (hseen.2 b hb)⟩⟩
    · rcases List.mem_or_eq_of_mem_set hq with hq | rfl
      · exact h.calls q hq
      · exact hclears'
    · rcases List.mem_or_eq_of_mem_set hq with hq | rfl
      · exact hlive (h.live q hq hf)
      · unfold Pc.fills at hf
        cases hr : q.role with
        | adding y bs =>
          rw [hr] at hf
          exact (hself y bs hr (of_decide_eq_true hf)).1
        | idle | unsure | cleaning =>
          rw [hr] at hf
          cases hf
    · rcases List.mem_or_eq_of_mem_set hq with hq | rfl
      · exact (h.filled q hq y bs hy hid b hb).imp_right (hholds b)
      · exact (hself y bs hy hid).2 b hb

/-- A call of `insert(e)` goes on, or has all sets filled and the event live. -/
theorem inserting_move {i : Nat} {s s' : Shared} {pc pc' : Pc} (hm : move i s pc = some (s', pc'))
    (hpc : pc.inserting e) (hplain : e.isReplaceable = false)
    (hlive : pc.fills e.id = true → (s.live e.id).isSome = true) :
    pc'.inserting e ∨ pc.role = .adding e [] := by
  have hafter : ∀ {y : Event}, y = e → (afterTombs y).inserting e := by
    rintro y rfl
    unfold afterTombs
    rw [hplain]
    rfl
  cases move_cases hm with
  | noTombs y => exact Or.inl (hafter hpc)
  | untombed y => exact Or.inl (hafter hpc)
  | tombed | putDuplicate => exact Or.inl trivial
  | someTombs | putPlain | addMemory | addCount | addSet | addedSets => exact Or.inl hpc
  | putReplaceable y r hn hr =>
    cases hpc
    rw [hplain] at hr
    cases hr
  | finalMissing y r hn =>
    cases hpc
    have hsome := hlive (decide_eq_true rfl)
    rw [hn] at hsome
    cases hsome
  | finalPlain y r =>
    cases hpc
    exact Or.inr rfl
  | finalFound y r hr =>
    cases hpc
    rw [hplain] at hr
    cases hr
  | tomb _ _ t q hpc₁ =>
    rcases hpc₁ with ⟨_, _, rfl⟩ | ⟨_, _, rfl⟩ | ⟨_, rfl⟩ | ⟨_, rfl⟩ <;> cases hpc
  | _ => cases hpc

theorem Underway.step {k : Nat} (h : Underway k e P) (hI : EventsIn E P) (hp : Plain e.id P) (hspared : Spared e P)
    (hA : Agree E) (he : E e) (hplain : e.isReplaceable = false) (hs : Threads.step P a = some Q)
    (hspare : a ≠ .call (.remove e.id) ∧ a ≠ .call (.deleteById e.id)) : Underway k e Q := by
  have hseen := (hspared.step hI hp hA he hs hspare).2
  rcases h with ⟨pc, hk, hins⟩ | h
  · rcases Pool.step_cases hs with ⟨c, rfl, rfl⟩ | ⟨i, q, s', q', rfl, hi, hm, rfl⟩
    · obtain ⟨hlt, -⟩ := List.getElem?_eq_some_iff.1 hk
      exact Or.inl ⟨pc, (List.getElem?_append_left hlt).trans hk, hins⟩
    · by_cases hik : k = i
      · subst hik
        rw [hk] at hi
        cases hi
        have hpc := List.mem_of_getElem? hk
        rcases inserting_move hm hins hplain (hspared.live pc hpc) with hins' | hrole
        · exact Or.inl ⟨q', Pool.get_set_self q' hk, hins'⟩
        · refine Or.inr (hseen ⟨hspared.live pc hpc ?_, fun b hb => ?_⟩)
          · unfold Pc.fills
            rw [hrole]
            exact decide_eq_true rfl
          · exact (hspared.filled pc hpc e [] hrole rfl b hb).resolve_left List.not_mem_nil
      · exact Or.inl ⟨pc, (Pool.get_set_ne q' hik).trans hk, hins⟩
  · exact Or.inr (hseen h)

/-- The sets are in order in every state of a run. -/
theorem run_setsIn (as : List (Act Call)) (hE : ∀ y, Called as y → E y)
    (hrun : Machine.run Threads.step init as = some P) :
    EventsIn E P ∧ SetsIn E P := by
  refine Machine.run_invariant_mem (I := fun P => EventsIn E P ∧ SetsIn E P) ?_ hrun
    ⟨eventsIn_init E, inSets_empty, fun b => List.Pairwise.nil, fun pc h => by cases h⟩
  rintro P a Q hs ha ⟨hI, hS⟩
  refine ⟨hI.step hs fun y hy => hE y (by rw [Called, ← hy]; exact ha), ?_⟩
  rcases Pool.step_cases hs with ⟨c, rfl, rfl⟩ | ⟨i, pc, s', pc', rfl, hp, hm, rfl⟩
  · refine ⟨hS.inSets, hS.sorted, fun pc hpc => ?_⟩
    rcases List.mem_append.1 hpc with hpc | hpc
    · exact hS.adding pc hpc
    · intro y bs hy
      rw [List.mem_singleton.1 hpc, role_start] at hy
      cases hy
  · exact hS.step hp (move_shift hm hI.live) (hI.events pc (List.mem_of_getElem? hp))

/-- What a limit cuts off a set in order comes after what it leaves. -/
theorem mem_take_or {l : List Event} (h : l.Pairwise Event.Beats) {y : Event} (hy : y ∈ l) (limit : Nat) :
    y ∈ l.take limit ∨ (l.take limit).length = limit ∧ ∀ z ∈ l.take limit, z.Beats y := by
  rw [← List.take_append_drop limit l] at h hy
  rcases List.mem_append.1 hy with hy | hy
  · exact Or.inl hy
  · refine Or.inr ⟨List.length_take_of_le ?_, fun z hz => (List.pairwise_append.1 h).2.2 z hz y hy⟩
    by_contra hlt
    rw [List.drop_eq_nil_of_le (Nat.le_of_not_le hlt)] at hy
    cases hy

end

/-- The events in progress are of `E`, and `e` is nobody's replaceable version. -/
structure Calm (E : Event → Prop) (e : Event) (P : Config) : Prop where
  events : EventsIn E P
  plain : Plain e.id P

theorem Calm.step {E : Event → Prop} {e : Event} {P Q : Config} {a : Act Call} (h : Calm E e P)
    (hA : Agree E) (he : E e)
    (hplain : e.isReplaceable = false) (hs : Threads.step P a = some Q)
    (hcall : ∀ y, a = .call (.insert y) → E y) :
    Calm E e Q := ⟨h.events.step hs hcall, h.plain.step h.events hA he hplain hs⟩

/-- What a run keeps from the call of `insert e` by thread `i` on, as long as nothing removes it. -/
structure Followed (E : Event → Prop) (i : Nat) (e : Event) (P : Config) : Prop extends Calm E e P where
  spared : Spared e P
  underway : Underway i e P

/-- The step lemma. -/
theorem Followed.step {E : Event → Prop} {i : Nat} {e : Event} {P Q : Config} {a : Act Call} (h : Followed E i e P)
    (hA : Agree E) (he : E e) (hplain : e.isReplaceable = false) (hs : Threads.step P a = some Q)
    (hcall : ∀ y, a = .call (.insert y) → E y) (hspare : a ≠ .call (.remove e.id) ∧ a ≠ .call (.deleteById e.id)) :
    Followed E i e Q :=
  ⟨h.toCalm.step hA he hplain hs hcall, (h.spared.step h.events h.plain hA he hs hspare).1,
    h.underway.step h.events h.plain h.spared hA he hplain hs hspare⟩

/-- However inserts, removals and deletions are interleaved before and after it, and
whatever is still in progress: the event of an `insert` that has returned `Inserted` is
found by its id, and a query of each of its sets returns it, or as many events as it was
asked for that all come before it. -/
theorem stored_visible {as bs : List (Act Call)} {P Q : Config} {e : Event}
    (hA : Agree (Called (as ++ .call (.insert e) :: bs))) (hP : Machine.run step init as = some P)
    (hrest : ∀ pc ∈ P.threads, pc.clears e.id = false ∧ pc.fills e.id = false) (hplain : e.isReplaceable = false)
    (hspare : ∀ a ∈ bs, a ≠ .call (.remove e.id) ∧ a ≠ .call (.deleteById e.id))
    (hQ : Machine.run step P (.call (.insert e) :: bs) = some Q) {r : Option Event}
    (hdone : Q.threads[P.threads.length]? = some (.done (.inserted (.inserted r)))) :
    (∃ x, Q.shared.idx.get e.id = some x ∧ x.id = e.id) ∧ ∀ b ∈ e.buckets, ∀ limit,
      (∃ y ∈ Q.shared.idx.query b limit, y.id = e.id) ∨
        (Q.shared.idx.query b limit).length = limit ∧ ∀ y ∈ Q.shared.idx.query b limit, y.Beats e := by
  let E := Called (as ++ .call (.insert e) :: bs)
  have he : E e := List.mem_append_right as List.mem_cons_self
  have hbefore : Calm E e P := by
    refine Machine.run_invariant_mem (I := Calm E e) (fun _ _ _ hs ha hI => ?_) hP
        ⟨eventsIn_init E, plain_init e.id⟩
    exact hI.step hA he hplain hs fun y hy => List.mem_append_left _ (hy ▸ ha)
  have hstart : Spared e P := by
    refine ⟨fun pc hpc => (hrest pc hpc).1, fun pc hpc hf => ?_, fun pc hpc y cs hy hid => ?_⟩
    · rw [(hrest pc hpc).2] at hf
      cases hf
    · have hno := (hrest pc hpc).2
      unfold Pc.fills at hno
      rw [hy] at hno
      exact absurd hid (of_decide_eq_false hno)
  have hseen : Underway P.threads.length e Q := by
    obtain ⟨R, hR, hQ⟩ := (Machine.run_cons_eq_some _).1 hQ
    have hW : Followed E P.threads.length e R := by
      refine ⟨hbefore.step hA he hplain hR fun y hy => ?_,
        (hstart.step hbefore.events hbefore.plain hA he hR ⟨nofun, nofun⟩).1, ?_⟩
      · cases hy
        exact he
      · cases hR
        exact Or.inl ⟨_, List.getElem?_concat_length, rfl⟩
    refine (Machine.run_invariant_mem (I := Followed E P.threads.length e)
        (fun _ a _ hs ha hI => ?_) hQ hW).underway
    exact hI.step hA he hplain hs (fun y hy => List.mem_append_right as (List.mem_cons_of_mem _ (hy ▸ ha)))
        (hspare a ha)
  obtain ⟨hI, hS⟩ : EventsIn E Q ∧ SetsIn E Q := by
    refine run_setsIn (as ++ .call (.insert e) :: bs) (fun y hy => hy) ?_
    rw [Machine.run_append, hP]
    exact hQ
  rcases hseen with ⟨pc, hpc, hins⟩ | ⟨hlive, hholds⟩
  · rw [hdone] at hpc
    cases hpc
    cases hins
  · refine ⟨?_, fun b hb limit => ?_⟩
    · obtain ⟨x, hx⟩ := Option.isSome_iff_exists.1 hlive
      exact ⟨x, hx, (hI.live e.id x hx).2⟩
    · obtain ⟨y, hy, hid⟩ := holds_iff.1 (hholds b hb)
      have hsame := hA y e (hS.inSets b y hy).1 he hid
      refine (mem_take_or (hS.sorted b) hy limit).imp (fun hmem => ⟨y, hmem, hid⟩) fun hnewer =>
          ⟨hnewer.1, fun z hz => ?_⟩
      have hbeats := hnewer.2 z hz
      unfold Event.Beats at hbeats ⊢
      rwa [hsame.createdAt, hid] at hbeats

/-- Beside the insert, the same note with another text is stored, and another id removed. -/
def besideInsert : List (Act Call) :=
  .call (.insert (note 1)) :: .call (.remove versionA.id) :: steps 0 5 ++ steps 1 2 ++ .step 2 :: steps 0 4

theorem called_besideInsert {y : Event} (h : Called ([] ++ .call (.insert (note 0)) :: besideInsert) y) :
    y = note 0 ∨ y = note 1 := by
  simpa [Called, besideInsert, steps] using h

theorem stored_visible_beside : ∃ Q, Machine.run step init (.call (.insert (note 0)) :: besideInsert) = some Q ∧
    Q.threads[0]? = some (.done (.inserted (.inserted none))) ∧
    (∃ x, Q.shared.idx.get (note 0).id = some x ∧ x.id = (note 0).id) ∧ ∀ b ∈ (note 0).buckets, ∀ limit,
      (∃ y ∈ Q.shared.idx.query b limit, y.id = (note 0).id) ∨
        (Q.shared.idx.query b limit).length = limit ∧ ∀ y ∈ Q.shared.idx.query b limit, y.Beats (note 0) := by
  obtain ⟨Q, hQ, hp⟩ := Machine.exists_run step init (.call (.insert (note 0)) :: besideInsert) (fun Q : Config =>
    decide (Q.threads[0]? = some (Pc.done (Result.inserted (InsertOutcome.inserted none))))) (by decide +kernel)
  have hdone := of_decide_eq_true hp
  have hA : Agree (Called ([] ++ .call (.insert (note 0)) :: besideInsert)) := by
    intro a b ha hb _
    rcases called_besideInsert ha with rfl | rfl <;> rcases called_besideInsert hb with rfl | rfl <;>
      exact note_sameFields _ _
  have hspare : ∀ a ∈ besideInsert, a ≠ .call (.remove (note 0).id) ∧ a ≠ .call (.deleteById (note 0).id) := by
    decide +kernel
  exact ⟨Q, hQ, hdone, stored_visible hA rfl (fun pc hpc => by cases hpc) rfl hspare hQ hdone⟩

end Threads
end Memlay
