import Memlay.ThreadTombs
import Mathlib.Data.List.Nodup

/-!
# The tombstone queue under concurrent deletions

`Tombstones::insert` puts the id into the map, then takes the mutex of the queue, pushes the
id, drops the oldest ids while there are too many, and stores the size of the map.  Another
deletion may put its id into the map at any time between, without the mutex, so the map may
have ids that are not queued yet and the stored count may be old.

    tombs_exact        no call in progress: queue and map have the same ids, each once, the
                       count is their number, and there are at most `MAX_TOMBSTONES`;
                       at any time the map has at most one id more for each insertion under way
    deletion_kept      with at most `MAX_TOMBSTONES` deletions, what a `delete_by_id` that has
                       returned has tombstoned stays so
-/

namespace Memlay
namespace Threads

open Pool Index

/-- The id that is in the map and not queued yet. -/
def Pc.pushing : Pc → Option Bytes32
  | .tombPush id _ => some id
  | _ => none

/-- The call has the mutex of the queue. -/
def Pc.queueing : Pc → Bool
  | .tombEvict _ | .tombStore _ => true
  | _ => false

def Pc.evicting : Pc → Bool
  | .tombEvict _ => true
  | _ => false

/-- The call is in `Tombstones::insert`, with an id that is new to the map. -/
def Pc.tombing : Pc → Bool
  | .tombPush _ _ | .tombEvict _ | .tombStore _ => true
  | _ => false

/-- What a step does to the tombstones and to the mutex. -/
inductive TombStep (i : Nat) (s : Shared) : Pc → Shared → Pc → Prop
  | other {pc pc' : Pc} {s' : Shared} (hpc : pc.tombing = false) (hpc' : pc'.tombing = false)
      (ht : s'.idx.tombstones = s.idx.tombstones) (hq : s'.queue = s.queue) : TombStep i s pc s' pc'
  | put {s' : Shared} (id : Bytes32) (r : Option Event) (hnew : id ∉ s.idx.tombstones.ids)
      (ht : s'.idx.tombstones = { s.idx.tombstones with ids := insert id s.idx.tombstones.ids })
      (hq : s'.queue = s.queue) : TombStep i s (.tombPut id r) s' (.tombPush id r)
  | push {s' : Shared} (id : Bytes32) (r : Option Event) (hfree : s.queue = none)
      (ht : s'.idx.tombstones = { s.idx.tombstones with order := s.idx.tombstones.order ++ [id] })
      (hq : s'.queue = some i) : TombStep i s (.tombPush id r) s' (.tombEvict r)
  | evict {s' : Shared} (r : Option Event) (id : Bytes32) (order : List Bytes32)
      (horder : s.idx.tombstones.order = id :: order) (hlen : maxTombstones < (id :: order).length)
      (ht : s'.idx.tombstones =
        { s.idx.tombstones with order := order, ids := s.idx.tombstones.ids.erase id })
      (hq : s'.queue = s.queue) : TombStep i s (.tombEvict r) s' (.tombEvict r)
  | evicted {s' : Shared} (r : Option Event) (hlen : s.idx.tombstones.order.length ≤ maxTombstones)
      (ht : s'.idx.tombstones = s.idx.tombstones) (hq : s'.queue = s.queue) :
      TombStep i s (.tombEvict r) s' (.tombStore r)
  | store {s' : Shared} (r : Option Event)
      (ht : s'.idx.tombstones = { s.idx.tombstones with count := s.idx.tombstones.ids.card })
      (hq : s'.queue = none) : TombStep i s (.tombStore r) s' (.done (.removed r))

theorem tombing_afterTombs (e : Event) : (afterTombs e).tombing = false := by
  unfold afterTombs
  split <;> rfl

theorem queue_return {s : Shared} {r : Option Event} (c : Caller) : (return' s r c).1.queue = s.queue := by
  cases c <;> rfl

theorem tombing_return {s : Shared} {r : Option Event} (c : Caller) : (return' s r c).2.tombing = false := by
  cases c <;> rfl

theorem tombStep_of_move {i : Nat} {s s' : Shared} {pc pc' : Pc} (h : move i s pc = some (s', pc')) :
    TombStep i s pc s' pc' := by
  have hother : pc.tombing = false → (∀ id r, pc ≠ .tombPut id r) → TombStep i s pc s' pc' := by
    intro hpc hput
    have htombs : s'.idx.tombstones = s.idx.tombstones := by
      rcases tombstones_of_moves (move_cases h) with heq | ⟨id, r, rfl⟩ | ⟨id, r, rfl⟩ | ⟨r, rfl⟩ | ⟨r, rfl⟩
      · exact heq
      · exact absurd rfl (hput id r)
      · cases hpc
      · cases hpc
      · cases hpc
    cases move_cases h with
    | tomb _ _ t q h₁ h₂ =>
      rcases h₁ with ⟨id, r, rfl⟩ | ⟨id, r, rfl⟩ | ⟨r, rfl⟩ | ⟨r, rfl⟩
      · exact absurd rfl (hput id r)
      · cases hpc
      · cases hpc
      · cases hpc
    | noTombs e ht => exact .other rfl (tombing_afterTombs e) rfl rfl
    | untombed e ht => exact .other rfl (tombing_afterTombs e) rfl rfl
    | rmMissing c id hl => exact .other rfl (tombing_return c) htombs (queue_return c)
    | rmReturn c x => exact .other rfl (tombing_return c) htombs (queue_return c)
    | _ => exact .other rfl rfl htombs rfl
  cases pc with
  | tombPut id r =>
    simp only [move] at h
    split at h
    · cases h
      exact .other rfl rfl rfl rfl
    · rename_i hnew
      cases h
      exact .put id r hnew rfl rfl
  | tombPush id r =>
    simp only [move] at h
    split at h
    · cases h
    · rename_i hfree
      cases h
      exact .push id r (by simpa using hfree) rfl rfl
  | tombEvict r =>
    simp only [move] at h
    split at h
    · rename_i horder
      cases h
      exact .evicted r (by rw [horder]; exact Nat.zero_le _) rfl rfl
    · rename_i id order horder
      split at h
      · rename_i hlen
        cases h
        exact .evict r id order horder hlen rfl rfl
      · rename_i hlen
        cases h
        exact .evicted r (by rw [horder]; omega) rfl rfl
  | tombStore r =>
    cases h
    exact .store r rfl rfl
  | _ => exact hother rfl fun _ _ => Pc.noConfusion

/-! ## Queue and map -/

def Pc.pushes (id : Bytes32) (pc : Pc) : Nat := if pc.pushing = some id then 1 else 0

def Pc.evicts (pc : Pc) : Nat := if pc.evicting then 1 else 0

structure QueueInv (P : Config) : Prop where
  /-- an id of the map is queued once or about to be -/
  once : ∀ id, P.shared.idx.tombstones.order.count id + (P.threads.map (Pc.pushes id)).sum =
    if id ∈ P.shared.idx.tombstones.ids then 1 else 0
  mutex : ∀ i pc, P.threads[i]? = some pc → pc.queueing = true → P.shared.queue = some i
  length : P.shared.idx.tombstones.order.length ≤ maxTombstones + (P.threads.map Pc.evicts).sum
  count : (∀ pc ∈ P.threads, pc.tombing = false) → P.shared.idx.tombstones.count = P.shared.idx.tombstones.ids.card

theorem queueInv_init : QueueInv init where
  once := fun _ => rfl
  mutex := fun _ _ h => by cases h
  length := Nat.zero_le _
  count := fun _ => rfl

theorem pushes_of_not_tombing {pc : Pc} (h : pc.tombing = false) (id : Bytes32) : pc.pushes id = 0 := by
  cases pc with
  | tombPush x r => cases h
  | _ => rfl

theorem evicts_of_not_tombing {pc : Pc} (h : pc.tombing = false) : pc.evicts = 0 := by
  cases pc with
  | tombEvict r => cases h
  | _ => rfl

theorem queueing_of_not_tombing {pc : Pc} (h : pc.tombing = false) : pc.queueing = false := by
  cases pc with
  | tombEvict r => cases h
  | tombStore r => cases h
  | _ => rfl

theorem tombing_start (c : Call) : (start c).tombing = false := by
  cases c <;> rfl

theorem QueueInv.call {P : Config} (h : QueueInv P) (c : Call) : QueueInv ⟨P.shared, P.threads ++ [start c]⟩ := by
  refine ⟨fun id => ?_, fun i pc hi hpc => ?_, ?_, fun hall => ?_⟩
  · show _ + ((P.threads ++ [start c]).map (Pc.pushes id)).sum = _
    rw [List.map_append, List.sum_append, List.map_singleton, List.sum_singleton,
      pushes_of_not_tombing (tombing_start c), Nat.add_zero]
    exact h.once id
  · rcases Pool.get_concat hi with hi | ⟨-, rfl⟩
    · exact h.mutex i pc hi hpc
    · rw [queueing_of_not_tombing (tombing_start c)] at hpc
      cases hpc
  · show _ ≤ _ + ((P.threads ++ [start c]).map Pc.evicts).sum
    rw [List.map_append, List.sum_append]
    exact h.length.trans (Nat.add_le_add_left (Nat.le_add_right _ _) _)
  · exact h.count fun pc hpc => hall pc (List.mem_append_left _ hpc)

section
variable {P : Config} {i : Nat} {pc pc' : Pc} {s' : Shared}

theorem QueueInv.mutex_step (h : QueueInv P) (hi : P.threads[i]? = some pc) (hs : TombStep i P.shared pc s' pc') :
    ∀ j q, (P.threads.set i pc')[j]? = some q → q.queueing = true → s'.queue = some j := by
  intro j q hj hq
  rcases Pool.get_set hi hj with ⟨rfl, rfl⟩ | ⟨hne, hj⟩
  · cases hs with
    | other hpc hpc' ht hqu =>
      rw [queueing_of_not_tombing hpc'] at hq
      cases hq
    | put id r hnew ht hqu => cases hq
    | push id r hfree ht hqu => exact hqu
    | evict r id order horder hlen ht hqu => exact hqu.trans (h.mutex j _ hi rfl)
    | evicted r hlen ht hqu => exact hqu.trans (h.mutex j _ hi rfl)
    | store r ht hqu => cases hq
  · have hbefore := h.mutex j q hj hq
    cases hs with
    | other hpc hpc' ht hqu => exact hqu.trans hbefore
    | put id r hnew ht hqu => exact hqu.trans hbefore
    | push id r hfree ht hqu =>
      rw [hfree] at hbefore
      cases hbefore
    | evict r id order horder hlen ht hqu => exact hqu.trans hbefore
    | evicted r hlen ht hqu => exact hqu.trans hbefore
    | store r ht hqu =>
      -- two threads cannot both have the mutex
      have hmine := h.mutex i _ hi rfl
      rw [hbefore] at hmine
      exact absurd (Option.some.inj hmine) hne

theorem QueueInv.once_step (h : QueueInv P) (hi : P.threads[i]? = some pc) (hs : TombStep i P.shared pc s' pc')
    (id : Bytes32) :
    s'.idx.tombstones.order.count id + ((P.threads.set i pc').map (Pc.pushes id)).sum =
      if id ∈ s'.idx.tombstones.ids then 1 else 0 := by
  have hsum := Pool.sum_set (Pc.pushes id) pc' hi
  have hold := h.once id
  cases hs with
  | other hpc hpc' ht hqu =>
    rw [pushes_of_not_tombing hpc, pushes_of_not_tombing hpc'] at hsum
    rw [ht]
    omega
  | put x r hnew ht hqu =>
    rw [ht]
    dsimp only
    by_cases hx : x = id
    · subst hx
      have hone : Pc.pushes x (.tombPush x r) = 1 := if_pos rfl
      have hzero : Pc.pushes x (.tombPut x r) = 0 := rfl
      rw [if_neg hnew] at hold
      rw [if_pos (Finset.mem_insert_self x _)]
      omega
    · have hzero : Pc.pushes id (.tombPush x r) = 0 := if_neg fun heq => hx (Option.some.inj heq)
      have hzero' : Pc.pushes id (.tombPut x r) = 0 := rfl
      have hmem : id ∈ insert x P.shared.idx.tombstones.ids ↔ id ∈ P.shared.idx.tombstones.ids := by
        rw [Finset.mem_insert]
        exact or_iff_right fun heq => hx heq.symm
      simp only [hmem]
      omega
  | push x r hfree ht hqu =>
    rw [ht]
    dsimp only
    have hzero : Pc.pushes id (.tombEvict r) = 0 := rfl
    have hcount : (P.shared.idx.tombstones.order ++ [x]).count id =
        P.shared.idx.tombstones.order.count id + Pc.pushes id (.tombPush x r) := by
      rw [List.count_append, List.count_singleton]
      unfold Pc.pushes Pc.pushing
      simp only [beq_iff_eq, Option.some.injEq]
    rw [hcount]
    omega
  | evict r x order horder hlen ht hqu =>
    rw [ht]
    have hsame : ((P.threads.set i (.tombEvict r)).map (Pc.pushes id)).sum =
        (P.threads.map (Pc.pushes id)).sum := by
      omega
    rw [horder, List.count_cons] at hold
    rw [hsame]
    by_cases hx : x = id
    · subst hx
      rw [if_neg (Finset.notMem_erase x _)]
      rw [if_pos (beq_self_eq_true x)] at hold
      have hle : (if x ∈ P.shared.idx.tombstones.ids then 1 else 0) ≤ 1 := by
        split <;> omega
      show order.count x + _ = 0
      omega
    · rw [if_neg (by simpa using hx)] at hold
      have hmem : id ∈ P.shared.idx.tombstones.ids.erase x ↔ id ∈ P.shared.idx.tombstones.ids := by
        rw [Finset.mem_erase]
        exact and_iff_right fun heq => hx heq.symm
      simp only [hmem]
      exact hold
  | evicted r hlen ht hqu =>
    have hzero : Pc.pushes id (.tombEvict r) = 0 := rfl
    have hzero' : Pc.pushes id (.tombStore r) = 0 := rfl
    rw [ht]
    omega
  | store r ht hqu =>
    have hzero : Pc.pushes id (.tombStore r) = 0 := rfl
    have hzero' : Pc.pushes id (.done (.removed r)) = 0 := rfl
    rw [ht]
    dsimp only
    omega

/-- Nobody drops ids while the mutex is free. -/
theorem QueueInv.evicts_of_free (h : QueueInv P) (hfree : P.shared.queue = none) :
    (P.threads.map Pc.evicts).sum = 0 := by
  refine List.sum_eq_zero_iff_forall_eq_nat.2 fun n hn => ?_
  obtain ⟨pc, hpc, rfl⟩ := List.mem_map.1 hn
  cases pc with
  | tombEvict r =>
    obtain ⟨j, hj⟩ := List.getElem?_of_mem hpc
    have hmutex := h.mutex j _ hj rfl
    rw [hfree] at hmutex
    cases hmutex
  | _ => rfl

theorem QueueInv.length_step (h : QueueInv P) (hi : P.threads[i]? = some pc) (hs : TombStep i P.shared pc s' pc') :
    s'.idx.tombstones.order.length ≤ maxTombstones + ((P.threads.set i pc').map Pc.evicts).sum := by
  have hsum := Pool.sum_set Pc.evicts pc' hi
  have hold := h.length
  cases hs with
  | other hpc hpc' ht hqu =>
    rw [evicts_of_not_tombing hpc, evicts_of_not_tombing hpc'] at hsum
    rw [ht]
    omega
  | put x r hnew ht hqu =>
    have hzero : Pc.evicts (.tombPut x r) = 0 := rfl
    have hzero' : Pc.evicts (.tombPush x r) = 0 := rfl
    rw [ht]
    show P.shared.idx.tombstones.order.length ≤ _
    omega
  | push x r hfree ht hqu =>
    have hzero : Pc.evicts (.tombPush x r) = 0 := rfl
    have hone : Pc.evicts (.tombEvict r) = 1 := rfl
    rw [h.evicts_of_free hfree] at hold hsum
    rw [ht]
    show (P.shared.idx.tombstones.order ++ [x]).length ≤ _
    rw [List.length_append, List.length_singleton]
    omega
  | evict r x order horder hlen ht hqu =>
    rw [horder, List.length_cons] at hold
    rw [ht]
    show order.length ≤ _
    omega
  | evicted r hlen ht hqu =>
    rw [ht]
    exact hlen.trans (Nat.le_add_right _ _)
  | store r ht hqu =>
    have hzero : Pc.evicts (.tombStore r) = 0 := rfl
    have hzero' : Pc.evicts (.done (.removed r)) = 0 := rfl
    rw [ht]
    show P.shared.idx.tombstones.order.length ≤ _
    omega

theorem QueueInv.count_step (h : QueueInv P) (hi : P.threads[i]? = some pc) (hs : TombStep i P.shared pc s' pc')
    (hall : ∀ q ∈ P.threads.set i pc', q.tombing = false) :
    s'.idx.tombstones.count = s'.idx.tombstones.ids.card := by
  have hmine : pc'.tombing = false := hall _ (Pool.mem_set_self pc' hi)
  cases hs with
  | other hpc hpc' ht hqu =>
    rw [ht]
    refine h.count fun q hq => ?_
    cases hb : q.tombing with
    | false => rfl
    | true =>
      rcases Pool.exists_set (R := fun p => p.tombing = true) pc' hi ⟨q, hq, hb⟩ with hcon | ⟨p, hp, hcon⟩
      · rw [hpc] at hcon
        cases hcon
      · rw [hall p hp] at hcon
        cases hcon
  | put x r hnew ht hqu => cases hmine
  | push x r hfree ht hqu => cases hmine
  | evict r x order horder hlen ht hqu => cases hmine
  | evicted r hlen ht hqu => cases hmine
  | store r ht hqu => rw [ht]

end

theorem QueueInv.step {P Q : Config} {a : Act Call} (h : QueueInv P) (hstep : Threads.step P a = some Q) :
    QueueInv Q := by
  rcases Pool.step_cases hstep with ⟨c, rfl, rfl⟩ | ⟨i, pc, s', pc', rfl, hi, hm, rfl⟩
  · exact h.call c
  · have hs := tombStep_of_move hm
    exact ⟨h.once_step hi hs, h.mutex_step hi hs, h.length_step hi hs, h.count_step hi hs⟩

theorem queueInv_run {as : List (Act Call)} {P : Config} (h : Machine.run step init as = some P) : QueueInv P :=
  Machine.run_invariant (C := fun _ _ => True) (I := QueueInv) (fun _ _ _ hs _ hI => hI.step hs) as _ P h
    (Machine.along_of_forall as _ fun _ _ _ => trivial) queueInv_init

/-- Every id of the map is queued, or some call is about to queue it. -/
theorem QueueInv.mem_order {P : Config} (h : QueueInv P) {id : Bytes32} (hid : id ∈ P.shared.idx.tombstones.ids) :
    id ∈ P.shared.idx.tombstones.order ∨ ∃ pc ∈ P.threads, pc.pushing = some id := by
  have hone := h.once id
  rw [if_pos hid] at hone
  by_contra hcon
  rw [not_or] at hcon
  have hzero : (P.threads.map (Pc.pushes id)).sum = 0 := by
    refine List.sum_eq_zero_iff_forall_eq_nat.2 fun n hn => ?_
    obtain ⟨pc, hpc, rfl⟩ := List.mem_map.1 hn
    exact if_neg fun heq => hcon.2 ⟨pc, hpc, heq⟩
  rw [List.count_eq_zero.2 hcon.1] at hone
  omega

theorem length_pushing_add (threads : List Pc) :
    (threads.filterMap Pc.pushing).length + (threads.map Pc.evicts).sum ≤ threads.countP Pc.tombing := by
  induction threads with
  | nil => exact le_rfl
  | cons pc threads ih =>
    rw [List.map_cons, List.sum_cons, List.countP_cons, List.filterMap_cons]
    cases pc with
    | tombPush id r =>
      simp only [Pc.pushing, Pc.evicts, Pc.evicting, Pc.tombing, List.length_cons, if_true,
          Bool.false_eq_true, if_false]
      omega
    | tombEvict r =>
      simp only [Pc.pushing, Pc.evicts, Pc.evicting, Pc.tombing, if_true]
      omega
    | _ =>
      simp only [Pc.pushing, Pc.evicts, Pc.evicting, Pc.tombing, Bool.false_eq_true, if_false]
      omega

/-- In every state of every interleaving of inserts, removals and deletions the map of the
tombstones has at most `MAX_TOMBSTONES` ids and one for each insertion of a tombstone that
is under way; with no call in progress the queue has exactly the ids of the map, each once,
and the count is their number. -/
theorem tombs_exact {as : List (Act Call)} {P : Config} (h : Machine.run step init as = some P) :
    P.shared.idx.tombstones.ids.card ≤ maxTombstones + P.threads.countP Pc.tombing ∧
      (Quiescent P → P.shared.idx.tombstones.order.Nodup ∧
        P.shared.idx.tombstones.order.toFinset = P.shared.idx.tombstones.ids ∧
        P.shared.idx.tombstones.count = P.shared.idx.tombstones.ids.card ∧
        P.shared.idx.tombstones.ids.card ≤ maxTombstones) := by
  have hinv := queueInv_run h
  have hbound : P.shared.idx.tombstones.ids.card ≤ maxTombstones + P.threads.countP Pc.tombing := by
    have hsub : P.shared.idx.tombstones.ids ⊆
        (P.shared.idx.tombstones.order ++ P.threads.filterMap Pc.pushing).toFinset := by
      intro id hid
      rw [List.mem_toFinset, List.mem_append]
      exact (hinv.mem_order hid).imp_right fun ⟨pc, hpc, hpush⟩ => List.mem_filterMap.2 ⟨pc, hpc, hpush⟩
    have hcard := (Finset.card_le_card hsub).trans (List.toFinset_card_le _)
    rw [List.length_append] at hcard
    have hlen := hinv.length
    have hpush := length_pushing_add P.threads
    omega
  refine ⟨hbound, fun hq => ?_⟩
  have hrest : ∀ pc ∈ P.threads, pc.tombing = false := by
    intro pc hpc
    obtain ⟨r, rfl⟩ := hq pc hpc
    rfl
  have hnone : P.threads.countP Pc.tombing = 0 := by
    refine List.countP_eq_zero.2 fun pc hpc => ?_
    rw [hrest pc hpc]
    exact Bool.false_ne_true
  refine ⟨List.nodup_iff_count_le_one.2 fun id => ?_, ?_, hinv.count hrest, by rwa [hnone] at hbound⟩
  · have hone := hinv.once id
    have hle : (if id ∈ P.shared.idx.tombstones.ids then 1 else 0) ≤ 1 := by
      split <;> omega
    omega
  · ext id
    rw [List.mem_toFinset]
    constructor
    · intro hid
      have hone := hinv.once id
      have hpos := List.count_pos_iff.2 hid
      by_contra hcon
      rw [if_neg hcon] at hone
      omega
    · intro hid
      refine (hinv.mem_order hid).resolve_right ?_
      rintro ⟨pc, hpc, hpush⟩
      obtain ⟨r, rfl⟩ := hq pc hpc
      cases hpush

/-- Two deletions of one id and one of another, step by step in turn. -/
def deleteTogether : List (Act Call) :=
  [.call (.deleteById 7), .call (.deleteById 7), .call (.deleteById 8)] ++
    [.step 0, .step 1, .step 2, .step 0, .step 1, .step 2, .step 2, .step 2, .step 2, .step 0, .step 0, .step 0]

theorem tombs_exact_together :
    ∃ P, Machine.run step init deleteTogether = some P ∧ Quiescent P ∧
      P.shared.idx.tombstones.order.toFinset = P.shared.idx.tombstones.ids ∧
      P.shared.idx.tombstones.count = P.shared.idx.tombstones.ids.card := by
  obtain ⟨P, hP, h⟩ := Machine.exists_run step init deleteTogether (fun P => decide (Quiescent P))
      (by decide +kernel)
  have hexact := (tombs_exact hP).2 (of_decide_eq_true h)
  exact ⟨P, hP, of_decide_eq_true h, hexact.2.1, hexact.2.2.1⟩

/-! ## What is deleted stays tombstoned -/

def Act.deletes : Act Call → Option Bytes32
  | .call (.deleteById id) => some id
  | _ => none

/-- The ids a run deletes. -/
def deletedIds (as : List (Act Call)) : Finset Bytes32 := (as.filterMap Act.deletes).toFinset

/-- The id the call is going to put into the map. -/
def Pc.owes : Pc → Option Bytes32
  | .rmById (.delete id) _ => some id
  | pc => pc.deleting

/-- Only ids of `D` are tombstoned, or on their way to be. -/
structure Within (D : Finset Bytes32) (P : Config) : Prop where
  ids : P.shared.idx.tombstones.ids ⊆ D
  owes : ∀ pc ∈ P.threads, ∀ id, pc.owes = some id → id ∈ D

section
variable {i : Nat} {s s' : Shared} {pc pc' : Pc}

theorem owes_afterTombs (e : Event) : (afterTombs e).owes = none := by
  unfold afterTombs
  split <;> rfl

/-- A call that owes an id goes on owing it, or has put it into the map. -/
theorem owes_of_move (h : move i s pc = some (s', pc')) {id : Bytes32} (hid : pc.owes = some id) :
    pc'.owes = some id ∨ id ∈ s'.idx.tombstones.ids := by
  cases hpc : pc with
  | tombPut x r =>
    subst hpc
    cases hid
    simp only [move] at h
    split at h
    · rename_i hmem
      cases h
      exact Or.inr hmem
    · cases h
      exact Or.inr (Finset.mem_insert_self _ _)
  | rmById c x =>
    subst hpc
    cases c with
    | remove => cases hid
    | swap e => cases hid
    | delete y =>
      simp only [move] at h
      split at h
      · cases h
        exact Or.inl hid
      · cases h
        exact Or.inl hid
  | rmMemory c x =>
    subst hpc
    cases h
    cases c <;> exact Or.inl hid
  | rmCount c x =>
    subst hpc
    cases h
    cases c with
    | remove => cases hid
    | swap e => cases hid
    | delete y =>
      split <;> exact Or.inl hid
  | rmSlot c x =>
    subst hpc
    simp only [move] at h
    split at h
    · cases h
    · cases h
      cases c <;> exact Or.inl hid
  | rmSets c x bs =>
    subst hpc
    cases c with
    | remove => cases hid
    | swap e => cases hid
    | delete y =>
      cases bs with
      | nil =>
        cases h
        exact Or.inl hid
      | cons b bs =>
        cases h
        exact Or.inl hid
  | _ =>
    subst hpc
    cases hid

/-- Only a call that owes an id goes on to owe one. -/
theorem owes_before (h : Moves i s pc s' pc') {id : Bytes32} (hid : pc'.owes = some id) : pc.owes = some id := by
  cases h with
  | noTombs e ht =>
    rw [owes_afterTombs] at hid
    cases hid
  | untombed e ht =>
    rw [owes_afterTombs] at hid
    cases hid
  | swaps e oldId => cases hid
  | rmMissing c y hl => cases c <;> exact hid
  | rmFound c y x hx => cases c <;> exact hid
  | rmMemory c x => cases c <;> exact hid
  | rmCountSlot c x hd => cases c <;> exact hid
  | rmCountSets c x hd => cases c <;> exact hid
  | rmSlot c x hg => cases c <;> exact hid
  | rmSet c x b bs => cases c <;> exact hid
  | rmReturn c x => cases c <;> exact hid
  | tomb _ _ t q h₁ h₂ => rcases h₂ with ⟨_, _, rfl⟩ | ⟨_, rfl⟩ | ⟨_, rfl⟩ | ⟨_, rfl⟩ <;> cases hid
  | _ => cases hid

end

section
variable {P Q : Config} {D : Finset Bytes32}

theorem within_init (D : Finset Bytes32) : Within D init :=
  ⟨Finset.empty_subset D, fun _ h => (List.not_mem_nil h).elim⟩

/-- The step lemma. -/
theorem Within.step {a : Act Call} (h : Within D P) (hs : Threads.step P a = some Q)
    (ha : ∀ id, a = .call (.deleteById id) → id ∈ D) : Within D Q := by
  rcases Pool.step_cases hs with ⟨c, rfl, rfl⟩ | ⟨i, pc, s', pc', rfl, hi, hm, rfl⟩
  · refine ⟨h.ids, fun pc hpc id hid => ?_⟩
    rcases List.mem_append.1 hpc with hpc | hpc
    · exact h.owes pc hpc id hid
    · rw [List.mem_singleton.1 hpc] at hid
      cases c with
      | deleteById id' =>
        cases hid
        exact ha id rfl
      | _ => cases hid
  · have howed : ∀ id, pc.owes = some id → id ∈ D := h.owes pc (List.mem_of_getElem? hi)
    refine ⟨?_, fun q hq id hid => ?_⟩
    · show s'.idx.tombstones.ids ⊆ D
      cases tombStep_of_move hm with
      | put x r hnew ht hqu =>
        rw [ht]
        exact Finset.insert_subset (howed x rfl) h.ids
      | evict r x order horder hlen ht hqu =>
        rw [ht]
        exact (Finset.erase_subset _ _).trans h.ids
      | other _ _ ht | push _ _ _ ht | evicted _ _ ht | store _ ht =>
        rw [ht]
        exact h.ids
    · rcases List.mem_or_eq_of_mem_set hq with hq | rfl
      · exact h.owes q hq id hid
      · exact howed id (owes_before (move_cases hm) hid)

theorem Within.run {as : List (Act Call)} (h : Within D P) (hrun : Machine.run Threads.step P as = some Q)
    (has : deletedIds as ⊆ D) : Within D Q := by
  refine Machine.run_invariant_mem (I := Within D) (fun R a R' hs ha hI => hI.step hs ?_) hrun h
  rintro id rfl
  exact has (List.mem_toFinset.2 (List.mem_filterMap.2 ⟨_, ha, rfl⟩))

/-- Each id is queued once, so the queue is no longer than there are ids. -/
theorem QueueInv.length_order_le (h : QueueInv P) :
    P.shared.idx.tombstones.order.length ≤ P.shared.idx.tombstones.ids.card := by
  have hone : ∀ id, P.shared.idx.tombstones.order.count id ≤ if id ∈ P.shared.idx.tombstones.ids then 1 else 0 :=
    fun id => (Nat.le_add_right _ _).trans (h.once id).le
  have hnodup : P.shared.idx.tombstones.order.Nodup :=
    List.nodup_iff_count_le_one.2 fun id => (hone id).trans (by split <;> omega)
  rw [← List.toFinset_card_of_nodup hnodup]
  refine Finset.card_le_card fun id hid => ?_
  by_contra hcon
  have hle := hone id
  rw [if_neg hcon] at hle
  exact absurd (List.count_pos_iff.2 (List.mem_toFinset.1 hid)) (by omega)

/-- As long as there is room in the queue for all of them no tombstone is dropped. -/
theorem ids_step {a : Act Call} (h : step P a = some Q) (hinv : QueueInv P) (hin : Within D P)
    (hmax : D.card ≤ maxTombstones) : P.shared.idx.tombstones.ids ⊆ Q.shared.idx.tombstones.ids := by
  rcases Pool.step_cases h with ⟨c, rfl, rfl⟩ | ⟨i, pc, s', pc', rfl, hi, hm, rfl⟩
  · exact Finset.Subset.refl _
  · show P.shared.idx.tombstones.ids ⊆ s'.idx.tombstones.ids
    cases tombStep_of_move hm with
    | put x r hnew ht hqu =>
      rw [ht]
      exact Finset.subset_insert _ _
    | evict r x order horder hlen ht hqu =>
      have hshort := hinv.length_order_le.trans (Finset.card_le_card hin.ids)
      rw [horder] at hshort
      omega
    | other _ _ ht | push _ _ _ ht | evicted _ _ ht | store _ ht => rw [ht]

/-- Call `i` is on its way to tombstone `id`, or it is done. -/
def Deleting (i : Nat) (id : Bytes32) (P : Config) : Prop :=
  (∃ pc, P.threads[i]? = some pc ∧ pc.owes = some id) ∨ id ∈ P.shared.idx.tombstones.ids

theorem Deleting.step {i : Nat} {id : Bytes32} {a : Act Call} (h : Deleting i id P)
    (hs : Threads.step P a = some Q)
    (hinv : QueueInv P) (hin : Within D P) (hmax : D.card ≤ maxTombstones) : Deleting i id Q := by
  have hids := ids_step hs hinv hin hmax
  rcases h with ⟨pc, hi, howes⟩ | hid
  · rcases Pool.step_cases hs with ⟨c, rfl, rfl⟩ | ⟨j, q, s', q', rfl, hj, hm, rfl⟩
    · obtain ⟨hlt, -⟩ := List.getElem?_eq_some_iff.1 hi
      exact Or.inl ⟨pc, (List.getElem?_append_left hlt).trans hi, howes⟩
    · by_cases hij : i = j
      · subst hij
        rw [hi] at hj
        cases hj
        exact (owes_of_move hm howes).imp_left fun hq => ⟨q', Pool.get_set_self q' hi, hq⟩
      · exact Or.inl ⟨pc, (Pool.get_set_ne q' hij).trans hi, howes⟩
  · exact Or.inr (hids hid)

/-- What a run that deletes only ids of `D` keeps, call `i` on its way. -/
structure Keeping (D : Finset Bytes32) (i : Nat) (id : Bytes32) (P : Config) : Prop where
  queue : QueueInv P
  within : Within D P
  deleting : Deleting i id P

theorem Keeping.run {i : Nat} {id : Bytes32} {as : List (Act Call)} (h : Keeping D i id P)
    (hrun : Machine.run Threads.step P as = some Q) (has : deletedIds as ⊆ D) (hmax : D.card ≤ maxTombstones) :
    Keeping D i id Q := by
  refine Machine.run_invariant_mem (I := Keeping D i id) (fun R a R' hs ha hI => ?_) hrun h
  refine ⟨hI.queue.step hs, hI.within.step hs ?_, hI.deleting.step hs hI.queue hI.within hmax⟩
  rintro id' rfl
  exact has (List.mem_toFinset.2 (List.mem_filterMap.2 ⟨_, ha, rfl⟩))

end

/-- However inserts, removals and deletions of at most `MAX_TOMBSTONES` ids are interleaved:
the id of a `delete_by_id` that has returned is in the map of the tombstones from then on,
and whenever no call is inside `Tombstones::insert` every insert of it would be refused. -/
theorem deletion_kept {as bs : List (Act Call)} {P Q : Config} {id : Bytes32}
    (hP : Machine.run step init as = some P)
    (hQ : Machine.run step P (.call (.deleteById id) :: bs) = some Q)
    (hmax : (deletedIds (as ++ .call (.deleteById id) :: bs)).card ≤ maxTombstones) {r : Result}
    (hdone : Q.threads[P.threads.length]? = some (.done r)) :
    id ∈ Q.shared.idx.tombstones.ids ∧
      ((∀ pc ∈ Q.threads, pc.tombing = false) → Q.shared.idx.isTombstoned id = true) := by
  let D := deletedIds (as ++ .call (.deleteById id) :: bs)
  have hbefore : deletedIds as ⊆ D := by
    intro x hx
    exact List.mem_toFinset.2 ((List.sublist_append_left as _).filterMap Act.deletes |>.subset
        (List.mem_toFinset.1 hx))
  have hafter : deletedIds (.call (.deleteById id) :: bs) ⊆ D := by
    intro x hx
    exact List.mem_toFinset.2 ((List.sublist_append_right as _).filterMap Act.deletes |>.subset
        (List.mem_toFinset.1 hx))
  obtain ⟨R, hR, hQ⟩ := (Machine.run_cons_eq_some _).1 hQ
  have hstart : Keeping D P.threads.length id R := by
    have hin : Within D P := (within_init D).run hP hbefore
    refine ⟨(queueInv_run hP).step hR, hin.step hR fun x hx => ?_, ?_⟩
    · cases hx
      exact hafter (List.mem_toFinset.2 List.mem_cons_self)
    · cases hR
      exact Or.inl ⟨_, List.getElem?_concat_length, rfl⟩
  have hend := hstart.run hQ (fun x hx =>
      hafter (List.mem_toFinset.2 (List.mem_cons_of_mem _ (List.mem_toFinset.1 hx)))) hmax
  have hid : id ∈ Q.shared.idx.tombstones.ids := by
    rcases hend.deleting with ⟨pc, hpc, howes⟩ | hid
    · rw [hdone] at hpc
      cases hpc
      cases howes
    · exact hid
  refine ⟨hid, fun hrest => ?_⟩
  have hcount := hend.queue.count hrest
  have hpos : 0 < Q.shared.idx.tombstones.ids.card := Finset.card_pos.2 ⟨id, hid⟩
  unfold Index.isTombstoned Tombstones.contains
  rw [Bool.and_eq_true]
  exact ⟨by simpa using (by omega : Q.shared.idx.tombstones.count ≠ 0), decide_eq_true hid⟩

/-- A note is stored, then deleted while another insert of it is under way. -/
def storeNote : List (Act Call) := .call (.insert (note 0)) :: steps 0 9

def deleteOver : List (Act Call) := .call (.insert (note 0)) :: .step 2 :: steps 1 11

theorem deletion_kept_over :
    ∃ P Q, Machine.run step init storeNote = some P ∧
      Machine.run step P (.call (.deleteById (note 0).id) :: deleteOver) = some Q ∧
      (note 0).id ∈ Q.shared.idx.tombstones.ids := by
  obtain ⟨P, hP, h⟩ := Machine.exists_run step init storeNote (fun P : Config => decide (P.threads.length = 1) &&
    (Machine.run step P (.call (.deleteById (note 0).id) :: deleteOver)).any fun Q : Config =>
      decide (Q.threads[1]? = some (Pc.done (Result.removed (some (note 0)))))) (by decide +kernel)
  obtain ⟨hone, hrun⟩ := Bool.and_eq_true_iff.1 h
  obtain ⟨Q, hQ, hdone⟩ := Machine.exists_run step P _ _ hrun
  have hthread : Q.threads[P.threads.length]? = some (Pc.done (Result.removed (some (note 0)))) := by
    rw [of_decide_eq_true hone]
    exact of_decide_eq_true hdone
  exact ⟨P, Q, hP, hQ, (deletion_kept hP hQ (by decide) hthread).1⟩

end Threads
end Memlay
