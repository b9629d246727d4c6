import Memlay.IndexBoard

/-!
# The order of arrival does not matter

Inserted one after another into an empty index, the events of a list leave every
event of the other kinds and, of each replacement key, the version no other beats:
the newest, a tie to the smaller id.  `insert` only ever compares the incoming
event with the holder of its slot; the index shows a board of registers
(`Shows`), and puts on a board leave the best of each slot (`replay_puts_iff`).
-/

namespace Memlay
namespace Index

def insertAll (s : Index) (es : List Event) : Index := es.foldl (fun s e => (s.insert e).2) s

/-- Of another kind, or no event of the list with its key is newer, or as new and
smaller in its id. -/
def Wins (es : List Event) (e : Event) : Prop :=
  e.isReplaceable = true → ∀ x ∈ es, x.replacementKey = e.replacementKey → ¬ x.Beats e

section
variable {E : Event → Prop} {fields : Bytes32 → Event} {s : Index} {b : Registers.Board Bytes32 Slot}

/-- The run lemma: the index shows the board after the same puts. -/
theorem Shows.insertAll (hF : Fields E fields) (hA : Agree E) {es : List Event} (hE : ∀ e ∈ es, E e)
    (h : Shows fields s b) (hI : Inv E s) :
    Shows fields (s.insertAll es) (Registers.replay (rules fields) b ((es.map Event.id).map .put)) ∧
      Inv E (s.insertAll es) := by
  induction es generalizing s b with
  | nil => exact ⟨h, hI⟩
  | cons e es ih =>
    have he := hE e (by simp)
    exact ih (fun x hx => hE x (List.mem_cons_of_mem e hx)) (h.insert hF hI hA he).1 (hI.insert hA he)

end

section
variable {es : List Event}

theorem wins_iff_board {fields : Bytes32 → Event} (hF : Fields (· ∈ es) fields) {e : Event} (he : e ∈ es) :
    Wins es e ↔ ∀ id ∈ es.map Event.id, (rules fields).key id = (rules fields).key e.id →
      ¬ (rules fields).beats id e.id := by
  constructor
  · intro hw id hid hk hb
    obtain ⟨x, hx, rfl⟩ := List.mem_map.1 hid
    rcases (hF.key_eq_iff hx he).1 hk with hid | ⟨hr, hkey⟩
    · exact (rules fields).irrefl e.id (by rwa [hid] at hb)
    · exact hw hr x hx hkey ((hF.beats_iff hx he).1 hb)
  · intro hall hr x hx hkey hb
    exact hall x.id (List.mem_map_of_mem hx) ((hF.key_eq_iff hx he).2 (Or.inr ⟨hr, hkey⟩))
      ((hF.beats_iff hx he).2 hb)

/-- What is live at the end, by id. -/
theorem lookup_insertAll (hA : Agree (· ∈ es)) (id : Bytes32) :
    (∃ y, (new.insertAll es).byId.lookup id = some y) ↔ ∃ e ∈ es, e.id = id ∧ Wins es e := by
  obtain ⟨fields, hF⟩ := exists_fields hA
  obtain ⟨hS, -⟩ := Shows.insertAll hF hA (fun e he => he) shows_new (inv_new (· ∈ es))
  rw [hS.live, Registers.replay_puts_iff]
  constructor
  · rintro ⟨hid, hall⟩
    obtain ⟨e, he, rfl⟩ := List.mem_map.1 hid
    exact ⟨e, he, rfl, (wins_iff_board hF he).2 hall⟩
  · rintro ⟨e, he, rfl, hw⟩
    exact ⟨List.mem_map_of_mem he, (wins_iff_board hF he).1 hw⟩

theorem exists_wins (hA : Agree (· ∈ es)) {e : Event} (he : e ∈ es) :
    ∃ w ∈ es, w.replacementKey = e.replacementKey ∧ Wins es w := by
  obtain ⟨fields, hF⟩ := exists_fields hA
  -- the slot of `e` has a holder after the puts, and it is of the list
  obtain ⟨u, hu, -⟩ := Registers.settled_puts (r := rules fields) (b := Registers.empty) rfl
    (List.mem_map_of_mem (f := Event.id) he)
  have hown : (rules fields).key u = (rules fields).key e.id := (Registers.sound_empty.replay _ _ _ hu).1
  rw [← hown, Registers.replay_puts_iff] at hu
  obtain ⟨w, hw, rfl⟩ := List.mem_map.1 hu.1
  refine ⟨w, hw, ?_, (wins_iff_board hF hw).2 hu.2⟩
  rcases (hF.key_eq_iff hw he).1 hown with hid | ⟨-, hkey⟩
  · exact (hA w e hw he hid).replacementKey
  · exact hkey

theorem wins_unique {a b : Event} (ha : a ∈ es) (hb : b ∈ es) (hr : a.isReplaceable = true)
    (hk : a.replacementKey = b.replacementKey) (hwa : Wins es a) (hwb : Wins es b) : a.id = b.id := by
  have hrb : b.isReplaceable = true := by rw [← Event.isReplaceable_eq_of_key hk, hr]
  by_contra hne
  rcases Event.beats_or_beats hne with h | h
  · exact hwb hrb a ha hk h
  · exact hwa hr b hb hk.symm h

theorem wins_perm {es' : List Event} (hp : es'.Perm es) (e : Event) : Wins es' e ↔ Wins es e := by
  unfold Wins
  simp only [hp.mem_iff]

end

/-- The live events after inserting a list: all of the other kinds and the one winner
of each replacement key, whatever the order of the list. -/
theorem live_insertAll (es : List Event) (hA : Agree (· ∈ es)) :
    (∀ id, (∃ y, (new.insertAll es).byId.lookup id = some y) ↔ ∃ e ∈ es, e.id = id ∧ Wins es e) ∧
    (∀ id y, (new.insertAll es).byId.lookup id = some y → y ∈ es ∧ y.id = id ∧ Wins es y) ∧
    (∀ e ∈ es, e.isReplaceable = true → ∃ w ∈ es, w.replacementKey = e.replacementKey ∧ Wins es w ∧
      ∀ w' ∈ es, w'.replacementKey = e.replacementKey → Wins es w' → w'.id = w.id) ∧
    ∀ es', es'.Perm es → ∀ id, (∃ y, (new.insertAll es').byId.lookup id = some y) ↔
      ∃ y, (new.insertAll es).byId.lookup id = some y := by
  obtain ⟨fields, hF⟩ := exists_fields hA
  obtain ⟨-, hI⟩ := Shows.insertAll hF hA (fun e he => he) shows_new (inv_new (· ∈ es))
  refine ⟨lookup_insertAll hA, fun id y hy => ?_, fun e he hr => ?_, fun es' hp id => ?_⟩
  · obtain ⟨hmem, hid⟩ := hI.mem id y hy
    obtain ⟨e, he, heid, hw⟩ := (lookup_insertAll hA id).1 ⟨y, hy⟩
    have hsame := hA e y he hmem (heid.trans hid.symm)
    refine ⟨hmem, hid, fun hr x hx hk hb => ?_⟩
    refine hw (by rw [hsame.isReplaceable, hr]) x hx (by rw [hsame.replacementKey, hk]) ?_
    rwa [Event.Beats, hsame.createdAt, heid, ← hid]
  · obtain ⟨w, hw, hk, hwins⟩ := exists_wins hA he
    refine ⟨w, hw, hk, hwins, fun w' hw' hk' hwins' => ?_⟩
    have hr' : w'.isReplaceable = true := by rw [Event.isReplaceable_eq_of_key hk', hr]
    exact wins_unique hw' hw hr' (hk'.trans hk.symm) hwins' hwins
  · have hA' : Agree (· ∈ es') := fun a b ha hb => hA a b (hp.mem_iff.1 ha) (hp.mem_iff.1 hb)
    rw [lookup_insertAll hA', lookup_insertAll hA]
    simp only [hp.mem_iff, wins_perm hp]

/-- The newer version stays, whichever comes first, and the note beside it. -/
theorem live_insertAll_relayList :
    (∃ y, (new.insertAll [relayList 2 20, note 0, relayList 1 10]).byId.lookup 2 = some y) ∧
    (¬∃ y, (new.insertAll [relayList 2 20, note 0, relayList 1 10]).byId.lookup 1 = some y) ∧
    ∃ y, (new.insertAll [relayList 1 10, relayList 2 20, note 0]).byId.lookup 2 = some y := by
  have hinj : ∀ {a b : Event}, a ∈ [relayList 2 20, note 0, relayList 1 10] →
      b ∈ [relayList 2 20, note 0, relayList 1 10] → a.id = b.id → a = b := by
    have hnodup : ([relayList 2 20, note 0, relayList 1 10].map Event.id).Nodup := by decide
    exact fun {a b} ha hb hid => List.inj_on_of_nodup_map hnodup ha hb hid
  have hA : Agree (· ∈ [relayList 2 20, note 0, relayList 1 10]) := by
    intro a b ha hb hid
    rw [hinj ha hb hid]
    exact ⟨rfl, rfl, rfl, rfl, rfl⟩
  obtain ⟨hlive, -, -, hperm⟩ := live_insertAll [relayList 2 20, note 0, relayList 1 10] hA
  have hwin : ∃ y, (new.insertAll [relayList 2 20, note 0, relayList 1 10]).byId.lookup 2 = some y := by
    refine (hlive 2).2 ⟨relayList 2 20, by simp, rfl, ?_⟩
    unfold Wins
    decide
  refine ⟨hwin, fun hlost => ?_, ?_⟩
  · obtain ⟨e, he, hid, hw⟩ := (hlive 1).1 hlost
    rw [hinj he (show relayList 1 10 ∈ _ by simp) hid] at hw
    exact hw rfl (relayList 2 20) (by simp) rfl (by decide)
  · refine (hperm _ ?_ 2).2 hwin
    exact @List.perm_append_comm _ [relayList 1 10] [relayList 2 20, note 0]

end Index
end Memlay
