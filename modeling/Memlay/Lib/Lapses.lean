import Memlay.Lib.Registers

/-!
# Registers that lose holders without a record

A holder may lapse: it leaves its slot and the log does not say so.  The log then
tells of more than there is, and a version that came in because the holder of its
slot had lapsed can lose to that holder when the log is replayed.  What a replay
gives is still above what there is, and clear of what is buried:

    Lapsing.covers   every holder is found again, or a version that beats it
    Lapsing.shuns    a buried version is not found
    Way.covers       both again, for slots taken at any moment of the history
    Way.shuns        and all its records replayed over them
-/

namespace Registers

open Classical

variable {V K : Type*} (r : Rules V K)

/-- A history from one board to another in which holders may lapse, with the records
it left. -/
inductive Lapsing : Board V K → List (Rec V) → Board V K → Prop
  | nil (b : Board V K) : Lapsing b [] b
  | snoc {b b' : Board V K} {recs : List (Rec V)} (h : Lapsing b recs b') (a : Act V) :
      Lapsing b (recs ++ recsOf r b' a) (act r b' a)
  | lapse {b b' c : Board V K} {recs : List (Rec V)} (h : Lapsing b recs b')
      (hsub : ∀ k v, c.holder k = some v → b'.holder k = some v) (hburied : c.buried = b'.buried) :
      Lapsing b recs c

/-- The slot of `v` holds `v` or a version that beats it. -/
def Covers (g : Board V K) (v : V) : Prop := ∃ u, g.holder (r.key v) = some u ∧ ¬ r.beats v u

/-- A lapsing history with the records, on whose way the slots were `holder`. -/
def Way (b : Board V K) (recs : List (Rec V)) (b' : Board V K) (holder : K → Option V) : Prop :=
  ∃ as c bs, recs = as ++ bs ∧ Lapsing r b as c ∧ Lapsing r c bs b' ∧ c.holder = holder

section
variable {r} {b b' b'' g : Board V K} {recs recs' : List (Rec V)} {k : K} {v : V}

theorem History.lapsing (h : History r b recs b') : Lapsing r b recs b' := by
  induction h with
  | nil => exact .nil _
  | snoc h a ih => exact ih.snoc a

theorem Lapsing.trans (h : Lapsing r b recs b') (h' : Lapsing r b' recs' b'') :
    Lapsing r b (recs ++ recs') b'' := by
  induction h' with
  | nil => rwa [List.append_nil]
  | snoc h' a ih =>
    rw [← List.append_assoc]
    exact ih.snoc a
  | lapse h' hsub hburied ih => exact ih.lapse hsub hburied

theorem Lapsing.sound (h : Lapsing r b recs b') (hs : Sound r b) : Sound r b' := by
  induction h with
  | nil => exact hs
  | snoc h a ih => exact ih.act a
  | lapse h hsub hburied ih =>
    intro k v hv
    rw [hburied]
    exact ih k v (hsub k v hv)

theorem Lapsing.forgets (h : Lapsing r b recs b') (hs : Sound r b) (hf : Forgets g b) :
    Forgets (replay r g recs) b' := by
  induction h with
  | nil => exact hf
  | snoc h a ih =>
    rw [replay_append]
    exact (follows_act (h.sound hs) ih a).forgets
  | lapse h hsub hburied ih =>
    unfold Forgets
    rw [hburied]
    exact ih

/-! ## Holders are covered -/

/-- A put that is not buried is covered afterwards, accepted or not. -/
theorem covers_put (hb : v ∉ g.buried) : Covers r (put r g v) v := by
  by_cases ha : Accepts r g v
  · exact ⟨v, put_holder_self ha, r.irrefl v⟩
  · rw [put_of_not_accepts ha]
    have hn : ¬ ∀ u, g.holder (r.key v) = some u → r.beats v u := fun hu => ha ⟨hb, hu⟩
    obtain ⟨u, hu⟩ := not_forall.1 hn
    exact ⟨u, Classical.not_imp.1 hu⟩

theorem Covers.put (h : Covers r g v) (w : V) : Covers r (put r g w) v := by
  obtain ⟨u, hu, hb⟩ := h
  by_cases hk : r.key v = r.key w
  · by_cases ha : Accepts r g w
    · refine ⟨w, by rw [hk]; exact put_holder_self ha, fun hv => hb ?_⟩
      exact r.trans hv (ha.2 u (by rw [← hk]; exact hu))
    · rw [put_of_not_accepts ha]
      exact ⟨u, hu, hb⟩
  · exact ⟨u, by rw [put_holder_ne g hk]; exact hu, hb⟩

/-- A version of another slot takes nothing from this one. -/
theorem Covers.drop_ne (h : Covers r g v) {w : V} (hk : r.key v ≠ r.key w) : Covers r (drop r g w) v := by
  obtain ⟨u, hu, hb⟩ := h
  exact ⟨u, by rw [drop_holder_ne g hk]; exact hu, hb⟩

/-- The step lemma: the records of an action cover the holders it leaves, if those that
were there before it were covered. -/
theorem covers_act (hs : Sound r b) (hf : Forgets g b) (a : Act V) (hk : (act r b a).holder k = some v)
    (hc : b.holder k = some v → Covers r g v) : Covers r (replay r g (recsOf r b a)) v := by
  cases a with
  | put w =>
    by_cases ha : Accepts r b w
    · simp only [recsOf, if_pos ha]
      rw [replay_put_recs hs hf ha]
      have hk' : (put r b w).holder k = some v := hk
      by_cases hkw : k = r.key w
      · subst hkw
        rw [put_holder_self ha] at hk'
        cases hk'
        exact covers_put fun hm => ha.1 (hf.subset hm)
      · rw [put_holder_ne b hkw] at hk'
        exact (hc hk').put w
    · simp only [recsOf, if_neg ha]
      have hk' : (put r b w).holder k = some v := hk
      rw [put_of_not_accepts ha] at hk'
      exact hc hk'
  | bury w =>
    by_cases hw : b.holder (r.key w) = some w
    · simp only [recsOf, act, if_pos hw] at hk ⊢
      have hk' : (drop r b w).holder k = some v := hk
      have hkw : k ≠ r.key w := by
        rintro rfl
        rw [drop_holder_of_holds hw] at hk'
        cases hk'
      rw [drop_holder_ne b hkw] at hk'
      have hv : r.key v ≠ r.key w := by
        rw [(hs k v hk').1]
        exact hkw
      exact (hc hk').drop_ne hv
    · simp only [recsOf, act, if_neg hw] at hk ⊢
      exact hc hk

/-- The run lemma. -/
theorem Lapsing.covers (h : Lapsing r b recs b') (hs : Sound r b) (hf : Forgets g b)
    (hk : b'.holder k = some v) (hc : b.holder k = some v → Covers r g v) : Covers r (replay r g recs) v := by
  induction h with
  | nil => exact hc hk
  | snoc h a ih =>
    rw [replay_append]
    exact covers_act (h.sound hs) (h.forgets hs hf) a hk fun hk' => ih hk'
  | lapse h hsub hburied ih => exact ih (hsub k v hk)

/-! ## Buried versions stay out -/

theorem holds_of_put {w : V} (hne : v ≠ w) (h : (put r g w).holder k = some v) : g.holder k = some v := by
  by_cases ha : Accepts r g w
  · by_cases hk : k = r.key w
    · subst hk
      rw [put_holder_self ha] at h
      exact absurd (Option.some.inj h).symm hne
    · rwa [put_holder_ne g hk] at h
  · rwa [put_of_not_accepts ha] at h

theorem holds_of_drop {w : V} (h : (drop r g w).holder (r.key v) = some v) :
    g.holder (r.key v) = some v ∧ v ≠ w := by
  have hne : v ≠ w := by
    rintro rfl
    exact drop_holder_self g v h
  refine ⟨?_, hne⟩
  by_cases hk : r.key v = r.key w
  · by_cases hw : g.holder (r.key w) = some w
    · rw [hk, drop_holder_of_holds hw] at h
      cases h
    · rwa [drop_of_ne hw] at h
  · rwa [drop_holder_ne g hk] at h

theorem shuns_act (hs : Sound r b) (hf : Forgets g b) (a : Act V) (hv : v ∈ (act r b a).buried)
    (hc : v ∈ b.buried → g.holder (r.key v) ≠ some v) :
    (replay r g (recsOf r b a)).holder (r.key v) ≠ some v := by
  intro hh
  cases a with
  | put w =>
    have hv' : v ∈ b.buried := by
      have : v ∈ (put r b w).buried := hv
      rwa [put_buried] at this
    by_cases ha : Accepts r b w
    · simp only [recsOf, if_pos ha] at hh
      rw [replay_put_recs hs hf ha] at hh
      refine hc hv' (holds_of_put ?_ hh)
      rintro rfl
      exact ha.1 hv'
    · simp only [recsOf, if_neg ha] at hh
      exact hc hv' hh
  | bury w =>
    by_cases hw : b.holder (r.key w) = some w
    · simp only [recsOf, act, if_pos hw] at hh hv
      have hd : (drop r g w).holder (r.key v) = some v := hh
      obtain ⟨hg, hne⟩ := holds_of_drop hd
      rcases mem_push hv with he | hm
      · exact hne he
      · exact hc hm hg
    · simp only [recsOf, act, if_neg hw] at hh hv
      exact hc hv hh

theorem Lapsing.shuns (h : Lapsing r b recs b') (hs : Sound r b) (hf : Forgets g b) (hv : v ∈ b'.buried)
    (hc : v ∈ b.buried → g.holder (r.key v) ≠ some v) : (replay r g recs).holder (r.key v) ≠ some v := by
  induction h with
  | nil => exact hc hv
  | snoc h a ih =>
    rw [replay_append]
    exact shuns_act (h.sound hs) (h.forgets hs hf) a hv fun hv' => ih hv'
  | lapse h hsub hburied ih =>
    rw [hburied] at hv
    exact ih hv

/-! ## Slots taken on the way -/

theorem Lapsing.way_last (h : Lapsing r b recs b') : Way r b recs b' b'.holder :=
  ⟨recs, b', [], (List.append_nil _).symm, h, .nil b', rfl⟩

theorem Way.append {holder : K → Option V} (h : Way r b recs b' holder) (h' : Lapsing r b' recs' b'') :
    Way r b (recs ++ recs') b'' holder := by
  obtain ⟨as, c, bs, rfl, h1, h2, h3⟩ := h
  exact ⟨as, c, bs ++ recs', List.append_assoc _ _ _, h1, h2.trans h', h3⟩

theorem Way.prepend {holder : K → Option V} (h : Way r b' recs' b'' holder) (h' : Lapsing r b recs b') :
    Way r b (recs ++ recs') b'' holder := by
  obtain ⟨as, c, bs, rfl, h1, h2, h3⟩ := h
  exact ⟨recs ++ as, c, bs, (List.append_assoc _ _ _).symm, h'.trans h1, h2, h3⟩

/-- The slots of a board on the way, and all records of the way, cover the last board. -/
theorem Way.covers {holder : K → Option V} (h : Way r b recs b' holder) (hs : Sound r b)
    (hk : b'.holder k = some v) : Covers r (replay r (fresh holder) recs) v := by
  obtain ⟨as, c, bs, rfl, h₁, h₂, rfl⟩ := h
  have hf := forgets_fresh c.holder b
  rw [replay_append]
  refine h₂.covers (h₁.sound hs) (h₁.forgets hs hf) hk fun hc => ?_
  refine h₁.covers hs hf hc fun _ => ⟨v, ?_, r.irrefl v⟩
  rw [((h₁.sound hs) k v hc).1]
  exact hc

theorem Way.shuns {holder : K → Option V} (h : Way r b recs b' holder) (hs : Sound r b)
    (hv : v ∈ b'.buried) : (replay r (fresh holder) recs).holder (r.key v) ≠ some v := by
  obtain ⟨as, c, bs, rfl, h₁, h₂, rfl⟩ := h
  have hf := forgets_fresh c.holder b
  rw [replay_append]
  refine h₂.shuns (h₁.sound hs) (h₁.forgets hs hf) hv fun hc => ?_
  -- nothing that `c` has buried holds a slot of `c`
  exact h₁.shuns hs hf hc fun _ hh => ((h₁.sound hs) _ v hh).2 hc

end
end Registers
