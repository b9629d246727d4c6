import Memlay.Fanout
import Mathlib.Data.List.Basic

/-!
# The limit for slow peers

`DROP_WINDOW` is documented as a sliding window, and `record_drop` keeps one start and
one count: a window opens at the registration and at the first drop that comes more than
its length after the last opening (`Opening`), and the count begins again.  The kill flag
is set exactly when one of these windows holds too many drops (`kill_iff`).

    SlidingLimit c drops  ↔  SplitsNoticed registered times      (slidingLimit_iff)

A burst in which no window opens lies in one window and is noticed.  One that is split
by an opening is noticed when the part from the opening on is over the limit, or a
window before it; else it goes unnoticed (`split_burst_unnoticed`).
-/

namespace Memlay
namespace ConnState

/-- Drops fed to `record_drop`: the time of each and its subscription. -/
def feed (c : ConnState) (drops : List (Nat × Str)) : ConnState :=
  drops.foldl (fun c drop => c.recordDrop drop.1 drop.2) c

/-- How many drops an interval of the window's length holds, that begins at `a`. -/
def held (times : List Nat) (a : Nat) : Nat := times.countP fun t => decide (a ≤ t ∧ t ≤ a + dropWindow)

/-- Some interval of the window's length holds more drops than the limit. -/
def Burst (times : List Nat) : Prop := ∃ a, maxDropsPerWindow < held times a

/-- Every burst has set the flag once its last drop is recorded. -/
def SlidingLimit (c : ConnState) (drops : List (Nat × Str)) : Prop :=
  ∀ pre, pre <+: drops → Burst (pre.map Prod.fst) → (c.feed pre).kill = true

/-- A counting window opens at the registration, and at the first drop that comes more
than its length after an opening. -/
inductive Opening (registered : Nat) (times : List Nat) : Nat → Prop
  | registered : Opening registered times registered
  | drop {o t : Nat} (h : Opening registered times o) (hmem : t ∈ times) (hlate : o + dropWindow < t)
      (hfirst : ∀ d ∈ times, o + dropWindow < d → t ≤ d) : Opening registered times t

/-- Whenever a window has opened in the course of a burst that is going on, at `o`, more
drops than the limit have come from then on, or a window opened before holds as many. -/
def SplitsNoticed (registered : Nat) (times : List Nat) : Prop :=
  ∀ pre, pre <+: times → ∀ a, (∀ d ∈ pre, d ≤ a + dropWindow) → maxDropsPerWindow < held pre a →
    ∀ o, Opening registered pre o → a < o →
      maxDropsPerWindow < pre.countP (fun t => decide (o ≤ t)) ∨
        ∃ p, Opening registered pre p ∧ p < o ∧ maxDropsPerWindow < held pre p

section
variable {registered : Nat} {times pre : List Nat} {t o a : Nat}

theorem held_append (times : List Nat) (t a : Nat) :
    held (times ++ [t]) a = held times a + if a ≤ t ∧ t ≤ a + dropWindow then 1 else 0 := by
  unfold held
  rw [List.countP_append, List.countP_singleton]
  simp only [decide_eq_true_eq]

theorem held_mono (h : pre <+: times) (a : Nat) : held pre a ≤ held times a := h.sublist.countP_le

/-- An interval that has all drops of another holds as many. -/
theorem held_le {b : Nat} (h : ∀ d ∈ times, a ≤ d → d ≤ a + dropWindow → b ≤ d ∧ d ≤ b + dropWindow) :
    held times a ≤ held times b := by
  refine List.countP_mono_left fun d hd hin => ?_
  obtain ⟨h1, h2⟩ := of_decide_eq_true hin
  exact decide_eq_true (h d hd h1 h2)

/-! ## The openings -/

theorem Opening.mem (h : Opening registered times o) : o = registered ∨ o ∈ times := by
  cases h with
  | registered => exact Or.inl rfl
  | drop _ hmem _ _ => exact Or.inr hmem

theorem Opening.registered_le (h : Opening registered times o) : registered ≤ o := by
  induction h with
  | registered => exact Nat.le_refl _
  | drop _ _ hlate _ ih => omega

/-- An opening stays one, whatever comes after. -/
theorem Opening.append (h : Opening registered times o) (hle : ∀ d ∈ times, d ≤ t) :
    Opening registered (times ++ [t]) o := by
  induction h with
  | registered => exact .registered
  | drop _ hmem hlate hfirst ih =>
    refine .drop ih (List.mem_append_left _ hmem) hlate fun d hd hd' => ?_
    rcases List.mem_append.1 hd with hd | hd
    · exact hfirst d hd hd'
    · rw [List.mem_singleton.1 hd]
      exact hle _ hmem

theorem Opening.of_prefix (h : Opening registered pre o) (hpre : pre <+: times)
    (hsorted : times.Pairwise (· ≤ ·)) :
    Opening registered times o := by
  induction times using List.reverseRecOn with
  | nil => rwa [List.prefix_nil.1 hpre] at h
  | append_singleton times t ih =>
    rcases List.prefix_concat_iff.1 hpre with rfl | hpre
    · exact h
    · obtain ⟨hbefore, -, hle⟩ := List.pairwise_append.1 hsorted
      exact (ih hpre hbefore).append fun d hd => hle d hd t List.mem_cons_self

/-- The last drop opens nothing, or it is the first one that comes so late. -/
theorem Opening.of_append (h : Opening registered (times ++ [t]) o) (hle : ∀ d ∈ times, d ≤ t) :
    Opening registered times o ∨
      (o = t ∧ ∃ p, Opening registered times p ∧ p + dropWindow < t ∧ ∀ d ∈ times, d ≤ p + dropWindow) := by
  induction h with
  | registered => exact Or.inl .registered
  | @drop o t' _ hmem hlate hfirst ih =>
    have htop : t' ≤ t := by
      rcases List.mem_append.1 hmem with hmem | hmem
      · exact hle t' hmem
      · exact Nat.le_of_eq (List.mem_singleton.1 hmem)
    rcases ih with ho | ⟨rfl, -⟩
    · by_cases hlater : ∃ d ∈ times, o + dropWindow < d
      · -- the first such drop was there before
        obtain ⟨d, hd, hd'⟩ := hlater
        refine Or.inl (.drop ho ?_ hlate fun d hd => hfirst d (List.mem_append_left _ hd))
        rcases List.mem_append.1 hmem with hmem | hmem
        · exact hmem
        · have hle' := hfirst d (List.mem_append_left _ hd) hd'
          have hdt := hle d hd
          rw [List.mem_singleton.1 hmem] at hle' ⊢
          rwa [show t = d by omega]
      · have hall : ∀ d ∈ times, d ≤ o + dropWindow := fun d hd => Nat.le_of_not_lt fun hlt => hlater ⟨d, hd, hlt⟩
        rcases List.mem_append.1 hmem with hmem | hmem
        · have := hall t' hmem
          omega
        · rw [List.mem_singleton.1 hmem] at hlate ⊢
          exact Or.inr ⟨rfl, o, ho, hlate, hall⟩
    · omega

/-- The last opening: all drops are in its window, and the others are more than its
length before it. -/
structure Latest (registered : Nat) (times : List Nat) (o : Nat) : Prop where
  opening : Opening registered times o
  within : ∀ d ∈ times, d ≤ o + dropWindow
  spaced : ∀ p, Opening registered times p → p = o ∨ p + dropWindow < o

theorem latest_nil (registered : Nat) : Latest registered [] registered where
  opening := .registered
  within := by simp
  spaced := by
    intro p hp
    rcases hp.mem with rfl | hp
    · exact Or.inl rfl
    · cases hp

theorem Latest.opens (h : Latest registered times o) (hle : ∀ d ∈ times, d ≤ t) (hlate : o + dropWindow < t) :
    Latest registered (times ++ [t]) t where
  opening := by
    refine .drop (h.opening.append hle) (by simp) hlate fun d hd hd' => ?_
    rcases List.mem_append.1 hd with hd | hd
    · have := h.within d hd
      omega
    · rw [List.mem_singleton.1 hd]
  within := by
    intro d hd
    rcases List.mem_append.1 hd with hd | hd
    · have := hle d hd
      omega
    · rw [List.mem_singleton.1 hd]
      omega
  spaced := by
    intro p hp
    rcases hp.of_append hle with hp | ⟨rfl, -⟩
    · have := h.spaced p hp
      omega
    · exact Or.inl rfl

theorem Latest.stays (h : Latest registered times o) (hle : ∀ d ∈ times, d ≤ t) (hin : t ≤ o + dropWindow) :
    Latest registered (times ++ [t]) o where
  opening := h.opening.append hle
  within := by
    intro d hd
    rcases List.mem_append.1 hd with hd | hd
    · exact h.within d hd
    · rwa [List.mem_singleton.1 hd]
  spaced := by
    intro p hp
    rcases hp.of_append hle with hp | ⟨rfl, q, hq, hlate, hall⟩
    · exact h.spaced p hp
    · -- the last opening would be older than that
      rcases h.spaced q hq with rfl | hqo
      · omega
      · rcases h.opening.mem with ho | ho
        · have := hq.registered_le
          omega
        · have := hall o ho
          omega

theorem exists_latest (registered : Nat) (hsorted : times.Pairwise (· ≤ ·)) : ∃ o, Latest registered times o := by
  induction times using List.reverseRecOn with
  | nil => exact ⟨registered, latest_nil registered⟩
  | append_singleton times t ih =>
    obtain ⟨hbefore, -, hle⟩ := List.pairwise_append.1 hsorted
    have hle' : ∀ d ∈ times, d ≤ t := fun d hd => hle d hd t List.mem_cons_self
    obtain ⟨o, ho⟩ := ih hbefore
    rcases Nat.lt_or_ge (o + dropWindow) t with hlate | hin
    · exact ⟨t, ho.opens hle' hlate⟩
    · exact ⟨o, ho.stays hle' hin⟩

end

/-! ## What `record_drop` keeps -/

/-- One of the windows holds more drops than the limit. -/
def WindowOver (registered : Nat) (times : List Nat) : Prop :=
  ∃ p, Opening registered times p ∧ maxDropsPerWindow < held times p

section
variable {registered : Nat} {c : ConnState}

/-- The pair in the connection is the last window, and the flag says whether one has been over. -/
structure Follows (registered : Nat) (times : List Nat) (c : ConnState) : Prop where
  latest : Latest registered times c.window.1
  count : c.window.2 = held times c.window.1
  kill : c.kill = true ↔ WindowOver registered times

/-- The step lemma. -/
theorem Follows.recordDrop {times : List Nat} (h : Follows registered times c) {t : Nat}
    (hreg : registered ≤ t) (hle : ∀ d ∈ times, d ≤ t) (subId : Str) :
    Follows registered (times ++ [t]) (c.recordDrop t subId) := by
  have ho : c.window.1 ≤ t := by
    rcases h.latest.opening.mem with ho | ho
    · omega
    · exact hle _ ho
  -- the windows before the last are over by now
  have hpast : ∀ p, Opening registered times p → p ≠ c.window.1 → held (times ++ [t]) p = held times p := by
    intro p hp hne
    have := (h.latest.spaced p hp).resolve_left hne
    rw [held_append, if_neg (by omega), Nat.add_zero]
  unfold ConnState.recordDrop
  simp only
  split
  · rename_i hopen
    have hlatest := h.latest.opens hle (show c.window.1 + dropWindow < t by omega)
    have hnone : held times t = 0 := by
      refine List.countP_eq_zero.2 fun d hd hin => ?_
      have := h.latest.within d hd
      have := (of_decide_eq_true hin).1
      omega
    have hone : held (times ++ [t]) t = 1 := by
      rw [held_append, hnone, if_pos (by omega)]
    refine ⟨hlatest, hone.symm, ?_⟩
    show c.kill = true ↔ _
    rw [h.kill]
    constructor
    · rintro ⟨p, hp, hover⟩
      exact ⟨p, hp.append hle, Nat.lt_of_lt_of_le hover (held_mono (List.prefix_append _ _) p)⟩
    · rintro ⟨p, hp, hover⟩
      rcases hp.of_append hle with hp | ⟨rfl, -⟩
      · refine ⟨p, hp, ?_⟩
        rw [held_append] at hover
        have := h.latest.spaced p hp
        rwa [if_neg (by omega)] at hover
      · rw [hone] at hover
        exact absurd hover (by decide)
  · rename_i hstay
    have hin : t ≤ c.window.1 + dropWindow := by omega
    have hlatest := h.latest.stays hle hin
    have hmore : held (times ++ [t]) c.window.1 = c.window.2 + 1 := by
      rw [held_append, if_pos ⟨ho, hin⟩, h.count]
    refine ⟨hlatest, hmore.symm, ?_⟩
    show (c.kill || decide (maxDropsPerWindow < c.window.2 + 1)) = true ↔ _
    rw [Bool.or_eq_true, decide_eq_true_iff, h.kill, ← hmore]
    constructor
    · rintro (⟨p, hp, hover⟩ | hover)
      · exact ⟨p, hp.append hle, Nat.lt_of_lt_of_le hover (held_mono (List.prefix_append _ _) p)⟩
      · exact ⟨_, hlatest.opening, hover⟩
    · rintro ⟨p, hp, hover⟩
      rcases eq_or_ne p c.window.1 with rfl | hne
      · exact Or.inr hover
      · have hbefore : Opening registered times p := by
          have hspaced := hlatest.spaced p hp
          rcases hp.of_append hle with hp | ⟨rfl, -⟩
          · exact hp
          · omega
        rw [hpast p hbefore hne] at hover
        exact Or.inl ⟨p, hbefore, hover⟩

/-- The run lemma. -/
theorem follows_feed (hwindow : c.window = (registered, 0)) (hkill : c.kill = false) (drops : List (Nat × Str))
    (hsorted : (registered :: drops.map Prod.fst).Pairwise (· ≤ ·)) :
    Follows registered (drops.map Prod.fst) (c.feed drops) := by
  induction drops using List.reverseRecOn with
  | nil =>
    have hstart : (c.feed []).window = (registered, 0) := hwindow
    refine ⟨?_, ?_, ?_⟩
    · rw [hstart]
      exact latest_nil registered
    · rw [hstart]
      rfl
    · show c.kill = true ↔ WindowOver registered []
      rw [hkill]
      refine iff_of_false Bool.false_ne_true ?_
      rintro ⟨p, -, hover⟩
      exact absurd hover (show ¬ maxDropsPerWindow < 0 by decide)
  | append_singleton drops drop ih =>
    rw [List.map_append, List.map_singleton] at hsorted ⊢
    have hparts := List.pairwise_append.1
      (show (registered :: drops.map Prod.fst ++ [drop.1]).Pairwise (· ≤ ·) from hsorted)
    have hle : ∀ d ∈ registered :: drops.map Prod.fst, d ≤ drop.1 := fun d hd =>
      hparts.2.2 d hd drop.1 List.mem_cons_self
    have hfeed : c.feed (drops ++ [drop]) = (c.feed drops).recordDrop drop.1 drop.2 := by
      unfold feed
      rw [List.foldl_append]
      rfl
    rw [hfeed]
    exact (ih hparts.1).recordDrop (hle registered List.mem_cons_self)
      (fun d hd => hle d (List.mem_cons_of_mem _ hd)) drop.2

/-- The flag is set exactly when one of the windows has been over the limit. -/
theorem kill_iff (hwindow : c.window = (registered, 0)) (hkill : c.kill = false) (drops : List (Nat × Str))
    (hsorted : (registered :: drops.map Prod.fst).Pairwise (· ≤ ·)) :
    (c.feed drops).kill = true ↔ WindowOver registered (drops.map Prod.fst) :=
  (follows_feed hwindow hkill drops hsorted).kill

end

/-! ## Bursts and windows -/

section
variable {registered : Nat} {times pre : List Nat} {a o : Nat}

theorem WindowOver.of_prefix (h : WindowOver registered pre) (hpre : pre <+: times)
    (hsorted : times.Pairwise (· ≤ ·)) : WindowOver registered times := by
  obtain ⟨p, hp, hover⟩ := h
  exact ⟨p, hp.of_prefix hpre hsorted, Nat.lt_of_lt_of_le hover (held_mono hpre p)⟩

/-- A burst that begins in the last window lies in it. -/
theorem Latest.windowOver (h : Latest registered times o) (hle : o ≤ a)
    (hburst : maxDropsPerWindow < held times a) :
    WindowOver registered times :=
  ⟨o, h.opening, Nat.lt_of_lt_of_le hburst (held_le fun d hd had _ => ⟨by omega, h.within d hd⟩)⟩

/-- The drops up to the end of an interval. -/
theorem exists_prefix_within (hsorted : times.Pairwise (· ≤ ·)) (a : Nat) :
    ∃ pre, pre <+: times ∧ (∀ d ∈ pre, d ≤ a + dropWindow) ∧ held pre a = held times a := by
  induction times using List.reverseRecOn with
  | nil => exact ⟨[], List.prefix_rfl, by simp, rfl⟩
  | append_singleton times t ih =>
    obtain ⟨hbefore, -, hle⟩ := List.pairwise_append.1 hsorted
    rcases Nat.lt_or_ge (a + dropWindow) t with hlate | hin
    · obtain ⟨pre, hpre, hend, hheld⟩ := ih hbefore
      refine ⟨pre, hpre.trans (List.prefix_append _ _), hend, ?_⟩
      rw [held_append, if_neg (by omega), hheld, Nat.add_zero]
    · refine ⟨times ++ [t], List.prefix_rfl, fun d hd => ?_, rfl⟩
      rcases List.mem_append.1 hd with hd | hd
      · exact (hle d hd t List.mem_cons_self).trans hin
      · rwa [List.mem_singleton.1 hd]

/-- An opening in the course of a burst that is going on is the last one. -/
theorem Opening.latest (ho : Opening registered times o) (hsorted : times.Pairwise (· ≤ ·))
    (hend : ∀ d ∈ times, d ≤ a + dropWindow) (hin : a < o) : Latest registered times o := by
  obtain ⟨l, hl⟩ := exists_latest registered hsorted
  rcases hl.spaced o ho with rfl | hlt
  · exact hl
  · rcases hl.opening.mem with hr | hmem
    · have := ho.registered_le
      omega
    · have := hend l hmem
      omega

end

/-- For every connection and every non-decreasing sequence of drops after its
registration: the limit holds over the sliding window exactly when each burst that an
opening splits has enough drops from the opening on, or in a window before it. -/
theorem slidingLimit_iff (c : ConnState) (registered : Nat) (hwindow : c.window = (registered, 0))
    (hkill : c.kill = false) (drops : List (Nat × Str))
    (hsorted : (registered :: drops.map Prod.fst).Pairwise (· ≤ ·)) :
    SlidingLimit c drops ↔ SplitsNoticed registered (drops.map Prod.fst) := by
  have htimes : (drops.map Prod.fst).Pairwise (· ≤ ·) := (List.pairwise_cons.1 hsorted).2
  have hpart : ∀ pre, pre <+: drops → ((c.feed pre).kill = true ↔ WindowOver registered (pre.map Prod.fst)) :=
    fun pre hpre => kill_iff hwindow hkill pre (hsorted.sublist ((hpre.sublist.map Prod.fst).cons_cons registered))
  constructor
  · intro h times hpre a hend hburst o ho hao
    obtain ⟨pre, hpre', rfl⟩ : ∃ pre, pre <+: drops ∧ times = pre.map Prod.fst := by
      refine ⟨drops.take times.length, List.take_prefix _ _, ?_⟩
      rw [List.map_take]
      exact List.prefix_iff_eq_take.1 hpre
    obtain ⟨p, hp, hover⟩ := (hpart pre hpre').1 (h pre hpre' ⟨a, hburst⟩)
    have hlatest := ho.latest (htimes.sublist hpre.sublist) hend hao
    rcases hlatest.spaced p hp with rfl | hlt
    · refine Or.inl (Nat.lt_of_lt_of_le hover (List.countP_mono_left fun d _ hin => ?_))
      exact decide_eq_true (of_decide_eq_true hin).1
    · exact Or.inr ⟨p, hp, by omega, hover⟩
  · intro h pre hpre ⟨a, hburst⟩
    rw [hpart pre hpre]
    have hpre' := hpre.map Prod.fst
    have hsorted' := htimes.sublist hpre'.sublist
    obtain ⟨part, hsub, hend, hheld⟩ := exists_prefix_within hsorted' a
    rw [← hheld] at hburst
    refine WindowOver.of_prefix ?_ hsub hsorted'
    obtain ⟨o, ho⟩ := exists_latest registered (hsorted'.sublist hsub.sublist)
    rcases Nat.lt_or_ge a o with hao | hoa
    · rcases h part (hsub.trans hpre') a hend hburst o ho.opening hao with hfrom | ⟨p, hp, -, hover⟩
      · refine ⟨o, ho.opening, Nat.lt_of_lt_of_le hfrom (List.countP_mono_left fun d hd hin => ?_)⟩
        exact decide_eq_true ⟨of_decide_eq_true hin, ho.within d hd⟩
      · exact ⟨p, hp, hover⟩
    · exact ho.windowOver hoa hburst

/-- One drop more than the limit, all at one moment of the first window: no window opens
in the burst, and it is noticed. -/
theorem slidingLimit_iff_flood :
    SlidingLimit (.new 0 8) (List.replicate 2049 (5, ['a'])) ∧
      Burst ((List.replicate 2049 (5, ['a'])).map (Prod.fst (β := Str))) := by
  have htimes : (List.replicate 2049 (5, ['a'])).map (Prod.fst (β := Str)) = List.replicate 2049 5 := by
    rw [List.map_replicate]
  have hsorted : (0 :: List.replicate 2049 5).Pairwise (· ≤ ·) :=
    List.pairwise_cons.2 ⟨fun _ _ => Nat.zero_le _, List.pairwise_replicate.2 (Or.inr (Nat.le_refl 5))⟩
  refine ⟨(slidingLimit_iff (.new 0 8) 0 rfl rfl _ (by rw [htimes]; exact hsorted)).2 ?_, ?_⟩
  · rw [htimes]
    intro pre hpre a hend hburst o ho hao
    cases ho with
    | registered => omega
    | drop _ hmem hlate _ =>
      have ht := List.eq_of_mem_replicate (hpre.subset hmem)
      unfold dropWindow at hlate
      omega
  · rw [htimes]
    refine ⟨5, ?_⟩
    unfold held
    rw [List.countP_replicate]
    decide

/-! ## A burst across an opening -/

/-- Half of the limit when the first window closes, the other half and one more a
nanosecond later. -/
def splitTimes : List Nat := List.replicate 1024 dropWindow ++ List.replicate 1025 (dropWindow + 1)

def splitBurst : List (Nat × Str) := splitTimes.map fun t => (t, ['a'])

theorem map_splitBurst : splitBurst.map Prod.fst = splitTimes := by
  unfold splitBurst
  rw [List.map_map]
  exact List.map_id _

theorem sorted_splitTimes : (0 :: splitTimes).Pairwise (· ≤ ·) := by
  refine List.pairwise_cons.2 ⟨fun _ _ => Nat.zero_le _, List.pairwise_append.2 ⟨?_, ?_, ?_⟩⟩
  · exact List.pairwise_replicate.2 (Or.inr (Nat.le_refl _))
  · exact List.pairwise_replicate.2 (Or.inr (Nat.le_refl _))
  · intro a ha b hb
    rw [List.eq_of_mem_replicate ha, List.eq_of_mem_replicate hb]
    exact Nat.le_succ _

theorem held_splitTimes (a : Nat) : held splitTimes a =
    (if a ≤ dropWindow ∧ dropWindow ≤ a + dropWindow then 1024 else 0) +
      if a ≤ dropWindow + 1 ∧ dropWindow + 1 ≤ a + dropWindow then 1025 else 0 := by
  unfold held splitTimes
  rw [List.countP_append, List.countP_replicate, List.countP_replicate]
  simp only [decide_eq_true_eq]

theorem burst_splitTimes : Burst splitTimes := by
  refine ⟨dropWindow, ?_⟩
  rw [held_splitTimes]
  decide

/-- The second window opens in the middle, and neither comes near the limit. -/
theorem not_windowOver_splitTimes : ¬ WindowOver 0 splitTimes := by
  rintro ⟨p, hp, hover⟩
  have hcases : p = 0 ∨ p = dropWindow + 1 := by
    cases hp with
    | registered => exact Or.inl rfl
    | drop _ hmem hlate _ =>
      rcases List.mem_append.1 hmem with hmem | hmem
      · have := List.eq_of_mem_replicate hmem
        omega
      · exact Or.inr (List.eq_of_mem_replicate hmem)
  rw [held_splitTimes] at hover
  rcases hcases with rfl | rfl
  · exact absurd hover (by decide)
  · exact absurd hover (by decide)

/-- More drops than the limit within a nanosecond, and the peer stays connected. -/
theorem split_burst_unnoticed : Burst (splitBurst.map Prod.fst) ∧ (feed (.new 0 8) splitBurst).kill = false ∧
    ¬ SlidingLimit (.new 0 8) splitBurst := by
  have hkill : (feed (.new 0 8) splitBurst).kill = false := by
    rw [Bool.eq_false_iff]
    intro hk
    rw [kill_iff rfl rfl splitBurst (by rw [map_splitBurst]; exact sorted_splitTimes), map_splitBurst] at hk
    exact not_windowOver_splitTimes hk
  have hburst : Burst (splitBurst.map Prod.fst) := by
    rw [map_splitBurst]
    exact burst_splitTimes
  refine ⟨hburst, hkill, fun h => ?_⟩
  have hset := h splitBurst List.prefix_rfl hburst
  rw [hkill] at hset
  cases hset

end ConnState
end Memlay
