import Mathlib.Data.List.Infix
import Mathlib.Logic.Function.Basic

/-!
# Registers with a log

Versions compete for slots: a slot holds at most one version, a version that
beats the holder takes the slot over, and a version can be buried, which empties
its slot and keeps it out until a bounded FIFO has forgotten it.  Every operation
that changes something leaves records in a log; replaying the records over an
older or newer state of the slots is what recovery does.

    History.follow        what one replay does to a state that lags behind or runs
                          ahead: each slot follows the history or keeps its start value
    History.replay_twice  replaying the records again over the outcome changes nothing
    replay_snapshot       slots taken at any moment of a history, and the records of the
                          whole history over them, give its last state
    replay_holds_iff      without burials, a holder comes back exactly when it is recorded
    replay_puts_iff       puts alone leave the best version of each slot, in any order
-/

namespace Registers

open Function (update)
open Classical

noncomputable section

/-- Slots and ranking of the versions. -/
structure Rules (V K : Type*) where
  key : V → K
  beats : V → V → Prop
  /-- how many buried versions are remembered -/
  cap : Nat
  irrefl : ∀ v, ¬ beats v v
  trans : ∀ {a b c}, beats a b → beats b c → beats a c
  total : ∀ {a b}, a ≠ b → beats a b ∨ beats b a

structure Board (V K : Type*) where
  holder : K → Option V
  /-- oldest first -/
  buried : List V

/-- What a log holds. -/
inductive Rec (V : Type*) where
  | put (v : V)
  | drop (v : V)
  | bury (v : V)

/-- What a user of the registers asks for. -/
inductive Act (V : Type*) where
  | put (v : V)
  | bury (v : V)

variable {V K : Type*} (r : Rules V K)

/-- The last `n` elements. -/
def last (n : Nat) (l : List V) : List V := l.drop (l.length - n)

/-- Remember a buried version; one that is remembered keeps its place. -/
def push (l : List V) (v : V) : List V := if v ∈ l then l else last r.cap (l ++ [v])

/-- The version is not buried and beats the holder of its slot, if there is one. -/
def Accepts (b : Board V K) (v : V) : Prop :=
  v ∉ b.buried ∧ ∀ u, b.holder (r.key v) = some u → r.beats v u

def put (b : Board V K) (v : V) : Board V K :=
  if Accepts r b v then { b with holder := update b.holder (r.key v) (some v) } else b

def drop (b : Board V K) (v : V) : Board V K :=
  if b.holder (r.key v) = some v then { b with holder := update b.holder (r.key v) none } else b

def bury (b : Board V K) (v : V) : Board V K := { drop r b v with buried := push r b.buried v }

def redo (b : Board V K) : Rec V → Board V K
  | .put v => put r b v
  | .drop v => drop r b v
  | .bury v => bury r b v

def replay (b : Board V K) (recs : List (Rec V)) : Board V K := recs.foldl (redo r) b

/-- Only a version that holds its slot can be buried. -/
def act (b : Board V K) : Act V → Board V K
  | .put v => put r b v
  | .bury v => if b.holder (r.key v) = some v then bury r b v else b

/-- The records an action leaves; a version that is taken over is dropped after. -/
def recsOf (b : Board V K) : Act V → List (Rec V)
  | .put v => if Accepts r b v then .put v :: (b.holder (r.key v)).toList.map .drop else []
  | .bury v => if b.holder (r.key v) = some v then [.bury v] else []

/-- A history from one board to another, with the records it left. -/
inductive History : Board V K → List (Rec V) → Board V K → Prop
  | nil (b : Board V K) : History b [] b
  | snoc {b b' : Board V K} {recs : List (Rec V)} (h : History b recs b') (a : Act V) :
      History b (recs ++ recsOf r b' a) (act r b' a)

/-- Holders sit in their own slot and are not buried. -/
def Sound (b : Board V K) : Prop :=
  ∀ k v, b.holder k = some v → r.key v = k ∧ v ∉ b.buried

/-- A board restored from a snapshot: nothing is buried. -/
def fresh (holder : K → Option V) : Board V K := ⟨holder, []⟩

def empty : Board V K := fresh fun _ => none

/-! ## One operation -/

section
variable {r} {b g : Board V K} {v : V}

theorem replay_append (b : Board V K) (as bs : List (Rec V)) :
    replay r b (as ++ bs) = replay r (replay r b as) bs := List.foldl_append

theorem put_of_accepts (h : Accepts r b v) :
    put r b v = { b with holder := update b.holder (r.key v) (some v) } := if_pos h

theorem put_of_not_accepts (h : ¬ Accepts r b v) : put r b v = b := if_neg h

/-- With nothing buried a version is refused by the holder of its slot only. -/
theorem exists_of_not_accepts (hb : b.buried = []) (h : ¬ Accepts r b v) :
    ∃ u, b.holder (r.key v) = some u ∧ ¬ r.beats v u := by
  have hn : ¬ ∀ u, b.holder (r.key v) = some u → r.beats v u := fun hu =>
    h ⟨by rw [hb]; exact List.not_mem_nil, hu⟩
  obtain ⟨u, hu⟩ := not_forall.1 hn
  exact ⟨u, Classical.not_imp.1 hu⟩

theorem put_buried (b : Board V K) (v : V) : (put r b v).buried = b.buried := by
  unfold put
  split <;> rfl

theorem drop_buried (b : Board V K) (v : V) : (drop r b v).buried = b.buried := by
  unfold drop
  split <;> rfl

theorem drop_of_ne (h : b.holder (r.key v) ≠ some v) : drop r b v = b := if_neg h

/-- A put changes at most its own slot. -/
theorem put_holder_ne (b : Board V K) {k : K} (hk : k ≠ r.key v) :
    (put r b v).holder k = b.holder k := by
  unfold put
  split
  · exact Function.update_of_ne hk _ _
  · rfl

theorem drop_holder_ne (b : Board V K) {k : K} (hk : k ≠ r.key v) :
    (drop r b v).holder k = b.holder k := by
  unfold drop
  split
  · exact Function.update_of_ne hk _ _
  · rfl

theorem put_holder_self (h : Accepts r b v) : (put r b v).holder (r.key v) = some v := by
  rw [put_of_accepts h]
  exact Function.update_self (r.key v) (some v) b.holder

theorem drop_holder_of_holds (h : b.holder (r.key v) = some v) :
    (drop r b v).holder (r.key v) = none := by
  unfold drop
  rw [if_pos h]
  exact Function.update_self (r.key v) none b.holder

theorem drop_holder_self (b : Board V K) (v : V) : (drop r b v).holder (r.key v) ≠ some v := by
  by_cases h : b.holder (r.key v) = some v
  · rw [drop_holder_of_holds h]
    exact fun h => by cases h
  · rw [drop_of_ne h]
    exact h

/-! ## The memory of buried versions -/

theorem last_suffix (n : Nat) (l : List V) : last n l <:+ l := List.drop_suffix _ _

theorem length_last_le (n : Nat) (l : List V) : (last n l).length ≤ n := by
  unfold last
  rw [List.length_drop]
  omega

/-- What had left the window before a new element came is not needed for the next window. -/
theorem last_last_append (n : Nat) (l : List V) (v : V) : last n (last n l ++ [v]) = last n (l ++ [v]) := by
  have hwin : last n l ++ [v] = (l ++ [v]).drop (l.length - n) :=
    (List.drop_append_of_le_length (Nat.sub_le _ _)).symm
  rw [hwin]
  unfold last
  rw [List.drop_drop, List.length_drop, List.length_append, List.length_singleton]
  congr 1
  omega

theorem suffix_last {n : Nat} {as bs : List V} (h : as <:+ bs) : last n as <:+ last n bs := by
  obtain ⟨ps, rfl⟩ := h
  unfold last
  rw [List.length_append, List.drop_append]
  by_cases hle : as.length ≤ n
  · rw [Nat.sub_eq_zero_of_le hle, List.drop_zero]
    have : ps.length + as.length - n - ps.length = 0 := by omega
    rw [this, List.drop_zero]
    exact List.suffix_append _ _
  · have h1 : ps.length + as.length - n - ps.length = as.length - n := by omega
    have h2 : ps.drop (ps.length + as.length - n) = [] := List.drop_eq_nil_of_le (by omega)
    rw [h1, h2, List.nil_append]

theorem suffix_push {as bs : List V} (h : as <:+ bs) (hv : v ∉ bs) : push r as v <:+ push r bs v := by
  have hv' : v ∉ as := fun hm => hv (h.subset hm)
  unfold push
  rw [if_neg hv, if_neg hv']
  refine suffix_last ?_
  obtain ⟨ps, rfl⟩ := h
  exact ⟨ps, by rw [List.append_assoc]⟩

theorem mem_push {l : List V} {u : V} (h : u ∈ push r l v) : u = v ∨ u ∈ l := by
  unfold push at h
  split at h
  · exact Or.inr h
  · have := (last_suffix _ _).subset h
    rw [List.mem_append, List.mem_singleton] at this
    exact this.symm

/-! ## Actions keep the board sound -/

theorem Sound.put (h : Sound r b) (v : V) : Sound r (put r b v) := by
  intro k u hu
  by_cases ha : Accepts r b v
  · rw [put_buried]
    by_cases hk : k = r.key v
    · subst hk
      rw [put_holder_self ha] at hu
      cases hu
      exact ⟨rfl, ha.1⟩
    · rw [put_holder_ne b hk] at hu
      exact h k u hu
  · rw [put_of_not_accepts ha] at hu ⊢
    exact h k u hu

theorem Sound.bury (h : Sound r b) (v : V) : Sound r (bury r b v) := by
  intro k u hu
  have hu' : (Registers.drop r b v).holder k = some u := hu
  have hold : b.holder k = some u ∧ u ≠ v := by
    by_cases hk : k = r.key v
    · subst hk
      have hne : u ≠ v := by
        rintro rfl
        exact drop_holder_self b u hu'
      refine ⟨?_, hne⟩
      by_cases hv : b.holder (r.key v) = some v
      · rw [drop_holder_of_holds hv] at hu'
        cases hu'
      · rwa [drop_of_ne hv] at hu'
    · rw [drop_holder_ne b hk] at hu'
      refine ⟨hu', ?_⟩
      rintro rfl
      exact hk (h k u hu').1.symm
  obtain ⟨hkey, hb⟩ := h k u hold.1
  refine ⟨hkey, fun hm => ?_⟩
  rcases mem_push hm with he | hm
  · exact hold.2 he
  · exact hb hm

theorem Sound.drop (h : Sound r b) (v : V) : Sound r (drop r b v) := by
  intro k u hu
  rw [drop_buried]
  by_cases hk : k = r.key v
  · subst hk
    by_cases hv : b.holder (r.key v) = some v
    · rw [drop_holder_of_holds hv] at hu
      cases hu
    · rw [drop_of_ne hv] at hu
      exact h _ u hu
  · rw [drop_holder_ne b hk] at hu
    exact h k u hu

theorem Sound.replay (h : Sound r b) (recs : List (Rec V)) : Sound r (replay r b recs) := by
  induction recs generalizing b with
  | nil => exact h
  | cons a recs ih =>
    cases a with
    | put v => exact ih (h.put v)
    | drop v => exact ih (h.drop v)
    | bury v => exact ih (h.bury v)

theorem sound_empty : Sound r (empty : Board V K) := fun _ _ h => by cases h

theorem replay_puts_buried (vs : List V) (b : Board V K) :
    (replay r b (vs.map .put)).buried = b.buried := by
  induction vs generalizing b with
  | nil => rfl
  | cons v vs ih => exact (ih (put r b v)).trans (put_buried b v)

theorem Sound.act (h : Sound r b) (a : Act V) : Sound r (act r b a) := by
  cases a with
  | put v => exact h.put v
  | bury v =>
    by_cases hv : b.holder (r.key v) = some v
    · simp only [Registers.act, if_pos hv]
      exact h.bury v
    · simp only [Registers.act, if_neg hv]
      exact h

/-! ## A replay follows the history -/

/-- `g` has forgotten some of what `b` has buried, oldest first. -/
def Forgets (g b : Board V K) : Prop := g.buried <:+ b.buried

theorem forgets_fresh (holder : K → Option V) (b : Board V K) : Forgets (fresh holder) b :=
  List.nil_suffix

theorem Forgets.accepts (hf : Forgets g b) (hk : g.holder (r.key v) = b.holder (r.key v))
    (h : Accepts r b v) : Accepts r g v := by
  refine ⟨fun hm => h.1 (hf.subset hm), fun u hu => h.2 u ?_⟩
  rw [← hk, hu]

/-- What the records of one action do to a slot of a board that has forgotten
some: it gets the new holder, or it stays as it is, and it does not stay behind. -/
structure Follows (g b g' b' : Board V K) : Prop where
  forgets : Forgets g' b'
  sync : ∀ k, g.holder k = b.holder k → g'.holder k = b'.holder k
  stuck : ∀ k, g'.holder k = b'.holder k ∨ g'.holder k = g.holder k

/-- The records of an accepted version take the slot over, or leave it alone: the
version that held the slot was beaten, so dropping it changes nothing. -/
theorem replay_put_recs (hs : Sound r b) (hf : Forgets g b) (ha : Accepts r b v) :
    replay r g (.put v :: (b.holder (r.key v)).toList.map .drop) = put r g v := by
  cases hu : b.holder (r.key v) with
  | none => rfl
  | some u =>
    show drop r (put r g v) u = put r g v
    refine drop_of_ne fun hh => ?_
    rw [(hs _ _ hu).1] at hh
    have hg : ¬ Accepts r g v := by
      intro hg
      rw [put_holder_self hg] at hh
      cases hh
      exact r.irrefl _ (ha.2 _ hu)
    rw [put_of_not_accepts hg] at hh
    refine hg ⟨fun hm => ha.1 (hf.subset hm), fun w hw => ?_⟩
    rw [hh] at hw
    cases hw
    exact ha.2 _ hu

theorem follows_put (hf : Forgets g b) (ha : Accepts r b v) :
    Follows g b (put r g v) (put r b v) where
  forgets := by
    show (put r g v).buried <:+ (put r b v).buried
    rw [put_buried, put_buried]
    exact hf
  sync := by
    intro k hk
    by_cases hkv : k = r.key v
    · subst hkv
      rw [put_holder_self ha, put_holder_self (hf.accepts hk ha)]
    · rw [put_holder_ne g hkv, put_holder_ne b hkv, hk]
  stuck := by
    intro k
    by_cases hkv : k = r.key v
    · subst hkv
      by_cases hg : Accepts r g v
      · exact Or.inl (by rw [put_holder_self ha, put_holder_self hg])
      · exact Or.inr (by rw [put_of_not_accepts hg])
    · exact Or.inr (put_holder_ne g hkv)

theorem follows_bury (hs : Sound r b) (hf : Forgets g b) (hv : b.holder (r.key v) = some v) :
    Follows g b (bury r g v) (bury r b v) where
  forgets := suffix_push hf (hs _ _ hv).2
  sync := by
    intro k hk
    show (drop r g v).holder k = (drop r b v).holder k
    by_cases hkv : k = r.key v
    · subst hkv
      rw [drop_holder_of_holds hv, drop_holder_of_holds (hk.trans hv)]
    · rw [drop_holder_ne g hkv, drop_holder_ne b hkv, hk]
  stuck := by
    intro k
    show (drop r g v).holder k = (drop r b v).holder k ∨ (drop r g v).holder k = g.holder k
    by_cases hkv : k = r.key v
    · subst hkv
      by_cases hg : g.holder (r.key v) = some v
      · exact Or.inl (by rw [drop_holder_of_holds hv, drop_holder_of_holds hg])
      · exact Or.inr (by rw [drop_of_ne hg])
    · exact Or.inr (drop_holder_ne g hkv)

theorem Follows.refl (hf : Forgets g b) : Follows g b g b :=
  ⟨hf, fun _ h => h, fun _ => Or.inr rfl⟩

/-- The step lemma. -/
theorem follows_act (hs : Sound r b) (hf : Forgets g b) (a : Act V) :
    Follows g b (replay r g (recsOf r b a)) (act r b a) := by
  cases a with
  | put v =>
    by_cases ha : Accepts r b v
    · simp only [recsOf, act, if_pos ha]
      rw [replay_put_recs hs hf ha]
      exact follows_put hf ha
    · simp only [recsOf, act, if_neg ha]
      rw [put_of_not_accepts ha]
      exact Follows.refl hf
  | bury v =>
    by_cases hv : b.holder (r.key v) = some v
    · simp only [recsOf, act, if_pos hv]
      exact follows_bury hs hf hv
    · simp only [recsOf, act, if_neg hv]
      exact Follows.refl hf

/-! ## Histories -/

theorem History.sound {b b' : Board V K} {recs : List (Rec V)} (h : History r b recs b')
    (hs : Sound r b) : Sound r b' := by
  induction h with
  | nil => exact hs
  | snoc h a ih => exact ih.act a

theorem History.trans {a b c : Board V K} {as bs : List (Rec V)} (h₁ : History r a as b)
    (h₂ : History r b bs c) : History r a (as ++ bs) c := by
  induction h₂ with
  | nil => rwa [List.append_nil]
  | snoc h x ih =>
    rw [← List.append_assoc]
    exact ih.snoc x

/-- The run lemma: each slot follows the history, or keeps the value it had. -/
theorem History.follow {b b' : Board V K} {recs : List (Rec V)} (h : History r b recs b')
    (hs : Sound r b) {g : Board V K} (hf : Forgets g b) : Follows g b (replay r g recs) b' := by
  induction h with
  | nil => exact Follows.refl hf
  | snoc h a ih =>
    have ha := follows_act (h.sound hs) ih.forgets a
    rw [replay_append]
    refine ⟨ha.forgets, fun k hk => ha.sync k (ih.sync k hk), fun k => ?_⟩
    rcases ih.stuck k with hk | hk
    · exact Or.inl (ha.sync k hk)
    · rcases ha.stuck k with hk' | hk'
      · exact Or.inl hk'
      · exact Or.inr (hk'.trans hk)

/-- An action without records changes nothing. -/
theorem act_of_recsOf_nil {a : Act V} (h : recsOf r b a = []) : act r b a = b := by
  cases a with
  | put v =>
    by_cases ha : Accepts r b v
    · simp only [recsOf, if_pos ha] at h
      cases h
    · exact put_of_not_accepts ha
  | bury v =>
    by_cases hv : b.holder (r.key v) = some v
    · simp only [recsOf, if_pos hv] at h
      cases h
    · exact if_neg hv

theorem History.eq_of_nil {b b' : Board V K} {recs : List (Rec V)} (h : History r b recs b')
    (hr : recs = []) : b' = b := by
  induction h with
  | nil => rfl
  | snoc h a ih =>
    obtain ⟨h1, h2⟩ := List.append_eq_nil_iff.1 hr
    rw [act_of_recsOf_nil h2]
    exact ih h1

/-- A history with the records, on whose way the slots were `holder`. -/
def Passes (r : Rules V K) (b : Board V K) (recs : List (Rec V)) (b' : Board V K)
    (holder : K → Option V) : Prop :=
  ∃ as c bs, recs = as ++ bs ∧ History r b as c ∧ History r c bs b' ∧ c.holder = holder

theorem History.passes_last {b b' : Board V K} {recs : List (Rec V)} (h : History r b recs b') :
    Passes r b recs b' b'.holder := ⟨recs, b', [], (List.append_nil _).symm, h, .nil b', rfl⟩

theorem Passes.append {b b' b'' : Board V K} {recs recs' : List (Rec V)} {holder : K → Option V}
    (h : Passes r b recs b' holder) (h' : History r b' recs' b'') :
    Passes r b (recs ++ recs') b'' holder := by
  obtain ⟨as, c, bs, rfl, h1, h2, h3⟩ := h
  exact ⟨as, c, bs ++ recs', List.append_assoc _ _ _, h1, h2.trans h', h3⟩

theorem Passes.prepend {b b' b'' : Board V K} {recs recs' : List (Rec V)} {holder : K → Option V}
    (h : Passes r b' recs' b'' holder) (h' : History r b recs b') :
    Passes r b (recs ++ recs') b'' holder := by
  obtain ⟨as, c, bs, rfl, h1, h2, h3⟩ := h
  exact ⟨recs ++ as, c, bs, (List.append_assoc _ _ _).symm, h'.trans h1, h2, h3⟩

/-- The slots of a board on the way, and all records of the way, give the last board. -/
theorem replay_snapshot {b b' : Board V K} {recs : List (Rec V)} {holder : K → Option V}
    (hs : Sound r b) (h : Passes r b recs b' holder) :
    (replay r (fresh holder) recs).holder = b'.holder := by
  obtain ⟨as, c, bs, rfl, h₁, h₂, rfl⟩ := h
  have hf₁ := h₁.follow hs (forgets_fresh c.holder b)
  have hsync : ∀ k, (replay r (fresh c.holder) as).holder k = c.holder k := by
    intro k
    rcases hf₁.stuck k with h | h
    · exact h
    · exact h
  rw [replay_append]
  funext k
  exact (h₂.follow (h₁.sound hs) hf₁.forgets).sync k (hsync k)

/-! ## Replaying again

What a replay does to a slot depends on the slot alone: a version the history
accepted is not buried on a board that has forgotten some, so only the holder
decides. -/

theorem agree_act {g₁ g₂ : Board V K} (hs : Sound r b) (h₁ : Forgets g₁ b) (h₂ : Forgets g₂ b)
    {k : K} (hk : g₁.holder k = g₂.holder k) (a : Act V) :
    (replay r g₁ (recsOf r b a)).holder k = (replay r g₂ (recsOf r b a)).holder k := by
  cases a with
  | put v =>
    by_cases ha : Accepts r b v
    · simp only [recsOf, if_pos ha]
      rw [replay_put_recs hs h₁ ha, replay_put_recs hs h₂ ha]
      by_cases hkv : k = r.key v
      · subst hkv
        have hiff : Accepts r g₁ v ↔ Accepts r g₂ v := by
          unfold Accepts
          rw [hk]
          constructor
          · exact fun h => ⟨fun hm => ha.1 (h₂.subset hm), h.2⟩
          · exact fun h => ⟨fun hm => ha.1 (h₁.subset hm), h.2⟩
        by_cases hg : Accepts r g₁ v
        · rw [put_holder_self hg, put_holder_self (hiff.1 hg)]
        · rw [put_of_not_accepts hg, put_of_not_accepts fun h => hg (hiff.2 h), hk]
      · rw [put_holder_ne g₁ hkv, put_holder_ne g₂ hkv, hk]
    · simp only [recsOf, if_neg ha]
      exact hk
  | bury v =>
    by_cases hv : b.holder (r.key v) = some v
    · simp only [recsOf, if_pos hv]
      show (drop r g₁ v).holder k = (drop r g₂ v).holder k
      by_cases hkv : k = r.key v
      · subst hkv
        by_cases hg : g₁.holder (r.key v) = some v
        · rw [drop_holder_of_holds hg, drop_holder_of_holds (hk ▸ hg)]
        · rw [drop_of_ne hg, drop_of_ne (hk ▸ hg), hk]
      · rw [drop_holder_ne g₁ hkv, drop_holder_ne g₂ hkv, hk]
    · simp only [recsOf, if_neg hv]
      exact hk

theorem History.agree {b b' : Board V K} {recs : List (Rec V)} (h : History r b recs b')
    (hs : Sound r b) {g₁ g₂ : Board V K} (h₁ : Forgets g₁ b) (h₂ : Forgets g₂ b) {k : K}
    (hk : g₁.holder k = g₂.holder k) :
    (replay r g₁ recs).holder k = (replay r g₂ recs).holder k := by
  induction h with
  | nil => exact hk
  | snoc h a ih =>
    rw [replay_append, replay_append]
    exact agree_act (h.sound hs) (h.follow hs h₁).forgets (h.follow hs h₂).forgets ih a

/-- Replaying the same records over the outcome changes nothing. -/
theorem History.replay_twice {b b' : Board V K} {recs : List (Rec V)} (h : History r b recs b')
    (hs : Sound r b) {g : Board V K} (hg : Forgets g b) :
    (replay r (fresh (replay r g recs).holder) recs).holder = (replay r g recs).holder := by
  have hnil := forgets_fresh (replay r g recs).holder b
  funext k
  rcases (h.follow hs hg).stuck k with hk | hk
  · rcases (h.follow hs hnil).stuck k with hk' | hk'
    · rw [hk', hk]
    · exact hk'
  · exact h.agree hs hnil hg hk

/-! ## Logs without burials -/

/-- No recorded version of the slot beats `x`, and nothing recorded takes it out. -/
def Top (r : Rules V K) (x : V) : Rec V → Prop
  | .put v => r.key v = r.key x → ¬ r.beats v x
  | .drop v => v ≠ x
  | .bury _ => False

/-- What a replay towards `x` keeps: nothing in the slot beats `x`, and `x` is there or still to come. -/
structure Waits (r : Rules V K) (x : V) (g : Board V K) (recs : List (Rec V)) : Prop where
  buried : g.buried = []
  below : ∀ u, g.holder (r.key x) = some u → ¬ r.beats u x
  comes : Rec.put x ∈ recs ∨ g.holder (r.key x) = some x

theorem Waits.drop {x : V} {recs : List (Rec V)} (h : Waits r x g (.drop v :: recs)) (hv : v ≠ x) :
    Waits r x (drop r g v) recs := by
  have hcomes : Rec.put x ∈ recs ∨ g.holder (r.key x) = some x := by simpa using h.comes
  by_cases hg : g.holder (r.key v) = some v ∧ r.key v = r.key x
  · obtain ⟨hg, hk⟩ := hg
    have hnone : (Registers.drop r g v).holder (r.key x) = none := by
      rw [← hk]
      exact drop_holder_of_holds hg
    refine ⟨by rw [drop_buried, h.buried], fun u hu => ?_, hcomes.imp_right fun hx => ?_⟩
    · rw [hnone] at hu
      cases hu
    · rw [← hk, hg] at hx
      exact absurd (Option.some.inj hx) hv
  · have hsame : (Registers.drop r g v).holder (r.key x) = g.holder (r.key x) := by
      by_cases hk : r.key v = r.key x
      · rw [drop_of_ne fun hv' => hg ⟨hv', hk⟩]
      · exact drop_holder_ne g (Ne.symm hk)
    rw [← hsame] at hcomes
    exact ⟨by rw [drop_buried, h.buried], fun u hu => h.below u (by rw [← hsame, hu]), hcomes⟩

theorem Waits.put {x : V} {recs : List (Rec V)} (h : Waits r x g (.put v :: recs))
    (hv : r.key v = r.key x → ¬ r.beats v x) : Waits r x (put r g v) recs := by
  have hcomes : v = x ∨ Rec.put x ∈ recs ∨ g.holder (r.key x) = some x := by
    rcases h.comes with hm | hh
    · rcases List.mem_cons.1 hm with he | hm
      · cases he
        exact Or.inl rfl
      · exact Or.inr (Or.inl hm)
    · exact Or.inr (Or.inr hh)
  have hbur : (Registers.put r g v).buried = [] := by rw [put_buried, h.buried]
  by_cases hk : r.key v = r.key x
  · by_cases ha : Accepts r g v
    · have hself : (Registers.put r g v).holder (r.key x) = some v := by
        rw [← hk]
        exact put_holder_self ha
      refine ⟨hbur, fun u hu => ?_, ?_⟩
      · rw [hself] at hu
        cases hu
        exact hv hk
      · rcases hcomes with rfl | hm | hx
        · exact Or.inr hself
        · exact Or.inl hm
        · rw [← hk] at hx
          exact absurd (ha.2 x hx) (hv hk)
    · rw [put_of_not_accepts ha]
      refine ⟨h.buried, h.below, ?_⟩
      rcases hcomes with rfl | hm | hx
      · -- `x` was refused, so it is in its slot already
        right
        obtain ⟨u, hu, hb⟩ := exists_of_not_accepts h.buried ha
        by_cases he : u = v
        · rw [hu, he]
        · rcases r.total he with hb' | hb'
          · exact absurd hb' (h.below u hu)
          · exact absurd hb' hb
      · exact Or.inl hm
      · exact Or.inr hx
  · have hsame : (Registers.put r g v).holder (r.key x) = g.holder (r.key x) :=
      put_holder_ne g (Ne.symm hk)
    rw [← hsame] at hcomes
    refine ⟨hbur, fun u hu => h.below u (by rw [← hsame, hu]), ?_⟩
    rcases hcomes with rfl | hc
    · exact absurd rfl hk
    · exact hc

/-- A recorded version that nothing recorded beats holds its slot after the replay. -/
theorem replay_top {x : V} {recs : List (Rec V)} (htop : ∀ a ∈ recs, Top r x a)
    (h : Waits r x g recs) : (replay r g recs).holder (r.key x) = some x := by
  induction recs generalizing g with
  | nil => exact h.comes.resolve_left List.not_mem_nil
  | cons a recs ih =>
    have ha := htop a (by simp)
    have hrest := ih (g := redo r g a) fun b hb => htop b (List.mem_cons_of_mem a hb)
    cases a with
    | put v => exact hrest (h.put ha)
    | drop v => exact hrest (h.drop ha)
    | bury v => exact absurd ha id

/-- What holds a slot after a replay was there or was recorded. -/
theorem put_mem_of_replay {recs : List (Rec V)} {k : K} {x : V}
    (h : (replay r g recs).holder k = some x) : Rec.put x ∈ recs ∨ g.holder k = some x := by
  induction recs generalizing g with
  | nil => exact Or.inr h
  | cons a recs ih =>
    rcases ih h with hm | hh
    · exact Or.inl (List.mem_cons_of_mem a hm)
    have hdrop : ∀ v, (Registers.drop r g v).holder k = some x → g.holder k = some x := by
      intro v hv
      by_cases hk : k = r.key v
      · subst hk
        by_cases hg : g.holder (r.key v) = some v
        · rw [drop_holder_of_holds hg] at hv
          cases hv
        · rwa [drop_of_ne hg] at hv
      · rwa [drop_holder_ne g hk] at hv
    cases a with
    | drop v => exact Or.inr (hdrop v hh)
    | bury v => exact Or.inr (hdrop v hh)
    | put v =>
      have hh' : (Registers.put r g v).holder k = some x := hh
      by_cases hk : k = r.key v
      · subst hk
        by_cases ha : Accepts r g v
        · rw [put_holder_self ha] at hh'
          cases hh'
          exact Or.inl (by simp)
        · rw [put_of_not_accepts ha] at hh'
          exact Or.inr hh'
      · rw [put_holder_ne g hk] at hh'
        exact Or.inr hh'

/-- A record that the board has moved past: its version is beaten or holds the slot. -/
def Settled (r : Rules V K) (b : Board V K) : Rec V → Prop
  | .put v => ∃ u, b.holder (r.key v) = some u ∧ ¬ r.beats v u
  | .drop v => ∃ u, b.holder (r.key v) = some u ∧ r.beats u v
  | .bury _ => False

theorem Settled.put {a : Rec V} (h : Settled r b a) (v : V) : Settled r (put r b v) a := by
  by_cases ha : Accepts r b v
  · -- the new holder of the slot, if it is this one, beats the old one
    have hnext : ∀ w u, b.holder (r.key w) = some u →
        ∃ u', (Registers.put r b v).holder (r.key w) = some u' ∧ (u' = u ∨ r.beats u' u) := by
      intro w u hu
      by_cases hk : r.key w = r.key v
      · refine ⟨v, by rw [hk]; exact put_holder_self ha, Or.inr (ha.2 u ?_)⟩
        rw [← hk]
        exact hu
      · exact ⟨u, by rw [put_holder_ne b hk]; exact hu, Or.inl rfl⟩
    cases a with
    | put w =>
      obtain ⟨u, hu, hb⟩ := h
      obtain ⟨u', hu', hle⟩ := hnext w u hu
      refine ⟨u', hu', fun hw => hb ?_⟩
      rcases hle with rfl | hle
      · exact hw
      · exact r.trans hw hle
    | drop w =>
      obtain ⟨u, hu, hb⟩ := h
      obtain ⟨u', hu', hle⟩ := hnext w u hu
      refine ⟨u', hu', ?_⟩
      rcases hle with rfl | hle
      · exact hb
      · exact r.trans hle hb
    | bury w => exact h
  · rwa [put_of_not_accepts ha]

/-- The records of a put are settled right away. -/
theorem settled_recsOf (hs : ∀ k u, b.holder k = some u → r.key u = k) (v : V) :
    ∀ a ∈ recsOf r b (.put v), Settled r (Registers.put r b v) a := by
  intro a ha
  by_cases hacc : Accepts r b v
  · simp only [recsOf, if_pos hacc] at ha
    rcases List.mem_cons.1 ha with rfl | ha
    · exact ⟨v, put_holder_self hacc, r.irrefl v⟩
    · obtain ⟨u, hu, rfl⟩ := List.mem_map.1 ha
      have hu' : b.holder (r.key v) = some u := Option.mem_toList.1 hu
      refine ⟨v, ?_, hacc.2 u hu'⟩
      rw [hs _ _ hu']
      exact put_holder_self hacc
  · simp only [recsOf, if_neg hacc] at ha
    exact absurd ha List.not_mem_nil

/-- With nothing buried a put is settled, taken over or refused. -/
theorem settled_put (hb : b.buried = []) (v : V) : Settled r (Registers.put r b v) (.put v) := by
  by_cases ha : Accepts r b v
  · exact ⟨v, put_holder_self ha, r.irrefl v⟩
  · rw [put_of_not_accepts ha]
    exact exists_of_not_accepts hb ha

theorem Settled.puts {a : Rec V} (h : Settled r b a) (vs : List V) :
    Settled r (replay r b (vs.map .put)) a := by
  induction vs generalizing b with
  | nil => exact h
  | cons v vs ih => exact ih (h.put v)

theorem settled_puts (hb : b.buried = []) {vs : List V} (hv : v ∈ vs) :
    Settled r (replay r b (vs.map .put)) (.put v) := by
  induction vs generalizing b with
  | nil => cases hv
  | cons w vs ih =>
    rcases List.mem_cons.1 hv with rfl | hv
    · exact (settled_put hb v).puts vs
    · exact ih (b := Registers.put r b w) (by rw [put_buried, hb]) hv

/-- Puts only, in any order: a slot ends with the version of its key that no other beats. -/
theorem replay_puts_iff {vs : List V} {x : V} :
    (replay r empty (vs.map .put)).holder (r.key x) = some x ↔
      x ∈ vs ∧ ∀ v ∈ vs, r.key v = r.key x → ¬ r.beats v x := by
  constructor
  · intro hx
    refine ⟨?_, fun v hv hk => ?_⟩
    · rcases put_mem_of_replay hx with hm | hn
      · obtain ⟨v, hv, he⟩ := List.mem_map.1 hm
        cases he
        exact hv
      · cases hn
    · obtain ⟨u, hu, hb⟩ := settled_puts (r := r) (b := empty) rfl hv
      rw [hk, hx] at hu
      cases hu
      exact hb
  · rintro ⟨hx, htop⟩
    refine replay_top (fun a ha => ?_) ⟨rfl, (fun u hu => by cases hu), Or.inl (List.mem_map_of_mem hx)⟩
    obtain ⟨v, hv, rfl⟩ := List.mem_map.1 ha
    exact htop v hv

/-- With settled records only, a holder comes back exactly when it is recorded. -/
theorem replay_holds_iff {recs : List (Rec V)} (h : ∀ a ∈ recs, Settled r b a) {x : V}
    (hx : b.holder (r.key x) = some x) :
    (replay r empty recs).holder (r.key x) = some x ↔ Rec.put x ∈ recs := by
  constructor
  · intro hh
    rcases put_mem_of_replay hh with hm | hn
    · exact hm
    · cases hn
  · intro hm
    refine replay_top (fun a ha => ?_) ⟨rfl, (fun u hu => by cases hu), Or.inl hm⟩
    have hset := h a ha
    cases a with
    | put v =>
      intro hk
      obtain ⟨u, hu, hb⟩ := hset
      rw [hk, hx] at hu
      cases hu
      exact hb
    | drop v =>
      rintro rfl
      obtain ⟨u, hu, hb⟩ := hset
      rw [hx] at hu
      cases hu
      exact r.irrefl _ hb
    | bury v => exact hset

end
end
end Registers
