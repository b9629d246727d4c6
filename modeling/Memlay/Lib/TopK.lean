import Mathlib.Order.Lattice
import Mathlib.Data.List.Pairwise
import Mathlib.Data.List.Perm.Subperm

/-!
# A bounded heap over sorted runs

Runs that are sorted by a key go one after the other through a heap of at most
`count` elements.  Once the heap is full, an element takes the place of the top if
it is `better` than it; the first one that is not ends its run.

What is kept depends on which end of the heap is on top.

    the top has the greatest key, a smaller key is better      (Smallest.runs)
        →  the count smallest keys of all runs
    the top has the greatest key, a greater key is better      (Stuck.runs)
        →  the first count elements, the greatest of them replaced by the greatest of all

In the second case `Stuck.mem_iff` says which elements these are, by their places alone:
the one that goes (`Displaced`) is on top of the first `count`, the one that comes
(`Displaces`) is the first of those with the greatest key.
-/

namespace TopK

section
variable {α : Type*} (first : α → α → Prop) [DecidableRel first]

/-- A binary heap by its pop order: what comes `first` is on top. -/
def push (a : α) : List α → List α
  | [] => [a]
  | x :: xs => if first x a then x :: push a xs else a :: x :: xs

theorem push_perm (a : α) (heap : List α) : (push first a heap).Perm (a :: heap) := by
  induction heap with
  | nil => exact List.Perm.refl _
  | cons x heap ih =>
    unfold push
    split
    · exact (ih.cons x).trans (List.Perm.swap a x heap)
    · exact List.Perm.refl _

variable (better : α → α → Prop) [DecidableRel better]

/-- One run through the heap. -/
def scan (count : Nat) : List α → List α → List α
  | [], heap => heap
  | a :: as, heap =>
    if heap.length < count then scan count as (push first a heap)
    else
      match heap with
      | [] => []
      | top :: rest => if better a top then scan count as (push first a rest) else heap

/-- All runs, one after the other. -/
def scanRuns (count : Nat) (runs : List (List α)) (heap : List α) : List α :=
  runs.foldl (fun heap run => scan first better count run heap) heap

end

/-! ## Keys -/

section
variable {α β : Type*} [LinearOrder β] (key : α → β)

/-- Greatest key first. -/
def Down (l : List α) : Prop := l.Pairwise fun a b => key b ≤ key a

/-- Smallest key first. -/
def Up (l : List α) : Prop := l.Pairwise fun a b => key a ≤ key b

/-- The order of the heap goes by the key, greatest on top; ties may be broken. -/
def ByKey (first : α → α → Prop) : Prop :=
  ∀ a b, (first a b → key b ≤ key a) ∧ (¬ first a b → key a ≤ key b)

variable {key} {first : α → α → Prop} [DecidableRel first]

theorem down_push (hf : ByKey key first) (a : α) {heap : List α} (h : Down key heap) :
    Down key (push first a heap) := by
  induction heap with
  | nil => exact List.pairwise_singleton _ a
  | cons x heap ih =>
    obtain ⟨hx, ht⟩ := List.pairwise_cons.1 h
    unfold push
    split
    · rename_i hfirst
      refine List.pairwise_cons.2 ⟨?_, ih ht⟩
      intro y hy
      rcases List.mem_cons.1 ((push_perm first a heap).mem_iff.1 hy) with rfl | hy
      · exact (hf x y).1 hfirst
      · exact hx y hy
    · rename_i hfirst
      have hxa : key x ≤ key a := (hf x a).2 hfirst
      refine List.pairwise_cons.2 ⟨?_, h⟩
      intro y hy
      rcases List.mem_cons.1 hy with rfl | hy
      · exact hxa
      · exact (hx y hy).trans hxa

/-! ## The smallest keys -/

/-- `heap` keeps the `count` smallest keys of what was seen. -/
structure Smallest (key : α → β) (count : Nat) (seen heap : List α) : Prop where
  down : Down key heap
  length : heap.length = min count seen.length
  split : ∃ rest, (heap ++ rest).Perm seen ∧ ∀ x ∈ heap, ∀ y ∈ rest, key x ≤ key y

theorem Smallest.nil (key : α → β) (count : Nat) : Smallest key count [] [] where
  down := List.Pairwise.nil
  length := by simp
  split := ⟨[], List.Perm.refl _, by simp⟩

section
variable {count : Nat} {seen heap : List α} {a : α}

/-- As long as there is room, nothing has been dropped. -/
theorem Smallest.push (hf : ByKey key first) (h : Smallest key count seen heap) (hroom : heap.length < count)
    (a : α) : Smallest key count (seen ++ [a]) (TopK.push first a heap) := by
  obtain ⟨rest, hperm, -⟩ := h.split
  have hlen := h.length
  have hsum := hperm.length_eq
  rw [List.length_append] at hsum
  have hrest : rest = [] := List.length_eq_zero_iff.1 (by omega)
  rw [hrest, List.append_nil] at hperm
  have hpush := push_perm first a heap
  refine ⟨down_push hf a h.down, ?_, [], ?_, by simp⟩
  · rw [hpush.length_eq, List.length_append, List.length_cons, List.length_cons, List.length_nil]
    omega
  · rw [List.append_nil]
    exact hpush.trans ((hperm.cons a).trans (List.perm_append_singleton a seen).symm)

/-- A smaller key takes the place of the greatest. -/
theorem Smallest.replace {top : α} {tail : List α} (hf : ByKey key first)
    (h : Smallest key count seen (top :: tail)) (hfull : count ≤ (top :: tail).length) (ha : key a < key top) :
    Smallest key count (seen ++ [a]) (TopK.push first a tail) := by
  obtain ⟨rest, hperm, hle⟩ := h.split
  obtain ⟨htop, htail⟩ := List.pairwise_cons.1 h.down
  have hlen := h.length
  have hpush := push_perm first a tail
  refine ⟨down_push hf a htail, ?_, top :: rest, ?_, ?_⟩
  · rw [hpush.length_eq, List.length_append, List.length_cons, List.length_cons, List.length_nil]
    rw [List.length_cons] at hfull hlen
    omega
  · refine (hpush.append_right _).trans ?_
    refine List.Perm.trans ?_ (List.perm_append_singleton a seen).symm
    refine List.Perm.cons a (List.Perm.trans ?_ hperm)
    exact List.perm_middle
  · intro x hx y hy
    rcases List.mem_cons.1 (hpush.mem_iff.1 hx) with rfl | hx
    · rcases List.mem_cons.1 hy with rfl | hy
      · exact ha.le
      · exact ha.le.trans (hle top List.mem_cons_self y hy)
    · rcases List.mem_cons.1 hy with rfl | hy
      · exact htop x hx
      · exact hle x (List.mem_cons_of_mem top hx) y hy

/-- What no key of is smaller than the greatest kept can be skipped. -/
theorem Smallest.skip {top : α} {tail as : List α} (h : Smallest key count seen (top :: tail))
    (hfull : count ≤ (top :: tail).length) (has : ∀ y ∈ as, key top ≤ key y) :
    Smallest key count (seen ++ as) (top :: tail) := by
  obtain ⟨rest, hperm, hle⟩ := h.split
  have hlen := h.length
  refine ⟨h.down, ?_, rest ++ as, ?_, ?_⟩
  · rw [List.length_append]
    omega
  · rw [← List.append_assoc]
    exact hperm.append_right as
  · intro x hx y hy
    rcases List.mem_append.1 hy with hy | hy
    · exact hle x hx y hy
    · rcases List.mem_cons.1 hx with rfl | hx
      · exact has y hy
      · exact ((List.pairwise_cons.1 h.down).1 x hx).trans (has y hy)

/-- One run, smallest key first. -/
theorem Smallest.scan {as : List α} (hf : ByKey key first) (hc : 0 < count) (has : Up key as)
    (h : Smallest key count seen heap) :
    Smallest key count (seen ++ as) (TopK.scan first (fun a top => key a < key top) count as heap) := by
  induction as generalizing seen heap with
  | nil =>
    rw [List.append_nil]
    exact h
  | cons a as ih =>
    obtain ⟨hle, has⟩ := List.pairwise_cons.1 has
    have hstep : ∀ heap', Smallest key count (seen ++ [a]) heap' →
        Smallest key count (seen ++ a :: as) (TopK.scan first (fun a top => key a < key top) count as heap') := by
      intro heap' h'
      have hrun := ih has h'
      rwa [List.append_assoc, List.singleton_append] at hrun
    unfold TopK.scan
    split
    · rename_i hroom
      exact hstep _ (h.push hf hroom a)
    · rename_i hfull
      cases heap with
      | nil => exact absurd hc hfull
      | cons top tail =>
        show Smallest key count (seen ++ a :: as) (if key a < key top then _ else top :: tail)
        split
        · rename_i ha
          exact hstep _ (h.replace hf (by omega) ha)
        · rename_i ha
          -- the run is sorted: what follows is no smaller than `a`
          refine h.skip (by omega) ?_
          intro y hy
          rcases List.mem_cons.1 hy with rfl | hy
          · exact not_lt.1 ha
          · exact (not_lt.1 ha).trans (hle y hy)

theorem Smallest.runs {runs : List (List α)} (hf : ByKey key first) (hc : 0 < count)
    (hruns : ∀ run ∈ runs, Up key run) (h : Smallest key count seen heap) :
    Smallest key count (seen ++ runs.flatten)
      (scanRuns first (fun a top => key a < key top) count runs heap) := by
  induction runs generalizing seen heap with
  | nil =>
    rw [List.flatten_nil, List.append_nil]
    exact h
  | cons run runs ih =>
    rw [List.flatten_cons, ← List.append_assoc]
    exact ih (fun r hr => hruns r (List.mem_cons_of_mem run hr))
      (h.scan hf hc (hruns run List.mem_cons_self))

end

/-! ## The wrong end on top -/

/-- The order of the heap is a strict weak one. -/
structure Weak (first : α → α → Prop) : Prop where
  asymm : ∀ {a b}, first a b → ¬ first b a
  not_trans : ∀ {a b c}, ¬ first a b → ¬ first b c → ¬ first a c

/-- What comes first goes first. -/
def Sorted (first : α → α → Prop) (l : List α) : Prop := l.Pairwise fun a b => ¬ first b a

omit [DecidableRel first] in
theorem Sorted.down (hf : ByKey key first) {l : List α} (h : Sorted first l) : Down key l :=
  h.imp fun {a b} hab => (hf b a).2 hab

theorem sorted_push (hw : Weak first) (a : α) {heap : List α} (h : Sorted first heap) :
    Sorted first (push first a heap) := by
  induction heap with
  | nil => exact List.pairwise_singleton _ a
  | cons x heap ih =>
    obtain ⟨hx, ht⟩ := List.pairwise_cons.1 h
    unfold push
    split
    · rename_i hfirst
      refine List.pairwise_cons.2 ⟨fun y hy => ?_, ih ht⟩
      rcases List.mem_cons.1 ((push_perm first a heap).mem_iff.1 hy) with rfl | hy
      · exact hw.asymm hfirst
      · exact hx y hy
    · rename_i hfirst
      refine List.pairwise_cons.2 ⟨fun y hy => ?_, h⟩
      rcases List.mem_cons.1 hy with rfl | hy
      · exact hfirst
      · exact hw.not_trans (hx y hy) hfirst

/-- `a` comes behind the first `count` and has a greater key than all before it. -/
def Late (key : α → β) (count : Nat) (seen : List α) (a : α) : Prop :=
  ∃ pre post, seen = pre ++ a :: post ∧ count ≤ pre.length ∧ ∀ y ∈ pre, key y < key a

theorem Late.append {count : Nat} {seen : List α} {a : α} (h : Late key count seen a) (as : List α) :
    Late key count (seen ++ as) a := by
  obtain ⟨pre, post, rfl, hlen, hlt⟩ := h
  exact ⟨pre, post ++ as, by simp, hlen, hlt⟩

theorem Late.lt {count : Nat} {seen : List α} {a y : α} (h : Late key count seen a) (hy : y ∈ seen.take count) :
    key y < key a := by
  obtain ⟨pre, post, rfl, hlen, hlt⟩ := h
  rw [List.take_append_of_le_length hlen] at hy
  exact hlt y (List.mem_of_mem_take hy)

theorem Late.mem_drop {count : Nat} {seen : List α} {a : α} (h : Late key count seen a) : a ∈ seen.drop count := by
  obtain ⟨pre, post, rfl, hlen, -⟩ := h
  rw [List.drop_append_of_le_length hlen]
  simp

/-- The first `count` elements seen, but for the one on top of them, which is replaced
by the first one of the greatest key. -/
structure Stuck (key : α → β) (first : α → α → Prop) (count : Nat) (seen heap : List α) : Prop where
  filling : seen.length ≤ count → heap.Perm seen ∧ Sorted first heap
  full : count ≤ seen.length → ∃ top best rest, heap = best :: rest ∧
    (top :: rest).Perm (seen.take count) ∧ Sorted first (top :: rest) ∧
    (best = top ∨ Late key count seen best) ∧ ∀ y ∈ seen, key y ≤ key best

omit [DecidableRel first] in
theorem Stuck.nil (key : α → β) {count : Nat} (hc : 0 < count) : Stuck key first count [] [] where
  filling := fun _ => ⟨List.Perm.refl _, List.Pairwise.nil⟩
  full := fun h => absurd h (by rw [List.length_nil]; omega)

section
variable {count : Nat} {seen heap : List α} {a : α}

omit [DecidableRel first] in
theorem Stuck.length_eq (h : Stuck key first count seen heap) : heap.length = min count seen.length := by
  rcases Nat.le_total seen.length count with hle | hle
  · rw [(h.filling hle).1.length_eq]
    omega
  · obtain ⟨top, best, rest, rfl, hperm, -⟩ := h.full hle
    have hlen := hperm.length_eq
    rw [List.length_take] at hlen
    exact hlen

theorem Stuck.push (hf : ByKey key first) (hw : Weak first) (h : Stuck key first count seen heap)
    (hroom : heap.length < count) (a : α) : Stuck key first count (seen ++ [a]) (TopK.push first a heap) := by
  have hlen := h.length_eq
  obtain ⟨hperm, hsorted⟩ := h.filling (by omega)
  have hpush : (TopK.push first a heap).Perm (seen ++ [a]) :=
    (push_perm first a heap).trans ((hperm.cons a).trans (List.perm_append_singleton a seen).symm)
  have hsorted' := sorted_push hw a hsorted
  refine ⟨fun _ => ⟨hpush, hsorted'⟩, fun hfull => ?_⟩
  rw [List.length_append, List.length_singleton] at hfull
  cases hheap : TopK.push first a heap with
  | nil =>
    rw [hheap] at hpush
    have hnil := hpush.length_eq
    rw [List.length_append, List.length_singleton, List.length_nil] at hnil
    omega
  | cons top rest =>
    rw [hheap] at hpush hsorted'
    refine ⟨top, top, rest, rfl, ?_, hsorted', Or.inl rfl, ?_⟩
    · rw [List.take_of_length_le (by rw [List.length_append, List.length_singleton]; omega)]
      exact hpush
    · intro y hy
      rcases List.mem_cons.1 (hpush.mem_iff.2 hy) with rfl | hy
      · exact le_refl _
      · exact (List.pairwise_cons.1 (hsorted'.down hf)).1 y hy

omit [DecidableRel first] in
theorem Stuck.full_append {as : List α} (hfull : count ≤ seen.length) {top best best' : α} {rest : List α}
    (hperm : (top :: rest).Perm (seen.take count)) (hsorted : Sorted first (top :: rest))
    (hbest : best' = top ∨ Late key count (seen ++ as) best') (hseen : ∀ y ∈ seen, key y ≤ key best)
    (hle : key best ≤ key best') (has : ∀ y ∈ as, key y ≤ key best') :
    Stuck key first count (seen ++ as) (best' :: rest) := by
  refine ⟨fun hlen => ?_, fun _ => ⟨top, best', rest, rfl, ?_, hsorted, hbest, ?_⟩⟩
  · -- both bounds: nothing was appended, and `best'` is the top
    rw [List.length_append] at hlen
    have hnil : as = [] := List.length_eq_zero_iff.1 (by omega)
    subst hnil
    rw [List.append_nil] at hbest ⊢
    rcases hbest with rfl | hbest
    · rw [List.take_of_length_le (by omega)] at hperm
      exact ⟨hperm, hsorted⟩
    · have hdrop := hbest.mem_drop
      rw [List.drop_eq_nil_of_le (by omega)] at hdrop
      cases hdrop
  · rw [List.take_append_of_le_length hfull]
    exact hperm
  · intro y hy
    rcases List.mem_append.1 hy with hy | hy
    · exact (hseen y hy).trans hle
    · exact has y hy

/-- One run, greatest key first. -/
theorem Stuck.scan {as : List α} (hf : ByKey key first) (hw : Weak first) (has : Down key as)
    (h : Stuck key first count seen heap) :
    Stuck key first count (seen ++ as) (TopK.scan first (fun a top => key top < key a) count as heap) := by
  induction as generalizing seen heap with
  | nil =>
    rw [List.append_nil]
    exact h
  | cons a as ih =>
    obtain ⟨hle, has⟩ := List.pairwise_cons.1 has
    have hstep : ∀ heap', Stuck key first count (seen ++ [a]) heap' → Stuck key first count (seen ++ a :: as)
        (TopK.scan first (fun a top => key top < key a) count as heap') := by
      intro heap' h'
      have hrun := ih has h'
      rwa [List.append_assoc, List.singleton_append] at hrun
    unfold TopK.scan
    split
    · rename_i hroom
      exact hstep _ (h.push hf hw hroom a)
    · rename_i hroom
      have hlen := h.length_eq
      have hfull : count ≤ seen.length := by omega
      obtain ⟨top, best, rest, rfl, hperm, hsorted, hbest, hseen⟩ := h.full hfull
      show Stuck key first count (seen ++ a :: as) (if key best < key a then _ else best :: rest)
      split
      · rename_i ha
        have hlt : ∀ x ∈ seen, key x < key a := fun x hx => (hseen x hx).trans_lt ha
        -- the greater key goes on top again
        have hpush : Stuck key first count (seen ++ [a]) (a :: rest) :=
          Stuck.full_append hfull hperm hsorted (Or.inr ⟨seen, [], rfl, hfull, hlt⟩) hseen ha.le (by simp)
        cases rest with
        | nil => exact hstep _ hpush
        | cons x rest =>
          have hx : x ∈ seen := List.mem_of_mem_take (hperm.mem_iff.1 (by simp))
          unfold TopK.push
          split
          · rename_i hfirst
            exact absurd ((hf x a).1 hfirst) (not_le.2 (hlt x hx))
          · exact hstep _ hpush
      · rename_i ha
        refine Stuck.full_append hfull hperm hsorted (hbest.imp_right fun hb => hb.append _) hseen (le_refl _) ?_
        intro y hy
        rcases List.mem_cons.1 hy with rfl | hy
        · exact not_lt.1 ha
        · exact (hle y hy).trans (not_lt.1 ha)

theorem Stuck.runs {runs : List (List α)} (hf : ByKey key first) (hw : Weak first)
    (hruns : ∀ run ∈ runs, Down key run) (h : Stuck key first count seen heap) :
    Stuck key first count (seen ++ runs.flatten)
      (scanRuns first (fun a top => key top < key a) count runs heap) := by
  induction runs generalizing seen heap with
  | nil =>
    rw [List.flatten_nil, List.append_nil]
    exact h
  | cons run runs ih =>
    rw [List.flatten_cons, ← List.append_assoc]
    exact ih (fun r hr => hruns r (List.mem_cons_of_mem run hr))
      (h.scan hf hw (hruns run List.mem_cons_self))

/-! ### What is kept -/

variable (key first count seen) in
/-- On top of the first `count`, with a greater key somewhere behind. -/
def Displaced (x : α) : Prop :=
  x ∈ seen.take count ∧ (∀ z ∈ seen.take count, z = x ∨ first x z) ∧ ∃ y ∈ seen, key x < key y

variable (key count seen) in
/-- Behind the first `count`, the first one with the greatest key of all. -/
def Displaces (x : α) : Prop :=
  ∃ pre post, seen = pre ++ x :: post ∧ count ≤ pre.length ∧ (∀ y ∈ pre, key y < key x) ∧
    ∀ y ∈ post, key y ≤ key x

theorem displaces_iff {x : α} :
    Displaces key count seen x ↔ Late key count seen x ∧ ∀ y ∈ seen, key y ≤ key x := by
  constructor
  · rintro ⟨pre, post, rfl, hlen, hpre, hpost⟩
    refine ⟨⟨pre, post, rfl, hlen, hpre⟩, fun y hy => ?_⟩
    rcases List.mem_append.1 hy with hy | hy
    · exact (hpre y hy).le
    · rcases List.mem_cons.1 hy with rfl | hy
      · exact le_refl _
      · exact hpost y hy
  · rintro ⟨⟨pre, post, rfl, hlen, hpre⟩, hall⟩
    exact ⟨pre, post, rfl, hlen, hpre, fun y hy => hall y (by simp [hy])⟩

/-- There is one such element at most. -/
theorem Displaces.unique {x y : α} (hx : Displaces key count seen x)
    (hy : Displaces key count seen y) : x = y := by
  obtain ⟨hlate, hmax⟩ := displaces_iff.1 hy
  obtain ⟨⟨pre, post, hseen, -, hpre⟩, hmax'⟩ := displaces_iff.1 hx
  obtain ⟨pre', post', hseen', -, hpre'⟩ := hlate
  have hsplit := hseen.symm.trans hseen'
  have hno : ∀ {l : List α} {a b : α}, key a ≤ key b → (∀ z ∈ l, key z < key a) → b ∉ l := fun hab hl hb =>
    absurd hab (not_le.2 (hl _ hb))
  rcases List.append_eq_append_iff.1 hsplit with ⟨m, rfl, hm⟩ | ⟨m, rfl, hm⟩
  · cases m with
    | nil => exact (List.cons.inj hm).1
    | cons z m =>
      obtain ⟨rfl, -⟩ := List.cons.inj hm
      exact absurd (by simp) (hno (hmax' y (by rw [hseen']; simp)) hpre')
  · cases m with
    | nil => exact (List.cons.inj hm).1.symm
    | cons z m =>
      obtain ⟨rfl, -⟩ := List.cons.inj hm
      exact absurd (by simp) (hno (hmax x (by rw [hseen]; simp)) hpre)

omit [DecidableRel first] in
/-- Which elements are kept, by their places. -/
theorem Stuck.mem_iff (hf : ByKey key first) (h : Stuck key first count seen heap)
    (hnodup : seen.Nodup) (htotal : ∀ a ∈ seen, ∀ b ∈ seen, a = b ∨ first a b ∨ first b a) {x : α} :
    x ∈ heap ↔ (x ∈ seen.take count ∧ ¬ Displaced key first count seen x) ∨ Displaces key count seen x := by
  have htake : ∀ {z}, z ∈ seen.take count → z ∈ seen := fun hz => List.mem_of_mem_take hz
  rcases Nat.lt_or_ge seen.length count with hlt | hle
  · -- all are kept
    have hall : seen.take count = seen := List.take_of_length_le hlt.le
    have hnone : ¬ Displaces key count seen x := by
      rintro ⟨pre, post, heq, hlen, -⟩
      have hcount := congrArg List.length heq
      rw [List.length_append, List.length_cons] at hcount
      omega
    have hstay : ¬ Displaced key first count seen x := by
      rintro ⟨-, hfirst, y, hy, hxy⟩
      rw [hall] at hfirst
      rcases hfirst y hy with rfl | hfirst
      · exact lt_irrefl _ hxy
      · exact absurd ((hf x y).1 hfirst) (not_le.2 hxy)
    rw [(h.filling hlt.le).1.mem_iff, hall]
    tauto
  · obtain ⟨top, best, rest, rfl, hperm, hsorted, hbest, hmax⟩ := h.full hle
    have hmem : ∀ z, z ∈ seen.take count ↔ z = top ∨ z ∈ rest := by
      intro z
      rw [← hperm.mem_iff, List.mem_cons]
    have htop : top ∈ seen := htake ((hmem top).2 (Or.inl rfl))
    have hnotin : top ∉ rest := (List.nodup_cons.1 (hperm.nodup_iff.2 (hnodup.sublist (List.take_sublist _ _)))).1
    have hbehind : ∀ z ∈ rest, ¬ first z top := (List.pairwise_cons.1 hsorted).1
    -- only the top can go
    have honly : ∀ z, Displaced key first count seen z → z = top := by
      rintro z ⟨hz, hfirst, -⟩
      rcases (hmem z).1 hz with rfl | hz
      · rfl
      · exact ((hfirst top ((hmem top).2 (Or.inl rfl))).resolve_right (hbehind z hz)).symm
    rcases hbest with rfl | hlate
    · have hnone : ¬ Displaces key count seen x := by
        intro hx
        obtain ⟨hlate, -⟩ := displaces_iff.1 hx
        exact absurd (hmax x (List.mem_of_mem_drop hlate.mem_drop))
          (not_le.2 (hlate.lt ((hmem best).2 (Or.inl rfl))))
      have hstay : ¬ Displaced key first count seen x := by
        intro hx
        have htopx := honly x hx
        obtain ⟨-, -, y, hy, hxy⟩ := hx
        rw [htopx] at hxy
        exact absurd (hmax y hy) (not_le.2 hxy)
      rw [List.mem_cons, hmem]
      tauto
    · have hgoes : Displaced key first count seen top := by
        refine ⟨(hmem top).2 (Or.inl rfl), fun z hz => ?_, best, List.mem_of_mem_drop hlate.mem_drop,
          hlate.lt ((hmem top).2 (Or.inl rfl))⟩
        rcases (hmem z).1 hz with rfl | hzr
        · exact Or.inl rfl
        · rcases htotal z (htake hz) top htop with rfl | hzt | htz
          · exact Or.inl rfl
          · exact absurd hzt (hbehind z hzr)
          · exact Or.inr htz
      have hcomes : Displaces key count seen best := displaces_iff.2 ⟨hlate, hmax⟩
      rw [List.mem_cons, hmem]
      constructor
      · rintro (rfl | hx)
        · exact Or.inr hcomes
        · exact Or.inl ⟨Or.inr hx, fun hd => hnotin (honly x hd ▸ hx)⟩
      · rintro (⟨rfl | hx, hstay⟩ | hx)
        · exact absurd hgoes hstay
        · exact Or.inr hx
        · exact Or.inl (hx.unique hcomes)

omit [DecidableRel first] in
/-- It keeps elements of the greatest key only, exactly when the first `count`
elements have it already. -/
theorem Stuck.all_greatest_iff (hf : ByKey key first) (h : Stuck key first count seen heap) (hc : 2 ≤ count) :
    (∀ x ∈ heap, ∀ y ∈ seen, key y ≤ key x) ↔ ∀ x ∈ seen.take count, ∀ y ∈ seen, key y ≤ key x := by
  rcases Nat.le_total seen.length count with hle | hle
  · rw [List.take_of_length_le hle]
    have hmem : ∀ x, x ∈ heap ↔ x ∈ seen := fun x => (h.filling hle).1.mem_iff
    simp only [hmem]
  · obtain ⟨top, best, rest, rfl, hperm, hsorted, -, hbest⟩ := h.full hle
    have hlen := hperm.length_eq
    rw [List.length_take, List.length_cons] at hlen
    have hmem : ∀ x, x ∈ seen.take count ↔ x = top ∨ x ∈ rest := by
      intro x
      rw [← hperm.mem_iff, List.mem_cons]
    constructor
    · intro hall x hx y hy
      rcases (hmem x).1 hx with rfl | hx
      · -- there is a second element, and the top is no smaller
        obtain ⟨z, hz⟩ := List.exists_mem_of_length_pos (show 0 < rest.length by omega)
        exact (hall z (List.mem_cons_of_mem best hz) y hy).trans ((List.pairwise_cons.1 (hsorted.down hf)).1 z hz)
      · exact hall x (List.mem_cons_of_mem best hx) y hy
    · intro hall x hx y hy
      rcases List.mem_cons.1 hx with rfl | hx
      · exact hbest y hy
      · exact hall x ((hmem x).2 (Or.inr hx)) y hy

omit [DecidableRel first] in
theorem Stuck.down (hf : ByKey key first) (h : Stuck key first count seen heap) : Down key heap := by
  rcases Nat.le_total seen.length count with hle | hle
  · exact (h.filling hle).2.down hf
  · obtain ⟨top, best, rest, rfl, hperm, hsorted, -, hbest⟩ := h.full hle
    obtain ⟨-, hrest⟩ := List.pairwise_cons.1 (hsorted.down hf)
    refine List.pairwise_cons.2 ⟨fun x hx => ?_, hrest⟩
    exact hbest x (List.mem_of_mem_take (hperm.mem_iff.1 (List.mem_cons_of_mem top hx)))

omit [DecidableRel first] in
/-- The greatest of all is kept. -/
theorem Stuck.exists_greatest (hf : ByKey key first) (h : Stuck key first count seen heap) {y : α}
    (hy : y ∈ heap) :
    ∃ x ∈ heap, ∀ z ∈ seen, key z ≤ key x := by
  rcases Nat.le_total seen.length count with hle | hle
  · obtain ⟨hperm, hsorted⟩ := h.filling hle
    cases heap with
    | nil => cases hy
    | cons top rest =>
      refine ⟨top, List.mem_cons_self, fun z hz => ?_⟩
      rcases List.mem_cons.1 (hperm.mem_iff.2 hz) with rfl | hz
      · exact le_refl _
      · exact (List.pairwise_cons.1 (hsorted.down hf)).1 z hz
  · obtain ⟨top, best, rest, rfl, -, -, -, hbest⟩ := h.full hle
    exact ⟨best, List.mem_cons_self, hbest⟩

omit [DecidableRel first] in
/-- A sub-multiset of what was seen. -/
theorem Stuck.subperm (h : Stuck key first count seen heap) : heap.Subperm seen := by
  rcases Nat.le_total seen.length count with hle | hle
  · exact (h.filling hle).1.subperm
  · obtain ⟨top, best, rest, rfl, hperm, -, hbest, -⟩ := h.full hle
    rcases hbest with rfl | hbest
    · exact hperm.subperm.trans (List.take_sublist count seen).subperm
    · have hrest : rest.Subperm (seen.take count) :=
        ((List.sublist_cons_self top rest).subperm).trans hperm.subperm
      have hsum : (rest ++ [best]).Subperm (seen.take count ++ seen.drop count) :=
        hrest.append (List.singleton_sublist.2 hbest.mem_drop).subperm
      rw [List.take_append_drop] at hsum
      exact (List.perm_append_singleton best rest).symm.subperm.trans hsum

end

end

end TopK
