import Mathlib.Data.List.Infix

/-!
# Partial machines and what holds along a run

A machine is a step function `step : σ → α → Option σ`: state, action, next
state; `none` means the action is not possible there (a lock is held, a file is
missing).  `run` performs a list of actions.  `Along C s as` says that every
action of the run meets `C` in the state it is performed in.

    run_invariant         C keeps I at each step  →  a run along C keeps I
    run_invariant_mem     the same where C says that the action is one of the run
    forall_prefix_iff     from an I-state, I after a step ↔ C at the step
                          →  I in every state of a run ↔ the run is along C
-/

namespace Machine

variable {σ α : Type*} (step : σ → α → Option σ)

/-- Perform the actions in order; `none` as soon as one is not possible. -/
def run : σ → List α → Option σ
  | s, [] => some s
  | s, a :: as => (step s a).bind fun s' => run s' as

/-- Every action of the run meets `C` in the state it is performed in. -/
def Along (C : σ → α → Prop) : σ → List α → Prop
  | _, [] => True
  | s, a :: as => C s a ∧ ∀ s', step s a = some s' → Along C s' as

/-- The states of a run, each before its action. -/
def passed : σ → List α → List σ
  | _, [] => []
  | s, a :: as => s :: (step s a).elim [] fun s' => passed s' as

@[simp] theorem run_nil (s : σ) : run step s [] = some s := rfl

theorem run_cons_eq_some {s t : σ} {a : α} {as : List α} :
    run step s (a :: as) = some t ↔ ∃ s', step s a = some s' ∧ run step s' as = some t := by
  simp [run, Option.bind_eq_some_iff]

theorem run_append (s : σ) (as bs : List α) :
    run step s (as ++ bs) = (run step s as).bind fun s' => run step s' bs := by
  induction as generalizing s with
  | nil => rfl
  | cons a as ih =>
    simp only [List.cons_append, run]
    cases step s a with
    | none => rfl
    | some s' => exact ih s'

theorem run_concat_eq_some {s t : σ} {a : α} {as : List α} :
    run step s (as ++ [a]) = some t ↔ ∃ s', run step s as = some s' ∧ step s' a = some t := by
  rw [run_append, Option.bind_eq_some_iff]
  simp [run]

theorem passed_concat {s t : σ} {as : List α} (h : run step s as = some t) (a : α) :
    passed step s (as ++ [a]) = passed step s as ++ [t] := by
  induction as generalizing s with
  | nil =>
    cases h
    simp only [List.nil_append, passed]
    cases step _ a <;> rfl
  | cons b as ih =>
    obtain ⟨s', hs', h⟩ := (run_cons_eq_some step).1 h
    simp only [List.cons_append, passed, hs', Option.elim_some, ih h]

/-- A computed run as an existence statement. -/
theorem exists_run (s : σ) (as : List α) (p : σ → Bool) (h : (run step s as).any p = true) :
    ∃ t, run step s as = some t ∧ p t = true := by
  cases ht : run step s as with
  | none =>
    rw [ht] at h
    cases h
  | some t =>
    rw [ht] at h
    exact ⟨t, rfl, h⟩

variable {step} {C : σ → α → Prop}

/-- A run of a decidable condition can be checked by performing it. -/
def decidableAlong [∀ s a, Decidable (C s a)] :
    (as : List α) → (s : σ) → Decidable (Along step C s as)
  | [], _ => isTrue trivial
  | a :: as, s =>
    match hs : step s a with
    | none =>
      decidable_of_iff (C s a) ⟨fun h => ⟨h, fun s' hs' => by rw [hs] at hs'; cases hs'⟩, fun h => h.1⟩
    | some s' =>
      have := decidableAlong as s'
      decidable_of_iff (C s a ∧ Along step C s' as)
        ⟨fun h => ⟨h.1, fun t ht => by rw [hs] at ht; cases ht; exact h.2⟩, fun h => ⟨h.1, h.2 s' hs⟩⟩

instance [∀ s a, Decidable (C s a)] (as : List α) (s : σ) : Decidable (Along step C s as) :=
  decidableAlong as s

theorem Along.mono {D : σ → α → Prop} (h : ∀ s a, C s a → D s a) :
    ∀ (as : List α) (s : σ), Along step C s as → Along step D s as
  | [], _, _ => trivial
  | a :: as, s, hc => ⟨h s a hc.1, fun s' hs => Along.mono h as s' (hc.2 s' hs)⟩

theorem Along.of_append :
    ∀ (as bs : List α) (s : σ), Along step C s (as ++ bs) → Along step C s as
  | [], _, _, _ => trivial
  | _ :: as, bs, _, h => ⟨h.1, fun s' hs => Along.of_append as bs s' (h.2 s' hs)⟩

theorem along_of_forall :
    ∀ (as : List α) (s : σ), (∀ a ∈ as, ∀ s, C s a) → Along step C s as
  | [], _, _ => trivial
  | a :: as, s, h =>
    ⟨h a (by simp) s, fun s' _ => along_of_forall as s' fun b hb => h b (List.mem_cons_of_mem a hb)⟩

/-- A run that is not along `C` has a step that breaks `C`. -/
theorem exists_of_not_along :
    ∀ (as : List α) (s t : σ), run step s as = some t → ¬ Along step C s as →
      ∃ pre a post u v, as = pre ++ a :: post ∧ run step s pre = some u ∧ step u a = some v ∧
        run step v post = some t ∧ ¬ C u a := by
  intro as
  induction as with
  | nil => exact fun s t _ h => absurd trivial h
  | cons a as ih =>
    intro s t hrun h
    obtain ⟨s', hs, ht⟩ := (run_cons_eq_some step).1 hrun
    by_cases hc : C s a
    · have hrest : ¬ Along step C s' as := by
        refine fun hr => h ⟨hc, fun s'' hs'' => ?_⟩
        rw [hs] at hs''
        cases hs''
        exact hr
      obtain ⟨pre, b, post, u, v, rfl, hpre, hb, hpost, hcb⟩ := ih s' t ht hrest
      refine ⟨a :: pre, b, post, u, v, rfl, ?_, hb, hpost, hcb⟩
      exact (run_cons_eq_some step).2 ⟨s', hs, hpre⟩
    · exact ⟨[], a, as, s, s', rfl, rfl, hs, ht, hc⟩

/-- Each action of a run may be taken to be one of its list. -/
theorem along_and_mem (as : List α) (s : σ) (h : Along step C s as) :
    Along step (fun s a => C s a ∧ a ∈ as) s as := by
  have hgen : ∀ (bs : List α) (s : σ), Along step C s bs → (∀ b ∈ bs, b ∈ as) →
      Along step (fun s a => C s a ∧ a ∈ as) s bs := by
    intro bs
    induction bs with
    | nil => exact fun _ _ _ => trivial
    | cons b bs ih =>
      intro s hc hsub
      refine ⟨⟨hc.1, hsub b (by simp)⟩, fun s' hs => ih s' (hc.2 s' hs) fun b' hb' => ?_⟩
      exact hsub b' (List.mem_cons_of_mem b hb')
  exact hgen as s h fun b hb => hb

/-- The run lemma: what each step along `C` keeps, a whole run along `C` keeps. -/
theorem run_invariant {I : σ → Prop}
    (hstep : ∀ s a s', step s a = some s' → C s a → I s → I s') :
    ∀ (as : List α) (s t : σ), run step s as = some t → Along step C s as → I s → I t := by
  intro as
  induction as with
  | nil =>
    intro s t h _ hI
    cases h
    exact hI
  | cons a as ih =>
    intro s t h hc hI
    obtain ⟨s', hs, ht⟩ := (run_cons_eq_some step).1 h
    exact ih s' t ht (hc.2 s' hs) (hstep s a s' hs hc.1 hI)

/-- The run lemma where all that a step needs to know is that its action is one of the run. -/
theorem run_invariant_mem {I : σ → Prop} {as : List α}
    (hstep : ∀ s a s', step s a = some s' → a ∈ as → I s → I s') {s t : σ} (h : run step s as = some t)
    (hI : I s) : I t :=
  run_invariant (fun s a s' hs (ha : True ∧ a ∈ as) => hstep s a s' hs ha.2) as s t h
    (along_and_mem as s (along_of_forall as s fun _ _ _ => trivial)) hI

/-- Where `I` after a step is exactly `C` at the step (on states with `J`), `I`
holds in every state of a run through `J` exactly when the run is along `C`. -/
theorem forall_prefix_iff (I J : σ → Prop) :
    ∀ (as : List α) (s t : σ),
      (∀ s a s', a ∈ as → step s a = some s' → J s → J s' → I s → (I s' ↔ C s a)) →
      run step s as = some t → (∀ bs, bs <+: as → ∀ u, run step s bs = some u → J u) → I s →
      ((∀ bs, bs <+: as → ∀ u, run step s bs = some u → I u) ↔ Along step C s as) := by
  intro as
  induction as with
  | nil =>
    intro s t _ _ _ hI
    refine ⟨fun _ => trivial, fun _ bs hbs u hu => ?_⟩
    rw [List.prefix_nil.1 hbs] at hu
    cases hu
    exact hI
  | cons a as ih =>
    intro s t hstep h hJ hI
    obtain ⟨s', hs, ht⟩ := (run_cons_eq_some step).1 h
    have hone : run step s [a] = some s' := by simp [run, hs]
    have hJ' : J s' := hJ [a] (by simp) s' hone
    have hI' := hstep s a s' (by simp) hs (hJ [] (by simp) s rfl) hJ' hI
    have htail := ih s' t (fun u b u' hb => hstep u b u' (List.mem_cons_of_mem a hb)) ht
      fun bs hbs u hu => hJ (a :: bs) ((List.prefix_cons_inj a).2 hbs) u
        ((run_cons_eq_some step).2 ⟨s', hs, hu⟩)
    constructor
    · intro hall
      have hIs : I s' := hall [a] (by simp) s' hone
      refine ⟨hI'.1 hIs, fun s'' hs'' => ?_⟩
      rw [hs] at hs''
      cases hs''
      refine (htail hIs).1 fun bs hbs u hu => hall (a :: bs) ?_ u ?_
      · exact (List.prefix_cons_inj a).2 hbs
      · exact (run_cons_eq_some step).2 ⟨s', hs, hu⟩
    · rintro ⟨hc, hrest⟩ bs hbs u hu
      cases bs with
      | nil =>
        cases hu
        exact hI
      | cons b bs =>
        obtain ⟨rfl, hbs'⟩ := List.cons_prefix_cons.1 hbs
        obtain ⟨s'', hs'', hu'⟩ := (run_cons_eq_some step).1 hu
        rw [hs] at hs''
        cases hs''
        exact (htail (hI'.2 hc)).2 (hrest s' hs) bs hbs' u hu'

end Machine
