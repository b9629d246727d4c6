import Memlay.StoreRuns
import Memlay.Lib.Smoothing

/-!
# The amplification estimate (`src/store/mod.rs`)

The ratio of the process's memory to the payload, in thousandths, is smoothed by an
eighth of its error for each sample.  The arithmetic is that of machine words: the
product saturates, the difference is signed and its eighth is rounded towards zero.  In
range nothing wraps (`toInt_smoothed`), so on the numbers a sample is one `Smoothing.nudge`.
-/

namespace Memlay
namespace Store

def defaultAmplificationMilli : Usize := 4000

def minAmplificationSampleBytes : Usize := 64 * 1024 * 1024

/-- `u64::saturating_mul` -/
def saturatingMul (a b : Usize) : Usize :=
  if a.toNat * b.toNat < 2 ^ 64 then a * b else BitVec.allOnes 64

/-- `clamp` of unsigned words -/
def clampU (x lo hi : Usize) : Usize := if x < lo then lo else if hi < x then hi else x

/-- `clamp` of signed words -/
def clampI (x lo hi : Usize) : Usize := if x.slt lo then lo else if hi.slt x then hi else x

/-- The store holds too little, or there is no measurement. -/
def ignored (rss payload : Usize) : Prop := payload < minAmplificationSampleBytes ∨ rss = 0

instance (rss payload : Usize) : Decidable (ignored rss payload) := inferInstanceAs (Decidable (_ ∨ _))

def observed (rss payload : Usize) : Usize := clampU (saturatingMul rss 1000 / payload) 1000 16000

/-- `sample_amplification`: the next value of `amplification_milli`. -/
def sampleAmplification (previous rss payload : Usize) : Usize :=
  if ignored rss payload then previous
  else clampI (previous + (observed rss payload - previous).sdiv 8) 1000 16000

/-- Sample after sample, each an RSS and a payload. -/
def sampleAll (amplification : Usize) (samples : List (Usize × Usize)) : Usize :=
  samples.foldl (fun a s => sampleAmplification a s.1 s.2) amplification

def InRange (a : Usize) : Prop := 1000 ≤ a.toNat ∧ a.toNat ≤ 16000

/-- A sample that counts, with this ratio. -/
def Observes (r : Usize) (s : Usize × Usize) : Prop := ¬ ignored s.1 s.2 ∧ observed s.1 s.2 = r

/-- What holds of the estimate from `start` on. -/
structure SafeEstimate (start : Usize) : Prop where
  range : ∀ samples, InRange (sampleAll start samples)
  /-- the words give what the integers give -/
  exact : ∀ samples rss payload, ¬ ignored rss payload →
    ((sampleAll start (samples ++ [(rss, payload)])).toNat : Int) = (sampleAll start samples).toNat +
      ((observed rss payload).toNat - (sampleAll start samples).toNat : Int).tdiv 8
  budget : ∀ samples (maxBytes : Usize), maxBytes.toNat * 1000 < 2 ^ 64 →
    maxBytes.toNat / 16 ≤ (Index.payloadBudget maxBytes (sampleAll start samples)).toNat ∧
      (Index.payloadBudget maxBytes (sampleAll start samples)).toNat ≤ maxBytes.toNat
  /-- towards the ratio, and not past it -/
  towards : ∀ samples s r, Observes r s →
    ((sampleAll start samples).toNat ≤ r.toNat →
      (sampleAll start samples).toNat ≤ (sampleAll start (samples ++ [s])).toNat ∧
        (sampleAll start (samples ++ [s])).toNat ≤ r.toNat) ∧
    (r.toNat ≤ (sampleAll start samples).toNat →
      r.toNat ≤ (sampleAll start (samples ++ [s])).toNat ∧
        (sampleAll start (samples ++ [s])).toNat ≤ (sampleAll start samples).toNat)
  /-- close to a constant ratio after finitely many samples, and from then on -/
  settles : ∀ r, ∃ n, ∀ samples, (∀ s ∈ samples, Observes r s) → n ≤ samples.length →
    (sampleAll start samples).toNat ≤ r.toNat + 7 ∧ r.toNat ≤ (sampleAll start samples).toNat + 7

/-! ## One sample -/

theorem clampU_mem (x : Usize) : InRange (clampU x 1000 16000) := by
  have hlo : (1000 : Usize).toNat = 1000 := rfl
  have hhi : (16000 : Usize).toNat = 16000 := rfl
  unfold InRange clampU
  split
  · rw [hlo]
    omega
  · rename_i h
    rw [BitVec.lt_def, hlo] at h
    split
    · rw [hhi]
      omega
    · rename_i h'
      rw [BitVec.lt_def, hhi] at h'
      omega

theorem toInt_of_inRange {a : Usize} (h : InRange a) : a.toInt = a.toNat := by
  obtain ⟨-, hle⟩ := h
  exact BitVec.toInt_eq_toNat_of_lt (by omega)

/-- The eighth of the error, rounded towards zero, as a step of naturals. -/
theorem add_tdiv_eq_nudge (x r : Nat) : (x : Int) + ((r : Int) - x).tdiv 8 = Smoothing.nudge 8 x r := by
  unfold Smoothing.nudge
  split
  · rw [Int.tdiv_eq_ediv_of_nonneg (by omega)]
    omega
  · have hneg : ((r : Int) - x).tdiv 8 = -((x : Int) - r).tdiv 8 := by
      rw [← Int.neg_tdiv, Int.neg_sub]
    rw [hneg, Int.tdiv_eq_ediv_of_nonneg (by omega)]
    omega

/-- In range the signed words do not wrap. -/
theorem toInt_smoothed {x r : Usize} (hx : InRange x) (hr : InRange r) :
    (x + (r - x).sdiv 8).toInt = x.toNat + ((r.toNat : Int) - x.toNat).tdiv 8 := by
  have hsub : (r - x).toInt = (r.toNat : Int) - x.toNat := by
    rw [BitVec.toInt_sub, toInt_of_inRange hx, toInt_of_inRange hr]
    unfold InRange at hx hr
    exact Int.bmod_eq_of_le (by omega) (by omega)
  have hdiv : ((r - x).sdiv 8).toInt = ((r.toNat : Int) - x.toNat).tdiv 8 := by
    rw [BitVec.toInt_sdiv_of_ne_or_ne _ _ (Or.inr (by decide)), hsub]
    rfl
  rw [BitVec.toInt_add, hdiv, toInt_of_inRange hx, add_tdiv_eq_nudge]
  have hmem := Smoothing.nudge_mem (k := 8) hx hr
  exact Int.bmod_eq_of_le (by omega) (by omega)

theorem toNat_sample {x rss payload : Usize} (hx : InRange x) (hc : ¬ ignored rss payload) :
    (sampleAmplification x rss payload).toNat = Smoothing.nudge 8 x.toNat (observed rss payload).toNat := by
  have hr : InRange (observed rss payload) := clampU_mem _
  have hint := toInt_smoothed hx hr
  rw [add_tdiv_eq_nudge] at hint
  have hmem := Smoothing.nudge_mem (k := 8) hx hr
  unfold sampleAmplification clampI
  rw [if_neg hc, if_neg, if_neg]
  · -- a word whose signed value is small has that value
    have hcases := BitVec.toInt_eq_toNat_cond (x + (observed rss payload - x).sdiv 8)
    split at hcases
    · omega
    · have hlt := (x + (observed rss payload - x).sdiv 8).isLt
      omega
  · rw [BitVec.slt_iff_toInt_lt, hint]
    show ¬ (16000 : Int) < _
    omega
  · rw [BitVec.slt_iff_toInt_lt, hint]
    show ¬ _ < (1000 : Int)
    omega

theorem inRange_sample {x : Usize} (hx : InRange x) (rss payload : Usize) :
    InRange (sampleAmplification x rss payload) := by
  by_cases hc : ignored rss payload
  · unfold sampleAmplification
    rw [if_pos hc]
    exact hx
  · unfold InRange
    rw [toNat_sample hx hc]
    exact Smoothing.nudge_mem hx (clampU_mem _)

/-! ## Samples one after another -/

section
variable {start : Usize}

theorem sampleAll_append (start : Usize) (samples : List (Usize × Usize)) (s : Usize × Usize) :
    sampleAll start (samples ++ [s]) = sampleAmplification (sampleAll start samples) s.1 s.2 := by
  unfold sampleAll
  rw [List.foldl_append]
  rfl

theorem inRange_sampleAll (hs : InRange start) (samples : List (Usize × Usize)) :
    InRange (sampleAll start samples) := by
  induction samples using List.reverseRecOn with
  | nil => exact hs
  | append_singleton samples s ih =>
    rw [sampleAll_append]
    exact inRange_sample ih s.1 s.2

/-- The run lemma: samples of one ratio are nudges towards it. -/
theorem toNat_sampleAll (hs : InRange start) {r : Usize} {samples : List (Usize × Usize)}
    (hall : ∀ s ∈ samples, Observes r s) :
    (sampleAll start samples).toNat = (fun x => Smoothing.nudge 8 x r.toNat)^[samples.length] start.toNat := by
  induction samples using List.reverseRecOn with
  | nil => rfl
  | append_singleton samples s ih =>
    obtain ⟨hc, hr⟩ := hall s (List.mem_append_right samples List.mem_cons_self)
    rw [sampleAll_append, toNat_sample (inRange_sampleAll hs samples) hc, hr,
      ih fun a ha => hall a (List.mem_append_left [s] ha), List.length_append, List.length_singleton,
      Function.iterate_succ_apply']

end

theorem toNat_payloadBudget {a maxBytes : Usize} (ha : InRange a) (hmax : maxBytes.toNat * 1000 < 2 ^ 64) :
    (Index.payloadBudget maxBytes a).toNat = maxBytes.toNat * 1000 / a.toNat := by
  unfold Index.payloadBudget
  split
  · rename_i hzero
    rw [hzero]
    simp
  · have hlt : ¬ a < 1000 := by
      rw [BitVec.lt_def]
      exact Nat.not_lt.2 ha.1
    rw [if_neg hlt, BitVec.toNat_udiv, BitVec.toNat_mul]
    show maxBytes.toNat * 1000 % 2 ^ 64 / a.toNat = _
    rw [Nat.mod_eq_of_lt hmax]

/-- A sixteenth of the limit at least, and never more than the limit. -/
theorem budget_bounds {a m : Nat} (ha : 1000 ≤ a ∧ a ≤ 16000) : m / 16 ≤ m * 1000 / a ∧ m * 1000 / a ≤ m := by
  obtain ⟨hlo, hhi⟩ := ha
  constructor
  · refine (Nat.le_div_iff_mul_le (by omega)).2 ?_
    calc m / 16 * a ≤ m / 16 * 16000 := Nat.mul_le_mul_left _ hhi
      _ ≤ m * 1000 := by omega
  · refine Nat.div_le_of_le_mul ?_
    rw [Nat.mul_comm a m]
    exact Nat.mul_le_mul_left m hlo

/-- For every sequence of samples of any RSS and payload, from any estimate in range: the
estimate stays in range and nothing wraps, the budget lies between a sixteenth of the
limit and the limit, and a constant ratio is approached from one side, reached up to 7
and not left again. -/
theorem safeEstimate (start : Usize) (hs : InRange start) : SafeEstimate start where
  range := inRange_sampleAll hs
  exact := by
    intro samples rss payload hc
    rw [sampleAll_append, toNat_sample (inRange_sampleAll hs samples) hc]
    exact (add_tdiv_eq_nudge _ _).symm
  budget := by
    intro samples maxBytes hmax
    have ha := inRange_sampleAll hs samples
    rw [toNat_payloadBudget ha hmax]
    exact budget_bounds ha
  towards := by
    rintro samples s r ⟨hc, rfl⟩
    rw [sampleAll_append, toNat_sample (inRange_sampleAll hs samples) hc]
    exact ⟨Smoothing.nudge_of_le, Smoothing.nudge_of_ge⟩
  settles := by
    intro r
    refine ⟨16000, fun samples hall hlen => ?_⟩
    obtain ⟨s, hmem⟩ := List.exists_mem_of_length_pos (show 0 < samples.length by omega)
    have hr : InRange r := by
      rw [← (hall s hmem).2]
      exact clampU_mem _
    unfold InRange at hs hr
    have hnear := Smoothing.near_iterate (k := 8) (x := start.toNat) (r := r.toNat)
        (n := samples.length) (by decide)
      ⟨by omega, by omega⟩
    rw [← toNat_sampleAll hs hall] at hnear
    unfold Smoothing.Near at hnear
    omega

theorem safeEstimate_default : SafeEstimate defaultAmplificationMilli :=
  safeEstimate defaultAmplificationMilli ⟨by decide, by decide⟩

end Store
end Memlay
