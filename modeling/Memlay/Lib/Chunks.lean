import Mathlib.Data.List.Basic

/-!
# Work in chunks

A list is worked through in chunks, with a test after each chunk; what the test asks for
lasts once it holds.  The work done is then the beginning of the list; it is all of it or
the test holds at its end, and less than one chunk of it was done too much.
-/

namespace Chunks

section
variable {α : Type*}

theorem flatten_go (n : Nat) (xs : List α) (chunk : Array α) (chunks : Array (List α)) :
    (List.toChunks.go n xs chunk chunks).flatten = chunks.toList.flatten ++ chunk.toList ++ xs := by
  induction xs generalizing chunk chunks with
  | nil =>
    unfold List.toChunks.go
    simp
  | cons x xs ih =>
    unfold List.toChunks.go
    split
    · rw [ih]
      simp
    · rw [ih]
      simp

theorem flatten_toChunks (n : Nat) (l : List α) : (l.toChunks n).flatten = l := by
  unfold List.toChunks
  split
  · rfl
  · simp
  · rw [flatten_go]
    simp

theorem length_le_of_mem_go {n : Nat} (hn : 0 < n) {xs : List α} {chunk : Array α} {chunks : Array (List α)}
    (hchunk : chunk.size ≤ n) (hchunks : ∀ c ∈ chunks.toList, c.length ≤ n) {c : List α}
    (hc : c ∈ List.toChunks.go n xs chunk chunks) : c.length ≤ n := by
  induction xs generalizing chunk chunks with
  | nil =>
    unfold List.toChunks.go at hc
    simp only [Array.toList_push, List.mem_append, List.mem_singleton] at hc
    rcases hc with hc | rfl
    · exact hchunks c hc
    · exact hchunk
  | cons x xs ih =>
    unfold List.toChunks.go at hc
    split at hc
    · refine ih (by simp; omega) (fun d hd => ?_) hc
      simp only [Array.toList_push, List.mem_append, List.mem_singleton] at hd
      rcases hd with hd | rfl
      · exact hchunks d hd
      · exact hchunk
    · rename_i hsize
      have hne : chunk.size ≠ n := by simpa using hsize
      refine ih ?_ hchunks hc
      rw [Array.size_push]
      omega

theorem length_le_of_mem_toChunks {n : Nat} (hn : 0 < n) {l c : List α} (hc : c ∈ l.toChunks n) :
    c.length ≤ n := by
  unfold List.toChunks at hc
  split at hc
  · cases hc
  · omega
  · exact length_le_of_mem_go hn (by simp; omega) (by simp) hc

end

section
variable {σ α : Type*} (work : σ → α → σ) (enough : σ → Prop) [DecidablePred enough]

/-- Chunk by chunk, until it is enough. -/
def loop : List (List α) → σ → σ
  | [], s => s
  | chunk :: chunks, s =>
    let s := chunk.foldl work s
    if enough s then s else loop chunks s

/-- The work on `done`, a beginning of `l`, is what was needed. -/
structure Needed (n : Nat) (l : List α) (s : σ) (done : List α) : Prop where
  part : done <+: l
  ends : enough (done.foldl work s) ∨ done = l
  prompt : ∀ i ≤ done.length, enough ((done.take i).foldl work s) → done.length - i < n

variable {work enough} {n : Nat}

/-- `I` is an invariant of the work under which enough stays enough. -/
theorem needed_loop {I : σ → Prop} (hI : ∀ s a, I s → I (work s a))
    (hlast : ∀ s a, I s → enough s → enough (work s a)) {chunks : List (List α)}
    (hn : ∀ chunk ∈ chunks, chunk.length ≤ n) (hpos : 0 < n) {s : σ} (hIs : I s) (hs : ¬ enough s) :
    ∃ done, loop work enough chunks s = done.foldl work s ∧ Needed work enough n chunks.flatten s done := by
  have hIs' : ∀ (l : List α) (s : σ), I s → I (l.foldl work s) := by
    intro l
    induction l with
    | nil => exact fun s h => h
    | cons a l ih => exact fun s h => ih _ (hI s a h)
  have hlasts : ∀ (l : List α) (s : σ), I s → enough s → enough (l.foldl work s) := by
    intro l
    induction l with
    | nil => exact fun s _ h => h
    | cons a l ih => exact fun s hs h => ih _ (hI s a hs) (hlast s a hs h)
  induction chunks generalizing s with
  | nil =>
    refine ⟨[], rfl, List.prefix_rfl, Or.inr rfl, fun i hi _ => ?_⟩
    simpa using hpos
  | cons chunk chunks ih =>
    have hlen := hn chunk List.mem_cons_self
    unfold loop
    simp only
    split
    · rename_i hstop
      refine ⟨chunk, rfl, List.prefix_append _ _, Or.inl hstop, fun i hi he => ?_⟩
      -- it was not enough before the chunk, so `i` is past its first element
      rcases Nat.eq_zero_or_pos i with rfl | hi0
      · exact absurd he hs
      · omega
    · rename_i hstop
      obtain ⟨done, heq, hneed⟩ := ih (fun c hc => hn c (List.mem_cons_of_mem _ hc)) (hIs' chunk s hIs) hstop
      refine ⟨chunk ++ done, ?_, ?_, ?_, fun i hi he => ?_⟩
      · rw [List.foldl_append, heq]
      · rw [List.flatten_cons]
        exact (List.prefix_append_right_inj chunk).2 hneed.part
      · rw [List.foldl_append, List.flatten_cons]
        exact hneed.ends.imp_right fun h => by rw [h]
      · rw [List.length_append] at hi ⊢
        rcases Nat.lt_or_ge chunk.length i with hgt | hle
        · rw [List.take_append, List.take_of_length_le (Nat.le_of_lt hgt), List.foldl_append] at he
          have := hneed.prompt (i - chunk.length) (by omega) he
          omega
        · rw [List.take_append_of_le_length hle] at he
          have hend := hlasts (chunk.drop i) _ (hIs' (chunk.take i) s hIs) he
          rw [← List.foldl_append, List.take_append_drop] at hend
          exact absurd hend hstop

end

end Chunks
