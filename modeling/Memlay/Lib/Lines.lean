import Mathlib.Data.List.TakeWhile

/-!
# Line-oriented files

A file read line by line, the way Rust's `BufRead::lines` reads it: a piece ends
with its newline (the last one may have none), must be UTF-8 as a whole, and
loses `\n` or `\r\n` before it is handed out.  Reading stops at the first piece
that is not UTF-8.

    lines_write         one-line texts, each written with a newline, are read back as they are
    mem_lines_write     what is read back is a stretch between two newlines, less a `\r`
-/

namespace Lines

/-! ## UTF-8 -/

/-- Bytes still due in the current code point, and the range of the next one. -/
structure Due where
  count : Nat
  lo : UInt8
  hi : UInt8
deriving DecidableEq

def Due.start : Due := ⟨0, 0x80, 0xBF⟩

/-- One byte of a UTF-8 text; `none`: it cannot stand here. -/
def utf8Step (s : Due) (b : UInt8) : Option Due :=
  if s.count = 0 then
    if b ≤ 0x7F then some .start
    else if 0xC2 ≤ b ∧ b ≤ 0xDF then some ⟨1, 0x80, 0xBF⟩
    -- no overlong forms and no surrogates
    else if b = 0xE0 then some ⟨2, 0xA0, 0xBF⟩
    else if b = 0xED then some ⟨2, 0x80, 0x9F⟩
    else if 0xE1 ≤ b ∧ b ≤ 0xEF then some ⟨2, 0x80, 0xBF⟩
    else if b = 0xF0 then some ⟨3, 0x90, 0xBF⟩
    else if b = 0xF4 then some ⟨3, 0x80, 0x8F⟩
    else if 0xF1 ≤ b ∧ b ≤ 0xF3 then some ⟨3, 0x80, 0xBF⟩
    else none
  else if s.lo ≤ b ∧ b ≤ s.hi then some ⟨s.count - 1, 0x80, 0xBF⟩
  else none

def utf8From (s : Due) : List UInt8 → Option Due
  | [] => some s
  | b :: bs => (utf8Step s b).bind fun s' => utf8From s' bs

/-- `str::from_utf8(bytes).is_ok()` -/
def utf8Valid (bs : List UInt8) : Bool :=
  match utf8From .start bs with
  | some s => decide (s.count = 0)
  | none => false

theorem utf8From_append (s : Due) (as bs : List UInt8) :
    utf8From s (as ++ bs) = (utf8From s as).bind fun s' => utf8From s' bs := by
  induction as generalizing s with
  | nil => rfl
  | cons a as ih =>
    simp only [List.cons_append, utf8From]
    cases utf8Step s a with
    | none => rfl
    | some s' => exact ih s'

/-- Every range of a byte that is due lies above ASCII. -/
theorem utf8Step_lo {s s' : Due} {b : UInt8} (h : utf8Step s b = some s') : 0x80 ≤ s'.lo := by
  unfold utf8Step at h
  repeat' split at h
  all_goals cases h
  all_goals simp [UInt8.le_iff_toNat_le, Due.start]

theorem utf8From_lo {s s' : Due} {bs : List UInt8} (hs : 0x80 ≤ s.lo) (h : utf8From s bs = some s') :
    0x80 ≤ s'.lo := by
  induction bs generalizing s with
  | nil =>
    cases h
    exact hs
  | cons b bs ih =>
    obtain ⟨t, ht, hbs⟩ := Option.bind_eq_some_iff.1 h
    exact ih (utf8Step_lo ht) hbs

/-- A last ASCII byte does not change whether a text is UTF-8. -/
theorem utf8Valid_concat (bs : List UInt8) {b : UInt8} (hb : b ≤ 0x7F) :
    utf8Valid (bs ++ [b]) = utf8Valid bs := by
  unfold utf8Valid
  rw [utf8From_append]
  cases h : utf8From .start bs with
  | none => rfl
  | some s =>
    have hlo : 0x80 ≤ s.lo := utf8From_lo (by decide) h
    by_cases hc : s.count = 0
    · simp [utf8From, utf8Step, hc, hb, Due.start]
    · have hn : ¬ (s.lo ≤ b ∧ b ≤ s.hi) := by
        rintro ⟨h1, -⟩
        have := UInt8.le_iff_toNat_le.1 h1
        have := UInt8.le_iff_toNat_le.1 hlo
        have := UInt8.le_iff_toNat_le.1 hb
        simp at *
        omega
      simp [utf8From, utf8Step, hc, hn]

/-! ## Pieces -/

/-- The pieces of a file, each with its newline; the last one may have none. -/
def pieces : List UInt8 → List (List UInt8)
  | [] => []
  | b :: bs =>
    if b = 10 then [10] :: pieces bs
    else
      match pieces bs with
      | [] => [[b]]
      | p :: ps => (b :: p) :: ps

/-- Take the newline off, and a carriage return before it. -/
def chomp (piece : List UInt8) : List UInt8 :=
  if piece.getLast? = some 10 then
    if piece.dropLast.getLast? = some 13 then piece.dropLast.dropLast else piece.dropLast
  else piece

/-- The lines handed out before the first one that is not UTF-8. -/
def lines (file : List UInt8) : List (List UInt8) := ((pieces file).takeWhile utf8Valid).map chomp

theorem pieces_cons_ne_nil (b : UInt8) (bs : List UInt8) : pieces (b :: bs) ≠ [] := by
  unfold pieces
  split
  · exact List.cons_ne_nil _ _
  · split <;> exact List.cons_ne_nil _ _

theorem pieces_concat_ne_nil (as : List UInt8) (b : UInt8) : pieces (as ++ [b]) ≠ [] := by
  cases as with
  | nil => exact pieces_cons_ne_nil b []
  | cons a as => exact pieces_cons_ne_nil a (as ++ [b])

theorem pieces_append (as bs : List UInt8) :
    pieces (as ++ 10 :: bs) = pieces (as ++ [10]) ++ pieces bs := by
  induction as with
  | nil => rfl
  | cons a as ih =>
    simp only [List.cons_append, pieces]
    rw [ih]
    split
    · rfl
    · cases hp : pieces (as ++ [10]) with
      | nil => exact absurd hp (pieces_concat_ne_nil as 10)
      | cons p ps => rfl

theorem pieces_of_no_newline {as : List UInt8} (h : 10 ∉ as) : pieces (as ++ [10]) = [as ++ [10]] := by
  induction as with
  | nil => rfl
  | cons a as ih =>
    have ha : a ≠ 10 := fun he => h (by simp [he])
    simp only [List.cons_append, pieces, if_neg ha, ih fun hm => h (List.mem_cons_of_mem a hm)]

/-- The pieces of a text that ends with a newline. -/
theorem mem_pieces_concat {as p : List UInt8} (h : p ∈ pieces (as ++ [10])) :
    ∃ l, p = l ++ [10] ∧ 10 ∉ l := by
  induction as generalizing p with
  | nil =>
    refine ⟨[], ?_, List.not_mem_nil⟩
    simpa [pieces] using h
  | cons a as ih =>
    simp only [List.cons_append, pieces] at h
    split at h
    · rename_i ha
      rcases List.mem_cons.1 h with rfl | h
      · exact ⟨[], rfl, List.not_mem_nil⟩
      · exact ih h
    · rename_i ha
      cases hp : pieces (as ++ [10]) with
      | nil => exact absurd hp (pieces_concat_ne_nil as 10)
      | cons q qs =>
        rw [hp] at h
        rcases List.mem_cons.1 h with rfl | h
        · obtain ⟨l, rfl, hl⟩ := ih (p := q) (by rw [hp]; simp)
          refine ⟨a :: l, rfl, ?_⟩
          simp only [List.mem_cons, not_or]
          exact ⟨fun he => ha he.symm, hl⟩
        · exact ih (by rw [hp]; exact List.mem_cons_of_mem q h)

theorem chomp_concat (l : List UInt8) :
    chomp (l ++ [10]) = if l.getLast? = some 13 then l.dropLast else l := by
  unfold chomp
  simp

theorem utf8Valid_chomp {l : List UInt8} (h : utf8Valid (l ++ [10]) = true) :
    utf8Valid (chomp (l ++ [10])) = true := by
  rw [utf8Valid_concat l (by decide)] at h
  rw [chomp_concat]
  split
  · rename_i h13
    obtain ⟨ys, rfl⟩ := List.getLast?_eq_some_iff.1 h13
    rw [utf8Valid_concat ys (by decide)] at h
    rwa [List.dropLast_concat]
  · exact h

theorem utf8Valid_of_ascii {text : List UInt8} (h : ∀ b ∈ text, b ≤ 0x7F) : utf8Valid text = true := by
  have hfrom : utf8From .start text = some .start := by
    induction text with
    | nil => rfl
    | cons b bs ih =>
      have hstep : utf8Step .start b = some .start := if_pos (h b List.mem_cons_self)
      rw [utf8From, hstep, Option.bind_some]
      exact ih fun c hc => h c (List.mem_cons_of_mem b hc)
  unfold utf8Valid
  rw [hfrom]
  rfl

/-! ## Files written line by line -/

/-- A text that a line-oriented file gives back as it was written. -/
def OneLine (text : List UInt8) : Prop :=
  10 ∉ text ∧ utf8Valid text = true ∧ text.getLast? ≠ some 13

instance (text : List UInt8) : Decidable (OneLine text) := inferInstanceAs (Decidable (_ ∧ _ ∧ _))

/-- No control character of ASCII, and nothing beyond ASCII. -/
theorem oneLine_of_printable {text : List UInt8} (h : ∀ b ∈ text, 32 ≤ b ∧ b ≤ 0x7E) : OneLine text := by
  refine ⟨fun h10 => absurd (h 10 h10).1 (by decide),
    utf8Valid_of_ascii fun b hb => UInt8.le_trans (h b hb).2 (by decide), fun h13 => ?_⟩
  exact absurd (h 13 (List.mem_of_getLast? h13)).1 (by decide)

/-- The texts, each followed by a newline. -/
def write (texts : List (List UInt8)) : List UInt8 := (texts.map fun t => t ++ [10]).flatten

theorem write_cons (t : List UInt8) (ts : List (List UInt8)) :
    write (t :: ts) = t ++ 10 :: write ts := by
  simp [write]

theorem pieces_write (texts : List (List UInt8)) :
    pieces (write texts) = (texts.map fun t => pieces (t ++ [10])).flatten := by
  induction texts with
  | nil => rfl
  | cons t ts ih => rw [write_cons, pieces_append, ih]; rfl

theorem pieces_write_of_no_newline {texts : List (List UInt8)} (h : ∀ t ∈ texts, 10 ∉ t) :
    pieces (write texts) = texts.map fun t => t ++ [10] := by
  induction texts with
  | nil => rfl
  | cons t ts ih =>
    rw [write_cons, pieces_append, ih fun t' ht => h t' (List.mem_cons_of_mem t ht),
      pieces_of_no_newline (h t (by simp))]
    rfl

/-- One-line texts are read back as they were written. -/
theorem lines_write {texts : List (List UInt8)} (h : ∀ t ∈ texts, OneLine t) :
    lines (write texts) = texts := by
  have hread : ∀ ts : List (List UInt8), (∀ t ∈ ts, OneLine t) →
      ((ts.map fun t => t ++ [10]).takeWhile utf8Valid).map chomp = ts := by
    intro ts
    induction ts with
    | nil => exact fun _ => rfl
    | cons t ts ih =>
      intro hts
      obtain ⟨-, hv, hcr⟩ := hts t (by simp)
      rw [List.map_cons, List.takeWhile_cons_of_pos (by rw [utf8Valid_concat t (by decide), hv]),
        List.map_cons, chomp_concat, if_neg hcr, ih fun u hu => hts u (List.mem_cons_of_mem t hu)]
  unfold lines
  rw [pieces_write_of_no_newline fun t ht => (h t ht).1]
  exact hread texts h

/-- A stretch of the text between two newlines, its beginning or its end. -/
def Segment (seg text : List UInt8) : Prop := seg ++ [10] ∈ pieces (text ++ [10])

theorem eq_of_segment {seg text : List UInt8} (h : 10 ∉ text) (hs : Segment seg text) :
    seg = text := by
  unfold Segment at hs
  rw [pieces_of_no_newline h, List.mem_singleton] at hs
  exact List.append_cancel_right hs

/-- A line of a file is a segment of one of its texts, less a carriage return. -/
theorem mem_lines_write {texts : List (List UInt8)} {l : List UInt8} (h : l ∈ lines (write texts)) :
    10 ∉ l ∧ utf8Valid l = true ∧ ∃ t ∈ texts, ∃ seg, Segment seg t ∧
      (l = seg ∧ seg.getLast? ≠ some 13 ∨ seg = l ++ [13]) := by
  obtain ⟨p, hp, rfl⟩ := List.mem_map.1 h
  have hv := List.mem_takeWhile_imp hp
  have hm := (List.takeWhile_prefix _).subset hp
  rw [pieces_write, List.mem_flatten] at hm
  obtain ⟨ps, hps, hpp⟩ := hm
  obtain ⟨t, ht, rfl⟩ := List.mem_map.1 hps
  obtain ⟨seg, rfl, hseg⟩ := mem_pieces_concat hpp
  refine ⟨?_, utf8Valid_chomp hv, t, ht, seg, hpp, ?_⟩
  · rw [chomp_concat]
    split
    · exact fun hm => hseg (List.dropLast_subset seg hm)
    · exact hseg
  · rw [chomp_concat]
    split
    · rename_i h13
      obtain ⟨ys, rfl⟩ := List.getLast?_eq_some_iff.1 h13
      exact Or.inr (by rw [List.dropLast_concat])
    · rename_i h13
      exact Or.inl ⟨rfl, h13⟩

end Lines
