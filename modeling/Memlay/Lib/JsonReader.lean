import Mathlib.Data.List.DropRight
import Memlay.Lib.Json

/-!
# Reading JSON

A reader that follows the grammar of `Json.Value`.  The text of an array or an object is
cut at the separators that stand outside of its strings and inner brackets, and the
pieces are read on their own.  A value holds no such separator (`Value.inert`), so

    the pieces of an array are its elements            (`readGroup_eq`, `readArray_eq`)
    a string token is read as the text it stands for   (`readString_eq`)
    what is written is read back                       (`Content.read_write`)

An array text has one list of elements because the cut is a function.
-/

namespace Json

/-! ## Cutting at a separator -/

/-- Where a scan is: outside of strings, in one, or after a backslash in one. -/
inductive Mode where
  | out
  | str
  | esc

/-- A character goes to the front of the first piece. -/
def push (c : Char) : List (List Char) → List (List Char)
  | [] => [[c]]
  | p :: ps => (c :: p) :: ps

/-- A text goes to the front of the first piece. -/
def glue (t : List Char) (ps : List (List Char)) : List (List Char) := t.foldr push ps

/-- Open brackets after this character. -/
def depthAfter (d : Nat) (c : Char) : Nat :=
  if c = '[' ∨ c = '{' then d + 1 else if c = ']' ∨ c = '}' then d - 1 else d

/-- The pieces between the separators outside of strings and brackets; `d` brackets are open. -/
def cut (sep : Char) : Nat → Mode → List Char → List (List Char)
  | _, _, [] => [[]]
  | d, .esc, c :: cs => push c (cut sep d .str cs)
  | d, .str, c :: cs => push c (cut sep d (if c = '\\' then .esc else if c = '"' then .out else .str) cs)
  | d, .out, c :: cs =>
    if c = sep ∧ d = 0 then [] :: cut sep 0 .out cs
    else push c (cut sep (depthAfter d c) (if c = '"' then .str else .out) cs)

/-- A text that the cut passes over. -/
def Inert (sep : Char) (d : Nat) (t : List Char) : Prop :=
  ∀ rest, cut sep d .out (t ++ rest) = glue t (cut sep d .out rest)

/-- Not a bracket, a quote, a separator or white space. -/
def Quiet (c : Char) : Prop :=
  c ≠ '[' ∧ c ≠ '{' ∧ c ≠ ']' ∧ c ≠ '}' ∧ c ≠ '"' ∧ c ≠ ',' ∧ c ≠ ':' ∧ ¬ IsSpace c

instance (c : Char) : Decidable (IsSpace c) := inferInstanceAs (Decidable (_ ∨ _))

instance (c : Char) : Decidable (Quiet c) := inferInstanceAs (Decidable (_ ∧ _))

theorem glue_nil_right (t : List Char) : glue t [[]] = [t] := by
  induction t with
  | nil => rfl
  | cons c t ih =>
    show push c (glue t [[]]) = [c :: t]
    rw [ih]
    rfl

theorem glue_nil_cons (t : List Char) (ps : List (List Char)) : glue t ([] :: ps) = t :: ps := by
  induction t with
  | nil => rfl
  | cons c t ih =>
    show push c (glue t ([] :: ps)) = (c :: t) :: ps
    rw [ih]
    rfl

theorem glue_append (t u : List Char) (ps : List (List Char)) : glue (t ++ u) ps = glue t (glue u ps) :=
  List.foldr_append

section
variable {sep : Char} {d : Nat} {t u : List Char}

theorem inert_nil : Inert sep d [] := fun _ => rfl

/-- Two such texts after each other. -/
theorem Inert.append (ht : Inert sep d t) (hu : Inert sep d u) : Inert sep d (t ++ u) := by
  intro rest
  rw [List.append_assoc, ht, hu, glue_append]

/-- A character that is no separator, bracket or quote. -/
theorem inert_char {c : Char} (hsep : c ≠ sep ∨ 0 < d) (hdepth : depthAfter d c = d) (hquote : c ≠ '"') :
    Inert sep d [c] := by
  intro rest
  have hno : ¬ (c = sep ∧ d = 0) := by
    rintro ⟨hc, hd⟩
    rcases hsep with h | h
    · exact h hc
    · omega
  show cut sep d .out (c :: rest) = push c (cut sep d .out rest)
  rw [cut, if_neg hno, hdepth, if_neg hquote]

theorem inert_of_chars (h : ∀ c ∈ t, Inert sep d [c]) : Inert sep d t := by
  induction t with
  | nil => exact inert_nil
  | cons c t ih =>
    have hc : Inert sep d [c] := h c List.mem_cons_self
    exact hc.append (ih fun e he => h e (List.mem_cons_of_mem c he))

theorem Quiet.inert {c : Char} (h : Quiet c) (hsep : sep = ',' ∨ sep = ':') : Inert sep d [c] := by
  obtain ⟨h₁, h₂, h₃, h₄, h₅, h₆, h₇, -⟩ := h
  refine inert_char (Or.inl ?_) ?_ h₅
  · rcases hsep with rfl | rfl
    · exact h₆
    · exact h₇
  · unfold depthAfter
    rw [if_neg (by simp [h₁, h₂]), if_neg (by simp [h₃, h₄])]

theorem inert_spaces (h : ∀ c ∈ t, IsSpace c) (hsep : sep = ',' ∨ sep = ':') : Inert sep d t := by
  refine inert_of_chars fun c hc => ?_
  rcases hsep with rfl | rfl <;> rcases h c hc with rfl | rfl | rfl | rfl <;>
    exact inert_char (Or.inl (by decide)) rfl (by decide)

/-- Inside a bracket the separators are passed over. -/
theorem inert_separator (hsep : u = [','] ∨ u = [':']) : Inert sep (d + 1) u := by
  rcases hsep with rfl | rfl <;> exact inert_char (Or.inr (Nat.succ_pos d)) rfl (by decide)

/-- Between brackets the separator is passed over too. -/
theorem Inert.bracket {l r : Char} (h : Inert sep (d + 1) t) (hsep : sep = ',' ∨ sep = ':')
    (hl : l = '[' ∧ r = ']' ∨ l = '{' ∧ r = '}') : Inert sep d (l :: (t ++ [r])) := by
  have hopen : ∀ rest, cut sep d .out (l :: rest) = push l (cut sep (d + 1) .out rest) := by
    intro rest
    rcases hsep with rfl | rfl <;> rcases hl with ⟨rfl, rfl⟩ | ⟨rfl, rfl⟩ <;> rfl
  have hclose : ∀ rest, cut sep (d + 1) .out (r :: rest) = push r (cut sep d .out rest) := by
    intro rest
    rcases hsep with rfl | rfl <;> rcases hl with ⟨rfl, rfl⟩ | ⟨rfl, rfl⟩ <;> rfl
  intro rest
  rw [List.cons_append, hopen, List.append_assoc, h]
  show push l (glue t (cut sep (d + 1) .out (r :: rest))) = push l (glue (t ++ [r]) (cut sep d .out rest))
  rw [hclose, glue_append]
  rfl

end

/-! ### Strings -/

theorem cut_str_char {sep c : Char} {d : Nat} (hquote : c ≠ '"') (hback : c ≠ '\\') (rest : List Char) :
    cut sep d .str (c :: rest) = push c (cut sep d .str rest) := by
  rw [cut, if_neg hback, if_neg hquote]

theorem Chars.cut_str {sep : Char} {d : Nat} {t : List Char} {ps : List Piece} (h : Chars t ps)
    (rest : List Char) :
    cut sep d .str (t ++ rest) = glue t (cut sep d .str rest) := by
  induction h with
  | nil => rfl
  | @plain c t ps hc _ ih =>
    rw [List.cons_append, cut_str_char hc.1 hc.2.1, ih]
    rfl
  | @short e c t ps _ _ ih =>
    show push '\\' (push e (cut sep d .str (t ++ rest))) = _
    rw [ih]
    rfl
  | @hex ds n t ps _ hhex _ ih =>
    have hds : ∀ (ds t' : List Char), '"' ∉ ds → '\\' ∉ ds →
        cut sep d .str (ds ++ t') = glue ds (cut sep d .str t') := by
      intro ds t' hquote hback
      induction ds with
      | nil => rfl
      | cons c ds ih =>
        obtain ⟨hq, hquote⟩ := List.ne_and_not_mem_of_not_mem_cons hquote
        obtain ⟨hb, hback⟩ := List.ne_and_not_mem_of_not_mem_cons hback
        rw [List.cons_append, cut_str_char (Ne.symm hq) (Ne.symm hb), ih hquote hback]
        rfl
    show push '\\' (push 'u' (cut sep d .str (ds ++ t ++ rest))) = _
    rw [List.append_assoc, hds ds _ (hexDigits_notMem rfl hhex) (hexDigits_notMem rfl hhex), ih, ← glue_append]
    rfl

/-- A string is passed over, whatever it says. -/
theorem StringOf.inert {sep : Char} {d : Nat} {v s : List Char} (h : StringOf v s) (hsep : sep = ',' ∨ sep = ':') :
    Inert sep d v := by
  obtain ⟨t, ps, rfl, hchars, -⟩ := h
  intro rest
  have hopen : ∀ rest, cut sep d .out ('"' :: rest) = push '"' (cut sep d .str rest) := by
    intro rest
    rcases hsep with rfl | rfl <;> rfl
  rw [List.cons_append, hopen, List.append_assoc, hchars.cut_str]
  show push '"' (glue t (push '"' (cut sep d .out rest))) = push '"' (glue (t ++ ['"']) (cut sep d .out rest))
  rw [glue_append]
  rfl

/-! ### Values -/

theorem quiet_digit {c : Char} (h : c.isDigit = true) : Quiet c := by
  refine ⟨?_, ?_, ?_, ?_, ?_, ?_, ?_, ?_⟩
  all_goals intro hc
  case refine_8 => rcases hc with rfl | rfl | rfl | rfl <;> exact absurd h (by decide)
  all_goals
    subst hc
    exact absurd h (by decide)

theorem IsNumber.quiet {t : List Char} (h : IsNumber t) : ∀ c ∈ t, Quiet c := by
  obtain ⟨sign, int, frac, exp, rfl, hsign, hint, hfrac, hexp⟩ := h
  have hdigits : ∀ {ds : List Char}, IsDigits ds → ∀ c ∈ ds, Quiet c := fun hds c hc => quiet_digit (hds.2 c hc)
  intro c hc
  rcases List.mem_append.1 hc with hc | hc
  · rcases hsign with rfl | rfl
    · cases hc
    · rw [List.mem_singleton.1 hc]
      decide
  rcases List.mem_append.1 hc with hc | hc
  · rcases hint with rfl | ⟨hint, -⟩
    · rw [List.mem_singleton.1 hc]
      decide
    · exact hdigits hint c hc
  rcases List.mem_append.1 hc with hc | hc
  · rcases hfrac with rfl | ⟨ds, hds, rfl⟩
    · cases hc
    · rcases List.mem_cons.1 hc with rfl | hc
      · decide
      · exact hdigits hds c hc
  · rcases hexp with rfl | ⟨e, s, ds, he, hs, hds, rfl⟩
    · cases hc
    · rcases List.mem_cons.1 hc with rfl | hc
      · rcases he with rfl | rfl <;> decide
      rcases List.mem_append.1 hc with hc | hc
      · rcases hs with rfl | rfl | rfl
        · cases hc
        · rw [List.mem_singleton.1 hc]
          decide
        · rw [List.mem_singleton.1 hc]
          decide
      · exact hdigits hds c hc

section
variable {sep : Char} (hsep : sep = ',' ∨ sep = ':')
include hsep

theorem Padded.inert {d : Nat} {v w : List Char} (h : Padded v w) (hv : Inert sep d v) : Inert sep d w := by
  obtain ⟨pre, post, hpre, hpost, rfl⟩ := h
  exact (inert_spaces hpre hsep).append (hv.append (inert_spaces hpost hsep))

/-- A list of elements inside brackets. -/
theorem Elements.inert {d : Nat} {vs : List (List Char)} {inner : List Char} (h : Elements vs inner)
    (hv : ∀ v ∈ vs, Inert sep (d + 1) v) : Inert sep (d + 1) inner := by
  induction h with
  | one h => exact h.inert hsep (hv _ List.mem_cons_self)
  | @cons v w rest vs h ht ih =>
    have hw : Inert sep (d + 1) w := h.inert hsep (hv v List.mem_cons_self)
    have hrest := ih fun u hu => hv u (List.mem_cons_of_mem v hu)
    exact hw.append ((inert_separator (Or.inl rfl)).append hrest)

theorem Body.inert {d : Nat} {vs : List (List Char)} {inner : List Char} (h : Body vs inner)
    (hv : ∀ v ∈ vs, Inert sep (d + 1) v) : Inert sep (d + 1) inner := by
  rcases h with ⟨-, hspace⟩ | h
  · exact inert_spaces hspace hsep
  · exact h.inert hsep hv

theorem Member.inert {d : Nat} {m : Member} (hm : m.Ok) (hv : Inert sep (d + 1) m.value) :
    Inert sep (d + 1) m.text := by
  obtain ⟨⟨s, hkey⟩, hpre, hpost⟩ := hm
  have hafter : Inert sep (d + 1) (m.post ++ m.value) := (inert_spaces hpost hsep).append hv
  have hcolon : Inert sep (d + 1) ([':'] ++ (m.post ++ m.value)) := (inert_separator (Or.inr rfl)).append hafter
  exact (hkey.inert hsep).append ((inert_spaces hpre hsep).append hcolon)

/-- A value has no separator outside of its strings and brackets. -/
theorem Value.inert {v : List Char} (h : Value v) : ∀ d, Inert sep d v := by
  have hquiet : ∀ {t : List Char} {d : Nat}, (∀ c ∈ t, Quiet c) → Inert sep d t := fun ht =>
    inert_of_chars fun c hc => (ht c hc).inert hsep
  have hword : ∀ {t : List Char} {d : Nat}, t.all (fun c => decide (Quiet c)) = Bool.true →
      Inert sep d t := fun ht =>
    hquiet fun c hc => of_decide_eq_true (List.all_eq_true.1 ht c hc)
  induction h with
  | null => exact fun d => hword (by decide)
  | false => exact fun d => hword (by decide)
  | true => exact fun d => hword (by decide)
  | number h => exact fun d => hquiet h.quiet
  | string h => exact fun d => h.inert hsep
  | array _ hb ih => exact fun d => (hb.inert hsep fun v hv => ih v hv (d + 1)).bracket hsep (Or.inl ⟨rfl, rfl⟩)
  | object hk _ hb ih =>
    intro d
    refine (hb.inert hsep fun t ht => ?_).bracket hsep (Or.inr ⟨rfl, rfl⟩)
    obtain ⟨m, hm, rfl⟩ := List.mem_map.1 ht
    exact m.inert hsep (hk m hm) (ih m hm (d + 1))

end

/-! ## Arrays and objects -/

/-- Without the white space around it. -/
def trim (t : List Char) : List Char :=
  (t.dropWhile fun c => decide (IsSpace c)).rdropWhile fun c => decide (IsSpace c)

/-- No white space at either end. -/
def Tight (v : List Char) : Prop := (∀ c ∈ v.head?, ¬ IsSpace c) ∧ ∀ c ∈ v.getLast?, ¬ IsSpace c

/-- A tight text comes out of its padding. -/
theorem trim_padded {v w : List Char} (h : Padded v w) (hne : v ≠ []) (ht : Tight v) : trim w = v := by
  obtain ⟨pre, post, hpre, hpost, rfl⟩ := h
  unfold trim
  have hfront : (pre ++ (v ++ post)).dropWhile (fun c => decide (IsSpace c)) = v ++ post := by
    rw [List.dropWhile_append_of_pos (fun c hc => decide_eq_true (hpre c hc))]
    obtain ⟨c, v', rfl⟩ := List.exists_cons_of_ne_nil hne
    exact List.dropWhile_cons_of_neg (by simpa using ht.1 c rfl)
  have hback : (v ++ post).rdropWhile (fun c => decide (IsSpace c)) = v := by
    unfold List.rdropWhile
    rw [List.reverse_append, List.dropWhile_append_of_pos
      (fun c hc => decide_eq_true (hpost c (List.mem_reverse.1 hc)))]
    obtain ⟨v', c, rfl⟩ := List.eq_nil_or_concat v |>.resolve_left hne
    rw [List.concat_eq_append] at ht ⊢
    rw [List.reverse_append, List.reverse_singleton, List.singleton_append,
      List.dropWhile_cons_of_neg (by simpa using ht.2 c (by simp)), List.reverse_cons, List.reverse_reverse]
  rw [hfront, hback]

theorem tight_of_quiet {v : List Char} (h : ∀ c ∈ v, Quiet c) : Tight v :=
  ⟨fun c hc => (h c (List.mem_of_mem_head? hc)).2.2.2.2.2.2.2,
    fun c hc => (h c (List.mem_of_mem_getLast? hc)).2.2.2.2.2.2.2⟩

theorem tight_between {l r : Char} (hl : ¬ IsSpace l) (hr : ¬ IsSpace r) (t : List Char) :
    Tight (l :: (t ++ [r])) := by
  refine ⟨fun c hc => ?_, fun c hc => ?_⟩
  · cases hc
    exact hl
  · rw [← List.cons_append, List.getLast?_append] at hc
    cases hc
    exact hr

theorem Value.tight {v : List Char} (h : Value v) : Tight v := by
  have hword : ∀ {t : List Char}, t.all (fun c => decide (Quiet c)) = Bool.true → Tight t := fun ht =>
    tight_of_quiet fun c hc => of_decide_eq_true (List.all_eq_true.1 ht c hc)
  cases h with
  | null => exact hword (by decide)
  | false => exact hword (by decide)
  | true => exact hword (by decide)
  | number h => exact tight_of_quiet h.quiet
  | string h =>
    obtain ⟨t, ps, rfl, -⟩ := h
    exact tight_between (by decide) (by decide) t
  | array => exact tight_between (by decide) (by decide) _
  | object => exact tight_between (by decide) (by decide) _

/-- A value has no white space around it. -/
theorem trim_value {v : List Char} (h : Value v) : trim v = v := trim_padded (.self v) h.ne_nil h.tight

/-- The pieces between two brackets, without the white space around them. -/
def readGroup (l r : Char) (text : List Char) : Option (List (List Char)) :=
  match trim text with
  | [] => none
  | c :: body =>
    if c = l ∧ body.getLast? = some r then
      if body.dropLast.all (fun c => decide (IsSpace c)) = true then some []
      else some ((cut ',' 0 .out body.dropLast).map trim)
    else none

/-- The cut of an array's inside gives its elements. -/
theorem Elements.cut {vs : List (List Char)} {inner : List Char} (h : Elements vs inner)
    (hv : ∀ v ∈ vs, v ≠ [] ∧ Tight v ∧ Inert ',' 0 v) : (Json.cut ',' 0 .out inner).map trim = vs := by
  induction h with
  | @one v w h =>
    obtain ⟨hne, ht, hin⟩ := hv v List.mem_cons_self
    have hcut : Json.cut ',' 0 .out w = [w] := by
      have := h.inert (Or.inl rfl) hin []
      rw [List.append_nil] at this
      exact this.trans (glue_nil_right w)
    rw [hcut, List.map_singleton, trim_padded h hne ht]
  | @cons v w rest vs h _ ih =>
    obtain ⟨hne, ht, hin⟩ := hv v List.mem_cons_self
    have hcut : Json.cut ',' 0 .out (w ++ ',' :: rest) = w :: Json.cut ',' 0 .out rest := by
      rw [h.inert (Or.inl rfl) hin]
      exact glue_nil_cons w _
    rw [hcut, List.map_cons, trim_padded h hne ht, ih fun u hu => hv u (List.mem_cons_of_mem v hu)]

theorem Elements.not_spaces {vs : List (List Char)} {inner : List Char} (h : Elements vs inner)
    (hv : ∀ v ∈ vs, v ≠ [] ∧ Tight v) : ∃ c ∈ inner, ¬ IsSpace c := by
  have hpad : ∀ {v w : List Char}, Padded v w → v ≠ [] ∧ Tight v → ∃ c ∈ w, ¬ IsSpace c := by
    rintro v w ⟨pre, post, -, -, rfl⟩ ⟨hne, ht⟩
    obtain ⟨c, v', rfl⟩ := List.exists_cons_of_ne_nil hne
    exact ⟨c, by simp, ht.1 c rfl⟩
  cases h with
  | one h => exact hpad h (hv _ List.mem_cons_self)
  | cons h _ =>
    obtain ⟨c, hc, hns⟩ := hpad h (hv _ List.mem_cons_self)
    exact ⟨c, List.mem_append_left _ hc, hns⟩

/-- What stands between the brackets is read piece by piece. -/
theorem readGroup_eq {l r : Char} {vs : List (List Char)} {inner text : List Char} (hl : ¬ IsSpace l)
    (hr : ¬ IsSpace r)
    (hb : Body vs inner) (hv : ∀ v ∈ vs, v ≠ [] ∧ Tight v ∧ Inert ',' 0 v)
    (hp : Padded (l :: (inner ++ [r])) text) : readGroup l r text = some vs := by
  unfold readGroup
  rw [trim_padded hp (List.cons_ne_nil _ _) (tight_between hl hr inner)]
  have hlast : (inner ++ [r]).getLast? = some r := by simp
  simp only [hlast, and_self, if_true, List.dropLast_concat]
  rcases hb with ⟨rfl, hspace⟩ | helem
  · rw [if_pos (List.all_eq_true.2 fun c hc => decide_eq_true (hspace c hc))]
  · obtain ⟨c, hc, hns⟩ := helem.not_spaces fun v hv' => ⟨(hv v hv').1, (hv v hv').2.1⟩
    have hno : ¬ inner.all (fun c => decide (IsSpace c)) = true := fun hall =>
      hns (of_decide_eq_true (List.all_eq_true.1 hall c hc))
    rw [if_neg hno, helem.cut hv]

/-- The elements of an array. -/
def readArray (text : List Char) : Option (List (List Char)) := readGroup '[' ']' text

/-- An array of the grammar is read as its elements. -/
theorem readArray_eq {vs : List (List Char)} {text : List Char} (h : ArrayOf vs text) :
    readArray text = some vs := by
  obtain ⟨hv, inner, hb, hp⟩ := h
  exact readGroup_eq (by decide) (by decide) hb (fun v hv' =>
    ⟨(hv v hv').ne_nil, (hv v hv').tight, (hv v hv').inert (Or.inl rfl) 0⟩) hp

/-- An object is no array. -/
theorem readArray_object {text : List Char} (h : IsObject text) : readArray text = none := by
  obtain ⟨hval, hhead⟩ := h
  cases text with
  | nil => cases hhead
  | cons c body =>
    cases hhead
    unfold readArray readGroup
    rw [trim_value hval]
    exact if_neg fun hc => absurd hc.1 (by decide)

/-! ### What is read is there -/

theorem padded_trim (w : List Char) : Padded (trim w) w := by
  refine ⟨w.takeWhile fun c => decide (IsSpace c),
    (w.dropWhile fun c => decide (IsSpace c)).rtakeWhile fun c => decide (IsSpace c), ?_, ?_, ?_⟩
  · intro c hc
    have hspace := List.mem_takeWhile_imp hc
    exact of_decide_eq_true hspace
  · intro c hc
    have hspace := List.mem_rtakeWhile_imp hc
    exact of_decide_eq_true hspace
  · unfold trim
    rw [List.rdropWhile_append_rtakeWhile, List.takeWhile_append_dropWhile]

theorem push_ne_nil (c : Char) (ps : List (List Char)) : push c ps ≠ [] := by
  cases ps <;> exact List.cons_ne_nil _ _

theorem intercalate_push (sep c : Char) (ps : List (List Char)) :
    List.intercalate [sep] (push c ps) = c :: List.intercalate [sep] ps := by
  cases ps with
  | nil => rfl
  | cons p ps =>
    cases ps with
    | nil =>
      show List.intercalate [sep] [c :: p] = c :: List.intercalate [sep] [p]
      rw [List.intercalate_singleton, List.intercalate_singleton]
    | cons q ps =>
      show List.intercalate [sep] ((c :: p) :: q :: ps) = _
      rw [List.intercalate_cons_cons, List.intercalate_cons_cons]
      rfl

/-- The pieces, with the separators put back, are the text. -/
theorem intercalate_cut (sep : Char) (d : Nat) (m : Mode) (t : List Char) :
    cut sep d m t ≠ [] ∧ List.intercalate [sep] (cut sep d m t) = t := by
  induction t generalizing d m with
  | nil =>
    cases m <;> exact ⟨List.cons_ne_nil _ _, List.intercalate_singleton⟩
  | cons c t ih =>
    have hpush : ∀ d m, push c (cut sep d m t) ≠ [] ∧
        List.intercalate [sep] (push c (cut sep d m t)) = c :: t := by
      intro d m
      rw [intercalate_push, (ih d m).2]
      exact ⟨push_ne_nil _ _, rfl⟩
    cases m with
    | esc => exact hpush _ _
    | str => exact hpush _ _
    | out =>
      rw [cut]
      split
      · rename_i hc
        obtain ⟨p, ps, hps⟩ := List.exists_cons_of_ne_nil (ih 0 .out).1
        have hjoin := (ih 0 .out).2
        rw [hps] at hjoin ⊢
        refine ⟨List.cons_ne_nil _ _, ?_⟩
        rw [List.intercalate_cons_cons, hjoin, hc.1]
        rfl
      · exact hpush _ _

/-- The trimmed pieces between commas are the elements of an array. -/
theorem elements_trim {ps : List (List Char)} (h : ps ≠ []) :
    Elements (ps.map trim) (List.intercalate [','] ps) := by
  induction ps with
  | nil => exact absurd rfl h
  | cons p ps ih =>
    cases ps with
    | nil =>
      rw [List.intercalate_singleton]
      exact .one (padded_trim p)
    | cons q ps =>
      rw [List.intercalate_cons_cons, List.append_assoc]
      exact .cons (padded_trim p) (ih (List.cons_ne_nil _ _))

/-- A group that is read stands between its brackets, with commas between its items. -/
theorem of_readGroup {l r : Char} {vs : List (List Char)} {text : List Char} (h : readGroup l r text = some vs) :
    ∃ inner, Body vs inner ∧ Padded (l :: (inner ++ [r])) text := by
  have hpad := padded_trim text
  unfold readGroup at h
  split at h
  · cases h
  · rename_i c body heq
    rw [heq] at hpad
    split at h
    · rename_i hends
      obtain ⟨init, rfl⟩ := List.getLast?_eq_some_iff.1 hends.2
      rw [hends.1] at hpad
      rw [List.dropLast_concat] at h
      refine ⟨init, ?_, hpad⟩
      split at h
      · rename_i hspace
        cases h
        exact Or.inl ⟨rfl, fun c hc => of_decide_eq_true (List.all_eq_true.1 hspace c hc)⟩
      · cases h
        have hcut := intercalate_cut ',' 0 .out init
        have helem := elements_trim hcut.1
        rw [hcut.2] at helem
        exact Or.inr helem
    · cases h

/-! ## Strings -/

/-- The characters and escapes of a string's inside. -/
def pieces : List Char → Option (List Piece)
  | [] => some []
  | '\\' :: 'u' :: a :: b :: c :: d :: t => do
    let n ← hexDigits [a, b, c, d]
    let ps ← pieces t
    return .unit n :: ps
  | '\\' :: e :: t => do
    let c ← shortEscape e
    let ps ← pieces t
    return .char c :: ps
  | c :: t => if Plain c then (pieces t).map fun ps => .char c :: ps else none

theorem Chars.pieces {t : List Char} {ps : List Piece} (h : Chars t ps) : Json.pieces t = some ps := by
  induction h with
  | nil => rfl
  | @plain c t ps hc _ ih =>
    unfold Json.pieces
    split
    · rename_i heq
      cases heq
    · rename_i heq
      cases heq
      exact absurd rfl hc.2.1
    · rename_i heq
      cases heq
      exact absurd rfl hc.2.1
    · rename_i heq
      cases heq
      rw [if_pos hc, ih]
      rfl
  | @short e c t ps he _ ih =>
    unfold Json.pieces
    split
    · rename_i heq
      cases heq
    · -- `\u` is no short escape
      rename_i heq
      cases heq
      cases he
    · rename_i heq
      cases heq
      rw [he, ih]
      rfl
    · rename_i hno heq
      cases heq
      exact absurd rfl (hno e t rfl)
  | @hex ds n t ps hlen hn _ ih =>
    match ds, hlen with
    | [a, b, c, d], _ =>
      show Json.pieces ('\\' :: 'u' :: a :: b :: c :: d :: t) = _
      rw [Json.pieces, hn, ih]
      rfl

/-- The text that a string token stands for. -/
def readString (v : List Char) : Option (List Char) :=
  match v with
  | '"' :: t => if t.getLast? = some '"' then (pieces t.dropLast).bind decode else none
  | _ => none

/-- A string of the grammar is read as what it says. -/
theorem readString_eq {v s : List Char} (h : StringOf v s) : readString v = some s := by
  obtain ⟨t, ps, rfl, hchars, hdec⟩ := h
  have hlast : (t ++ ['"']).getLast? = some '"' := by simp
  show (if (t ++ ['"']).getLast? = some '"' then (pieces (t ++ ['"']).dropLast).bind decode else none) = some s
  rw [if_pos hlast, List.dropLast_concat, hchars.pieces]
  exact hdec

/-- Without a backslash, the pieces are the characters. -/
theorem plain_of_pieces {t : List Char} {ps : List Piece} (hno : '\\' ∉ t) (h : pieces t = some ps) :
    (∀ c ∈ t, Plain c) ∧ ps = t.map .char := by
  induction t generalizing ps with
  | nil =>
    cases h
    exact ⟨List.forall_mem_nil _, rfl⟩
  | cons c t ih =>
    obtain ⟨hc, hno⟩ := List.ne_and_not_mem_of_not_mem_cons hno
    unfold pieces at h
    split at h
    · rename_i heq
      cases heq
    · rename_i heq
      cases heq
      exact absurd rfl hc
    · rename_i heq
      cases heq
      exact absurd rfl hc
    · rename_i heq
      cases heq
      split at h
      · rename_i hplain
        obtain ⟨qs, hqs, rfl⟩ := Option.map_eq_some_iff.1 h
        obtain ⟨hall, rfl⟩ := ih hno hqs
        exact ⟨List.forall_mem_cons.2 ⟨hplain, hall⟩, rfl⟩
      · cases h

/-- A token without a backslash that is read is the text between quotes. -/
theorem of_readString {v s : List Char} (hno : '\\' ∉ v) (h : readString v = some s) :
    v = '"' :: (s ++ ['"']) ∧ ∀ c ∈ s, Plain c := by
  unfold readString at h
  split at h
  · rename_i t
    split at h
    · rename_i hlast
      obtain ⟨init, rfl⟩ := List.getLast?_eq_some_iff.1 hlast
      rw [List.dropLast_concat] at h
      obtain ⟨ps, hps, hdec⟩ := Option.bind_eq_some_iff.1 h
      have hinit : '\\' ∉ init := fun hin => hno (List.mem_cons_of_mem _ (List.mem_append_left _ hin))
      obtain ⟨hplain, rfl⟩ := plain_of_pieces hinit hps
      rw [decode_char] at hdec
      cases hdec
      exact ⟨rfl, hplain⟩
    · cases h
  · cases h

/-! ## Content -/

/-- What a text says, as a reader hands it on. -/
inductive Content where
  | null
  | bool (b : Bool)
  /-- an integer without a sign, of 64 bits -/
  | unsigned (n : Nat)
  /-- any other number, by its text -/
  | other (t : List Char)
  | str (s : List Char)
  | seq (items : List Content)
  | map (entries : List (List Char × Content))

namespace Content

mutual
/-- Without white space. -/
def write : Content → List Char
  | .null => "null".toList
  | .bool b => (if b then "true" else "false").toList
  | .unsigned n => Nat.toDigits 10 n
  | .other t => t
  | .str s => writeString s
  | .seq items => '[' :: (List.intercalate [','] (writeItems items) ++ [']'])
  | .map entries => '{' :: (List.intercalate [','] (writeEntries entries) ++ ['}'])

def writeItems : List Content → List (List Char)
  | [] => []
  | c :: cs => c.write :: writeItems cs

def writeEntries : List (List Char × Content) → List (List Char)
  | [] => []
  | (k, v) :: es => (writeString k ++ ':' :: v.write) :: writeEntries es
end

/-- A word or an unsigned integer; of the other numbers none is read. -/
def readWord (t : List Char) : Option Content :=
  if t = "null".toList then some .null
  else if t = "true".toList then some (.bool true)
  else if t = "false".toList then some (.bool false)
  else if t ≠ [] ∧ t.all Char.isDigit = true ∧ (t.head? = some '0' → t = ['0']) then
    if Nat.ofDigitChars 10 t 0 < 2 ^ 64 then some (.unsigned (Nat.ofDigitChars 10 t 0)) else some (.other t)
  else none

/-- A member of an object. -/
def readEntry (read : List Char → Option Content) (t : List Char) : Option (List Char × Content) :=
  match cut ':' 0 .out t with
  | [k, v] => do
    let k ← readString (trim k)
    let v ← read v
    return (k, v)
  | _ => none

/-- Values nested less than `n` deep. -/
def read : Nat → List Char → Option Content
  | 0, _ => none
  | n + 1, text =>
    let t := trim text
    match t.head? with
    | some '"' => (readString t).map .str
    | some '[' => (readArray t).bind fun items => (items.mapM (read n)).map .seq
    | some '{' => (readGroup '{' '}' t).bind fun entries => (entries.mapM (readEntry (read n))).map .map
    | _ => readWord t

/-- What a serializer of unsigned integers, texts, lists and maps hands on. -/
inductive Written : Content → Prop where
  | unsigned {n : Nat} (h : n < 2 ^ 64) : Written (.unsigned n)
  | str (s : List Char) : Written (.str s)
  | seq {items : List Content} (h : ∀ c ∈ items, Written c) : Written (.seq items)
  | map {entries : List (List Char × Content)} (h : ∀ e ∈ entries, Written e.2) : Written (.map entries)

/-- A member as it is written. -/
def entryText (e : List Char × Content) : List Char := writeString e.1 ++ ':' :: e.2.write

theorem writeItems_eq (items : List Content) : writeItems items = items.map write := by
  induction items with
  | nil => rfl
  | cons c cs ih =>
    show c.write :: writeItems cs = c.write :: cs.map write
    rw [ih]

theorem writeEntries_eq (entries : List (List Char × Content)) : writeEntries entries = entries.map entryText := by
  induction entries with
  | nil => rfl
  | cons e es ih =>
    show entryText e :: writeEntries es = entryText e :: es.map entryText
    rw [ih]

theorem write_seq (items : List Content) :
    (Content.seq items).write = '[' :: (List.intercalate [','] (items.map write) ++ [']']) := by
  show '[' :: (List.intercalate [','] (writeItems items) ++ [']']) = _
  rw [writeItems_eq]

theorem write_map (entries : List (List Char × Content)) :
    (Content.map entries).write = '{' :: (List.intercalate [','] (entries.map entryText) ++ ['}']) := by
  show '{' :: (List.intercalate [','] (writeEntries entries) ++ ['}']) = _
  rw [writeEntries_eq]

theorem head_toDigits {n : Nat} (h : 0 < n) : (Nat.toDigits 10 n).head? ≠ some '0' := by
  induction n using Nat.strongRecOn with
  | ind n ih =>
    by_cases hlt : n < 10
    · have hall : ∀ n < 10, 0 < n → n.digitChar ≠ '0' := by decide
      rw [Nat.toDigits_of_lt_base hlt]
      intro heq
      exact hall n hlt h (Option.some.inj heq)
    · have hdiv : 0 < n / 10 := Nat.div_pos (by omega) (by omega)
      rw [Nat.toDigits_of_base_le (by omega) (by omega), List.head?_append]
      intro heq
      cases hd : (Nat.toDigits 10 (n / 10)).head? with
      | none => exact Nat.toDigits_ne_nil (List.head?_eq_none_iff.1 hd)
      | some c =>
        rw [hd] at heq
        cases heq
        exact ih (n / 10) (by omega) hdiv hd

theorem isDigits_toDigits (n : Nat) : IsDigits (Nat.toDigits 10 n) :=
  ⟨Nat.toDigits_ne_nil, fun _ hc => Nat.isDigit_of_mem_toDigits (by omega) (by omega) hc⟩

theorem isNumber_toDigits (n : Nat) : IsNumber (Nat.toDigits 10 n) := by
  refine ⟨[], Nat.toDigits 10 n, [], [], by simp, Or.inl rfl, ?_, Or.inl rfl, Or.inl rfl⟩
  rcases Nat.eq_zero_or_pos n with rfl | h
  · exact Or.inl (Nat.toDigits_zero 10)
  · exact Or.inr ⟨isDigits_toDigits n, head_toDigits h⟩

theorem body_intercalate (vs : List (List Char)) : Body vs (List.intercalate [','] vs) := by
  cases vs with
  | nil => exact Or.inl ⟨rfl, fun c hc => by cases hc⟩
  | cons v vs => exact Or.inr (elements_intercalate (List.cons_ne_nil v vs))

def memberOf (e : List Char × Content) : Member := ⟨writeString e.1, [], [], e.2.write⟩

theorem memberOf_ok (e : List Char × Content) : (memberOf e).Ok :=
  ⟨⟨_, stringOf_writeString e.1⟩, by simp [memberOf], by simp [memberOf]⟩

/-- What is written is a value. -/
theorem Written.value {c : Content} (h : Written c) : Value c.write := by
  induction h with
  | @unsigned n _ => exact .number (isNumber_toDigits n)
  | str s => exact .string (stringOf_writeString s)
  | @seq items _ ih =>
    rw [write_seq]
    refine .array (fun v hv => ?_) (body_intercalate _)
    obtain ⟨c, hc, rfl⟩ := List.mem_map.1 hv
    exact ih c hc
  | @map entries _ ih =>
    rw [write_map]
    refine @Value.object (entries.map memberOf) _ (fun m hm => ?_) (fun m hm => ?_) ?_
    · obtain ⟨e, -, rfl⟩ := List.mem_map.1 hm
      exact memberOf_ok e
    · obtain ⟨e, he, rfl⟩ := List.mem_map.1 hm
      exact ih e he
    · rw [List.map_map]
      exact body_intercalate _

theorem length_le_intercalate {v : List Char} {vs : List (List Char)} (h : v ∈ vs) :
    v.length ≤ (List.intercalate [','] vs).length := by
  induction vs with
  | nil => cases h
  | cons u vs ih =>
    cases vs with
    | nil =>
      rw [List.mem_singleton.1 h, List.intercalate_singleton]
    | cons u' vs =>
      rw [List.intercalate_cons_cons, List.length_append, List.length_append]
      rcases List.mem_cons.1 h with rfl | h
      · omega
      · have := ih h
        omega

theorem mapM_map {m : Type → Type} [Monad m] [LawfulMonad m] {α β : Type} {f : β → m α} {g : α → β} {l : List α}
    (h : ∀ a ∈ l, f (g a) = pure a) : (l.map g).mapM f = pure l := by
  induction l with
  | nil => rfl
  | cons a l ih =>
    rw [List.map_cons, List.mapM_cons, h a List.mem_cons_self, pure_bind,
      ih fun b hb => h b (List.mem_cons_of_mem a hb), pure_bind]

/-- A number in decimal is read back. -/
theorem readWord_toDigits {n : Nat} (h : n < 2 ^ 64) : readWord (Nat.toDigits 10 n) = some (.unsigned n) := by
  have hdig := isDigits_toDigits n
  have hword : ∀ {w : List Char}, w.all Char.isDigit = false → Nat.toDigits 10 n ≠ w := by
    rintro w hw rfl
    rw [List.all_eq_true.2 hdig.2] at hw
    cases hw
  have hzero : (Nat.toDigits 10 n).head? = some '0' → Nat.toDigits 10 n = ['0'] := by
    intro hhead
    rcases Nat.eq_zero_or_pos n with rfl | hpos
    · exact Nat.toDigits_zero 10
    · exact absurd hhead (head_toDigits hpos)
  unfold readWord
  rw [if_neg (hword (by decide)), if_neg (hword (by decide)), if_neg (hword (by decide)),
    if_pos ⟨hdig.1, List.all_eq_true.2 hdig.2, hzero⟩, Nat.ofDigitChars_ten_toDigits, if_pos h]

/-- An entry is one piece of its object. -/
theorem entryText_piece {e : List Char × Content} (hv : Value e.2.write) :
    entryText e ≠ [] ∧ Tight (entryText e) ∧ Inert ',' 0 (entryText e) := by
  have hkey : Value (writeString e.1) := .string (stringOf_writeString e.1)
  refine ⟨List.cons_ne_nil _ _, ⟨hkey.tight.1, fun c hc => ?_⟩, ?_⟩
  · unfold entryText at hc
    rw [List.getLast?_append_of_ne_nil _ (List.cons_ne_nil _ _), ← List.singleton_append,
      List.getLast?_append_of_ne_nil _ hv.ne_nil] at hc
    exact hv.tight.2 c hc
  · have hcolon : Inert ',' 0 [':'] := inert_char (Or.inl (by decide)) rfl (by decide)
    exact (hkey.inert (Or.inl rfl) 0).append (hcolon.append (hv.inert (Or.inl rfl) 0))

/-- A member is read back if its value is. -/
theorem readEntry_entryText {read : List Char → Option Content} {e : List Char × Content} (hv : Value e.2.write)
    (h : read e.2.write = some e.2) : readEntry read (entryText e) = some e := by
  have hkey : Value (writeString e.1) := .string (stringOf_writeString e.1)
  have hcut : cut ':' 0 .out (entryText e) = [writeString e.1, e.2.write] := by
    have hval : cut ':' 0 .out e.2.write = [e.2.write] := by
      have := hv.inert (Or.inr rfl) 0 []
      rw [List.append_nil] at this
      exact this.trans (glue_nil_right _)
    unfold entryText
    rw [hkey.inert (Or.inr rfl) 0]
    show glue (writeString e.1) ([] :: cut ':' 0 .out e.2.write) = _
    rw [hval, glue_nil_cons]
  unfold readEntry
  rw [hcut]
  show (readString (trim (writeString e.1))).bind _ = _
  rw [trim_value hkey, readString_eq (stringOf_writeString e.1)]
  show (read e.2.write).bind _ = _
  rw [h]
  rfl

/-- What is written is read back, with a depth of its length at most. -/
theorem read_write {c : Content} (h : Written c) : ∀ n, c.write.length < n → read n c.write = some c := by
  induction h with
  | @unsigned k hk =>
    intro n hn
    obtain ⟨m, rfl⟩ : ∃ m, n = m + 1 := ⟨n - 1, by omega⟩
    have hval : Value (Nat.toDigits 10 k) := .number (isNumber_toDigits k)
    have hquiet := (isNumber_toDigits k).quiet
    show read (m + 1) (Nat.toDigits 10 k) = some (.unsigned k)
    rw [read, trim_value hval]
    cases hd : (Nat.toDigits 10 k).head? with
    | none => exact absurd (List.head?_eq_none_iff.1 hd) hval.ne_nil
    | some c =>
      have hc := hquiet c (List.mem_of_mem_head? hd)
      split
      · rename_i heq
        exact absurd (Option.some.inj heq) hc.2.2.2.2.1
      · rename_i heq
        exact absurd (Option.some.inj heq) hc.1
      · rename_i heq
        exact absurd (Option.some.inj heq) hc.2.1
      · exact readWord_toDigits hk
  | str s =>
    intro n hn
    obtain ⟨m, rfl⟩ : ∃ m, n = m + 1 := ⟨n - 1, by omega⟩
    show read (m + 1) (writeString s) = some (.str s)
    rw [read, trim_value (.string (stringOf_writeString s))]
    show (readString (writeString s)).map Content.str = _
    rw [readString_eq (stringOf_writeString s)]
    rfl
  | @seq items hw ih =>
    intro n hn
    obtain ⟨m, rfl⟩ : ∃ m, n = m + 1 := ⟨n - 1, by omega⟩
    have hval := (Written.seq hw).value
    rw [read, trim_value hval]
    rw [write_seq] at hn ⊢
    show (readArray ('[' :: (List.intercalate [','] (items.map write) ++ [']']))).bind _ = _
    have harr : ArrayOf (items.map write) ('[' :: (List.intercalate [','] (items.map write) ++ [']'])) := by
      refine ⟨fun v hv => ?_, _, body_intercalate _, .self _⟩
      obtain ⟨c, hc, rfl⟩ := List.mem_map.1 hv
      exact (hw c hc).value
    rw [readArray_eq harr]
    show ((items.map write).mapM (read m)).map Content.seq = _
    rw [mapM_map (m := Option) fun c hc => ih c hc m ?_]
    · rfl
    · have hlen := length_le_intercalate (List.mem_map_of_mem (f := write) hc)
      simp only [List.length_cons, List.length_append] at hn
      omega
  | @map entries hw ih =>
    intro n hn
    obtain ⟨m, rfl⟩ : ∃ m, n = m + 1 := ⟨n - 1, by omega⟩
    have hval := (Written.map hw).value
    rw [read, trim_value hval]
    rw [write_map] at hn ⊢
    show (readGroup '{' '}' ('{' :: (List.intercalate [','] (entries.map entryText) ++ ['}']))).bind _ = _
    rw [readGroup_eq (by decide) (by decide) (body_intercalate _) (fun t ht => ?_) (.self _)]
    · show ((entries.map entryText).mapM (readEntry (read m))).map Content.map = _
      rw [mapM_map (m := Option) fun e he => readEntry_entryText (hw e he).value (ih e he m ?_)]
      · rfl
      · have hlen := length_le_intercalate (List.mem_map_of_mem (f := entryText) he)
        have hentry : e.2.write.length ≤ (entryText e).length := by
          simp only [entryText, List.length_append, List.length_cons]
          omega
        simp only [List.length_cons, List.length_append] at hn
        omega
    · obtain ⟨e, he, rfl⟩ := List.mem_map.1 ht
      exact entryText_piece (hw e he).value

end Content

end Json
