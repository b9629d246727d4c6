import Mathlib.Algebra.Group.Nat.Defs
import Memlay.Lib.Lines

/-!
# JSON text

Texts as lists of characters, their bytes, and the grammar of RFC 8259: string
tokens, values, arrays by their elements.

    a text put between two quotes as it is, whatever follows, reads back as itself
      ↔  it has no quote, no backslash and no control character   (`plain_of_reads_back`)
-/

namespace Json

/-! ## Bytes and characters -/

/-- Number of bytes, from the start of a code point, that a well-formed text can begin
with. -/
def wellFormedLen (due : Lines.Due) : List UInt8 → Nat
  | [] => 0
  | b :: bs =>
    match Lines.utf8Step due b with
    | none => 0
    | some due => if due.count = 0 then 1 else 1 + wellFormedLen due bs

/-- Bytes of an ill-formed sequence that one replacement character stands for. -/
def replacedLen (bs : List UInt8) : Nat := max 1 (wellFormedLen .start bs)

/-- `String::from_utf8_lossy` -/
def fromUtf8Lossy : List UInt8 → List Char
  | [] => []
  | b :: bs =>
    match (b :: bs).toByteArray.utf8DecodeChar? 0 with
    | some c => c :: fromUtf8Lossy ((b :: bs).drop c.utf8Size)
    | none => Char.ofNat 0xFFFD :: fromUtf8Lossy ((b :: bs).drop (replacedLen (b :: bs)))
termination_by bs => bs.length
decreasing_by
  · have := c.utf8Size_pos
    rw [List.length_drop, List.length_cons]
    omega
  · rw [List.length_drop, List.length_cons]
    unfold replacedLen
    omega

/-- `str::as_bytes` -/
def utf8Bytes (cs : List Char) : List UInt8 := cs.flatMap String.utf8EncodeChar

/-- A text is read back from its bytes. -/
theorem fromUtf8Lossy_utf8Bytes (cs : List Char) : fromUtf8Lossy (utf8Bytes cs) = cs := by
  induction cs with
  | nil =>
    show fromUtf8Lossy [] = []
    rw [fromUtf8Lossy]
  | cons c cs ih =>
    have hcons : utf8Bytes (c :: cs) = String.utf8EncodeChar c ++ utf8Bytes cs := rfl
    have hlen : (String.utf8EncodeChar c).length = c.utf8Size := String.length_utf8EncodeChar c
    have hpos := c.utf8Size_pos
    have hdec : (utf8Bytes (c :: cs)).toByteArray.utf8DecodeChar? 0 = some c := by
      rw [hcons, List.toByteArray_append]
      exact ByteArray.utf8DecodeChar?_utf8EncodeChar_append
    have hdrop : (utf8Bytes (c :: cs)).drop c.utf8Size = utf8Bytes cs := by
      rw [hcons, ← hlen, List.drop_left]
    cases hbs : utf8Bytes (c :: cs) with
    | nil =>
      have hnil := congrArg List.length hbs
      rw [hcons, List.length_append, hlen, List.length_nil] at hnil
      omega
    | cons b bs =>
      rw [hbs] at hdec hdrop
      rw [fromUtf8Lossy, hdec]
      show c :: fromUtf8Lossy ((b :: bs).drop c.utf8Size) = c :: cs
      rw [hdrop, ih]

/-! ## String tokens -/

/-- A character that stands for itself in a string. -/
def Plain (c : Char) : Prop := c ≠ '"' ∧ c ≠ '\\' ∧ 0x20 ≤ c.toNat

instance (c : Char) : Decidable (Plain c) := inferInstanceAs (Decidable (_ ∧ _ ∧ _))

def hexDigit (c : Char) : Option Nat :=
  if '0' ≤ c ∧ c ≤ '9' then some (c.toNat - 48)
  else if 'a' ≤ c ∧ c ≤ 'f' then some (c.toNat - 87)
  else if 'A' ≤ c ∧ c ≤ 'F' then some (c.toNat - 55)
  else none

def hexDigits : List Char → Option Nat
  | [] => some 0
  | c :: cs => do
    let d ← hexDigit c
    let n ← hexDigits cs
    return d * 16 ^ cs.length + n

/-- The character after a backslash. -/
def shortEscape (c : Char) : Option Char :=
  match c with
  | '"' => some '"'
  | '\\' => some '\\'
  | '/' => some '/'
  | 'b' => some (Char.ofNat 8)
  | 'f' => some (Char.ofNat 12)
  | 'n' => some '\n'
  | 'r' => some '\r'
  | 't' => some '\t'
  | _ => none

/-- What one step of a string stands for: a character, or a UTF-16 code unit. -/
inductive Piece where
  | char (c : Char)
  | unit (n : Nat)

/-- The text between the quotes, piece by piece. -/
inductive Chars : List Char → List Piece → Prop where
  | nil : Chars [] []
  | plain {c : Char} {t : List Char} {ps : List Piece} (h : Plain c) (ht : Chars t ps) :
      Chars (c :: t) (.char c :: ps)
  | short {e c : Char} {t : List Char} {ps : List Piece} (h : shortEscape e = some c) (ht : Chars t ps) :
      Chars ('\\' :: e :: t) (.char c :: ps)
  | hex {ds : List Char} {n : Nat} {t : List Char} {ps : List Piece} (hlen : ds.length = 4)
      (h : hexDigits ds = some n) (ht : Chars t ps) : Chars ('\\' :: 'u' :: (ds ++ t)) (.unit n :: ps)

/-- The pieces as a text; two surrogates are one character, and a lone one is an error. -/
def decode : List Piece → Option (List Char)
  | [] => some []
  | .char c :: ps => (decode ps).map fun cs => c :: cs
  | .unit n :: .unit m :: ps =>
    if n < 0xD800 ∨ 0xE000 ≤ n then (decode (.unit m :: ps)).map fun cs => Char.ofNat n :: cs
    else if n < 0xDC00 ∧ 0xDC00 ≤ m ∧ m < 0xE000 then
      (decode ps).map fun cs => Char.ofNat (0x10000 + (n - 0xD800) * 0x400 + (m - 0xDC00)) :: cs
    else none
  | .unit n :: ps =>
    if n < 0xD800 ∨ 0xE000 ≤ n then (decode ps).map fun cs => Char.ofNat n :: cs else none

/-- A string token, and the text it stands for. -/
def StringOf (v s : List Char) : Prop := ∃ t ps, v = '"' :: (t ++ ['"']) ∧ Chars t ps ∧ decode ps = some s

theorem chars_of_plain {t : List Char} (h : ∀ c ∈ t, Plain c) : Chars t (t.map .char) := by
  induction t with
  | nil => exact .nil
  | cons c t ih => exact .plain (h c List.mem_cons_self) (ih fun d hd => h d (List.mem_cons_of_mem c hd))

theorem decode_char (cs : List Char) : decode (cs.map .char) = some cs := by
  induction cs with
  | nil => rfl
  | cons c cs ih =>
    rw [List.map_cons, decode, ih]
    rfl

/-- The form of plainness that evaluates. -/
theorem plain_of_all {t : List Char} (h : t.all (fun c => decide (Plain c)) = true) : ∀ c ∈ t, Plain c := by
  intro c hc
  exact of_decide_eq_true (List.all_eq_true.1 h c hc)

theorem stringOf_plain {s : List Char} (h : ∀ c ∈ s, Plain c) : StringOf ('"' :: (s ++ ['"'])) s :=
  ⟨s, _, rfl, chars_of_plain h, decode_char s⟩

/-- A piece takes at least one character. -/
theorem Chars.length_le {t : List Char} {ps : List Piece} (h : Chars t ps) : ps.length ≤ t.length := by
  induction h with
  | nil => exact Nat.le_refl _
  | plain _ _ ih => exact Nat.succ_le_succ ih
  | short _ _ ih => exact Nat.succ_le_succ (Nat.le_succ_of_le ih)
  | hex _ _ _ ih =>
    simp only [List.length_cons, List.length_append]
    omega

/-- Only a plain character is a piece of one character. -/
theorem Chars.plain_of_length_eq {t : List Char} {ps : List Piece} (h : Chars t ps) (hlen : ps.length = t.length) :
    ∀ c ∈ t, Plain c := by
  induction h with
  | nil => exact fun c hc => by cases hc
  | plain hc _ ih =>
    intro d hd
    rcases List.mem_cons.1 hd with rfl | hd
    · exact hc
    · exact ih (Nat.succ.inj hlen) d hd
  | short _ ht _ =>
    have := ht.length_le
    simp only [List.length_cons] at hlen
    omega
  | hex _ _ ht _ =>
    have := ht.length_le
    simp only [List.length_cons, List.length_append] at hlen
    omega

theorem length_decode_le {ps : List Piece} {cs : List Char} (h : decode ps = some cs) : cs.length ≤ ps.length := by
  fun_induction decode ps generalizing cs with
  | case1 =>
    cases h
    exact Nat.le_refl _
  | case2 c ps ih =>
    obtain ⟨ds, hds, rfl⟩ := Option.map_eq_some_iff.1 h
    exact Nat.succ_le_succ (ih hds)
  | case3 n m ps hn ih =>
    obtain ⟨ds, hds, rfl⟩ := Option.map_eq_some_iff.1 h
    exact Nat.succ_le_succ (ih hds)
  | case4 n m ps hn hm ih =>
    obtain ⟨ds, hds, rfl⟩ := Option.map_eq_some_iff.1 h
    exact Nat.succ_le_succ (Nat.le_succ_of_le (ih hds))
  | case5 n m ps hn hm => cases h
  | case6 n ps hps hn ih =>
    obtain ⟨ds, hds, rfl⟩ := Option.map_eq_some_iff.1 h
    exact Nat.succ_le_succ (ih hds)
  | case7 n ps hps hn => cases h

/-- A character of the pieces comes out, no later than it stood. -/
theorem decode_getElem? {ps : List Piece} {cs : List Char} (h : decode ps = some cs) {k : Nat} {c : Char}
    (hk : ps[k]? = some (.char c)) : ∃ m ≤ k, cs[m]? = some c := by
  fun_induction decode ps generalizing cs k with
  | case1 => cases hk
  | case2 d ps ih =>
    obtain ⟨ds, hds, rfl⟩ := Option.map_eq_some_iff.1 h
    cases k with
    | zero =>
      cases hk
      exact ⟨0, Nat.le_refl _, rfl⟩
    | succ k =>
      obtain ⟨m, hm, hget⟩ := ih hds hk
      exact ⟨m + 1, Nat.succ_le_succ hm, hget⟩
  | case3 n m ps hn ih =>
    obtain ⟨ds, hds, rfl⟩ := Option.map_eq_some_iff.1 h
    cases k with
    | zero => cases hk
    | succ k =>
      obtain ⟨m, hm, hget⟩ := ih hds hk
      exact ⟨m + 1, Nat.succ_le_succ hm, hget⟩
  | case4 n m ps hn hm ih =>
    obtain ⟨ds, hds, rfl⟩ := Option.map_eq_some_iff.1 h
    match k, hk with
    | 0, hk => cases hk
    | 1, hk => cases hk
    | k + 2, hk =>
      obtain ⟨m, hm, hget⟩ := ih hds hk
      exact ⟨m + 1, by omega, hget⟩
  | case5 n m ps hn hm => cases h
  | case6 n ps hps hn ih =>
    obtain ⟨ds, hds, rfl⟩ := Option.map_eq_some_iff.1 h
    cases k with
    | zero => cases hk
    | succ k =>
      obtain ⟨m, hm, hget⟩ := ih hds hk
      exact ⟨m + 1, Nat.succ_le_succ hm, hget⟩
  | case7 n ps hps hn => cases h

theorem hexDigits_notMem {x : Char} (hx : hexDigit x = none) {ds : List Char} {n : Nat}
    (h : hexDigits ds = some n) :
    x ∉ ds := by
  induction ds generalizing n with
  | nil => exact List.not_mem_nil
  | cons c cs ih =>
    unfold hexDigits at h
    obtain ⟨d, hd, h⟩ := Option.bind_eq_some_iff.1 h
    obtain ⟨m, hm, -⟩ := Option.bind_eq_some_iff.1 h
    intro hin
    rcases List.mem_cons.1 hin with rfl | hin
    · rw [hx] at hd
      cases hd
    · exact ih hm hin

/-- A quote inside a string comes from `\"`, so it comes out before its place. -/
theorem Chars.quote {t : List Char} {ps : List Piece} (h : Chars t ps) {n : Nat} (hn : t[n]? = some '"') :
    ∃ m < n, ps[m]? = some (.char '"') := by
  induction h generalizing n with
  | nil => cases hn
  | plain hc _ ih =>
    cases n with
    | zero => exact absurd (Option.some.inj hn) hc.1
    | succ n =>
      obtain ⟨m, hm, hget⟩ := ih hn
      exact ⟨m + 1, Nat.succ_lt_succ hm, hget⟩
  | short hesc _ ih =>
    match n, hn with
    | 0, hn => cases hn
    | 1, hn =>
      cases hn
      cases hesc
      exact ⟨0, Nat.one_pos, rfl⟩
    | n + 2, hn =>
      obtain ⟨m, hm, hget⟩ := ih hn
      exact ⟨m + 1, by omega, hget⟩
  | @hex ds k t ps hlen hhex _ ih =>
    match n, hn with
    | 0, hn => cases hn
    | 1, hn => cases hn
    | n + 2, hn =>
      have hn' : (ds ++ t)[n]? = some '"' := hn
      by_cases hlt : n < ds.length
      · rw [List.getElem?_append_left hlt] at hn'
        exact absurd (List.mem_of_getElem? hn') (hexDigits_notMem rfl hhex)
      · rw [List.getElem?_append_right (by omega)] at hn'
        obtain ⟨m, hm, hget⟩ := ih hn'
        exact ⟨m + 1, by omega, hget⟩

/-- Where the text `s` is read back from `s` put before a quote, the token ends no
later than that quote: a quote inside would come out earlier, at a place of `s` that
is inside too, and so on. -/
theorem Chars.length_le_of_reads_back {t s x r : List Char} {ps : List Piece} (h : Chars t ps)
    (hdec : decode ps = some s) (heq : t ++ '"' :: r = s ++ '"' :: x) : t.length ≤ s.length := by
  have hno : ∀ n, n ≤ s.length → n < t.length → t[n]? ≠ some '"' := by
    intro n
    induction n using Nat.strongRecOn with
    | ind n ih =>
      intro hns hnt hquote
      obtain ⟨k, hk, hps⟩ := h.quote hquote
      obtain ⟨m, hm, hget⟩ := decode_getElem? hdec hps
      have hms : m < s.length := (List.getElem?_eq_some_iff.1 hget).1
      refine ih m (by omega) (by omega) (by omega) ?_
      have hat : (t ++ '"' :: r)[m]? = (s ++ '"' :: x)[m]? := by rw [heq]
      rw [List.getElem?_append_left (by omega), List.getElem?_append_left hms, hget] at hat
      exact hat
  by_contra hgt
  have hlt : s.length < t.length := by omega
  refine hno s.length (Nat.le_refl _) hlt ?_
  have hat : (t ++ '"' :: r)[s.length]? = (s ++ '"' :: x)[s.length]? := by rw [heq]
  rw [List.getElem?_append_left hlt, List.getElem?_append_right (Nat.le_refl _), Nat.sub_self] at hat
  exact hat

/-- A text that is read back as itself needed no escapes. -/
theorem plain_of_reads_back {t s x r : List Char} {ps : List Piece} (h : Chars t ps) (hdec : decode ps = some s)
    (heq : t ++ '"' :: r = s ++ '"' :: x) : ∀ c ∈ s, Plain c := by
  have hle := h.length_le_of_reads_back hdec heq
  have hps := h.length_le
  have hout := length_decode_le hdec
  have hts : t = s := (List.append_inj heq (by omega)).1
  rw [← hts]
  exact h.plain_of_length_eq (by omega)

theorem backslash_ne {s x y : List Char} (hs : ∀ c ∈ s, Plain c) : '\\' :: y ≠ s ++ '"' :: x := by
  intro h
  cases s with
  | nil => cases h
  | cons c s =>
    obtain ⟨rfl, -⟩ := List.cons.inj h
    exact (hs _ List.mem_cons_self).2.1 rfl

/-- A string token that begins with plain characters and a quote ends there. -/
theorem Chars.eq_of_plain {t s x r : List Char} {ps : List Piece} (h : Chars t ps) (hs : ∀ c ∈ s, Plain c)
    (heq : t ++ '"' :: r = s ++ '"' :: x) : t = s ∧ r = x := by
  induction h generalizing s with
  | nil =>
    cases s with
    | nil => exact ⟨rfl, (List.cons.inj heq).2⟩
    | cons c s =>
      obtain ⟨rfl, -⟩ := List.cons.inj heq
      exact absurd rfl (hs _ List.mem_cons_self).1
  | @plain c t ps hc _ ih =>
    cases s with
    | nil =>
      obtain ⟨rfl, -⟩ := List.cons.inj heq
      exact absurd rfl hc.1
    | cons d s =>
      obtain ⟨rfl, hrest⟩ := List.cons.inj heq
      obtain ⟨rfl, rfl⟩ := ih (fun d hd => hs d (List.mem_cons_of_mem _ hd)) hrest
      exact ⟨rfl, rfl⟩
  | short _ _ _ => exact absurd heq (backslash_ne hs)
  | hex _ _ _ _ => exact absurd heq (backslash_ne hs)

/-! ## Values -/

def IsSpace (c : Char) : Prop := c = ' ' ∨ c = '\t' ∨ c = '\n' ∨ c = '\r'

/-- `w` is `v` with white space around it. -/
def Padded (v w : List Char) : Prop :=
  ∃ pre post, (∀ c ∈ pre, IsSpace c) ∧ (∀ c ∈ post, IsSpace c) ∧ w = pre ++ (v ++ post)

/-- One item or more, with commas between them. -/
inductive Elements : List (List Char) → List Char → Prop where
  | one {v w : List Char} (h : Padded v w) : Elements [v] w
  | cons {v w rest : List Char} {vs : List (List Char)} (h : Padded v w) (ht : Elements vs rest) :
      Elements (v :: vs) (w ++ ',' :: rest)

/-- What stands between the brackets. -/
def Body (vs : List (List Char)) (inner : List Char) : Prop :=
  (vs = [] ∧ ∀ c ∈ inner, IsSpace c) ∨ Elements vs inner

structure Member where
  key : List Char
  pre : List Char
  post : List Char
  value : List Char

def Member.text (m : Member) : List Char := m.key ++ (m.pre ++ ':' :: (m.post ++ m.value))

/-- The key is a string, with white space only around the colon. -/
def Member.Ok (m : Member) : Prop :=
  (∃ s, StringOf m.key s) ∧ (∀ c ∈ m.pre, IsSpace c) ∧ ∀ c ∈ m.post, IsSpace c

def IsDigits (t : List Char) : Prop := t ≠ [] ∧ ∀ c ∈ t, c.isDigit = true

/-- Sign, integer without leading zeros, fraction, exponent. -/
def IsNumber (t : List Char) : Prop :=
  ∃ sign int frac exp, t = sign ++ (int ++ (frac ++ exp)) ∧
    (sign = [] ∨ sign = ['-']) ∧ (int = ['0'] ∨ IsDigits int ∧ int.head? ≠ some '0') ∧
    (frac = [] ∨ ∃ ds, IsDigits ds ∧ frac = '.' :: ds) ∧
    (exp = [] ∨ ∃ e s ds, (e = 'e' ∨ e = 'E') ∧ (s = [] ∨ s = ['+'] ∨ s = ['-']) ∧ IsDigits ds ∧
        exp = e :: (s ++ ds))

inductive Value : List Char → Prop where
  | null : Value "null".toList
  | false : Value "false".toList
  | true : Value "true".toList
  | number {t : List Char} (h : IsNumber t) : Value t
  | string {v s : List Char} (h : StringOf v s) : Value v
  | array {vs : List (List Char)} {inner : List Char} (hv : ∀ v ∈ vs, Value v) (hb : Body vs inner) :
      Value ('[' :: (inner ++ [']']))
  | object {ms : List Member} {inner : List Char} (hk : ∀ m ∈ ms, m.Ok) (hv : ∀ m ∈ ms, Value m.value)
      (hb : Body (ms.map Member.text) inner) : Value ('{' :: (inner ++ ['}']))

def IsObject (t : List Char) : Prop := Value t ∧ t.head? = some '{'

/-- A text that is an array, with these elements. -/
def ArrayOf (vs : List (List Char)) (text : List Char) : Prop :=
  (∀ v ∈ vs, Value v) ∧ ∃ inner, Body vs inner ∧ Padded ('[' :: (inner ++ [']'])) text

theorem IsNumber.head {t : List Char} (h : IsNumber t) : ∃ c t', t = c :: t' ∧ c ≠ '"' := by
  obtain ⟨sign, int, frac, exp, rfl, hsign, hint, -, -⟩ := h
  rcases hsign with rfl | rfl
  · rcases hint with rfl | ⟨⟨hne, hdig⟩, -⟩
    · exact ⟨'0', _, rfl, by decide⟩
    · obtain ⟨c, cs, rfl⟩ := List.exists_cons_of_ne_nil hne
      refine ⟨c, _, rfl, ?_⟩
      rintro rfl
      exact absurd (hdig _ List.mem_cons_self) (by decide)
  · exact ⟨'-', _, rfl, by decide⟩

theorem Value.ne_nil {v : List Char} (h : Value v) : v ≠ [] := by
  cases h with
  | number h =>
    obtain ⟨c, t', rfl, -⟩ := h.head
    exact List.cons_ne_nil _ _
  | string h =>
    obtain ⟨t, ps, rfl, -⟩ := h
    exact List.cons_ne_nil _ _
  | null | false | true | array | object => exact List.cons_ne_nil _ _

/-- What begins with a quote is a string. -/
theorem Value.string_of_quote {t : List Char} (h : Value ('"' :: t)) : ∃ s, StringOf ('"' :: t) s := by
  generalize hv : '"' :: t = v at h
  cases h with
  | number h =>
    obtain ⟨c, t', rfl, hc⟩ := h.head
    exact absurd (List.cons.inj hv).1.symm hc
  | string h => exact ⟨_, h⟩
  | null | false | true | array | object => cases hv

theorem Padded.self (v : List Char) : Padded v v :=
  ⟨[], [], by simp, by simp, by simp⟩

/-- White space before an item is what the text begins with. -/
theorem Padded.head {v w x rest : List Char} {c : Char} (h : Padded v w) (hc : ¬ IsSpace c) (hv : v ≠ [])
    (heq : w ++ x = c :: rest) : ∃ v' post, v = c :: v' ∧ (∀ d ∈ post, IsSpace d) ∧ v' ++ (post ++ x) = rest := by
  obtain ⟨pre, post, hpre, hpost, rfl⟩ := h
  cases pre with
  | cons d pre =>
    obtain ⟨rfl, -⟩ := List.cons.inj heq
    exact absurd (hpre _ List.mem_cons_self) hc
  | nil =>
    obtain ⟨d, v', rfl⟩ := List.exists_cons_of_ne_nil hv
    obtain ⟨rfl, hrest⟩ := List.cons.inj heq
    exact ⟨v', post, rfl, hpost, (List.append_assoc v' post x).symm.trans hrest⟩

theorem not_isSpace_quote : ¬ IsSpace '"' := by
  unfold IsSpace
  decide

theorem not_isSpace_comma : ¬ IsSpace ',' := by
  unfold IsSpace
  decide

theorem Elements.head {vs : List (List Char)} {v inner : List Char} (h : Elements vs inner)
    (hv : vs[0]? = some v) :
    ∃ w rest, Padded v w ∧ inner = w ++ rest := by
  cases h with
  | one h =>
    cases hv
    exact ⟨_, [], h, (List.append_nil _).symm⟩
  | cons h ht =>
    cases hv
    exact ⟨_, _, h, rfl⟩

theorem elements_intercalate {vs : List (List Char)} (h : vs ≠ []) : Elements vs (List.intercalate [','] vs) := by
  induction vs with
  | nil => exact absurd rfl h
  | cons v vs ih =>
    cases vs with
    | nil =>
      rw [List.intercalate_singleton]
      exact .one (.self v)
    | cons v' vs =>
      rw [List.intercalate_cons_cons, List.append_assoc]
      exact .cons (.self v) (ih (List.cons_ne_nil _ _))

/-- An array whose text begins with a plain string, a comma and a quote: the string
that is its second element begins at that quote. -/
theorem ArrayOf.second {vs : List (List Char)} {s₀ y v s : List Char}
    (h : ArrayOf vs ('[' :: '"' :: (s₀ ++ '"' :: ',' :: '"' :: y))) (hs : ∀ c ∈ s₀, Plain c) (hv : vs[1]? = some v)
    (hstr : StringOf v s) : ∃ t ps r, Chars t ps ∧ decode ps = some s ∧ t ++ '"' :: r = y := by
  obtain ⟨hvalue, inner, hbody, hpad⟩ := h
  -- the bracket
  have hbracket : ∃ post, inner ++ ']' :: post = '"' :: (s₀ ++ '"' :: ',' :: '"' :: y) := by
    obtain ⟨v', post, hcons, -, hrest⟩ := hpad.head (x := []) (by unfold IsSpace; decide) (List.cons_ne_nil _ _)
      (List.append_nil _)
    obtain ⟨-, rfl⟩ := List.cons.inj hcons
    refine ⟨post, ?_⟩
    rw [← hrest]
    simp
  obtain ⟨post, hinner⟩ := hbracket
  rcases hbody with ⟨rfl, -⟩ | helem
  · cases hv
  cases helem with
  | one => cases hv
  | @cons v₀ w₀ rest vs hpad₀ hrest =>
    -- the first element
    have hval := hvalue v₀ List.mem_cons_self
    rw [List.append_assoc, List.cons_append] at hinner
    obtain ⟨v₀', post₀, rfl, hpost₀, heq₀⟩ := hpad₀.head not_isSpace_quote hval.ne_nil hinner
    obtain ⟨-, t₀, ps₀, hcons₀, hchars₀, -⟩ := hval.string_of_quote
    obtain ⟨-, rfl⟩ := List.cons.inj hcons₀
    rw [List.append_assoc] at heq₀
    obtain ⟨-, hafter⟩ := hchars₀.eq_of_plain hs heq₀
    have hnil : post₀ = [] := by
      cases post₀ with
      | nil => rfl
      | cons d post₀ =>
        obtain ⟨rfl, -⟩ := List.cons.inj hafter
        exact absurd (hpost₀ _ List.mem_cons_self) not_isSpace_comma
    rw [hnil] at hafter
    obtain ⟨-, hafter⟩ := List.cons.inj hafter
    -- the second
    obtain ⟨w₁, rest₁, hpad₁, rfl⟩ := hrest.head hv
    obtain ⟨t₁, ps₁, rfl, hchars₁, hdec₁⟩ := hstr
    rw [List.append_assoc] at hafter
    obtain ⟨v₁', post₁, hcons₁, -, heq₁⟩ := hpad₁.head not_isSpace_quote (List.cons_ne_nil _ _) hafter
    obtain ⟨-, rfl⟩ := List.cons.inj hcons₁
    refine ⟨t₁, ps₁, post₁ ++ (rest₁ ++ ']' :: post), hchars₁, hdec₁, ?_⟩
    rw [← heq₁, List.append_assoc]
    rfl

/-! ## Writing strings -/

/-- Lower-case hexadecimal digit. -/
def hexChar (n : Nat) : Char := if n < 10 then Char.ofNat (48 + n) else Char.ofNat (87 + n)

/-- How a character is written in a string. -/
def escapeChar (c : Char) : List Char :=
  if Plain c then [c]
  else
    match c.toNat with
    | 8 => ['\\', 'b']
    | 9 => ['\\', 't']
    | 10 => ['\\', 'n']
    | 12 => ['\\', 'f']
    | 13 => ['\\', 'r']
    | 34 => ['\\', '"']
    | 92 => ['\\', '\\']
    | n => ['\\', 'u', '0', '0', hexChar (n / 16), hexChar (n % 16)]

def writeString (s : List Char) : List Char := '"' :: (s.flatMap escapeChar ++ ['"'])

theorem decode_unit {n : Nat} (h : n < 0xD800) (ps : List Piece) :
    decode (.unit n :: ps) = (decode ps).map fun cs => Char.ofNat n :: cs := by
  cases ps with
  | nil => simp [decode, h]
  | cons p ps => cases p <;> simp [decode, h]

/-- A written control character is a short escape or a code unit. -/
theorem escapeChar_control {n : Nat} (hn : n < 0x20) :
    (∃ e, escapeChar (Char.ofNat n) = ['\\', e] ∧ shortEscape e = some (Char.ofNat n)) ∨
      escapeChar (Char.ofNat n) = ['\\', 'u', '0', '0', hexChar (n / 16), hexChar (n % 16)] ∧
        hexDigits ['0', '0', hexChar (n / 16), hexChar (n % 16)] = some n := by
  have hall : ∀ n < 0x20, (['b', 't', 'n', 'f', 'r'].any fun e =>
        decide (escapeChar (Char.ofNat n) = ['\\', e] ∧ shortEscape e = some (Char.ofNat n))) = true ∨
      escapeChar (Char.ofNat n) = ['\\', 'u', '0', '0', hexChar (n / 16), hexChar (n % 16)] ∧
        hexDigits ['0', '0', hexChar (n / 16), hexChar (n % 16)] = some n := by decide
  rcases hall n hn with h | h
  · obtain ⟨e, -, he⟩ := List.any_eq_true.1 h
    exact Or.inl ⟨e, of_decide_eq_true he⟩
  · exact Or.inr h

/-- The piece that a written character is. -/
theorem chars_escapeChar (c : Char) : ∃ p, (∀ t ps, Chars t ps → Chars (escapeChar c ++ t) (p :: ps)) ∧
    ∀ ps, decode (p :: ps) = (decode ps).map fun cs => c :: cs := by
  have hshort : ∀ {e : Char}, escapeChar c = ['\\', e] → shortEscape e = some c →
      ∃ p, (∀ t ps, Chars t ps → Chars (escapeChar c ++ t) (p :: ps)) ∧
        ∀ ps, decode (p :: ps) = (decode ps).map fun cs => c :: cs := by
    intro e hesc he
    refine ⟨.char c, fun t ps ht => ?_, fun ps => rfl⟩
    rw [hesc]
    exact .short he ht
  by_cases hc : Plain c
  · refine ⟨.char c, fun t ps ht => ?_, fun ps => rfl⟩
    unfold escapeChar
    rw [if_pos hc]
    exact .plain hc ht
  by_cases hquote : c = '"'
  · rw [hquote] at hshort ⊢
    exact hshort (e := '"') (by decide) rfl
  by_cases hback : c = '\\'
  · rw [hback] at hshort ⊢
    exact hshort (e := '\\') (by decide) rfl
  -- what is left are the control characters
  have hlt : c.toNat < 0x20 := by
    by_contra hge
    exact hc ⟨hquote, hback, by omega⟩
  rcases escapeChar_control hlt with ⟨e, hesc, he⟩ | ⟨hesc, hhex⟩
  · rw [Char.ofNat_toNat] at hesc he
    exact hshort hesc he
  · rw [Char.ofNat_toNat] at hesc
    refine ⟨.unit c.toNat, fun t ps ht => ?_, fun ps => ?_⟩
    · rw [hesc]
      exact .hex rfl hhex ht
    · rw [decode_unit (by omega), Char.ofNat_toNat]

theorem stringOf_writeString (s : List Char) : StringOf (writeString s) s := by
  have hgen : ∃ ps, Chars (s.flatMap escapeChar) ps ∧ decode ps = some s := by
    induction s with
    | nil => exact ⟨[], .nil, rfl⟩
    | cons c s ih =>
      obtain ⟨ps, hchars, hdec⟩ := ih
      obtain ⟨p, hp, hd⟩ := chars_escapeChar c
      refine ⟨p :: ps, ?_, ?_⟩
      · rw [List.flatMap_cons]
        exact hp _ _ hchars
      · rw [hd, hdec]
        rfl
  obtain ⟨ps, hchars, hdec⟩ := hgen
  exact ⟨_, ps, rfl, hchars, hdec⟩

end Json
