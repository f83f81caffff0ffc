import Acmi.Lib.Bytes
import Mathlib.Data.List.TakeWhile

/-!
# Strings in a buffer, and the words of a line

A C string is what a buffer holds from a position up to the next NUL (`cstr`). A scanning loop
`while (q(*p)) p++` moves a position (`scan`), and writing a NUL cuts a string short. The lemmas
say what each of these does to the strings, so a program that works on positions can be read as
one that works on strings. In-place tokenising, a scan over a word and a NUL behind it, is
`cstr_chop` for the word, and `cstr_chop_before` and `cstr_chop_behind` for the rest of the line.

`words` are the maximal non-empty stretches of a list without separators, which is what two
scanning loops in turn find (`words_dropWhile`, `words_of_head`).
-/

namespace Acmi.Lib

variable {α : Type}

/-! ## Spans -/

theorem takeWhile_takeWhile_of_imp {p q : α → Bool} (h : ∀ x, q x = true → p x = true)
    (xs : List α) : (xs.takeWhile p).takeWhile q = xs.takeWhile q := by
  induction xs with
  | nil => rfl
  | cons x xs ih =>
    cases hq : q x with
    | true => simp [hq, h x hq, ih]
    | false =>
      cases hp : p x with
      | true => simp [hq, hp]
      | false => simp [hq, hp]

theorem drop_takeWhile_length (p : α → Bool) (xs : List α) :
    xs.drop (xs.takeWhile p).length = xs.dropWhile p := by
  have h : (xs.takeWhile p ++ xs.dropWhile p).drop (xs.takeWhile p).length = xs.dropWhile p :=
    List.drop_left
  rwa [List.takeWhile_append_dropWhile] at h

theorem take_takeWhile_length (p : α → Bool) (xs : List α) :
    xs.take (xs.takeWhile p).length = xs.takeWhile p :=
  (List.prefix_iff_eq_take.mp (List.takeWhile_prefix p)).symm

/-! ## Strings -/

/-- The byte a pointer points at. -/
def byteAt (buf : List Byte) (i : Nat) : Byte := buf.getD i 0

/-- The string a pointer points at. -/
def cstr (buf : List Byte) (i : Nat) : List Byte := (buf.drop i).takeWhile (· != 0)

/-- Where `while (q(*p)) p++` stops. -/
def scan (q : Byte → Bool) (buf : List Byte) (i : Nat) : Nat :=
  i + ((buf.drop i).takeWhile q).length

theorem string_cons {c : Byte} (hc : c ≠ 0) (cs : List Byte) :
    (c :: cs).takeWhile (· != 0) = c :: cs.takeWhile (· != 0) := by
  have hne : (c != 0) = true := bne_iff_ne.mpr hc
  rw [List.takeWhile_cons, hne]
  rfl

theorem le_scan (q : Byte → Bool) (buf : List Byte) (i : Nat) : i ≤ scan q buf i :=
  Nat.le_add_right i _

theorem cstr_ne_zero {buf : List Byte} {i : Nat} {c : Byte} (h : c ∈ cstr buf i) : c ≠ 0 := by
  have := List.mem_takeWhile_imp h
  simpa using this

theorem byteAt_eq (buf : List Byte) (i : Nat) : byteAt buf i = (cstr buf i).headD 0 := by
  have hget : byteAt buf i = (buf.drop i).headD 0 := by
    simp [byteAt, List.headD_eq_head?_getD, List.head?_drop]
  rw [hget, cstr]
  cases buf.drop i with
  | nil => rfl
  | cons c cs =>
    by_cases hc : c = 0
    · simp [hc]
    · rw [string_cons hc]
      rfl

/-- The byte is NUL exactly at the end of the string. -/
theorem byteAt_eq_zero_iff (buf : List Byte) (i : Nat) : byteAt buf i = 0 ↔ cstr buf i = [] := by
  rw [byteAt_eq]
  constructor
  · intro h
    cases hs : cstr buf i with
    | nil => rfl
    | cons c cs =>
      rw [hs] at h
      have hc : c ∈ cstr buf i := by rw [hs]; exact List.mem_cons_self
      exact absurd h (cstr_ne_zero hc)
  · intro h
    rw [h]
    rfl

/-- A position inside a string, or at its end. -/
theorem cstr_add {buf : List Byte} {i n : Nat} (hn : n ≤ (cstr buf i).length) :
    cstr buf (i + n) = (cstr buf i).drop n := by
  have hall : ∀ xs : List Byte, n ≤ (xs.takeWhile (· != 0)).length →
      (xs.drop n).takeWhile (· != 0) = (xs.takeWhile (· != 0)).drop n := by
    clear hn
    induction n with
    | zero => intro xs _; rfl
    | succ n ih =>
      intro xs h
      cases xs with
      | nil => simp
      | cons x xs =>
        by_cases hx : x = 0
        · simp [hx] at h
        · rw [string_cons hx] at h ⊢
          exact ih xs (Nat.le_of_succ_le_succ h)
  have h := hall (buf.drop i) hn
  rwa [List.drop_drop] at h

theorem byteAt_add {buf : List Byte} {i n : Nat} (hn : n ≤ (cstr buf i).length) :
    byteAt buf (i + n) = (cstr buf i).getD n 0 := by
  rw [byteAt_eq, cstr_add hn, List.headD_eq_head?_getD, List.head?_drop, List.getD_eq_getElem?_getD]

/-- A loop that stops at NUL stays in the string. -/
theorem scan_eq {q : Byte → Bool} (hq : q 0 = false) (buf : List Byte) (i : Nat) :
    scan q buf i = i + ((cstr buf i).takeWhile q).length := by
  have himp : ∀ c, q c = true → (c != 0) = true := by
    intro c hc
    by_cases h0 : c = 0
    · rw [h0, hq] at hc
      cases hc
    · simpa using h0
  rw [scan, cstr, takeWhile_takeWhile_of_imp himp]

/-- What the pointer points at after the loop. -/
theorem cstr_scan {q : Byte → Bool} (hq : q 0 = false) (buf : List Byte) (i : Nat) :
    cstr buf (scan q buf i) = (cstr buf i).dropWhile q := by
  rw [scan_eq hq, cstr_add (List.takeWhile_prefix q).length_le, drop_takeWhile_length]

/-- The loop does not move the end of the string. -/
theorem scan_add_length {q : Byte → Bool} (hq : q 0 = false) (buf : List Byte) (i : Nat) :
    scan q buf i + (cstr buf (scan q buf i)).length = i + (cstr buf i).length := by
  have hsplit := congrArg List.length
    (List.takeWhile_append_dropWhile (p := q) (l := cstr buf i))
  rw [List.length_append] at hsplit
  rw [cstr_scan hq, scan_eq hq]
  omega

/-- Writing a NUL at or after the pointer cuts its string there. -/
theorem cstr_set_of_le {buf : List Byte} {i j : Nat} (hij : i ≤ j) (hj : j < buf.length) :
    cstr (buf.set j 0) i = (cstr buf i).take (j - i) := by
  have hall : ∀ (n : Nat) (xs : List Byte), n < xs.length →
      (xs.set n 0).takeWhile (· != 0) = (xs.takeWhile (· != 0)).take n := by
    intro n
    induction n with
    | zero =>
      intro xs h
      cases xs with
      | nil => cases h
      | cons x xs => simp
    | succ n ih =>
      intro xs h
      cases xs with
      | nil => cases h
      | cons x xs =>
        have hrest := ih xs (Nat.lt_of_succ_lt_succ h)
        by_cases hx : x = 0
        · simp [hx]
        · rw [List.set_cons_succ, string_cons hx, string_cons hx, hrest, List.take_succ_cons]
  have hdrop : (buf.set j 0).drop i = (buf.drop i).set (j - i) 0 := by
    rw [List.drop_set, if_neg (Nat.not_lt.mpr hij)]
  rw [cstr, hdrop, hall _ _ (by rw [List.length_drop]; omega), cstr]

/-- Writing a NUL before the pointer leaves its string alone. -/
theorem cstr_set_of_lt {buf : List Byte} {i j : Nat} (hji : j < i) :
    cstr (buf.set j 0) i = cstr buf i := by
  rw [cstr, List.drop_set, if_pos hji, cstr]

/-! ## Chopping out a word -/

/-- The string the pointer points at ends inside the buffer. -/
def Terminated (buf : List Byte) (i : Nat) : Prop := i + (cstr buf i).length < buf.length

theorem Terminated.scanned {buf : List Byte} {i : Nat} (h : Terminated buf i) {q : Byte → Bool}
    (hq : q 0 = false) : Terminated buf (scan q buf i) := by
  unfold Terminated
  rw [scan_add_length hq]
  exact h

/-- A NUL behind the word makes the word the string. -/
theorem cstr_chop {q : Byte → Bool} (hq : q 0 = false) {buf : List Byte} {i : Nat}
    (h : Terminated buf i) :
    cstr (buf.set (scan q buf i) 0) i = (cstr buf i).takeWhile q := by
  have hend := h.scanned hq
  unfold Terminated at hend
  rw [cstr_set_of_le (le_scan q buf i) (by omega), scan_eq hq, Nat.add_sub_cancel_left,
    take_takeWhile_length]

/-- It does not touch a string that ends before. -/
theorem cstr_chop_before {q : Byte → Bool} (hq : q 0 = false) {buf : List Byte} {i k : Nat}
    (h : Terminated buf i) (hk : k + (cstr buf k).length ≤ i) :
    cstr (buf.set (scan q buf i) 0) k = cstr buf k := by
  have hend := h.scanned hq
  have hle := le_scan q buf i
  unfold Terminated at hend
  rw [cstr_set_of_le (by omega) (by omega), List.take_of_length_le (by omega)]

/-- Nor what comes behind the separators: these begin where the word ends, if anything does. -/
theorem cstr_chop_behind {p q : Byte → Bool} (hp : p 0 = false) (hq : q 0 = false)
    (hpq : ∀ c, c ≠ 0 → q c = false → p c = true) {buf : List Byte} {i : Nat}
    (h : Terminated buf i) :
    cstr (buf.set (scan q buf i) 0) (scan p buf (scan q buf i)) =
      ((cstr buf i).dropWhile q).dropWhile p := by
  have hend := h.scanned hq
  unfold Terminated at hend
  have hbehind : cstr buf (scan q buf i) = (cstr buf i).dropWhile q := cstr_scan hq buf i
  generalize scan q buf i = j at hend hbehind ⊢
  rw [← hbehind, ← cstr_scan hp]
  cases hs : cstr buf j with
  | nil =>
    -- nothing behind the word, and `p` stays at the NUL
    have hscan : scan p buf j = j := by
      rw [scan_eq hp, hs]
      rfl
    rw [hscan, cstr_set_of_le (Nat.le_refl j) (by omega), hs, List.take_nil]
  | cons c cs =>
    have hc0 : c ≠ 0 := cstr_ne_zero (hs ▸ List.mem_cons_self)
    have hqc : q c = false := by
      have hne : (cstr buf i).dropWhile q ≠ [] := by
        rw [← hbehind, hs]
        exact List.cons_ne_nil c cs
      have hhead := List.head_dropWhile_not q hne
      simpa only [← hbehind, hs, List.head_cons] using hhead
    -- at least one separator, which the NUL replaces
    have hlt : j < scan p buf j := by
      rw [scan_eq hp, hs, List.takeWhile_cons_of_pos (hpq c hc0 hqc), List.length_cons]
      omega
    exact cstr_set_of_lt hlt

theorem Terminated.chopped {p q : Byte → Bool} (hp : p 0 = false) (hq : q 0 = false)
    (hpq : ∀ c, c ≠ 0 → q c = false → p c = true) {buf : List Byte} {i : Nat}
    (h : Terminated buf i) :
    Terminated (buf.set (scan q buf i) 0) (scan p buf (scan q buf i)) := by
  have hend := (h.scanned hq).scanned hp
  unfold Terminated at hend ⊢
  rw [cstr_chop_behind hp hq hpq h, List.length_set, ← cstr_scan hq, ← cstr_scan hp]
  exact hend

/-! ## Words -/

/-- The maximal non-empty stretches without separators, in order. -/
def words (p : α → Bool) (xs : List α) : List (List α) :=
  (xs.splitOnP p).filter (!·.isEmpty)

@[simp] theorem words_nil (p : α → Bool) : words p ([] : List α) = [] := rfl

theorem words_append_sep {p : α → Bool} {x : α} (hx : p x = true) (xs ys : List α) :
    words p (xs ++ x :: ys) = words p xs ++ words p ys := by
  rw [words, List.splitOnP_append_cons xs ys hx, List.filter_append, words, words]

theorem words_sep_cons {p : α → Bool} {x : α} (hx : p x = true) (xs : List α) :
    words p (x :: xs) = words p xs :=
  words_append_sep hx [] xs

/-- Separators in front add no word. -/
theorem words_dropWhile (p : α → Bool) (xs : List α) : words p (xs.dropWhile p) = words p xs := by
  induction xs with
  | nil => rfl
  | cons x xs ih =>
    by_cases hx : p x = true
    · rw [List.dropWhile_cons_of_pos hx, ih, words_sep_cons hx]
    · rw [List.dropWhile_cons_of_neg hx]

theorem words_of_not_sep {p : α → Bool} {w : List α} (hw : ∀ x ∈ w, p x = false) (hne : w ≠ []) :
    words p w = [w] := by
  rw [words, List.splitOnP_eq_singleton hw]
  simp [hne]

/-- The first word of a list that does not begin with a separator. -/
theorem words_of_head {p : α → Bool} {x : α} {xs : List α} (hx : p x = false) :
    words p (x :: xs) =
      (x :: xs).takeWhile (!p ·) :: words p ((x :: xs).dropWhile (!p ·)) := by
  have hword : ∀ y ∈ (x :: xs).takeWhile (!p ·), p y = false := by
    intro y hy
    simpa using List.mem_takeWhile_imp hy
  have hne : (x :: xs).takeWhile (!p ·) ≠ [] := by
    simp [hx]
  have hsplit : (x :: xs).takeWhile (!p ·) ++ (x :: xs).dropWhile (!p ·) = x :: xs :=
    List.takeWhile_append_dropWhile
  cases hrest : (x :: xs).dropWhile (!p ·) with
  | nil =>
    rw [hrest, List.append_nil] at hsplit
    rw [hsplit] at hword ⊢
    exact words_of_not_sep hword (List.cons_ne_nil x xs)
  | cons y ys =>
    have hy : p y = true := by
      have hcons : (x :: xs).dropWhile (!p ·) ≠ [] := by
        rw [hrest]
        exact List.cons_ne_nil y ys
      have h := List.head_dropWhile_not (!p ·) hcons
      simpa [hrest] using h
    calc words p (x :: xs)
        = words p ((x :: xs).takeWhile (!p ·) ++ y :: ys) := by rw [← hrest, hsplit]
      _ = words p ((x :: xs).takeWhile (!p ·)) ++ words p ys := words_append_sep hy _ _
      _ = (x :: xs).takeWhile (!p ·) :: words p (y :: ys) := by
          rw [words_of_not_sep hword hne, words_sep_cons hy]
          rfl

end Acmi.Lib
