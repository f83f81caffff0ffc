import Mathlib.Data.List.Basic

/-!
# Transferring exactly `n` bytes with an operation that may move fewer

The usual `while (n) { k = op(p, n); ... p += k; n -= k; }` loop over an operation that
answers like a socket call: a positive count of bytes moved, `0` when the other side is
gone, or an error. `transferAll` is that loop over an arbitrary state `σ`, and
`transferAll_rule` its one reasoning rule: an invariant indexed by the position reached
and the bytes still to go, with a separate postcondition for the error exits. `onSuccess`
puts such calls in sequence, and `Ends.onSuccess` is the rule for that.
-/

namespace Acmi.Lib

variable {σ ε : Type}

/-- One attempt at moving the `n` bytes that start at offset `off`. -/
abbrev MoveOp (σ ε : Type) := Nat → Nat → σ → Except ε Nat × σ

/-- Repeat `op` until `n` bytes are moved. `none` is success; a zero count gives up
with `gone`. -/
def transferAll (op : MoveOp σ ε) (gone : ε) (off n : Nat) (s : σ) : Option ε × σ :=
  if _h : n = 0 then (none, s)
  else
    match op off n s with
    | (.error e, s') => (some e, s')
    | (.ok 0, s') => (some gone, s')
    | (.ok (k + 1), s') => transferAll op gone (off + (k + 1)) (n - (k + 1)) s'
  termination_by n
  decreasing_by omega

/-- A postcondition split by the way the loop ended. -/
def Ends (P : σ → Prop) (Q : ε → σ → Prop) : Option ε × σ → Prop
  | (none, s) => P s
  | (some e, s) => Q e s

/-- What one call of `op` has to establish: a moved piece fits and re-establishes the
invariant behind it, any other answer establishes the error postcondition. -/
def MoveKeeps (I : Nat → Nat → σ → Prop) (Q : ε → σ → Prop) (gone : ε) (off n : Nat) :
    Except ε Nat × σ → Prop
  | (.error e, s) => Q e s
  | (.ok 0, s) => Q gone s
  | (.ok (k + 1), s) => k + 1 ≤ n ∧ I (off + (k + 1)) (n - (k + 1)) s

/-- **The loop rule.** `I off n` holds before each call with `n` bytes to go. -/
theorem transferAll_rule {op : MoveOp σ ε} {gone : ε} {I : Nat → Nat → σ → Prop}
    {Q : ε → σ → Prop}
    (hstep : ∀ off n s, 0 < n → I off n s → MoveKeeps I Q gone off n (op off n s)) :
    ∀ (n off : Nat) (s : σ), I off n s →
      Ends (I (off + n) 0) Q (transferAll op gone off n s) := by
  intro n
  induction n using Nat.strongRecOn with
  | ind n ih =>
    intro off s hI
    rw [transferAll]
    by_cases hn : n = 0
    · subst hn
      rw [dif_pos rfl]
      exact hI
    · rw [dif_neg hn]
      have hop := hstep off n s (Nat.pos_of_ne_zero hn) hI
      split
      next e s' hs => rw [hs] at hop; exact hop
      next s' hs => rw [hs] at hop; exact hop
      next k s' hs =>
        rw [hs] at hop
        obtain ⟨hkn, hI'⟩ := hop
        have hrest := ih (n - (k + 1)) (by omega) (off + (k + 1)) s' hI'
        rw [show off + (k + 1) + (n - (k + 1)) = off + n from by omega] at hrest
        exact hrest

/-- `ret = ...; if (ret) return ret;` in front of `k`. -/
def onSuccess (r : Option ε × σ) (k : σ → Option ε × σ) : Option ε × σ :=
  match r with
  | (none, s) => k s
  | (some e, s) => (some e, s)

/-- A postcondition of a sequence: the first part's success feeds the second, its errors
are final. -/
theorem Ends.onSuccess {P P' : σ → Prop} {Q : ε → σ → Prop} {r : Option ε × σ}
    {k : σ → Option ε × σ} (h : Ends P Q r) (hk : ∀ s, P s → Ends P' Q (k s)) :
    Ends P' Q (onSuccess r k) := by
  rcases r with ⟨_ | e, s⟩
  · exact hk s h
  · exact h

theorem Ends.weaken {P P' : σ → Prop} {Q Q' : ε → σ → Prop} {r : Option ε × σ}
    (h : Ends P Q r) (hP : ∀ s, P s → P' s) (hQ : ∀ e s, Q e s → Q' e s) : Ends P' Q' r := by
  rcases r with ⟨_ | e, s⟩
  · exact hP s h
  · exact hQ e s h

end Acmi.Lib
