import Mathlib.Algebra.Group.Nat.Defs
import Mathlib.Data.Nat.Init
import Mathlib.Data.List.Basic

/-!
# Synchronous circuits

A circuit on one clock is a function `cycle` from the state before a rising edge and the
inputs at that edge to the state behind it. `clocked` is the state after any number of edges,
for inputs that are an arbitrary waveform.

Times count edges: `clocked … t` is the state just before edge `t`, and `ins t` is what the
inputs show at edge `t`, so that the effect of `ins t` is seen at `t + 1`.

Most registers of such a circuit are one of two kinds. A register that is loaded whenever
something happens shows the value of the last such edge (`held_since`), and a counter that
something clears shows how long ago that was (`counted_since`).

What such a circuit is busy with for a fixed time, it does not do again meanwhile: of the times at
which it is asked to, those that it takes are `Taken`. Where it is never asked to meanwhile, it is
in the course of the last request or idle (`Course`).

Two circuits that see the same inputs stay as they are to each other, once they have got there
(`clocked_related`).
-/

namespace Acmi.Lib

/-- The state after `t` rising edges. -/
def clocked {σ ι : Type} (cycle : σ → ι → σ) (s : σ) (ins : Nat → ι) : Nat → σ
  | 0 => s
  | t + 1 => cycle (clocked cycle s ins t) (ins t)

section

variable {σ ι : Type} {cycle : σ → ι → σ} {s : σ} {ins : Nat → ι}

@[simp] theorem clocked_zero : clocked cycle s ins 0 = s := rfl

theorem clocked_succ (t : Nat) :
    clocked cycle s ins (t + 1) = cycle (clocked cycle s ins t) (ins t) := rfl

/-- From edge `a` on, as from a start. -/
theorem clocked_add (a k : Nat) : clocked cycle s ins (a + k) =
    clocked cycle (clocked cycle s ins a) (fun u => ins (a + u)) k := by
  induction k with
  | zero => rfl
  | succ k ih => rw [← Nat.add_assoc, clocked_succ, clocked_succ, ih]

/-- **The invariant rule** for the edges from `a` to `b`; the invariant may speak of the
time. -/
theorem clocked_between {I : Nat → σ → Prop} {a b : Nat} (h0 : I a (clocked cycle s ins a))
    (hstep : ∀ t st, a ≤ t → t < b → I t st → I (t + 1) (cycle st (ins t))) :
    ∀ t, a ≤ t → t ≤ b → I t (clocked cycle s ins t) := by
  intro t hat
  induction t, hat using Nat.le_induction with
  | base => intro _; exact h0
  | succ t hat ih =>
    intro htb
    rw [clocked_succ]
    exact hstep t _ hat (by omega) (ih (by omega))

/-- A part of a circuit that works on its own state and on what it sees of the inputs. -/
theorem clocked_map {τ κ : Type} {part : τ → κ → τ} (f : σ → τ) (g : ι → κ)
    (h : ∀ st i, f (cycle st i) = part (f st) (g i)) :
    ∀ t, f (clocked cycle s ins t) = clocked part (f s) (fun u => g (ins u)) t := by
  intro t
  induction t with
  | zero => rfl
  | succ t ih => rw [clocked_succ, clocked_succ, h, ih]

/-- **Two circuits on the same inputs.** -/
theorem clocked_related {τ : Type} {cycle' : τ → ι → τ} {s' : τ} {R : σ → τ → Prop} {a : Nat}
    (h : R (clocked cycle s ins a) (clocked cycle' s' ins a))
    (hstep : ∀ t x y, a ≤ t → R x y → R (cycle x (ins t)) (cycle' y (ins t))) :
    ∀ t, a ≤ t → R (clocked cycle s ins t) (clocked cycle' s' ins t) := by
  intro t hat
  induction t, hat using Nat.le_induction with
  | base => exact h
  | succ t hat ih => exact hstep t _ _ hat ih

end

/-! ## The last time something happened -/

/-- `e` is the last time up to `t` at which `P` holds. -/
structure LastUpTo (P : Nat → Prop) (t e : Nat) : Prop where
  le : e ≤ t
  holds : P e
  after : ∀ u, e < u → u ≤ t → ¬ P u

section

variable {P : Nat → Prop} {t e : Nat}

theorem LastUpTo.self (h : P t) : LastUpTo P t t :=
  ⟨Nat.le_refl t, h, fun u h1 h2 => by omega⟩

theorem LastUpTo.succ (h : LastUpTo P t e) (hno : ¬ P (t + 1)) : LastUpTo P (t + 1) e := by
  refine ⟨Nat.le_succ_of_le h.le, h.holds, fun u heu hut => ?_⟩
  rcases Nat.lt_or_eq_of_le hut with hlt | heq
  · exact h.after u heu (by omega)
  · rw [heq]
    exact hno

/-- If `P` held at some time, there is a last one. -/
theorem LastUpTo.of_holds [DecidablePred P] {a : Nat} (ha : P a) :
    ∀ t, a ≤ t → ∃ e, a ≤ e ∧ LastUpTo P t e := by
  intro t hat
  induction t, hat using Nat.le_induction with
  | base => exact ⟨a, Nat.le_refl a, .self ha⟩
  | succ t hat ih =>
    by_cases hP : P (t + 1)
    · exact ⟨t + 1, by omega, .self hP⟩
    · obtain ⟨e, hae, he⟩ := ih
      exact ⟨e, hae, he.succ hP⟩

variable [DecidablePred P]

/-- A loaded register keeps its value while it is not loaded. -/
theorem held_of_not {α : Type} {r v : Nat → α} (hr : ∀ t, r (t + 1) = if P t then v t else r t)
    {a b : Nat} (hab : a ≤ b) (hno : ∀ u, a ≤ u → u < b → ¬ P u) : r b = r a := by
  induction b, hab using Nat.le_induction with
  | base => rfl
  | succ b hab ih =>
    rw [hr, if_neg (hno b hab (by omega))]
    exact ih fun u h1 h2 => hno u h1 (by omega)

/-- **A loaded register** shows what it was given last. -/
theorem held_since {α : Type} {r v : Nat → α} (hr : ∀ t, r (t + 1) = if P t then v t else r t)
    (h : LastUpTo P t e) : r (t + 1) = v e := by
  have hkeep : r (t + 1) = r (e + 1) :=
    held_of_not hr (Nat.succ_le_succ h.le) fun u h1 h2 => h.after u (by omega) (by omega)
  rw [hkeep, hr, if_pos h.holds]

/-- **A counter that is cleared** shows the time since, modulo its width. -/
theorem counted_since {w : Nat} {c : Nat → BitVec w}
    (hc : ∀ t, c (t + 1) = if P t then 0 else c t + 1) (h : LastUpTo P t e) :
    c (t + 1) = BitVec.ofNat w (t - e) := by
  have hcount : ∀ d, e + d ≤ t → c (e + d + 1) = BitVec.ofNat w d := by
    intro d
    induction d with
    | zero => intro _; rw [hc, if_pos h.holds]; rfl
    | succ d ih =>
      intro hd
      rw [hc, if_neg (h.after _ (by omega) hd), ← Nat.add_assoc, ih (by omega)]
      exact (BitVec.ofNat_add d 1).symm
  have hle := h.le
  have hd : e + (t - e) = t := by omega
  have hlast := hcount (t - e) (by omega)
  rwa [hd] at hlast

end

/-! ## What is taken -/

/-- Of the times at which `P` holds, one is taken if it does not come less than `n` behind another
that is. -/
def Taken (P : Nat → Prop) (n t : Nat) : Prop :=
  P t ∧ ∀ u, u < t → Taken P n u → u + n ≤ t
termination_by t

section

variable {P : Nat → Prop} {n t : Nat}

theorem taken_iff : Taken P n t ↔ P t ∧ ∀ u, u < t → Taken P n u → u + n ≤ t := by
  rw [Taken]

theorem Taken.apart {u : Nat} (h : Taken P n u) (h' : Taken P n t) (hlt : u < t) : u + n ≤ t :=
  (taken_iff.mp h').2 u hlt h

/-- When they are far enough apart, all are taken. -/
theorem taken_of_apart (hapart : ∀ u t, P u → P t → u < t → u + n ≤ t) : Taken P n t ↔ P t := by
  rw [taken_iff]
  exact ⟨And.left, fun h => ⟨h, fun u hlt hu => hapart u t (taken_iff.mp hu).1 h hlt⟩⟩

end

/-! ## Courses -/

/-- A circuit that an event sends through a course, `phase k` behind `k` edges, and that is idle
again from `n` edges on; `ok` is what is asked of the inputs beyond the event. -/
structure Course {σ ι : Type} (cycle : σ → ι → σ) (ok event : ι → Prop) (idle : σ → Prop)
    (phase : Nat → σ → Prop) (n : Nat) : Prop where
  start : ∀ s i, ok i → idle s → event i → phase 1 (cycle s i)
  next : ∀ k s i, ok i → 1 ≤ k → phase k s → ¬ event i → phase (k + 1) (cycle s i)
  rest : ∀ s i, ok i → idle s → ¬ event i → idle (cycle s i)
  finish : ∀ k s, n ≤ k → phase k s → idle s

section

variable {σ ι : Type} {cycle : σ → ι → σ} {ok event : ι → Prop} {idle : σ → Prop}
  {phase : Nat → σ → Prop} {n : Nat} {s : σ} {ins : Nat → ι}
  (h : Course cycle ok event idle phase n) (hs : idle s) (hok : ∀ t, ok (ins t))
  (hapart : ∀ t u, event (ins t) → event (ins u) → t < u → t + n ≤ u)

include h hs hok hapart

/-- The circuit is in the course of the last event, or idle if there was none. -/
theorem Course.since (t : Nat) :
    (∃ e, e < t ∧ event (ins e) ∧ (∀ u, e < u → u < t → ¬ event (ins u)) ∧
        phase (t - e) (clocked cycle s ins t)) ∨
      ((∀ u, u < t → ¬ event (ins u)) ∧ idle (clocked cycle s ins t)) := by
  induction t with
  | zero => exact Or.inr ⟨fun u hu => absurd hu (Nat.not_lt_zero u), hs⟩
  | succ t ih =>
    rw [clocked_succ]
    by_cases hev : event (ins t)
    · -- the course before it is over
      have hidle : idle (clocked cycle s ins t) := by
        rcases ih with ⟨e, het, he, -, hphase⟩ | ⟨-, hidle⟩
        · have hfar := hapart e t he hev het
          exact h.finish _ _ (by omega) hphase
        · exact hidle
      have hone : t + 1 - t = 1 := by omega
      refine Or.inl ⟨t, Nat.lt_succ_self t, hev, fun u h1 h2 => by omega, ?_⟩
      rw [hone]
      exact h.start _ _ (hok t) hidle hev
    · have hnone : ∀ u, (u < t → ¬ event (ins u)) → u < t + 1 → ¬ event (ins u) := by
        intro u hu hlt
        rcases Nat.lt_succ_iff_lt_or_eq.mp hlt with hbefore | rfl
        · exact hu hbefore
        · exact hev
      rcases ih with ⟨e, het, he, hlast, hphase⟩ | ⟨hnever, hidle⟩
      · have hk : t + 1 - e = t - e + 1 := by omega
        refine Or.inl ⟨e, by omega, he, fun u h1 => hnone u (hlast u h1), ?_⟩
        rw [hk]
        exact h.next _ _ _ (hok t) (by omega) hphase hev
      · exact Or.inr ⟨fun u => hnone u (hnever u), h.rest _ _ (hok t) hidle hev⟩

/-- **What is up in a part of the course** is up in that part behind each event, and at no other
time. -/
theorem Course.up_iff {U : σ → Prop} {a b : Nat} (hab : 1 ≤ a) (hbn : b < n)
    (hphase : ∀ k st, phase k st → (U st ↔ a ≤ k ∧ k ≤ b)) (hidle : ∀ st, idle st → ¬ U st)
    (t : Nat) :
    U (clocked cycle s ins t) ↔ ∃ e, event (ins e) ∧ e + a ≤ t ∧ t ≤ e + b := by
  rcases h.since hs hok hapart t with ⟨e, het, he, hlast, hp⟩ | ⟨hnever, hi⟩
  · rw [hphase _ _ hp]
    constructor
    · intro hk
      exact ⟨e, he, by omega, by omega⟩
    · intro ⟨u, hu, h1, h2⟩
      -- an earlier event has been over since before `e`
      rcases Nat.lt_trichotomy u e with hbefore | rfl | hafter
      · have hfar := hapart u e hu he hbefore
        omega
      · omega
      · exact absurd hu (hlast u hafter (by omega))
  · refine iff_of_false (hidle _ hi) ?_
    intro ⟨e, he, h1, _⟩
    exact hnever e (by omega) he

end

end Acmi.Lib
