import Mathlib.Algebra.Group.Nat.Defs
import Mathlib.Data.Nat.Init
import Mathlib.Data.List.Basic

/-!
# A counter with a start flag

A timer in the style of a synchronous circuit: a start condition raises the flag `run`, the
counter runs while the flag is up, the flag falls at the edge at which the counter has reached
the limit, and at the edge behind that the counter is cleared. Both registers work on the values
before the edge.

The counter is cleared only when it is found at or beyond the limit. So a timer whose flag is
down with a count strictly between 0 and the limit stays like that (`Stuck`, `Stuck.tick`), and
every other timer is back at rest within `limit + 2` edges of its last start (`settles`).
-/

namespace Acmi.Lib

variable {n : Nat}

/-- The counter behind an edge. -/
def countNext (reset run : Bool) (limit count : BitVec n) : BitVec n :=
  if reset then 0
  else if run then count + 1
  else if limit ≤ count then 0
  else count

/-- The flag behind an edge; the start condition wins over the end of the count. -/
def runNext (reset start : Bool) (limit count : BitVec n) (run : Bool) : Bool :=
  if reset then false
  else if start then true
  else if limit ≤ count then false
  else run

structure Timer (n : Nat) where
  count : BitVec n
  run : Bool
  deriving DecidableEq

/-- Nothing going on. -/
def Timer.rest : Timer n := ⟨0, false⟩

/-- One edge without a reset. -/
def Timer.tick (t : Timer n) (limit : BitVec n) (start : Bool) : Timer n where
  count := countNext false t.run limit t.count
  run := runNext false start limit t.count t.run

/-! ## One edge, in numbers -/

theorem toNat_one_mod (n : Nat) : (1 : BitVec n).toNat = 1 % 2 ^ n := rfl

theorem toNat_add_one {x : BitVec n} (h : x.toNat + 1 < 2 ^ n) : (x + 1).toNat = x.toNat + 1 := by
  rw [BitVec.toNat_add, toNat_one_mod, Nat.add_mod_mod, Nat.mod_eq_of_lt h]

/-- At its largest value a counter goes back to 0. -/
theorem toNat_add_one_wrap {x : BitVec n} (h : ¬ x.toNat + 1 < 2 ^ n) : (x + 1).toNat = 0 := by
  have hx := x.isLt
  have hlast : x.toNat + 1 = 2 ^ n := by omega
  rw [BitVec.toNat_add, toNat_one_mod, Nat.add_mod_mod, hlast, Nat.mod_self]

section

variable {t : Timer n} {limit : BitVec n} {start : Bool}

theorem Timer.tick_count_run (h : t.run = true) : (t.tick limit start).count = t.count + 1 := by
  simp [Timer.tick, countNext, h]

theorem Timer.tick_count_down (h : t.run = false) : (t.tick limit start).count.toNat =
    if limit.toNat ≤ t.count.toNat then 0 else t.count.toNat := by
  simp only [Timer.tick, countNext, h, Bool.false_eq_true, if_false, BitVec.le_def]
  split <;> rfl

/-- The counter, as long as it has room. -/
theorem Timer.tick_count (hroom : t.run = true → t.count.toNat + 1 < 2 ^ n) :
    (t.tick limit start).count.toNat =
      if t.run = true then t.count.toNat + 1
      else if limit.toNat ≤ t.count.toNat then 0
      else t.count.toNat := by
  by_cases h : t.run = true
  · rw [if_pos h, Timer.tick_count_run h, toNat_add_one (hroom h)]
  · rw [if_neg h, Timer.tick_count_down (by simpa using h)]

theorem Timer.tick_run : (t.tick limit start).run = true ↔
    start = true ∨ (t.count.toNat < limit.toNat ∧ t.run = true) := by
  simp only [Timer.tick, runNext, Bool.false_eq_true, if_false, BitVec.le_def]
  split
  next h => exact iff_of_true rfl (Or.inl h)
  next h =>
    split
    next hend => exact iff_of_false Bool.false_ne_true fun hc => hc.elim h (by omega)
    next hrun => exact ⟨fun hc => Or.inr ⟨by omega, hc⟩, fun hc => hc.elim (absurd · h) And.right⟩

theorem Timer.tick_rest : (Timer.rest : Timer n).tick limit false = .rest := by
  simp [Timer.tick, Timer.rest, countNext, runNext]

/-! ## Stuck timers -/

/-- The flag is down and the counter neither at rest nor far enough to be cleared. -/
structure Timer.Stuck (t : Timer n) (limit : BitVec n) : Prop where
  run : t.run = false
  pos : 0 < t.count.toNat
  lt : t.count.toNat < limit.toNat

instance (t : Timer n) (limit : BitVec n) : Decidable (t.Stuck limit) :=
  decidable_of_iff (t.run = false ∧ 0 < t.count.toNat ∧ t.count.toNat < limit.toNat)
    ⟨fun h => ⟨h.1, h.2.1, h.2.2⟩, fun h => ⟨h.run, h.pos, h.lt⟩⟩

/-- Only a start gets a stuck timer going. -/
theorem Timer.Stuck.tick (h : t.Stuck limit) : t.tick limit false = t := by
  have hlt := h.lt
  have hcount : (t.tick limit false).count = t.count := by
    apply BitVec.eq_of_toNat_eq
    rw [Timer.tick_count_down h.run, if_neg (by omega)]
  have hrun : (t.tick limit false).run = t.run := by
    simp [Timer.tick, runNext, h.run]
  cases ht : t.tick limit false
  rw [ht] at hcount hrun
  exact congr (congrArg Timer.mk hcount) hrun

/-- A timer does not get stuck on its own. -/
theorem Timer.not_stuck_tick (h : ¬ t.Stuck limit) : ¬ (t.tick limit start).Stuck limit := by
  intro hstuck
  have hpos := hstuck.pos
  have hlt := hstuck.lt
  have hdown : ¬ (start = true ∨ (t.count.toNat < limit.toNat ∧ t.run = true)) := by
    rw [← Timer.tick_run, hstuck.run]
    exact Bool.false_ne_true
  by_cases hrun : t.run = true
  · -- the flag fell at this edge, so the counter had reached the limit
    have hend : limit.toNat ≤ t.count.toNat := by
      by_contra hc
      exact hdown (Or.inr ⟨by omega, hrun⟩)
    rw [Timer.tick_count_run hrun] at hpos hlt
    by_cases hroom : t.count.toNat + 1 < 2 ^ n
    · rw [toNat_add_one hroom] at hlt
      omega
    · rw [toNat_add_one_wrap hroom] at hpos
      omega
  · have hrun' : t.run = false := by simpa using hrun
    rw [Timer.tick_count_down hrun'] at hpos hlt
    by_cases hend : limit.toNat ≤ t.count.toNat
    · rw [if_pos hend] at hpos
      omega
    · rw [if_neg hend] at hpos hlt
      exact h ⟨hrun', hpos, hlt⟩

/-! ## Coming to rest -/

/-- A bound on the edges a timer that is not stuck still needs. -/
def Timer.rank (t : Timer n) (limit : BitVec n) : Nat :=
  if t.run = true then limit.toNat - t.count.toNat + 2
  else if t.count.toNat = 0 then 0
  else 1

theorem Timer.rank_le (t : Timer n) (limit : BitVec n) : t.rank limit ≤ limit.toNat + 2 := by
  unfold Timer.rank
  split
  · omega
  · split <;> omega

theorem Timer.rest_of_rank (h : t.rank limit = 0) : t = .rest := by
  unfold Timer.rank at h
  by_cases hrun : t.run = true
  · rw [if_pos hrun] at h
    omega
  · rw [if_neg hrun] at h
    by_cases hzero : t.count.toNat = 0
    · have hcount : t.count = 0 := BitVec.eq_of_toNat_eq hzero
      have hdown : t.run = false := by simpa using hrun
      exact congr (congrArg Timer.mk hcount) hdown
    · rw [if_neg hzero] at h
      omega

/-- Every edge without a start brings a timer nearer to its rest. -/
theorem Timer.rank_tick (h : ¬ t.Stuck limit) :
    (t.tick limit false).rank limit ≤ t.rank limit - 1 := by
  have hrun' : (t.tick limit false).run = true ↔
      t.count.toNat < limit.toNat ∧ t.run = true := by
    rw [Timer.tick_run]
    simp
  by_cases hrun : t.run = true
  · have hrank : t.rank limit = limit.toNat - t.count.toNat + 2 := if_pos hrun
    by_cases hlt : t.count.toNat < limit.toNat
    · have hroom : t.count.toNat + 1 < 2 ^ n := by have := limit.isLt; omega
      rw [hrank, Timer.rank, if_pos (hrun'.mpr ⟨hlt, hrun⟩), Timer.tick_count_run hrun,
        toNat_add_one hroom]
      omega
    · rw [hrank, Timer.rank, if_neg (fun hc => hlt (hrun'.mp hc).1)]
      split <;> omega
  · have hdown : t.run = false := by simpa using hrun
    have hend : t.count.toNat = 0 ∨ limit.toNat ≤ t.count.toNat := by
      by_contra hc
      exact h ⟨hdown, by omega, by omega⟩
    have hzero : (t.tick limit false).count.toNat = 0 := by
      rw [Timer.tick_count_down hdown]
      split <;> omega
    rw [Timer.rank, if_neg (fun hc => hrun (hrun'.mp hc).2), if_pos hzero]
    exact Nat.zero_le _

end

/-- **Without a start for `limit + 2` edges, a timer that is not stuck is at rest.** -/
theorem Timer.settles {f : Nat → Timer n} (limit : BitVec n) {a b : Nat}
    (hstep : ∀ u, a ≤ u → u < b → f (u + 1) = (f u).tick limit false)
    (h : ¬ (f a).Stuck limit) (hab : a + limit.toNat + 2 ≤ b) : f b = .rest := by
  have hrank : ∀ u, a ≤ u → u ≤ b →
      ¬ (f u).Stuck limit ∧ (f u).rank limit ≤ limit.toNat + 2 - (u - a) := by
    intro u hau
    induction u, hau using Nat.le_induction with
    | base =>
      intro _
      have hle := (f a).rank_le limit
      exact ⟨h, by omega⟩
    | succ u hau ih =>
      intro hub
      obtain ⟨hns, hle⟩ := ih (by omega)
      have hless := Timer.rank_tick hns
      rw [hstep u hau (by omega)]
      exact ⟨Timer.not_stuck_tick hns, by omega⟩
  obtain ⟨-, hzero⟩ := hrank b (by omega) (Nat.le_refl b)
  have hnone : (f b).rank limit = 0 := by omega
  exact Timer.rest_of_rank hnone

/-- A stuck timer is still stuck after any number of edges without a start. -/
theorem Timer.stays_stuck {f : Nat → Timer n} {limit : BitVec n} {a b : Nat}
    (hstep : ∀ u, a ≤ u → u < b → f (u + 1) = (f u).tick limit false)
    (h : (f a).Stuck limit) (hab : a ≤ b) : f b = f a := by
  induction b, hab using Nat.le_induction with
  | base => rfl
  | succ b hab ih =>
    have hb := ih fun u h1 h2 => hstep u h1 (by omega)
    rw [hstep b hab (by omega), hb, h.tick]

end Acmi.Lib
