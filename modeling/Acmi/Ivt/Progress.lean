import Mathlib.Data.Nat.Init
import Acmi.Ivt.Sequence

/-!
# Every run gets to entry 25

How far a run is can be counted in edges of `i2c_clk`, whatever is on the data line and
wherever the edges fall (`progress`): every edge of `i2c_clk` is one more, and an edge of the
clock loses nothing. For each transaction there is a fixed allowance, four edges a bit and
eight for the rest. Two of the eight are for `data_con`, which may need two edges of the clock
to load the next entry while as few as one falls between two edges of `i2c_clk`.

The allowances of the first 25 transactions come to 3332 edges. So no run is longer than that
without the transaction that should have been entry 24, and is entry 25.
-/

namespace Acmi.Ivt

open Acmi.Lib

/-! ## How far a run is -/

/-- The allowance of transaction `n`. -/
def allowance (n : Nat) : Nat := 4 * sizeAt (entryAt 24 n) + 8

/-- The allowances of the first `n` transactions. -/
def allowances : Nat → Nat
  | 0 => 0
  | n + 1 => allowances n + allowance n

/-- Edges of the clock until the next entry is loaded. -/
def clocksLeft (d : DataCon) : Nat :=
  match d.state with
  | .idle => 2
  | .config => if d.stepCount < 24 then 1 else 2
  | .read => 1
  | .waiting => 0

/-- What is used of the allowance of the transaction at hand. -/
def used (c : I2cCon) (d : DataCon) (due : Bool) : Nat :=
  match c.state with
  | .idle =>
    if d.i2cTrig then 2
    else if c.i2cReady then 3 - clocksLeft d - due.toNat
    else 2 - clocksLeft d
  | .start => 3
  | .clkP1 => 4 * (d.bcnt - c.bitCount) + 4
  | .clkP2 => 4 * (d.bcnt - c.bitCount) + 5
  | .clkP3 => 4 * (d.bcnt - c.bitCount) + 6
  | .clkP4 => 4 * (d.bcnt - c.bitCount) + 7
  | .stopP1 => 4 * d.bcnt + 5
  | .stopP2 => 4 * d.bcnt + 6
  | .stopP3 => 4 * d.bcnt + 7
  | .stopP4 => 0

/-- How far a run is. -/
def progress (b : Bench) : Nat := allowances b.bus.done.length + used b.i2c b.data b.due

theorem allowances_mono {m n : Nat} (h : m ≤ n) : allowances m ≤ allowances n := by
  induction n, h using Nat.le_induction with
  | base => exact Nat.le_refl _
  | succ n _ ih => exact Nat.le_trans ih (Nat.le_add_right _ _)

/-- The first 25 transactions. -/
theorem allowances_config : allowances 25 = 3332 := by decide

/-- No more than the allowance is used. -/
theorem used_lt {b : Bench} (h : Inv b) :
    used b.i2c b.data b.due < allowance b.bus.done.length := by
  unfold allowance
  rcases h.stage with hw | ha | hb
  · unfold used
    rw [hw.state, hw.trig]
    simp only [Bool.false_eq_true, if_false]
    split
    · omega
    · omega
  · unfold used
    rw [ha.state, ha.trig]
    simp only [if_true]
    omega
  · rw [← hb.loaded.bcnt]
    have hidle := hb.not_idle
    unfold used
    cases hs : b.i2c.state with
    | idle => exact absurd hs hidle
    | start => simp only; omega
    | clkP1 => simp only; omega
    | clkP2 => simp only; omega
    | clkP3 => simp only; omega
    | clkP4 => simp only; omega
    | stopP1 => simp only; omega
    | stopP2 => simp only; omega
    | stopP3 => simp only; omega
    | stopP4 => simp only; omega

/-! ## One edge -/

/-- While no more than 24 transactions have ended, `data_con` is on its way to the next one. -/
theorem Between.early {d : DataCon} {started n : Nat} (h : Between d started n) (hn : n ≤ 24) :
    (d.state = .idle ∧ d.stepCount = 0) ∨ d.state = .config ∨
      (d.state = .read ∧ d.stepCount < 60) := by
  unfold Between at h
  cases hs : d.state with
  | idle =>
    rw [hs] at h
    exact .inl ⟨rfl, h.1⟩
  | config => exact .inr (.inl rfl)
  | read =>
    rw [hs] at h
    exact .inr (.inr ⟨rfl, by omega⟩)
  | waiting =>
    rw [hs] at h
    omega

/-- An edge of the clock brings the next entry nearer. -/
theorem clocksLeft_dataCon {d : DataCon} {started n : Nat} (h : Between d started n) (hn : n ≤ 24)
    (htrig : d.i2cTrig = false) (s : Bool) (rreg : BitVec 36) :
    1 ≤ clocksLeft d ∧ ((dataCon d s true rreg).i2cTrig = true ∨
      clocksLeft (dataCon d s true rreg) + 1 = clocksLeft d) := by
  rcases h.early hn with ⟨hs, h0⟩ | hs | ⟨hs, h60⟩
  · rw [dataCon_idle hs]
    unfold clocksLeft
    rw [hs, h0]
    exact ⟨by decide, .inr rfl⟩
  · by_cases hlt : d.stepCount < 24
    · rw [dataCon_config hs htrig hlt]
      refine ⟨?_, .inl rfl⟩
      unfold clocksLeft
      rw [hs]
      simp only [if_pos hlt, Nat.le_refl]
    · rw [dataCon_config_leave hs htrig hlt]
      unfold clocksLeft
      rw [hs]
      simp only [if_neg hlt]
      exact ⟨by decide, .inr trivial⟩
  · rw [dataCon_read hs htrig h60]
    have hone : clocksLeft d = 1 := by
      unfold clocksLeft
      rw [hs]
    exact ⟨Nat.le_of_eq hone.symm, .inl rfl⟩

theorem clocksLeft_le (d : DataCon) : clocksLeft d ≤ 2 := by
  unfold clocksLeft
  split
  · decide
  · split
    · decide
    · decide
  · decide
  · decide

theorem progress_clockEdge {b : Bench} (h : Inv b) (hn : b.bus.done.length ≤ 24) :
    progress b ≤ progress b.clockEdge := by
  refine Nat.add_le_add_left ?_ _
  show used b.i2c b.data b.due ≤ used b.i2c b.clockEdge.data b.clockEdge.due
  rcases h.stage with hw | ha | hb
  · unfold used
    rw [hw.state]
    cases hready : b.i2c.i2cReady with
    | false =>
      rw [(b.clockEdge_notReady hready).1]
      simp only [hw.trig, Bool.false_eq_true, if_false]
      exact Nat.le_refl _
    | true =>
      rw [(b.clockEdge_ready hready).1]
      have hdue := Bool.toNat_le b.due
      have hdue' := Bool.toNat_le b.clockEdge.due
      have hclocks := clocksLeft_le b.data
      obtain ⟨hpos, htrig | hless⟩ :=
        clocksLeft_dataCon hw.place hn hw.trig (strobe b.clkcnt) b.i2c.rreg
      · simp only [hw.trig, htrig, Bool.false_eq_true, if_false, if_true]
        omega
      · simp only [hw.trig, Bool.false_eq_true, if_false, if_true]
        split
        · omega
        · omega
  · rw [ha.clockEdge_data.1]
    unfold used
    rw [ha.state, ha.trig]
    exact Nat.le_refl _
  · rw [(b.clockEdge_notReady hb.ready).1]
    have hidle := hb.not_idle
    unfold used
    cases hs : b.i2c.state with
    | idle => exact absurd hs hidle
    | start => exact Nat.le_refl _
    | clkP1 => exact Nat.le_refl _
    | clkP2 => exact Nat.le_refl _
    | clkP3 => exact Nat.le_refl _
    | clkP4 => exact Nat.le_refl _
    | stopP1 => exact Nat.le_refl _
    | stopP2 => exact Nat.le_refl _
    | stopP3 => exact Nat.le_refl _
    | stopP4 => exact Nat.le_refl _

/-- An edge of `i2c_clk` within a transaction. -/
theorem used_i2cCon {c : I2cCon} {d : DataCon} {due sda : Bool} (hidle : c.state ≠ .idle)
    (hend : c.state ≠ .stopP3) (hnever : c.state ≠ .stopP4)
    (hbit : c.state = .clkP4 → 0 < c.bitCount ∧ c.bitCount ≤ d.bcnt) :
    used c d due + 1 ≤ used (i2cCon c d sda) d false := by
  rcases c with ⟨state, ready, rreg, bitCount, scl, sda0⟩
  cases state with
  | idle => exact absurd rfl hidle
  | start =>
    show 3 + 1 ≤ 4 * (d.bcnt - bitCount) + 4
    omega
  | clkP1 =>
    by_cases h0 : bitCount = 0
    · subst h0
      exact Nat.le_refl _
    · obtain ⟨k, rfl⟩ := Nat.exists_eq_succ_of_ne_zero h0
      exact Nat.le_refl _
  | clkP2 => exact Nat.le_refl _
  | clkP3 => exact Nat.le_refl _
  | clkP4 =>
    obtain ⟨hpos, hle⟩ := hbit rfl
    have hcon : i2cCon ⟨.clkP4, ready, rreg, bitCount, scl, sda0⟩ d sda =
        ⟨.clkP1, ready, setBit rreg (bitCount - 1) sda, bitCount - 1, scl, sda0⟩ := if_pos hpos
    rw [hcon]
    show 4 * (d.bcnt - bitCount) + 7 + 1 ≤ 4 * (d.bcnt - (bitCount - 1)) + 4
    simp only at hpos hle
    omega
  | stopP1 => exact Nat.le_refl _
  | stopP2 => exact Nat.le_refl _
  | stopP3 => exact absurd rfl hend
  | stopP4 => exact absurd rfl hnever

theorem progress_i2cEdge {b : Bench} (h : Inv b) (hdue : b.due = true) (sda : Bool) :
    progress b + 1 ≤ progress (b.i2cEdge sda) := by
  rcases h.stage with hw | ha | hb
  · have hclocks := clocksLeft_le b.data
    rw [hw.i2cEdge_eq sda]
    unfold progress used
    simp only [hw.state, hw.trig, hdue, Bool.false_eq_true, if_false, if_true, Bool.toNat_true,
      Bool.toNat_false]
    split
    · omega
    · omega
  · rw [ha.i2cEdge_eq sda]
    unfold progress used
    simp only [ha.state, ha.trig, if_true]
    omega
  · obtain ⟨_, ⟨hbusy, hdone⟩ | ⟨hs, _, t, _, hdone⟩⟩ := hb.i2cEdge hdue sda
    · have hused : used b.i2c b.data b.due + 1 ≤ used (i2cCon b.i2c b.data sda) b.data false := by
        refine used_i2cCon hb.not_idle (fun hs => hbusy.not_idle ?_) hb.not_stopP4
          fun hs => hb.bitIndex (.inr hs)
        show (i2cCon b.i2c b.data sda).state = .idle
        unfold i2cCon
        rw [hs]
      unfold progress
      rw [hdone]
      exact Nat.add_le_add_left hused _
    · have hused : used b.i2c b.data b.due = 4 * b.data.bcnt + 7 := by
        unfold used
        rw [hs]
      have hallow : allowance b.bus.done.length = 4 * b.data.bcnt + 8 := by
        rw [hb.loaded.bcnt]
        rfl
      have hnext : allowances (b.bus.done.length + 1) =
          allowances b.bus.done.length + allowance b.bus.done.length := rfl
      unfold progress
      rw [hdone, List.length_append, List.length_singleton, hnext, hallow, hused]
      omega

/-! ## Runs -/

theorem done_i2cEdge {b : Bench} (h : Inv b) (hdue : b.due = true) (sda : Bool) :
    b.bus.done.length ≤ (b.i2cEdge sda).bus.done.length := by
  rcases h.stage with hw | ha | hb
  · exact Nat.le_of_eq (by rw [hw.i2cEdge_eq sda])
  · exact Nat.le_of_eq (by rw [ha.i2cEdge_eq sda])
  · obtain ⟨_, ⟨_, hdone⟩ | ⟨_, _, t, _, hdone⟩⟩ := hb.i2cEdge hdue sda
    · exact Nat.le_of_eq (by rw [hdone])
    · rw [hdone, List.length_append]
      exact Nat.le_add_right _ _

/-- One event. -/
theorem progress_step {b b' : Bench} {e : Event} (h : Inv b) (hstep : step b e = some b') :
    b.bus.done.length ≤ b'.bus.done.length ∧
      (b'.bus.done.length ≤ 24 → progress b + e.isI2c.toNat ≤ progress b') := by
  rcases h.step_cases hstep with ⟨rfl, rfl⟩ | ⟨sda, rfl, hdue, rfl⟩ | ⟨sda, rfl, hdue, rfl⟩ |
    ⟨sda, rfl, hdue, rfl⟩
  · exact ⟨Nat.le_refl _, fun hn => progress_clockEdge h hn⟩
  · exact ⟨done_i2cEdge h hdue sda, fun _ => progress_i2cEdge h hdue sda⟩
  · have hdone := done_i2cEdge h.clockEdge hdue sda
    refine ⟨hdone, fun hn => ?_⟩
    have hclk := progress_clockEdge h (Nat.le_trans hdone hn)
    exact Nat.le_trans (Nat.add_le_add_right hclk 1) (progress_i2cEdge h.clockEdge hdue sda)
  · refine ⟨done_i2cEdge h hdue sda, fun hn => ?_⟩
    exact Nat.le_trans (progress_i2cEdge h hdue sda) (progress_clockEdge (h.i2cEdge hdue sda) hn)

/-- **A whole run**: every edge of `i2c_clk` is progress. -/
theorem progress_run {es : List Event} {b b' : Bench} (h : Inv b)
    (hrun : runFrom step b es = some b') :
    b.bus.done.length ≤ b'.bus.done.length ∧
      (b'.bus.done.length ≤ 24 → progress b + es.countP Event.isI2c ≤ progress b') := by
  induction es generalizing b with
  | nil =>
    rw [runFrom_nil, Option.some.injEq] at hrun
    subst hrun
    exact ⟨Nat.le_refl _, fun _ => Nat.le_refl _⟩
  | cons e es ih =>
    obtain ⟨b1, hstep, hrest⟩ := runFrom_cons_iff.mp hrun
    obtain ⟨hdone, hfirst⟩ := progress_step h hstep
    obtain ⟨hdone', hothers⟩ := ih (h.step hstep) hrest
    refine ⟨Nat.le_trans hdone hdone', fun hn => ?_⟩
    have hone := hfirst (Nat.le_trans hdone' hn)
    have hmany := hothers hn
    have hcount : (e :: es).countP Event.isI2c = es.countP Event.isI2c + e.isI2c.toNat := by
      rw [List.countP_cons]
      cases e.isI2c with
      | false => rfl
      | true => rfl
    omega

/-- **With 3332 edges of `i2c_clk`, 25 transactions have ended.** -/
theorem done_of_edges {es : List Event} {b b' : Bench} (h : Inv b)
    (hrun : runFrom step b es = some b') (hcount : 3332 ≤ es.countP Event.isI2c) :
    25 ≤ b'.bus.done.length := by
  by_contra hlt
  have hn : b'.bus.done.length ≤ 24 := by omega
  have hfar := (progress_run h hrun).2 hn
  have hused : progress b' < allowances (b'.bus.done.length + 1) :=
    Nat.add_lt_add_left (used_lt (h.run hrun)) _
  have hall : allowances (b'.bus.done.length + 1) ≤ allowances 25 := allowances_mono (by omega)
  rw [allowances_config] at hall
  omega

end Acmi.Ivt
