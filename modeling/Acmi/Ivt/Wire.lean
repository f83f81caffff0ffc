import Acmi.Ivt.Monitors
import Acmi.Lib.Bytes

/-!
# One transaction on the bus

A transaction that `i2c_con` works on, as the monitor of the bus sees it. `Sending` is what
holds throughout: the levels read so far are in `rreg`, where the read of two bytes will have
to find them. `Phase` says for each state of `i2c_con` which bits the monitor has, and where
the lines are.

`sending_start` is the start condition and `Sending.edge` every edge behind it: each leads to
the next phase, and the last one ends a transaction that is complete.
-/

namespace Acmi.Ivt

open Acmi.Lib

/-! ## What has been read -/

/-- `rreg` has the levels read, the last of them in bit 0 once there are `size`. -/
def Holds (rreg : BitVec 36) (size : Nat) (read : List Bool) : Prop :=
  ∀ i, rreg.getLsbD i = (decide (i < size) && read.getD (size - 1 - i) false)

theorem getLsbD_setBit (rreg : BitVec 36) {i : Nat} (hi : i < 36) (b : Bool) (j : Nat) :
    (setBit rreg i b).getLsbD j = if j = i then b else rreg.getLsbD j := by
  unfold setBit
  cases b with
  | true =>
    rw [if_pos rfl, getLsbD_set_bit rreg hi]
    by_cases hj : j = i
    · simp [hj]
    · simp [hj]
  | false =>
    rw [if_neg Bool.false_ne_true, getLsbD_clear_bit]
    by_cases hj : j = i
    · simp [hj]
    · simp [hj]

theorem Holds.empty (size : Nat) : Holds 0 size [] := by
  intro i
  simp

/-- One more level. -/
theorem Holds.snoc {rreg : BitVec 36} {size k : Nat} {read : List Bool} (h : Holds rreg size read)
    (hk : 0 < k) (hks : k ≤ size) (hsize : size ≤ 36) (hread : read.length = size - k) (b : Bool) :
    Holds (setBit rreg (k - 1) b) size (read ++ [b]) := by
  intro i
  rw [getLsbD_setBit rreg (by omega)]
  by_cases hi : i = k - 1
  · have hat : size - 1 - i = read.length := by omega
    have hlt : i < size := by omega
    rw [if_pos hi, hat]
    simp [hlt]
  · rw [if_neg hi, h i]
    by_cases hlt : i < size
    · by_cases hold : size - 1 - i < read.length
      · simp [hlt, List.getElem?_append_left hold]
      · -- neither the old levels nor the new one reach down to `i`
        have hnew : read.length + 1 ≤ size - 1 - i := by omega
        have hnone : read[size - 1 - i]? = none := List.getElem?_eq_none (by omega)
        have hnone' : (read ++ [b])[size - 1 - i]? = none :=
          List.getElem?_eq_none (by rw [List.length_append]; exact hnew)
        simp only [List.getD_eq_getElem?_getD, hnone, hnone']
    · simp [hlt]

/-! ## What has been sent -/

/-- A transaction of which all but `bit_count` bits are done. -/
structure Sending (c : I2cCon) (d : DataCon) (m : Monitor) (t : Transaction) : Prop where
  current : m.current = some t
  bitCount : c.bitCount ≤ d.bcnt
  read : t.read.length = d.bcnt - c.bitCount
  rreg : Holds c.rreg d.bcnt t.read

/-- The bits that are done. -/
def sentBits (c : I2cCon) (d : DataCon) : List Bool :=
  (bitsOf d.treg d.bcnt).take (d.bcnt - c.bitCount)

/-- Where within a bit, or within the stop, `i2c_con` is. -/
def Phase (c : I2cCon) (d : DataCon) (m : Monitor) (t : Transaction) : Prop :=
  match c.state with
  -- the clock line is still high from the start, or from the bit before
  | .clkP1 => c.intScl = true ∧ t.sent ++ m.bit.toList = sentBits c d
  | .clkP2 => c.intScl = false ∧ m.bit = none ∧ t.sent = sentBits c d ∧ 0 < c.bitCount
  | .clkP3 => c.intScl = false ∧ m.bit = none ∧ t.sent = sentBits c d ∧ 0 < c.bitCount ∧
      c.intSda = d.treg.getLsbD (c.bitCount - 1)
  | .clkP4 => c.intScl = true ∧ m.bit = some (d.treg.getLsbD (c.bitCount - 1)) ∧
      t.sent = sentBits c d ∧ 0 < c.bitCount
  | .stopP1 | .stopP2 => c.lines = ⟨false, false⟩ ∧ m.bit = none ∧ t.sent = sentBits c d ∧
      c.bitCount = 0
  | .stopP3 => c.lines = ⟨true, false⟩ ∧ t.sent = sentBits c d ∧ c.bitCount = 0
  | _ => False

/-- One more bit is done. -/
theorem take_sent {d : DataCon} {c c' : I2cCon} (hpos : 0 < c.bitCount) (hle : c.bitCount ≤ d.bcnt)
    (hc : c'.bitCount = c.bitCount - 1) :
    sentBits c' d = sentBits c d ++ [d.treg.getLsbD (c.bitCount - 1)] := by
  have hk : d.bcnt - (c.bitCount - 1) = d.bcnt - c.bitCount + 1 := by omega
  have hbit : d.bcnt - 1 - (d.bcnt - c.bitCount) = c.bitCount - 1 := by omega
  rw [sentBits, sentBits, hc, hk, take_bitsOf d.treg (by omega), hbit]

theorem Phase.sent_prefix {c : I2cCon} {d : DataCon} {m : Monitor} {t : Transaction}
    (h : Phase c d m t) : t.sent <+: sentBits c d := by
  unfold Phase at h
  split at h
  · rw [← h.2]
    exact List.prefix_append _ _
  · exact h.2.2.1 ▸ List.prefix_rfl
  · exact h.2.2.1 ▸ List.prefix_rfl
  · exact h.2.2.1 ▸ List.prefix_rfl
  · exact h.2.2.1 ▸ List.prefix_rfl
  · exact h.2.2.1 ▸ List.prefix_rfl
  · exact h.2.1 ▸ List.prefix_rfl
  · exact h.elim

/-- Where a bit is used there is one. -/
theorem Phase.bitIndex {c : I2cCon} {d : DataCon} {m : Monitor} {t : Transaction}
    (h : Phase c d m t) (hs : c.state = .clkP2 ∨ c.state = .clkP4) : 0 < c.bitCount := by
  unfold Phase at h
  rcases hs with hs | hs
  · rw [hs] at h
    exact h.2.2.2
  · rw [hs] at h
    exact h.2.2.2

theorem Phase.not_stopP4 {c : I2cCon} {d : DataCon} {m : Monitor} {t : Transaction}
    (h : Phase c d m t) : c.state ≠ .stopP4 := by
  intro hs
  unfold Phase at h
  rw [hs] at h
  exact h

/-! ## An edge of `i2c_clk` -/

/-- `i2c_con` is idle, and nothing is asked for. -/
theorem i2cCon_idle {c : I2cCon} {d : DataCon} (hs : c.state = .idle) (hl : c.lines = .high)
    (ht : d.i2cTrig = false) (sda : Bool) : i2cCon c d sda = { c with i2cReady := true } := by
  rcases c with ⟨state, ready, rreg, bitCount, scl, sda0⟩
  simp only at hs
  subst hs
  obtain ⟨rfl, rfl⟩ := I2cLines.mk.inj hl
  exact if_neg (by rw [ht]; decide)

/-- `i2c_con` is idle, and takes what is asked for. -/
theorem i2cCon_taken {c : I2cCon} {d : DataCon} (hs : c.state = .idle) (ht : d.i2cTrig = true)
    (sda : Bool) : i2cCon c d sda =
      { c with rreg := 0, i2cReady := false, bitCount := d.bcnt, state := .start } := by
  unfold i2cCon
  rw [hs]
  exact if_pos ht

/-- Only an idle `i2c_con` looks at `i2c_trig`. -/
theorem i2cCon_trig {c : I2cCon} (hs : c.state ≠ .idle) (d : DataCon) (trig sda : Bool) :
    i2cCon c { d with i2cTrig := trig } sda = i2cCon c d sda := by
  unfold i2cCon
  cases hstate : c.state with
  | idle => exact absurd hstate hs
  | start => rfl
  | clkP1 => rfl
  | clkP2 => rfl
  | clkP3 => rfl
  | clkP4 => rfl
  | stopP1 => rfl
  | stopP2 => rfl
  | stopP3 => rfl
  | stopP4 => rfl

/-- Where the lines go is all that the monitor sees, but for the level that is read. -/
theorem busBehind_eq {c : I2cCon} {d : DataCon} {sda : Bool} {old new : I2cLines}
    (hs : c.state ≠ .clkP4) (ho : c.lines = old) (hn : (i2cCon c d sda).lines = new)
    (m : Monitor) : busBehind c d m sda = m.see old new := by
  unfold busBehind
  rw [if_neg hs, ho, hn]

/-- The lines do not move. -/
theorem busBehind_idle {c : I2cCon} {d : DataCon} {sda : Bool} (hs : c.state = .idle)
    (hl : (i2cCon c d sda).lines = c.lines) (m : Monitor) : busBehind c d m sda = m := by
  rw [busBehind_eq (by rw [hs]; decide) rfl hl]
  exact m.see_same _

/-- Behind the edge, the transaction is still under way. -/
structure GoesOn (c : I2cCon) (d : DataCon) (m : Monitor) (sda : Bool) : Prop where
  ready : (i2cCon c d sda).i2cReady = c.i2cReady
  done : (busBehind c d m sda).done = m.done
  bitCount : (i2cCon c d sda).bitCount ≤ c.bitCount
  wire : ∃ t, Sending (i2cCon c d sda) d (busBehind c d m sda) t ∧
    Phase (i2cCon c d sda) d (busBehind c d m sda) t

section

variable {c : I2cCon} {d : DataCon} {m : Monitor} {t : Transaction}

/-- The start condition. -/
theorem goesOn_start (hs : c.state = .start) (hl : c.lines = .high) (hm : m.current = none)
    (hb : c.bitCount = d.bcnt) (hr : c.rreg = 0) (sda : Bool) : GoesOn c d m sda := by
  obtain ⟨hscl, -⟩ := I2cLines.mk.inj hl
  have hcon : i2cCon c d sda = { c with intSda := false, state := .clkP1 } := by
    simp [i2cCon, hs]
  have hbus : busBehind c d m sda = ⟨some ⟨[], []⟩, none, m.done⟩ := by
    have hnew : (i2cCon c d sda).lines = ⟨true, false⟩ := by
      rw [hcon]
      exact congrArg (I2cLines.mk · false) hscl
    rw [busBehind_eq (by rw [hs]; decide) hl hnew, m.see_start, hm]
    exact congrArg _ (List.append_nil _)
  refine ⟨by rw [hcon], by rw [hbus], Nat.le_of_eq (by rw [hcon]), ⟨[], []⟩, ?_⟩
  rw [hcon, hbus]
  refine ⟨⟨rfl, Nat.le_of_eq hb, ?_, ?_⟩, hscl, ?_⟩
  · show 0 = d.bcnt - c.bitCount
    omega
  · show Holds c.rreg d.bcnt []
    rw [hr]
    exact Holds.empty _
  · show [] = (bitsOf d.treg d.bcnt).take (d.bcnt - c.bitCount)
    rw [hb, Nat.sub_self, List.take_zero]

/-- The clock line falls, and the bit counts. -/
theorem Sending.clkP1 (h : Sending c d m t) (hp : Phase c d m t) (hs : c.state = .clkP1)
    (sda : Bool) : GoesOn c d m sda := by
  unfold Phase at hp
  rw [hs] at hp
  obtain ⟨hscl, hsent⟩ := hp
  have hold : c.lines = ⟨true, c.intSda⟩ := congrArg (I2cLines.mk · c.intSda) hscl
  have hbus : ∀ b, (i2cCon c d sda).lines = ⟨false, b⟩ →
      busBehind c d m sda = ⟨some { t with sent := t.sent ++ m.bit.toList }, none, m.done⟩ := by
    intro b hnew
    rw [busBehind_eq (by rw [hs]; decide) hold hnew, m.see_fall, h.current]
    rfl
  by_cases h0 : c.bitCount = 0
  · have hcon : i2cCon c d sda =
        { c with intScl := false, intSda := false, state := .stopP1 } := by
      simp [i2cCon, hs, h0]
    refine ⟨by rw [hcon], by rw [hbus false (by rw [hcon]; rfl)],
      Nat.le_of_eq (by rw [hcon]), { t with sent := t.sent ++ m.bit.toList }, ?_⟩
    rw [hbus false (by rw [hcon]; rfl), hcon]
    exact ⟨⟨rfl, h.bitCount, h.read, h.rreg⟩, rfl, rfl, hsent, h0⟩
  · have hcon : i2cCon c d sda = { c with intScl := false, state := .clkP2 } := by
      simp [i2cCon, hs, h0]
    refine ⟨by rw [hcon], by rw [hbus c.intSda (by rw [hcon]; rfl)],
      Nat.le_of_eq (by rw [hcon]), { t with sent := t.sent ++ m.bit.toList }, ?_⟩
    rw [hbus c.intSda (by rw [hcon]; rfl), hcon]
    exact ⟨⟨rfl, h.bitCount, h.read, h.rreg⟩, rfl, rfl, hsent, Nat.pos_of_ne_zero h0⟩

/-- The data line changes. -/
theorem Sending.clkP2 (h : Sending c d m t) (hp : Phase c d m t) (hs : c.state = .clkP2)
    (sda : Bool) : GoesOn c d m sda := by
  unfold Phase at hp
  rw [hs] at hp
  obtain ⟨hscl, hbit, hsent, hpos⟩ := hp
  have hcon : i2cCon c d sda =
      { c with intSda := d.treg.getLsbD (c.bitCount - 1), state := .clkP3 } := by
    simp [i2cCon, hs]
  have hbus : busBehind c d m sda = m := by
    have hold : c.lines = ⟨false, c.intSda⟩ := congrArg (I2cLines.mk · c.intSda) hscl
    have hnew : (i2cCon c d sda).lines = ⟨false, d.treg.getLsbD (c.bitCount - 1)⟩ := by
      rw [hcon]
      exact congrArg (I2cLines.mk · _) hscl
    rw [busBehind_eq (by rw [hs]; decide) hold hnew, m.see_low]
  refine ⟨by rw [hcon], by rw [hbus], Nat.le_of_eq (by rw [hcon]), t, ?_⟩
  rw [hcon, hbus]
  exact ⟨⟨h.current, h.bitCount, h.read, h.rreg⟩, hscl, hbit, hsent, hpos, rfl⟩

/-- The clock line rises. -/
theorem Sending.clkP3 (h : Sending c d m t) (hp : Phase c d m t) (hs : c.state = .clkP3)
    (sda : Bool) : GoesOn c d m sda := by
  unfold Phase at hp
  rw [hs] at hp
  obtain ⟨hscl, hbit, hsent, hpos, hsda⟩ := hp
  have hcon : i2cCon c d sda = { c with intScl := true, state := .clkP4 } := by
    simp [i2cCon, hs]
  have hbus : busBehind c d m sda = { m with bit := some c.intSda } := by
    have hold : c.lines = ⟨false, c.intSda⟩ := congrArg (I2cLines.mk · c.intSda) hscl
    have hnew : (i2cCon c d sda).lines = ⟨true, c.intSda⟩ := by rw [hcon]; rfl
    rw [busBehind_eq (by rw [hs]; decide) hold hnew, m.see_rise]
  refine ⟨by rw [hcon], by rw [hbus], Nat.le_of_eq (by rw [hcon]), t, ?_⟩
  rw [hcon, hbus]
  exact ⟨⟨h.current, h.bitCount, h.read, h.rreg⟩, rfl, congrArg some hsda, hsent, hpos⟩

/-- The data line is read. -/
theorem Sending.clkP4 (h : Sending c d m t) (hp : Phase c d m t) (hs : c.state = .clkP4)
    (hsize : d.bcnt ≤ 36) (sda : Bool) : GoesOn c d m sda := by
  unfold Phase at hp
  rw [hs] at hp
  obtain ⟨hscl, hbit, hsent, hpos⟩ := hp
  have hle := h.bitCount
  have hread := h.read
  have hcon : i2cCon c d sda =
      { c with
        rreg := setBit c.rreg (c.bitCount - 1) sda
        bitCount := c.bitCount - 1
        state := .clkP1 } := by
    simp [i2cCon, hs, hpos]
  have hbus : busBehind c d m sda =
      { m with current := some { t with read := t.read ++ [sda] } } := by
    have hsame : (i2cCon c d sda).lines = c.lines := by rw [hcon]; rfl
    unfold busBehind
    rw [if_pos hs, hsame, Monitor.see_same, Monitor.sample, h.current]
    rfl
  refine ⟨by rw [hcon], by rw [hbus], by rw [hcon]; exact Nat.sub_le _ _,
    { t with read := t.read ++ [sda] }, ?_⟩
  rw [hcon, hbus]
  refine ⟨⟨rfl, ?_, ?_, h.rreg.snoc hpos hle hsize hread sda⟩, hscl, ?_⟩
  · show c.bitCount - 1 ≤ d.bcnt
    omega
  · show (t.read ++ [sda]).length = d.bcnt - (c.bitCount - 1)
    rw [List.length_append, List.length_singleton]
    omega
  · show t.sent ++ m.bit.toList = _
    rw [hsent, hbit]
    exact (take_sent hpos hle rfl).symm

/-- A pause. -/
theorem Sending.stopP1 (h : Sending c d m t) (hp : Phase c d m t) (hs : c.state = .stopP1)
    (sda : Bool) : GoesOn c d m sda := by
  unfold Phase at hp
  rw [hs] at hp
  obtain ⟨hlines, hbit, hsent, h0⟩ := hp
  have hcon : i2cCon c d sda = { c with state := .stopP2 } := by simp [i2cCon, hs]
  have hbus : busBehind c d m sda = m := by
    have hnew : (i2cCon c d sda).lines = ⟨false, false⟩ := by rw [hcon]; exact hlines
    rw [busBehind_eq (by rw [hs]; decide) hlines hnew, m.see_low]
  refine ⟨by rw [hcon], by rw [hbus], Nat.le_of_eq (by rw [hcon]), t, ?_⟩
  rw [hcon, hbus]
  exact ⟨⟨h.current, h.bitCount, h.read, h.rreg⟩, hlines, hbit, hsent, h0⟩

/-- The clock line rises under a low data line. -/
theorem Sending.stopP2 (h : Sending c d m t) (hp : Phase c d m t) (hs : c.state = .stopP2)
    (sda : Bool) : GoesOn c d m sda := by
  unfold Phase at hp
  rw [hs] at hp
  obtain ⟨hlines, hbit, hsent, h0⟩ := hp
  obtain ⟨-, hsda⟩ := I2cLines.mk.inj hlines
  have hcon : i2cCon c d sda = { c with intScl := true, state := .stopP3 } := by
    simp [i2cCon, hs]
  have hstop : I2cLines.mk true c.intSda = ⟨true, false⟩ := congrArg (I2cLines.mk true) hsda
  have hbus : busBehind c d m sda = { m with bit := some false } := by
    have hnew : (i2cCon c d sda).lines = ⟨true, false⟩ := by rw [hcon]; exact hstop
    rw [busBehind_eq (by rw [hs]; decide) hlines hnew, m.see_rise]
  refine ⟨by rw [hcon], by rw [hbus], Nat.le_of_eq (by rw [hcon]), t, ?_⟩
  rw [hcon, hbus]
  exact ⟨⟨h.current, h.bitCount, h.read, h.rreg⟩, hstop, hsent, h0⟩

/-- The stop condition. -/
theorem Sending.ends (h : Sending c d m t) (hp : Phase c d m t) (hs : c.state = .stopP3)
    (sda : Bool) :
    i2cCon c d sda = { c with intSda := true, state := .idle } ∧ c.intScl = true ∧
      c.bitCount = 0 ∧ t.sent = bitsOf d.treg d.bcnt ∧
      busBehind c d m sda = ⟨none, none, m.done ++ [t]⟩ := by
  unfold Phase at hp
  rw [hs] at hp
  obtain ⟨hlines, hsent, h0⟩ := hp
  obtain ⟨hscl, -⟩ := I2cLines.mk.inj hlines
  have hcon : i2cCon c d sda = { c with intSda := true, state := .idle } := by
    simp [i2cCon, hs]
  have hnew : (i2cCon c d sda).lines = .high := by
    rw [hcon]
    exact congrArg (I2cLines.mk · true) hscl
  refine ⟨hcon, hscl, h0, ?_, ?_⟩
  · rw [hsent, sentBits, h0]
    exact List.take_of_length_le (by rw [bitsOf_length]; exact Nat.le_refl _)
  · rw [busBehind_eq (by rw [hs]; decide) hlines hnew, m.see_stop, h.current]
    rfl

/-- **An edge of `i2c_clk` within a transaction** leads on to its next phase, or ends it. -/
theorem Sending.edge (h : Sending c d m t) (hp : Phase c d m t) (hsize : d.bcnt ≤ 36)
    (sda : Bool) : GoesOn c d m sda ∨ c.state = .stopP3 := by
  cases hs : c.state with
  | clkP1 => exact .inl (h.clkP1 hp hs sda)
  | clkP2 => exact .inl (h.clkP2 hp hs sda)
  | clkP3 => exact .inl (h.clkP3 hp hs sda)
  | clkP4 => exact .inl (h.clkP4 hp hs hsize sda)
  | stopP1 => exact .inl (h.stopP1 hp hs sda)
  | stopP2 => exact .inl (h.stopP2 hp hs sda)
  | stopP3 => exact .inr rfl
  | idle =>
    unfold Phase at hp
    rw [hs] at hp
    exact hp.elim
  | start =>
    unfold Phase at hp
    rw [hs] at hp
    exact hp.elim
  | stopP4 =>
    unfold Phase at hp
    rw [hs] at hp
    exact hp.elim

end

end Acmi.Ivt
