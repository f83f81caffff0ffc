import Acmi.Spi.Frame
import Mathlib.Data.Nat.Init

/-!
# From a pulse to a frame, and back

`Frame` starts at the enabled clock that takes a request over. Here is what leads there and
what follows: while the entity is `Quiet` and `we` is low it stays so (`quiet_until`), a clock
with `we` high makes the request `Pending` until the next enabled clock (`starts_of_pulse`),
and 1431 clocks after the start of a frame the entity is quiet again (`quiet_done`).

`frame_of_pulse` puts the two together. The latch goes by level, so a pulse only needs to be
stable up to the enabled clock that takes it over; whether it is over matters when the entity
is quiet again.
-/

namespace Acmi.Spi

open Acmi.Lib

/-- The transfer process is idle, nobody is selected and no request is latched. -/
structure Idle (s : ArtixSpi) : Prop where
  state : s.xfer.state = .idle
  weLat : s.latch.weLat = false
  cs : s.xfer.cs ≠ .low

/-- Idle with the clear of the latch released, so that the next clock with `we` high latches. -/
structure Quiet (s : ArtixSpi) : Prop extends Idle s where
  weLatClr : s.xfer.weLatClr = false

theorem init_divOk : DivOk init.div := ⟨by decide, by decide⟩

theorem init_quiet : Quiet init := ⟨⟨rfl, rfl, by decide⟩, rfl⟩

/-- Idle with `w` latched. -/
structure Pending (s : ArtixSpi) (w : BitVec 64) : Prop where
  state : s.xfer.state = .idle
  cs : s.xfer.cs ≠ .low
  weLatClr : s.xfer.weLatClr = false
  latch : s.latch = ⟨true, w⟩

/-- The first enabled clock behind clock `p`. -/
def startOf (s : ArtixSpi) (p : Nat) : Nat := p + (11 - count s p)

theorem count_startOf (s : ArtixSpi) (p : Nat) : count s (startOf s p) = 0 := by
  unfold startOf count
  omega

theorem count_before_startOf {s : ArtixSpi} {p t : Nat} (hp : p < t) (ht : t < startOf s p) :
    count s t ≠ 0 := by
  unfold startOf count at *
  omega

theorem lt_startOf (s : ArtixSpi) (p : Nat) : p < startOf s p := by
  unfold startOf count
  omega

theorem startOf_le (s : ArtixSpi) (p : Nat) : startOf s p ≤ p + 11 := by
  unfold startOf
  omega

section

variable {s : ArtixSpi} {regs : Nat → RegO}

/-! ## Single clocks of an idle process -/

/-- With the clear released, the latch is set by `we` and else keeps. -/
theorem latch_open {t : Nat} (hold : (signals s regs t).xfer.weLatClr = false)
    (hnew : (signals s regs (t + 1)).xfer.weLatClr = false) : (signals s regs (t + 1)).latch =
      if (regs t).we then ⟨true, (regs t).word⟩ else (signals s regs t).latch := by
  rw [latch_succ, hold, hnew, if_neg (by simp)]

variable (h : DivOk s.div)

include h

theorem idle_xfer {t : Nat} (hi : Idle (signals s regs t)) : (signals s regs (t + 1)).xfer =
    if count s t = 0 then
      { (signals s regs t).xfer with dout := .low, sclk := .low, cs := .high, weLatClr := false }
    else (signals s regs t).xfer := by
  by_cases ht : count s t = 0
  · rw [if_pos ht, xfer_enabled h regs ht, xferCase_idle hi.weLat hi.state]
  · rw [if_neg ht, xfer_hold h regs ht]

theorem idle_state {t : Nat} (hi : Idle (signals s regs t)) :
    (signals s regs (t + 1)).xfer.state = .idle := by
  rw [idle_xfer h hi]
  split
  · exact hi.state
  · exact hi.state

theorem idle_cs {t : Nat} (hi : Idle (signals s regs t)) :
    (signals s regs (t + 1)).xfer.cs ≠ .low := by
  rw [idle_xfer h hi]
  split
  · simp
  · exact hi.cs

theorem quiet_weLatClr {t : Nat} (hq : Quiet (signals s regs t)) :
    (signals s regs (t + 1)).xfer.weLatClr = false := by
  rw [idle_xfer h hq.toIdle]
  split
  · rfl
  · exact hq.weLatClr

theorem quiet_next {t : Nat} (hq : Quiet (signals s regs t)) (hwe : (regs t).we = false) :
    Quiet (signals s regs (t + 1)) := by
  have hclr := quiet_weLatClr h hq
  refine ⟨⟨idle_state h hq.toIdle, ?_, idle_cs h hq.toIdle⟩, hclr⟩
  rw [latch_open hq.weLatClr hclr, hwe]
  exact hq.weLat

theorem quiet_until {a b : Nat} (hq : Quiet (signals s regs a)) (hab : a ≤ b)
    (hlow : ∀ t, a ≤ t → t < b → (regs t).we = false) : Quiet (signals s regs b) := by
  induction b, hab using Nat.le_induction with
  | base => exact hq
  | succ b hab ih =>
    exact quiet_next h (ih fun t h1 h2 => hlow t h1 (by omega)) (hlow b hab (by omega))

theorem pending_first {t : Nat} (hq : Quiet (signals s regs t)) (hwe : (regs t).we = true) :
    Pending (signals s regs (t + 1)) (regs t).word := by
  have hclr := quiet_weLatClr h hq
  refine ⟨idle_state h hq.toIdle, idle_cs h hq.toIdle, hclr, ?_⟩
  rw [latch_open hq.weLatClr hclr, if_pos hwe]

/-- Until the next enabled clock a request waits; `we` may latch it again. -/
theorem pending_next {t : Nat} {w : BitVec 64} (hp : Pending (signals s regs t) w)
    (ht : count s t ≠ 0) (hw : (regs t).we = true → (regs t).word = w) :
    Pending (signals s regs (t + 1)) w := by
  have hx := xfer_hold h regs ht
  have hclr : (signals s regs (t + 1)).xfer.weLatClr = false := by rw [hx]; exact hp.weLatClr
  refine ⟨by rw [hx]; exact hp.state, by rw [hx]; exact hp.cs, hclr, ?_⟩
  rw [latch_open hp.weLatClr hclr]
  split
  · next hwe => rw [hw hwe]
  · exact hp.latch

/-! ## A pulse -/

section

variable {p : Nat} (hq : Quiet (signals s regs p)) (hwe : (regs p).we = true)
variable (hw : ∀ t, p ≤ t → t < startOf s p → (regs t).we = true → (regs t).word = (regs p).word)

include hq hwe hw

/-- From the clock that sees `we` high to the enabled clock that takes the request over. -/
theorem pending_of_pulse {t : Nat} (h1 : p < t) (h2 : t ≤ startOf s p) :
    Pending (signals s regs t) (regs p).word := by
  induction t, h1 using Nat.le_induction with
  | base => exact pending_first h hq hwe
  | succ t h1 ih =>
    exact pending_next h (ih (by omega)) (count_before_startOf (by omega) h2)
      (hw t (by omega) (by omega))

theorem pending_startOf : Pending (signals s regs (startOf s p)) (regs p).word :=
  pending_of_pulse h hq hwe hw (lt_startOf s p) (Nat.le_refl _)

theorem starts_of_pulse : Starts s regs (startOf s p) (regs p).word := by
  have hp := pending_startOf h hq hwe hw
  exact ⟨count_startOf s p, hp.state, hp.latch⟩

end

/-- **Quiet again.** The clear of the latch is released at the second enabled clock behind the
frame. -/
theorem quiet_done {e : Nat} {w : BitVec 64} (hs : Starts s regs e w) :
    Quiet (signals s regs (e + 1431)) := by
  have hlat := frame_latch h hs (show e + 1409 ≤ e + 1430 by omega) (by omega)
  have hdone := done_xfer_at h hs (show e + 1420 ≤ e + 1430 by omega) (by omega)
  have hx := xfer_enabled h regs (hs.enabled_add 130)
  rw [hlat, hdone, xferCase_idle rfl rfl] at hx
  refine ⟨⟨?_, ?_, ?_⟩, ?_⟩
  · rw [hx]; rfl
  · rw [frame_latch h hs (by omega) (by omega)]
  · rw [hx]; simp
  · rw [hx]

/-- Behind a frame nobody is selected until the entity is quiet. -/
theorem done_cs {e t : Nat} {w : BitVec 64} (hs : Starts s regs e w) (h1 : e + 1420 ≤ t)
    (h2 : t ≤ e + 1431) : (signals s regs t).xfer.cs ≠ .low := by
  rcases Nat.lt_or_eq_of_le h2 with hlt | heq
  · rw [done_xfer_at h hs h1 (by omega)]
    simp [doneXfer]
  · rw [heq]
    exact (quiet_done h hs).cs

/-! ## The receiver -/

omit h in
/-- While nobody is selected nothing is received. -/
theorem received_idle {a b : Nat} (hab : a ≤ b)
    (hcs : ∀ t, a ≤ t → t ≤ b → (signals s regs t).xfer.cs ≠ .low) :
    received s regs b = received s regs a := by
  induction b, hab using Nat.le_induction with
  | base => rfl
  | succ b hab ih =>
    have hold := hcs b hab (by omega)
    have hnew := hcs (b + 1) (by omega) (by omega)
    rw [received_succ, Receiver.see_idle _ hold hnew]
    exact ih fun t h1 h2 => hcs t h1 (by omega)

omit h in
theorem received_prefix {a b : Nat} (hab : a ≤ b) :
    (received s regs a).words <+: (received s regs b).words := by
  induction b, hab using Nat.le_induction with
  | base => exact List.prefix_rfl
  | succ b hab ih => exact ih.trans (Receiver.see_prefix _ _ _)

/-- **While `we` is low** nothing is received either. -/
theorem received_low {a b : Nat} (hq : Quiet (signals s regs a)) (hab : a ≤ b)
    (hlow : ∀ t, a ≤ t → t < b → (regs t).we = false) :
    received s regs b = received s regs a := by
  apply received_idle hab
  intro t h1 h2
  exact (quiet_until h hq h1 fun i hi1 hi2 => hlow i hi1 (by omega)).cs

/-- **A pulse makes a frame**: 1431 clocks behind the clock that takes the request over, its
word has been received and the entity is quiet. -/
theorem frame_of_pulse {p : Nat} (hq : Quiet (signals s regs p)) (hwe : (regs p).we = true)
    (hw : ∀ t, p ≤ t → t < startOf s p → (regs t).we = true → (regs t).word = (regs p).word) :
    Quiet (signals s regs (startOf s p + 1431)) ∧
      (received s regs (startOf s p + 1431)).words =
        (received s regs p).words ++ [wordBits (regs p).word 64] := by
  have hstart := starts_of_pulse h hq hwe hw
  have hwait : received s regs (startOf s p) = received s regs p := by
    apply received_idle (Nat.le_of_lt (lt_startOf s p))
    intro t h1 h2
    rcases Nat.eq_or_lt_of_le h1 with heq | hlt
    · rw [← heq]
      exact hq.cs
    · exact (pending_of_pulse h hq hwe hw hlt h2).cs
  have hrest : received s regs (startOf s p + 1431) = received s regs (startOf s p + 1420) :=
    received_idle (by omega) fun t h1 h2 => done_cs h hstart h1 h2
  refine ⟨quiet_done h hstart, ?_⟩
  rw [hrest, frame_complete h hstart (pending_startOf h hq hwe hw).cs, hwait]

end

end Acmi.Spi
