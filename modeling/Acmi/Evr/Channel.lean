import Acmi.Lib.Bytes
import Acmi.Lib.Clocked
import Acmi.Lib.Timer

/-!
# `event_rcv_chan.vhd`: a trigger with delay and width

A matching event raises `startDelay`, which lets `delayCounter` run up to the delay; when the
counter is beyond the delay, `startWidth` goes up and lets `widthCounter` run up to the width.
`startWidth` is the trigger. Each start flag falls when its counter has reached the register, and
the counter, which has gone one further by then, is cleared one clock later.

With a constant delay `d` and width `w` a channel that is idle goes through a fixed course of
`d + w + 5` clocks for each event (`Phase`, `phase_since`): the trigger goes up behind edge
`d + 2` and down behind edge `d + w + 3`, counted from the event (`trigger_iff`).

Mirroring notes:
- `trigVal` and `trigger` are not clocked; they follow the registers and the ports.
-/

namespace Acmi.Evr

open Acmi.Lib

/-- The input ports at a rising edge. -/
structure ChanIn where
  reset : Bool
  eventStream : Byte
  myEvent : Byte
  myDelay : BitVec 32
  myWidth : BitVec 32
  myPolarity : Bool

/-- The signals of `event_rcv_chan`. -/
structure EventRcvChan where
  delayCounter : BitVec 32
  widthCounter : BitVec 32
  startDelay : Bool
  startWidth : Bool
  deriving DecidableEq

/-- The initial values of the declarations. -/
def EventRcvChan.init : EventRcvChan := ⟨0, 0, false, false⟩

/-! ## The processes -/

/-- Delay Counter Process. -/
def delayCounterRising (s : EventRcvChan) (i : ChanIn) : BitVec 32 :=
  countNext i.reset s.startDelay i.myDelay s.delayCounter

/-- Width Counter Process. -/
def widthCounterRising (s : EventRcvChan) (i : ChanIn) : BitVec 32 :=
  countNext i.reset s.startWidth i.myWidth s.widthCounter

/-- Start Delay Control. -/
def startDelayRising (s : EventRcvChan) (i : ChanIn) : Bool :=
  runNext i.reset (decide (i.myEvent = i.eventStream)) i.myDelay s.delayCounter s.startDelay

/-- Start Width Control. -/
def startWidthRising (s : EventRcvChan) (i : ChanIn) : Bool :=
  runNext i.reset (decide (i.myDelay < s.delayCounter)) i.myWidth s.widthCounter s.startWidth

/-- One rising edge of `Clock`. -/
def EventRcvChan.rising (s : EventRcvChan) (i : ChanIn) : EventRcvChan where
  delayCounter := delayCounterRising s i
  widthCounter := widthCounterRising s i
  startDelay := startDelayRising s i
  startWidth := startWidthRising s i

/-- Trigger Logic. -/
def trigVal (s : EventRcvChan) (i : ChanIn) : Bool :=
  if i.myPolarity then !s.startWidth else s.startWidth

def trigger (s : EventRcvChan) (i : ChanIn) : Bool :=
  if i.myDelay ≠ 0 ∧ i.myWidth ≠ 0 then trigVal s i else false

/-- The signals just before edge `t`. -/
def chanSignals (s : EventRcvChan) (ins : Nat → ChanIn) : Nat → EventRcvChan :=
  clocked EventRcvChan.rising s ins

/-- A matching event. -/
def ChanIn.event (i : ChanIn) : Prop := i.myEvent = i.eventStream

instance (i : ChanIn) : Decidable i.event := inferInstanceAs (Decidable (i.myEvent = i.eventStream))

/-- Both counters 0, both start flags down. -/
structure Idle (s : EventRcvChan) : Prop where
  delayCounter : s.delayCounter = 0
  widthCounter : s.widthCounter = 0
  startDelay : s.startDelay = false
  startWidth : s.startWidth = false

/-! ## The two timers -/

/-- The delay, started by an event. -/
def EventRcvChan.delayTimer (s : EventRcvChan) : Timer 32 := ⟨s.delayCounter, s.startDelay⟩

/-- The width, started by a delay counter beyond the delay. -/
def EventRcvChan.widthTimer (s : EventRcvChan) : Timer 32 := ⟨s.widthCounter, s.startWidth⟩

section

variable {s : EventRcvChan} {i : ChanIn}

theorem idle_iff_rest : Idle s ↔ s.delayTimer = .rest ∧ s.widthTimer = .rest := by
  constructor
  · intro h
    exact ⟨congr (congrArg Timer.mk h.delayCounter) h.startDelay,
      congr (congrArg Timer.mk h.widthCounter) h.startWidth⟩
  · intro ⟨hdelay, hwidth⟩
    exact ⟨congrArg Timer.count hdelay, congrArg Timer.count hwidth, congrArg Timer.run hdelay,
      congrArg Timer.run hwidth⟩

variable (hreset : i.reset = false)

include hreset

theorem delayTimer_rising :
    (s.rising i).delayTimer = s.delayTimer.tick i.myDelay (decide i.event) := by
  show Timer.mk (delayCounterRising s i) (startDelayRising s i) = _
  rw [delayCounterRising, startDelayRising, hreset]
  rfl

theorem widthTimer_rising :
    (s.rising i).widthTimer =
      s.widthTimer.tick i.myWidth (decide (i.myDelay < s.delayCounter)) := by
  show Timer.mk (widthCounterRising s i) (startWidthRising s i) = _
  rw [widthCounterRising, startWidthRising, hreset]
  rfl

theorem delayCounter_rising (hroom : s.startDelay = true → s.delayCounter.toNat + 1 < 2 ^ 32) :
    (s.rising i).delayCounter.toNat =
      if s.startDelay = true then s.delayCounter.toNat + 1
      else if i.myDelay.toNat ≤ s.delayCounter.toNat then 0
      else s.delayCounter.toNat := by
  show (s.rising i).delayTimer.count.toNat = _
  rw [delayTimer_rising hreset]
  exact Timer.tick_count hroom

theorem widthCounter_rising (hroom : s.startWidth = true → s.widthCounter.toNat + 1 < 2 ^ 32) :
    (s.rising i).widthCounter.toNat =
      if s.startWidth = true then s.widthCounter.toNat + 1
      else if i.myWidth.toNat ≤ s.widthCounter.toNat then 0
      else s.widthCounter.toNat := by
  show (s.rising i).widthTimer.count.toNat = _
  rw [widthTimer_rising hreset]
  exact Timer.tick_count hroom

theorem startDelay_rising : (s.rising i).startDelay = true ↔
    i.event ∨ (s.delayCounter.toNat < i.myDelay.toNat ∧ s.startDelay = true) := by
  show (s.rising i).delayTimer.run = true ↔ _
  rw [delayTimer_rising hreset, Timer.tick_run, decide_eq_true_iff]
  rfl

theorem startWidth_rising : (s.rising i).startWidth = true ↔
    i.myDelay.toNat < s.delayCounter.toNat ∨
      (s.widthCounter.toNat < i.myWidth.toNat ∧ s.startWidth = true) := by
  show (s.rising i).widthTimer.run = true ↔ _
  rw [widthTimer_rising hreset, Timer.tick_run, decide_eq_true_iff, BitVec.lt_def]
  rfl

end

/-! ## The course of one event -/

/-- The channel `k` edges from the event on, for delay `d` and width `w`. At 0 the event is just
coming. -/
structure Phase (d w k : Nat) (s : EventRcvChan) : Prop where
  delayCounter : s.delayCounter.toNat = if 1 ≤ k ∧ k ≤ d + 2 then k - 1 else 0
  startDelay : s.startDelay = true ↔ 1 ≤ k ∧ k ≤ d + 1
  widthCounter : s.widthCounter.toNat = if d + 3 ≤ k ∧ k ≤ d + w + 4 then k - d - 3 else 0
  startWidth : s.startWidth = true ↔ d + 3 ≤ k ∧ k ≤ d + w + 3

theorem idle_iff_phase {d w : Nat} {s : EventRcvChan} : Idle s ↔ Phase d w 0 s := by
  constructor
  · intro h
    refine ⟨?_, ?_, ?_, ?_⟩
    · rw [h.delayCounter, if_neg (by omega)]
      rfl
    · rw [h.startDelay]
      exact iff_of_false Bool.false_ne_true (by omega)
    · rw [h.widthCounter, if_neg (by omega)]
      rfl
    · rw [h.startWidth]
      exact iff_of_false Bool.false_ne_true (by omega)
  · intro h
    refine ⟨BitVec.eq_of_toNat_eq ?_, BitVec.eq_of_toNat_eq ?_, ?_, ?_⟩
    · exact h.delayCounter.trans (if_neg (by omega))
    · exact h.widthCounter.trans (if_neg (by omega))
    · exact Bool.eq_false_iff.mpr fun hup => absurd (h.startDelay.mp hup) (by omega)
    · exact Bool.eq_false_iff.mpr fun hup => absurd (h.startWidth.mp hup) (by omega)

/-- Behind the course the channel is idle. -/
theorem Phase.idle {d w k : Nat} {s : EventRcvChan} (h : Phase d w k s) (hk : d + w + 5 ≤ k) :
    Idle s := by
  refine idle_iff_phase.mpr (⟨?_, ?_, ?_, ?_⟩ : Phase d w 0 s)
  · rw [h.delayCounter, if_neg (by omega), if_neg (by omega)]
  · rw [h.startDelay]
    omega
  · rw [h.widthCounter, if_neg (by omega), if_neg (by omega)]
  · rw [h.startWidth]
    omega

/-- The ports but for the event, as the timing takes them. -/
structure Steady (d w : Nat) (i : ChanIn) : Prop where
  reset : i.reset = false
  polarity : i.myPolarity = false
  delay : i.myDelay.toNat = d
  width : i.myWidth.toNat = w

section

variable {d w : Nat} {s : EventRcvChan} {i : ChanIn} (hd : 1 ≤ d) (hd' : d ≤ 2 ^ 32 - 2)
  (hw : 1 ≤ w) (hw' : w ≤ 2 ^ 32 - 2) (hi : Steady d w i)

include hd hd' hw hw' hi

/-- The three registers that do not look at the event. -/
theorem Phase.others {k : Nat} (h : Phase d w k s) :
    ((s.rising i).delayCounter.toNat = if 1 ≤ k ∧ k ≤ d + 1 then k else 0) ∧
      ((s.rising i).widthCounter.toNat = if d + 3 ≤ k ∧ k ≤ d + w + 3 then k - d - 2 else 0) ∧
      ((s.rising i).startWidth = true ↔ d + 2 ≤ k ∧ k ≤ d + w + 2) := by
  have hdelay := h.delayCounter
  have hwidth := h.widthCounter
  -- a counter runs with its flag, one beyond the register, and the next edge clears it
  refine ⟨?_, ?_, ?_⟩
  · rw [delayCounter_rising hi.reset, hi.delay]
    · simp only [h.startDelay]
      split at hdelay <;> split <;> (try split) <;> omega
    · intro hup
      have hk := h.startDelay.mp hup
      rw [if_pos (by omega)] at hdelay
      omega
  · rw [widthCounter_rising hi.reset, hi.width]
    · simp only [h.startWidth]
      split at hwidth <;> split <;> (try split) <;> omega
    · intro hup
      have hk := h.startWidth.mp hup
      rw [if_pos (by omega)] at hwidth
      omega
  · rw [startWidth_rising hi.reset, hi.delay, hi.width, h.startWidth]
    split at hdelay <;> split at hwidth <;> omega

/-- Without an event the course goes on. -/
theorem Phase.rising {k : Nat} (h : Phase d w k s) (hk : 1 ≤ k) (hno : ¬ i.event) :
    Phase d w (k + 1) (s.rising i) := by
  obtain ⟨hdelay, hwidth, hstart⟩ := h.others hd hd' hw hw' hi
  have hcount := h.delayCounter
  refine ⟨?_, ?_, ?_, ?_⟩
  · rw [hdelay]
    split <;> split <;> omega
  · have hnext := startDelay_rising (s := s) hi.reset
    rw [hi.delay, h.startDelay] at hnext
    rw [hnext, or_iff_right hno]
    split at hcount <;> omega
  · rw [hwidth]
    split <;> split <;> omega
  · rw [hstart]
    omega

/-- An event starts it. -/
theorem Idle.event (h : Idle s) (hevent : i.event) : Phase d w 1 (s.rising i) := by
  obtain ⟨hdelay, hwidth, hstart⟩ := (idle_iff_phase.mp h).others hd hd' hw hw' hi
  refine ⟨?_, ?_, ?_, ?_⟩
  · rw [hdelay]
    split <;> split <;> omega
  · exact iff_of_true ((startDelay_rising hi.reset).mpr (Or.inl hevent)) (by omega)
  · rw [hwidth]
    split <;> split <;> omega
  · rw [hstart]
    omega

end

/-- An idle channel stays idle without an event, whatever delay and width are. -/
theorem Idle.rising {s : EventRcvChan} {i : ChanIn} (h : Idle s) (hreset : i.reset = false)
    (hno : ¬ i.event) : Idle (s.rising i) := by
  obtain ⟨hdelay, hwidth⟩ := idle_iff_rest.mp h
  have hstart : ¬ i.myDelay < s.delayCounter := by
    rw [h.delayCounter]
    exact Nat.not_lt_zero _
  refine idle_iff_rest.mpr ⟨?_, ?_⟩
  · rw [delayTimer_rising hreset, hdelay, decide_eq_false hno, Timer.tick_rest]
  · rw [widthTimer_rising hreset, hwidth, decide_eq_false hstart, Timer.tick_rest]

/-! ## The timing -/

section

variable {d w : Nat} {s : EventRcvChan} {ins : Nat → ChanIn} (hd : 1 ≤ d) (hd' : d ≤ 2 ^ 32 - 2)
  (hw : 1 ≤ w) (hw' : w ≤ 2 ^ 32 - 2) (hs : Idle s) (hi : ∀ t, Steady d w (ins t))
  (hapart : ∀ t t', (ins t).event → (ins t').event → t < t' → t + d + w + 5 ≤ t')

include hd hd' hw hw' hs hi hapart

/-- Where the channel is at each time: in the course of the last event before, or idle if there
was none. -/
theorem phase_since (t : Nat) :
    (∃ e, e < t ∧ (ins e).event ∧ (∀ u, e < u → u < t → ¬ (ins u).event) ∧
        Phase d w (t - e) (chanSignals s ins t)) ∨
      ((∀ u, u < t → ¬ (ins u).event) ∧ Idle (chanSignals s ins t)) := by
  induction t with
  | zero => exact Or.inr ⟨fun u hu => absurd hu (Nat.not_lt_zero u), hs⟩
  | succ t ih =>
    have hsucc : chanSignals s ins (t + 1) = (chanSignals s ins t).rising (ins t) := rfl
    rw [hsucc]
    by_cases hev : (ins t).event
    · -- the course before it is over
      have hidle : Idle (chanSignals s ins t) := by
        rcases ih with ⟨e, het, he, -, hphase⟩ | ⟨-, hidle⟩
        · have hfar := hapart e t he hev het
          exact hphase.idle (by omega)
        · exact hidle
      have hphase := hidle.event hd hd' hw hw' (hi t) hev
      have hone : t + 1 - t = 1 := by omega
      refine Or.inl ⟨t, by omega, hev, fun u h1 h2 => by omega, ?_⟩
      rwa [hone]
    · have hnone : ∀ u, (u < t → ¬ (ins u).event) → u < t + 1 → ¬ (ins u).event := by
        intro u hu hlt
        rcases Nat.lt_succ_iff_lt_or_eq.mp hlt with h | h
        · exact hu h
        · rw [h]
          exact hev
      -- the course of the last event goes on
      rcases ih with ⟨e, het, he, hlast, hphase⟩ | ⟨hnever, hidle⟩
      · have hk : t + 1 - e = t - e + 1 := by omega
        refine Or.inl ⟨e, by omega, he, fun u h1 => hnone u (hlast u h1), ?_⟩
        rw [hk]
        exact hphase.rising hd hd' hw hw' (hi t) (by omega) hev
      · exact Or.inr ⟨fun u => hnone u (hnever u), hidle.rising (hi t).reset hev⟩

/-- The channel is idle when an event comes, and again `d + w + 5` edges behind the last one. -/
theorem idle_of_far (t : Nat) (hfar : ∀ e, e < t → (ins e).event → e + d + w + 5 ≤ t) :
    Idle (chanSignals s ins t) := by
  rcases phase_since hd hd' hw hw' hs hi hapart t with ⟨e, het, he, -, hphase⟩ | ⟨-, hidle⟩
  · have hle := hfar e het he
    exact hphase.idle (by omega)
  · exact hidle

theorem startWidth_iff (t : Nat) : (chanSignals s ins t).startWidth = true ↔
    ∃ e, (ins e).event ∧ e + d + 3 ≤ t ∧ t ≤ e + d + w + 3 := by
  rcases phase_since hd hd' hw hw' hs hi hapart t with ⟨e, het, he, hlast, hphase⟩ | ⟨hnever, hidle⟩
  · rw [hphase.startWidth]
    constructor
    · intro h
      exact ⟨e, he, by omega, by omega⟩
    · rintro ⟨e', he', h1, h2⟩
      -- an earlier event has been over since before `e`
      have heq : e' = e := by
        rcases Nat.lt_trichotomy e' e with hlt | heq | hgt
        · have hfar := hapart e' e he' he hlt
          omega
        · exact heq
        · exact absurd he' (hlast e' hgt (by omega))
      omega
  · rw [hidle.startWidth]
    refine iff_of_false Bool.false_ne_true ?_
    rintro ⟨e, he, h1, -⟩
    exact hnever e (by omega) he

end

/-- **Event channel timing**: for events at least `d + w + 5` edges apart, the trigger is high
just behind the edges `d + 2` to `d + w + 2` that follow an event, and at no other time; and the
channel is idle again before the next event. -/
theorem trigger_timing (d w : Nat) (hd : 1 ≤ d) (hd' : d ≤ 2 ^ 32 - 2) (hw : 1 ≤ w)
    (hw' : w ≤ 2 ^ 32 - 2) (s : EventRcvChan) (ins : Nat → ChanIn) (hs : Idle s)
    (hi : ∀ t, Steady d w (ins t))
    (hapart : ∀ t t', (ins t).event → (ins t').event → t < t' → t + d + w + 5 ≤ t') :
    (∀ t, trigger (chanSignals s ins t) (ins t) = true ↔
        ∃ e, (ins e).event ∧ e + d + 3 ≤ t ∧ t ≤ e + d + w + 3) ∧
      (∀ e t, (ins e).event → e + d + w + 5 ≤ t → (∀ u, e < u → u < t → ¬ (ins u).event) →
        Idle (chanSignals s ins t)) ∧
      ∀ e, (ins e).event → Idle (chanSignals s ins e) := by
  refine ⟨fun t => ?_, fun e t he hfar hlast => ?_, fun e he => ?_⟩
  · have hdelay : (ins t).myDelay ≠ 0 := fun h => by
      have hnat := (hi t).delay
      rw [h] at hnat
      exact absurd hnat (by simp; omega)
    have hwidth : (ins t).myWidth ≠ 0 := fun h => by
      have hnat := (hi t).width
      rw [h] at hnat
      exact absurd hnat (by simp; omega)
    rw [trigger, if_pos ⟨hdelay, hwidth⟩, trigVal, if_neg (by rw [(hi t).polarity]; decide)]
    exact startWidth_iff hd hd' hw hw' hs hi hapart t
  · refine idle_of_far hd hd' hw hw' hs hi hapart t fun e' het he' => ?_
    rcases Nat.lt_or_ge e e' with hlt | hge
    · exact absurd he' (hlast e' hlt het)
    · omega
  · exact idle_of_far hd hd' hw hw' hs hi hapart e fun e' het he' => hapart e' e he' he het

/-- The settings of the 10 kHz channel, and one event at edge 0. -/
def tenKilohertz (t : Nat) : ChanIn where
  reset := false
  eventStream := if t = 0 then 0x1F else 0
  myEvent := 0x1F
  myDelay := 1
  myWidth := 12
  myPolarity := false

theorem tenKilohertz_steady (t : Nat) : Steady 1 12 (tenKilohertz t) := ⟨rfl, rfl, rfl, rfl⟩

theorem tenKilohertz_event {t : Nat} : (tenKilohertz t).event ↔ t = 0 := by
  unfold ChanIn.event tenKilohertz
  by_cases h : t = 0
  · exact iff_of_true (if_pos h).symm h
  · refine iff_of_false ?_ h
    rw [if_neg h]
    decide

theorem init_idle : Idle .init := ⟨rfl, rfl, rfl, rfl⟩

theorem tenKilohertz_apart (t t' : Nat) (h : (tenKilohertz t).event) (h' : (tenKilohertz t').event)
    (hlt : t < t') : t + 1 + 12 + 5 ≤ t' := by
  rw [tenKilohertz_event] at h h'
  omega

/-- The trigger of the event at edge 0 is high just before the edges 4 to 16, and from edge 18 on
the channel is idle again. -/
theorem trigger_tenKilohertz :
    (∀ t, trigger (chanSignals .init tenKilohertz t) (tenKilohertz t) = true ↔
        4 ≤ t ∧ t ≤ 16) ∧
      ∀ t, 18 ≤ t → Idle (chanSignals .init tenKilohertz t) := by
  obtain ⟨htrigger, hidle, -⟩ := trigger_timing 1 12 (by decide) (by decide) (by decide)
    (by decide) .init tenKilohertz init_idle tenKilohertz_steady tenKilohertz_apart
  constructor
  · intro t
    rw [htrigger t]
    constructor
    · rintro ⟨e, he, h1, h2⟩
      rw [tenKilohertz_event] at he
      omega
    · intro h
      exact ⟨0, tenKilohertz_event.mpr rfl, by omega, by omega⟩
  · intro t ht
    refine hidle 0 t (tenKilohertz_event.mpr rfl) ht fun u h1 _ he => ?_
    rw [tenKilohertz_event] at he
    omega

end Acmi.Evr
