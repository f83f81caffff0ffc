import Acmi.Evr.Channel

/-!
# The event channel while its registers are rewritten

The software may write the delay at any moment. A counter is cleared only when it is found at
or beyond the register, so it is left over when the register is raised above it in the one clock
between the fall of its start flag and the clearing (`Timer.Stuck`). Nothing but a new start
moves it then: `channel_idle_iff` says of every reachable state whether the channel comes to
rest, and `channel_idle_of_steady` of every run that the channel does, as long as no edge finds
a register raised that way.

A left-over width counter does not matter while the delay is still running: the trigger that
comes makes it run on and clears it (`Clean.width`).
-/

namespace Acmi.Evr

open Acmi.Lib

/-- From edge `n` on, for `d + w + 8` edges, delay and width are constant and no matching event
occurs. -/
def QuietFrom (ins : Nat → ChanIn) (n : Nat) (d w : BitVec 32) : Prop :=
  ∀ u, n ≤ u → u < n + d.toNat + w.toNat + 8 →
    (ins u).reset = false ∧ ¬ (ins u).event ∧ (ins u).myDelay = d ∧ (ins u).myWidth = w

/-- No counter is left over for delay `d` and width `w`; a width counter may be while a trigger
is on its way. -/
structure Clean (d w : BitVec 32) (s : EventRcvChan) : Prop where
  delay : ¬ s.delayTimer.Stuck d
  width : s.widthTimer.Stuck w → s.startDelay = true ∨ d < s.delayCounter

/-- At an edge: no register is above a counter that its start flag has already left. -/
structure Undisturbed (s : EventRcvChan) (i : ChanIn) : Prop where
  delay : ¬ s.delayTimer.Stuck i.myDelay
  width : ¬ s.widthTimer.Stuck i.myWidth

section

variable {s : EventRcvChan} {i : ChanIn} {d w : BitVec 32}

/-- A clean channel stays clean: the trigger that was on its way comes before the delay is at
rest. -/
theorem Clean.rising (h : Clean d w s) (hd' : d.toNat ≤ 2 ^ 32 - 2) (hreset : i.reset = false)
    (hdelay : i.myDelay = d) (hwidth : i.myWidth = w) : Clean d w (s.rising i) := by
  constructor
  · rw [delayTimer_rising hreset, hdelay]
    exact Timer.not_stuck_tick h.delay
  · rw [widthTimer_rising hreset, hwidth, hdelay]
    intro hstuck
    have hstart : ¬ d < s.delayCounter := fun hlt => by
      have hup : (s.widthTimer.tick w (decide (d < s.delayCounter))).run = true :=
        Timer.tick_run.mpr (Or.inl (decide_eq_true hlt))
      rw [hstuck.run] at hup
      cases hup
    -- a tick leaves no counter over, so it was left over before
    have hold : s.widthTimer.Stuck w := by
      by_contra hns
      exact Timer.not_stuck_tick hns hstuck
    have hrun : s.startDelay = true := (h.width hold).resolve_right hstart
    rw [BitVec.lt_def] at hstart
    by_cases hlt : s.delayCounter.toNat < d.toNat
    · left
      rw [startDelay_rising hreset, hdelay]
      exact Or.inr ⟨hlt, hrun⟩
    · -- the counter stands at the delay and goes one beyond
      right
      rw [BitVec.lt_def, delayCounter_rising hreset (fun _ => by omega), if_pos hrun]
      omega

/-- A left-over width counter stays when no trigger is on its way. -/
theorem width_stuck_rising (h : s.widthTimer.Stuck w) (hrun : s.startDelay = false)
    (hle : ¬ d < s.delayCounter) (hreset : i.reset = false) (hno : ¬ i.event)
    (hdelay : i.myDelay = d) (hwidth : i.myWidth = w) :
    (s.rising i).widthTimer.Stuck w ∧ (s.rising i).startDelay = false ∧
      ¬ d < (s.rising i).delayCounter := by
  refine ⟨?_, ?_, ?_⟩
  · rw [widthTimer_rising hreset, hwidth, hdelay, decide_eq_false hle, h.tick]
    exact h
  · refine Bool.eq_false_iff.mpr fun hup => ?_
    rcases (startDelay_rising hreset).mp hup with hevent | ⟨-, hold⟩
    · exact hno hevent
    · rw [hrun] at hold
      cases hold
  · rw [BitVec.lt_def] at hle ⊢
    rw [delayCounter_rising hreset (fun hup => by rw [hrun] at hup; cases hup), hrun,
      if_neg Bool.false_ne_true, hdelay]
    split <;> omega

end

section

variable {s : EventRcvChan} {ins : Nat → ChanIn} {n : Nat} {d w : BitVec 32}

theorem Clean.run (hd' : d.toNat ≤ 2 ^ 32 - 2) (hq : QuietFrom ins n d w)
    (h : Clean d w (chanSignals s ins n)) :
    ∀ t, n ≤ t → t ≤ n + d.toNat + w.toNat + 8 → Clean d w (chanSignals s ins t) :=
  clocked_between (I := fun _ st => Clean d w st) h fun t st hlow hhigh hst => by
    obtain ⟨hreset, -, hdelay, hwidth⟩ := hq t hlow hhigh
    exact hst.rising hd' hreset hdelay hwidth

/-- The delay comes to rest first, and then nothing starts the width any more. -/
theorem idle_of_clean (hd' : d.toNat ≤ 2 ^ 32 - 2) (hq : QuietFrom ins n d w)
    (h : Clean d w (chanSignals s ins n)) :
    Idle (chanSignals s ins (n + d.toNat + w.toNat + 8)) := by
  have hdelay : ∀ t, n + d.toNat + 2 ≤ t → t ≤ n + d.toNat + w.toNat + 8 →
      (chanSignals s ins t).delayTimer = .rest := by
    intro t hlow hhigh
    refine Timer.settles (f := fun u => (chanSignals s ins u).delayTimer) d
      (fun u h1 h2 => ?_) h.delay hlow
    obtain ⟨hreset, hno, hd, -⟩ := hq u h1 (by omega)
    show ((chanSignals s ins u).rising (ins u)).delayTimer = _
    rw [delayTimer_rising hreset, decide_eq_false hno, hd]
  have hrest := hdelay (n + d.toNat + 2) (Nat.le_refl _) (by omega)
  have hclean := h.run hd' hq (n + d.toNat + 2) (by omega) (by omega)
  refine idle_iff_rest.mpr ⟨hdelay _ (by omega) (Nat.le_refl _), ?_⟩
  refine Timer.settles (f := fun u => (chanSignals s ins u).widthTimer) w
    (a := n + d.toNat + 2) (fun u h1 h2 => ?_) (fun hstuck => ?_) (by omega)
  · obtain ⟨hreset, -, hd, hw⟩ := hq u (by omega) h2
    have hcount : (chanSignals s ins u).delayCounter = 0 :=
      congrArg Timer.count (hdelay u h1 (by omega))
    have hstart : ¬ d < (chanSignals s ins u).delayCounter := by
      rw [hcount]
      exact Nat.not_lt_zero _
    show ((chanSignals s ins u).rising (ins u)).widthTimer = _
    rw [widthTimer_rising hreset, hd, hw, decide_eq_false hstart]
  · -- left over only with a trigger on its way, and the delay is at rest
    rcases hclean.width hstuck with hup | hlt
    · rw [show (chanSignals s ins (n + d.toNat + 2)).startDelay = false from
        congrArg Timer.run hrest] at hup
      cases hup
    · rw [show (chanSignals s ins (n + d.toNat + 2)).delayCounter = 0 from
        congrArg Timer.count hrest] at hlt
      exact Nat.not_lt_zero _ hlt

theorem width_left_over (hq : QuietFrom ins n d w)
    (h : (chanSignals s ins n).widthTimer.Stuck w)
    (hnone : (chanSignals s ins n).startDelay = false ∧ ¬ d < (chanSignals s ins n).delayCounter)
    (t : Nat) (hnt : n ≤ t) (hlast : t ≤ n + d.toNat + w.toNat + 8) :
    (chanSignals s ins t).widthTimer.Stuck w :=
  (clocked_between
    (I := fun _ (st : EventRcvChan) =>
      st.widthTimer.Stuck w ∧ st.startDelay = false ∧ ¬ d < st.delayCounter)
    (b := n + d.toNat + w.toNat + 8) ⟨h, hnone⟩
    (fun u st h1 h2 ⟨hst, hrun, hle⟩ => by
      obtain ⟨hreset, hno, hd, hw⟩ := hq u h1 h2
      exact width_stuck_rising hst hrun hle hreset hno hd hw) t hnt hlast).1

/-- A counter that is left over is there at the end. -/
theorem clean_of_idle (hq : QuietFrom ins n d w)
    (h : Idle (chanSignals s ins (n + d.toNat + w.toNat + 8))) :
    Clean d w (chanSignals s ins n) := by
  obtain ⟨hdelay, hwidth⟩ := idle_iff_rest.mp h
  constructor
  · intro hstuck
    have hstays := Timer.stays_stuck (f := fun u => (chanSignals s ins u).delayTimer)
      (b := n + d.toNat + w.toNat + 8) (fun u h1 h2 => by
        obtain ⟨hreset, hno, hd, -⟩ := hq u h1 h2
        show ((chanSignals s ins u).rising (ins u)).delayTimer = _
        rw [delayTimer_rising hreset, decide_eq_false hno, hd]) hstuck (by omega)
    have hpos := hstuck.pos
    rw [← hstays] at hpos
    rw [hdelay] at hpos
    exact absurd hpos (by decide)
  · intro hstuck
    by_contra hnone
    rw [not_or, Bool.not_eq_true] at hnone
    have hstays := width_left_over hq hstuck hnone _ (by omega) (Nat.le_refl _)
    have hpos : 0 < (chanSignals s ins (n + d.toNat + w.toNat + 8)).widthTimer.count.toNat :=
      hstays.pos
    rw [hwidth] at hpos
    exact absurd hpos (by decide)

end

/-- An idle channel shows no trigger. -/
theorem Idle.trigger {s : EventRcvChan} {i : ChanIn} (h : Idle s) (hpol : i.myPolarity = false) :
    trigger s i = false := by
  rw [Evr.trigger, trigVal, hpol, h.startWidth]
  split <;> rfl

/-- With constant registers and events far enough apart, nothing is disturbed. -/
theorem Phase.undisturbed {d w k : Nat} {s : EventRcvChan} {i : ChanIn} (h : Phase d w k s)
    (hi : Steady d w i) : Undisturbed s i := by
  -- with its flag down a counter is 0, or one beyond the register
  constructor
  · intro ⟨hrun, hpos, hlt⟩
    have hcount : s.delayTimer.count.toNat = _ := h.delayCounter
    rw [hcount, hi.delay] at hlt
    rw [hcount] at hpos
    have hdown : ¬ (1 ≤ k ∧ k ≤ d + 1) := fun hk => by
      have hup : s.delayTimer.run = true := h.startDelay.mpr hk
      rw [hrun] at hup
      cases hup
    split at hpos <;> split at hlt <;> omega
  · intro ⟨hrun, hpos, hlt⟩
    have hcount : s.widthTimer.count.toNat = _ := h.widthCounter
    rw [hcount, hi.width] at hlt
    rw [hcount] at hpos
    have hdown : ¬ (d + 3 ≤ k ∧ k ≤ d + w + 3) := fun hk => by
      have hup : s.widthTimer.run = true := h.startWidth.mpr hk
      rw [hrun] at hup
      cases hup
    split at hpos <;> split at hlt <;> omega

theorem undisturbed_of_steady {d w : Nat} {s : EventRcvChan} {ins : Nat → ChanIn} (hd : 1 ≤ d)
    (hd' : d ≤ 2 ^ 32 - 2) (hw : 1 ≤ w) (hw' : w ≤ 2 ^ 32 - 2) (hs : Idle s)
    (hi : ∀ t, Steady d w (ins t))
    (hapart : ∀ t t', (ins t).event → (ins t').event → t < t' → t + d + w + 5 ≤ t') (t : Nat) :
    Undisturbed (chanSignals s ins t) (ins t) := by
  rcases phase_since hd hd' hw hw' hs hi hapart t with ⟨e, -, -, -, hphase⟩ | ⟨-, hidle⟩
  · exact hphase.undisturbed (hi t)
  · exact (idle_iff_phase.mp hidle).undisturbed (hi t)

/-- **A channel comes to rest exactly when** no counter is left over: for every run, whatever
delay and width were at each edge of it, and every quiet stretch that begins in the state
reached. In particular it does in every run in which no edge finds a register raised above a
counter whose start flag is down. It then stays idle, whatever delay and width become, and shows
no trigger until the next event. -/
theorem channel_idle_iff (ins : Nat → ChanIn) (hreset : ∀ t, (ins t).reset = false) :
    (∀ n d w, d.toNat ≤ 2 ^ 32 - 2 → QuietFrom ins n d w →
        (Idle (chanSignals .init ins (n + d.toNat + w.toNat + 8)) ↔
          Clean d w (chanSignals .init ins n))) ∧
      ((∀ t, Undisturbed (chanSignals .init ins t) (ins t)) →
        ∀ n d w, d.toNat ≤ 2 ^ 32 - 2 → QuietFrom ins n d w →
          Idle (chanSignals .init ins (n + d.toNat + w.toNat + 8))) ∧
      ∀ n k, Idle (chanSignals .init ins n) → (∀ u, n ≤ u → u < n + k → ¬ (ins u).event) →
        Idle (chanSignals .init ins (n + k)) ∧
          ((ins (n + k)).myPolarity = false →
            trigger (chanSignals .init ins (n + k)) (ins (n + k)) = false) := by
  refine ⟨fun n d w hd' hq => ⟨clean_of_idle hq, idle_of_clean hd' hq⟩, ?_, ?_⟩
  · intro hsteady n d w hd' hq
    obtain ⟨-, -, hdelay, hwidth⟩ := hq n (Nat.le_refl n) (by omega)
    have hn := hsteady n
    refine idle_of_clean hd' hq ⟨hdelay ▸ hn.delay, fun hstuck => absurd hstuck ?_⟩
    exact hwidth ▸ hn.width
  · intro n k hidle hno
    have hlast : Idle (chanSignals .init ins (n + k)) :=
      clocked_between (I := fun _ st => Idle st) (b := n + k) hidle
        (fun u st h1 h2 hst => hst.rising (hreset u) (hno u h1 h2)) (n + k) (by omega)
        (Nat.le_refl _)
    exact ⟨hlast, hlast.trigger⟩

theorem tenKilohertz_quiet : QuietFrom tenKilohertz 1 1 12 := by
  intro u h1 _
  refine ⟨rfl, fun he => ?_, rfl, rfl⟩
  rw [tenKilohertz_event] at he
  omega

/-- Behind the event of `tenKilohertz` the channel comes to rest. -/
theorem channel_idle_tenKilohertz :
    (∀ t, Undisturbed (chanSignals .init tenKilohertz t) (tenKilohertz t)) ∧
      Clean 1 12 (chanSignals .init tenKilohertz 1) ∧
      Idle (chanSignals .init tenKilohertz (1 + 1 + 12 + 8)) := by
  have hsteady := undisturbed_of_steady (by decide) (by decide) (by decide) (by decide) init_idle
    tenKilohertz_steady tenKilohertz_apart
  obtain ⟨hiff, hrun, -⟩ := channel_idle_iff tenKilohertz (fun _ => rfl)
  have hidle := hrun hsteady 1 1 12 (by decide) tenKilohertz_quiet
  exact ⟨hsteady, (hiff 1 1 12 (by decide) tenKilohertz_quiet).mp hidle, hidle⟩

/-- The delay is raised from 1 to 5 at the edge that would have cleared the counter. -/
def raisedDelay (t : Nat) : ChanIn :=
  { tenKilohertz t with myDelay := if t < 3 then 1 else 5 }

/-- The trigger is lost, and the delay counter is left at 2. -/
theorem raisedDelay_left_over :
    (∀ t, (raisedDelay t).reset = false) ∧ QuietFrom raisedDelay 3 5 12 ∧
      ¬ Idle (chanSignals .init raisedDelay (3 + 5 + 12 + 8)) := by
  refine ⟨fun _ => rfl, fun u h1 _ => ⟨rfl, fun he => ?_, if_neg (by omega), rfl⟩, fun h => ?_⟩
  · have hzero : u = 0 := tenKilohertz_event.mp he
    omega
  · exact absurd h.delayCounter (by decide)

end Acmi.Evr
