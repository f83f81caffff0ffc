import Acmi.Evr.Channel
import Mathlib.Data.Nat.Find

/-!
# `stretch.vhd` and `gen_soft_trig.vhd`

The two pulse makers. `stretch` holds its output for `len + 1` clocks behind a rising edge of its
input; it does not look at its input meanwhile, and an edge in the last of these clocks is lost
with the others (`sigOut_iff`). `gen_soft_trig` makes a pulse of 10 clocks every `CLK_FREQ` clocks
from the end of its reset on (`softTrig_since`).

The LED of the 10 Hz event is a `stretch` on the system clock behind an event channel on the
receiver's. `saLed_iff` is what becomes of an event: its LED is on for 3000001 clocks, from the
clock on that first sees the trigger.

Mirroring notes:
- Where two assignments of a process hit the same signal, the later one wins.
- `trig_cnt` is an INTEGER; it never gets beyond `len`.
- The system clock looks at the trigger as it is; nothing resynchronises it. `f k` is the number of
  receiver clocks before clock `k`.
-/

namespace Acmi.Evr

open Acmi.Lib

/-! ## `stretch` -/

structure StretchIn where
  reset : Bool
  sigIn : Bool

structure Stretch where
  trigCnt : Nat
  trigStretch : Bool
  prevSigIn : Bool
  deriving DecidableEq

/-- The reset branch. -/
def Stretch.cleared : Stretch := ⟨0, false, false⟩

/-- The time is over. -/
def Stretch.over (len : Nat) (s : Stretch) : Bool := s.trigStretch && len ≤ s.trigCnt

/-- One rising edge of `clk`. -/
def Stretch.rising (len : Nat) (s : Stretch) (i : StretchIn) : Stretch :=
  if i.reset then .cleared
  else
    { prevSigIn := i.sigIn
      trigStretch :=
        if s.over len then false
        else if !s.prevSigIn && i.sigIn then true
        else s.trigStretch
      trigCnt :=
        if s.over len then 0
        else if s.trigStretch then s.trigCnt + 1
        else s.trigCnt }

/-- The output just before edge `t`. -/
def sigOut (len : Nat) (ins : Nat → StretchIn) (t : Nat) : Bool :=
  (clocked (Stretch.rising len) .cleared ins t).trigStretch

/-- A rising edge of the input. -/
def Edge (sig : Nat → Bool) (t : Nat) : Prop := sig t = true ∧ (t = 0 ∨ sig (t - 1) = false)

section

variable {len : Nat} {ins : Nat → StretchIn}

/-- The edges that start the output. -/
def Starts (len : Nat) (ins : Nat → StretchIn) : Nat → Prop :=
  Taken (Edge fun t => (ins t).sigIn) (len + 2)

/-- Just before edge `t`: the output is on since the start at `e`, or off with all starts past. -/
def StretchInv (len : Nat) (ins : Nat → StretchIn) (t : Nat) (s : Stretch) : Prop :=
  (s.prevSigIn = true ↔ 0 < t ∧ (ins (t - 1)).sigIn = true) ∧
    ((∃ e, Starts len ins e ∧ e < t ∧ t ≤ e + len + 1 ∧ s.trigStretch = true ∧
        s.trigCnt = t - e - 1) ∨
      ((∀ e, Starts len ins e → e < t → e + len + 2 ≤ t) ∧ s.trigStretch = false ∧
        s.trigCnt = 0))

variable (hreset : ∀ t, (ins t).reset = false)

include hreset

theorem rising_stretchInv {t : Nat} {s : Stretch} (h : StretchInv len ins t s) :
    StretchInv len ins (t + 1) (s.rising len (ins t)) := by
  obtain ⟨hprev, hstate⟩ := h
  have hedge : (!s.prevSigIn && (ins t).sigIn) = true ↔ Edge (fun t => (ins t).sigIn) t := by
    rw [Bool.and_eq_true, Bool.not_eq_true', and_comm]
    refine and_congr_right fun _ => ?_
    rw [← Bool.not_eq_true, hprev, not_and_or, Nat.not_lt, Nat.le_zero, Bool.not_eq_true]
  rw [Stretch.rising, if_neg (by rw [hreset]; exact Bool.false_ne_true)]
  refine ⟨⟨fun h => ⟨Nat.succ_pos t, h⟩, And.right⟩, ?_⟩
  rcases hstate with ⟨e, he, het, hle, hon, hcnt⟩ | ⟨hpast, hoff, hcnt⟩
  · by_cases hlast : len ≤ t - e - 1
    · -- the last clock
      have hover : s.over len = true := by
        rw [Stretch.over, hon, hcnt, decide_eq_true hlast]
        rfl
      rw [if_pos hover, if_pos hover]
      refine Or.inr ⟨fun u hu hlt => ?_, rfl, rfl⟩
      rcases Nat.lt_trichotomy u e with hbefore | rfl | hafter
      · have := hu.apart he hbefore
        omega
      · omega
      · have := he.apart hu hafter
        omega
    · have hover : ¬ s.over len = true := by
        rw [Stretch.over, hon, hcnt, decide_eq_false hlast]
        exact Bool.false_ne_true
      rw [if_neg hover, if_neg hover, hon, if_pos rfl, ite_self, hcnt]
      refine Or.inl ⟨e, he, by omega, by omega, rfl, ?_⟩
      show t - e - 1 + 1 = t + 1 - e - 1
      omega
  · have hover : ¬ s.over len = true := by
      rw [Stretch.over, hoff]
      exact Bool.false_ne_true
    rw [if_neg hover, if_neg hover, hoff, if_neg Bool.false_ne_true, hcnt]
    by_cases hP : Edge (fun t => (ins t).sigIn) t
    · rw [if_pos (hedge.mpr hP)]
      have hstart : Starts len ins t := taken_iff.mpr ⟨hP, fun u hlt hu => hpast u hu hlt⟩
      refine Or.inl ⟨t, hstart, by omega, by omega, rfl, ?_⟩
      show 0 = t + 1 - t - 1
      omega
    · rw [if_neg fun h => hP (hedge.mp h)]
      refine Or.inr ⟨fun u hu hlt => ?_, rfl, rfl⟩
      rcases Nat.lt_succ_iff_lt_or_eq.mp hlt with hbefore | rfl
      · exact Nat.le_succ_of_le (hpast u hu hbefore)
      · exact absurd (taken_iff.mp hu).1 hP

theorem stretchInv (t : Nat) :
    StretchInv len ins t (clocked (Stretch.rising len) .cleared ins t) := by
  induction t with
  | zero =>
    exact ⟨iff_of_false Bool.false_ne_true fun h => Nat.lt_irrefl 0 h.1,
      Or.inr ⟨fun e _ he => absurd he (Nat.not_lt_zero e), rfl, rfl⟩⟩
  | succ t ih => exact rising_stretchInv hreset ih

/-- **The output** is on for `len + 1` clocks behind each start. -/
theorem sigOut_iff (t : Nat) :
    sigOut len ins t = true ↔ ∃ e, Starts len ins e ∧ e < t ∧ t ≤ e + len + 1 := by
  have hinv : StretchInv len ins t _ := stretchInv hreset t
  obtain ⟨-, ⟨e, he, het, hle, hon, -⟩ | ⟨hpast, hoff, -⟩⟩ := hinv
  · exact iff_of_true hon ⟨e, he, het, hle⟩
  · refine iff_of_false (fun h => ?_) fun h => ?_
    · rw [sigOut, hoff] at h
      exact Bool.false_ne_true h
    · obtain ⟨e, he, het, hle⟩ := h
      have := hpast e he het
      omega

variable (len) in
/-- **Every pulse is whole.** The output is on for `len + 1` clocks behind each start and off for
one at least before the next; and an edge that does not start it comes while it is on, or in the
clock in which it goes on. -/
theorem stretch_pulses :
    (∀ t, sigOut len ins t = true ↔ ∃ e, Starts len ins e ∧ e < t ∧ t ≤ e + len + 1) ∧
      (∀ e e', Starts len ins e → Starts len ins e' → e < e' →
        sigOut len ins (e + len + 2) = false ∧ e + len + 2 ≤ e') ∧
      ∀ t, Edge (fun t => (ins t).sigIn) t → Starts len ins t ∨ sigOut len ins t = true := by
  refine ⟨sigOut_iff hreset, fun e e' he he' hlt => ?_, fun t ht => ?_⟩
  · have hfar := he.apart he' hlt
    refine ⟨Bool.eq_false_iff.mpr fun hup => ?_, hfar⟩
    obtain ⟨u, hu, hut, hle⟩ := (sigOut_iff hreset _).mp hup
    -- there is no start between the two
    rcases Nat.lt_or_ge e u with hafter | hbefore
    · have := he.apart hu hafter
      omega
    · omega
  · by_cases hstart : Starts len ins t
    · exact Or.inl hstart
    · refine Or.inr ((sigOut_iff hreset t).mpr ?_)
      by_contra hnone
      refine hstart (taken_iff.mpr ⟨ht, fun u hlt hu => ?_⟩)
      by_contra hnear
      exact hnone ⟨u, hu, hlt, by omega⟩

end

/-- An edge at 0, and one in the last clock of its pulse. -/
def lastClock (t : Nat) : StretchIn := ⟨false, t = 0 ∨ t = 3⟩

theorem stretch_pulses_lastClock :
    sigOut 2 lastClock 3 = true ∧ ∀ t, 3 < t → sigOut 2 lastClock t = false := by
  have hreset : ∀ t, (lastClock t).reset = false := fun _ => rfl
  obtain ⟨hout, hgap, -⟩ := stretch_pulses 2 hreset
  have hedge : ∀ t, Edge (fun t => (lastClock t).sigIn) t → t = 0 ∨ t = 3 :=
    fun t h => of_decide_eq_true h.1
  have hstart : Starts 2 lastClock 0 :=
    taken_iff.mpr ⟨⟨rfl, Or.inl rfl⟩, fun u hu => absurd hu (Nat.not_lt_zero u)⟩
  refine ⟨(hout 3).mpr ⟨0, hstart, by decide, by decide⟩, fun t ht => ?_⟩
  refine Bool.eq_false_iff.mpr fun hup => ?_
  obtain ⟨e, he, -, hle⟩ := (hout t).mp hup
  rcases hedge e (taken_iff.mp he).1 with rfl | rfl
  · omega
  · have := (hgap 0 3 hstart he (by decide)).2
    omega

/-! ## `gen_soft_trig` -/

def clkFreq : Nat := 100000000
def pulseW : Nat := 10

structure GenSoftTrig where
  cnt : BitVec 27
  trig1hz : Bool
  deriving DecidableEq

/-- The initial values of the declarations; `trig_1hz` has none. -/
def GenSoftTrig.init (trig1hz : Bool) : GenSoftTrig := ⟨0, trig1hz⟩

/-- One rising edge of `clk`. -/
def GenSoftTrig.rising (s : GenSoftTrig) (reset : Bool) : GenSoftTrig :=
  if reset then ⟨0, false⟩
  else
    { cnt := if s.cnt.toNat = clkFreq - 1 then 0 else s.cnt + 1
      trig1hz := decide (s.cnt.toNat < pulseW) }

/-- `d` edges behind a reset. -/
structure SinceReset (d : Nat) (s : GenSoftTrig) : Prop where
  cnt : s.cnt.toNat = d % clkFreq
  trig1hz : s.trig1hz = true ↔ 0 < d ∧ (d - 1) % clkFreq < pulseW

theorem SinceReset.rising {d : Nat} {s : GenSoftTrig} (h : SinceReset d s) :
    SinceReset (d + 1) (s.rising false) := by
  have hlt : d % clkFreq < clkFreq := Nat.mod_lt d (by decide)
  have hcnt := h.cnt
  rw [GenSoftTrig.rising, if_neg Bool.false_ne_true]
  refine ⟨?_, ?_⟩
  · show (if s.cnt.toNat = clkFreq - 1 then (0 : BitVec 27) else s.cnt + 1).toNat = _
    rw [clkFreq] at hlt hcnt ⊢
    split_ifs with hlast
    · show 0 = (d + 1) % 100000000
      omega
    · rw [toNat_add_one (by omega)]
      omega
  · show decide (s.cnt.toNat < pulseW) = true ↔ 0 < d + 1 ∧ (d + 1 - 1) % clkFreq < pulseW
    rw [decide_eq_true_iff, hcnt, Nat.add_sub_cancel, and_iff_right (Nat.succ_pos d)]

/-- **The soft trigger** is on in the first 10 clocks of every `CLK_FREQ`, counted from the last
reset, and only then. -/
theorem softTrig_since (trig1hz : Bool) (resets : Nat → Bool) {t e : Nat}
    (he : LastUpTo (fun u => resets u = true) t e) :
    (clocked GenSoftTrig.rising (.init trig1hz) resets (t + 1)).trig1hz = true ↔
      e < t ∧ (t - e - 1) % clkFreq < pulseW := by
  have hsince : ∀ d, e + d ≤ t →
      SinceReset d (clocked GenSoftTrig.rising (.init trig1hz) resets (e + d + 1)) := by
    intro d
    induction d with
    | zero =>
      intro _
      rw [clocked_succ, GenSoftTrig.rising, if_pos he.holds]
      exact ⟨rfl, iff_of_false Bool.false_ne_true fun h => Nat.lt_irrefl 0 h.1⟩
    | succ d ih =>
      intro hd
      have hno := he.after (e + d + 1) (by omega) hd
      rw [Bool.not_eq_true] at hno
      rw [← Nat.add_assoc, clocked_succ, hno]
      exact (ih (by omega)).rising
  have hle := he.le
  have hlast := hsince (t - e) (by omega)
  rw [Nat.add_sub_cancel' hle] at hlast
  rw [hlast.trig1hz, Nat.sub_pos_iff_lt]

/-- In reset up to edge 5, and again at edge 20. -/
def twoResets (t : Nat) : Bool := t ≤ 5 || t = 20

theorem softTrig_twoResets :
    (clocked GenSoftTrig.rising (.init true) twoResets 16).trig1hz = true ∧
      (clocked GenSoftTrig.rising (.init true) twoResets 17).trig1hz = false := by
  have hlast : ∀ t, 5 ≤ t → t < 20 → LastUpTo (fun u => twoResets u = true) t 5 := by
    intro t hle hlt
    refine ⟨hle, rfl, fun u h1 h2 hu => ?_⟩
    simp only [twoResets, Bool.or_eq_true, decide_eq_true_iff] at hu
    omega
  refine ⟨(softTrig_since true twoResets (hlast 15 (by decide) (by decide))).mpr (by decide),
    Bool.eq_false_iff.mpr fun hup => ?_⟩
  have h := (softTrig_since true twoResets (hlast 16 (by decide) (by decide))).mp hup
  exact absurd h (by decide)

/-! ## The LED of the 10 Hz event -/

/-- The system clock and the receiver's: two clocks of the receiver's at most pass from one edge of
the other to the next. -/
structure Sampling (f : Nat → Nat) : Prop where
  zero : f 0 = 0
  lt : ∀ k, f k < f (k + 1)
  le : ∀ k, f (k + 1) ≤ f k + 2

/-- The LED's `stretch` looks at the channel's trigger. -/
def saLedIn (s : EventRcvChan) (ins : Nat → ChanIn) (f : Nat → Nat) (k : Nat) : StretchIn :=
  ⟨false, trigger (chanSignals s ins (f k)) (ins (f k))⟩

/-- The length for about 25 ms. -/
def ledLen : Nat := 3000000

/-- The first edge `k` that sees the trigger of the event at `e`. -/
def Sees (f : Nat → Nat) (e k : Nat) : Prop := 0 < k ∧ f (k - 1) < e + 4 ∧ e + 4 ≤ f k

namespace Sampling

variable {f : Nat → Nat} (hf : Sampling f)

include hf

theorem apart (k n : Nat) : f k + n ≤ f (k + n) ∧ f (k + n) ≤ f k + 2 * n := by
  induction n with
  | zero => exact ⟨Nat.le_refl _, Nat.le_refl _⟩
  | succ n ih =>
    have hlt := hf.lt (k + n)
    have hle := hf.le (k + n)
    show f k + (n + 1) ≤ f (k + n + 1) ∧ f (k + n + 1) ≤ f k + 2 * (n + 1)
    omega

/-- Every event is seen. -/
theorem exists_sees (e : Nat) : ∃ k, Sees f e k := by
  have hlate : ∃ k, e + 4 ≤ f k := by
    have h := (hf.apart 0 (e + 4)).1
    rw [Nat.zero_add] at h
    exact ⟨e + 4, by omega⟩
  have hfirst := Nat.find_spec hlate
  have hpos : 0 < Nat.find hlate := by
    refine Nat.pos_of_ne_zero fun h => ?_
    rw [h, hf.zero] at hfirst
    omega
  exact ⟨Nat.find hlate, hpos, Nat.lt_of_not_le (Nat.find_min hlate (by omega)), hfirst⟩

theorem step {k : Nat} (hk : 0 < k) : f (k - 1) < f k ∧ f k ≤ f (k - 1) + 2 := by
  have hlt := hf.lt (k - 1)
  have hle := hf.le (k - 1)
  rw [Nat.sub_add_cancel hk] at hlt hle
  exact ⟨hlt, hle⟩

/-- Two events far apart are seen at edges far apart. -/
theorem sees_apart {e e' k k' n : Nat} (h : Sees f e k) (h' : Sees f e' k')
    (hfar : e + 2 * n + 1 ≤ e') : k + n ≤ k' := by
  obtain ⟨hk, hbefore, -⟩ := h
  obtain ⟨hk', -, hseen⟩ := h'
  have hle := (hf.step hk).2
  by_contra hnear
  have hmono := (hf.apart k' (k + n - k')).1
  have hspan := (hf.apart k n).2
  have hsum : k' + (k + n - k') = k + n := by omega
  rw [hsum] at hmono
  omega

end Sampling

/-- The trigger of an event, as the receiver's clock has it. -/
theorem trigger_iff {d w : Nat} (hd : 1 ≤ d) (hd' : d ≤ 2 ^ 32 - 2) (hw : 1 ≤ w)
    (hw' : w ≤ 2 ^ 32 - 2) {s : EventRcvChan} {ins : Nat → ChanIn} (hs : Idle s)
    (hi : ∀ t, Steady d w (ins t))
    (hapart : ∀ t t', (ins t).event → (ins t').event → t < t' → t + d + w + 5 ≤ t') (t : Nat) :
    trigger (chanSignals s ins t) (ins t) = true ↔
      ∃ e, (ins e).event ∧ e + d + 3 ≤ t ∧ t ≤ e + d + w + 3 := by
  have hset : (ins t).myDelay ≠ 0 ∧ (ins t).myWidth ≠ 0 := by
    refine ⟨fun h => ?_, fun h => ?_⟩
    · have hdelay := (hi t).delay
      rw [h] at hdelay
      exact absurd hd (hdelay ▸ Nat.not_succ_le_zero 0)
    · have hwidth := (hi t).width
      rw [h] at hwidth
      exact absurd hw (hwidth ▸ Nat.not_succ_le_zero 0)
  rw [trigger, if_pos hset, trigVal, (hi t).polarity, if_neg Bool.false_ne_true]
  exact startWidth_iff hd hd' hw hw' hs hi hapart t

section

variable {s : EventRcvChan} {ins : Nat → ChanIn} {f : Nat → Nat} (hf : Sampling f) (hs : Idle s)
  (hi : ∀ t, Steady 1 12 (ins t))

include hs hi

include hf

/-- The edges of the sampled trigger are where the events are first seen. -/
theorem edge_iff_sees (hapart : ∀ t t', (ins t).event → (ins t').event → t < t' → t + 18 ≤ t')
    (k : Nat) : Edge (fun k => (saLedIn s ins f k).sigIn) k ↔
      ∃ e, (ins e).event ∧ Sees f e k := by
  have hon := fun j =>
    trigger_iff (by decide) (by decide) (by decide) (by decide) hs hi hapart (f j)
  constructor
  · intro h
    obtain ⟨hup, hdown⟩ := h
    obtain ⟨e, he, hge, hle⟩ := (hon k).mp hup
    have hk : 0 < k := by
      refine Nat.pos_of_ne_zero fun h0 => ?_
      rw [h0, hf.zero] at hge
      omega
    refine ⟨e, he, hk, ?_, hge⟩
    -- it was not on at the edge before, so its time had not come
    by_contra hnot
    have hbefore : trigger (chanSignals s ins (f (k - 1))) (ins (f (k - 1))) = true :=
      (hon (k - 1)).mpr ⟨e, he, by omega, Nat.le_trans (Nat.le_of_lt (hf.step hk).1) hle⟩
    have hlow := hdown.resolve_left (Nat.ne_of_gt hk)
    exact Bool.false_ne_true (hlow.symm.trans hbefore)
  · intro h
    obtain ⟨e, he, hk, hbefore, hge⟩ := h
    have hle := (hf.step hk).2
    refine ⟨(hon k).mpr ⟨e, he, hge, by omega⟩, Or.inr (Bool.eq_false_iff.mpr fun hup => ?_)⟩
    obtain ⟨e', he', hge', hle'⟩ := (hon (k - 1)).mp hup
    have hfar := hapart e' e he' he (by omega)
    omega

/-- **The LED of the 10 Hz event.** For events at least 6000005 clocks of the receiver apart, the
LED is on in the 3000001 system clocks behind the edge that first sees the trigger of an event, and
in no others; and every event is seen. -/
theorem saLed_iff
    (hapart : ∀ t t', (ins t).event → (ins t').event → t < t' → t + 6000005 ≤ t') :
    (∀ k, sigOut ledLen (saLedIn s ins f) k = true ↔
        ∃ e j, (ins e).event ∧ Sees f e j ∧ j < k ∧ k ≤ j + 3000001) ∧
      ∀ e, (ins e).event → ∃ j, Sees f e j := by
  have hedge := edge_iff_sees hf hs hi fun t t' h h' hlt => by
    have := hapart t t' h h' hlt
    omega
  -- so far apart, every edge starts the LED
  have hstart : ∀ j, Starts ledLen (saLedIn s ins f) j ↔ ∃ e, (ins e).event ∧ Sees f e j := by
    intro j
    refine (taken_of_apart fun u t hu ht hlt => ?_).trans (hedge j)
    obtain ⟨e, he, hsees⟩ := (hedge u).mp hu
    obtain ⟨e', he', hsees'⟩ := (hedge t).mp ht
    have hmono := (hf.apart u (t - 1 - u)).1
    rw [Nat.add_sub_cancel' (by omega)] at hmono
    have horder : e < e' := by
      obtain ⟨-, -, hge⟩ := hsees
      obtain ⟨-, hbefore, -⟩ := hsees'
      omega
    exact hf.sees_apart hsees hsees' (hapart e e' he he' horder)
  refine ⟨fun k => ?_, fun e _ => hf.exists_sees e⟩
  rw [sigOut_iff fun _ => rfl]
  constructor
  · intro h
    obtain ⟨j, hj, hlt, hle⟩ := h
    obtain ⟨e, he, hsees⟩ := (hstart j).mp hj
    exact ⟨e, j, he, hsees, hlt, hle⟩
  · intro h
    obtain ⟨e, j, he, hsees, hlt, hle⟩ := h
    exact ⟨j, (hstart j).mpr ⟨e, he, hsees⟩, hlt, hle⟩

end

/-- The settings of the 10 Hz channel, and one event at edge 0. -/
def tenHertz (t : Nat) : ChanIn where
  reset := false
  eventStream := if t = 0 then 0x1E else 0
  myEvent := 0x1E
  myDelay := 1
  myWidth := 12
  myPolarity := false

/-- Five clocks of the receiver are four of the system. -/
def fiveToFour (k : Nat) : Nat := 5 * k / 4

theorem fiveToFour_sampling : Sampling fiveToFour := by
  refine ⟨rfl, fun k => ?_, fun k => ?_⟩
  · show 5 * k / 4 < 5 * (k + 1) / 4
    omega
  · show 5 * (k + 1) / 4 ≤ 5 * k / 4 + 2
    omega

theorem tenHertz_event {t : Nat} : (tenHertz t).event ↔ t = 0 := by
  unfold ChanIn.event tenHertz
  by_cases h : t = 0
  · exact iff_of_true (if_pos h).symm h
  · refine iff_of_false (fun he => ?_) h
    rw [if_neg h] at he
    cases he

theorem tenHertz_apart (t t' : Nat) (_ : (tenHertz t).event) (h' : (tenHertz t').event)
    (hlt : t < t') : t + 6000005 ≤ t' := by
  have hzero := tenHertz_event.mp h'
  omega

/-- The LED is on at clock 5, and off behind clock 3000005. -/
theorem saLed_tenHertz :
    sigOut ledLen (saLedIn .init tenHertz fiveToFour) 5 = true ∧
      ∀ k, 3000005 < k → sigOut ledLen (saLedIn .init tenHertz fiveToFour) k = false := by
  have hled := (saLed_iff fiveToFour_sampling init_idle (fun _ => ⟨rfl, rfl, rfl, rfl⟩)
    tenHertz_apart).1
  have hsees : Sees fiveToFour 0 4 := ⟨by decide, by decide, by decide⟩
  refine ⟨(hled 5).mpr ⟨0, 4, tenHertz_event.mpr rfl, hsees, by decide, by decide⟩,
    fun k hk => Bool.eq_false_iff.mpr fun hup => ?_⟩
  obtain ⟨e, j, he, hsees, -, hle⟩ := (hled k).mp hup
  obtain ⟨hpos, hbefore, -⟩ := hsees
  rw [tenHertz_event] at he
  have hj : 5 * (j - 1) / 4 < e + 4 := hbefore
  omega

end Acmi.Evr
