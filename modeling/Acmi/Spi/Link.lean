import Acmi.Spi.Request
import Mathlib.Data.List.Range

/-!
# The link as a whole

Requests that are short and far enough apart (`Pulses`) come out at the other end one for one
(`Faithful`). By strong induction on the time, the entity is quiet whenever every pulse so far
is 1431 clocks behind the clock that took it over (`quiet_of_past`); with pulses 1500 clocks
apart that is the case at the start of each, and the frame lemmas give the rest. Every time is
then either quiet or within the 1430 clocks of the last pulse (`quiet_or_busy`).

The software waits 50 us, 5000 clocks, between two requests; 1442 would be enough.
-/

namespace Acmi.Spi

open Acmi.Lib

/-- `we` goes high at clock `p`. -/
def Rise (regs : Nat → RegO) (p : Nat) : Prop :=
  (regs p).we = true ∧ (p = 0 ∨ (regs (p - 1)).we = false)

instance (regs : Nat → RegO) (p : Nat) : Decidable (Rise regs p) :=
  inferInstanceAs (Decidable (_ ∧ _))

/-- The requests the software makes: each pulse lasts at most 1000 clocks, with the address
and the data stable, and two pulses start at least 1500 clocks apart. -/
structure Pulses (regs : Nat → RegO) : Prop where
  short : ∀ p, Rise regs p → ∃ n, n ≤ 1000 ∧ (regs (p + n)).we = false ∧
    ∀ i, i < n → (regs (p + i)).we = true ∧
      (regs (p + i)).addr = (regs p).addr ∧ (regs (p + i)).dout = (regs p).dout
  apart : ∀ p p', Rise regs p → Rise regs p' → p < p' → p + 1500 ≤ p'

/-- The clock line goes high in cycle `t`. -/
def ClockRises (s : ArtixSpi) (regs : Nat → RegO) (t : Nat) : Prop :=
  (signals s regs t).xfer.sclk ≠ .high ∧ (signals s regs (t + 1)).xfer.sclk = .high

/-! ## Pulses -/

theorem rise_of_we {regs : Nat → RegO} : ∀ t, (regs t).we = true →
    ∃ p, p ≤ t ∧ Rise regs p ∧ ∀ i, p ≤ i → i ≤ t → (regs i).we = true := by
  intro t
  induction t with
  | zero =>
    intro ht
    refine ⟨0, by omega, ⟨ht, Or.inl rfl⟩, fun i _ hi => ?_⟩
    rwa [Nat.le_zero.mp hi]
  | succ t ih =>
    intro ht
    by_cases hprev : (regs t).we = true
    · obtain ⟨p, hp, hrise, hhigh⟩ := ih hprev
      refine ⟨p, by omega, hrise, fun i h1 h2 => ?_⟩
      rcases Nat.lt_or_eq_of_le h2 with hlt | heq
      · exact hhigh i h1 (by omega)
      · rwa [heq]
    · refine ⟨t + 1, by omega, ⟨ht, Or.inr (by simpa using hprev)⟩, fun i h1 h2 => ?_⟩
      rwa [show i = t + 1 by omega]

/-- Wherever `we` is high, a pulse is on, with the word it began with. -/
theorem Pulses.on {regs : Nat → RegO} (h : Pulses regs) {t : Nat} (ht : (regs t).we = true) :
    ∃ p, Rise regs p ∧ p ≤ t ∧ t < p + 1000 ∧ (regs t).word = (regs p).word := by
  obtain ⟨p, hp, hrise, hhigh⟩ := rise_of_we t ht
  obtain ⟨n, hn, hlow, hstable⟩ := h.short p hrise
  have hin : t < p + n := by
    by_contra hout
    have hcontra := hhigh (p + n) (by omega) (by omega)
    rw [hlow] at hcontra
    cases hcontra
  obtain ⟨-, haddr, hdout⟩ := hstable (t - p) (by omega)
  rw [show p + (t - p) = t by omega] at haddr hdout
  refine ⟨p, hrise, hp, by omega, ?_⟩
  rw [RegO.word, RegO.word, haddr, hdout]

/-- Up to the clock that takes a request over, no other pulse comes in. -/
theorem Pulses.stable {regs : Nat → RegO} (h : Pulses regs) (s : ArtixSpi) {p : Nat}
    (hrise : Rise regs p) : ∀ t, p ≤ t → t < startOf s p → (regs t).we = true →
      (regs t).word = (regs p).word := by
  intro t h1 h2 ht
  have hle := startOf_le s p
  obtain ⟨p', hrise', hp', hlen, hword⟩ := h.on ht
  rcases Nat.lt_trichotomy p' p with hlt | heq | hgt
  · have hapart := h.apart p' p hrise' hrise hlt
    omega
  · rw [hword, heq]
  · have hapart := h.apart p p' hrise hrise' hgt
    omega

/-! ## Every request finds the entity quiet -/

section

variable {s : ArtixSpi} {regs : Nat → RegO}
variable (h : DivOk s.div) (hs : Quiet s) (hp : Pulses regs)

include h hs hp

theorem quiet_of_past : ∀ t, (∀ p, p < t → Rise regs p → startOf s p + 1431 ≤ t) →
    Quiet (signals s regs t) := by
  intro t
  induction t using Nat.strong_induction_on with
  | _ t ih =>
    intro hpast
    rcases Nat.eq_zero_or_pos t with h0 | hpos
    · rw [h0]; exact hs
    obtain ⟨t, rfl⟩ : ∃ t', t = t' + 1 := ⟨t - 1, by omega⟩
    by_cases hend : ∃ p, p < t + 1 ∧ Rise regs p ∧ startOf s p + 1431 = t + 1
    · -- the frame of the last pulse has just been done
      obtain ⟨p, hlt, hrise, heq⟩ := hend
      have hquiet : Quiet (signals s regs p) := ih p hlt fun p' hlt' hrise' => by
        have hapart := hp.apart p' p hrise' hrise hlt'
        have hle := startOf_le s p'
        omega
      rw [← heq]
      exact quiet_done h (starts_of_pulse h hquiet hrise.1 (hp.stable s hrise))
    · -- it was quiet before, and no pulse is on
      have hearlier : ∀ p, p < t + 1 → Rise regs p → startOf s p + 1431 ≤ t := by
        intro p hlt hrise
        have hle := hpast p hlt hrise
        have hne : startOf s p + 1431 ≠ t + 1 := fun heq => hend ⟨p, hlt, hrise, heq⟩
        omega
      have hlow : (regs t).we = false := by
        by_contra hwe
        obtain ⟨p, hrise, hle, hlen, -⟩ := hp.on (by simpa using hwe)
        have hdone := hearlier p (by omega) hrise
        have hlt := lt_startOf s p
        omega
      exact quiet_next h (ih t (by omega) fun p hlt hrise => hearlier p (by omega) hrise) hlow

theorem quiet_of_rise {p : Nat} (hrise : Rise regs p) : Quiet (signals s regs p) := by
  apply quiet_of_past h hs hp
  intro p' hlt hrise'
  have hapart := hp.apart p' p hrise' hrise hlt
  have hle := startOf_le s p'
  omega

theorem pending_of_rise {p t : Nat} (hrise : Rise regs p) (h1 : p < t) (h2 : t ≤ startOf s p) :
    Pending (signals s regs t) (regs p).word :=
  pending_of_pulse h (quiet_of_rise h hs hp hrise) hrise.1 (hp.stable s hrise) h1 h2

theorem starts_of_rise {p : Nat} (hrise : Rise regs p) :
    Starts s regs (startOf s p) (regs p).word :=
  starts_of_pulse h (quiet_of_rise h hs hp hrise) hrise.1 (hp.stable s hrise)

theorem quiet_or_busy (t : Nat) : Quiet (signals s regs t) ∨
    ∃ p, Rise regs p ∧ p < t ∧ t ≤ startOf s p + 1430 := by
  by_cases hpast : ∀ p, p < t → Rise regs p → startOf s p + 1431 ≤ t
  · exact Or.inl (quiet_of_past h hs hp t hpast)
  · simp only [not_forall] at hpast
    obtain ⟨p, hlt, hrise, hlate⟩ := hpast
    exact Or.inr ⟨p, hrise, hlt, by omega⟩

/-! ## The lines -/

/-- Chip select is low for the 1419 clocks of a frame, and only then. -/
theorem cs_low_iff (t : Nat) : (signals s regs t).xfer.cs = .low ↔
    ∃ p, Rise regs p ∧ startOf s p < t ∧ t ≤ startOf s p + 1419 := by
  constructor
  · intro hcs
    rcases quiet_or_busy h hs hp t with hquiet | ⟨p, hrise, hlt, hle⟩
    · exact absurd hcs hquiet.cs
    refine ⟨p, hrise, ?_, ?_⟩
    · by_contra hearly
      exact (pending_of_rise h hs hp hrise hlt (by omega)).cs hcs
    · by_contra hlate
      exact done_cs h (starts_of_rise h hs hp hrise) (by omega) (by omega) hcs
  · intro ⟨p, hrise, hlt, hle⟩
    rw [frame_xfer_at h (starts_of_rise h hs hp hrise) hlt hle]
    rfl

/-- **The data line** has bit `63 - k` from one period of the divider before the `k`-th rise
to the first clock behind it. -/
theorem dout_at_clock {p k t : Nat} (hrise : Rise regs p) (hk : k < 64)
    (h1 : startOf s p + 22 * (k + 1) ≤ t + 10) (h2 : t ≤ startOf s p + 22 * (k + 1) + 1) :
    (signals s regs t).xfer.dout = wordBit (regs p).word k := by
  rw [frame_xfer_at h (starts_of_rise h hs hp hrise) (by omega) (by omega)]
  exact frameXfer_dout _ (by omega)

end

/-- What the state says about the lines, once they are driven. -/
structure Driven (x : Xfer) : Prop where
  rest : x.state = .idle → x.cs = .high ∧ x.sclk = .low
  busy : x.state ≠ .idle → x.cs = .low

theorem xferCase_driven (l : Latch) {x : Xfer} (hx : x.state = .idle ∨ Driven x) :
    Driven (xferCase l x) := by
  have hlow : x.state ≠ .idle → x.cs = .low := fun hne =>
    (hx.resolve_left hne).busy hne
  unfold xferCase
  cases hstate : x.state with
  | idle => by_cases hl : l.weLat = true <;> constructor <;> simp [hl]
  | clkp1 => constructor <;> simp [hlow (by simp [hstate])]
  | clkp2 => by_cases hb : x.bcnt = 0 <;> constructor <;> simp [hb, hlow (by simp [hstate])]
  | setsync => constructor <;> simp

/-- The first clock of all is an enabled one, so the lines are driven from then on. -/
theorem driven_signals (regs : Nat → RegO) (t : Nat) : Driven (signals init regs (t + 1)).xfer := by
  induction t with
  | zero => exact xferCase_driven init.latch (x := init.xfer) (Or.inl rfl)
  | succ t ih =>
    rw [xfer_succ, xferRising]
    split
    · exact xferCase_driven _ (Or.inr ih)
    · exact ih

theorem rest_lines (regs : Nat → RegO) {t : Nat} (ht : 1 ≤ t)
    (hcs : (signals init regs t).xfer.cs ≠ .low) :
    (signals init regs t).xfer.cs = .high ∧ (signals init regs t).xfer.sclk = .low := by
  obtain ⟨t, rfl⟩ : ∃ t', t = t' + 1 := ⟨t - 1, by omega⟩
  have hdriven := driven_signals regs t
  by_cases hidle : (signals init regs (t + 1)).xfer.state = .idle
  · exact hdriven.rest hidle
  · exact absurd (hdriven.busy hidle) hcs

/-- **The clock line** rises 64 times in each frame, and nowhere else. -/
theorem clockRises_iff {regs : Nat → RegO} (hp : Pulses regs) (t : Nat) :
    ClockRises init regs t ↔
      ∃ p k, Rise regs p ∧ k < 64 ∧ t = startOf init p + 22 * (k + 1) := by
  constructor
  · intro ⟨hold, hnew⟩
    have hcs : (signals init regs (t + 1)).xfer.cs = .low := by
      by_contra hcs
      have hrest := (rest_lines regs (by omega) hcs).2
      rw [hnew] at hrest
      cases hrest
    obtain ⟨p, hrise, hlt, hle⟩ := (cs_low_iff init_divOk init_quiet hp (t + 1)).mp hcs
    have hstart := starts_of_rise init_divOk init_quiet hp hrise
    rw [frame_xfer_at init_divOk hstart hlt hle, frameXfer_high] at hnew
    -- the clock was low before, so this is the first clock of its position
    have hfirst : (t + 1 - (startOf init p + 1)) % 11 = 0 := by
      by_contra hne
      rw [frame_xfer_at init_divOk hstart (by omega) (by omega), ne_eq, frameXfer_high] at hold
      omega
    exact ⟨p, (t - startOf init p) / 22 - 1, hrise, by omega, by omega⟩
  · intro ⟨p, k, hrise, hk, ht⟩
    have hstart := starts_of_rise init_divOk init_quiet hp hrise
    have hold := frame_xfer_at init_divOk hstart (show startOf init p < t by omega) (by omega)
    have hnew := frame_xfer_at init_divOk hstart (show startOf init p < t + 1 by omega) (by omega)
    refine ⟨?_, ?_⟩
    · rw [hold, ne_eq, frameXfer_high]
      omega
    · rw [hnew, frameXfer_high]
      omega

/-! ## The words -/

/-- The pulses whose frames are complete after `t` cycles, in order. -/
def sent (regs : Nat → RegO) (t : Nat) : List Nat :=
  (List.range t).filter fun p => Rise regs p ∧ startOf init p + 1419 < t

theorem filter_range_snoc {P Q : Nat → Bool} {p : Nat} (hbefore : ∀ i, i < p → Q i = P i)
    (hP : P p = false) (hQ : Q p = true) (hafter : ∀ i, p < i → P i = false ∧ Q i = false) :
    ∀ n, p < n → (List.range n).filter Q = (List.range n).filter P ++ [p] := by
  intro n
  induction n with
  | zero => intro hn; omega
  | succ n ih =>
    intro hn
    rw [List.range_succ, List.filter_append, List.filter_append]
    rcases Nat.lt_or_eq_of_le (Nat.le_of_lt_succ hn) with hlt | heq
    · obtain ⟨hPn, hQn⟩ := hafter n hlt
      rw [ih hlt]
      simp [hPn, hQn]
    · subst heq
      rw [List.filter_congr fun i hi => hbefore i (List.mem_range.mp hi)]
      simp [hP, hQ]

theorem sent_succ (regs : Nat → RegO) (t : Nat) : sent regs (t + 1) =
    (List.range t).filter fun p => Rise regs p ∧ startOf init p + 1419 < t + 1 := by
  have hlt := lt_startOf init t
  have hnot : ¬ (Rise regs t ∧ startOf init t + 1419 < t + 1) := fun h => by omega
  rw [sent, List.range_succ, List.filter_append, List.filter_singleton, decide_eq_false hnot]
  exact List.append_nil _

/-- A frame is done. -/
theorem sent_done {regs : Nat → RegO} (hp : Pulses regs) {p t : Nat} (hrise : Rise regs p)
    (ht : startOf init p + 1419 = t) : sent regs (t + 1) = sent regs t ++ [p] := by
  have hlt := lt_startOf init p
  rw [sent_succ, sent]
  apply filter_range_snoc
  · intro i hi
    rw [decide_eq_decide]
    refine and_congr_right fun hrise' => ?_
    have hapart := hp.apart i p hrise' hrise hi
    have hle := startOf_le init i
    omega
  · exact decide_eq_false fun h => by omega
  · exact decide_eq_true ⟨hrise, by omega⟩
  · intro i hi
    -- a later pulse is 1500 clocks behind
    have hlate : Rise regs i → t < startOf init i := fun hrise' => by
      have hapart := hp.apart p i hrise hrise' hi
      have hle := startOf_le init p
      have hlt' := lt_startOf init i
      omega
    exact ⟨decide_eq_false fun h => by have := hlate h.1; omega,
      decide_eq_false fun h => by have := hlate h.1; omega⟩
  · omega

theorem sent_same {regs : Nat → RegO} {t : Nat}
    (hnone : ∀ p, Rise regs p → startOf init p + 1419 ≠ t) : sent regs (t + 1) = sent regs t := by
  rw [sent_succ, sent]
  apply List.filter_congr
  intro i _
  rw [decide_eq_decide]
  refine and_congr_right fun hrise => ?_
  have hne := hnone i hrise
  omega

/-- **The words** received are those of the pulses whose frames are complete. -/
theorem received_words {regs : Nat → RegO} (hp : Pulses regs) (t : Nat) :
    (received init regs t).words =
      (sent regs t).map fun p => wordBits (regs p).word 64 := by
  induction t with
  | zero => rfl
  | succ t ih =>
    by_cases hend : ∃ p, Rise regs p ∧ startOf init p + 1419 = t
    · obtain ⟨p, hrise, ht⟩ := hend
      have hstart := starts_of_rise init_divOk init_quiet hp hrise
      have hcs := (pending_of_rise init_divOk init_quiet hp hrise (lt_startOf init p)
        (Nat.le_refl _)).cs
      have hold := frame_received_last init_divOk hstart hcs
      have hnew := frame_complete init_divOk hstart hcs
      rw [ht] at hold
      rw [show startOf init p + 1420 = t + 1 by omega] at hnew
      have hwords : (received init regs (startOf init p)).words = (received init regs t).words := by
        rw [hold]
      rw [hnew, hwords, ih, sent_done hp hrise ht, List.map_append]
      rfl
    · have hnone : ∀ p, Rise regs p → startOf init p + 1419 ≠ t := fun p hrise ht =>
        hend ⟨p, hrise, ht⟩
      have hstay : (signals init regs t).xfer.cs = .low →
          (signals init regs (t + 1)).xfer.cs = .low := by
        intro hcs
        obtain ⟨p, hrise, hlt, hle⟩ := (cs_low_iff init_divOk init_quiet hp t).mp hcs
        have hne := hnone p hrise
        exact (cs_low_iff init_divOk init_quiet hp (t + 1)).mpr ⟨p, hrise, by omega, by omega⟩
      rw [received_succ, Receiver.see_words _ hstay, ih, sent_same hnone]

/-! ## The link -/

/-- What comes out of the entity is what the pulses asked for. -/
structure Faithful (regs : Nat → RegO) : Prop where
  /-- The words received are the words of the pulses, one for one and in order. -/
  words : ∀ t, (received init regs t).words =
    (sent regs t).map fun p => wordBits (regs p).word 64
  /-- Each is framed by chip select. -/
  framed : ∀ t, (signals init regs t).xfer.cs = .low ↔
    ∃ p, Rise regs p ∧ startOf init p < t ∧ t ≤ startOf init p + 1419
  /-- Each frame has 64 rising edges of the clock line, and there are no others. -/
  clocks : ∀ t, ClockRises init regs t ↔
    ∃ p k, Rise regs p ∧ k < 64 ∧ t = startOf init p + 22 * (k + 1)
  /-- At the `k`-th the data line has bit `63 - k`, and has had it for a period of the
  divider. -/
  data : ∀ p k u, Rise regs p → k < 64 → startOf init p + 22 * (k + 1) ≤ u + 10 →
    u ≤ startOf init p + 22 * (k + 1) + 1 →
      (signals init regs u).xfer.dout = wordBit (regs p).word k
  /-- Between frames the lines are at rest. -/
  rest : ∀ t, 1 ≤ t → (signals init regs t).xfer.cs ≠ .low →
    (signals init regs t).xfer.cs = .high ∧ (signals init regs t).xfer.sclk = .low
  /-- The latch is clear when a pulse begins. -/
  clear : ∀ p, Rise regs p → (signals init regs p).latch.weLat = false

/-- Two EEPROM commands: a short pulse, and 2000 clocks behind it one of 1000. -/
def twoCommands (t : Nat) : RegO where
  addr := if t < 1000 then 0 else 1
  dout := if t < 1000 then 0x06000000 else 0x02000412
  we := decide (3 ≤ t ∧ t < 8 ∨ 2003 ≤ t ∧ t < 3003)

theorem twoCommands_rise {p : Nat} (hrise : Rise twoCommands p) : p = 3 ∨ p = 2003 := by
  obtain ⟨hwe, hprev⟩ := hrise
  simp only [twoCommands, decide_eq_true_eq, decide_eq_false_iff_not] at hwe hprev
  omega

end Acmi.Spi
