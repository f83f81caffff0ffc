import Acmi.Spi.ArtixSpi

/-!
# One frame

What the entity does from the clock at which it sees a request to the clock at which it is
ready for the next. The transfer process only moves at an enabled clock, one in eleven, so
its signals are constant over the eleven clocks behind one (`xfer_period`), and a frame is
the sequence of its 129 positions `frameXfer w 0 .. frameXfer w 128`, one for each enabled
clock: the start, then a clock-low and a clock-high position for each of the 64 bits.

All statements are about a run `signals s regs` from a state `s` whose divider counts as it
should; times are absolute. `Starts s regs e w` says that `e` is an enabled clock at which the
process is idle and the word `w` is latched; the lines, the latch and the receiver behind it
follow from that alone, whatever the registers do meanwhile.
-/

namespace Acmi.Spi

open Acmi.Lib

/-! ## Single clocks -/

theorem signals_succ (s : ArtixSpi) (regs : Nat → RegO) (t : Nat) :
    signals s regs (t + 1) = cycle (signals s regs t) (regs t) := rfl

theorem xfer_succ (s : ArtixSpi) (regs : Nat → RegO) (t : Nat) :
    (signals s regs (t + 1)).xfer = xferRising (signals s regs t) := rfl

/-- The latch after a clock: cleared when the clear was up at either of its edges. -/
theorem latch_succ (s : ArtixSpi) (regs : Nat → RegO) (t : Nat) :
    (signals s regs (t + 1)).latch =
      if (signals s regs t).xfer.weLatClr ∨ (signals s regs (t + 1)).xfer.weLatClr then
        ⟨false, 0⟩
      else if (regs t).we then ⟨true, (regs t).word⟩
      else (signals s regs t).latch := by
  rw [xfer_succ, signals_succ, cycle, falling, rising]
  simp only [latchFalling, latchRising]
  by_cases hold : (signals s regs t).xfer.weLatClr = true <;>
    by_cases hnew : (xferRising (signals s regs t)).weLatClr = true <;> simp [hold, hnew]

/-! ## The divider -/

/-- The divider counts to ten, and its enable is up while it is at zero. -/
structure DivOk (d : Div) : Prop where
  count : d.clkCnt.toNat ≤ 10
  enb : d.clkEnb = decide (d.clkCnt.toNat = 0)

theorem divRising_count {d : Div} (h : DivOk d) :
    (divRising d).clkCnt.toNat = (d.clkCnt.toNat + 1) % 11 := by
  have hcount := h.count
  have hten : (10#8).toNat = 10 := rfl
  unfold divRising
  by_cases h10 : d.clkCnt = 10
  · rw [if_pos h10, h10]
    rfl
  · have hne : d.clkCnt.toNat ≠ 10 := fun e => h10 (BitVec.eq_of_toNat_eq (e.trans hten.symm))
    rw [if_neg h10, BitVec.toNat_add]
    show (d.clkCnt.toNat + 1) % 2 ^ 8 = _
    omega

theorem divRising_ok {d : Div} (h : DivOk d) : DivOk (divRising d) := by
  have hcount := divRising_count h
  have hten : (10#8).toNat = 10 := rfl
  refine ⟨by omega, ?_⟩
  have hold := h.count
  rw [hcount]
  unfold divRising
  by_cases h10 : d.clkCnt = 10
  · rw [if_pos h10, h10]
    rfl
  · have hne : d.clkCnt.toNat ≠ 10 := fun e => h10 (BitVec.eq_of_toNat_eq (e.trans hten.symm))
    rw [if_neg h10]
    have hpos : ¬ (d.clkCnt.toNat + 1) % 11 = 0 := by omega
    simp [hpos]

/-- The count of the divider at time `t`. -/
def count (s : ArtixSpi) (t : Nat) : Nat := (s.div.clkCnt.toNat + t) % 11

theorem div_signals {s : ArtixSpi} (h : DivOk s.div) (regs : Nat → RegO) (t : Nat) :
    DivOk (signals s regs t).div ∧ (signals s regs t).div.clkCnt.toNat = count s t := by
  induction t with
  | zero =>
    have hcount := h.count
    refine ⟨h, ?_⟩
    show s.div.clkCnt.toNat = (s.div.clkCnt.toNat + 0) % 11
    omega
  | succ t ih =>
    obtain ⟨hok, hc⟩ := ih
    refine ⟨divRising_ok hok, ?_⟩
    show (divRising (signals s regs t).div).clkCnt.toNat = _
    rw [divRising_count hok, hc]
    unfold count
    omega

theorem enb_signals {s : ArtixSpi} (h : DivOk s.div) (regs : Nat → RegO) (t : Nat) :
    (signals s regs t).div.clkEnb = decide (count s t = 0) := by
  obtain ⟨hok, hc⟩ := div_signals h regs t
  rw [hok.enb, hc]

/-- Between enabled clocks the transfer process holds its signals. -/
theorem xfer_hold {s : ArtixSpi} (h : DivOk s.div) (regs : Nat → RegO) {t : Nat}
    (ht : count s t ≠ 0) : (signals s regs (t + 1)).xfer = (signals s regs t).xfer := by
  rw [xfer_succ, xferRising, enb_signals h, if_neg (by simpa using ht)]

theorem xfer_enabled {s : ArtixSpi} (h : DivOk s.div) (regs : Nat → RegO) {t : Nat}
    (ht : count s t = 0) : (signals s regs (t + 1)).xfer
      = xferCase (signals s regs t).latch (signals s regs t).xfer := by
  rw [xfer_succ, xferRising, enb_signals h, if_pos (by simpa using ht)]

/-- Over the eleven clocks behind an enabled one the signals of the transfer process are
what that clock made of them. -/
theorem xfer_period {s : ArtixSpi} (h : DivOk s.div) (regs : Nat → RegO) {t : Nat}
    (ht : count s t = 0) : ∀ r, 1 ≤ r → r ≤ 11 → (signals s regs (t + r)).xfer
      = xferCase (signals s regs t).latch (signals s regs t).xfer := by
  intro r
  induction r with
  | zero => intro h1 _; omega
  | succ r ih =>
    intro _ hr
    by_cases h0 : r = 0
    · rw [h0]
      exact xfer_enabled h regs ht
    · have hne : count s (t + r) ≠ 0 := by
        unfold count at ht ⊢
        omega
      rw [← Nat.add_assoc, xfer_hold h regs hne]
      exact ih (by omega) (by omega)

/-! ## The positions of a frame -/

/-- The signals of the transfer process at position `q` of a frame with word `w`. Odd
positions have the clock low and bit `64 - (q + 1) / 2` just put out, even ones from `2` on
have it high. -/
def frameXfer (w : BitVec 64) (q : Nat) : Xfer where
  state := if q % 2 = 1 then .clkp2 else if q = 128 then .setsync else .clkp1
  treg := w <<< ((q + 1) / 2)
  bcnt := if q % 2 = 1 then 64 - (q + 1) / 2 else 63 - (q + 1) / 2
  weLatClr := decide (q = 128)
  sclk := if q = 0 ∨ q % 2 = 1 then .low else .high
  dout := if q = 0 then .low else .ofBit (w.getLsbD (64 - (q + 1) / 2))
  cs := .low

/-- The signals behind a frame, until the next enabled clock. -/
def doneXfer (w : BitVec 64) : Xfer :=
  ⟨.idle, w <<< 64, 0, true, .low, .ofBit (w.getLsbD 0), .high⟩

theorem frameXfer_high (w : BitVec 64) (q : Nat) :
    (frameXfer w q).sclk = .high ↔ q ≠ 0 ∧ q % 2 = 0 := by
  unfold frameXfer
  by_cases hlow : q = 0 ∨ q % 2 = 1
  · rw [if_pos hlow]
    exact ⟨fun h => (by cases h), fun _ => by omega⟩
  · rw [if_neg hlow]
    exact ⟨fun _ => by omega, fun _ => rfl⟩

theorem msb_shift (w : BitVec 64) {k : Nat} (hk : k < 64) : (w <<< k).msb = w.getLsbD (63 - k) := by
  rw [BitVec.msb_eq_getLsbD_last, BitVec.getLsbD_shiftLeft]
  have h1 : (64 - 1 < 64) = True := by simp
  have h2 : ¬ 64 - 1 < k := by omega
  simp [h2]

/-- **One position to the next.** -/
theorem xferCase_frame (l : Latch) (w : BitVec 64) {q : Nat} (hq : q < 128) :
    xferCase l (frameXfer w q) = frameXfer w (q + 1) := by
  obtain ⟨k, rfl | rfl⟩ : ∃ k, q = 2 * k ∨ q = 2 * k + 1 := ⟨q / 2, by omega⟩
  · -- the clock is high or the frame has just begun: put out bit `63 - k`
    have h1 : ¬ 2 * k % 2 = 1 := by omega
    have h2 : (2 * k + 1) % 2 = 1 := by omega
    have h3 : ¬ 2 * k = 128 := by omega
    have h4 : (2 * k + 1 + 1) / 2 = k + 1 := by omega
    have h5 : (2 * k + 1) / 2 = k := by omega
    have h6 : ¬ 2 * k + 1 = 128 := by omega
    have hmsb := msb_shift w (by omega : k < 64)
    simp only [xferCase, frameXfer, if_neg h1, if_pos h2, if_neg h3, h4, h5, hmsb]
    simp [h3, h6, BitVec.shiftLeft_add]
  · -- the clock is low: raise it
    have h1 : (2 * k + 1) % 2 = 1 := by omega
    have h2 : ¬ (2 * k + 1 + 1) % 2 = 1 := by omega
    have h4 : (2 * k + 1 + 1) / 2 = k + 1 := by omega
    have h5 : (2 * k + 1 + 1 + 1) / 2 = k + 1 := by omega
    simp only [xferCase, frameXfer, if_pos h1, if_neg h2, h4, h5]
    by_cases hlast : k = 63
    · subst hlast
      simp
    · have h6 : ¬ 64 - (k + 1) = 0 := by omega
      have h7 : ¬ 2 * k + 1 + 1 = 128 := by omega
      have h8 : 64 - (k + 1) - 1 = 63 - (k + 1) := by omega
      have h9 : ¬ 2 * k + 1 = 128 := by omega
      have h10 : ¬ (2 * k + 1 + 1 = 0 ∨ (2 * k + 1 + 1) % 2 = 1) := by omega
      rw [if_neg h6, if_neg h7, if_neg h10, h8]
      simp [h7, h9]

theorem xferCase_last (l : Latch) (w : BitVec 64) :
    xferCase l (frameXfer w 128) = doneXfer w := by
  simp [xferCase, frameXfer, doneXfer]

/-- An idle process with a request latched takes the word over. -/
theorem xferCase_start {x : Xfer} (w : BitVec 64) (hx : x.state = .idle) :
    xferCase ⟨true, w⟩ x = frameXfer w 0 := by
  simp [xferCase, hx, frameXfer]

/-- An idle process with no request latched rests its lines. -/
theorem xferCase_idle {l : Latch} {x : Xfer} (hl : l.weLat = false) (hx : x.state = .idle) :
    xferCase l x = { x with dout := .low, sclk := .low, cs := .high, weLatClr := false } := by
  simp [xferCase, hx, hl]

/-! ## A frame in time -/

/-- At the enabled clock `e` the process is idle and `w` is latched. -/
structure Starts (s : ArtixSpi) (regs : Nat → RegO) (e : Nat) (w : BitVec 64) : Prop where
  enabled : count s e = 0
  idle : (signals s regs e).xfer.state = .idle
  latch : (signals s regs e).latch = ⟨true, w⟩

section

variable {s : ArtixSpi} {regs : Nat → RegO} {e : Nat} {w : BitVec 64}

theorem Starts.enabled_add (hs : Starts s regs e w) (n : Nat) : count s (e + 11 * n) = 0 := by
  have h0 := hs.enabled
  unfold count at h0 ⊢
  omega

variable (h : DivOk s.div) (hs : Starts s regs e w)

include h hs

/-- The transfer process from one clock behind `e` on, until chip select is released. -/
theorem frame_xfer : ∀ q, q ≤ 128 → ∀ r, 1 ≤ r → r ≤ 11 →
    (signals s regs (e + 11 * q + r)).xfer = frameXfer w q := by
  intro q
  induction q with
  | zero =>
    intro _ r hr1 hr
    rw [Nat.mul_zero, Nat.add_zero, xfer_period h regs hs.enabled r hr1 hr, hs.latch]
    exact xferCase_start w hs.idle
  | succ q ih =>
    intro hq r hr1 hr
    have hprev := ih (by omega) 11 (by omega) (by omega)
    rw [show e + 11 * q + 11 = e + 11 * (q + 1) by omega] at hprev
    rw [xfer_period h regs (hs.enabled_add (q + 1)) r hr1 hr, hprev]
    exact xferCase_frame _ w (by omega)

/-- The same with the position read off the time. -/
theorem frame_xfer_at {t : Nat} (h1 : e < t) (h2 : t ≤ e + 1419) :
    (signals s regs t).xfer = frameXfer w ((t - (e + 1)) / 11) := by
  have hframe := frame_xfer h hs ((t - (e + 1)) / 11) (by omega) ((t - (e + 1)) % 11 + 1)
    (by omega) (by omega)
  rwa [show e + 11 * ((t - (e + 1)) / 11) + ((t - (e + 1)) % 11 + 1) = t by omega] at hframe

/-- The eleven clocks behind a frame. -/
theorem done_xfer_at {t : Nat} (h1 : e + 1420 ≤ t) (h2 : t ≤ e + 1430) :
    (signals s regs t).xfer = doneXfer w := by
  have hlast := frame_xfer_at h hs (show e < e + 11 * 129 by omega) (Nat.le_refl _)
  rw [show (e + 11 * 129 - (e + 1)) / 11 = 128 by omega] at hlast
  have hdone := xfer_period h regs (hs.enabled_add 129) (t - (e + 1419)) (by omega) (by omega)
  rw [hlast, xferCase_last, show e + 11 * 129 + (t - (e + 1419)) = t by omega] at hdone
  exact hdone

/-- The transfer process holds the clear of the latch up for the last 22 clocks. -/
theorem frame_clears {t : Nat} (h1 : e + 1409 ≤ t) (h2 : t ≤ e + 1430) :
    (signals s regs t).xfer.weLatClr = true := by
  by_cases hset : t ≤ e + 1419
  · rw [frame_xfer_at h hs (by omega) hset, show (t - (e + 1)) / 11 = 128 by omega]
    rfl
  · rw [done_xfer_at h hs (by omega) h2]
    rfl

/-- So the request is gone at the end, also when `we` has been high all along. -/
theorem frame_latch {t : Nat} (h1 : e + 1409 ≤ t) (h2 : t ≤ e + 1431) :
    (signals s regs t).latch = ⟨false, 0⟩ := by
  obtain ⟨t, rfl⟩ : ∃ t', t = t' + 1 := ⟨t - 1, by omega⟩
  rw [latch_succ]
  by_cases hnew : t + 1 ≤ e + 1430
  · rw [if_pos (Or.inr (frame_clears h hs h1 hnew))]
  · rw [if_pos (Or.inl (frame_clears h hs (by omega) (by omega)))]

end

/-! ## What the receiver gets -/

/-- The `k`-th bit of a frame with word `w`. -/
def wordBit (w : BitVec 64) (k : Nat) : Logic := .ofBit (w.getLsbD (63 - k))

/-- The first `n` bits of a frame. -/
def wordBits (w : BitVec 64) (n : Nat) : List Logic := (List.range n).map (wordBit w)

theorem wordBits_succ (w : BitVec 64) (n : Nat) :
    wordBits w (n + 1) = wordBits w n ++ [wordBit w n] := by
  unfold wordBits
  rw [List.range_succ, List.map_append]
  rfl

theorem received_succ (s : ArtixSpi) (regs : Nat → RegO) (t : Nat) : received s regs (t + 1) =
    (received s regs t).see (signals s regs t).lines (signals s regs (t + 1)).lines := rfl

theorem frameXfer_dout (w : BitVec 64) {q k : Nat} (hq : q = 2 * k + 1 ∨ q = 2 * k + 2) :
    (frameXfer w q).dout = wordBit w k := by
  have hne : ¬ q = 0 := by omega
  have hk : 64 - (q + 1) / 2 = 63 - k := by omega
  simp only [frameXfer, wordBit, if_neg hne, hk]

theorem lines_cs (s : ArtixSpi) : s.lines.cs = s.xfer.cs := rfl

/-- The lines only change from one position to the next. The clock rises at the end of the
odd ones, with the bit of that position on the data line. -/
theorem frame_edge {w : BitVec 64} (r : Receiver) {q : Nat} (hq : q < 128) :
    let lines (x : Xfer) : Lines := ⟨x.cs, x.sclk, x.dout⟩
    r.see (lines (frameXfer w q)) (lines (frameXfer w (q + 1))) =
      if q % 2 = 1 then { r with bits := r.bits ++ [wordBit w (q / 2)] } else r := by
  intro lines
  by_cases hodd : q % 2 = 1
  · have hnext : ¬ (q + 1 = 0 ∨ (q + 1) % 2 = 1) := by omega
    rw [if_pos hodd, Receiver.see_bit r rfl rfl]
    · rw [← frameXfer_dout w (show q + 1 = 2 * (q / 2) + 1 ∨ q + 1 = 2 * (q / 2) + 2 by omega)]
    · simp [lines, frameXfer, hodd]
    · simp only [lines, frameXfer, if_neg hnext]
  · have hnext : (q + 1) % 2 = 1 := by omega
    rw [if_neg hodd, Receiver.see_clock_low r rfl rfl]
    simp [lines, frameXfer, hnext]

section

variable {s : ArtixSpi} {regs : Nat → RegO} {e : Nat} {w : BitVec 64}
variable (h : DivOk s.div) (hs : Starts s regs e w) (hcs : (signals s regs e).xfer.cs ≠ .low)

include h hs hcs

/-- **The receiver over a frame**: at each position it has the bits whose clocks have risen. -/
theorem frame_received : ∀ j, j < 1419 → received s regs (e + 1 + j) =
    ⟨wordBits w (j / 11 / 2), (received s regs e).words⟩ := by
  intro j
  induction j with
  | zero =>
    intro _
    have hnew : (signals s regs (e + 1)).lines.cs = .low := by
      rw [lines_cs, frame_xfer_at h hs (by omega) (by omega)]
      rfl
    rw [Nat.add_zero, received_succ, Receiver.see_start _ hcs hnew]
    rfl
  | succ j ih =>
    intro hj
    have hold := frame_xfer_at h hs (show e < e + 1 + j by omega) (by omega)
    have hnew := frame_xfer_at h hs (show e < e + 1 + j + 1 by omega) (by omega)
    rw [Nat.add_sub_cancel_left] at hold
    rw [Nat.add_assoc (e + 1), Nat.add_sub_cancel_left, ← Nat.add_assoc] at hnew
    rw [← Nat.add_assoc, received_succ, ih (by omega), ArtixSpi.lines, ArtixSpi.lines, hold, hnew]
    by_cases hsame : (j + 1) / 11 = j / 11
    · rw [hsame, Receiver.see_same]
    · have hq : (j + 1) / 11 = j / 11 + 1 := by omega
      rw [hq, frame_edge _ (show j / 11 < 128 by omega)]
      by_cases hodd : j / 11 % 2 = 1
      · rw [if_pos hodd, show (j / 11 + 1) / 2 = j / 11 / 2 + 1 by omega, wordBits_succ]
      · rw [if_neg hodd, show (j / 11 + 1) / 2 = j / 11 / 2 by omega]

/-- The last clock of a frame. -/
theorem frame_received_last : received s regs (e + 1419) =
    ⟨wordBits w 64, (received s regs e).words⟩ := by
  have hrec := frame_received h hs hcs 1418 (by omega)
  rwa [show e + 1 + 1418 = e + 1419 by omega] at hrec

/-- The clock that releases chip select completes the word. -/
theorem frame_complete : received s regs (e + 1420) =
    ⟨wordBits w 64, (received s regs e).words ++ [wordBits w 64]⟩ := by
  have hold : (signals s regs (e + 1419)).lines.cs = .low := by
    rw [lines_cs, frame_xfer_at h hs (by omega) (by omega)]
    rfl
  have hnew : (signals s regs (e + 1420)).lines.cs ≠ .low := by
    rw [lines_cs, done_xfer_at h hs (by omega) (by omega)]
    simp [doneXfer]
  rw [show e + 1420 = e + 1419 + 1 by omega] at hnew ⊢
  rw [received_succ, frame_received_last h hs hcs, Receiver.see_end _ hold hnew]

end

end Acmi.Spi
