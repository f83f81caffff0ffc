import Mathlib.Data.List.Basic

/-!
# The other end of a serial link

A write-only SPI link is three lines: chip select (active low), clock and data. `Receiver`
is what the device at the other end makes of them. It looks at the lines at every time step
and acts on the edges: chip select going low starts a frame, the clock going high takes the
data line as the next bit, chip select going high ends the frame.

`Receiver.watch` is the receiver at each time of a waveform. Between two edges it does
nothing (`see_same`), so a waveform can be read one edge at a time.
-/

namespace Acmi.Lib

/-- The values of a line that matter here: not driven yet, low, high. -/
inductive Logic
  | undefined
  | low
  | high
  deriving DecidableEq, Repr

/-- The level that stands for a bit. -/
def Logic.ofBit (b : Bool) : Logic := if b then .high else .low

/-- The three lines. -/
structure Lines where
  cs : Logic
  sclk : Logic
  dout : Logic
  deriving DecidableEq, Repr

/-- The bits of the frame being received, and the frames received, in order. -/
structure Receiver where
  bits : List Logic
  words : List (List Logic)
  deriving DecidableEq, Repr

/-- Nothing received yet. -/
def Receiver.fresh : Receiver := ⟨[], []⟩

/-- The lines go from `old` to `new`. -/
def Receiver.see (r : Receiver) (old new : Lines) : Receiver :=
  if old.cs ≠ .low ∧ new.cs = .low then { r with bits := [] }
  else if old.cs = .low ∧ new.cs ≠ .low then { r with words := r.words ++ [r.bits] }
  else if new.cs = .low ∧ old.sclk ≠ .high ∧ new.sclk = .high then
    { r with bits := r.bits ++ [new.dout] }
  else r

/-- The receiver at each time of a waveform. -/
def Receiver.watch (lines : Nat → Lines) (r : Receiver) : Nat → Receiver
  | 0 => r
  | t + 1 => (watch lines r t).see (lines t) (lines (t + 1))

theorem Receiver.see_same (r : Receiver) (l : Lines) : r.see l l = r := by
  unfold Receiver.see
  rw [if_neg (fun h => h.1 h.2), if_neg (fun h => h.2 h.1), if_neg (fun h => h.2.1 h.2.2)]

/-- Nobody is selected: the receiver does nothing. -/
theorem Receiver.see_idle (r : Receiver) {old new : Lines} (ho : old.cs ≠ .low)
    (hn : new.cs ≠ .low) : r.see old new = r := by
  unfold Receiver.see
  rw [if_neg (fun h => hn h.2), if_neg (fun h => ho h.1), if_neg (fun h => hn h.1)]

theorem Receiver.see_start (r : Receiver) {old new : Lines} (ho : old.cs ≠ .low)
    (hn : new.cs = .low) : r.see old new = { r with bits := [] } := by
  unfold Receiver.see
  rw [if_pos ⟨ho, hn⟩]

theorem Receiver.see_end (r : Receiver) {old new : Lines} (ho : old.cs = .low)
    (hn : new.cs ≠ .low) : r.see old new = { r with words := r.words ++ [r.bits] } := by
  unfold Receiver.see
  rw [if_neg (fun h => h.1 ho), if_pos ⟨ho, hn⟩]

/-- Within a frame, a rising clock takes the data line. -/
theorem Receiver.see_bit (r : Receiver) {old new : Lines} (ho : old.cs = .low)
    (hn : new.cs = .low) (hlow : old.sclk ≠ .high) (hhigh : new.sclk = .high) :
    r.see old new = { r with bits := r.bits ++ [new.dout] } := by
  unfold Receiver.see
  rw [if_neg (fun h => h.1 ho), if_neg (fun h => h.2 hn), if_pos ⟨hn, hlow, hhigh⟩]

/-- Within a frame, a clock that does not rise does nothing. -/
theorem Receiver.see_clock_low (r : Receiver) {old new : Lines} (ho : old.cs = .low)
    (hn : new.cs = .low) (hlow : new.sclk ≠ .high) : r.see old new = r := by
  unfold Receiver.see
  rw [if_neg (fun h => h.1 ho), if_neg (fun h => h.2 hn), if_neg (fun h => hlow h.2.2)]

/-- Only the end of a frame adds to the frames received. -/
theorem Receiver.see_words (r : Receiver) {old new : Lines}
    (hend : old.cs = .low → new.cs = .low) : (r.see old new).words = r.words := by
  unfold Receiver.see
  rw [if_neg (fun h : old.cs = .low ∧ new.cs ≠ .low => h.2 (hend h.1))]
  split
  · rfl
  · split
    · rfl
    · rfl

/-- Frames received stay received. -/
theorem Receiver.see_prefix (r : Receiver) (old new : Lines) :
    r.words <+: (r.see old new).words := by
  by_cases hend : old.cs = .low ∧ new.cs ≠ .low
  · rw [r.see_end hend.1 hend.2]
    exact List.prefix_append _ _
  · have hwords := r.see_words fun ho => by_contra fun hn => hend ⟨ho, hn⟩
    exact hwords ▸ List.prefix_rfl

end Acmi.Lib
