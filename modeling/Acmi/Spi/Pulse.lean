import Acmi.Spi.Request

/-!
# One pulse of any length

The software raises and lowers `we` with two register writes and may be held up between them.
Here a pulse of `n` clocks meets an idle entity at clock 0, and nothing else is asked for until
1500 clocks behind the fall of `we` and the end of the frame (`OnePulse`).

The latch goes by level and is cleared at the end of the frame, not at the end of the pulse. So
the frame is repeated when `we` is still high at the clock at which the entity is quiet again
(`two_of_long`), and the pulse is lost when it is over before the latch is released from the
frame before (`none_of_short`). Otherwise there is one frame (`one_of_pulse`).
-/

namespace Acmi.Spi

open Acmi.Lib

/-- The first clock at which an idle entity is open to a request: at once, unless the clear is
still up from the frame before, which the next enabled clock ends. -/
def openAt (s : ArtixSpi) : Nat := if s.xfer.weLatClr then (11 - count s 0) % 11 + 1 else 0

/-- 1500 clocks behind the later of the fall of `we` and the end of the frame. -/
def horizon (s : ArtixSpi) (n : Nat) : Nat := max n (startOf s (openAt s) + 1420) + 1500

/-- `we` is high for `n` clocks, with the address and the data stable, and then low. -/
structure OnePulse (s : ArtixSpi) (regs : Nat → RegO) (n : Nat) : Prop where
  high : ∀ t, t < n → (regs t).we = true
  stable : ∀ t, t < n → (regs t).addr = (regs 0).addr ∧ (regs t).dout = (regs 0).dout
  low : ∀ t, n ≤ t → t < horizon s n → (regs t).we = false

/-- Exactly one frame comes out, with the word of the pulse, and no other is on its way. -/
def OneFrame (s : ArtixSpi) (regs : Nat → RegO) (n : Nat) : Prop :=
  (received s regs (horizon s n)).words = [wordBits (regs 0).word 64] ∧
    (signals s regs (horizon s n)).xfer.cs ≠ .low

/-! ## The clear from the frame before -/

/-- While the clear is up, an idle entity latches nothing. -/
theorem idle_held {s : ArtixSpi} (h : DivOk s.div) (hs : Idle s) (hclr : s.xfer.weLatClr = true)
    (regs : Nat → RegO) : ∀ t, t ≤ (11 - count s 0) % 11 →
      Idle (signals s regs t) ∧ (signals s regs t).xfer.weLatClr = true := by
  intro t
  induction t with
  | zero => intro _; exact ⟨hs, hclr⟩
  | succ t ih =>
    intro ht
    obtain ⟨hidle, hup⟩ := ih (by omega)
    have hne : count s t ≠ 0 := by
      unfold count at ht ⊢
      omega
    have hx := xfer_hold h regs hne
    refine ⟨⟨idle_state h hidle, ?_, idle_cs h hidle⟩, by rw [hx]; exact hup⟩
    rw [latch_succ, if_pos (Or.inl hup)]

theorem quiet_openAt {s : ArtixSpi} (h : DivOk s.div) (hs : Idle s) (regs : Nat → RegO) :
    Quiet (signals s regs (openAt s)) ∧ received s regs (openAt s) = .fresh := by
  unfold openAt
  by_cases hclr : s.xfer.weLatClr = true
  · rw [if_pos hclr]
    obtain ⟨hidle, hup⟩ := idle_held h hs hclr regs _ (Nat.le_refl _)
    have hen : count s ((11 - count s 0) % 11) = 0 := by
      unfold count
      omega
    have hx := idle_xfer h hidle
    rw [if_pos hen] at hx
    refine ⟨⟨⟨idle_state h hidle, ?_, idle_cs h hidle⟩, by rw [hx]⟩, ?_⟩
    · rw [latch_succ, if_pos (Or.inl hup)]
    · refine received_idle (Nat.zero_le _) fun t _ ht => ?_
      rcases Nat.lt_or_eq_of_le ht with hlt | heq
      · exact (idle_held h hs hclr regs t (by omega)).1.cs
      · rw [heq]
        exact idle_cs h hidle
  · rw [if_neg hclr]
    have hdown : s.xfer.weLatClr = false := by simpa using hclr
    exact ⟨⟨hs, hdown⟩, rfl⟩

/-! ## The three outcomes -/

section

variable {s : ArtixSpi} {regs : Nat → RegO} {n : Nat}

theorem OnePulse.word (hp : OnePulse s regs n) {t : Nat} (ht : t < n) :
    (regs t).word = (regs 0).word := by
  obtain ⟨haddr, hdout⟩ := hp.stable t ht
  rw [RegO.word, RegO.word, haddr, hdout]

/-- Whenever `we` is high, it is with the word of the pulse. -/
theorem OnePulse.word_of_we (hp : OnePulse s regs n) {t : Nat} (ht : t < horizon s n)
    (hwe : (regs t).we = true) : (regs t).word = (regs 0).word := by
  by_cases hn : t < n
  · exact hp.word hn
  · rw [hp.low t (by omega) ht] at hwe
    cases hwe

/-- A frame for the pulse, if the entity is quiet while `we` is still high. -/
theorem frame_of_onePulse (h : DivOk s.div) (hp : OnePulse s regs n) {a : Nat}
    (hq : Quiet (signals s regs a)) (ha : a < n) (hend : startOf s a ≤ horizon s n) :
    Quiet (signals s regs (startOf s a + 1431)) ∧
      (received s regs (startOf s a + 1431)).words =
        (received s regs a).words ++ [wordBits (regs 0).word 64] := by
  have hframe := frame_of_pulse h hq (hp.high a ha) fun t h1 h2 hwe => by
    rw [hp.word_of_we (by omega) hwe, hp.word ha]
  rwa [hp.word ha] at hframe

theorem horizon_ge (s : ArtixSpi) (n : Nat) : startOf s (openAt s) + 2920 ≤ horizon s n := by
  unfold horizon
  omega

/-- The rest of the time, when `we` is low from `a` on. -/
theorem rest_of_onePulse (h : DivOk s.div) (hp : OnePulse s regs n) {a : Nat}
    (hq : Quiet (signals s regs a)) (ha : n ≤ a) (hend : a ≤ horizon s n) :
    Quiet (signals s regs (horizon s n)) ∧
      received s regs (horizon s n) = received s regs a := by
  have hlow : ∀ t, a ≤ t → t < horizon s n → (regs t).we = false :=
    fun t h1 h2 => hp.low t (by omega) h2
  exact ⟨quiet_until h hq hend hlow, received_low h hq hend hlow⟩

variable (h : DivOk s.div) (hs : Idle s) (hp : OnePulse s regs n)

include h hs hp

theorem one_of_pulse (hopen : openAt s < n) (hdone : n ≤ startOf s (openAt s) + 1431) :
    OneFrame s regs n := by
  obtain ⟨hq, hfresh⟩ := quiet_openAt h hs regs
  have hfar := horizon_ge s n
  obtain ⟨hquiet, hwords⟩ := frame_of_onePulse h hp hq hopen (by omega)
  obtain ⟨hend, hrest⟩ := rest_of_onePulse h hp hquiet hdone (by omega)
  refine ⟨?_, hend.cs⟩
  rw [hrest, hwords, hfresh]
  rfl

/-- The pulse is over before the latch is released: no frame. -/
theorem none_of_short (hopen : n ≤ openAt s) :
    (received s regs (horizon s n)).words = [] := by
  obtain ⟨hq, hfresh⟩ := quiet_openAt h hs regs
  have hfar := horizon_ge s n
  have hlt := lt_startOf s (openAt s)
  obtain ⟨-, hrest⟩ := rest_of_onePulse h hp hq hopen (by omega)
  rw [hrest, hfresh]
  rfl

/-- `we` is still high when the entity is quiet again: the frame is sent a second time. -/
theorem two_of_long (hlong : startOf s (openAt s) + 1431 < n) :
    [wordBits (regs 0).word 64, wordBits (regs 0).word 64] <+:
      (received s regs (horizon s n)).words := by
  obtain ⟨hq, hfresh⟩ := quiet_openAt h hs regs
  have hfar := horizon_ge s n
  have hlt := lt_startOf s (openAt s)
  obtain ⟨hquiet, hfirst⟩ := frame_of_onePulse h hp hq (by omega) (by omega)
  -- ten clocks on, the request is taken over once more
  have hagain : startOf s (startOf s (openAt s) + 1431) = startOf s (openAt s) + 1441 := by
    have hzero := count_startOf s (openAt s)
    unfold count at hzero
    rw [startOf, count]
    omega
  obtain ⟨-, hsecond⟩ := frame_of_onePulse h hp hquiet hlong (by omega)
  rw [hagain, hfirst, hfresh] at hsecond
  have hprefix : (received s regs (startOf s (openAt s) + 1441 + 1431)).words <+:
      (received s regs (horizon s n)).words := received_prefix (by omega)
  rwa [hsecond] at hprefix

theorem not_oneFrame_of_long (hlong : startOf s (openAt s) + 1431 < n) :
    ¬ OneFrame s regs n := by
  intro ⟨hone, _⟩
  have hlen := (two_of_long h hs hp hlong).length_le
  rw [hone] at hlen
  simp at hlen

end

/-- **One command per pulse, exactly when**: the pulse is still high at the first clock at which
the latch is released, and over when the entity is quiet again. -/
theorem oneFrame_iff {s : ArtixSpi} {regs : Nat → RegO} {n : Nat} (h : DivOk s.div) (hs : Idle s)
    (hp : OnePulse s regs n) :
    OneFrame s regs n ↔ openAt s < n ∧ n ≤ startOf s (openAt s) + 1431 := by
  constructor
  · intro hone
    refine ⟨?_, ?_⟩
    · by_contra hshort
      have hnone := none_of_short h hs hp (by omega)
      rw [hone.1] at hnone
      cases hnone
    · by_contra hlong
      exact not_oneFrame_of_long h hs hp (by omega) hone
  · intro ⟨hopen, hdone⟩
    exact one_of_pulse h hs hp hopen hdone

/-- The EEPROM trigger, held for `n` clocks. -/
def trigger (n : Nat) (t : Nat) : RegO := ⟨0x50, 1, decide (t < n)⟩

theorem trigger_onePulse (s : ArtixSpi) (n : Nat) : OnePulse s (trigger n) n where
  high _ ht := decide_eq_true ht
  stable _ _ := ⟨rfl, rfl⟩
  low _ ht _ := decide_eq_false (by omega)

/-- A pulse of 1442 clocks makes one frame, also from the initial state. -/
theorem oneFrame_trigger : OneFrame init (trigger 1442) 1442 :=
  (oneFrame_iff init_divOk init_quiet.toIdle (trigger_onePulse init 1442)).mpr
    ⟨by decide, by decide⟩

/-- One clock more repeats the trigger. -/
theorem trigger_repeated : DivOk init.div ∧ Idle init ∧ OnePulse init (trigger 1443) 1443 ∧
    ¬ OneFrame init (trigger 1443) 1443 :=
  ⟨init_divOk, init_quiet.toIdle, trigger_onePulse init 1443,
    not_oneFrame_of_long init_divOk init_quiet.toIdle (trigger_onePulse init 1443) (by decide)⟩

end Acmi.Spi
