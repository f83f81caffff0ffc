import Acmi.Evr.Pulses
import Acmi.Evr.Timestamp

/-!
# `hdl/evr`: the receivers before they were ported

The directory `evr` keeps the event receiver as it was, with the time stamp decoder and the event
channel in Verilog. The ports `event_rcv_ts` and `event_rcv_chan` stand in their place.

The decoder is the same but for its initial values, and those are forgotten: behind two latch
events that are three edges apart every signal is what the event stream has made of it
(`resynchronised`), and so the two decoders show the same (`timeofDayReceiver_agrees`).

The channel is another. Its delay counter runs from a third flag `gen`, which falls when the width
counter is 2 short of the width, so that the width must be 3 at least. Its trigger goes up one edge
before that of the port, and is up for `w` edges where the port is up for `w + 1`
(`port_trigger_iff`).

Mirroring notes:
- The Verilog declares no initial values. They are arbitrary, and those of the port too where they
  do not matter.
- `eventClock`, `nodelay` and the unused wire `trigVal` follow from the ports alone.
-/

namespace Acmi.Evr

open Acmi.Lib

/-! ## The decoder forgets how it started -/

section

variable (s s' : EventRcvTs) (ins : Nat → TsIn)

/-- What a latch event sets. -/
structure SamePlace (x y : EventRcvTs) : Prop where
  pos : x.pos = y.pos
  offsetReg : x.offsetReg = y.offsetReg
  clear : x.clear = y.clear

/-- And what is the same when `seconds_tmp` has been wiped. -/
structure SameWord (x y : EventRcvTs) : Prop extends SamePlace x y where
  clearReg : x.clearReg = y.clearReg
  secondsTmp : x.secondsTmp = y.secondsTmp

variable {ins} {x y : EventRcvTs}

theorem SamePlace.rising (h : SamePlace x y) (i : TsIn) : SamePlace (x.rising i) (y.rising i) where
  pos := by
    show posRising x i = posRising y i
    rw [posRising, posRising, h.pos]
  offsetReg := by
    show offsetRising x i = offsetRising y i
    rw [offsetRising, offsetRising, h.offsetReg]
  clear := rfl

theorem SameWord.rising (h : SameWord x y) (i : TsIn) : SameWord (x.rising i) (y.rising i) where
  toSamePlace := h.toSamePlace.rising i
  clearReg := h.clear
  secondsTmp := by
    show secondsTmpRising x i = secondsTmpRising y i
    rw [secondsTmpRising, secondsTmpRising, h.clearReg, h.secondsTmp, h.pos]

variable {t0 t1 : Nat} (h0 : Latches ins t0)

include h0

theorem samePlace_of_latch :
    ∀ t, t0 + 1 ≤ t → SamePlace (tsSignals s ins t) (tsSignals s' ins t) := by
  refine clocked_related ⟨?_, ?_, rfl⟩ fun t x y _ h => h.rising (ins t)
  · exact (if_pos h0).trans (if_pos h0).symm
  · exact (if_pos h0).trans (if_pos h0).symm

/-- Two edges behind the latch event the word is wiped. -/
theorem sameWord_of_latch :
    ∀ t, t0 + 3 ≤ t → SameWord (tsSignals s ins t) (tsSignals s' ins t) := by
  have hwiped : ∀ r : EventRcvTs, (tsSignals r ins (t0 + 3)).secondsTmp = 0 := by
    intro r
    have hclear : (tsSignals r ins (t0 + 1)).clear = true := decide_eq_true h0
    exact if_pos (Or.inr (show (tsSignals r ins (t0 + 2)).clearReg = true from hclear))
  refine clocked_related ⟨samePlace_of_latch s s' h0 (t0 + 3) (by omega), rfl, ?_⟩
    fun t x y _ h => h.rising (ins t)
  exact (hwiped s).trans (hwiped s').symm

/-- **The decoder synchronises itself.** Behind a latch event that comes three edges or more behind
another, its signals do not depend on what they were before. -/
theorem resynchronised (h1 : Latches ins t1) (hapart : t0 + 3 ≤ t1) :
    ∀ t, t1 + 2 ≤ t → tsSignals s ins t = tsSignals s' ins t := by
  have hlatched :
      (tsSignals s ins (t1 + 1)).secondsReg = (tsSignals s' ins (t1 + 1)).secondsReg := by
    have hword := (sameWord_of_latch s s' h0 t1 hapart).secondsTmp
    exact (if_pos h1).trans (hword.trans (if_pos h1).symm)
  -- from the latch event on the seconds stay the same too
  have hreg : ∀ t, t1 + 1 ≤ t →
      SameWord (tsSignals s ins t) (tsSignals s' ins t) ∧
        (tsSignals s ins t).secondsReg = (tsSignals s' ins t).secondsReg := by
    refine clocked_related (R := fun x y => SameWord x y ∧ x.secondsReg = y.secondsReg)
      ⟨sameWord_of_latch s s' h0 (t1 + 1) (by omega), hlatched⟩ ?_
    intro t x y _ ⟨hword, hseconds⟩
    refine ⟨hword.rising (ins t), ?_⟩
    show secondsRegRising x (ins t) = secondsRegRising y (ins t)
    rw [secondsRegRising, secondsRegRising, hword.secondsTmp, hseconds]
  intro t ht
  obtain ⟨u, rfl⟩ : ∃ u, t = u + 1 := ⟨t - 1, by omega⟩
  obtain ⟨hword, hseconds⟩ := hreg (u + 1) (by omega)
  have hstamp : timeStampRising (tsSignals s ins u) (ins u) =
      timeStampRising (tsSignals s' ins u) (ins u) := by
    obtain ⟨hword, hseconds⟩ := hreg u (by omega)
    rw [timeStampRising, timeStampRising, hseconds, hword.offsetReg]
  show EventRcvTs.mk .. = EventRcvTs.mk ..
  rw [EventRcvTs.mk.injEq]
  exact ⟨hword.pos, hword.secondsTmp, hseconds, hword.offsetReg, hword.clear, hword.clearReg,
    congrArg some hstamp⟩

end

/-- Two latch events, and the seconds are the bits between them, whatever was there before. -/
theorem resynchronised_oneBit : Latches oneBitStream 0 ∧ Latches oneBitStream 5 ∧
    tsSignals ⟨3, 0xFFFFFFFF, 7, 0xFFFFFFFF, true, true, some 1⟩ oneBitStream 7 =
      tsSignals .init oneBitStream 7 := by
  have h0 : Latches oneBitStream 0 := latches_oneBitStream.mpr (Or.inl rfl)
  have h5 : Latches oneBitStream 5 := latches_oneBitStream.mpr (Or.inr rfl)
  exact ⟨h0, h5, resynchronised _ _ h0 h5 (by omega) 7 (by omega)⟩

/-! ## `timeofDayReceiver.v` -/

structure TimeofDayReceiver where
  position : BitVec 5
  seconds : BitVec 32
  secondsReg : BitVec 32
  offset : BitVec 32
  clear : Bool
  clearReg : Bool
  timeStamp : BitVec 64
  deriving DecidableEq

/-- One `posedge Clock`, block by block. -/
def TimeofDayReceiver.posedge (s : TimeofDayReceiver) (i : TsIn) : TimeofDayReceiver where
  position :=
    if i.eventStream = 0x7D then 0b11111
    else if i.eventStream = 0x70 ∨ i.eventStream = 0x71 then s.position - 1
    else s.position
  seconds :=
    if i.reset ∨ s.clearReg then 0
    else if i.eventStream = 0x70 then assignBit s.seconds s.position.toNat false
    else if i.eventStream = 0x71 then assignBit s.seconds s.position.toNat true
    else s.seconds
  secondsReg := if i.eventStream = 0x7D then s.seconds else s.secondsReg
  offset := if i.eventStream = 0x7D then 0 else s.offset + 1
  clear := decide (i.eventStream = 0x7D)
  clearReg := s.clear
  timeStamp := if i.reset then 0 else s.secondsReg ++ s.offset

/-- The signals of the port that hold the same. -/
def TimeofDayReceiver.ported (s : TimeofDayReceiver) : EventRcvTs :=
  ⟨s.position, s.seconds, s.secondsReg, s.offset, s.clear, s.clearReg, some s.timeStamp⟩

theorem ported_posedge (s : TimeofDayReceiver) (i : TsIn) :
    (s.posedge i).ported = s.ported.rising i := rfl

/-- **The port of the decoder.** Two edges behind the second of two latch events, at least three
apart, both decoders hold the same, however they started. -/
theorem timeofDayReceiver_agrees (r : TimeofDayReceiver) (s : EventRcvTs) {ins : Nat → TsIn}
    {t0 t1 : Nat} (h0 : Latches ins t0) (h1 : Latches ins t1) (hapart : t0 + 3 ≤ t1) :
    ∀ t, t1 + 2 ≤ t →
      (clocked TimeofDayReceiver.posedge r ins t).ported = tsSignals s ins t := by
  intro t ht
  have hport : (clocked TimeofDayReceiver.posedge r ins t).ported = tsSignals r.ported ins t :=
    clocked_map TimeofDayReceiver.ported id ported_posedge t
  exact hport.trans (resynchronised r.ported s h0 h1 hapart t ht)

/-- From registers that are all ones. -/
theorem timeofDayReceiver_oneBit : Latches oneBitStream 0 ∧ Latches oneBitStream 5 ∧
    (clocked TimeofDayReceiver.posedge
        ⟨31, 0xFFFFFFFF, 0xFFFFFFFF, 0xFFFFFFFF, true, true, 0xFFFFFFFFFFFFFFFF⟩ oneBitStream
        7).ported = tsSignals .init oneBitStream 7 := by
  have h0 : Latches oneBitStream 0 := latches_oneBitStream.mpr (Or.inl rfl)
  have h5 : Latches oneBitStream 5 := latches_oneBitStream.mpr (Or.inr rfl)
  exact ⟨h0, h5, timeofDayReceiver_agrees _ _ h0 h5 (by omega) 7 (by omega)⟩

/-! ## `EventReceiverChannel.v` -/

structure EventReceiverChannel where
  delayCounter : BitVec 32
  widthCounter : BitVec 32
  startDelay : Bool
  startWidth : Bool
  gen : Bool
  deriving DecidableEq

/-- One `posedge Clock`, block by block. -/
def EventReceiverChannel.posedge (s : EventReceiverChannel) (i : ChanIn) :
    EventReceiverChannel where
  delayCounter :=
    if i.reset then 0
    else if i.myDelay ≤ s.delayCounter then 0
    else if !s.startWidth && s.gen then s.delayCounter + 1
    else s.delayCounter
  widthCounter :=
    if i.reset then 0
    else if i.myWidth ≤ s.widthCounter then 0
    else if s.startWidth then s.widthCounter + 1
    else s.widthCounter
  startDelay :=
    if i.reset then false
    else if i.myEvent = i.eventStream then true
    else if s.delayCounter = i.myDelay - 1 ∨ i.myDelay = 0 then false
    else s.startDelay
  startWidth :=
    if i.reset then false
    else if s.delayCounter = i.myDelay ∧ s.gen then true
    else if s.widthCounter = i.myWidth - 1 then false
    else s.startWidth
  gen :=
    if i.reset then false
    else if i.myEvent = i.eventStream then true
    else if s.widthCounter = i.myWidth - 2 then false
    else s.gen

/-- `triggVal` and `trigger`; that a delay is at least 0 is no condition. -/
def EventReceiverChannel.trigger (s : EventReceiverChannel) (i : ChanIn) : Bool :=
  if i.myWidth ≠ 0 then (if i.myPolarity then !s.startWidth else s.startWidth) else false

/-- Both counters 0, and neither `startWidth` nor `gen` up. -/
structure EventReceiverChannel.Idle (s : EventReceiverChannel) : Prop where
  delayCounter : s.delayCounter.toNat = 0
  widthCounter : s.widthCounter.toNat = 0
  startWidth : s.startWidth = false
  gen : s.gen = false

/-- The channel `k` edges from the event on, for delay `d` and width `w`. At 0 the event is just
coming. -/
structure EventReceiverChannel.Phase (d w k : Nat) (s : EventReceiverChannel) : Prop where
  delayCounter : s.delayCounter.toNat = if 1 ≤ k ∧ k ≤ d + 1 then k - 1 else 0
  widthCounter : s.widthCounter.toNat = if d + 2 ≤ k ∧ k ≤ d + w + 2 then k - d - 2 else 0
  startWidth : s.startWidth = true ↔ d + 2 ≤ k ∧ k ≤ d + w + 1
  gen : s.gen = true ↔ 1 ≤ k ∧ k ≤ d + w

theorem eq_sub_iff {x y z : BitVec 32} {n : Nat} (hz : z.toNat ≤ y.toNat) (hy : y.toNat = n) :
    x = y - z ↔ x.toNat = n - z.toNat := by
  rw [← BitVec.toNat_inj, BitVec.toNat_sub_of_le hz, hy]

theorem legacy_idle_iff {d w k : Nat} {s : EventReceiverChannel} (hk : k = 0 ∨ d + w + 3 ≤ k) :
    s.Idle ↔ s.Phase d w k := by
  constructor
  · intro h
    refine ⟨?_, ?_, ?_, ?_⟩
    · rw [h.delayCounter, if_neg (by omega)]
    · rw [h.widthCounter, if_neg (by omega)]
    · rw [h.startWidth]
      exact iff_of_false Bool.false_ne_true (by omega)
    · rw [h.gen]
      exact iff_of_false Bool.false_ne_true (by omega)
  · intro h
    refine ⟨?_, ?_, ?_, ?_⟩
    · exact h.delayCounter.trans (if_neg (by omega))
    · exact h.widthCounter.trans (if_neg (by omega))
    · exact Bool.eq_false_iff.mpr fun hup => absurd (h.startWidth.mp hup) (by omega)
    · exact Bool.eq_false_iff.mpr fun hup => absurd (h.gen.mp hup) (by omega)

section

variable {s : EventReceiverChannel} {i : ChanIn} {d w : Nat} (hi : Steady d w i)

include hi

theorem posedge_delayCounter : (s.posedge i).delayCounter.toNat =
    if d ≤ s.delayCounter.toNat then 0
    else if s.startWidth = false ∧ s.gen = true then s.delayCounter.toNat + 1
    else s.delayCounter.toNat := by
  simp only [EventReceiverChannel.posedge, hi.reset, Bool.false_eq_true, if_false, BitVec.le_def,
    hi.delay, Bool.and_eq_true, Bool.not_eq_true']
  have hlt := i.myDelay.isLt
  rw [hi.delay] at hlt
  split_ifs with hover hrun
  · rfl
  · exact toNat_add_one (by omega)
  · rfl

theorem posedge_widthCounter : (s.posedge i).widthCounter.toNat =
    if w ≤ s.widthCounter.toNat then 0
    else if s.startWidth = true then s.widthCounter.toNat + 1
    else s.widthCounter.toNat := by
  simp only [EventReceiverChannel.posedge, hi.reset, Bool.false_eq_true, if_false, BitVec.le_def,
    hi.width]
  have hlt := i.myWidth.isLt
  rw [hi.width] at hlt
  split_ifs with hover hrun
  · rfl
  · exact toNat_add_one (by omega)
  · rfl

theorem posedge_startWidth (hw : 3 ≤ w) : (s.posedge i).startWidth = true ↔
    (s.delayCounter.toNat = d ∧ s.gen = true) ∨
      (s.widthCounter.toNat ≠ w - 1 ∧ s.startWidth = true) := by
  have hone : s.widthCounter = i.myWidth - 1 ↔ s.widthCounter.toNat = w - 1 :=
    eq_sub_iff (by rw [hi.width]; exact Nat.le_trans (by decide) hw) hi.width
  have hdelay : s.delayCounter = i.myDelay ↔ s.delayCounter.toNat = d := by
    rw [← BitVec.toNat_inj, hi.delay]
  simp only [EventReceiverChannel.posedge, hi.reset, Bool.false_eq_true, if_false, hone, hdelay]
  split_ifs with hup hdown <;> simp_all

theorem posedge_gen (hw : 3 ≤ w) : (s.posedge i).gen = true ↔
    i.event ∨ (s.widthCounter.toNat ≠ w - 2 ∧ s.gen = true) := by
  have htwo : s.widthCounter = i.myWidth - 2 ↔ s.widthCounter.toNat = w - 2 :=
    eq_sub_iff (by rw [hi.width]; exact Nat.le_trans (by decide) hw) hi.width
  simp only [EventReceiverChannel.posedge, hi.reset, Bool.false_eq_true, if_false, htwo,
    ChanIn.event]
  split_ifs with hup hdown <;> simp_all

variable (hd : 1 ≤ d) (hw : 3 ≤ w)

include hd hw

/-- The registers that do not look at the event. -/
theorem EventReceiverChannel.Phase.others {k : Nat} (h : s.Phase d w k) :
    ((s.posedge i).delayCounter.toNat = if 1 ≤ k ∧ k ≤ d then k else 0) ∧
      ((s.posedge i).widthCounter.toNat =
        if d + 2 ≤ k ∧ k ≤ d + w + 1 then k - d - 1 else 0) ∧
      ((s.posedge i).startWidth = true ↔ d + 1 ≤ k ∧ k ≤ d + w) := by
  have hdelay := h.delayCounter
  have hwidth := h.widthCounter
  have hdown : s.startWidth = false ↔ ¬ (d + 2 ≤ k ∧ k ≤ d + w + 1) := by
    rw [← h.startWidth, Bool.not_eq_true]
  refine ⟨?_, ?_, ?_⟩
  · rw [posedge_delayCounter hi]
    simp only [hdown, h.gen]
    split at hdelay <;> split_ifs <;> omega
  · rw [posedge_widthCounter hi]
    simp only [h.startWidth]
    split at hwidth <;> split_ifs <;> omega
  · rw [posedge_startWidth hi hw, h.startWidth, h.gen]
    split at hdelay <;> split at hwidth <;> omega

/-- Without an event the course goes on. -/
theorem EventReceiverChannel.Phase.posedge {k : Nat} (h : s.Phase d w k) (hk : 1 ≤ k)
    (hno : ¬ i.event) : (s.posedge i).Phase d w (k + 1) := by
  obtain ⟨hdelay, hwidth, hstart⟩ := h.others hi hd hw
  have hcount := h.widthCounter
  refine ⟨?_, ?_, ?_, ?_⟩
  · rw [hdelay]
    split_ifs <;> omega
  · rw [hwidth]
    split_ifs <;> omega
  · rw [hstart]
    omega
  · rw [posedge_gen hi hw, h.gen, or_iff_right hno]
    split at hcount <;> omega

/-- An event starts it. -/
theorem EventReceiverChannel.Idle.event (h : s.Idle) (hev : i.event) :
    (s.posedge i).Phase d w 1 := by
  obtain ⟨hdelay, hwidth, hstart⟩ := ((legacy_idle_iff (Or.inl rfl)).mp h).others hi hd hw
  refine ⟨?_, ?_, ?_, ?_⟩
  · rw [hdelay]
    split_ifs <;> omega
  · rw [hwidth]
    split_ifs <;> omega
  · rw [hstart]
    omega
  · exact iff_of_true ((posedge_gen hi hw).mpr (Or.inl hev)) (by omega)

/-- An idle channel stays idle without one. -/
theorem EventReceiverChannel.Idle.posedge (h : s.Idle) (hno : ¬ i.event) : (s.posedge i).Idle := by
  obtain ⟨hdelay, hwidth, hstart⟩ := ((legacy_idle_iff (Or.inl rfl)).mp h).others hi hd hw
  refine ⟨hdelay.trans (if_neg (by omega)), hwidth.trans (if_neg (by omega)), ?_, ?_⟩
  · exact Bool.eq_false_iff.mpr fun hup => absurd (hstart.mp hup) (by omega)
  · refine Bool.eq_false_iff.mpr fun hup => ?_
    rcases (posedge_gen hi hw).mp hup with hev | ⟨-, hgen⟩
    · exact hno hev
    · rw [h.gen] at hgen
      cases hgen

end

theorem channel_course {d w : Nat} (hd : 1 ≤ d) (hw : 3 ≤ w) :
    Course EventReceiverChannel.posedge (Steady d w) ChanIn.event EventReceiverChannel.Idle
      (fun k s => s.Phase d w k) (d + w + 3) where
  start _ _ hi hidle hev := hidle.event hi hd hw hev
  next _ _ _ hi hk hphase hno := hphase.posedge hi hd hw hk hno
  rest _ _ hi hidle hno := hidle.posedge hi hd hw hno
  finish _ _ hk hphase := (legacy_idle_iff (Or.inr hk)).mpr hphase

/-! ## The port of the channel -/

section

variable {d w : Nat} {ins : Nat → ChanIn} (hd : 1 ≤ d) (hi : ∀ t, Steady d w (ins t))

include hd hi

theorem legacy_trigger_iff (hw : 3 ≤ w) {s : EventReceiverChannel} (hs : s.Idle)
    (hapart : ∀ t u, (ins t).event → (ins u).event → t < u → t + d + w + 5 ≤ u) (t : Nat) :
    (clocked EventReceiverChannel.posedge s ins t).trigger (ins t) = true ↔
      ∃ e, (ins e).event ∧ e + (d + 2) ≤ t ∧ t ≤ e + (d + w + 1) := by
  have hwidth : (ins t).myWidth ≠ 0 := fun h => by
    have hnat := (hi t).width
    rw [h] at hnat
    exact absurd hnat (by simp; omega)
  have hpolarity : ¬ (ins t).myPolarity = true := by
    rw [(hi t).polarity]
    exact Bool.false_ne_true
  rw [EventReceiverChannel.trigger, if_pos hwidth, if_neg hpolarity]
  refine (channel_course hd hw).up_iff (U := fun s => s.startWidth = true) hs hi ?_ (by omega)
    (by omega) (fun k s hphase => hphase.startWidth) (fun s hidle => ?_) t
  · intro t u ht hu hlt
    have hfar := hapart t u ht hu hlt
    omega
  · rw [hidle.startWidth]
    exact Bool.false_ne_true

end

end Acmi.Evr
