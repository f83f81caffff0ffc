import Acmi.Lib.Bytes
import Acmi.Lib.Clocked

/-!
# `event_rcv_ts.vhd`: the time of day from the event stream

The seconds arrive as a serial stream of 0 events (`0x70`) and 1 events (`0x71`), most
significant bit first. `pos` points to the bit that comes next, `seconds_tmp` is the word being
filled, and the latch event (`0x7D`) moves it to `secondsReg`. Two clocks behind the latch event
`seconds_tmp` is wiped for the next word: `clear` and `clear_reg` hold the latch event back for
one clock each.

So the word is decoded as long as no bit comes in the two clocks behind a latch event
(`seconds_decoded`). That does not need exactly 32 bits: the pointer wraps, and every bit of
`secondsReg` is the last of the bits that fell on its place (`lastBit`).

Mirroring notes:
- `TimeStamp` has no initial value: it is `none` until the first edge. All other signals have
  one, and after that take the two values only.
- `Seconds`, `Offset`, `Position` and `eventClock` are copies of what is here; `evr_top` leaves
  the first three open and reads none of them.
-/

namespace Acmi.Evr

open Acmi.Lib

/-- The input ports at a rising edge. -/
structure TsIn where
  reset : Bool
  eventStream : Byte

/-- The signals of `event_rcv_ts`. -/
structure EventRcvTs where
  pos : BitVec 5
  secondsTmp : BitVec 32
  secondsReg : BitVec 32
  offsetReg : BitVec 32
  clear : Bool
  clearReg : Bool
  timeStamp : Option (BitVec 64)
  deriving DecidableEq

/-- The initial values of the declarations. -/
def EventRcvTs.init : EventRcvTs where
  pos := BitVec.allOnes 5
  secondsTmp := 0
  secondsReg := 0
  offsetReg := 0
  clear := false
  clearReg := false
  timeStamp := none

/-! ## The processes -/

/-- Assign to one bit of a word. -/
def assignBit {w : Nat} (x : BitVec w) (k : Nat) (b : Bool) : BitVec w :=
  if b then x ||| BitVec.twoPow w k else x &&& ~~~ BitVec.twoPow w k

/-- Position Control. -/
def posRising (s : EventRcvTs) (i : TsIn) : BitVec 5 :=
  if i.eventStream = 0x7D then BitVec.allOnes 5
  else if i.eventStream = 0x70 ∨ i.eventStream = 0x71 then s.pos - 1
  else s.pos

/-- Seconds Control. -/
def secondsTmpRising (s : EventRcvTs) (i : TsIn) : BitVec 32 :=
  if i.reset ∨ s.clearReg then 0
  else if i.eventStream = 0x70 then assignBit s.secondsTmp s.pos.toNat false
  else if i.eventStream = 0x71 then assignBit s.secondsTmp s.pos.toNat true
  else s.secondsTmp

/-- Register Seconds on Event. -/
def secondsRegRising (s : EventRcvTs) (i : TsIn) : BitVec 32 :=
  if i.eventStream = 0x7D then s.secondsTmp else s.secondsReg

/-- Offset Control. -/
def offsetRising (s : EventRcvTs) (i : TsIn) : BitVec 32 :=
  if i.eventStream = 0x7D then 0 else s.offsetReg + 1

/-- Timestamp Control. -/
def timeStampRising (s : EventRcvTs) (i : TsIn) : BitVec 64 :=
  if i.reset then 0 else s.secondsReg ++ s.offsetReg

/-- One rising edge of `Clock`. -/
def EventRcvTs.rising (s : EventRcvTs) (i : TsIn) : EventRcvTs where
  pos := posRising s i
  secondsTmp := secondsTmpRising s i
  secondsReg := secondsRegRising s i
  offsetReg := offsetRising s i
  clear := decide (i.eventStream = 0x7D)
  clearReg := s.clear
  timeStamp := some (timeStampRising s i)

/-- The signals just before edge `t`. -/
def tsSignals (s : EventRcvTs) (ins : Nat → TsIn) : Nat → EventRcvTs :=
  clocked EventRcvTs.rising s ins

/-! ## What the stream says -/

/-- A latch event at edge `t`. -/
def Latches (ins : Nat → TsIn) (t : Nat) : Prop := (ins t).eventStream = 0x7D

instance (ins : Nat → TsIn) : DecidablePred (Latches ins) :=
  fun t => inferInstanceAs (Decidable ((ins t).eventStream = 0x7D))

/-- The bit an event carries. -/
def bitOf (e : Byte) : Option Bool :=
  if e = 0x70 then some false else if e = 0x71 then some true else none

/-- The bits received from edge `a` to before edge `b`, in order. -/
def bitEvents (ins : Nat → TsIn) (a b : Nat) : List Bool :=
  (List.range' a (b - a)).filterMap fun t => bitOf (ins t).eventStream

/-- The largest number below `n` that is `j` modulo 32. -/
def lastIndex (n j : Nat) : Option Nat := ((List.range n).filter (· % 32 = j)).getLast?

/-- The last of the bits number `j`, `j + 32`, `j + 64`, …, and 0 if there is none. -/
def lastBit (bits : List Bool) (j : Nat) : Bool :=
  match lastIndex bits.length j with
  | none => false
  | some k => bits.getD k false

/-- The bits of a word, most significant one first. -/
def msbFirst (v : BitVec 32) : List Bool := (List.range 32).map fun k => v.getLsbD (31 - k)

/-- A latch event at edge `t0`, the next one at `t1`, and no bit in the two clocks behind the
first. -/
structure LatchToLatch (ins : Nat → TsIn) (t0 t1 : Nat) : Prop where
  first : (ins t0).eventStream = 0x7D
  next : (ins t1).eventStream = 0x7D
  between : ∀ u, t0 < u → u < t1 → (ins u).eventStream ≠ 0x7D
  apart : t0 + 3 ≤ t1
  quiet : bitOf (ins (t0 + 1)).eventStream = none ∧ bitOf (ins (t0 + 2)).eventStream = none
  resetLow : ∀ u, t0 < u → u < t1 → (ins u).reset = false

/-! ## Lemmas about the definitions -/

theorem getLsbD_assignBit {w : Nat} (x : BitVec w) (k : Nat) (b : Bool) {i : Nat} (hi : i < w) :
    (assignBit x k b).getLsbD i = if i = k then b else x.getLsbD i := by
  unfold assignBit
  by_cases hik : i = k
  · subst hik
    cases b <;> simp [hi]
  · cases b <;> simp [hi, hik]

theorem bitEvents_self (ins : Nat → TsIn) (a : Nat) : bitEvents ins a a = [] := by
  simp [bitEvents]

theorem bitEvents_succ (ins : Nat → TsIn) {a b : Nat} (hab : a ≤ b) :
    bitEvents ins a (b + 1) = bitEvents ins a b ++ (bitOf (ins b).eventStream).toList := by
  have hlen : b + 1 - a = (b - a) + 1 := by omega
  have hlast : a + (b - a) = b := by omega
  rw [bitEvents, hlen, List.range'_concat, List.filterMap_append, Nat.one_mul, hlast]
  rw [bitEvents]
  cases h : bitOf (ins b).eventStream <;> simp [h]

theorem lastIndex_succ (n j : Nat) :
    lastIndex (n + 1) j = if n % 32 = j then some n else lastIndex n j := by
  rw [lastIndex, List.range_succ, List.filter_append]
  by_cases h : n % 32 = j
  · simp [h]
  · simp [h, lastIndex]

theorem lastIndex_lt {n j k : Nat} (h : lastIndex n j = some k) : k < n := by
  have hmem := List.mem_of_getLast? h
  exact List.mem_range.mp (List.mem_filter.mp hmem).1

/-- One bit more decides the place it falls on. -/
theorem lastBit_append (bits : List Bool) (b : Bool) (j : Nat) :
    lastBit (bits ++ [b]) j = if bits.length % 32 = j then b else lastBit bits j := by
  rw [lastBit, List.length_append, List.length_singleton, lastIndex_succ]
  by_cases h : bits.length % 32 = j
  · rw [if_pos h, if_pos h]
    simp
  · rw [if_neg h, if_neg h, lastBit]
    cases hk : lastIndex bits.length j with
    | none => rfl
    | some k =>
      have hlt := lastIndex_lt hk
      simp [List.getElem?_append_left hlt]

theorem lastIndex_of_lt {j : Nat} (hj : j < 32) : lastIndex 32 j = some j := by
  have hall : ∀ i : Fin 32, lastIndex 32 i.val = some i.val := by decide
  exact hall ⟨j, hj⟩

/-- A word sent in exactly 32 bits. -/
theorem lastBit_msbFirst (v : BitVec 32) {j : Nat} (hj : j < 32) :
    lastBit (msbFirst v) j = v.getLsbD (31 - j) := by
  have hlen : (msbFirst v).length = 32 := by simp [msbFirst]
  rw [lastBit, hlen, lastIndex_of_lt hj]
  simp [msbFirst, hj]

/-! ## Decoding -/

/-- Where the decoder stands when `bits` have come since the wipe. -/
structure Decoding (bits : List Bool) (s : EventRcvTs) : Prop where
  pos : s.pos.toNat = 31 - bits.length % 32
  word : ∀ j, j < 32 → s.secondsTmp.getLsbD (31 - j) = lastBit bits j
  clear : s.clear = false
  clearReg : s.clearReg = false

/-- The pointer moves on by one bit and wraps. -/
theorem pos_pred {p : BitVec 5} {n : Nat} (h : p.toNat = 31 - n % 32) :
    (p - 1).toNat = 31 - (n + 1) % 32 := by
  have hone : (1 : BitVec 5).toNat = 1 := rfl
  rw [BitVec.toNat_sub, hone]
  omega

/-- One event that is not the latch event. -/
theorem Decoding.rising {bits : List Bool} {s : EventRcvTs} {i : TsIn} (h : Decoding bits s)
    (hreset : i.reset = false) (hno : i.eventStream ≠ 0x7D) :
    Decoding (bits ++ (bitOf i.eventStream).toList) (s.rising i) := by
  have hwipe : ¬ (i.reset = true ∨ s.clearReg = true) := by simp [hreset, h.clearReg]
  -- a bit `b` goes to the place `pos` points to
  have hbit : ∀ b, (s.rising i).secondsTmp = assignBit s.secondsTmp s.pos.toNat b →
      (s.rising i).pos = s.pos - 1 → Decoding (bits ++ [b]) (s.rising i) := by
    intro b htmp hpos
    refine ⟨?_, ?_, decide_eq_false hno, h.clear⟩
    · rw [hpos, pos_pred h.pos, List.length_append, List.length_singleton]
    · intro j hj
      rw [htmp, getLsbD_assignBit _ _ _ (by omega), lastBit_append, h.pos, ← h.word j hj]
      have hplace : 31 - j = 31 - bits.length % 32 ↔ bits.length % 32 = j := by omega
      simp only [hplace]
  by_cases h0 : i.eventStream = 0x70
  · have hb : bitOf i.eventStream = some false := by simp [bitOf, h0]
    rw [hb]
    refine hbit false ?_ ?_
    · show secondsTmpRising s i = _
      rw [secondsTmpRising, if_neg hwipe, if_pos h0]
    · show posRising s i = _
      rw [posRising, if_neg hno, if_pos (Or.inl h0)]
  · by_cases h1 : i.eventStream = 0x71
    · have hb : bitOf i.eventStream = some true := by simp [bitOf, h1]
      rw [hb]
      refine hbit true ?_ ?_
      · show secondsTmpRising s i = _
        rw [secondsTmpRising, if_neg hwipe, if_neg h0, if_pos h1]
      · show posRising s i = _
        rw [posRising, if_neg hno, if_pos (Or.inr h1)]
    · have hb : bitOf i.eventStream = none := by rw [bitOf, if_neg h0, if_neg h1]
      have hneither : ¬ (i.eventStream = 0x70 ∨ i.eventStream = 0x71) :=
        fun h => h.elim h0 h1
      have htmp : (s.rising i).secondsTmp = s.secondsTmp := by
        show secondsTmpRising s i = _
        rw [secondsTmpRising, if_neg hwipe, if_neg h0, if_neg h1]
      have hpos : (s.rising i).pos = s.pos := by
        show posRising s i = _
        rw [posRising, if_neg hno, if_neg hneither]
      rw [hb, Option.toList_none, List.append_nil]
      exact ⟨by rw [hpos]; exact h.pos, fun j hj => by rw [htmp]; exact h.word j hj,
        decide_eq_false hno, h.clear⟩

/-- Without an event for it, the pointer stays. -/
theorem pos_quiet (s : EventRcvTs) {ins : Nat → TsIn} {t : Nat}
    (hno : (ins t).eventStream ≠ 0x7D) (hquiet : bitOf (ins t).eventStream = none) :
    (tsSignals s ins (t + 1)).pos = (tsSignals s ins t).pos := by
  have hneither : ¬ ((ins t).eventStream = 0x70 ∨ (ins t).eventStream = 0x71) := by
    rintro (h | h) <;> rw [bitOf, h] at hquiet <;> cases hquiet
  exact (if_neg hno).trans (if_neg hneither)

/-- Behind a latch event and two clocks without a bit, the decoder is ready for the first
one. -/
theorem LatchToLatch.start {ins : Nat → TsIn} {t0 t1 : Nat} (h : LatchToLatch ins t0 t1)
    (s : EventRcvTs) : Decoding [] (tsSignals s ins (t0 + 3)) := by
  have hno1 := h.between (t0 + 1) (by omega) (by have := h.apart; omega)
  have hno2 := h.between (t0 + 2) (by omega) (by have := h.apart; omega)
  -- the pointer is set at the latch event and stays where it is
  have hpos : (tsSignals s ins (t0 + 3)).pos = BitVec.allOnes 5 := by
    rw [pos_quiet s hno2 h.quiet.2, pos_quiet s hno1 h.quiet.1]
    exact if_pos h.first
  -- `clear` is up for one clock, `clear_reg` for the next one, at whose end the word is wiped
  have hclear : (tsSignals s ins (t0 + 1)).clear = true := decide_eq_true h.first
  have hwipe : (tsSignals s ins (t0 + 3)).secondsTmp = 0 :=
    if_pos (Or.inr (show (tsSignals s ins (t0 + 2)).clearReg = true from hclear))
  refine ⟨?_, ?_, decide_eq_false hno2, decide_eq_false hno1⟩
  · rw [hpos]
    rfl
  · intro j _
    rw [hwipe]
    exact BitVec.getLsbD_zero

/-- Between the wipe and the next latch event. -/
theorem LatchToLatch.decoding {ins : Nat → TsIn} {t0 t1 : Nat} (h : LatchToLatch ins t0 t1)
    (s : EventRcvTs) : Decoding (bitEvents ins (t0 + 1) t1) (tsSignals s ins t1) := by
  have hbits : bitEvents ins (t0 + 1) (t0 + 3) = [] := by
    rw [bitEvents_succ ins (by omega), bitEvents_succ ins (by omega), bitEvents_self,
      h.quiet.1, h.quiet.2]
    rfl
  refine clocked_between (I := fun t st => Decoding (bitEvents ins (t0 + 1) t) st) (b := t1)
    ?_ ?_ t1 h.apart (Nat.le_refl t1)
  · rw [hbits]
    exact h.start s
  · -- one event after the other, none of them a latch event
    intro t st hlow hhigh hdec
    rw [bitEvents_succ ins (by omega)]
    exact hdec.rising (h.resetLow t (by omega) hhigh) (h.between t (by omega) hhigh)

/-- **Seconds decoding**, from any state: the word latched shows, bit by bit, the last of the bits
that fell on each place; and a word sent most significant bit first in exactly 32 bits is the
word latched. -/
theorem seconds_decoded (s : EventRcvTs) (ins : Nat → TsIn) (t0 t1 : Nat)
    (h : LatchToLatch ins t0 t1) :
    (∀ j, j < 32 → (tsSignals s ins (t1 + 1)).secondsReg.getLsbD (31 - j) =
        lastBit (bitEvents ins (t0 + 1) t1) j) ∧
      ∀ v, bitEvents ins (t0 + 1) t1 = msbFirst v →
        (tsSignals s ins (t1 + 1)).secondsReg = v := by
  have hlatch : (tsSignals s ins (t1 + 1)).secondsReg = (tsSignals s ins t1).secondsTmp :=
    if_pos h.next
  have hword : ∀ j, j < 32 → (tsSignals s ins (t1 + 1)).secondsReg.getLsbD (31 - j) =
      lastBit (bitEvents ins (t0 + 1) t1) j := by
    intro j hj
    rw [hlatch]
    exact (h.decoding s).word j hj
  refine ⟨hword, fun v hv => ?_⟩
  apply BitVec.eq_of_getLsbD_eq
  intro i hi
  have hplace : 31 - (31 - i) = i := by omega
  have hi' := hword (31 - i) (by omega)
  rw [hv, lastBit_msbFirst v (by omega), hplace] at hi'
  exact hi'

/-- Two latch events with one bit between them. -/
def oneBitStream (t : Nat) : TsIn where
  reset := false
  eventStream := if t = 0 ∨ t = 5 then 0x7D else if t = 3 then 0x71 else 0

theorem latches_oneBitStream {t : Nat} : Latches oneBitStream t ↔ t = 0 ∨ t = 5 := by
  by_cases h : t = 0 ∨ t = 5
  · exact iff_of_true (if_pos h) h
  · refine iff_of_false ?_ h
    unfold Latches oneBitStream
    rw [if_neg h]
    split <;> decide

theorem oneBitStream_latchToLatch : LatchToLatch oneBitStream 0 5 where
  first := rfl
  next := rfl
  between u h0 h5 := fun h => by
    have hu := latches_oneBitStream.mp h
    omega
  apart := by decide
  quiet := ⟨rfl, rfl⟩
  resetLow _ _ _ := rfl

/-- The one bit becomes the top bit of the word. -/
theorem seconds_oneBitStream : LatchToLatch oneBitStream 0 5 ∧
    (tsSignals .init oneBitStream 6).secondsReg.getLsbD 31 = true :=
  ⟨oneBitStream_latchToLatch,
    (seconds_decoded .init oneBitStream 0 5 oneBitStream_latchToLatch).1 0 (by decide)⟩

/-! ## The time stamp -/

/-- The seconds word latched at edge `e`: what `secondsReg` shows behind it. -/
def latchedAt (s : EventRcvTs) (ins : Nat → TsIn) (e : Nat) : BitVec 32 :=
  (tsSignals s ins (e + 1)).secondsReg

/-- `TimeStamp` in cycle `t`, behind edge `t`. -/
def stampAt (s : EventRcvTs) (ins : Nat → TsIn) (t : Nat) : Option (BitVec 64) :=
  (tsSignals s ins (t + 1)).timeStamp

section

variable {s : EventRcvTs} {ins : Nat → TsIn}

theorem secondsReg_held {t e : Nat} (h : LastUpTo (Latches ins) t e) :
    (tsSignals s ins (t + 1)).secondsReg = latchedAt s ins e := by
  have hlast : ∀ t e, LastUpTo (Latches ins) t e →
      (tsSignals s ins (t + 1)).secondsReg = (tsSignals s ins e).secondsTmp := fun t e he =>
    held_since (r := fun t => (tsSignals s ins t).secondsReg)
      (v := fun t => (tsSignals s ins t).secondsTmp) (fun _ => rfl) he
  rw [hlast t e h, latchedAt, hlast e e (.self h.holds)]

theorem offset_counted {t e : Nat} (h : LastUpTo (Latches ins) t e) :
    (tsSignals s ins (t + 1)).offsetReg = BitVec.ofNat 32 (t - e) :=
  counted_since (c := fun t => (tsSignals s ins t).offsetReg) (fun _ => rfl) h

/-- The output is one clock behind the two registers. -/
theorem stampAt_succ {t : Nat} (hreset : (ins (t + 1)).reset = false) :
    stampAt s ins (t + 1) =
      some ((tsSignals s ins (t + 1)).secondsReg ++ (tsSignals s ins (t + 1)).offsetReg) :=
  congrArg some (if_neg (by rw [hreset]; decide))

/-- **Never torn**: seconds and offset of the time stamp refer to the same latch event. -/
theorem stamp_of_lastUpTo {t e : Nat} (h : LastUpTo (Latches ins) t e)
    (hreset : (ins (t + 1)).reset = false) :
    stampAt s ins (t + 1) = some (latchedAt s ins e ++ BitVec.ofNat 32 (t - e)) := by
  rw [stampAt_succ hreset, secondsReg_held h, offset_counted h]

end

/-- The concatenation is ordered by the high half first. -/
theorem append_lt_of_high {m n : Nat} {a b : BitVec m} {c d : BitVec n} (h : a < b) :
    a ++ c < b ++ d := by
  rw [BitVec.lt_def] at h ⊢
  rw [BitVec.toNat_append, BitVec.toNat_append, ← Nat.shiftLeft_add_eq_or_of_lt c.isLt,
    ← Nat.shiftLeft_add_eq_or_of_lt d.isLt, Nat.shiftLeft_eq, Nat.shiftLeft_eq]
  have hc := c.isLt
  have hmul : (a.toNat + 1) * 2 ^ n ≤ b.toNat * 2 ^ n := Nat.mul_le_mul_right _ h
  rw [Nat.succ_mul] at hmul
  omega

theorem append_lt_of_low {m n : Nat} {a : BitVec m} {c d : BitVec n} (h : c < d) :
    a ++ c < a ++ d := by
  rw [BitVec.lt_def] at h ⊢
  rw [BitVec.toNat_append, BitVec.toNat_append, ← Nat.shiftLeft_add_eq_or_of_lt c.isLt,
    ← Nat.shiftLeft_add_eq_or_of_lt d.isLt]
  omega

/-- A stream, up to edge `n`, on which the time runs forward: every word latched is larger than
the one before it, and no 2^32 clocks pass from a latch event to the next. -/
structure Forward (s : EventRcvTs) (ins : Nat → TsIn) (n : Nat) : Prop where
  words : ∀ e e', Latches ins e → Latches ins e' → e < e' → e' ≤ n →
    (∀ u, e < u → u < e' → ¬ Latches ins u) → latchedAt s ins e < latchedAt s ins e'
  gaps : ∀ e, Latches ins e → e + 2 ^ 32 ≤ n →
    ∃ e', e < e' ∧ e' < e + 2 ^ 32 ∧ Latches ins e'

/-- **The time stamp never goes back**: from each cycle behind the first latch event to the
next it increases. -/
theorem Forward.stamp_lt {s : EventRcvTs} {ins : Nat → TsIn} {n : Nat} (h : Forward s ins n)
    (hreset : ∀ t, (ins t).reset = false) {a t : Nat} (ha : Latches ins a) (hat : a < t)
    (htn : t ≤ n) : ∃ x y, stampAt s ins t = some x ∧ stampAt s ins (t + 1) = some y ∧ x < y := by
  obtain ⟨u, rfl⟩ : ∃ u, t = u + 1 := ⟨t - 1, by omega⟩
  obtain ⟨e, -, he⟩ := LastUpTo.of_holds ha u (by omega)
  have hle := he.le
  have hstamp := stamp_of_lastUpTo (s := s) he (hreset (u + 1))
  by_cases hnow : Latches ins (u + 1)
  · -- a new word is latched at this edge
    refine ⟨_, _, hstamp, stamp_of_lastUpTo (.self hnow) (hreset _), append_lt_of_high ?_⟩
    exact h.words e (u + 1) he.holds hnow (by omega) htn
      fun v h1 h2 => he.after v h1 (by omega)
  · -- the offset goes on counting, and has not come round
    refine ⟨_, _, hstamp, stamp_of_lastUpTo (he.succ hnow) (hreset _), append_lt_of_low ?_⟩
    have hround : u + 1 < e + 2 ^ 32 := by
      by_contra hfar
      obtain ⟨e', h1, h2, hlatch⟩ := h.gaps e he.holds (by omega)
      exact (he.succ hnow).after e' h1 (by omega) hlatch
    rw [BitVec.lt_def, BitVec.toNat_ofNat, BitVec.toNat_ofNat, Nat.mod_eq_of_lt (by omega),
      Nat.mod_eq_of_lt (by omega)]
    omega

end Acmi.Evr
