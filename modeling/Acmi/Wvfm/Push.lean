import Acmi.Control.Handlers
import Acmi.Lib.Trace
import Mathlib.Logic.Function.Basic

/-!
# Reading a waveform

`wvfmdata_push` waits until there is a waveform in the FIFO, reads 8192 words, reads the two
registers of the latched time stamp, resets the FIFO and sends five messages; then it starts
again. The hardware goes on meanwhile: it appends frames of 8192 words to the FIFO one word at a
time, and latches the time stamp at the first word of each. A step is one register access of the
task, or one word of the hardware.

Mirroring notes:
- The FIFO keeps each word with the frame it comes from and its place there (`Slot`), so that one
  can say what is in the FIFO; the task only gets to see `Slot.word`.
- The FIFO has no bound. The one of the design holds 32768 words, which is four frames.
- The task never reads an empty FIFO after a poll that found a frame; what such a read would
  return is a parameter.
- The four readout loops are counted through, as they run one after the other: at `.readout k`
  the task is about to read word `k`, and `Arrays.store` has the array of each.
- The five `psc_send` are one step: no other task touches the arrays. The delays are left out.
-/

namespace Acmi.Wvfm

open Acmi.Lib Acmi.Psc Acmi.Control

/-! ## The hardware -/

/-- One acquisition: its words, and the time stamp at its first word. -/
structure Frame where
  words : Nat → BitVec 32
  seconds : BitVec 32
  offset : BitVec 32

/-- The number of words in a frame. -/
def frameLen : Nat := 8192

/-- A word on its way: its frame and its place in it. -/
structure Slot where
  frame : Frame
  index : Nat

def Slot.word (x : Slot) : BitVec 32 := x.frame.words x.index

/-- The words of `f` from `k` on, `n` of them. -/
def Frame.slots (f : Frame) (k n : Nat) : List Slot := (List.range' k n).map fun i => ⟨f, i⟩

/-! ## The task -/

/-- Where the task is: what it does next. -/
inductive Pc
  | poll                -- read `FIFO_CNT_REG`
  | readout (k : Nat)   -- read `FIFO_DATA_REG`, for word `k`
  | tsNs                -- read `EVR_TS_NS_LAT_REG`
  | tsS                 -- read `EVR_TS_S_LAT_REG`
  | rstHigh             -- write 1 to `FIFO_RST_REG`
  | rstLow              -- write 0 to `FIFO_RST_REG`
  | recount             -- read `FIFO_CNT_REG`, of no consequence
  | send
  deriving DecidableEq

/-- The static arrays, by index. -/
structure Arrays where
  pulseStats : Nat → BitVec 32
  eeprom : Nat → BitVec 32
  boowAdc : Nat → BitVec 16
  wvfmAdc : Nat → BitVec 16
  timestamp : Nat → BitVec 32

/-- Two samples packed in a word: the upper half goes first. -/
def unpack (adc : Nat → BitVec 16) (j : Nat) (rdbk : BitVec 32) : Nat → BitVec 16 :=
  Function.update
    (Function.update adc (2 * j) (htons (((rdbk &&& 0xFFFF0000#32) >>> 16).setWidth 16)))
    (2 * j + 1) (htons ((rdbk &&& 0xFFFF#32).setWidth 16))

/-- Word `k` of the readout: 64 words, 64 words, 64 pairs of samples and 8000 pairs. -/
def Arrays.store (a : Arrays) (k : Nat) (rdbk : BitVec 32) : Arrays :=
  if k < 64 then { a with pulseStats := Function.update a.pulseStats k (htonl rdbk) }
  else if k < 128 then { a with eeprom := Function.update a.eeprom (k - 64) (htonl rdbk) }
  else if k < 192 then { a with boowAdc := unpack a.boowAdc (k - 128) rdbk }
  else { a with wvfmAdc := unpack a.wvfmAdc (k - 192) rdbk }

/-- `n` elements as they lie in memory. -/
def bytes32 (n : Nat) (xs : Nat → BitVec 32) : List Byte :=
  (List.range n).flatMap fun i => le32 (xs i)

def bytes16 (n : Nat) (xs : Nat → BitVec 16) : List Byte :=
  (List.range n).flatMap fun i => le16 (xs i)

/-- The five messages of a pass, in the order they are sent: number and body. -/
def Arrays.messages (a : Arrays) : List (Nat × List Byte) :=
  [(52, bytes32 64 a.eeprom), (53, bytes16 128 a.boowAdc), (54, bytes16 16000 a.wvfmAdc),
    (51, bytes32 64 a.pulseStats), (55, bytes32 2 a.timestamp)]

/-! ## Both together -/

structure State where
  fifo : List Slot
  fifoRst : Bool
  sending : Option (Frame × Nat)    -- the frame in progress and the index of its next word
  lat : BitVec 32 × BitVec 32       -- seconds and offset
  pc : Pc
  arrays : Arrays
  sent : List (List (Nat × List Byte))

/-- Before the task first runs. -/
def State.init : State :=
  ⟨[], false, none, (0, 0), .poll, ⟨fun _ => 0, fun _ => 0, fun _ => 0, fun _ => 0, fun _ => 0⟩, []⟩

inductive Event
  | begin (f : Frame)   -- the first word of a frame
  | word                -- the next word of the frame in progress
  | act                 -- the next access of the task

/-- The FIFO stays empty while it is held in reset. -/
def State.push (s : State) (x : Slot) : State :=
  { s with fifo := if s.fifoRst then s.fifo else s.fifo ++ [x] }

/-- `pl_regs.rdl`: the latched offset is at 0x58 and the seconds at 0x5C. -/
def State.latReg (s : State) (reg : Reg) : BitVec 32 :=
  if reg.offset = 0x58 then s.lat.2 else s.lat.1

/-- The task's next access, and what it does with it; `stale` is what an empty FIFO returns. -/
def act (stale : BitVec 32) (s : State) : State :=
  match s.pc with
  | .poll =>
    let wordcnt := s.fifo.length
    if wordcnt < 8000 then s
    else if 8000 < wordcnt then { s with pc := .readout 0 }
    else { s with pc := .rstHigh }
  | .readout k =>
    let rdbk := (s.fifo.head?.map Slot.word).getD stale
    { s with
      fifo := s.fifo.tail
      arrays := s.arrays.store k rdbk
      pc := if k + 1 < 8192 then .readout (k + 1) else .tsNs }
  | .tsNs =>
    let ns := htonl (s.latReg .evrTsNsLat)
    { s with
      arrays := { s.arrays with timestamp := Function.update s.arrays.timestamp 0 ns }
      pc := .tsS }
  | .tsS =>
    let sec := htonl (s.latReg .evrTsSLat)
    { s with
      arrays := { s.arrays with timestamp := Function.update s.arrays.timestamp 1 sec }
      pc := .rstHigh }
  | .rstHigh => { s with fifoRst := true, fifo := [], pc := .rstLow }
  | .rstLow => { s with fifoRst := false, pc := .recount }
  | .recount => { s with pc := .send }
  | .send => { s with sent := s.sent ++ [s.arrays.messages], pc := .poll }

/-- One step; a frame begins when none is in progress. -/
def step (stale : BitVec 32) (s : State) : Event → Option State
  | .begin f =>
    match s.sending with
    | none => some { s.push ⟨f, 0⟩ with sending := some (f, 1), lat := (f.seconds, f.offset) }
    | some _ => none
  | .word =>
    match s.sending with
    | none => none
    | some (f, k) =>
      some { s.push ⟨f, k⟩ with sending := if k + 1 < frameLen then some (f, k + 1) else none }
  | .act => some (act stale s)

/-! ## The messages of one acquisition -/

/-- The words of `f` from `k` on, `n` of them, in network order. -/
def Frame.body (f : Frame) (k n : Nat) : List Byte :=
  (List.range n).flatMap fun i => be32 (f.words (k + i))

/-- What a pass has to send for `f`. Message 55 is the seconds and the offset, the way round in
which the registers are read. -/
def Frame.messages (f : Frame) : List (Nat × List Byte) :=
  [(52, f.body 64 64), (53, f.body 128 64), (54, f.body 192 8000), (51, f.body 0 64),
    (55, be32 f.seconds ++ be32 f.offset)]

/-- As far as the first `k` words of `f` go, the `n` elements of `xs` are those from `base` on. -/
def HoldWords (f : Frame) (base n k : Nat) (xs : Nat → BitVec 32) : Prop :=
  ∀ i < n, base + i < k → xs i = htonl (f.words (base + i))

/-- The same for pairs of samples. -/
def HoldSamples (f : Frame) (base n k : Nat) (adc : Nat → BitVec 16) : Prop :=
  ∀ j < n, base + j < k → le16 (adc (2 * j)) ++ le16 (adc (2 * j + 1)) = be32 (f.words (base + j))

/-- The arrays hold the first `k` words of `f`. -/
structure Arrays.Holds (a : Arrays) (f : Frame) (k : Nat) : Prop where
  pulseStats : HoldWords f 0 64 k a.pulseStats
  eeprom : HoldWords f 64 64 k a.eeprom
  boowAdc : HoldSamples f 128 64 k a.boowAdc
  wvfmAdc : HoldSamples f 192 8000 k a.wvfmAdc

theorem Arrays.holds_zero (a : Arrays) (f : Frame) : a.Holds f 0 :=
  ⟨fun _ _ h => absurd h (Nat.not_lt_zero _), fun _ _ h => absurd h (Nat.not_lt_zero _),
    fun _ _ h => absurd h (Nat.not_lt_zero _), fun _ _ h => absurd h (Nat.not_lt_zero _)⟩

theorem unpack_upper (w : BitVec 32) :
    ((w &&& 0xFFFF0000#32) >>> 16).setWidth 16 = w.extractLsb' 16 16 := by
  have hmask : 0xFFFF0000#32 >>> 16 = 0xFFFF#32 := by decide
  have hones : (0xFFFF#32).setWidth 16 = BitVec.allOnes 16 := by decide
  rw [BitVec.ushiftRight_and_distrib, hmask, BitVec.setWidth_and, hones, BitVec.and_allOnes]
  apply BitVec.eq_of_getLsbD_eq
  intro i hi
  simp [hi]

theorem unpack_lower (w : BitVec 32) : (w &&& 0xFFFF#32).setWidth 16 = w.extractLsb' 0 16 := by
  have hones : (0xFFFF#32).setWidth 16 = BitVec.allOnes 16 := by decide
  rw [BitVec.setWidth_and, hones, BitVec.and_allOnes]
  apply BitVec.eq_of_getLsbD_eq
  intro i hi
  simp [hi]

/-- The pair a word is unpacked to is the word in network order. -/
theorem unpack_self (adc : Nat → BitVec 16) (j : Nat) (w : BitVec 32) :
    le16 (unpack adc j w (2 * j)) ++ le16 (unpack adc j w (2 * j + 1)) = be32 w := by
  have hne : 2 * j ≠ 2 * j + 1 := by omega
  rw [unpack, Function.update_self, Function.update_of_ne hne, Function.update_self, unpack_upper,
    unpack_lower, htons, htons, le16_bswap16, le16_bswap16, be16_append_be16]

theorem unpack_of_ne (adc : Nat → BitVec 16) {j i : Nat} (w : BitVec 32) (h : i ≠ j) :
    unpack adc j w (2 * i) = adc (2 * i) ∧ unpack adc j w (2 * i + 1) = adc (2 * i + 1) := by
  constructor
  · rw [unpack, Function.update_of_ne (by omega), Function.update_of_ne (by omega)]
  · rw [unpack, Function.update_of_ne (by omega), Function.update_of_ne (by omega)]

theorem HoldWords.update {f : Frame} {base n k : Nat} {xs : Nat → BitVec 32}
    (h : HoldWords f base n k xs) (hk : base ≤ k) :
    HoldWords f base n (k + 1) (Function.update xs (k - base) (htonl (f.words k))) := by
  intro i hi hik
  by_cases hnew : i = k - base
  · rw [hnew, Function.update_self, Nat.add_sub_cancel' hk]
  · rw [Function.update_of_ne hnew]
    exact h i hi (by omega)

theorem HoldSamples.unpack {f : Frame} {base n k : Nat} {adc : Nat → BitVec 16}
    (h : HoldSamples f base n k adc) (hk : base ≤ k) :
    HoldSamples f base n (k + 1) (unpack adc (k - base) (f.words k)) := by
  intro j hj hjk
  by_cases hnew : j = k - base
  · rw [hnew, unpack_self, Nat.add_sub_cancel' hk]
  · obtain ⟨h0, h1⟩ := unpack_of_ne adc (f.words k) hnew
    rw [h0, h1]
    exact h j hj (by omega)

/-- A word that goes elsewhere. -/
theorem HoldWords.skip {f : Frame} {base n k : Nat} {xs : Nat → BitVec 32}
    (h : HoldWords f base n k xs) (hk : k < base ∨ base + n ≤ k) : HoldWords f base n (k + 1) xs :=
  fun i hi hik => h i hi (by omega)

theorem HoldSamples.skip {f : Frame} {base n k : Nat} {adc : Nat → BitVec 16}
    (h : HoldSamples f base n k adc) (hk : k < base ∨ base + n ≤ k) :
    HoldSamples f base n (k + 1) adc :=
  fun j hj hjk => h j hj (by omega)

/-- The next word of the frame goes where it belongs. -/
theorem Arrays.Holds.store {a : Arrays} {f : Frame} {k : Nat} (h : a.Holds f k) :
    (a.store k (f.words k)).Holds f (k + 1) := by
  obtain ⟨hpulse, heeprom, hboow, hwvfm⟩ := h
  unfold Arrays.store
  split_ifs with h64 h128 h192
  · exact ⟨hpulse.update (Nat.zero_le k), heeprom.skip (by omega), hboow.skip (by omega),
      hwvfm.skip (by omega)⟩
  · exact ⟨hpulse.skip (by omega), heeprom.update (by omega), hboow.skip (by omega),
      hwvfm.skip (by omega)⟩
  · exact ⟨hpulse.skip (by omega), heeprom.skip (by omega), hboow.unpack (by omega),
      hwvfm.skip (by omega)⟩
  · exact ⟨hpulse.skip (by omega), heeprom.skip (by omega), hboow.skip (by omega),
      hwvfm.unpack (by omega)⟩

theorem bytes32_eq_body {xs : Nat → BitVec 32} {f : Frame} {k : Nat} :
    ∀ n, (∀ i < n, xs i = htonl (f.words (k + i))) → bytes32 n xs = f.body k n := by
  intro n
  induction n with
  | zero => intro _; rfl
  | succ n ih =>
    intro h
    have hlast : le32 (xs n) = be32 (f.words (k + n)) := by
      rw [h n (Nat.lt_succ_self n), htonl, le32_bswap32]
    have hrest := ih fun i hi => h i (Nat.lt_succ_of_lt hi)
    simp only [bytes32, Frame.body] at hrest ⊢
    rw [List.range_succ, List.flatMap_append, List.flatMap_append, hrest]
    simp only [List.flatMap_cons, List.flatMap_nil, hlast]

theorem bytes16_eq_body {xs : Nat → BitVec 16} {f : Frame} {k : Nat} :
    ∀ n, (∀ j < n, le16 (xs (2 * j)) ++ le16 (xs (2 * j + 1)) = be32 (f.words (k + j))) →
      bytes16 (2 * n) xs = f.body k n := by
  intro n
  induction n with
  | zero => intro _; rfl
  | succ n ih =>
    intro h
    have hlast := h n (Nat.lt_succ_self n)
    have hrest := ih fun j hj => h j (Nat.lt_succ_of_lt hj)
    simp only [bytes16, Frame.body] at hrest ⊢
    rw [Nat.mul_succ, List.range_succ, List.range_succ, List.range_succ, List.flatMap_append,
      List.flatMap_append, List.flatMap_append, hrest]
    simp only [List.flatMap_cons, List.flatMap_nil, List.append_nil, List.append_assoc, hlast]

/-- **With a whole frame in the arrays**, and its time stamp, the messages are those of the
frame. -/
theorem messages_of_holds {a : Arrays} {f : Frame} (h : a.Holds f 8192)
    (h0 : a.timestamp 0 = htonl f.seconds) (h1 : a.timestamp 1 = htonl f.offset) :
    a.messages = f.messages := by
  have heeprom : bytes32 64 a.eeprom = f.body 64 64 :=
    bytes32_eq_body 64 fun i hi => h.eeprom i hi (by omega)
  have hboow : bytes16 (2 * 64) a.boowAdc = f.body 128 64 :=
    bytes16_eq_body 64 fun j hj => h.boowAdc j hj (by omega)
  have hwvfm : bytes16 (2 * 8000) a.wvfmAdc = f.body 192 8000 :=
    bytes16_eq_body 8000 fun j hj => h.wvfmAdc j hj (by omega)
  have hpulse : bytes32 64 a.pulseStats = f.body 0 64 :=
    bytes32_eq_body 64 fun i hi => h.pulseStats i hi (by omega)
  have hstamp : bytes32 2 a.timestamp = be32 f.seconds ++ be32 f.offset := by
    show le32 (a.timestamp 0) ++ (le32 (a.timestamp 1) ++ []) = _
    rw [h0, h1, htonl, htonl, le32_bswap32, le32_bswap32, List.append_nil]
  rw [Arrays.messages, Frame.messages, heeprom, ← hboow, ← hwvfm, hpulse, hstamp]

end Acmi.Wvfm
