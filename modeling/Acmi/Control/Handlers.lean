import Acmi.Psc.Msg

/-!
# `control.c`: from a received message to register writes

The message handlers act on the hardware by 32-bit writes to PL registers. Each handler
here is the list of writes it performs, in order; what it prints and how long it sleeps
between writes is left out. A handler is given a pointer, so it reads its words out of a
memory, whatever length the message has; only `write_adc_table` is told the length.

`clientMsg` is the dispatch of `main.c` on the message id.
-/

namespace Acmi.Control

open Acmi.Lib Acmi.Psc

/-! ## Registers -/

/-- The PL registers of `pl_regs.h` that the message handlers, the console and the waveform
thread touch. -/
inductive Reg
  | artixSpiData | artixSpiAddr | artixSpiWe
  | fpLeds | latchReset | acisForceTrip | acisKeylock
  | evrTsS | evrTsNs | evrTsSLat | evrTsNsLat | evrFeTrignum | evrFeTrigdly
  | fifoRst | fifoData | fifoCnt
  deriving DecidableEq, Repr

/-- The offset of a register from `XPAR_M_AXI_BASEADDR`. -/
def Reg.offset : Reg → Nat
  | artixSpiData => 0x20
  | artixSpiAddr => 0x24
  | artixSpiWe => 0x28
  | fpLeds => 0x40
  | latchReset => 0x120
  | acisForceTrip => 0x124
  | acisKeylock => 0x128
  | evrTsS => 0x50
  | evrTsNs => 0x54
  | evrTsSLat => 0x58
  | evrTsNsLat => 0x5C
  | evrFeTrignum => 0x60
  | evrFeTrigdly => 0x64
  | fifoRst => 0x104
  | fifoData => 0x108
  | fifoCnt => 0x10C

/-- Distinct names are distinct addresses, so writes can be told apart by name. -/
theorem Reg.offset_injective : Function.Injective Reg.offset := by
  intro a b h
  cases a <;> cases b <;> first | rfl | exact absurd h (by decide)

/-- One `Xil_Out32(XPAR_M_AXI_BASEADDR + reg, val)`. -/
structure RegWrite where
  reg : Reg
  val : BitVec 32
  deriving DecidableEq, Repr

/-! ## SPI requests to the Artix -/

/-- The four writes that every request to the Artix consists of. -/
def spiRequest (spiAddr spiData : BitVec 32) : List RegWrite :=
  [⟨.artixSpiData, spiData⟩, ⟨.artixSpiAddr, spiAddr⟩, ⟨.artixSpiWe, 1⟩, ⟨.artixSpiWe, 0⟩]

def eepromWrdata : BitVec 32 := 0x51
def eepromTrig : BitVec 32 := 0x50
def eepromReadall : BitVec 32 := 0x52
def adcTable : BitVec 32 := 0x60

/-- Opcodes of the CAT25320 EEPROM. -/
def eepromOpcodeWren : BitVec 32 := 6
def eepromOpcodeWrite : BitVec 32 := 2

/-- `write_adc_table`: one request per word of the table, in the order of the table. -/
def writeAdcTable (msg : Mem) (msglen : BitVec 32) : List RegWrite :=
  let tableLen := msglen.toNat / 4
  if tableLen > 16000 then []
  else (List.range tableLen).flatMap fun i =>
    spiRequest ((BitVec.ofNat 32 i <<< 16) ||| adcTable) (htonl (msg.load32 (4 * i)))

def readArtixEepromSettings : List RegWrite := spiRequest eepromReadall 1

/-- `write_artix_eeprom`: hand over the word, then trigger the EEPROM transaction. -/
def writeArtixEeprom (addr data : BitVec 32) : List RegWrite :=
  spiRequest addr data ++ spiRequest eepromTrig 1

/-- The arguments of the two `write_artix_eeprom` calls that store one byte. -/
def eepromByte (eepromAddr eepromData : BitVec 32) : List (BitVec 32 × BitVec 32) :=
  [(eepromWrdata, eepromOpcodeWren <<< 24),
    (eepromWrdata, (eepromOpcodeWrite <<< 24) ||| (eepromAddr <<< 8) ||| eepromData)]

/-- The arguments of the eight `write_artix_eeprom` calls of `eeprom_settings`; the address
is incremented after each byte. -/
def eepromCalls (eepromAddr msgData : BitVec 32) : List (BitVec 32 × BitVec 32) :=
  eepromByte eepromAddr ((msgData &&& 0xFF000000) >>> 24) ++
  eepromByte (eepromAddr + 1) ((msgData &&& 0x00FF0000) >>> 16) ++
  eepromByte (eepromAddr + 2) ((msgData &&& 0x0000FF00) >>> 8) ++
  eepromByte (eepromAddr + 3) (msgData &&& 0x000000FF)

/-- `eeprom_settings`: address and data are the first two words of the message. -/
def eepromSettings (msg : Mem) : List RegWrite :=
  ((eepromCalls (htonl (msg.load32 0)) (htonl (msg.load32 4))).flatMap fun c =>
    writeArtixEeprom c.1 c.2) ++ readArtixEepromSettings

/-! ## Register settings -/

def evrEventNoMsg : BitVec 32 := 0
def evrEventDlyMsg : BitVec 32 := 4
def latchResetMsg : BitVec 32 := 8
def acisForceTripMsg : BitVec 32 := 16
def acisKeylockMsg : BitVec 32 := 20
def fpLedMsg : BitVec 32 := 12
def softTrigMsg : BitVec 32 := 50

def setFpleds (msgVal : BitVec 32) : List RegWrite := [⟨.fpLeds, msgVal⟩]

/-- `latch_reset_trig`: pulse the line low, for a value of `1` only. -/
def latchResetTrig (msgVal : BitVec 32) : List RegWrite :=
  if msgVal = 1 then [⟨.latchReset, 0⟩, ⟨.latchReset, 1⟩] else []

def acisForceTrip (msgVal : BitVec 32) : List RegWrite :=
  if msgVal = 1 then [⟨.acisForceTrip, 0⟩, ⟨.acisForceTrip, 1⟩] else []

def acisKeylock (msgVal : BitVec 32) : List RegWrite :=
  if msgVal = 1 then [⟨.acisKeylock, msgVal⟩] else []

/-- The `switch` of `reg_settings`. -/
def regCommand (addr data : BitVec 32) : List RegWrite :=
  if addr = fpLedMsg then setFpleds data
  else if addr = softTrigMsg then []
  else if addr = evrEventNoMsg then [⟨.evrFeTrignum, data⟩]
  else if addr = evrEventDlyMsg then [⟨.evrFeTrigdly, data⟩]
  else if addr = latchResetMsg then latchResetTrig data
  else if addr = acisForceTripMsg then acisForceTrip data
  else if addr = acisKeylockMsg then acisKeylock data
  else []

/-- `reg_settings`: address and value are the first two words of the message. -/
def regSettings (msg : Mem) : List RegWrite :=
  regCommand (htonl (msg.load32 0)) (htonl (msg.load32 4))

/-- `client_msg`: the dispatch on the message id. -/
def clientMsg (msgid : BitVec 16) (msglen : BitVec 32) (msg : Mem) : List RegWrite :=
  match msgid.toNat with
  | 1 => regSettings msg
  | 2 => eepromSettings msg
  | 3 => writeAdcTable msg msglen  -- falls through to the `break` of case 5
  | _ => []

/-! ## What a handler reads -/

/-- A message word as the handlers read it: the four bytes, first one most significant. -/
theorem htonl_load32 (m : Mem) (off : Nat) :
    htonl (m.load32 off) = m off ++ m (off + 1) ++ m (off + 2) ++ m (off + 3) :=
  bswap32_append ..

theorem htonl_load32_congr {m m' : Mem} (off : Nat)
    (h : ∀ i, off ≤ i → i < off + 4 → m i = m' i) :
    htonl (m.load32 off) = htonl (m'.load32 off) := by
  rw [htonl_load32, htonl_load32, h off (by omega) (by omega), h (off + 1) (by omega) (by omega),
    h (off + 2) (by omega) (by omega), h (off + 3) (by omega) (by omega)]

/-- `write_adc_table` reads the message it was given and no further. -/
theorem writeAdcTable_congr {m m' : Mem} {msglen : BitVec 32}
    (h : ∀ i, i < msglen.toNat → m i = m' i) :
    writeAdcTable m msglen = writeAdcTable m' msglen := by
  unfold writeAdcTable
  dsimp only
  split
  next => rfl
  next =>
    rw [List.flatMap_congr]
    intro i hi
    rw [List.mem_range] at hi
    rw [htonl_load32_congr _ fun j hj1 hj2 => h j (by omega)]

/-- The two other handlers read exactly the first eight bytes. -/
theorem regSettings_congr {m m' : Mem} (h : ∀ i, i < 8 → m i = m' i) :
    regSettings m = regSettings m' := by
  unfold regSettings
  rw [htonl_load32_congr 0 fun i _ hi => h i (by omega),
    htonl_load32_congr 4 fun i _ hi => h i (by omega)]

theorem eepromSettings_congr {m m' : Mem} (h : ∀ i, i < 8 → m i = m' i) :
    eepromSettings m = eepromSettings m' := by
  unfold eepromSettings
  rw [htonl_load32_congr 0 fun i _ hi => h i (by omega),
    htonl_load32_congr 4 fun i _ hi => h i (by omega)]

/-- A message that is long enough for its handler is all the handler looks at. -/
theorem clientMsg_congr {m m' : Mem} {msgid : BitVec 16} {msglen : BitVec 32}
    (hlong : (msgid ≠ 1 ∧ msgid ≠ 2) ∨ 8 ≤ msglen.toNat)
    (h : ∀ i, i < msglen.toNat → m i = m' i) :
    clientMsg msgid msglen m = clientMsg msgid msglen m' := by
  unfold clientMsg
  split
  next hid =>
    have h1 : msgid = 1 := BitVec.eq_of_toNat_eq hid
    rcases hlong with hne | h8
    · exact absurd h1 hne.1
    · exact regSettings_congr fun i hi => h i (by omega)
  next hid =>
    have h2 : msgid = 2 := BitVec.eq_of_toNat_eq hid
    rcases hlong with hne | h8
    · exact absurd h2 hne.2
    · exact eepromSettings_congr fun i hi => h i (by omega)
  next => exact writeAdcTable_congr h
  next => rfl

end Acmi.Control
