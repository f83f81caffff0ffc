import Acmi.Lib.SpiBus

/-!
# `artix_spi.vhd`: the SPI master in the PL

The entity is three processes on one clock: the latch that takes a request over from the
registers, the transfer state machine, and the divider whose enable the state machine waits
for. Each process has its own record of the signals it drives; at a rising edge every
process works on the signals as they were before it.

Mirroring notes:
- The clear of the latch stands outside its `clk'event` branch, so it also takes effect at a
  falling edge. `cycle` is a rising edge and the falling edge behind it.
- The latch is asked for by level: it is set at every rising edge at which `we` is high.
- `std_logic` signals that have an initial value and are only ever assigned `'0'` and `'1'`
  are booleans. The three outputs have no initial value and start out undefined.
- `rreg`, `xfer_done` and `sys_clk` are read by nothing, and `din` only goes into `rreg`; they
  are left out. `reset` is in the sensitivity lists only.
-/

namespace Acmi.Spi

open Acmi.Lib

/-- `state_type`. -/
inductive XferState
  | idle
  | clkp1
  | clkp2
  | setsync
  deriving DecidableEq, Repr

/-- The signals of the `we` latch process. -/
structure Latch where
  weLat : Bool
  spiData : BitVec 64
  deriving DecidableEq

/-- The signals of the transfer process. -/
structure Xfer where
  state : XferState
  treg : BitVec 64
  bcnt : Nat
  weLatClr : Bool
  sclk : Logic
  dout : Logic
  cs : Logic
  deriving DecidableEq

/-- The signals of `clkdivide`. -/
structure Div where
  clkCnt : BitVec 8
  clkEnb : Bool
  deriving DecidableEq

/-- All signals of `artix_spi`. -/
structure ArtixSpi where
  latch : Latch
  xfer : Xfer
  div : Div
  deriving DecidableEq

/-- `reg_o`: the three registers the software writes. -/
structure RegO where
  addr : BitVec 32
  dout : BitVec 32
  we : Bool

/-- The initial values of the declarations. -/
def init : ArtixSpi where
  latch := ⟨false, 0⟩
  xfer := ⟨.idle, 0, 0, false, .undefined, .undefined, .undefined⟩
  div := ⟨0, true⟩

/-- The word of a request: `'0' & addr(30 downto 0) & dout`. -/
def RegO.word (r : RegO) : BitVec 64 := 0#1 ++ r.addr.extractLsb' 0 31 ++ r.dout

/-- The latch process at a rising edge. -/
def latchRising (s : ArtixSpi) (r : RegO) : Latch :=
  if s.xfer.weLatClr then ⟨false, 0⟩  -- wins over a request at the same edge
  else if r.we then ⟨true, r.word⟩
  else s.latch

/-- The latch process at a falling edge. -/
def latchFalling (s : ArtixSpi) : Latch := if s.xfer.weLatClr then ⟨false, 0⟩ else s.latch

/-- The `case` of the transfer process. -/
def xferCase (l : Latch) (x : Xfer) : Xfer :=
  match x.state with
  | .idle =>
    let x := { x with dout := .low, sclk := .low, cs := .high, weLatClr := false }
    -- a request overrides the `cs` just assigned
    if l.weLat then { x with cs := .low, treg := l.spiData, bcnt := 63, state := .clkp1 } else x
  | .clkp1 =>
    -- `dout` gets the top bit of `treg` as it was before the shift
    { x with sclk := .low, state := .clkp2, treg := x.treg <<< 1, dout := .ofBit x.treg.msb }
  | .clkp2 =>
    let x := { x with sclk := .high }
    if x.bcnt = 0 then { x with weLatClr := true, state := .setsync }
    else { x with bcnt := x.bcnt - 1, state := .clkp1 }
  -- the clear stays up until the state is `idle` and the clock enabled once more
  | .setsync => { x with sclk := .low, cs := .high, state := .idle }

/-- The transfer process at a rising edge. -/
def xferRising (s : ArtixSpi) : Xfer := if s.div.clkEnb then xferCase s.latch s.xfer else s.xfer

/-- `clkdivide` at a rising edge. -/
def divRising (d : Div) : Div :=
  if d.clkCnt = 10 then ⟨0, true⟩ else ⟨d.clkCnt + 1, false⟩

def rising (s : ArtixSpi) (r : RegO) : ArtixSpi := ⟨latchRising s r, xferRising s, divRising s.div⟩

def falling (s : ArtixSpi) : ArtixSpi := { s with latch := latchFalling s }

/-- One cycle of `clk`. -/
def cycle (s : ArtixSpi) (r : RegO) : ArtixSpi := falling (rising s r)

/-- The signals after `t` cycles; `regs t` is what the registers hold at the `t`-th rising
edge. -/
def signals (s : ArtixSpi) (regs : Nat → RegO) : Nat → ArtixSpi
  | 0 => s
  | t + 1 => cycle (signals s regs t) (regs t)

/-- The pins of the link. -/
def ArtixSpi.lines (s : ArtixSpi) : Lines := ⟨s.xfer.cs, s.xfer.sclk, s.xfer.dout⟩

/-- The device at the other end, after `t` cycles. -/
def received (s : ArtixSpi) (regs : Nat → RegO) (t : Nat) : Receiver :=
  Receiver.watch (fun t => (signals s regs t).lines) .fresh t

end Acmi.Spi
