import Acmi.Ivt.Tables

/-!
# `ivt_i2c_cntrl.vhd`: the two processes of `qafe_monitors`

`data_con` runs on the system clock and picks the transactions, `i2c_con` runs on `i2c_clk`,
which is bit 6 of a counter of that clock, and puts them on the bus. They hand over through
`i2c_trig` and `i2c_ready`.

`i2c_clk` goes through a clock buffer, so where its edge falls among the edges of the clock is
not known. `Bench` is the entity with that left open: an edge of the clock at which
`clkcnt(6)` rises makes an edge of `i2c_con` due, and it comes at any time before the next
rise, between two edges of the clock or together with one (`step`). What `i2c_con` finds on
the data line is part of the event, so a run is a schedule with a behaviour of the line.

Two parts of `Bench` are no signals: the monitor that watches the bus, and the number of rounds
that a strobe started.

Mirroring notes:
- `i2c_con` is reset at an edge of `i2c_clk`, and there is none while `reset` holds `clkcnt` at
  zero. So `Reset` has the processes in the state in which their resets leave them, but nothing
  is said about `i2c_ready`, `rreg` and `bit_count`, nor about an edge that is still due. A
  reset in the middle of a transaction is no start of a run.
- The integers of the source have ranges. Here they are natural numbers, and that they stay in
  range is part of `InRange`.
- `sda` is an open-drain line, so what `i2c_con` reads may be low when it drives it high. Here
  every level can be read at any time.
- `addr`, `dlytime` and `readtemp` are used by nothing and are left out.
-/

namespace Acmi.Ivt

open Acmi.Lib

/-- `i2c_state_type`. -/
inductive I2cState
  | idle
  | start
  | clkP1
  | clkP2
  | clkP3
  | clkP4
  | stopP1
  | stopP2
  | stopP3
  | stopP4
  deriving DecidableEq, Repr

/-- `data_state_type`. -/
inductive DataState
  | idle
  | config
  | read
  | waiting
  deriving DecidableEq, Repr

/-- The signals of `data_con`. -/
structure DataCon where
  bcnt : Nat
  treg : BitVec 36
  state : DataState
  i2cTrig : Bool
  stepCount : Nat
  registers : Reg → BitVec 16

/-- The signals of `i2c_con`. -/
structure I2cCon where
  state : I2cState
  i2cReady : Bool
  rreg : BitVec 36
  bitCount : Nat
  intScl : Bool
  intSda : Bool
  deriving DecidableEq

/-! ## `data_con` -/

/-- The register that the `case` over `step_count` updates. -/
def regAt : Nat → Option Reg
  | 25 => some (.temp 0)
  | 26 => some (.temp 1)
  | 27 => some (.temp 2)
  | 28 => some (.temp 3)
  | 37 => some (.vreg 0)
  | 38 => some (.vreg 1)
  | 39 => some (.vreg 2)
  | 40 => some (.vreg 3)
  | 41 => some (.vreg 4)
  | 42 => some (.vreg 5)
  | 43 => some (.vreg 6)
  | 44 => some (.vreg 7)
  | 53 => some (.ireg 0)
  | 54 => some (.ireg 1)
  | 55 => some (.ireg 2)
  | 56 => some (.ireg 3)
  | 57 => some (.ireg 4)
  | 58 => some (.ireg 5)
  | 59 => some (.ireg 6)
  | 60 => some (.ireg 7)
  | _ => none

/-- `rreg(17 downto 10) & rreg(8 downto 1)`. -/
def rregData (rreg : BitVec 36) : BitVec 16 := rreg.extractLsb' 10 8 ++ rreg.extractLsb' 1 8

/-- The registers behind the `case` over `step_count`. -/
def DataCon.receive (d : DataCon) (rreg : BitVec 36) : Reg → BitVec 16 := fun r =>
  if regAt d.stepCount = some r then rregData rreg else d.registers r

/-- Take over entry `k` and ask for it. -/
def DataCon.load (d : DataCon) (k : Nat) : DataCon :=
  { d with treg := dataAt k, bcnt := sizeAt k, stepCount := d.stepCount + 1, i2cTrig := true }

/-- `data_con` at a rising edge of `clock`. -/
def dataCon (d : DataCon) (strobe i2cReady : Bool) (rreg : BitVec 36) : DataCon :=
  if i2cReady then
    match d.state with
    | .idle => { d with state := .config }
    | .config =>
      if d.i2cTrig then d
      -- `step_count` is the entry to send next
      else if d.stepCount < 24 then d.load d.stepCount
      else { d with state := .read }
    | .read =>
      if d.i2cTrig then d
      else if d.stepCount < 61 then
        -- `step_count` is the entry sent last
        let d := { d with registers := d.receive rreg }
        if d.stepCount ≠ 60 then d.load (d.stepCount + 1) else { d with state := .waiting }
      else { d with state := .waiting }
    | .waiting => if strobe then { d with state := .read, stepCount := 24 } else d
  else { d with i2cTrig := false }

section

variable {d : DataCon} {s : Bool} {rreg : BitVec 36}

theorem dataCon_notReady : dataCon d s false rreg = { d with i2cTrig := false } := rfl

theorem dataCon_idle (hs : d.state = .idle) :
    dataCon d s true rreg = { d with state := .config } := by
  simp [dataCon, hs]

theorem dataCon_config (hs : d.state = .config) (ht : d.i2cTrig = false) (hlt : d.stepCount < 24) :
    dataCon d s true rreg = d.load d.stepCount := by
  simp [dataCon, hs, ht, hlt]

/-- The way out of `CONFIG`. -/
theorem dataCon_config_leave (hs : d.state = .config) (ht : d.i2cTrig = false)
    (hge : ¬ d.stepCount < 24) : dataCon d s true rreg = { d with state := .read } := by
  simp [dataCon, hs, ht, hge]

theorem dataCon_read (hs : d.state = .read) (ht : d.i2cTrig = false) (hlt : d.stepCount < 60) :
    dataCon d s true rreg = { d with registers := d.receive rreg }.load (d.stepCount + 1) := by
  have hlt' : d.stepCount < 61 := by omega
  have hne : d.stepCount ≠ 60 := by omega
  simp [dataCon, hs, ht, hlt', hne]

theorem dataCon_read_last (hs : d.state = .read) (ht : d.i2cTrig = false)
    (h60 : d.stepCount = 60) :
    dataCon d s true rreg = { d with registers := d.receive rreg, state := .waiting } := by
  simp [dataCon, hs, ht, h60]

theorem dataCon_waiting (hs : d.state = .waiting) : dataCon d false true rreg = d := by
  simp [dataCon, hs]

theorem dataCon_strobe (hs : d.state = .waiting) :
    dataCon d true true rreg = { d with state := .read, stepCount := 24 } := by
  simp [dataCon, hs]

end

/-! ## `i2c_con` -/

/-- `rreg(i) <= b`. -/
def setBit (rreg : BitVec 36) (i : Nat) (b : Bool) : BitVec 36 :=
  if b then rreg ||| (1#36 <<< i) else rreg &&& ~~~(1#36 <<< i)

/-- `i2c_con` at a rising edge of `i2c_clk`; `sda` is the level of the data line. -/
def i2cCon (c : I2cCon) (d : DataCon) (sda : Bool) : I2cCon :=
  match c.state with
  | .idle =>
    if d.i2cTrig then { c with rreg := 0, i2cReady := false, bitCount := d.bcnt, state := .start }
    else { c with intScl := true, intSda := true, i2cReady := true }
  | .start => { c with intSda := false, state := .clkP1 }
  | .clkP1 =>
    let c := { c with intScl := false }
    if c.bitCount = 0 then { c with intSda := false, state := .stopP1 }
    else { c with state := .clkP2 }
  | .clkP2 => { c with intSda := d.treg.getLsbD (c.bitCount - 1), state := .clkP3 }
  | .clkP3 => { c with intScl := true, state := .clkP4 }
  | .clkP4 =>
    if 0 < c.bitCount then
      { c with
        rreg := setBit c.rreg (c.bitCount - 1) sda
        bitCount := c.bitCount - 1
        state := .clkP1 }
    else { c with state := .clkP1 }
  | .stopP1 => { c with state := .stopP2 }
  | .stopP2 => { c with intScl := true, state := .stopP3 }
  | .stopP3 => { c with intSda := true, state := .idle }
  | .stopP4 => { c with state := .idle, intScl := true, intSda := true }

/-! ## Both processes and the bus -/

/-- The entity, with an edge of `i2c_clk` that may be due, the monitor of the bus, and the
number of rounds that a strobe started. -/
structure Bench where
  clkcnt : BitVec 32
  data : DataCon
  i2c : I2cCon
  due : Bool
  bus : Monitor
  started : Nat

/-- The lines as `i2c_con` drives them. -/
def I2cCon.lines (c : I2cCon) : I2cLines := ⟨c.intScl, c.intSda⟩

/-- `strobe`. -/
def strobe (clkcnt : BitVec 32) : Bool := clkcnt.extractLsb' 10 16 == 0xFFFF

/-- Counting on from here makes `clkcnt(6)` rise. -/
def rises (clkcnt : BitVec 32) : Bool := !clkcnt.getLsbD 6 && (clkcnt + 1).getLsbD 6

/-- The strobe takes `data_con` out of `WAITING`. -/
def Bench.starts (b : Bench) : Bool :=
  b.i2c.i2cReady && b.data.state == .waiting && strobe b.clkcnt

/-- An edge of `clock`: `clkgen` and `data_con`. -/
def Bench.clockEdge (b : Bench) : Bench :=
  { b with
    clkcnt := b.clkcnt + 1
    data := dataCon b.data (strobe b.clkcnt) b.i2c.i2cReady b.i2c.rreg
    due := b.due || rises b.clkcnt
    started := if b.starts then b.started + 1 else b.started }

/-- What the monitor makes of an edge of `i2c_clk`: it notes the level that `i2c_con` takes off
the data line, and sees where the lines go. -/
def busBehind (c : I2cCon) (d : DataCon) (bus : Monitor) (sda : Bool) : Monitor :=
  (if c.state = .clkP4 then bus.sample sda else bus).see c.lines (i2cCon c d sda).lines

/-- An edge of `i2c_clk`. -/
def Bench.i2cEdge (b : Bench) (sda : Bool) : Bench :=
  { b with
    i2c := i2cCon b.i2c b.data sda
    due := false
    bus := busBehind b.i2c b.data b.bus sda }

/-- Both edges at once: each process works on the signals as they were. -/
def Bench.bothEdges (b : Bench) (sda : Bool) : Bench :=
  { b.i2cEdge sda with
    clkcnt := b.clockEdge.clkcnt
    data := b.clockEdge.data
    started := b.clockEdge.started }

/-- What happens next, with the level of the data line at an edge of `i2c_clk`. -/
inductive Event
  | clk
  | i2c (sda : Bool)
  | both (sda : Bool)
  deriving DecidableEq, Repr

/-- Is there an edge of `i2c_clk`? -/
def Event.isI2c : Event → Bool
  | .clk => false
  | .i2c _ => true
  | .both _ => true

/-- Is there an edge of `clock`? -/
def Event.isClk : Event → Bool
  | .clk => true
  | .i2c _ => false
  | .both _ => true

/-- One event. An edge of `i2c_clk` comes when it is due, and before the next rise of
`clkcnt(6)`. -/
def step (b : Bench) : Event → Option Bench
  | .clk => if b.due && rises b.clkcnt then none else some b.clockEdge
  | .i2c sda => if b.due then some (b.i2cEdge sda) else none
  | .both sda => if b.due && !rises b.clkcnt then some (b.bothEdges sda) else none

/-- What an event does. -/
theorem step_cases {b b' : Bench} {e : Event} (h : step b e = some b') :
    (e = .clk ∧ b' = b.clockEdge) ∨
    (∃ sda, e = .i2c sda ∧ b.due = true ∧ b' = b.i2cEdge sda) ∨
    (∃ sda, e = .both sda ∧ b.due = true ∧ rises b.clkcnt = false ∧ b' = b.bothEdges sda) := by
  cases e with
  | clk =>
    simp only [step, Option.ite_none_left_eq_some, Option.some.injEq] at h
    exact .inl ⟨rfl, h.2.symm⟩
  | i2c sda =>
    simp only [step, Option.ite_none_right_eq_some, Option.some.injEq] at h
    exact .inr (.inl ⟨sda, rfl, h.1, h.2.symm⟩)
  | both sda =>
    simp only [step, Option.ite_none_right_eq_some, Option.some.injEq, Bool.and_eq_true,
      Bool.not_eq_true'] at h
    exact .inr (.inr ⟨sda, rfl, h.1.1, h.1.2, h.2.symm⟩)

/-- The entity comes out of reset. -/
structure Reset (b : Bench) : Prop where
  clkcnt : b.clkcnt = 0
  bcnt : b.data.bcnt = 0
  treg : b.data.treg = 0
  dataState : b.data.state = .idle
  i2cTrig : b.data.i2cTrig = false
  stepCount : b.data.stepCount = 0
  i2cState : b.i2c.state = .idle
  lines : b.i2c.lines = .high
  bitCount : b.i2c.bitCount ≤ 127
  bus : b.bus = .fresh
  started : b.started = 0

/-! ## What a state is about to do -/

/-- The register that an edge of `clock` updates here. -/
def Bench.assigned (b : Bench) : Option Reg :=
  if b.i2c.i2cReady && b.data.state == .read && !b.data.i2cTrig && b.data.stepCount < 61 then
    regAt b.data.stepCount
  else none

/-- The entry that an edge of `clock` looks up here. -/
def Bench.tableIndex (b : Bench) : Option Nat :=
  if b.i2c.i2cReady && !b.data.i2cTrig then
    match b.data.state with
    | .config => if b.data.stepCount < 24 then some b.data.stepCount else none
    | .read => if b.data.stepCount < 60 then some (b.data.stepCount + 1) else none
    | _ => none
  else none

/-- The bit of `treg` or `rreg` that an edge of `i2c_clk` uses here. -/
def Bench.bitIndex (b : Bench) : Option Int :=
  match b.i2c.state with
  | .clkP2 => some (b.i2c.bitCount - 1)
  | .clkP4 => if 0 < b.i2c.bitCount then some (b.i2c.bitCount - 1) else none
  | _ => none

/-- Indices and counters are in the ranges of the source. -/
structure InRange (b : Bench) : Prop where
  table : ∀ k, b.tableIndex = some k → k < i2cData.length ∧ k < i2cSize.length
  bit : ∀ i, b.bitIndex = some i → 0 ≤ i ∧ i < dataSize
  stepCount : b.data.stepCount ≤ 127
  bcnt : b.data.bcnt ≤ 127
  bitCount : b.i2c.bitCount ≤ 127

end Acmi.Ivt
