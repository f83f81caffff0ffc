import Acmi.Control.Leftover
import Acmi.Control.Protection
import Acmi.Control.SpiRace
import Acmi.Control.AdcTable
import Mathlib.Data.List.GetD

/-!
# What the messages of a client do

A client that knows the protocol sends commands (`Command`), each as one message. Through the
socket, `handle_client`, `client_msg` and the register writes they have the effect that they are
meant to have on the device (`Command.apply`), one after the other, however the stream is cut. When
the connection breaks off, the commands that have arrived whole are carried out, and of the one that
has not nothing is (`commands_executed`).

`Device` says what the commands are for, `Pl` is the register block that they are written to. The
one is seen in the other (`Pl.device`) between two commands, when no line is in the middle of a
pulse (`Pl.Rest`).
-/

namespace Acmi.Control

open Acmi.Lib Acmi.Psc Acmi.Server

/-! ## Commands -/

/-- What a client can ask for. -/
inductive Command
  | fpLeds (v : BitVec 32)
  | eventNo (n : BitVec 32)
  | eventDelay (n : BitVec 32)
  | latchReset
  | forceTrip
  | keylock
  | eeprom (addr data : BitVec 32)
  | adcTable (table : List (BitVec 32)) (fits : table.length ≤ 16000)
  | ping

/-- The number of its message. -/
def Command.msgid : Command → BitVec 16
  | eeprom _ _ => 2
  | adcTable _ _ => 3
  | ping => 5
  | _ => 1

/-- The words of its message. -/
def Command.words : Command → List (BitVec 32)
  | fpLeds v => [fpLedMsg, v]
  | eventNo n => [evrEventNoMsg, n]
  | eventDelay n => [evrEventDlyMsg, n]
  | latchReset => [latchResetMsg, 1]
  | forceTrip => [acisForceTripMsg, 1]
  | keylock => [acisKeylockMsg, 1]
  | eeprom addr data => [addr, data]
  | adcTable table _ => table
  | ping => []

theorem Command.words_length (c : Command) : c.words.length ≤ 16000 := by
  cases c with
  | adcTable table fits => exact fits
  | _ => exact Nat.le_of_ble_eq_true rfl

theorem flatMap_be32_length (ws : List (BitVec 32)) : (ws.flatMap be32).length = 4 * ws.length := by
  induction ws with
  | nil => rfl
  | cons w ws ih =>
    rw [List.flatMap_cons, List.length_append, ih, be32_length, List.length_cons]
    omega

/-- Its message. -/
def Command.frame (c : Command) : Frame where
  msgid := c.msgid
  body := c.words.flatMap be32
  lt := by
    have h := c.words_length
    rw [flatMap_be32_length]
    omega

/-! ## What they are for -/

/-- The settings, the pulses that were given so far, and what the Artix was asked for. -/
structure Device where
  leds : BitVec 8
  eventNo : BitVec 8
  eventDelay : BitVec 32
  resets : Nat
  trips : Nat
  keylock : BitVec 1
  requests : List Request

/-- What the Artix is asked for. The bytes of an EEPROM word go one by one, each behind a write
enable, and the settings are read back. -/
def Command.requests : Command → List Request
  | eeprom addr data =>
    ((eepromCalls addr data).flatMap fun c => [c, (eepromTrig, 1)]) ++ [(eepromReadall, 1)]
  | adcTable table _ => table.mapIdx fun k w => (adcAddr k, w)
  | _ => []

/-- The effect of a command. -/
def Command.apply (d : Device) (c : Command) : Device :=
  match c with
  | fpLeds v => { d with leds := v.setWidth 8 }
  | eventNo n => { d with eventNo := n.setWidth 8 }
  | eventDelay n => { d with eventDelay := n }
  | latchReset => { d with resets := d.resets + 1 }
  | forceTrip => { d with trips := d.trips + 1 }
  | keylock => { d with keylock := 1 }
  | _ => { d with requests := d.requests ++ c.requests }

/-! ## The register block -/

/-- The registers that a client gets to write, with the falling edges of the two pulsed lines and
the requests seen by the SPI master. -/
structure Pl where
  leds : BitVec 8
  eventNo : BitVec 8
  eventDelay : BitVec 32
  lines : Lines
  spi : SpiPort
  resets : Nat
  trips : Nat

/-- A falling edge. -/
def fell (old new : BitVec 1) : Nat := if old = 1 ∧ new = 0 then 1 else 0

/-- One `Xil_Out32`, with the widths of `pl_regs.rdl`. -/
def Pl.write (p : Pl) (w : RegWrite) : Pl where
  leds := if w.reg = .fpLeds then w.val.setWidth 8 else p.leds
  eventNo := if w.reg = .evrFeTrignum then w.val.setWidth 8 else p.eventNo
  eventDelay := if w.reg = .evrFeTrigdly then w.val else p.eventDelay
  lines := p.lines.write w
  spi := p.spi.write 0 w
  resets := p.resets + fell p.lines.latchReset (p.lines.write w).latchReset
  trips := p.trips + fell p.lines.acisForceTrip (p.lines.write w).acisForceTrip

def Pl.run (p : Pl) (ws : List RegWrite) : Pl := ws.foldl Pl.write p

/-- The device in it. -/
def Pl.device (p : Pl) : Device where
  leds := p.leds
  eventNo := p.eventNo
  eventDelay := p.eventDelay
  resets := p.resets
  trips := p.trips
  keylock := p.lines.acisKeylock
  requests := p.spi.seen.map Prod.snd

/-- No pulse is on. -/
structure Pl.Rest (p : Pl) : Prop where
  latchReset : p.lines.latchReset = 1
  acisForceTrip : p.lines.acisForceTrip = 1
  we : p.spi.we = 0

theorem Pl.run_append (p : Pl) (ws ws' : List RegWrite) : p.run (ws ++ ws') = (p.run ws).run ws' :=
  List.foldl_append ..

/-! ## A message and its words -/

/-- A byte of a list of words. -/
theorem getElem?_flatMap_be32 (ws : List (BitVec 32)) (k : Nat) {j : Nat} (hj : j < 4) :
    (ws.flatMap be32)[4 * k + j]? = ws[k]?.bind fun w => (be32 w)[j]? := by
  induction ws generalizing k with
  | nil => rfl
  | cons w ws ih =>
    rw [List.flatMap_cons]
    cases k with
    | zero =>
      rw [Nat.mul_zero, Nat.zero_add, List.getElem?_append_left hj]
      rfl
    | succ k =>
      have hlater : 4 * (k + 1) + j - (be32 w).length = 4 * k + j := by
        rw [be32_length]
        omega
      rw [List.getElem?_append_right (by rw [be32_length]; omega), hlater, ih]
      rfl

/-- **A handler reads the words of the message**, whatever was in the buffer. -/
theorem htonl_load32_write (m : Mem) {ws : List (BitVec 32)} {k : Nat} {w : BitVec 32}
    (hk : ws[k]? = some w) : htonl ((m.write 0 (ws.flatMap be32)).load32 (4 * k)) = w := by
  have hbyte : ∀ {j} (hj : j < 4),
      m.write 0 (ws.flatMap be32) (4 * k + j) =
        (be32 w).get ⟨j, by rw [be32_length]; exact hj⟩ := by
    intro j hj
    have hget : (ws.flatMap be32)[4 * k + j]? = (be32 w)[j]? := by
      rw [getElem?_flatMap_be32 ws k hj, hk]
      rfl
    rw [Mem.write, if_pos (Nat.zero_le _), Nat.sub_zero, hget, List.getElem?_eq_getElem]
    rfl
  have h0 := hbyte (j := 0) (by decide)
  rw [Nat.add_zero] at h0
  rw [htonl_load32, h0, hbyte (j := 1) (by decide), hbyte (j := 2) (by decide),
    hbyte (j := 3) (by decide)]
  exact append_bytes32 w

/-- The writes of a command. -/
def Command.writes : Command → List RegWrite
  | fpLeds v => [⟨.fpLeds, v⟩]
  | eventNo n => [⟨.evrFeTrignum, n⟩]
  | eventDelay n => [⟨.evrFeTrigdly, n⟩]
  | latchReset => [⟨.latchReset, 0⟩, ⟨.latchReset, 1⟩]
  | forceTrip => [⟨.acisForceTrip, 0⟩, ⟨.acisForceTrip, 1⟩]
  | keylock => [⟨.acisKeylock, 1⟩]
  | c => c.requests.flatMap fun r => spiRequest r.1 r.2

theorem regSettings_write (m : Mem) (addr data : BitVec 32) :
    regSettings (m.write 0 ([addr, data].flatMap be32)) = regCommand addr data := by
  rw [regSettings]
  have h0 : htonl ((m.write 0 ([addr, data].flatMap be32)).load32 0) = addr :=
    htonl_load32_write m (k := 0) rfl
  have h1 : htonl ((m.write 0 ([addr, data].flatMap be32)).load32 4) = data :=
    htonl_load32_write m (k := 1) rfl
  rw [h0, h1]

theorem regCommand_words {addr data : BitVec 32} {ws : List RegWrite} (len : BitVec 32) (m : Mem)
    (h : regCommand addr data = ws) :
    clientMsg 1 len (m.write 0 ([addr, data].flatMap be32)) = ws := by
  rw [clientMsg_one, regSettings_write, h]

theorem mapIdx_eq_range (table : List (BitVec 32)) (f : Nat → BitVec 32 → Request) :
    table.mapIdx f = (List.range table.length).map fun k => f k (table.getD k 0) := by
  apply List.ext_getElem
  · rw [List.length_mapIdx, List.length_map, List.length_range]
  · intro k hk _
    rw [List.length_mapIdx] at hk
    rw [List.getElem_mapIdx, List.getElem_map, List.getElem_range, List.getD_eq_getElem _ _ hk]

/-- **The writes for a message are those of the command**, whatever came before it. -/
theorem clientMsg_command (c : Command) (m : Mem) :
    clientMsg c.frame.msgid (BitVec.ofNat 32 c.frame.body.length) (m.write 0 c.frame.body) =
      c.writes := by
  cases c with
  | fpLeds v => exact regCommand_words _ m rfl
  | eventNo n => exact regCommand_words _ m rfl
  | eventDelay n => exact regCommand_words _ m rfl
  | latchReset => exact regCommand_words _ m rfl
  | forceTrip => exact regCommand_words _ m rfl
  | keylock => exact regCommand_words _ m rfl
  | eeprom addr data =>
    refine (clientMsg_two _ _).trans ?_
    have h0 : htonl ((m.write 0 ([addr, data].flatMap be32)).load32 0) = addr :=
      htonl_load32_write m (k := 0) rfl
    have h1 : htonl ((m.write 0 ([addr, data].flatMap be32)).load32 4) = data :=
      htonl_load32_write m (k := 1) rfl
    show eepromSettings (m.write 0 ([addr, data].flatMap be32)) = _
    show _ = (Command.eeprom addr data).requests.flatMap fun r => spiRequest r.1 r.2
    rw [eepromSettings, h0, h1, Command.requests, List.flatMap_append, List.flatMap_assoc]
    rfl
  | adcTable table fits =>
    have hlen : (BitVec.ofNat 32 (table.flatMap be32).length).toNat / 4 = table.length := by
      rw [flatMap_be32_length, BitVec.toNat_ofNat, Nat.mod_eq_of_lt (by omega)]
      omega
    have hwrites : writeAdcTable (m.write 0 (table.flatMap be32))
        (BitVec.ofNat 32 (table.flatMap be32).length) =
          (table.mapIdx fun k w => (adcAddr k, w)).flatMap fun r => spiRequest r.1 r.2 := by
      unfold writeAdcTable
      rw [hlen]
      dsimp only
      rw [if_neg (Nat.not_lt.mpr fits), mapIdx_eq_range, List.flatMap_map]
      apply List.flatMap_congr
      intro k hk
      have hlt := List.mem_range.mp hk
      rw [htonl_load32_write m (List.getElem?_eq_getElem hlt), List.getD_eq_getElem _ _ hlt,
        adcAddr]
    exact hwrites
  | ping => rfl

/-! ## The effect of the writes -/

@[simp] theorem fell_self (b : BitVec 1) : fell b b = 0 := by
  unfold fell
  rw [if_neg]
  intro h
  rw [h.1] at h
  exact absurd h.2 (by decide)

/-- A request is seen, and nothing else happens. -/
theorem run_request {p : Pl} (hrest : p.Rest) (r : Request) : p.run (spiRequest r.1 r.2) =
    { p with spi := ⟨r.2, r.1, 0, p.spi.seen ++ [(0, r)]⟩ } := by
  have hwe := hrest.we
  simp [Pl.run, spiRequest, Pl.write, Lines.write, SpiPort.write, hwe]

theorem run_requests {p : Pl} (hrest : p.Rest) (rs : List Request) :
    (p.run (rs.flatMap fun r => spiRequest r.1 r.2)).Rest ∧
      (p.run (rs.flatMap fun r => spiRequest r.1 r.2)).device =
        { p.device with requests := p.device.requests ++ rs } := by
  induction rs generalizing p with
  | nil => exact ⟨hrest, by rw [List.append_nil]; rfl⟩
  | cons r rs ih =>
    rw [List.flatMap_cons, Pl.run_append, run_request hrest]
    obtain ⟨hrest', hdevice⟩ := ih (p := { p with spi := ⟨r.2, r.1, 0, p.spi.seen ++ [(0, r)]⟩ })
      ⟨hrest.latchReset, hrest.acisForceTrip, rfl⟩
    refine ⟨hrest', hdevice.trans ?_⟩
    simp [Pl.device]

/-- **A command has its effect.** -/
theorem run_command {p : Pl} (hrest : p.Rest) (c : Command) :
    (p.run c.writes).Rest ∧ (p.run c.writes).device = c.apply p.device := by
  have hreset := hrest.latchReset
  have htrip := hrest.acisForceTrip
  have hwe := hrest.we
  cases c with
  | eeprom addr data => exact run_requests hrest _
  | adcTable table fits => exact run_requests hrest _
  | ping => exact run_requests hrest []
  | fpLeds _ | eventNo _ | eventDelay _ | latchReset | forceTrip | keylock =>
    refine ⟨⟨?_, ?_, ?_⟩, ?_⟩ <;>
      simp [Pl.run, Command.writes, Command.apply, Pl.write, Pl.device, Lines.write, SpiPort.write,
        fell, hreset, htrip, hwe]

theorem run_commands {p : Pl} (hrest : p.Rest) (cs : List Command) :
    (p.run (cs.flatMap Command.writes)).Rest ∧
      (p.run (cs.flatMap Command.writes)).device = cs.foldl Command.apply p.device := by
  induction cs generalizing p with
  | nil => exact ⟨hrest, rfl⟩
  | cons c cs ih =>
    obtain ⟨hrest', hdevice⟩ := run_command hrest c
    rw [List.flatMap_cons, Pl.run_append, List.foldl_cons, ← hdevice]
    exact ih hrest'

/-! ## The connection -/

/-- A message fits into the buffer. -/
theorem frame_received (c : Command) :
    c.frame.body.take rxbufSize.toNat = c.frame.body ∧
      min c.frame.body.length rxbufSize.toNat = c.frame.body.length := by
  have hsize : rxbufSize.toNat = 200008 := rfl
  have hlen : c.frame.body.length = 4 * c.words.length := flatMap_be32_length _
  have hwords := c.words_length
  exact ⟨List.take_of_length_le (by omega), by omega⟩

/-- What is delivered makes the writes of the commands. -/
theorem deliver_commands (cs : List Command) (rxbuf : Mem) :
    (deliver rxbuf (cs.map Command.frame)).map (fun d => clientMsg d.msgid d.msglen d.rxbuf) =
      cs.map Command.writes := by
  induction cs generalizing rxbuf with
  | nil => rfl
  | cons c cs ih =>
    obtain ⟨htake, hmin⟩ := frame_received c
    rw [List.map_cons, deliver, List.map_cons, ih, htake, hmin, clientMsg_command, List.map_cons]

/-- What has arrived of some commands are the first of them. -/
theorem parse_commands {cs : List Command} {stream : List Byte}
    (hsent : stream <+: frameBytes (cs.map Command.frame)) :
    (parse stream).length ≤ cs.length ∧
      parse stream = (cs.take (parse stream).length).map Command.frame := by
  have hprefix := parse_of_prefix hsent
  refine ⟨?_, ?_⟩
  · have h := hprefix.length_le
    rwa [List.length_map] at h
  · rw [List.map_take]
    exact List.prefix_iff_eq_take.mp hprefix

/-- The writes of a connection on which only commands come. -/
theorem connWrites_commands (cut : Nat → Nat) {cs : List Command} {stream : List Byte}
    (hsent : stream <+: frameBytes (cs.map Command.frame)) :
    connWrites (fun i => .data (cut i)) stream =
      some ((cs.take (parse stream).length).map Command.writes) := by
  have hnet : Cuts fun i => .data (cut i) := fun i => ⟨cut i, rfl⟩
  unfold connWrites
  rw [handleClient_eq hnet _ ⟨stream, []⟩ (fun _ => 0) (Nat.lt_succ_self _), Option.map_some]
  show some (List.map _ (deliver _ (parse stream))) = _
  rw [← deliver_commands _ (fun _ => 0), ← (parse_commands hsent).2]

/-- **Commands are carried out.** For every sequence of commands, however it is cut on the way and
wherever the connection breaks off, the commands that have arrived whole take effect in the order in
which they were sent, and nothing else does; between two commands the lines are at rest. -/
theorem commands_executed (cut : Nat → Nat) (cs : List Command) (stream : List Byte)
    (hsent : stream <+: frameBytes (cs.map Command.frame)) {p : Pl} (hrest : p.Rest) :
    ∃ wss n, connWrites (fun i => .data (cut i)) stream = some wss ∧ n ≤ cs.length ∧
      (stream = frameBytes (cs.map Command.frame) → n = cs.length) ∧
      (∃ rest, stream = frameBytes ((cs.take n).map Command.frame) ++ rest ∧
        ∀ f : Frame, ¬ f.bytes <+: rest) ∧
      (p.run wss.flatten).Rest ∧
      (p.run wss.flatten).device = (cs.take n).foldl Command.apply p.device := by
  obtain ⟨hlen, hparse⟩ := parse_commands hsent
  have hend := parse_spec stream
  rw [hparse] at hend
  obtain ⟨hrest', hdevice⟩ := run_commands hrest (cs.take (parse stream).length)
  refine ⟨_, (parse stream).length, connWrites_commands cut hsent, hlen, fun hall => ?_, hend, ?_,
    ?_⟩
  · rw [hall, parse_frameBytes, List.length_map]
  · rw [← List.flatMap_def]
    exact hrest'
  · rw [← List.flatMap_def]
    exact hdevice

/-- The registers out of reset. -/
def Pl.start : Pl := ⟨0, 0, 0, ⟨1, 1, 1⟩, ⟨0, 0, 0, []⟩, 0, 0⟩

theorem start_rest : Pl.start.Rest := ⟨rfl, rfl, rfl⟩

/-- The delay is set, and the faults are reset. -/
def delayAndReset : List Command := [.eventDelay 1000, .latchReset]

theorem commands_executed_delay : ∃ wss,
    connWrites (fun _ => .data 3) (frameBytes (delayAndReset.map Command.frame)) = some wss ∧
      (Pl.start.run wss.flatten).device = ⟨0, 0, 1000, 1, 0, 1, []⟩ := by
  obtain ⟨wss, n, hwss, -, hall, -, -, hdevice⟩ :=
    commands_executed (fun _ => 3) delayAndReset _ (List.prefix_refl _) start_rest
  rw [hall rfl, List.take_length] at hdevice
  exact ⟨wss, hwss, hdevice⟩

end Acmi.Control
