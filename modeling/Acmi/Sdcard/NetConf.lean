import Acmi.Lib.CString

/-!
# Reading NET.CNF

`sdcard_netconf` reads the file with `f_gets` into a buffer of 64 bytes and cuts each piece it
gets into a command and an argument, in place: four scanning loops move `line` over the buffer,
and two NULs are written into it. Here a pointer is a position in the buffer, and the buffer is
carried from one piece to the next with what the last one left in it.

Mirroring notes:
- The file is the list of its bytes; `f_gets` takes what it returns off the front. It returns
  NULL, which ends the loop, when there is nothing left. A read error ends the loop the same
  way, so a file that cannot be read to its end is the part that could be read.
- `inet_aton` belongs to lwIP: it is a parameter, `none` for an address it does not accept, in
  which case it leaves its second argument as it was.
- The messages printed along the way are left out here; `Warnings` has those about a line.
-/

namespace Acmi.Sdcard

open Acmi.Lib

/-- `net_config`, as far as `sdcard_netconf` fills it in. -/
structure NetConfig where
  addr : BitVec 32
  mask : BitVec 32
  gw : BitVec 32
  useStatic : Byte
  hwaddr : Vector Byte 6
  deriving DecidableEq

def ascii (s : String) : List Byte := s.toList.map fun c => BitVec.ofNat 8 c.toNat

def lwipIsspace (c : Byte) : Bool :=
  c == 0x20 || c == 0x0c || c == 0x0a || c == 0x0d || c == 0x09 || c == 0x0b

/-- `line[0] && !lwip_isspace(line[0])`. -/
def inWord (c : Byte) : Bool := c != 0 && !lwipIsspace c

/-! ## The file -/

/-- `f_gets` with room for `n` characters: what it reads and what it leaves in the file. It stops
after a newline. -/
def fGets : Nat → List Byte → List Byte × List Byte
  | 0, file => ([], file)
  | _ + 1, [] => ([], [])
  | n + 1, c :: file =>
    if c = 0x0a then ([c], file)
    else
      let r := fGets n file
      (c :: r.1, r.2)

/-- What `f_gets` leaves in the buffer: the characters, a NUL, and the rest as it was. -/
def stored (chunk lbuf : List Byte) : List Byte := chunk ++ 0 :: lbuf.drop (chunk.length + 1)

/-- `sizeof(lbuf)` -/
def sizeofLbuf : Nat := 64

theorem fGets_newline (n : Nat) (file : List Byte) :
    fGets (n + 1) (0x0a :: file) = ([0x0a], file) := by
  rw [fGets, if_pos rfl]

theorem fGets_cons (n : Nat) {c : Byte} (hc : c ≠ 0x0a) (file : List Byte) :
    fGets (n + 1) (c :: file) = (c :: (fGets n file).1, (fGets n file).2) := by
  rw [fGets, if_neg hc]

theorem fGets_append (n : Nat) (file : List Byte) :
    (fGets n file).1 ++ (fGets n file).2 = file := by
  induction n generalizing file with
  | zero => rfl
  | succ n ih =>
    cases file with
    | nil => rfl
    | cons c file =>
      by_cases hc : c = 0x0a
      · rw [hc, fGets_newline]
        rfl
      · rw [fGets_cons n hc, List.cons_append, ih]

theorem fGets_length_le (n : Nat) (file : List Byte) : (fGets n file).1.length ≤ n := by
  induction n generalizing file with
  | zero => exact Nat.le_refl 0
  | succ n ih =>
    cases file with
    | nil => exact Nat.zero_le _
    | cons c file =>
      by_cases hc : c = 0x0a
      · rw [hc, fGets_newline]
        exact Nat.le_add_left 1 n
      · rw [fGets_cons n hc]
        exact Nat.succ_le_succ (ih file)

theorem fGets_rest_length {n : Nat} {file : List Byte} (h : (fGets n file).1 ≠ []) :
    (fGets n file).2.length < file.length := by
  have happ := congrArg List.length (fGets_append n file)
  have hpos := List.length_pos_iff.mpr h
  rw [List.length_append] at happ
  omega

/-! ## One line -/

/-- One hexadecimal digit or-ed into `out`; `none` where the function returns 1. -/
def parseHex (c out : Byte) : Option Byte :=
  if 0x30 ≤ c ∧ c ≤ 0x39 then some (out ||| (c - 0x30))
  else if 0x41 ≤ c ∧ c ≤ 0x46 then some (out ||| (c - 0x41 + 10))
  else if 0x61 ≤ c ∧ c ≤ 0x66 then some (out ||| (c - 0x61 + 10))
  else none

/-- The loop over the six parts of `XX:XX:XX:XX:XX:XX`, from part `n` on with `left` to go; `arg i`
is `arg[i]`. `none` where the loop is left without the `memcpy`. -/
def parseHwaddr (arg : Nat → Byte) : Nat → Nat → Vector Byte 6 → Option (Vector Byte 6)
  | 0, _, _ => none
  | left + 1, n, hwaddr => do
    let hi ← parseHex (arg (n * 3)) (hwaddr.getD n 0)
    let byte ← parseHex (arg (n * 3 + 1)) (hi <<< 4)
    let hwaddr := hwaddr.setIfInBounds n byte
    if n < 5 ∧ arg (n * 3 + 2) = 0x3a then parseHwaddr arg left (n + 1) hwaddr
    else if n = 5 ∧ arg (n * 3 + 2) = 0 then some hwaddr
    else none

/-- The positions of `arg` that the loop looks at. -/
def hwaddrReads (arg : Nat → Byte) : Nat → Nat → Vector Byte 6 → List Nat
  | 0, _, _ => []
  | left + 1, n, hwaddr =>
    n * 3 ::
      match parseHex (arg (n * 3)) (hwaddr.getD n 0) with
      | none => []
      | some hi =>
        (n * 3 + 1) ::
          match parseHex (arg (n * 3 + 1)) (hi <<< 4) with
          | none => []
          | some byte =>
            (n * 3 + 2) ::
              if n < 5 ∧ arg (n * 3 + 2) = 0x3a then
                hwaddrReads arg left (n + 1) (hwaddr.setIfInBounds n byte)
              else []

variable (inetAton : List Byte → Option (BitVec 32))

/-- `sdcard_parse_inet`: what `*out` is afterwards. -/
def sdcardParseInet (lbuf : List Byte) (arg : Option Nat) (out : BitVec 32) : BitVec 32 :=
  match arg with
  | none => out
  | some a =>
    match inetAton (cstr lbuf a) with
    | none => out
    | some addr => addr

/-- The chain of `strcmp`s. -/
def netconfCommand (lbuf : List Byte) (cmd : Nat) (arg : Option Nat) (conf : NetConfig) :
    NetConfig :=
  if cstr lbuf cmd = ascii "dhcp" then
    match arg with
    | none => { conf with useStatic := 0 }
    | some a =>
      if cstr lbuf a = ascii "yes" then { conf with useStatic := 0 }
      else if cstr lbuf a = ascii "no" then { conf with useStatic := 1 }
      else conf
  else if cstr lbuf cmd = ascii "addr" then
    { conf with addr := sdcardParseInet inetAton lbuf arg conf.addr, useStatic := 1 }
  else if cstr lbuf cmd = ascii "mask" then
    { conf with mask := sdcardParseInet inetAton lbuf arg conf.mask }
  else if cstr lbuf cmd = ascii "gw" then
    { conf with gw := sdcardParseInet inetAton lbuf arg conf.gw }
  else if cstr lbuf cmd = ascii "hwaddr" then
    match arg with
    | none => conf
    | some a =>
      if cstr lbuf a = ascii "eeprom" then conf
      else
        match parseHwaddr (fun i => byteAt lbuf (a + i)) 6 0 (Vector.replicate 6 0) with
        | none => conf
        | some hwaddr => { conf with hwaddr := hwaddr }
  else conf

/-- The body of the loop: the buffer and the configuration afterwards. -/
def netconfLine (lbuf : List Byte) (conf : NetConfig) : List Byte × NetConfig :=
  let cmd := scan lwipIsspace lbuf 0                  -- skip leading space
  if byteAt lbuf cmd = 0 ∨ byteAt lbuf cmd = 0x23 then (lbuf, conf)
  else
    let cmdend := scan inWord lbuf cmd                -- find space/nil after cmd
    let line := scan lwipIsspace lbuf cmdend          -- maybe skip space between cmd and arg
    let lbuf := lbuf.set cmdend 0                     -- chop out cmd
    if byteAt lbuf line = 0 then (lbuf, netconfCommand inetAton lbuf cmd none conf)
    else
      let arg := line
      let line := scan inWord lbuf arg                -- find space/nil after arg
      let lbuf := lbuf.set line 0                     -- chop out arg
      (lbuf, netconfCommand inetAton lbuf cmd (some arg) conf)

/-- The body as far as the `strcmp`s: the buffer, and where the command and its argument are in it.
`none` where it goes on with the next line. -/
def netconfWords (lbuf : List Byte) : Option (List Byte × Nat × Option Nat) :=
  let cmd := scan lwipIsspace lbuf 0
  if byteAt lbuf cmd = 0 ∨ byteAt lbuf cmd = 0x23 then none
  else
    let cmdend := scan inWord lbuf cmd
    let line := scan lwipIsspace lbuf cmdend
    let lbuf := lbuf.set cmdend 0
    if byteAt lbuf line = 0 then some (lbuf, cmd, none)
    else
      let arg := line
      let line := scan inWord lbuf arg
      some (lbuf.set line 0, cmd, some arg)

theorem netconfLine_words (lbuf : List Byte) (conf : NetConfig) :
    netconfLine inetAton lbuf conf =
      match netconfWords lbuf with
      | none => (lbuf, conf)
      | some (lbuf', cmd, arg) => (lbuf', netconfCommand inetAton lbuf' cmd arg conf) := by
  unfold netconfLine netconfWords
  extract_lets cmd cmdend line lbuf1 arg line2 lbuf2
  split_ifs <;> rfl

/-- `sdcard_netconf`: the configuration it leaves. -/
def sdcardNetconf (lbuf : List Byte) (conf : NetConfig) (file : List Byte) : NetConfig :=
  let r := fGets (sizeofLbuf - 1) file
  if _h : r.1 = [] then conf
  else
    let s := netconfLine inetAton (stored r.1 lbuf) conf
    sdcardNetconf s.1 s.2 r.2
  termination_by file.length
  decreasing_by exact fGets_rest_length _h

/-! ## The buffer -/

theorem stored_length {chunk lbuf : List Byte} (h : chunk.length < lbuf.length) :
    (stored chunk lbuf).length = lbuf.length := by
  rw [stored, List.length_append, List.length_cons, List.length_drop]
  omega

theorem netconfLine_length (lbuf : List Byte) (conf : NetConfig) :
    (netconfLine inetAton lbuf conf).1.length = lbuf.length := by
  unfold netconfLine
  extract_lets cmd cmdend line lbuf1 arg line2 lbuf2
  have h1 : lbuf1.length = lbuf.length := List.length_set
  have h2 : lbuf2.length = lbuf1.length := List.length_set
  split_ifs
  · rfl
  · exact h1
  · exact h2.trans h1

/-- What `f_gets` returns fits the buffer, and the loop leaves the buffer as long as it was. -/
theorem netconfLine_stored_length {lbuf : List Byte} (h : lbuf.length = sizeofLbuf)
    (file : List Byte) (conf : NetConfig) :
    (netconfLine inetAton (stored (fGets (sizeofLbuf - 1) file).1 lbuf) conf).1.length =
      sizeofLbuf := by
  have hle : (fGets (sizeofLbuf - 1) file).1.length ≤ 63 := fGets_length_le 63 file
  have h64 : lbuf.length = 64 := h
  rw [netconfLine_length, stored_length (by omega), h]

end Acmi.Sdcard
