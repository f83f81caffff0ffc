import Acmi.Sdcard.Lines

/-!
# What a rejected line of NET.CNF changes

The warnings of `sdcard_netconf`, branch by branch beside the settings that the same branch makes.
A branch that warns leaves the configuration alone (`netconfCommand_of_warning`), but for `addr`:
`sdcard_parse_inet` does not say that it warned, and `use_static` is set in any case
(`rejected_line_iff`).
-/

namespace Acmi.Sdcard

open Acmi.Lib

/-- What is printed about a line. -/
inductive Warning
  /-- `Warning: %s without addr` -/
  | withoutAddr (cmd : List Byte)
  /-- `Warning: invalid addr: %s %s` -/
  | invalidAddr (cmd arg : List Byte)
  /-- `Warning: unknown: %s %s` -/
  | unknown (cmd arg : List Byte)
  /-- `Warning: truncated hwaddr %s` -/
  | truncatedHwaddr (arg : List Byte)
  /-- `Warning: invalid hwaddr %s` -/
  | invalidHwaddr (arg : List Byte)
  /-- `Warning: unknown cmd %s` -/
  | unknownCmd (cmd : List Byte)
  deriving DecidableEq

/-- The warnings of the loop in `parseHwaddr`; `text` is the argument. -/
def hwaddrWarning (arg : Nat → Byte) (text : List Byte) :
    Nat → Nat → Vector Byte 6 → Option Warning
  | 0, _, _ => none
  | left + 1, n, hwaddr =>
    match parseHex (arg (n * 3)) (hwaddr.getD n 0) with
    | none => some (.truncatedHwaddr text)
    | some hi =>
      match parseHex (arg (n * 3 + 1)) (hi <<< 4) with
      | none => some (.truncatedHwaddr text)
      | some byte =>
        if n < 5 ∧ arg (n * 3 + 2) = 0x3a then
          hwaddrWarning arg text left (n + 1) (hwaddr.setIfInBounds n byte)
        else if n = 5 ∧ arg (n * 3 + 2) = 0 then none
        else some (.invalidHwaddr text)

variable (inetAton : List Byte → Option (BitVec 32))

/-- The warnings of `sdcard_parse_inet`. -/
def inetWarning (lbuf : List Byte) (cmd : Nat) (arg : Option Nat) : Option Warning :=
  match arg with
  | none => some (.withoutAddr (cstr lbuf cmd))
  | some a =>
    match inetAton (cstr lbuf a) with
    | none => some (.invalidAddr (cstr lbuf cmd) (cstr lbuf a))
    | some _ => none

/-- The warnings of the chain of `strcmp`s. -/
def commandWarning (lbuf : List Byte) (cmd : Nat) (arg : Option Nat) : Option Warning :=
  if cstr lbuf cmd = ascii "dhcp" then
    match arg with
    | none => none
    | some a =>
      if cstr lbuf a = ascii "yes" then none
      else if cstr lbuf a = ascii "no" then none
      else some (.unknown (cstr lbuf cmd) (cstr lbuf a))
  else if cstr lbuf cmd = ascii "addr" then inetWarning inetAton lbuf cmd arg
  else if cstr lbuf cmd = ascii "mask" then inetWarning inetAton lbuf cmd arg
  else if cstr lbuf cmd = ascii "gw" then inetWarning inetAton lbuf cmd arg
  else if cstr lbuf cmd = ascii "hwaddr" then
    match arg with
    | none => none
    | some a =>
      if cstr lbuf a = ascii "eeprom" then none
      else
        hwaddrWarning (fun i => byteAt lbuf (a + i)) (cstr lbuf a) 6 0 (Vector.replicate 6 0)
  else some (.unknownCmd (cstr lbuf cmd))

/-- The warning of one pass of the loop. -/
def lineWarning (lbuf : List Byte) : Option Warning :=
  match netconfWords lbuf with
  | none => none
  | some (lbuf', cmd, arg) => commandWarning inetAton lbuf' cmd arg

/-! ## What a warned line changes -/

/-- A warning means that the `memcpy` is not reached. -/
theorem parseHwaddr_of_warning {arg : Nat → Byte} {text : List Byte} {w : Warning} (left n : Nat)
    (hwaddr : Vector Byte 6) (h : hwaddrWarning arg text left n hwaddr = some w) :
    parseHwaddr arg left n hwaddr = none := by
  induction left generalizing n hwaddr with
  | zero => rfl
  | succ left ih =>
    rw [hwaddrWarning] at h
    rw [parseHwaddr]
    cases hhi : parseHex (arg (n * 3)) (hwaddr.getD n 0) with
    | none => rfl
    | some hi =>
      rw [hhi] at h
      dsimp only at h
      show (parseHex (arg (n * 3 + 1)) (hi <<< 4)).bind _ = none
      cases hbyte : parseHex (arg (n * 3 + 1)) (hi <<< 4) with
      | none => rfl
      | some byte =>
        rw [hbyte] at h
        dsimp only at h
        show (if _ then _ else _) = _
        split_ifs at h with hcolon hend
        · rw [if_pos hcolon]
          exact ih _ _ h
        · rw [if_neg hcolon, if_neg hend]

theorem sdcardParseInet_of_warning {lbuf : List Byte} {cmd : Nat} {arg : Option Nat} {w : Warning}
    (h : inetWarning inetAton lbuf cmd arg = some w) (out : BitVec 32) :
    sdcardParseInet inetAton lbuf arg out = out := by
  cases arg with
  | none => rfl
  | some a =>
    cases ha : inetAton (cstr lbuf a) with
    | none =>
      unfold sdcardParseInet
      simp only [ha]
    | some addr =>
      unfold inetWarning at h
      simp only [ha] at h
      cases h

/-- **What a command that is warned about changes**: nothing, or `use_static`. -/
theorem netconfCommand_of_warning {lbuf : List Byte} {cmd : Nat} {arg : Option Nat} {w : Warning}
    (h : commandWarning inetAton lbuf cmd arg = some w) (conf : NetConfig) :
    netconfCommand inetAton lbuf cmd arg conf =
      if cstr lbuf cmd = ascii "addr" then { conf with useStatic := 1 } else conf := by
  unfold commandWarning at h
  unfold netconfCommand
  split_ifs at h ⊢ with hdhcp haddr haddr hmask hgw hhwaddr
  · rw [hdhcp] at haddr
    exact absurd haddr (by decide)
  · cases arg with
    | none => cases h
    | some a =>
      dsimp only at h ⊢
      split_ifs at h ⊢
      rfl
  · rw [sdcardParseInet_of_warning inetAton h]
  · rw [sdcardParseInet_of_warning inetAton h]
  · rw [sdcardParseInet_of_warning inetAton h]
  · cases arg with
    | none => rfl
    | some a =>
      dsimp only at h ⊢
      split_ifs at h ⊢ with heeprom
      rw [parseHwaddr_of_warning 6 0 _ h]
  · rfl

/-- The command of a line. -/
def commandWord (line : List Byte) : Option (List Byte) :=
  (words lwipIsspace (line.takeWhile (· != 0))).head?

theorem netconfLine_of_warning {lbuf : List Byte} (hnul : Terminated lbuf 0)
    (h : lineWarning inetAton lbuf ≠ none) (conf : NetConfig) :
    (netconfLine inetAton lbuf conf).2 =
      if (words lwipIsspace (cstr lbuf 0)).head? = some (ascii "addr") then
        { conf with useStatic := 1 }
      else conf := by
  have hspec := netconfWords_spec hnul
  dsimp only at hspec
  unfold lineWarning at h
  rw [netconfLine_words]
  split_ifs at hspec with hbody
  · rw [hspec] at h
    exact absurd rfl h
  · obtain ⟨lbuf', cmd, arg, args, hcode, hwords, -⟩ := hspec
    rw [hcode] at h ⊢
    obtain ⟨w, hw⟩ := Option.ne_none_iff_exists'.mp h
    rw [hwords, List.head?_cons]
    simp only [Option.some.injEq]
    exact netconfCommand_of_warning inetAton hw conf

/-- The newline that ends a line is not part of a word. -/
theorem commandWord_newline (line : List Byte) :
    commandWord (line ++ [0x0a]) = commandWord line := by
  unfold commandWord
  rw [List.takeWhile_append]
  split_ifs with hall
  · have hself : line.takeWhile (· != 0) = line :=
      (List.takeWhile_prefix _).eq_of_length hall
    rw [hself, show [0x0a].takeWhile (· != (0 : Byte)) = [0x0a] from rfl, words_append_sep rfl,
      words_nil, List.append_nil]
  · rfl

/-- **A rejected line changes nothing, but for `addr`.** The line is the next one of the file, with
anything or nothing behind it: it is read in one piece, and when it is warned about the
configuration stays as it was exactly if its command is not `addr` or the address is static
already. -/
theorem rejected_line_iff {line rest file : List Byte} (hline : 0x0a ∉ line)
    (hlen : line.length ≤ 62) (hfile : file = line ++ 0x0a :: rest ∨ file = line ∧ rest = [])
    (lbuf : Vector Byte 64) (conf : NetConfig) :
    let buf := stored (fGets (sizeofLbuf - 1) file).1 lbuf.toList
    let s := netconfLine inetAton buf conf
    lineWarning inetAton buf ≠ none →
      sdcardNetconf inetAton lbuf.toList conf file = sdcardNetconf inetAton s.1 s.2 rest ∧
        (s.2 = conf ↔ commandWord line ≠ some (ascii "addr") ∨ conf.useStatic = 1) := by
  intro buf s hwarn
  have hread : (fGets (sizeofLbuf - 1) file).2 = rest ∧
      commandWord (fGets (sizeofLbuf - 1) file).1 = commandWord line := by
    rcases hfile with rfl | ⟨rfl, rfl⟩
    · rw [fGets_short_line hline hlen]
      exact ⟨rfl, commandWord_newline line⟩
    · rw [fGets_last_line hline (by omega)]
      exact ⟨rfl, rfl⟩
  have hchunk : (fGets (sizeofLbuf - 1) file).1 ≠ [] := by
    intro hnil
    have hspec := netconfWords_spec (terminated_stored (fGets (sizeofLbuf - 1) file).1 lbuf.toList)
    rw [hnil] at hspec
    have hnone : netconfWords buf = none := by
      show netconfWords (stored (fGets (sizeofLbuf - 1) file).1 lbuf.toList) = none
      rw [hnil]
      simpa [cstr_stored] using hspec
    apply hwarn
    unfold lineWarning
    rw [hnone]
  constructor
  · rw [sdcardNetconf, dif_neg hchunk]
    rw [hread.1]
  · have hline := netconfLine_of_warning inetAton (terminated_stored _ _) hwarn conf
    rw [cstr_stored] at hline
    show (netconfLine inetAton _ conf).2 = conf ↔ _
    rw [hline, ← hread.2, commandWord]
    by_cases haddr : (words lwipIsspace ((fGets (sizeofLbuf - 1) file).1.takeWhile
        (· != 0))).head? = some (ascii "addr")
    · rw [if_pos haddr]
      constructor
      · intro h
        exact .inr (congrArg NetConfig.useStatic h).symm
      · rintro (h | h)
        · exact absurd haddr h
        · rw [← h]
    · rw [if_neg haddr]
      exact iff_of_true rfl (.inl haddr)

/-- An address that `inet_aton` does not accept. -/
def mistypedAddr : List Byte := ascii "addr 1.2.3.400"

/-- It is warned about, and DHCP is off. -/
theorem mistyped_static :
    lineWarning inetStatic (stored (fGets (sizeofLbuf - 1) mistypedAddr).1
        (Vector.replicate 64 0).toList) =
      some (.invalidAddr (ascii "addr") (ascii "1.2.3.400")) ∧
    sdcardNetconf inetStatic (Vector.replicate 64 0).toList blankConf mistypedAddr =
      { blankConf with useStatic := 1 } := by
  constructor <;> decide +kernel

/-- A command that is not known, and a line behind it. -/
theorem mistyped_command : ∃ lbuf,
    sdcardNetconf inetStatic (Vector.replicate 64 0).toList blankConf (ascii "dchp no\ngw\n") =
      sdcardNetconf inetStatic lbuf blankConf (ascii "gw\n") := by
  have hfile : ascii "dchp no\ngw\n" = ascii "dchp no" ++ 0x0a :: ascii "gw\n" ∨
      ascii "dchp no\ngw\n" = ascii "dchp no" ∧ ascii "gw\n" = [] := .inl (by decide)
  obtain ⟨hrest, hiff⟩ := rejected_line_iff inetStatic (by decide) (by decide) hfile
    (Vector.replicate 64 0) blankConf (by decide)
  rw [hiff.mpr (.inl (by decide))] at hrest
  exact ⟨_, hrest⟩

end Acmi.Sdcard
