import Acmi.Control.EepromRace
import Acmi.Control.SpiRace

/-!
# What one EEPROM message does to the EEPROM

`eeprom_settings` puts the address into the command word as it is: `eeprom_addr << 8` is not
masked to the 16 bits of the address field. Bits 16 to 23 of the address end up in the opcode and
the bits above get lost, so a message with an address beyond the EEPROM makes the EEPROM read,
or enable writing, or overwrite bytes it did not name.

Here one message is followed from the register writes of its handler, all alone on the SPI
registers, to the EEPROM, which knows all the opcodes that `control.c` lists. `word_stored_iff`
says that exactly the addresses whose four bytes exist are handled right.
-/

namespace Acmi.Control

open Acmi.Lib Acmi.Psc

/-! ## The EEPROM -/

def eepromOpcodeWrsr : BitVec 32 := 1
def eepromOpcodeWrdi : BitVec 32 := 4
def eepromOpcodeRead : BitVec 32 := 3

/-- The contents, the status register and the write-enable latch. -/
structure Cat25320 where
  mem : BitVec 16 → Byte
  status : Byte
  wel : Bool

/-- The opcode field is one of the opcodes of `control.c`. -/
def HasOpcode (word op : BitVec 32) : Prop := (opcode word).setWidth 32 = op

instance (word op : BitVec 32) : Decidable (HasOpcode word op) :=
  inferInstanceAs (Decidable (_ = _))

/-- The EEPROM interprets a command word; a `WRITE` or `WRSR` needs the latch and clears it. -/
def Cat25320.command (e : Cat25320) (word : BitVec 32) : Cat25320 :=
  if HasOpcode word eepromOpcodeWren then { e with wel := true }
  else if HasOpcode word eepromOpcodeWrdi then { e with wel := false }
  else if HasOpcode word eepromOpcodeWrite then
    if e.wel then
      { e with mem := Function.update e.mem (wordAddr word) (wordData word), wel := false }
    else e
  else if HasOpcode word eepromOpcodeWrsr then
    if e.wel then { e with status := wordData word, wel := false } else e
  else e  -- `READ`, `RDSR` and what is no opcode change nothing

def Cat25320.commands (e : Cat25320) (words : List (BitVec 32)) : Cat25320 :=
  words.foldl Cat25320.command e

/-- The SPI registers after the writes of a single handler. -/
def portAfter (p : SpiPort) (ws : List RegWrite) : SpiPort := ws.foldl (fun p w => p.write 0 w) p

/-- The words handed over to `EEPROM_WRDATA`, out of the requests the port has seen. -/
def handedOver (seen : List (Nat × Request)) : List (BitVec 32) :=
  (seen.filter fun r => r.2.1 = eepromWrdata).map fun r => r.2.2

/-- What the handler of an EEPROM message hands over, working alone. -/
def eepromWords (msg : Mem) : List (BitVec 32) :=
  handedOver (portAfter ⟨0, 0, 0, []⟩ (eepromSettings msg)).seen

/-- A message handled well: no command at all, or only `WREN` and `WRITE`, with no bit of the
address in the opcode, that leave the data in the four bytes from the address on, most significant
byte first, and change nothing else. -/
def WordStored (e : Cat25320) (msg : Mem) : Prop :=
  eepromWords msg = [] ∨
    (∀ word ∈ eepromWords msg,
        HasOpcode word eepromOpcodeWren ∨ HasOpcode word eepromOpcodeWrite) ∧
    (∀ k, k < 4 → opcode ((addrOf msg + BitVec.ofNat 32 k) <<< 8) = 0) ∧
    (∀ k, k < 4 → ∃ x : BitVec 16, x.toNat = (addrOf msg).toNat + k ∧
        (be32 (dataOf msg))[k]? = some ((e.commands (eepromWords msg)).mem x)) ∧
    (∀ x : BitVec 16, (∀ k, k < 4 → x.toNat ≠ (addrOf msg).toNat + k) →
        (e.commands (eepromWords msg)).mem x = e.mem x) ∧
    (e.commands (eepromWords msg)).status = e.status

/-! ## From the register writes to the commands -/

/-- A handler alone makes exactly its requests, and leaves the line low. -/
theorem portAfter_makes {rs : List Request} {ws : List RegWrite} (h : Makes rs ws) :
    ∀ p : SpiPort, p.we = 0 → (portAfter p ws).seen = p.seen ++ rs.map fun r => (0, r) := by
  induction h with
  | done =>
    intro p _
    exact (List.append_nil p.seen).symm
  | @request r rs ws h ih =>
    intro p hwe
    have hseen : (portAfter p (spiRequest r.1 r.2)).seen = p.seen ++ [(0, r)] := by
      show (if p.we = 0 ∧ (1 : BitVec 32) = 1 then p.seen ++ [(0, r.1, r.2)] else p.seen) = _
      rw [if_pos ⟨hwe, rfl⟩]
    have hrest := ih (portAfter p (spiRequest r.1 r.2)) rfl
    rw [hseen, List.append_assoc] at hrest
    rw [portAfter, List.foldl_append]
    exact hrest
  | @other w rs ws hw h ih =>
    intro p hwe
    have hsame : p.write 0 w = p := by
      obtain ⟨h1, h2, h3⟩ := hw
      unfold SpiPort.write
      split
      next hreg => exact absurd hreg h1
      next hreg => exact absurd hreg h2
      next hreg => exact absurd hreg h3
      next => rfl
    show (portAfter (p.write 0 w) ws).seen = _
    rw [hsame]
    exact ih p hwe

/-- **The commands of a message.** -/
theorem eepromWords_eq (msg : Mem) : eepromWords msg =
    (List.range 4).flatMap fun k => [wrenCall.2, (storeCall msg k).2] := by
  have hmakes := Message.makes ⟨2, 0, msg⟩
  have hseen := portAfter_makes hmakes ⟨0, 0, 0, []⟩ rfl
  have hcalls := callsOf_eq msg
  show handedOver (portAfter ⟨0, 0, 0, []⟩ (Message.writes ⟨2, 0, msg⟩)).seen = _
  rw [hseen]
  show handedOver ((((callsOf msg).flatMap fun c => [c, (eepromTrig, 1)]) ++
    [(eepromReadall, 1)]).map fun r => (0, r)) = _
  rw [hcalls]
  rfl

/-! ## What the commands do -/

theorem wren_opcode : HasOpcode wrenCall.2 eepromOpcodeWren := by decide

/-- The command word for byte `k`, when the address is one of the EEPROM. -/
theorem store_opcode {msg : Mem} (h : Fits msg) {k : Nat} (hk : k < 4) :
    HasOpcode (storeCall msg k).2 eepromOpcodeWrite := by
  rw [HasOpcode, (storeCall_fields h hk).1]
  rfl

/-- `WREN` and then `WRITE` store one byte. -/
theorem wren_write (e : Cat25320) {word : BitVec 32} (h : HasOpcode word eepromOpcodeWrite) :
    (e.command wrenCall.2).command word =
      { e with mem := Function.update e.mem (wordAddr word) (wordData word), wel := false } := by
  have hne : ∀ op, op ≠ eepromOpcodeWrite → ¬ HasOpcode word op := by
    intro op hop hword
    exact hop (hword.symm.trans h)
  have hset : e.command wrenCall.2 = { e with wel := true } := if_pos wren_opcode
  rw [hset, Cat25320.command, if_neg (hne _ (by decide)), if_neg (hne _ (by decide)), if_pos h]
  rfl

/-- After the commands for the first `n` bytes. -/
structure StoredTo (e e' : Cat25320) (msg : Mem) (n : Nat) : Prop where
  bytes : ∀ k, k < n → ∀ x : BitVec 16, x.toNat = (addrOf msg).toNat + k →
    e'.mem x = msg (4 + k)
  others : ∀ x : BitVec 16, (∀ k, k < n → x.toNat ≠ (addrOf msg).toNat + k) → e'.mem x = e.mem x
  status : e'.status = e.status

theorem storedTo_commands {msg : Mem} (h : Fits msg) (e : Cat25320) : ∀ n, n ≤ 4 →
    StoredTo e
      (e.commands ((List.range n).flatMap fun k => [wrenCall.2, (storeCall msg k).2])) msg n := by
  intro n
  induction n with
  | zero => exact fun _ => ⟨fun k hk => absurd hk (Nat.not_lt_zero k), fun _ _ => rfl, rfl⟩
  | succ n ih =>
    intro hn
    have hih := ih (by omega)
    obtain ⟨-, haddr, hdata⟩ := storeCall_fields h (by omega : n < 4)
    rw [List.range_succ, List.flatMap_append, Cat25320.commands, List.foldl_append]
    change StoredTo e ((Cat25320.command (Cat25320.commands e _) wrenCall.2).command
      (storeCall msg n).2) msg (n + 1)
    rw [wren_write _ (store_opcode h (by omega))]
    refine ⟨fun k hk x hx => ?_, fun x hx => ?_, hih.status⟩
    · by_cases hkn : k = n
      · have hxn : x = wordAddr (storeCall msg n).2 := by
          apply BitVec.eq_of_toNat_eq
          rw [haddr, hx, hkn]
        rw [hkn, hxn]
        exact (Function.update_self ..).trans hdata
      · have hne : x ≠ wordAddr (storeCall msg n).2 := fun hxe => by
          rw [hxe, haddr] at hx
          omega
        exact (Function.update_of_ne hne ..).trans (hih.bytes k (by omega) x hx)
    · have hne : x ≠ wordAddr (storeCall msg n).2 := fun hxe =>
        hx n (by omega) (by rw [hxe, haddr])
      exact (Function.update_of_ne hne ..).trans (hih.others x fun k hk => hx k (by omega))

/-- The data word is the bytes 4 to 7 of the message. -/
theorem dataOf_byte (msg : Mem) {k : Nat} (hk : k < 4) :
    (be32 (dataOf msg))[k]? = some (msg (4 + k)) := by
  have hbytes : be32 (dataOf msg) = [msg 4, msg 5, msg 6, msg 7] := by
    rw [dataOf, htonl_load32]
    exact be32_append ..
  rw [hbytes]
  interval_cases k <;> rfl

/-- No bit of an address that fits the address field reaches the opcode. -/
theorem no_spill {addr : BitVec 32} (h : addr.toNat < 2 ^ 16) : opcode (addr <<< 8) = 0 := by
  apply BitVec.eq_of_getLsbD_eq
  intro i hi
  rw [opcode, BitVec.getLsbD_extractLsb', BitVec.getLsbD_shiftLeft,
    getLsbD_of_lt h (by omega : 16 ≤ 24 + i - 8)]
  simp

/-- **An EEPROM message stores its word exactly when** its four bytes exist: the address is at
most `FFFC`. -/
theorem word_stored_iff (e : Cat25320) (msg : Mem) :
    WordStored e msg ↔ (addrOf msg).toNat + 3 < 2 ^ 16 := by
  have hwords := eepromWords_eq msg
  constructor
  · rintro (hnone | ⟨-, -, hbytes, -, -⟩)
    · rw [hwords] at hnone
      cases hnone
    · obtain ⟨x, hx, -⟩ := hbytes 3 (by decide)
      have hlt := x.isLt
      omega
  · intro hlt
    have hfits : Fits msg := by
      unfold Fits
      omega
    have hstored := storedTo_commands hfits e 4 (Nat.le_refl 4)
    rw [← hwords] at hstored
    have haddr : ∀ k, k < 4 →
        (addrOf msg + BitVec.ofNat 32 k).toNat = (addrOf msg).toNat + k := by
      intro k hk
      rw [BitVec.toNat_add, BitVec.toNat_ofNat]
      omega
    refine Or.inr ⟨fun word hword => ?_, fun k hk => no_spill ?_, fun k hk => ?_, hstored.others,
      hstored.status⟩
    · rw [hwords] at hword
      obtain ⟨k, hk, hword⟩ := List.mem_flatMap.mp hword
      rcases List.mem_cons.mp hword with rfl | hword
      · exact Or.inl wren_opcode
      · rw [List.mem_singleton.mp hword]
        exact Or.inr (store_opcode hfits (List.mem_range.mp hk))
    · rw [haddr k hk]
      omega
    · have hx : (BitVec.ofNat 16 ((addrOf msg).toNat + k)).toNat = (addrOf msg).toNat + k := by
        rw [BitVec.toNat_ofNat, Nat.mod_eq_of_lt (by omega)]
      exact ⟨_, hx, by rw [dataOf_byte msg hk, hstored.bytes k hk _ hx]⟩

/-- The message `12 12 12 12` for address `00010000`. -/
def spillMsg : Mem := fun i => if i = 1 then 1 else if i < 4 then 0 else 0x12

/-- Bit 16 of the address makes a `READ` of the first `WRITE`. -/
theorem spilled_read :
    (addrOf spillMsg = 0x10000 ∧ dataOf spillMsg = 0x12121212) ∧
      (∃ word ∈ eepromWords spillMsg, HasOpcode word eepromOpcodeRead) ∧
      ¬ WordStored ⟨fun _ => 0xFF, 0, false⟩ spillMsg := by
  have hmem : (0x03000012 : BitVec 32) ∈ eepromWords spillMsg := by decide
  refine ⟨by decide, ⟨_, hmem, by decide⟩, ?_⟩
  rintro (hnone | ⟨honly, -⟩)
  · rw [hnone] at hmem
    exact absurd hmem List.not_mem_nil
  · exact absurd (honly _ hmem) (by decide)

end Acmi.Control
