import Acmi.Lib.I2cBus

/-!
# `ivt_i2c_cntrl.vhd`: the table of transactions

The monitor chips are configured and read with a fixed table of transactions. An entry is a
word and a size: the low `size` bits of the word, the highest first, are what the master puts
on the bus, with a bit for each slot in which a device acknowledges. In front of the address
there is nothing but zeros, which are not sent.

`Reg` names the twenty registers of `ivt_regs_type`. What it takes to read one is stated here
without the table: the byte that addresses its device, the pointer that selects its quantity,
and the transaction that reads two bytes. `pointerEntry` and `readEntry` are where the table
has these two.

Mirroring notes:
- A constant of type `std_logic_vector(n - 1 downto 0)` is a `BitVec n`, and `&` is `++`.
- The two tables are lists; that no index is out of range is proved with the two processes.
-/

namespace Acmi.Ivt

open Acmi.Lib

/-! ## `afe_i2c_types` -/

def ninePad : BitVec 9 := 0
def eighteenPad : BitVec 18 := 0
def adt7410Config : BitVec 19 := 1#1 ++ 0x03#8 ++ 1#1 ++ 0x80#8 ++ 1#1
def adt7410Pntr : BitVec 19 := 1#1 ++ 0x00#8 ++ 1#1 ++ 0x00#8 ++ 1#1
def readWord : BitVec 19 := 1#1 ++ 0xFF#8 ++ 0#1 ++ 0xFF#8 ++ 1#1
def ina226Config : BitVec 28 := 1#1 ++ 0x00#8 ++ 1#1 ++ 0x41#8 ++ 1#1 ++ 0x27#8 ++ 1#1
def ina226Cal : BitVec 28 := 1#1 ++ 0x05#8 ++ 1#1 ++ 0x08#8 ++ 1#1 ++ 0x00#8 ++ 1#1
def ina226Vreg : BitVec 10 := 1#1 ++ 0x02#8 ++ 1#1
def ina226Ireg : BitVec 10 := 1#1 ++ 0x04#8 ++ 1#1

/-- `ARRAY_SIZE`. -/
def arraySize : Nat := 61

/-- `DATA_SIZE`. -/
def dataSize : Nat := 36

/-! ## The generics of `qafe_monitors` -/

/-- `i2c_data`. -/
def i2cData : List (BitVec 36) := [
  0,
  ninePad ++ 0x90#8 ++ adt7410Config, ninePad ++ 0x92#8 ++ adt7410Config,
  ninePad ++ 0x94#8 ++ adt7410Config, ninePad ++ 0x96#8 ++ adt7410Config,
  ninePad ++ 0x90#8 ++ adt7410Pntr, ninePad ++ 0x92#8 ++ adt7410Pntr,
  ninePad ++ 0x94#8 ++ adt7410Pntr, ninePad ++ 0x96#8 ++ adt7410Pntr,
  0x80#8 ++ ina226Config, 0x82#8 ++ ina226Config, 0x84#8 ++ ina226Config,
  0x86#8 ++ ina226Config, 0x88#8 ++ ina226Config, 0x8a#8 ++ ina226Config,
  0x8c#8 ++ ina226Config, 0x8e#8 ++ ina226Config,
  0x80#8 ++ ina226Cal, 0x82#8 ++ ina226Cal, 0x84#8 ++ ina226Cal,
  0x86#8 ++ ina226Cal, 0x88#8 ++ ina226Cal, 0x8a#8 ++ ina226Cal,
  0x8c#8 ++ ina226Cal, 0x8e#8 ++ ina226Cal,
  ninePad ++ 0x91#8 ++ readWord, ninePad ++ 0x93#8 ++ readWord,
  ninePad ++ 0x95#8 ++ readWord, ninePad ++ 0x97#8 ++ readWord,
  eighteenPad ++ 0x80#8 ++ ina226Vreg, eighteenPad ++ 0x82#8 ++ ina226Vreg,
  eighteenPad ++ 0x84#8 ++ ina226Vreg, eighteenPad ++ 0x86#8 ++ ina226Vreg,
  eighteenPad ++ 0x88#8 ++ ina226Vreg, eighteenPad ++ 0x8a#8 ++ ina226Vreg,
  eighteenPad ++ 0x8c#8 ++ ina226Vreg, eighteenPad ++ 0x8e#8 ++ ina226Vreg,
  ninePad ++ 0x81#8 ++ readWord, ninePad ++ 0x83#8 ++ readWord,
  ninePad ++ 0x85#8 ++ readWord, ninePad ++ 0x87#8 ++ readWord,
  ninePad ++ 0x89#8 ++ readWord, ninePad ++ 0x8b#8 ++ readWord,
  ninePad ++ 0x8d#8 ++ readWord, ninePad ++ 0x8f#8 ++ readWord,
  eighteenPad ++ 0x80#8 ++ ina226Ireg, eighteenPad ++ 0x82#8 ++ ina226Ireg,
  eighteenPad ++ 0x84#8 ++ ina226Ireg, eighteenPad ++ 0x86#8 ++ ina226Ireg,
  eighteenPad ++ 0x88#8 ++ ina226Ireg, eighteenPad ++ 0x8a#8 ++ ina226Ireg,
  eighteenPad ++ 0x8c#8 ++ ina226Ireg, eighteenPad ++ 0x8e#8 ++ ina226Ireg,
  ninePad ++ 0x81#8 ++ readWord, ninePad ++ 0x83#8 ++ readWord,
  ninePad ++ 0x85#8 ++ readWord, ninePad ++ 0x87#8 ++ readWord,
  ninePad ++ 0x89#8 ++ readWord, ninePad ++ 0x8b#8 ++ readWord,
  ninePad ++ 0x8d#8 ++ readWord, ninePad ++ 0x8f#8 ++ readWord]

/-- `i2c_size`: how many bits `i2c_con` sends. -/
def i2cSize : List Nat := [
  0,
  27, 27, 27, 27,
  27, 27, 27, 27,
  36, 36, 36, 36, 36, 36, 36, 36,
  36, 36, 36, 36, 36, 36, 36, 36,
  27, 27, 27, 27,
  18, 18, 18, 18, 18, 18, 18, 18,
  27, 27, 27, 27, 27, 27, 27, 27,
  18, 18, 18, 18, 18, 18, 18, 18,
  27, 27, 27, 27, 27, 27, 27, 27]

theorem i2cData_length : i2cData.length = arraySize := rfl

theorem i2cSize_length : i2cSize.length = arraySize := rfl

/-- `i2c_data(k)`. -/
def dataAt (k : Nat) : BitVec 36 := i2cData.getD k 0

/-- `i2c_size(k)`. -/
def sizeAt (k : Nat) : Nat := i2cSize.getD k 0

/-- No entry is wider than the transfer register. -/
theorem sizeAt_le (k : Nat) : sizeAt k ≤ dataSize := by
  have hall : ∀ s ∈ i2cSize, s ≤ dataSize := by decide
  unfold sizeAt
  rw [List.getD_eq_getElem?_getD]
  cases hk : i2cSize[k]? with
  | none => exact Nat.zero_le _
  | some s => exact hall s (List.mem_of_getElem? hk)

/-- The low `size` bits of a word, the highest first. -/
def bitsOf (word : BitVec 36) (size : Nat) : List Bool :=
  (List.range size).map fun i => word.getLsbD (size - 1 - i)

@[simp] theorem bitsOf_length (word : BitVec 36) (size : Nat) :
    (bitsOf word size).length = size := by
  simp [bitsOf]

/-- The bits of entry `k` on the bus. -/
def entryBits (k : Nat) : List Bool := bitsOf (dataAt k) (sizeAt k)

/-- The first bits of a word, and the next one. -/
theorem take_bitsOf (word : BitVec 36) {size i : Nat} (hi : i < size) :
    (bitsOf word size).take (i + 1) =
      (bitsOf word size).take i ++ [word.getLsbD (size - 1 - i)] := by
  have hlt : i < (bitsOf word size).length := by rw [bitsOf_length]; exact hi
  rw [List.take_succ_eq_append_getElem hlt]
  simp [bitsOf]

/-! ## The registers -/

/-- The fields of `ivt_regs_type`. -/
inductive Reg
  | temp (k : Fin 4)
  | vreg (k : Fin 8)
  | ireg (k : Fin 8)
  deriving DecidableEq, Repr

/-- A byte, the highest bit first. -/
def byteBits (b : BitVec 8) : List Bool := (List.range 8).map fun i => b.getLsbD (7 - i)

/-- The byte that addresses the device of a register for a write. -/
def Reg.writeAddress : Reg → BitVec 8
  | .temp k => 0x90 + BitVec.ofNat 8 (2 * k.val)
  | .vreg k => 0x80 + BitVec.ofNat 8 (2 * k.val)
  | .ireg k => 0x80 + BitVec.ofNat 8 (2 * k.val)

/-- The byte that addresses it for a read. -/
def Reg.readAddress (r : Reg) : BitVec 8 := r.writeAddress + 1

/-- The pointer that selects the quantity in the device: the temperature of an ADT7410, the
bus voltage or the current of an INA226. -/
def Reg.pointer : Reg → BitVec 8
  | .temp _ => 0x00
  | .vreg _ => 0x02
  | .ireg _ => 0x04

/-- How a write of the pointer begins. -/
def Reg.pointerWrite (r : Reg) : List Bool :=
  byteBits r.writeAddress ++ [true] ++ byteBits r.pointer ++ [true]

/-- The read of two bytes, which the master acknowledges and does not acknowledge; it leaves
the data line alone for the bytes. -/
def Reg.readOf (r : Reg) : List Bool :=
  byteBits r.readAddress ++ [true] ++ byteBits 0xFF ++ [false] ++ byteBits 0xFF ++ [true]

/-- The two bytes among the levels read. -/
def dataBits (read : List Bool) : BitVec 16 :=
  (BitVec.ofBoolListBE ((read.drop 9).take 8 ++ (read.drop 18).take 8)).setWidth 16

/-- The entry that sets the pointer for a register. -/
def Reg.pointerEntry : Reg → Nat
  | .temp k => 5 + k.val
  | .vreg k => 29 + k.val
  | .ireg k => 45 + k.val

/-- The entry that reads a register. -/
def Reg.readEntry : Reg → Nat
  | .temp k => 25 + k.val
  | .vreg k => 37 + k.val
  | .ireg k => 53 + k.val

end Acmi.Ivt
