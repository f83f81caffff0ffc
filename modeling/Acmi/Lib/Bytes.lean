import Mathlib.Algebra.Group.Nat.Defs
import Mathlib.Data.List.Basic

/-!
# Bytes, words and byte-addressed memory

Words are `BitVec`s, a byte is a `BitVec 8`. `be16`/`be32` and `le16`/`le32` are the
two ways of laying a word out in memory, `bswap16`/`bswap32` the byte reversal that
takes one to the other: a reversed word stored little-endian is the word stored
big-endian (`le16_bswap16`, `le32_bswap32`), and the same when loading.

A memory is a total function from offsets to bytes, so a write has no bound of its
own: what a program leaves alone is stated as a frame fact (`write_of_lt`,
`write_of_ge`), not enforced by an array size.
-/

namespace Acmi.Lib

abbrev Byte := BitVec 8

/-! ## Byte order -/

/-- A 16-bit word, most significant byte first. -/
def be16 (x : BitVec 16) : List Byte := [x.extractLsb' 8 8, x.extractLsb' 0 8]

/-- A 32-bit word, most significant byte first. -/
def be32 (x : BitVec 32) : List Byte :=
  [x.extractLsb' 24 8, x.extractLsb' 16 8, x.extractLsb' 8 8, x.extractLsb' 0 8]

/-- A 16-bit word, least significant byte first. -/
def le16 (x : BitVec 16) : List Byte := [x.extractLsb' 0 8, x.extractLsb' 8 8]

/-- A 32-bit word, least significant byte first. -/
def le32 (x : BitVec 32) : List Byte :=
  [x.extractLsb' 0 8, x.extractLsb' 8 8, x.extractLsb' 16 8, x.extractLsb' 24 8]

/-- The two bytes of a 16-bit word in the other order. -/
def bswap16 (x : BitVec 16) : BitVec 16 := x.extractLsb' 0 8 ++ x.extractLsb' 8 8

/-- The four bytes of a 32-bit word in the other order. -/
def bswap32 (x : BitVec 32) : BitVec 32 :=
  x.extractLsb' 0 8 ++ x.extractLsb' 8 8 ++ x.extractLsb' 16 8 ++ x.extractLsb' 24 8

@[simp] theorem be16_length (x : BitVec 16) : (be16 x).length = 2 := rfl
@[simp] theorem be32_length (x : BitVec 32) : (be32 x).length = 4 := rfl

/-- Bytes of a concatenation, from the least significant one up. -/
theorem extract_append_low {n : Nat} (x : BitVec n) (b : Byte) :
    (x ++ b).extractLsb' 0 8 = b := by
  apply BitVec.eq_of_getLsbD_eq
  intro i hi
  simp [BitVec.getLsbD_append, hi]

theorem extract_append_high {n : Nat} (x : BitVec n) (b : Byte) (k : Nat) :
    (x ++ b).extractLsb' (8 + k) 8 = x.extractLsb' k 8 := by
  apply BitVec.eq_of_getLsbD_eq
  intro i hi
  have h8 : ¬ 8 + k + i < 8 := by omega
  have hk : 8 + k + i - 8 = k + i := by omega
  simp [BitVec.getLsbD_append, h8, hk]

theorem extract_self (b : Byte) : b.extractLsb' 0 8 = b := by
  apply BitVec.eq_of_getLsbD_eq
  intro i hi
  simp [hi]

theorem le16_bswap16 (x : BitVec 16) : le16 (bswap16 x) = be16 x := by
  have h1 := extract_append_high (x.extractLsb' 0 8) (x.extractLsb' 8 8) 0
  simp only [le16, be16, bswap16, extract_append_low]
  rw [h1, extract_self]

theorem le32_bswap32 (x : BitVec 32) : le32 (bswap32 x) = be32 x := by
  have h1 := fun y : BitVec 24 => extract_append_high y (x.extractLsb' 24 8)
  have h2 := fun y : BitVec 16 => extract_append_high y (x.extractLsb' 16 8)
  have h3 := fun y : BitVec 8 => extract_append_high y (x.extractLsb' 8 8)
  simp only [le32, be32, bswap32, extract_append_low]
  rw [h1 _ 0, h1 _ 8, h1 _ 16, extract_append_low, h2 _ 0, h2 _ 8, extract_append_low,
    h3 _ 0, extract_self]

/-- A 32-bit word is its halves, the upper one first. -/
theorem be16_append_be16 (x : BitVec 32) :
    be16 (x.extractLsb' 16 16) ++ be16 (x.extractLsb' 0 16) = be32 x := by
  have hbyte : ∀ a k, k + 8 ≤ 16 →
      (x.extractLsb' a 16).extractLsb' k 8 = x.extractLsb' (a + k) 8 := by
    intro a k hk
    apply BitVec.eq_of_getLsbD_eq
    intro i hi
    have hlt : k + i < 16 := by omega
    simp [hi, hlt, Nat.add_assoc]
  rw [be16, be16, hbyte 16 8 (by decide), hbyte 16 0 (by decide), hbyte 0 8 (by decide),
    hbyte 0 0 (by decide)]
  rfl

theorem bswap16_append (b1 b0 : Byte) : bswap16 (b1 ++ b0) = b0 ++ b1 := by
  have h1 := extract_append_high b1 b0 0
  simp only [bswap16, extract_append_low]
  rw [h1, extract_self]

theorem bswap32_append (b3 b2 b1 b0 : Byte) :
    bswap32 (b3 ++ b2 ++ b1 ++ b0) = b0 ++ b1 ++ b2 ++ b3 := by
  have h0 := fun k => extract_append_high (b3 ++ b2 ++ b1) b0 k
  have h1 := fun k => extract_append_high (b3 ++ b2) b1 k
  have h2 := fun k => extract_append_high b3 b2 k
  simp only [bswap32, extract_append_low]
  rw [h0 0, h0 8, h0 16, extract_append_low, h1 0, h1 8, extract_append_low, h2 0,
    extract_self]

/-- A word is the concatenation of its bytes. -/
theorem append_bytes16 (x : BitVec 16) : x.extractLsb' 8 8 ++ x.extractLsb' 0 8 = x := by
  apply BitVec.eq_of_getLsbD_eq
  intro i hi
  simp only [BitVec.getLsbD_append, BitVec.getLsbD_extractLsb']
  by_cases h : i < 8
  · simp [h]
  · have h2 : i - 8 < 8 := by omega
    have h3 : 8 + (i - 8) = i := by omega
    simp [h, h2, h3]

theorem append_bytes32 (x : BitVec 32) :
    x.extractLsb' 24 8 ++ x.extractLsb' 16 8 ++ x.extractLsb' 8 8 ++ x.extractLsb' 0 8 = x := by
  apply BitVec.eq_of_getLsbD_eq
  intro i hi
  simp only [BitVec.getLsbD_append, BitVec.getLsbD_extractLsb']
  by_cases h0 : i < 8
  · simp [h0]
  · by_cases h1 : i - 8 < 8
    · have h3 : 8 + (i - 8) = i := by omega
      simp [h0, h1, h3]
    · by_cases h2 : i - 8 - 8 < 8
      · have h3 : 16 + (i - 8 - 8) = i := by omega
        simp [h0, h1, h2, h3]
      · have h3 : 24 + (i - 8 - 8 - 8) = i := by omega
        have h4 : i - 8 - 8 - 8 < 8 := by omega
        simp [h0, h1, h2, h3, h4]

theorem be16_append (b1 b0 : Byte) : be16 (b1 ++ b0) = [b1, b0] := by
  have h1 := extract_append_high b1 b0 0
  simp only [be16, extract_append_low]
  rw [h1, extract_self]

theorem be32_append (b3 b2 b1 b0 : Byte) : be32 (b3 ++ b2 ++ b1 ++ b0) = [b3, b2, b1, b0] := by
  have h0 := fun k => extract_append_high (b3 ++ b2 ++ b1) b0 k
  have h1 := fun k => extract_append_high (b3 ++ b2) b1 k
  have h2 := fun k => extract_append_high b3 b2 k
  simp only [be32, extract_append_low]
  rw [h0 0, h0 8, h0 16, extract_append_low, h1 0, h1 8, extract_append_low, h2 0, extract_self]

/-! ## Single bits -/

theorem getLsbD_set_bit {n : Nat} (x : BitVec n) {i : Nat} (hi : i < n) (j : Nat) :
    (x ||| (1#n <<< i)).getLsbD j = (x.getLsbD j || decide (j = i)) := by
  rw [BitVec.getLsbD_or, BitVec.getLsbD_shiftLeft, BitVec.getLsbD_one]
  by_cases hji : j = i
  · subst hji
    have h0 : 0 < n := Nat.lt_of_le_of_lt (Nat.zero_le j) hi
    simp [hi, h0]
  · by_cases hlt : j < i
    · simp [hlt, hji]
    · have : ¬ j - i = 0 := by omega
      simp [hji, this]

theorem getLsbD_clear_bit {n : Nat} (x : BitVec n) (i j : Nat) :
    (x &&& ~~~(1#n <<< i)).getLsbD j = (x.getLsbD j && !decide (j = i)) := by
  rw [BitVec.getLsbD_and, BitVec.getLsbD_not, BitVec.getLsbD_shiftLeft, BitVec.getLsbD_one]
  by_cases hj : j < n
  · have h0 : 0 < n := Nat.lt_of_le_of_lt (Nat.zero_le j) hj
    by_cases hji : j = i
    · subst hji
      simp [hj, h0]
    · by_cases hlt : j < i
      · simp [hlt, hji, hj]
      · have : ¬ j - i = 0 := by omega
        simp [hji, this, hj]
  · simp [hj, BitVec.getLsbD_of_ge x j (Nat.le_of_not_lt hj)]

/-! ## Memory -/

/-- Bytes by offset from some base address. -/
abbrev Mem := Nat → Byte

/-- Store `bs` from offset `off` on. -/
def Mem.write (m : Mem) (off : Nat) (bs : List Byte) : Mem :=
  fun i => if off ≤ i then (bs[i - off]?).getD (m i) else m i

/-- The `n` bytes from offset `off` on. -/
def Mem.read (m : Mem) (off n : Nat) : List Byte := (List.range n).map fun i => m (off + i)

/-- The 16-bit little-endian word at `off`. -/
def Mem.load16 (m : Mem) (off : Nat) : BitVec 16 := m (off + 1) ++ m off

/-- The 32-bit little-endian word at `off`. -/
def Mem.load32 (m : Mem) (off : Nat) : BitVec 32 :=
  m (off + 3) ++ m (off + 2) ++ m (off + 1) ++ m off

@[simp] theorem Mem.write_nil (m : Mem) (off : Nat) : m.write off [] = m := by
  funext i
  simp [Mem.write]

theorem Mem.write_of_lt {m : Mem} {off i : Nat} {bs : List Byte} (h : i < off) :
    m.write off bs i = m i := by
  rw [Mem.write, if_neg (by omega)]

theorem Mem.write_of_ge {m : Mem} {off i : Nat} {bs : List Byte} (h : off + bs.length ≤ i) :
    m.write off bs i = m i := by
  rw [Mem.write, if_pos (by omega), List.getElem?_eq_none (by omega)]
  rfl

theorem Mem.write_of_mem (m : Mem) (off : Nat) {i : Nat} {bs : List Byte} (h : i < bs.length) :
    m.write off bs (off + i) = bs[i] := by
  rw [Mem.write, if_pos (by omega)]
  simp [h]

/-- Two writes end to end are one write. -/
theorem Mem.write_write (m : Mem) (off : Nat) (as bs : List Byte) :
    (m.write off as).write (off + as.length) bs = m.write off (as ++ bs) := by
  funext i
  rcases Nat.lt_or_ge i off with hlo | hlo
  · rw [Mem.write_of_lt (by omega), Mem.write_of_lt hlo, Mem.write_of_lt hlo]
  · rcases Nat.lt_or_ge i (off + as.length) with hmid | hmid
    · rw [Mem.write_of_lt hmid]
      simp only [Mem.write, if_pos hlo]
      rw [List.getElem?_append_left (by omega)]
    · simp only [Mem.write, if_pos hlo, if_pos hmid]
      rw [List.getElem?_append_right (by omega), List.getElem?_eq_none (by omega : as.length ≤ _)]
      rw [show i - (off + as.length) = i - off - as.length from by omega]
      rfl

@[simp] theorem Mem.read_length (m : Mem) (off n : Nat) : (m.read off n).length = n := by
  simp [Mem.read]

/-- Reading back what was just written. -/
theorem Mem.read_write (m : Mem) (off : Nat) (bs : List Byte) :
    (m.write off bs).read off bs.length = bs := by
  apply List.ext_getElem (by simp)
  intro i h1 h2
  simp only [Mem.read, List.getElem_map, List.getElem_range]
  exact Mem.write_of_mem m off h2

end Acmi.Lib
