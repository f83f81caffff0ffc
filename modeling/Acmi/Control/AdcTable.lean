import Acmi.Control.Handlers
import Acmi.Spi.ArtixSpi

/-!
# Uploading the tail cancellation table

The table goes over the SPI link a word at a time. The address word of a request carries the index
of the table word above the code of the table: the index is below 16000, so it fits bits 16 to 30,
and the top bit, which `artix_spi` replaces by `'0'`, is not used. `adc_table_uploaded` puts
together what a message of id 3 makes of its body, for every body and every length.
-/

namespace Acmi.Control

open Acmi.Lib Acmi.Psc

/-- The address word of the request for word `k` of the table. -/
def adcAddr (k : Nat) : BitVec 32 := (BitVec.ofNat 32 k <<< 16) ||| adcTable

/-- The offsets of the message that the loop of `write_adc_table` reads. -/
def adcTableReads (msglen : BitVec 32) : List Nat :=
  let tableLen := msglen.toNat / 4
  if tableLen > 16000 then []
  else (List.range tableLen).flatMap fun i => [4 * i, 4 * i + 1, 4 * i + 2, 4 * i + 3]

/-- The index and the code do not overlap. -/
theorem adcAddr_toNat {k : Nat} (hk : k < 16000) : (adcAddr k).toNat = k * 2 ^ 16 + 0x60 := by
  have hfit : k <<< 16 < 2 ^ 32 := by
    rw [Nat.shiftLeft_eq]
    omega
  rw [adcAddr, BitVec.toNat_or, BitVec.toNat_shiftLeft, BitVec.toNat_ofNat,
    Nat.mod_eq_of_lt (by omega : k < 2 ^ 32), Nat.mod_eq_of_lt hfit]
  show k <<< 16 ||| 0x60 = _
  rw [← Nat.shiftLeft_add_eq_or_of_lt (by decide), Nat.shiftLeft_eq]

theorem adcAddr_index {k : Nat} (hk : k < 16000) :
    (adcAddr k).extractLsb' 16 15 = BitVec.ofNat 15 k := by
  apply BitVec.eq_of_toNat_eq
  rw [BitVec.extractLsb'_toNat, adcAddr_toNat hk, BitVec.toNat_ofNat, Nat.shiftRight_eq_div_pow]
  omega

theorem adcAddr_code {k : Nat} (hk : k < 16000) : (adcAddr k).extractLsb' 0 8 = 0x60#8 := by
  apply BitVec.eq_of_toNat_eq
  rw [BitVec.extractLsb'_toNat, adcAddr_toNat hk, Nat.shiftRight_zero]
  show _ = 0x60
  omega

theorem adcAddr_top {k : Nat} (hk : k < 16000) : (adcAddr k).msb = false := by
  rw [BitVec.msb_eq_false_iff_two_mul_lt, adcAddr_toNat hk]
  omega

theorem adcAddr_injective {j k : Nat} (hj : j < 16000) (hk : k < 16000)
    (h : adcAddr j = adcAddr k) : j = k := by
  have := congrArg BitVec.toNat h
  rw [adcAddr_toNat hj, adcAddr_toNat hk] at this
  omega

/-- A request whose address has its top bit clear is the frame it is sent in. -/
theorem word_of_top {addr : BitVec 32} (h : addr.msb = false) (data : BitVec 32) (we : Bool) :
    (⟨addr, data, we⟩ : Spi.RegO).word = addr ++ data := by
  have haddr : 0#1 ++ addr.extractLsb' 0 31 = addr := by
    apply BitVec.eq_of_getLsbD_eq
    intro i hi
    rw [BitVec.getLsbD_append, BitVec.getLsbD_extractLsb', Nat.zero_add]
    by_cases h31 : i < 31
    · simp [h31]
    · have hi31 : i = 31 := by omega
      rw [BitVec.msb_eq_getLsbD_last] at h
      simpa [hi31] using h.symm
  rw [Spi.RegO.word, haddr]

theorem mem_adcTableReads {msglen : BitVec 32} {i : Nat} :
    i ∈ adcTableReads msglen ↔ msglen.toNat / 4 ≤ 16000 ∧ i < 4 * (msglen.toNat / 4) := by
  unfold adcTableReads
  simp only
  by_cases hlen : msglen.toNat / 4 > 16000
  · rw [if_pos hlen]
    exact iff_of_false List.not_mem_nil fun h => by omega
  · rw [if_neg hlen, List.mem_flatMap]
    constructor
    · rintro ⟨k, hk, hi⟩
      rw [List.mem_range] at hk
      simp only [List.mem_cons, List.not_mem_nil, or_false] at hi
      omega
    · rintro ⟨-, hi⟩
      refine ⟨i / 4, List.mem_range.mpr (by omega), ?_⟩
      simp only [List.mem_cons, List.not_mem_nil, or_false]
      omega

/-- The message is read there and nowhere else. -/
theorem writeAdcTable_reads {msglen : BitVec 32} {msg msg' : Mem}
    (h : ∀ i ∈ adcTableReads msglen, msg i = msg' i) :
    writeAdcTable msg msglen = writeAdcTable msg' msglen := by
  unfold writeAdcTable
  simp only
  by_cases hlen : msglen.toNat / 4 > 16000
  · rw [if_pos hlen, if_pos hlen]
  · rw [if_neg hlen, if_neg hlen]
    apply List.flatMap_congr
    intro k hk
    rw [List.mem_range] at hk
    rw [htonl_load32_congr (4 * k) fun i _ hi => h i (mem_adcTableReads.mpr ⟨by omega, by omega⟩)]

/-- **The table arrives as it is in the message.** -/
theorem adc_table_uploaded (msglen : BitVec 32) (msg : Mem) :
    (msglen.toNat / 4 ≤ 16000 →
      clientMsg 3 msglen msg = (List.range (msglen.toNat / 4)).flatMap (fun k =>
        [⟨.artixSpiData, msg (4 * k) ++ msg (4 * k + 1) ++ msg (4 * k + 2) ++ msg (4 * k + 3)⟩,
          ⟨.artixSpiAddr, adcAddr k⟩, ⟨.artixSpiWe, 1⟩, ⟨.artixSpiWe, 0⟩]) ∧
      (∀ k < msglen.toNat / 4,
        (adcAddr k).extractLsb' 16 15 = BitVec.ofNat 15 k ∧ (adcAddr k).extractLsb' 0 8 = 0x60#8 ∧
        (adcAddr k).msb = false ∧
        ∀ data we, (⟨adcAddr k, data, we⟩ : Spi.RegO).word = adcAddr k ++ data) ∧
      ∀ j < msglen.toNat / 4, ∀ k < msglen.toNat / 4, adcAddr j = adcAddr k → j = k) ∧
    (16000 < msglen.toNat / 4 → clientMsg 3 msglen msg = []) ∧
    (∀ i ∈ adcTableReads msglen, i < msglen.toNat) ∧
    ∀ msg' : Mem, (∀ i ∈ adcTableReads msglen, msg i = msg' i) →
      clientMsg 3 msglen msg = clientMsg 3 msglen msg' := by
  have hdispatch : ∀ m, clientMsg 3 msglen m = writeAdcTable m msglen := fun _ => rfl
  refine ⟨fun hlen => ⟨?_, ?_, ?_⟩, ?_, ?_, ?_⟩
  · rw [hdispatch, writeAdcTable, if_neg (Nat.not_lt.mpr hlen)]
    apply List.flatMap_congr
    intro k _
    rw [htonl_load32]
    rfl
  · intro k hk
    have hk' : k < 16000 := by omega
    have htop := adcAddr_top hk'
    exact ⟨adcAddr_index hk', adcAddr_code hk', htop, word_of_top htop⟩
  · intro j hj k hk h
    exact adcAddr_injective (by omega) (by omega) h
  · intro hlen
    rw [hdispatch, writeAdcTable, if_pos hlen]
  · intro i hi
    have := mem_adcTableReads.mp hi
    omega
  · intro msg' h
    rw [hdispatch, hdispatch, writeAdcTable_reads h]

end Acmi.Control
