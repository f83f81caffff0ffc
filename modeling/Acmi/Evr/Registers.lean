import Acmi.Control.Handlers
import Acmi.Evr.Top

/-!
# The time stamp registers, from the event stream to message 55

Three descriptions of the same four registers meet here: `evr_top.vhd` drives them,
`pl_regs.rdl` gives each of them an address, and `pl_regs.h` gives the addresses names, under
which `wvfmdata.c` reads them. The register block puts the nanoseconds of each pair first and
the header the seconds (`xilIn32_evrTsS` and the three lemmas behind it). So the software reads
each pair the wrong way round, and has the right values exactly when the two are the same number
(`registers_mean_iff`).
-/

namespace Acmi.Evr

open Acmi.Lib Acmi.Psc Acmi.Control

/-- `pl_regs.rdl`: what a read returns, at the addresses of the time stamp. -/
def plRegs (s : EvrTop) (addr : Nat) : Option (BitVec 32) :=
  if addr = 0x50 then s.tsNs
  else if addr = 0x54 then s.tsS
  else if addr = 0x58 then s.tsNsLat
  else if addr = 0x5C then s.tsSLat
  else none

/-- `Xil_In32(XPAR_M_AXI_BASEADDR + reg)`. -/
def xilIn32 (s : EvrTop) (reg : Reg) : Option (BitVec 32) := plRegs s reg.offset

/-- The array `timestamp` of `wvfmdata_push`, for what the two reads returned. -/
def timestamp (ns sec : BitVec 32) : List (BitVec 32) := [htonl ns, htonl sec]

/-- The body of message 55 for this array, as it lies in memory. -/
def timestampBody (ns sec : BitVec 32) : List Byte := (timestamp ns sec).flatMap le32

/-- Both reads of `wvfmdata_push`, and the body made of them. -/
def message55 (s : EvrTop) : Option (List Byte) := do
  let ns ← xilIn32 s .evrTsNsLat
  let sec ← xilIn32 s .evrTsSLat
  return timestampBody ns sec

theorem timestampBody_eq (ns sec : BitVec 32) : timestampBody ns sec = be32 ns ++ be32 sec := by
  simp [timestampBody, timestamp, htonl, le32_bswap32]

/-! ## What the header's names read -/

@[simp] theorem xilIn32_evrTsS (s : EvrTop) : xilIn32 s .evrTsS = s.tsNs := rfl
@[simp] theorem xilIn32_evrTsNs (s : EvrTop) : xilIn32 s .evrTsNs = s.tsS := rfl
@[simp] theorem xilIn32_evrTsSLat (s : EvrTop) : xilIn32 s .evrTsSLat = s.tsNsLat := rfl
@[simp] theorem xilIn32_evrTsNsLat (s : EvrTop) : xilIn32 s .evrTsNsLat = s.tsSLat := rfl

/-- The software's view of the running time stamp is the pair `sec`, `off`. -/
structure LiveMeans (s : EvrTop) (sec off : BitVec 32) : Prop where
  tsS : xilIn32 s .evrTsS = some sec
  tsNs : xilIn32 s .evrTsNs = some off

/-- The software's view of the latched time stamp is the pair `sec`, `off`, and message 55 is
the offset and the seconds, both big-endian. -/
structure LatMeans (s : EvrTop) (sec off : BitVec 32) : Prop where
  tsSLat : xilIn32 s .evrTsSLat = some sec
  tsNsLat : xilIn32 s .evrTsNsLat = some off
  message : message55 s = some (be32 off ++ be32 sec)

theorem liveMeans_iff {s : EvrTop} {sec off : BitVec 32} (h : s.live = (some sec, some off)) :
    LiveMeans s sec off ↔ sec = off := by
  obtain ⟨hsec, hoff⟩ := Prod.mk.inj h
  constructor
  · intro hmeans
    have hread := hmeans.tsS
    rw [xilIn32_evrTsS, hoff] at hread
    exact (Option.some.inj hread).symm
  · intro heq
    exact ⟨by rw [xilIn32_evrTsS, hoff, heq], by rw [xilIn32_evrTsNs, hsec, heq]⟩

theorem latMeans_iff {s : EvrTop} {sec off : BitVec 32} (h : s.lat = (some sec, some off)) :
    LatMeans s sec off ↔ sec = off := by
  obtain ⟨hsec, hoff⟩ := Prod.mk.inj h
  have hbody : message55 s = some (be32 sec ++ be32 off) := by
    simp only [message55, xilIn32_evrTsSLat, xilIn32_evrTsNsLat, hsec, hoff]
    exact congrArg some (timestampBody_eq sec off)
  constructor
  · intro hmeans
    have hread := hmeans.tsSLat
    rw [xilIn32_evrTsSLat, hoff] at hread
    exact (Option.some.inj hread).symm
  · intro heq
    exact ⟨by rw [xilIn32_evrTsSLat, hoff, heq], by rw [xilIn32_evrTsNsLat, hsec, heq],
      by rw [hbody, heq]⟩

/-! ## What the registers hold -/

/-- The running pair is the decoded seconds word and the offset since its latch event. -/
theorem live_of_lastUpTo {ins : Nat → TopIn} {t e : Nat}
    (h : LastUpTo (Latches fun u => (ins u).ts) t e) (hreset : (ins (t + 1)).ts.reset = false) :
    (topSignals ins (t + 2)).live =
      (some (latchedAt .init (fun u => (ins u).ts) e), some (BitVec.ofNat 32 (t - e))) := by
  have hstamp : (topSignals ins (t + 2)).ts.timeStamp =
      some (latchedAt .init (fun u => (ins u).ts) e ++ BitVec.ofNat 32 (t - e)) := by
    rw [topSignals_ts]
    exact stamp_of_lastUpTo h hreset
  simp only [EvrTop.live, EvrTop.tsS, EvrTop.tsNs, hstamp, Option.map_some,
    BitVec.extractLsb'_append_eq_left, BitVec.extractLsb'_append_eq_right]

/-- The latched pair is the one visible two edges behind the last trigger. -/
theorem lat_of_lastTrigger {ins : Nat → TopIn} {n g : Nat} (hgn : g + 3 ≤ n)
    (hg : Triggered ins g) (hlast : ∀ g', g < g' → g' + 3 ≤ n → ¬ Triggered ins g') :
    (topSignals ins n).lat = (topSignals ins (g + 2)).live := by
  have hlat : LastUpTo (fun t => (topSignals ins t).rise) (n - 1) (g + 2) := by
    refine ⟨by omega, (rise_iff _).mpr ⟨g, rfl, hg⟩, fun u h1 h2 hrise => ?_⟩
    obtain ⟨g', rfl, hg'⟩ := (rise_iff u).mp hrise
    exact hlast g' (by omega) (by omega) hg'
  have hheld := held_since (r := fun t => (topSignals ins t).lat)
    (v := fun t => (topSignals ins t).live) lat_succ hlat
  have hn : n - 1 + 1 = n := by omega
  rwa [hn] at hheld

/-- **The registers mean what their names say exactly when** seconds and offset are the same
number: for the running time stamp and for the latched one, in every reachable state. What
these are is decided by the last latch event and by the last trigger. -/
theorem registers_mean_iff (ins : Nat → TopIn) :
    (∀ n sec off, (topSignals ins n).live = (some sec, some off) →
        (LiveMeans (topSignals ins n) sec off ↔ sec = off)) ∧
      (∀ n sec off, (topSignals ins n).lat = (some sec, some off) →
        (LatMeans (topSignals ins n) sec off ↔ sec = off)) ∧
      (∀ t e, LastUpTo (Latches fun u => (ins u).ts) t e → (ins (t + 1)).ts.reset = false →
        (topSignals ins (t + 2)).live =
          (some (latchedAt .init (fun u => (ins u).ts) e), some (BitVec.ofNat 32 (t - e)))) ∧
      ∀ n g, g + 3 ≤ n → Triggered ins g → (∀ g', g < g' → g' + 3 ≤ n → ¬ Triggered ins g') →
        (topSignals ins n).lat = (topSignals ins (g + 2)).live :=
  ⟨fun _ _ _ => liveMeans_iff, fun _ _ _ => latMeans_iff, fun _ _ => live_of_lastUpTo,
    fun _ _ => lat_of_lastTrigger⟩

/-- Behind the first latch event seconds and offset are both 0, and the running registers read
right; for the trigger they are 0 and 3. -/
theorem registers_mean_oneBit :
    LiveMeans (topSignals oneBitTrigger 2) 0 0 ∧
      (LatMeans (topSignals oneBitTrigger 8) 0 3 ↔ (0 : BitVec 32) = 3) ∧
      (topSignals oneBitTrigger 2).live =
        (some (latchedAt .init oneBitStream 0), some (BitVec.ofNat 32 (0 - 0))) ∧
      (topSignals oneBitTrigger 8).lat = (topSignals oneBitTrigger 5).live := by
  obtain ⟨hlive, hlat, hdecoded, htrigger⟩ := registers_mean_iff oneBitTrigger
  refine ⟨(hlive 2 0 0 (by decide)).mpr rfl, hlat 8 0 3 (by decide),
    hdecoded 0 0 (.self (latches_oneBitStream.mpr (Or.inl rfl))) rfl,
    htrigger 8 3 (by decide) oneBitTrigger_triggered ?_⟩
  rintro g' h1 h2 ⟨d, rfl, hlow, -⟩
  have hsampled : (if d < 3 then Logic.low else .high) = .low := hlow
  rw [if_neg (by omega)] at hsampled
  cases hsampled

/-- The seconds are `0x80000000` and the offset 1, and the software reads 1 for the seconds; it
reads 3, the offset at the trigger, for the latched seconds. -/
theorem registers_swapped :
    (topSignals oneBitTrigger 8).live = (some 0x80000000, some 1) ∧
      ¬ LiveMeans (topSignals oneBitTrigger 8) 0x80000000 1 ∧
      (topSignals oneBitTrigger 8).lat = (some 0, some 3) ∧
      ¬ LatMeans (topSignals oneBitTrigger 8) 0 3 :=
  ⟨by decide, fun h => absurd h.tsS (by decide), by decide, fun h => absurd h.tsSLat (by decide)⟩

end Acmi.Evr
