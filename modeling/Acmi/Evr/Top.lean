import Acmi.Evr.Timestamp
import Acmi.Lib.SpiBus

/-!
# `evr_top.vhd`: the time stamp of a waveform

`wvfm_enb` comes from another clock. It goes through a chain of three registers, and when the
last two show a rising edge the time stamp that is visible then is taken over into
`ts_s_lat` and `ts_ns_lat`. So a rise sampled at edge `e` latches the time stamp just before
edge `e + 2` (`lat_of_triggered`), and nothing else does (`lat_of_not`).

Mirroring notes:
- The chain and the two latched registers have no initial value. The chain shows what was
  sampled from the third edge on, and until then no rise.
- The event stream is the input here; the register in front of it that takes the low byte of
  `rxdata` is left out.
-/

namespace Acmi.Evr

open Acmi.Lib

/-- What `evr_top` sees at a rising edge of `rxusr_clk`. -/
structure TopIn where
  ts : TsIn
  wvfmEnb : Logic

/-- The signals of `evr_top` that the time stamp registers depend on. -/
structure EvrTop where
  ts : EventRcvTs
  wvfmEnbS0 : Logic
  wvfmEnbS1 : Logic
  wvfmEnbS2 : Logic
  tsSLat : Option (BitVec 32)
  tsNsLat : Option (BitVec 32)
  deriving DecidableEq

def EvrTop.init : EvrTop where
  ts := .init
  wvfmEnbS0 := .undefined
  wvfmEnbS1 := .undefined
  wvfmEnbS2 := .undefined
  tsSLat := none
  tsNsLat := none

/-- `reg_i.ts_s <= timestamp(63 downto 32)`. -/
def EvrTop.tsS (s : EvrTop) : Option (BitVec 32) := s.ts.timeStamp.map (·.extractLsb' 32 32)

/-- `reg_i.ts_ns <= timestamp(31 downto 0)`. -/
def EvrTop.tsNs (s : EvrTop) : Option (BitVec 32) := s.ts.timeStamp.map (·.extractLsb' 0 32)

/-- The chain shows a rise. -/
def EvrTop.rise (s : EvrTop) : Prop := s.wvfmEnbS2 = .low ∧ s.wvfmEnbS1 = .high

instance (s : EvrTop) : Decidable s.rise := inferInstanceAs (Decidable (_ ∧ _))

/-- One rising edge of `rxusr_clk`. -/
def EvrTop.rising (s : EvrTop) (i : TopIn) : EvrTop where
  ts := s.ts.rising i.ts
  wvfmEnbS0 := i.wvfmEnb
  wvfmEnbS1 := s.wvfmEnbS0
  wvfmEnbS2 := s.wvfmEnbS1
  tsSLat := if s.rise then s.tsS else s.tsSLat
  tsNsLat := if s.rise then s.tsNs else s.tsNsLat

/-- The signals just before edge `t`, from power-up. -/
def topSignals (ins : Nat → TopIn) : Nat → EvrTop := clocked EvrTop.rising .init ins

/-- `wvfm_enb` is sampled high at edge `e` after it has been sampled low. -/
def Triggered (ins : Nat → TopIn) (e : Nat) : Prop :=
  ∃ d, e = d + 1 ∧ (ins d).wvfmEnb = .low ∧ (ins e).wvfmEnb = .high

/-- The pair that is latched. -/
def EvrTop.lat (s : EvrTop) : Option (BitVec 32) × Option (BitVec 32) := (s.tsSLat, s.tsNsLat)

/-- The pair that is visible. -/
def EvrTop.live (s : EvrTop) : Option (BitVec 32) × Option (BitVec 32) := (s.tsS, s.tsNs)

section

variable {ins : Nat → TopIn}

/-- The decoder in `evr_top` is `event_rcv_ts` on its ports. -/
theorem topSignals_ts (t : Nat) :
    (topSignals ins t).ts = tsSignals .init (fun u => (ins u).ts) t :=
  clocked_map EvrTop.ts TopIn.ts (fun _ _ => rfl) t

theorem lat_succ (t : Nat) : (topSignals ins (t + 1)).lat =
    if (topSignals ins t).rise then (topSignals ins t).live else (topSignals ins t).lat := by
  have hsucc : topSignals ins (t + 1) = (topSignals ins t).rising (ins t) := rfl
  rw [hsucc]
  by_cases h : (topSignals ins t).rise
  · rw [if_pos h]
    simp only [EvrTop.lat, EvrTop.live, EvrTop.rising, if_pos h]
  · rw [if_neg h]
    simp only [EvrTop.lat, EvrTop.rising, if_neg h]

/-- The chain shows at edge `t` what was sampled two and three edges before. -/
theorem rise_iff (t : Nat) : (topSignals ins t).rise ↔ ∃ e, t = e + 2 ∧ Triggered ins e := by
  constructor
  · intro ⟨hs2, hs1⟩
    match t with
    | 0 | 1 | 2 => cases hs2
    | d + 3 => exact ⟨d + 1, rfl, d, rfl, hs2, hs1⟩
  · rintro ⟨e, rfl, d, rfl, hlow, hhigh⟩
    exact ⟨hlow, hhigh⟩

theorem lat_of_triggered {e : Nat} (h : Triggered ins e) :
    (topSignals ins (e + 3)).lat = (topSignals ins (e + 2)).live := by
  rw [lat_succ, if_pos ((rise_iff (e + 2)).mpr ⟨e, rfl, h⟩)]

theorem lat_of_not {t : Nat} (h : ∀ e, Triggered ins e → t ≠ e + 2) :
    (topSignals ins (t + 1)).lat = (topSignals ins t).lat := by
  rw [lat_succ, if_neg]
  intro hrise
  obtain ⟨e, ht, he⟩ := (rise_iff t).mp hrise
  exact h e he ht

end

/-- **The time stamp is never torn and never goes back**, and a trigger latches it as a
whole. -/
theorem timestamp_whole :
    (∀ (s : EventRcvTs) (ins : Nat → TsIn), (∀ t, (ins t).reset = false) →
        ∀ a t, Latches ins a → a < t → ∃ e, LastUpTo (Latches ins) (t - 1) e ∧
          stampAt s ins t = some (latchedAt s ins e ++ BitVec.ofNat 32 (t - 1 - e))) ∧
      (∀ (s : EventRcvTs) (ins : Nat → TsIn) (n : Nat), (∀ t, (ins t).reset = false) →
        Forward s ins n → ∀ a t, Latches ins a → a < t → t ≤ n →
          ∃ x y, stampAt s ins t = some x ∧ stampAt s ins (t + 1) = some y ∧ x < y) ∧
      ∀ ins : Nat → TopIn,
        (∀ e, Triggered ins e →
          (topSignals ins (e + 3)).lat = (topSignals ins (e + 2)).live) ∧
        ∀ t, (∀ e, Triggered ins e → t ≠ e + 2) →
          (topSignals ins (t + 1)).lat = (topSignals ins t).lat := by
  refine ⟨?_, ?_, fun ins => ⟨fun e => lat_of_triggered, fun t => lat_of_not⟩⟩
  · intro s ins hreset a t ha hat
    obtain ⟨u, rfl⟩ : ∃ u, t = u + 1 := ⟨t - 1, by omega⟩
    obtain ⟨e, -, he⟩ := LastUpTo.of_holds ha u (by omega)
    exact ⟨e, he, stamp_of_lastUpTo he (hreset _)⟩
  · intro s ins n hreset hforward a t ha hat htn
    exact hforward.stamp_lt hreset ha hat htn

/-- The stream with one bit, and a trigger at edge 3. -/
def oneBitTrigger (t : Nat) : TopIn where
  ts := oneBitStream t
  wvfmEnb := if t < 3 then .low else .high

theorem oneBitStream_forward : Forward .init oneBitStream 6 where
  words e e' he he' hlt _ _ := by
    rcases latches_oneBitStream.mp he with rfl | rfl <;>
      rcases latches_oneBitStream.mp he' with rfl | rfl
    · cases hlt
    · decide
    · cases hlt
    · omega
  gaps e _ hle := by omega

theorem oneBitTrigger_triggered : Triggered oneBitTrigger 3 := ⟨2, rfl, rfl, rfl⟩

/-- Across the second latch event the stamp goes on from the old word to the new one. -/
theorem timestamp_whole_oneBit :
    Forward .init oneBitStream 6 ∧ Latches oneBitStream 0 ∧
      (∃ x y, stampAt .init oneBitStream 5 = some x ∧ stampAt .init oneBitStream 6 = some y ∧
        x < y) ∧
      (∃ e, LastUpTo (Latches oneBitStream) 5 e ∧ stampAt .init oneBitStream 6 =
        some (latchedAt .init oneBitStream e ++ BitVec.ofNat 32 (5 - e))) ∧
      Triggered oneBitTrigger 3 ∧
      (topSignals oneBitTrigger 6).lat = (topSignals oneBitTrigger 5).live := by
  have hlatch : Latches oneBitStream 0 := latches_oneBitStream.mpr (Or.inl rfl)
  have hlow : ∀ t, (oneBitStream t).reset = false := fun _ => rfl
  obtain ⟨hwhole, hforward, htrigger⟩ := timestamp_whole
  exact ⟨oneBitStream_forward, hlatch,
    hforward .init oneBitStream 6 hlow oneBitStream_forward 0 5 hlatch (by decide) (by decide),
    hwhole .init oneBitStream hlow 0 6 hlatch (by decide),
    oneBitTrigger_triggered, (htrigger oneBitTrigger).1 3 oneBitTrigger_triggered⟩

end Acmi.Evr
