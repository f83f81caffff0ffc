import Acmi.Wvfm.Packing

/-!
# Which passes are fresh

A pass is fresh when what it sends are the words and the time stamp that it has read itself, and
it reads no more words than the count it acted on. The waiting loop ends at 8000 words, the readout
is entered above 8000, and it takes out 8192: so a pass that acts on exactly 8000 words sends what
the arrays still hold from before, and one that acts on a few more reads words that are not there
yet. `fresh_iff` says that nothing else goes wrong, whatever the counts are.

The invariant follows the task through the pass: what it was given so far is in the arrays.
-/

namespace Acmi.Wvfm

open Acmi.Lib Acmi.Psc

/-- The pass sends what it has read, and has read no more than there was. -/
structure Pass.Fresh (p : Pass) : Prop where
  words : p.reads.words.length = 8192
  stamp : p.reads.stamp.length = 2
  counted : ∃ c, p.reads.polled.getLast? = some c ∧ p.reads.words.length ≤ c.toNat
  sent : p.messages =
    (frameOf p.reads.words (p.reads.stamp.getD 0 0) (p.reads.stamp.getD 1 0)).messages

/-! ## What a pass has done -/

/-- The waiting loop has ended with the count `c`. -/
def Ended (polled : List (BitVec 32)) (c : BitVec 32) : Prop :=
  ∃ few, polled = few ++ [c] ∧ ∀ d ∈ few, d.toNat < 8000

/-- All words and registers were read, and the messages are made of them. -/
def Filled (r : Reads) (messages : List (Nat × List Byte)) : Prop :=
  (∃ c, 8000 < c.toNat ∧ Ended r.polled c) ∧ r.words.length = 8192 ∧ r.stamp.length = 2 ∧
    messages = (frameOf r.words (r.stamp.getD 0 0) (r.stamp.getD 1 0)).messages

/-- The loop has ended with 8000, and nothing was read. -/
def Skipped (r : Reads) : Prop := Ended r.polled 8000 ∧ r.words = []

/-- The arrays hold the `k` words that were read. -/
structure Filling (t : Task) (k : Nat) : Prop where
  ended : ∃ c, 8000 < c.toNat ∧ Ended t.reads.polled c
  words : t.reads.words.length = k
  holds : t.arrays.Holds (frameOf t.reads.words 0 0) k

/-- The pass at each place of the program. -/
def PassSoFar (t : Task) : Pc → Prop
  | .poll => (∀ c ∈ t.reads.polled, c.toNat < 8000) ∧ t.reads.words = [] ∧ t.reads.stamp = []
  | .readout k => k < 8192 ∧ Filling t k ∧ t.reads.stamp = []
  | .tsNs => Filling t 8192 ∧ t.reads.stamp = []
  | .tsS =>
    Filling t 8192 ∧ ∃ ns, t.reads.stamp = [ns] ∧ t.arrays.timestamp 0 = htonl ns
  | .rstHigh | .rstLow | .recount | .send =>
    Filled t.reads t.arrays.messages ∨ Skipped t.reads

/-- Over a run: the passes that are over, and the one that is going on. -/
structure PassInv (t : Task) : Prop where
  passes : ∀ p ∈ t.passes, Filled p.reads p.messages ∨ Skipped p.reads
  current : PassSoFar t t.pc

/-! ## Steps -/

theorem Arrays.Holds.congr {a : Arrays} {f g : Frame} {k : Nat} (h : a.Holds f k)
    (hfg : ∀ i < k, f.words i = g.words i) : a.Holds g k where
  pulseStats i hi hik := hfg _ hik ▸ h.pulseStats i hi hik
  eeprom i hi hik := hfg _ hik ▸ h.eeprom i hi hik
  boowAdc j hj hjk := hfg _ hjk ▸ h.boowAdc j hj hjk
  wvfmAdc j hj hjk := hfg _ hjk ▸ h.wvfmAdc j hj hjk

/-- The words read so far, and one more. -/
theorem holds_concat {a : Arrays} {ws : List (BitVec 32)} {w : BitVec 32} {k : Nat}
    (h : a.Holds (frameOf ws 0 0) k) (hk : ws.length = k) :
    (a.store k w).Holds (frameOf (ws ++ [w]) 0 0) (k + 1) := by
  have hlast : (frameOf (ws ++ [w]) 0 0).words k = w := by
    show (ws ++ [w]).getD k 0 = w
    rw [← hk, List.getD_append_right _ _ _ _ (Nat.le_refl _), Nat.sub_self, List.getD_cons_zero]
  have hold : a.Holds (frameOf (ws ++ [w]) 0 0) k := by
    refine h.congr fun i hi => ?_
    show ws.getD i 0 = (ws ++ [w]).getD i 0
    rw [List.getD_append _ _ _ _ (hk ▸ hi)]
  have hstore := hold.store
  rwa [hlast] at hstore

theorem init_passInv : PassInv .init :=
  ⟨fun _ h => absurd h List.not_mem_nil, fun _ h => absurd h List.not_mem_nil, rfl, rfl⟩

theorem poll_passInv {t : Task} (h : PassInv t) (hpc : t.pc = .poll) (rdbk : BitVec 32) :
    PassInv (t.access rdbk) := by
  obtain ⟨hpasses, hcurrent⟩ := h
  rw [hpc] at hcurrent
  obtain ⟨hfew, hwords, hstamp⟩ := hcurrent
  have hended : Ended (t.reads.polled ++ [rdbk]) rdbk := ⟨t.reads.polled, rfl, hfew⟩
  simp only [Task.access, hpc]
  split_ifs with hlt hgt
  · refine ⟨hpasses, ?_, hwords, hstamp⟩
    intro c hc
    rcases List.mem_append.mp hc with hc | hc
    · exact hfew c hc
    · rw [List.mem_singleton.mp hc]
      exact hlt
  · refine ⟨hpasses, by decide, ⟨⟨rdbk, hgt, hended⟩, ?_, t.arrays.holds_zero _⟩, hstamp⟩
    show t.reads.words.length = 0
    rw [hwords, List.length_nil]
  · have h8000 : rdbk = 8000 := by
      apply BitVec.eq_of_toNat_eq
      rw [BitVec.lt_def] at hlt hgt
      exact Nat.le_antisymm (Nat.le_of_not_lt hgt) (Nat.le_of_not_lt hlt)
    exact ⟨hpasses, Or.inr ⟨h8000 ▸ hended, hwords⟩⟩

theorem readout_passInv {t : Task} {k : Nat} (h : PassInv t) (hpc : t.pc = .readout k)
    (rdbk : BitVec 32) : PassInv (t.access rdbk) := by
  obtain ⟨hpasses, hcurrent⟩ := h
  rw [hpc] at hcurrent
  obtain ⟨hk, ⟨hended, hwords, hholds⟩, hstamp⟩ := hcurrent
  have hlen : (t.reads.words ++ [rdbk]).length = k + 1 := by
    rw [List.length_append, hwords]
    rfl
  have hstore := holds_concat (w := rdbk) hholds hwords
  simp only [Task.access, hpc]
  by_cases hlast : k + 1 < 8192
  · rw [if_pos hlast]
    exact ⟨hpasses, hlast, ⟨hended, hlen, hstore⟩, hstamp⟩
  · rw [if_neg hlast]
    have hk' : k + 1 = 8192 := by omega
    rw [hk'] at hlen hstore
    exact ⟨hpasses, ⟨hended, hlen, hstore⟩, hstamp⟩

theorem tsNs_passInv {t : Task} (h : PassInv t) (hpc : t.pc = .tsNs) (rdbk : BitVec 32) :
    PassInv (t.access rdbk) := by
  obtain ⟨hpasses, hcurrent⟩ := h
  rw [hpc] at hcurrent
  obtain ⟨⟨hended, hwords, hpulse, heeprom, hboow, hwvfm⟩, hstamp⟩ := hcurrent
  simp only [Task.access, hpc, hstamp]
  refine ⟨hpasses, ⟨hended, hwords, hpulse, heeprom, hboow, hwvfm⟩, rdbk, rfl, ?_⟩
  show Function.update t.arrays.timestamp 0 (htonl rdbk) 0 = htonl rdbk
  rw [Function.update_self]

theorem tsS_passInv {t : Task} (h : PassInv t) (hpc : t.pc = .tsS) (rdbk : BitVec 32) :
    PassInv (t.access rdbk) := by
  obtain ⟨hpasses, hcurrent⟩ := h
  rw [hpc] at hcurrent
  obtain ⟨⟨hended, hwords, hpulse, heeprom, hboow, hwvfm⟩, ns, hstamp, hns⟩ := hcurrent
  simp only [Task.access, hpc, hstamp]
  refine ⟨hpasses, Or.inl ⟨hended, hwords, rfl, ?_⟩⟩
  refine messages_of_holds ⟨hpulse, heeprom, hboow, hwvfm⟩ ?_ ?_
  · have h01 : (0 : Nat) ≠ 1 := by decide
    show Function.update t.arrays.timestamp 1 (htonl rdbk) 0 = htonl ns
    rw [Function.update_of_ne h01, hns]
  · show Function.update t.arrays.timestamp 1 (htonl rdbk) 1 = htonl rdbk
    rw [Function.update_self]

theorem send_passInv {t : Task} (h : PassInv t) (hpc : t.pc = .send) (rdbk : BitVec 32) :
    PassInv (t.access rdbk) := by
  obtain ⟨hpasses, hcurrent⟩ := h
  rw [hpc] at hcurrent
  simp only [Task.access, hpc]
  refine ⟨?_, fun _ hc => absurd hc List.not_mem_nil, rfl, rfl⟩
  intro p hp
  rcases List.mem_append.mp hp with hp | hp
  · exact hpasses p hp
  · rw [List.mem_singleton.mp hp]
    exact hcurrent

theorem access_passInv (t : Task) (rdbk : BitVec 32) (h : PassInv t) :
    PassInv (t.access rdbk) := by
  have hcurrent := h.current
  cases hpc : t.pc with
  | poll => exact poll_passInv h hpc rdbk
  | readout k => exact readout_passInv h hpc rdbk
  | tsNs => exact tsNs_passInv h hpc rdbk
  | tsS => exact tsS_passInv h hpc rdbk
  | send => exact send_passInv h hpc rdbk
  | rstHigh =>
    rw [hpc] at hcurrent
    simp only [Task.access, hpc]
    exact ⟨h.passes, hcurrent⟩
  | rstLow =>
    rw [hpc] at hcurrent
    simp only [Task.access, hpc]
    exact ⟨h.passes, hcurrent⟩
  | recount =>
    rw [hpc] at hcurrent
    simp only [Task.access, hpc]
    exact ⟨h.passes, hcurrent⟩

/-! ## Every pass of every run -/

/-- **A pass is fresh unless one of its polls reads a count from 8000 to 8191.** -/
theorem fresh_iff (values : List (BitVec 32)) :
    ∀ p ∈ (Task.run values).passes,
      p.Fresh ↔ ∀ c ∈ p.reads.polled, c.toNat < 8000 ∨ 8192 ≤ c.toNat := by
  intro p hp
  rcases (Task.run_invariant init_passInv access_passInv values).passes p hp with
    ⟨⟨c, hc, few, hpolled, hfew⟩, hwords, hstamp, hmessages⟩ | ⟨⟨few, hpolled, hfew⟩, hwords⟩
  · constructor
    · rintro ⟨-, -, ⟨d, hd, hle⟩, -⟩ e he
      rw [hpolled, List.getLast?_concat, Option.some.injEq] at hd
      rw [hpolled] at he
      rcases List.mem_append.mp he with he | he
      · exact Or.inl (hfew e he)
      · rw [List.mem_singleton.mp he, hd, ← hwords]
        exact Or.inr hle
    · intro h
      have hlast : c ∈ p.reads.polled := by
        rw [hpolled]
        exact List.mem_append_right few (List.mem_singleton_self c)
      have hle : 8192 ≤ c.toNat := (h c hlast).resolve_left (by omega)
      refine ⟨hwords, hstamp, ⟨c, ?_, Nat.le_trans (Nat.le_of_eq hwords) hle⟩, hmessages⟩
      rw [hpolled, List.getLast?_concat]
  · -- nothing was read, and the count is 8000
    refine iff_of_false ?_ ?_
    · intro h
      have hlen := h.words
      rw [hwords] at hlen
      cases hlen
    · intro h
      have hlast : 8000 ∈ p.reads.polled := by
        rw [hpolled]
        exact List.mem_append_right few (List.mem_singleton_self _)
      exact absurd (h 8000 hlast) (by decide)

/-- The values of a pass that finds 8000 words at once: the poll, the reset, and the send. -/
def stalePoll : List (BitVec 32) := [8000, 0, 0, 0, 0]

def stalePass : Pass := ⟨⟨[8000], [], []⟩, Task.init.arrays.messages⟩

theorem stalePass_mem : stalePass ∈ (Task.run stalePoll).passes := List.mem_singleton_self _

theorem fresh_iff_stale : stalePass ∈ (Task.run stalePoll).passes ∧
    (stalePass.Fresh ↔ ∀ c ∈ stalePass.reads.polled, c.toNat < 8000 ∨ 8192 ≤ c.toNat) :=
  ⟨stalePass_mem, fresh_iff stalePoll stalePass stalePass_mem⟩

/-- Exactly 8000 words make the task send the arrays as they are. -/
theorem stale_sent : ¬ ∀ values, ∀ p ∈ (Task.run values).passes, p.Fresh := by
  intro h
  have hlen := (h stalePoll stalePass stalePass_mem).words
  cases hlen

end Acmi.Wvfm
