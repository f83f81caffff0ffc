import Acmi.Wvfm.Fresh
import Acmi.Lib.Blocks
import Mathlib.Data.List.Forall2

/-!
# From the pins to the messages

`artix_data_rdout` registers a sample from the pins with every edge of `wvfm_clk` at which the
enable is up, and writes it into a FIFO that is 16 bits wide there and 32 where the processor reads
it. The task of `Task` takes the words out at its own pace, and resets the FIFO at the end of each
pass. Samples are lost while the FIFO is in reset or full, and whatever is in it at a reset.

What a pass sends is not pieced together, whatever comes when: the four messages of a pass that has
waited for 8192 words are 16384 samples that came on end at the pins, and no sample is in two
passes (`pins_to_messages`).

Mirroring notes:
- An event is one edge of `wvfm_clk` or one register access; the two clocks may meet in any way.
- The FIFO is a list of samples, at most `depth` of them. Of two samples in a word the first is in
  the upper half.
- The count register has 15 bits, and what it shows may be behind by some words: the pointers take
  time to get to the other clock. It never shows a word that is not there.
- The FIFO is in reset from the write of 1 to `FIFO_RST_REG` until some time after the write of 0.
- A word that is read from an empty FIFO is a parameter. What the registers of the time stamp
  return comes with the event.
-/

namespace Acmi.Wvfm

open Acmi.Lib Acmi.Psc

/-! ## The hardware -/

/-- The pins at an edge of `wvfm_clk`. -/
structure Pins where
  wvfmEnb : Bool
  wvfmData : BitVec 16

structure Rdout where
  fifoWren : Bool
  fifoDin : BitVec 16
  fifo : List (BitVec 16)
  fifoRst : Bool        -- the register
  held : Bool           -- the FIFO is in reset

def Rdout.init : Rdout := ⟨false, 0, [], false, false⟩

/-- The write port of the FIFO, and then the register in front of it. -/
def Rdout.clk (depth : Nat) (r : Rdout) (p : Pins) : Rdout :=
  { r with
    fifo :=
      if r.fifoWren = true ∧ r.held = false ∧ r.fifo.length < depth then r.fifo ++ [r.fifoDin]
      else r.fifo
    fifoWren := p.wvfmEnb
    fifoDin := p.wvfmData }

/-- `FIFO_CNT_REG`, `late` words behind. -/
def Rdout.fifoRdcnt (r : Rdout) (late : Nat) : BitVec 32 :=
  (BitVec.ofNat 15 (r.fifo.length / 2 - late)).setWidth 32

/-- `FIFO_DATA_REG`. -/
def Rdout.fifoDout (stale : BitVec 32) (r : Rdout) : BitVec 32 :=
  match r.fifo with
  | hi :: lo :: _ => hi ++ lo
  | _ => stale

/-- A word is read. -/
def Rdout.fifoRdstr (r : Rdout) : Rdout :=
  match r.fifo with
  | _ :: _ :: rest => { r with fifo := rest }
  | _ => r

/-! ## Hardware and task -/

structure Acquisition where
  rdout : Rdout
  task : Task

def Acquisition.init : Acquisition := ⟨.init, .init⟩

inductive RdoutEvent
  | clk (p : Pins)
  | ready                                         -- the FIFO is out of reset
  | access (late : Nat) (rdbk : BitVec 32)        -- of the task; `rdbk` from any other register

/-- What the register of the task's next access returns. -/
def Acquisition.reading (stale : BitVec 32) (s : Acquisition) (late : Nat) (rdbk : BitVec 32) :
    BitVec 32 :=
  match s.task.pc with
  | .poll | .recount => s.rdout.fifoRdcnt late
  | .readout _ => s.rdout.fifoDout stale
  | _ => rdbk

/-- What the access does to the FIFO. -/
def Rdout.access (r : Rdout) : Pc → Rdout
  | .readout _ => r.fifoRdstr
  | .rstHigh => { r with fifoRst := true, held := true, fifo := [] }
  | .rstLow => { r with fifoRst := false }
  | _ => r

def Acquisition.step (depth : Nat) (stale : BitVec 32) (s : Acquisition) :
    RdoutEvent → Option Acquisition
  | .clk p => some { s with rdout := s.rdout.clk depth p }
  | .ready => if s.rdout.fifoRst then none else some { s with rdout.held := false }
  | .access late rdbk =>
    some ⟨s.rdout.access s.task.pc, s.task.access (s.reading stale late rdbk)⟩

/-- The sample that comes with an event. -/
def RdoutEvent.sample : RdoutEvent → List (BitVec 16)
  | .clk p => if p.wvfmEnb then [p.wvfmData] else []
  | _ => []

/-! ## What the FIFO holds -/

/-- A pass takes that many samples. -/
def passLen : Nat := 16384

/-- Behind the stretches of `bs` in `xs`, the next samples are those of `next`, as far as a pass
needs them. -/
def Ahead (xs : List (BitVec 16)) (bs : List (List (BitVec 16))) (next : List (BitVec 16)) : Prop :=
  ∃ past coming, xs = past ++ coming ∧ Stretches past bs ∧
    next.take passLen = coming.take passLen

theorem take_concat {n : Nat} {xs ys : List (BitVec 16)} (h : xs.take n = ys.take n)
    (x : BitVec 16) : (xs ++ [x]).take n = (ys ++ [x]).take n := by
  have hlen := congrArg List.length h
  rw [List.length_take, List.length_take] at hlen
  rcases Nat.lt_or_ge xs.length n with hlt | hge
  · rw [List.take_of_length_le (Nat.le_of_lt hlt), List.take_of_length_le (by omega)] at h
    rw [h]
  · rw [List.take_append_of_le_length hge, List.take_append_of_le_length (by omega), h]

namespace Ahead

variable {xs next : List (BitVec 16)} {bs : List (List (BitVec 16))}

theorem nil (h : Stretches xs bs) : Ahead xs bs [] := ⟨xs, [], (List.append_nil xs).symm, h, rfl⟩

theorem stretches (h : Ahead xs bs next) : Stretches xs bs := by
  obtain ⟨past, coming, rfl, hpast, -⟩ := h
  exact hpast.skips coming

/-- A sample that gets into the FIFO. -/
theorem concat (h : Ahead xs bs next) (x : BitVec 16) : Ahead (xs ++ [x]) bs (next ++ [x]) := by
  obtain ⟨past, coming, rfl, hpast, hnext⟩ := h
  exact ⟨past, coming ++ [x], List.append_assoc .., hpast, take_concat hnext x⟩

/-- A sample that does not, behind all that the pass needs. -/
theorem lost (h : Ahead xs bs next) (hfull : passLen ≤ next.length) (x : BitVec 16) :
    Ahead (xs ++ [x]) bs next := by
  obtain ⟨past, coming, rfl, hpast, hnext⟩ := h
  refine ⟨past, coming ++ [x], List.append_assoc .., hpast, ?_⟩
  rw [← take_concat hnext x, List.take_append_of_le_length hfull]

/-- The pass takes them. -/
theorem taken (h : Ahead xs bs next) : Stretches xs (bs ++ [next.take passLen]) := by
  obtain ⟨past, coming, rfl, hpast, hnext⟩ := h
  have hstretch := (hpast.take (coming.take passLen)).skips (coming.drop passLen)
  rwa [List.append_assoc, List.take_append_drop, ← hnext] at hstretch

end Ahead

/-- The sample in the register, which the FIFO gets to see with the next edge. -/
def Rdout.pending (r : Rdout) : List (BitVec 16) := if r.fifoWren then [r.fifoDin] else []

theorem clk_length_le (depth : Nat) (r : Rdout) (p : Pins) :
    r.fifo.length ≤ (r.clk depth p).fifo.length := by
  unfold Rdout.clk
  dsimp only
  split_ifs
  · rw [List.length_append]
    exact Nat.le_add_right ..
  · exact Nat.le_refl _

/-- **One edge.** A sample is lost where it does not matter. -/
theorem clk_ahead {depth : Nat} (hdepth : passLen ≤ depth) {r : Rdout}
    (hheld : r.held = true → r.fifo = []) {xs b : List (BitVec 16)} {bs : List (List (BitVec 16))}
    (h : Ahead xs bs (b ++ r.fifo)) (hb : b = [] ∨ passLen ≤ (b ++ r.fifo).length) (p : Pins) :
    Ahead (xs ++ r.pending) bs (b ++ (r.clk depth p).fifo) := by
  unfold Rdout.pending Rdout.clk
  dsimp only
  cases r.fifoWren with
  | false =>
    rw [if_neg Bool.false_ne_true, if_neg fun hw => Bool.false_ne_true hw.1, List.append_nil]
    exact h
  | true =>
    rw [if_pos rfl]
    split_ifs with hwrite
    · rw [← List.append_assoc]
      exact h.concat _
    · by_cases hfull : passLen ≤ (b ++ r.fifo).length
      · exact h.lost hfull _
      · -- the FIFO is not full, so it is in reset
        have hroom : r.fifo.length < depth := by
          rw [List.length_append] at hfull
          omega
        have hreset : r.held = true := by
          cases hr : r.held with
          | true => rfl
          | false => exact absurd ⟨rfl, hr, hroom⟩ hwrite
        have hempty := hheld hreset
        rw [hb.resolve_right hfull, hempty]
        exact .nil (h.stretches.skip _)

/-! ## The run -/

/-- No poll has found part of a frame. -/
def Reads.Whole (r : Reads) : Prop := ∀ c ∈ r.polled, c.toNat < 8000 ∨ 8192 ≤ c.toNat

instance (r : Reads) : Decidable r.Whole :=
  inferInstanceAs (Decidable (∀ c ∈ r.polled, c.toNat < 8000 ∨ 8192 ≤ c.toNat))

/-- The samples of the passes that found a frame whole. -/
def wholeSamples (rs : List Reads) : List (List (BitVec 16)) :=
  (rs.filter fun r => r.Whole).map fun r => samples r.words

theorem wholeSamples_whole (rs : List Reads) {r : Reads} (h : r.Whole) :
    wholeSamples (rs ++ [r]) = wholeSamples rs ++ [samples r.words] := by
  rw [wholeSamples, List.filter_append, List.map_append, List.filter_singleton, decide_eq_true h]
  rfl

theorem wholeSamples_part (rs : List Reads) {r : Reads} (h : ¬ r.Whole) :
    wholeSamples (rs ++ [r]) = wholeSamples rs := by
  rw [wholeSamples, List.filter_append, List.map_append, List.filter_singleton, decide_eq_false h]
  exact List.append_nil _

/-- Of what a pass has read, only the counts and the words matter. -/
theorem wholeSamples_stamp (rs : List Reads) (r : Reads) (stamp : List (BitVec 32)) :
    wholeSamples (rs ++ [{ r with stamp := stamp }]) = wholeSamples (rs ++ [r]) := by
  by_cases h : r.Whole
  · have h' : Reads.Whole { r with stamp := stamp } := h
    rw [wholeSamples_whole rs h', wholeSamples_whole rs h]
  · have h' : ¬ Reads.Whole { r with stamp := stamp } := h
    rw [wholeSamples_part rs h', wholeSamples_part rs h]

/-- What has been taken by the passes that are over, and with the one that is going on. -/
def Task.past (t : Task) : List (List (BitVec 16)) := wholeSamples (t.passes.map Pass.reads)

def Task.now (t : Task) : List (List (BitVec 16)) :=
  wholeSamples (t.passes.map Pass.reads ++ [t.reads])

/-- Where the samples are that have been written to the FIFO. -/
def Place (s : Acquisition) (xs : List (BitVec 16)) : Pc → Prop
  | .poll => Ahead xs s.task.past s.rdout.fifo
  | .readout _ =>
    Stretches xs s.task.past ∧
      (s.task.reads.Whole → Ahead xs s.task.past (samples s.task.reads.words ++ s.rdout.fifo) ∧
        passLen ≤ (samples s.task.reads.words ++ s.rdout.fifo).length)
  | .tsNs | .tsS | .rstHigh => Stretches xs s.task.now
  | .rstLow | .recount | .send => Ahead xs s.task.now s.rdout.fifo

structure RdoutInv (s : Acquisition) (seen : List (BitVec 16)) : Prop where
  task : PassInv s.task
  held : s.rdout.held = true → s.rdout.fifo = []
  place : ∃ xs, seen = xs ++ s.rdout.pending ∧ Place s xs s.task.pc

theorem clk_place {depth : Nat} (hdepth : passLen ≤ depth) {s : Acquisition}
    (hheld : s.rdout.held = true → s.rdout.fifo = []) {xs : List (BitVec 16)} {pc : Pc}
    (h : Place s xs pc) (p : Pins) :
    Place { s with rdout := s.rdout.clk depth p } (xs ++ s.rdout.pending) pc := by
  have hmore := clk_length_le depth s.rdout p
  cases pc with
  | poll => exact clk_ahead hdepth hheld (b := []) h (Or.inl rfl) p
  | readout k =>
    obtain ⟨hstretches, hwhole⟩ := h
    refine ⟨hstretches.skips _, fun hw => ?_⟩
    obtain ⟨hahead, hlen⟩ := hwhole hw
    refine ⟨clk_ahead hdepth hheld hahead (Or.inr hlen) p, Nat.le_trans hlen ?_⟩
    rw [List.length_append, List.length_append]
    exact Nat.add_le_add_left hmore _
  | tsNs | tsS | rstHigh => exact Stretches.skips h _
  | rstLow | recount | send => exact clk_ahead hdepth hheld (b := []) h (Or.inl rfl) p

/-! ## The accesses -/

theorem samples_concat (ws : List (BitVec 32)) (hi lo : BitVec 16) :
    samples (ws ++ [hi ++ lo]) = samples ws ++ [hi, lo] := by
  have hhi : (hi ++ lo).extractLsb' 16 16 = hi := BitVec.extractLsb'_append_eq_left
  have hlo : (hi ++ lo).extractLsb' 0 16 = lo := BitVec.extractLsb'_append_eq_right
  rw [samples, List.flatMap_append, ← samples, List.flatMap_cons, List.flatMap_nil, hhi, hlo]
  rfl

/-- The count shows no word that is not there. -/
theorem fifoRdcnt_le (r : Rdout) (late : Nat) : 2 * (r.fifoRdcnt late).toNat ≤ r.fifo.length := by
  have hmod := Nat.mod_le (r.fifo.length / 2 - late) (2 ^ 15)
  rw [Rdout.fifoRdcnt, BitVec.toNat_setWidth_of_le (by decide), BitVec.toNat_ofNat]
  omega

/-- A sound word is what comes next. -/
theorem readout_word {stale : BitVec 32} {r : Rdout} (h : 2 ≤ r.fifo.length)
    (ws : List (BitVec 32)) :
    samples (ws ++ [r.fifoDout stale]) ++ r.fifoRdstr.fifo = samples ws ++ r.fifo := by
  unfold Rdout.fifoDout Rdout.fifoRdstr
  match hfifo : r.fifo with
  | [] => simp [hfifo] at h
  | [_] => simp [hfifo] at h
  | hi :: lo :: rest =>
    rw [samples_concat, List.append_assoc]
    rfl

/-- An access leaves an empty FIFO in reset. -/
theorem access_held {r : Rdout} (h : r.held = true → r.fifo = []) (pc : Pc) :
    (r.access pc).held = true → (r.access pc).fifo = [] := by
  cases pc with
  | rstHigh => exact fun _ => rfl
  | readout k =>
    unfold Rdout.access Rdout.fifoRdstr
    dsimp only
    split
    · next hfifo =>
      intro hheld
      rw [h hheld] at hfifo
      cases hfifo
    · exact h
  | _ => exact h

theorem access_pending (r : Rdout) (pc : Pc) : (r.access pc).pending = r.pending := by
  cases pc with
  | readout k =>
    unfold Rdout.access Rdout.fifoRdstr
    dsimp only
    split <;> rfl
  | _ => rfl

section

variable {stale : BitVec 32} {s : Acquisition} {xs : List (BitVec 16)}

/-- The waiting loop. -/
theorem poll_place (hinv : PassInv s.task) (hpc : s.task.pc = .poll)
    (h : Ahead xs s.task.past s.rdout.fifo) (late : Nat) (rdbk : BitVec 32) :
    let t := s.task.access (s.reading stale late rdbk)
    Place ⟨s.rdout, t⟩ xs t.pc := by
  have hcurrent := hinv.current
  rw [hpc] at hcurrent
  obtain ⟨-, hwords, -⟩ := hcurrent
  have hcount := fifoRdcnt_le s.rdout late
  have hreading : s.reading stale late rdbk = s.rdout.fifoRdcnt late := by
    rw [Acquisition.reading, hpc]
  rw [hreading]
  generalize s.rdout.fifoRdcnt late = c at hcount
  simp only [Task.access, hpc]
  split_ifs with hfew hmany
  · exact h
  · refine ⟨h.stretches, fun hwhole => ?_⟩
    rcases hwhole c (List.mem_append_right _ List.mem_cons_self) with hc | hc
    · exact absurd hc hfew
    · show Ahead xs s.task.past (samples s.task.reads.words ++ s.rdout.fifo) ∧
        16384 ≤ (samples s.task.reads.words ++ s.rdout.fifo).length
      rw [hwords]
      exact ⟨h, by show 16384 ≤ s.rdout.fifo.length; omega⟩
  · -- exactly 8000: nothing is read
    have hge : ¬ c.toNat < 8000 := hfew
    have hle : ¬ 8000 < c.toNat := hmany
    show Stretches xs (wholeSamples _)
    rw [wholeSamples_part]
    · exact h.stretches
    · intro hwhole
      have hlast := hwhole c (List.mem_append_right _ List.mem_cons_self)
      omega

/-- A word of the readout. -/
theorem readout_place (hinv : PassInv s.task) {k : Nat} (hpc : s.task.pc = .readout k)
    (h : Place s xs (.readout k)) (late : Nat) (rdbk : BitVec 32) :
    let t := s.task.access (s.reading stale late rdbk)
    Place ⟨s.rdout.fifoRdstr, t⟩ xs t.pc := by
  obtain ⟨hstretches, hahead⟩ := h
  have hcurrent := hinv.current
  rw [hpc] at hcurrent
  obtain ⟨hk, hfilling, -⟩ := hcurrent
  have hreading : s.reading stale late rdbk = s.rdout.fifoDout stale := by
    rw [Acquisition.reading, hpc]
  have hsamples := samples_length s.task.reads.words
  rw [hfilling.words] at hsamples
  -- there is a word, and it is the next one
  have hnext : s.task.reads.Whole →
      samples (s.task.reads.words ++ [s.rdout.fifoDout stale]) ++ s.rdout.fifoRdstr.fifo =
        samples s.task.reads.words ++ s.rdout.fifo := by
    intro hwhole
    have hlen := (hahead hwhole).2
    rw [List.length_append, passLen] at hlen
    exact readout_word (by omega) _
  rw [hreading]
  simp only [Task.access, hpc]
  split_ifs with hmore
  · refine ⟨hstretches, fun hwhole => ?_⟩
    simp only [hnext hwhole]
    exact hahead hwhole
  · let r : Reads :=
      ⟨s.task.reads.polled, s.task.reads.words ++ [s.rdout.fifoDout stale], s.task.reads.stamp⟩
    show Stretches xs (wholeSamples (s.task.passes.map Pass.reads ++ [r]))
    by_cases hwhole : r.Whole
    · rw [wholeSamples_whole _ hwhole]
      have hlen : (samples (s.task.reads.words ++ [s.rdout.fifoDout stale])).length = passLen := by
        rw [samples_length, List.length_append, hfilling.words, passLen, List.length_singleton]
        omega
      have htaken := (hahead hwhole).1.taken
      rw [← hnext hwhole, List.take_append_of_le_length (Nat.le_of_eq hlen.symm),
        List.take_of_length_le (Nat.le_of_eq hlen)] at htaken
      exact htaken
    · rw [wholeSamples_part _ hwhole]
      exact hstretches

/-- **One access.** -/
theorem access_place (hinv : PassInv s.task) (h : Place s xs s.task.pc) (late : Nat)
    (rdbk : BitVec 32) :
    let t := s.task.access (s.reading stale late rdbk)
    Place ⟨s.rdout.access s.task.pc, t⟩ xs t.pc := by
  cases hpc : s.task.pc with
  | poll =>
    rw [hpc] at h
    exact poll_place hinv hpc h late rdbk
  | readout k =>
    rw [hpc] at h
    exact readout_place hinv hpc h late rdbk
  | rstHigh =>
    rw [hpc] at h
    simp only [Task.access, hpc]
    exact Ahead.nil h
  | tsNs | tsS =>
    rw [hpc] at h
    simp only [Task.access, hpc]
    show Stretches xs (wholeSamples (s.task.passes.map Pass.reads ++ [_]))
    rw [wholeSamples_stamp]
    exact h
  | rstLow | recount =>
    rw [hpc] at h
    simp only [Task.access, hpc]
    exact h
  | send =>
    -- the pass is over
    rw [hpc] at h
    simp only [Task.access, hpc]
    show Ahead xs (wholeSamples ((s.task.passes ++ [_]).map Pass.reads)) s.rdout.fifo
    rw [List.map_append]
    exact h

end

/-! ## The messages -/

/-- The samples of a pass, message by message. -/
structure Carries (b : List (BitVec 16)) (messages : List (Nat × List Byte)) : Prop where
  len : b.length = passLen
  pulseStats : bodyOf messages 51 = (b.take 128).flatMap be16
  eeprom : bodyOf messages 52 = ((b.drop 128).take 128).flatMap be16
  boowAdc : bodyOf messages 53 = ((b.drop 256).take 128).flatMap be16
  wvfmAdc : bodyOf messages 54 = (b.drop 384).flatMap be16

theorem samples_take (ws : List (BitVec 32)) (k : Nat) :
    samples (ws.take k) = (samples ws).take (2 * k) := by
  induction ws generalizing k with
  | nil => rw [List.take_nil]; exact (List.take_nil).symm
  | cons w ws ih =>
    cases k with
    | zero => rfl
    | succ k => exact congrArg (fun l => w.extractLsb' 16 16 :: w.extractLsb' 0 16 :: l) (ih k)

theorem samples_drop (ws : List (BitVec 32)) (k : Nat) :
    samples (ws.drop k) = (samples ws).drop (2 * k) := by
  induction ws generalizing k with
  | nil => rw [List.drop_nil]; exact (List.drop_nil).symm
  | cons w ws ih =>
    cases k with
    | zero => rfl
    | succ k => exact ih k

/-- The messages made of some words carry their samples. -/
theorem carries_samples {ws : List (BitVec 32)} (hws : ws.length = 8192) (ns sec : BitVec 32) :
    Carries (samples ws) (frameOf ws ns sec).messages := by
  obtain ⟨h51, h52, h53, h54⟩ := bodyOf_messages (frameOf ws ns sec)
  have hwvfm : (ws.drop 192).take 8000 = ws.drop 192 := by
    apply List.take_of_length_le
    rw [List.length_drop]
    omega
  refine ⟨by rw [samples_length, hws, passLen], ?_, ?_, ?_, ?_⟩
  · rw [h51, body_frameOf (by omega), ← samples_flatMap, samples_take]
    rfl
  · rw [h52, body_frameOf (by omega), ← samples_flatMap, samples_take, samples_drop]
  · rw [h53, body_frameOf (by omega), ← samples_flatMap, samples_take, samples_drop]
  · rw [h54, body_frameOf (by omega), hwvfm, ← samples_flatMap, samples_drop]

/-! ## Every run -/

theorem step_rdoutInv {depth : Nat} (hdepth : passLen ≤ depth) {stale : BitVec 32}
    {s s' : Acquisition} {e : RdoutEvent} {seen : List (BitVec 16)} (h : RdoutInv s seen)
    (hs : s.step depth stale e = some s') : RdoutInv s' (seen ++ e.sample) := by
  obtain ⟨htask, hheld, xs, rfl, hplace⟩ := h
  cases e with
  | clk p =>
    rw [Acquisition.step, Option.some.injEq] at hs
    subst hs
    refine ⟨htask, fun hreset => ?_, xs ++ s.rdout.pending, rfl, clk_place hdepth hheld hplace p⟩
    have hlost : ¬ (s.rdout.fifoWren = true ∧ s.rdout.held = false ∧
        s.rdout.fifo.length < depth) := by
      intro hwrite
      have hheld' : s.rdout.held = true := hreset
      rw [hwrite.2.1] at hheld'
      cases hheld'
    show (if _ then _ else s.rdout.fifo) = []
    rw [if_neg hlost]
    exact hheld hreset
  | ready =>
    rw [Acquisition.step] at hs
    split_ifs at hs with hrst
    rw [Option.some.injEq] at hs
    subst hs
    refine ⟨htask, fun hreset => absurd hreset Bool.false_ne_true, xs, List.append_nil _, hplace⟩
  | access late rdbk =>
    rw [Acquisition.step, Option.some.injEq] at hs
    subst hs
    refine ⟨access_passInv _ _ htask, access_held hheld s.task.pc, xs, ?_,
      access_place htask hplace late rdbk⟩
    show xs ++ s.rdout.pending ++ [] = xs ++ (s.rdout.access s.task.pc).pending
    rw [access_pending, List.append_nil]

theorem init_rdoutInv : RdoutInv .init [] :=
  ⟨init_passInv, fun _ => rfl, [], rfl, .nil .nil⟩

theorem Task.now_past {t : Task} {xs : List (BitVec 16)} (h : Stretches xs t.now) :
    Stretches xs t.past := by
  by_cases hwhole : t.reads.Whole
  · rw [Task.now, wholeSamples_whole _ hwhole] at h
    exact h.init
  · rwa [Task.now, wholeSamples_part _ hwhole] at h

theorem RdoutInv.stretches {s : Acquisition} {seen : List (BitVec 16)} (h : RdoutInv s seen) :
    Stretches seen s.task.past := by
  obtain ⟨-, -, xs, rfl, hplace⟩ := h
  refine Stretches.skips ?_ _
  cases hpc : s.task.pc with
  | poll =>
    rw [hpc] at hplace
    exact Ahead.stretches hplace
  | readout k =>
    rw [hpc] at hplace
    exact hplace.1
  | tsNs | tsS | rstHigh =>
    rw [hpc] at hplace
    exact Task.now_past hplace
  | rstLow | recount | send =>
    rw [hpc] at hplace
    exact Task.now_past (Ahead.stretches hplace)

/-- A pass that has found a frame whole has sent what it has read. -/
theorem carries_of_passInv {t : Task} (h : PassInv t) {p : Pass} (hp : p ∈ t.passes)
    (hwhole : p.reads.Whole) : Carries (samples p.reads.words) p.messages := by
  rcases h.passes p hp with ⟨-, hwords, -, hmessages⟩ | ⟨⟨few, hpolled, -⟩, -⟩
  · rw [hmessages]
    exact carries_samples hwords _ _
  · have hlast := hwhole 8000 (hpolled ▸ List.mem_append_right few List.mem_cons_self)
    exact absurd hlast (by decide)

theorem rdoutInv_of_run {depth : Nat} (hdepth : passLen ≤ depth) {stale : BitVec 32}
    {es : List RdoutEvent} {s : Acquisition}
    (hrun : runFrom (Acquisition.step depth stale) .init es = some s) :
    RdoutInv s (es.flatMap RdoutEvent.sample) := by
  have hinv := runFrom_history_of_meets (C := fun _ _ => True) (f := fun _ e => e.sample)
    (I := RdoutInv) (fun _ _ _ _ h _ hs => step_rdoutInv hdepth h hs) es .init s [] init_rdoutInv
    (StepsMeet.of_forall es _ fun _ _ _ => trivial) hrun
  rwa [List.nil_append, history_events RdoutEvent.sample hrun] at hinv

/-- The passes that found a frame whole carry what they have taken. -/
theorem RdoutInv.carried {s : Acquisition} {seen : List (BitVec 16)} (h : RdoutInv s seen) :
    List.Forall₂ (fun b p => Carries b p.messages) s.task.past
      (s.task.passes.filter fun p => p.reads.Whole) := by
  rw [Task.past, wholeSamples, List.filter_map, List.map_map, List.forall₂_map_left_iff]
  refine List.forall₂_same.mpr fun p hp => ?_
  obtain ⟨hmem, hwhole⟩ := List.mem_filter.mp hp
  exact carries_of_passInv h.task hmem (of_decide_eq_true hwhole)

/-- **A pass sends what came on end at the pins.** In every run, the passes that have waited for
their 8192 words have each sent 16384 samples on end, in order; between them samples may be lost,
and none is sent twice. -/
theorem pins_to_messages {depth : Nat} (hdepth : passLen ≤ depth) (stale : BitVec 32)
    (es : List RdoutEvent) {s : Acquisition}
    (hrun : runFrom (Acquisition.step depth stale) .init es = some s) :
    ∃ bs, Stretches (es.flatMap RdoutEvent.sample) bs ∧
      List.Forall₂ (fun b p => Carries b p.messages) bs
        (s.task.passes.filter fun p => p.reads.Whole) := by
  have hinv := rdoutInv_of_run hdepth hrun
  exact ⟨s.task.past, hinv.stretches, hinv.carried⟩

/-! ## A frame that comes while the task waits -/

theorem clk_fifo {depth : Nat} {r : Rdout} (hheld : r.held = false)
    (hroom : r.fifo.length + r.pending.length ≤ depth) (p : Pins) :
    (r.clk depth p).fifo = r.fifo ++ r.pending := by
  unfold Rdout.clk Rdout.pending at *
  dsimp only at *
  cases hwren : r.fifoWren with
  | false => simp
  | true =>
    rw [hwren, if_pos rfl, List.length_singleton] at hroom
    rw [if_pos ⟨rfl, hheld, hroom⟩, if_pos rfl]

/-- The edges that bring some samples on end, and one more. -/
def clks (b : List (BitVec 16)) : List RdoutEvent :=
  b.map (fun x => .clk ⟨true, x⟩) ++ [.clk ⟨false, 0⟩]

theorem clks_run {depth : Nat} (stale : BitVec 32) (b : List (BitVec 16)) {s : Acquisition}
    (hheld : s.rdout.held = false)
    (hroom : s.rdout.fifo.length + s.rdout.pending.length + b.length ≤ depth) :
    ∃ r, runFrom (Acquisition.step depth stale) s (clks b) = some { s with rdout := r } ∧
      r.fifo = s.rdout.fifo ++ s.rdout.pending ++ b := by
  induction b generalizing s with
  | nil =>
    refine ⟨s.rdout.clk depth ⟨false, 0⟩, rfl, ?_⟩
    rw [List.append_nil]
    exact clk_fifo hheld hroom _
  | cons x b ih =>
    have hnext := clk_fifo hheld (Nat.le_trans (Nat.le_add_right ..) hroom) ⟨true, x⟩
    obtain ⟨r, hr, hfifo⟩ := ih (s := { s with rdout := s.rdout.clk depth ⟨true, x⟩ }) hheld (by
      show (s.rdout.clk depth ⟨true, x⟩).fifo.length + 1 + b.length ≤ depth
      rw [hnext, List.length_append]
      rw [List.length_cons] at hroom
      omega)
    refine ⟨r, runFrom_cons_iff.mpr ⟨_, rfl, hr⟩, ?_⟩
    rw [hfifo]
    show (s.rdout.clk depth ⟨true, x⟩).fifo ++ [x] ++ b = _
    rw [hnext, List.append_assoc _ [x], List.singleton_append]

theorem append_halves (w : BitVec 32) : w.extractLsb' 16 16 ++ w.extractLsb' 0 16 = w := by
  apply BitVec.eq_of_getLsbD_eq
  intro i hi
  simp only [BitVec.getLsbD_append, BitVec.getLsbD_extractLsb']
  by_cases h : i < 16
  · simp [h]
  · have hlow : i - 16 < 16 := by omega
    have hsum : 16 + (i - 16) = i := by omega
    simp [h, hlow, hsum]

/-- The readout of the words that are there. -/
theorem readout_run_words (depth : Nat) (stale : BitVec 32) (ws : List (BitVec 32))
    (rest : List (BitVec 16)) : ∀ (k : Nat) (s : Acquisition),
    s.task.pc = (if k < 8192 then .readout k else .tsNs) → k + ws.length = 8192 →
    s.rdout.fifo = samples ws ++ rest →
    ∃ a, runFrom (Acquisition.step depth stale) s (List.replicate ws.length (.access 0 0)) =
      some ⟨{ s.rdout with fifo := rest },
        ⟨.tsNs, a, { s.task.reads with words := s.task.reads.words ++ ws }, s.task.passes⟩⟩ := by
  induction ws with
  | nil =>
    intro k s hpc hk hfifo
    have hk' : k = 8192 := hk
    rw [hk', if_neg (Nat.lt_irrefl _)] at hpc
    refine ⟨s.task.arrays, ?_⟩
    obtain ⟨⟨wren, din, fifo, rst, held⟩, ⟨pc, arrays, reads, passes⟩⟩ := s
    obtain rfl : pc = .tsNs := hpc
    obtain rfl : fifo = rest := hfifo
    rw [List.append_nil]
    rfl
  | cons w ws ih =>
    intro k s hpc hk hfifo
    rw [List.length_cons] at hk
    rw [if_pos (by omega)] at hpc
    let t : Acquisition := ⟨{ s.rdout with fifo := samples ws ++ rest },
      { s.task with
        arrays := s.task.arrays.store k w
        reads := { s.task.reads with words := s.task.reads.words ++ [w] }
        pc := if k + 1 < 8192 then .readout (k + 1) else .tsNs }⟩
    have hstep : s.step depth stale (.access 0 0) = some t := by
      simp only [t]
      simp only [Acquisition.step, Acquisition.reading, Rdout.access, Task.access, hpc,
        Rdout.fifoDout, Rdout.fifoRdstr, hfifo, samples, List.flatMap_cons, List.cons_append,
        List.nil_append, append_halves]
    obtain ⟨a, ha⟩ := ih (k + 1) t rfl (by omega) rfl
    refine ⟨a, runFrom_cons_iff.mpr ⟨t, hstep, ha.trans ?_⟩⟩
    simp only [t, List.append_assoc, List.singleton_append]

/-- Any even number of samples are those of some words. -/
theorem exists_samples (n : Nat) : ∀ b : List (BitVec 16), b.length = 2 * n →
    ∃ ws : List (BitVec 32), ws.length = n ∧ samples ws = b := by
  induction n with
  | zero => exact fun b hb => ⟨[], rfl, (List.eq_nil_of_length_eq_zero hb).symm⟩
  | succ n ih =>
    intro b hb
    match b with
    | [] => exact absurd hb (by simp)
    | [_] => exact absurd hb (by simp; omega)
    | hi :: lo :: b =>
      obtain ⟨ws, hws, rfl⟩ := ih b (by simp only [List.length_cons] at hb; omega)
      refine ⟨(hi ++ lo) :: ws, congrArg Nat.succ hws, ?_⟩
      exact congrArg (· ++ samples ws) (samples_concat [] hi lo)

/-- The frame comes, the poll finds it, and the pass is made. -/
def onePass (b : List (BitVec 16)) : List RdoutEvent :=
  clks b ++ .access 0 0 :: (List.replicate 8192 (.access 0 0) ++ List.replicate 6 (.access 0 0))

theorem onePass_run {d : Nat} (hd : passLen ≤ d) (stale : BitVec 32)
    {b : List (BitVec 16)} (hb : b.length = passLen) :
    ∃ s p, runFrom (Acquisition.step d stale) .init (onePass b) = some s ∧
      s.task.passes = [p] ∧ p.reads.Whole := by
  obtain ⟨ws, hws, rfl⟩ := exists_samples 8192 b hb
  have hroom : Acquisition.init.rdout.fifo.length + Acquisition.init.rdout.pending.length +
      (samples ws).length ≤ d := by
    rw [hb]
    exact Nat.le_trans (Nat.le_of_eq (Nat.zero_add _)) hd
  obtain ⟨r, hclks, hfifo⟩ := clks_run stale (samples ws) (s := .init) rfl hroom
  have hfifo' : r.fifo = samples ws ++ [] := hfifo.trans (List.append_nil _).symm
  -- the poll
  have hcount : r.fifoRdcnt 0 = 8192 := by
    rw [Rdout.fifoRdcnt, hfifo', List.append_nil, hb]
    rfl
  have hpoll : Acquisition.step d stale ⟨r, .init⟩ (.access 0 0) =
      some ⟨r, { Task.init with reads := ⟨[8192], [], []⟩, pc := .readout 0 }⟩ := by
    show some (Acquisition.mk r (Task.init.access (r.fifoRdcnt 0))) = _
    rw [hcount]
    rfl
  obtain ⟨a, hreadout⟩ := readout_run_words d stale ws [] 0
    ⟨r, { Task.init with reads := ⟨[8192], [], []⟩, pc := .readout 0 }⟩ rfl (by omega) hfifo'
  rw [hws] at hreadout
  have hclks' : runFrom (Acquisition.step d stale) .init (clks (samples ws)) =
      some ⟨r, .init⟩ := hclks
  have hwhole : Reads.Whole ⟨[8192], ws, [0, 0]⟩ := by
    intro c hc
    rw [List.mem_singleton.mp hc]
    exact Or.inr (Nat.le_refl _)
  let u : Arrays :=
    { a with timestamp := Function.update (Function.update a.timestamp 0 (htonl 0)) 1 (htonl 0) }
  let p : Pass := ⟨⟨[8192], ws, [0, 0]⟩, u.messages⟩
  refine ⟨⟨{ r with fifo := [], fifoRst := false, held := true }, ⟨.poll, u, ⟨[], [], []⟩, [p]⟩⟩,
    p, ?_, rfl, hwhole⟩
  rw [onePass, runFrom_append hclks']
  refine runFrom_cons_iff.mpr ⟨_, hpoll, ?_⟩
  rw [runFrom_append hreadout]
  rfl

theorem onePass_samples (b : List (BitVec 16)) :
    (onePass b).flatMap RdoutEvent.sample = b := by
  have hclks : (clks b).flatMap RdoutEvent.sample = b := by
    rw [clks, List.flatMap_append, List.flatMap_map]
    exact (List.append_nil _).trans (List.flatMap_singleton' b)
  have hrest : ∀ n, (List.replicate n (RdoutEvent.access 0 0)).flatMap RdoutEvent.sample = [] :=
    fun n => List.flatMap_eq_nil_iff.mpr fun e he => by rw [List.eq_of_mem_replicate he]; rfl
  rw [onePass, List.flatMap_append, List.flatMap_cons, List.flatMap_append, hclks, hrest, hrest]
  exact List.append_nil b

/-- A frame of equal samples goes out. -/
theorem pins_to_messages_sevens : ∃ s p,
    runFrom (Acquisition.step 65535 0) .init (onePass (List.replicate 16384 7)) = some s ∧
      s.task.passes = [p] ∧ Carries (List.replicate 16384 7) p.messages := by
  have hlen : (List.replicate 16384 (7 : BitVec 16)).length = passLen := List.length_replicate
  obtain ⟨s, p, hrun, hpasses, hwhole⟩ := onePass_run (d := 65535) (by decide) 0 hlen
  obtain ⟨bs, hstretches, hcarries⟩ := pins_to_messages (by decide) 0 _ hrun
  refine ⟨s, p, hrun, hpasses, ?_⟩
  rw [hpasses, List.filter_singleton, decide_eq_true hwhole] at hcarries
  obtain ⟨b, rfl⟩ : ∃ b, bs = [b] := List.length_eq_one_iff.mp hcarries.length_eq
  have hb : Carries b p.messages := (List.forall₂_cons.mp hcarries).1
  -- the stretch is all that came
  rw [onePass_samples] at hstretches
  have hall := (hstretches.isInfix List.mem_cons_self).eq_of_length (hb.len.trans hlen.symm)
  exact hall ▸ hb

end Acmi.Wvfm
