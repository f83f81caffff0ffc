import Acmi.Evr.Registers
import Acmi.Wvfm.Fresh

/-!
# The time stamp of a pass

Message 55 is two registers that the task reads one behind the other. The event receiver goes on
meanwhile on a clock of its own, and takes a new time stamp over with every rise of `wvfm_enb`.
Here the two run together, in any order: what the task sends are the seconds of the last trigger
before its first read and the offset of the last one before its second (`stamps_to_messages`).

So the message is the time of one trigger if none comes between the two reads (`Marks`), and then
the times that are sent never go back (`stamps_ordered`).

Mirroring notes:
- What `evr_top` sees is a function of the edge, and a trigger is in the registers three edges
  behind it.
- What the other registers return comes with the access, as in `Task`; so does what is read from
  a time stamp register that nothing has been written to.
- `edges`, `readAt` and `sent` say what happened when. Neither side has them.
-/

namespace Acmi.Wvfm

open Acmi.Lib Acmi.Psc Acmi.Control
open Acmi.Evr (TsIn TopIn EvrTop topSignals xilIn32 Triggered Latches latchedAt stampAt Forward)

/-! ## Event receiver and task -/

structure Stamping where
  task : Task
  evr : EvrTop
  edges : Nat                      -- of `rxusr_clk` so far
  readAt : List Nat                -- how many there were when the pass read its time stamp
  sent : List (Pass × List Nat)    -- the passes that are over, each with these

def Stamping.init : Stamping := ⟨.init, .init, 0, [], []⟩

inductive StampEvent
  | rx                             -- an edge of `rxusr_clk`
  | access (rdbk : BitVec 32)      -- of the task

/-- What the register of the task's next access returns. -/
def Stamping.reading (s : Stamping) (rdbk : BitVec 32) : BitVec 32 :=
  match s.task.pc with
  | .tsNs => (xilIn32 s.evr .evrTsNsLat).getD rdbk
  | .tsS => (xilIn32 s.evr .evrTsSLat).getD rdbk
  | _ => rdbk

def Stamping.access (s : Stamping) (rdbk : BitVec 32) : Stamping :=
  let t := s.task.access (s.reading rdbk)
  match s.task.pc with
  | .tsNs | .tsS => { s with task := t, readAt := s.readAt ++ [s.edges] }
  | .send =>
    { s with
      task := t
      readAt := []
      sent := s.sent ++ [(⟨s.task.reads, s.task.arrays.messages⟩, s.readAt)] }
  | _ => { s with task := t }

def Stamping.step (ins : Nat → TopIn) (s : Stamping) : StampEvent → Stamping
  | .rx => { s with evr := s.evr.rising (ins s.edges), edges := s.edges + 1 }
  | .access rdbk => s.access rdbk

def Stamping.run (ins : Nat → TopIn) (es : List StampEvent) : Stamping :=
  es.foldl (Stamping.step ins) .init

/-- The event stream, as the decoder sees it. -/
def streamOf (ins : Nat → TopIn) (t : Nat) : TsIn := (ins t).ts

/-! ## What is in the registers -/

/-- The last trigger that is in the registers at edge `n`. -/
structure LastTrigger (ins : Nat → TopIn) (n g : Nat) : Prop where
  le : g + 3 ≤ n
  holds : Triggered ins g
  after : ∀ g', g < g' → g' + 3 ≤ n → ¬ Triggered ins g'

section

variable {ins : Nat → TopIn} {n n' g g' e : Nat}

theorem LastTrigger.mono (h : LastTrigger ins n g) (h' : LastTrigger ins n' g') (hn : n ≤ n') :
    g ≤ g' := by
  by_contra hlt
  have hle := h.le
  exact h'.after g (by omega) (by omega) h.holds

/-- The registers show the time of the trigger: the seconds of the last latch event before it, and
the edges since. -/
theorem LastTrigger.lat (h : LastTrigger ins n g) (he : LastUpTo (Latches (streamOf ins)) g e)
    (hreset : (ins (g + 1)).ts.reset = false) : (topSignals ins n).lat =
      (some (latchedAt .init (streamOf ins) e), some (BitVec.ofNat 32 (g - e))) := by
  rw [Evr.lat_of_lastTrigger h.le h.holds h.after]
  exact Evr.live_of_lastUpTo he hreset

theorem LastTrigger.seconds (h : LastTrigger ins n g)
    (he : LastUpTo (Latches (streamOf ins)) g e) (hreset : (ins (g + 1)).ts.reset = false) :
    xilIn32 (topSignals ins n) .evrTsNsLat = some (latchedAt .init (streamOf ins) e) :=
  congrArg Prod.fst (h.lat he hreset)

theorem LastTrigger.offset (h : LastTrigger ins n g)
    (he : LastUpTo (Latches (streamOf ins)) g e) (hreset : (ins (g + 1)).ts.reset = false) :
    xilIn32 (topSignals ins n) .evrTsSLat = some (BitVec.ofNat 32 (g - e)) :=
  congrArg Prod.snd (h.lat he hreset)

end

/-! ## The run -/

/-- A read of `reg` at edge `a` that returned `x`. -/
def Shown (ins : Nat → TopIn) (reg : Reg) (a : Nat) (x : BitVec 32) : Prop :=
  ∀ v, xilIn32 (topSignals ins a) reg = some v → x = v

/-- What a pass has read, and when. -/
inductive ReadStamp (ins : Nat → TopIn) : List (BitVec 32) → List Nat → Prop
  | none : ReadStamp ins [] []
  | seconds {a : Nat} {x : BitVec 32} (hx : Shown ins .evrTsNsLat a x) : ReadStamp ins [x] [a]
  | both {a b : Nat} {x y : BitVec 32} (hx : Shown ins .evrTsNsLat a x)
      (hy : Shown ins .evrTsSLat b y) : ReadStamp ins [x, y] [a, b]

theorem ReadStamp.nil_inv {ins : Nat → TopIn} {l : List Nat} (h : ReadStamp ins [] l) : l = [] := by
  cases h
  rfl

theorem ReadStamp.seconds_inv {ins : Nat → TopIn} {x : BitVec 32} {l : List Nat}
    (h : ReadStamp ins [x] l) : ∃ a, l = [a] ∧ Shown ins .evrTsNsLat a x := by
  cases h with
  | seconds hx => exact ⟨_, rfl, hx⟩

/-- Both registers go into message 55. -/
def Sends (stamp : List (BitVec 32)) (messages : List (Nat × List Byte)) : Prop :=
  ∀ x y, stamp = [x, y] → bodyOf messages 55 = be32 x ++ be32 y

/-- All reads so far. -/
def Stamping.log (s : Stamping) : List Nat := s.sent.flatMap Prod.snd ++ s.readAt

structure StampInv (ins : Nat → TopIn) (s : Stamping) : Prop where
  evr : s.evr = topSignals ins s.edges
  task : PassInv s.task
  passes : s.task.passes = s.sent.map Prod.fst
  current : ReadStamp ins s.task.reads.stamp s.readAt
  sends : Sends s.task.reads.stamp s.task.arrays.messages
  past : ∀ p ∈ s.sent, ReadStamp ins p.1.reads.stamp p.2 ∧ Sends p.1.reads.stamp p.1.messages
  ordered : s.log.Pairwise (· ≤ ·)
  bounded : ∀ a ∈ s.log, a ≤ s.edges

theorem init_stampInv (ins : Nat → TopIn) : StampInv ins .init where
  evr := rfl
  task := init_passInv
  passes := rfl
  current := .none
  sends _ _ h := by cases h
  past _ h := by cases h
  ordered := .nil
  bounded _ h := by cases h

/-- The second register is read behind the first. -/
theorem bodyOf_stamp {a : Arrays} {x : BitVec 32} (hx : a.timestamp 0 = htonl x) (y : BitVec 32) :
    bodyOf (Arrays.messages { a with
      timestamp := Function.update a.timestamp 1 (htonl y) }) 55 = be32 x ++ be32 y := by
  show le32 (Function.update a.timestamp 1 (htonl y) 0) ++
    (le32 (Function.update a.timestamp 1 (htonl y) 1) ++ []) = _
  rw [Function.update_of_ne Nat.zero_ne_one, Function.update_self, hx, ← Evr.timestampBody_eq]
  rfl

/-- The accesses that are neither a read of the time stamp nor the end of a pass. -/
theorem access_quiet {t : Task} (hns : t.pc ≠ .tsNs) (hs : t.pc ≠ .tsS) (hsend : t.pc ≠ .send)
    (rdbk : BitVec 32) : (t.access rdbk).reads.stamp = t.reads.stamp ∧
      (t.access rdbk).arrays.timestamp = t.arrays.timestamp ∧
      (t.access rdbk).passes = t.passes := by
  cases hpc : t.pc with
  | poll =>
    simp only [Task.access, hpc]
    split_ifs <;> simp only [and_self]
  | readout k =>
    have hstore : (t.arrays.store k rdbk).timestamp = t.arrays.timestamp := by
      unfold Arrays.store
      split_ifs <;> rfl
    simp only [Task.access, hpc, hstore, and_self]
  | tsNs => exact absurd hpc hns
  | tsS => exact absurd hpc hs
  | send => exact absurd hpc hsend
  | rstHigh | rstLow | recount =>
    simp only [Task.access, hpc, and_self]

section

variable {ins : Nat → TopIn} {s : Stamping}

theorem quiet_stampInv (h : StampInv ins s) (hns : s.task.pc ≠ .tsNs) (hs : s.task.pc ≠ .tsS)
    (hsend : s.task.pc ≠ .send) (v : BitVec 32) :
    StampInv ins { s with task := s.task.access v } := by
  obtain ⟨hstamp, harray, hpasses⟩ := access_quiet hns hs hsend v
  refine ⟨h.evr, access_passInv _ _ h.task, hpasses.trans h.passes, ?_, ?_, h.past, h.ordered,
    h.bounded⟩
  · show ReadStamp ins (s.task.access v).reads.stamp s.readAt
    rw [hstamp]
    exact h.current
  · intro x y hxy
    have hbody := h.sends x y (hstamp ▸ hxy)
    have hsame : bodyOf (s.task.access v).arrays.messages 55 = bodyOf s.task.arrays.messages 55 :=
      congrArg (bytes32 2) harray
    exact hsame.trans hbody

/-- One more read, at the edge it is. -/
theorem log_read (h : StampInv ins s) :
    (s.sent.flatMap Prod.snd ++ (s.readAt ++ [s.edges])).Pairwise (· ≤ ·) ∧
      ∀ a ∈ s.sent.flatMap Prod.snd ++ (s.readAt ++ [s.edges]), a ≤ s.edges := by
  rw [← List.append_assoc]
  refine ⟨List.pairwise_append.mpr ⟨h.ordered, List.pairwise_singleton _ _, ?_⟩, ?_⟩
  · intro a ha b hb
    rw [List.mem_singleton.mp hb]
    exact h.bounded a ha
  · intro a ha
    rcases List.mem_append.mp ha with hold | hnew
    · exact h.bounded a hold
    · exact Nat.le_of_eq (List.mem_singleton.mp hnew)

theorem shown_getD (h : s.evr = topSignals ins s.edges) (reg : Reg) (rdbk : BitVec 32) :
    Shown ins reg s.edges ((xilIn32 s.evr reg).getD rdbk) := by
  intro v hv
  rw [h, hv, Option.getD_some]

theorem tsNs_stampInv (h : StampInv ins s) (hpc : s.task.pc = .tsNs) (rdbk : BitVec 32) :
    StampInv ins (s.access rdbk) := by
  have hcurrent := h.task.current
  rw [hpc] at hcurrent
  obtain ⟨-, hstamp⟩ := hcurrent
  have hread := h.current
  rw [hstamp] at hread
  have hat := hread.nil_inv
  obtain ⟨hordered, hbounded⟩ := log_read h
  have htask : s.access rdbk = { s with
      task := s.task.access ((xilIn32 s.evr .evrTsNsLat).getD rdbk)
      readAt := s.readAt ++ [s.edges] } := by
    simp only [Stamping.access, Stamping.reading, hpc]
  rw [htask]
  refine ⟨h.evr, access_passInv _ _ h.task, ?_, ?_, ?_, h.past, hordered, hbounded⟩
  · simp only [Task.access, hpc]
    exact h.passes
  · simp only [Task.access, hpc, hstamp, hat]
    exact .seconds (shown_getD h.evr _ _)
  · intro x y hxy
    simp only [Task.access, hpc, hstamp] at hxy
    cases hxy

theorem tsS_stampInv (h : StampInv ins s) (hpc : s.task.pc = .tsS) (rdbk : BitVec 32) :
    StampInv ins (s.access rdbk) := by
  have hcurrent := h.task.current
  rw [hpc] at hcurrent
  obtain ⟨-, ns, hstamp, hns⟩ := hcurrent
  have hread := h.current
  rw [hstamp] at hread
  obtain ⟨a, hat, ha⟩ := hread.seconds_inv
  obtain ⟨hordered, hbounded⟩ := log_read h
  have htask : s.access rdbk = { s with
      task := s.task.access ((xilIn32 s.evr .evrTsSLat).getD rdbk)
      readAt := s.readAt ++ [s.edges] } := by
    simp only [Stamping.access, Stamping.reading, hpc]
  rw [htask]
  refine ⟨h.evr, access_passInv _ _ h.task, ?_, ?_, ?_, h.past, hordered, hbounded⟩
  · simp only [Task.access, hpc]
    exact h.passes
  · simp only [Task.access, hpc, hstamp, hat]
    exact .both ha (shown_getD h.evr _ _)
  · intro x y hxy
    simp only [Task.access, hpc, hstamp] at hxy ⊢
    cases hxy
    exact bodyOf_stamp hns _

theorem send_stampInv (h : StampInv ins s) (hpc : s.task.pc = .send) (rdbk : BitVec 32) :
    StampInv ins (s.access rdbk) := by
  have htask : s.access rdbk = { s with
      task := s.task.access rdbk
      readAt := []
      sent := s.sent ++ [(⟨s.task.reads, s.task.arrays.messages⟩, s.readAt)] } := by
    simp only [Stamping.access, Stamping.reading, hpc]
  have hlog : (s.access rdbk).log = s.log := by
    rw [htask, Stamping.log, List.append_nil, List.flatMap_append, List.flatMap_singleton]
    rfl
  have hordered := hlog ▸ h.ordered
  have hbounded := hlog ▸ h.bounded
  rw [htask] at hordered hbounded ⊢
  refine ⟨h.evr, access_passInv _ _ h.task, ?_, ?_, ?_, ?_, hordered, hbounded⟩
  · simp only [Task.access, hpc, List.map_append, h.passes]
    rfl
  · simp only [Task.access, hpc]
    exact .none
  · intro x y hxy
    simp only [Task.access, hpc] at hxy
    cases hxy
  · intro p hp
    rcases List.mem_append.mp hp with hold | hnew
    · exact h.past p hold
    · rw [List.mem_singleton.mp hnew]
      exact ⟨h.current, h.sends⟩

theorem step_stampInv (h : StampInv ins s) (e : StampEvent) : StampInv ins (s.step ins e) := by
  cases e with
  | rx =>
    refine ⟨?_, h.task, h.passes, h.current, h.sends, h.past, h.ordered, fun a ha => ?_⟩
    · show s.evr.rising (ins s.edges) = _
      rw [h.evr]
      rfl
    · exact Nat.le_succ_of_le (h.bounded a ha)
  | access rdbk =>
    show StampInv ins (s.access rdbk)
    cases hpc : s.task.pc with
    | tsNs => exact tsNs_stampInv h hpc rdbk
    | tsS => exact tsS_stampInv h hpc rdbk
    | send => exact send_stampInv h hpc rdbk
    | _ =>
      simp only [Stamping.access, hpc]
      exact quiet_stampInv h (by simp [hpc]) (by simp [hpc]) (by simp [hpc]) _

end

theorem run_stampInv (ins : Nat → TopIn) (es : List StampEvent) : StampInv ins (.run ins es) :=
  List.foldlRecOn es (Stamping.step ins) (init_stampInv ins) fun _ h e _ => step_stampInv h e

/-! ## What is sent -/

/-- The seconds and the offset at a trigger: the word of the last latch event before it, and the
edges since. -/
def TimeOf (ins : Nat → TopIn) (g : Nat) (sec off : BitVec 32) : Prop :=
  ∃ e, LastUpTo (Latches (streamOf ins)) g e ∧ sec = latchedAt .init (streamOf ins) e ∧
    off = BitVec.ofNat 32 (g - e)

theorem ReadStamp.length_eq {ins : Nat → TopIn} {stamp : List (BitVec 32)} {l : List Nat}
    (h : ReadStamp ins stamp l) : stamp.length = l.length := by
  cases h <;> rfl

theorem ReadStamp.both_inv {ins : Nat → TopIn} {stamp : List (BitVec 32)} {a b : Nat}
    (h : ReadStamp ins stamp [a, b]) :
    ∃ x y, stamp = [x, y] ∧ Shown ins .evrTsNsLat a x ∧ Shown ins .evrTsSLat b y := by
  cases h with
  | both hx hy => exact ⟨_, _, rfl, hx, hy⟩

section

variable {ins : Nat → TopIn} (hreset : ∀ t, (ins t).ts.reset = false)

include hreset

/-- The pair is the running time stamp at the trigger. -/
theorem TimeOf.stamp {g : Nat} {sec off : BitVec 32} (h : TimeOf ins g sec off) :
    stampAt .init (streamOf ins) (g + 1) = some (sec ++ off) := by
  obtain ⟨e, he, rfl, rfl⟩ := h
  exact Evr.stamp_of_lastUpTo he (hreset (g + 1))

/-- A pass that read its registers at `a` and `b`. -/
theorem StampInv.message {s : Stamping} (h : StampInv ins s) {p : Pass × List Nat}
    (hp : p ∈ s.sent) {a b g g' : Nat} (hat : p.2 = [a, b]) (hg : LastTrigger ins a g)
    (hg' : LastTrigger ins b g') {sec off sec' off' : BitVec 32} (ht : TimeOf ins g sec off)
    (ht' : TimeOf ins g' sec' off') : bodyOf p.1.messages 55 = be32 sec ++ be32 off' := by
  obtain ⟨hread, hsends⟩ := h.past p hp
  rw [hat] at hread
  obtain ⟨x, y, hstamp, hx, hy⟩ := hread.both_inv
  obtain ⟨e, he, rfl, -⟩ := ht
  obtain ⟨e', he', -, rfl⟩ := ht'
  rw [hsends x y hstamp, hx _ (hg.seconds he (hreset _)), hy _ (hg'.offset he' (hreset _))]

/-- **Two reads, two triggers.** In every run of the event receiver and the task: a pass that has
read words has read the time stamp too, at two edges one behind the other. Its message 55 is the
seconds of the last trigger that was in the registers at the first, and the offset of the last one
at the second. -/
theorem stamps_to_messages (es : List StampEvent) :
    (Stamping.run ins es).task.passes = (Stamping.run ins es).sent.map Prod.fst ∧
      ∀ p ∈ (Stamping.run ins es).sent, (p.1.reads.words ≠ [] → p.2.length = 2) ∧
        ∀ a b, p.2 = [a, b] → a ≤ b ∧ b ≤ (Stamping.run ins es).edges ∧
          ∀ g g' sec off sec' off', LastTrigger ins a g → LastTrigger ins b g' →
            TimeOf ins g sec off → TimeOf ins g' sec' off' →
            bodyOf p.1.messages 55 = be32 sec ++ be32 off' := by
  have h := run_stampInv ins es
  refine ⟨h.passes, fun p hp => ⟨fun hwords => ?_, fun a b hat => ⟨?_, ?_, ?_⟩⟩⟩
  · -- a pass that has read words has read both registers
    have hmem : p.1 ∈ (Stamping.run ins es).task.passes := h.passes ▸ List.mem_map_of_mem hp
    rcases h.task.passes p.1 hmem with ⟨-, -, hstamp, -⟩ | ⟨-, hnone⟩
    · rw [← (h.past p hp).1.length_eq, hstamp]
    · exact absurd hnone hwords
  · have hordered := (List.pairwise_append.mp h.ordered).1
    have hpair := (List.pairwise_flatMap.mp hordered).1 p hp
    rw [hat] at hpair
    exact List.rel_of_pairwise_cons hpair List.mem_cons_self
  · refine h.bounded b (List.mem_append_left _ (List.mem_flatMap_of_mem hp ?_))
    rw [hat]
    exact List.mem_cons_of_mem a List.mem_cons_self
  · intro g g' sec off sec' off' hg hg' ht ht'
    exact h.message hreset hp hat hg hg' ht ht'

/-! ## The times of a run -/

/-- Both reads of the pass have found the same trigger. -/
def Marks (ins : Nat → TopIn) (l : List Nat) (g : Nat) : Prop :=
  ∃ a b, l = [a, b] ∧ LastTrigger ins a g ∧ LastTrigger ins b g

/-- The running time stamp goes on from any edge behind a latch event to any later one. -/
theorem stamp_lt_of_lt {n a t t' : Nat} (h : Forward .init (streamOf ins) n)
    (ha : Latches (streamOf ins) a) (hat : a < t) (hlt : t < t') (hn : t' ≤ n) :
    ∃ x y, stampAt .init (streamOf ins) t = some x ∧ stampAt .init (streamOf ins) t' = some y ∧
      x < y := by
  induction t', hlt using Nat.le_induction with
  | base => exact h.stamp_lt hreset ha hat (by omega)
  | succ u hu ih =>
    obtain ⟨x, y, hx, hy, hxy⟩ := ih (by omega)
    obtain ⟨y', z, hy', hz, hyz⟩ := h.stamp_lt hreset ha (t := u) (by omega) (by omega)
    obtain rfl : y = y' := Option.some.inj (hy.symm.trans hy')
    exact ⟨x, z, hx, hz, BitVec.lt_trans hxy hyz⟩

/-- **The times that are sent never go back**, as long as the event stream does not: of two passes
whose reads have found one trigger each, the later one has the later time, or the time of the same
trigger. -/
theorem stamps_ordered (es : List StampEvent) {n : Nat} (hn : (Stamping.run ins es).edges ≤ n)
    (hforward : Forward .init (streamOf ins) n) :
    (Stamping.run ins es).sent.Pairwise fun p q => ∀ g h sec off sec' off',
      Marks ins p.2 g → Marks ins q.2 h → TimeOf ins g sec off → TimeOf ins h sec' off' →
        bodyOf p.1.messages 55 = be32 sec ++ be32 off ∧
          bodyOf q.1.messages 55 = be32 sec' ++ be32 off' ∧
          (g = h ∧ sec ++ off = sec' ++ off' ∨ g < h ∧ sec ++ off < sec' ++ off') := by
  have hinv := run_stampInv ins es
  have hordered := (List.pairwise_append.mp hinv.ordered).1
  refine (List.pairwise_flatMap.mp hordered).2.imp_of_mem ?_
  intro p q hp hq hle g h sec off sec' off' ⟨a, b, hat, ha, hb⟩ ⟨a', b', hat', ha', hb'⟩ ht ht'
  refine ⟨hinv.message hreset hp hat ha hb ht ht, hinv.message hreset hq hat' ha' hb' ht' ht', ?_⟩
  have hstamp := ht.stamp hreset
  have hstamp' := ht'.stamp hreset
  -- the later reads have found the same trigger or a later one
  have hgh : g ≤ h := by
    refine ha.mono ha' (hle a ?_ a' ?_)
    · exact hat ▸ List.mem_cons_self
    · exact hat' ▸ List.mem_cons_self
  rcases Nat.eq_or_lt_of_le hgh with heq | hlt
  · subst heq
    exact Or.inl ⟨rfl, Option.some.inj (hstamp.symm.trans hstamp')⟩
  · have hedges : b' ≤ (Stamping.run ins es).edges := by
      refine hinv.bounded b' (List.mem_append_left _ (List.mem_flatMap_of_mem hq ?_))
      exact hat' ▸ List.mem_cons_of_mem a' List.mem_cons_self
    have hle' := hb'.le
    obtain ⟨e, he, -, -⟩ := ht
    have heg : e < g + 1 := Nat.lt_succ_of_le he.le
    obtain ⟨x, y, hx, hy, hxy⟩ :=
      stamp_lt_of_lt hreset hforward he.holds heg (Nat.succ_lt_succ hlt) (by omega)
    rw [Option.some.inj (hx.symm.trans hstamp), Option.some.inj (hy.symm.trans hstamp')] at hxy
    exact Or.inr ⟨hlt, hxy⟩

end

/-! ## A run of two passes -/

/-- The accesses of a pass that finds its words at once. -/
def passAccesses : List StampEvent :=
  .access 8192 :: (List.replicate 8192 (.access 0) ++ List.replicate 6 (.access 0))

theorem readouts_run (ins : Nat → TopIn) (n : Nat) : ∀ (k : Nat) (s : Stamping),
    s.task.pc = (if k < 8192 then .readout k else .tsNs) → k + n = 8192 →
    ∃ t : Task, t.pc = .tsNs ∧
      (List.replicate n (.access 0)).foldl (Stamping.step ins) s = { s with task := t } := by
  induction n with
  | zero =>
    intro k s hpc hk
    rw [if_neg (by omega)] at hpc
    exact ⟨s.task, hpc, rfl⟩
  | succ n ih =>
    intro k s hpc hk
    rw [if_pos (by omega)] at hpc
    have hstep : s.step ins (.access 0) = { s with task := s.task.access 0 } := by
      simp only [Stamping.step, Stamping.access, Stamping.reading, hpc]
    have hnext : (s.task.access 0).pc = if k + 1 < 8192 then .readout (k + 1) else .tsNs := by
      simp only [Task.access, hpc]
    obtain ⟨t, ht, hrest⟩ := ih (k + 1) { s with task := s.task.access 0 } hnext (by omega)
    refine ⟨t, ht, ?_⟩
    rw [List.replicate_succ, List.foldl_cons, hstep, hrest]

theorem pass_run (ins : Nat → TopIn) (task : Task) (hpc : task.pc = .poll) (evr : EvrTop)
    (n : Nat) (sent : List (Pass × List Nat)) : ∃ (t : Task) (p : Pass), t.pc = .poll ∧
      passAccesses.foldl (Stamping.step ins) ⟨task, evr, n, [], sent⟩ =
        ⟨t, evr, n, [], sent ++ [(p, [n, n])]⟩ := by
  have hstep : Stamping.step ins ⟨task, evr, n, [], sent⟩ (.access 8192) =
      ⟨task.access 8192, evr, n, [], sent⟩ := by
    simp only [Stamping.step, Stamping.access, Stamping.reading, hpc]
  have hreadout : (task.access 8192).pc = .readout 0 := by
    simp only [Task.access, hpc]
    rfl
  obtain ⟨t, ht, hrest⟩ := readouts_run ins 8192 0 ⟨task.access 8192, evr, n, [], sent⟩ hreadout rfl
  rw [passAccesses, List.foldl_cons, hstep, List.foldl_append, hrest]
  obtain ⟨pc, arrays, reads, passes⟩ := t
  obtain rfl : pc = .tsNs := ht
  exact ⟨_, _, rfl, rfl⟩

theorem rx_run (ins : Nat → TopIn) (k : Nat) (task : Task) (sent : List (Pass × List Nat)) :
    ∀ (evr : EvrTop) (n : Nat), ∃ evr', (List.replicate k .rx).foldl (Stamping.step ins)
      ⟨task, evr, n, [], sent⟩ = ⟨task, evr', n + k, [], sent⟩ := by
  induction k with
  | zero => exact fun evr n => ⟨evr, rfl⟩
  | succ k ih =>
    intro evr n
    obtain ⟨evr', h⟩ := ih (evr.rising (ins n)) (n + 1)
    refine ⟨evr', ?_⟩
    rw [List.replicate_succ, List.foldl_cons, Nat.add_comm k 1, ← Nat.add_assoc]
    exact h

/-- The stream with one bit, and triggers at the edges 1 and 3. -/
def twoTriggers (t : Nat) : TopIn where
  ts := Evr.oneBitStream t
  wvfmEnb := if t = 1 ∨ t = 3 then .high else .low

/-- A pass between the two triggers, and one behind them. -/
def twoPasses : List StampEvent :=
  List.replicate 4 .rx ++ passAccesses ++ (List.replicate 2 .rx ++ passAccesses)

theorem twoPasses_sent : ∃ p q, (Stamping.run twoTriggers twoPasses).edges = 6 ∧
    (Stamping.run twoTriggers twoPasses).sent = [(p, [4, 4]), (q, [6, 6])] := by
  obtain ⟨evr, hfour⟩ := rx_run twoTriggers 4 .init [] .init 0
  obtain ⟨t, p, ht, hfirst⟩ := pass_run twoTriggers .init rfl evr 4 []
  obtain ⟨evr', htwo⟩ := rx_run twoTriggers 2 t [(p, [4, 4])] evr 4
  obtain ⟨u, q, -, hsecond⟩ := pass_run twoTriggers t ht evr' 6 [(p, [4, 4])]
  have hrun : Stamping.run twoTriggers twoPasses =
      ⟨u, evr', 6, [], [(p, [4, 4]), (q, [6, 6])]⟩ := by
    rw [Stamping.run, twoPasses, List.foldl_append, List.foldl_append, List.foldl_append,
      Stamping.init, hfour, hfirst, List.nil_append, htwo, hsecond]
    rfl
  rw [hrun]
  exact ⟨p, q, rfl, rfl⟩

theorem twoTriggers_reset (t : Nat) : (twoTriggers t).ts.reset = false := rfl

theorem triggered_twoTriggers {g : Nat} : Triggered twoTriggers g ↔ g = 1 ∨ g = 3 := by
  constructor
  · intro ⟨_, _, _, hhigh⟩
    by_contra hno
    have hlow : (twoTriggers g).wvfmEnb = .low := if_neg hno
    rw [hlow] at hhigh
    cases hhigh
  · intro h
    rcases h with rfl | rfl
    · exact ⟨0, rfl, rfl, rfl⟩
    · exact ⟨2, rfl, rfl, rfl⟩

theorem lastTrigger_first : LastTrigger twoTriggers 4 1 :=
  ⟨Nat.le_refl 4, triggered_twoTriggers.mpr (Or.inl rfl), fun g' _ _ => by omega⟩

theorem lastTrigger_second : LastTrigger twoTriggers 6 3 :=
  ⟨Nat.le_refl 6, triggered_twoTriggers.mpr (Or.inr rfl), fun g' _ _ => by omega⟩

theorem timeOf_twoTriggers {g : Nat} (hg : g < 5) :
    TimeOf twoTriggers g 0 (BitVec.ofNat 32 g) := by
  refine ⟨0, ⟨Nat.zero_le g, rfl, fun u h0 hu hlatch => ?_⟩, rfl, rfl⟩
  have hu' := Evr.latches_oneBitStream.mp hlatch
  omega

/-- The first pass sends the time of the first trigger. -/
theorem stamps_to_messages_first : ∃ p,
    (p, [4, 4]) ∈ (Stamping.run twoTriggers twoPasses).sent ∧
      bodyOf p.messages 55 = be32 0 ++ be32 1 := by
  obtain ⟨p, q, -, hsent⟩ := twoPasses_sent
  have hp : (p, [4, 4]) ∈ (Stamping.run twoTriggers twoPasses).sent := by
    rw [hsent]
    exact List.mem_cons_self
  have hmessage := (stamps_to_messages twoTriggers_reset twoPasses).2 _ hp
  exact ⟨p, hp, (hmessage.2 4 4 rfl).2.2 1 1 0 1 0 1 lastTrigger_first lastTrigger_first
    (timeOf_twoTriggers (by omega)) (timeOf_twoTriggers (by omega))⟩

/-- The second pass sends the time of the second one, which is later. -/
theorem stamps_ordered_second : ∃ p q,
    (Stamping.run twoTriggers twoPasses).sent = [(p, [4, 4]), (q, [6, 6])] ∧
      bodyOf p.messages 55 = be32 0 ++ be32 1 ∧ bodyOf q.messages 55 = be32 0 ++ be32 3 := by
  obtain ⟨p, q, hedges, hsent⟩ := twoPasses_sent
  have hpairs := stamps_ordered twoTriggers_reset twoPasses (Nat.le_of_eq hedges)
    Evr.oneBitStream_forward
  rw [hsent, List.pairwise_pair] at hpairs
  obtain ⟨hp, hq, -⟩ := hpairs 1 3 0 1 0 3 ⟨4, 4, rfl, lastTrigger_first, lastTrigger_first⟩
    ⟨6, 6, rfl, lastTrigger_second, lastTrigger_second⟩ (timeOf_twoTriggers (by omega))
    (timeOf_twoTriggers (by omega))
  exact ⟨p, q, hsent, hp, hq⟩

end Acmi.Wvfm
