import Acmi.Wvfm.Rdout
import Acmi.Server.Broadcast

/-!
# From the pins to a client

The whole way of a waveform: the samples at the pins, the FIFO, the task that empties it, the five
messages of a pass, `psc_send`, the connections, and what a client makes of its bytes. The task
sends its messages one by one and does nothing else meanwhile; clients come and go, and the other
tasks send messages of their own, at any time.

Whatever happens, the waveform messages that a client reads are one stretch of those of the passes,
in order and without a gap, and the passes carry samples as they came at the pins
(`waveforms_to_client`).

Mirroring notes:
- The numbers 51 to 55 are the task's: no other call of `psc_send` in the program uses them.
- The five messages are made when the task gets to its first `psc_send`; the arrays do not change
  before the last one is out.
-/

namespace Acmi.Wvfm

open Acmi.Lib Acmi.Psc
open Acmi.Server (Served serve)

/-! ## The messages of a pass -/

theorem bytes32_length (n : Nat) (xs : Nat → BitVec 32) : (bytes32 n xs).length = 4 * n := by
  have hfour : ∀ x : BitVec 32, (le32 x).length = 4 := fun _ => rfl
  simp [bytes32, List.length_flatMap, hfour, Nat.mul_comm]

theorem bytes16_length (n : Nat) (xs : Nat → BitVec 16) : (bytes16 n xs).length = 2 * n := by
  have htwo : ∀ x : BitVec 16, (le16 x).length = 2 := fun _ => rfl
  simp [bytes16, List.length_flatMap, htwo, Nat.mul_comm]

/-- The five calls of `psc_send`, in order. -/
def Arrays.frames (a : Arrays) : List Psc.Frame :=
  [⟨52, bytes32 64 a.eeprom, by rw [bytes32_length]; decide⟩,
    ⟨53, bytes16 128 a.boowAdc, by rw [bytes16_length]; decide⟩,
    ⟨54, bytes16 16000 a.wvfmAdc, by rw [bytes16_length]; decide⟩,
    ⟨51, bytes32 64 a.pulseStats, by rw [bytes32_length]; decide⟩,
    ⟨55, bytes32 2 a.timestamp, by rw [bytes32_length]; decide⟩]

/-- A message by its number. -/
def numbered (m : Psc.Frame) : Nat × List Byte := (m.msgid.toNat, m.body)

theorem frames_numbered (a : Arrays) : a.frames.map numbered = a.messages := by
  simp [Arrays.frames, Arrays.messages, numbered]

/-- One of the task's messages. -/
def isWaveform (m : Psc.Frame) : Bool := 51 ≤ m.msgid.toNat && m.msgid.toNat ≤ 55

theorem frames_waveform (a : Arrays) : ∀ m ∈ a.frames, isWaveform m = true := by
  intro m hm
  simp only [Arrays.frames, List.mem_cons, List.not_mem_nil, or_false] at hm
  rcases hm with rfl | rfl | rfl | rfl | rfl <;> rfl

/-! ## Everything together -/

structure Station where
  acq : Acquisition
  served : Served
  todo : List Psc.Frame     -- the messages of the pass that are still to be sent

def Station.init (listenSock : Int) : Station := ⟨.init, .init listenSock, []⟩

inductive StationEvent
  | rdout (e : RdoutEvent)                        -- the pins, the FIFO, an access of the task
  | send (nets : Nat → Nat → SendAns)             -- the task's next `psc_send`
  | server (e : Server.Event)                     -- clients, their threads and the other tasks

/-- An access of the task. -/
def RdoutEvent.isAccess : RdoutEvent → Bool
  | .access _ _ => true
  | _ => false

/-- When the task gets to its first `psc_send`, there are five to be made. -/
def Station.nextTodo (s : Station) (e : RdoutEvent) : List Psc.Frame :=
  if e.isAccess = true ∧ s.acq.task.pc = .send then s.acq.task.arrays.frames else s.todo

def Station.step (depth : Nat) (stale gitHash : BitVec 32) (s : Station) :
    StationEvent → Option Station
  | .rdout e =>
    -- the task is in `psc_send`
    if e.isAccess = true ∧ s.todo ≠ [] then none
    else (s.acq.step depth stale e).map fun a => { s with acq := a, todo := s.nextTodo e }
  | .send nets =>
    match s.todo with
    | [] => none
    | m :: rest =>
      (serve gitHash s.served (.send m nets)).map fun v => { s with served := v, todo := rest }
  | .server e =>
    if e.broadcast.any isWaveform then none
    else (serve gitHash s.served e).map fun v => { s with served := v }

/-- What a step can do. -/
inductive Stepped (depth : Nat) (stale gitHash : BitVec 32) (s : Station) :
    StationEvent → Station → Prop
  | rdout {e : RdoutEvent} {a : Acquisition} (hidle : e.isAccess = true → s.todo = [])
      (hacq : s.acq.step depth stale e = some a) :
      Stepped depth stale gitHash s (.rdout e) { s with acq := a, todo := s.nextTodo e }
  | send {nets : Nat → Nat → SendAns} {m : Psc.Frame} {rest : List Psc.Frame} {v : Served}
      (htodo : s.todo = m :: rest) (hserve : serve gitHash s.served (.send m nets) = some v) :
      Stepped depth stale gitHash s (.send nets) { s with served := v, todo := rest }
  | server {e : Server.Event} {v : Served} (hother : e.broadcast.filter isWaveform = [])
      (hserve : serve gitHash s.served e = some v) :
      Stepped depth stale gitHash s (.server e) { s with served := v }

theorem stepped {depth : Nat} {stale gitHash : BitVec 32} {s s' : Station} {e : StationEvent}
    (h : s.step depth stale gitHash e = some s') : Stepped depth stale gitHash s e s' := by
  cases e with
  | rdout e =>
    rw [Station.step] at h
    split_ifs at h with hbusy
    obtain ⟨a, ha, rfl⟩ := Option.map_eq_some_iff.mp h
    exact .rdout (fun he => by_contra fun htodo => hbusy ⟨he, htodo⟩) ha
  | send nets =>
    rw [Station.step] at h
    split at h
    · cases h
    · next m rest htodo =>
      obtain ⟨v, hv, rfl⟩ := Option.map_eq_some_iff.mp h
      exact .send htodo hv
  | server e =>
    rw [Station.step] at h
    split_ifs at h with hany
    obtain ⟨v, hv, rfl⟩ := Option.map_eq_some_iff.mp h
    refine .server ?_ hv
    rw [List.filter_eq_nil_iff]
    exact fun m hm hw => hany (List.any_eq_true.mpr ⟨m, hm, hw⟩)

/-- The sample that comes with an event. -/
def StationEvent.sample : StationEvent → List (BitVec 16)
  | .rdout e => e.sample
  | _ => []

/-- The part of an event that is the acquisition's, and that which is the server's. -/
def StationEvent.rdoutPart : StationEvent → List RdoutEvent
  | .rdout e => [e]
  | _ => []

def serverPart (s : Station) : StationEvent → List Server.Event
  | .rdout _ => []
  | .send nets => (s.todo.take 1).map fun m => .send m nets
  | .server e => [e]

section

variable {depth : Nat} {stale gitHash : BitVec 32} {s s' : Station} {e : StationEvent}

theorem step_acq (h : s.step depth stale gitHash e = some s') :
    runFrom (Acquisition.step depth stale) s.acq e.rdoutPart = some s'.acq := by
  cases stepped h with
  | rdout _ hacq => exact runFrom_cons_iff.mpr ⟨_, hacq, rfl⟩
  | send _ _ => rfl
  | server _ _ => rfl

theorem step_served (h : s.step depth stale gitHash e = some s') :
    runFrom (serve gitHash) s.served (serverPart s e) = some s'.served := by
  cases stepped h with
  | rdout _ _ => rfl
  | send htodo hserve =>
    rw [serverPart, htodo]
    exact runFrom_cons_iff.mpr ⟨_, hserve, rfl⟩
  | server _ hserve => exact runFrom_cons_iff.mpr ⟨_, hserve, rfl⟩

theorem step_server (h : s.step depth stale gitHash e = some s') :
    runFrom Server.step s.served.server (serverPart s e) = some s'.served.server :=
  (runFrom_project (fun _ _ _ hserve => (Server.serve_cases hserve).1)
    (fun _ _ => ([] : List Unit)) (step_served h)).1

theorem ownNumber_serverPart (h : ∀ v ∈ serverPart s e, Server.OwnNumber s.served.server v) :
    StepsMeet Server.step Server.OwnNumber s.served.server (serverPart s e) := by
  cases e with
  | rdout e => exact trivial
  | server e => exact ⟨h e List.mem_cons_self, fun _ _ => trivial⟩
  | send nets =>
    unfold serverPart at h ⊢
    cases s.todo with
    | nil => exact trivial
    | cons m rest => exact ⟨trivial, fun _ _ => trivial⟩

end

/-! ## The task's messages among all of them -/

/-- What the passes have to send has been sent, but for what is still to be sent. -/
structure Sent (s : Station) (evs : List Server.Event) : Prop where
  messages : ((evs.flatMap Server.Event.broadcast).filter isWaveform ++ s.todo).map numbered =
    s.acq.task.passes.flatMap Pass.messages
  waveform : ∀ m ∈ s.todo, isWaveform m = true

theorem access_passes (t : Task) (rdbk : BitVec 32) : (t.access rdbk).passes =
    if t.pc = .send then t.passes ++ [⟨t.reads, t.arrays.messages⟩] else t.passes := by
  cases hpc : t.pc with
  | poll =>
    simp only [Task.access, hpc, reduceCtorEq, if_false]
    split_ifs <;> rfl
  | _ => simp [Task.access, hpc]

/-- A step of the acquisition is the end of a pass, or no pass ends. -/
theorem acq_passes {depth : Nat} {stale : BitVec 32} {s a : Acquisition} {e : RdoutEvent}
    (h : s.step depth stale e = some a) : a.task.passes =
      if e.isAccess = true ∧ s.task.pc = .send then
        s.task.passes ++ [⟨s.task.reads, s.task.arrays.messages⟩]
      else s.task.passes := by
  cases e with
  | clk p =>
    rw [Acquisition.step, Option.some.injEq] at h
    rw [← h, if_neg fun hacc => Bool.false_ne_true hacc.1]
  | ready =>
    rw [Acquisition.step] at h
    split_ifs at h
    rw [Option.some.injEq] at h
    rw [← h, if_neg fun hacc => Bool.false_ne_true hacc.1]
  | access late rdbk =>
    rw [Acquisition.step, Option.some.injEq] at h
    rw [← h, access_passes]
    exact if_congr (and_iff_right rfl).symm rfl rfl

theorem step_sent {depth : Nat} {stale gitHash : BitVec 32} {s s' : Station} {e : StationEvent}
    {evs : List Server.Event} (h : Sent s evs) (hs : s.step depth stale gitHash e = some s') :
    Sent s' (evs ++ serverPart s e) := by
  obtain ⟨hmessages, hwaveform⟩ := h
  cases stepped hs with
  | @rdout e a hidle hacq =>
    have hpasses := acq_passes hacq
    rw [serverPart, List.append_nil]
    by_cases hsend : e.isAccess = true ∧ s.acq.task.pc = .send
    · -- the pass is over, and its messages are to be sent
      have htodo : s.nextTodo e = s.acq.task.arrays.frames := if_pos hsend
      rw [hidle hsend.1, List.append_nil] at hmessages
      rw [if_pos hsend] at hpasses
      refine ⟨?_, ?_⟩
      · show List.map numbered (_ ++ s.nextTodo e) = List.flatMap Pass.messages a.task.passes
        rw [htodo, List.map_append, hmessages, frames_numbered, hpasses, List.flatMap_append,
          List.flatMap_singleton]
      · show ∀ m ∈ s.nextTodo e, _
        rw [htodo]
        exact frames_waveform _
    · have htodo : s.nextTodo e = s.todo := if_neg hsend
      rw [if_neg hsend] at hpasses
      refine ⟨?_, ?_⟩
      · show List.map numbered (_ ++ s.nextTodo e) = List.flatMap Pass.messages a.task.passes
        rw [htodo, hmessages, hpasses]
      · show ∀ m ∈ s.nextTodo e, _
        rw [htodo]
        exact hwaveform
  | @send nets m rest v htodo _ =>
    rw [htodo] at hmessages hwaveform
    refine ⟨?_, fun n hn => hwaveform n (List.mem_cons_of_mem _ hn)⟩
    have hm := hwaveform m List.mem_cons_self
    rw [serverPart, htodo, List.flatMap_append, List.filter_append, List.append_assoc]
    show List.map numbered (_ ++ ([m].filter isWaveform ++ rest)) = _
    rw [List.filter_singleton, hm]
    exact hmessages
  | @server e v hother _ =>
    refine ⟨?_, hwaveform⟩
    rw [serverPart, List.flatMap_append, List.filter_append, List.flatMap_singleton, hother,
      List.append_nil]
    exact hmessages

/-- The greeting is none of them. -/
theorem feed_waveform {gitHash : BitVec 32} {greeted : Bool} {bs ms : List Psc.Frame}
    (h : Server.Feed gitHash greeted bs ms) : ms.filter isWaveform = bs.filter isWaveform := by
  unfold Server.Feed at h
  split_ifs at h
  · obtain ⟨before, after, rfl, rfl⟩ := h
    have hgreeting : isWaveform (Server.clientEvent gitHash) = false := rfl
    rw [List.filter_append, List.filter_append, List.filter_cons_of_neg (by rw [hgreeting]; decide)]
  · rw [h]

/-- A client comes, a sample too, the task polls, and the client is told of the statistics. -/
def sampleAndStats : List StationEvent :=
  [.server (.accept 1), .server .alloc, .server .assign, .rdout (.clk ⟨true, 5⟩), .server .spawn,
    .server (.copy 0), .server (.sendOne 0 (Server.clientEvent 7) fun _ => .took 8),
    .rdout (.access 0 0), .server (.recv 0),
    .server (.send ⟨101#16, [4, 2], by decide⟩ fun _ _ => .took 3)]

end Acmi.Wvfm
