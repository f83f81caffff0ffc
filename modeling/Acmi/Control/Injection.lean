import Acmi.Control.Commands
import Acmi.Evr.Pulses
import Acmi.Evr.Reprogram
import Acmi.Lib.Schedule

/-!
# The injection trigger, from a client's command

The channel `event_inj` takes its event number and its delay from two registers that a client
writes. So a client that sends both commands says which event makes the trigger, and how many
edges of the receiver's clock later: `trigger_of_commands` puts the connection, the registers and
the channel together.

It asks for no matching event until the registers are written. The channel looks at them all the
time, and a delay that is changed under a running counter may leave it over (`Reprogram`).

Mirroring notes:
- A write takes effect at some edge of the receiver's clock; nothing is said about which, and the
  writes of the same edge are all in effect at once.
- `event_inj` has the width 12 and the polarity 0.
-/

namespace Acmi.Control

open Acmi.Lib Acmi.Psc Acmi.Server Acmi.Evr

/-! ## The last settings -/

/-- The last command that sets the event number sets it to `n`. -/
def SetsEventNo (cs : List Command) (n : BitVec 32) : Prop :=
  ∃ before after, cs = before ++ .eventNo n :: after ∧ ∀ c ∈ after, ∀ m, c ≠ .eventNo m

/-- The last command that sets the delay sets it to `n`. -/
def SetsEventDelay (cs : List Command) (n : BitVec 32) : Prop :=
  ∃ before after, cs = before ++ .eventDelay n :: after ∧ ∀ c ∈ after, ∀ m, c ≠ .eventDelay m

/-- What no command sets stays as it is. -/
theorem foldl_apply_kept {α : Type} (f : Device → α) (cs : List Command)
    (h : ∀ c ∈ cs, ∀ d, f (Command.apply d c) = f d) :
    ∀ d, f (cs.foldl Command.apply d) = f d := by
  induction cs with
  | nil => exact fun d => rfl
  | cons c cs ih =>
    intro d
    rw [List.foldl_cons, ih (fun c' hc' => h c' (List.mem_cons_of_mem c hc'))]
    exact h c List.mem_cons_self d

theorem SetsEventNo.device {cs : List Command} {n : BitVec 32} (h : SetsEventNo cs n)
    (d : Device) : (cs.foldl Command.apply d).eventNo = n.setWidth 8 := by
  obtain ⟨before, after, rfl, hafter⟩ := h
  rw [List.foldl_append, List.foldl_cons, foldl_apply_kept Device.eventNo after]
  · rfl
  · intro c hc d
    cases c with
    | eventNo m => exact absurd rfl (hafter _ hc m)
    | _ => rfl

theorem SetsEventDelay.device {cs : List Command} {n : BitVec 32} (h : SetsEventDelay cs n)
    (d : Device) : (cs.foldl Command.apply d).eventDelay = n := by
  obtain ⟨before, after, rfl, hafter⟩ := h
  rw [List.foldl_append, List.foldl_cons, foldl_apply_kept Device.eventDelay after]
  · rfl
  · intro c hc d
    cases c with
    | eventDelay m => exact absurd rfl (hafter _ hc m)
    | _ => rfl

/-! ## Registers and channel -/

/-- What `event_inj` sees at edge `t`, when the writes `ws` have been made to the registers `p`. -/
def injIn (p : Pl) (ws : List (Nat × RegWrite)) (stream : Nat → Byte) (t : Nat) : ChanIn where
  reset := false
  eventStream := stream t
  myEvent := (p.run (upTo ws t)).eventNo
  myDelay := (p.run (upTo ws t)).eventDelay
  myWidth := 12
  myPolarity := false

/-- The trigger of `event_inj` at edge `t`. -/
def injTrig (s : EventRcvChan) (p : Pl) (ws : List (Nat × RegWrite)) (stream : Nat → Byte)
    (t : Nat) : Bool :=
  trigger (chanSignals s (injIn p ws stream) t) (injIn p ws stream t)

section

variable {s : EventRcvChan} {p : Pl} {ws : List (Nat × RegWrite)} {stream : Nat → Byte} {n : Nat}

/-- Until then the channel waits, whatever is written. -/
theorem inj_idle (hs : Idle s) (hquiet : ∀ t < n, ¬ (injIn p ws stream t).event) :
    ∀ t ≤ n, Idle (chanSignals s (injIn p ws stream) t) := by
  have hstart : Idle (chanSignals s (injIn p ws stream) 0) := hs
  intro t ht
  exact clocked_between (I := fun _ st => Idle st) hstart
    (fun t _ _ hlt hidle => hidle.rising rfl (hquiet t hlt)) t (Nat.zero_le t) ht

/-- From edge `n` on the registers hold `no` and `d`. -/
theorem injTrig_iff (hs : Idle s) (hquiet : ∀ t < n, ¬ (injIn p ws stream t).event) {no : BitVec 8}
    {d : Nat} (hd : 1 ≤ d) (hd' : d ≤ 2 ^ 32 - 2)
    (hset : ∀ t, n ≤ t → (p.run (upTo ws t)).eventNo = no ∧
      (p.run (upTo ws t)).eventDelay.toNat = d)
    (hapart : ∀ t u, n ≤ t → stream t = no → stream u = no → t < u → t + d + 17 ≤ u) (t : Nat) :
    injTrig s p ws stream t = true ↔
      ∃ e, n ≤ e ∧ stream e = no ∧ e + d + 3 ≤ t ∧ t ≤ e + d + 15 := by
  rcases Nat.lt_or_ge t n with hlt | hge
  · -- nothing has come
    have hdown := (inj_idle hs hquiet t (Nat.le_of_lt hlt)).trigger (i := injIn p ws stream t) rfl
    rw [injTrig, hdown]
    refine iff_of_false Bool.false_ne_true ?_
    intro ⟨e, he, _, h1, _⟩
    omega
  · obtain ⟨k, rfl⟩ := Nat.exists_eq_add_of_le hge
    have hevent : ∀ u, (injIn p ws stream (n + u)).event ↔ stream (n + u) = no := by
      intro u
      have hno := (hset (n + u) (Nat.le_add_right n u)).1
      show (p.run (upTo ws (n + u))).eventNo = stream (n + u) ↔ _
      rw [hno]
      exact eq_comm
    have hsteady : ∀ u, Steady d 12 (injIn p ws stream (n + u)) := fun u =>
      ⟨rfl, rfl, (hset (n + u) (Nat.le_add_right n u)).2, rfl⟩
    have hfar : ∀ u v, (injIn p ws stream (n + u)).event → (injIn p ws stream (n + v)).event →
        u < v → u + d + 12 + 5 ≤ v := by
      intro u v hu hv huv
      have h := hapart (n + u) (n + v) (Nat.le_add_right n u) ((hevent u).mp hu)
        ((hevent v).mp hv) (by omega)
      omega
    have hidle := inj_idle hs hquiet n (Nat.le_refl n)
    -- from edge `n` on it is a channel with constant registers
    have hshift : chanSignals s (injIn p ws stream) (n + k) =
        chanSignals (chanSignals s (injIn p ws stream) n) (fun u => injIn p ws stream (n + u)) k :=
      clocked_add n k
    rw [injTrig, hshift, trigger_iff hd hd' (by decide) (by decide) hidle hsteady hfar k]
    constructor
    · intro ⟨e, he, h1, h2⟩
      exact ⟨n + e, Nat.le_add_right n e, (hevent e).mp he, by omega, by omega⟩
    · intro ⟨e, hne, he, h1, h2⟩
      obtain ⟨u, rfl⟩ := Nat.exists_eq_add_of_le hne
      exact ⟨u, (hevent u).mpr he, by omega, by omega⟩

end

/-- **From the command to the trigger.** A client sends commands, the last of which to set the
event number and the delay set them to `no` and `d`; they are carried out by edge `n` of the
receiver's clock, and no event matches until then. Then the trigger is up from `d + 3` to `d + 15`
edges behind each event with that number, and at no other time. -/
theorem trigger_of_commands (cut : Nat → Nat) (cs : List Command) {no d : BitVec 32}
    (hno : SetsEventNo cs no) (hdly : SetsEventDelay cs d) (hd : 1 ≤ d.toNat)
    (hd' : d.toNat ≤ 2 ^ 32 - 2) {p : Pl} (hrest : p.Rest) {wss : List (List RegWrite)}
    (hwss : connWrites (fun i => .data (cut i)) (frameBytes (cs.map Command.frame)) = some wss)
    {ws : List (Nat × RegWrite)} (hws : ws.map Prod.snd = wss.flatten) {n : Nat}
    (hn : ∀ w ∈ ws, w.1 ≤ n) {s : EventRcvChan} (hs : Idle s) {stream : Nat → Byte}
    (hquiet : ∀ t < n, ¬ (injIn p ws stream t).event)
    (hapart : ∀ t u, n ≤ t → stream t = no.setWidth 8 → stream u = no.setWidth 8 → t < u →
      t + d.toNat + 17 ≤ u) (t : Nat) :
    injTrig s p ws stream t = true ↔
      ∃ e, n ≤ e ∧ stream e = no.setWidth 8 ∧ e + d.toNat + 3 ≤ t ∧ t ≤ e + d.toNat + 15 := by
  have hall : wss = cs.map Command.writes := by
    have hconn := connWrites_commands cut (List.prefix_refl (frameBytes (cs.map Command.frame)))
    rw [hwss, Option.some.injEq, parse_frameBytes, List.length_map, List.take_length] at hconn
    exact hconn
  have hdone : ∀ t, n ≤ t → (p.run (upTo ws t)).device = cs.foldl Command.apply p.device := by
    intro t ht
    rw [upTo_all fun w hw => Nat.le_trans (hn w hw) ht, hws, hall, ← List.flatMap_def]
    exact (run_commands hrest cs).2
  refine injTrig_iff hs hquiet hd hd' (fun t ht => ⟨?_, ?_⟩) hapart t
  · exact (congrArg Device.eventNo (hdone t ht)).trans (hno.device _)
  · exact congrArg BitVec.toNat ((congrArg Device.eventDelay (hdone t ht)).trans (hdly.device _))

/-- The settings that the program starts with, as commands. -/
def setTrigger : List Command := [.eventNo 32, .eventDelay 1000]

/-- Their writes, at the edges 1 and 2. -/
def setTriggerWrites : List (Nat × RegWrite) :=
  [(1, ⟨.evrFeTrignum, 32⟩), (2, ⟨.evrFeTrigdly, 1000⟩)]

/-- One event with the number 32, at edge 5. -/
def eventAtFive (t : Nat) : Byte := if t = 5 then 32 else 1

theorem eventAtFive_iff {t : Nat} : eventAtFive t = (32 : BitVec 32).setWidth 8 ↔ t = 5 := by
  unfold eventAtFive
  by_cases h : t = 5
  · exact iff_of_true (if_pos h) h
  · rw [if_neg h]
    exact iff_of_false (by decide) h

/-- It makes the trigger from edge 1008 to edge 1020. -/
theorem trigger_of_commands_setTrigger :
    connWrites (fun _ => .data 3) (frameBytes (setTrigger.map Command.frame)) =
        some (setTrigger.map Command.writes) ∧
      ∀ t, injTrig .init .start setTriggerWrites eventAtFive t = true ↔ 1008 ≤ t ∧ t ≤ 1020 := by
  have hwss : connWrites (fun _ => .data 3) (frameBytes (setTrigger.map Command.frame)) =
      some (setTrigger.map Command.writes) := by
    have hconn := connWrites_commands (fun _ => 3)
      (List.prefix_refl (frameBytes (setTrigger.map Command.frame)))
    rwa [parse_frameBytes, List.length_map, List.take_length] at hconn
  have hquiet : ∀ t < 2, ¬ (injIn .start setTriggerWrites eventAtFive t).event := by
    intro t ht
    rcases Nat.lt_succ_iff_lt_or_eq.mp ht with h0 | rfl
    · rw [Nat.lt_one_iff.mp h0]
      decide
    · decide
  have hno : SetsEventNo setTrigger 32 :=
    ⟨[], [.eventDelay 1000], rfl, fun c hc n h => by rw [List.mem_singleton.mp hc] at h; cases h⟩
  have hdly : SetsEventDelay setTrigger 1000 :=
    ⟨[.eventNo 32], [], rfl, fun c hc => absurd hc List.not_mem_nil⟩
  refine ⟨hwss, fun t => ?_⟩
  have hws : setTriggerWrites.map Prod.snd = (setTrigger.map Command.writes).flatten := rfl
  have hdone : ∀ w ∈ setTriggerWrites, w.1 ≤ 2 := by decide
  have htrigger := trigger_of_commands (fun _ => 3) setTrigger hno hdly (by decide) (by decide)
    start_rest hwss hws hdone init_idle hquiet (fun t u _ ht hu hlt => ?_) t
  · rw [htrigger]
    constructor
    · intro ⟨e, _, he, h1, h2⟩
      obtain rfl := eventAtFive_iff.mp he
      exact ⟨h1, h2⟩
    · intro ⟨h1, h2⟩
      exact ⟨5, by decide, eventAtFive_iff.mpr rfl, h1, h2⟩
  · rw [eventAtFive_iff.mp ht, eventAtFive_iff.mp hu] at hlt
    exact absurd hlt (Nat.lt_irrefl 5)

end Acmi.Control
