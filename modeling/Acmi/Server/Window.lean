import Acmi.Server.Slots

/-!
# The window between `psc_client_alloc` and `C->sock = client`

`psc_client_alloc` publishes the slot, cleared to zero, and releases the mutex; the accept
loop stores the descriptor afterwards. A broadcast made in between takes the `0` for the
client's descriptor, sends to it, and on an error closes it. `WindowOpen` says that a state
is in such a window, and `slots_of_run` that the window is all there is: outside it every
used slot has its own client's descriptor or `-1`, and a broadcast uses a foreign number
exactly when it is made inside.
-/

namespace Acmi.Server

open Acmi.Lib Acmi.Psc

/-- Every used slot's `sock` is `-1` or what `accept` returned for its client. -/
def SlotsBelong (s : State) : Prop :=
  ∀ i, i < pscMaxClients → s.used i = true →
    (s.clients i).sock = -1 ∨ (s.clients i).sock = s.fdOf (s.owner i)

/-- The accept loop has allocated a slot for a connection whose number is not `0`, has not
assigned `sock` yet, and no broadcast has stored `-1` there meanwhile. -/
def WindowOpen (s : State) : Prop :=
  ∃ k i, s.phase k = .allocated i ∧ s.fdOf k ≠ 0 ∧ (s.clients i).sock ≠ -1

/-- The call is made on the number `accept` returned for the connection it is meant for. -/
def Call.Owned (s : State) (c : Call) : Prop := c.who < s.next ∧ c.fd = s.fdOf c.who

theorem SlotInv.owner_lt {s : State} (h : SlotInv s) {i : Nat} (hi : i < pscMaxClients)
    (hu : s.used i = true) : s.owner i < s.next := by
  refine h.lt_next ?_
  intro habs
  have hslot := h.occupied i hi hu
  rw [habs] at hslot
  exact absurd hslot (by simp [Phase.slot])

/-- A used slot whose descriptor is foreign is one whose assignment is still to come. -/
theorem SlotInv.foreign {s : State} (h : SlotInv s) {i : Nat} (hi : i < pscMaxClients)
    (hu : s.used i = true) (hne : (s.clients i).sock ≠ -1) :
    (s.clients i).sock ≠ s.fdOf (s.owner i) ↔
      s.phase (s.owner i) = .allocated i ∧ s.fdOf (s.owner i) ≠ 0 := by
  have hsock := (h.sock _ i (h.occupied i hi hu)).resolve_left hne
  by_cases hall : s.phase (s.owner i) = .allocated i
  · rw [if_pos hall] at hsock
    rw [hsock]
    exact ⟨fun h0 => ⟨hall, fun e => h0 e.symm⟩, fun h0 e => h0.2 e.symm⟩
  · rw [if_neg hall] at hsock
    exact ⟨fun h0 => absurd hsock h0, fun h0 => absurd h0.1 hall⟩

theorem slotsBelong_iff {s : State} (h : SlotInv s) : SlotsBelong s ↔ ¬ WindowOpen s := by
  constructor
  · rintro hb ⟨k, i, hk, hfd, hne⟩
    obtain ⟨hi, hu, ho⟩ := h.slot k i (by rw [hk]; rfl)
    have hforeign := (h.foreign hi hu hne).mpr (by rw [ho]; exact ⟨hk, hfd⟩)
    exact (hb i hi hu).elim hne hforeign
  · intro hw i hi hu
    by_contra hcon
    obtain ⟨hne, hfor⟩ := not_or.mp hcon
    obtain ⟨hk, hfd⟩ := (h.foreign hi hu hne).mp hfor
    exact hw ⟨s.owner i, i, hk, hfd, hne⟩

/-- **A broadcast uses its clients' own descriptors exactly outside the window.** -/
theorem pscSend_owned_iff {s : State} (h : SlotInv s) (m : Frame) (nets : Nat → Nat → SendAns) :
    ∃ new, (s.pscSend m nets).calls = new ++ s.calls ∧
      ((∀ c ∈ new, c.Owned s) ↔ ¬ WindowOpen s) := by
  obtain ⟨new, hcalls, hfrom, hall⟩ := sendUpto_calls s m nets pscMaxClients
  refine ⟨new, hcalls, ?_, ?_⟩
  · rintro hown ⟨k, i, hk, hfd, hne⟩
    obtain ⟨hi, hu, ho⟩ := h.slot k i (by rw [hk]; rfl)
    obtain ⟨c, hc, hcfd, hcwho⟩ := hall i hi ⟨hu, hne⟩
    have hforeign := (h.foreign hi hu hne).mpr (by rw [ho]; exact ⟨hk, hfd⟩)
    have hc' := (hown c hc).2
    rw [hcfd, hcwho] at hc'
    exact hforeign hc'
  · intro hw c hc
    obtain ⟨i, hi, ⟨hu, hne⟩, hcfd, hcwho⟩ := hfrom c hc
    have hbelongs := ((slotsBelong_iff h).mpr hw i hi hu).resolve_left hne
    exact ⟨by rw [hcwho]; exact h.owner_lt hi hu, by rw [hcfd, hcwho]; exact hbelongs⟩

/-- A handler's own sends come after the assignment. -/
theorem pscSendOne_owned {s : State} (h : SlotInv s) {k i : Nat} {sock : Int}
    (hk : s.phase k = .running i sock) (m : Frame) (net : Nat → SendAns) :
    ∃ new, (s.pscSendOne m net i).calls = new ++ s.calls ∧ ∀ c ∈ new, c.Owned s := by
  unfold State.pscSendOne
  split
  next => exact ⟨[], rfl, by simp⟩
  next hne =>
    obtain ⟨hi, hu, ho⟩ := h.slot k i (by rw [hk]; rfl)
    obtain ⟨new, hcalls, hon, -⟩ := sendClient_calls s m net i
    refine ⟨new, hcalls, fun c hc => ?_⟩
    obtain ⟨hcfd, hcwho⟩ := hon c hc
    have hsock := (h.sock k i (by rw [hk]; rfl)).resolve_left hne
    rw [if_neg (by simp [hk])] at hsock
    refine ⟨by rw [hcwho]; exact h.owner_lt hi hu, ?_⟩
    rw [hcfd, hcwho, ho]
    exact hsock

/-- **The slots of every run.** In every state the used slots belong to their clients exactly
when no window is open, a broadcast stays on its clients' descriptors exactly then, and
`psc_send_one` always does. -/
theorem slots_of_run {listenSock : Int} {es : List Event} {s : State}
    (hrun : runFrom step (init listenSock) es = some s) :
    (SlotsBelong s ↔ ¬ WindowOpen s) ∧
    (∀ m nets s', step s (.send m nets) = some s' →
      ∃ new, s'.calls = new ++ s.calls ∧ ((∀ c ∈ new, c.Owned s) ↔ ¬ WindowOpen s)) ∧
    ∀ k m net s', step s (.sendOne k m net) = some s' →
      ∃ new, s'.calls = new ++ s.calls ∧ ∀ c ∈ new, c.Owned s := by
  have hinv := run_slotInv hrun
  refine ⟨slotsBelong_iff hinv, fun m nets s' hs => ?_, fun k m net s' hs => ?_⟩
  · cases step_cases hs
    exact pscSend_owned_iff hinv m nets
  · cases step_cases hs with
    | sendOne hk => exact pscSendOne_owned hinv hk m net

/-- With descriptor `1`, the window is open when the slot is allocated. -/
theorem slots_of_run_allocated :
    ∃ s, runFrom step (init 0) [.accept 1, .alloc] = some s ∧
      (SlotsBelong s ↔ ¬ WindowOpen s) ∧
      (∀ m nets s', step s (.send m nets) = some s' →
        ∃ new, s'.calls = new ++ s.calls ∧ ((∀ c ∈ new, c.Owned s) ↔ ¬ WindowOpen s)) ∧
      ∀ k m net s', step s (.sendOne k m net) = some s' →
        ∃ new, s'.calls = new ++ s.calls ∧ ∀ c ∈ new, c.Owned s :=
  ⟨_, rfl, @slots_of_run 0 [.accept 1, .alloc] _ rfl⟩

/-- A message without a body, as `psc_send` would put it on every connection. -/
def statsFrame : Frame := ⟨101#16, [], by decide⟩

/-- The server listens on `0` and accepts a client as `1`. A broadcast between the client's
allocation and its assignment sends to `0`, fails, and closes the listening socket. -/
theorem broadcast_closes_listener :
    (∃ s, runFrom step (init 0) [.accept 1, .alloc] = some s ∧
      s.used 0 = true ∧ (s.clients 0).sock = 0 ∧ s.fdOf (s.owner 0) = 1 ∧ ¬ SlotsBelong s) ∧
    ∃ s, runFrom step (init 0) [.accept 1, .alloc, .send statsFrame fun _ _ => .error .enotconn 0]
        = some s ∧
      s.calls = [⟨.close, 0, 0, some .listener⟩, ⟨.send, 0, 0, some .listener⟩] ∧
      s.fds s.listenSock = none := by
  refine ⟨⟨_, rfl, by decide, by decide, by decide, fun h => ?_⟩, _, rfl, ?_, ?_⟩
  · have hslot := h 0 (by decide) (by decide)
    exact absurd hslot (by decide)
  · decide
  · decide

end Acmi.Server
