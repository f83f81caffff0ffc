import Acmi.Server.Slots

/-!
# Connections and their numbers

What holds of the descriptor table in every reachable state, next to what `SlotInv` says of
the client table: an open connection is found under the number `accept` returned for it and
under no other (`ConnInv`).
-/

namespace Acmi.Server

open Acmi.Lib Acmi.Psc

/-- The slot whose `sock` has been assigned for the connection. -/
def Phase.assignedSlot : Phase → Option Nat
  | assigned i | created i | running i _ => some i
  | _ => none

theorem slot_of_assignedSlot {p : Phase} {i : Nat} (h : p.assignedSlot = some i) :
    p.slot = some i ∧ ∀ j, p ≠ .allocated j := by
  cases p with
  | assigned j | created j | running j sock => exact ⟨h, by simp⟩
  | absent | accepted | refused | allocated j | freed sock | closed =>
    exact absurd h (by simp [Phase.assignedSlot])

/-- An open connection has been accepted, under the number it is open as. -/
def ConnInv (s : State) : Prop :=
  ∀ fd k, s.fds fd = some (.conn k) → k < s.next ∧ fd = s.fdOf k

/-- Only `accept` gives out a number or opens a descriptor. -/
theorem step_numbers {s s' : State} {e : Event} (h : Step s e s') :
    (∃ fd, e = .accept fd ∧ s' = s.opened fd ∧ 0 ≤ fd ∧ s.fds fd = none) ∨
    (s'.next = s.next ∧ s'.fdOf = s.fdOf ∧ ∀ fd, s'.fds fd = s.fds fd ∨ s'.fds fd = none) := by
  have hsame : ∀ {t : State}, SameTable s t →
      t.next = s.next ∧ t.fdOf = s.fdOf ∧ ∀ fd, t.fds fd = s.fds fd ∨ t.fds fd = none :=
    fun h => ⟨h.next, h.fdOf, h.fds⟩
  cases h with
  | acceptFailed => exact Or.inr (hsame (SameTable.refl s))
  | accept _ hpos hfree => exact Or.inl ⟨_, rfl, rfl, hpos, hfree⟩
  | alloc _ =>
    unfold State.pscClientAlloc
    split
    next => exact Or.inr ⟨rfl, rfl, fun _ => Or.inl rfl⟩
    next => exact Or.inr ⟨rfl, rfl, fun _ => Or.inl rfl⟩
  | drop _ => exact Or.inr ⟨rfl, rfl, (close_same s (s.fdOf s.cur) s.cur).fds⟩
  | assign _ => exact Or.inr ⟨rfl, rfl, fun _ => Or.inl rfl⟩
  | spawn _ => exact Or.inr ⟨rfl, rfl, fun _ => Or.inl rfl⟩
  | copy _ => exact Or.inr ⟨rfl, rfl, fun _ => Or.inl rfl⟩
  | sendOne _ => exact Or.inr (hsame (pscSendOne_same ..))
  | recv _ => exact Or.inr (hsame (recv_same ..))
  | free _ => exact Or.inr ⟨rfl, rfl, fun _ => Or.inl rfl⟩
  | @close k sock _ => exact Or.inr ⟨rfl, rfl, (close_same s sock k).fds⟩
  | send => exact Or.inr (hsame (pscSend_same ..))

theorem ConnInv.shrink {s s' : State} (h : ConnInv s) (hnext : s'.next = s.next)
    (hfd : s'.fdOf = s.fdOf) (hfds : ∀ fd, s'.fds fd = s.fds fd ∨ s'.fds fd = none) :
    ConnInv s' := by
  intro fd k hk
  rcases hfds fd with e | e
  · rw [hnext, hfd]
    exact h fd k (e ▸ hk)
  · rw [e] at hk
    exact absurd hk (by simp)

theorem opened_fds (s : State) (fd f : Int) :
    (s.opened fd).fds f = if f = fd then some (.conn s.next) else s.fds f :=
  Function.update_apply ..

theorem opened_fdOf (s : State) (fd : Int) (k : Nat) :
    (s.opened fd).fdOf k = if k = s.next then fd else s.fdOf k :=
  Function.update_apply ..

theorem opened_phase (s : State) (fd : Int) (k : Nat) :
    (s.opened fd).phase k = if k = s.next then .accepted else s.phase k :=
  Function.update_apply ..

theorem ConnInv.opened {s : State} (h : ConnInv s) (fd : Int) : ConnInv (s.opened fd) := by
  intro f k hk
  show k < s.next + 1 ∧ _
  rw [opened_fds] at hk
  rw [opened_fdOf]
  split at hk
  next hf =>
    obtain rfl : s.next = k := by simpa using hk
    rw [if_pos rfl]
    exact ⟨Nat.lt_succ_self _, hf⟩
  next =>
    obtain ⟨hlt, hfd⟩ := h f k hk
    rw [if_neg (Nat.ne_of_lt hlt)]
    exact ⟨Nat.lt_succ_of_lt hlt, hfd⟩

theorem step_connInv {s s' : State} {e : Event} (h : ConnInv s) (hstep : step s e = some s') :
    ConnInv s' := by
  rcases step_numbers (step_cases hstep) with ⟨fd, -, rfl, -⟩ | ⟨hnext, hfd, hfds⟩
  · exact h.opened fd
  · exact h.shrink hnext hfd hfds

theorem init_connInv (listenSock : Int) : ConnInv (init listenSock) := by
  intro fd k hk
  simp only [init] at hk
  split at hk
  next => exact absurd hk (by simp)
  next => exact absurd hk (by simp)

/-- `psc_client_alloc` moves the connection on and leaves the sockets and the slots of the
other connections alone. -/
theorem alloc_frame {s : State} (h : SlotInv s) :
    (∃ p, (p = .refused ∨ ∃ i, p = .allocated i) ∧
      ∀ k, (s.pscClientAlloc s.cur).phase k = if k = s.cur then p else s.phase k) ∧
    (s.pscClientAlloc s.cur).fdOf = s.fdOf ∧ (s.pscClientAlloc s.cur).fds = s.fds ∧
    (s.pscClientAlloc s.cur).calls = s.calls ∧ (s.pscClientAlloc s.cur).wire = s.wire ∧
    ∀ k i, (s.phase k).slot = some i → (s.pscClientAlloc s.cur).clients i = s.clients i := by
  unfold State.pscClientAlloc
  split
  next =>
    exact ⟨⟨.refused, Or.inl rfl, phase_setPhase s s.cur _⟩, rfl, rfl, rfl, rfl, fun _ _ _ => rfl⟩
  next i hfree =>
    refine ⟨⟨.allocated i, Or.inr ⟨i, rfl⟩, phase_setPhase s s.cur _⟩, rfl, rfl, rfl, rfl,
      fun k j hj => Function.update_of_ne ?_ ..⟩
    rintro rfl
    have hu := (h.slot k j hj).2.1
    rw [(freeSlot_some hfree).2] at hu
    exact absurd hu (by simp)

/-- The slot a connection has is no other connection's. -/
theorem SlotInv.slot_ne {s : State} (h : SlotInv s) {j k i i' : Nat}
    (hj : (s.phase j).slot = some i) (hkj : k ≠ j) (hk : (s.phase k).assignedSlot = some i') :
    i' ≠ i := by
  rintro rfl
  have ho := (h.slot j i' hj).2.2
  have ho' := (h.slot k i' (slot_of_assignedSlot hk).1).2.2
  exact hkj (ho'.symm.trans ho)

end Acmi.Server
