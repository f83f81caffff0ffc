import Acmi.Lib.Owners
import Acmi.Server.Step

/-!
# `psc_client_alloc` and `psc_client_free` on their own

Here the two functions are called in any order by any number of clients, a client that has no slot
calling the one and the client that has a slot the other. `AllocInv` says that the bits of
`clients_used`, the slots and the clients agree, and `allocator_run` what follows for every run.
The `memset` of `psc_client_free` comes after the bit has been found through the slot's own
`index`, which the invariant knows to be right (`free_bit`).

In `Slots` the same functions are called by the threads of the server, one accept at a time.
-/

namespace Acmi.Server

open Acmi.Lib Acmi.Psc

inductive AllocCall
  /-- `psc_client_alloc`, for a client without a slot -/
  | alloc (k : Nat)
  /-- `psc_client_free`, by the handler of a client that has one -/
  | free (k : Nat)

/-- The slot a live client has. -/
def State.live (s : State) (k : Nat) : Option Nat := (s.phase k).slot

/-- One call, when it can be made. -/
def callStep (s : State) : AllocCall → Option State
  | .alloc k => if s.live k = none then some (s.pscClientAlloc k) else none
  | .free k =>
    match s.live k with
    | none => none
    | some i => some ((s.pscClientFree i).setPhase k .closed)

structure AllocInv (s : State) : Prop where
  exclusive : Exclusive s.live
  bit : ∀ i, s.clientsUsed.getLsbD i = true ↔ ∃ k, s.live k = some i
  entry : ∀ k i, s.live k = some i →
    i < pscMaxClients ∧ (s.clients i).index = i ∧ (s.clients i).psc = .server

/-! ## The two functions -/

theorem live_setPhase (s : State) (k : Nat) (p : Phase) :
    (s.setPhase k p).live = Function.update s.live k p.slot := by
  funext j
  by_cases hj : j = k
  · rw [hj, Function.update_self]
    exact congrArg Phase.slot (Function.update_self ..)
  · rw [Function.update_of_ne hj]
    exact congrArg Phase.slot (Function.update_of_ne hj ..)

theorem freeSlot_eq_none {s : State} :
    s.freeSlot = none ↔ ∀ i < pscMaxClients, s.clientsUsed.getLsbD i = true := by
  unfold State.freeSlot
  rw [List.find?_eq_none]
  constructor
  · intro h i hi
    have hused := h i (List.mem_range.mpr hi)
    rw [Bool.not_eq_true', Bool.not_eq_false] at hused
    unfold pscMaxClients at hi
    rwa [used_eq (by omega)] at hused
  · intro h i hi
    rw [List.mem_range] at hi
    have hbit := h i hi
    unfold pscMaxClients at hi
    rw [used_eq (by omega), hbit]
    exact Bool.noConfusion

theorem freeSlot_eq_some {s : State} {i : Nat} (h : s.freeSlot = some i) :
    i < pscMaxClients ∧ s.clientsUsed.getLsbD i = false := by
  unfold State.freeSlot at h
  have hi := List.mem_range.mp (List.mem_of_find?_eq_some h)
  have hunused := List.find?_some h
  refine ⟨hi, ?_⟩
  unfold pscMaxClients at hi
  rw [used_eq (by omega)] at hunused
  simpa using hunused

/-- What `psc_client_alloc` does: nothing, or it takes a slot whose bit is clear. -/
theorem alloc_cases (s : State) (k : Nat) :
    (s.freeSlot = none ∧ s.pscClientAlloc k = s.setPhase k .refused) ∨
    ∃ i, i < pscMaxClients ∧ s.clientsUsed.getLsbD i = false ∧
      (s.pscClientAlloc k).phase k = .allocated i ∧
      (s.pscClientAlloc k).live = Function.update s.live k (some i) ∧
      (∀ j, (s.pscClientAlloc k).clientsUsed.getLsbD j =
        (s.clientsUsed.getLsbD j || decide (j = i))) ∧
      (s.pscClientAlloc k).clients = Function.update s.clients i ⟨i, 0, .server⟩ := by
  unfold State.pscClientAlloc
  cases hfree : s.freeSlot with
  | none => exact Or.inl ⟨rfl, rfl⟩
  | some i =>
    obtain ⟨hi, hunused⟩ := freeSlot_eq_some hfree
    have h32 : i < 32 := by
      unfold pscMaxClients at hi
      omega
    exact Or.inr ⟨i, hi, hunused, Function.update_self .., live_setPhase s k (.allocated i),
      getLsbD_set_bit _ h32, rfl⟩

/-- The bit that `psc_client_free` finds through the slot's `index`. -/
theorem free_bit {s : State} (h : AllocInv s) {k i : Nat} (hk : s.live k = some i) (j : Nat) :
    (s.pscClientFree i).clientsUsed.getLsbD j = (s.clientsUsed.getLsbD j && !decide (j = i)) := by
  show (s.clientsUsed &&& ~~~(1#32 <<< (s.clients i).index)).getLsbD j = _
  rw [(h.entry k i hk).2.1, getLsbD_clear_bit]

/-! ## Every run -/

theorem init_allocInv (listenSock : Int) : AllocInv (init listenSock) where
  exclusive := exclusive_none
  bit i := by
    have hzero : (init listenSock).clientsUsed.getLsbD i = false := BitVec.getLsbD_zero
    rw [hzero]
    refine iff_of_false Bool.noConfusion ?_
    rintro ⟨k, hk⟩
    cases hk
  entry k i hk := by cases hk

/-- A call that leaves the bits and the slots alone, for a client that has no slot. -/
theorem refused_allocInv {s : State} (h : AllocInv s) {k : Nat} (hk : s.live k = none) :
    AllocInv (s.setPhase k .refused) := by
  have hlive : (s.setPhase k .refused).live = s.live := by
    rw [live_setPhase]
    exact Function.update_eq_self_iff.mpr hk.symm
  exact ⟨hlive ▸ h.exclusive, hlive ▸ h.bit, hlive ▸ h.entry⟩

theorem alloc_allocInv {s : State} (h : AllocInv s) {k : Nat} (hk : s.live k = none) :
    AllocInv (s.pscClientAlloc k) := by
  rcases alloc_cases s k with ⟨-, hs⟩ | ⟨i, hi, hunused, -, hlive, hused, hclients⟩
  · rw [hs]
    exact refused_allocInv h hk
  · have hfree : ∀ j, s.live j ≠ some i := by
      intro j hj
      rw [(h.bit i).mpr ⟨j, hj⟩] at hunused
      cases hunused
    constructor
    case exclusive =>
      rw [hlive]
      exact h.exclusive.take hfree k
    case bit =>
      intro j
      rw [hlive, hused, Bool.or_eq_true, h.bit j, decide_eq_true_iff]
      constructor
      · rintro (⟨k', hk'⟩ | rfl)
        · refine ⟨k', ?_⟩
          rw [Function.update_of_ne, hk']
          rintro rfl
          rw [hk] at hk'
          cases hk'
        · exact ⟨k, Function.update_self ..⟩
      · rintro ⟨k', hk'⟩
        by_cases hkk : k' = k
        · rw [hkk, Function.update_self, Option.some.injEq] at hk'
          exact Or.inr hk'.symm
        · rw [Function.update_of_ne hkk] at hk'
          exact Or.inl ⟨k', hk'⟩
    case entry =>
      intro j x hj
      rw [hlive] at hj
      rw [hclients]
      by_cases hjk : j = k
      · rw [hjk, Function.update_self, Option.some.injEq] at hj
        subst hj
        rw [Function.update_self]
        exact ⟨hi, rfl, rfl⟩
      · rw [Function.update_of_ne hjk] at hj
        have hxi : x ≠ i := fun hx => hfree j (hx ▸ hj)
        rw [Function.update_of_ne hxi]
        exact h.entry j x hj

theorem free_allocInv {s : State} (h : AllocInv s) {k i : Nat} (hk : s.live k = some i) :
    AllocInv ((s.pscClientFree i).setPhase k .closed) := by
  have hlive : ((s.pscClientFree i).setPhase k .closed).live = Function.update s.live k none :=
    live_setPhase (s.pscClientFree i) k .closed
  -- who still has a slot has another one
  have hother : ∀ j x, Function.update s.live k none j = some x → s.live j = some x ∧ x ≠ i := by
    intro j x hj
    by_cases hjk : j = k
    · rw [hjk, Function.update_self] at hj
      cases hj
    · rw [Function.update_of_ne hjk] at hj
      exact ⟨hj, fun hx => hjk (h.exclusive j k i (hx ▸ hj) hk)⟩
  constructor
  case exclusive =>
    rw [hlive]
    exact h.exclusive.release k
  case bit =>
    intro j
    rw [hlive]
    show (s.pscClientFree i).clientsUsed.getLsbD j = true ↔ _
    rw [free_bit h hk, Bool.and_eq_true, h.bit j, Bool.not_eq_true', decide_eq_false_iff_not]
    constructor
    · rintro ⟨⟨k', hk'⟩, hne⟩
      refine ⟨k', ?_⟩
      rw [Function.update_of_ne, hk']
      rintro rfl
      rw [hk, Option.some.injEq] at hk'
      exact hne hk'.symm
    · rintro ⟨k', hk'⟩
      obtain ⟨hold, hne⟩ := hother k' j hk'
      exact ⟨⟨k', hold⟩, hne⟩
  case entry =>
    intro j x hj
    rw [hlive] at hj
    obtain ⟨hold, hne⟩ := hother j x hj
    show x < pscMaxClients ∧ (Function.update s.clients i ⟨0, 0, .null⟩ x).index = x ∧
      (Function.update s.clients i ⟨0, 0, .null⟩ x).psc = .server
    rw [Function.update_of_ne hne]
    exact h.entry j x hold

theorem step_allocInv {s s' : State} {c : AllocCall} (h : AllocInv s)
    (hs : callStep s c = some s') : AllocInv s' := by
  cases c with
  | alloc k =>
    rw [callStep] at hs
    split at hs
    next hk => exact Option.some.inj hs ▸ alloc_allocInv h hk
    next => cases hs
  | free k =>
    rw [callStep] at hs
    cases hk : s.live k with
    | none =>
      rw [hk] at hs
      cases hs
    | some i =>
      rw [hk] at hs
      exact Option.some.inj hs ▸ free_allocInv h hk

/-- The call returns `NULL` when every slot has its owner. -/
theorem refused_iff {s : State} (h : AllocInv s) {k : Nat} :
    (s.pscClientAlloc k).phase k = .refused ↔ (owners s.live).ncard = pscMaxClients := by
  rw [h.exclusive.ncard_eq_iff fun j i hj => (h.entry j i hj).1]
  rcases alloc_cases s k with ⟨hfree, hs⟩ | ⟨i, hi, hunused, hphase, -, -, -⟩
  · refine iff_of_true ?_ fun i hi => (h.bit i).mp (freeSlot_eq_none.mp hfree i hi)
    rw [hs]
    exact Function.update_self ..
  · refine iff_of_false ?_ ?_
    · rw [hphase]
      exact Phase.noConfusion
    · intro hall
      rw [(h.bit i).mpr (hall i hi)] at hunused
      cases hunused

/-- **The client slot allocator.** In every state that a run of the two functions reaches, the bits
and the slots say which client has which, and either call touches no slot but its own. -/
theorem allocator_run (listenSock : Int) (calls : List AllocCall) (s : State)
    (hrun : runFrom callStep (init listenSock) calls = some s) :
    (∀ i, s.clientsUsed.getLsbD i = true ↔ ∃! k, s.live k = some i) ∧
    Exclusive s.live ∧
    (∀ k i, s.live k = some i → (s.clients i).index = i ∧ (s.clients i).psc = .server) ∧
    (∀ k, s.live k = none →
      ((s.pscClientAlloc k).phase k = .refused ↔ (owners s.live).ncard = pscMaxClients) ∧
      ((s.pscClientAlloc k).phase k = .refused →
        (s.pscClientAlloc k).clients = s.clients ∧
        (s.pscClientAlloc k).clientsUsed = s.clientsUsed) ∧
      ∀ j, (s.pscClientAlloc k).live k ≠ some j →
        (s.pscClientAlloc k).clients j = s.clients j ∧
        (s.pscClientAlloc k).clientsUsed.getLsbD j = s.clientsUsed.getLsbD j) ∧
    (∀ k i, s.live k = some i → ∀ j, j ≠ i →
      (s.pscClientFree i).clients j = s.clients j ∧
      (s.pscClientFree i).clientsUsed.getLsbD j = s.clientsUsed.getLsbD j) := by
  have h : AllocInv s :=
    runFrom_invariant (fun _ _ _ h hs => step_allocInv h hs) (init_allocInv listenSock) hrun
  refine ⟨?_, h.exclusive, fun k i hk => (h.entry k i hk).2, ?_, ?_⟩
  · intro i
    rw [h.bit i]
    constructor
    · rintro ⟨k, hk⟩
      exact ⟨k, hk, fun j hj => h.exclusive j k i hj hk⟩
    · rintro ⟨k, hk, -⟩
      exact ⟨k, hk⟩
  · intro k hk
    refine ⟨refused_iff h, ?_, ?_⟩
    · intro hrefused
      rcases alloc_cases s k with ⟨-, hs⟩ | ⟨i, -, -, hphase, -, -, -⟩
      · rw [hs]
        exact ⟨rfl, rfl⟩
      · rw [hphase] at hrefused
        cases hrefused
    · intro j hj
      rcases alloc_cases s k with ⟨-, hs⟩ | ⟨i, -, -, -, hlive, hused, hclients⟩
      · rw [hs]
        exact ⟨rfl, rfl⟩
      · have hji : j ≠ i := by
          rintro rfl
          rw [hlive, Function.update_self] at hj
          exact hj rfl
        rw [hclients, hused, Function.update_of_ne hji, decide_eq_false hji, Bool.or_false]
        exact ⟨rfl, rfl⟩
  · intro k i hk j hj
    constructor
    · exact Function.update_of_ne hj ..
    · rw [free_bit h hk, decide_eq_false hj, Bool.not_false, Bool.and_true]

/-- Two clients come, the first one goes, and a third gets its slot. -/
def reused : List AllocCall := [.alloc 0, .alloc 1, .free 0, .alloc 2]

theorem allocator_run_reused : ∃ s, runFrom callStep (init 3) reused = some s ∧
    s.live 2 = some 0 ∧ Exclusive s.live :=
  ⟨_, rfl, rfl, (allocator_run 3 reused _ rfl).2.1⟩

end Acmi.Server
