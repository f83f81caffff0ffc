import Acmi.Server.Step

/-!
# The slot table: whom a slot and its descriptor belong to

`SlotInv` is what holds of the client table in every reachable state: the used bits, the
owners and the threads' positions agree, and a used slot's `sock` is `-1`, the number
`accept` returned for its client, or still the `0` that `psc_client_alloc` cleared it to.

That last case is a window of the accept loop, between `psc_client_alloc`, which sets the
used bit under the mutex, and `C->sock = client`, which comes later and without it
(`Window.lean`).
-/

namespace Acmi.Server

open Acmi.Lib Acmi.Psc

/-- The thread's local copy of the descriptor, while it has one. -/
def Phase.localSock : Phase → Option Int
  | running _ sock | freed sock => some sock
  | _ => none

/-- The table invariant. `loop`: the accept loop works on one connection, the latest.
`slot` and `occupied`: the threads' slots and the used bits are the same thing seen from
both sides. -/
structure SlotInv (s : State) : Prop where
  absent : ∀ k, s.phase k = .absent ↔ s.next ≤ k
  loop : ∀ k, (s.phase k).inLoop = true → k + 1 = s.next
  slot : ∀ k i, (s.phase k).slot = some i → i < pscMaxClients ∧ s.used i = true ∧ s.owner i = k
  occupied : ∀ i, i < pscMaxClients → s.used i = true → (s.phase (s.owner i)).slot = some i
  entry : ∀ i, i < pscMaxClients → s.used i = true →
    (s.clients i).index = i ∧ (s.clients i).psc = .server
  sock : ∀ k i, (s.phase k).slot = some i →
    (s.clients i).sock = -1 ∨ (s.clients i).sock = if s.phase k = .allocated i then 0 else s.fdOf k
  copied : ∀ k fd, (s.phase k).localSock = some fd → fd = -1 ∨ fd = s.fdOf k
  nonneg : ∀ k, k < s.next → 0 ≤ s.fdOf k

theorem phase_setPhase (s : State) (k : Nat) (p : Phase) (j : Nat) :
    (s.setPhase k p).phase j = if j = k then p else s.phase j :=
  Function.update_apply ..

theorem init_slotInv (listenSock : Int) : SlotInv (init listenSock) := by
  have hunused : ∀ i, i < pscMaxClients → (init listenSock).used i = false := by
    intro i _
    simp [State.used, init]
  constructor
  case absent =>
    intro k
    exact ⟨fun _ => Nat.zero_le k, fun _ => rfl⟩
  case loop =>
    intro k h
    exact absurd h (by simp [init, Phase.inLoop])
  case slot =>
    intro k i h
    exact absurd h (by simp [init, Phase.slot])
  case occupied =>
    intro i hi h
    rw [hunused i hi] at h
    exact absurd h (by simp)
  case entry =>
    intro i hi h
    rw [hunused i hi] at h
    exact absurd h (by simp)
  case sock =>
    intro k i h
    exact absurd h (by simp [init, Phase.slot])
  case copied =>
    intro k fd h
    exact absurd h (by simp [init, Phase.localSock])
  case nonneg =>
    intro k h
    exact absurd h (Nat.not_lt_zero k)

/-- Senders keep the invariant: a `sock` that became `-1` is allowed everywhere. -/
theorem SlotInv.same {s s' : State} (h : SlotInv s) (hs : SameTable s s') : SlotInv s' := by
  constructor
  case absent =>
    intro k
    rw [hs.phase, hs.next]
    exact h.absent k
  case loop =>
    intro k hk
    rw [hs.phase] at hk
    rw [hs.next]
    exact h.loop k hk
  case slot =>
    intro k i hk
    rw [hs.phase] at hk
    rw [hs.used, hs.owner]
    exact h.slot k i hk
  case occupied =>
    intro i hi hu
    rw [hs.used] at hu
    rw [hs.phase, hs.owner]
    exact h.occupied i hi hu
  case entry =>
    intro i hi hu
    rw [hs.used] at hu
    rcases hs.clients i with e | e <;> rw [e] <;> exact h.entry i hi hu
  case sock =>
    intro k i hk
    rw [hs.phase] at hk ⊢
    rw [hs.fdOf]
    rcases hs.clients i with e | e <;> rw [e]
    · exact h.sock k i hk
    · exact Or.inl rfl
  case copied =>
    intro k fd hk
    rw [hs.phase] at hk
    rw [hs.fdOf]
    exact h.copied k fd hk
  case nonneg =>
    intro k hk
    rw [hs.next] at hk
    rw [hs.fdOf]
    exact h.nonneg k hk

/-- A connection the program works on has been accepted. -/
theorem SlotInv.lt_next {s : State} (h : SlotInv s) {k : Nat} (hk : s.phase k ≠ .absent) :
    k < s.next := by
  rcases Nat.lt_or_ge k s.next with hlt | hge
  · exact hlt
  · exact absurd ((h.absent k).mpr hge) hk

/-! A thread that moves on changes three clauses of the invariant in the same way, whatever else
the step does to the table. -/

theorem SlotInv.absent_setPhase {s : State} (h : SlotInv s) {k : Nat} {p : Phase}
    (hk : s.phase k ≠ .absent) (hp : p ≠ .absent) (j : Nat) :
    (s.setPhase k p).phase j = .absent ↔ s.next ≤ j := by
  rw [phase_setPhase]
  split
  next hjk =>
    subst hjk
    exact ⟨fun e => absurd e hp, fun e => absurd ((h.absent j).mpr e) hk⟩
  next => exact h.absent j

theorem SlotInv.loop_setPhase {s : State} (h : SlotInv s) {k : Nat} {p : Phase}
    (hloop : p.inLoop = true → (s.phase k).inLoop = true) (j : Nat)
    (hj : ((s.setPhase k p).phase j).inLoop = true) : j + 1 = s.next := by
  rw [phase_setPhase] at hj
  split at hj
  next hjk =>
    subst hjk
    exact h.loop j (hloop hj)
  next => exact h.loop j hj

theorem SlotInv.copied_setPhase {s : State} (h : SlotInv s) {k : Nat} {p : Phase}
    (hcopy : ∀ fd, p.localSock = some fd → fd = -1 ∨ fd = s.fdOf k) (j : Nat) (fd : Int)
    (hj : ((s.setPhase k p).phase j).localSock = some fd) : fd = -1 ∨ fd = s.fdOf j := by
  rw [phase_setPhase] at hj
  split at hj
  next hjk =>
    subst hjk
    exact hcopy fd hj
  next => exact h.copied j fd hj

/-- A connection moves on while the table stays as it is. -/
theorem SlotInv.setPhase {s : State} (h : SlotInv s) {k : Nat} (p : Phase)
    (hk : s.phase k ≠ .absent) (hp : p ≠ .absent)
    (hloop : p.inLoop = true → (s.phase k).inLoop = true) (hslot : p.slot = (s.phase k).slot)
    (hfrom : ∀ i, s.phase k ≠ .allocated i) (hto : ∀ i, p ≠ .allocated i)
    (hcopy : ∀ fd, p.localSock = some fd → fd = -1 ∨ fd = s.fdOf k) :
    SlotInv (s.setPhase k p) := by
  have hsl : ∀ j, ((s.setPhase k p).phase j).slot = (s.phase j).slot := by
    intro j
    rw [phase_setPhase]
    split
    next hj => rw [hj, hslot]
    next => rfl
  constructor
  case absent => exact h.absent_setPhase hk hp
  case loop => exact h.loop_setPhase hloop
  case slot =>
    intro j i hj
    rw [hsl] at hj
    exact h.slot j i hj
  case occupied =>
    intro i hi hu
    rw [hsl]
    exact h.occupied i hi hu
  case entry => exact h.entry
  case sock =>
    intro j i hj
    rw [hsl] at hj
    have hsock := h.sock j i hj
    rw [phase_setPhase]
    split
    next hjk =>
      subst hjk
      rw [if_neg (hto i)]
      rw [if_neg (hfrom i)] at hsock
      exact hsock
    next => exact hsock
  case copied => exact h.copied_setPhase hcopy
  case nonneg => exact h.nonneg

theorem accept_slotInv {s : State} (h : SlotInv s) {fd : Int}
    (hloop : (s.phase s.cur).inLoop = false) (hpos : 0 ≤ fd) : SlotInv (s.opened fd) := by
  have hphase : ∀ j, (s.opened fd).phase j = if j = s.next then .accepted else s.phase j :=
    phase_setPhase s s.next .accepted
  have hfd : ∀ j, j ≠ s.next → (s.opened fd).fdOf j = s.fdOf j :=
    fun j hj => Function.update_of_ne hj ..
  have hnew : s.phase s.next = .absent := (h.absent s.next).mpr (Nat.le_refl _)
  have hslot : ∀ j i, ((s.opened fd).phase j).slot = some i →
      j ≠ s.next ∧ (s.phase j).slot = some i := by
    intro j i hj
    rw [hphase] at hj
    split at hj
    next => exact absurd hj (by simp [Phase.slot])
    next hne => exact ⟨hne, hj⟩
  constructor
  case absent =>
    intro j
    rw [hphase]
    show _ ↔ s.next + 1 ≤ j
    split
    next hjn => exact ⟨fun e => absurd e (by simp), fun e => by omega⟩
    next hjn =>
      rw [h.absent j]
      omega
  case loop =>
    intro j hj
    show j + 1 = s.next + 1
    rw [hphase] at hj
    split at hj
    next hjn => rw [hjn]
    next hjn =>
      -- the loop was between two connections
      have hlast := h.loop j hj
      have hcur : s.cur = j := by
        unfold State.cur
        omega
      rw [hcur, hj] at hloop
      exact absurd hloop (by simp)
  case slot => exact fun j i hj => h.slot j i (hslot j i hj).2
  case occupied =>
    intro i hi hu
    have ho := h.occupied i hi hu
    show ((s.opened fd).phase (s.owner i)).slot = some i
    rw [hphase]
    split
    next hjn =>
      rw [hjn, hnew] at ho
      exact absurd ho (by simp [Phase.slot])
    next => exact ho
  case entry => exact h.entry
  case sock =>
    intro j i hj
    obtain ⟨hne, hj'⟩ := hslot j i hj
    rw [hphase, if_neg hne, hfd j hne]
    exact h.sock j i hj'
  case copied =>
    intro j f hj
    rw [hphase] at hj
    split at hj
    next => exact absurd hj (by simp [Phase.localSock])
    next hne =>
      rw [hfd j hne]
      exact h.copied j f hj
  case nonneg =>
    intro j hj
    rcases Nat.lt_or_ge j s.next with hlt | hge
    · rw [hfd j (by omega)]
      exact h.nonneg j hlt
    · have hjn : j = s.next := by
        have hj' : j < s.next + 1 := hj
        omega
      rw [hjn]
      show 0 ≤ Function.update s.fdOf s.next fd s.next
      rw [Function.update_self]
      exact hpos

/-- The slot `psc_client_alloc` finds is in range and unused. -/
theorem freeSlot_some {s : State} {i : Nat} (h : s.freeSlot = some i) :
    i < pscMaxClients ∧ s.used i = false := by
  unfold State.freeSlot at h
  have hp := List.find?_some h
  have hm := List.mem_of_find?_eq_some h
  exact ⟨List.mem_range.mp hm, by simpa using hp⟩

theorem alloc_slotInv {s : State} (h : SlotInv s) (hk : s.phase s.cur = .accepted) :
    SlotInv (s.pscClientAlloc s.cur) := by
  generalize s.cur = k at hk
  have habs : s.phase k ≠ .absent := by rw [hk]; simp
  unfold State.pscClientAlloc
  split
  next =>
    refine h.setPhase _ habs (by simp) (fun _ => by rw [hk]; rfl) (by rw [hk]; rfl) (by simp [hk])
      (by simp) (by simp [Phase.localSock])
  next i hfree =>
    obtain ⟨hi, hunused⟩ := freeSlot_some hfree
    have hi32 : i < 32 := by
      unfold pscMaxClients at hi
      omega
    -- a connection that has a slot is another one, in another slot
    have hother : ∀ j i', (s.phase j).slot = some i' → j ≠ k ∧ i' ≠ i := by
      intro j i' hj
      constructor
      · rintro rfl
        rw [hk] at hj
        exact absurd hj (by simp [Phase.slot])
      · rintro rfl
        rw [(h.slot j i' hj).2.1] at hunused
        exact absurd hunused (by simp)
    have hslot : ∀ j i', ((s.setPhase k (.allocated i)).phase j).slot = some i' →
        (j = k ∧ i' = i) ∨ (j ≠ k ∧ i' ≠ i ∧ (s.phase j).slot = some i') := by
      intro j i' hj
      rw [phase_setPhase] at hj
      split at hj
      next hjk => exact Or.inl ⟨hjk, (Option.some.inj hj).symm⟩
      next hjk => exact Or.inr ⟨hjk, (hother j i' hj).2, hj⟩
    have hused : ∀ {t : State}, t.clientsUsed = s.clientsUsed ||| (1#32 <<< i) →
        ∀ j, j < pscMaxClients → t.used j = (s.used j || decide (j = i)) := by
      intro t ht j hj
      unfold pscMaxClients at hj
      exact used_set hi32 (by omega) ht
    constructor
    case absent => exact h.absent_setPhase habs (by simp)
    case loop => exact h.loop_setPhase fun _ => by rw [hk]; rfl
    case slot =>
      intro j i' hj
      rcases hslot j i' hj with ⟨rfl, rfl⟩ | ⟨-, hne, hj'⟩
      · exact ⟨hi, by rw [hused rfl _ hi]; simp, Function.update_self ..⟩
      · obtain ⟨h1, h2, h3⟩ := h.slot j i' hj'
        exact ⟨h1, by rw [hused rfl _ h1, h2]; rfl, (Function.update_of_ne hne ..).trans h3⟩
    case occupied =>
      intro i' hi' hu
      show ((s.setPhase k (.allocated i)).phase (Function.update s.owner i k i')).slot = some i'
      by_cases hii : i' = i
      · rw [hii, Function.update_self, phase_setPhase, if_pos rfl]
        rfl
      · rw [Function.update_of_ne hii, phase_setPhase]
        rw [hused rfl _ hi', decide_eq_false hii, Bool.or_false] at hu
        have ho := h.occupied i' hi' hu
        rw [if_neg (hother _ _ ho).1]
        exact ho
    case entry =>
      intro i' hi' hu
      by_cases hii : i' = i
      · rw [hii]
        show (Function.update s.clients i ⟨i, 0, .server⟩ i).index = i ∧
          (Function.update s.clients i ⟨i, 0, .server⟩ i).psc = .server
        rw [Function.update_self]
        exact ⟨rfl, rfl⟩
      · rw [hused rfl _ hi', decide_eq_false hii, Bool.or_false] at hu
        show (Function.update s.clients i _ i').index = i' ∧
          (Function.update s.clients i _ i').psc = _
        rw [Function.update_of_ne hii]
        exact h.entry i' hi' hu
    case sock =>
      intro j i' hj
      show (Function.update s.clients i _ i').sock = -1 ∨ (Function.update s.clients i _ i').sock
        = if (s.setPhase k (.allocated i)).phase j = .allocated i' then 0 else s.fdOf j
      rcases hslot j i' hj with ⟨rfl, rfl⟩ | ⟨hjk, hne, hj'⟩
      · rw [Function.update_self, phase_setPhase, if_pos rfl, if_pos rfl]
        exact Or.inr rfl
      · rw [Function.update_of_ne hne, phase_setPhase, if_neg hjk]
        exact h.sock j i' hj'
    case copied => exact h.copied_setPhase (by simp [Phase.localSock])
    case nonneg => exact h.nonneg

theorem assign_slotInv {s : State} (h : SlotInv s) {i : Nat} (hk : s.phase s.cur = .allocated i) :
    SlotInv ((s.setSock i (s.fdOf s.cur)).setPhase s.cur (.assigned i)) := by
  generalize s.cur = k at hk
  obtain ⟨hi, hu, ho⟩ := h.slot k i (by rw [hk]; rfl)
  have hsl : ∀ j, (((s.setSock i (s.fdOf k)).setPhase k (.assigned i)).phase j).slot
      = (s.phase j).slot := by
    intro j
    rw [phase_setPhase]
    split
    next hjk => rw [hjk, hk]; rfl
    next => rfl
  have hcl : ∀ i', ((s.setSock i (s.fdOf k)).setPhase k (.assigned i)).clients i'
      = if i' = i then { s.clients i with sock := s.fdOf k } else s.clients i' :=
    fun i' => Function.update_apply ..
  constructor
  case absent => exact h.absent_setPhase (by simp [hk]) (by simp)
  case loop => exact h.loop_setPhase fun _ => by rw [hk]; rfl
  case slot =>
    intro j i' hj
    rw [hsl] at hj
    exact h.slot j i' hj
  case occupied =>
    intro i' hi' hu'
    rw [hsl]
    exact h.occupied i' hi' hu'
  case entry =>
    intro i' hi' hu'
    rw [hcl]
    split
    next hii => rw [hii]; exact h.entry i hi hu
    next => exact h.entry i' hi' hu'
  case sock =>
    intro j i' hj
    rw [hsl] at hj
    rw [hcl, phase_setPhase]
    split
    next hii =>
      -- the slot of `k`: its owner is `k`
      have hjk : j = k := by rw [← (h.slot j i' hj).2.2, hii, ho]
      rw [if_pos hjk, if_neg (by simp), hjk]
      exact Or.inr rfl
    next hii =>
      have hjk : j ≠ k := by
        rintro rfl
        rw [hk] at hj
        exact hii (Option.some.inj hj).symm
      rw [if_neg hjk]
      exact h.sock j i' hj
  case copied => exact h.copied_setPhase (by simp [Phase.localSock])
  case nonneg => exact h.nonneg

theorem free_slotInv {s : State} (h : SlotInv s) {k i : Nat} {sock : Int}
    (hk : s.phase k = .running i sock) :
    SlotInv ((s.pscClientFree i).setPhase k (.freed sock)) := by
  obtain ⟨hi, hu, ho⟩ := h.slot k i (by rw [hk]; rfl)
  obtain ⟨hindex, -⟩ := h.entry i hi hu
  have hslot : ∀ j i', ((s.setPhase k (.freed sock)).phase j).slot = some i' →
      j ≠ k ∧ i' ≠ i ∧ (s.phase j).slot = some i' := by
    intro j i' hj
    rw [phase_setPhase] at hj
    split at hj
    next => exact absurd hj (by simp [Phase.slot])
    next hjk =>
      refine ⟨hjk, fun hii => hjk ?_, hj⟩
      rw [← (h.slot j i' hj).2.2, hii, ho]
  have hused : ∀ j, j < pscMaxClients → ((s.pscClientFree i).setPhase k (.freed sock)).used j
      = (s.used j && !decide (j = i)) := by
    intro j hj
    unfold pscMaxClients at hj
    refine used_clear (by omega) ?_
    show s.clientsUsed &&& ~~~(1#32 <<< (s.clients i).index) = _
    rw [hindex]
  constructor
  case absent => exact h.absent_setPhase (by simp [hk]) (by simp)
  case loop => exact h.loop_setPhase (by simp [Phase.inLoop])
  case slot =>
    intro j i' hj
    obtain ⟨-, hne, hj'⟩ := hslot j i' hj
    obtain ⟨h1, h2, h3⟩ := h.slot j i' hj'
    refine ⟨h1, ?_, h3⟩
    rw [hused i' h1, h2, decide_eq_false hne]
    rfl
  case occupied =>
    intro i' hi' hu'
    rw [hused i' hi'] at hu'
    obtain ⟨hus, hne⟩ : s.used i' = true ∧ i' ≠ i := by simpa using hu'
    have hoc := h.occupied i' hi' hus
    show ((s.setPhase k (.freed sock)).phase (s.owner i')).slot = some i'
    rw [phase_setPhase]
    split
    next hjk =>
      rw [hjk, hk] at hoc
      exact absurd (Option.some.inj hoc).symm hne
    next => exact hoc
  case entry =>
    intro i' hi' hu'
    rw [hused i' hi'] at hu'
    obtain ⟨hus, hne⟩ : s.used i' = true ∧ i' ≠ i := by simpa using hu'
    show (Function.update s.clients i _ i').index = i' ∧ (Function.update s.clients i _ i').psc = _
    rw [Function.update_of_ne hne]
    exact h.entry i' hi' hus
  case sock =>
    intro j i' hj
    obtain ⟨hjk, hne, hj'⟩ := hslot j i' hj
    show (Function.update s.clients i _ i').sock = -1 ∨ (Function.update s.clients i _ i').sock
      = if (s.setPhase k (.freed sock)).phase j = .allocated i' then 0 else s.fdOf j
    rw [Function.update_of_ne hne, phase_setPhase, if_neg hjk]
    exact h.sock j i' hj'
  case copied => exact h.copied_setPhase fun fd hfd => h.copied k fd (by rw [hk]; exact hfd)
  case nonneg => exact h.nonneg

/-- **Every step keeps the table invariant.** -/
theorem step_slotInv {s s' : State} {e : Event} (h : SlotInv s) (hstep : step s e = some s') :
    SlotInv s' := by
  cases step_cases hstep with
  | acceptFailed => exact h
  | accept hloop hpos _ => exact accept_slotInv h hloop hpos
  | alloc hk => exact alloc_slotInv h hk
  | drop hk =>
    refine (h.same (close_same s _ _)).setPhase .closed ?_ (by simp) (by simp [Phase.inLoop])
      ?_ ?_ (by simp) (by simp [Phase.localSock])
    all_goals
      show _
      simp [State.close, hk, Phase.slot]
  | assign hk => exact assign_slotInv h hk
  | spawn hk =>
    refine h.setPhase _ ?_ (by simp) (by simp [Phase.inLoop]) ?_ ?_ (by simp)
      (by simp [Phase.localSock])
    all_goals simp [hk, Phase.slot]
  | @copy k i hk =>
    have hsock := h.sock k i (by rw [hk]; rfl)
    rw [if_neg (by simp [hk])] at hsock
    refine h.setPhase _ ?_ (by simp) (by simp [Phase.inLoop]) ?_ ?_ (by simp) ?_
    · simp [hk]
    · simp [hk, Phase.slot]
    · simp [hk]
    · intro fd hfd
      rw [← Option.some.inj hfd]
      exact hsock
  | sendOne _ => exact h.same (pscSendOne_same ..)
  | recv _ => exact h.same (recv_same ..)
  | free hk => exact free_slotInv h hk
  | close hk =>
    refine (h.same (close_same s _ _)).setPhase .closed ?_ (by simp) (by simp [Phase.inLoop])
      ?_ ?_ (by simp) (by simp [Phase.localSock])
    all_goals
      show _
      simp [State.close, hk, Phase.slot]
  | send => exact h.same (pscSend_same ..)

/-- The table invariant holds in every reachable state. -/
theorem run_slotInv {listenSock : Int} {es : List Event} {s : State}
    (hrun : runFrom step (init listenSock) es = some s) : SlotInv s :=
  runFrom_invariant (fun _ _ _ h hs => step_slotInv h hs) (init_slotInv listenSock) hrun

end Acmi.Server
