import Acmi.Server.Sockets

/-!
# Who may close a descriptor

A descriptor is closed by its handler when the client is gone, and by a sender when a send
fails. The sender stores `-1` in the slot, but the handler has its own copy of the number:
once `handle_client` has read `C->sock`, a failed send closes the number under the handler,
which uses it again.

`CloseSafe` excludes exactly that: the sends that fail are to clients whose handler has not
read `C->sock` yet. `Owned` is the invariant of the runs that keep to it; it says for every
position of a handler whether its descriptor is still open or closed for good. Numbers may be
reused freely.
-/

namespace Acmi.Server

open Acmi.Lib Acmi.Psc

/-! ## The condition -/

/-- The send to slot `i` succeeds, or the handler has no copy of the number yet. In the
window before the assignment the number is `0`, which then may be no client's. -/
def SlotSafe (s : State) (m : Frame) (net : Nat → SendAns) (i : Nat) : Prop :=
  (pscSendmsg net m.msgid m.body ⟨[], 0⟩).1 = none ∨
  match s.phase (s.owner i) with
  | .assigned _ | .created _ => True
  | .allocated _ => ∀ k, s.fds 0 ≠ some (.conn k)
  | _ => False

/-- No sender closes a descriptor that a handler has a copy of. -/
def CloseSafe (s : State) : Event → Prop
  | .send m nets => ∀ i, i < pscMaxClients → Reaches s i → SlotSafe s m (nets i) i
  | .sendOne k m net => ∀ i sock, s.phase k = .running i sock → Reaches s i → SlotSafe s m net i
  | _ => True

/-! ## The uses of a number -/

/-- The calls made for connection `k` on the number `accept` returned for it, latest first. -/
def State.uses (s : State) (k : Nat) : List Call :=
  s.calls.filter fun c => c.who = k ∧ c.fd = s.fdOf k

/-- None of the calls is a `close`. -/
def NoClose (cs : List Call) : Prop := ∀ c ∈ cs, c.op ≠ .close

/-- The connection is open, and nobody has closed its number for it. -/
def Unclosed (s : State) (k : Nat) : Prop :=
  s.fds (s.fdOf k) = some (.conn k) ∧ NoClose (s.uses k)

/-- The connection was closed once, and its number has not been used for it since. -/
def ClosedOnce (s : State) (k : Nat) : Prop :=
  ∃ earlier, s.uses k = ⟨.close, s.fdOf k, k, some (.conn k)⟩ :: earlier ∧ NoClose earlier

theorem uses_cons {s s' : State} {k : Nat} {c : Call} (hcalls : s'.calls = c :: s.calls)
    (hfd : s'.fdOf k = s.fdOf k) :
    s'.uses k = if c.who = k ∧ c.fd = s.fdOf k then c :: s.uses k else s.uses k := by
  unfold State.uses
  rw [hcalls, List.filter_cons, hfd]
  simp only [decide_eq_true_eq]

theorem uses_congr {s s' : State} {k : Nat} (hcalls : s'.calls = s.calls)
    (hfd : s'.fdOf k = s.fdOf k) : s'.uses k = s.uses k := by
  unfold State.uses
  rw [hcalls, hfd]

/-- Calls made for another connection are no uses. -/
theorem uses_append {s s' : State} {k : Nat} {new : List Call}
    (hcalls : s'.calls = new ++ s.calls) (hfd : s'.fdOf k = s.fdOf k)
    (hnew : ∀ c ∈ new, c.who ≠ k) : s'.uses k = s.uses k := by
  unfold State.uses
  rw [hcalls, List.filter_append, hfd, List.filter_eq_nil_iff.mpr, List.nil_append]
  intro c hc
  simp [hnew c hc]

/-- A call that is no `close` leaves an open connection open. -/
theorem Unclosed.call {s s' : State} {k : Nat} {c : Call} (h : Unclosed s k)
    (hcalls : s'.calls = c :: s.calls) (hfd : s'.fdOf k = s.fdOf k)
    (hfds : s'.fds (s.fdOf k) = s.fds (s.fdOf k)) (hop : c.op ≠ .close ∨ c.fd ≠ s.fdOf k) :
    Unclosed s' k := by
  refine ⟨by rw [hfd, hfds]; exact h.1, ?_⟩
  rw [uses_cons hcalls hfd]
  split
  next hc =>
    intro c' hc'
    rcases List.mem_cons.mp hc' with rfl | hmem
    · exact hop.resolve_right fun hne => hne hc.2
    · exact h.2 c' hmem
  next => exact h.2

/-- Closing an open connection's number. -/
theorem Unclosed.close {s s' : State} {k : Nat} {fd : Int} (h : Unclosed s k)
    (hcalls : s'.calls = ⟨.close, fd, k, s.fds fd⟩ :: s.calls) (hnum : fd = s.fdOf k)
    (hfd : s'.fdOf k = s.fdOf k) : ClosedOnce s' k := by
  subst hnum
  refine ⟨s.uses k, ?_, h.2⟩
  rw [uses_cons hcalls hfd, if_pos ⟨rfl, rfl⟩, h.1, hfd]

/-- A call on another number leaves a closed connection closed. -/
theorem ClosedOnce.call {s s' : State} {k : Nat} {c : Call} (h : ClosedOnce s k)
    (hcalls : s'.calls = c :: s.calls) (hfd : s'.fdOf k = s.fdOf k) (hne : c.fd ≠ s.fdOf k) :
    ClosedOnce s' k := by
  obtain ⟨earlier, huses, hno⟩ := h
  refine ⟨earlier, ?_, hno⟩
  rw [uses_cons hcalls hfd, if_neg (fun hc => hne hc.2), huses, hfd]

/-! ## The invariant -/

/-- What the position of the program says about connection `k`. The slot's `sock` and the
handler's copy are its number while it is open, and `-1` once a sender has closed it. -/
def OwnedAt (s : State) (k : Nat) : Phase → Prop
  | .absent => ∀ c ∈ s.calls, c.who ≠ k
  | .accepted | .refused | .allocated _ => Unclosed s k
  | .assigned i | .created i =>
    ((s.clients i).sock = s.fdOf k ∧ Unclosed s k) ∨ ((s.clients i).sock = -1 ∧ ClosedOnce s k)
  | .running i sock =>
    ((s.clients i).sock = s.fdOf k ∧ sock = s.fdOf k ∧ Unclosed s k) ∨
    ((s.clients i).sock = -1 ∧ sock = -1 ∧ ClosedOnce s k)
  | .freed sock => (sock = s.fdOf k ∧ Unclosed s k) ∨ (sock = -1 ∧ ClosedOnce s k)
  | .closed => ClosedOnce s k

/-- The tables agree, every connection is where its position says, and a `recv` or `close`
that reached a connection was made for it, on its number. -/
structure Owned (s : State) : Prop where
  slots : SlotInv s
  conns : ConnInv s
  each : ∀ k, OwnedAt s k (s.phase k)
  hits : ∀ c ∈ s.calls, c.op ≠ .send → ∀ k, c.hit = some (.conn k) → c.who = k ∧ c.fd = s.fdOf k

/-- A connection that a step is not about stays as it is. -/
theorem OwnedAt.frame {s s' : State} {k : Nat} {p : Phase} (h : OwnedAt s k p) (hp : p ≠ .absent)
    (hfd : s'.fdOf k = s.fdOf k)
    (hopen : s.fds (s.fdOf k) = some (.conn k) → s'.fds (s.fdOf k) = some (.conn k))
    (huses : s'.uses k = s.uses k)
    (hsock : ∀ i, p.assignedSlot = some i → (s'.clients i).sock = (s.clients i).sock) :
    OwnedAt s' k p := by
  have hun : Unclosed s k → Unclosed s' k := fun hu =>
    ⟨by rw [hfd]; exact hopen hu.1, by rw [huses]; exact hu.2⟩
  have hone : ClosedOnce s k → ClosedOnce s' k := fun ⟨earlier, he, hno⟩ =>
    ⟨earlier, by rw [huses, hfd]; exact he, hno⟩
  cases p with
  | absent => exact absurd rfl hp
  | accepted | refused | allocated i => exact hun h
  | assigned i | created i =>
    simp only [OwnedAt] at h ⊢
    rw [hsock i rfl, hfd]
    exact h.imp (And.imp id hun) (And.imp id hone)
  | running i sock =>
    simp only [OwnedAt] at h ⊢
    rw [hsock i rfl, hfd]
    exact h.imp (And.imp id (And.imp id hun)) (And.imp id (And.imp id hone))
  | freed sock =>
    simp only [OwnedAt] at h ⊢
    rw [hfd]
    exact h.imp (And.imp id hun) (And.imp id hone)
  | closed => exact hone h

/-- **A step about connection `j`** keeps the invariant when it leaves the others' numbers
and slots alone and `j` ends up where its new position says. -/
theorem Owned.about {s s' : State} (h : Owned s) {j : Nat} (new : List Call)
    (hslots : SlotInv s') (hconns : ConnInv s') (hcalls : s'.calls = new ++ s.calls)
    (hwho : ∀ c ∈ new, c.who = j) (hfd : ∀ k, s.phase k ≠ .absent → s'.fdOf k = s.fdOf k)
    (hphase : ∀ k, k ≠ j → s'.phase k = s.phase k)
    (hopen : ∀ k, k ≠ j → s.fds (s.fdOf k) = some (.conn k) →
      s'.fds (s.fdOf k) = some (.conn k))
    (hsock : ∀ k, k ≠ j → ∀ i, (s.phase k).assignedSlot = some i →
      (s'.clients i).sock = (s.clients i).sock)
    (hj : OwnedAt s' j (s'.phase j))
    (hhits : ∀ c ∈ new, c.op ≠ .send → ∀ k, c.hit = some (.conn k) → k = j ∧ c.fd = s'.fdOf k) :
    Owned s' := by
  refine ⟨hslots, hconns, fun k => ?_, fun c hc hop k hk => ?_⟩
  · by_cases hkj : k = j
    · rw [hkj]
      exact hj
    · rw [hphase k hkj]
      have hnew : ∀ c ∈ new, c.who ≠ k := fun c hc e => hkj (e.symm.trans (hwho c hc))
      by_cases hp : s.phase k = .absent
      · have habs := h.each k
        rw [hp] at habs ⊢
        intro c hc
        rw [hcalls] at hc
        exact (List.mem_append.mp hc).elim (hnew c) (habs c)
      · exact (h.each k).frame hp (hfd k hp) (hopen k hkj) (uses_append hcalls (hfd k hp) hnew)
          (hsock k hkj)
  · rw [hcalls] at hc
    rcases List.mem_append.mp hc with hn | ho
    · obtain ⟨hkj, hcfd⟩ := hhits c hn hop k hk
      exact ⟨(hwho c hn).trans hkj.symm, hcfd⟩
    · obtain ⟨hw, hcfd⟩ := h.hits c ho hop k hk
      have hp : s.phase k ≠ .absent := by
        intro hp
        have habs := h.each k
        rw [hp] at habs
        exact habs c ho hw
      exact ⟨hw, by rw [hfd k hp]; exact hcfd⟩

theorem init_owned (listenSock : Int) : Owned (init listenSock) :=
  ⟨init_slotInv listenSock, init_connInv listenSock, fun _ _ h => absurd h List.not_mem_nil,
    fun _ h => absurd h List.not_mem_nil⟩

/-! ## One round of a sender -/

/-- A slot that is reached belongs to an open connection; its `sock` is that connection's
number, or the `0` of the window. -/
theorem Owned.reached {s : State} (h : Owned s) {i : Nat} (hi : i < pscMaxClients)
    (hr : Reaches s i) : Unclosed s (s.owner i) ∧
      ((∃ j, s.phase (s.owner i) = .allocated j) ∧ (s.clients i).sock = 0 ∨
        (s.phase (s.owner i)).assignedSlot = some i ∧
          (s.clients i).sock = s.fdOf (s.owner i)) := by
  have hslot := h.slots.occupied i hi hr.1
  have hsock := (h.slots.sock _ i hslot).resolve_left hr.2
  have hat := h.each (s.owner i)
  cases hp : s.phase (s.owner i) with
  | allocated j =>
    rw [hp] at hslot hat hsock
    obtain rfl : j = i := Option.some.inj hslot
    rw [if_pos rfl] at hsock
    exact ⟨hat, Or.inl ⟨⟨j, rfl⟩, hsock⟩⟩
  | assigned j | created j =>
    rw [hp] at hslot hat
    obtain rfl : j = i := Option.some.inj hslot
    rcases hat with ⟨hs, hu⟩ | ⟨hs, -⟩
    · exact ⟨hu, Or.inr ⟨rfl, hs⟩⟩
    · exact absurd hs hr.2
  | running j sock =>
    rw [hp] at hslot hat
    obtain rfl : j = i := Option.some.inj hslot
    rcases hat with ⟨hs, -, hu⟩ | ⟨hs, -⟩
    · exact ⟨hu, Or.inr ⟨rfl, hs⟩⟩
    · exact absurd hs hr.2
  | absent | accepted | refused | freed sock | closed =>
    rw [hp] at hslot
    exact absurd hslot (by simp [Phase.slot])

/-- An open connection that makes a further call keeps its place. -/
theorem OwnedAt.call {s s' : State} {k : Nat} {p : Phase} (h : OwnedAt s k p)
    (hp : p.slot ≠ none) (hun : Unclosed s k) (hun' : Unclosed s' k)
    (hsock : ∀ i, p.assignedSlot = some i → (s'.clients i).sock = s.fdOf k)
    (hfd : s'.fdOf k = s.fdOf k) : OwnedAt s' k p := by
  cases p with
  | allocated i => exact hun'
  | assigned i | created i => exact Or.inl ⟨by rw [hfd]; exact hsock i rfl, hun'⟩
  | running i sock =>
    refine Or.inl ⟨by rw [hfd]; exact hsock i rfl, ?_, hun'⟩
    rcases h with ⟨-, hs, -⟩ | ⟨-, -, earlier, huses, -⟩
    · rw [hfd]
      exact hs
    · -- an open connection has not been closed
      refine absurd rfl (hun.2 ⟨.close, s.fdOf k, k, some (.conn k)⟩ ?_)
      rw [huses]
      exact List.mem_cons_self
  | absent | accepted | refused | freed sock | closed => exact absurd rfl hp

/-- Where the condition allows a send on an open connection to fail: the handler has not read
`C->sock` yet. -/
theorem Owned.cut_owner {s : State} (h : Owned s) {i k : Nat} (hi : i < pscMaxClients)
    (hr : Reaches s i) (hfd : s.fds (s.clients i).sock = some (.conn k))
    (hplace : match s.phase (s.owner i) with
      | .assigned _ | .created _ => True
      | .allocated _ => ∀ k, s.fds 0 ≠ some (.conn k)
      | _ => False) :
    s.phase (s.owner i) = .assigned i ∨ s.phase (s.owner i) = .created i := by
  have hslot := h.slots.occupied i hi hr.1
  obtain ⟨-, hwhere⟩ := h.reached hi hr
  cases hp : s.phase (s.owner i) with
  | assigned j =>
    rw [hp] at hslot
    exact Or.inl (by rw [Option.some.inj hslot])
  | created j =>
    rw [hp] at hslot
    exact Or.inr (by rw [Option.some.inj hslot])
  | allocated j =>
    rw [hp] at hplace hwhere
    rcases hwhere with ⟨-, hs⟩ | ⟨hn, -⟩
    · exact absurd (hs ▸ hfd) (hplace k)
    · exact absurd hn (by simp [Phase.assignedSlot])
  | absent | accepted | refused | running j sock | freed sock | closed =>
    rw [hp] at hplace
    exact hplace.elim

/-- The connection a reached slot is assigned to, if it is, has the slot's `sock` as number. -/
theorem Owned.reached_assigned {s : State} (h : Owned s) {i : Nat} (hi : i < pscMaxClients)
    (hr : Reaches s i) {j : Nat} (hj : (s.phase (s.owner i)).assignedSlot = some j) :
    j = i ∧ (s.clients i).sock = s.fdOf (s.owner i) := by
  obtain ⟨-, ⟨⟨j', hall⟩, -⟩ | ⟨hi', hs⟩⟩ := h.reached hi hr
  · rw [hall] at hj
    exact absurd hj (by simp [Phase.assignedSlot])
  · exact ⟨Option.some.inj (hj.symm.trans hi'), hs⟩

/-- **A step of a sender at slot `i`** is one about the slot's owner: it makes calls for it,
closes no other connection and changes no other slot. -/
theorem Owned.sender {s s' : State} (h : Owned s) {i : Nat} (hi : i < pscMaxClients)
    (hr : Reaches s i) (new : List Call) (hsame : SameTable s s')
    (hcalls : s'.calls = new ++ s.calls) (hwho : ∀ c ∈ new, c.who = s.owner i)
    (hopen : ∀ k, k ≠ s.owner i → s.fds (s.fdOf k) = some (.conn k) →
      s'.fds (s.fdOf k) = some (.conn k))
    (hclients : ∀ j, j ≠ i → s'.clients j = s.clients j)
    (howner : OwnedAt s' (s.owner i) (s.phase (s.owner i)))
    (hhits : ∀ c ∈ new, c.op ≠ .send → ∀ k, c.hit = some (.conn k) →
      k = s.owner i ∧ c.fd = s.fdOf k) : Owned s' := by
  refine h.about new (h.slots.same hsame) (h.conns.shrink hsame.next hsame.fdOf hsame.fds) hcalls
    hwho (fun k _ => congrFun hsame.fdOf k) (fun k _ => congrFun hsame.phase k) hopen
    (fun k hk j hj => ?_) (by rw [hsame.phase]; exact howner) (by rw [hsame.fdOf]; exact hhits)
  rw [hclients]
  rintro rfl
  exact hk (h.slots.slot k j (slot_of_assignedSlot hj).1).2.2.symm

/-- A send that gets through. -/
theorem Owned.send_whole {s : State} (h : Owned s) {i k : Nat} (hi : i < pscMaxClients)
    (hr : Reaches s i) (m : Frame) (net : Nat → SendAns)
    (hsame : SameTable s (s.sent (s.clients i).sock (s.owner i) k m net)) :
    Owned (s.sent (s.clients i).sock (s.owner i) k m net) := by
  obtain ⟨hopen, -⟩ := h.reached hi hr
  have hslot := h.slots.occupied i hi hr.1
  refine h.sender hi hr [⟨.send, _, _, _⟩] hsame rfl (by simp) (fun _ _ ho => ho)
    (fun _ _ => rfl) ?_ (by simp)
  refine (h.each _).call (by rw [hslot]; simp) hopen
    (hopen.call (c := ⟨.send, _, _, _⟩) rfl rfl rfl (Or.inl (by simp))) (fun j hj => ?_) rfl
  rw [(h.reached_assigned hi hr hj).1]
  exact (h.reached_assigned hi hr hj).2

/-- A send that fails before the handler has read `C->sock`: the sender's `close` is the one
close, and the handler will read `-1`. -/
theorem Owned.send_cut {s : State} (h : Owned s) {i k : Nat} (hi : i < pscMaxClients)
    (hr : Reaches s i) (m : Frame) (net : Nat → SendAns)
    (hfd : s.fds (s.clients i).sock = some (.conn k))
    (hown : s.phase (s.owner i) = .assigned i ∨ s.phase (s.owner i) = .created i)
    (hsame : SameTable s (((s.sent (s.clients i).sock (s.owner i) k m net).close
      (s.clients i).sock (s.owner i)).setSock i (-1))) :
    Owned (((s.sent (s.clients i).sock (s.owner i) k m net).close
      (s.clients i).sock (s.owner i)).setSock i (-1)) := by
  obtain ⟨hopen, -⟩ := h.reached hi hr
  have hs : (s.clients i).sock = s.fdOf (s.owner i) := by
    rcases hown with hp | hp <;> exact (h.reached_assigned hi hr (by rw [hp]; rfl)).2
  have hk : k = s.owner i := by
    rw [hs, hopen.1] at hfd
    simpa using hfd.symm
  have hsent : Unclosed (s.sent (s.clients i).sock (s.owner i) k m net) (s.owner i) :=
    hopen.call (c := ⟨.send, _, _, _⟩) rfl rfl rfl (Or.inl (by simp))
  refine h.sender hi hr [⟨.close, _, _, _⟩, ⟨.send, _, _, _⟩] hsame rfl (by simp)
    (fun l hl ho => ?_) (fun j hj => Function.update_of_ne hj ..) ?_ ?_
  · refine (Function.update_of_ne (fun e => hl ?_) ..).trans ho
    rw [e, hfd, hk] at ho
    simpa using ho.symm
  · have hsock : (Function.update s.clients i { s.clients i with sock := -1 } i).sock = -1 := by
      rw [Function.update_self]
    have hclosed : ClosedOnce (((s.sent (s.clients i).sock (s.owner i) k m net).close
        (s.clients i).sock (s.owner i)).setSock i (-1)) (s.owner i) := hsent.close rfl hs rfl
    rcases hown with hp | hp <;> rw [hp] <;> exact Or.inr ⟨hsock, hclosed⟩
  · intro c hc hop l hl
    rcases List.mem_cons.mp hc with rfl | hc
    · have hkl : k = l := by
        have hl' : s.fds (s.clients i).sock = some (.conn l) := hl
        rw [hfd] at hl'
        simpa using hl'
      refine ⟨hkl ▸ hk, ?_⟩
      rw [← hkl, hk]
      exact hs
    · rw [List.mem_singleton.mp hc] at hop
      exact absurd rfl hop

/-- A send to a number that is no connection's: only possible in the window, where the number
is `0`, and closing that harms no client. -/
theorem Owned.send_foreign {s : State} (h : Owned s) {i : Nat} (hi : i < pscMaxClients)
    (hr : Reaches s i) (hfd : ∀ k, s.fds (s.clients i).sock ≠ some (.conn k))
    (hsame : SameTable s ((State.close { s with
      calls := ⟨.send, (s.clients i).sock, s.owner i, s.fds (s.clients i).sock⟩ :: s.calls }
      (s.clients i).sock (s.owner i)).setSock i (-1))) :
    Owned ((State.close { s with
      calls := ⟨.send, (s.clients i).sock, s.owner i, s.fds (s.clients i).sock⟩ :: s.calls }
      (s.clients i).sock (s.owner i)).setSock i (-1)) := by
  obtain ⟨hopen, ⟨⟨j, hp⟩, hs⟩ | ⟨-, hs⟩⟩ := h.reached hi hr
  · have hnz : ∀ k, s.fds (s.fdOf k) = some (.conn k) → s.fdOf k ≠ (s.clients i).sock := by
      intro k hk he
      rw [he] at hk
      exact hfd k hk
    refine h.sender hi hr [⟨.close, _, _, _⟩, ⟨.send, _, _, _⟩] hsame rfl (by simp)
      (fun k _ ho => (Function.update_of_ne (hnz k ho) ..).trans ho)
      (fun j hj => Function.update_of_ne hj ..) ?_ ?_
    · rw [hp]
      have hsent : Unclosed { s with
          calls := ⟨.send, (s.clients i).sock, s.owner i, s.fds (s.clients i).sock⟩ :: s.calls }
          (s.owner i) := hopen.call rfl rfl rfl (Or.inl (by simp))
      exact hsent.call (c := ⟨.close, (s.clients i).sock, s.owner i, _⟩) rfl rfl
        (Function.update_of_ne (hnz _ hopen.1) ..) (Or.inr (hnz _ hopen.1).symm)
    · intro c hc hop k hk
      rcases List.mem_cons.mp hc with rfl | hc
      · exact absurd hk (hfd k)
      · rw [List.mem_singleton.mp hc] at hop
        exact absurd rfl hop
  · rw [hs] at hfd
    exact absurd hopen.1 (hfd _)

/-- **A safe round keeps the invariant.** -/
theorem Owned.round {s : State} (h : Owned s) {i : Nat} (hi : i < pscMaxClients) (m : Frame)
    (nets : Nat → Nat → SendAns) (hsafe : Reaches s i → SlotSafe s m (nets i) i) :
    Owned (State.sendSlot m nets s i) := by
  by_cases hr : Reaches s i
  · have hround := sendClient_cases s m (nets i) i
    have hsame := sendClient_same s m (nets i) i
    rw [sendSlot_of_reaches hr]
    generalize s.sendClient m (nets i) i = s' at hround hsame ⊢
    cases hround with
    | whole _ _ => exact h.send_whole hi hr m (nets i) hsame
    | cut hfd hfail =>
      exact h.send_cut hi hr m (nets i) hfd
        (h.cut_owner hi hr hfd ((hsafe hr).resolve_left hfail)) hsame
    | foreign hfd => exact h.send_foreign hi hr hfd hsame
  · rw [sendSlot_of_not_reaches hr]
    exact h

/-! ## Steps and runs -/

/-- A handler's copy is its connection's number while that is open, and `-1` afterwards. -/
theorem Owned.copy {s : State} (h : Owned s) {k : Nat} {sock : Int}
    (hk : (s.phase k).localSock = some sock) :
    (sock = s.fdOf k ∧ Unclosed s k) ∨ (sock = -1 ∧ -1 ≠ s.fdOf k ∧ ClosedOnce s k) := by
  have hat := h.each k
  have hneg : -1 ≠ s.fdOf k := by
    have hpos := h.slots.nonneg k (h.slots.lt_next fun hp => by simp [hp, Phase.localSock] at hk)
    omega
  cases hp : s.phase k with
  | running i fd =>
    rw [hp] at hk hat
    obtain rfl : fd = sock := Option.some.inj hk
    exact hat.imp (fun ha => ha.2) fun ha => ⟨ha.2.1, hneg, ha.2.2⟩
  | freed fd =>
    rw [hp] at hk hat
    obtain rfl : fd = sock := Option.some.inj hk
    exact hat.imp id fun ha => ⟨ha.1, hneg, ha.2⟩
  | absent | accepted | refused | allocated i | assigned i | created i | closed =>
    rw [hp] at hk
    exact absurd hk (by simp [Phase.localSock])

/-- What a handler reaches through its copy is its own connection. -/
theorem Owned.copy_hits {s : State} (h : Owned s) {k l : Nat} {sock : Int}
    (hk : (s.phase k).localSock = some sock) (hl : s.fds sock = some (.conn l)) :
    l = k ∧ sock = s.fdOf l := by
  refine ⟨?_, (h.conns _ _ hl).2⟩
  rcases h.copy hk with ⟨rfl, hopen, -⟩ | ⟨rfl, -⟩
  · rw [hopen] at hl
    simpa using hl.symm
  · obtain ⟨hlt, he⟩ := h.conns _ _ hl
    have hpos := h.slots.nonneg l hlt
    omega

/-- A new connection gets a number that is no connection's. -/
theorem accept_owned {s : State} (h : Owned s) {fd : Int} (hfree : s.fds fd = none)
    (hslots : SlotInv (s.opened fd)) (hconns : ConnInv (s.opened fd)) : Owned (s.opened fd) := by
  have hnew : s.phase s.next = .absent := (h.slots.absent _).mpr (Nat.le_refl _)
  refine h.about (j := s.next) [] hslots hconns rfl (by simp) (fun k hk => ?_)
    (fun k hk => ?_) (fun k _ ho => ?_) (fun _ _ _ _ => rfl) ?_ (by simp)
  · rw [opened_fdOf, if_neg (Nat.ne_of_lt (h.slots.lt_next hk))]
  · rw [opened_phase, if_neg hk]
  · rw [opened_fds, if_neg (fun e => by rw [e, hfree] at ho; exact absurd ho (by simp))]
    exact ho
  · have hat := h.each s.next
    rw [hnew] at hat
    rw [opened_phase, if_pos rfl]
    refine ⟨by rw [opened_fdOf, if_pos rfl, opened_fds, if_pos rfl], fun c hc => ?_⟩
    have hc' := List.mem_filter.mp hc
    simp only [decide_eq_true_eq] at hc'
    exact absurd hc'.2.1 (hat c hc'.1)

theorem alloc_owned {s : State} (h : Owned s) (hcur : s.phase s.cur = .accepted)
    (hslots : SlotInv (s.pscClientAlloc s.cur)) (hconns : ConnInv (s.pscClientAlloc s.cur)) :
    Owned (s.pscClientAlloc s.cur) := by
  obtain ⟨⟨p, hp, hphase⟩, hfd, hfds, hcalls, -, hclients⟩ := alloc_frame h.slots
  have hat := h.each s.cur
  rw [hcur] at hat
  have hun : Unclosed (s.pscClientAlloc s.cur) s.cur := by
    unfold Unclosed
    rw [hfds, hfd, uses_congr hcalls (congrFun hfd _)]
    exact hat
  refine h.about (j := s.cur) [] hslots hconns hcalls (by simp)
    (fun k _ => congrFun hfd k) (fun k hk => by rw [hphase, if_neg hk])
    (fun k _ ho => by rw [hfds]; exact ho)
    (fun k _ i hi => by rw [hclients k i (slot_of_assignedSlot hi).1]) ?_ (by simp)
  rw [hphase, if_pos rfl]
  rcases hp with rfl | ⟨i, rfl⟩
  · exact hun
  · exact hun

theorem drop_owned {s : State} (h : Owned s) (hcur : s.phase s.cur = .refused)
    (hslots : SlotInv ((s.close (s.fdOf s.cur) s.cur).setPhase s.cur .closed))
    (hconns : ConnInv ((s.close (s.fdOf s.cur) s.cur).setPhase s.cur .closed)) :
    Owned ((s.close (s.fdOf s.cur) s.cur).setPhase s.cur .closed) := by
  have hat := h.each s.cur
  rw [hcur] at hat
  have hown : ∀ k, s.fds (s.fdOf s.cur) = some (.conn k) → k = s.cur := by
    intro k hk
    rw [hat.1] at hk
    simpa using hk.symm
  refine h.about (j := s.cur) [⟨.close, _, _, _⟩] hslots hconns rfl (by simp)
    (fun _ _ => rfl) (fun k hk => by rw [phase_setPhase, if_neg hk]; rfl) (fun k hk ho => ?_)
    (fun _ _ _ _ => rfl) ?_ ?_
  · have hne : s.fdOf k ≠ s.fdOf s.cur := fun e => hk (hown k (e ▸ ho))
    exact (Function.update_of_ne hne ..).trans ho
  · rw [phase_setPhase, if_pos rfl]
    exact hat.close rfl rfl rfl
  · intro c hc _ k hk
    rw [List.mem_singleton.mp hc] at hk ⊢
    exact ⟨hown k hk, by rw [hown k hk]; rfl⟩

theorem assign_owned {s : State} (h : Owned s) {i : Nat} (hcur : s.phase s.cur = .allocated i)
    (hslots : SlotInv ((s.setSock i (s.fdOf s.cur)).setPhase s.cur (.assigned i)))
    (hconns : ConnInv ((s.setSock i (s.fdOf s.cur)).setPhase s.cur (.assigned i))) :
    Owned ((s.setSock i (s.fdOf s.cur)).setPhase s.cur (.assigned i)) := by
  have hat := h.each s.cur
  rw [hcur] at hat
  refine h.about (j := s.cur) [] hslots hconns rfl (by simp) (fun _ _ => rfl)
    (fun k hk => by rw [phase_setPhase, if_neg hk]; rfl) (fun _ _ ho => ho) (fun k hk j hj => ?_)
    ?_ (by simp)
  · show (Function.update s.clients i _ j).sock = _
    rw [Function.update_of_ne (h.slots.slot_ne (by rw [hcur]; rfl) hk hj)]
  · rw [phase_setPhase, if_pos rfl]
    refine Or.inl ⟨?_, hat⟩
    show (Function.update s.clients i { s.clients i with sock := s.fdOf s.cur } i).sock = _
    rw [Function.update_self]
    rfl

/-- The accept loop and the handler move on without touching a socket. -/
theorem move_owned {s : State} (h : Owned s) {k : Nat} {p : Phase}
    (hslots : SlotInv (s.setPhase k p)) (hconns : ConnInv (s.setPhase k p))
    (hat : OwnedAt s k p) : Owned (s.setPhase k p) := by
  refine h.about (j := k) [] hslots hconns rfl (by simp) (fun _ _ => rfl)
    (fun l hl => by rw [phase_setPhase, if_neg hl]) (fun _ _ ho => ho) (fun _ _ _ _ => rfl) ?_
    (by simp)
  rw [phase_setPhase, if_pos rfl]
  -- the calls, the numbers and the clients are those of `s`
  cases p <;> exact hat

theorem recv_owned {s : State} (h : Owned s) {k i : Nat} {sock : Int}
    (hk : s.phase k = .running i sock) (hslots : SlotInv (s.recv sock k))
    (hconns : ConnInv (s.recv sock k)) : Owned (s.recv sock k) := by
  have hloc : (s.phase k).localSock = some sock := by rw [hk]; rfl
  have hat := h.each k
  rw [hk] at hat
  refine h.about (j := k) [⟨.recv, _, _, _⟩] hslots hconns rfl (by simp) (fun _ _ => rfl)
    (fun _ _ => rfl) (fun _ _ ho => ho) (fun _ _ _ _ => rfl) ?_ ?_
  · show OwnedAt _ k (s.phase k)
    rw [hk]
    rcases h.copy hloc with ⟨hs, hun⟩ | ⟨hs, hneg, hone⟩
    · -- the copy is an open connection's number, so the slot's `sock` is, too
      rcases hat with ⟨hs', -, -⟩ | ⟨-, hs', -⟩
      · exact Or.inl ⟨hs', hs, hun.call (c := ⟨.recv, _, _, _⟩) rfl rfl rfl (Or.inl (by simp))⟩
      · have hpos := h.slots.nonneg k (h.slots.lt_next (by rw [hk]; simp))
        omega
    · rcases hat with ⟨-, hs', -⟩ | ⟨hs', -, -⟩
      · exact absurd (hs.symm.trans hs') hneg
      · exact Or.inr ⟨hs', hs, hone.call (c := ⟨.recv, _, _, _⟩) rfl rfl (hs ▸ hneg)⟩
  · intro c hc _ l hl
    rw [List.mem_singleton.mp hc] at hl ⊢
    exact h.copy_hits hloc hl

theorem free_owned {s : State} (h : Owned s) {k i : Nat} {sock : Int}
    (hk : s.phase k = .running i sock)
    (hslots : SlotInv ((s.pscClientFree i).setPhase k (.freed sock)))
    (hconns : ConnInv ((s.pscClientFree i).setPhase k (.freed sock))) :
    Owned ((s.pscClientFree i).setPhase k (.freed sock)) := by
  have hat := h.each k
  rw [hk] at hat
  refine h.about (j := k) [] hslots hconns rfl (by simp) (fun _ _ => rfl)
    (fun l hl => by rw [phase_setPhase, if_neg hl]; rfl) (fun _ _ ho => ho) (fun l hl j hj => ?_)
    ?_ (by simp)
  · show (Function.update s.clients i _ j).sock = _
    rw [Function.update_of_ne (h.slots.slot_ne (by rw [hk]; rfl) hl hj)]
  · rw [phase_setPhase, if_pos rfl]
    exact hat.imp (fun ha => ha.2) fun ha => ha.2

theorem close_owned {s : State} (h : Owned s) {k : Nat} {sock : Int}
    (hk : s.phase k = .freed sock) (hslots : SlotInv ((s.close sock k).setPhase k .closed))
    (hconns : ConnInv ((s.close sock k).setPhase k .closed)) :
    Owned ((s.close sock k).setPhase k .closed) := by
  have hloc : (s.phase k).localSock = some sock := by rw [hk]; rfl
  refine h.about (j := k) [⟨.close, _, _, _⟩] hslots hconns rfl (by simp)
    (fun _ _ => rfl) (fun l hl => by rw [phase_setPhase, if_neg hl]; rfl) (fun l hl ho => ?_)
    (fun _ _ _ _ => rfl) ?_ ?_
  · exact (Function.update_of_ne (fun e => hl (h.copy_hits hloc (e ▸ ho)).1) ..).trans ho
  · rw [phase_setPhase, if_pos rfl]
    rcases h.copy hloc with ⟨hs, hun⟩ | ⟨hs, hneg, hone⟩
    · exact hun.close rfl hs rfl
    · -- a sender has closed the number, and the handler closes `-1`
      exact hone.call (c := ⟨.close, _, _, _⟩) rfl rfl (hs ▸ hneg)
  · intro c hc _ l hl
    rw [List.mem_singleton.mp hc] at hl ⊢
    exact h.copy_hits hloc hl

/-- A broadcast, round by round. The condition speaks of the state at its start; what it says
of a slot still holds when the slot's round comes. -/
theorem send_owned {s : State} (h : Owned s) {m : Frame} {nets : Nat → Nat → SendAns}
    (hsafe : ∀ i, i < pscMaxClients → Reaches s i → SlotSafe s m (nets i) i) :
    Owned (s.pscSend m nets) := by
  refine pscSend_rule (P := fun _ t => Owned t) h fun n t hn hsame hclients ht => ?_
  refine ht.round hn m nets fun hr => ?_
  have hrs : Reaches s n := ⟨by rw [← hsame.used]; exact hr.1, by rw [← hclients]; exact hr.2⟩
  refine (hsafe n hn hrs).imp id fun hplace => ?_
  rw [hsame.phase, hsame.owner]
  cases hp : s.phase (s.owner n) with
  | assigned i | created i => trivial
  | allocated i =>
    rw [hp] at hplace
    intro k
    rcases hsame.fds 0 with he | he
    · rw [he]
      exact hplace k
    · rw [he]
      simp
  | absent | accepted | refused | running i sock | freed sock | closed =>
    rw [hp] at hplace
    exact hplace

/-- **Every step that keeps to the condition keeps the invariant.** -/
theorem step_owned {s s' : State} {e : Event} (h : Owned s) (hsafe : CloseSafe s e)
    (hstep : step s e = some s') : Owned s' := by
  have hslots := step_slotInv h.slots hstep
  have hconns := step_connInv h.conns hstep
  cases step_cases hstep with
  | acceptFailed => exact h
  | accept _ _ hfree => exact accept_owned h hfree hslots hconns
  | alloc hcur => exact alloc_owned h hcur hslots hconns
  | drop hcur => exact drop_owned h hcur hslots hconns
  | assign hcur => exact assign_owned h hcur hslots hconns
  | spawn hcur =>
    have hat := h.each s.cur
    rw [hcur] at hat
    exact move_owned h hslots hconns hat
  | @copy k i hk =>
    have hat := h.each k
    rw [hk] at hat
    refine move_owned h hslots hconns ?_
    rcases hat with ⟨hs, hun⟩ | ⟨hs, hone⟩
    · exact Or.inl ⟨hs, hs, hun⟩
    · exact Or.inr ⟨hs, hs, hone⟩
  | @sendOne k i sock m net hk =>
    obtain ⟨hi, hu, -⟩ := h.slots.slot k i (by rw [hk]; rfl)
    rw [pscSendOne_eq hu]
    exact h.round hi m _ (hsafe i sock hk)
  | recv hk => exact recv_owned h hk hslots hconns
  | free hk => exact free_owned h hk hslots hconns
  | close hk => exact close_owned h hk hslots hconns
  | send => exact send_owned h hsafe

end Acmi.Server
