import Acmi.Server.Sockets
import Mathlib.Data.List.Induction

/-!
# Framing under concurrent senders

What every connection carries, when each has a number of its own: the frames of the calls
made while its `sock` was assigned, in the order in which they took the mutex, up to its own
first failed send.

`alone` is that law for one connection by itself: it knows nothing of slots, of other
clients or of their failures. `wire_of_run` says that in every run each connection's wire is
what `alone` makes of the calls addressed to it, so what happens on other connections cannot
remove, shorten or reorder anything. `alone_spec` reads the framing off.
-/

namespace Acmi.Server

open Acmi.Lib Acmi.Psc

/-! ## One connection by itself -/

/-- One send call as it concerns one connection: its message, and what its sends answer. -/
abbrev Sending := Frame × (Nat → SendAns)

/-- Send the frame, if nothing has failed yet. -/
def put (acc : List Byte × Bool) (x : Sending) : List Byte × Bool :=
  if acc.2 then
    let r := pscSendmsg x.2 x.1.msgid x.1.body ⟨[], 0⟩
    (acc.1 ++ r.2.wire, r.1.isNone)
  else acc

/-- The bytes on a connection that is sent these messages, and whether every send succeeded. -/
def alone (xs : List Sending) : List Byte × Bool := xs.foldl put ([], true)

theorem alone_concat (xs : List Sending) (x : Sending) : alone (xs ++ [x]) = put (alone xs) x :=
  List.foldl_concat ..

theorem put_failed {acc : List Byte × Bool} (h : acc.2 = false) (x : Sending) :
    put acc x = acc := by
  unfold put
  rw [if_neg (by simp [h])]

/-- After a failure nothing more is put on the connection. -/
theorem alone_silent {xs : List Sending} (h : (alone xs).2 = false) (ys : List Sending) :
    alone (xs ++ ys) = alone xs := by
  induction ys using List.reverseRecOn with
  | nil => rw [List.append_nil]
  | append_singleton ys y ih => rw [← List.append_assoc, alone_concat, ih, put_failed h]

/-- When no send fails, the last one has not failed either. -/
theorem alone_ok {xs : List Sending}
    (h : ∀ x ∈ xs, (pscSendmsg x.2 x.1.msgid x.1.body ⟨[], 0⟩).1 = none) :
    (alone xs).2 = true := by
  induction xs using List.reverseRecOn with
  | nil => rfl
  | append_singleton xs x ih =>
    have hok := ih fun y hy => h y (List.mem_append_left [x] hy)
    rw [alone_concat, put, if_pos hok]
    show (pscSendmsg x.2 x.1.msgid x.1.body ⟨[], 0⟩).1.isNone = true
    rw [h x (by simp)]
    rfl

/-- Complete frames in order; and when a send has failed, those of the calls before it and a
part of its own. -/
def Framed (xs : List Sending) (bs : List Byte) (ok : Bool) : Prop :=
  (ok = true ∧ bs = frameBytes (xs.map Prod.fst)) ∨
  (ok = false ∧ ∃ before x after p, xs = before ++ x :: after ∧ p <+: x.1.bytes ∧
    bs = frameBytes (before.map Prod.fst) ++ p)

/-- **The framing of one connection.** -/
theorem alone_spec (xs : List Sending) : Framed xs (alone xs).1 (alone xs).2 := by
  induction xs using List.reverseRecOn with
  | nil => exact Or.inl ⟨rfl, rfl⟩
  | append_singleton xs x ih =>
    rw [alone_concat]
    rcases ih with ⟨hok, hbs⟩ | ⟨hfail, before, y, after, p, hxs, hp, hbs⟩
    · have hsend := pscSendmsg_spec x.2 x.1 ⟨[], 0⟩
      unfold put
      rw [if_pos hok]
      rcases hr : pscSendmsg x.2 x.1.msgid x.1.body ⟨[], 0⟩ with ⟨_ | e, tx⟩
      · rw [hr] at hsend
        have hw : tx.wire = [] ++ x.1.bytes := hsend
        refine Or.inl ⟨rfl, ?_⟩
        show (alone xs).1 ++ tx.wire = _
        rw [hw, hbs, List.map_append, frameBytes_append]
        simp
      · rw [hr] at hsend
        obtain ⟨p, hp, hw⟩ := hsend
        refine Or.inr ⟨rfl, xs, x, [], p, rfl, hp, ?_⟩
        show (alone xs).1 ++ tx.wire = _
        rw [hw, hbs]
        rfl
    · rw [put_failed hfail]
      refine Or.inr ⟨hfail, before, y, after ++ [x], p, ?_, hp, hbs⟩
      rw [hxs, List.append_assoc]
      rfl

/-! ## The calls addressed to a connection -/

/-- What a step sends to connection `k`. -/
def sentTo (k : Nat) (s : State) : Event → List Sending
  | .send m nets =>
    match (s.phase k).assignedSlot with
    | some i => [(m, nets i)]
    | none => []
  | .sendOne j m net => if j = k then [(m, net)] else []
  | _ => []

/-- `accept` returns a number that is not `0` and that no earlier connection had. -/
def OwnNumber (s : State) : Event → Prop
  | .accept fd => fd = -1 ∨ (fd ≠ 0 ∧ ∀ k, k < s.next → s.fdOf k ≠ fd)
  | _ => True

/-! ## The invariant -/

/-- The two tables agree, and no two connections share a number. -/
structure Numbers (s : State) : Prop where
  slots : SlotInv s
  conns : ConnInv s
  nonzero : ∀ k, k < s.next → s.fdOf k ≠ 0
  distinct : ∀ j k, j < s.next → k < s.next → s.fdOf j = s.fdOf k → j = k

theorem init_numbers (listenSock : Int) : Numbers (init listenSock) :=
  ⟨init_slotInv listenSock, init_connInv listenSock, fun _ h => absurd h (Nat.not_lt_zero _),
    fun _ _ h => absurd h (Nat.not_lt_zero _)⟩

theorem step_keeps_numbers {s s' : State} {e : Event} (h : Numbers s) (hown : OwnNumber s e)
    (hstep : step s e = some s') : Numbers s' := by
  have hslots := step_slotInv h.slots hstep
  have hconns := step_connInv h.conns hstep
  rcases step_numbers (step_cases hstep) with ⟨fd, rfl, rfl, hpos, -⟩ | ⟨hnext, hfd, -⟩
  · obtain ⟨hzero, hnew⟩ := hown.resolve_left (by omega)
    have hlt : ∀ k, k < (s.opened fd).next → k = s.next ∨ k < s.next := by
      intro k hk
      have hk' : k < s.next + 1 := hk
      omega
    refine ⟨hslots, hconns, fun k hk => ?_, fun j k hj hk he => ?_⟩
    · rw [opened_fdOf]
      rcases hlt k hk with rfl | hk
      · rw [if_pos rfl]
        exact hzero
      · rw [if_neg (Nat.ne_of_lt hk)]
        exact h.nonzero k hk
    · rw [opened_fdOf, opened_fdOf] at he
      rcases hlt j hj with rfl | hj <;> rcases hlt k hk with rfl | hk
      · rfl
      · rw [if_pos rfl, if_neg (Nat.ne_of_lt hk)] at he
        exact absurd he.symm (hnew k hk)
      · rw [if_pos rfl, if_neg (Nat.ne_of_lt hj)] at he
        exact absurd he (hnew j hj)
      · rw [if_neg (Nat.ne_of_lt hj), if_neg (Nat.ne_of_lt hk)] at he
        exact h.distinct j k hj hk he
  · refine ⟨hslots, hconns, fun k hk => ?_, fun j k hj hk he => ?_⟩
    · rw [hnext] at hk
      rw [hfd]
      exact h.nonzero k hk
    · rw [hnext] at hj hk
      rw [hfd] at he
      exact h.distinct j k hj hk he

theorem Numbers.same {s s' : State} (h : Numbers s) (hs : SameTable s s') : Numbers s' := by
  refine ⟨h.slots.same hs, h.conns.shrink hs.next hs.fdOf hs.fds, fun k hk => ?_,
    fun j k hj hk he => ?_⟩
  · rw [hs.next] at hk
    rw [hs.fdOf]
    exact h.nonzero k hk
  · rw [hs.next] at hj hk
    rw [hs.fdOf] at he
    exact h.distinct j k hj hk he

/-- What ties connection `k` to the calls addressed to it so far: until a send fails the
connection is open and its slot has its number, afterwards the slot has `-1`. -/
def LinkAt (s : State) (k : Nat) (xs : List Sending) : Phase → Prop
  | .absent | .refused => xs = []
  | .accepted | .allocated _ => xs = [] ∧ s.fds (s.fdOf k) = some (.conn k)
  | .assigned i | .created i | .running i _ =>
    ((alone xs).2 = true ∧ (s.clients i).sock = s.fdOf k ∧ s.fds (s.fdOf k) = some (.conn k)) ∨
    ((alone xs).2 = false ∧ (s.clients i).sock = -1)
  | .freed _ | .closed => True

structure Link (k : Nat) (s : State) (xs : List Sending) : Prop where
  numbers : Numbers s
  wire : s.wire k = (alone xs).1
  link : LinkAt s k xs (s.phase k)

/-- Two connections have two numbers. -/
theorem Numbers.ne {s : State} (h : Numbers s) {j k : Nat} (hj : s.phase j ≠ .absent)
    (hk : s.phase k ≠ .absent) (hjk : j ≠ k) : s.fdOf j ≠ s.fdOf k :=
  fun he => hjk (h.distinct j k (h.slots.lt_next hj) (h.slots.lt_next hk) he)

/-- A step that leaves connection `k`, its number and its slot alone keeps its link. -/
theorem Link.frame {k : Nat} {s s' : State} {xs : List Sending} (h : Link k s xs)
    (hn : Numbers s') (hphase : s'.phase k = s.phase k) (hwire : s'.wire k = s.wire k)
    (hopen : s.phase k ≠ .absent →
      s'.fdOf k = s.fdOf k ∧ s'.fds (s.fdOf k) = s.fds (s.fdOf k))
    (hsock : ∀ i, (s.phase k).assignedSlot = some i → (s'.clients i).sock = (s.clients i).sock) :
    Link k s' xs := by
  refine ⟨hn, hwire.trans h.wire, ?_⟩
  have hlink := h.link
  rw [hphase]
  cases hp : s.phase k with
  | absent | refused => simpa only [LinkAt, hp] using hlink
  | accepted | allocated i =>
    obtain ⟨hfd, hfds⟩ := hopen (by simp [hp])
    simp only [LinkAt, hp] at hlink ⊢
    rw [hfd, hfds]
    exact hlink
  | assigned i | created i | running i sock =>
    obtain ⟨hfd, hfds⟩ := hopen (by simp [hp])
    have hs := hsock i (by rw [hp]; rfl)
    simp only [LinkAt, hp] at hlink ⊢
    rw [hfd, hfds, hs]
    exact hlink
  | freed sock | closed => trivial

/-- The link of a connection whose `sock` is assigned. -/
theorem linkAt_assigned {s : State} {k i : Nat} {xs : List Sending} {p : Phase}
    (hp : p.assignedSlot = some i) : LinkAt s k xs p ↔
      ((alone xs).2 = true ∧ (s.clients i).sock = s.fdOf k ∧
        s.fds (s.fdOf k) = some (.conn k)) ∨
      ((alone xs).2 = false ∧ (s.clients i).sock = -1) := by
  cases p with
  | assigned j | created j | running j sock =>
    obtain rfl : j = i := Option.some.inj hp
    exact Iff.rfl
  | absent | accepted | refused | allocated j | freed sock | closed =>
    exact absurd hp (by simp [Phase.assignedSlot])

/-! ## One round of a sender -/

/-- A round on the connection's own slot is one more message for `alone`. -/
theorem Link.own_round {k i : Nat} {s : State} {xs : List Sending} (h : Link k s xs)
    (hi : (s.phase k).assignedSlot = some i) (m : Frame) (nets : Nat → Nat → SendAns) :
    Link k (State.sendSlot m nets s i) (xs ++ [(m, nets i)]) := by
  have hn := h.numbers.same (sendSlot_same m nets s i)
  have hphase := congrFun (sendSlot_same m nets s i).phase k
  have hfd := congrFun (sendSlot_same m nets s i).fdOf k
  obtain ⟨-, hu, -⟩ := h.numbers.slots.slot k i (slot_of_assignedSlot hi).1
  have hlt : k < s.next := h.numbers.slots.lt_next (by rintro e; simp [e, Phase.assignedSlot] at hi)
  have hpos := h.numbers.slots.nonneg k hlt
  rcases (linkAt_assigned hi).mp h.link with ⟨hok, hsock, hopen⟩ | ⟨hfail, hsock⟩
  · have hround := sendClient_cases s m (nets i) i
    rw [sendSlot_of_reaches ⟨hu, by omega⟩] at hn hphase hfd ⊢
    generalize s.sendClient m (nets i) i = s' at hround hn hphase hfd ⊢
    have hput : alone (xs ++ [(m, nets i)]) =
        ((alone xs).1 ++ (pscSendmsg (nets i) m.msgid m.body ⟨[], 0⟩).2.wire,
          (pscSendmsg (nets i) m.msgid m.body ⟨[], 0⟩).1.isNone) := by
      rw [alone_concat, put, if_pos hok]
    have hk : ∀ {k'}, s.fds (s.clients i).sock = some (.conn k') → k' = k := by
      intro k' hk'
      rw [hsock, hopen] at hk'
      simpa using hk'.symm
    cases hround with
    | whole hconn hsent =>
      obtain rfl := hk hconn
      refine ⟨hn, ?_, ?_⟩
      · rw [hput]
        show Function.update s.wire _ _ _ = _
        rw [Function.update_self, h.wire]
      · rw [hphase]
        exact (linkAt_assigned hi).mpr (Or.inl ⟨by rw [hput, hsent]; rfl, hsock, hopen⟩)
    | cut hconn hsent =>
      obtain rfl := hk hconn
      refine ⟨hn, ?_, ?_⟩
      · rw [hput]
        show Function.update s.wire _ _ _ = _
        rw [Function.update_self, h.wire]
      · rw [hphase]
        refine (linkAt_assigned hi).mpr (Or.inr ⟨?_, ?_⟩)
        · rw [hput]
          exact Option.isNone_eq_false_iff.mpr (Option.ne_none_iff_isSome.mp hsent)
        · show (Function.update s.clients i { s.clients i with sock := -1 } i).sock = -1
          rw [Function.update_self]
    | foreign hconn => exact absurd (hsock ▸ hopen) (hconn k)
  · rw [sendSlot_of_not_reaches (fun hr => hr.2 hsock)]
    have hsame := alone_silent hfail [(m, nets i)]
    exact ⟨h.numbers, by rw [hsame]; exact h.wire,
      (linkAt_assigned hi).mpr (Or.inr ⟨by rw [hsame]; exact hfail, hsock⟩)⟩

/-- A round on another slot does not touch the connection. -/
theorem Link.other_round {k i : Nat} {s : State} {xs : List Sending} (h : Link k s xs)
    (hi : i < pscMaxClients) (hne : (s.phase k).assignedSlot ≠ some i) (m : Frame)
    (nets : Nat → Nat → SendAns) : Link k (State.sendSlot m nets s i) xs := by
  have hsame := sendSlot_same m nets s i
  have hn := h.numbers.same hsame
  by_cases hr : Reaches s i
  · have hsock := (h.numbers.slots.sock _ i (h.numbers.slots.occupied i hi hr.1)).resolve_left hr.2
    have hown : s.phase (s.owner i) ≠ .absent := by
      intro e
      have hslot := h.numbers.slots.occupied i hi hr.1
      rw [e] at hslot
      exact absurd hslot (by simp [Phase.slot])
    -- the number in the slot is not the connection's
    have hfd : s.phase k ≠ .absent → (s.clients i).sock ≠ s.fdOf k := by
      intro hk
      rw [hsock]
      split
      next => exact (h.numbers.nonzero k (h.numbers.slots.lt_next hk)).symm
      next hall =>
        refine h.numbers.ne hown hk fun he => ?_
        subst he
        have hslot := h.numbers.slots.occupied i hi hr.1
        cases hp : s.phase (s.owner i) with
        | allocated j =>
          rw [hp] at hslot hall
          exact hall (by rw [Option.some.inj hslot])
        | assigned j | created j | running j sock => rw [hp] at hslot hne; exact hne hslot
        | absent | accepted | refused | freed sock | closed =>
          rw [hp] at hslot
          exact absurd hslot (by simp [Phase.slot])
    have hother : ∀ {k'}, s.fds (s.clients i).sock = some (.conn k') → k ≠ k' := by
      rintro k' hk' rfl
      obtain ⟨hlt, he⟩ := h.numbers.conns _ _ hk'
      exact hfd (fun e => absurd ((h.numbers.slots.absent k).mp e) (by omega)) he
    have hround := sendClient_cases s m (nets i) i
    have hclients : ∀ j, (s.phase k).assignedSlot = some j →
        (s.sendClient m (nets i) i).clients j = s.clients j :=
      fun j hj => sendClient_clients_ne s m (nets i) (fun e => hne (e ▸ hj))
    rw [sendSlot_of_reaches hr] at hsame hn ⊢
    generalize s.sendClient m (nets i) i = s' at hround hsame hn hclients ⊢
    refine h.frame hn (congrFun hsame.phase k) ?_ (fun hk => ⟨congrFun hsame.fdOf k, ?_⟩)
      fun j hj => by rw [hclients j hj]
    · cases hround with
      | whole hconn _ => exact Function.update_of_ne (hother hconn) ..
      | cut hconn _ => exact Function.update_of_ne (hother hconn) ..
      | foreign _ => rfl
    · cases hround with
      | whole _ _ => rfl
      | cut _ _ => exact Function.update_of_ne (hfd hk).symm ..
      | foreign _ => exact Function.update_of_ne (hfd hk).symm ..
  · rw [sendSlot_of_not_reaches hr]
    exact h

/-! ## Whole runs -/

theorem alloc_link {k : Nat} {s : State} {xs : List Sending} (h : Link k s xs)
    (hn : Numbers (s.pscClientAlloc s.cur)) (hcur : s.phase s.cur = .accepted) :
    Link k (s.pscClientAlloc s.cur) xs := by
  obtain ⟨⟨p, hp, hphase⟩, hfd, hfds, -, hwire, hclients⟩ := alloc_frame h.numbers.slots
  by_cases hk : k = s.cur
  · have hlink := h.link
    rw [hk, hcur] at hlink
    refine ⟨hn, by rw [hwire]; exact h.wire, ?_⟩
    rw [hphase, if_pos hk, hk]
    rcases hp with rfl | ⟨i, rfl⟩
    · exact hlink.1
    · exact ⟨hlink.1, by rw [hfds, hfd]; exact hlink.2⟩
  · refine h.frame hn (by rw [hphase, if_neg hk]) (congrFun hwire k)
      (fun _ => ⟨congrFun hfd k, congrFun hfds _⟩) fun j hj => ?_
    rw [hclients k j (slot_of_assignedSlot hj).1]

/-- A broadcast sends to the connection's own slot once, when it has one. -/
theorem send_link {k : Nat} {s : State} {xs : List Sending} (h : Link k s xs) (m : Frame)
    (nets : Nat → Nat → SendAns) : Link k (s.pscSend m nets) (xs ++ sentTo k s (.send m nets)) := by
  have hlink : Link k (s.pscSend m nets) (xs ++ match (s.phase k).assignedSlot with
      | some i => if i < pscMaxClients then [(m, nets i)] else []
      | none => []) := by
    refine pscSend_rule (P := fun n t => Link k t (xs ++ match (s.phase k).assignedSlot with
        | some i => if i < n then [(m, nets i)] else []
        | none => [])) ?_ fun n t hn hsame _ hlink => ?_
    · have hnil : (match (s.phase k).assignedSlot with
          | some i => if i < 0 then [(m, nets i)] else []
          | none => ([] : List Sending)) = [] := by
        split <;> simp
      rw [hnil, List.append_nil]
      exact h
    · by_cases hown : (s.phase k).assignedSlot = some n
      · have hround := hlink.own_round (i := n) (by rw [hsame.phase]; exact hown) m nets
        rw [hown] at hround ⊢
        simpa using hround
      · have hround := hlink.other_round hn (by rw [hsame.phase]; exact hown) m nets
        cases hs : (s.phase k).assignedSlot with
        | none => rw [hs] at hround; exact hround
        | some i =>
          have hin : i ≠ n := fun e => hown (by rw [hs, e])
          have hlt : i < n + 1 ↔ i < n := by omega
          rw [hs] at hround
          simp only [hlt]
          exact hround
  unfold sentTo
  cases hs : (s.phase k).assignedSlot with
  | none => rw [hs] at hlink; exact hlink
  | some i =>
    have hi := (h.numbers.slots.slot k i (slot_of_assignedSlot hs).1).1
    rw [hs] at hlink
    simp only [if_pos hi] at hlink
    exact hlink

theorem accept_link {k : Nat} {s : State} {xs : List Sending} {fd : Int} (h : Link k s xs)
    (hn : Numbers (s.opened fd)) (hnew : ∀ j, j < s.next → s.fdOf j ≠ fd) :
    Link k (s.opened fd) xs := by
  by_cases hk : k = s.next
  · have hlink := h.link
    rw [(h.numbers.slots.absent k).mpr (by omega)] at hlink
    refine ⟨hn, h.wire, ?_⟩
    rw [opened_phase, if_pos hk]
    refine ⟨hlink, ?_⟩
    rw [opened_fdOf, if_pos hk, opened_fds, if_pos rfl, hk]
  · refine h.frame hn (by rw [opened_phase, if_neg hk]) rfl (fun hp => ⟨?_, ?_⟩) fun _ _ => rfl
    · rw [opened_fdOf, if_neg hk]
    · rw [opened_fds, if_neg (hnew k (h.numbers.slots.lt_next hp))]

theorem assign_link {k i : Nat} {s : State} {xs : List Sending} (h : Link k s xs)
    (hn : Numbers ((s.setSock i (s.fdOf s.cur)).setPhase s.cur (.assigned i)))
    (hcur : s.phase s.cur = .allocated i) :
    Link k ((s.setSock i (s.fdOf s.cur)).setPhase s.cur (.assigned i)) xs := by
  by_cases hk : k = s.cur
  · -- nothing was addressed to it before it had its number
    have hlink := h.link
    rw [hk, hcur] at hlink
    obtain ⟨rfl, hopen⟩ := hlink
    refine ⟨hn, h.wire, ?_⟩
    rw [phase_setPhase, if_pos hk, hk]
    refine Or.inl ⟨rfl, ?_, hopen⟩
    show (Function.update s.clients i { s.clients i with sock := s.fdOf s.cur } i).sock = _
    rw [Function.update_self]
    rfl
  · refine h.frame hn (by rw [phase_setPhase, if_neg hk]; rfl) rfl (fun _ => ⟨rfl, rfl⟩)
      fun j hj => ?_
    show (Function.update s.clients i _ j).sock = _
    rw [Function.update_of_ne (h.numbers.slots.slot_ne (by rw [hcur]; rfl) hk hj)]

/-- The accept loop and the handler move on without touching a socket. -/
theorem move_link {k j : Nat} {s : State} {xs : List Sending} {p : Phase} (h : Link k s xs)
    (hn : Numbers (s.setPhase j p)) (hp : LinkAt s j xs (s.phase j) → LinkAt s j xs p) :
    Link k (s.setPhase j p) xs := by
  by_cases hk : k = j
  · refine ⟨hn, h.wire, ?_⟩
    rw [phase_setPhase, if_pos hk, hk]
    have hlink := hp (hk ▸ h.link)
    -- the numbers and the clients are those of `s`
    cases p <;> exact hlink
  · exact h.frame hn (by rw [phase_setPhase, if_neg hk]) rfl (fun _ => ⟨rfl, rfl⟩) fun _ _ => rfl

theorem free_link {k j i : Nat} {sock : Int} {s : State} {xs : List Sending} (h : Link k s xs)
    (hn : Numbers ((s.pscClientFree i).setPhase j (.freed sock)))
    (hj : s.phase j = .running i sock) :
    Link k ((s.pscClientFree i).setPhase j (.freed sock)) xs := by
  by_cases hk : k = j
  · refine ⟨hn, h.wire, ?_⟩
    rw [phase_setPhase, if_pos hk]
    trivial
  · refine h.frame hn (by rw [phase_setPhase, if_neg hk]; rfl) rfl (fun _ => ⟨rfl, rfl⟩)
      fun i' hi' => ?_
    show (Function.update s.clients i _ i').sock = _
    rw [Function.update_of_ne (h.numbers.slots.slot_ne (by rw [hj]; rfl) hk hi')]

/-- Connection `j` is over, with a `close` of a number that is no other connection's. -/
theorem close_link {k j : Nat} {fd : Int} {s : State} {xs : List Sending} (h : Link k s xs)
    (hn : Numbers ((s.close fd j).setPhase j .closed))
    (hne : s.phase k ≠ .absent → k ≠ j → s.fdOf k ≠ fd) :
    Link k ((s.close fd j).setPhase j .closed) xs := by
  by_cases hk : k = j
  · refine ⟨hn, h.wire, ?_⟩
    rw [phase_setPhase, if_pos hk]
    trivial
  · refine h.frame hn (by rw [phase_setPhase, if_neg hk]; rfl) rfl (fun hp => ⟨rfl, ?_⟩)
      fun _ _ => rfl
    exact Function.update_of_ne (hne hp hk) ..

/-- A handler's greeting or reply: its own slot, as one round of a sender. -/
theorem sendOne_link {k j i : Nat} {sock : Int} {s : State} {xs : List Sending} (h : Link k s xs)
    (hj : s.phase j = .running i sock) (m : Frame) (net : Nat → SendAns) :
    Link k (s.pscSendOne m net i) (xs ++ sentTo k s (.sendOne j m net)) := by
  obtain ⟨hi, hu, -⟩ := h.numbers.slots.slot j i (by rw [hj]; rfl)
  rw [pscSendOne_eq hu, sentTo]
  by_cases hk : j = k
  · rw [if_pos hk]
    exact h.own_round (by rw [← hk, hj]; rfl) m fun _ => net
  · rw [if_neg hk, List.append_nil]
    refine h.other_round hi (fun hs => ?_) m _
    exact h.numbers.slots.slot_ne (by rw [hj]; rfl) (Ne.symm hk) hs rfl

/-- A step that sends nothing to the connection adds nothing to its history. -/
theorem Link.silent {k : Nat} {s s' : State} {xs : List Sending} {e : Event} (h : Link k s' xs)
    (he : sentTo k s e = []) : Link k s' (xs ++ sentTo k s e) := by
  rw [he, List.append_nil]
  exact h

/-- **Every step keeps the link**, with what it sends to `k` added to the history. -/
theorem step_link {k : Nat} {s s' : State} {e : Event} {xs : List Sending} (h : Link k s xs)
    (hown : OwnNumber s e) (hstep : step s e = some s') : Link k s' (xs ++ sentTo k s e) := by
  have hn := step_keeps_numbers h.numbers hown hstep
  cases step_cases hstep with
  | acceptFailed => exact h.silent rfl
  | accept _ hpos _ =>
    exact (accept_link h hn (hown.resolve_left (by omega)).2).silent rfl
  | alloc hcur => exact (alloc_link h hn hcur).silent rfl
  | drop hcur =>
    refine (close_link h hn fun hp hk => ?_).silent rfl
    exact h.numbers.ne hp (by simp [hcur]) hk
  | assign hcur => exact (assign_link h hn hcur).silent rfl
  | spawn hcur =>
    refine (move_link h hn fun hlink => ?_).silent rfl
    rw [hcur] at hlink
    exact hlink
  | copy hj =>
    refine (move_link h hn fun hlink => ?_).silent rfl
    rw [hj] at hlink
    exact hlink
  | sendOne hj => exact sendOne_link h hj _ _
  | recv _ => exact (h.frame hn rfl rfl (fun _ => ⟨rfl, rfl⟩) fun _ _ => rfl).silent rfl
  | free hj => exact (free_link h hn hj).silent rfl
  | @close j sock hj =>
    refine (close_link h hn fun hp hk => ?_).silent rfl
    have hpos := h.numbers.slots.nonneg k (h.numbers.slots.lt_next hp)
    -- the handler's copy is `-1` or its own connection's number
    rcases h.numbers.slots.copied j sock (by rw [hj]; rfl) with rfl | rfl
    · omega
    · exact h.numbers.ne hp (by simp [hj]) hk
  | send => exact send_link h _ _

theorem init_link (listenSock : Int) (k : Nat) : Link k (init listenSock) [] :=
  ⟨init_numbers listenSock, rfl, rfl⟩

theorem run_link {k : Nat} {s s' : State} {es : List Event} {xs : List Sending}
    (h : Link k s xs) (hown : StepsMeet step OwnNumber s es) (hrun : runFrom step s es = some s') :
    Link k s' (xs ++ history step (sentTo k) s es) :=
  runFrom_history_of_meets (fun _ _ _ _ h hown hs => step_link h hown hs) es s s' xs h hown hrun

/-- **Framing in every run.** When connections have numbers of their own, connection `k`
carries what the calls addressed to it put on a connection by itself: complete frames in the
order of the calls, all of them as long as its own sends succeed, and after its first failed
send, of which a part may be there, nothing more whatever the server does next. -/
theorem wire_of_run {listenSock : Int} {es : List Event} {s : State}
    (hrun : runFrom step (init listenSock) es = some s)
    (hown : StepsMeet step OwnNumber (init listenSock) es) (k : Nat) :
    let xs := history step (sentTo k) (init listenSock) es
    s.wire k = (alone xs).1 ∧ Framed xs (s.wire k) (alone xs).2 ∧
    ((∀ x ∈ xs, (pscSendmsg x.2 x.1.msgid x.1.body ⟨[], 0⟩).1 = none) →
      s.wire k = frameBytes (xs.map Prod.fst)) ∧
    ((alone xs).2 = false → ∀ es' s', StepsMeet step OwnNumber s es' →
      runFrom step s es' = some s' → s'.wire k = s.wire k) := by
  intro xs
  have hlink : Link k s xs := run_link (init_link listenSock k) hown hrun
  have hframed := alone_spec xs
  rw [← hlink.wire] at hframed
  refine ⟨hlink.wire, hframed, fun hall => ?_, fun hfail es' s' hown' hrun' => ?_⟩
  · rcases hframed with ⟨-, hbs⟩ | ⟨hfail, -⟩
    · exact hbs
    · rw [alone_ok hall] at hfail
      exact absurd hfail (by simp)
  · rw [(run_link hlink hown' hrun').wire, alone_silent hfail, hlink.wire]

/-- A client is accepted, its thread starts, and it is sent a message. -/
theorem wire_of_run_connected :
    ∃ es s, runFrom step (init 0) es = some s ∧ StepsMeet step OwnNumber (init 0) es ∧
      let xs := history step (sentTo 0) (init 0) es
      s.wire 0 = (alone xs).1 ∧ Framed xs (s.wire 0) (alone xs).2 ∧
      ((∀ x ∈ xs, (pscSendmsg x.2 x.1.msgid x.1.body ⟨[], 0⟩).1 = none) →
        s.wire 0 = frameBytes (xs.map Prod.fst)) ∧
      ((alone xs).2 = false → ∀ es' s', StepsMeet step OwnNumber s es' →
        runFrom step s es' = some s' → s'.wire 0 = s.wire 0) := by
  have hown : StepsMeet step OwnNumber (init 0) [.accept 1, .alloc, .assign, .spawn, .copy 0,
      .sendOne 0 ⟨256#16, List.replicate 8 0, by decide⟩ fun _ => .took 3] := by
    refine ⟨Or.inr ⟨by decide, fun k hk => absurd hk (Nat.not_lt_zero k)⟩, fun t _ => ?_⟩
    refine StepsMeet.of_forall _ t fun e he u => ?_
    simp only [List.mem_cons, List.not_mem_nil, or_false] at he
    rcases he with rfl | rfl | rfl | rfl | rfl <;> exact trivial
  exact ⟨_, _, rfl, hown, wire_of_run rfl hown 0⟩

end Acmi.Server
