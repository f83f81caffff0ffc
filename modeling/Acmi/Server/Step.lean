import Acmi.Server.Clients

/-!
# What the steps of the server do

The facts about single steps that the invariants are built on, each stated once: the used
bits of `clients_used` as booleans, `step` read backwards (`Step`, `step_cases`), and what a
sender can change (`sendClient_cases`). A broadcast works through the slots one by one;
`sendUpto` is where it stands when the first `n` slots are behind it, and `pscSend_rule` the
rule for its loop.
-/

namespace Acmi.Server

open Acmi.Lib Acmi.Psc

/-! ## The used bits -/

theorem used_eq {s : State} {i : Nat} (hi : i < 32) : s.used i = s.clientsUsed.getLsbD i := by
  have hbit : ∀ j, (s.clientsUsed &&& (1#32 <<< i)).getLsbD j
      = (decide (j = i) && s.clientsUsed.getLsbD i) := by
    intro j
    rw [BitVec.getLsbD_and, BitVec.getLsbD_shiftLeft, BitVec.getLsbD_one]
    by_cases hj : j = i
    · subst hj
      simp [hi]
    · by_cases hlt : j < i
      · simp [hlt, hj]
      · have : ¬ j - i = 0 := by omega
        simp [hj, this]
  unfold State.used
  cases hb : s.clientsUsed.getLsbD i with
  | false =>
    have hzero : s.clientsUsed &&& (1#32 <<< i) = 0#32 := by
      apply BitVec.eq_of_getLsbD_eq
      intro j _
      rw [hbit, hb]
      simp
    rw [hzero]
    rfl
  | true =>
    rw [bne_iff_ne]
    intro hzero
    have h := hbit i
    rw [hzero, hb] at h
    simp at h

theorem used_set {s s' : State} {i j : Nat} (hi : i < 32) (hj : j < 32)
    (h : s'.clientsUsed = s.clientsUsed ||| (1#32 <<< i)) :
    s'.used j = (s.used j || decide (j = i)) := by
  rw [used_eq hj, used_eq hj, h, getLsbD_set_bit _ hi]

theorem used_clear {s s' : State} {i j : Nat} (hj : j < 32)
    (h : s'.clientsUsed = s.clientsUsed &&& ~~~(1#32 <<< i)) :
    s'.used j = (s.used j && !decide (j = i)) := by
  rw [used_eq hj, used_eq hj, h, getLsbD_clear_bit]

theorem used_congr {s s' : State} (h : s'.clientsUsed = s.clientsUsed) (i : Nat) :
    s'.used i = s.used i := by
  rw [State.used, State.used, h]

/-! ## What each step does -/

/-- The state after `accept` returned `fd`. -/
def State.opened (s : State) (fd : Int) : State :=
  { s.setPhase s.next .accepted with
    next := s.next + 1
    fdOf := Function.update s.fdOf s.next fd
    fds := Function.update s.fds fd (some (.conn s.next)) }

/-- `step`, read backwards: the position each event needs and what it leads to. -/
inductive Step (s : State) : Event → State → Prop
  | acceptFailed : Step s (.accept (-1)) s
  | accept {fd : Int} (hloop : (s.phase s.cur).inLoop = false) (hpos : 0 ≤ fd)
      (hfree : s.fds fd = none) : Step s (.accept fd) (s.opened fd)
  | alloc (hk : s.phase s.cur = .accepted) : Step s .alloc (s.pscClientAlloc s.cur)
  | drop (hk : s.phase s.cur = .refused) :
      Step s .drop ((s.close (s.fdOf s.cur) s.cur).setPhase s.cur .closed)
  | assign {i : Nat} (hk : s.phase s.cur = .allocated i) :
      Step s .assign ((s.setSock i (s.fdOf s.cur)).setPhase s.cur (.assigned i))
  | spawn {i : Nat} (hk : s.phase s.cur = .assigned i) :
      Step s .spawn (s.setPhase s.cur (.created i))
  | copy {k i : Nat} (hk : s.phase k = .created i) :
      Step s (.copy k) (s.setPhase k (.running i (s.clients i).sock))
  | sendOne {k i : Nat} {sock : Int} {m : Frame} {net : Nat → SendAns}
      (hk : s.phase k = .running i sock) : Step s (.sendOne k m net) (s.pscSendOne m net i)
  | recv {k i : Nat} {sock : Int} (hk : s.phase k = .running i sock) :
      Step s (.recv k) (s.recv sock k)
  | free {k i : Nat} {sock : Int} (hk : s.phase k = .running i sock) :
      Step s (.free k) ((s.pscClientFree i).setPhase k (.freed sock))
  | close {k : Nat} {sock : Int} (hk : s.phase k = .freed sock) :
      Step s (.close k) ((s.close sock k).setPhase k .closed)
  | send {m : Frame} {nets : Nat → Nat → SendAns} : Step s (.send m nets) (s.pscSend m nets)

theorem step_cases {s s' : State} {e : Event} (h : step s e = some s') : Step s e s' := by
  cases e with
  | accept fd =>
    simp only [step] at h
    split at h
    next => exact absurd h (by simp)
    next hloop =>
      split at h
      next hfd =>
        rw [Option.some.injEq] at h
        subst hfd h
        exact .acceptFailed
      next hfd =>
        split at h
        next hok =>
          rw [Option.some.injEq] at h
          subst h
          exact .accept (by simpa using hloop) hok.1 hok.2.2
        next => exact absurd h (by simp)
  | alloc =>
    simp only [step] at h
    split at h
    next hk => exact Option.some.inj h ▸ .alloc hk
    next => exact absurd h (by simp)
  | drop =>
    simp only [step] at h
    split at h
    next hk => exact Option.some.inj h ▸ .drop hk
    next => exact absurd h (by simp)
  | assign =>
    simp only [step] at h
    split at h
    next hk => exact Option.some.inj h ▸ .assign hk
    next => exact absurd h (by simp)
  | spawn =>
    simp only [step] at h
    split at h
    next hk => exact Option.some.inj h ▸ .spawn hk
    next => exact absurd h (by simp)
  | copy k =>
    simp only [step] at h
    split at h
    next hk => exact Option.some.inj h ▸ .copy hk
    next => exact absurd h (by simp)
  | sendOne k m net =>
    simp only [step] at h
    split at h
    next hk => exact Option.some.inj h ▸ .sendOne hk
    next => exact absurd h (by simp)
  | recv k =>
    simp only [step] at h
    split at h
    next hk => exact Option.some.inj h ▸ .recv hk
    next => exact absurd h (by simp)
  | free k =>
    simp only [step] at h
    split at h
    next hk => exact Option.some.inj h ▸ .free hk
    next => exact absurd h (by simp)
  | close k =>
    simp only [step] at h
    split at h
    next hk => exact Option.some.inj h ▸ .close hk
    next => exact absurd h (by simp)
  | send m nets => exact Option.some.inj h ▸ .send

/-! ## What a sender changes -/

/-- The table is the same, except that a `sock` may have become `-1`; descriptors may have
been closed. -/
structure SameTable (s s' : State) : Prop where
  listenSock : s'.listenSock = s.listenSock
  clientsUsed : s'.clientsUsed = s.clientsUsed
  owner : s'.owner = s.owner
  next : s'.next = s.next
  phase : s'.phase = s.phase
  fdOf : s'.fdOf = s.fdOf
  clients : ∀ i, s'.clients i = s.clients i ∨ s'.clients i = { s.clients i with sock := -1 }
  fds : ∀ fd, s'.fds fd = s.fds fd ∨ s'.fds fd = none

theorem SameTable.refl (s : State) : SameTable s s :=
  ⟨rfl, rfl, rfl, rfl, rfl, rfl, fun _ => Or.inl rfl, fun _ => Or.inl rfl⟩

theorem SameTable.trans {s t u : State} (h₁ : SameTable s t) (h₂ : SameTable t u) :
    SameTable s u := by
  refine ⟨h₂.listenSock.trans h₁.listenSock, h₂.clientsUsed.trans h₁.clientsUsed,
    h₂.owner.trans h₁.owner, h₂.next.trans h₁.next, h₂.phase.trans h₁.phase,
    h₂.fdOf.trans h₁.fdOf, fun i => ?_, fun fd => ?_⟩
  · rcases h₁.clients i with e₁ | e₁ <;> rcases h₂.clients i with e₂ | e₂ <;> rw [e₂, e₁]
    · exact Or.inl rfl
    · exact Or.inr rfl
    · exact Or.inr rfl
    · exact Or.inr rfl
  · rcases h₂.fds fd with e₂ | e₂
    · rw [e₂]
      exact h₁.fds fd
    · exact Or.inr e₂

theorem SameTable.used {s s' : State} (h : SameTable s s') (i : Nat) : s'.used i = s.used i :=
  used_congr h.clientsUsed i

/-- The frame, or a part of it, is on the connection, and the `send` is recorded. -/
def State.sent (s : State) (fd : Int) (who k : Nat) (m : Frame) (net : Nat → SendAns) : State :=
  { s with
    wire := Function.update s.wire k (s.wire k ++ (pscSendmsg net m.msgid m.body ⟨[], 0⟩).2.wire)
    calls := ⟨.send, fd, who, s.fds fd⟩ :: s.calls }

/-- What a sender can do to the client in slot `i`: put the whole frame on a connection, fail
on a connection with a part of the frame on it, or find no connection at the number. -/
inductive ClientSend (s : State) (m : Frame) (net : Nat → SendAns) (i : Nat) : State → Prop
  | whole {k : Nat} (hfd : s.fds (s.clients i).sock = some (.conn k))
      (hok : (pscSendmsg net m.msgid m.body ⟨[], 0⟩).1 = none) :
      ClientSend s m net i (s.sent (s.clients i).sock (s.owner i) k m net)
  | cut {k : Nat} (hfd : s.fds (s.clients i).sock = some (.conn k))
      (hfail : (pscSendmsg net m.msgid m.body ⟨[], 0⟩).1 ≠ none) :
      ClientSend s m net i (((s.sent (s.clients i).sock (s.owner i) k m net).close
        (s.clients i).sock (s.owner i)).setSock i (-1))
  | foreign (hfd : ∀ k, s.fds (s.clients i).sock ≠ some (.conn k)) :
      ClientSend s m net i ((State.close { s with
        calls := ⟨.send, (s.clients i).sock, s.owner i, s.fds (s.clients i).sock⟩ :: s.calls }
        (s.clients i).sock (s.owner i)).setSock i (-1))

theorem sendmsg_conn {s : State} {fd : Int} {k : Nat} (hfd : s.fds fd = some (.conn k)) (who : Nat)
    (m : Frame) (net : Nat → SendAns) : s.sendmsg fd who m net =
      ((pscSendmsg net m.msgid m.body ⟨[], 0⟩).1, s.sent fd who k m net) := by
  simp only [State.sendmsg, State.sent, hfd]

theorem sendmsg_foreign {s : State} {fd : Int} (hfd : ∀ k, s.fds fd ≠ some (.conn k)) (who : Nat)
    (m : Frame) (net : Nat → SendAns) : s.sendmsg fd who m net =
      (some .enotconn, { s with calls := ⟨.send, fd, who, s.fds fd⟩ :: s.calls }) := by
  unfold State.sendmsg
  dsimp only
  split
  next k hk => exact absurd hk (hfd k)
  next => rfl

theorem sendClient_cases (s : State) (m : Frame) (net : Nat → SendAns) (i : Nat) :
    ClientSend s m net i (s.sendClient m net i) := by
  unfold State.sendClient
  dsimp only
  by_cases hfd : ∃ k, s.fds (s.clients i).sock = some (.conn k)
  · obtain ⟨k, hfd⟩ := hfd
    rw [sendmsg_conn hfd]
    split
    next hok => exact .whole hfd hok
    next e hfail => exact .cut hfd (by rw [hfail]; simp)
  · have hfd' : ∀ k, s.fds (s.clients i).sock ≠ some (.conn k) := fun k hk => hfd ⟨k, hk⟩
    rw [sendmsg_foreign hfd']
    exact .foreign hfd'

theorem close_same (s : State) (fd : Int) (who : Nat) : SameTable s (s.close fd who) := by
  refine ⟨rfl, rfl, rfl, rfl, rfl, rfl, fun _ => Or.inl rfl, fun f => ?_⟩
  by_cases hf : f = fd
  · subst hf
    exact Or.inr (Function.update_self ..)
  · exact Or.inl (Function.update_of_ne hf ..)

theorem recv_same (s : State) (fd : Int) (who : Nat) : SameTable s (s.recv fd who) :=
  ⟨rfl, rfl, rfl, rfl, rfl, rfl, fun _ => Or.inl rfl, fun _ => Or.inl rfl⟩

theorem setSock_same (s : State) (i : Nat) : SameTable s (s.setSock i (-1)) := by
  refine ⟨rfl, rfl, rfl, rfl, rfl, rfl, fun j => ?_, fun _ => Or.inl rfl⟩
  by_cases hj : j = i
  · subst hj
    exact Or.inr (Function.update_self ..)
  · exact Or.inl (Function.update_of_ne hj ..)

theorem sendClient_same (s : State) (m : Frame) (net : Nat → SendAns) (i : Nat) :
    SameTable s (s.sendClient m net i) := by
  have h := sendClient_cases s m net i
  generalize s.sendClient m net i = s' at h ⊢
  cases h with
  | whole _ _ => exact ⟨rfl, rfl, rfl, rfl, rfl, rfl, fun _ => Or.inl rfl, fun _ => Or.inl rfl⟩
  | @cut k _ _ =>
    have hsent : SameTable s (s.sent (s.clients i).sock (s.owner i) k m net) :=
      ⟨rfl, rfl, rfl, rfl, rfl, rfl, fun _ => Or.inl rfl, fun _ => Or.inl rfl⟩
    exact (hsent.trans (close_same ..)).trans (setSock_same ..)
  | foreign _ =>
    have hsent : SameTable s { s with
        calls := ⟨.send, (s.clients i).sock, s.owner i, s.fds (s.clients i).sock⟩ :: s.calls } :=
      ⟨rfl, rfl, rfl, rfl, rfl, rfl, fun _ => Or.inl rfl, fun _ => Or.inl rfl⟩
    exact (hsent.trans (close_same ..)).trans (setSock_same ..)

theorem pscSendOne_same (s : State) (m : Frame) (net : Nat → SendAns) (i : Nat) :
    SameTable s (s.pscSendOne m net i) := by
  unfold State.pscSendOne
  split
  next => exact SameTable.refl s
  next => exact sendClient_same ..

/-- A sender that works on slot `i` leaves the other slots alone. -/
theorem sendClient_clients_ne (s : State) (m : Frame) (net : Nat → SendAns) {i j : Nat}
    (hj : j ≠ i) : (s.sendClient m net i).clients j = s.clients j := by
  have h := sendClient_cases s m net i
  generalize s.sendClient m net i = s' at h ⊢
  cases h with
  | whole _ _ => rfl
  | cut _ _ => exact Function.update_of_ne hj ..
  | foreign _ => exact Function.update_of_ne hj ..

/-- The calls a sender makes are made on the slot's descriptor, a `send` first. -/
theorem sendClient_calls (s : State) (m : Frame) (net : Nat → SendAns) (i : Nat) :
    ∃ new, (s.sendClient m net i).calls = new ++ s.calls ∧
      (∀ c ∈ new, c.fd = (s.clients i).sock ∧ c.who = s.owner i) ∧
      ∃ c ∈ new, c.fd = (s.clients i).sock ∧ c.who = s.owner i := by
  have h := sendClient_cases s m net i
  generalize s.sendClient m net i = s' at h ⊢
  cases h with
  | whole _ _ => exact ⟨[⟨.send, _, _, _⟩], rfl, by simp, by simp⟩
  | cut _ _ => exact ⟨[⟨.close, _, _, _⟩, ⟨.send, _, _, _⟩], rfl, by simp, by simp⟩
  | foreign _ => exact ⟨[⟨.close, _, _, _⟩, ⟨.send, _, _, _⟩], rfl, by simp, by simp⟩

/-- The slots a broadcast sends to. -/
def Reaches (s : State) (i : Nat) : Prop := s.used i = true ∧ (s.clients i).sock ≠ -1

instance (s : State) (i : Nat) : Decidable (Reaches s i) := inferInstanceAs (Decidable (_ ∧ _))

theorem sendSlot_of_reaches {m : Frame} {nets : Nat → Nat → SendAns} {s : State} {i : Nat}
    (h : Reaches s i) : State.sendSlot m nets s i = s.sendClient m (nets i) i := by
  simp [State.sendSlot, h.1, h.2]

theorem sendSlot_of_not_reaches {m : Frame} {nets : Nat → Nat → SendAns} {s : State} {i : Nat}
    (h : ¬ Reaches s i) : State.sendSlot m nets s i = s := by
  unfold State.sendSlot
  rw [if_pos]
  rcases Decidable.not_and_iff_not_or_not.mp h with hu | hs
  · simp [hu]
  · simp [Decidable.not_not.mp hs]

theorem sendSlot_same (m : Frame) (nets : Nat → Nat → SendAns) (s : State) (i : Nat) :
    SameTable s (State.sendSlot m nets s i) := by
  by_cases h : Reaches s i
  · rw [sendSlot_of_reaches h]
    exact sendClient_same ..
  · rw [sendSlot_of_not_reaches h]
    exact SameTable.refl s

/-- On a used slot `psc_send_one` is one round of `psc_send`. -/
theorem pscSendOne_eq {s : State} {i : Nat} (hu : s.used i = true) (m : Frame)
    (net : Nat → SendAns) : s.pscSendOne m net i = State.sendSlot m (fun _ => net) s i := by
  by_cases hsock : (s.clients i).sock = -1
  · rw [sendSlot_of_not_reaches (fun h => h.2 hsock), State.pscSendOne, if_pos hsock]
  · rw [sendSlot_of_reaches ⟨hu, hsock⟩, State.pscSendOne, if_neg hsock]

/-- The loop of `psc_send` when the slots below `n` are behind it. -/
def sendUpto (s : State) (m : Frame) (nets : Nat → Nat → SendAns) (n : Nat) : State :=
  (List.range n).foldl (State.sendSlot m nets) s

theorem sendUpto_succ (s : State) (m : Frame) (nets : Nat → Nat → SendAns) (n : Nat) :
    sendUpto s m nets (n + 1) = State.sendSlot m nets (sendUpto s m nets n) n := by
  rw [sendUpto, List.range_succ, List.foldl_append]
  rfl

/-- What a broadcast has done to the table and to the slots still ahead. -/
theorem sendUpto_same (s : State) (m : Frame) (nets : Nat → Nat → SendAns) :
    ∀ n, SameTable s (sendUpto s m nets n) ∧
      ∀ i, n ≤ i → (sendUpto s m nets n).clients i = s.clients i := by
  intro n
  induction n with
  | zero => exact ⟨SameTable.refl s, fun _ _ => rfl⟩
  | succ n ih =>
    obtain ⟨hsame, hahead⟩ := ih
    rw [sendUpto_succ]
    by_cases hr : Reaches (sendUpto s m nets n) n
    · rw [sendSlot_of_reaches hr]
      refine ⟨hsame.trans (sendClient_same ..), fun i hi => ?_⟩
      rw [sendClient_clients_ne _ _ _ (by omega), hahead i (by omega)]
    · rw [sendSlot_of_not_reaches hr]
      exact ⟨hsame, fun i hi => hahead i (by omega)⟩

/-- **The rule for the loop of `psc_send`**: what each round preserves, with the number of
slots that are behind it. The slot a round is about is still as it was at the start. -/
theorem pscSend_rule {P : Nat → State → Prop} {s : State} {m : Frame}
    {nets : Nat → Nat → SendAns} (h0 : P 0 s)
    (hstep : ∀ n t, n < pscMaxClients → SameTable s t → t.clients n = s.clients n → P n t →
      P (n + 1) (State.sendSlot m nets t n)) :
    P pscMaxClients (s.pscSend m nets) := by
  have hall : ∀ n, n ≤ pscMaxClients → P n (sendUpto s m nets n) := by
    intro n
    induction n with
    | zero => intro _; exact h0
    | succ n ih =>
      intro hn
      obtain ⟨hsame, hahead⟩ := sendUpto_same s m nets n
      rw [sendUpto_succ]
      exact hstep n _ hn hsame (hahead n (Nat.le_refl n)) (ih (Nat.le_of_succ_le hn))
  exact hall pscMaxClients (Nat.le_refl _)

theorem pscSend_same (s : State) (m : Frame) (nets : Nat → Nat → SendAns) :
    SameTable s (s.pscSend m nets) := (sendUpto_same s m nets _).1

/-- A slot is reached with the descriptor it had when the broadcast began. -/
theorem reaches_sendUpto (s : State) (m : Frame) (nets : Nat → Nat → SendAns) (n : Nat) :
    Reaches (sendUpto s m nets n) n ↔ Reaches s n := by
  obtain ⟨hsame, hahead⟩ := sendUpto_same s m nets n
  rw [Reaches, Reaches, hsame.used, hahead n (Nat.le_refl n)]

/-- **The calls of a broadcast**: to each slot it reaches, on that slot's descriptor. -/
theorem sendUpto_calls (s : State) (m : Frame) (nets : Nat → Nat → SendAns) :
    ∀ n, ∃ new, (sendUpto s m nets n).calls = new ++ s.calls ∧
      (∀ c ∈ new, ∃ i, i < n ∧ Reaches s i ∧ c.fd = (s.clients i).sock ∧ c.who = s.owner i) ∧
      ∀ i, i < n → Reaches s i → ∃ c ∈ new, c.fd = (s.clients i).sock ∧ c.who = s.owner i := by
  intro n
  induction n with
  | zero => exact ⟨[], rfl, by simp, fun i hi => absurd hi (Nat.not_lt_zero i)⟩
  | succ n ih =>
    obtain ⟨new, hcalls, hfrom, hall⟩ := ih
    obtain ⟨hsame, hahead⟩ := sendUpto_same s m nets n
    rw [sendUpto_succ]
    by_cases hr : Reaches s n
    · rw [sendSlot_of_reaches ((reaches_sendUpto s m nets n).mpr hr)]
      obtain ⟨more, hmore, hon, c, hc, hcn⟩ :=
        sendClient_calls (sendUpto s m nets n) m (nets n) n
      rw [hahead n (Nat.le_refl n), hsame.owner] at hon hcn
      refine ⟨more ++ new, by rw [hmore, hcalls, List.append_assoc], ?_, ?_⟩
      · intro c' hc'
        rcases List.mem_append.mp hc' with hm | hn
        · exact ⟨n, Nat.lt_succ_self n, hr, hon c' hm⟩
        · obtain ⟨i, hi, h⟩ := hfrom c' hn
          exact ⟨i, by omega, h⟩
      · intro i hi hri
        rcases Nat.lt_succ_iff_lt_or_eq.mp hi with hlt | rfl
        · obtain ⟨c', hc', h⟩ := hall i hlt hri
          exact ⟨c', List.mem_append_right more hc', h⟩
        · exact ⟨c, List.mem_append_left new hc, hcn⟩
    · rw [sendSlot_of_not_reaches (fun h => hr ((reaches_sendUpto s m nets n).mp h))]
      refine ⟨new, hcalls, fun c hc => ?_, fun i hi hri => ?_⟩
      · obtain ⟨i, hi, h⟩ := hfrom c hc
        exact ⟨i, by omega, h⟩
      · rcases Nat.lt_succ_iff_lt_or_eq.mp hi with hlt | rfl
        · exact hall i hlt hri
        · exact absurd hri hr

end Acmi.Server
