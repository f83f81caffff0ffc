import Acmi.Tftp.Card

/-!
# `tftp_server.c`: one step of a session

What a datagram or a tick does to an open session (`turn`), and what it does between two sessions
(`between`). Most of what comes in leaves a session as it is (`Held`): only the clock and the number
of retries move.
-/

namespace Acmi.Tftp

open Acmi.Lib

section

variable {σ η κ : Type} {c : Context σ η κ} {a : Answers κ} {s s' : State σ η} {d : Datagram}
  {e : Event κ} {h : η}

/-- Nothing has changed but the clock. -/
structure Held (s s' : State σ η) : Prop where
  handle : s'.handle = s.handle
  lastData : s'.lastData = s.lastData
  addr : s'.addr = s.addr
  port : s'.port = s.port
  blknum : s'.blknum = s.blknum
  modeWrite : s'.modeWrite = s.modeWrite
  timeouts : s'.timeouts = s.timeouts
  files : s'.files = s.files

theorem Held.refl (s : State σ η) : Held s s := ⟨rfl, rfl, rfl, rfl, rfl, rfl, rfl, rfl⟩

theorem Held.heard (s : State σ η) : Held s s.heard := ⟨rfl, rfl, rfl, rfl, rfl, rfl, rfl, rfl⟩

/-- There is no session, and what the callbacks work on is `files`. -/
structure Gone (files : σ) (s' : State σ η) : Prop where
  handle : s'.handle = none
  lastData : s'.lastData = none
  addr : s'.addr = 0
  port : s'.port = 0
  files : s'.files = files

theorem closeHandle_gone (hopen : s.handle = some h) :
    Gone (c.close s.files h) (closeHandle c s).1 ∧
      (closeHandle c s).1.timeouts = s.timeouts - 1 := by
  unfold closeHandle
  rw [hopen]
  exact ⟨⟨rfl, rfl, rfl, rfl, rfl⟩, rfl⟩

/-- A second `close_handle` does not call the callback again. -/
theorem closeHandle_again {files : σ} (hgone : Gone files s) :
    Gone files (closeHandle c s).1 ∧ (closeHandle c s).1.timeouts = s.timeouts - 1 := by
  unfold closeHandle
  rw [hgone.handle]
  exact ⟨⟨rfl, rfl, rfl, rfl, hgone.files⟩, rfl⟩

/-- The state behind a call of `read`. -/
def State.loaded (c : Context σ η κ) (a : Answers κ) (s : State σ η) (h : η) (p : List Byte) :
    State σ η :=
  { s with
    lastData := some (dataPacket s.blknum p)
    files := (c.read a.io s.files h maxPayload).2 }

/-- The three ways of `send_data`. -/
theorem sendData_cases (hopen : s.handle = some h) :
    (a.dataRoom = false ∧ (sendData c a s h).1 = { s with lastData := none }) ∨
    (∃ p, (c.read a.io s.files h maxPayload).1 = some p ∧
      (sendData c a s h).1 = s.loaded c a h p) ∨
    ((c.read a.io s.files h maxPayload).1 = none ∧
      Gone (c.close (c.read a.io s.files h maxPayload).2 h) (sendData c a s h).1 ∧
      (sendData c a s h).1.timeouts = s.timeouts - 1) := by
  unfold sendData
  cases hroom : a.dataRoom with
  | false => exact Or.inl ⟨rfl, rfl⟩
  | true =>
    refine Or.inr ?_
    rw [if_pos rfl]
    dsimp only
    split
    next hread => exact Or.inr ⟨hread, closeHandle_gone (s := s.loaded c a h []) hopen⟩
    next p hread => exact Or.inl ⟨p, hread, rfl⟩

/-! ## During a session -/

/-- A datagram of the peer, as `recv` deals with it: the clock has moved. -/
inductive Turn (c : Context σ η κ) (s : State σ η) (h : η) : Event κ → State σ η → Prop where
  | held {e : Event κ} {s' : State σ η} (hheld : Held s s') : Turn c s h e s'
  | stored {d : Datagram} {a : Answers κ} {s' : State σ η} (hpeer : ¬ Stranger s d)
      (hdata : DataFor s d h) (hok : (c.write a.io s.files h (body d)).1 = true)
      (hfull : ¬ totLen (body d) < maxPayload)
      (hheld : Held (s.written c a d h).nextBlock s') : Turn c s h (.recv d a) s'
  | sent {d : Datagram} {a : Answers κ} {s' : State σ η} {p : List Byte} (hpeer : ¬ Stranger s d)
      (hack : AckFor s d h) (hmore : lastpkt s = false)
      (hread : (c.read a.io s.files h maxPayload).1 = some p)
      (hheld : Held (s.nextBlock.loaded c a h p) s') : Turn c s h (.recv d a) s'
  | unsent {d : Datagram} {a : Answers κ} {s' : State σ η} (hpeer : ¬ Stranger s d)
      (hack : AckFor s d h) (hmore : lastpkt s = false) (hroom : a.dataRoom = false)
      (hheld : Held { s.nextBlock with lastData := none } s') : Turn c s h (.recv d a) s'
  | storedLast {d : Datagram} {a : Answers κ} {s' : State σ η} (hpeer : ¬ Stranger s d)
      (hdata : DataFor s d h) (hok : (c.write a.io s.files h (body d)).1 = true)
      (hshort : totLen (body d) < maxPayload)
      (hgone : Gone (c.close (c.write a.io s.files h (body d)).2 h) s')
      (htimer : s'.timeouts = s.timeouts - 1) : Turn c s h (.recv d a) s'
  | failed {d : Datagram} {a : Answers κ} {s' : State σ η} (hpeer : ¬ Stranger s d)
      (hdata : DataFor s d h) (hfail : (c.write a.io s.files h (body d)).1 = false)
      (hgone : Gone (c.close (c.write a.io s.files h (body d)).2 h) s')
      (htimer : s'.timeouts ≤ s.timeouts - 1) : Turn c s h (.recv d a) s'
  | readFailed {d : Datagram} {a : Answers κ} {s' : State σ η} (hpeer : ¬ Stranger s d)
      (hack : AckFor s d h) (hmore : lastpkt s = false)
      (hread : (c.read a.io s.files h maxPayload).1 = none)
      (hgone : Gone (c.close (c.read a.io s.files h maxPayload).2 h) s')
      (htimer : s'.timeouts = s.timeouts - 1) : Turn c s h (.recv d a) s'
  | finished {d : Datagram} {a : Answers κ} {s' : State σ η} (hpeer : ¬ Stranger s d)
      (hack : AckFor s d h) (hlast : lastpkt s = true) (hgone : Gone (c.close s.files h) s')
      (htimer : s'.timeouts = s.timeouts - 1) : Turn c s h (.recv d a) s'
  | timedOut {a : Answers κ} {s' : State σ η} (hgone : Gone (c.close s.files h) s')
      (htimer : s'.timeouts = s.timeouts - 1) : Turn c s h (.tick a) s'

/-- `recv` without the free at its end. -/
theorem recv_fst (c : Context σ η κ) (a : Answers κ) (s : State σ η) (d : Datagram) :
    (recv c a s d).1 = if Stranger s d then s else (dispatch c a s.heard d).1 := by
  unfold recv
  split_ifs <;> rfl

/-- The clock of the session, one tick on. -/
def State.ticked (s : State σ η) : State σ η := { s with timer := s.timer + 1 }

/-- What a tick does to a session: nothing for a while, then `last_data` again, then the end. -/
theorem tick_open (hopen : s.handle = some h) (hstep : serverStep c s (.tick a) = some s') :
    (s.timer < s.lastPkt + timeoutTicks ∧ s' = s.ticked) ∨
    (s.lastPkt + timeoutTicks ≤ s.timer ∧ (s.lastData.isSome = true ∧ s.retries < maxRetries) ∧
      s' = { s.ticked with retries := s.retries + 1 }) ∨
    (s.lastPkt + timeoutTicks ≤ s.timer ∧ ¬ (s.lastData.isSome = true ∧ s.retries < maxRetries) ∧
      Gone (c.close s.files h) s' ∧ s'.timeouts = s.timeouts - 1) := by
  obtain ⟨hpending, hs'⟩ := serverStep_tick.mp hstep
  -- the call that expired is pending again
  have hback : s.timeouts - 1 + 1 = s.timeouts := Nat.sub_add_cancel (Nat.pos_of_ne_zero hpending)
  have hagain : ({ s.expired with timer := s.timer + 1, timeouts := s.expired.timeouts + 1 } :
      State σ η) = s.ticked := by
    rw [State.expired, State.ticked, hback]
  have htmr : (tftpTmr c a s.expired).1 =
      if s.lastPkt + timeoutTicks < s.timer + 1 then
        if s.lastData.isSome = true ∧ s.retries < maxRetries then
          { s.ticked with retries := s.retries + 1 }
        else (closeHandle c s.ticked).1
      else s.ticked := by
    rw [← hagain]
    unfold tftpTmr
    dsimp only [State.expired]
    rw [hopen]
    dsimp only
    split_ifs <;> rfl
  rw [hs', htmr]
  split_ifs with hlate hretry
  · exact Or.inr (Or.inl ⟨Nat.le_of_lt_succ hlate, hretry, rfl⟩)
  · exact Or.inr (Or.inr ⟨Nat.le_of_lt_succ hlate, hretry, closeHandle_gone (s := s.ticked) hopen⟩)
  · exact Or.inl ⟨by omega, rfl⟩

theorem tick_turn (hopen : s.handle = some h) (hstep : serverStep c s (.tick a) = some s') :
    Turn c s h (.tick a) s' := by
  rcases tick_open hopen hstep with ⟨-, hs'⟩ | ⟨-, -, hs'⟩ | ⟨-, -, hgone, htimer⟩
  · rw [hs']
    exact .held ⟨rfl, rfl, rfl, rfl, rfl, rfl, rfl, rfl⟩
  · rw [hs']
    exact .held ⟨rfl, rfl, rfl, rfl, rfl, rfl, rfl, rfl⟩
  · exact .timedOut hgone htimer

theorem outcome_turn (hopen : s.handle = some h) (hpeer : ¬ Stranger s d)
    {r : State σ η × List (Action η)} (hcases : Outcome c a s.heard d r) :
    Turn c s h (.recv d a) r.1 := by
  have hbusy : ¬ s.heard.handle = none := by
    show ¬ s.handle = none
    rw [hopen]
    exact Option.some_ne_none h
  cases hcases with
  | answered hanswer => exact .held (.heard s)
  | refused hnone => exact absurd hnone hbusy
  | notFound hnone => exact absurd hnone hbusy
  | upload hnone => exact absurd hnone hbusy
  | download hnone => exact absurd hnone hbusy
  | stored hdata ht hok hfull =>
    obtain rfl := Option.some.inj (hopen.symm.trans hdata.isOpen)
    have hdata' : DataFor s d h := ⟨hopen, hdata.mode, hdata.op, hdata.num⟩
    rw [ht]
    exact .stored hpeer hdata' hok hfull ⟨rfl, rfl, rfl, rfl, rfl, rfl, rfl, rfl⟩
  | storedLast hdata ht hok hshort =>
    obtain rfl := Option.some.inj (hopen.symm.trans hdata.isOpen)
    have hdata' : DataFor s d h := ⟨hopen, hdata.mode, hdata.op, hdata.num⟩
    obtain ⟨hgone, htimer⟩ := closeHandle_gone (c := c) (s := s.heard.written c a d h) hopen
    rw [ht]
    exact .storedLast hpeer hdata' hok hshort hgone htimer
  | failed hdata ht hfail hfull =>
    obtain rfl := Option.some.inj (hopen.symm.trans hdata.isOpen)
    have hdata' : DataFor s d h := ⟨hopen, hdata.mode, hdata.op, hdata.num⟩
    obtain ⟨hgone, htimer⟩ := closeHandle_gone (c := c) (s := s.heard.written c a d h) hopen
    rw [ht]
    exact .failed hpeer hdata' hfail ⟨hgone.handle, hgone.lastData, hgone.addr, hgone.port,
      hgone.files⟩ (Nat.le_of_eq htimer)
  | failedLast hdata ht hfail hshort =>
    obtain rfl := Option.some.inj (hopen.symm.trans hdata.isOpen)
    have hdata' : DataFor s d h := ⟨hopen, hdata.mode, hdata.op, hdata.num⟩
    obtain ⟨hgone, htimer⟩ := closeHandle_gone (c := c) (s := s.heard.written c a d h) hopen
    obtain ⟨hgone', htimer'⟩ := closeHandle_again (c := c) hgone
    rw [ht]
    refine .failed hpeer hdata' hfail hgone' ?_
    rw [htimer', htimer]
    exact Nat.sub_le _ _
  | acked hack hmore =>
    obtain rfl := Option.some.inj (hopen.symm.trans hack.isOpen)
    have hack' : AckFor s d h := ⟨hopen, hack.mode, hack.op, hack.num⟩
    have hopen' : s.heard.nextBlock.handle = some h := hopen
    rcases sendData_cases (c := c) (a := a) hopen' with ⟨hroom, ht⟩ | ⟨p, hread, ht⟩ | hnone
    · rw [ht]
      exact .unsent hpeer hack' hmore hroom ⟨rfl, rfl, rfl, rfl, rfl, rfl, rfl, rfl⟩
    · rw [ht]
      exact .sent hpeer hack' hmore hread ⟨rfl, rfl, rfl, rfl, rfl, rfl, rfl, rfl⟩
    · obtain ⟨hread, hgone, htimer⟩ := hnone
      exact .readFailed hpeer hack' hmore hread hgone htimer
  | ackedLast hack hlast =>
    obtain ⟨hgone, htimer⟩ := closeHandle_gone (c := c) (s := s.heard) hopen
    exact .finished hpeer ⟨hopen, hack.mode, hack.op, hack.num⟩ hlast hgone htimer

/-- **One step of a session.** -/
theorem turn (hopen : s.handle = some h) (hstep : serverStep c s e = some s') :
    Turn c s h e s' := by
  cases e with
  | recv d a =>
    rw [serverStep_recv.mp hstep, recv_fst]
    split_ifs with hpeer
    · exact .held (.refl s)
    · exact outcome_turn hopen hpeer (dispatch_cases c a s.heard d)
  | tick a => exact tick_turn hopen hstep

theorem dispatch_data (hdata : DataFor s d h)
    (hok : (c.write a.io s.files h (body d)).1 = true) :
    (dispatch c a s d).1 =
      if totLen (body d) < maxPayload then (closeHandle c (s.written c a d h)).1
      else (s.written c a d h).nextBlock := by
  have hop := hdata.op
  unfold body at hok ⊢
  unfold dispatch
  dsimp only
  rw [if_neg (hop ▸ by decide), if_neg (hop ▸ by decide), if_pos hop]
  unfold recvData
  split
  next hnone => exact absurd (hdata.isOpen.symm.trans hnone) (Option.some_ne_none h)
  next h' hsome =>
    obtain rfl := Option.some.inj (hdata.isOpen.symm.trans hsome)
    rw [if_pos hdata.mode, if_pos hdata.num]
    dsimp only
    rw [if_pos hok]
    split_ifs <;> rfl

/-- The block that is waited for, when `write` takes it. -/
theorem recv_data (hpeer : ¬ Stranger s d) (hdata : DataFor s d h)
    (hok : (c.write a.io s.files h (body d)).1 = true) :
    (recv c a s d).1 =
      if totLen (body d) < maxPayload then (closeHandle c (s.heard.written c a d h)).1
      else (s.heard.written c a d h).nextBlock := by
  have hdata' : DataFor s.heard d h := ⟨hdata.isOpen, hdata.mode, hdata.op, hdata.num⟩
  rw [recv_fst, if_neg hpeer]
  exact dispatch_data hdata' hok

/-- The acknowledgment that is waited for. -/
theorem recv_ack (hpeer : ¬ Stranger s d) (hack : AckFor s d h) :
    (recv c a s d).1 =
      (if lastpkt s then closeHandle c s.heard else sendData c a s.heard.nextBlock h).1 ∧
    (recv c a s d).2 =
      (if lastpkt s then closeHandle c s.heard else sendData c a s.heard.nextBlock h).2 ++
        [.free .received] := by
  have hop := hack.op
  have hdispatch : dispatch c a s.heard d =
      if lastpkt s then closeHandle c s.heard else sendData c a s.heard.nextBlock h := by
    unfold dispatch
    dsimp only
    rw [if_neg (hop ▸ by decide), if_neg (hop ▸ by decide), if_neg (hop ▸ by decide), if_pos hop]
    unfold recvAck
    split
    next hnone => exact absurd (hack.isOpen.symm.trans hnone) (Option.some_ne_none h)
    next h' hsome =>
      obtain rfl := Option.some.inj (hack.isOpen.symm.trans hsome)
      have hmode : ¬ s.heard.modeWrite = true := by
        show ¬ s.modeWrite = true
        rw [hack.mode]
        exact Bool.false_ne_true
      have hnum : ¬ d.sbuf 1 ≠ s.heard.blknum := not_not.mpr hack.num
      rw [if_neg hmode, if_neg hnum]
      rfl
  unfold recv
  rw [if_neg hpeer, hdispatch]
  exact ⟨rfl, rfl⟩

/-! ## Between two sessions -/

/-- What is left of a session that was closed: nothing. -/
structure Closed (s : State σ η) : Prop where
  handle : s.handle = none
  lastData : s.lastData = none
  addr : s.addr = 0
  port : s.port = 0

theorem Closed.not_stranger (hclosed : Closed s) (d : Datagram) : ¬ Stranger s d := by
  unfold Stranger
  rw [hclosed.addr, hclosed.port]
  simp

theorem tftpInit_closed (files : σ) : Closed (tftpInit η files) := ⟨rfl, rfl, rfl, rfl⟩

theorem Gone.closed {files : σ} (hgone : Gone files s) : Closed s :=
  ⟨hgone.handle, hgone.lastData, hgone.addr, hgone.port⟩

/-- The request gets to `open`, and what `open` returns is `r`. -/
def Calls (c : Context σ η κ) (a : Answers κ) (s : State σ η) (d : Datagram) (write : Bool)
    (r : Option η × σ) : Prop :=
  ∃ filename mode, request d.p.flatten = .ok (filename, mode) ∧
    r = c.openFile a.io s.files (cstr filename 0) (cstr mode 0) write

inductive Between (c : Context σ η κ) (s : State σ η) : Event κ → State σ η → Prop where
  | idle {d : Datagram} {a : Answers κ} {s' : State σ η} (hheld : Held s s') :
      Between c s (.recv d a) s'
  | expired {a : Answers κ} {s' : State σ η} (hpending : s.timeouts ≠ 0)
      (hheld : Held s.expired s') : Between c s (.tick a) s'
  | refused {d : Datagram} {a : Answers κ} {s' : State σ η} {str : String} {write : Bool}
      (hop : d.sbuf 0 = requestOp write) (hreq : request d.p.flatten = .error str)
      (hheld : Held { s with timeouts := s.timeouts + 1 } s') : Between c s (.recv d a) s'
  | notFound {d : Datagram} {a : Answers κ} {s' : State σ η} {write : Bool} {r : Option η × σ}
      (hop : d.sbuf 0 = requestOp write) (hcall : Calls c a s d write r) (hnull : r.1 = none)
      (hheld : Held (s.opened r) s') : Between c s (.recv d a) s'
  | upload {d : Datagram} {a : Answers κ} {s' : State σ η} {r : Option η × σ} {h : η}
      (hop : d.sbuf 0 = tftpWrq) (hcall : Calls c a s d true r) (hopen : r.1 = some h)
      (hheld : Held ((s.opened r).session d true) s') : Between c s (.recv d a) s'
  | download {d : Datagram} {a : Answers κ} {s' : State σ η} {r : Option η × σ} {h : η}
      {p : List Byte} (hop : d.sbuf 0 = tftpRrq) (hcall : Calls c a s d false r)
      (hopen : r.1 = some h) (hread : (c.read a.io r.2 h maxPayload).1 = some p)
      (hheld : Held (((s.opened r).session d false).loaded c a h p) s') : Between c s (.recv d a) s'
  | unsent {d : Datagram} {a : Answers κ} {s' : State σ η} {r : Option η × σ} {h : η}
      (hop : d.sbuf 0 = tftpRrq) (hcall : Calls c a s d false r) (hopen : r.1 = some h)
      (hheld : Held { (s.opened r).session d false with lastData := none } s') :
      Between c s (.recv d a) s'
  | readFailed {d : Datagram} {a : Answers κ} {s' : State σ η} {r : Option η × σ} {h : η}
      (hop : d.sbuf 0 = tftpRrq) (hcall : Calls c a s d false r) (hopen : r.1 = some h)
      (hread : (c.read a.io r.2 h maxPayload).1 = none)
      (hgone : Gone (c.close (c.read a.io r.2 h maxPayload).2 h) s')
      (htimer : s'.timeouts = s.timeouts) : Between c s (.recv d a) s'

theorem outcome_between (hclosed : Closed s) {r : State σ η × List (Action η)}
    (hcases : Outcome c a s.heard d r) : Between c s (.recv d a) r.1 := by
  -- there is no file that a block or an acknowledgment could be for
  have hnone : ∀ h, ¬ s.heard.handle = some h := by
    intro h hopen
    have hopen' : s.handle = some h := hopen
    rw [hclosed.handle] at hopen'
    cases hopen'
  cases hcases with
  | answered hanswer => exact .idle (.heard s)
  | refused _ hop hreq => exact .refused hop hreq ⟨rfl, rfl, rfl, rfl, rfl, rfl, rfl, rfl⟩
  | notFound _ hop hreq hnull =>
    exact .notFound hop ⟨_, _, hreq, rfl⟩ hnull ⟨rfl, rfl, rfl, rfl, rfl, rfl, rfl, rfl⟩
  | upload _ hop hreq hopen =>
    exact .upload hop ⟨_, _, hreq, rfl⟩ hopen ⟨rfl, rfl, rfl, rfl, rfl, rfl, rfl, rfl⟩
  | @download filename mode h t _ hop hreq hopen ht =>
    have hopen' : t.handle = some h := by
      rw [ht]
      exact hopen
    rcases sendData_cases (c := c) (a := a) hopen' with ⟨hroom, hs'⟩ | ⟨p, hread, hs'⟩ | hfailed
    · rw [hs', ht]
      exact .unsent hop ⟨_, _, hreq, rfl⟩ hopen ⟨rfl, rfl, rfl, rfl, rfl, rfl, rfl, rfl⟩
    · rw [ht] at hread
      rw [hs', ht]
      exact .download hop ⟨_, _, hreq, rfl⟩ hopen hread ⟨rfl, rfl, rfl, rfl, rfl, rfl, rfl, rfl⟩
    · rw [ht] at hfailed
      rw [ht]
      exact .readFailed hop ⟨_, _, hreq, rfl⟩ hopen hfailed.1 hfailed.2.1 hfailed.2.2
  | stored hdata => exact absurd hdata.isOpen (hnone _)
  | storedLast hdata => exact absurd hdata.isOpen (hnone _)
  | failed hdata => exact absurd hdata.isOpen (hnone _)
  | failedLast hdata => exact absurd hdata.isOpen (hnone _)
  | acked hack => exact absurd hack.isOpen (hnone _)
  | ackedLast hack => exact absurd hack.isOpen (hnone _)

/-- **One step between two sessions.** -/
theorem between (hclosed : Closed s) (hstep : serverStep c s e = some s') :
    Between c s e s' := by
  cases e with
  | recv d a =>
    rw [serverStep_recv.mp hstep, recv_fst, if_neg (hclosed.not_stranger d)]
    exact outcome_between hclosed (dispatch_cases c a s.heard d)
  | tick a =>
    obtain ⟨hpending, hs'⟩ := serverStep_tick.mp hstep
    have hnone : s.expired.handle = none := hclosed.handle
    rw [hs', tftpTmr, hnone]
    exact .expired hpending ⟨hclosed.handle.symm, rfl, rfl, rfl, rfl, rfl, rfl, rfl⟩

/-- Without a request there is no session, and the files stay as they are. -/
theorem closed_step (hclosed : Closed s)
    (hno : ∀ d a, e = .recv d a → d.sbuf 0 ≠ tftpRrq ∧ d.sbuf 0 ≠ tftpWrq)
    (hstep : serverStep c s e = some s') : Closed s' ∧ s'.files = s.files := by
  have hheld : ∀ {t : State σ η}, Held t s' → Closed t → t.files = s.files →
      Closed s' ∧ s'.files = s.files := by
    intro t hh ht hfiles
    exact ⟨⟨hh.handle.trans ht.handle, hh.lastData.trans ht.lastData, hh.addr.trans ht.addr,
      hh.port.trans ht.port⟩, hh.files.trans hfiles⟩
  have hop : ∀ {d : Datagram} {a : Answers κ} (write : Bool), e = .recv d a →
      ¬ d.sbuf 0 = requestOp write := by
    intro d a write he hop
    obtain ⟨hrrq, hwrq⟩ := hno d a he
    cases write with
    | true => exact hwrq hop
    | false => exact hrrq hop
  cases between hclosed hstep with
  | idle hh => exact hheld hh hclosed rfl
  | expired _ hh =>
    exact hheld hh ⟨hclosed.handle, hclosed.lastData, hclosed.addr, hclosed.port⟩ rfl
  | refused hreq => exact absurd hreq (hop _ rfl)
  | notFound hreq => exact absurd hreq (hop _ rfl)
  | upload hreq => exact absurd hreq (hop true rfl)
  | download hreq => exact absurd hreq (hop false rfl)
  | unsent hreq => exact absurd hreq (hop false rfl)
  | readFailed hreq => exact absurd hreq (hop false rfl)

/-- Behind every step there is a session, or nothing is left of one. -/
theorem open_or_closed (hs : s.handle.isSome = true ∨ Closed s)
    (hstep : serverStep c s e = some s') : s'.handle.isSome = true ∨ Closed s' := by
  rcases hs with hopen | hclosed
  · obtain ⟨h, hopen⟩ := Option.isSome_iff_exists.mp hopen
    have hheld : ∀ {t : State σ η}, Held t s' → t.handle = some h → s'.handle.isSome = true := by
      intro t hh ht
      rw [hh.handle, ht]
      rfl
    cases turn hopen hstep with
    | held hh => exact Or.inl (hheld hh hopen)
    | stored _ hdata _ _ hh => exact Or.inl (hheld hh hopen)
    | sent _ _ _ _ hh => exact Or.inl (hheld hh hopen)
    | unsent _ _ _ _ hh => exact Or.inl (hheld hh hopen)
    | storedLast _ _ _ _ hgone => exact Or.inr hgone.closed
    | failed _ _ _ hgone => exact Or.inr hgone.closed
    | readFailed _ _ _ _ hgone => exact Or.inr hgone.closed
    | finished _ _ _ hgone => exact Or.inr hgone.closed
    | timedOut hgone => exact Or.inr hgone.closed
  · have hheld : ∀ {t : State σ η}, Held t s' → t.handle = none → t.lastData = none →
        t.addr = 0 → t.port = 0 → Closed s' := by
      intro t hh h1 h2 h3 h4
      exact ⟨hh.handle.trans h1, hh.lastData.trans h2, hh.addr.trans h3, hh.port.trans h4⟩
    have hopened : ∀ {t : State σ η} {h : η}, Held t s' → t.handle = some h →
        s'.handle.isSome = true := by
      intro t h hh h1
      rw [hh.handle, h1]
      rfl
    obtain ⟨h1, h2, h3, h4⟩ := hclosed
    cases between ⟨h1, h2, h3, h4⟩ hstep with
    | idle hh => exact Or.inr (hheld hh h1 h2 h3 h4)
    | expired _ hh => exact Or.inr (hheld hh h1 h2 h3 h4)
    | refused _ _ hh => exact Or.inr (hheld hh h1 h2 h3 h4)
    | notFound _ _ hnull hh => exact Or.inr (hheld hh hnull h2 h3 h4)
    | upload _ _ hopen hh => exact Or.inl (hopened hh hopen)
    | download _ _ hopen _ hh => exact Or.inl (hopened hh hopen)
    | unsent _ _ hopen hh => exact Or.inl (hopened hh hopen)
    | readFailed _ _ _ _ hgone => exact Or.inr hgone.closed

theorem run_open_or_closed {files : σ} {es : List (Event κ)}
    (hrun : runFrom (serverStep c) (tftpInit η files) es = some s) :
    s.handle.isSome = true ∨ Closed s :=
  runFrom_invariant (I := fun t => t.handle.isSome = true ∨ Closed t)
    (fun _ _ _ hs hstep => open_or_closed hs hstep) (Or.inr (tftpInit_closed files)) hrun

theorem closed_of_run {files : σ} {es : List (Event κ)}
    (hrun : runFrom (serverStep c) (tftpInit η files) es = some s) (hnone : s.handle = none) :
    Closed s := by
  rcases run_open_or_closed hrun with hsome | hclosed
  · rw [hnone] at hsome
    exact absurd hsome Bool.false_ne_true
  · exact hclosed

end

end Acmi.Tftp
