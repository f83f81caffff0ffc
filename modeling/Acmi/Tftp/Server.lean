import Acmi.Lib.Trace
import Acmi.Tftp.Request

/-!
# `tftp_server.c`: the server

One session at a time: a request opens a file, then blocks come in and are acknowledged (an upload),
or blocks go out and acknowledgments come in (a download), until the short block, an error or the
timeout closes it. The server reacts to two things, a datagram (`recv`) and the timer (`tftpTmr`);
a run is any list of these.

A reaction is the state behind it and the list of what was done on the way: messages, calls of the
callbacks, and the pbufs taken and given back.

Mirroring notes:
- The callbacks are a parameter (`Context`), as in the source.
- `Answers` says what the outside decides: whether `pbuf_alloc` finds a pbuf, once for `last_data`
  and once for a message (no reaction asks more often), and what the callbacks depend on.
- `timeouts` counts the calls of `tftp_tmr` that are pending in the timer list. `sys_timeout` adds
  one, `sys_untimeout` takes one away, and a tick is the expiry of one.
- `timer` counts seconds and stays below 2^31, so it does not wrap. `pbuf_copy` to a pbuf of the
  same length does not fail, and `udp_sendto` has no effect on the server.
-/

namespace Acmi.Tftp

open Acmi.Lib Acmi.Sdcard

/-! ## The outside -/

/-- Where a message goes. -/
structure Peer where
  addr : BitVec 32
  port : BitVec 16
  deriving DecidableEq

def Datagram.peer (d : Datagram) : Peer := ⟨d.addr, d.port⟩

/-- `struct tftp_context`. The callbacks work on `σ`, `η` are the handles, and `κ` is what they find
outside. No result of `read` and `false` of `write` are the negative return values. -/
structure Context (σ η κ : Type) where
  openFile : κ → σ → List Byte → List Byte → Bool → Option η × σ
  close : σ → η → σ
  read : κ → σ → η → Nat → Option (List Byte) × σ
  write : κ → σ → η → List (List Byte) → Bool × σ
  read_le : ∀ io files h n bs, (read io files h n).1 = some bs → bs.length ≤ n

structure Answers (κ : Type) where
  /-- Is there a pbuf for `last_data`? -/
  dataRoom : Bool
  /-- Is there one for a message? -/
  msgRoom : Bool
  io : κ

/-- The three pbufs a reaction has to do with. -/
inductive Buffer where
  | received
  | message
  | lastData
  deriving DecidableEq

inductive Action (η : Type) where
  | alloc (b : Buffer)
  | free (b : Buffer)
  | send (dest : Peer) (payload : List Byte)
  | openFile (filename mode : List Byte) (write : Bool) (h : Option η)
  | close (h : η)
  | read (h : η)
  | write (h : η) (p : List (List Byte))
  deriving DecidableEq

/-! ## State and packets -/

/-- `struct tftp_state`, the timer list, and what the callbacks work on. -/
structure State (σ η : Type) where
  handle : Option η
  lastData : Option (List Byte)
  addr : BitVec 32
  port : BitVec 16
  timer : Nat
  lastPkt : Nat
  blknum : BitVec 16
  retries : Nat
  modeWrite : Bool
  timeouts : Nat
  files : σ

/-- After `tftp_init`; what it does not set is static and zero. -/
def tftpInit {σ : Type} (η : Type) (files : σ) : State σ η :=
  ⟨none, none, 0, 0, 0, 0, 0, 0, false, 0, files⟩

def State.peer {σ η : Type} (s : State σ η) : Peer := ⟨s.addr, s.port⟩

/-- The opcodes. -/
def tftpRrq : BitVec 16 := 1
def tftpWrq : BitVec 16 := 2
def tftpData : BitVec 16 := 3
def tftpAck : BitVec 16 := 4
def tftpErrorOp : BitVec 16 := 5

/-- `TFTP_MAX_PAYLOAD_SIZE` -/
def maxPayload : Nat := 512

/-- `TFTP_TIMEOUT_MSECS / TFTP_TIMER_MSECS` -/
def timeoutTicks : Nat := 10

/-- `TFTP_MAX_RETRIES` -/
def maxRetries : Nat := 5

/-- Those of `enum tftp_error` that are sent. -/
inductive TftpError where
  | fileNotFound
  | accessViolation
  | illegalOperation
  | unknownTrfrId
  deriving DecidableEq

def TftpError.code : TftpError → BitVec 16
  | fileNotFound => 1
  | accessViolation => 2
  | illegalOperation => 4
  | unknownTrfrId => 5

def errorPacket (code : TftpError) (str : String) : List Byte :=
  be16 tftpErrorOp ++ (be16 code.code ++ (ascii str ++ [0]))

def ackPacket (blknum : BitVec 16) : List Byte := be16 tftpAck ++ be16 blknum

def dataPacket (blknum : BitVec 16) (payload : List Byte) : List Byte :=
  be16 tftpData ++ (be16 blknum ++ payload)

/-! ## Sending -/

section

variable {σ η κ : Type} (c : Context σ η κ) (a : Answers κ)

/-- A message in a pbuf of its own; without one nothing is sent. -/
def message (dest : Peer) (payload : List Byte) : List (Action η) :=
  if a.msgRoom then [.alloc .message, .send dest payload, .free .message] else []

def sendError (dest : Peer) (code : TftpError) (str : String) : List (Action η) :=
  message a dest (errorPacket code str)

def sendAck (s : State σ η) (blknum : BitVec 16) : List (Action η) :=
  message a s.peer (ackPacket blknum)

/-- `resend_data`; the callers have a `last_data`. -/
def resendData (s : State σ η) : List (Action η) :=
  match s.lastData with
  | none => []
  | some p => message a s.peer p

/-- `pbuf_free(tftp_state.last_data)`, if there is one -/
def freeLastData (s : State σ η) : List (Action η) :=
  if s.lastData.isSome then [.free .lastData] else []

def closeHandle (s : State σ η) : State σ η × List (Action η) :=
  let s' := { s with
    port := 0
    addr := 0
    lastData := none
    timeouts := s.timeouts - 1
    handle := none }
  match s.handle with
  | none => (s', freeLastData s)
  | some h => ({ s' with files := c.close s.files h }, freeLastData s ++ [.close h])

def sendData (s : State σ η) (h : η) : State σ η × List (Action η) :=
  if a.dataRoom then
    let r := c.read a.io s.files h maxPayload
    match r.1 with
    | none =>
      -- the pbuf has a header and no data when `close_handle` frees it
      let s' := { s with lastData := some (dataPacket s.blknum []), files := r.2 }
      let t := closeHandle c s'
      (t.1, freeLastData s ++ (.alloc .lastData :: .read h ::
        (sendError a s.peer .accessViolation "Error occurred while reading the file." ++ t.2)))
    | some payload =>
      let s' := { s with lastData := some (dataPacket s.blknum payload), files := r.2 }
      (s', freeLastData s ++ (.alloc .lastData :: .read h :: resendData a s'))
  else ({ s with lastData := none }, freeLastData s)

/-! ## `recv` -/

/-- The datagram is not from the peer of the session. -/
def Stranger (s : State σ η) (d : Datagram) : Prop :=
  (s.port ≠ 0 ∧ d.port ≠ s.port) ∨ (s.addr ≠ 0 ∧ s.addr ≠ d.addr)

instance (s : State σ η) (d : Datagram) : Decidable (Stranger s d) :=
  inferInstanceAs (Decidable (_ ∨ _))

/-- `case PP_HTONS(TFTP_RRQ)` and `case PP_HTONS(TFTP_WRQ)` -/
def recvRequest (s : State σ η) (d : Datagram) (write : Bool) : State σ η × List (Action η) :=
  if s.handle.isSome then
    (s, sendError a d.peer .accessViolation "Only one connection at a time is supported")
  else
    let s := { s with timeouts := s.timeouts + 1 }
    match request d.p.flatten with
    | .error str => (s, sendError a d.peer .accessViolation str)
    | .ok (filename, mode) =>
      let r := c.openFile a.io s.files (cstr filename 0) (cstr mode 0) write
      let s := { s with handle := r.1, files := r.2, blknum := 1 }
      let called := .openFile (cstr filename 0) (cstr mode 0) write r.1
      match r.1 with
      | none =>
        (s, called :: sendError a d.peer .fileNotFound "Unable to open requested file.")
      | some h =>
        let s := { s with addr := d.addr, port := d.port, modeWrite := write }
        if write then (s, called :: sendAck a s 0)
        else
          let t := sendData c a s h
          (t.1, called :: t.2)

/-- `pbuf_remove_header`, which does nothing when the first link is too short -/
def pbufRemoveHeader (p : List (List Byte)) (n : Nat) : List (List Byte) :=
  match p with
  | [] => []
  | link :: rest => if link.length < n then link :: rest else link.drop n :: rest

/-- `case PP_HTONS(TFTP_DATA)` -/
def recvData (s : State σ η) (d : Datagram) : State σ η × List (Action η) :=
  match s.handle with
  | none => (s, sendError a d.peer .accessViolation "No connection")
  | some h =>
    if s.modeWrite then
      let blknum := d.sbuf 1
      if blknum = s.blknum then
        let p := pbufRemoveHeader d.p 4
        let r := c.write a.io s.files h p
        let s := { s with files := r.2 }
        let t :=
          if r.1 then (s, sendAck a s blknum)
          else
            let t := closeHandle c s
            (t.1, sendError a d.peer .accessViolation "error writing file" ++ t.2)
        let u :=
          if totLen p < maxPayload then closeHandle c t.1
          else ({ t.1 with blknum := t.1.blknum + 1 }, [])
        (u.1, .write h p :: (t.2 ++ u.2))
      else if blknum + 1 = s.blknum then (s, sendAck a s blknum)
      else (s, sendError a d.peer .unknownTrfrId "Wrong block number")
    else (s, sendError a d.peer .accessViolation "Not a write connection")

/-- `last_data` was shorter than a full block. -/
def lastpkt (s : State σ η) : Bool :=
  match s.lastData with
  | none => false
  | some p => p.length != maxPayload + 4

/-- `case PP_HTONS(TFTP_ACK)` -/
def recvAck (s : State σ η) (d : Datagram) : State σ η × List (Action η) :=
  match s.handle with
  | none => (s, sendError a d.peer .accessViolation "No connection")
  | some h =>
    if s.modeWrite then (s, sendError a d.peer .accessViolation "Not a read connection")
    else if d.sbuf 1 ≠ s.blknum then (s, sendError a d.peer .unknownTrfrId "Wrong block number")
    else if lastpkt s then closeHandle c s
    else sendData c a { s with blknum := s.blknum + 1 } h

/-- The `switch` of `recv`. -/
def dispatch (s : State σ η) (d : Datagram) : State σ η × List (Action η) :=
  let opcode := d.sbuf 0
  if opcode = tftpRrq then recvRequest c a s d false
  else if opcode = tftpWrq then recvRequest c a s d true
  else if opcode = tftpData then recvData c a s d
  else if opcode = tftpAck then recvAck c a s d
  else (s, sendError a d.peer .illegalOperation "Unknown operation")

/-- What `recv` notes of every datagram of the session. -/
def State.heard (s : State σ η) : State σ η := { s with lastPkt := s.timer, retries := 0 }

def recv (s : State σ η) (d : Datagram) : State σ η × List (Action η) :=
  let r :=
    if Stranger s d then
      (s, sendError a d.peer .accessViolation "Only one connection at a time is supported")
    else dispatch c a s.heard d
  (r.1, r.2 ++ [.free .received])

def tftpTmr (s : State σ η) : State σ η × List (Action η) :=
  let s := { s with timer := s.timer + 1 }
  match s.handle with
  | none => (s, [])
  | some _ =>
    let s := { s with timeouts := s.timeouts + 1 }
    if s.lastPkt + timeoutTicks < s.timer then
      if s.lastData.isSome ∧ s.retries < maxRetries then
        ({ s with retries := s.retries + 1 }, resendData a s)
      else closeHandle c s
    else (s, [])

/-! ## Runs -/

inductive Event (κ : Type) where
  | recv (d : Datagram) (a : Answers κ)
  | tick (a : Answers κ)

/-- A tick takes a pending call from the timer list. The stack hands over a pbuf with a datagram. -/
def react (s : State σ η) : Event κ → Option (State σ η × List (Action η))
  | .recv d a =>
    let r := recv c a s d
    some (r.1, .alloc .received :: r.2)
  | .tick a =>
    if s.timeouts = 0 then none
    else some (tftpTmr c a { s with timeouts := s.timeouts - 1 })

def serverStep (s : State σ η) (e : Event κ) : Option (State σ η) := (react c s e).map Prod.fst

/-- What is done in a step. -/
def actions (s : State σ η) (e : Event κ) : List (Action η) :=
  match react c s e with
  | none => []
  | some r => r.2

/-- The state when the pending call is made. -/
def State.expired (s : State σ η) : State σ η := { s with timeouts := s.timeouts - 1 }

/-! ## What a datagram can do -/

/-- What is sent when nothing else happens: an error, or the last acknowledgment again. -/
def Answer (s : State σ η) (dest : Peer) (payload : List Byte) : Prop :=
  (∃ code str, payload = errorPacket code str) ∨
    s.handle.isSome ∧ s.modeWrite = true ∧ dest = s.peer ∧
      ∃ n, n + 1 = s.blknum ∧ payload = ackPacket n

/-- The state behind a call of `open`. -/
def State.opened (s : State σ η) (r : Option η × σ) : State σ η :=
  { s with timeouts := s.timeouts + 1, handle := r.1, files := r.2, blknum := 1 }

/-- The state with a session of the sender. -/
def State.session (s : State σ η) (d : Datagram) (write : Bool) : State σ η :=
  { s with addr := d.addr, port := d.port, modeWrite := write }

/-- `p` behind its header -/
def body (d : Datagram) : List (List Byte) := pbufRemoveHeader d.p 4

/-- The state behind a call of `write`. -/
def State.written (s : State σ η) (d : Datagram) (h : η) : State σ η :=
  { s with files := (c.write a.io s.files h (body d)).2 }

/-- The state with the next block. -/
def State.nextBlock (s : State σ η) : State σ η := { s with blknum := s.blknum + 1 }

/-- The opcode of a request. -/
def requestOp (write : Bool) : BitVec 16 := if write then tftpWrq else tftpRrq

/-- The next block of an upload. -/
structure DataFor (s : State σ η) (d : Datagram) (h : η) : Prop where
  isOpen : s.handle = some h
  mode : s.modeWrite = true
  op : d.sbuf 0 = tftpData
  num : d.sbuf 1 = s.blknum

/-- The acknowledgment that a download waits for. -/
structure AckFor (s : State σ η) (d : Datagram) (h : η) : Prop where
  isOpen : s.handle = some h
  mode : s.modeWrite = false
  op : d.sbuf 0 = tftpAck
  num : d.sbuf 1 = s.blknum

/-- **Everything that a datagram of the session, or one between two sessions, can do.** -/
inductive Outcome (s : State σ η) (d : Datagram) : State σ η × List (Action η) → Prop where
  | answered {dest : Peer} {payload : List Byte} (h : Answer s dest payload) :
      Outcome s d (s, message a dest payload)
  | refused {str : String} {write : Bool} (hnone : s.handle = none)
      (hop : d.sbuf 0 = requestOp write) (hreq : request d.p.flatten = .error str) :
      Outcome s d ({ s with timeouts := s.timeouts + 1 },
        sendError a d.peer .accessViolation str)
  | notFound {filename mode : List Byte} {write : Bool} (hnone : s.handle = none)
      (hop : d.sbuf 0 = requestOp write) (hreq : request d.p.flatten = .ok (filename, mode))
      (hnull : (c.openFile a.io s.files (cstr filename 0) (cstr mode 0) write).1 = none) :
      Outcome s d (s.opened (c.openFile a.io s.files (cstr filename 0) (cstr mode 0) write),
        .openFile (cstr filename 0) (cstr mode 0) write none ::
          sendError a d.peer .fileNotFound "Unable to open requested file.")
  | upload {filename mode : List Byte} {h : η} (hnone : s.handle = none)
      (hop : d.sbuf 0 = tftpWrq) (hreq : request d.p.flatten = .ok (filename, mode))
      (hopen : (c.openFile a.io s.files (cstr filename 0) (cstr mode 0) true).1 = some h) :
      Outcome s d
        ((s.opened (c.openFile a.io s.files (cstr filename 0) (cstr mode 0) true)).session d true,
          .openFile (cstr filename 0) (cstr mode 0) true (some h) ::
            message a d.peer (ackPacket 0))
  | download {filename mode : List Byte} {h : η} {t : State σ η} (hnone : s.handle = none)
      (hop : d.sbuf 0 = tftpRrq) (hreq : request d.p.flatten = .ok (filename, mode))
      (hopen : (c.openFile a.io s.files (cstr filename 0) (cstr mode 0) false).1 = some h)
      (ht : t = (s.opened
        (c.openFile a.io s.files (cstr filename 0) (cstr mode 0) false)).session d false) :
      Outcome s d ((sendData c a t h).1,
        .openFile (cstr filename 0) (cstr mode 0) false (some h) :: (sendData c a t h).2)
  | stored {h : η} {t : State σ η} (hdata : DataFor s d h) (ht : t = s.written c a d h)
      (hok : (c.write a.io s.files h (body d)).1 = true) (hfull : ¬ totLen (body d) < maxPayload) :
      Outcome s d (t.nextBlock, .write h (body d) :: (sendAck a t s.blknum ++ []))
  | storedLast {h : η} {t : State σ η} (hdata : DataFor s d h) (ht : t = s.written c a d h)
      (hok : (c.write a.io s.files h (body d)).1 = true) (hshort : totLen (body d) < maxPayload) :
      Outcome s d ((closeHandle c t).1,
        .write h (body d) :: (sendAck a t s.blknum ++ (closeHandle c t).2))
  | failed {h : η} {t : State σ η} (hdata : DataFor s d h) (ht : t = s.written c a d h)
      (hfail : (c.write a.io s.files h (body d)).1 = false)
      (hfull : ¬ totLen (body d) < maxPayload) :
      Outcome s d ((closeHandle c t).1.nextBlock,
        .write h (body d) :: (sendError a d.peer .accessViolation "error writing file" ++
          (closeHandle c t).2 ++ []))
  | failedLast {h : η} {t : State σ η} (hdata : DataFor s d h) (ht : t = s.written c a d h)
      (hfail : (c.write a.io s.files h (body d)).1 = false)
      (hshort : totLen (body d) < maxPayload) :
      Outcome s d ((closeHandle c (closeHandle c t).1).1,
        .write h (body d) :: (sendError a d.peer .accessViolation "error writing file" ++
          (closeHandle c t).2 ++ (closeHandle c (closeHandle c t).1).2))
  | acked {h : η} (hack : AckFor s d h) (hmore : lastpkt s = false) :
      Outcome s d (sendData c a s.nextBlock h)
  | ackedLast {h : η} (hack : AckFor s d h) (hlast : lastpkt s = true) :
      Outcome s d (closeHandle c s)

variable {c a} {s : State σ η} {d : Datagram}

theorem serverStep_recv {s' : State σ η} :
    serverStep c s (.recv d a) = some s' ↔ s' = (recv c a s d).1 := by
  rw [serverStep, react]
  exact ⟨fun h => (Option.some.inj h).symm, fun h => congrArg some h.symm⟩

theorem serverStep_tick {s' : State σ η} :
    serverStep c s (.tick a) = some s' ↔
      s.timeouts ≠ 0 ∧ s' = (tftpTmr c a s.expired).1 := by
  rw [serverStep, react]
  split_ifs with hnone
  · exact ⟨fun h => absurd h.symm (Option.some_ne_none s'), fun h => absurd hnone h.1⟩
  · exact ⟨fun h => ⟨hnone, (Option.some.inj h).symm⟩, fun h => congrArg some h.2.symm⟩

theorem actions_tick (h : s.timeouts ≠ 0) :
    actions c s (.tick a) = (tftpTmr c a s.expired).2 := by
  rw [actions, react, if_neg h]
  rfl

/-- An error is an answer in every state. -/
theorem Outcome.error (dest : Peer) (code : TftpError) (str : String) :
    Outcome c a s d (s, sendError a dest code str) :=
  .answered (Or.inl ⟨code, str, rfl⟩)

theorem recvRequest_cases {write : Bool} (hop : d.sbuf 0 = requestOp write) :
    Outcome c a s d (recvRequest c a s d write) := by
  unfold recvRequest
  by_cases hbusy : s.handle.isSome = true
  · rw [if_pos hbusy]
    exact .error _ _ _
  rw [if_neg hbusy]
  have hnone : s.handle = none := by simpa using hbusy
  cases hreq : request d.p.flatten with
  | error str => exact .refused hnone hop hreq
  | ok names =>
    dsimp only
    split
    next hnull =>
      have h := Outcome.notFound (c := c) (a := a) hnone hop hreq hnull
      rwa [← hnull] at h
    next h hopen =>
      cases write with
      | true =>
        have h := Outcome.upload (c := c) (a := a) hnone hop hreq hopen
        rwa [← hopen] at h
      | false =>
        have h := Outcome.download (c := c) (a := a) hnone hop hreq hopen rfl
        rwa [← hopen] at h

theorem recvData_cases (hop : d.sbuf 0 = tftpData) : Outcome c a s d (recvData c a s d) := by
  unfold recvData
  cases hopen : s.handle with
  | none => exact .error _ _ _
  | some h =>
    dsimp only
    by_cases hmode : s.modeWrite = true
    · rw [if_pos hmode]
      by_cases hnum : d.sbuf 1 = s.blknum
      · rw [if_pos hnum]
        have hdata : DataFor s d h := ⟨hopen, hmode, hop, hnum⟩
        have ht : { s with
            handle := some h
            files := (c.write a.io s.files h (pbufRemoveHeader d.p 4)).2 } =
              s.written c a d h := by
          rw [State.written, hopen]
          rfl
        cases hok : (c.write a.io s.files h (pbufRemoveHeader d.p 4)).1 with
        | true =>
          by_cases hshort : totLen (pbufRemoveHeader d.p 4) < maxPayload
          · rw [if_pos rfl, if_pos hshort, hnum]
            exact .storedLast hdata ht hok hshort
          · rw [if_pos rfl, if_neg hshort, hnum]
            exact .stored hdata ht hok hshort
        | false =>
          by_cases hshort : totLen (pbufRemoveHeader d.p 4) < maxPayload
          · rw [if_neg Bool.false_ne_true, if_pos hshort]
            exact .failedLast hdata ht hok hshort
          · rw [if_neg Bool.false_ne_true, if_neg hshort]
            exact .failed hdata ht hok hshort
      · rw [if_neg hnum]
        by_cases hagain : d.sbuf 1 + 1 = s.blknum
        · rw [if_pos hagain]
          have hsome : s.handle.isSome = true := by rw [hopen]; rfl
          exact .answered (Or.inr ⟨hsome, hmode, rfl, _, hagain, rfl⟩)
        · rw [if_neg hagain]
          exact .error _ _ _
    · rw [if_neg hmode]
      exact .error _ _ _

theorem recvAck_cases (hop : d.sbuf 0 = tftpAck) : Outcome c a s d (recvAck c a s d) := by
  unfold recvAck
  cases hopen : s.handle with
  | none => exact .error _ _ _
  | some h =>
    dsimp only
    by_cases hmode : s.modeWrite = true
    · rw [if_pos hmode]
      exact .error _ _ _
    rw [if_neg hmode]
    by_cases hnum : d.sbuf 1 = s.blknum
    · rw [if_neg (not_not.mpr hnum)]
      have hack : AckFor s d h := ⟨hopen, by simpa using hmode, hop, hnum⟩
      cases hlast : lastpkt s with
      | true => exact .ackedLast hack hlast
      | false =>
        rw [if_neg Bool.false_ne_true, ← hopen]
        exact .acked hack hlast
    · rw [if_pos hnum]
      exact .error _ _ _

theorem dispatch_cases (c : Context σ η κ) (a : Answers κ) (s : State σ η) (d : Datagram) :
    Outcome c a s d (dispatch c a s d) := by
  unfold dispatch
  dsimp only
  split_ifs with hrrq hwrq hdata hack
  · exact recvRequest_cases hrrq
  · exact recvRequest_cases hwrq
  · exact recvData_cases hdata
  · exact recvAck_cases hack
  · exact .error _ _ _

end

end Acmi.Tftp
