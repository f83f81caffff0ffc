import Acmi.Psc.MsgSpec
import Acmi.Lib.Trace
import Mathlib.Logic.Function.Basic

/-!
# `listener.c`: the accept loop, the client threads and the senders

The server as a transition system. One thread runs the accept loop of `psc_run`, every
accepted client has a thread running `handle_client`, and any thread may call `psc_send`.
A step is one region guarded by `sendguard`, one unguarded assignment, or one socket call,
so in every state of a run the mutex is free, and a list of events is an interleaving.

The socket layer is part of the state: a descriptor table `fds`, the bytes put on every
connection, and a record of the calls made. What it decides (which number `accept` hands
out, how sends are cut and when they fail) comes with the event. A number can be handed out
whenever it is not open, so numbers are reused; a `send` on a number that is no open
connection fails.

Mirroring notes:
- A connection is named by its position in the order of acceptance, which the program never
  sees; `fdOf`, `owner` and `Call.who` exist to say which connection a number or a slot
  stands for.
- `int sock = C->sock` in `handle_client` is a step of its own, because a sender may have
  stored `-1` before the new thread gets there.
- `peeraddr` is only printed, and `rxbuf` belongs to the receive loop (`Receive.lean`).
-/

namespace Acmi.Server

open Acmi.Lib Acmi.Psc

/-- `PSC_MAX_CLIENTS`. -/
def pscMaxClients : Nat := 4

/-- A `psc_key *`: null, or the one server there is. -/
inductive KeyPtr
  | null
  | server
  deriving DecidableEq, Repr

/-- `struct psc_client`. -/
structure PscClient where
  index : Nat
  sock : Int
  psc : KeyPtr
  deriving DecidableEq, Repr

/-- How far the program is with one connection. -/
inductive Phase
  | absent
  /-- `accept` returned it -/
  | accepted
  /-- `psc_client_alloc` returned `NULL` for it -/
  | refused
  /-- it has slot `i`, and `C->sock` is not assigned yet -/
  | allocated (i : Nat)
  /-- `C->sock = client` is done -/
  | assigned (i : Nat)
  /-- its thread exists but has not read `C->sock` yet -/
  | created (i : Nat)
  /-- its thread is in `handle_client`, with its local copy `sock` -/
  | running (i : Nat) (sock : Int)
  /-- its thread has done `psc_client_free` -/
  | freed (sock : Int)
  /-- its thread, or the accept loop for a refused client, has closed it -/
  | closed
  deriving DecidableEq, Repr

/-- The accept loop is still working on the connection. -/
def Phase.inLoop : Phase → Bool
  | accepted | refused | allocated _ | assigned _ => true
  | _ => false

/-- The slot of `clients` the connection occupies. -/
def Phase.slot : Phase → Option Nat
  | allocated i | assigned i | created i | running i _ => some i
  | _ => none

/-- What an open descriptor is. -/
inductive Endpoint
  | listener
  | conn (k : Nat)
  deriving DecidableEq, Repr

inductive Op
  | send
  | recv
  | close
  deriving DecidableEq, Repr

/-- One use of a descriptor number: for which connection, and what it was open as. -/
structure Call where
  op : Op
  fd : Int
  who : Nat
  hit : Option Endpoint
  deriving DecidableEq, Repr

/-- The shared state: `struct psc_key`, the threads' positions, and the socket layer. -/
structure State where
  listenSock : Int
  clientsUsed : BitVec 32
  clients : Nat → PscClient
  owner : Nat → Nat
  next : Nat
  phase : Nat → Phase
  fdOf : Nat → Int
  fds : Int → Option Endpoint
  wire : Nat → List Byte
  calls : List Call

/-- The server once it listens, before the first `accept`. -/
def init (listenSock : Int) : State where
  listenSock := listenSock
  clientsUsed := 0
  clients := fun _ => ⟨0, 0, .null⟩
  owner := fun _ => 0
  next := 0
  phase := fun _ => .absent
  fdOf := fun _ => 0
  fds := fun fd => if fd = listenSock then some .listener else none
  wire := fun _ => []
  calls := []

namespace State

/-- `clients_used & (1u<<i)`. -/
def used (s : State) (i : Nat) : Bool := s.clientsUsed &&& (1#32 <<< i) != 0#32

def setPhase (s : State) (k : Nat) (p : Phase) : State :=
  { s with phase := Function.update s.phase k p }

def setSock (s : State) (i : Nat) (sock : Int) : State :=
  { s with clients := Function.update s.clients i { s.clients i with sock := sock } }

/-- `close(fd)`. -/
def close (s : State) (fd : Int) (who : Nat) : State :=
  { s with
    fds := Function.update s.fds fd none
    calls := ⟨.close, fd, who, s.fds fd⟩ :: s.calls }

/-- One `recv(fd, ...)`. -/
def recv (s : State) (fd : Int) (who : Nat) : State :=
  { s with calls := ⟨.recv, fd, who, s.fds fd⟩ :: s.calls }

/-- `psc_sendmsg(fd, ...)`. On a number that is no connection the first `send` fails. -/
def sendmsg (s : State) (fd : Int) (who : Nat) (m : Frame) (net : Nat → SendAns) :
    Option Errno × State :=
  let calls := ⟨.send, fd, who, s.fds fd⟩ :: s.calls
  match s.fds fd with
  | some (.conn k) =>
    let r := pscSendmsg net m.msgid m.body ⟨[], 0⟩
    (r.1, { s with wire := Function.update s.wire k (s.wire k ++ r.2.wire), calls := calls })
  | _ => (some .enotconn, { s with calls := calls })

/-! ## The functions of `listener.c` -/

/-- The slot `psc_client_alloc` takes: the first whose bit is clear. -/
def freeSlot (s : State) : Option Nat := (List.range pscMaxClients).find? fun i => !s.used i

/-- `psc_client_alloc`, called for connection `k`. -/
def pscClientAlloc (s : State) (k : Nat) : State :=
  match s.freeSlot with
  | none => s.setPhase k .refused
  | some i =>
    { s.setPhase k (.allocated i) with
      clientsUsed := s.clientsUsed ||| (1#32 <<< i)
      -- the `memset` leaves `sock` at `0`, not at `-1`
      clients := Function.update s.clients i ⟨i, 0, .server⟩
      owner := Function.update s.owner i k }

/-- `psc_client_free` of the client in slot `i`. -/
def pscClientFree (s : State) (i : Nat) : State :=
  { s with
    -- the bit is found through the client's own `index`
    clientsUsed := s.clientsUsed &&& ~~~(1#32 <<< (s.clients i).index)
    clients := Function.update s.clients i ⟨0, 0, .null⟩ }

/-- The body `psc_send` and `psc_send_one` share: send to the client in slot `i`, and on an
error close its descriptor and store `-1`. -/
def sendClient (s : State) (m : Frame) (net : Nat → SendAns) (i : Nat) : State :=
  let sock := (s.clients i).sock
  let r := s.sendmsg sock (s.owner i) m net
  match r.1 with
  | none => r.2
  | some _ => (r.2.close sock (s.owner i)).setSock i (-1)

/-- One round of the loop of `psc_send`. -/
def sendSlot (m : Frame) (nets : Nat → Nat → SendAns) (s : State) (idx : Nat) : State :=
  if !s.used idx || (s.clients idx).sock == -1 then s else s.sendClient m (nets idx) idx

/-- `psc_send`; `nets idx` is what the sends to slot `idx` answer. -/
def pscSend (s : State) (m : Frame) (nets : Nat → Nat → SendAns) : State :=
  (List.range pscMaxClients).foldl (sendSlot m nets) s

/-- `psc_send_one` to the client in slot `i`. -/
def pscSendOne (s : State) (m : Frame) (net : Nat → SendAns) (i : Nat) : State :=
  if (s.clients i).sock = -1 then s else s.sendClient m net i

/-- The connection the accept loop works on, when it works on one. -/
def cur (s : State) : Nat := s.next - 1

end State

/-! ## Steps -/

inductive Event
  /-- `accept` returns a descriptor, or `-1` -/
  | accept (fd : Int)
  /-- the accept loop: `psc_client_alloc(PSC)` -/
  | alloc
  /-- the accept loop: `close(client)` of a refused client -/
  | drop
  /-- the accept loop: `C->sock = client` -/
  | assign
  /-- the accept loop: `sys_thread_new` -/
  | spawn
  /-- the thread of connection `k`: `int sock = C->sock` -/
  | copy (k : Nat)
  /-- the thread of connection `k`: `psc_send_one(C, ...)` -/
  | sendOne (k : Nat) (m : Frame) (net : Nat → SendAns)
  /-- the thread of connection `k`: one `recv(sock, ...)` -/
  | recv (k : Nat)
  /-- the thread of connection `k`, its loop ended: `psc_client_free(C)` -/
  | free (k : Nat)
  /-- the thread of connection `k`: the guarded `close(sock)` -/
  | close (k : Nat)
  /-- any thread: `psc_send(PSC, ...)` -/
  | send (m : Frame) (nets : Nat → Nat → SendAns)

/-- One step, when it can happen. -/
def step (s : State) : Event → Option State
  | .accept fd =>
    if (s.phase s.cur).inLoop then none
    else if fd = -1 then some s
    -- any number that is not open, used before or not
    else if 0 ≤ fd ∧ s.fds s.listenSock = some .listener ∧ s.fds fd = none then
      some { s.setPhase s.next .accepted with
        next := s.next + 1
        fdOf := Function.update s.fdOf s.next fd
        fds := Function.update s.fds fd (some (.conn s.next)) }
    else none
  | .alloc =>
    match s.phase s.cur with
    | .accepted => some (s.pscClientAlloc s.cur)
    | _ => none
  | .drop =>
    match s.phase s.cur with
    | .refused => some ((s.close (s.fdOf s.cur) s.cur).setPhase s.cur .closed)
    | _ => none
  | .assign =>
    match s.phase s.cur with
    | .allocated i => some ((s.setSock i (s.fdOf s.cur)).setPhase s.cur (.assigned i))
    | _ => none
  | .spawn =>
    match s.phase s.cur with
    | .assigned i => some (s.setPhase s.cur (.created i))
    | _ => none
  | .copy k =>
    match s.phase k with
    | .created i => some (s.setPhase k (.running i (s.clients i).sock))
    | _ => none
  | .sendOne k m net =>
    match s.phase k with
    | .running i _ => some (s.pscSendOne m net i)
    | _ => none
  | .recv k =>
    match s.phase k with
    | .running _ sock => some (s.recv sock k)
    | _ => none
  | .free k =>
    match s.phase k with
    | .running i sock => some ((s.pscClientFree i).setPhase k (.freed sock))
    | _ => none
  | .close k =>
    match s.phase k with
    | .freed sock => some ((s.close sock k).setPhase k .closed)
    | _ => none
  | .send m nets => some (s.pscSend m nets)

end Acmi.Server
