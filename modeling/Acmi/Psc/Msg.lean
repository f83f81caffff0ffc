import Acmi.Lib.Bytes
import Acmi.Lib.Transfer

/-!
# `pscmsg.c`: sending and receiving PSC messages over a socket

A PSC message on the wire is `'P'`, `'S'`, a big-endian 16-bit id, a big-endian 32-bit
length and that many body bytes. This file embeds the functions that put messages on a
stream socket and take them off again.

The socket is the environment. What `send` and `recv` answer is an oracle indexed by the
number of calls made so far: a piece of a size the stack chooses, `0`, or `-1` with an
`errno`. So a statement over every oracle is a statement over every way the transfers
can be cut and every pattern of failures. A `recv` answer takes its bytes from the stream
the peer has put in; once that is used up (the peer has closed) every `.data` answer is
`0`, as the call documents.

Mirroring notes:
- The `flags` arguments are `0` at every call in the program and have no counterpart.
- `int` results that are `0` or an `errno` are `Option Errno`, `none` being `0`; a
  failing socket call always sets a non-zero `errno`.
- The CPU is little-endian, so `htons`/`htonl` reverse bytes and the header union lays
  its fields out least significant byte first.
- `RxSock.calls` records for every `recv` the room left in the buffer it was given and
  the count it asked for.
-/

namespace Acmi.Psc

open Acmi.Lib

/-- The error codes the functions return; `os` is any other code a socket call sets. -/
inductive Errno
  | enotconn
  | eio
  | os (code : Nat)
  deriving DecidableEq, Repr

def htons (x : BitVec 16) : BitVec 16 := bswap16 x
def htonl (x : BitVec 32) : BitVec 32 := bswap32 x
def ntohs (x : BitVec 16) : BitVec 16 := bswap16 x
def ntohl (x : BitVec 32) : BitVec 32 := bswap32 x

/-! ## Sending -/

/-- What one `send` call does: take a piece of at most that size, return `0`, or fail
with some of the bytes already on the wire. -/
inductive SendAns
  | took (k : Nat)
  | zero
  | error (e : Errno) (put : Nat)

/-- The sending side of a connection: the bytes put on it and the `send` calls made. -/
structure TxSock where
  wire : List Byte
  calls : Nat

/-- `send(sock, buf + off, n, 0)`. A piece is between one byte and all of them. -/
def send (net : Nat → SendAns) (buf : List Byte) (off n : Nat) (tx : TxSock) :
    Except Errno Nat × TxSock :=
  let piece := fun k => ((buf.drop off).take n).take k
  match net tx.calls with
  | .took k => (.ok (piece (max 1 k)).length, ⟨tx.wire ++ piece (max 1 k), tx.calls + 1⟩)
  | .zero => (.ok 0, ⟨tx.wire, tx.calls + 1⟩)
  | .error e put => (.error e, ⟨tx.wire ++ piece put, tx.calls + 1⟩)

/-- `psc_sendall`: send exactly `buflen` bytes or fail. -/
def pscSendall (net : Nat → SendAns) (buf : List Byte) (tx : TxSock) : Option Errno × TxSock :=
  transferAll (send net buf) .enotconn 0 buf.length tx

/-- The bytes of `union psc_header_buf` once its four fields are stored. -/
def headerBuf (msgid : BitVec 16) (msglen : BitVec 32) : List Byte :=
  0x50#8 :: 0x53#8 :: (le16 (htons msgid) ++ le32 (htonl msglen))

/-- `psc_sendhead`. -/
def pscSendhead (net : Nat → SendAns) (msgid : BitVec 16) (msglen : BitVec 32) (tx : TxSock) :
    Option Errno × TxSock :=
  pscSendall net (headerBuf msgid msglen) tx

/-- `psc_sendmsg`; `buf` is the `msglen` bytes at the pointer. -/
def pscSendmsg (net : Nat → SendAns) (msgid : BitVec 16) (buf : List Byte) (tx : TxSock) :
    Option Errno × TxSock :=
  onSuccess (pscSendhead net msgid (BitVec.ofNat 32 buf.length) tx) fun tx =>
    pscSendall net buf tx

/-- `psc_sendmsgsingle`: the header announces four bytes more, which carry `regid`. -/
def pscSendmsgsingle (net : Nat → SendAns) (msgid : BitVec 16) (regid : BitVec 32)
    (buf : List Byte) (tx : TxSock) : Option Errno × TxSock :=
  onSuccess (pscSendhead net msgid (BitVec.ofNat 32 buf.length + 4) tx) fun tx =>
    onSuccess (pscSendall net (le32 (htonl regid)) tx) fun tx =>
      pscSendall net buf tx

/-! ## Receiving -/

/-- What one `recv` call does: return a piece of at most that size of what the peer has
sent, return `0`, or fail. -/
inductive RecvAns
  | data (k : Nat)
  | closed
  | error (e : Errno)

/-- One `recv` call: the room left in the buffer from where it was told to store, and
the count it was given. -/
structure RecvCall where
  room : Nat
  asked : Nat
  deriving DecidableEq, Repr

/-- The receiving side of a connection: the bytes the peer sent that no `recv` has
returned yet, and the calls made so far, latest first. -/
structure RxSock where
  stream : List Byte
  calls : List RecvCall

/-- A destination buffer of `size` bytes; `mem` goes on behind it. -/
structure Buf where
  mem : Mem
  size : Nat

/-- `recv(sock, buf + off, n, 0)`. -/
def recv (net : Nat → RecvAns) (off n : Nat) (s : RxSock × Buf) :
    Except Errno Nat × RxSock × Buf :=
  let calls := ⟨s.2.size - off, n⟩ :: s.1.calls
  match net s.1.calls.length with
  | .data k =>
    -- empty at the end of the stream, and then the answer is `0`
    let got := s.1.stream.take (min n (max 1 k))
    (.ok got.length, ⟨s.1.stream.drop got.length, calls⟩, { s.2 with mem := s.2.mem.write off got })
  | .closed => (.ok 0, ⟨s.1.stream, calls⟩, s.2)
  | .error e => (.error e, ⟨s.1.stream, calls⟩, s.2)

/-- `psc_recvall`: receive exactly `buflen` bytes or fail. -/
def pscRecvall (net : Nat → RecvAns) (buflen : Nat) (s : RxSock × Buf) :
    Option Errno × RxSock × Buf :=
  transferAll (recv net) .enotconn 0 buflen s

/-- The body of `psc_recvskip`. The loop leaves both when at most 128 bytes remain and
when a piece failed; the last `psc_recvall` then still asks for all of `len`. -/
def skipLoop (net : Nat → RecvAns) (len : Nat) (s : RxSock × Buf) :
    Option Errno × RxSock × Buf :=
  if 128 < len then
    match pscRecvall net 128 s with
    | (none, s') => skipLoop net (len - 128) s'
    | (some _, s') => pscRecvall net len s'
  else pscRecvall net len s
  termination_by len
  decreasing_by omega

/-- `psc_recvskip`: receive and discard `len` bytes through a 128-byte scratch buffer
(its initial content is never looked at). -/
def pscRecvskip (net : Nat → RecvAns) (len : Nat) (rx : RxSock) : Option Errno × RxSock :=
  let r := skipLoop net len (rx, ⟨fun _ => 0, 128⟩)
  (r.1, r.2.1)

/-- The id and length in a received `union psc_header_buf`, when its magic bytes are right. -/
def readHeader (buf : Mem) : Except Errno (BitVec 16 × BitVec 32) :=
  if buf 0 ≠ 0x50#8 ∨ buf 1 ≠ 0x53#8 then .error .eio
  else .ok (ntohs (buf.load16 2), ntohl (buf.load32 4))

/-- `psc_recvhead`: the message id and length, or an error. -/
def pscRecvhead (net : Nat → RecvAns) (rx : RxSock) :
    Except Errno (BitVec 16 × BitVec 32) × RxSock :=
  match pscRecvall net 8 (rx, ⟨fun _ => 0, 8⟩) with
  | (some e, rx, _) => (.error e, rx)
  | (none, rx, buf) => (readHeader buf.mem, rx)

/-- Everything `psc_recvmsg` leaves behind: its result, `*msgid`, `*msglen`, the socket
and the caller's memory from the buffer's start on. -/
structure Received where
  ret : Option Errno
  msgid : BitVec 16
  msglen : BitVec 32
  rx : RxSock
  mem : Mem

/-- `psc_recvmsg`; `msglen` comes in as the capacity of the buffer at `mem`. -/
def pscRecvmsg (net : Nat → RecvAns) (rx : RxSock) (msgid : BitVec 16) (mem : Mem)
    (msglen : BitVec 32) : Received :=
  match pscRecvhead net rx with
  | (.error e, rx) => ⟨some e, msgid, msglen, rx, mem⟩
  | (.ok (mid, mlen), rx) =>
    let maxlen := msglen
    let rlen := if maxlen < mlen then maxlen else mlen
    match pscRecvall net rlen.toNat (rx, ⟨mem, maxlen.toNat⟩) with
    | (some e, rx, buf) => ⟨some e, msgid, msglen, rx, buf.mem⟩
    | (none, rx, buf) =>
      -- the out parameters are stored whatever `psc_recvskip` returned
      let skipped :=
        if rlen < mlen then pscRecvskip net (mlen.toNat - rlen.toNat) rx else (none, rx)
      ⟨skipped.1, mid, rlen, skipped.2, buf.mem⟩

end Acmi.Psc
