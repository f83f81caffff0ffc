import Acmi.Psc.MsgSpec

/-!
# `handle_client`: the receive loop of one connection

The thread of a client calls `psc_recvmsg` into the client's `rxbuf` and hands every
message to `conf->recv` until a call fails. `handleClient` is that loop, with fuel; what it
hands over is recorded as a list of `Delivery`s. A delivery carries the whole of `rxbuf` as
it stood at the call, because that is what the callback is given a pointer to: the message
is its first `msglen` bytes, and what lies behind them is left over from before.

`handleClient_eq` computes the loop from the reference reading `parse` of the stream:
`deliver` threads `rxbuf` through the frames. `handleClient_parse` is its statement about
the arguments alone, where the left-over bytes and the cutting are gone.
-/

namespace Acmi.Server

open Acmi.Lib Acmi.Psc

/-- `PSC_MAX_RX_MSG_LEN`. -/
def pscMaxRxMsgLen : Nat := 200000

/-- `sizeof(C->rxbuf)`. -/
def rxbufSize : BitVec 32 := BitVec.ofNat 32 (8 + pscMaxRxMsgLen)

/-- One call of `conf->recv`: id, length, and the buffer its last argument points to. -/
structure Delivery where
  msgid : BitVec 16
  msglen : BitVec 32
  rxbuf : Mem

/-- The message of a delivery: the `msglen` bytes at the start of the buffer. -/
def Delivery.body (d : Delivery) : List Byte := d.rxbuf.read 0 d.msglen.toNat

/-- The `while(1)` of `handle_client` (the local `msgid` starts uninitialised; `0` stands
for whatever it holds). `none` is running out of fuel. -/
def handleClient (net : Nat → RecvAns) : Nat → RxSock → Mem → Option (List Delivery)
  | 0, _, _ => none
  | fuel + 1, rx, rxbuf =>
    let r := pscRecvmsg net rx 0 rxbuf rxbufSize
    match r.ret with
    | some _ => some []
    | none => (handleClient net fuel r.rx r.mem).map (⟨r.msgid, r.msglen, r.mem⟩ :: ·)

/-- The deliveries a sequence of frames amounts to, each frame stored over what the buffer
held before. -/
def deliver : Mem → List Frame → List Delivery
  | _, [] => []
  | rxbuf, f :: fs =>
    let rxbuf := rxbuf.write 0 (f.body.take rxbufSize.toNat)
    ⟨f.msgid, BitVec.ofNat 32 (min f.body.length rxbufSize.toNat), rxbuf⟩ :: deliver rxbuf fs

/-- The loop ends on every finite stream, and what it delivered is the complete frames at
the front of the stream. -/
theorem handleClient_eq {net : Nat → RecvAns} (hnet : Cuts net) :
    ∀ (fuel : Nat) (rx : RxSock) (rxbuf : Mem), rx.stream.length < fuel →
      handleClient net fuel rx rxbuf = some (deliver rxbuf (parse rx.stream)) := by
  intro fuel
  induction fuel with
  | zero => intro rx rxbuf hfuel; omega
  | succ fuel ih =>
    intro rx rxbuf hfuel
    rw [handleClient]
    cases hs : splitFrame rx.stream with
    | none =>
      have hret := pscRecvmsg_none hnet hs 0 rxbuf rxbufSize
      rw [parse_of_none hs]
      cases hr : (pscRecvmsg net rx 0 rxbuf rxbufSize).ret with
      | none => exact absurd hr hret
      | some e => rfl
    | some p =>
      obtain ⟨f, rest⟩ := p
      obtain ⟨calls, hr⟩ := pscRecvmsg_frame hnet hs 0 rxbuf rxbufSize
      have hlen := congrArg List.length (splitFrame_some hs)
      rw [List.length_append, Frame.bytes_length] at hlen
      simp only [hr]
      rw [ih ⟨rest, calls⟩ _ (by show rest.length < fuel; omega), parse_of_some hs]
      rfl

/-- What a frame looks like to `conf->recv`: its id, its length, and its body cut to the
size of `rxbuf`. -/
def Frame.delivered (f : Frame) : BitVec 16 × BitVec 32 × List Byte :=
  (f.msgid, BitVec.ofNat 32 (min f.body.length rxbufSize.toNat), f.body.take rxbufSize.toNat)

/-- The arguments of the callback do not depend on what the buffer held before. -/
theorem deliver_args (fs : List Frame) :
    ∀ rxbuf : Mem, (deliver rxbuf fs).map (fun d => (d.msgid, d.msglen, d.body))
      = fs.map Frame.delivered := by
  induction fs with
  | nil => intro rxbuf; rfl
  | cons f fs ih =>
    intro rxbuf
    rw [deliver, List.map_cons, ih, List.map_cons]
    congr 1
    have hlt : min f.body.length rxbufSize.toNat < 2 ^ 32 :=
      Nat.lt_of_le_of_lt (Nat.min_le_right ..) rxbufSize.isLt
    have hlen : (BitVec.ofNat 32 (min f.body.length rxbufSize.toNat)).toNat
        = (f.body.take rxbufSize.toNat).length := by
      rw [BitVec.toNat_ofNat, Nat.mod_eq_of_lt hlt, List.length_take, Nat.min_comm]
    simp only [Delivery.body, hlen, Mem.read_write, Frame.delivered]

/-- **The server reads the stream as the format says.** For every stream and every cutting,
the loop ends, and the messages it handed to `conf->recv` are the frames `parse` reads, in
order, each cut to the buffer: the longest run of complete frames at the front of the
stream, no complete frame following it. -/
theorem handleClient_parse (cut : Nat → Nat) (stream : List Byte) (rxbuf : Mem) :
    (∃ rest, stream = frameBytes (parse stream) ++ rest ∧ ∀ f : Frame, ¬ f.bytes <+: rest) ∧
    ∃ ds, (∀ fuel, stream.length < fuel →
        handleClient (fun i => .data (cut i)) fuel ⟨stream, []⟩ rxbuf = some ds) ∧
      ds.map (fun d => (d.msgid, d.msglen, d.body)) = (parse stream).map Frame.delivered := by
  have hnet : Cuts fun i => .data (cut i) := fun i => ⟨cut i, rfl⟩
  refine ⟨parse_spec stream, deliver rxbuf (parse stream), fun fuel hfuel => ?_,
    deliver_args (parse stream) rxbuf⟩
  exact handleClient_eq hnet fuel ⟨stream, []⟩ rxbuf hfuel

end Acmi.Server
