import Acmi.Psc.MsgSpec

/-!
# Round trip: what is sent is what is received

A sender puts a list of messages on one connection, each through `psc_sendmsg` or
`psc_sendmsgsingle`; the other side calls `psc_recvmsg` over and over into one buffer of
`M` bytes. `recvEach_sendEach` says that the receiver sees exactly the messages sent, cut
to `M`, whatever the pieces in which the bytes travelled.

Both halves meet at `Sent.frame`, the frame a message is: `Sent.send_spec` says a send
adds that frame's bytes to the wire, `recvEach_frames` that the receiver takes frame after
frame off it and never writes behind its buffer.
-/

namespace Acmi.Psc

open Acmi.Lib

/-- One message as the sending application hands it over. The bounds are those under
which the length field can say how long the message is. -/
inductive Sent
  | msg (msgid : BitVec 16) (body : List Byte) (h : body.length < 2 ^ 32)
  | single (msgid : BitVec 16) (regid : BitVec 32) (body : List Byte)
      (h : body.length ≤ 2 ^ 32 - 5)

/-- The frame that carries the message. -/
def Sent.frame : Sent → Frame
  | .msg msgid body h => ⟨msgid, body, h⟩
  | .single msgid regid body h => ⟨msgid, be32 regid ++ body, by
      rw [List.length_append, be32_length]
      omega⟩

def Sent.send (net : Nat → SendAns) : Sent → TxSock → Option Errno × TxSock
  | .msg msgid body _, tx => pscSendmsg net msgid body tx
  | .single msgid regid body _, tx => pscSendmsgsingle net msgid regid body tx

/-- Send the messages one after the other: each call's result, and the socket. -/
def sendEach (net : Nat → SendAns) : List Sent → TxSock → List (Option Errno) × TxSock
  | [], tx => ([], tx)
  | m :: ms, tx =>
    let r := m.send net tx
    let rest := sendEach net ms r.2
    (r.1 :: rest.1, rest.2)

/-- What one `psc_recvmsg` call shows its caller; `bytes` are the `msglen` bytes at the
start of the buffer. -/
structure Seen where
  ret : Option Errno
  msgid : BitVec 16
  msglen : BitVec 32
  bytes : List Byte

/-- `k` calls of `psc_recvmsg` into the same buffer, each offered `M` bytes. -/
def recvEach (net : Nat → RecvAns) (M : BitVec 32) (msgid : BitVec 16) :
    Nat → RxSock → Mem → List Seen × RxSock × Mem
  | 0, rx, mem => ([], rx, mem)
  | k + 1, rx, mem =>
    let r := pscRecvmsg net rx msgid mem M
    let rest := recvEach net M msgid k r.rx r.mem
    (⟨r.ret, r.msgid, r.msglen, r.mem.read 0 r.msglen.toNat⟩ :: rest.1, rest.2)

/-- A frame as a receiver with `M` bytes of buffer has to see it. -/
def Frame.seen (M : BitVec 32) (f : Frame) : Seen :=
  ⟨none, f.msgid, BitVec.ofNat 32 (min f.body.length M.toNat), f.body.take M.toNat⟩

theorem Sent.send_spec (net : Nat → SendAns) (m : Sent) (tx : TxSock) :
    Sends m.frame.bytes tx (m.send net tx) := by
  cases m with
  | msg msgid body h => exact pscSendmsg_spec net ⟨msgid, body, h⟩ tx
  | single msgid regid body h =>
    have hlen : (be32 regid ++ body).length = body.length + 4 := by
      rw [List.length_append, be32_length, Nat.add_comm]
    have hadd : BitVec.ofNat 32 (be32 regid ++ body).length = BitVec.ofNat 32 body.length + 4 := by
      rw [hlen, BitVec.ofNat_add]
      rfl
    have h := pscSendmsgsingle_spec net msgid regid body tx
    rw [← hadd] at h
    exact h

theorem Sent.send_ok {net : Nat → SendAns} (hnet : Took net) (m : Sent) (tx : TxSock) :
    Succeeds (m.send net tx) := by
  cases m with
  | msg msgid body _ => exact pscSendmsg_ok hnet msgid body tx
  | single msgid regid body _ => exact pscSendmsgsingle_ok hnet msgid regid body tx

/-- Sends that only cut all return `0` and put the frames on the wire, end to end. -/
theorem sendEach_spec {net : Nat → SendAns} (hnet : Took net) :
    ∀ (ms : List Sent) (tx : TxSock), (∀ r ∈ (sendEach net ms tx).1, r = none) ∧
      (sendEach net ms tx).2.wire = tx.wire ++ frameBytes (ms.map Sent.frame) := by
  intro ms
  induction ms with
  | nil => intro tx; exact ⟨by simp [sendEach], by simp [sendEach]⟩
  | cons m ms ih =>
    intro tx
    have hok := m.send_ok hnet tx
    have hsend := m.send_spec net tx
    rcases hr : m.send net tx with ⟨_ | e, tx'⟩
    · rw [hr] at hsend
      have hw : tx'.wire = tx.wire ++ m.frame.bytes := hsend
      obtain ⟨hret, hwire⟩ := ih tx'
      simp only [sendEach, hr]
      refine ⟨?_, ?_⟩
      · intro r hmem
        rcases List.mem_cons.mp hmem with rfl | htail
        · rfl
        · exact hret r htail
      · rw [hwire, hw, List.map_cons, frameBytes_cons, List.append_assoc]
    · rw [hr] at hok
      exact hok.elim

/-- The receiver takes the frames off the stream one by one, leaving it at the start of
the next header each time, and stays inside its buffer. -/
theorem recvEach_frames {net : Nat → RecvAns} (hnet : Cuts net) (M : BitVec 32)
    (msgid : BitVec 16) (rest : List Byte) :
    ∀ (fs : List Frame) (rx : RxSock) (mem : Mem), rx.stream = frameBytes fs ++ rest →
      (recvEach net M msgid fs.length rx mem).1 = fs.map (Frame.seen M) ∧
      (recvEach net M msgid fs.length rx mem).2.1.stream = rest ∧
      ∀ i, M.toNat ≤ i → (recvEach net M msgid fs.length rx mem).2.2 i = mem i := by
  intro fs
  induction fs with
  | nil => intro rx mem hs; exact ⟨rfl, hs, fun _ _ => rfl⟩
  | cons f fs ih =>
    intro rx mem hs
    rw [frameBytes_cons, List.append_assoc] at hs
    have hsplit : splitFrame rx.stream = some (f, frameBytes fs ++ rest) := by
      rw [hs]
      exact splitFrame_bytes f _
    obtain ⟨calls, hr⟩ := pscRecvmsg_frame hnet hsplit msgid mem M
    obtain ⟨hseen, hstream, hframe⟩ :=
      ih ⟨frameBytes fs ++ rest, calls⟩ (mem.write 0 (f.body.take M.toNat)) rfl
    simp only [List.length_cons, recvEach, hr]
    refine ⟨?_, hstream, fun i hi => ?_⟩
    · have hlt : min f.body.length M.toNat < 2 ^ 32 :=
        Nat.lt_of_le_of_lt (Nat.min_le_right ..) M.isLt
      have hlen : (BitVec.ofNat 32 (min f.body.length M.toNat)).toNat
          = (f.body.take M.toNat).length := by
        rw [BitVec.toNat_ofNat, Nat.mod_eq_of_lt hlt, List.length_take, Nat.min_comm]
      rw [hseen, List.map_cons, hlen, Mem.read_write]
      rfl
    · rw [hframe i hi, Mem.write_of_ge]
      rw [List.length_take]
      omega

/-- **The wire format round trip.** However `send` and `recv` cut the transfers: every send
returns `0`, and after `k` receives into a buffer of `M` bytes the receiver has seen the
first `k` messages, each with its id, its length and its body cut to `M`; the stream stands
at the header of message `k`; and nothing behind the buffer was written. -/
theorem recvEach_sendEach (sendCut recvCut : Nat → Nat) (msgs : List Sent) (M : BitVec 32)
    (msgid : BitVec 16) (mem : Mem) :
    let tx := sendEach (fun i => .took (sendCut i)) msgs ⟨[], 0⟩
    (∀ r ∈ tx.1, r = none) ∧
    ∀ k, k ≤ msgs.length →
      let rx := recvEach (fun i => .data (recvCut i)) M msgid k ⟨tx.2.wire, []⟩ mem
      rx.1 = (msgs.take k).map (fun m => m.frame.seen M) ∧
      rx.2.1.stream = frameBytes ((msgs.drop k).map Sent.frame) ∧
      ∀ i, M.toNat ≤ i → rx.2.2 i = mem i := by
  have hsend : Took fun i => .took (sendCut i) := fun i => ⟨_, rfl⟩
  have hrecv : Cuts fun i => .data (recvCut i) := fun i => ⟨_, rfl⟩
  obtain ⟨hret, hwire⟩ := sendEach_spec hsend msgs ⟨[], 0⟩
  refine ⟨hret, fun k hk => ?_⟩
  rw [hwire]
  have hcut : frameBytes (msgs.map Sent.frame)
      = frameBytes ((msgs.take k).map Sent.frame) ++ frameBytes ((msgs.drop k).map Sent.frame) := by
    rw [← frameBytes_append, ← List.map_append, List.take_append_drop]
  have hlen : ((msgs.take k).map Sent.frame).length = k := by
    rw [List.length_map, List.length_take, Nat.min_eq_left hk]
  have h := recvEach_frames hrecv M msgid (frameBytes ((msgs.drop k).map Sent.frame))
    ((msgs.take k).map Sent.frame) ⟨[] ++ frameBytes (msgs.map Sent.frame), []⟩ mem hcut
  rw [hlen, List.map_map] at h
  exact h

end Acmi.Psc
