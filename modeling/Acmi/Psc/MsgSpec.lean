import Acmi.Psc.Frame

/-!
# What each function of `pscmsg.c` does

One specification per function, for the callers to use instead of its body.

Sending is specified for every oracle: `pscSendmsg_spec` says that a message of a frame
puts a prefix of that frame on the wire, the whole of it when `0` is returned. Receiving
is specified for the oracles that cut the stream but do not fail (`Cuts`):
`pscRecvmsg_spec` says that `psc_recvmsg` succeeds exactly when the stream begins with a
complete frame, and then takes exactly that frame off.

The two receive loops share `pscRecvall_spec`, which does not mention where the oracle
cut: that is the point where the pieces become invisible.
-/

namespace Acmi.Psc

open Acmi.Lib

/-! ## Sending -/

theorem headerBuf_eq (msgid : BitVec 16) (msglen : BitVec 32) :
    headerBuf msgid msglen = headBytes msgid msglen := by
  simp [headerBuf, headBytes, htons, htonl, le16_bswap16, le32_bswap32]

/-- The size of a piece `send` takes out of the `n` bytes from `off` on. -/
theorem piece_length {buf : List Byte} {off n k : Nat} (h : off + n = buf.length) :
    (((buf.drop off).take n).take k).length = min k n := by
  rw [List.length_take, List.length_take, List.length_drop]
  omega

theorem send_keeps (net : Nat → SendAns) (buf wire : List Byte) {off n : Nat} {tx : TxSock}
    (hn : 0 < n) (h : tx.wire = wire ++ buf.take off ∧ off + n = buf.length) :
    MoveKeeps (fun off n (tx : TxSock) => tx.wire = wire ++ buf.take off ∧ off + n = buf.length)
      (fun _ tx => ∃ p, p <+: buf ∧ tx.wire = wire ++ p) .enotconn off n
      (send net buf off n tx) := by
  obtain ⟨hw, hlen⟩ := h
  have hpre : ∀ k, buf.take off ++ ((buf.drop off).take n).take k = buf.take (off + min k n) := by
    intro k
    rw [List.take_take, List.take_add]
  unfold send
  cases net tx.calls with
  | took k =>
    obtain ⟨j, hj⟩ : ∃ j, min (max 1 k) n = j + 1 := ⟨min (max 1 k) n - 1, by omega⟩
    simp only [piece_length hlen, hj, MoveKeeps]
    refine ⟨by omega, ?_, by omega⟩
    rw [hw, List.append_assoc, hpre, hj]
  | zero => exact ⟨buf.take off, List.take_prefix .., hw⟩
  | error e put =>
    refine ⟨buf.take (off + min put n), List.take_prefix .., ?_⟩
    show tx.wire ++ _ = _
    rw [hw, List.append_assoc, hpre]

/-- `psc_sendall` puts a prefix of the buffer on the wire, and all of it on success. -/
theorem pscSendall_spec (net : Nat → SendAns) (buf : List Byte) (tx : TxSock) :
    Ends (fun tx' : TxSock => tx'.wire = tx.wire ++ buf)
      (fun _ tx' => ∃ p, p <+: buf ∧ tx'.wire = tx.wire ++ p) (pscSendall net buf tx) := by
  have h := transferAll_rule (fun off n s hn hI => send_keeps net buf tx.wire hn hI) buf.length 0 tx
    (by simp)
  unfold pscSendall
  rcases hr : transferAll (send net buf) .enotconn 0 buf.length tx with ⟨_ | e, tx'⟩
  · rw [hr] at h
    have hw : tx'.wire = tx.wire ++ buf.take (0 + buf.length) := h.1
    rw [Nat.zero_add, List.take_length] at hw
    exact hw
  · rw [hr] at h
    exact h

/-- What a call that sends `bs` leaves on the wire, whatever it returned. -/
def Sends (bs : List Byte) (tx : TxSock) : Option Errno × TxSock → Prop :=
  Ends (fun tx' => tx'.wire = tx.wire ++ bs) (fun _ tx' => ∃ p, p <+: bs ∧ tx'.wire = tx.wire ++ p)

/-- Two sends in a row, the second only after the first succeeded, send the
concatenation. -/
theorem Sends.seq {as bs : List Byte} {tx : TxSock} {r : Option Errno × TxSock}
    {k : TxSock → Option Errno × TxSock} (h : Sends as tx r) (hk : ∀ tx', Sends bs tx' (k tx')) :
    Sends (as ++ bs) tx (onSuccess r k) := by
  have hfirst : Ends (fun tx' : TxSock => tx'.wire = tx.wire ++ as)
      (fun _ tx' => ∃ p, p <+: as ++ bs ∧ tx'.wire = tx.wire ++ p) r :=
    Ends.weaken h (fun _ hw => hw) fun _ _ ⟨p, hp, hw⟩ =>
      ⟨p, hp.trans (List.prefix_append as bs), hw⟩
  refine hfirst.onSuccess fun tx' hw => ?_
  refine Ends.weaken (hk tx') (fun tx'' hw2 => ?_) fun e tx'' hw2 => ?_
  · rw [hw2, hw, List.append_assoc]
  · obtain ⟨p, hp, hw2⟩ := hw2
    refine ⟨as ++ p, (List.prefix_append_right_inj as).mpr hp, ?_⟩
    rw [hw2, hw, List.append_assoc]

theorem pscSendhead_spec (net : Nat → SendAns) (msgid : BitVec 16) (msglen : BitVec 32)
    (tx : TxSock) : Sends (headBytes msgid msglen) tx (pscSendhead net msgid msglen tx) := by
  rw [← headerBuf_eq]
  exact pscSendall_spec net _ tx

/-- **`psc_sendmsg` sends its frame**: all of it when it returns `0`, else a prefix. -/
theorem pscSendmsg_spec (net : Nat → SendAns) (f : Frame) (tx : TxSock) :
    Sends f.bytes tx (pscSendmsg net f.msgid f.body tx) :=
  (pscSendhead_spec net f.msgid _ tx).seq fun tx' => pscSendall_spec net f.body tx'

/-- A single-register message is the frame whose body is the register id, then the bytes. -/
theorem pscSendmsgsingle_spec (net : Nat → SendAns) (msgid : BitVec 16) (regid : BitVec 32)
    (buf : List Byte) (tx : TxSock) :
    Sends (headBytes msgid (BitVec.ofNat 32 buf.length + 4) ++ (be32 regid ++ buf)) tx
      (pscSendmsgsingle net msgid regid buf tx) := by
  refine (pscSendhead_spec net msgid _ tx).seq fun tx' => ?_
  have hreg : le32 (htonl regid) = be32 regid := le32_bswap32 regid
  rw [hreg]
  exact Sends.seq (pscSendall_spec net _ tx') fun tx'' => pscSendall_spec net buf tx''

/-- An oracle under which every `send` moves something: no send fails. -/
def Took (net : Nat → SendAns) : Prop := ∀ i, ∃ k, net i = .took k

/-- The call returned `0`. -/
def Succeeds : Option Errno × TxSock → Prop := Ends (fun _ => True) (fun _ _ => False)

theorem pscSendall_ok {net : Nat → SendAns} (hnet : Took net) (buf : List Byte) (tx : TxSock) :
    Succeeds (pscSendall net buf tx) := by
  refine Ends.weaken (transferAll_rule (I := fun off n _ => off + n = buf.length) ?_ buf.length 0 tx
    (by simp)) (fun _ _ => trivial) fun _ _ h => h
  intro off n tx hn hlen
  obtain ⟨k, hk⟩ := hnet tx.calls
  obtain ⟨j, hj⟩ : ∃ j, min (max 1 k) n = j + 1 := ⟨min (max 1 k) n - 1, by omega⟩
  simp only [send, hk, piece_length (by omega : off + n = buf.length), hj, MoveKeeps]
  omega

theorem pscSendmsg_ok {net : Nat → SendAns} (hnet : Took net) (msgid : BitVec 16)
    (buf : List Byte) (tx : TxSock) : Succeeds (pscSendmsg net msgid buf tx) :=
  (pscSendall_ok hnet _ tx).onSuccess fun tx' _ => pscSendall_ok hnet buf tx'

theorem pscSendmsgsingle_ok {net : Nat → SendAns} (hnet : Took net) (msgid : BitVec 16)
    (regid : BitVec 32) (buf : List Byte) (tx : TxSock) :
    Succeeds (pscSendmsgsingle net msgid regid buf tx) :=
  (pscSendall_ok hnet _ tx).onSuccess fun tx' _ =>
    (pscSendall_ok hnet _ tx').onSuccess fun tx'' _ => pscSendall_ok hnet buf tx''

/-! ## Receiving -/

/-- An oracle that cuts the stream into pieces but never fails. -/
def Cuts (net : Nat → RecvAns) : Prop := ∀ i, ∃ k, net i = .data k

theorem recv_keeps {net : Nat → RecvAns} (hnet : Cuts net) (stream : List Byte) (buf : Buf)
    (total : Nat) {off n : Nat} {s : RxSock × Buf} (hn : 0 < n)
    (h : s.1.stream = stream.drop off ∧ s.2 = { buf with mem := buf.mem.write 0 (stream.take off) }
      ∧ off + n = total ∧ off ≤ stream.length) :
    MoveKeeps (fun off n (s : RxSock × Buf) => s.1.stream = stream.drop off ∧
        s.2 = { buf with mem := buf.mem.write 0 (stream.take off) } ∧
        off + n = total ∧ off ≤ stream.length)
      (fun _ s => stream.length < total ∧ s.1.stream = []) .enotconn off n (recv net off n s) := by
  obtain ⟨hs, hb, hlen, hoff⟩ := h
  obtain ⟨k, hk⟩ := hnet s.1.calls.length
  have hsize : (s.1.stream.take (min n (max 1 k))).length
      = min (min n (max 1 k)) (stream.length - off) := by
    rw [hs, List.length_take, List.length_drop]
  simp only [recv, hk]
  rcases Nat.eq_zero_or_pos (min (min n (max 1 k)) (stream.length - off)) with h0 | hpos
  · -- nothing came: the stream is used up
    rw [hsize, h0]
    refine ⟨by omega, ?_⟩
    show s.1.stream.drop 0 = []
    rw [List.drop_zero, hs, List.drop_eq_nil_of_le (by omega)]
  · obtain ⟨j, hj⟩ : ∃ j, min (min n (max 1 k)) (stream.length - off) = j + 1 :=
      ⟨min (min n (max 1 k)) (stream.length - off) - 1, by omega⟩
    have hgot : s.1.stream.take (min n (max 1 k)) = (stream.drop off).take (j + 1) := by
      rw [hs, ← hj, ← List.length_drop, ← List.take_eq_take_min]
    rw [hsize, hj]
    refine ⟨by omega, ?_, ?_, by omega, by omega⟩
    · rw [hs, List.drop_drop]
    · have htake : (stream.take off).length = off := by
        rw [List.length_take, Nat.min_eq_left hoff]
      have hw := Mem.write_write buf.mem 0 (stream.take off) ((stream.drop off).take (j + 1))
      rw [htake, Nat.zero_add, ← List.take_add] at hw
      rw [hb, hgot, hw]

/-- `psc_recvall` over an oracle that only cuts: it takes `n` bytes off the stream into
the buffer, or fails at the end of a stream that has fewer. -/
theorem pscRecvall_spec {net : Nat → RecvAns} (hnet : Cuts net) (n : Nat) (rx : RxSock)
    (buf : Buf) :
    Ends (fun s : RxSock × Buf => n ≤ rx.stream.length ∧ s.1.stream = rx.stream.drop n ∧
        s.2 = { buf with mem := buf.mem.write 0 (rx.stream.take n) })
      (fun _ s => rx.stream.length < n ∧ s.1.stream = []) (pscRecvall net n (rx, buf)) := by
  refine Ends.weaken (transferAll_rule
    (fun off n' s hn hI => recv_keeps hnet rx.stream buf n hn hI) n 0 (rx, buf) (by simp))
    (fun s hs => ?_) fun _ _ h => h
  rw [Nat.zero_add] at hs
  exact ⟨hs.2.2.2, hs.1, hs.2.1⟩

/-- `psc_recvskip` discards `len` bytes, or fails at the end of a shorter stream. The
extra `psc_recvall` after a failed piece finds the stream used up and fails as well. -/
theorem skipLoop_spec {net : Nat → RecvAns} (hnet : Cuts net) :
    ∀ (len : Nat) (rx : RxSock) (buf : Buf),
      Ends (fun s : RxSock × Buf => len ≤ rx.stream.length ∧ s.1.stream = rx.stream.drop len)
        (fun _ s => rx.stream.length < len ∧ s.1.stream = []) (skipLoop net len (rx, buf)) := by
  intro len
  induction len using Nat.strongRecOn with
  | ind len ih =>
    intro rx buf
    rw [skipLoop]
    by_cases hlen : 128 < len
    · rw [if_pos hlen]
      have hpiece := pscRecvall_spec hnet 128 rx buf
      rcases hr : pscRecvall net 128 (rx, buf) with ⟨_ | e, rx', buf'⟩
      · rw [hr] at hpiece
        obtain ⟨h128, hs, -⟩ := hpiece
        dsimp only at hs
        refine Ends.weaken (ih (len - 128) (by omega) rx' buf') (fun s h => ?_) fun _ s h => ?_
        · rw [hs, List.length_drop] at h
          refine ⟨by omega, ?_⟩
          rw [h.2, List.drop_drop, show 128 + (len - 128) = len from by omega]
        · rw [hs, List.length_drop] at h
          exact ⟨by omega, h.2⟩
      · -- the piece failed with the stream used up, so the last call fails as well
        rw [hr] at hpiece
        obtain ⟨hshort, hs⟩ := hpiece
        dsimp only at hs
        refine Ends.weaken (pscRecvall_spec hnet len rx' buf') (fun s h => ?_) fun _ s h => ?_
        · rw [hs, List.length_nil] at h
          omega
        · exact ⟨by omega, h.2⟩
    · rw [if_neg hlen]
      exact Ends.weaken (pscRecvall_spec hnet len rx buf) (fun _ h => ⟨h.1, h.2.1⟩) fun _ _ h => h

theorem readHeader_write (m : Mem) (p s i1 i0 l3 l2 l1 l0 : Byte) :
    readHeader (m.write 0 [p, s, i1, i0, l3, l2, l1, l0])
      = if p ≠ 0x50#8 ∨ s ≠ 0x53#8 then .error .eio
        else .ok (i1 ++ i0, l3 ++ l2 ++ l1 ++ l0) := by
  rw [← bswap16_append i0 i1, ← bswap32_append l0 l1 l2 l3]
  rfl

/-- `psc_recvhead` takes a header with the right magic bytes off the stream, else fails. -/
theorem pscRecvhead_spec {net : Nat → RecvAns} (hnet : Cuts net) (rx : RxSock) :
    match splitHead rx.stream with
    | some (msgid, msglen, rest) =>
      ∃ calls, pscRecvhead net rx = (.ok (msgid, msglen), ⟨rest, calls⟩)
    | none => ∃ e rx', pscRecvhead net rx = (.error e, rx') := by
  have hall := pscRecvall_spec hnet 8 rx ⟨fun _ => 0, 8⟩
  unfold pscRecvhead
  rcases hr : pscRecvall net 8 (rx, ⟨fun _ => 0, 8⟩) with ⟨_ | e, ⟨stream', calls'⟩, buf⟩
  · rw [hr] at hall
    obtain ⟨h8, hs, hb⟩ := hall
    dsimp only at hs hb ⊢
    match hstream : rx.stream, h8 with
    | p :: s :: i1 :: i0 :: l3 :: l2 :: l1 :: l0 :: rest, _ =>
      rw [hstream] at hs hb
      simp only [hb, hs, splitHead, List.take, List.drop, readHeader_write]
      by_cases hmagic : p ≠ 0x50#8 ∨ s ≠ 0x53#8
      · rw [if_pos hmagic, if_pos hmagic]
        exact ⟨_, _, rfl⟩
      · rw [if_neg hmagic, if_neg hmagic]
        exact ⟨calls', rfl⟩
  · rw [hr] at hall
    rw [splitHead_short hall.1]
    exact ⟨e, _, rfl⟩

theorem rlen_toNat (maxlen mlen : BitVec 32) :
    (if maxlen < mlen then maxlen else mlen).toNat = min mlen.toNat maxlen.toNat := by
  split
  next h => rw [BitVec.lt_def] at h; omega
  next h => rw [BitVec.lt_def] at h; omega

/-- **`psc_recvmsg` takes one complete frame off the stream**: it yields the id, the length
and as much of the body as the buffer holds, and the stream goes on behind the frame.
Where no complete frame comes, it fails. -/
theorem pscRecvmsg_spec {net : Nat → RecvAns} (hnet : Cuts net) (rx : RxSock)
    (msgid : BitVec 16) (mem : Mem) (msglen : BitVec 32) :
    match splitFrame rx.stream with
    | some (f, rest) =>
      ∃ calls, pscRecvmsg net rx msgid mem msglen
        = ⟨none, f.msgid, BitVec.ofNat 32 (min f.body.length msglen.toNat), ⟨rest, calls⟩,
            mem.write 0 (f.body.take msglen.toNat)⟩
    | none => (pscRecvmsg net rx msgid mem msglen).ret ≠ none := by
  have hhead := pscRecvhead_spec hnet rx
  unfold splitFrame pscRecvmsg
  cases hsplit : splitHead rx.stream with
  | none =>
    rw [hsplit] at hhead
    obtain ⟨e, rx', hr⟩ := hhead
    simp [hr]
  | some h =>
    obtain ⟨mid, mlen, rest⟩ := h
    rw [hsplit] at hhead
    obtain ⟨calls, hr⟩ := hhead
    have hrlen := rlen_toNat msglen mlen
    simp only [hr]
    generalize (if msglen < mlen then msglen else mlen) = rlen at hrlen ⊢
    have hall := pscRecvall_spec hnet rlen.toNat ⟨rest, calls⟩ ⟨mem, msglen.toNat⟩
    rcases hb : pscRecvall net rlen.toNat (⟨rest, calls⟩, ⟨mem, msglen.toNat⟩)
      with ⟨_ | e, ⟨stream', calls'⟩, buf⟩
    · rw [hb] at hall
      obtain ⟨hle, hs, hbuf⟩ := hall
      dsimp only at hle hs hbuf ⊢
      have hskip := skipLoop_spec hnet (mlen.toNat - rlen.toNat) ⟨stream', calls'⟩ ⟨fun _ => 0, 128⟩
      by_cases hfit : mlen.toNat ≤ rest.length
      · -- the frame is complete: what the buffer does not take is skipped
        rw [if_pos hfit]
        have hlen : (rest.take mlen.toNat).length = mlen.toNat := by
          rw [List.length_take, Nat.min_eq_left hfit]
        have hmem : buf.mem = mem.write 0 ((rest.take mlen.toNat).take msglen.toNat) := by
          rw [hbuf, hrlen, List.take_take, Nat.min_comm]
        have hmsglen : rlen = BitVec.ofNat 32 (min (rest.take mlen.toNat).length msglen.toNat) := by
          rw [hlen, ← hrlen, BitVec.ofNat_toNat, BitVec.setWidth_eq]
        by_cases hmore : rlen < mlen
        · rw [if_pos hmore, pscRecvskip]
          rcases hk : skipLoop net (mlen.toNat - rlen.toNat) (⟨stream', calls'⟩, ⟨fun _ => 0, 128⟩)
            with ⟨_ | e, ⟨stream'', calls''⟩, scratch⟩
          · rw [hk] at hskip
            refine ⟨calls'', ?_⟩
            have hstream : stream'' = rest.drop mlen.toNat := by
              have h := hskip.2
              dsimp only at h
              rw [h, hs, List.drop_drop, show rlen.toNat + (mlen.toNat - rlen.toNat) = mlen.toNat by
                omega]
            dsimp only
            rw [hstream, hmem, ← hmsglen]
          · rw [hk] at hskip
            have hshort := hskip.1
            rw [hs, List.length_drop] at hshort
            omega
        · rw [if_neg hmore]
          refine ⟨calls', ?_⟩
          have hall : rlen.toNat = mlen.toNat := by
            rw [BitVec.lt_def] at hmore
            omega
          rw [hs, hall, hmem, ← hmsglen]
      · -- the body ends early, in the buffer's part or in the part to skip
        rw [if_neg hfit]
        have hmore : rlen < mlen := by
          rw [BitVec.lt_def]
          omega
        rw [if_pos hmore, pscRecvskip]
        rcases hk : skipLoop net (mlen.toNat - rlen.toNat) (⟨stream', calls'⟩, ⟨fun _ => 0, 128⟩)
          with ⟨_ | e, ⟨stream'', calls''⟩, scratch⟩
        · rw [hk] at hskip
          have hlong := hskip.1
          rw [hs, List.length_drop] at hlong
          omega
        · simp
    · rw [hb] at hall
      have hshort : rest.length < rlen.toNat := hall.1
      rw [if_neg (by omega)]
      simp

/-- `psc_recvmsg` at the start of a frame. -/
theorem pscRecvmsg_frame {net : Nat → RecvAns} (hnet : Cuts net) {rx : RxSock} {f : Frame}
    {rest : List Byte} (hs : splitFrame rx.stream = some (f, rest)) (msgid : BitVec 16) (mem : Mem)
    (msglen : BitVec 32) :
    ∃ calls, pscRecvmsg net rx msgid mem msglen
      = ⟨none, f.msgid, BitVec.ofNat 32 (min f.body.length msglen.toNat), ⟨rest, calls⟩,
          mem.write 0 (f.body.take msglen.toNat)⟩ := by
  have h := pscRecvmsg_spec hnet rx msgid mem msglen
  rw [hs] at h
  exact h

/-- `psc_recvmsg` where no complete frame comes. -/
theorem pscRecvmsg_none {net : Nat → RecvAns} (hnet : Cuts net) {rx : RxSock}
    (hs : splitFrame rx.stream = none) (msgid : BitVec 16) (mem : Mem) (msglen : BitVec 32) :
    (pscRecvmsg net rx msgid mem msglen).ret ≠ none := by
  have h := pscRecvmsg_spec hnet rx msgid mem msglen
  rw [hs] at h
  exact h

end Acmi.Psc
