import Acmi.Tftp.Session

/-!
# `tftp_server.c`: what is sent

Every packet of a step is an error, an acknowledgment, or `last_data` as it is behind the step
(`sends`). An acknowledgment says that its block has been handed to `write`.
-/

namespace Acmi.Tftp

open Acmi.Lib Acmi.Sdcard

section

variable {σ η κ : Type} {c : Context σ η κ} {a : Answers κ} {s s' : State σ η} {d : Datagram}
  {e : Event κ} {dest : Peer} {w : List Byte}

/-- The opcode of a packet. -/
theorem take_be16 (op : BitVec 16) (rest : List Byte) : (be16 op ++ rest).take 2 = be16 op :=
  List.take_left' (be16_length op)

theorem errorPacket_ne_ackPacket (code : TftpError) (str : String) (n : BitVec 16) :
    errorPacket code str ≠ ackPacket n := by
  intro h
  have hop := congrArg (List.take 2) h
  rw [errorPacket, ackPacket, take_be16, take_be16] at hop
  exact absurd hop (by decide)

theorem ackPacket_inj {m n : BitVec 16} (h : ackPacket m = ackPacket n) : m = n := by
  have hnum := List.append_cancel_left h
  simp only [be16, List.cons.injEq, and_true] at hnum
  rw [← append_bytes16 m, ← append_bytes16 n, hnum.1, hnum.2]

theorem message_sends {dest' : Peer} {w' : List Byte}
    (hmem : Action.send dest w ∈ (message a dest' w' : List (Action η))) :
    dest = dest' ∧ w = w' := by
  unfold message at hmem
  split_ifs at hmem
  · simpa using hmem
  · cases hmem

theorem freeLastData_sends (s : State σ η) : Action.send dest w ∉ freeLastData s := by
  unfold freeLastData
  split_ifs <;> simp

theorem closeHandle_sends (c : Context σ η κ) (s : State σ η) :
    Action.send dest w ∉ (closeHandle c s).2 := by
  unfold closeHandle
  split
  · exact freeLastData_sends s
  · simp [freeLastData_sends]

theorem resendData_sends (hmem : Action.send dest w ∈ resendData a s) :
    dest = s.peer ∧ s.lastData = some w := by
  unfold resendData at hmem
  split at hmem
  · cases hmem
  · next p hlast =>
    obtain ⟨hdest, hw⟩ := message_sends hmem
    exact ⟨hdest, hw ▸ hlast⟩

/-- Where `send_data` comes to a message, it is an error or the new `last_data`. -/
theorem sendData_sends {h : η} (hmem : Action.send dest w ∈ (sendData c a s h).2) :
    (∃ code str, w = errorPacket code str) ∨
      dest = (sendData c a s h).1.peer ∧ (sendData c a s h).1.lastData = some w := by
  unfold sendData at hmem ⊢
  split_ifs at hmem ⊢ with hroom
  · dsimp only at hmem ⊢
    split at hmem
    · simp only [List.mem_append, List.mem_cons, reduceCtorEq, false_or] at hmem
      rcases hmem with hmem | hmem | hmem
      · exact absurd hmem (freeLastData_sends s)
      · exact Or.inl ⟨_, _, (message_sends hmem).2⟩
      · exact absurd hmem (closeHandle_sends c _)
    · simp only [List.mem_append, List.mem_cons, reduceCtorEq, false_or] at hmem
      rcases hmem with hmem | hmem
      · exact absurd hmem (freeLastData_sends s)
      · exact Or.inr (resendData_sends hmem)
  · exact absurd hmem (freeLastData_sends s)

/-- Why a packet is sent. -/
inductive Sends (c : Context σ η κ) (s s' : State σ η) (dest : Peer) (w : List Byte) :
    Event κ → Prop where
  | error {e : Event κ} {code : TftpError} {str : String} (hw : w = errorPacket code str) :
      Sends c s s' dest w e
  | ackAgain {d : Datagram} {a : Answers κ} {n : BitVec 16} (hopen : s.handle.isSome = true)
      (hmode : s.modeWrite = true) (hn : n + 1 = s.blknum) (hw : w = ackPacket n)
      (hheld : Held s s') : Sends c s s' dest w (.recv d a)
  | accept {d : Datagram} {a : Answers κ} (hnone : s.handle = none) (hop : d.sbuf 0 = tftpWrq)
      (hw : w = ackPacket 0) : Sends c s s' dest w (.recv d a)
  | ack {d : Datagram} {a : Answers κ} {h : η} (hpeer : ¬ Stranger s d) (hdata : DataFor s d h)
      (hok : (c.write a.io s.files h (body d)).1 = true) (hw : w = ackPacket s.blknum) :
      Sends c s s' dest w (.recv d a)
  | data {e : Event κ} (hdest : dest = s'.peer) (hlast : s'.lastData = some w) :
      Sends c s s' dest w e

theorem outcome_sends (hpeer : ¬ Stranger s d) {r : State σ η × List (Action η)}
    (hcases : Outcome c a s.heard d r) (hmem : Action.send dest w ∈ r.2) :
    Sends c s r.1 dest w (.recv d a) := by
  cases hcases with
  | answered hanswer =>
    obtain ⟨hdest, hw⟩ := message_sends hmem
    rcases hanswer with ⟨code, str, herror⟩ | ⟨hopen, hmode, hto, n, hn, hack⟩
    · exact .error (hw.trans herror)
    · exact .ackAgain hopen hmode hn (hw.trans hack) (.heard s)
  | refused => exact .error (message_sends hmem).2
  | notFound =>
    simp only [List.mem_cons, reduceCtorEq, false_or] at hmem
    exact .error (message_sends hmem).2
  | upload hnone hop =>
    simp only [List.mem_cons, reduceCtorEq, false_or] at hmem
    exact .accept hnone hop (message_sends hmem).2
  | download =>
    simp only [List.mem_cons, reduceCtorEq, false_or] at hmem
    rcases sendData_sends hmem with ⟨code, str, hw⟩ | ⟨hdest, hlast⟩
    · exact .error hw
    · exact .data hdest hlast
  | stored hdata ht hok =>
    simp only [List.mem_cons, List.append_nil, reduceCtorEq, false_or] at hmem
    exact .ack hpeer ⟨hdata.isOpen, hdata.mode, hdata.op, hdata.num⟩ hok (message_sends hmem).2
  | storedLast hdata ht hok =>
    simp only [List.mem_cons, List.mem_append, reduceCtorEq, false_or] at hmem
    rcases hmem with hmem | hmem
    · exact .ack hpeer ⟨hdata.isOpen, hdata.mode, hdata.op, hdata.num⟩ hok (message_sends hmem).2
    · exact absurd hmem (closeHandle_sends c _)
  | failed =>
    simp only [List.mem_cons, List.mem_append, List.append_nil, reduceCtorEq, false_or] at hmem
    rcases hmem with hmem | hmem
    · exact .error (message_sends hmem).2
    · exact absurd hmem (closeHandle_sends c _)
  | failedLast =>
    simp only [List.mem_cons, List.mem_append, reduceCtorEq, false_or] at hmem
    rcases hmem with (hmem | hmem) | hmem
    · exact .error (message_sends hmem).2
    · exact absurd hmem (closeHandle_sends c _)
    · exact absurd hmem (closeHandle_sends c _)
  | acked =>
    rcases sendData_sends hmem with ⟨code, str, hw⟩ | ⟨hdest, hlast⟩
    · exact .error hw
    · exact .data hdest hlast
  | ackedLast => exact absurd hmem (closeHandle_sends c _)

/-- **Every packet of a step.** -/
theorem sends (hstep : serverStep c s e = some s') (hmem : Action.send dest w ∈ actions c s e) :
    Sends c s s' dest w e := by
  cases e with
  | recv d a =>
    have hmem' : Action.send dest w ∈ (recv c a s d).2 := by
      have h : Action.send dest w ∈ .alloc .received :: (recv c a s d).2 := hmem
      simpa only [List.mem_cons, reduceCtorEq, false_or] using h
    rw [serverStep_recv.mp hstep]
    unfold recv at hmem' ⊢
    simp only [List.mem_append, List.mem_cons, List.not_mem_nil, reduceCtorEq, or_false] at hmem'
    split_ifs at hmem' ⊢ with hpeer
    · exact .error (message_sends hmem').2
    · have h := outcome_sends hpeer (dispatch_cases c a s.heard d) hmem'
      exact h
  | tick a =>
    obtain ⟨hpending, hs'⟩ := serverStep_tick.mp hstep
    rw [actions_tick hpending] at hmem
    rw [hs']
    unfold tftpTmr at hmem ⊢
    dsimp only at hmem ⊢
    split at hmem
    · cases hmem
    · split_ifs at hmem ⊢ with hlate hretry
      · obtain ⟨hdest, hlast⟩ := resendData_sends hmem
        exact .data hdest hlast
      · exact absurd hmem (closeHandle_sends c _)
      · cases hmem

end

end Acmi.Tftp
