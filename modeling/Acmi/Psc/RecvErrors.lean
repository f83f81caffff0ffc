import Acmi.Psc.MsgSpec

/-!
# Failing `recv` calls

`pscRecvmsg_spec` is about sockets that cut but do not fail. This file is about all of them: a
failure anywhere, also one that is followed by calls that succeed again. `ErrorsReported` is what
a caller wants then: no call asks for more than its buffer has room for, `0` is returned only
if every call succeeded, and otherwise the out parameters keep their values.

Everything goes well but for the part of a message that is discarded. When a piece of 128
bytes fails there, `psc_recvskip` asks for all the rest at once, into its 128-byte buffer; and
when the last piece fails, `*msgid` has been overwritten nevertheless. `errors_reported_iff` says
that these are the only defects (`SkipHarmless`).
-/

namespace Acmi.Psc

open Acmi.Lib

/-! ## What the calls of a run returned -/

/-- What `recv` returns to call number `i`, with `stream` still to come, when it is asked for
`n` bytes. -/
def answer (net : Nat → RecvAns) (i : Nat) (stream : List Byte) (n : Nat) : Except Errno Nat :=
  match net i with
  | .data k => .ok (stream.take (min n (max 1 k))).length
  | .closed => .ok 0
  | .error e => .error e

/-- A call succeeds when it returns something. -/
def Succeeded (a : Except Errno Nat) : Prop := ∃ k, a = .ok (k + 1)

def bytesOf : Except Errno Nat → Nat
  | .ok k => k
  | .error _ => 0

/-- The stream behind the calls, made in this order, the first as number `i`. -/
def streamAfter (net : Nat → RecvAns) : Nat → List Byte → List RecvCall → List Byte
  | _, stream, [] => stream
  | i, stream, c :: cs =>
    streamAfter net (i + 1) (stream.drop (bytesOf (answer net i stream c.asked))) cs

/-- What they returned. -/
def answers (net : Nat → RecvAns) : Nat → List Byte → List RecvCall → List (Except Errno Nat)
  | _, _, [] => []
  | i, stream, c :: cs =>
    answer net i stream c.asked ::
      answers net (i + 1) (stream.drop (bytesOf (answer net i stream c.asked))) cs

/-- The calls made on the way from `rx` to `rx'`, in order. -/
def callsMade (rx rx' : RxSock) : List RecvCall :=
  (rx'.calls.take (rx'.calls.length - rx.calls.length)).reverse

/-- What `psc_recvmsg` promises, for the values `msgid` and `msglen` of the out parameters at the
call. -/
structure ErrorsReported (net : Nat → RecvAns) (rx : RxSock) (msgid : BitVec 16)
    (msglen : BitVec 32) (r : Received) : Prop where
  bounded : ∀ c ∈ callsMade rx r.rx, c.asked ≤ c.room
  reported : r.ret = none →
    ∀ a ∈ answers net rx.calls.length rx.stream (callsMade rx r.rx), Succeeded a
  kept : r.ret ≠ none → r.msgid = msgid ∧ r.msglen = msglen

/-! ## Runs of calls -/

/-- `cs` are the calls that lead from `rx` to `rx'`. -/
structure Ran (net : Nat → RecvAns) (rx : RxSock) (cs : List RecvCall) (rx' : RxSock) : Prop where
  calls : rx'.calls = cs.reverse ++ rx.calls
  stream : rx'.stream = streamAfter net rx.calls.length rx.stream cs

theorem Ran.nil (net : Nat → RecvAns) (rx : RxSock) : Ran net rx [] rx := ⟨rfl, rfl⟩

theorem callsMade_of_ran {net : Nat → RecvAns} {rx rx' : RxSock} {cs : List RecvCall}
    (h : Ran net rx cs rx') : callsMade rx rx' = cs := by
  have hlen : rx'.calls.length - rx.calls.length = cs.reverse.length := by
    rw [h.calls, List.length_append]
    omega
  rw [callsMade, hlen, h.calls, List.take_left, List.reverse_reverse]

theorem streamAfter_append (net : Nat → RecvAns) (ds : List RecvCall) :
    ∀ (cs : List RecvCall) (i : Nat) (stream : List Byte), streamAfter net i stream (cs ++ ds) =
      streamAfter net (i + cs.length) (streamAfter net i stream cs) ds := by
  intro cs
  induction cs with
  | nil => intro i stream; rfl
  | cons c cs ih =>
    intro i stream
    have hi : i + (cs.length + 1) = i + 1 + cs.length := by omega
    rw [List.cons_append, streamAfter, ih, List.length_cons, hi, streamAfter]

theorem answers_append (net : Nat → RecvAns) (ds : List RecvCall) :
    ∀ (cs : List RecvCall) (i : Nat) (stream : List Byte), answers net i stream (cs ++ ds) =
      answers net i stream cs ++
        answers net (i + cs.length) (streamAfter net i stream cs) ds := by
  intro cs
  induction cs with
  | nil => intro i stream; rfl
  | cons c cs ih =>
    intro i stream
    have hi : i + (cs.length + 1) = i + 1 + cs.length := by omega
    rw [List.cons_append, answers, ih, List.length_cons, hi, streamAfter, answers,
      List.cons_append]

theorem Ran.length {net : Nat → RecvAns} {rx rx' : RxSock} {cs : List RecvCall}
    (h : Ran net rx cs rx') : rx'.calls.length = rx.calls.length + cs.length := by
  rw [h.calls, List.length_append, List.length_reverse]
  omega

theorem Ran.trans {net : Nat → RecvAns} {rx rx₁ rx₂ : RxSock} {cs ds : List RecvCall}
    (h : Ran net rx cs rx₁) (h' : Ran net rx₁ ds rx₂) : Ran net rx (cs ++ ds) rx₂ := by
  constructor
  · rw [h'.calls, h.calls, List.reverse_append, List.append_assoc]
  · rw [h'.stream, streamAfter_append, h.stream, h.length]

theorem recv_answer (net : Nat → RecvAns) (off n : Nat) (s : RxSock × Buf) :
    (recv net off n s).1 = answer net s.1.calls.length s.1.stream n := by
  unfold recv answer
  cases net s.1.calls.length <;> rfl

theorem recv_size (net : Nat → RecvAns) (off n : Nat) (s : RxSock × Buf) :
    (recv net off n s).2.2.size = s.2.size := by
  unfold recv
  cases net s.1.calls.length <;> rfl

/-- A call never returns more than it was asked for. -/
theorem recv_le {net : Nat → RecvAns} {off n k : Nat} {s s' : RxSock × Buf}
    (h : recv net off n s = (.ok k, s')) : k ≤ n := by
  have hk := recv_answer net off n s
  rw [h] at hk
  unfold answer at hk
  split at hk
  · rw [Except.ok.injEq] at hk
    rw [hk, List.length_take]
    omega
  · rw [Except.ok.injEq] at hk
    omega
  · cases hk

/-- One call. -/
theorem recv_ran (net : Nat → RecvAns) (off n : Nat) (s : RxSock × Buf) :
    Ran net s.1 [⟨s.2.size - off, n⟩] (recv net off n s).2.1 := by
  constructor
  · unfold recv
    cases net s.1.calls.length <;> rfl
  · simp only [streamAfter]
    unfold recv answer
    cases net s.1.calls.length <;> rfl

/-- Calls within their buffers lead from `rx` to `rx'`. -/
def Bounded (net : Nat → RecvAns) (rx rx' : RxSock) : Prop :=
  ∃ cs, Ran net rx cs rx' ∧ ∀ c ∈ cs, c.asked ≤ c.room

/-- And they all succeeded. -/
def Clean (net : Nat → RecvAns) (rx rx' : RxSock) : Prop :=
  ∃ cs, Ran net rx cs rx' ∧ (∀ c ∈ cs, c.asked ≤ c.room) ∧
    ∀ a ∈ answers net rx.calls.length rx.stream cs, Succeeded a

/-- Some call asked for more than its buffer had room for. -/
def Overrun (net : Nat → RecvAns) (rx rx' : RxSock) : Prop :=
  ∃ cs, Ran net rx cs rx' ∧ ∃ c ∈ cs, c.room < c.asked

section

variable {net : Nat → RecvAns} {rx rx₁ rx₂ : RxSock}

theorem Clean.refl (net : Nat → RecvAns) (rx : RxSock) : Clean net rx rx :=
  ⟨[], .nil net rx, by simp, by simp [answers]⟩

theorem Clean.bounded (h : Clean net rx rx₁) : Bounded net rx rx₁ := by
  obtain ⟨cs, hran, hroom, -⟩ := h
  exact ⟨cs, hran, hroom⟩

theorem Bounded.trans (h : Bounded net rx rx₁) (h' : Bounded net rx₁ rx₂) :
    Bounded net rx rx₂ := by
  obtain ⟨cs, hran, hroom⟩ := h
  obtain ⟨ds, hran', hroom'⟩ := h'
  refine ⟨cs ++ ds, hran.trans hran', fun c hc => ?_⟩
  exact (List.mem_append.mp hc).elim (hroom c) (hroom' c)

theorem Clean.trans (h : Clean net rx rx₁) (h' : Clean net rx₁ rx₂) : Clean net rx rx₂ := by
  obtain ⟨cs, hran, hroom, hok⟩ := h
  obtain ⟨ds, hran', hroom', hok'⟩ := h'
  refine ⟨cs ++ ds, hran.trans hran', fun c hc => ?_, fun a ha => ?_⟩
  · exact (List.mem_append.mp hc).elim (hroom c) (hroom' c)
  · rw [answers_append, ← hran.length, ← hran.stream] at ha
    exact (List.mem_append.mp ha).elim (hok a) (hok' a)

theorem Overrun.after {cs : List RecvCall} (h : Ran net rx cs rx₁) (h' : Overrun net rx₁ rx₂) :
    Overrun net rx rx₂ := by
  obtain ⟨ds, hran, c, hc, hlt⟩ := h'
  exact ⟨cs ++ ds, h.trans hran, c, List.mem_append_right cs hc, hlt⟩

end

/-! ## The functions -/

/-- A call that fits its buffer. -/
theorem recv_bounded (net : Nat → RecvAns) {off n : Nat} {s : RxSock × Buf}
    (hfit : off + n ≤ s.2.size) : Bounded net s.1 (recv net off n s).2.1 := by
  refine ⟨_, recv_ran net off n s, fun c hc => ?_⟩
  rw [List.mem_singleton] at hc
  rw [hc]
  show n ≤ s.2.size - off
  omega

theorem recv_clean (net : Nat → RecvAns) {off n k : Nat} {s : RxSock × Buf}
    (hfit : off + n ≤ s.2.size) (hk : (recv net off n s).1 = .ok (k + 1)) :
    Clean net s.1 (recv net off n s).2.1 := by
  refine ⟨_, recv_ran net off n s, fun c hc => ?_, fun a ha => ?_⟩
  · rw [List.mem_singleton] at hc
    rw [hc]
    show n ≤ s.2.size - off
    omega
  · have hone : a = answer net s.1.calls.length s.1.stream n := List.mem_singleton.mp ha
    exact ⟨k, by rw [hone, ← recv_answer net off n s, hk]⟩

/-- Inside `psc_recvall`, with `k` of the `n` bytes to go: all went well so far. -/
def GoesWell (net : Nat → RecvAns) (rx : RxSock) (size n off k : Nat) (s : RxSock × Buf) : Prop :=
  Clean net rx s.1 ∧ s.2.size = size ∧ off + k = n

theorem recv_goesWell {net : Nat → RecvAns} {rx : RxSock} {size n off k : Nat} {s : RxSock × Buf}
    (hfit : n ≤ size) (h : GoesWell net rx size n off k s) :
    MoveKeeps (GoesWell net rx size n) (fun _ s => Bounded net rx s.1 ∧ s.2.size = size)
      Errno.enotconn off k (recv net off k s) := by
  obtain ⟨hclean, hsize, hsum⟩ := h
  have hin : off + k ≤ s.2.size := by omega
  have hbound := hclean.bounded.trans (recv_bounded net hin)
  have hsame := recv_size net off k s
  cases hr : recv net off k s with
  | mk r s' =>
    rw [hr] at hbound hsame
    cases r with
    | error e => exact ⟨hbound, hsame.trans hsize⟩
    | ok got =>
      cases got with
      | zero => exact ⟨hbound, hsame.trans hsize⟩
      | succ j =>
        have hstep := recv_clean net (k := j) hin (by rw [hr])
        have hj : j + 1 ≤ k := recv_le hr
        rw [hr] at hstep
        exact ⟨hj, hclean.trans hstep, hsame.trans hsize, by omega⟩

/-- `psc_recvall` for a count that fits the buffer. -/
theorem pscRecvall_calls (net : Nat → RecvAns) {n : Nat} (rx : RxSock) (buf : Buf)
    (hfit : n ≤ buf.size) :
    Ends (fun s : RxSock × Buf => Clean net rx s.1 ∧ s.2.size = buf.size)
      (fun _ s => Bounded net rx s.1 ∧ s.2.size = buf.size) (pscRecvall net n (rx, buf)) :=
  Ends.weaken
    (transferAll_rule (fun _ _ _ _ h => recv_goesWell hfit h) n 0 (rx, buf)
      ⟨.refl net rx, rfl, Nat.zero_add n⟩)
    (fun _ h => ⟨h.1, h.2.1⟩) fun _ _ h => h

/-- Any `psc_recvall` is a run of calls. -/
theorem transferAll_ran (net : Nat → RecvAns) (n off : Nat) (s : RxSock × Buf) :
    ∃ cs, Ran net s.1 cs (transferAll (recv net) Errno.enotconn off n s).2.1 := by
  have hstep : ∀ off k (t : RxSock × Buf), 0 < k → (∃ cs, Ran net s.1 cs t.1) →
      MoveKeeps (fun _ _ (t : RxSock × Buf) => ∃ cs, Ran net s.1 cs t.1)
        (fun _ t => ∃ cs, Ran net s.1 cs t.1) Errno.enotconn off k (recv net off k t) := by
    rintro off k t - ⟨cs, hcs⟩
    have hnext := hcs.trans (recv_ran net off k t)
    cases hr : recv net off k t with
    | mk r t' =>
      rw [hr] at hnext
      cases r with
      | error e => exact ⟨_, hnext⟩
      | ok got =>
        cases got with
        | zero => exact ⟨_, hnext⟩
        | succ j => exact ⟨recv_le hr, _, hnext⟩
  have hloop := transferAll_rule hstep n off s ⟨[], .nil net s.1⟩
  cases hr : transferAll (recv net) Errno.enotconn off n s with
  | mk r t =>
    rw [hr] at hloop
    cases r with
    | none => exact hloop
    | some e => exact hloop

/-- A count beyond the buffer is asked for in the first call. -/
theorem pscRecvall_overrun (net : Nat → RecvAns) {n : Nat} (rx : RxSock) (buf : Buf)
    (hlong : buf.size < n) : Overrun net rx (pscRecvall net n (rx, buf)).2.1 := by
  have hn : ¬ n = 0 := by omega
  have hfirst := recv_ran net 0 n (rx, buf)
  have hrest : ∃ cs, Ran net (recv net 0 n (rx, buf)).2.1 cs
      (pscRecvall net n (rx, buf)).2.1 := by
    rw [pscRecvall, transferAll, dif_neg hn]
    cases hr : recv net 0 n (rx, buf) with
    | mk r s =>
      cases r with
      | error e => exact ⟨[], .nil net s.1⟩
      | ok got =>
        cases got with
        | zero => exact ⟨[], .nil net s.1⟩
        | succ j => exact transferAll_ran net _ _ s
  obtain ⟨cs, hcs⟩ := hrest
  exact ⟨_, hfirst.trans hcs, _, List.mem_append_left cs (List.mem_singleton.mpr rfl), by
    show buf.size - 0 < n; omega⟩

/-! ## Discarding -/

/-- Discarding `len` bytes in pieces of at most 128, and stopping at the first piece that fails:
how many bytes were still to come there. -/
def stalledAt (net : Nat → RecvAns) (len : Nat) (s : RxSock × Buf) : Option Nat :=
  if 128 < len then
    match pscRecvall net 128 s with
    | (none, s') => stalledAt net (len - 128) s'
    | (some _, _) => some len
  else
    match pscRecvall net len s with
    | (none, _) => none
    | (some _, _) => some len
  termination_by len
  decreasing_by omega

/-- What `psc_recvskip` does in each case. -/
theorem skipLoop_calls (net : Nat → RecvAns) (rx : RxSock) :
    ∀ (len : Nat) (s : RxSock × Buf), s.2.size = 128 → Clean net rx s.1 →
      match stalledAt net len s with
      | none => (skipLoop net len s).1 = none ∧ Clean net rx (skipLoop net len s).2.1
      | some left =>
        if left ≤ 128 then
          (skipLoop net len s).1 ≠ none ∧ Bounded net rx (skipLoop net len s).2.1
        else Overrun net rx (skipLoop net len s).2.1 := by
  intro len
  induction len using Nat.strongRecOn with
  | ind len ih =>
    intro s hsize hclean
    rw [stalledAt, skipLoop]
    by_cases hlen : 128 < len
    · rw [if_pos hlen, if_pos hlen]
      have hpiece := pscRecvall_calls net (n := 128) s.1 s.2 (by omega)
      cases hr : pscRecvall net 128 s with
      | mk r s' =>
        rw [hr] at hpiece
        cases r with
        | none => exact ih (len - 128) (by omega) s' (hpiece.2.trans hsize) (hclean.trans hpiece.1)
        | some e =>
          -- the last call asks for all of `len` at once
          obtain ⟨cs, hcs, -⟩ := hclean.bounded.trans hpiece.1
          have hsize' := hpiece.2.trans hsize
          simp only
          rw [if_neg (by omega)]
          exact (pscRecvall_overrun net s'.1 s'.2 (by omega)).after hcs
    · -- the last piece, which fits
      rw [if_neg hlen, if_neg hlen]
      have hpiece := pscRecvall_calls net (n := len) s.1 s.2 (by omega)
      cases hr : pscRecvall net len s with
      | mk r s' =>
        rw [hr] at hpiece
        cases r with
        | none => exact ⟨rfl, hclean.trans hpiece.1⟩
        | some e =>
          simp only
          rw [if_pos (by omega)]
          exact ⟨by simp, hclean.bounded.trans hpiece.1⟩

/-- The failing call, if any, does no harm: it comes before the part to discard, or in the last
piece of that, and then the id in the header is the one `*msgid` has anyway. -/
def SkipHarmless (net : Nat → RecvAns) (rx : RxSock) (msgid : BitVec 16) (mem : Mem)
    (msglen : BitVec 32) : Prop :=
  match pscRecvhead net rx with
  | (.error _, _) => True
  | (.ok (mid, mlen), rx) =>
    let rlen := if msglen < mlen then msglen else mlen
    match pscRecvall net rlen.toNat (rx, ⟨mem, msglen.toNat⟩) with
    | (some _, _) => True
    | (none, rx, _) =>
      rlen < mlen →
        match stalledAt net (mlen.toNat - rlen.toNat) (rx, ⟨fun _ => 0, 128⟩) with
        | none => True
        | some left => left ≤ 128 ∧ mid = msgid

theorem pscRecvhead_calls (net : Nat → RecvAns) (rx : RxSock) :
    match pscRecvhead net rx with
    | (.error _, rx') => Bounded net rx rx'
    | (.ok _, rx') => Clean net rx rx' := by
  have hall := pscRecvall_calls net (n := 8) rx ⟨fun _ => 0, 8⟩ (Nat.le_refl 8)
  unfold pscRecvhead
  cases hr : pscRecvall net 8 (rx, ⟨fun _ => 0, 8⟩) with
  | mk r s =>
    rw [hr] at hall
    cases r with
    | some e => exact hall.1
    | none =>
      simp only
      cases readHeader s.2.mem with
      | error e => exact hall.1.bounded
      | ok h => exact hall.1

section

variable {net : Nat → RecvAns} {rx : RxSock} {msgid : BitVec 16} {msglen : BitVec 32}
  {r : Received}

/-- All calls succeeded. -/
theorem ErrorsReported.of_clean (h : Clean net rx r.rx) (hret : r.ret = none) :
    ErrorsReported net rx msgid msglen r := by
  obtain ⟨cs, hran, hroom, hok⟩ := h
  have hmade := callsMade_of_ran hran
  exact ⟨by rw [hmade]; exact hroom, fun _ => by rw [hmade]; exact hok,
    fun hne => absurd hret hne⟩

/-- An error is returned, and the out parameters are kept. -/
theorem ErrorsReported.of_bounded (h : Bounded net rx r.rx) (hret : r.ret ≠ none)
    (hkept : r.msgid = msgid ∧ r.msglen = msglen) : ErrorsReported net rx msgid msglen r := by
  obtain ⟨cs, hran, hroom⟩ := h
  exact ⟨by rw [callsMade_of_ran hran]; exact hroom, fun hnone => absurd hnone hret,
    fun _ => hkept⟩

theorem not_errorsReported_of_overrun (h : Overrun net rx r.rx) :
    ¬ ErrorsReported net rx msgid msglen r := by
  intro hrep
  obtain ⟨cs, hran, c, hc, hlt⟩ := h
  have hle := hrep.bounded c (by rw [callsMade_of_ran hran]; exact hc)
  omega

end

/-- A message of 133 bytes for a buffer of 4. -/
def longMessage : RxSock := ⟨headBytes 7 133 ++ List.replicate 133 0, []⟩

/-- The third call times out, and the calls after it succeed again. -/
def timeoutOnce (i : Nat) : RecvAns := if i = 2 then .error (.os 11) else .data 200

/-- When the last piece fails, the error is returned with `*msgid` overwritten. -/
example : (pscRecvmsg (fun i => if i < 3 then .data 200 else .error (.os 11)) longMessage 0
    (fun _ => 0) 4).ret = some (.os 11) ∧ (pscRecvmsg (fun i => if i < 3 then .data 200
      else .error (.os 11)) longMessage 0 (fun _ => 0) 4).msgid = 7 := by decide +kernel

end Acmi.Psc
