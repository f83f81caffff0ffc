import Acmi.Lib.Pbuf
import Acmi.Lib.Trace
import Acmi.Psc.MsgSpec

/-!
# `discover.c`: answering discovery requests

`disco_recv` is called with every UDP datagram that arrives on the discovery port. It copies the
beginning of the datagram into a local `struct`, and when that is a request it chains the prepared
reply behind an empty pbuf, sends the chain and frees it.

A step is one datagram: its pbufs come out of the pool, and the callback owns them. Whether
`pbuf_alloc` has a pbuf for the reply, which one, and what `udp_sendto` returns come with the
datagram.

Mirroring notes:
- The compiler pads the local `struct` to 12 bytes, and the reply to 16; a static object's padding
  is zero. What is in the local one before the copy is arbitrary.
- `udp_sendto` may put a pbuf of its own in front for the headers. It frees that again, so it
  leaves the pool as it was.
- The serial number of a request is looked at to no effect, and is left out.
- Other users of the pool do nothing between two datagrams.
-/

namespace Acmi.Disco

open Acmi.Lib Acmi.Psc

/-- `sizeof(msg)` -/
def sizeofMsg : Nat := 12

/-- `disco_reply`: the header, `git_hash`, and the serial number with its padding. -/
def discoReply (gitHash : BitVec 32) : List Byte :=
  [0x50, 0x53] ++ le16 (htons 1234) ++ le32 (htonl 8) ++ le32 (htonl gitHash) ++ [0, 0, 0, 0]

/-- The pool, `disco_reply_buf`, and what `udp_sendto` was given, with whether it returned
`ERR_OK`. -/
structure State where
  pool : Pool
  replyBuf : Nat
  sent : List (List Byte × Bool)

/-- `discover_prep`, when `pbuf_alloc_reference` hands out `r`. -/
def discoverPrep (m : Pool) (r : Nat) (gitHash : BitVec 32) : State :=
  ⟨m.alloc r (discoReply gitHash), r, []⟩

/-- `disco_recv` with the chain at `p`; `stack` is what `msg` holds before the copy. -/
def discoRecv (s : State) (p : Nat) (stack : Mem) (alloc : Option Nat) (sendto : Bool) : State :=
  let copied := s.pool.copyPartial p sizeofMsg
  let n := copied.length
  let msg := stack.write 0 copied
  if n < 8 ∨ msg 0 ≠ 0x50#8 ∨ msg 1 ≠ 0x53#8 then s         -- ignore invalid header
  else if n - 8 < (ntohl (msg.load32 4)).toNat then s        -- truncated body?
  else if (ntohs (msg.load16 2)).toNat ≠ 1234 then s         -- not interesting
  else
    match alloc with
    | none => s
    | some q =>
      let pool := (s.pool.alloc q []).chain q s.replyBuf
      { s with pool := pool.free q, sent := s.sent ++ [(pool.bytes q, sendto)] }

/-- A datagram: its pbufs, the stack, and the answers of `pbuf_alloc` and `udp_sendto`. -/
structure Datagram where
  first : Nat × List Byte
  more : List (Nat × List Byte)
  stack : Mem
  alloc : Option Nat
  sendto : Bool

def Datagram.links (d : Datagram) : List (Nat × List Byte) := d.first :: d.more

def Datagram.bytes (d : Datagram) : List Byte := (d.links.map Prod.snd).flatten

/-- The pool when the datagram is there. -/
def State.arrived (s : State) (d : Datagram) : State := { s with pool := s.pool.deliver d.links }

/-- One datagram, when there is room for it. -/
def step (s : State) (d : Datagram) : Option State :=
  if s.pool.Room d.links ∧ ∀ q ∈ d.alloc, (s.arrived d).pool.Free q then
    some (discoRecv (s.arrived d) d.first.1 d.stack d.alloc d.sendto)
  else none

/-! ## What a call does -/

/-- The header of a request that is answered: the body it announces is among the bytes that were
copied. -/
def Accepted (bytes : List Byte) : Prop :=
  ∃ msglen rest, splitHead bytes = some (1234, msglen, rest) ∧
    msglen.toNat ≤ (rest.take (sizeofMsg - 8)).length

/-- The three tests on the local `struct`. -/
def Passes (msg : Mem) (n : Nat) : Prop :=
  ¬ (n < 8 ∨ msg 0 ≠ 0x50#8 ∨ msg 1 ≠ 0x53#8) ∧ ¬ n - 8 < (ntohl (msg.load32 4)).toNat ∧
    (ntohs (msg.load16 2)).toNat = 1234

theorem exists_head {bytes : List Byte} (h : 8 ≤ bytes.length) :
    ∃ p s i1 i0 l3 l2 l1 l0 rest,
      bytes = p :: s :: i1 :: i0 :: l3 :: l2 :: l1 :: l0 :: rest := by
  match bytes, h with
  | p :: s :: i1 :: i0 :: l3 :: l2 :: l1 :: l0 :: rest, _ =>
    exact ⟨p, s, i1, i0, l3, l2, l1, l0, rest, rfl⟩

theorem passes_iff_head (stack : Mem) (p s i1 i0 l3 l2 l1 l0 : Byte) (rest : List Byte) :
    let copied := p :: s :: i1 :: i0 :: l3 :: l2 :: l1 :: l0 :: rest.take 4
    Passes (stack.write 0 copied) copied.length ↔
      Accepted (p :: s :: i1 :: i0 :: l3 :: l2 :: l1 :: l0 :: rest) := by
  intro copied
  have h0 : stack.write 0 copied 0 = p := rfl
  have h1 : stack.write 0 copied 1 = s := rfl
  have hid : ntohs ((stack.write 0 copied).load16 2) = i1 ++ i0 := bswap16_append i0 i1
  have hlen : ntohl ((stack.write 0 copied).load32 4) = l3 ++ l2 ++ l1 ++ l0 :=
    bswap32_append l0 l1 l2 l3
  have hcount : copied.length = (rest.take 4).length + 8 := rfl
  unfold Passes Accepted
  rw [h0, h1, hid, hlen, hcount, Nat.add_sub_cancel, not_or]
  constructor
  · rintro ⟨⟨-, hmagic⟩, hbody, hmsgid⟩
    have hmsgid' : i1 ++ i0 = 1234#16 := BitVec.eq_of_toNat_eq hmsgid
    refine ⟨l3 ++ l2 ++ l1 ++ l0, rest, ?_, Nat.le_of_not_lt hbody⟩
    rw [splitHead, if_neg hmagic, hmsgid']
    rfl
  · rintro ⟨msglen, rest', hhead, hbody⟩
    rw [splitHead] at hhead
    split at hhead
    next => cases hhead
    next hmagic =>
      simp only [Option.some.injEq, Prod.mk.injEq] at hhead
      obtain ⟨hmsgid, hmsglen, hrest⟩ := hhead
      subst hmsglen hrest
      exact ⟨⟨by omega, hmagic⟩, Nat.not_lt.mpr hbody, congrArg BitVec.toNat hmsgid⟩

/-- They read the header of the datagram. -/
theorem passes_iff (stack : Mem) (bytes : List Byte) :
    Passes (stack.write 0 (bytes.take sizeofMsg)) (bytes.take sizeofMsg).length ↔
      Accepted bytes := by
  rcases Nat.lt_or_ge bytes.length 8 with hshort | hlong
  · refine iff_of_false ?_ ?_
    · rintro ⟨hhead, -⟩
      apply hhead
      rw [List.length_take]
      exact Or.inl (by omega)
    · rintro ⟨msglen, rest, hhead, -⟩
      rw [splitHead_short hshort] at hhead
      cases hhead
  · obtain ⟨p, s, i1, i0, l3, l2, l1, l0, rest, rfl⟩ := exists_head hlong
    have hcopied : (p :: s :: i1 :: i0 :: l3 :: l2 :: l1 :: l0 :: rest).take sizeofMsg =
        p :: s :: i1 :: i0 :: l3 :: l2 :: l1 :: l0 :: rest.take 4 := rfl
    rw [hcopied]
    exact passes_iff_head stack p s i1 i0 l3 l2 l1 l0 rest

/-- The call, with its tests named. -/
theorem discoRecv_if (s : State) (p : Nat) (stack : Mem) (alloc : Option Nat) (sendto : Bool) :
    (¬ Accepted (s.pool.bytes p) → discoRecv s p stack alloc sendto = s) ∧
      (Accepted (s.pool.bytes p) → discoRecv s p stack alloc sendto =
        match alloc with
        | none => s
        | some q =>
          let pool := (s.pool.alloc q []).chain q s.replyBuf
          { s with pool := pool.free q, sent := s.sent ++ [(pool.bytes q, sendto)] }) := by
  rw [← passes_iff stack]
  constructor
  · intro hreject
    unfold discoRecv Pool.copyPartial
    dsimp only
    split_ifs with hhead hbody hmsgid
    · rfl
    · rfl
    · rfl
    · exact absurd ⟨hhead, hbody, not_ne_iff.mp hmsgid⟩ hreject
  · rintro ⟨hhead, hbody, hmsgid⟩
    unfold discoRecv Pool.copyPartial
    dsimp only
    rw [if_neg hhead, if_neg hbody, if_neg (not_ne_iff.mpr hmsgid)]

/-- The reply pbuf as it was prepared. -/
structure Prepared (s : State) (gitHash : BitVec 32) : Prop where
  lt : s.replyBuf < s.pool.size
  cell : s.pool.cells s.replyBuf = some ⟨discoReply gitHash, none, 1⟩

/-- **What `disco_recv` does.** It sends the reply or it does not; the pool is as it was. -/
theorem discoRecv_eq {s : State} {gitHash : BitVec 32} (h : Prepared s gitHash) (p : Nat)
    (stack : Mem) {alloc : Option Nat} (halloc : ∀ q ∈ alloc, s.pool.Free q) (sendto : Bool) :
    ∃ sent, discoRecv s p stack alloc sendto = { s with sent := s.sent ++ sent } ∧
      (sent = [(discoReply gitHash, sendto)] ∧ Accepted (s.pool.bytes p) ∧ alloc ≠ none ∨
        sent = [] ∧ (¬ Accepted (s.pool.bytes p) ∨ alloc = none)) := by
  obtain ⟨hreject, haccept⟩ := discoRecv_if s p stack alloc sendto
  have hsame : s = { s with sent := s.sent ++ [] } := by rw [List.append_nil]
  by_cases hacc : Accepted (s.pool.bytes p)
  · cases alloc with
    | none => exact ⟨[], (haccept hacc).trans hsame, .inr ⟨rfl, .inr rfl⟩⟩
    | some q =>
      have hfree := halloc q rfl
      refine ⟨[(discoReply gitHash, sendto)], ?_, .inl ⟨rfl, hacc, by simp⟩⟩
      rw [haccept hacc]
      dsimp only
      rw [Pool.bytes_chain_alloc [] hfree h.cell h.lt rfl,
        Pool.free_chain_alloc [] hfree h.cell h.lt Nat.one_pos]
      rfl
  · exact ⟨[], (hreject hacc).trans hsame, .inr ⟨rfl, .inl hacc⟩⟩

end Acmi.Disco
