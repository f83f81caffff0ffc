import Acmi.Disco.Balance

/-!
# Which datagrams discovery answers

A request is the header of message 1234 with as many bytes behind it as it announces
(`WellFormed`). The length is compared with what was copied into the local `struct`, which has
room for four bytes of body, so a request that announces more is taken for a truncated one:
`answers_iff`.
-/

namespace Acmi.Disco

open Acmi.Lib Acmi.Psc

/-- A request, with the body it announces. -/
def WellFormed (bytes : List Byte) : Prop :=
  ∃ msglen rest, bytes = headBytes 1234 msglen ++ rest ∧ msglen.toNat ≤ rest.length

/-- What a request with a complete body announces fits into `msg.body`. -/
def BodyFits (bytes : List Byte) : Prop :=
  ∀ msglen rest, bytes = headBytes 1234 msglen ++ rest → msglen.toNat ≤ rest.length →
    msglen.toNat ≤ sizeofMsg - 8

theorem accepted_iff (bytes : List Byte) :
    Accepted bytes ↔ ∃ msglen rest, bytes = headBytes 1234 msglen ++ rest ∧
      msglen.toNat ≤ rest.length ∧ msglen.toNat ≤ sizeofMsg - 8 := by
  constructor
  · rintro ⟨msglen, rest, hhead, hbody⟩
    rw [List.length_take] at hbody
    exact ⟨msglen, rest, splitHead_some hhead, by omega, by omega⟩
  · rintro ⟨msglen, rest, rfl, hrest, hfits⟩
    refine ⟨msglen, rest, splitHead_head .., ?_⟩
    rw [List.length_take]
    omega

/-- The check of the code and the format agree where the body fits. -/
theorem accepted_iff_wellFormed (bytes : List Byte) :
    (Accepted bytes ↔ WellFormed bytes) ↔ BodyFits bytes := by
  rw [accepted_iff]
  constructor
  · intro hiff msglen rest hbytes hrest
    obtain ⟨msglen', rest', hbytes', -, hfits⟩ := hiff.mpr ⟨msglen, rest, hbytes, hrest⟩
    -- the header is determined by the datagram
    have hsame := splitHead_head 1234 msglen rest
    rw [← hbytes, hbytes', splitHead_head] at hsame
    simp only [Option.some.injEq, Prod.mk.injEq] at hsame
    rw [← hsame.2.1]
    exact hfits
  · intro hfits
    constructor
    · rintro ⟨msglen, rest, hbytes, hrest, -⟩
      exact ⟨msglen, rest, hbytes, hrest⟩
    · rintro ⟨msglen, rest, hbytes, hrest⟩
      exact ⟨msglen, rest, hbytes, hrest, hfits msglen rest hbytes hrest⟩

theorem sent_step {s t : State} {d : Datagram} {gitHash : BitVec 32} (h : Prepared s gitHash)
    (hs : step s d = some t) (halloc : d.alloc ≠ none) :
    (t.sent = s.sent ++ [(discoReply gitHash, d.sendto)] ∧ Accepted d.bytes) ∨
      (t.sent = s.sent ∧ ¬ Accepted d.bytes) := by
  obtain ⟨-, -, sent, rfl, ⟨rfl, hacc, -⟩ | ⟨rfl, hreject⟩⟩ := step_cases h hs
  · exact .inl ⟨rfl, hacc⟩
  · exact .inr ⟨List.append_nil _, hreject.resolve_right halloc⟩

/-! ## The reply -/

theorem discoReply_eq (gitHash : BitVec 32) :
    discoReply gitHash = headBytes 1234 8 ++ (be32 gitHash ++ [0, 0, 0, 0]) := by
  have hid : le16 (htons 1234) = be16 1234 := le16_bswap16 1234
  have hlen : le32 (htonl 8) = be32 8 := le32_bswap32 8
  have hhash : le32 (htonl gitHash) = be32 gitHash := le32_bswap32 gitHash
  rw [discoReply, hid, hlen, hhash]
  rfl

/-- **The reply is one complete frame**, however it is cut on its way. -/
theorem pscRecvhead_discoReply {net : Nat → RecvAns} (hnet : Cuts net) (gitHash : BitVec 32) :
    ∃ msglen body calls, pscRecvhead net ⟨discoReply gitHash, []⟩ =
      (.ok (1234, msglen), ⟨body, calls⟩) ∧ body.length = msglen.toNat := by
  have hhead := pscRecvhead_spec hnet ⟨discoReply gitHash, []⟩
  rw [discoReply_eq, splitHead_head] at hhead
  obtain ⟨calls, hr⟩ := hhead
  exact ⟨8, _, calls, discoReply_eq gitHash ▸ hr, rfl⟩

/-- **Which datagrams are answered.** In any run, when there is a pbuf for the reply, a datagram
is answered exactly if it is well formed, provided the body it announces fits. -/
theorem answers_iff {m : Pool} {r : Nat} (hr : m.Free r) (gitHash : BitVec 32)
    {ds : List Datagram} {s t : State} {d : Datagram}
    (hrun : runFrom step (discoverPrep m r gitHash) ds = some s) (hs : step s d = some t)
    (halloc : d.alloc ≠ none) :
    ((t.sent = s.sent ++ [(discoReply gitHash, d.sendto)] ↔ WellFormed d.bytes) ↔
        BodyFits d.bytes) ∧
      (t.sent = s.sent ++ [(discoReply gitHash, d.sendto)] ∨ t.sent = s.sent) ∧
      ∀ net, Cuts net → ∃ msglen body calls, pscRecvhead net ⟨discoReply gitHash, []⟩ =
        (.ok (1234, msglen), ⟨body, calls⟩) ∧ body.length = msglen.toNat := by
  have h : Prepared s gitHash := runFrom_invariant (I := fun s => Prepared s gitHash)
    (fun _ _ _ h hs => h.step hs) (prepared_discoverPrep hr gitHash) hrun
  have hsent := sent_step h hs halloc
  have hiff : t.sent = s.sent ++ [(discoReply gitHash, d.sendto)] ↔ Accepted d.bytes := by
    rcases hsent with ⟨hsent, hacc⟩ | ⟨hsent, hreject⟩
    · exact iff_of_true hsent hacc
    · refine iff_of_false ?_ hreject
      rw [hsent]
      exact fun h => List.cons_ne_nil _ _ (List.self_eq_append_right.mp h)
  refine ⟨?_, hsent.imp And.left And.left, fun net hnet => pscRecvhead_discoReply hnet gitHash⟩
  rw [hiff]
  exact accepted_iff_wellFormed d.bytes

/-- A request with five bytes of body. -/
def request13 : Datagram :=
  ⟨(1, [0x50, 0x53, 0x04, 0xD2, 0, 0, 0, 5, 0, 1, 2, 3, 4]), [], fun _ => 0, some 2, true⟩

/-- It is well formed and not answered. -/
theorem request_ignored : WellFormed request13.bytes ∧ request13.alloc ≠ none ∧
    (step prepared8 request13).map State.sent = some prepared8.sent :=
  ⟨⟨5, [0, 1, 2, 3, 4], rfl, by decide⟩, by decide, by decide⟩

theorem answers_iff_request : ∃ t, step prepared8 request8 = some t ∧
    (t.sent = prepared8.sent ++ [(discoReply 0, true)] ↔ WellFormed request8.bytes) := by
  have hs : step prepared8 request8 = some (discoRecv (prepared8.arrived request8) 1
      (fun _ => 0) (some 2) true) := rfl
  have hfits : BodyFits request8.bytes := by
    intro msglen rest hbytes hrest
    have hlen := congrArg List.length hbytes
    rw [List.length_append, headBytes_length] at hlen
    have hshort : request8.bytes.length = 8 := rfl
    omega
  exact ⟨_, hs, (answers_iff (by decide : Pool.Free ⟨8, fun _ => none⟩ 0) 0
    (runFrom_nil step prepared8) hs (by decide)).1.mpr hfits⟩

end Acmi.Disco
