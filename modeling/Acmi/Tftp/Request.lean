import Acmi.Lib.CString
import Acmi.Sdcard.NetConf
import Acmi.Tftp.Upload

/-!
# `tftp_server.c`: the names in a request

A read or write request is an opcode, the name of the file and the transfer mode, each of the two
with a NUL behind it. `recv` looks for the NULs in the datagram, checks what it found against the
sizes of two arrays on the stack, and copies into these. `request_iff` is what it takes: the copies
stay in the arrays and end with the NUL, so `open` gets the strings of the datagram.

Mirroring notes:
- Offsets are `u16_t`, and 0xFFFF is "not found". The checks subtract first, so they work on what
  the subtraction wraps to.
- `pbuf_memfind` and `pbuf_copy_partial` see the chain as one stretch of bytes.
-/

namespace Acmi.Tftp

open Acmi.Lib Acmi.Sdcard

/-- What `recv` gets from the network stack. The first link of the chain is read without a check of
its length, so `behind` is the memory behind it. -/
structure Datagram where
  addr : BitVec 32
  port : BitVec 16
  p : List (List Byte)
  behind : Nat → Byte
  /-- as much as a datagram has room for -/
  le : p.flatten.length ≤ 65507

/-- `p->payload[i]` -/
def Datagram.payload (d : Datagram) (i : Nat) : Byte :=
  let link := d.p.headD []
  link.getD i (d.behind (i - link.length))

/-- `lwip_ntohs(sbuf[i])` -/
def Datagram.sbuf (d : Datagram) (i : Nat) : BitVec 16 :=
  d.payload (2 * i) ++ d.payload (2 * i + 1)

/-- `pbuf_memfind`, for a single byte -/
def pbufMemfind (bs : List Byte) (mem : Byte) (startOffset : BitVec 16) : BitVec 16 :=
  match (bs.drop startOffset.toNat).findIdx? (· == mem) with
  | none => 0xFFFF
  | some i => startOffset + BitVec.ofNat 16 i

/-- `sizeof(filename)` -/
def filenameSize : BitVec 16 := 21

/-- `sizeof(mode)` -/
def modeSize : BitVec 16 := 8

/-- What `recv` copies to `filename` and `mode`, or the text of the error. -/
def request (bs : List Byte) : Except String (List Byte × List Byte) :=
  let filenameEndOffset := pbufMemfind bs 0 2
  if filenameEndOffset - 1 > filenameSize then .error "Filename too long/not NULL terminated"
  else
    let filename := (bs.drop 2).take (filenameEndOffset - 1).toNat
    let modeEndOffset := pbufMemfind bs 0 (filenameEndOffset + 1)
    if modeEndOffset - filenameEndOffset > modeSize then
      .error "Mode too long/not NULL terminated"
    else
      .ok (filename,
        (bs.drop (filenameEndOffset + 1).toNat).take (modeEndOffset - filenameEndOffset).toNat)

/-- Opcode, name and mode, and whatever the sender puts behind these. -/
def requestPacket (opcode : BitVec 16) (name mode rest : List Byte) : List Byte :=
  be16 opcode ++ (name ++ 0 :: (mode ++ 0 :: rest))

/-! ## Looking for the NUL -/

/-- A string, and what is behind its NUL. -/
theorem split_of_findIdx {bs : List Byte} {i : Nat} (h : bs.findIdx? (· == 0) = some i) :
    ∃ str rest, bs = str ++ 0 :: rest ∧ 0 ∉ str ∧ str.length = i := by
  obtain ⟨hlt, hnul, hbefore⟩ := List.findIdx?_eq_some_iff_getElem.mp h
  refine ⟨bs.take i, bs.drop (i + 1), ?_, ?_, ?_⟩
  · have hget : bs[i] = 0 := by simpa using hnul
    rw [← hget, List.getElem_cons_drop, List.take_append_drop]
  · intro hmem
    obtain ⟨j, hj, hzero⟩ := List.getElem_of_mem hmem
    rw [List.length_take] at hj
    rw [List.getElem_take] at hzero
    exact hbefore j (by omega) (by simpa using hzero)
  · rw [List.length_take, Nat.min_eq_left (Nat.le_of_lt hlt)]

theorem findIdx_of_split {str rest : List Byte} (h : 0 ∉ str) :
    (str ++ 0 :: rest).findIdx? (· == 0) = some str.length := by
  have hnone : str.findIdx? (· == 0) = none := by
    rw [List.findIdx?_eq_none_iff]
    intro c hc
    have hne : c ≠ 0 := fun h0 => h (h0 ▸ hc)
    simpa using hne
  rw [List.findIdx?_append, hnone, List.findIdx?_cons]
  simp

variable {bs : List Byte}

/-- **The NUL is found** exactly if there is one behind the offset. -/
theorem pbufMemfind_eq (hbs : bs.length ≤ 65507) (off : BitVec 16) (hoff : off.toNat ≤ 65507) :
    (pbufMemfind bs 0 off = 0xFFFF ∧ ∀ str rest, bs.drop off.toNat = str ++ 0 :: rest → 0 ∈ str) ∨
    ∃ str rest, bs.drop off.toNat = str ++ 0 :: rest ∧ 0 ∉ str ∧
      (pbufMemfind bs 0 off).toNat = off.toNat + str.length ∧
      off.toNat + str.length < 65507 := by
  unfold pbufMemfind
  cases hfind : (bs.drop off.toNat).findIdx? (· == 0) with
  | none =>
    refine Or.inl ⟨rfl, ?_⟩
    intro str rest hsplit
    rw [hsplit] at hfind
    by_contra hnot
    rw [findIdx_of_split hnot] at hfind
    cases hfind
  | some i =>
    obtain ⟨str, rest, hsplit, hnot, hlen⟩ := split_of_findIdx hfind
    have hroom : off.toNat + str.length < 65507 := by
      have h := congrArg List.length hsplit
      rw [List.length_drop, List.length_append, List.length_cons] at h
      omega
    refine Or.inr ⟨str, rest, hsplit, hnot, ?_, hroom⟩
    rw [← hlen]
    show (off + BitVec.ofNat 16 str.length).toNat = _
    rw [BitVec.toNat_add, BitVec.toNat_ofNat]
    omega

/-! ## The two strings -/

/-- The copy of a string that ends at `endOffset` and begins behind `off`. -/
theorem take_string {str rest : List Byte} {n : Nat} (h : bs = str ++ 0 :: rest)
    (hn : n = str.length + 1) : bs.take n = str ++ [0] ∧ bs.drop n = rest := by
  have hcons : str ++ 0 :: rest = (str ++ [0]) ++ rest := by
    rw [List.append_assoc, List.singleton_append]
  have hlen : (str ++ [0] : List Byte).length = n := by
    rw [hn, List.length_append, List.length_singleton]
  rw [h, hcons]
  exact ⟨List.take_left' hlen, List.drop_left' hlen⟩

theorem split_opcode (h : 2 ≤ bs.length) : ∃ opcode, bs = be16 opcode ++ bs.drop 2 := by
  match bs, h with
  | b1 :: b0 :: tail, _ => exact ⟨b1 ++ b0, by rw [be16_append]; rfl⟩

theorem request_packet {opcode : BitVec 16} {name mode rest : List Byte} (hname : 0 ∉ name)
    (hmode : 0 ∉ mode) (hn : name.length ≤ 20) (hm : mode.length ≤ 7) :
    request (requestPacket opcode name mode rest) = .ok (name ++ [0], mode ++ [0]) := by
  have h2 : (2 : BitVec 16).toNat = 2 := rfl
  have hdrop : (requestPacket opcode name mode rest).drop (2 : BitVec 16).toNat =
      name ++ 0 :: (mode ++ 0 :: rest) :=
    List.drop_left' (be16_length opcode)
  generalize requestPacket opcode name mode rest = bs at hdrop ⊢
  -- the offset of the first NUL
  have hfile : pbufMemfind bs 0 2 = 2 + BitVec.ofNat 16 name.length := by
    unfold pbufMemfind
    rw [hdrop, findIdx_of_split hname]
  have hend : (pbufMemfind bs 0 2).toNat = 2 + name.length := by
    rw [hfile, BitVec.toNat_add, BitVec.toNat_ofNat]
    omega
  have hend1 : (pbufMemfind bs 0 2 - 1).toNat = name.length + 1 := by
    rw [BitVec.toNat_sub, hend]
    simp
    omega
  have hend2 : (pbufMemfind bs 0 2 + 1).toNat = 2 + (name.length + 1) := by
    rw [BitVec.toNat_add, hend]
    simp
    omega
  obtain ⟨hcopy, hbehind⟩ := take_string hdrop (Eq.refl (name.length + 1))
  have hdrop2 : bs.drop (pbufMemfind bs 0 2 + 1).toNat = mode ++ 0 :: rest := by
    rw [hend2, ← List.drop_drop, ← hbehind]
    rfl
  have hmodeEnd : pbufMemfind bs 0 (pbufMemfind bs 0 2 + 1) =
      pbufMemfind bs 0 2 + 1 + BitVec.ofNat 16 mode.length := by
    rw [pbufMemfind, hdrop2, findIdx_of_split hmode]
  have hdiff : (pbufMemfind bs 0 (pbufMemfind bs 0 2 + 1) - pbufMemfind bs 0 2).toNat =
      mode.length + 1 := by
    rw [hmodeEnd, BitVec.toNat_sub, BitVec.toNat_add, hend2, hend, BitVec.toNat_ofNat]
    omega
  unfold request
  dsimp only
  have hfits : ¬ pbufMemfind bs 0 2 - 1 > filenameSize := by
    show ¬ (21 : BitVec 16) < _
    rw [BitVec.lt_def, hend1]
    show ¬ 21 < _
    omega
  have hfits' : ¬ pbufMemfind bs 0 (pbufMemfind bs 0 2 + 1) - pbufMemfind bs 0 2 > modeSize := by
    show ¬ (8 : BitVec 16) < _
    rw [BitVec.lt_def, hdiff]
    show ¬ 8 < _
    omega
  rw [if_neg hfits, if_neg hfits', hend1, hdiff, hdrop2, (take_string rfl rfl).1]
  exact congrArg (fun f => Except.ok (f, mode ++ [0])) hcopy

/-- **What it takes for a request to get to `open`**: a name of at most 20 bytes and a mode of at
most 7, each with its NUL. The copies are these strings with the NUL, no longer than the arrays. -/
theorem request_iff (d : Datagram) (filename mode : List Byte) :
    request d.p.flatten = .ok (filename, mode) ↔
      ∃ opcode name modeName rest, d.p.flatten = requestPacket opcode name modeName rest ∧
        0 ∉ name ∧ 0 ∉ modeName ∧ filename = name ++ [0] ∧ mode = modeName ++ [0] ∧
        filename.length ≤ filenameSize.toNat ∧ mode.length ≤ modeSize.toNat := by
  have hlen := d.le
  generalize d.p.flatten = bs at hlen ⊢
  constructor
  · intro h
    unfold request at h
    dsimp only at h
    split_ifs at h with hlong hlong'
    rw [Except.ok.injEq, Prod.mk.injEq] at h
    obtain ⟨hf, hm⟩ := h
    -- the name has a NUL, for 0xFFFF is too long
    rcases pbufMemfind_eq hlen 2 (by decide) with ⟨hnone, -⟩ | hfound
    · rw [hnone] at hlong
      exact absurd (by decide) hlong
    obtain ⟨name, tail, hsplit, hname, hend, hroom⟩ := hfound
    have h2 : (2 : BitVec 16).toNat = 2 := rfl
    rw [h2] at hsplit hend hroom
    have hend1 : (pbufMemfind bs 0 2 - 1).toNat = name.length + 1 := by
      rw [BitVec.toNat_sub, hend]
      simp
      omega
    have hend2 : (pbufMemfind bs 0 2 + 1).toNat = 2 + (name.length + 1) := by
      rw [BitVec.toNat_add, hend]
      simp
      omega
    have hshort : name.length + 1 ≤ 21 := by
      have hle := BitVec.not_lt.mp hlong
      rwa [BitVec.le_def, hend1] at hle
    obtain ⟨hcopy, hbehind⟩ := take_string hsplit (Eq.refl (name.length + 1))
    have hdrop2 : bs.drop (pbufMemfind bs 0 2 + 1).toNat = tail := by
      rw [hend2, ← List.drop_drop, hbehind]
    rw [hend1, hcopy] at hf
    rcases pbufMemfind_eq hlen (pbufMemfind bs 0 2 + 1) (by omega) with ⟨hnone, -⟩ | hfound
    · -- nor is there 0xFFFF behind the name
      have hbig : ¬ (0xFFFF - pbufMemfind bs 0 2).toNat ≤ 8 := by
        rw [BitVec.toNat_sub, hend]
        simp
        omega
      rw [hnone] at hlong'
      have hle := BitVec.not_lt.mp hlong'
      exact absurd (BitVec.le_def.mp hle) hbig
    obtain ⟨modeName, rest, hsplit', hmode, hend', hroom'⟩ := hfound
    rw [hdrop2] at hsplit' hm
    have hdiff : (pbufMemfind bs 0 (pbufMemfind bs 0 2 + 1) - pbufMemfind bs 0 2).toNat =
        modeName.length + 1 := by
      rw [BitVec.toNat_sub, hend', hend2, hend]
      omega
    have hshort' : modeName.length + 1 ≤ 8 := by
      have hle := BitVec.not_lt.mp hlong'
      rwa [BitVec.le_def, hdiff] at hle
    rw [hdiff, (take_string hsplit' rfl).1] at hm
    have hheader : 2 ≤ bs.length := by
      have h := congrArg List.length hsplit
      rw [List.length_drop, List.length_append, List.length_cons] at h
      omega
    obtain ⟨opcode, hop⟩ := split_opcode hheader
    refine ⟨opcode, name, modeName, rest, ?_, hname, hmode, hf.symm, hm.symm, ?_, ?_⟩
    · rw [requestPacket, ← hsplit', ← hsplit]
      exact hop
    · rw [← hf, List.length_append, List.length_singleton]
      exact hshort
    · rw [← hm, List.length_append, List.length_singleton]
      exact hshort'
  · intro h
    obtain ⟨opcode, name, modeName, rest, hbs, hname, hmode, hf, hm, hfl, hml⟩ := h
    rw [hf, List.length_append, List.length_singleton] at hfl
    rw [hm, List.length_append, List.length_singleton] at hml
    rw [hbs, hf, hm]
    exact request_packet hname hmode (Nat.le_of_succ_le_succ hfl) (Nat.le_of_succ_le_succ hml)

end Acmi.Tftp
