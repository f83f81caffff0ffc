import Acmi.Psc.Msg

/-!
# The PSC frame, as a format

The wire format on its own, without the code that produces or consumes it: a `Frame` is
an id and a body short enough for the 32-bit length field, `Frame.bytes` its bytes, and
`splitFrame` takes one complete frame off the front of a byte string. The two are inverse
(`splitFrame_eq_some_iff`), so the first frame of a stream and what follows it are
determined by the stream.

`parse` is the reference reading of a whole stream: complete frames as long as there are
any. `parse_spec` says it is the longest such prefix, `parse_frameBytes` that it reads back
what was written.
-/

namespace Acmi.Psc

open Acmi.Lib

/-- One message: its id and its body, which the 32-bit length field can describe. -/
structure Frame where
  msgid : BitVec 16
  body : List Byte
  lt : body.length < 2 ^ 32

/-- `'P'`, `'S'`, id, length: the eight bytes in front of a body of `len` bytes. -/
def headBytes (msgid : BitVec 16) (msglen : BitVec 32) : List Byte :=
  0x50#8 :: 0x53#8 :: (be16 msgid ++ be32 msglen)

@[simp] theorem headBytes_length (msgid : BitVec 16) (msglen : BitVec 32) :
    (headBytes msgid msglen).length = 8 := rfl

def Frame.bytes (f : Frame) : List Byte :=
  headBytes f.msgid (BitVec.ofNat 32 f.body.length) ++ f.body

/-- A sequence of frames, end to end. -/
def frameBytes (fs : List Frame) : List Byte := fs.flatMap Frame.bytes

@[simp] theorem frameBytes_nil : frameBytes [] = [] := rfl
@[simp] theorem frameBytes_cons (f : Frame) (fs : List Frame) :
    frameBytes (f :: fs) = f.bytes ++ frameBytes fs := rfl
@[simp] theorem frameBytes_append (fs gs : List Frame) :
    frameBytes (fs ++ gs) = frameBytes fs ++ frameBytes gs := by
  simp [frameBytes]

/-- Take a header off the front, when its two magic bytes are right. -/
def splitHead : List Byte → Option (BitVec 16 × BitVec 32 × List Byte)
  | p :: s :: i1 :: i0 :: l3 :: l2 :: l1 :: l0 :: rest =>
    if p ≠ 0x50#8 ∨ s ≠ 0x53#8 then none
    else some (i1 ++ i0, l3 ++ l2 ++ l1 ++ l0, rest)
  | _ => none

theorem splitHead_short {bytes : List Byte} (h : bytes.length < 8) : splitHead bytes = none := by
  unfold splitHead
  split
  next =>
    simp only [List.length_cons] at h
    omega
  next => rfl

theorem splitHead_head (msgid : BitVec 16) (msglen : BitVec 32) (rest : List Byte) :
    splitHead (headBytes msgid msglen ++ rest) = some (msgid, msglen, rest) := by
  have hmagic : ¬ (0x50#8 ≠ 0x50#8 ∨ 0x53#8 ≠ 0x53#8) := by decide
  simp only [headBytes, be16, be32, List.cons_append, List.nil_append, splitHead,
    if_neg hmagic, append_bytes32, append_bytes16]

theorem splitHead_some {stream rest : List Byte} {msgid : BitVec 16} {msglen : BitVec 32}
    (h : splitHead stream = some (msgid, msglen, rest)) :
    stream = headBytes msgid msglen ++ rest := by
  unfold splitHead at h
  split at h
  next p s i1 i0 l3 l2 l1 l0 tail =>
    split at h
    next => exact absurd h (by simp)
    next hmagic =>
      simp only [Option.some.injEq, Prod.mk.injEq] at h
      obtain ⟨hid, hlen, hrest⟩ := h
      have hP : p = 0x50#8 := by simpa using (not_or.mp hmagic).1
      have hS : s = 0x53#8 := by simpa using (not_or.mp hmagic).2
      subst hid hlen hrest hP hS
      simp [headBytes, be16_append, be32_append]
  next => exact absurd h (by simp)

/-- Take one complete frame off the front: a header, and as many bytes behind it as it
announces. -/
def splitFrame (stream : List Byte) : Option (Frame × List Byte) :=
  match splitHead stream with
  | none => none
  | some (msgid, msglen, rest) =>
    if msglen.toNat ≤ rest.length then
      some (⟨msgid, rest.take msglen.toNat, by
        rw [List.length_take]
        exact Nat.lt_of_le_of_lt (Nat.min_le_left ..) msglen.isLt⟩, rest.drop msglen.toNat)
    else none

theorem splitFrame_bytes (f : Frame) (rest : List Byte) :
    splitFrame (f.bytes ++ rest) = some (f, rest) := by
  have hlen : (BitVec.ofNat 32 f.body.length).toNat = f.body.length := by
    rw [BitVec.toNat_ofNat, Nat.mod_eq_of_lt f.lt]
  have hfit : f.body.length ≤ (f.body ++ rest).length := by simp
  rw [Frame.bytes, List.append_assoc, splitFrame, splitHead_head]
  simp only [hlen, if_pos hfit, List.drop_left, List.take_left]

/-- What comes off the front is a frame of the stream. -/
theorem splitFrame_some {stream rest : List Byte} {f : Frame}
    (h : splitFrame stream = some (f, rest)) : stream = f.bytes ++ rest := by
  unfold splitFrame at h
  split at h
  next => exact absurd h (by simp)
  next msgid msglen tail hhead =>
    split at h
    next hle =>
      simp only [Option.some.injEq, Prod.mk.injEq] at h
      obtain ⟨hf, hrest⟩ := h
      have hlen : (tail.take msglen.toNat).length = msglen.toNat := by
        rw [List.length_take, Nat.min_eq_left hle]
      subst hf hrest
      rw [splitHead_some hhead, Frame.bytes, hlen]
      simp
    next => exact absurd h (by simp)

theorem splitFrame_eq_some_iff {stream rest : List Byte} {f : Frame} :
    splitFrame stream = some (f, rest) ↔ stream = f.bytes ++ rest := by
  constructor
  · exact splitFrame_some
  · rintro rfl
    exact splitFrame_bytes f rest

theorem Frame.bytes_length (f : Frame) : f.bytes.length = 8 + f.body.length := by
  simp [Frame.bytes]

/-- The reference reading of a stream: frame after frame while complete ones follow. -/
def parse (stream : List Byte) : List Frame :=
  match _h : splitFrame stream with
  | some (f, rest) => f :: parse rest
  | none => []
  termination_by stream.length
  decreasing_by
    have := congrArg List.length (splitFrame_some _h)
    simp only [List.length_append, Frame.bytes_length] at this
    omega

theorem parse_of_some {stream rest : List Byte} {f : Frame}
    (h : splitFrame stream = some (f, rest)) : parse stream = f :: parse rest := by
  rw [parse]
  split
  next f' rest' h' =>
    rw [h'] at h
    simp only [Option.some.injEq, Prod.mk.injEq] at h
    rw [h.1, h.2]
  next h' => rw [h'] at h; exact absurd h (by simp)

theorem parse_of_none {stream : List Byte} (h : splitFrame stream = none) :
    parse stream = [] := by
  rw [parse]
  split
  next f' rest' h' => rw [h'] at h; exact absurd h (by simp)
  next => rfl

@[simp] theorem parse_bytes_append (f : Frame) (rest : List Byte) :
    parse (f.bytes ++ rest) = f :: parse rest :=
  parse_of_some (splitFrame_bytes f rest)

/-- Reading back a written sequence; what follows it is read on its own. -/
theorem parse_frameBytes_append (fs : List Frame) (rest : List Byte) :
    parse (frameBytes fs ++ rest) = fs ++ parse rest := by
  induction fs with
  | nil => rfl
  | cons f fs ih =>
    rw [frameBytes_cons, List.append_assoc, parse_bytes_append, ih, List.cons_append]

theorem parse_frameBytes (fs : List Frame) : parse (frameBytes fs) = fs := by
  have h := parse_frameBytes_append fs []
  rw [List.append_nil, show parse [] = [] from parse_of_none rfl, List.append_nil] at h
  exact h

/-- **`parse` is the longest prefix of complete frames**: the stream is those frames and
a rest that no complete frame begins. -/
theorem parse_spec (stream : List Byte) :
    ∃ rest, stream = frameBytes (parse stream) ++ rest ∧ ∀ f : Frame, ¬ f.bytes <+: rest := by
  induction hn : stream.length using Nat.strongRecOn generalizing stream with
  | ind n ih =>
    cases hs : splitFrame stream with
    | none =>
      refine ⟨stream, by simp [parse_of_none hs], ?_⟩
      rintro f ⟨rest, hrest⟩
      rw [← hrest, splitFrame_bytes] at hs
      exact absurd hs (by simp)
    | some p =>
      obtain ⟨f, rest⟩ := p
      have hstream := splitFrame_some hs
      have hlen := congrArg List.length hstream
      rw [List.length_append, Frame.bytes_length] at hlen
      obtain ⟨tail, htail, hno⟩ := ih rest.length (by omega) rest rfl
      refine ⟨tail, ?_, hno⟩
      rw [parse_of_some hs, frameBytes_cons, List.append_assoc, ← htail]
      exact hstream

/-- As much of a written sequence as has arrived: its first frames. -/
theorem parse_of_prefix {fs : List Frame} {stream : List Byte} (h : stream <+: frameBytes fs) :
    parse stream <+: fs := by
  obtain ⟨rest, hrest⟩ := h
  induction fs generalizing stream with
  | nil =>
    have hnil : stream = [] := (List.append_eq_nil_iff.mp hrest).1
    have hparse : parse stream = [] := hnil ▸ parse_of_none rfl
    exact hparse ▸ List.nil_prefix
  | cons f fs ih =>
    cases hs : splitFrame stream with
    | none =>
      rw [parse_of_none hs]
      exact List.nil_prefix
    | some p =>
      obtain ⟨g, tail⟩ := p
      -- the first frame of a stream is determined by any part of it that has it
      have hfirst : splitFrame (frameBytes (f :: fs)) = some (g, tail ++ rest) := by
        rw [← hrest, splitFrame_some hs, List.append_assoc, splitFrame_bytes]
      rw [frameBytes_cons, splitFrame_bytes, Option.some.injEq, Prod.mk.injEq] at hfirst
      obtain ⟨hf, htail⟩ := hfirst
      rw [parse_of_some hs, ← hf, List.prefix_cons_inj]
      exact ih htail.symm

end Acmi.Psc
