import Acmi.Lib.File
import Acmi.Lib.Trace
import Acmi.Sdcard.NetConf

/-!
# `tftp_handler.c`: writing a file on the SD card

An upload opens the file, writes the data of one pbuf chain after another, and closes it. A chain is
the list of what its links hold. The file is opened with `FA_OPEN_ALWAYS`, which does not truncate,
so what was behind the upload stays (`upload_iff`).

Mirroring notes:
- `tot_len` of a link is the sum of the lengths from that link on.
- What `f_open` and `f_write` answer is an oracle. A failing `f_write` may have written something.
- `f_close` puts in the file what has been written; its result is only printed.
- `static FIL fd` is the one open file.
-/

namespace Acmi.Tftp

open Acmi.Lib Acmi.Sdcard

/-- The result of `f_write` (is it `FR_OK`?) and the number of bytes it has room for. -/
structure WriteAns where
  ok : Bool
  n : Nat

/-- The open file, and the calls of `f_write` so far. -/
structure Fil where
  file : OpenFile
  calls : Nat

/-- `f_write`: its result, `n`, and the file afterwards. -/
def fWrite (disk : Nat → WriteAns) (fd : Fil) (payload : List Byte) : Bool × Nat × Fil :=
  let n := min (disk fd.calls).n payload.length
  ((disk fd.calls).ok, n, ⟨fd.file.write (payload.take n), fd.calls + 1⟩)

/-- `p->tot_len` -/
def totLen : List (List Byte) → Nat
  | [] => 0
  | payload :: next => payload.length + totLen next

/-- `tftp_sdcard_open` of a file with the content `file`; `ok` is whether `f_open` can open it. -/
def tftpSdcardOpen (file : Option (List Byte)) (mode : List Byte) (write ok : Bool) :
    Option OpenFile :=
  if mode ≠ ascii "octet" then none
  else if write then OpenFile.openAlways file ok
  else OpenFile.openExisting file ok

/-- `tftp_sdcard_close`: what is in the file. -/
def tftpSdcardClose (fd : Fil) : List Byte := fd.file.content

/-- `tftp_sdcard_write` -/
def tftpSdcardWrite (disk : Nat → WriteAns) : Fil → List (List Byte) → Int × Fil
  | fd, [] => (0, fd)
  | fd, payload :: next =>
    if totLen (payload :: next) = 0 then (0, fd)
    else if payload.length = 0 then tftpSdcardWrite disk fd next
    else
      let r := fWrite disk fd payload
      if r.1 = false then (-1, r.2.2)
      else if r.2.1 ≠ payload.length then (-1, r.2.2)
      else tftpSdcardWrite disk r.2.2 next

/-- One block of the upload, as long as the calls return 0. -/
def step (disk : Nat → WriteAns) (fd : Fil) (p : List (List Byte)) : Option Fil :=
  let r := tftpSdcardWrite disk fd p
  if r.1 = 0 then some r.2 else none

/-! ## One block -/

theorem flatten_of_totLen {p : List (List Byte)} (h : totLen p = 0) : p.flatten = [] := by
  induction p with
  | nil => rfl
  | cons payload next ih =>
    obtain ⟨hlen, hnext⟩ := Nat.add_eq_zero_iff.mp h
    rw [List.flatten_cons, List.length_eq_zero_iff.mp hlen, ih hnext]
    rfl

/-- **A call that returns 0 has written the whole chain.** The loop ends early only when nothing
but empty links is left. -/
theorem tftpSdcardWrite_file {disk : Nat → WriteAns} {fd : Fil} {p : List (List Byte)}
    (h : (tftpSdcardWrite disk fd p).1 = 0) :
    (tftpSdcardWrite disk fd p).2.file = fd.file.write p.flatten := by
  induction p generalizing fd with
  | nil => exact (OpenFile.write_nil fd.file).symm
  | cons payload next ih =>
    rw [tftpSdcardWrite] at h ⊢
    dsimp only at h ⊢
    split_ifs at h ⊢ with htot hlen hres hn
    · rw [flatten_of_totLen htot, OpenFile.write_nil]
    · rw [ih h, List.length_eq_zero_iff.mp hlen]
      rfl
    · exact absurd (show (-1 : Int) = 0 from h) (by decide)
    · exact absurd (show (-1 : Int) = 0 from h) (by decide)
    · rw [ih h, List.flatten_cons, ← OpenFile.write_write]
      -- all of the link went into the file
      have hall : min (disk fd.calls).n payload.length = payload.length := not_not.mp hn
      show (fd.file.write (payload.take (min (disk fd.calls).n payload.length))).write _ = _
      rw [hall, List.take_length]

/-! ## The upload -/

theorem file_run {disk : Nat → WriteAns} {fd fd' : Fil} {ps : List (List (List Byte))}
    (hrun : runFrom (step disk) fd ps = some fd') :
    fd'.file = fd.file.write (ps.map List.flatten).flatten := by
  induction ps generalizing fd with
  | nil =>
    rw [runFrom_nil, Option.some.injEq] at hrun
    rw [← hrun]
    exact (OpenFile.write_nil fd.file).symm
  | cons p ps ih =>
    obtain ⟨fd1, hstep, hrest⟩ := runFrom_cons_iff.mp hrun
    unfold step at hstep
    dsimp only at hstep
    split_ifs at hstep with hret
    rw [Option.some.injEq] at hstep
    rw [ih hrest, ← hstep, tftpSdcardWrite_file hret, OpenFile.write_write]
    rfl

/-- **What an upload leaves**: the blocks in order, and behind them what the file had there. So it
replaces the file exactly if the file was not longer. -/
theorem upload_iff {disk : Nat → WriteAns} {old : Option (List Byte)} {ok : Bool} {f : OpenFile}
    (hopen : tftpSdcardOpen old (ascii "octet") true ok = some f)
    {ps : List (List (List Byte))} {fd : Fil} (hrun : runFrom (step disk) ⟨f, 0⟩ ps = some fd) :
    let upload := (ps.map List.flatten).flatten
    (tftpSdcardClose fd = upload ↔ (old.getD []).length ≤ upload.length) ∧
      tftpSdcardClose fd = upload ++ (old.getD []).drop upload.length ∧
      ∀ fd1 p, (tftpSdcardWrite disk fd1 p).1 = 0 →
        (tftpSdcardWrite disk fd1 p).2.file = fd1.file.write p.flatten := by
  intro upload
  have hf : f = OpenFile.start (old.getD []) := by
    unfold tftpSdcardOpen OpenFile.openAlways at hopen
    rw [if_neg (not_not.mpr rfl), if_pos rfl] at hopen
    split_ifs at hopen
    exact (Option.some.inj hopen).symm
  have hclose : tftpSdcardClose fd = upload ++ (old.getD []).drop upload.length := by
    show fd.file.content = _
    rw [file_run hrun, hf]
    exact OpenFile.write_start _ _
  refine ⟨?_, hclose, fun _ _ => tftpSdcardWrite_file⟩
  rw [hclose, List.append_right_eq_self, List.drop_eq_nil_iff]

/-- The disk takes everything. -/
def roomy : Nat → WriteAns := fun _ => ⟨true, 1000⟩

/-- Three bytes of the old file are behind the upload. -/
theorem old_tail_left :
    (tftpSdcardOpen (some [1, 2, 3, 4, 5]) (ascii "octet") true true).bind (fun f =>
      (runFrom (step roomy) ⟨f, 0⟩ [[[8], [], [9]], [[]]]).map tftpSdcardClose) =
      some [8, 9, 3, 4, 5] := by
  decide

theorem upload_iff_longer : ∃ f fd,
    tftpSdcardOpen (some [1, 2, 3]) (ascii "octet") true true = some f ∧
    runFrom (step roomy) ⟨f, 0⟩ [[[8], [], [9]], [[]], [[10, 11]]] = some fd ∧
    tftpSdcardClose fd = [8, 9, 10, 11] := by
  have hopen : tftpSdcardOpen (some [1, 2, 3]) (ascii "octet") true true =
      some (OpenFile.start [1, 2, 3]) := by
    rfl
  have hrun : runFrom (step roomy) ⟨OpenFile.start [1, 2, 3], 0⟩
      [[[8], [], [9]], [[]], [[10, 11]]] =
        some ⟨(OpenFile.start [1, 2, 3]).write [8, 9, 10, 11], 3⟩ := by
    rfl
  exact ⟨_, _, hopen, hrun, (upload_iff hopen hrun).1.mpr (by decide)⟩

end Acmi.Tftp
