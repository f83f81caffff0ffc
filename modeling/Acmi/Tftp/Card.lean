import Acmi.Tftp.Server

/-!
# `tftp_handler.c`: the callbacks on the SD card

Mirroring notes:
- `static FIL fd` is the file of the one handle, `&fd`. Behind a `f_open` that fails it is not used.
- `f_read` ends early only at the end of the file. Where the position is after one that fails does
  not matter, for the server closes the file.
- FatFs resolves names; here a name is the file.
-/

namespace Acmi.Tftp

open Acmi.Lib

/-- What the SD card does in one reaction. -/
structure CardAns where
  openOk : Bool
  readOk : Bool
  write : Nat → WriteAns

/-- The files by name, and `static FIL fd` with the name it was opened with. -/
structure Card where
  files : List Byte → Option (List Byte)
  fname : List Byte
  fd : Fil

/-- What is on the card while the file is open. -/
def Card.put (card : Card) (content : List Byte) : List Byte → Option (List Byte) :=
  Function.update card.files card.fname (some content)

/-- `tftp_sdcard_read` -/
def tftpSdcardRead (ok : Bool) (fd : Fil) (bytes : Nat) : Option (List Byte) × Fil :=
  if ok then (some (fd.file.read bytes), { fd with file := fd.file.skip bytes }) else (none, fd)

/-- `static const struct tftp_context ctxt`; opening a file for writing creates it. -/
def ctxt : Context Card Unit CardAns where
  openFile io card fname mode write :=
    match tftpSdcardOpen (card.files fname) mode write io.openOk with
    | none => (none, card)
    | some f => (some (), ⟨Function.update card.files fname (some f.content), fname, ⟨f, 0⟩⟩)
  close card _ := { card with files := card.put (tftpSdcardClose card.fd) }
  read io card _ bytes :=
    let r := tftpSdcardRead io.readOk card.fd bytes
    (r.1, { card with fd := r.2 })
  write io card _ p :=
    let r := tftpSdcardWrite io.write card.fd p
    (decide (0 ≤ r.1), { card with fd := r.2 })
  read_le := by
    intro io card _ n bs h
    unfold tftpSdcardRead at h
    dsimp only at h
    split_ifs at h
    rw [← Option.some.inj h]
    exact List.length_take_le n _

/-! ## An example to run -/

/-- Nothing fails. -/
def allWell : Answers CardAns := ⟨true, true, ⟨true, true, fun _ => ⟨true, 1000⟩⟩⟩

/-- A datagram in one pbuf. -/
def fromClient (p : List Byte) (h : p.length ≤ 65507) : Datagram where
  addr := 0xC0A80102
  port := 2000
  p := [p]
  behind := fun _ => 0
  le := by rwa [List.flatten_singleton]

/-- A request for the file `a`. -/
def requestFor (write : Bool) : Datagram :=
  fromClient (requestPacket (if write then tftpWrq else tftpRrq) [0x61] (Sdcard.ascii "octet") [])
    (by cases write <;> decide)

/-- A card with the file `a`. -/
def cardWith (content : List Byte) : Card where
  files := fun name => if name = [0x61] then some content else none
  fname := []
  fd := ⟨OpenFile.start [], 0⟩

theorem requestFor_op {write : Bool} : (requestFor write).sbuf 0 = requestOp write := by
  cases write <;> decide

theorem requestFor_names {write : Bool} :
    request (requestFor write).p.flatten = .ok ([0x61, 0], Sdcard.ascii "octet" ++ [0]) := by
  cases write <;> decide

/-- The session of that request. -/
def sessionFor (write : Bool) (content : List Byte) : State Card Unit :=
  (recv ctxt allWell (tftpInit Unit (cardWith content)) (requestFor write)).1

theorem sessionFor_step (write : Bool) (content : List Byte) :
    serverStep ctxt (tftpInit Unit (cardWith content)) (.recv (requestFor write) allWell) =
      some (sessionFor write content) :=
  rfl

end Acmi.Tftp
