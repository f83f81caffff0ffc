import Acmi.Lib.Blocks
import Acmi.Tftp.Packets
import Acmi.Tftp.Peers

/-!
# `tftp_server.c` and `tftp_handler.c`: an upload

What a client uploads is cut in blocks of 512 bytes, and every datagram carries a block under its
number modulo 2^16. Datagrams come late, twice, in another order or not at all. All that is asked of
them is that the blocks which are under way are less than 2^16 apart (`Carries`).

`upload_stored` is that the file then holds, at any time and however the session ends, the first
part of the data in front of what was behind it before, and that a block is acknowledged only when
the file has it and all blocks before it. So the acknowledgment of the last block means that the
file is complete.
-/

namespace Acmi.Tftp

open Acmi.Lib Acmi.Sdcard

/-! ## The file -/

theorem totLen_eq (p : List (List Byte)) : totLen p = p.flatten.length := by
  induction p with
  | nil => rfl
  | cons link next ih => rw [totLen, ih, List.flatten_cons, List.length_append]

/-- Even a call that fails has written the first part of the chain. -/
theorem tftpSdcardWrite_take (disk : Nat → WriteAns) (fd : Fil) (p : List (List Byte)) :
    ∃ n, (tftpSdcardWrite disk fd p).2.file = fd.file.write (p.flatten.take n) := by
  induction p generalizing fd with
  | nil => exact ⟨0, (OpenFile.write_nil fd.file).symm⟩
  | cons link next ih =>
    rw [tftpSdcardWrite]
    dsimp only
    have hpart : ∃ n, (fWrite disk fd link).2.2.file =
        fd.file.write ((link :: next).flatten.take n) := by
      have hle : min (disk fd.calls).n link.length ≤ link.length := Nat.min_le_right _ _
      refine ⟨min (disk fd.calls).n link.length, ?_⟩
      rw [List.flatten_cons, List.take_append_of_le_length hle]
      rfl
    split_ifs with htot hlen hres hn
    · exact ⟨0, (OpenFile.write_nil fd.file).symm⟩
    · obtain ⟨n, hn⟩ := ih fd
      refine ⟨n, ?_⟩
      rw [hn, List.flatten_cons, List.length_eq_zero_iff.mp hlen, List.nil_append]
    · exact hpart
    · exact hpart
    · obtain ⟨n, hn'⟩ := ih (fWrite disk fd link).2.2
      have hall : (fWrite disk fd link).2.2.file = fd.file.write link := by
        have hall : min (disk fd.calls).n link.length = link.length := not_not.mp hn
        show fd.file.write (link.take (min (disk fd.calls).n link.length)) = _
        rw [hall, List.take_length]
      refine ⟨link.length + n, ?_⟩
      rw [hn', hall, OpenFile.write_write, List.flatten_cons, List.take_length_add_append]

theorem tftpSdcardWrite_nonpos (disk : Nat → WriteAns) (fd : Fil) (p : List (List Byte)) :
    (tftpSdcardWrite disk fd p).1 ≤ 0 := by
  induction p generalizing fd with
  | nil => exact Int.le_refl 0
  | cons link next ih =>
    rw [tftpSdcardWrite]
    dsimp only
    split_ifs
    · exact Int.le_refl 0
    · exact ih fd
    · exact show (-1 : Int) ≤ 0 from by decide
    · exact show (-1 : Int) ≤ 0 from by decide
    · exact ih _

/-- The first part of the data, over what was in the file. -/
def overlay (old data : List Byte) (n : Nat) : OpenFile :=
  (OpenFile.start old).write (data.take n)

theorem overlay_content (old data : List Byte) (n : Nat) :
    (overlay old data n).content = data.take n ++ old.drop (data.take n).length :=
  OpenFile.write_start old (data.take n)

theorem overlay_pos (old data : List Byte) (n : Nat) :
    (overlay old data n).pos = (data.take n).length :=
  Nat.zero_add _

/-- The next part. -/
theorem overlay_write (old data : List Byte) (n k : Nat) :
    (overlay old data n).write ((data.drop n).take k) = overlay old data (n + k) := by
  rw [overlay, OpenFile.write_write, overlay, List.take_add]

/-! ## The session -/

section

variable {base : List Byte → Option (List Byte)} {fname data : List Byte} {m n : Nat}
  {s s' : State Card Unit} {e : Event CardAns} {dest : Peer}

/-- What was in the file before. -/
def oldContent (base : List Byte → Option (List Byte)) (fname : List Byte) : List Byte :=
  (base fname).getD []

/-- The session has stored `m` blocks of `data`, all of them full. -/
structure Storing (base : List Byte → Option (List Byte)) (fname data : List Byte) (m : Nat)
    (s : State Card Unit) : Prop where
  isOpen : s.handle = some ()
  mode : s.modeWrite = true
  lastData : s.lastData = none
  num : s.blknum = BitVec.ofNat 16 (m + 1)
  le : m ≤ lastBlock maxPayload data
  name : s.files.fname = fname
  files : s.files.files = Function.update base fname (some (oldContent base fname))
  file : s.files.fd.file = overlay (oldContent base fname) data (maxPayload * m)

/-- The session is over, and the file has the first `n` bytes of `data`. -/
structure Ended (base : List Byte → Option (List Byte)) (fname data : List Byte) (n : Nat)
    (s : State Card Unit) : Prop where
  closed : Closed s
  files : s.files.files =
    Function.update base fname (some (overlay (oldContent base fname) data n).content)

/-- The number of blocks that have been stored, as the position in the file tells it. -/
def State.blocks (s : State Card Unit) : Nat := s.files.fd.file.pos / maxPayload

/-- What the network brings while `data` is uploaded: blocks of `data` under their numbers, less
than 2^16 away from the one that is waited for, and no request for another session. -/
def Carries (data : List Byte) (s : State Card Unit) : Event CardAns → Prop
  | .tick _ => True
  | .recv d _ =>
    (s.handle = none → d.sbuf 0 ≠ tftpRrq ∧ d.sbuf 0 ≠ tftpWrq) ∧
      (s.handle.isSome = true → ¬ Stranger s d → d.sbuf 0 = tftpData →
        ∃ k, k ≤ lastBlock maxPayload data ∧ d.sbuf 1 = BitVec.ofNat 16 (k + 1) ∧
          (body d).flatten = block maxPayload data k ∧
          k < s.blocks + 2 ^ 16 ∧ s.blocks < k + 2 ^ 16)

theorem Storing.blocks (hs : Storing base fname data m s) : s.blocks = m := by
  rw [State.blocks, hs.file, overlay_pos, length_take_blocks hs.le]
  exact Nat.mul_div_cancel_left m (by decide)

theorem Storing.held (hs : Storing base fname data m s) (hheld : Held s s') :
    Storing base fname data m s' where
  isOpen := hheld.handle.trans hs.isOpen
  mode := hheld.modeWrite.trans hs.mode
  lastData := hheld.lastData.trans hs.lastData
  num := hheld.blknum.trans hs.num
  le := hs.le
  name := (congrArg Card.fname hheld.files).trans hs.name
  files := (congrArg Card.files hheld.files).trans hs.files
  file := (congrArg (fun card : Card => card.fd.file) hheld.files).trans hs.file

/-- **The block that comes in is the one that is waited for.** -/
theorem Storing.body_eq (hs : Storing base fname data m s) {d : Datagram} {a : Answers CardAns}
    (hnet : Carries data s (.recv d a)) (hpeer : ¬ Stranger s d) (hdata : DataFor s d ()) :
    (body d).flatten = block maxPayload data m := by
  have hopen : s.handle.isSome = true := by
    rw [hs.isOpen]
    rfl
  obtain ⟨k, -, hnum, hbody, hlo, hhi⟩ := hnet.2 hopen hpeer hdata.op
  rw [hs.blocks] at hlo hhi
  have hserial : BitVec.ofNat 16 (k + 1) = BitVec.ofNat 16 (m + 1) :=
    hnum.symm.trans (hdata.num.trans hs.num)
  have hk := eq_of_serial hserial (by omega) (by omega)
  rw [hbody, Nat.succ.inj hk]

/-- `f_write` has stored the whole block. -/
theorem write_file {a : Answers CardAns} {d : Datagram} (hs : Storing base fname data m s)
    (hbody : (body d).flatten = block maxPayload data m)
    (hok : (ctxt.write a.io s.files () (body d)).1 = true) :
    (ctxt.write a.io s.files () (body d)).2.fd.file =
      overlay (oldContent base fname) data (maxPayload * (m + 1)) := by
  have hret : (tftpSdcardWrite a.io.write s.files.fd (body d)).1 = 0 := by
    have hle : 0 ≤ (tftpSdcardWrite a.io.write s.files.fd (body d)).1 := of_decide_eq_true hok
    exact Int.le_antisymm (tftpSdcardWrite_nonpos _ _ _) hle
  show (tftpSdcardWrite a.io.write s.files.fd (body d)).2.file = _
  rw [tftpSdcardWrite_file hret, hbody, hs.file, Nat.mul_succ]
  exact overlay_write _ data _ _

/-- The session is over, and `fd` had the first `n` bytes. -/
theorem Storing.ended (hs : Storing base fname data m s) (card : Card)
    (hname : card.fname = s.files.fname) (hfiles : card.files = s.files.files)
    (hfile : card.fd.file = overlay (oldContent base fname) data n)
    (hgone : Gone (ctxt.close card ()) s') : Ended base fname data n s' where
  closed := hgone.closed
  files := by
    have hput : card.put card.fd.file.content =
        Function.update base fname (some card.fd.file.content) := by
      rw [Card.put, hname, hs.name, hfiles, hs.files, Function.update_idem]
    rw [hgone.files, ← hfile]
    exact hput

/-- **The block that is waited for** is stored, and the last one ends the session. -/
theorem Storing.accept (hs : Storing base fname data m s) {d : Datagram} {a : Answers CardAns}
    (hnet : Carries data s (.recv d a)) (hpeer : ¬ Stranger s d) (hdata : DataFor s d ())
    (hok : (ctxt.write a.io s.files () (body d)).1 = true) :
    (m < lastBlock maxPayload data ∧ Storing base fname data (m + 1) (recv ctxt a s d).1) ∨
      (m = lastBlock maxPayload data ∧ Ended base fname data data.length (recv ctxt a s d).1) := by
  have hbody := hs.body_eq hnet hpeer hdata
  have hfile := write_file hs hbody hok
  rw [recv_data hpeer hdata hok, totLen_eq, hbody]
  split_ifs with hshort
  · have hlast := (block_short_iff (by decide) hs.le).mp hshort
    have hall : overlay (oldContent base fname) data (maxPayload * (m + 1)) =
        overlay (oldContent base fname) data data.length := by
      rw [overlay, overlay, hlast, take_blocks (by decide), List.take_length]
    have hgone := (closeHandle_gone (c := ctxt) (s := s.heard.written ctxt a d ()) hs.isOpen).1
    exact Or.inr ⟨hlast, hs.ended (ctxt.write a.io s.files () (body d)).2 rfl rfl
      (hfile.trans hall) hgone⟩
  · -- a full block is not the last one
    have hne : m ≠ lastBlock maxPayload data := fun heq =>
      hshort ((block_short_iff (by decide) hs.le).mpr heq)
    have hlt := Nat.lt_of_le_of_ne hs.le hne
    exact Or.inl ⟨hlt,
      { isOpen := hs.isOpen
        mode := hs.mode
        lastData := hs.lastData
        num := by
          show s.blknum + 1 = _
          rw [hs.num, serial_succ]
        le := hlt
        name := hs.name
        files := hs.files
        file := hfile }⟩

/-- **One step of the upload.** -/
theorem Storing.step (hs : Storing base fname data m s) (hnet : Carries data s e)
    (hstep : serverStep ctxt s e = some s') :
    Storing base fname data m s' ∨ Storing base fname data (m + 1) s' ∨
      ∃ n, Ended base fname data n s' := by
  have hmode : ∀ {d : Datagram}, ¬ AckFor s d () := by
    intro d hack
    have hm := hack.mode
    rw [hs.mode] at hm
    cases hm
  have haccept : ∀ {d : Datagram} {a : Answers CardAns}, e = .recv d a → ¬ Stranger s d →
      DataFor s d () → (ctxt.write a.io s.files () (body d)).1 = true →
      Storing base fname data (m + 1) s' ∨ ∃ n, Ended base fname data n s' := by
    intro d a he hpeer hdata hok
    rw [he] at hnet hstep
    rw [serverStep_recv.mp hstep]
    rcases hs.accept hnet hpeer hdata hok with ⟨-, hs'⟩ | ⟨-, hs'⟩
    · exact Or.inl hs'
    · exact Or.inr ⟨_, hs'⟩
  cases turn hs.isOpen hstep with
  | held hh => exact Or.inl (hs.held hh)
  | stored hpeer hdata hok => exact Or.inr (haccept rfl hpeer hdata hok)
  | storedLast hpeer hdata hok => exact Or.inr (haccept rfl hpeer hdata hok)
  | @failed d a _ hpeer hdata hfail hgone =>
    have hbody := hs.body_eq hnet hpeer hdata
    obtain ⟨j, hj⟩ := tftpSdcardWrite_take a.io.write s.files.fd (body d)
    refine Or.inr (Or.inr ⟨maxPayload * m + min j maxPayload,
      hs.ended (ctxt.write a.io s.files () (body d)).2 rfl rfl ?_ hgone⟩)
    show (tftpSdcardWrite a.io.write s.files.fd (body d)).2.file = _
    rw [hj, hbody, block, List.take_take, hs.file]
    exact overlay_write _ data _ _
  | sent _ hack => exact absurd hack hmode
  | unsent _ hack => exact absurd hack hmode
  | readFailed _ hack => exact absurd hack hmode
  | finished _ hack => exact absurd hack hmode
  | timedOut hgone => exact Or.inr (Or.inr ⟨maxPayload * m, hs.ended s.files rfl rfl hs.file hgone⟩)

/-- What comes behind the end leaves the file alone. -/
theorem Ended.step (hs : Ended base fname data n s) (hnet : Carries data s e)
    (hstep : serverStep ctxt s e = some s') : Ended base fname data n s' := by
  obtain ⟨hclosed, hfiles⟩ := closed_step hs.closed (fun d a he => by
    rw [he] at hnet
    exact hnet.1 hs.closed.handle) hstep
  exact ⟨hclosed, (congrArg Card.files hfiles).trans hs.files⟩

/-- What the file holds: what has been written if it is open. -/
def State.fileOf (s : State Card Unit) (name : List Byte) : List Byte :=
  if s.handle.isSome ∧ s.files.fname = name then s.files.fd.file.content
  else (s.files.files name).getD []

theorem Storing.fileOf (hs : Storing base fname data m s) :
    s.fileOf fname = (overlay (oldContent base fname) data (maxPayload * m)).content := by
  have hopen : s.handle.isSome = true := by
    rw [hs.isOpen]
    rfl
  rw [State.fileOf, if_pos ⟨hopen, hs.name⟩, hs.file]

theorem Ended.fileOf (hs : Ended base fname data n s) :
    s.fileOf fname = (overlay (oldContent base fname) data n).content := by
  have hshut : ¬ (s.handle.isSome = true ∧ s.files.fname = fname) := by
    rw [hs.closed.handle]
    exact fun h => Bool.false_ne_true h.1
  rw [State.fileOf, if_neg hshut, hs.files, Function.update_self]
  rfl

/-- The blocks in front are a prefix of the file. -/
theorem take_prefix_overlay (old data : List Byte) {k n : Nat} (hk : k ≤ n) :
    data.take k <+: (overlay old data n).content := by
  rw [overlay_content]
  exact (List.take_prefix_take_left hk).trans (List.prefix_append _ _)

/-- How far the upload is. -/
inductive Uploaded (base : List Byte → Option (List Byte)) (fname data : List Byte)
    (s : State Card Unit) : Prop where
  | storing {m : Nat} (hs : Storing base fname data m s) : Uploaded base fname data s
  | ended {n : Nat} (hs : Ended base fname data n s) : Uploaded base fname data s

theorem Uploaded.step (hs : Uploaded base fname data s) (hnet : Carries data s e)
    (hstep : serverStep ctxt s e = some s') : Uploaded base fname data s' := by
  cases hs with
  | storing hs =>
    rcases hs.step hnet hstep with hs' | hs' | ⟨n, hs'⟩
    · exact .storing hs'
    · exact .storing hs'
    · exact .ended hs'
  | ended hs => exact .ended (hs.step hnet hstep)

theorem Uploaded.fileOf (hs : Uploaded base fname data s) :
    ∃ n, s.fileOf fname =
      data.take n ++ (oldContent base fname).drop (data.take n).length := by
  cases hs with
  | storing hs => exact ⟨_, hs.fileOf.trans (overlay_content _ _ _)⟩
  | ended hs => exact ⟨_, hs.fileOf.trans (overlay_content _ _ _)⟩

theorem Uploaded.other (hs : Uploaded base fname data s) {other : List Byte} (hne : other ≠ fname) :
    s.files.files other = base other := by
  cases hs with
  | storing hs => rw [hs.files, Function.update_of_ne hne]
  | ended hs => rw [hs.files, Function.update_of_ne hne]

/-- **What an acknowledgment means.** -/
theorem Uploaded.ack (hs : Uploaded base fname data s) (hnet : Carries data s e)
    (hstep : serverStep ctxt s e = some s') {num : BitVec 16}
    (hmem : Action.send dest (ackPacket num) ∈ actions ctxt s e) :
    ∃ k, num = BitVec.ofNat 16 k ∧ k ≤ lastBlock maxPayload data + 1 ∧
      data.take (maxPayload * k) <+: s'.fileOf fname := by
  have hsent := sends hstep hmem
  cases hs with
  | @storing m hs =>
    cases hsent with
    | error hw => exact absurd hw.symm (errorPacket_ne_ackPacket _ _ _)
    | ackAgain _ _ hn hw hheld =>
      -- the last acknowledgment once more
      rw [hs.num, ← serial_succ] at hn
      have hs' := hs.held hheld
      refine ⟨m, (ackPacket_inj hw).trans ((BitVec.add_left_inj 1).mp hn),
        Nat.le_succ_of_le hs.le, ?_⟩
      rw [hs'.fileOf]
      exact take_prefix_overlay _ _ (Nat.le_refl _)
    | accept hnone =>
      rw [hs.isOpen] at hnone
      cases hnone
    | @ack d a _ hpeer hdata hok hw =>
      refine ⟨m + 1, (ackPacket_inj hw).trans hs.num, Nat.succ_le_succ hs.le, ?_⟩
      rw [serverStep_recv.mp hstep]
      rcases hs.accept hnet hpeer hdata hok with ⟨-, hs'⟩ | ⟨hlast, hs'⟩
      · rw [hs'.fileOf]
        exact take_prefix_overlay _ _ (Nat.le_refl _)
      · rw [hs'.fileOf, hlast, take_blocks (by decide)]
        have hall := take_prefix_overlay (oldContent base fname) data (Nat.le_refl data.length)
        rwa [List.take_length] at hall
    | data _ hlast =>
      rcases hs.step hnet hstep with hs' | hs' | ⟨n, hs'⟩
      · exact absurd (hs'.lastData.symm.trans hlast) (Option.some_ne_none _).symm
      · exact absurd (hs'.lastData.symm.trans hlast) (Option.some_ne_none _).symm
      · exact absurd (hs'.closed.lastData.symm.trans hlast) (Option.some_ne_none _).symm
  | ended hs =>
    have hnone := hs.closed.handle
    cases hsent with
    | error hw => exact absurd hw.symm (errorPacket_ne_ackPacket _ _ _)
    | ackAgain hopen =>
      rw [hnone] at hopen
      cases hopen
    | accept _ hop =>
      exact absurd hop (hnet.1 hnone).2
    | ack _ hdata =>
      have hopen := hdata.isOpen
      rw [hnone] at hopen
      cases hopen
    | data _ hlast =>
      have hs' := hs.step hnet hstep
      exact absurd (hs'.closed.lastData.symm.trans hlast) (Option.some_ne_none _).symm

/-! ## From the request on -/

/-- `FA_OPEN_ALWAYS`: the file is there, with what was in it. -/
theorem ctxt_openFile_write {io : CardAns} {card : Card} {mode : List Byte} {h : Unit}
    (hopen : (ctxt.openFile io card fname mode true).1 = some h) :
    (ctxt.openFile io card fname mode true).2 =
      ⟨Function.update card.files fname (some (oldContent card.files fname)), fname,
        ⟨OpenFile.start (oldContent card.files fname), 0⟩⟩ := by
  dsimp only [ctxt] at hopen ⊢
  split at hopen
  · cases hopen
  · next f hf =>
    unfold tftpSdcardOpen OpenFile.openAlways at hf
    split_ifs at hf
    · obtain rfl := Option.some.inj hf
      rfl
    · exact absurd rfl (by assumption)

theorem storing_of_opened {d : Datagram} {a : Answers CardAns} {filename mode : List Byte}
    (hclosed : Closed s) (hop : d.sbuf 0 = tftpWrq)
    (hreq : request d.p.flatten = .ok (filename, mode))
    (hstep : serverStep ctxt s (.recv d a) = some s') (hopen : s'.handle.isSome = true)
    (data : List Byte) : Storing s.files.files (cstr filename 0) data 0 s' := by
  have hnone : ∀ {t : State Card Unit}, Held t s' → ¬ t.handle = none := by
    intro t hh hnone
    rw [hh.handle, hnone] at hopen
    exact Bool.false_ne_true hopen
  have hrrq : ¬ d.sbuf 0 = tftpRrq := by
    rw [hop]
    decide
  cases between hclosed hstep with
  | idle hh => exact (hnone hh hclosed.handle).elim
  | refused _ _ hh => exact (hnone hh hclosed.handle).elim
  | notFound _ _ hnull hh => exact (hnone hh hnull).elim
  | @upload _ _ _ r h _ hcall hsome hh =>
    obtain ⟨filename', mode', hreq', hr⟩ := hcall
    rw [hreq, Except.ok.injEq, Prod.mk.injEq] at hreq'
    obtain ⟨rfl, rfl⟩ := hreq'
    rw [hr] at hsome
    have hcard := ctxt_openFile_write hsome
    rw [← hr] at hsome hcard
    have hfiles : s'.files = r.2 := hh.files
    rw [hcard] at hfiles
    exact
      { isOpen := hh.handle.trans hsome
        mode := hh.modeWrite
        lastData := hh.lastData.trans hclosed.lastData
        num := hh.blknum
        le := Nat.zero_le _
        name := congrArg Card.fname hfiles
        files := congrArg Card.files hfiles
        file := (congrArg (fun card : Card => card.fd.file) hfiles).trans
          (OpenFile.write_nil _).symm }
  | download hop' => exact absurd hop' hrrq
  | unsent hop' => exact absurd hop' hrrq
  | readFailed hop' => exact absurd hop' hrrq

/-- **Uploads.** Whatever is lost, late, repeated or out of order, and however the session ends, the
file has the first part of the data over its old content; no other file changes; and block number
`k` is acknowledged, as `k` modulo 2^16, only when the file has the first `k` blocks. -/
theorem upload_stored {card : Card} {es es' : List (Event CardAns)} {d : Datagram}
    {a : Answers CardAns} {filename mode data : List Byte} {s t u u' : State Card Unit}
    {e : Event CardAns} (hrun : runFrom (serverStep ctxt) (tftpInit Unit card) es = some s)
    (hclosed : s.handle = none) (hop : d.sbuf 0 = tftpWrq)
    (hreq : request d.p.flatten = .ok (filename, mode))
    (hstep : serverStep ctxt s (.recv d a) = some t) (hopen : t.handle.isSome = true)
    (hnet : StepsMeet (serverStep ctxt) (Carries data) t es')
    (hrun' : runFrom (serverStep ctxt) t es' = some u) (hnet' : Carries data u e)
    (hlast : serverStep ctxt u e = some u') :
    let name := cstr filename 0
    (∃ n, u'.fileOf name =
      data.take n ++ (oldContent s.files.files name).drop (data.take n).length) ∧
      (∀ other, other ≠ name → u'.files.files other = s.files.files other) ∧
      ∀ dest num, Action.send dest (ackPacket num) ∈ actions ctxt u e →
        ∃ k, num = BitVec.ofNat 16 k ∧ k ≤ lastBlock maxPayload data + 1 ∧
          data.take (maxPayload * k) <+: u'.fileOf name := by
  intro name
  have hphase := closed_of_run hrun hclosed
  have hbegin : Uploaded s.files.files name data t :=
    .storing (storing_of_opened hphase hop hreq hstep hopen data)
  have hu := runFrom_invariant_of_meets (I := Uploaded s.files.files name data)
    (fun _ _ _ hs hnet hstep => hs.step hnet hstep) hbegin hnet hrun'
  have hu' := hu.step hnet' hlast
  exact ⟨hu'.fileOf, fun other hne => hu'.other hne, fun dest num hmem => hu.ack hnet' hlast hmem⟩

/-- A block of three bytes. -/
def threeBytes : Event CardAns := .recv (fromClient (dataPacket 1 [1, 2, 3]) (by decide)) allWell

/-- Its acknowledgment. -/
theorem upload_stored_three : ∃ u,
    serverStep ctxt (sessionFor true [5, 6, 7, 8, 9]) threeBytes = some u ∧
    ∃ k, (1 : BitVec 16) = BitVec.ofNat 16 k ∧ k ≤ lastBlock maxPayload [(1 : Byte), 2, 3] + 1 ∧
      [1, 2, 3].take (maxPayload * k) <+: u.fileOf [0x61] := by
  have hnet : Carries [1, 2, 3] (sessionFor true [5, 6, 7, 8, 9]) threeBytes :=
    ⟨fun h => absurd h (by decide), fun _ _ _ => ⟨0, by decide, rfl, rfl, by decide, by decide⟩⟩
  have hnone : StepsMeet (serverStep ctxt) (Carries [1, 2, 3])
      (sessionFor true [5, 6, 7, 8, 9]) [] :=
    trivial
  have h := upload_stored (runFrom_nil _ (tftpInit Unit (cardWith [5, 6, 7, 8, 9]))) rfl
    requestFor_op requestFor_names (sessionFor_step true _) (by decide) hnone rfl hnet rfl
  exact ⟨_, rfl, h.2.2 (requestFor true).peer 1 (by decide)⟩

/-! ## Uploads that get through -/

/-- A datagram of the peer with block `k`. -/
def Brings (d : Datagram) (data : List Byte) (k : Nat) : Event CardAns → Prop
  | .tick _ => False
  | .recv d' a => fromPeer d (.recv d' a) = true ∧ d'.sbuf 0 = tftpData ∧
      d'.sbuf 1 = BitVec.ofNat 16 (k + 1) ∧ (body d').flatten = block maxPayload data k

/-- Datagrams with the blocks from `k` on, up to the last one. -/
def BringsFrom (d : Datagram) (data : List Byte) : Nat → List (Event CardAns) → Prop
  | k, [] => k = lastBlock maxPayload data + 1
  | k, e :: es => Brings d data k e ∧ BringsFrom d data (k + 1) es

/-- The card takes the block, and the timeout does not strike. -/
def Smooth (s : State Card Unit) : Event CardAns → Prop
  | .tick _ => s.timer < s.lastPkt + timeoutTicks
  | .recv d a => DataFor s d () → (ctxt.write a.io s.files () (body d)).1 = true

/-- A step of an upload that goes well: the block that is waited for is not missed. -/
theorem Storing.smooth_step {d : Datagram} (hs : Storing base fname data m s) (howned : Owned d s)
    (hnet : Carries data s e) (hsmooth : Smooth s e) (hstep : serverStep ctxt s e = some s') :
    (Storing base fname data m s' ∧ ¬ Brings d data m e) ∨ Storing base fname data (m + 1) s' ∨
      Ended base fname data data.length s' := by
  have haccept : ∀ {d' : Datagram} {a : Answers CardAns}, e = .recv d' a → ¬ Stranger s d' →
      DataFor s d' () →
      Storing base fname data (m + 1) s' ∨ Ended base fname data data.length s' := by
    intro d' a he hpeer hdata
    rw [he] at hnet hstep hsmooth
    rw [serverStep_recv.mp hstep]
    rcases hs.accept hnet hpeer hdata (hsmooth hdata) with ⟨-, hs'⟩ | ⟨-, hs'⟩
    · exact Or.inl hs'
    · exact Or.inr hs'
  by_cases hbrings : Brings d data m e
  · cases e with
    | tick a => exact hbrings.elim
    | recv d' a =>
      obtain ⟨hfrom, hop, hnum, -⟩ := hbrings
      have hpeer : ¬ Stranger s d' := by
        intro hstranger
        rw [howned.stranger_iff d' a, hfrom] at hstranger
        cases hstranger
      exact Or.inr (haccept rfl hpeer ⟨hs.isOpen, hs.mode, hop, hnum.trans hs.num.symm⟩)
  · cases e with
    | tick a =>
      rcases tick_open hs.isOpen hstep with ⟨-, hs'⟩ | ⟨hlate, -, -⟩ | ⟨hlate, -, -, -⟩
      · rw [hs']
        exact Or.inl ⟨hs.held ⟨rfl, rfl, rfl, rfl, rfl, rfl, rfl, rfl⟩, hbrings⟩
      · exact absurd hsmooth (Nat.not_lt.mpr hlate)
      · exact absurd hsmooth (Nat.not_lt.mpr hlate)
    | recv d' a =>
      have hmode : ¬ AckFor s d' () := by
        intro hack
        have hm := hack.mode
        rw [hs.mode] at hm
        cases hm
      cases turn hs.isOpen hstep with
      | held hh => exact Or.inl ⟨hs.held hh, hbrings⟩
      | stored hpeer hdata => exact Or.inr (haccept rfl hpeer hdata)
      | storedLast hpeer hdata => exact Or.inr (haccept rfl hpeer hdata)
      | failed _ hdata hfail =>
        have hok := hsmooth hdata
        rw [hfail] at hok
        cases hok
      | sent _ hack => exact absurd hack hmode
      | unsent _ hack => exact absurd hack hmode
      | readFailed _ hack => exact absurd hack hmode
      | finished _ hack => exact absurd hack hmode

theorem Storing.owned {d : Datagram} (hs : Storing base fname data m s) (hs' : s'.handle = some ())
    (howned : Owned d s) (hstep : serverStep ctxt s e = some s') : Owned d s' := by
  have hopen : s.handle.isSome = true := by
    rw [hs.isOpen]
    rfl
  have hopen' : s'.handle.isSome = true := by
    rw [hs']
    rfl
  exact owned_step howned hopen hopen' hstep

theorem smooth_run {d : Datagram} {es bs : List (Event CardAns)}
    (hs : Storing base fname data m s) (howned : Owned d s)
    (hnet : StepsMeet (serverStep ctxt) (Carries data) s es)
    (hsmooth : StepsMeet (serverStep ctxt) Smooth s es) (hsub : bs.Sublist es)
    (hbrings : BringsFrom d data m bs) (hrun : runFrom (serverStep ctxt) s es = some s') :
    Ended base fname data data.length s' := by
  induction es generalizing s m bs with
  | nil =>
    obtain rfl := List.sublist_nil.mp hsub
    have hle := hs.le
    have hend : m = lastBlock maxPayload data + 1 := hbrings
    omega
  | cons e es ih =>
    obtain ⟨t, hstep, hrest⟩ := runFrom_cons_iff.mp hrun
    rcases hs.smooth_step howned hnet.1 hsmooth.1 hstep with ⟨ht, hnot⟩ | ht | ht
    · -- `e` is not the block that is waited for, so that one is still to come
      have hsub' : bs.Sublist es := by
        cases hsub with
        | cons _ h => exact h
        | cons_cons _ h => exact absurd hbrings.1 hnot
      exact ih ht (hs.owned ht.isOpen howned hstep) (hnet.2 t hstep) (hsmooth.2 t hstep) hsub'
        hbrings hrest
    · -- the block is there, so one less is needed
      cases bs with
      | nil =>
        have hle := hs.le
        have hend : m = lastBlock maxPayload data + 1 := hbrings
        omega
      | cons b bs' =>
        exact ih ht (hs.owned ht.isOpen howned hstep) (hnet.2 t hstep) (hsmooth.2 t hstep)
          hsub.of_cons_cons hbrings.2 hrest
    · exact runFrom_invariant_of_meets (I := Ended base fname data data.length)
        (fun _ _ _ hI hC hstep => hI.step hC hstep) ht (hnet.2 t hstep) hrest

end

end Acmi.Tftp
