import Acmi.Tftp.Store

/-!
# `tftp_server.c` and `tftp_handler.c`: a download

The server reads a block, keeps it as `last_data`, and reads the next one when the block is
acknowledged. `download_sent` says what goes out, however acknowledgments are lost or repeated and
whatever pbufs are missing: block after block of the file, each as often as it may be, under its
number modulo 2^16. Only the acknowledgment of the last block ends the session.

The peer has to keep its side of the protocol (`AcksSent`): a block that could not be read for want
of a pbuf has never been sent, and must not be acknowledged. The server would go on with the number
behind it and the same data.
-/

namespace Acmi.Tftp

open Acmi.Lib Acmi.Sdcard

section

variable {base : List Byte → Option (List Byte)} {content : List Byte} {k : Nat}
  {s s' : State Card Unit} {e : Event CardAns} {dest : Peer} {w : List Byte}

/-- The packet with block `k`. -/
def blockPacket (content : List Byte) (k : Nat) : List Byte :=
  dataPacket (BitVec.ofNat 16 (k + 1)) (block maxPayload content k)

/-- The session is at block `k`: `last_data` has it, or there was no pbuf to read it into. -/
structure Fetching (base : List Byte → Option (List Byte)) (content : List Byte) (k : Nat)
    (s : State Card Unit) : Prop where
  isOpen : s.handle = some ()
  mode : s.modeWrite = false
  num : s.blknum = BitVec.ofNat 16 (k + 1)
  le : k ≤ lastBlock maxPayload content
  files : s.files.files = base
  named : base s.files.fname = some content
  file : s.files.fd.file.content = content
  last : s.lastData = none ∧ s.files.fd.file.pos = maxPayload * k ∨
    s.lastData = some (blockPacket content k) ∧
      s.files.fd.file.pos = maxPayload * k + (block maxPayload content k).length

/-- The session is over, and the card is as it was. -/
structure FetchEnded (base : List Byte → Option (List Byte)) (s : State Card Unit) : Prop where
  closed : Closed s
  files : s.files.files = base

/-- The peer acknowledges what the server has got to send, and asks for nothing else. -/
def AcksSent (s : State Card Unit) : Event CardAns → Prop
  | .tick _ => True
  | .recv d _ =>
    (s.handle = none → d.sbuf 0 ≠ tftpRrq ∧ d.sbuf 0 ≠ tftpWrq) ∧
      (¬ Stranger s d → AckFor s d () → s.lastData.isSome = true)

theorem Fetching.held (hs : Fetching base content k s) (hheld : Held s s') :
    Fetching base content k s' where
  isOpen := hheld.handle.trans hs.isOpen
  mode := hheld.modeWrite.trans hs.mode
  num := hheld.blknum.trans hs.num
  le := hs.le
  files := (congrArg Card.files hheld.files).trans hs.files
  named := by
    rw [hheld.files]
    exact hs.named
  file := (congrArg (fun card : Card => card.fd.file.content) hheld.files).trans hs.file
  last := by
    rw [hheld.lastData, hheld.files]
    exact hs.last

theorem blockPacket_length (content : List Byte) (k : Nat) :
    (blockPacket content k).length = 4 + (block maxPayload content k).length := by
  rw [blockPacket, dataPacket, List.length_append, List.length_append, be16_length, be16_length]
  omega

/-- `lastpkt` is the short block, the last one. -/
theorem Fetching.lastpkt_iff (hs : Fetching base content k s) (hlast : s.lastData.isSome = true) :
    s.lastData = some (blockPacket content k) ∧
      (lastpkt s = true ↔ k = lastBlock maxPayload content) := by
  rcases hs.last with ⟨hnone, -⟩ | ⟨hsome, -⟩
  · rw [hnone] at hlast
    cases hlast
  · refine ⟨hsome, ?_⟩
    rw [← block_short_iff (by decide) hs.le, lastpkt, hsome]
    dsimp only
    have hle := block_length_le maxPayload content k
    rw [bne_iff_ne, blockPacket_length]
    omega

/-- What is on the card when the file is closed. -/
theorem Fetching.ended (hs : Fetching base content k s) (card : Card)
    (hname : card.fname = s.files.fname) (hfiles : card.files = s.files.files)
    (hfile : card.fd.file.content = content) (hgone : Gone (ctxt.close card ()) s') :
    FetchEnded base s' where
  closed := hgone.closed
  files := by
    rw [hgone.files]
    show Function.update card.files card.fname (some card.fd.file.content) = base
    rw [hname, hfiles, hfile, hs.files, ← hs.named, Function.update_eq_self]

/-- `tftp_sdcard_read` at the beginning of a block gives that block. -/
theorem ctxt_read {io : CardAns} {card : Card} {p : List Byte}
    (hfile : card.fd.file.content = content) (hpos : card.fd.file.pos = maxPayload * k)
    (hread : (ctxt.read io card () maxPayload).1 = some p) :
    p = block maxPayload content k ∧
      (ctxt.read io card () maxPayload).2 =
        { card with fd := { card.fd with file := card.fd.file.skip maxPayload } } ∧
      (card.fd.file.skip maxPayload).pos =
        maxPayload * k + (block maxPayload content k).length := by
  have hblock : card.fd.file.read maxPayload = block maxPayload content k := by
    rw [OpenFile.read, hfile, hpos, block]
  dsimp only [ctxt, tftpSdcardRead] at hread ⊢
  split_ifs at hread ⊢
  · refine ⟨?_, rfl, ?_⟩
    · rw [← hblock]
      exact (Option.some.inj hread).symm
    · rw [← hblock, ← hpos]
      rfl

/-- A block that is not the last one is full. -/
theorem block_full {n : Nat} {data : List Byte} (hn : 0 < n) (hk : k < lastBlock n data) :
    (block n data k).length = n := by
  have hle := block_length_le n data k
  have hshort : ¬ (block n data k).length < n := fun h =>
    Nat.ne_of_lt hk ((block_short_iff hn (Nat.le_of_lt hk)).mp h)
  omega

/-- The next block has been read. -/
theorem Fetching.sent (hs : Fetching base content k s) {a : Answers CardAns} {p : List Byte}
    (hle : k + 1 ≤ lastBlock maxPayload content)
    (hpos : s.files.fd.file.pos = maxPayload * (k + 1))
    (hread : (ctxt.read a.io s.files () maxPayload).1 = some p)
    (hheld : Held (s.nextBlock.loaded ctxt a () p) s') : Fetching base content (k + 1) s' := by
  obtain ⟨hp, hcard, hpos'⟩ := ctxt_read hs.file hpos hread
  have hfiles : s'.files = { s.files with
      fd := { s.files.fd with file := s.files.fd.file.skip maxPayload } } :=
    hheld.files.trans hcard
  have hnum : s.nextBlock.blknum = BitVec.ofNat 16 (k + 1 + 1) := by
    show s.blknum + 1 = _
    rw [hs.num, serial_succ]
  refine
    { isOpen := hheld.handle.trans hs.isOpen
      mode := hheld.modeWrite.trans hs.mode
      num := hheld.blknum.trans hnum
      le := hle
      files := (congrArg Card.files hfiles).trans hs.files
      named := ?_
      file := (congrArg (fun card : Card => card.fd.file.content) hfiles).trans hs.file
      last := Or.inr ⟨?_, ?_⟩ }
  · rw [hfiles]
    exact hs.named
  · rw [hheld.lastData, State.loaded, hnum, hp]
    rfl
  · rw [hfiles]
    exact hpos'

/-- Behind a full block the file is at the beginning of the next one. -/
theorem Fetching.next (hs : Fetching base content k s) (hlast : s.lastData.isSome = true)
    (hmore : lastpkt s = false) :
    k + 1 ≤ lastBlock maxPayload content ∧ s.files.fd.file.pos = maxPayload * (k + 1) := by
  obtain ⟨hsome, hiff⟩ := hs.lastpkt_iff hlast
  have hne : k ≠ lastBlock maxPayload content := by
    intro heq
    have hshort := hiff.mpr heq
    rw [hmore] at hshort
    cases hshort
  have hlt := Nat.lt_of_le_of_ne hs.le hne
  refine ⟨hlt, ?_⟩
  rcases hs.last with ⟨hnone, -⟩ | ⟨-, hpos⟩
  · rw [hnone] at hsome
    cases hsome
  · rw [hpos, block_full (by decide) hlt, Nat.mul_succ]

/-- **One step of the download.** -/
theorem Fetching.step (hs : Fetching base content k s) (hacks : AcksSent s e)
    (hstep : serverStep ctxt s e = some s') :
    Fetching base content k s' ∨ Fetching base content (k + 1) s' ∨ FetchEnded base s' := by
  have hmode : ∀ {d : Datagram}, ¬ DataFor s d () := by
    intro d hdata
    have hm := hdata.mode
    rw [hs.mode] at hm
    cases hm
  -- an acknowledgment of a block that is not the last one
  have hnext : ∀ {d : Datagram} {a : Answers CardAns}, e = .recv d a → ¬ Stranger s d →
      AckFor s d () → lastpkt s = false →
      k + 1 ≤ lastBlock maxPayload content ∧ s.files.fd.file.pos = maxPayload * (k + 1) := by
    intro d a he hpeer hack hmore
    rw [he] at hacks
    exact hs.next (hacks.2 hpeer hack) hmore
  cases turn hs.isOpen hstep with
  | held hh => exact Or.inl (hs.held hh)
  | sent hpeer hack hmore hread hh =>
    obtain ⟨hle, hpos⟩ := hnext rfl hpeer hack hmore
    exact Or.inr (Or.inl (hs.sent hle hpos hread hh))
  | @unsent d a _ hpeer hack hmore hroom hh =>
    obtain ⟨hle, hpos⟩ := hnext rfl hpeer hack hmore
    refine Or.inr (Or.inl
      { isOpen := hh.handle.trans hs.isOpen
        mode := hh.modeWrite.trans hs.mode
        num := ?_
        le := hle
        files := (congrArg Card.files hh.files).trans hs.files
        named := ?_
        file := (congrArg (fun card : Card => card.fd.file.content) hh.files).trans hs.file
        last := Or.inl ⟨hh.lastData, ?_⟩ })
    · rw [hh.blknum]
      show s.blknum + 1 = _
      rw [hs.num, serial_succ]
    · rw [hh.files]
      exact hs.named
    · rw [hh.files]
      exact hpos
  | stored _ hdata => exact absurd hdata hmode
  | storedLast _ hdata => exact absurd hdata hmode
  | failed _ hdata => exact absurd hdata hmode
  | @readFailed d a _ hpeer hack hmore hread hgone =>
    have hcard : (ctxt.read a.io s.files () maxPayload).2 = s.files := by
      dsimp only [ctxt, tftpSdcardRead] at hread ⊢
      split_ifs at hread ⊢
      rfl
    rw [hcard] at hgone
    exact Or.inr (Or.inr (hs.ended s.files rfl rfl hs.file hgone))
  | finished _ _ _ hgone => exact Or.inr (Or.inr (hs.ended s.files rfl rfl hs.file hgone))
  | timedOut hgone => exact Or.inr (Or.inr (hs.ended s.files rfl rfl hs.file hgone))

theorem FetchEnded.step (hs : FetchEnded base s) (hacks : AcksSent s e)
    (hstep : serverStep ctxt s e = some s') : FetchEnded base s' := by
  obtain ⟨hclosed, hfiles⟩ := closed_step hs.closed (fun d a he => by
    rw [he] at hacks
    exact hacks.1 hs.closed.handle) hstep
  exact ⟨hclosed, (congrArg Card.files hfiles).trans hs.files⟩

/-! ## From the request on -/

/-- `FA_OPEN_EXISTING` -/
theorem ctxt_openFile_read {io : CardAns} {card : Card} {fname mode : List Byte} {h : Unit}
    (hfile : card.files fname = some content)
    (hopen : (ctxt.openFile io card fname mode false).1 = some h) :
    (ctxt.openFile io card fname mode false).2 =
      ⟨card.files, fname, ⟨OpenFile.start content, 0⟩⟩ := by
  dsimp only [ctxt] at hopen ⊢
  split at hopen
  · cases hopen
  · next f hf =>
    unfold tftpSdcardOpen OpenFile.openExisting at hf
    rw [hfile] at hf
    split_ifs at hf with hmode hwrite hok
    · exact hwrite.elim
    · rw [Option.map_some, Option.some.injEq] at hf
      rw [← hf]
      refine congrArg (Card.mk · fname _) ?_
      show Function.update card.files fname (some content) = _
      rw [← hfile]
      exact Function.update_eq_self _ _

theorem fetching_of_opened {d : Datagram} {a : Answers CardAns} {filename mode : List Byte}
    (hclosed : Closed s) (hop : d.sbuf 0 = tftpRrq)
    (hreq : request d.p.flatten = .ok (filename, mode))
    (hfile : s.files.files (cstr filename 0) = some content)
    (hstep : serverStep ctxt s (.recv d a) = some s') (hopen : s'.handle.isSome = true) :
    Fetching s.files.files content 0 s' := by
  have hnone : ∀ {t : State Card Unit}, Held t s' → ¬ t.handle = none := by
    intro t hh hnone
    rw [hh.handle, hnone] at hopen
    exact Bool.false_ne_true hopen
  have hwrq : ¬ d.sbuf 0 = tftpWrq := by
    rw [hop]
    decide
  have hcalled : ∀ {r : Option Unit × Card} {h : Unit}, Calls ctxt a s d false r →
      r.1 = some h → r.2 = ⟨s.files.files, cstr filename 0, ⟨OpenFile.start content, 0⟩⟩ := by
    intro r h hcall hsome
    obtain ⟨filename', mode', hreq', hr⟩ := hcall
    rw [hreq, Except.ok.injEq, Prod.mk.injEq] at hreq'
    obtain ⟨rfl, rfl⟩ := hreq'
    rw [hr] at hsome ⊢
    exact ctxt_openFile_read hfile hsome
  cases between hclosed hstep with
  | idle hh => exact (hnone hh hclosed.handle).elim
  | refused _ _ hh => exact (hnone hh hclosed.handle).elim
  | notFound _ _ hnull hh => exact (hnone hh hnull).elim
  | upload hop' => exact absurd hop' hwrq
  | @download _ _ _ r h p _ hcall hsome hread hh =>
    have hcard := hcalled hcall hsome
    rw [hcard] at hread
    obtain ⟨hp, hcard', hpos⟩ := ctxt_read (k := 0) rfl rfl hread
    have hfiles : s'.files = (ctxt.read a.io r.2 h maxPayload).2 := hh.files
    rw [hcard] at hfiles
    rw [hcard'] at hfiles
    exact
      { isOpen := hh.handle.trans hsome
        mode := hh.modeWrite
        num := hh.blknum
        le := Nat.zero_le _
        files := by rw [hfiles]
        named := by
          rw [hfiles]
          exact hfile
        file := congrArg (fun card : Card => card.fd.file.content) hfiles
        last := Or.inr ⟨by rw [hh.lastData, hp]; rfl, by rw [hfiles]; exact hpos⟩ }
  | @unsent _ _ _ r h _ hcall hsome hh =>
    have hcard := hcalled hcall hsome
    have hfiles : s'.files = r.2 := hh.files
    rw [hcard] at hfiles
    exact
      { isOpen := hh.handle.trans hsome
        mode := hh.modeWrite
        num := hh.blknum
        le := Nat.zero_le _
        files := by rw [hfiles]
        named := by
          rw [hfiles]
          exact hfile
        file := congrArg (fun card : Card => card.fd.file.content) hfiles
        last := Or.inl ⟨hh.lastData, by rw [hfiles]; rfl⟩ }
  | readFailed _ _ _ _ hgone =>
    rw [hgone.handle] at hopen
    exact absurd hopen Bool.false_ne_true

/-! ## What goes out -/

/-- The packets with data. -/
def dataPackets (as : List (Action Unit)) : List (List Byte) :=
  as.filterMap fun
    | .send _ w => if w.take 2 = be16 tftpData then some w else none
    | _ => none

/-- The packets with data that a step sends. -/
def dataSent (s : State Card Unit) (e : Event CardAns) : List (List Byte) :=
  dataPackets (actions ctxt s e)

/-- They are copies of `last_data`. -/
theorem dataSent_eq (hstep : serverStep ctxt s e = some s') :
    (s'.lastData = none → dataSent s e = []) ∧
      ∀ w, s'.lastData = some w → ∃ n, dataSent s e = List.replicate n w := by
  have hmem : ∀ w, w ∈ dataSent s e → s'.lastData = some w := by
    intro w hw
    obtain ⟨x, hx, hsome⟩ := List.mem_filterMap.mp hw
    cases x with
    | send dest w' =>
      dsimp only at hsome
      split_ifs at hsome with hop
      obtain rfl := Option.some.inj hsome
      cases sends hstep hx with
      | error herror =>
        rw [herror, errorPacket, take_be16] at hop
        exact absurd hop (by decide)
      | ackAgain _ _ _ hack =>
        rw [hack, ackPacket, take_be16] at hop
        exact absurd hop (by decide)
      | accept _ _ hack =>
        rw [hack, ackPacket, take_be16] at hop
        exact absurd hop (by decide)
      | ack _ _ _ hack =>
        rw [hack, ackPacket, take_be16] at hop
        exact absurd hop (by decide)
      | data _ hlast => exact hlast
    | alloc b => cases hsome
    | free b => cases hsome
    | openFile f m w h => cases hsome
    | close h => cases hsome
    | read h => cases hsome
    | write h p => cases hsome
  constructor
  · intro hnone
    refine List.eq_nil_iff_forall_not_mem.mpr fun w hw => ?_
    exact absurd (hnone.symm.trans (hmem w hw)) (Option.some_ne_none w).symm
  · intro w hlast
    refine ⟨(dataSent s e).length, List.eq_replicate_iff.mpr ⟨rfl, fun w' hw => ?_⟩⟩
    exact (Option.some.inj (hlast.symm.trans (hmem w' hw))).symm

/-- What has gone out: the blocks `ks`, up to the block the session is at. -/
structure Sent (base : List Byte → Option (List Byte)) (content : List Byte)
    (s : State Card Unit) (sent : List (List Byte)) (ks : List Nat) : Prop where
  eq : sent = ks.map (blockPacket content)
  sorted : ks.Pairwise (· ≤ ·)
  le : ∀ k ∈ ks, k ≤ lastBlock maxPayload content
  phase : (∃ k, Fetching base content k s ∧ ∀ j ∈ ks, j ≤ k) ∨ FetchEnded base s

/-- At block `k` the packets are copies of that block. -/
theorem Fetching.dataSent (hs' : Fetching base content k s')
    (hstep : serverStep ctxt s e = some s') :
    ∃ n, Tftp.dataSent s e = (List.replicate n k).map (blockPacket content) := by
  obtain ⟨hnone, hsome⟩ := dataSent_eq hstep
  rcases hs'.last with ⟨hlast, -⟩ | ⟨hlast, -⟩
  · exact ⟨0, hnone hlast⟩
  · obtain ⟨n, hn⟩ := hsome _ hlast
    exact ⟨n, by rw [hn, List.map_replicate]⟩

/-- Copies of a block that is not in front of the others. -/
theorem Sent.append {sent : List (List Byte)} {ks : List Nat} {n : Nat}
    (hs : Sent base content s sent ks) (hle : ∀ j ∈ ks, j ≤ k) (hs' : Fetching base content k s') :
    Sent base content s' (sent ++ (List.replicate n k).map (blockPacket content))
      (ks ++ List.replicate n k) where
  eq := by rw [hs.eq, List.map_append]
  sorted := by
    refine List.pairwise_append.mpr ⟨hs.sorted, ?_, ?_⟩
    · exact List.pairwise_replicate.mpr (Or.inr (Nat.le_refl k))
    · intro i hi j hj
      rw [List.eq_of_mem_replicate hj]
      exact hle i hi
  le := by
    intro j hj
    rcases List.mem_append.mp hj with hj | hj
    · exact hs.le j hj
    · rw [List.eq_of_mem_replicate hj]
      exact hs'.le
  phase := by
    refine Or.inl ⟨k, hs', fun j hj => ?_⟩
    rcases List.mem_append.mp hj with hj | hj
    · exact hle j hj
    · exact Nat.le_of_eq (List.eq_of_mem_replicate hj)

theorem Sent.step {sent : List (List Byte)} {ks : List Nat} (hs : Sent base content s sent ks)
    (hacks : AcksSent s e) (hstep : serverStep ctxt s e = some s') :
    ∃ ks', Sent base content s' (sent ++ dataSent s e) ks' := by
  have hended : FetchEnded base s' → ∃ ks', Sent base content s' (sent ++ dataSent s e) ks' := by
    intro hs'
    rw [(dataSent_eq hstep).1 hs'.closed.lastData, List.append_nil]
    exact ⟨ks, hs.eq, hs.sorted, hs.le, Or.inr hs'⟩
  rcases hs.phase with ⟨k, hk, hle⟩ | hend
  · rcases hk.step hacks hstep with hk' | hk' | hs'
    · obtain ⟨n, hn⟩ := hk'.dataSent hstep
      rw [hn]
      exact ⟨_, hs.append hle hk'⟩
    · obtain ⟨n, hn⟩ := hk'.dataSent hstep
      rw [hn]
      exact ⟨_, hs.append (fun j hj => Nat.le_succ_of_le (hle j hj)) hk'⟩
    · exact hended hs'
  · exact hended (hend.step hacks hstep)

/-- What ends a download: the acknowledgment of the last block, the card, or the timeout. -/
theorem Fetching.end_cases (hs : Fetching base content k s) (hacks : AcksSent s e)
    (hstep : serverStep ctxt s e = some s') (hend : s'.handle = none) :
    (∃ d a, e = .recv d a ∧ ¬ Stranger s d ∧ AckFor s d () ∧
        (k = lastBlock maxPayload content ∧ s.lastData = some (blockPacket content k) ∨
          (ctxt.read a.io s.files () maxPayload).1 = none)) ∨
      ∃ a, e = .tick a := by
  have hheld : ∀ {t : State Card Unit}, Held t s' → ¬ t.handle = some () := by
    intro t hh hopen
    rw [hh.handle, hopen] at hend
    cases hend
  cases turn hs.isOpen hstep with
  | held hh => exact (hheld hh hs.isOpen).elim
  | stored _ _ _ _ hh => exact (hheld hh hs.isOpen).elim
  | sent _ _ _ _ hh => exact (hheld hh hs.isOpen).elim
  | unsent _ _ _ _ hh => exact (hheld hh hs.isOpen).elim
  | storedLast _ hdata =>
    have hm := hdata.mode
    rw [hs.mode] at hm
    cases hm
  | failed _ hdata =>
    have hm := hdata.mode
    rw [hs.mode] at hm
    cases hm
  | readFailed hpeer hack _ hread => exact Or.inl ⟨_, _, rfl, hpeer, hack, Or.inr hread⟩
  | finished hpeer hack hlast =>
    obtain ⟨hsome, hiff⟩ := hs.lastpkt_iff (hacks.2 hpeer hack)
    exact Or.inl ⟨_, _, rfl, hpeer, hack, Or.inl ⟨hiff.mp hlast, hsome⟩⟩
  | timedOut => exact Or.inr ⟨_, rfl⟩

/-- A datagram of the peer that acknowledges block `k`. -/
def Acks (d : Datagram) (k : Nat) : Event CardAns → Prop
  | .tick _ => False
  | .recv d' a => fromPeer d (.recv d' a) = true ∧ d'.sbuf 0 = tftpAck ∧
      d'.sbuf 1 = BitVec.ofNat 16 (k + 1)

/-- Acknowledgments of the blocks from `k` on, up to the last one. -/
def AcksFrom (d : Datagram) (content : List Byte) : Nat → List (Event CardAns) → Prop
  | k, [] => k = lastBlock maxPayload content + 1
  | k, e :: es => Acks d k e ∧ AcksFrom d content (k + 1) es

/-- There are pbufs, the card can be read, and the timeout does not strike. -/
def FetchSmooth (s : State Card Unit) : Event CardAns → Prop
  | .tick _ => s.timer < s.lastPkt + timeoutTicks
  | .recv _ a => a.dataRoom = true ∧ a.msgRoom = true ∧ a.io.readOk = true

/-- With pbufs and a card that can be read, `send_data` sends. -/
theorem sendData_smooth {a : Answers CardAns} (hdata : a.dataRoom = true) (hmsg : a.msgRoom = true)
    (hread : a.io.readOk = true) (s : State Card Unit) :
    ∃ w, w.take 2 = be16 tftpData ∧ (sendData ctxt a s ()).1.lastData = some w ∧
      (sendData ctxt a s ()).1.handle = s.handle ∧
      Action.send s.peer w ∈ (sendData ctxt a s ()).2 := by
  have hgot : (ctxt.read a.io s.files () maxPayload).1 =
      some (s.files.fd.file.read maxPayload) := by
    dsimp only [ctxt, tftpSdcardRead]
    rw [if_pos hread]
  refine ⟨dataPacket s.blknum (s.files.fd.file.read maxPayload), take_be16 _ _, ?_⟩
  unfold sendData
  rw [if_pos hdata]
  dsimp only
  rw [hgot]
  refine ⟨rfl, rfl, ?_⟩
  simp [resendData, message, hmsg, State.peer]

theorem mem_dataSent (hmem : Action.send dest w ∈ actions ctxt s e)
    (hop : w.take 2 = be16 tftpData) : w ∈ dataSent s e := by
  refine List.mem_filterMap.mpr ⟨_, hmem, ?_⟩
  dsimp only
  rw [if_pos hop]

/-- The block the session is at has been read. -/
structure Ready (base : List Byte → Option (List Byte)) (content : List Byte) (d : Datagram)
    (k : Nat) (s : State Card Unit) : Prop extends Fetching base content k s where
  ready : s.lastData.isSome = true
  owned : Owned d s

/-- A step of a download that goes well: the acknowledgment that is waited for is not missed. -/
theorem Ready.step {d : Datagram} (hs : Ready base content d k s) (hsmooth : FetchSmooth s e)
    (hstep : serverStep ctxt s e = some s') :
    (Ready base content d k s' ∧ ¬ Acks d k e) ∨
      (Ready base content d (k + 1) s' ∧ blockPacket content (k + 1) ∈ dataSent s e) ∨
      (k = lastBlock maxPayload content ∧ FetchEnded base s') := by
  have hheld : Held s s' → Ready base content d k s' := by
    intro hh
    refine ⟨hs.toFetching.held hh, ?_, ⟨hh.addr.trans hs.owned.addr, hh.port.trans hs.owned.port⟩⟩
    rw [hh.lastData]
    exact hs.ready
  have hmode : ∀ {d' : Datagram}, ¬ DataFor s d' () := by
    intro d' hdata
    have hm := hdata.mode
    rw [hs.mode] at hm
    cases hm
  cases e with
  | tick a =>
    rcases tick_open hs.isOpen hstep with ⟨-, hs'⟩ | ⟨hlate, -, -⟩ | ⟨hlate, -, -, -⟩
    · rw [hs'] at hheld ⊢
      exact Or.inl ⟨hheld ⟨rfl, rfl, rfl, rfl, rfl, rfl, rfl, rfl⟩, fun h => h⟩
    · exact absurd hsmooth (Nat.not_lt.mpr hlate)
    · exact absurd hsmooth (Nat.not_lt.mpr hlate)
  | recv d' a =>
    have hiff := hs.owned.stranger_iff d' a
    have hacks : ¬ Stranger s d' → AckFor s d' () → Acks d k (.recv d' a) := by
      intro hpeer hack
      refine ⟨?_, hack.op, hack.num.trans hs.num⟩
      cases hfrom : fromPeer d (.recv d' a) with
      | true => rfl
      | false => exact absurd (hiff.mpr hfrom) hpeer
    by_cases hbrings : Acks d k (.recv d' a)
    · obtain ⟨hfrom, hop, hnum⟩ := hbrings
      have hpeer : ¬ Stranger s d' := by
        intro hstranger
        rw [hiff, hfrom] at hstranger
        cases hstranger
      have hack : AckFor s d' () := ⟨hs.isOpen, hs.mode, hop, hnum.trans hs.num.symm⟩
      obtain ⟨hstate, hdone⟩ := recv_ack (c := ctxt) (a := a) hpeer hack
      rw [serverStep_recv.mp hstep, hstate]
      cases hlast : lastpkt s with
      | true =>
        -- the last block has been acknowledged
        have hgone := (closeHandle_gone (c := ctxt) (s := s.heard) hs.isOpen).1
        exact Or.inr (Or.inr ⟨(hs.lastpkt_iff hs.ready).2.mp hlast,
          hs.toFetching.ended s.files rfl rfl hs.file hgone⟩)
      | false =>
        rw [hlast, if_neg Bool.false_ne_true] at hdone
        rw [if_neg Bool.false_ne_true]
        obtain ⟨hle, hpos⟩ := hs.next hs.ready hlast
        obtain ⟨hdata, hmsg, hread⟩ := hsmooth
        obtain ⟨w, hw, hsome, hopen, hmem⟩ := sendData_smooth hdata hmsg hread s.heard.nextBlock
        have hsent : Action.send s.heard.nextBlock.peer w ∈ actions ctxt s (.recv d' a) := by
          show _ ∈ .alloc .received :: (recv ctxt a s d').2
          rw [hdone]
          exact List.mem_cons_of_mem _ (List.mem_append_left _ hmem)
        have hopen' : s.heard.nextBlock.handle = some () := hs.isOpen
        rcases sendData_cases (c := ctxt) (a := a) hopen' with ⟨hroom, -⟩ | ⟨p, hp, ht⟩ | hnone
        · rw [hdata] at hroom
          cases hroom
        · have hh : Held (s.nextBlock.loaded ctxt a () p)
              (sendData ctxt a s.heard.nextBlock ()).1 := by
            rw [ht]
            exact ⟨rfl, rfl, rfl, rfl, rfl, rfl, rfl, rfl⟩
          have hnext := hs.toFetching.sent hle hpos hp hh
          have hw' : w = blockPacket content (k + 1) := by
            rcases hnext.last with ⟨hno, -⟩ | ⟨hyes, -⟩
            · rw [hno] at hsome
              cases hsome
            · exact (Option.some.inj (hyes.symm.trans hsome)).symm
          refine Or.inr (Or.inl ⟨⟨hnext, ?_, ?_⟩, hw' ▸ mem_dataSent hsent hw⟩)
          · rw [hsome]
            rfl
          · exact ⟨hh.addr.trans hs.owned.addr, hh.port.trans hs.owned.port⟩
        · rw [hnone.2.1.handle] at hopen
          cases hopen.trans hopen'
    · cases turn hs.isOpen hstep with
      | held hh => exact Or.inl ⟨hheld hh, hbrings⟩
      | sent hpeer hack => exact absurd (hacks hpeer hack) hbrings
      | unsent hpeer hack => exact absurd (hacks hpeer hack) hbrings
      | readFailed hpeer hack => exact absurd (hacks hpeer hack) hbrings
      | finished hpeer hack => exact absurd (hacks hpeer hack) hbrings
      | stored _ hdata => exact absurd hdata hmode
      | storedLast _ hdata => exact absurd hdata hmode
      | failed _ hdata => exact absurd hdata hmode

theorem ready_run {d : Datagram} {es acks : List (Event CardAns)} (hs : Ready base content d k s)
    (hacks : StepsMeet (serverStep ctxt) AcksSent s es)
    (hsmooth : StepsMeet (serverStep ctxt) FetchSmooth s es) (hsub : acks.Sublist es)
    (hfrom : AcksFrom d content k acks) (hrun : runFrom (serverStep ctxt) s es = some s') :
    FetchEnded base s' ∧ ∀ j, k < j → j ≤ lastBlock maxPayload content →
      blockPacket content j ∈ history (serverStep ctxt) dataSent s es := by
  induction es generalizing s k acks with
  | nil =>
    obtain rfl := List.sublist_nil.mp hsub
    have hle := hs.le
    have hend : k = lastBlock maxPayload content + 1 := hfrom
    omega
  | cons e es ih =>
    obtain ⟨t, hstep, hrest⟩ := runFrom_cons_iff.mp hrun
    rw [history_cons hstep]
    rcases hs.step hsmooth.1 hstep with ⟨ht, hnot⟩ | ⟨ht, hsent⟩ | ⟨hlast, ht⟩
    · -- `e` is not the acknowledgment that is waited for, so that one is still to come
      have hsub' : acks.Sublist es := by
        cases hsub with
        | cons _ h => exact h
        | cons_cons _ h => exact absurd hfrom.1 hnot
      obtain ⟨hend, hall⟩ := ih ht (hacks.2 t hstep) (hsmooth.2 t hstep) hsub' hfrom hrest
      exact ⟨hend, fun j hj hle => List.mem_append_right _ (hall j hj hle)⟩
    · cases acks with
      | nil =>
        have hle := hs.le
        have hend : k = lastBlock maxPayload content + 1 := hfrom
        omega
      | cons b acks' =>
        obtain ⟨hend, hall⟩ := ih ht (hacks.2 t hstep) (hsmooth.2 t hstep) hsub.of_cons_cons
          hfrom.2 hrest
        refine ⟨hend, fun j hj hle => ?_⟩
        rcases Nat.eq_or_lt_of_le (Nat.succ_le_of_lt hj) with heq | hlt
        · exact List.mem_append_left _ (heq ▸ hsent)
        · exact List.mem_append_right _ (hall j hlt hle)
    · have hend := runFrom_invariant_of_meets (I := FetchEnded base)
        (fun _ _ _ hI hC hst => hI.step hC hst) ht (hacks.2 t hstep) hrest
      exact ⟨hend, fun j hj hle => absurd (Nat.lt_of_lt_of_le hj hle) (by omega)⟩

/-- The first block is sent in the step of the request. -/
theorem opened_sends {d : Datagram} {a : Answers CardAns} (hclosed : Closed s)
    (hop : d.sbuf 0 = tftpRrq) (hstep : serverStep ctxt s (.recv d a) = some s')
    (hopen : s'.handle.isSome = true) :
    ∃ t, s' = (sendData ctxt a t ()).1 ∧
      ∀ x ∈ (sendData ctxt a t ()).2, x ∈ actions ctxt s (.recv d a) := by
  have hpeer := hclosed.not_stranger d
  have hcases := dispatch_cases ctxt a s.heard d
  have hs' : s' = (dispatch ctxt a s.heard d).1 := by
    rw [serverStep_recv.mp hstep, recv_fst, if_neg hpeer]
  have hdone : ∀ x ∈ (dispatch ctxt a s.heard d).2, x ∈ actions ctxt s (.recv d a) := by
    intro x hx
    show x ∈ .alloc .received :: (recv ctxt a s d).2
    unfold recv
    rw [if_neg hpeer]
    exact List.mem_cons_of_mem _ (List.mem_append_left _ hx)
  have hnone : s.heard.handle = none := hclosed.handle
  have hbusy : ∀ {h : Unit}, ¬ s.heard.handle = some h := by
    intro h hsome
    rw [hnone] at hsome
    cases hsome
  generalize dispatch ctxt a s.heard d = r at hcases hs' hdone
  cases hcases with
  | answered =>
    rw [hs', hnone] at hopen
    cases hopen
  | refused =>
    rw [hs'] at hopen
    dsimp only at hopen
    rw [hnone] at hopen
    cases hopen
  | notFound _ _ _ hnull =>
    rw [hs', State.opened, hnull] at hopen
    cases hopen
  | upload _ hop' =>
    rw [hop] at hop'
    exact absurd hop' (by decide)
  | @download _ _ _ t => exact ⟨t, hs', fun x hx => hdone x (List.mem_cons_of_mem _ hx)⟩
  | stored hdata => exact absurd hdata.isOpen hbusy
  | storedLast hdata => exact absurd hdata.isOpen hbusy
  | failed hdata => exact absurd hdata.isOpen hbusy
  | failedLast hdata => exact absurd hdata.isOpen hbusy
  | acked hack => exact absurd hack.isOpen hbusy
  | ackedLast hack => exact absurd hack.isOpen hbusy

/-- **A download gets through** if every block is acknowledged once when the ones before it have
been, whatever else comes with it, there are pbufs, the card can be read, and the peer is not silent
for eleven ticks: every block goes out, and the session is closed. -/
theorem download_complete {card : Card} {es es' acks : List (Event CardAns)} {d : Datagram}
    {a : Answers CardAns} {filename mode : List Byte} {s t u : State Card Unit}
    (hrun : runFrom (serverStep ctxt) (tftpInit Unit card) es = some s) (hclosed : s.handle = none)
    (hop : d.sbuf 0 = tftpRrq) (hreq : request d.p.flatten = .ok (filename, mode))
    (hfile : s.files.files (cstr filename 0) = some content)
    (hstep : serverStep ctxt s (.recv d a) = some t) (hopen : t.handle.isSome = true)
    (hroom : FetchSmooth s (.recv d a)) (hacks : StepsMeet (serverStep ctxt) AcksSent t es')
    (hsmooth : StepsMeet (serverStep ctxt) FetchSmooth t es') (hsub : acks.Sublist es')
    (hfrom : AcksFrom d content 0 acks) (hrun' : runFrom (serverStep ctxt) t es' = some u) :
    u.handle = none ∧ u.files.files = s.files.files ∧
      ∀ k, k ≤ lastBlock maxPayload content →
        blockPacket content k ∈ history (serverStep ctxt) dataSent s (.recv d a :: es') := by
  have hphase := closed_of_run hrun hclosed
  have hbegin := fetching_of_opened hphase hop hreq hfile hstep hopen
  have howned := owned_of_opened hphase hopen hstep
  obtain ⟨t0, ht, hdone⟩ := opened_sends hphase hop hstep hopen
  obtain ⟨w, hw, hlast, -, hmem⟩ := sendData_smooth hroom.1 hroom.2.1 hroom.2.2 t0
  rw [← ht] at hlast
  have hready : Ready s.files.files content d 0 t := ⟨hbegin, by rw [hlast]; rfl, howned⟩
  obtain ⟨hend, hall⟩ := ready_run hready hacks hsmooth hsub hfrom hrun'
  refine ⟨hend.closed.handle, hend.files, fun k hle => ?_⟩
  rw [history_cons hstep]
  cases k with
  | zero =>
    have hw' : w = blockPacket content 0 :=
      (Option.some.inj ((hbegin.lastpkt_iff hready.ready).1.symm.trans hlast)).symm
    exact List.mem_append_left _ (hw' ▸ mem_dataSent (hdone _ hmem) hw)
  | succ k => exact List.mem_append_right _ (hall (k + 1) (Nat.succ_pos k) hle)

/-- The acknowledgment of the first block. -/
def ackOne : Event CardAns := .recv (fromClient (ackPacket 1) (by decide)) allWell

/-- One block and its acknowledgment. -/
theorem download_complete_two : ∃ u,
    runFrom (serverStep ctxt) (sessionFor false [1, 2]) [.tick allWell, ackOne] = some u ∧
    u.handle = none ∧
    blockPacket [1, 2] 0 ∈ history (serverStep ctxt) dataSent (tftpInit Unit (cardWith [1, 2]))
      (.recv (requestFor false) allWell :: [.tick allWell, ackOne]) := by
  have hacks : StepsMeet (serverStep ctxt) AcksSent (sessionFor false [1, 2])
      [.tick allWell, ackOne] :=
    StepsMeet.cons trivial rfl ⟨⟨fun h => absurd h (by decide), fun _ _ => by decide⟩,
      fun _ _ => trivial⟩
  have hsmooth : StepsMeet (serverStep ctxt) FetchSmooth (sessionFor false [1, 2])
      [.tick allWell, ackOne] :=
    StepsMeet.cons (show _ < _ by decide) rfl ⟨⟨rfl, rfl, rfl⟩, fun _ _ => trivial⟩
  obtain ⟨u, hrun⟩ : ∃ u, runFrom (serverStep ctxt) (sessionFor false [1, 2])
      [.tick allWell, ackOne] = some u := Option.isSome_iff_exists.mp (by decide)
  have hroom : FetchSmooth (tftpInit Unit (cardWith [1, 2])) (.recv (requestFor false) allWell) :=
    ⟨rfl, rfl, rfl⟩
  have hfrom : AcksFrom (requestFor false) [1, 2] 0 [ackOne] := ⟨⟨rfl, rfl, rfl⟩, rfl⟩
  have h := download_complete (runFrom_nil _ (tftpInit Unit (cardWith [1, 2]))) rfl requestFor_op
    requestFor_names rfl (sessionFor_step false _) (by decide) hroom hacks hsmooth
    (.cons _ (.cons_cons _ (List.nil_sublist _))) hfrom hrun
  exact ⟨u, hrun, h.1, h.2.2 0 (Nat.zero_le _)⟩

end

end Acmi.Tftp
