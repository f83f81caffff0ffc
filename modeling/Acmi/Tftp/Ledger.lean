import Acmi.Tftp.Card

/-!
# `tftp_server.c`: pbufs and file handles

A ledger of what the server holds, kept by somebody who only sees what it does. An entry is refused
when it is not in order: a pbuf is freed that is not held, or taken a second time; a message is sent
without its pbuf; a file is opened while another one is open; a callback gets a handle that is not
the open one, or reads a file that was opened for writing. `accounts` is that every run of the
server is in order, whatever comes in and whatever fails, and that between two reactions it holds
the pbuf of `last_data` and the file of its handle, and nothing else.
-/

namespace Acmi.Tftp

open Acmi.Lib

/-- The pbufs that are held, the open file, and whether it was opened for writing. -/
structure Ledger (η : Type) where
  live : Buffer → Bool
  file : Option (η × Bool)

section

variable {σ η κ : Type} [DecidableEq η]

/-- One entry, if it is in order. -/
def Ledger.enter (l : Ledger η) : Action η → Option (Ledger η)
  | .alloc b => if l.live b then none else some { l with live := Function.update l.live b true }
  | .free b => if l.live b then some { l with live := Function.update l.live b false } else none
  | .send _ _ => if l.live .message then some l else none
  | .openFile _ _ write h =>
    if l.file = none then some { l with file := h.map (·, write) } else none
  | .close h =>
    match l.file with
    | none => none
    | some f => if f.1 = h then some { l with file := none } else none
  | .read h => if l.live .lastData ∧ l.file = some (h, false) then some l else none
  | .write h _ => if l.live .received ∧ l.file = some (h, true) then some l else none

/-- The pbufs of the server; `rx` is whether it has one with a datagram. -/
def State.pbufs (s : State σ η) (rx : Bool) : Buffer → Bool
  | .received => rx
  | .message => false
  | .lastData => s.lastData.isSome

/-- What the ledger says if the server holds what its state says. -/
def State.ledger (s : State σ η) (rx : Bool) : Ledger η where
  live := s.pbufs rx
  file := s.handle.map (·, s.modeWrite)

/-- The entries are in order, and the ledger agrees with the state behind them. -/
def Accounted (s : State σ η) (rx : Bool) (r : State σ η × List (Action η)) : Prop :=
  runFrom Ledger.enter (s.ledger rx) r.2 = some (r.1.ledger rx)

variable {c : Context σ η κ} {a : Answers κ} {s : State σ η} {rx : Bool} {d : Datagram}

/-! ## The parts of a reaction -/

/-- Entries of two parts. -/
theorem enter_append {l l' l'' : Ledger η} {as bs : List (Action η)}
    (h : runFrom Ledger.enter l as = some l') (h' : runFrom Ledger.enter l' bs = some l'') :
    runFrom Ledger.enter l (as ++ bs) = some l'' := by
  rw [runFrom_append h, h']

/-- A message leaves the ledger as it was. -/
theorem message_accounted (s : State σ η) (rx : Bool) (a : Answers κ) (dest : Peer)
    (payload : List Byte) :
    runFrom Ledger.enter (s.ledger rx) (message a dest payload) = some (s.ledger rx) := by
  unfold message
  split_ifs with hroom
  · refine runFrom_cons_iff.mpr ⟨_, rfl, runFrom_cons_iff.mpr ⟨_, rfl, runFrom_cons_iff.mpr
      ⟨s.ledger rx, ?_, rfl⟩⟩⟩
    refine congrArg (fun live => some (Ledger.mk live _)) ?_
    funext b
    cases b <;> rfl
  · rfl

theorem resendData_accounted (s : State σ η) (rx : Bool) (a : Answers κ) :
    runFrom Ledger.enter (s.ledger rx) (resendData a s) = some (s.ledger rx) := by
  unfold resendData
  cases s.lastData with
  | none => rfl
  | some p => exact message_accounted s rx a _ p

/-- `last_data` is given back if there is one. -/
theorem freeLastData_accounted (s : State σ η) (rx : Bool) :
    runFrom Ledger.enter (s.ledger rx) (freeLastData s) =
      some ({ s with lastData := none }.ledger rx) := by
  unfold freeLastData
  split_ifs with hlast
  · refine runFrom_cons_iff.mpr ⟨{ s with lastData := none }.ledger rx, ?_, rfl⟩
    show (if s.lastData.isSome = true then _ else _) = _
    rw [if_pos hlast]
    refine congrArg (fun live => some (Ledger.mk live _)) ?_
    funext b
    cases b <;> rfl
  · rw [runFrom_nil]
    have hnone : s.lastData = none := by simpa using hlast
    refine congrArg (fun live => some (Ledger.mk live _)) ?_
    funext b
    cases b with
    | lastData => exact congrArg Option.isSome hnone
    | received => rfl
    | message => rfl

theorem closeHandle_accounted (c : Context σ η κ) (s : State σ η) (rx : Bool) :
    Accounted s rx (closeHandle c s) := by
  unfold Accounted closeHandle
  cases hopen : s.handle with
  | none =>
    refine (freeLastData_accounted s rx).trans ?_
    refine congrArg (fun file => some (Ledger.mk _ file)) ?_
    exact congrArg (Option.map (·, s.modeWrite)) hopen
  | some h =>
    refine enter_append (freeLastData_accounted s rx) (runFrom_cons_iff.mpr ⟨_, ?_, rfl⟩)
    show (match s.handle.map (·, s.modeWrite) with | none => none | some f => _) = _
    rw [hopen]
    exact if_pos rfl

/-- A full pbuf of data, for which the file is read. -/
theorem alloc_read_accounted {t : State σ η} {h : η} (hlast : t.lastData.isSome = true)
    (hopen : t.handle = some h) (hmode : t.modeWrite = false) {as : List (Action η)} {l : Ledger η}
    (hrest : runFrom Ledger.enter (t.ledger rx) as = some l) :
    runFrom Ledger.enter ({ t with lastData := none }.ledger rx)
      (.alloc .lastData :: .read h :: as) = some l := by
  refine runFrom_cons_iff.mpr ⟨t.ledger rx, ?_, runFrom_cons_iff.mpr ⟨_, if_pos ⟨hlast, ?_⟩, hrest⟩⟩
  · refine congrArg (fun live => some (Ledger.mk live _)) ?_
    funext b
    cases b with
    | lastData => exact hlast.symm
    | received => rfl
    | message => rfl
  · show t.handle.map (·, t.modeWrite) = _
    rw [hopen, hmode]
    rfl

theorem sendData_accounted {h : η} (c : Context σ η κ) (a : Answers κ) (hopen : s.handle = some h)
    (hmode : s.modeWrite = false) (rx : Bool) : Accounted s rx (sendData c a s h) := by
  unfold sendData
  dsimp only
  split_ifs with hroom
  · split
    next =>
      let t : State σ η := { s with
        lastData := some (dataPacket s.blknum [])
        files := (c.read a.io s.files h maxPayload).2 }
      refine enter_append (freeLastData_accounted s rx)
        (alloc_read_accounted (t := t) rfl hopen hmode ?_)
      exact enter_append (message_accounted t rx a s.peer _) (closeHandle_accounted c t rx)
    next payload _ =>
      let t : State σ η := { s with
        lastData := some (dataPacket s.blknum payload)
        files := (c.read a.io s.files h maxPayload).2 }
      exact enter_append (freeLastData_accounted s rx)
        (alloc_read_accounted (t := t) rfl hopen hmode (resendData_accounted t rx a))
  · exact freeLastData_accounted s rx

/-! ## The reactions -/

/-- Between two sessions the ledger agrees to open a file. -/
theorem enter_open (hnone : s.handle = none) (filename mode : List Byte) (write : Bool)
    (h : Option η) :
    (s.ledger rx).enter (.openFile filename mode write h) =
      some { s.ledger rx with file := h.map (·, write) } :=
  if_pos (congrArg (Option.map (·, s.modeWrite)) hnone)

/-- During an upload, to write it as long as the datagram is there. -/
theorem enter_write {h : η} (hdata : DataFor s d h) (p : List (List Byte)) :
    (s.ledger true).enter (.write h p) = some (s.ledger true) := by
  refine if_pos ⟨rfl, ?_⟩
  show s.handle.map (·, s.modeWrite) = _
  rw [hdata.isOpen, hdata.mode]
  rfl

theorem outcome_accounted {r : State σ η × List (Action η)} (h : Outcome c a s d r) :
    Accounted s true r := by
  cases h with
  | answered h => exact message_accounted s true a _ _
  | refused hnone hop hreq => exact message_accounted s true a _ _
  | notFound hnone hop hreq hnull =>
    refine runFrom_cons_iff.mpr ⟨_, enter_open hnone _ _ _ _, ?_⟩
    rw [State.opened, hnull]
    exact message_accounted { s with handle := none } true a _ _
  | upload hnone hop hreq hopen =>
    refine runFrom_cons_iff.mpr ⟨_, enter_open hnone _ _ _ _, ?_⟩
    rw [State.opened, hopen]
    exact message_accounted { s with handle := some _, modeWrite := true } true a _ _
  | download hnone hop hreq hopen ht =>
    rename_i t
    refine runFrom_cons_iff.mpr
      ⟨t.ledger true, ?_, sendData_accounted c a (ht ▸ hopen) (ht ▸ rfl) true⟩
    rw [enter_open hnone, ht, State.opened, hopen]
    rfl
  | stored hdata ht hok hfull =>
    rw [ht]
    refine runFrom_cons_iff.mpr ⟨_, enter_write hdata _, ?_⟩
    rw [List.append_nil]
    exact message_accounted _ true a _ _
  | storedLast hdata ht hok hshort =>
    rw [ht]
    refine runFrom_cons_iff.mpr ⟨_, enter_write hdata _, ?_⟩
    exact enter_append (message_accounted (s.written c a d _) true a _ _)
      (closeHandle_accounted c _ true)
  | failed hdata ht hfail hfull =>
    rw [ht]
    refine runFrom_cons_iff.mpr ⟨_, enter_write hdata _, ?_⟩
    rw [List.append_nil]
    exact enter_append (message_accounted (s.written c a d _) true a _ _)
      (closeHandle_accounted c _ true)
  | failedLast hdata ht hfail hshort =>
    rw [ht]
    refine runFrom_cons_iff.mpr ⟨_, enter_write hdata _, ?_⟩
    exact enter_append (enter_append (message_accounted (s.written c a d _) true a _ _)
      (closeHandle_accounted c _ true)) (closeHandle_accounted c _ true)
  | acked hack hmore => exact sendData_accounted (s := s.nextBlock) c a hack.isOpen hack.mode true
  | ackedLast hack hlast => exact closeHandle_accounted c s true

theorem recv_accounted (c : Context σ η κ) (a : Answers κ) (s : State σ η) (d : Datagram) :
    runFrom Ledger.enter (s.ledger false) (.alloc .received :: (recv c a s d).2) =
      some ((recv c a s d).1.ledger false) := by
  have hreact : Accounted s true
      (if Stranger s d then
        (s, sendError a d.peer .accessViolation "Only one connection at a time is supported")
      else dispatch c a s.heard d) := by
    split_ifs with hstranger
    · exact message_accounted s true a _ _
    · have h := outcome_accounted (dispatch_cases c a s.heard d)
      exact h
  have hlive : ∀ (t : State σ η) (rx : Bool),
      Function.update (t.ledger rx).live .received (!rx) = (t.ledger (!rx)).live := by
    intro t rx
    funext b
    cases b <;> rfl
  refine runFrom_cons_iff.mpr ⟨s.ledger true, ?_, enter_append hreact (runFrom_cons_iff.mpr
    ⟨_, ?_, rfl⟩)⟩
  · exact congrArg (fun live => some (Ledger.mk live _)) (hlive s false)
  · exact congrArg (fun live => some (Ledger.mk live _)) (hlive _ true)

theorem tftpTmr_accounted (c : Context σ η κ) (a : Answers κ) (s : State σ η) :
    Accounted s false (tftpTmr c a s) := by
  unfold tftpTmr
  cases hopen : s.handle with
  | none =>
    dsimp only
    rw [← hopen]
    rfl
  | some h =>
    dsimp only
    rw [← hopen]
    split_ifs with hlate hretry
    · exact resendData_accounted s false a
    · have h := closeHandle_accounted c
        { s with timer := s.timer + 1, timeouts := s.timeouts + 1 } false
      exact h
    · rfl

theorem react_accounted {s' : State σ η} {e : Event κ} (hstep : serverStep c s e = some s') :
    runFrom Ledger.enter (s.ledger false) (actions c s e) = some (s'.ledger false) := by
  cases e with
  | recv d a =>
    rw [serverStep_recv.mp hstep]
    exact recv_accounted c a s d
  | tick a =>
    obtain ⟨hpending, hs'⟩ := serverStep_tick.mp hstep
    rw [hs', actions_tick hpending]
    have h := tftpTmr_accounted c a s.expired
    exact h

/-- **Every run is in order.** No pbuf is lost or freed twice, no handle is used behind its `close`
or for the wrong thing, and `open` finds the file of the handler unused. -/
theorem accounts {files : σ} {es : List (Event κ)} {s : State σ η}
    (hrun : runFrom (serverStep c) (tftpInit η files) es = some s) :
    runFrom Ledger.enter ⟨fun _ => false, none⟩
        (history (serverStep c) (actions c) (tftpInit η files) es) =
      some ⟨fun b => b = .lastData && s.lastData.isSome, s.handle.map (·, s.modeWrite)⟩ := by
  have hrule := runFrom_monitor (m := Ledger.enter) (v := fun t : State σ η => t.ledger false)
    (f := actions c) (fun _ _ _ hstep => react_accounted hstep) hrun
  have hbegin : (tftpInit η files).ledger false = ⟨fun _ => false, none⟩ := by
    refine congrArg (Ledger.mk · none) ?_
    funext b
    cases b <;> rfl
  have hend : s.ledger false =
      ⟨fun b => b = .lastData && s.lastData.isSome, s.handle.map (·, s.modeWrite)⟩ := by
    refine congrArg (Ledger.mk · _) ?_
    funext b
    cases b <;> rfl
  rwa [hbegin, hend] at hrule

end

/-- A download, refused datagrams and a tick: the file is open, and `last_data` is held. -/
theorem accounts_download : ∃ s,
    runFrom (serverStep ctxt) (tftpInit Unit (cardWith [1, 2]))
      [.recv (requestFor false) allWell, .recv (requestFor true) allWell, .tick allWell] = some s ∧
    runFrom Ledger.enter ⟨fun _ => false, none⟩
        (history (serverStep ctxt) (actions ctxt) (tftpInit Unit (cardWith [1, 2]))
          [.recv (requestFor false) allWell, .recv (requestFor true) allWell, .tick allWell]) =
      some ⟨fun b => b = .lastData && s.lastData.isSome, s.handle.map (·, s.modeWrite)⟩ :=
  ⟨_, rfl, accounts rfl⟩

end Acmi.Tftp
