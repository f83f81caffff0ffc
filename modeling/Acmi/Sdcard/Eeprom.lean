import Acmi.Lib.File
import Acmi.Sdcard.NetConf

/-!
# The EEPROM and its files

`sdcard_process` reads NET.CNF, takes EEPROM.NEW into the EEPROM, and brings EEPROM.DAT up to date
with it. Both of the latter call `sdcard_sync_eeprom`, in which `ee_read` and `ee_write` are
commented out: the buffer that is compared with the files and written to EEPROM.DAT holds what
`malloc` found in it, and the EEPROM is never written.

Mirroring notes:
- What FatFs answers is an oracle, one answer for each call. A call that fails leaves the file as
  it was, but `f_write` may have written something, also when it returns `FR_OK` (a full disk).
- Which error `f_open` returns only matters for a message, and `MUST` is its message.
- `f_close` is called with its result ignored; what has been written is in the file.
- `malloc` finds the memory.
-/

namespace Acmi.Sdcard

open Acmi.Lib

/-- `EE_SIZE` -/
def eeSize : Nat := 256

/-- What `sdcard_sync_eeprom` prints. -/
inductive Report
  /-- `EEPROM.DAT up to date` -/
  | upToDate
  /-- `Error EEPROM.NEW size must be %u bytes` -/
  | wrongSize
  /-- `Wrote EEPROM` -/
  | wroteEeprom
  /-- `Error updating EEPROM.DAT` -/
  | updateError
  /-- `EEPROM.DAT updated` -/
  | updated
  deriving DecidableEq

/-- Which calls of `sdcard_sync_eeprom` succeed, and how many bytes `f_write` has room for. -/
structure SyncAnswers where
  read : Bool
  lseek : Bool
  truncate : Bool
  write : Bool
  room : Nat
  sync : Bool

/-- What is in the memory that `malloc` returns. -/
structure Blocks where
  ee : Mem
  file : Mem

/-- The loop that compares, from `i` on with `left` to go. -/
def compareFrom (ee file : Mem) : Nat → Nat → Bool → Bool
  | 0, _, same => same
  | left + 1, i, same => if same then compareFrom ee file left (i + 1) (ee i == file i) else same

/-- The calls that write EEPROM.DAT anew: whether one of them failed, and the file. -/
def rewriteDat (a : SyncAnswers) (ee : Mem) (fd : OpenFile) : Bool × OpenFile :=
  if a.lseek = false then (true, fd)
  else if a.truncate = false then (true, fd.rewind)
  else
    let w := min a.room eeSize
    let fd := fd.rewind.truncate.write ((ee.read 0 eeSize).take w)
    (a.write = false ∨ w ≠ eeSize ∨ a.sync = false, fd)

/-- `sdcard_sync_eeprom`: the file and what is printed. -/
def sdcardSyncEeprom (a : SyncAnswers) (m : Blocks) (fd : OpenFile) (eewrite : Bool) :
    OpenFile × List Report :=
  if a.read = false then (fd, [])                     -- goto done
  else
    let n := (fd.read eeSize).length
    let file := m.file.write 0 (fd.read eeSize)
    let fd := fd.skip eeSize
    if compareFrom m.ee file eeSize 0 (n == eeSize) then (fd, [.upToDate])
    else if eewrite then
      if n ≠ eeSize then (fd, [.wrongSize])
      else (fd, [.wroteEeprom])
    else
      let r := rewriteDat a m.ee fd
      (r.2, if r.1 then [.updateError] else [.updated])

/-! ## The card -/

/-- What is in the files, as far as they are there. -/
structure Card where
  net : Option (List Byte)
  new : Option (List Byte)
  dat : Option (List Byte)

structure State where
  conf : NetConfig
  eeprom : Vector Byte 256
  card : Card

/-- Which calls of `sdcard_process` succeed. -/
structure Answers where
  openNet : Bool
  openNew : Bool
  new : SyncAnswers
  unlink : Bool
  openDat : Bool
  dat : SyncAnswers

/-- The part about EEPROM.NEW: the file and what is printed. -/
def processNew (a : Answers) (m : Blocks) (new : Option (List Byte)) :
    Option (List Byte) × List Report :=
  match OpenFile.openExisting new a.openNew with
  | none => (new, [])
  | some fd =>
    let r := sdcardSyncEeprom a.new m fd true
    (if a.unlink then none else some r.1.content, r.2)

/-- The part about EEPROM.DAT. -/
def processDat (a : Answers) (m : Blocks) (dat : Option (List Byte)) :
    Option (List Byte) × List Report :=
  match OpenFile.openAlways dat a.openDat with
  | none => (dat, [])
  | some fd =>
    let r := sdcardSyncEeprom a.dat m fd false
    (some r.1.content, r.2)

/-- `sdcard_process`; the two calls of `sdcard_sync_eeprom` have memory of their own. -/
def sdcardProcess (inetAton : List Byte → Option (BitVec 32)) (a : Answers) (m1 m2 : Blocks)
    (lbuf : List Byte) (s : State) : State × List Report :=
  let conf :=
    match OpenFile.openExisting s.card.net a.openNet with
    | none => s.conf
    | some fd => sdcardNetconf inetAton lbuf s.conf fd.content
  let new := processNew a m1 s.card.new
  let dat := processDat a m2 s.card.dat
  (⟨conf, s.eeprom, ⟨s.card.net, new.1, dat.1⟩⟩, new.2 ++ dat.2)

/-! ## One call -/

theorem compareFrom_iff (ee file : Mem) (left i : Nat) (same : Bool) :
    compareFrom ee file left i same = true ↔
      same = true ∧ ∀ k < left, ee (i + k) = file (i + k) := by
  induction left generalizing i same with
  | zero => simp [compareFrom]
  | succ left ih =>
    rw [compareFrom]
    cases same with
    | false => simp
    | true =>
      rw [if_pos rfl, ih, beq_iff_eq, Nat.forall_lt_succ_left]
      simp [Nat.add_assoc, Nat.add_comm 1]

/-- **The comparison** is with the first 256 bytes of the file, all of which have to be there. -/
theorem compareFrom_eq_iff (ee file : Mem) (bytes : List Byte) :
    compareFrom ee (file.write 0 bytes) eeSize 0 (bytes.length == eeSize) = true ↔
      ee.read 0 eeSize = bytes := by
  rw [compareFrom_iff, beq_iff_eq]
  constructor
  · rintro ⟨hlen, hall⟩
    apply List.ext_getElem (by rw [Mem.read_length, hlen])
    intro i hi hi'
    have hi256 : i < eeSize := by rwa [Mem.read_length] at hi
    have hbyte := hall i hi256
    rw [Mem.write_of_mem file 0 hi'] at hbyte
    simpa [Mem.read] using hbyte
  · intro hread
    have hlen : bytes.length = eeSize := by rw [← hread, Mem.read_length]
    refine ⟨hlen, fun k hk => ?_⟩
    have hk' : k < bytes.length := hlen ▸ hk
    rw [Mem.write_of_mem file 0 hk']
    simp [← hread, Mem.read]

/-- All the calls that write EEPROM.DAT anew succeed. -/
def SyncAnswers.Rewrites (a : SyncAnswers) : Prop :=
  a.lseek = true ∧ a.truncate = true ∧ a.write = true ∧ eeSize ≤ a.room ∧ a.sync = true

theorem rewriteDat_content (a : SyncAnswers) (ee : Mem) (fd : OpenFile) :
    (rewriteDat a ee fd).2.content =
      if a.lseek = true ∧ a.truncate = true then (ee.read 0 eeSize).take a.room
      else fd.content := by
  unfold rewriteDat
  cases hl : a.lseek with
  | false => simp
  | true =>
    cases ht : a.truncate with
    | false =>
      simp
      rfl
    | true =>
      have htake : (ee.read 0 eeSize).take (min a.room eeSize) =
          (ee.read 0 eeSize).take a.room := by
        rw [List.take_eq_take_min (i := a.room), Mem.read_length]
      simp [OpenFile.write_rewind_truncate, htake]

theorem rewriteDat_failed_iff (a : SyncAnswers) (ee : Mem) (fd : OpenFile) :
    (rewriteDat a ee fd).1 = true ↔ ¬ a.Rewrites := by
  have hroom : min a.room eeSize ≠ eeSize ↔ ¬ eeSize ≤ a.room := by omega
  unfold rewriteDat SyncAnswers.Rewrites
  cases a.lseek with
  | false => simp
  | true =>
    cases a.truncate with
    | false => simp
    | true =>
      simp only [Bool.true_eq_false, if_false, decide_eq_true_eq, true_and, hroom]
      cases a.write <;> cases a.sync <;> simp

section

variable {a : SyncAnswers} {m : Blocks} {content : List Byte}

theorem sdcardSyncEeprom_of_not_read (hread : ¬ a.read = true) (fd : OpenFile) (eewrite : Bool) :
    sdcardSyncEeprom a m fd eewrite = (fd, []) :=
  if_pos (by simpa using hread)

/-- The buffer is what the file begins with. -/
theorem sdcardSyncEeprom_of_same (hread : a.read = true)
    (hsame : m.ee.read 0 eeSize = content.take eeSize) (eewrite : Bool) :
    (sdcardSyncEeprom a m (OpenFile.start content) eewrite).1.content = content ∧
      (sdcardSyncEeprom a m (OpenFile.start content) eewrite).2 = [.upToDate] := by
  have hcompare := (compareFrom_eq_iff m.ee m.file ((OpenFile.start content).read eeSize)).mpr hsame
  unfold sdcardSyncEeprom
  simp only [hread, Bool.true_eq_false, hcompare, if_true, if_false]
  exact ⟨rfl, trivial⟩

theorem sdcardSyncEeprom_new (hread : a.read = true)
    (hne : m.ee.read 0 eeSize ≠ content.take eeSize) :
    (sdcardSyncEeprom a m (OpenFile.start content) true).2 = [.wrongSize] ∨
      (sdcardSyncEeprom a m (OpenFile.start content) true).2 = [.wroteEeprom] := by
  have hcompare := mt (compareFrom_eq_iff m.ee m.file ((OpenFile.start content).read eeSize)).mp hne
  unfold sdcardSyncEeprom
  simp only [hread, Bool.true_eq_false, if_neg hcompare, if_true, if_false]
  split_ifs
  · exact .inl rfl
  · exact .inr rfl

theorem sdcardSyncEeprom_dat (hread : a.read = true)
    (hne : m.ee.read 0 eeSize ≠ content.take eeSize) :
    (sdcardSyncEeprom a m (OpenFile.start content) false).1.content =
        (if a.lseek = true ∧ a.truncate = true then (m.ee.read 0 eeSize).take a.room else content) ∧
      (a.Rewrites → (sdcardSyncEeprom a m (OpenFile.start content) false).2 = [.updated]) ∧
      (¬ a.Rewrites →
        (sdcardSyncEeprom a m (OpenFile.start content) false).2 = [.updateError]) := by
  have hcompare := mt (compareFrom_eq_iff m.ee m.file ((OpenFile.start content).read eeSize)).mp hne
  unfold sdcardSyncEeprom
  simp only [hread, Bool.true_eq_false, Bool.false_eq_true, if_neg hcompare,
    if_false]
  refine ⟨rewriteDat_content .., fun hok => ?_, fun hfail => ?_⟩
  · exact if_neg fun h => (rewriteDat_failed_iff ..).mp h hok
  · exact if_pos ((rewriteDat_failed_iff ..).mpr hfail)

end

/-! ## The two parts -/

variable {a : Answers} {m : Blocks}

theorem processNew_eq_none_iff (content : List Byte) :
    (processNew a m (some content)).1 = none ↔ a.openNew = true ∧ a.unlink = true := by
  unfold processNew OpenFile.openExisting
  cases a.openNew <;> cases a.unlink <;> simp

theorem processNew_of_openNew (h : a.openNew = true) (content : List Byte) :
    (processNew a m (some content)).2 =
      (sdcardSyncEeprom a.new m (OpenFile.start content) true).2 := by
  unfold processNew OpenFile.openExisting
  rw [h]
  rfl

/-- The part about EEPROM.NEW says something about EEPROM.DAT when the buffer is what EEPROM.NEW
begins with. -/
theorem processNew_printed {new : Option (List Byte)}
    (h : Report.upToDate ∈ (processNew a m new).2 ∨ Report.updated ∈ (processNew a m new).2) :
    ∃ content, new = some content ∧ a.openNew = true ∧ a.new.read = true ∧
      m.ee.read 0 eeSize = content.take eeSize := by
  cases new with
  | none =>
    unfold processNew OpenFile.openExisting at h
    simp at h
  | some content =>
    by_cases hopen : a.openNew = true
    · rw [processNew_of_openNew hopen] at h
      by_cases hread : a.new.read = true
      · by_cases hsame : m.ee.read 0 eeSize = content.take eeSize
        · exact ⟨content, rfl, hopen, hread, hsame⟩
        · rcases sdcardSyncEeprom_new hread hsame with hother | hother <;> simp [hother] at h
      · simp [sdcardSyncEeprom_of_not_read hread] at h
    · unfold processNew OpenFile.openExisting at h
      simp [hopen] at h

theorem upToDate_processNew {content : List Byte} (hopen : a.openNew = true)
    (hread : a.new.read = true) (hsame : m.ee.read 0 eeSize = content.take eeSize) :
    Report.upToDate ∈ (processNew a m (some content)).2 := by
  rw [processNew_of_openNew hopen, (sdcardSyncEeprom_of_same hread hsame true).2]
  exact List.mem_singleton_self _

/-- EEPROM.DAT is opened and read. -/
def Answers.ReadsDat (a : Answers) : Prop := a.openDat = true ∧ a.dat.read = true

theorem processDat_of_openDat (h : a.openDat = true) (dat : Option (List Byte)) :
    processDat a m dat =
      (some (sdcardSyncEeprom a.dat m (OpenFile.start (dat.getD [])) false).1.content,
        (sdcardSyncEeprom a.dat m (OpenFile.start (dat.getD [])) false).2) := by
  unfold processDat OpenFile.openAlways
  rw [h]
  rfl

theorem processDat_of_not_readsDat (h : ¬ a.ReadsDat) (dat : Option (List Byte)) :
    (processDat a m dat).1.getD [] = dat.getD [] ∧ (processDat a m dat).2 = [] := by
  by_cases hopen : a.openDat = true
  · rw [processDat_of_openDat hopen, sdcardSyncEeprom_of_not_read fun hread => h ⟨hopen, hread⟩]
    exact ⟨rfl, rfl⟩
  · unfold processDat OpenFile.openAlways
    rw [if_neg hopen]
    exact ⟨rfl, rfl⟩

theorem processDat_of_same (h : a.ReadsDat) {dat : Option (List Byte)}
    (hsame : m.ee.read 0 eeSize = (dat.getD []).take eeSize) :
    (processDat a m dat).1.getD [] = dat.getD [] ∧ (processDat a m dat).2 = [.upToDate] := by
  rw [processDat_of_openDat h.1]
  exact sdcardSyncEeprom_of_same h.2 hsame false

theorem processDat_of_ne (h : a.ReadsDat) {dat : Option (List Byte)}
    (hne : m.ee.read 0 eeSize ≠ (dat.getD []).take eeSize) :
    (processDat a m dat).1.getD [] = (if a.dat.lseek = true ∧ a.dat.truncate = true then
        (m.ee.read 0 eeSize).take a.dat.room else dat.getD []) ∧
      (a.dat.Rewrites → (processDat a m dat).2 = [.updated]) ∧
      (¬ a.dat.Rewrites → (processDat a m dat).2 = [.updateError]) := by
  rw [processDat_of_openDat h.1]
  exact sdcardSyncEeprom_dat h.2 hne

/-! ## What is in sync afterwards -/

/-- EEPROM.NEW is gone only if the EEPROM has taken it, and EEPROM.DAT is what it is said to be. -/
structure Synced (s t : State) (printed : List Report) : Prop where
  unlinked : ∀ content, s.card.new = some content → t.card.new = none →
    t.eeprom.toList = content
  reported : Report.upToDate ∈ printed ∨ Report.updated ∈ printed →
    t.card.dat = some t.eeprom.toList

/-- The files are in sync already, as far as the calls that succeed can do harm. -/
structure Harmless (a : Answers) (s : State) : Prop where
  unlinked : ∀ content, s.card.new = some content → a.openNew = true → a.unlink = true →
    s.eeprom.toList = content
  rewrites : a.ReadsDat → ¬ a.dat.Rewrites
  dat : a.ReadsDat → ∀ content, s.card.dat = some content → eeSize ≤ content.length →
    content = s.eeprom.toList
  new : ∀ content, s.card.new = some content → a.openNew = true → a.new.read = true →
    eeSize ≤ content.length → s.card.dat = some s.eeprom.toList ∧
      (a.ReadsDat → ¬ (a.dat.lseek = true ∧ a.dat.truncate = true))

/-- Whatever two things the buffer must not be, it can be something else. -/
theorem exists_read_ne (xs ys : List Byte) :
    ∃ ee : Mem, ee.read 0 eeSize ≠ xs ∧ ee.read 0 eeSize ≠ ys := by
  by_contra hall
  simp only [not_exists, not_and_or, not_not] at hall
  have hinj : ∀ b c : Byte, Mem.read (fun _ => b) 0 eeSize = Mem.read (fun _ => c) 0 eeSize →
      b = c := by
    intro b c h
    simpa [Mem.read, eeSize] using congrArg List.head? h
  rcases hall (fun _ => 0) with h0 | h0 <;> rcases hall (fun _ => 1) with h1 | h1 <;>
    rcases hall (fun _ => 2) with h2 | h2
  all_goals first
    | exact absurd (hinj 0 1 (h0.trans h1.symm)) (by decide)
    | exact absurd (hinj 0 2 (h0.trans h2.symm)) (by decide)
    | exact absurd (hinj 1 2 (h1.trans h2.symm)) (by decide)

/-- It can be what a file begins with. -/
theorem exists_read_eq {content : List Byte} (h : eeSize ≤ content.length) :
    ∃ ee : Mem, ee.read 0 eeSize = content.take eeSize := by
  have hlen : (content.take eeSize).length = eeSize := by rw [List.length_take, Nat.min_eq_left h]
  have hread := Mem.read_write (fun _ => 0) 0 (content.take eeSize)
  rw [hlen] at hread
  exact ⟨_, hread⟩

/-- The 256 bytes of the EEPROM are not nothing. -/
theorem eq_some_toList_iff (file : Option (List Byte)) (eeprom : Vector Byte 256) :
    file = some eeprom.toList ↔ file.getD [] = eeprom.toList := by
  cases file with
  | some content => simp
  | none =>
    refine iff_of_false (by simp) fun h => ?_
    have hlen := congrArg List.length h
    rw [Vector.length_toList] at hlen
    cases hlen

theorem length_of_read_eq {ee : Mem} {content : List Byte}
    (h : ee.read 0 eeSize = content.take eeSize) : eeSize ≤ content.length := by
  have hlen := congrArg List.length h
  rw [Mem.read_length, List.length_take] at hlen
  omega

variable {s : State}

/-- What is printed about EEPROM.DAT is printed by one part or the other. -/
theorem reported_iff {m1 m2 : Blocks} :
    (Report.upToDate ∈ (processNew a m1 s.card.new).2 ++ (processDat a m2 s.card.dat).2 ∨
        Report.updated ∈ (processNew a m1 s.card.new).2 ++ (processDat a m2 s.card.dat).2) ↔
      (Report.upToDate ∈ (processNew a m1 s.card.new).2 ∨
          Report.updated ∈ (processNew a m1 s.card.new).2) ∨
        Report.upToDate ∈ (processDat a m2 s.card.dat).2 ∨
          Report.updated ∈ (processDat a m2 s.card.dat).2 := by
  rw [List.mem_append, List.mem_append, or_or_or_comm]

theorem synced_of_harmless (h : Harmless a s) (inetAton : List Byte → Option (BitVec 32))
    (m1 m2 : Blocks) (lbuf : List Byte) :
    Synced s (sdcardProcess inetAton a m1 m2 lbuf s).1
      (sdcardProcess inetAton a m1 m2 lbuf s).2 := by
  constructor
  · intro content hnew hgone
    have hgone' : (processNew a m1 s.card.new).1 = none := hgone
    rw [hnew, processNew_eq_none_iff] at hgone'
    exact h.unlinked content hnew hgone'.1 hgone'.2
  · intro hprinted
    have hprinted' := reported_iff.mp hprinted
    show (processDat a m2 s.card.dat).1 = some s.eeprom.toList
    rw [eq_some_toList_iff]
    by_cases hreads : a.ReadsDat
    · by_cases hsame : m2.ee.read 0 eeSize = (s.card.dat.getD []).take eeSize
      · -- the file is left as it is
        have hlen := length_of_read_eq hsame
        rw [(processDat_of_same hreads hsame).1]
        cases hdat : s.card.dat with
        | none =>
          rw [hdat] at hlen
          exact absurd hlen (by decide)
        | some content =>
          rw [hdat] at hlen
          exact h.dat hreads content hdat hlen
      · -- it is not written, and only the other part says that it is up to date
        obtain ⟨hcontent, -, hfail⟩ := processDat_of_ne hreads hsame
        rw [hfail (h.rewrites hreads)] at hprinted'
        obtain ⟨content, hnew, hopen, hread, hfirst⟩ :=
          processNew_printed (hprinted'.resolve_right (by simp))
        obtain ⟨hdat, hkept⟩ := h.new content hnew hopen hread (length_of_read_eq hfirst)
        rw [hcontent, if_neg (hkept hreads), hdat, Option.getD_some]
    · obtain ⟨hcontent, hnone⟩ := processDat_of_not_readsDat (m := m2) hreads s.card.dat
      rw [hnone] at hprinted'
      obtain ⟨content, hnew, hopen, hread, hfirst⟩ :=
        processNew_printed (hprinted'.resolve_right (by simp))
      rw [hcontent, (h.new content hnew hopen hread (length_of_read_eq hfirst)).1, Option.getD_some]

/-- What is said about EEPROM.DAT is true. -/
def TrueReports (a : Answers) (s : State) : Prop :=
  ∀ m1 m2, (Report.upToDate ∈ (processNew a m1 s.card.new).2 ∨
      Report.updated ∈ (processNew a m1 s.card.new).2) ∨
    Report.upToDate ∈ (processDat a m2 s.card.dat).2 ∨
      Report.updated ∈ (processDat a m2 s.card.dat).2 →
    (processDat a m2 s.card.dat).1.getD [] = s.eeprom.toList

/-- What `malloc` found would be written. -/
theorem TrueReports.rewrites (h : TrueReports a s) (hreads : a.ReadsDat) : ¬ a.dat.Rewrites := by
  intro hrewrites
  obtain ⟨ee, hne, hnot⟩ := exists_read_ne ((s.card.dat.getD []).take eeSize) s.eeprom.toList
  obtain ⟨hcontent, hok, -⟩ := processDat_of_ne (m := ⟨ee, ee⟩) hreads hne
  have hfile := h ⟨ee, ee⟩ ⟨ee, ee⟩ (.inr (.inr (by rw [hok hrewrites]; simp)))
  rw [hcontent, if_pos ⟨hrewrites.1, hrewrites.2.1⟩, List.take_of_length_le] at hfile
  · exact hnot hfile
  · rw [Mem.read_length]
    exact hrewrites.2.2.2.1

/-- It could happen to be what the file begins with. -/
theorem TrueReports.dat (h : TrueReports a s) (hreads : a.ReadsDat) {content : List Byte}
    (hcontent : s.card.dat = some content) (hlen : eeSize ≤ content.length) :
    content = s.eeprom.toList := by
  obtain ⟨ee, hee⟩ := exists_read_eq hlen
  have hfirst : ee.read 0 eeSize = (s.card.dat.getD []).take eeSize := by
    rw [hcontent]
    exact hee
  obtain ⟨hkept, hprinted⟩ := processDat_of_same (m := ⟨ee, ee⟩) hreads hfirst
  have hfile := h ⟨ee, ee⟩ ⟨ee, ee⟩ (.inr (.inl (by rw [hprinted]; simp)))
  rwa [hkept, hcontent] at hfile

/-- Or what EEPROM.NEW begins with: then it is said in any case. -/
theorem TrueReports.new (h : TrueReports a s) {content : List Byte}
    (hnew : s.card.new = some content) (hopen : a.openNew = true) (hread : a.new.read = true)
    (hlen : eeSize ≤ content.length) :
    s.card.dat = some s.eeprom.toList ∧
      (a.ReadsDat → ¬ (a.dat.lseek = true ∧ a.dat.truncate = true)) := by
  obtain ⟨ee, hee⟩ := exists_read_eq hlen
  have hfile : ∀ m2, (processDat a m2 s.card.dat).1.getD [] = s.eeprom.toList := by
    intro m2
    refine h ⟨ee, ee⟩ m2 (.inl (.inl ?_))
    rw [hnew]
    exact upToDate_processNew hopen hread hee
  obtain ⟨other, hne, hnot⟩ := exists_read_ne ((s.card.dat.getD []).take eeSize) s.eeprom.toList
  have hkept : a.ReadsDat → ¬ (a.dat.lseek = true ∧ a.dat.truncate = true) := by
    intro hreads hwritten
    have hother := hfile ⟨other, other⟩
    rw [(processDat_of_ne (m := ⟨other, other⟩) hreads hne).1, if_pos hwritten] at hother
    -- as long as the EEPROM, so nothing of the buffer is missing
    have hroom := congrArg List.length hother
    rw [List.length_take, Mem.read_length, Vector.length_toList] at hroom
    rw [List.take_of_length_le] at hother
    · exact hnot hother
    · rw [Mem.read_length, eeSize] at *
      omega
  refine ⟨?_, hkept⟩
  rw [eq_some_toList_iff, ← hfile ⟨other, other⟩]
  by_cases hreads : a.ReadsDat
  · rw [(processDat_of_ne (m := ⟨other, other⟩) hreads hne).1, if_neg (hkept hreads)]
  · rw [(processDat_of_not_readsDat hreads _).1]

theorem harmless_of_synced (inetAton : List Byte → Option (BitVec 32)) (lbuf : List Byte)
    (h : ∀ m1 m2, Synced s (sdcardProcess inetAton a m1 m2 lbuf s).1
      (sdcardProcess inetAton a m1 m2 lbuf s).2) : Harmless a s := by
  have htrue : TrueReports a s := by
    intro m1 m2 hprinted
    rw [← eq_some_toList_iff]
    exact (h m1 m2).reported (reported_iff.mpr hprinted)
  have zero : Blocks := ⟨fun _ => 0, fun _ => 0⟩
  refine ⟨?_, htrue.rewrites, fun hreads _ => htrue.dat hreads, fun _ => htrue.new⟩
  intro content hnew hopen hunlink
  refine (h zero zero).unlinked content hnew ?_
  show (processNew a zero s.card.new).1 = none
  rw [hnew, processNew_eq_none_iff]
  exact ⟨hopen, hunlink⟩

/-- **When `sdcard_process` keeps the files and the EEPROM in sync**, whatever `malloc` finds: only
when they are in sync before, as far as the calls that succeed go on to claim it. -/
theorem synced_iff (inetAton : List Byte → Option (BitVec 32)) (a : Answers) (lbuf : Vector Byte 64)
    (s : State) :
    (∀ m1 m2, Synced s (sdcardProcess inetAton a m1 m2 lbuf.toList s).1
      (sdcardProcess inetAton a m1 m2 lbuf.toList s).2) ↔ Harmless a s :=
  ⟨harmless_of_synced inetAton lbuf.toList,
    fun h m1 m2 => synced_of_harmless h inetAton m1 m2 lbuf.toList⟩

/-- Every call succeeds. -/
def allOk : Answers :=
  let a : SyncAnswers := ⟨true, true, true, true, eeSize, true⟩
  ⟨true, true, a, true, true, a⟩

/-- A blank EEPROM, and new data for it. -/
def updateCard : State :=
  ⟨⟨0, 0, 0, 0, Vector.replicate 6 0⟩, Vector.replicate 256 0,
    ⟨none, some (List.replicate 256 1), none⟩⟩

/-- The new data is nowhere any more, and EEPROM.DAT is what `malloc` found. -/
theorem new_data_lost :
    let heap : Blocks := ⟨fun _ => 0xaa, fun _ => 0⟩
    let r := sdcardProcess (fun _ => none) allOk heap heap (Vector.replicate 64 0).toList updateCard
    r.1.eeprom = Vector.replicate 256 0 ∧ r.1.card.new = none ∧
      r.2 = [.wroteEeprom, .updated] ∧ r.1.card.dat = some (List.replicate 256 0xaa) ∧
      ¬ Synced updateCard r.1 r.2 := by
  intro heap r
  have heeprom : r.1.eeprom = Vector.replicate 256 0 := rfl
  have hgone : r.1.card.new = none := by decide
  refine ⟨heeprom, hgone, by decide +kernel, by decide +kernel, fun hsynced => ?_⟩
  have h := hsynced.unlinked _ rfl hgone
  rw [heeprom] at h
  exact absurd h (by decide)

end Acmi.Sdcard
