import Acmi.Wvfm.Push

/-!
# One pass, one acquisition

What `wvfmdata_push` sends is one frame with its time stamp as long as the frames keep out of its
way (`Undisturbed`): after a reset one frame arrives, and the next one does not begin before the
task has read both time stamp registers; and when the task lets go of the reset no frame is
under way. Then every pass of every run sends the messages of one frame that was acquired
(`passes_are_acquisitions`). The run is described phase by phase: before the readout the FIFO holds
the beginning of a frame, in the readout the rest of it (`Phase`).

Nothing in the code keeps the frames out of the way. One that begins during the readout moves
the time stamp on, and the pass goes out with the words of one frame and the time stamp of the
next (`stamp_of_next`).
-/

namespace Acmi.Wvfm

open Acmi.Lib Acmi.Psc Acmi.Control

/-! ## Slots -/

theorem Frame.slots_length (f : Frame) (k n : Nat) : (f.slots k n).length = n := by
  rw [Frame.slots, List.length_map, List.length_range']

theorem Frame.slots_succ (f : Frame) (k n : Nat) :
    f.slots k (n + 1) = ⟨f, k⟩ :: f.slots (k + 1) n := by
  rw [Frame.slots, List.range'_succ, List.map_cons]
  rfl

theorem Frame.slots_concat (f : Frame) (n : Nat) : f.slots 0 n ++ [⟨f, n⟩] = f.slots 0 (n + 1) := by
  rw [Frame.slots, Frame.slots, List.range'_1_concat, List.map_append, Nat.zero_add]
  rfl

/-! ## The interleavings -/

/-- There is a complete frame in the FIFO. -/
def FramePresent (s : State) : Prop :=
  ∃ (f : Frame) (before after : List Slot), s.fifo = before ++ f.slots 0 frameLen ++ after

/-- A poll that ends the waiting loop finds a complete frame. -/
def PollFindsFrame (s : State) : Event → Prop
  | .act => s.pc = .poll → 8000 ≤ s.fifo.length → FramePresent s
  | _ => True

/-- Between the end of a reset and the poll that ends the waiting loop. -/
def Pc.waiting : Pc → Prop
  | .recount | .send | .poll => True
  | _ => False

/-- Between the last read of a pass and the end of its reset. -/
def Pc.discarding : Pc → Prop
  | .rstHigh | .rstLow => True
  | _ => False

/-- A frame begins as the first one since the reset, or when the pass has all it needs; and none
is under way at the end of a reset. -/
def Undisturbed (s : State) : Event → Prop
  | .begin _ => s.pc.waiting ∧ s.fifo = [] ∨ s.pc.discarding
  | .word => True
  | .act => s.pc = .rstLow → s.sending = none

/-! ## The invariant -/

/-- Since the reset no frame has begun, or one has and the FIFO holds what there is of it. -/
def Arriving (s : State) (begun : List Frame) : Prop :=
  s.fifoRst = false ∧
    (s.fifo = [] ∧ s.sending = none ∨
      ∃ f ∈ begun, ∃ n, 0 < n ∧ n ≤ frameLen ∧ s.fifo = f.slots 0 n ∧
        s.sending = (if n < frameLen then some (f, n) else none) ∧
        s.lat = (f.seconds, f.offset))

/-- The arrays hold a frame that was acquired, with its time stamp. -/
def Complete (s : State) (begun : List Frame) : Prop :=
  ∃ f ∈ begun, s.arrays.messages = f.messages

/-- What holds at each place of the pass. -/
def Phase (s : State) (begun : List Frame) : Pc → Prop
  | .poll => Arriving s begun
  | .readout k => k < 8192 ∧ ∃ f ∈ begun, s.fifo = f.slots k (8192 - k) ∧ s.sending = none ∧
      s.lat = (f.seconds, f.offset) ∧ s.arrays.Holds f k
  | .tsNs => ∃ f ∈ begun, s.sending = none ∧ s.lat = (f.seconds, f.offset) ∧ s.arrays.Holds f 8192
  | .tsS => ∃ f ∈ begun, s.sending = none ∧ s.lat = (f.seconds, f.offset) ∧
      s.arrays.Holds f 8192 ∧ s.arrays.timestamp 0 = htonl f.seconds
  | .rstHigh => Complete s begun
  | .rstLow => Complete s begun ∧ s.fifoRst = true ∧ s.fifo = []
  | .recount => Complete s begun ∧ Arriving s begun
  | .send => Complete s begun ∧ Arriving s begun

structure Inv (s : State) (begun : List Frame) : Prop where
  sent : ∀ pass ∈ s.sent, ∃ f ∈ begun, pass = f.messages
  phase : Phase s begun s.pc

theorem inv_init : Inv .init [] :=
  ⟨fun _ h => absurd h List.not_mem_nil, rfl, Or.inl ⟨rfl, rfl⟩⟩

/-! ## The hardware's steps -/

theorem Complete.mono {s t : State} {begun begun' : List Frame} (h : Complete s begun)
    (harrays : t.arrays = s.arrays) (hsub : begun ⊆ begun') : Complete t begun' := by
  obtain ⟨f, hf, hm⟩ := h
  exact ⟨f, hsub hf, by rw [harrays, hm]⟩

theorem push_fifo_of_reset {s : State} (hrst : s.fifoRst = true) (hfifo : s.fifo = []) (x : Slot) :
    (s.push x).fifo = [] := by
  show (if s.fifoRst then s.fifo else s.fifo ++ [x]) = []
  rw [hrst, hfifo]
  rfl

theorem push_fifo {s : State} (hrst : s.fifoRst = false) (x : Slot) :
    (s.push x).fifo = s.fifo ++ [x] := by
  show (if s.fifoRst then s.fifo else s.fifo ++ [x]) = s.fifo ++ [x]
  rw [hrst]
  rfl

/-- A word of the hardware that does not come while the task reads. -/
theorem Phase.hardware {s t : State} {begun begun' : List Frame} {p : Pc} (h : Phase s begun p)
    (hwhere : p.waiting ∨ p.discarding) (harrays : t.arrays = s.arrays) (hsub : begun ⊆ begun')
    (harriving : p.waiting → Arriving s begun → Arriving t begun')
    (hreset : s.fifoRst = true → s.fifo = [] → t.fifoRst = true ∧ t.fifo = []) :
    Phase t begun' p := by
  cases p with
  | poll => exact harriving trivial h
  | recount => exact ⟨h.1.mono harrays hsub, harriving trivial h.2⟩
  | send => exact ⟨h.1.mono harrays hsub, harriving trivial h.2⟩
  | rstHigh => exact Complete.mono h harrays hsub
  | rstLow => exact ⟨h.1.mono harrays hsub, hreset h.2.1 h.2.2⟩
  | readout k => rcases hwhere with hno | hno <;> cases hno
  | tsNs => rcases hwhere with hno | hno <;> cases hno
  | tsS => rcases hwhere with hno | hno <;> cases hno

/-- The first word of a frame, in an empty FIFO. -/
theorem Arriving.begin {s : State} {begun : List Frame} (h : Arriving s begun) (hfifo : s.fifo = [])
    (f : Frame) :
    Arriving { s.push ⟨f, 0⟩ with sending := some (f, 1), lat := (f.seconds, f.offset) }
      (begun ++ [f]) := by
  obtain ⟨hrst, -⟩ := h
  refine ⟨hrst, Or.inr ⟨f, List.mem_append_right begun (List.mem_singleton_self f), 1, by decide,
    by decide, ?_, ?_, rfl⟩⟩
  · show (s.push ⟨f, 0⟩).fifo = f.slots 0 1
    rw [push_fifo hrst, hfifo]
    rfl
  · rfl

/-- The next word of the frame in progress. -/
theorem Arriving.word {s : State} {begun : List Frame} (h : Arriving s begun) {f : Frame} {k : Nat}
    (hsending : s.sending = some (f, k)) :
    Arriving { s.push ⟨f, k⟩ with
      sending := if k + 1 < frameLen then some (f, k + 1) else none } begun := by
  obtain ⟨hrst, ⟨-, hnone⟩ | ⟨g, hg, n, hn, hle, hfifo, hs, hlat⟩⟩ := h
  · rw [hnone] at hsending
    cases hsending
  · have hlt : n < frameLen := by
      by_contra hge
      rw [if_neg hge, hsending] at hs
      cases hs
    rw [if_pos hlt, hsending, Option.some.injEq, Prod.mk.injEq] at hs
    obtain ⟨rfl, rfl⟩ := hs
    refine ⟨hrst, Or.inr ⟨f, hg, k + 1, Nat.succ_pos k, hlt, ?_, rfl, hlat⟩⟩
    show (s.push ⟨f, k⟩).fifo = f.slots 0 (k + 1)
    rw [push_fifo hrst, hfifo, f.slots_concat]

theorem begin_inv {stale : BitVec 32} {s t : State} {begun : List Frame} {f : Frame}
    (h : Inv s begun) (hC : Undisturbed s (.begin f)) (hs : step stale s (.begin f) = some t) :
    Inv t (begun ++ [f]) := by
  have hsub : begun ⊆ begun ++ [f] := List.subset_append_left begun [f]
  cases hsending : s.sending with
  | some x => simp only [step, hsending, reduceCtorEq] at hs
  | none =>
    simp only [step, hsending, Option.some.injEq] at hs
    subst hs
    constructor
    · intro pass hpass
      obtain ⟨g, hg, hm⟩ := h.sent pass hpass
      exact ⟨g, hsub hg, hm⟩
    · -- the latch changes under the task only when it does not read
      refine h.phase.hardware ?_ rfl hsub ?_ ?_
      · exact hC.imp And.left id
      · intro hwaiting harriving
        rcases hC with ⟨-, hfifo⟩ | hdiscarding
        · exact harriving.begin hfifo f
        · cases hpc : s.pc <;> rw [hpc] at hwaiting hdiscarding <;>
            first | exact hwaiting.elim | exact hdiscarding.elim
      · intro hrst hfifo
        exact ⟨hrst, push_fifo_of_reset hrst hfifo _⟩

/-- While the task reads no frame is under way. -/
theorem Phase.where_of_sending {s : State} {begun : List Frame} {p : Pc} (h : Phase s begun p)
    (hsending : s.sending ≠ none) : p.waiting ∨ p.discarding := by
  cases p with
  | poll => exact Or.inl trivial
  | recount => exact Or.inl trivial
  | send => exact Or.inl trivial
  | rstHigh => exact Or.inr trivial
  | rstLow => exact Or.inr trivial
  | readout k =>
    obtain ⟨-, _, _, -, hnone, -⟩ := h
    exact absurd hnone hsending
  | tsNs =>
    obtain ⟨_, _, hnone, -⟩ := h
    exact absurd hnone hsending
  | tsS =>
    obtain ⟨_, _, hnone, -⟩ := h
    exact absurd hnone hsending

theorem word_inv {stale : BitVec 32} {s t : State} {begun : List Frame} (h : Inv s begun)
    (hs : step stale s .word = some t) : Inv t begun := by
  cases hsending : s.sending with
  | none => simp only [step, hsending, reduceCtorEq] at hs
  | some x =>
    obtain ⟨f, k⟩ := x
    simp only [step, hsending, Option.some.injEq] at hs
    subst hs
    refine ⟨h.sent, h.phase.hardware ?_ rfl (List.Subset.refl begun) ?_ ?_⟩
    · apply h.phase.where_of_sending
      rw [hsending]
      exact Option.some_ne_none _
    · intro _ harriving
      exact harriving.word hsending
    · intro hrst hfifo
      exact ⟨hrst, push_fifo_of_reset hrst hfifo _⟩

/-! ## The task's steps -/

/-- The poll that ends the loop finds exactly the frame that has arrived. -/
theorem Arriving.found {s : State} {begun : List Frame} (h : Arriving s begun)
    (hpresent : FramePresent s) :
    ∃ f ∈ begun, s.fifo = f.slots 0 8192 ∧ s.sending = none ∧ s.lat = (f.seconds, f.offset) := by
  obtain ⟨g, before, after, hg⟩ := hpresent
  have hlen := congrArg List.length hg
  rw [List.length_append, List.length_append, g.slots_length] at hlen
  obtain ⟨-, ⟨hempty, -⟩ | ⟨f, hf, n, -, hle, hfifo, hsending, hlat⟩⟩ := h
  · rw [hempty, List.length_nil, frameLen] at hlen
    omega
  · -- the FIFO holds at least a frame, and at most what there is of `f`
    rw [hfifo, f.slots_length] at hlen
    have hn : n = frameLen := by omega
    rw [hn] at hfifo hsending
    exact ⟨f, hf, hfifo, hsending.trans (if_neg (Nat.lt_irrefl _)), hlat⟩

theorem poll_inv {stale : BitVec 32} {s : State} {begun : List Frame} (h : Inv s begun)
    (hpc : s.pc = .poll) (hfinds : PollFindsFrame s .act) : Inv (act stale s) begun := by
  obtain ⟨hsent, hphase⟩ := h
  rw [hpc] at hphase
  have harriving : Arriving s begun := hphase
  simp only [act, hpc]
  split_ifs with hfew hmany
  · exact ⟨hsent, hpc ▸ hphase⟩
  · obtain ⟨f, hf, hfifo, hsending, hlat⟩ := harriving.found (hfinds hpc (Nat.le_of_not_lt hfew))
    exact ⟨hsent, by decide, f, hf, hfifo, hsending, hlat, s.arrays.holds_zero f⟩
  · obtain ⟨f, hf, hfifo, -, -⟩ := harriving.found (hfinds hpc (Nat.le_of_not_lt hfew))
    rw [hfifo, f.slots_length] at hmany
    omega

theorem readout_inv {stale : BitVec 32} {s : State} {begun : List Frame} {k : Nat}
    (h : Inv s begun) (hpc : s.pc = .readout k) : Inv (act stale s) begun := by
  obtain ⟨hsent, hphase⟩ := h
  rw [hpc] at hphase
  obtain ⟨hk, f, hf, hfifo, hsending, hlat, hholds⟩ := hphase
  have hcons : s.fifo = ⟨f, k⟩ :: f.slots (k + 1) (8192 - (k + 1)) := by
    rw [hfifo, show 8192 - k = 8192 - (k + 1) + 1 by omega, Frame.slots_succ]
  have hstore : (s.arrays.store k (f.words k)).Holds f (k + 1) := hholds.store
  simp only [act, hpc, hcons]
  by_cases hlast : k + 1 < 8192
  · rw [if_pos hlast]
    exact ⟨hsent, hlast, f, hf, rfl, hsending, hlat, hstore⟩
  · rw [if_neg hlast]
    rw [show k + 1 = 8192 by omega] at hstore
    exact ⟨hsent, f, hf, hsending, hlat, hstore⟩

/-- The register that the header calls the nanoseconds holds the seconds. -/
theorem tsNs_inv {stale : BitVec 32} {s : State} {begun : List Frame} (h : Inv s begun)
    (hpc : s.pc = .tsNs) : Inv (act stale s) begun := by
  obtain ⟨hsent, hphase⟩ := h
  rw [hpc] at hphase
  obtain ⟨f, hf, hsending, hlat, hpulse, heeprom, hboow, hwvfm⟩ := hphase
  simp only [act, hpc]
  refine ⟨hsent, f, hf, hsending, hlat, ⟨hpulse, heeprom, hboow, hwvfm⟩, ?_⟩
  show Function.update s.arrays.timestamp 0 (htonl s.lat.1) 0 = htonl f.seconds
  rw [Function.update_self, hlat]

theorem tsS_inv {stale : BitVec 32} {s : State} {begun : List Frame} (h : Inv s begun)
    (hpc : s.pc = .tsS) : Inv (act stale s) begun := by
  obtain ⟨hsent, hphase⟩ := h
  rw [hpc] at hphase
  obtain ⟨f, hf, -, hlat, ⟨hpulse, heeprom, hboow, hwvfm⟩, hseconds⟩ := hphase
  simp only [act, hpc]
  refine ⟨hsent, f, hf, messages_of_holds ⟨hpulse, heeprom, hboow, hwvfm⟩ ?_ ?_⟩
  · have h01 : (0 : Nat) ≠ 1 := by decide
    show Function.update s.arrays.timestamp 1 (htonl s.lat.2) 0 = htonl f.seconds
    rw [Function.update_of_ne h01, hseconds]
  · show Function.update s.arrays.timestamp 1 (htonl s.lat.2) 1 = htonl f.offset
    rw [Function.update_self, hlat]

theorem send_inv {stale : BitVec 32} {s : State} {begun : List Frame} (h : Inv s begun)
    (hpc : s.pc = .send) : Inv (act stale s) begun := by
  obtain ⟨hsent, hphase⟩ := h
  rw [hpc] at hphase
  obtain ⟨⟨f, hf, hm⟩, harriving⟩ := hphase
  simp only [act, hpc]
  refine ⟨fun pass hpass => ?_, harriving⟩
  rcases List.mem_append.mp hpass with hold | hnew
  · exact hsent pass hold
  · exact ⟨f, hf, (List.mem_singleton.mp hnew).trans hm⟩

theorem act_inv {stale : BitVec 32} {s : State} {begun : List Frame} (h : Inv s begun)
    (hfinds : PollFindsFrame s .act) (hC : Undisturbed s .act) : Inv (act stale s) begun := by
  cases hpc : s.pc with
  | poll => exact poll_inv h hpc hfinds
  | readout k => exact readout_inv h hpc
  | tsNs => exact tsNs_inv h hpc
  | tsS => exact tsS_inv h hpc
  | rstHigh =>
    have hphase := h.phase
    rw [hpc] at hphase
    simp only [act, hpc]
    exact ⟨h.sent, hphase, rfl, rfl⟩
  | rstLow =>
    have hphase := h.phase
    rw [hpc] at hphase
    simp only [act, hpc]
    -- the FIFO is empty, and nothing is on its way
    exact ⟨h.sent, hphase.1, rfl, Or.inl ⟨hphase.2.2, hC hpc⟩⟩
  | recount =>
    have hphase := h.phase
    rw [hpc] at hphase
    simp only [act, hpc]
    exact ⟨h.sent, hphase⟩
  | send => exact send_inv h hpc

/-! ## Every run -/

/-- The frame that an event begins. -/
def begunBy (_ : State) : Event → List Frame
  | .begin f => [f]
  | _ => []

theorem step_inv {stale : BitVec 32} {s t : State} {begun : List Frame} {e : Event}
    (h : Inv s begun) (hC : PollFindsFrame s e ∧ Undisturbed s e) (hs : step stale s e = some t) :
    Inv t (begun ++ begunBy s e) := by
  cases e with
  | begin f => exact begin_inv h hC.2 hs
  | word =>
    show Inv t (begun ++ [])
    rw [List.append_nil]
    exact word_inv h hs
  | act =>
    show Inv t (begun ++ [])
    rw [List.append_nil]
    rw [step, Option.some.injEq] at hs
    exact hs ▸ act_inv h hC.1 hC.2

/-! ## One pass -/

/-- The FIFO and the time stamp when `f` has arrived. -/
def arrived (f : Frame) : State :=
  { State.init with fifo := f.slots 0 8192, lat := (f.seconds, f.offset) }

theorem words_run (stale : BitVec 32) {C : State → Event → Prop} (hC : ∀ u, C u .word) (f : Frame)
    (n k : Nat) (hk : k + n = 8192) :
    let s := { arrived f with
      fifo := f.slots 0 k
      sending := if k < frameLen then some (f, k) else none }
    StepsMeet (step stale) C s (List.replicate n .word) ∧
      runFrom (step stale) s (List.replicate n .word) = some (arrived f) := by
  induction n generalizing k with
  | zero =>
    have hk' : k = 8192 := hk
    subst hk'
    exact ⟨trivial, rfl⟩
  | succ n ih =>
    intro s
    have hlt : k < frameLen := by
      rw [frameLen]
      omega
    have hstep : step stale s .word = some { arrived f with
        fifo := f.slots 0 (k + 1)
        sending := if k + 1 < frameLen then some (f, k + 1) else none } := by
      have hsending : s.sending = some (f, k) := if_pos hlt
      have hpush : (s.push ⟨f, k⟩).fifo = f.slots 0 (k + 1) := f.slots_concat k
      simp only [step, hsending, Option.some.injEq]
      rw [← hpush]
      rfl
    obtain ⟨hmeets, hrun⟩ := ih (k + 1) (by omega)
    rw [List.replicate_succ]
    exact ⟨.cons (hC s) hstep hmeets, runFrom_cons_iff.mpr ⟨_, hstep, hrun⟩⟩

/-- A frame that finds the task waiting and the FIFO empty, and the poll that finds the frame. -/
def arrival (f : Frame) : List Event := .begin f :: (List.replicate 8191 .word ++ [.act])

theorem arrival_run (stale : BitVec 32) {C : State → Event → Prop} (f : Frame)
    (hbegin : C .init (.begin f)) (hword : ∀ u, C u .word) (hact : C (arrived f) .act) :
    StepsMeet (step stale) C .init (arrival f) ∧
      runFrom (step stale) .init (arrival f) = some { arrived f with pc := .readout 0 } := by
  obtain ⟨hmeets, hrun⟩ := words_run stale hword f 8191 1 rfl
  have hfound : step stale (arrived f) .act = some { arrived f with pc := .readout 0 } := by
    have hlen : (arrived f).fifo.length = 8192 := f.slots_length 0 8192
    simp only [step, act, hlen]
    rfl
  constructor
  · exact .cons hbegin rfl (hmeets.append hrun (.cons hact hfound trivial))
  · refine runFrom_cons_iff.mpr ⟨_, rfl, ?_⟩
    exact (runFrom_append hrun _).trans (runFrom_cons_iff.mpr ⟨_, hfound, rfl⟩)

/-- The reads that are left of a frame, whatever is behind it in the FIFO. -/
theorem readout_run (stale : BitVec 32) {C : State → Event → Prop} (f : Frame) (rest : List Slot)
    (n k : Nat) (hk : k + n = 8192) (s : State)
    (hpc : s.pc = if k < 8192 then .readout k else .tsNs) (hfifo : s.fifo = f.slots k n ++ rest)
    (hholds : s.arrays.Holds f k)
    (hC : ∀ u, u.pc ≠ .poll → u.sending = s.sending → C u .act) :
    ∃ t, StepsMeet (step stale) C s (List.replicate n .act) ∧
      runFrom (step stale) s (List.replicate n .act) = some t ∧
      t.pc = .tsNs ∧ t.arrays.Holds f 8192 ∧ t.lat = s.lat ∧ t.sending = s.sending ∧
      t.sent = s.sent := by
  induction n generalizing k s with
  | zero =>
    have hk' : k = 8192 := hk
    subst hk'
    exact ⟨s, trivial, rfl, hpc, hholds, rfl, rfl, rfl⟩
  | succ n ih =>
    -- word `k` is at the head of the FIFO, whatever has come in behind the frame
    rw [if_pos (by omega)] at hpc
    rw [f.slots_succ, List.cons_append] at hfifo
    let next : State := { s with
      fifo := f.slots (k + 1) n ++ rest
      arrays := s.arrays.store k (f.words k)
      pc := if k + 1 < 8192 then .readout (k + 1) else .tsNs }
    have hstep : step stale s .act = some next := by
      simp only [step, act, hpc, hfifo]
      rfl
    have hgo : C s .act := by
      apply hC s _ rfl
      rw [hpc]
      exact Pc.noConfusion
    obtain ⟨t, hmeets, hrun, ht⟩ := ih (k + 1) (by omega) next rfl rfl hholds.store hC
    rw [List.replicate_succ]
    exact ⟨t, .cons hgo hstep hmeets, runFrom_cons_iff.mpr ⟨_, hstep, hrun⟩, ht⟩

/-- The rest of the pass sends what the arrays and the time stamp registers hold. -/
theorem finish_run (stale : BitVec 32) {C : State → Event → Prop} (f : Frame) (s : State)
    (hpc : s.pc = .tsNs) (hholds : s.arrays.Holds f 8192)
    (hC : ∀ u, u.pc ≠ .poll → u.sending = s.sending → C u .act) :
    ∃ t, StepsMeet (step stale) C s (List.replicate 6 .act) ∧
      runFrom (step stale) s (List.replicate 6 .act) = some t ∧
      t.sent = s.sent ++ [(⟨f.words, s.lat.1, s.lat.2⟩ : Frame).messages] := by
  obtain ⟨fifo, fifoRst, sending, lat, pc, arrays, sent⟩ := s
  subst hpc
  have hgo : ∀ u : State, u.pc ≠ .poll → u.sending = sending → C u .act := hC
  obtain ⟨hpulse, heeprom, hboow, hwvfm⟩ := hholds
  refine ⟨_, ?_, rfl, ?_⟩
  · exact .cons (hgo _ Pc.noConfusion rfl) rfl (.cons (hgo _ Pc.noConfusion rfl) rfl
      (.cons (hgo _ Pc.noConfusion rfl) rfl (.cons (hgo _ Pc.noConfusion rfl) rfl
      (.cons (hgo _ Pc.noConfusion rfl) rfl (.cons (hgo _ Pc.noConfusion rfl) rfl trivial)))))
  · refine congrArg (sent ++ [·]) (messages_of_holds ⟨hpulse, heeprom, hboow, hwvfm⟩ ?_ ?_)
    · have h01 : (0 : Nat) ≠ 1 := by decide
      show Function.update (Function.update arrays.timestamp 0 (htonl lat.1)) 1 (htonl lat.2) 0 =
        htonl lat.1
      rw [Function.update_of_ne h01, Function.update_self]
    · show Function.update (Function.update arrays.timestamp 0 (htonl lat.1)) 1 (htonl lat.2) 1 =
        htonl lat.2
      rw [Function.update_self]

/-- The first pass: `f` arrives and is found, `late` happens, and the task goes on to the end. -/
def firstPass (f : Frame) (late : List Event) : List Event :=
  arrival f ++ (late ++ (List.replicate 8192 .act ++ List.replicate 6 .act))

/-- **What the first pass sends.** The words are those of the frame; the time stamp is the one in
the registers when the readout begins. -/
theorem firstPass_run (stale : BitVec 32) {C : State → Event → Prop} (f : Frame)
    (late : List Event) (s : State) (rest : List Slot) (hbegin : C .init (.begin f))
    (hword : ∀ u, C u .word) (hact : C (arrived f) .act)
    (hlate : StepsMeet (step stale) C { arrived f with pc := .readout 0 } late)
    (hrun : runFrom (step stale) { arrived f with pc := .readout 0 } late = some s)
    (hpc : s.pc = .readout 0) (hfifo : s.fifo = f.slots 0 8192 ++ rest) (hsent : s.sent = [])
    (hC : ∀ u, u.pc ≠ .poll → u.sending = s.sending → C u .act) :
    ∃ t, StepsMeet (step stale) C .init (firstPass f late) ∧
      runFrom (step stale) .init (firstPass f late) = some t ∧
      t.sent = [(⟨f.words, s.lat.1, s.lat.2⟩ : Frame).messages] := by
  obtain ⟨hmeets1, hrun1⟩ := arrival_run stale f hbegin hword hact
  obtain ⟨t, hmeets2, hrun2, htpc, hholds, hlat, hsending, htsent⟩ :=
    readout_run stale f rest 8192 0 rfl s hpc hfifo (s.arrays.holds_zero f) hC
  obtain ⟨u, hmeets3, hrun3, husent⟩ := finish_run stale f t htpc hholds fun v hv hs =>
    hC v hv (hs.trans hsending)
  refine ⟨u, ?_, ?_, ?_⟩
  · exact hmeets1.append hrun1 (hlate.append hrun (hmeets2.append hrun2 hmeets3))
  · rw [firstPass, runFrom_append hrun1, runFrom_append hrun, runFrom_append hrun2, hrun3]
  · rw [husent, htsent, hsent, hlat]
    rfl

theorem begin_mem_firstPass {f g : Frame} {late : List Event}
    (h : .begin g ∈ firstPass f late) : g = f ∨ .begin g ∈ late := by
  have hreplicate : ∀ (n : Nat) (e : Event), .begin g ∈ List.replicate n e → .begin g = e :=
    fun _ _ => List.eq_of_mem_replicate
  rcases List.mem_append.mp h with h | h
  · rcases List.mem_cons.mp h with h | h
    · exact Or.inl (Event.begin.inj h)
    · rcases List.mem_append.mp h with h | h
      · cases hreplicate _ _ h
      · cases List.mem_singleton.mp h
  · rcases List.mem_append.mp h with h | h
    · exact Or.inr h
    · rcases List.mem_append.mp h with h | h <;> cases hreplicate _ _ h

theorem pollFindsFrame_arrived (f : Frame) : PollFindsFrame (arrived f) .act :=
  fun _ _ => ⟨f, [], [], (List.append_nil _).symm⟩

theorem pollFindsFrame_of_pc {s : State} (h : s.pc ≠ .poll) : PollFindsFrame s .act :=
  fun hpc => absurd hpc h

/-- **Every pass is one acquisition.** In every run in which the polls that end the waiting loop
find a frame and the frames keep out of the task's way, each pass has sent the words of one frame
that was acquired, and the time stamp latched for it. -/
theorem passes_are_acquisitions (stale : BitVec 32) (es : List Event) (s : State)
    (hrun : runFrom (step stale) .init es = some s)
    (hpolls : StepsMeet (step stale) PollFindsFrame .init es)
    (hundisturbed : StepsMeet (step stale) Undisturbed .init es) :
    ∀ pass ∈ s.sent, ∃ f, .begin f ∈ es ∧ pass = f.messages := by
  have hinv := runFrom_history_of_meets (f := begunBy)
    (fun _ _ _ _ h hC hs => step_inv h hC hs) es .init s [] inv_init (hpolls.and hundisturbed) hrun
  intro pass hpass
  obtain ⟨f, hf, hm⟩ := hinv.sent pass hpass
  rw [List.nil_append] at hf
  obtain ⟨e, he, t, hfe⟩ := exists_of_mem_history hf
  cases e with
  | begin g =>
    rw [begunBy, List.mem_singleton] at hfe
    exact ⟨f, hfe ▸ he, hm⟩
  | word => cases hfe
  | act => cases hfe

/-- Words that count up, at one second. -/
def ramp : Frame := ⟨fun i => BitVec.ofNat 32 i, 1, 0⟩

/-- One frame and one pass. -/
theorem passes_are_acquisitions_ramp :
    ∃ s, runFrom (step 0) .init (firstPass ramp []) = some s ∧ s.sent = [ramp.messages] ∧
      ∀ pass ∈ s.sent, ∃ f, .begin f ∈ firstPass ramp [] ∧ pass = f.messages := by
  have hstart : runFrom (step 0) { arrived ramp with pc := .readout 0 } [] =
      some { arrived ramp with pc := .readout 0 } := rfl
  obtain ⟨s, hpolls, hrun, hsent⟩ := firstPass_run 0 (C := PollFindsFrame) ramp [] _ []
    trivial (fun _ => trivial) (pollFindsFrame_arrived ramp) trivial hstart rfl
    (List.append_nil _).symm rfl fun _ hpc _ => pollFindsFrame_of_pc hpc
  obtain ⟨t, hundisturbed, -, -⟩ := firstPass_run 0 (C := Undisturbed) ramp [] _ []
    (Or.inl ⟨trivial, rfl⟩) (fun _ => trivial) (fun hpc => Pc.noConfusion hpc) trivial hstart rfl
    (List.append_nil _).symm rfl fun _ _ hsending _ => hsending
  exact ⟨s, hrun, hsent, passes_are_acquisitions 0 (firstPass ramp []) s hrun hpolls hundisturbed⟩

/-- Another frame, at two seconds. -/
def flat : Frame := ⟨fun _ => 0, 2, 0⟩

/-- The readout of `f` begins, and `g` with it. -/
def overtaken (f g : Frame) : State :=
  { arrived f with
    fifo := f.slots 0 8192 ++ [⟨g, 0⟩]
    sending := some (g, 1)
    lat := (g.seconds, g.offset)
    pc := .readout 0 }

/-- A frame that begins during the readout puts its time stamp on the one before. -/
theorem stamp_of_next :
    ¬ ∀ (es : List Event) (s : State), runFrom (step 0) .init es = some s →
      StepsMeet (step 0) PollFindsFrame .init es →
      ∀ pass ∈ s.sent, ∃ f, .begin f ∈ es ∧ pass = f.messages := by
  intro h
  have hlate : runFrom (step 0) { arrived ramp with pc := .readout 0 } [.begin flat] =
      some (overtaken ramp flat) := by
    rw [runFrom, step]
    rfl
  obtain ⟨s, hpolls, hrun, hsent⟩ := firstPass_run 0 (C := PollFindsFrame) ramp [.begin flat] _
    [⟨flat, 0⟩] trivial (fun _ => trivial) (pollFindsFrame_arrived ramp)
    ⟨trivial, fun _ _ => trivial⟩ hlate rfl rfl rfl fun _ hpc _ => pollFindsFrame_of_pc hpc
  obtain ⟨f, hf, hm⟩ := h (firstPass ramp [.begin flat]) s hrun hpolls _
    (hsent ▸ List.mem_singleton_self _)
  simp only [Frame.messages, List.cons.injEq, Prod.mk.injEq, true_and, and_true] at hm
  obtain ⟨heeprom, -, -, -, hstamp⟩ := hm
  rcases begin_mem_firstPass hf with rfl | hf
  · exact absurd hstamp (by decide)
  · rw [List.mem_singleton, Event.begin.injEq] at hf
    rw [hf] at heeprom
    exact absurd heeprom (by decide)

end Acmi.Wvfm
