import Acmi.Tftp.Session

/-!
# `tftp_server.c`: the timeout

A session that its peer has left is closed by ticks alone. `State.rank` counts them: the silent
ones, one for every time that `last_data` may still be sent again, and the last. `session_ends` says
that the session is over behind exactly that many, and that there is always another tick to come.

How long that takes is another matter. A request that is refused leaves its call of `tftp_tmr` in
the timer list. Between two sessions such a call expires, but a session keeps it going beside its
own, and then every second has two ticks (`timers`).
-/

namespace Acmi.Tftp

open Acmi.Lib

section

variable {σ η κ : Type} {c : Context σ η κ} {a : Answers κ} {s s' : State σ η} {d : Datagram}
  {e : Event κ} {h : η}

/-! ## The clock -/

/-- A datagram leaves the clock alone, apart from what `recv` notes of it. -/
theorem sendData_clock (c : Context σ η κ) (a : Answers κ) (s : State σ η) (h : η) :
    (sendData c a s h).1.timer = s.timer ∧ (sendData c a s h).1.lastPkt = s.lastPkt := by
  unfold sendData closeHandle
  split_ifs
  · dsimp only
    split
    · split <;> exact ⟨rfl, rfl⟩
    · exact ⟨rfl, rfl⟩
  · exact ⟨rfl, rfl⟩

theorem closeHandle_clock (c : Context σ η κ) (s : State σ η) :
    (closeHandle c s).1.timer = s.timer ∧ (closeHandle c s).1.lastPkt = s.lastPkt := by
  unfold closeHandle
  split <;> exact ⟨rfl, rfl⟩

theorem clock_close (c : Context σ η κ) (hclock : s.lastPkt ≤ s.timer) :
    (closeHandle c s).1.lastPkt ≤ (closeHandle c s).1.timer := by
  obtain ⟨htimer, hlast⟩ := closeHandle_clock c s
  rw [htimer, hlast]
  exact hclock

theorem outcome_clock {r : State σ η × List (Action η)} (hcases : Outcome c a s d r) :
    r.1.timer = s.timer ∧ r.1.lastPkt = s.lastPkt := by
  cases hcases with
  | answered => exact ⟨rfl, rfl⟩
  | refused => exact ⟨rfl, rfl⟩
  | notFound => exact ⟨rfl, rfl⟩
  | upload => exact ⟨rfl, rfl⟩
  | download _ _ _ _ ht =>
    rw [ht]
    exact sendData_clock c a _ _
  | stored _ ht =>
    rw [ht]
    exact ⟨rfl, rfl⟩
  | storedLast _ ht =>
    rw [ht]
    exact closeHandle_clock c _
  | failed _ ht =>
    rw [ht]
    exact closeHandle_clock c _
  | failedLast _ ht =>
    obtain ⟨h1, h2⟩ := closeHandle_clock c (closeHandle c _).1
    rw [h1, h2, ht]
    exact closeHandle_clock c _
  | acked => exact sendData_clock c a _ _
  | ackedLast => exact closeHandle_clock c _

/-- The clock of a session is never behind its last datagram, and its timer is running. -/
structure Running (s : State σ η) : Prop where
  clock : s.lastPkt ≤ s.timer
  phase : s.handle.isSome = true ∨ Closed s
  timer : s.handle.isSome = true → 0 < s.timeouts

theorem tftpInit_running (files : σ) : Running (tftpInit η files) where
  clock := Nat.le_refl 0
  phase := Or.inr (tftpInit_closed files)
  timer := fun h => absurd h Bool.false_ne_true

theorem clock_step (hclock : s.lastPkt ≤ s.timer) (hstep : serverStep c s e = some s') :
    s'.lastPkt ≤ s'.timer := by
  cases e with
  | recv d a =>
    rw [serverStep_recv.mp hstep, recv_fst]
    split_ifs with hpeer
    · exact hclock
    · obtain ⟨h1, h2⟩ := outcome_clock (dispatch_cases c a s.heard d)
      exact Nat.le_of_eq (h2.trans h1.symm)
  | tick a =>
    obtain ⟨hpending, hs'⟩ := serverStep_tick.mp hstep
    have hle : s.lastPkt ≤ s.timer + 1 := Nat.le_succ_of_le hclock
    rw [hs']
    unfold tftpTmr
    dsimp only
    split
    · exact hle
    · split_ifs
      · exact hle
      · exact clock_close c hle
      · exact hle

theorem running_step (hrunning : Running s) (hstep : serverStep c s e = some s') : Running s' := by
  refine ⟨clock_step hrunning.clock hstep, open_or_closed hrunning.phase hstep, ?_⟩
  intro hopen'
  have hheld : ∀ {t : State σ η}, Held t s' → 0 < t.timeouts → 0 < s'.timeouts := by
    intro t hh hpos
    rw [hh.timeouts]
    exact hpos
  have hgone : ∀ {files : σ}, Gone files s' → 0 < s'.timeouts := by
    intro files hgone
    rw [hgone.handle] at hopen'
    exact absurd hopen' Bool.false_ne_true
  rcases hrunning.phase with hopen | hclosed
  · have hpos := hrunning.timer hopen
    obtain ⟨h, hopen⟩ := Option.isSome_iff_exists.mp hopen
    cases turn hopen hstep with
    | held hh => exact hheld hh hpos
    | stored _ _ _ _ hh => exact hheld hh hpos
    | sent _ _ _ _ hh => exact hheld hh hpos
    | unsent _ _ _ _ hh => exact hheld hh hpos
    | storedLast _ _ _ _ hg => exact hgone hg
    | failed _ _ _ hg => exact hgone hg
    | readFailed _ _ _ _ hg => exact hgone hg
    | finished _ _ _ hg => exact hgone hg
    | timedOut hg => exact hgone hg
  · have hclosed' : ∀ {t : State σ η}, Held t s' → t.handle = none → 0 < s'.timeouts := by
      intro t hh hnone
      rw [hh.handle, hnone] at hopen'
      exact absurd hopen' Bool.false_ne_true
    cases between hclosed hstep with
    | idle hh => exact hclosed' hh hclosed.handle
    | expired _ hh => exact hclosed' hh hclosed.handle
    | refused _ _ hh => exact hclosed' hh hclosed.handle
    | notFound _ _ hnull hh => exact hclosed' hh hnull
    | upload _ _ _ hh => exact hheld hh (Nat.succ_pos _)
    | download _ _ _ _ hh => exact hheld hh (Nat.succ_pos _)
    | unsent _ _ _ hh => exact hheld hh (Nat.succ_pos _)
    | readFailed _ _ _ _ hg => exact hgone hg

theorem run_running {files : σ} {es : List (Event κ)}
    (hrun : runFrom (serverStep c) (tftpInit η files) es = some s) : Running s :=
  runFrom_invariant (fun _ _ _ hI hs => running_step hI hs) (tftpInit_running files) hrun

/-! ## Sessions that nobody takes part in any more -/

def Event.isTick : Event κ → Bool
  | .recv _ _ => false
  | .tick _ => true

/-- What comes in is not from the peer of the session. -/
def Abandoned (s : State σ η) : Event κ → Prop
  | .recv d _ => Stranger s d
  | .tick _ => True

/-- How often `last_data` may still be sent again. -/
def State.retriesLeft (s : State σ η) : Nat :=
  if s.lastData.isSome then maxRetries - s.retries else 0

/-- The ticks that the session has left without its peer. -/
def State.rank (s : State σ η) : Nat :=
  match s.handle with
  | none => 0
  | some _ => s.lastPkt + timeoutTicks - s.timer + s.retriesLeft + 1

theorem rank_open (hopen : s.handle = some h) :
    s.rank = s.lastPkt + timeoutTicks - s.timer + s.retriesLeft + 1 := by
  rw [State.rank, hopen]

theorem rank_eq_zero_iff : s.rank = 0 ↔ s.handle = none := by
  unfold State.rank
  cases s.handle with
  | none => exact iff_of_true rfl rfl
  | some h => exact iff_of_false (Nat.succ_ne_zero _) (Option.some_ne_none h)

/-- **A tick is one tick less.** -/
theorem rank_tick (hphase : s.handle.isSome = true ∨ Closed s)
    (hstep : serverStep c s (.tick a) = some s') : s'.rank = s.rank - 1 := by
  rcases hphase with hopen | hclosed
  · obtain ⟨h, hopen⟩ := Option.isSome_iff_exists.mp hopen
    rw [rank_open hopen, Nat.add_sub_cancel]
    rcases tick_open hopen hstep with ⟨hearly, hs'⟩ | ⟨hlate, ⟨hlast, hretry⟩, hs'⟩ | hend
    · have hopen' : s'.handle = some h := by
        rw [hs']
        exact hopen
      rw [rank_open hopen', hs']
      show s.lastPkt + timeoutTicks - (s.timer + 1) + s.retriesLeft + 1 = _
      omega
    · have hopen' : s'.handle = some h := by
        rw [hs']
        exact hopen
      rw [rank_open hopen', hs']
      show s.lastPkt + timeoutTicks - (s.timer + 1) +
        (if s.lastData.isSome then maxRetries - (s.retries + 1) else 0) + 1 = _
      rw [State.retriesLeft, if_pos hlast, if_pos hlast]
      omega
    · obtain ⟨hlate, hover, hgone, -⟩ := hend
      have hnone : s.retriesLeft = 0 := by
        unfold State.retriesLeft
        split_ifs with hlast
        · exact Nat.sub_eq_zero_of_le (Nat.le_of_not_lt fun hlt => hover ⟨hlast, hlt⟩)
        · rfl
      rw [rank_eq_zero_iff.mpr hgone.handle, hnone]
      omega
  · rw [rank_eq_zero_iff.mpr hclosed.handle]
    cases between hclosed hstep with
    | expired _ hh => exact rank_eq_zero_iff.mpr (hh.handle.trans hclosed.handle)

/-- **The ticks of a run** without the peer. -/
theorem rank_run {es : List (Event κ)} (hphase : s.handle.isSome = true ∨ Closed s)
    (hleft : StepsMeet (serverStep c) Abandoned s es)
    (hrun : runFrom (serverStep c) s es = some s') :
    s'.rank = s.rank - es.countP Event.isTick := by
  induction es generalizing s with
  | nil =>
    rw [runFrom_nil, Option.some.injEq] at hrun
    rw [hrun]
    rfl
  | cons e es ih =>
    obtain ⟨t, hstep, hrest⟩ := runFrom_cons_iff.mp hrun
    rw [ih (open_or_closed hphase hstep) (hleft.2 t hstep) hrest]
    cases e with
    | recv d a =>
      have hpeer : Stranger s d := hleft.1
      have hsame : t = s := by
        rw [serverStep_recv.mp hstep, recv_fst, if_pos hpeer]
      rw [hsame, List.countP_cons_of_neg Bool.false_ne_true]
    | tick a =>
      rw [rank_tick hphase hstep, List.countP_cons_of_pos rfl]
      omega

/-- **When an abandoned session is over**: behind exactly `rank` ticks, which are sixteen at most,
or eleven without anything to send again. Until then there is always a next tick. -/
theorem session_ends {files : σ} {es : List (Event κ)}
    (hrun : runFrom (serverStep c) (tftpInit η files) es = some s)
    (hopen : s.handle.isSome = true) :
    (∀ a, (serverStep c s (.tick a)).isSome = true) ∧ s.rank ≤ 11 + s.retriesLeft ∧
      s.retriesLeft ≤ 5 ∧
      ∀ es' s', StepsMeet (serverStep c) Abandoned s es' →
        runFrom (serverStep c) s es' = some s' →
        (s'.handle = none ↔ s.rank ≤ es'.countP Event.isTick) := by
  have hrunning := run_running hrun
  have hpos := hrunning.timer hopen
  refine ⟨?_, ?_, ?_, ?_⟩
  · intro a
    rw [serverStep, react, if_neg (Nat.ne_of_gt hpos)]
    rfl
  · obtain ⟨h, hsome⟩ := Option.isSome_iff_exists.mp hopen
    have hclock := hrunning.clock
    rw [rank_open hsome]
    show s.lastPkt + 10 - s.timer + s.retriesLeft + 1 ≤ _
    omega
  · unfold State.retriesLeft
    split_ifs
    · exact Nat.sub_le 5 s.retries
    · exact Nat.zero_le 5
  · intro es' s' hleft hrun'
    rw [← rank_eq_zero_iff, rank_run hrunning.phase hleft hrun', Nat.sub_eq_zero_iff_le]

/-- An upload whose peer has left: eleven ticks. -/
theorem session_ends_upload : ∃ s,
    runFrom (serverStep ctxt) (sessionFor true []) (List.replicate 11 (.tick allWell)) = some s ∧
    s.handle = none := by
  have hrun : runFrom (serverStep ctxt) (tftpInit Unit (cardWith []))
      [.recv (requestFor true) allWell] = some (sessionFor true []) := rfl
  have hleft : StepsMeet (serverStep ctxt) Abandoned (sessionFor true [])
      (List.replicate 11 (.tick allWell)) := by
    refine StepsMeet.of_forall _ _ fun e he t => ?_
    rw [List.eq_of_mem_replicate he]
    exact trivial
  obtain ⟨s, hs⟩ : ∃ s, runFrom (serverStep ctxt) (sessionFor true [])
      (List.replicate 11 (.tick allWell)) = some s := Option.isSome_iff_exists.mp (by decide)
  have hends := (session_ends hrun (by decide)).2.2.2 _ s hleft hs
  exact ⟨s, hs, hends.mpr (by decide)⟩

/-! ## The timer list -/

/-- A request that gets past the first check, and opens no file. -/
def refusesRequest (c : Context σ η κ) (s : State σ η) : Event κ → Bool
  | .tick _ => false
  | .recv d a =>
    s.handle.isNone && (d.sbuf 0 == tftpRrq || d.sbuf 0 == tftpWrq) &&
      match request d.p.flatten with
      | .error _ => true
      | .ok (filename, mode) =>
        (c.openFile a.io s.files (cstr filename 0) (cstr mode 0)
          (d.sbuf 0 == tftpWrq)).1.isNone

/-- A refused request, as an entry in the history. -/
def refusals (c : Context σ η κ) (s : State σ η) (e : Event κ) : List Unit :=
  if refusesRequest c s e then [()] else []

/-- The call that a session has pending. -/
def State.own (s : State σ η) : Nat := if s.handle.isSome then 1 else 0

theorem own_open (hopen : s.handle = some h) : s.own = 1 := by
  rw [State.own, hopen]
  rfl

theorem own_closed (hnone : s.handle = none) : s.own = 0 := by
  rw [State.own, hnone]
  rfl

theorem requestOp_cases {write : Bool} (hop : d.sbuf 0 = requestOp write) :
    (d.sbuf 0 == tftpRrq || d.sbuf 0 == tftpWrq) = true ∧ (d.sbuf 0 == tftpWrq) = write := by
  rw [hop]
  cases write <;> decide

theorem refusesRequest_of_error {str : String} {write : Bool} (hnone : s.handle = none)
    (hop : d.sbuf 0 = requestOp write) (hreq : request d.p.flatten = .error str) :
    refusals c s (.recv d a) = [()] := by
  refine if_pos ?_
  unfold refusesRequest
  dsimp only
  rw [hnone, (requestOp_cases hop).1, hreq]
  rfl

theorem refusesRequest_of_null {write : Bool} {r : Option η × σ} (hnone : s.handle = none)
    (hop : d.sbuf 0 = requestOp write) (hcall : Calls c a s d write r) (hnull : r.1 = none) :
    refusals c s (.recv d a) = [()] := by
  obtain ⟨filename, mode, hreq, hr⟩ := hcall
  refine if_pos ?_
  unfold refusesRequest
  dsimp only
  rw [hnone, (requestOp_cases hop).1, hreq]
  dsimp only
  rw [(requestOp_cases hop).2, ← hr, hnull]
  rfl

/-- **One step and the timer list.** Only a refused request leaves a call behind. -/
theorem timers_step (hrunning : Running s) (hstep : serverStep c s e = some s') :
    s'.timeouts + s.own ≤ s.timeouts + s'.own + (refusals c s e).length := by
  have hheld : ∀ {t : State σ η}, Held t s' → t.handle = s.handle → t.timeouts = s.timeouts →
      s'.timeouts + s.own ≤ s.timeouts + s'.own + (refusals c s e).length := by
    intro t hh hsame htimer
    have hown : s'.own = s.own := by
      rw [State.own, State.own, hh.handle, hsame]
    rw [hh.timeouts, htimer, hown]
    omega
  rcases hrunning.phase with hopen | hclosed
  · have hpos := hrunning.timer hopen
    obtain ⟨h, hopen⟩ := Option.isSome_iff_exists.mp hopen
    have hgone : s'.timeouts ≤ s.timeouts - 1 →
        s'.timeouts + s.own ≤ s.timeouts + s'.own + (refusals c s e).length := by
      intro htimer
      rw [own_open hopen]
      omega
    cases turn hopen hstep with
    | held hh => exact hheld hh rfl rfl
    | stored _ _ _ _ hh => exact hheld hh rfl rfl
    | sent _ _ _ _ hh => exact hheld hh rfl rfl
    | unsent _ _ _ _ hh => exact hheld hh rfl rfl
    | storedLast _ _ _ _ _ htimer => exact hgone (Nat.le_of_eq htimer)
    | failed _ _ _ _ htimer => exact hgone htimer
    | readFailed _ _ _ _ _ htimer => exact hgone (Nat.le_of_eq htimer)
    | finished _ _ _ _ htimer => exact hgone (Nat.le_of_eq htimer)
    | timedOut _ htimer => exact hgone (Nat.le_of_eq htimer)
  · have hnone := hclosed.handle
    have hnew : ∀ {t : State σ η} {h : η}, Held t s' → t.handle = some h →
        t.timeouts = s.timeouts + 1 →
        s'.timeouts + s.own ≤ s.timeouts + s'.own + (refusals c s e).length := by
      intro t h hh hopen htimer
      rw [own_closed hnone, own_open (hh.handle.trans hopen), hh.timeouts, htimer]
      omega
    cases between hclosed hstep with
    | idle hh => exact hheld hh rfl rfl
    | expired _ hh =>
      rw [own_closed hnone, hh.timeouts]
      show s.timeouts - 1 + 0 ≤ _
      omega
    | refused hop hreq hh =>
      rw [own_closed hnone, hh.timeouts, refusesRequest_of_error hnone hop hreq]
      show s.timeouts + 1 + 0 ≤ s.timeouts + s'.own + 1
      omega
    | notFound hop hcall hnull hh =>
      rw [own_closed hnone, hh.timeouts, refusesRequest_of_null hnone hop hcall hnull]
      show s.timeouts + 1 + 0 ≤ s.timeouts + s'.own + 1
      omega
    | upload _ _ hopen hh => exact hnew hh hopen rfl
    | download _ _ hopen _ hh => exact hnew hh hopen rfl
    | unsent _ _ hopen hh => exact hnew hh hopen rfl
    | readFailed _ _ _ _ _ htimer =>
      rw [own_closed hnone, htimer]
      omega

/-- A session keeps the calls that are pending, its own and those it found. -/
theorem timeouts_step (hopen : s.handle.isSome = true) (hopen' : s'.handle.isSome = true)
    (hstep : serverStep c s e = some s') : s'.timeouts = s.timeouts := by
  obtain ⟨h, hopen⟩ := Option.isSome_iff_exists.mp hopen
  have hgone : ∀ {files : σ}, Gone files s' → s'.timeouts = s.timeouts := by
    intro files hgone
    rw [hgone.handle] at hopen'
    exact absurd hopen' Bool.false_ne_true
  cases turn hopen hstep with
  | held hh => exact hh.timeouts
  | stored _ _ _ _ hh => exact hh.timeouts
  | sent _ _ _ _ hh => exact hh.timeouts
  | unsent _ _ _ _ hh => exact hh.timeouts
  | storedLast _ _ _ _ hg => exact hgone hg
  | failed _ _ _ hg => exact hgone hg
  | readFailed _ _ _ _ hg => exact hgone hg
  | finished _ _ _ hg => exact hgone hg
  | timedOut hg => exact hgone hg

/-- There is a session before every step of the run. -/
def InSession (s : State σ η) (_ : Event κ) : Prop := s.handle.isSome = true

theorem timeouts_session {es : List (Event κ)} (hopen' : s'.handle.isSome = true)
    (hstays : StepsMeet (serverStep c) InSession s es)
    (hrun : runFrom (serverStep c) s es = some s') : s'.timeouts = s.timeouts := by
  induction es generalizing s with
  | nil =>
    rw [runFrom_nil, Option.some.injEq] at hrun
    rw [hrun]
  | cons e es ih =>
    obtain ⟨t, hstep, hrest⟩ := runFrom_cons_iff.mp hrun
    have hopen : t.handle.isSome = true := by
      cases es with
      | nil =>
        rw [runFrom_nil, Option.some.injEq] at hrest
        rw [hrest]
        exact hopen'
      | cons _ _ => exact (hstays.2 t hstep).1
    exact (ih (hstays.2 t hstep) hrest).trans (timeouts_step hstays.1 hopen hstep)

/-- **What is in the timer list.** There is a call for the session, and at most one more for every
request that was refused. A session that begins with calls of refused requests keeps them all. -/
theorem timers {files : σ} {es : List (Event κ)}
    (hrun : runFrom (serverStep c) (tftpInit η files) es = some s) :
    s.own ≤ s.timeouts ∧
      s.timeouts ≤
        s.own + (history (serverStep c) (refusals c) (tftpInit η files) es).length ∧
      ∀ es' s', StepsMeet (serverStep c) InSession s es' → s'.handle.isSome = true →
        runFrom (serverStep c) s es' = some s' → s'.timeouts = s.timeouts := by
  refine ⟨?_, ?_, fun es' s' hstays hopen' hrun' => timeouts_session hopen' hstays hrun'⟩
  · unfold State.own
    split_ifs with hopen
    · exact (run_running hrun).timer hopen
    · exact Nat.zero_le _
  · have hrule := runFrom_history_of_meets (C := fun _ _ => True) (f := refusals c)
      (I := fun t refused => Running t ∧ t.timeouts ≤ t.own + refused.length)
      (fun t e t' refused hI _ hstep => by
        obtain ⟨hrunning, hle⟩ := hI
        have hone := timers_step hrunning hstep
        refine ⟨running_step hrunning hstep, ?_⟩
        rw [List.length_append]
        omega)
      es (tftpInit η files) s [] ⟨tftpInit_running files, Nat.le_refl 0⟩
      (StepsMeet.of_forall es _ fun _ _ _ => trivial) hrun
    rw [List.nil_append] at hrule
    exact hrule.2

/-- A read request. -/
def readRequest : Datagram :=
  fromClient (requestPacket tftpRrq [0x62] (Sdcard.ascii "octet") []) (by decide)

/-- A request for a file that is not there, and one that opens a session: two calls are pending, and
at most that many. -/
theorem timers_refused : ∃ s,
    runFrom (serverStep ctxt) (tftpInit Unit (cardWith [1]))
      [.recv readRequest allWell, .recv (requestFor true) allWell] = some s ∧
    s.timeouts = 2 ∧ s.timeouts ≤ s.own + (history (serverStep ctxt) (refusals ctxt)
      (tftpInit Unit (cardWith [1]))
      [.recv readRequest allWell, .recv (requestFor true) allWell]).length :=
  ⟨_, rfl, by decide, (timers rfl).2.1⟩

end

end Acmi.Tftp
