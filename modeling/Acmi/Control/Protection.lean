import Acmi.Control.Handlers
import Acmi.Lib.Trace
import Mathlib.Logic.Function.Basic

/-!
# The machine protection lines

Two parties work the same three registers: the console task, and one handler thread for each
client. `LATCH_RESET` and `ACIS_FORCE_TRIP` are pulsed low by two writes; `ACIS_KEYLOCK` is a
level, of which the console keeps the shadow `keylock_val`. Here any of them may begin a
command at any time when it has none in progress, and a step is one register write, or the
change of the shadow.

Each command ends with the pulsed lines high, so at rest they are high whatever was interleaved
(`pulses_at_rest`). The keylock message of a client writes the register and leaves the shadow as
it is. So at rest the two agree as long as no such write comes while the shadow is 0
(`KeepsShadow`, `lines_at_rest`); one that does leaves them apart (`shadow_lost`).
-/

namespace Acmi.Control

open Acmi.Lib

/-! ## Parties, commands and steps -/

/-- The entries of the console menu that work these lines. -/
inductive ConsoleCommand
  | resetFaults
  | acisForceTrip
  | acisKeylock

inductive Party
  | console
  | client (n : Nat)
  deriving DecidableEq

/-- The steps of a command. -/
inductive Action
  | out (w : RegWrite)
  | toggle       -- `keylock_val ^= 1`
  | outKeylock   -- `Xil_Out32(XPAR_M_AXI_BASEADDR + ACIS_KEYLOCK, keylock_val)`
  deriving DecidableEq

def ConsoleCommand.actions : ConsoleCommand → List Action
  | resetFaults => [.out ⟨.latchReset, 0⟩, .out ⟨.latchReset, 1⟩]
  | acisForceTrip => [.out ⟨.acisForceTrip, 0⟩, .out ⟨.acisForceTrip, 1⟩]
  | acisKeylock => [.toggle, .outKeylock]

/-- The three registers of the register block; each is one bit wide. -/
structure Lines where
  latchReset : BitVec 1
  acisForceTrip : BitVec 1
  acisKeylock : BitVec 1
  deriving DecidableEq

def Lines.write (l : Lines) (w : RegWrite) : Lines :=
  match w.reg with
  | .latchReset => { l with latchReset := w.val.setWidth 1 }
  | .acisForceTrip => { l with acisForceTrip := w.val.setWidth 1 }
  | .acisKeylock => { l with acisKeylock := w.val.setWidth 1 }
  | _ => l

/-- The registers, the shadow, and the steps each party still has before it. -/
structure Protection where
  lines : Lines
  keylockVal : Byte
  todo : Party → List Action

/-- The reset values of the registers and the initial value of the shadow. -/
def Protection.start : Protection := ⟨⟨1, 1, 1⟩, 1, fun _ => []⟩

/-- The operator picks a command, a register message of client `n` is dispatched, or a party
makes its next step. -/
inductive ProtEvent
  | console (c : ConsoleCommand)
  | message (n : Nat) (addr data : BitVec 32)
  | act (p : Party)

def Protection.perform (s : Protection) : Action → Protection
  | .out w => { s with lines := s.lines.write w }
  | .toggle => { s with keylockVal := s.keylockVal ^^^ 1 }
  | .outKeylock => { s with lines := s.lines.write ⟨.acisKeylock, s.keylockVal.setWidth 32⟩ }

/-- A party that has no command in progress begins one. -/
def Protection.begin (s : Protection) (p : Party) (as : List Action) : Option Protection :=
  if s.todo p = [] then some { s with todo := Function.update s.todo p as } else none

def Protection.step (s : Protection) : ProtEvent → Option Protection
  | .console c => s.begin .console c.actions
  | .message n addr data => s.begin (.client n) ((regCommand addr data).map .out)
  | .act p =>
    match s.todo p with
    | [] => none
    | a :: as => some { s.perform a with todo := Function.update s.todo p as }

/-- No command is in progress. -/
def Protection.AtRest (s : Protection) : Prop := ∀ p, s.todo p = []

/-- The register is the shadow. -/
def Protection.Agree (s : Protection) : Prop := s.lines.acisKeylock.toNat = s.keylockVal.toNat

/-- The console is between the change of the shadow and the write of it. -/
def Protection.Pending (s : Protection) : Prop := Action.outKeylock ∈ s.todo .console

/-- A step that is not a client's keylock write, or one while the shadow is 1 or the console is
about to write the register anyway. -/
def KeepsShadow (s : Protection) : ProtEvent → Prop
  | .act (.client n) =>
    (∃ v, (s.todo (.client n)).head? = some (.out ⟨.acisKeylock, v⟩)) →
      s.keylockVal = 1 ∨ s.Pending
  | _ => True

/-! ## The shape of a command -/

/-- A register that is pulsed low. -/
def Pulsed (r : Reg) : Prop := r = .latchReset ∨ r = .acisForceTrip

/-- What may come first in the steps of `p` when `as` comes behind it: a pulsed line goes up
again, the keylock is written by the console with its shadow and by a client with a 1. -/
def Orderly (p : Party) (as : List Action) : Action → Prop
  | .out w =>
    (Pulsed w.reg → w.val = 1 ∨ .out ⟨w.reg, 1⟩ ∈ as) ∧
      (w.reg = .acisKeylock → p ≠ .console ∧ w.val = 1)
  | .toggle => p = .console ∧ .outKeylock ∈ as
  | .outKeylock => p = .console

def WellShaped (p : Party) : List Action → Prop
  | [] => True
  | a :: as => Orderly p as a ∧ WellShaped p as

theorem consoleCommand_shape (c : ConsoleCommand) : WellShaped .console c.actions := by
  cases c <;> simp [ConsoleCommand.actions, WellShaped, Orderly]

theorem regCommand_shape (n : Nat) (addr data : BitVec 32) :
    WellShaped (.client n) ((regCommand addr data).map .out) := by
  unfold regCommand
  repeat' split
  · simp [setFpleds, WellShaped, Orderly, Pulsed]
  · trivial
  · simp [WellShaped, Orderly, Pulsed]
  · simp [WellShaped, Orderly, Pulsed]
  · unfold latchResetTrig
    split <;> simp [WellShaped, Orderly]
  · unfold acisForceTrip
    split <;> simp [WellShaped, Orderly]
  · unfold acisKeylock
    split
    next h => simp [WellShaped, Orderly, Pulsed, h]
    next => trivial
  · trivial

/-! ## One step -/

/-- What a step can be: a party without a command begins one of a good shape, or a party performs
the first of its steps. -/
theorem step_cases {s s' : Protection} {e : ProtEvent} (h : s.step e = some s') :
    (∃ p as, s.todo p = [] ∧ WellShaped p as ∧
        s' = { s with todo := Function.update s.todo p as }) ∨
      ∃ p a as, e = .act p ∧ s.todo p = a :: as ∧
        s' = { s.perform a with todo := Function.update s.todo p as } := by
  cases e with
  | console c =>
    simp only [Protection.step, Protection.begin] at h
    split at h
    next hidle =>
      cases h
      exact Or.inl ⟨_, _, hidle, consoleCommand_shape c, rfl⟩
    next => cases h
  | message n addr data =>
    simp only [Protection.step, Protection.begin] at h
    split at h
    next hidle =>
      cases h
      exact Or.inl ⟨_, _, hidle, regCommand_shape n addr data, rfl⟩
    next => cases h
  | act p =>
    simp only [Protection.step] at h
    cases htodo : s.todo p with
    | nil =>
      rw [htodo] at h
      cases h
    | cons a as =>
      rw [htodo] at h
      cases h
      exact Or.inr ⟨p, a, as, rfl, htodo, rfl⟩

/-- The level of a pulsed line. -/
def Lines.pulsed (l : Lines) (r : Reg) : BitVec 1 :=
  if r = .latchReset then l.latchReset else l.acisForceTrip

theorem pulsed_write (l : Lines) (w : RegWrite) {r : Reg} (hr : Pulsed r) :
    (l.write w).pulsed r = if w.reg = r then w.val.setWidth 1 else l.pulsed r := by
  obtain ⟨reg, val⟩ := w
  rcases hr with rfl | rfl <;> cases reg <;> rfl

theorem keylock_write (l : Lines) (w : RegWrite) :
    (l.write w).acisKeylock = if w.reg = .acisKeylock then w.val.setWidth 1 else l.acisKeylock := by
  obtain ⟨reg, val⟩ := w
  cases reg <;> rfl

/-- What holds in every run. -/
structure ProtInv (s : Protection) : Prop where
  shape : ∀ p, WellShaped p (s.todo p)
  shadow : s.keylockVal = 0 ∨ s.keylockVal = 1
  /-- A line that is low is going to be raised. -/
  pulses : ∀ r, Pulsed r → s.lines.pulsed r = 1 ∨ ∃ p, .out ⟨r, 1⟩ ∈ s.todo p

theorem start_inv : ProtInv .start where
  shape _ := trivial
  shadow := Or.inr rfl
  pulses r hr := Or.inl (by rcases hr with rfl | rfl <;> rfl)

section

variable {s s' : Protection} {e : ProtEvent}

/-- Beginning a command. -/
theorem ProtInv.begin (h : ProtInv s) {p : Party} {as : List Action} (hidle : s.todo p = [])
    (has : WellShaped p as) : ProtInv { s with todo := Function.update s.todo p as } := by
  refine ⟨fun q => ?_, h.shadow, fun r hr => ?_⟩
  · by_cases hq : q = p
    · rw [hq]
      simpa using has
    · simpa [Function.update_of_ne hq] using h.shape q
  · rcases h.pulses r hr with hup | ⟨q, hq⟩
    · exact Or.inl hup
    · refine Or.inr ⟨q, ?_⟩
      have hqp : q ≠ p := fun heq => by
        rw [heq, hidle] at hq
        exact absurd hq List.not_mem_nil
      simpa [Function.update_of_ne hqp] using hq

/-- What the first step of a command does to a pulsed line: nothing, or it raises it, or the step
that raises it comes behind in the same command. -/
theorem pulsed_perform {p : Party} {a : Action} {as : List Action} (hfirst : Orderly p as a)
    {r : Reg} (hr : Pulsed r) :
    (s.perform a).lines.pulsed r = s.lines.pulsed r ∨ (s.perform a).lines.pulsed r = 1 ∨
      .out ⟨r, 1⟩ ∈ as := by
  cases a with
  | toggle => exact Or.inl rfl
  | outKeylock =>
    refine Or.inl ((pulsed_write _ _ hr).trans (if_neg ?_))
    rcases hr with rfl | rfl <;> exact fun h => Reg.noConfusion h
  | out w =>
    by_cases hw : w.reg = r
    · rcases hfirst.1 (by rw [hw]; exact hr) with hone | hmem
      · refine Or.inr (Or.inl ((pulsed_write _ _ hr).trans ?_))
        rw [if_pos hw, hone]
        rfl
      · exact Or.inr (Or.inr (hw ▸ hmem))
    · exact Or.inl ((pulsed_write _ _ hr).trans (if_neg hw))

/-- Performing the first step of a command. -/
theorem ProtInv.perform (h : ProtInv s) {p : Party} {a : Action} {as : List Action}
    (htodo : s.todo p = a :: as) :
    ProtInv { s.perform a with todo := Function.update s.todo p as } := by
  have hshape := h.shape p
  rw [htodo] at hshape
  obtain ⟨hfirst, hrest⟩ := hshape
  refine ⟨fun q => ?_, ?_, fun r hr => ?_⟩
  · by_cases hq : q = p
    · rw [hq]
      simpa using hrest
    · simpa [Function.update_of_ne hq] using h.shape q
  · cases a with
    | toggle =>
      show s.keylockVal ^^^ 1 = 0 ∨ s.keylockVal ^^^ 1 = 1
      rcases h.shadow with hval | hval <;> rw [hval]
      · exact Or.inr rfl
      · exact Or.inl rfl
    | out w => exact h.shadow
    | outKeylock => exact h.shadow
  · have hmem : ∀ {b}, b ∈ as → ∃ q, b ∈ Function.update s.todo p as q := fun hb =>
      ⟨p, by simpa using hb⟩
    rcases pulsed_perform hfirst hr with hsame | hup | hlater
    · rcases h.pulses r hr with hup | ⟨q, hq⟩
      · exact Or.inl (hsame.trans hup)
      · by_cases hqp : q = p
        · rw [hqp, htodo] at hq
          rcases List.mem_cons.mp hq with hnow | hlater
          · left
            rw [← hnow]
            exact (pulsed_write _ _ hr).trans (if_pos rfl)
          · exact Or.inr (hmem hlater)
        · exact Or.inr ⟨q, by simpa [Function.update_of_ne hqp] using hq⟩
    · exact Or.inl hup
    · exact Or.inr (hmem hlater)

theorem step_protInv (h : ProtInv s) (hs : s.step e = some s') : ProtInv s' := by
  rcases step_cases hs with ⟨p, as, hidle, has, rfl⟩ | ⟨p, a, as, -, htodo, rfl⟩
  · exact h.begin hidle has
  · exact h.perform htodo

/-! ## The keylock -/

/-- The shadow written to the register. -/
theorem agree_of_written (h : ProtInv s) :
    ((s.keylockVal.setWidth 32).setWidth 1 : BitVec 1).toNat = s.keylockVal.toNat := by
  rcases h.shadow with hval | hval <;> rw [hval] <;> rfl

/-- A write of a constant is not the one that the shadow waits for. -/
theorem pending_out {p : Party} {w : RegWrite} {as : List Action} (htodo : s.todo p = .out w :: as)
    (hmem : s.Pending) :
    Protection.Pending { s.perform (.out w) with todo := Function.update s.todo p as } := by
  show _ ∈ Function.update s.todo p as .console
  by_cases hp : Party.console = p
  · unfold Protection.Pending at hmem
    rw [hp, htodo, List.mem_cons] at hmem
    rw [hp, Function.update_self]
    exact hmem.resolve_left fun h => Action.noConfusion h
  · rw [Function.update_of_ne hp]
    exact hmem

/-- The register agrees with the shadow, or is about to. -/
theorem step_keylock (h : ProtInv s) (hkeys : s.Agree ∨ s.Pending) (hkeeps : KeepsShadow s e)
    (hs : s.step e = some s') : s'.Agree ∨ s'.Pending := by
  rcases step_cases hs with ⟨p, as, hidle, -, rfl⟩ | ⟨p, a, as, rfl, htodo, rfl⟩
  · rcases hkeys with hagree | hpending
    · exact Or.inl hagree
    · have hp : Party.console ≠ p := fun heq => by
        unfold Protection.Pending at hpending
        rw [heq, hidle] at hpending
        exact absurd hpending List.not_mem_nil
      exact Or.inr (by simpa [Protection.Pending, Function.update_of_ne hp] using hpending)
  · have hshape := h.shape p
    rw [htodo] at hshape
    obtain ⟨hfirst, -⟩ := hshape
    cases a with
    | toggle =>
      obtain ⟨rfl, hmem⟩ := hfirst
      exact Or.inr (by simpa [Protection.Pending] using hmem)
    | outKeylock => exact Or.inl (agree_of_written h)
    | out w =>
      by_cases hw : w.reg = .acisKeylock
      · obtain ⟨hclient, hone⟩ := hfirst.2 hw
        cases p with
        | console => exact absurd rfl hclient
        | client n =>
          have hhead : (s.todo (.client n)).head? = some (.out ⟨.acisKeylock, 1⟩) := by
            rw [htodo, List.head?_cons, ← hw, ← hone]
          -- the register becomes 1: the shadow is 1, or the console is about to write it
          rcases hkeeps ⟨1, hhead⟩ with hval | hmem
          · left
            show ((s.lines.write w).acisKeylock).toNat = s.keylockVal.toNat
            rw [keylock_write, if_pos hw, hone, hval]
            rfl
          · exact Or.inr (pending_out htodo hmem)
      · rcases hkeys with hagree | hmem
        · left
          show ((s.lines.write w).acisKeylock).toNat = s.keylockVal.toNat
          rw [keylock_write, if_neg hw]
          exact hagree
        · exact Or.inr (pending_out htodo hmem)

/-- A step that does not keep the shadow leaves register and shadow apart, with no write of the
console to come. -/
theorem shadow_lost (h : ProtInv s) (hlost : ¬ KeepsShadow s e) (hs : s.step e = some s') :
    ¬ s'.Agree ∧ ¬ s'.Pending := by
  match e, hlost with
  | .console _, hlost => exact absurd trivial hlost
  | .message _ _ _, hlost => exact absurd trivial hlost
  | .act .console, hlost => exact absurd trivial hlost
  | .act (.client n), hlost =>
    simp only [KeepsShadow, Classical.not_imp, not_or] at hlost
    obtain ⟨⟨v, hhead⟩, hval, hpending⟩ := hlost
    obtain ⟨as, htodo⟩ := List.head?_eq_some_iff.mp hhead
    have hshape := h.shape (.client n)
    rw [htodo] at hshape
    have hone : v = 1 := (hshape.1.2 rfl).2
    have hzero : s.keylockVal = 0 := h.shadow.resolve_right hval
    simp only [Protection.step, htodo, Option.some.injEq] at hs
    subst hs
    refine ⟨?_, ?_⟩
    · show ¬ ((s.lines.write ⟨.acisKeylock, v⟩).acisKeylock).toNat = s.keylockVal.toNat
      rw [keylock_write, if_pos rfl, hone, hzero]
      decide
    · simpa [Protection.Pending] using hpending

/-- The console's keylock command inverts the line when register and shadow agree. -/
theorem keylock_inverts (h : ProtInv s) (hidle : s.todo .console = []) (hagree : s.Agree) :
    ∃ s', runFrom Protection.step s [.console .acisKeylock, .act .console, .act .console] =
      some s' ∧ s'.lines.acisKeylock = ~~~ s.lines.acisKeylock := by
  have hrun : runFrom Protection.step s [.console .acisKeylock, .act .console, .act .console] =
      some { s with
        lines := s.lines.write ⟨.acisKeylock, (s.keylockVal ^^^ 1).setWidth 32⟩
        keylockVal := s.keylockVal ^^^ 1
        todo := Function.update (Function.update (Function.update s.todo .console
          [.toggle, .outKeylock]) .console [.outKeylock]) .console [] } := by
    simp [runFrom, Protection.step, Protection.begin, hidle, ConsoleCommand.actions,
      Protection.perform]
  refine ⟨_, hrun, BitVec.eq_of_toNat_eq ?_⟩
  have hline : s.lines.acisKeylock = s.keylockVal.setWidth 1 := by
    apply BitVec.eq_of_toNat_eq
    rw [hagree]
    rcases h.shadow with hval | hval <;> rw [hval] <;> rfl
  show ((s.lines.write _).acisKeylock).toNat = _
  rw [keylock_write, if_pos rfl, hline]
  rcases h.shadow with hval | hval <;> rw [hval] <;> rfl

end

/-! ## Runs -/

/-- **The protection lines at rest**: after any interleaving, when no command is in progress, the
pulsed lines are high; and the keylock is the console's shadow, so that the next console command
inverts it, if every client's keylock write came while the shadow was 1 or before a write of the
console. -/
theorem lines_at_rest (events : List ProtEvent) (s : Protection)
    (hrun : runFrom Protection.step .start events = some s) (hrest : s.AtRest) :
    (s.lines.latchReset = 1 ∧ s.lines.acisForceTrip = 1) ∧
      (StepsMeet Protection.step KeepsShadow .start events →
        s.Agree ∧ ∃ s', runFrom Protection.step s
          [.console .acisKeylock, .act .console, .act .console] = some s' ∧
            s'.lines.acisKeylock = ~~~ s.lines.acisKeylock) := by
  have hinv : ProtInv s := runFrom_invariant (fun _ _ _ h hs => step_protInv h hs) start_inv hrun
  have hup : ∀ r, Pulsed r → s.lines.pulsed r = 1 := by
    intro r hr
    rcases hinv.pulses r hr with hup | ⟨p, hp⟩
    · exact hup
    · rw [hrest p] at hp
      exact absurd hp List.not_mem_nil
  refine ⟨⟨hup .latchReset (Or.inl rfl), hup .acisForceTrip (Or.inr rfl)⟩, fun hmeets => ?_⟩
  have hkeys : ProtInv s ∧ (s.Agree ∨ s.Pending) :=
    runFrom_invariant_of_meets (I := fun t => ProtInv t ∧ (t.Agree ∨ t.Pending))
      (fun _ _ _ h hkeeps hs => ⟨step_protInv h.1 hs, step_keylock h.1 h.2 hkeeps hs⟩)
      ⟨start_inv, Or.inl rfl⟩ hmeets hrun
  have hagree : s.Agree := by
    refine hkeys.2.resolve_right fun hpending => ?_
    unfold Protection.Pending at hpending
    rw [hrest] at hpending
    exact absurd hpending List.not_mem_nil
  exact ⟨hagree, keylock_inverts hinv (hrest .console) hagree⟩

/-- A party whose steps are all made is at rest, and the others never had any. -/
theorem atRest_of_two {s : Protection} (hconsole : s.todo .console = [])
    (hclient : s.todo (.client 0) = []) (hothers : ∀ n, n ≠ 0 → s.todo (.client n) = []) :
    s.AtRest := by
  intro p
  cases p with
  | console => exact hconsole
  | client n =>
    by_cases hn : n = 0
    · rw [hn]
      exact hclient
    · exact hothers n hn

/-- A keylock message, and the console's keylock and a client's force trip interleaved. -/
def mixedCommands : List ProtEvent :=
  [.message 0 20 1, .act (.client 0), .console .acisKeylock, .act .console, .message 0 16 1,
    .act (.client 0), .act (.client 0), .act .console]

theorem lines_at_rest_mixed : ∃ s, runFrom Protection.step .start mixedCommands = some s ∧
    s.AtRest ∧ StepsMeet Protection.step KeepsShadow .start mixedCommands ∧
    s.lines.acisForceTrip = 1 ∧ s.lines.acisKeylock = 0 ∧ s.Agree := by
  obtain ⟨s, hrun, hlines, hrest⟩ : ∃ s, runFrom Protection.step .start mixedCommands = some s ∧
      s.lines.acisKeylock = 0 ∧ s.AtRest := by
    refine ⟨_, rfl, rfl, atRest_of_two rfl rfl fun n hn => ?_⟩
    have hne : Party.client n ≠ .client 0 := fun h => hn (Party.client.inj h)
    simp [Function.update_of_ne hne, Protection.start]
  -- the force trip falls between the two steps of the console
  have hmeets : StepsMeet Protection.step KeepsShadow .start mixedCommands :=
    .cons trivial rfl <| .cons (fun _ => Or.inl rfl) rfl <| .cons trivial rfl <|
      .cons trivial rfl <| .cons trivial rfl <| .cons (fun _ => Or.inr (.head _)) rfl <|
      .cons (fun _ => Or.inr (.head _)) rfl <| .cons trivial rfl trivial
  obtain ⟨⟨-, htrip⟩, hkeylock⟩ := lines_at_rest mixedCommands s hrun hrest
  exact ⟨s, hrun, hrest, hmeets, htrip, hlines, (hkeylock hmeets).1⟩

/-- The console locks, and a client unlocks. -/
def unlockedByClient : List ProtEvent :=
  [.console .acisKeylock, .act .console, .act .console, .message 0 20 1, .act (.client 0)]

/-- The register is 1 and the shadow 0, and the next console command leaves the line as it is. -/
theorem unlocked_by_client : ∃ s s', runFrom Protection.step .start unlockedByClient = some s ∧
    s.AtRest ∧ s.lines.acisKeylock = 1 ∧ s.keylockVal = 0 ∧ ¬ s.Agree ∧
    runFrom Protection.step s [.console .acisKeylock, .act .console, .act .console] = some s' ∧
    s'.lines.acisKeylock = s.lines.acisKeylock := by
  refine ⟨_, _, rfl, atRest_of_two rfl rfl fun n hn => ?_, rfl, rfl, ?_, rfl, rfl⟩
  · have hne : Party.client n ≠ .client 0 := fun h => hn (Party.client.inj h)
    simp [Function.update_of_ne hne, Protection.start]
  · unfold Protection.Agree
    decide

end Acmi.Control
