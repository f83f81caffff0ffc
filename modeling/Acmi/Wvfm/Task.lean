import Acmi.Wvfm.Push

/-!
# The task on its own

`wvfmdata_push` with nothing behind the registers: at each access the register returns some value,
and a run is the list of these values. So what is proved here holds for every sequence of counts
and words, whatever the hardware does. `sees_of_run` says that the task of `Push` is this one, its
registers answering what the FIFO and the time stamp latch have.

Mirroring notes:
- A step is one register access, as in `Push`; where the task writes a register, and where it
  sends, the value of the step is not looked at.
- `Reads` is what the pass has been given so far. The program does not keep it: it is there to say
  where the contents of a message come from.
-/

namespace Acmi.Wvfm

open Acmi.Lib Acmi.Psc Acmi.Control

/-- What a pass has read: the counts of its waiting loop, the words, and the two registers of the
time stamp. -/
structure Reads where
  polled : List (BitVec 32)
  words : List (BitVec 32)
  stamp : List (BitVec 32)

/-- A pass that is over: what it read and what it sent. -/
structure Pass where
  reads : Reads
  messages : List (Nat × List Byte)

structure Task where
  pc : Pc
  arrays : Arrays
  reads : Reads
  passes : List Pass

/-- Before the task first runs. -/
def Task.init : Task := ⟨.poll, State.init.arrays, ⟨[], [], []⟩, []⟩

/-- The next access, for which the register returns `rdbk`. -/
def Task.access (t : Task) (rdbk : BitVec 32) : Task :=
  match t.pc with
  | .poll =>
    let t := { t with reads := { t.reads with polled := t.reads.polled ++ [rdbk] } }
    if rdbk < 8000 then t
    else if 8000 < rdbk then { t with pc := .readout 0 }
    else { t with pc := .rstHigh }
  | .readout k =>
    { t with
      arrays := t.arrays.store k rdbk
      reads := { t.reads with words := t.reads.words ++ [rdbk] }
      pc := if k + 1 < 8192 then .readout (k + 1) else .tsNs }
  | .tsNs =>
    { t with
      arrays := { t.arrays with timestamp := Function.update t.arrays.timestamp 0 (htonl rdbk) }
      reads := { t.reads with stamp := t.reads.stamp ++ [rdbk] }
      pc := .tsS }
  | .tsS =>
    { t with
      arrays := { t.arrays with timestamp := Function.update t.arrays.timestamp 1 (htonl rdbk) }
      reads := { t.reads with stamp := t.reads.stamp ++ [rdbk] }
      pc := .rstHigh }
  | .rstHigh => { t with pc := .rstLow }
  | .rstLow => { t with pc := .recount }
  | .recount => { t with pc := .send }
  | .send =>
    { t with
      passes := t.passes ++ [⟨t.reads, t.arrays.messages⟩]
      reads := ⟨[], [], []⟩
      pc := .poll }

/-- The task after the accesses that return `values`. -/
def Task.run (values : List (BitVec 32)) : Task := values.foldl Task.access .init

theorem Task.run_concat (values : List (BitVec 32)) (rdbk : BitVec 32) :
    Task.run (values ++ [rdbk]) = (Task.run values).access rdbk := by
  rw [Task.run, List.foldl_append]
  rfl

/-- **The invariant rule.** -/
theorem Task.run_invariant {I : Task → Prop} (hinit : I .init)
    (hstep : ∀ t rdbk, I t → I (t.access rdbk)) (values : List (BitVec 32)) :
    I (Task.run values) := by
  have hfrom : ∀ t, I t → I (values.foldl Task.access t) := by
    induction values with
    | nil => exact fun t h => h
    | cons rdbk values ih => exact fun t h => ih _ (hstep t rdbk h)
  exact hfrom .init hinit

/-! ## The task among the hardware -/

/-- What the register of the next access returns. -/
def State.reading (stale : BitVec 32) (s : State) : BitVec 32 :=
  match s.pc with
  | .poll | .recount => BitVec.ofNat 32 s.fifo.length
  | .readout _ => (s.fifo.head?.map Slot.word).getD stale
  | .tsNs => s.latReg .evrTsNsLat
  | .tsS => s.latReg .evrTsSLat
  | .rstHigh | .rstLow | .send => 0

/-- The task of `s` is `t`. -/
structure Sees (s : State) (t : Task) : Prop where
  pc : s.pc = t.pc
  arrays : s.arrays = t.arrays
  sent : s.sent = t.passes.map Pass.messages

theorem sees_act {stale : BitVec 32} {s : State} {t : Task} (h : Sees s t)
    (hcount : s.fifo.length < 2 ^ 32) : Sees (act stale s) (t.access (s.reading stale)) := by
  obtain ⟨hpc, harrays, hsent⟩ := h
  cases hp : s.pc with
  | poll =>
    have hlen : (BitVec.ofNat 32 s.fifo.length).toNat = s.fifo.length := by
      rw [BitVec.toNat_ofNat, Nat.mod_eq_of_lt hcount]
    have hfew : BitVec.ofNat 32 s.fifo.length < 8000 ↔ s.fifo.length < 8000 := by
      rw [BitVec.lt_def, hlen]
      rfl
    have hmany : 8000 < BitVec.ofNat 32 s.fifo.length ↔ 8000 < s.fifo.length := by
      rw [BitVec.lt_def, hlen]
      rfl
    simp only [act, Task.access, State.reading, hp, ← hpc, hfew, hmany]
    split_ifs
    · exact ⟨hp, harrays, hsent⟩
    · exact ⟨rfl, harrays, hsent⟩
    · exact ⟨rfl, harrays, hsent⟩
  | readout k =>
    simp only [act, Task.access, State.reading, hp, ← hpc, ← harrays]
    exact ⟨rfl, rfl, hsent⟩
  | tsNs =>
    simp only [act, Task.access, State.reading, hp, ← hpc, ← harrays]
    exact ⟨rfl, rfl, hsent⟩
  | tsS =>
    simp only [act, Task.access, State.reading, hp, ← hpc, ← harrays]
    exact ⟨rfl, rfl, hsent⟩
  | rstHigh =>
    simp only [act, Task.access, hp, ← hpc]
    exact ⟨rfl, harrays, hsent⟩
  | rstLow =>
    simp only [act, Task.access, hp, ← hpc]
    exact ⟨rfl, harrays, hsent⟩
  | recount =>
    simp only [act, Task.access, hp, ← hpc]
    exact ⟨rfl, harrays, hsent⟩
  | send =>
    simp only [act, Task.access, hp, ← hpc]
    refine ⟨rfl, harrays, ?_⟩
    rw [List.map_append, ← hsent, ← harrays]
    rfl

/-- The hardware does not touch the task. -/
theorem sees_step {stale : BitVec 32} {s s' : State} {t : Task} {e : Event} (h : Sees s t)
    (hcount : s.fifo.length < 2 ^ 32) (hs : step stale s e = some s') :
    Sees s' t ∨ Sees s' (t.access (s.reading stale)) := by
  cases e with
  | begin f =>
    cases hsending : s.sending with
    | some x => simp only [step, hsending, reduceCtorEq] at hs
    | none =>
      simp only [step, hsending, Option.some.injEq] at hs
      exact Or.inl (hs ▸ ⟨h.pc, h.arrays, h.sent⟩)
  | word =>
    cases hsending : s.sending with
    | none => simp only [step, hsending, reduceCtorEq] at hs
    | some x =>
      obtain ⟨f, k⟩ := x
      simp only [step, hsending, Option.some.injEq] at hs
      exact Or.inl (hs ▸ ⟨h.pc, h.arrays, h.sent⟩)
  | act =>
    rw [step, Option.some.injEq] at hs
    exact Or.inr (hs ▸ sees_act h hcount)

/-- **In every run the task is one that got some values from its registers**, as long as the count
fits its register. -/
theorem sees_of_run {stale : BitVec 32} {es : List Event} {s : State}
    (hrun : runFrom (step stale) .init es = some s)
    (hcount : StepsMeet (step stale) (fun s _ => s.fifo.length < 2 ^ 32) .init es) :
    ∃ values, Sees s (Task.run values) := by
  refine runFrom_invariant_of_meets (I := fun s => ∃ values, Sees s (Task.run values)) ?_
    ⟨[], rfl, rfl, rfl⟩ hcount hrun
  rintro s e s' ⟨values, h⟩ hlt hs
  rcases sees_step h hlt hs with h' | h'
  · exact ⟨values, h'⟩
  · exact ⟨values ++ [s.reading stale], Task.run_concat values _ ▸ h'⟩

end Acmi.Wvfm
