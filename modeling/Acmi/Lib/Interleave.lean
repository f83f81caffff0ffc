import Acmi.Lib.Trace
import Mathlib.Logic.Function.Basic

/-!
# Threads that work off lists of actions

Any number of threads `ι`, each with a list of actions still to do, and a state they share.
A step is the next action of one thread; `exec` says what the action does to the shared
state. A schedule is the list of the threads that step, so every schedule that runs is an
interleaving of the threads' lists.

`performed` is the interleaving itself. `run_performed` says what it is: its part of every
thread is what that thread had to do, in its order, up to what is left, and the shared state
is what the interleaving made of it. `Threads.complete` is the case in which nothing is left.
-/

namespace Acmi.Lib

variable {ι α σ : Type}

/-- What the threads still have to do, and what they share. -/
structure Threads (ι α σ : Type) where
  todo : ι → List α
  shared : σ

namespace Threads

/-- The action thread `i` performs next. -/
def next (s : Threads ι α σ) (i : ι) : List (ι × α) :=
  match s.todo i with
  | [] => []
  | a :: _ => [(i, a)]

theorem next_of_todo {s : Threads ι α σ} {i : ι} {a : α} {as : List α} (h : s.todo i = a :: as) :
    s.next i = [(i, a)] := by
  rw [next, h]

variable [DecidableEq ι]

/-- Thread `i` performs its next action. -/
def step (exec : σ → ι → α → σ) (s : Threads ι α σ) (i : ι) : Option (Threads ι α σ) :=
  match s.todo i with
  | [] => none
  | a :: as => some ⟨Function.update s.todo i as, exec s.shared i a⟩

/-- The actions of a run, in order. -/
def performed (exec : σ → ι → α → σ) (s : Threads ι α σ) (sched : List ι) : List (ι × α) :=
  history (step exec) next s sched

/-- The part of thread `i`. -/
def part (i : ι) (es : List (ι × α)) : List α := (es.filter fun e => e.1 = i).map Prod.snd

theorem part_append (i : ι) (es fs : List (ι × α)) :
    part i (es ++ fs) = part i es ++ part i fs := by
  simp [part]

theorem part_singleton (i j : ι) (a : α) : part i [(j, a)] = if j = i then [a] else [] := by
  unfold part
  rw [List.filter_singleton]
  by_cases hji : j = i
  · simp [hji]
  · simp [hji]

theorem step_some {exec : σ → ι → α → σ} {s s' : Threads ι α σ} {i : ι}
    (h : step exec s i = some s') : ∃ a as, s.todo i = a :: as ∧
      s' = ⟨Function.update s.todo i as, exec s.shared i a⟩ := by
  unfold step at h
  split at h
  next => exact absurd h (by simp)
  next a as htodo => exact ⟨a, as, htodo, (Option.some.inj h).symm⟩

/-- **A run is an interleaving** of what the threads had to do. -/
theorem run_performed {exec : σ → ι → α → σ} {s s' : Threads ι α σ} {sched : List ι}
    (hrun : runFrom (step exec) s sched = some s') :
    s'.shared = (performed exec s sched).foldl (fun x e => exec x e.1 e.2) s.shared ∧
    ∀ i, part i (performed exec s sched) ++ s'.todo i = s.todo i := by
  have h := runFrom_history_of_meets (f := next) (C := fun _ _ => True)
    (I := fun (t : Threads ι α σ) es =>
      t.shared = es.foldl (fun x e => exec x e.1 e.2) s.shared ∧
      ∀ i, part i es ++ t.todo i = s.todo i) ?_ sched s s' [] ⟨rfl, fun i => rfl⟩
    (StepsMeet.of_forall sched s fun _ _ _ => trivial) hrun
  · exact h
  · rintro t i t' es ⟨hshared, htodo⟩ - hstep
    obtain ⟨a, as, hi, rfl⟩ := step_some hstep
    rw [next_of_todo hi]
    refine ⟨?_, fun j => ?_⟩
    · rw [List.foldl_append, ← hshared]
      rfl
    · rw [part_append, part_singleton, List.append_assoc, ← htodo j]
      by_cases hij : i = j
      · subst hij
        simp [hi]
      · simp [hij, Function.update_of_ne (Ne.symm hij)]

/-- The interleaving of a run that finished everything. -/
theorem complete {exec : σ → ι → α → σ} {s s' : Threads ι α σ} {sched : List ι}
    (hrun : runFrom (step exec) s sched = some s') (hdone : ∀ i, s'.todo i = []) :
    s'.shared = (performed exec s sched).foldl (fun x e => exec x e.1 e.2) s.shared ∧
    ∀ i, part i (performed exec s sched) = s.todo i := by
  obtain ⟨hshared, htodo⟩ := run_performed hrun
  refine ⟨hshared, fun i => ?_⟩
  have h := htodo i
  rwa [hdone i, List.append_nil] at h

end Threads

end Acmi.Lib
